/-
# `Oxyn.Search.Request` — the console grammar

One request: a method and a path on one line, and the body on the lines behind it.  Whole-line
comments are the user's notes.  The path stays on the configured server, and reaches it as it is
written.
-/
import Oxyn.Lib.Fallible
import Oxyn.Search.Classify

namespace Oxyn.Search

open Text Json

variable {F : Type}

structure JsonReader (F : Type) where
  fromStr : Str → Except (Nat × Nat) (Json.Value F)

/-- `str::lines`. -/
def lines (text : Str) : List Str :=
  let pieces := text.splitOn '\n'
  let last := pieces.getLastD []
  (pieces.dropLast.map fun line => if line.getLast? = some '\r' then line.dropLast else line) ++
    if last = [] then [] else [last]

def isAsciiSpace (c : Char) : Bool :=
  c == ' ' || c == '\t' || c == '\n' || c == '\x0c' || c == '\r'

/-- `str::split_ascii_whitespace`. -/
def asciiWords (text : Str) : List Str :=
  (text.splitOnP isAsciiSpace).filter fun word => !word.isEmpty

def isComment (line : Str) : Bool :=
  let line := trimStart line
  "#".toList.isPrefixOf line || "//".toList.isPrefixOf line

def uncommented (text : Str) : Str :=
  trimStart (['\n'].intercalate ((lines text).filter fun line => !isComment line))

/-- The request line, and the body. -/
def headAndBody (text : Str) : Str × Str :=
  match text.dropWhile (· ≠ '\n') with
  | [] => (trimEnd text, [])
  | _ :: body => ((text.takeWhile (· ≠ '\n')).rdropWhile (· = '\r'), trim body)

def methods : List String := ["GET", "POST", "PUT", "PATCH", "DELETE", "HEAD"]

/-- Whether an endpoint takes newline-delimited JSON. -/
def takesNdjson (path : Str) : Bool :=
  let path := beforeQuery path
  ["/_bulk", "/_msearch", "/_msearch/template"].any fun api => api.toList.isSuffixOf path

def leavesServer (path : Str) : Bool :=
  decide ("://".toList <:+: path) || "//".toList.isPrefixOf path || path.contains '#'

/-- The first line of a newline-delimited body that is no document. -/
def badLine (reader : JsonReader F) (body : Str) : Option Nat :=
  (lines body).findIdx? fun line => trim line ≠ [] && (reader.fromStr line).toOption.isNone

def parseHead (head : Str) : Except String (Str × Str) :=
  match asciiWords head with
  | [] => .error "a Search DSL request starts with an HTTP method and an API path"
  | [_] => .error "a Search DSL request needs an API path after its method"
  | [method, path] =>
    let method := method.map Char.toUpper
    if !isOneOf methods method then
      .error "the request method is not one of GET, POST, PUT, PATCH, DELETE or HEAD"
    else if leavesServer path then
      .error "the request path must be an API path on this server, not a URL"
    else if !pathIsLiteral path then
      .error ("the request path holds a `.` or `..` segment or a `\\`: write the path it " ++
        "resolves to")
    else .ok (method, if path.head? = some '/' then path else '/' :: path)
  | _ => .error "the request line has exactly a method and a path"

def parseRequest (reader : JsonReader F) (text : Str) : Except String (SearchRequest F) := do
  let (head, body) := headAndBody (uncommented text)
  let (method, path) ← parseHead head
  let ndjson := takesNdjson path
  if body = [] then
    return ⟨method, path, none, none, ndjson⟩
  else if ndjson then
    match badLine reader body with
    | some number =>
      .error ("line " ++ toString (number + 2) ++ " of the body is not one JSON document: " ++
        "`_bulk` and `_msearch` take one document per line")
    | none => return ⟨method, path, none, some (body ++ ['\n']), ndjson⟩
  else
    match reader.fromStr body with
    | .error (line, column) =>
      .error ("the request body is not valid JSON (line " ++ toString (line + 1) ++ ", column " ++
        toString column ++ ")")
    | .ok parsed => return ⟨method, path, some parsed, some body, ndjson⟩

end Oxyn.Search
