/-
# `Oxyn.Driver.Dsn` — the connection URL

A connection URL is built piece by piece (`DsnBuilder.build`), carries its password beside it
until it is exposed (`Dsn.expose`), and is taken apart again by `ParsedDsn.parse`, which keeps
what may be persisted apart from what may not.
-/
import Oxyn.Driver.Url
import Oxyn.Lib.Fallible
import Oxyn.Lib.IndexMap

namespace Oxyn.Driver

open Text

inductive DsnError where
  | invalidScheme (detail : Str)
  | invalidHost (detail : Str)
  | invalidPort (detail : Str)
  | malformed (detail : Str)
  | secretInParams (key : Str)
  | noAuthority
  | relativePath
  | conflictingPath
deriving DecidableEq

/-- `Option::ok_or`. -/
def okOr {α : Type} (x : Option α) (error : DsnError) : Except DsnError α :=
  match x with
  | some a => .ok a
  | none => .error error

@[simp] theorem okOr_eq_ok {α : Type} {x : Option α} {error : DsnError} {a : α} :
    okOr x error = .ok a ↔ x = some a := by
  cases x <;> simp [okOr]

/-! ## Keys -/

def secretFragments : List Str :=
  ["password".toList, "passwd".toList, "pwd".toList, "secret".toList, "token".toList,
    "credential".toList, "api_key".toList, "apikey".toList, "access_key".toList,
    "private_key".toList]

def secretKeys : List Str := ["pass".toList, "key".toList]

def normalizedKey (key : Str) : Str := (trim key).map Char.toLower

def looksLikeSecret (key : Str) : Bool :=
  secretFragments.any (fun fragment => decide (fragment <:+: normalizedKey key)) ||
    secretKeys.any fun exact => normalizedKey key == exact

/-- The most bytes of a key that is shown. -/
def maxKey : Nat := 64

/-- Makes a key fit to show in an error message. -/
def sanitizeKey (key : Str) : Str :=
  if size key ≤ maxKey ∧ key ≠ [] ∧
      key.all fun c => c.isAlphanum || c == '_' || c == '-' || c == '.' then key
  else "<unrepresentable key>".toList

/-- The names a part of a connection's target goes by. -/
def hostKeys : List Str := ["host".toList, "hostname".toList, "server".toList]

def portKeys : List Str := ["port".toList]

def userKeys : List Str := ["user".toList, "username".toList]

def databaseKeys : List Str := ["database".toList, "dbname".toList, "db".toList]

def pathKeys : List Str := ["path".toList, "file".toList, "filename".toList]

/-! ## What is checked -/

/-- Checks that a text is a URL scheme. -/
def validateScheme : Str → Except DsnError Unit
  | [] => .error (.invalidScheme "the scheme is empty".toList)
  | first :: chars => do
      Fallible.refuse (!first.isAlpha)
        (.invalidScheme "the scheme must start with an ASCII letter".toList)
      Fallible.refuse (!chars.all fun c => c.isAlphanum || c == '+' || c == '-' || c == '.')
        (.invalidScheme "allowed characters: letters, digits, `+`, `-`, `.` — not `_`".toList)

def checkHost (host : Str) : Except DsnError Unit :=
  if host.head? = some '[' then
    Fallible.refuse (host.getLast? != some ']')
      (.invalidHost "IPv6 address without a closing bracket".toList)
  else
    Fallible.refuse (host.contains ':')
      (.invalidHost "the port does not belong in the host: it would be ignored silently".toList)

/-- Decodes the `%XX` sequences of a URL component. -/
def percentDecode (input : Str) : Option Str :=
  if !input.contains '%' then some input else Percent.decode input

def decode (input : Str) (detail : Str) : Except DsnError Str :=
  okOr (percentDecode input) (.malformed detail)

/-- `str::parse::<u16>`. -/
def parseU16 (s : Str) : Option Nat :=
  let digits := if s.head? = some '+' then s.tail else s
  let value := Nat.ofDigitChars 10 digits 0
  if digits ≠ [] ∧ digits.all Char.isDigit ∧ value < 2 ^ 16 then some value else none

def pieces (path : Str) : List Str := (path.splitOn '/').filter (· ≠ [])

/-! ## The URL, and its password beside it -/

structure Dsn (crate : UrlCrate) where
  /-- The URL, without password. -/
  url : crate.Url
  /-- The password, put in by `expose` alone. -/
  password : Option Str

def Dsn.expose {crate : UrlCrate} (dsn : Dsn crate) : Except DsnError Str :=
  match dsn.password with
  | none => .ok (crate.asStr dsn.url)
  | some password => (okOr (crate.setPassword dsn.url password) .noAuthority).map crate.asStr

structure DsnBuilder where
  scheme : Str
  host : Option Str
  port : Option Nat
  defaultPort : Option Nat
  user : Option Str
  password : Option Str
  database : Option Str
  path : Option Str
  options : IndexMap Str Str

namespace DsnBuilder

def new (scheme : Str) : DsnBuilder :=
  ⟨scheme, none, none, none, none, none, none, none, .empty⟩

def pathSegments (b : DsnBuilder) : Except DsnError (List Str) :=
  match b.path with
  | some path => if path.head? = some '/' then .ok (pieces path) else .error .relativePath
  | none =>
    match b.database with
    | some database => .ok (if database = [] then [] else [database])
    | none => .ok []

def withSegments (crate : UrlCrate) (url : crate.Url) (segments : List Str) :
    Except DsnError crate.Url :=
  if segments = [] then .ok url
  else okOr (crate.extendSegments url segments)
    (.malformed "this URL form does not accept a path".toList)

def withOptions (crate : UrlCrate) (url : crate.Url) (options : IndexMap Str Str) : crate.Url :=
  if options.entries = [] then url else crate.appendPairs url options.entries

def withPort (crate : UrlCrate) (url : crate.Url) : Option Nat → Except DsnError crate.Url
  | some port =>
    okOr (crate.setPort url port) (.invalidHost "this URL form does not accept a port".toList)
  | none => .ok url

def withUser (crate : UrlCrate) (url : crate.Url) : Option Str → Except DsnError crate.Url
  | some user =>
    okOr (crate.setUsername url user) (.invalidHost "this URL form does not accept a user".toList)
  | none => .ok url

def withAuthority (b : DsnBuilder) (crate : UrlCrate) (url : crate.Url) :
    Except DsnError crate.Url :=
  match b.host.filter (· ≠ []) with
  | some host => do
      checkHost host
      let url ← okOr (crate.setHost url host)
        (.invalidHost "forbidden character in a host name".toList)
      let url ← withPort crate url (b.port.or b.defaultPort)
      withUser crate url b.user
  | none =>
    okOr (crate.setHost url [])
      (.invalidHost "this URL form does not accept an empty authority".toList)

def build (b : DsnBuilder) (crate : UrlCrate) : Except DsnError (Dsn crate) := do
  validateScheme b.scheme
  Fallible.refuse (b.path.isSome && b.database.isSome) .conflictingPath
  Fallible.refuse ((b.host.filter (· ≠ [])).isNone &&
    ((b.port.or b.defaultPort).isSome || b.user.isSome || b.password.isSome)) .noAuthority
  let segments ← b.pathSegments
  let url ← okOr (crate.parse (placeholderUrl b.scheme))
    (.invalidScheme "expected: a letter, then letters, digits, `+`, `-` or `.`".toList)
  let url ← withSegments crate url segments
  let url ← b.withAuthority crate (withOptions crate url b.options)
  .ok ⟨url, b.password⟩

end DsnBuilder

/-! ## Taking a URL apart -/

/-- What a connection URL says, without the password. -/
structure DsnParts where
  scheme : Str
  host : Option Str
  port : Option Nat
  user : Option Str
  segments : List Str
  options : IndexMap Str Str

/-- The password and what else is secret. -/
structure Credentials where
  password : Option Str

/-- A URL taken apart: what can be persisted, what cannot, and what was not kept. -/
structure ParsedDsn where
  parts : DsnParts
  credentials : Credentials
  droppedSecrets : List Str

/-- The query parameters read so far. -/
structure Gathered where
  options : IndexMap Str Str
  credentials : Credentials
  droppedSecrets : List Str

def Gathered.add (g : Gathered) (pair : Str × Str) : Gathered :=
  if !looksLikeSecret pair.1 then { g with options := g.options.insert pair.1 pair.2 }
  else if g.credentials.password.isNone then { g with credentials := ⟨some pair.2⟩ }
  else { g with droppedSecrets := g.droppedSecrets ++ [sanitizeKey pair.1] }

def readUser (raw : Str) : Except DsnError (Option Str) :=
  if raw = [] then .ok none
  else (decode raw "the user carries an invalid `%` encoding".toList).map some

def readPassword : Option Str → Except DsnError (Option Str)
  | none => .ok none
  | some raw =>
    if raw = [] then .ok none
    else (decode raw "the password carries an invalid `%` encoding".toList).map some

def readSegments (path : Str) : Except DsnError (List Str) :=
  (pieces path).mapM fun raw => decode raw "the path carries an invalid `%` encoding".toList

def ParsedDsn.ofParts (parts : UrlParts) : Except DsnError ParsedDsn := do
  let user ← readUser parts.username
  let password ← readPassword parts.password
  let segments ← readSegments parts.path
  let gathered := parts.queryPairs.foldl Gathered.add ⟨.empty, ⟨password⟩, []⟩
  .ok ⟨⟨parts.scheme, parts.host, parts.port, user, segments, gathered.options⟩,
    gathered.credentials, gathered.droppedSecrets⟩

def ParsedDsn.parse (crate : UrlCrate) (text : Str) : Except DsnError ParsedDsn := do
  let url ← okOr (crate.parse (trim text))
    (.malformed "expected: a scheme, an optional authority, a path".toList)
  ofParts (crate.parts url)

/-! ## The configuration of a connection -/

structure ConnectionConfig where
  driver : Str
  params : IndexMap Str Str

def ConnectionConfig.withParam (config : ConnectionConfig) (key value : Str) : ConnectionConfig :=
  { config with params := config.params.insert key value }

/-- `with_param`, of a value that may not be there. -/
def ConnectionConfig.withParam? (config : ConnectionConfig) (key : Str) (value : Option Str) :
    ConnectionConfig :=
  value.elim config (config.withParam key)

namespace DsnParts

def database (parts : DsnParts) : Option Str :=
  match parts.segments with
  | [single] => if single = [] then none else some single
  | _ => none

def filePath (parts : DsnParts) : Option Str :=
  if parts.segments = [] then none else some ('/' :: ['/'].intercalate parts.segments)

/-- The key and the value the path goes into. -/
def location (parts : DsnParts) : Option (Str × Str) :=
  match parts.host.isSome, parts.database, parts.filePath with
  | true, some database, _ => some ("database".toList, database)
  | _, _, some path => some ("path".toList, path)
  | _, _, none => none

def toConfig (parts : DsnParts) (driver : Str) : ConnectionConfig :=
  let config : ConnectionConfig := ⟨driver, .empty⟩
  let config := config.withParam? "host".toList parts.host
  let config := config.withParam? "port".toList (parts.port.map (Nat.toDigits 10))
  let config := config.withParam? "user".toList parts.user
  let config := parts.location.elim config fun at_ => config.withParam at_.1 at_.2
  parts.options.entries.foldl (fun config option =>
    if looksLikeSecret option.1 then config else config.withParam option.1 option.2) config

end DsnParts

namespace DsnBuilder

def addParam (b : DsnBuilder) (key value : Str) : Except DsnError DsnBuilder :=
  if looksLikeSecret key then .error (.secretInParams (sanitizeKey key))
  else if normalizedKey key ∈ hostKeys then .ok { b with host := some value }
  else if normalizedKey key ∈ portKeys then
    (okOr (parseU16 (trim value))
      (.invalidPort "expected: an integer between 1 and 65535".toList)).map fun port =>
        { b with port := some port }
  else if normalizedKey key ∈ userKeys then .ok { b with user := some value }
  else if normalizedKey key ∈ databaseKeys then .ok { b with database := some value }
  else if normalizedKey key ∈ pathKeys then .ok { b with path := some value }
  else .ok { b with options := b.options.insert key value }

def fromConfig (config : ConnectionConfig) : Except DsnError DsnBuilder := do
  let b ← config.params.entries.foldlM (fun b param => addParam b param.1 param.2)
    (new config.driver)
  Fallible.refuse (b.path.isSome && b.database.isSome) .conflictingPath
  .ok b

end DsnBuilder

end Oxyn.Driver
