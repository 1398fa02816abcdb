/-
# `Oxyn.Search.Route` — the API a path calls

A search server routes a request by the decoded segments of its path.  The first segment that
starts with `_` is the API: no index, alias or data stream may be named so, and `_all` names every
index.
-/
import Oxyn.Lib.Percent

namespace Oxyn.Search

open Text

/-! ## Paths -/

/-- `percent_decode`: nothing where an escape has not its two digits, or the bytes are no text. -/
def percentDecode (segment : Str) : Option Str := Percent.decode segment

/-- What stands before the first `?`. -/
def beforeQuery (path : Str) : Str := path.takeWhile (· ≠ '?')

/-- What stands behind the first `?`, if there is one. -/
def queryOf (path : Str) : Option Str :=
  match path.dropWhile (· ≠ '?') with
  | [] => none
  | _ :: query => some query

/-- Whether a path reaches the server as written, segment for segment. -/
def pathIsLiteral (path : Str) : Bool :=
  let path := beforeQuery path
  !path.contains '\\' && (path.splitOn '/').all fun raw =>
    (percentDecode raw).all fun segment => segment != ['.'] && segment != ['.', '.']

/-! ## Routes -/

/-- The path of a request, decoded, from the API it calls on. -/
structure Route where
  api : List Str
  query : Option Str
deriving DecidableEq, Repr

namespace Route

def segments (path : Str) : Option (List Str) :=
  (((beforeQuery path).splitOn '/').filter fun segment => !segment.isEmpty).mapM percentDecode

/-- Does the API start here?  `_all` is a target. -/
def startsApi (segment : Str) : Bool := segment.head? == some '_' && segment != "_all".toList

def parse (path : Str) : Option Route :=
  if !pathIsLiteral path then none
  else (segments path).map fun segments =>
    ⟨segments.dropWhile fun segment => !startsApi segment, queryOf path⟩

def endpoint (route : Route) : Option (Str × List Str) :=
  match route.api with
  | [] => none
  | first :: rest =>
    if first = "_plugins".toList ∨ first = "_opendistro".toList then
      match rest with
      | [] => none
      | plugin :: rest => some ("_plugins/".toList ++ plugin, rest)
    else some (first, rest)

def parameter (route : Route) (name : Str) : Option Str :=
  route.query.bind fun query => (query.splitOn '&').findSome? fun pair =>
    let key := pair.takeWhile (· ≠ '=')
    let value := (pair.dropWhile (· ≠ '=')).tail
    if key = name then percentDecode (value.map fun c => if c = '+' then ' ' else c) else none

end Route

end Oxyn.Search
