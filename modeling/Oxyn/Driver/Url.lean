/-
# `Oxyn.Driver.Url` — what the driver asks of a URL

URLs are parsed and written by a crate that is not part of the repository: what is called of it is
a parameter (`UrlCrate`), and what is relied on are laws (`UrlCrate.Lawful`), stated for the URLs
of one scheme.  Every accessor answers for a component alone, and every setter writes one
component and leaves the others as they are; user and password are written with a set that leaves
the percent sign alone, a path segment with one that does not, without its tabs and line breaks.
-/
import Oxyn.Lib.Percent

namespace Oxyn.Driver

open Text Percent

/-- What the accessors of a URL answer. -/
structure UrlParts where
  scheme : Str
  hasAuthority : Bool
  username : Str
  password : Option Str
  hostStr : Option Str
  port : Option Nat
  path : Str
  queryPairs : List (Str × Str)

def UrlParts.host (parts : UrlParts) : Option Str := parts.hostStr.filter (· ≠ [])

/-- The calls made to the crate; `none` is an error. -/
structure UrlCrate where
  Url : Type
  parse : Str → Option Url
  asStr : Url → Str
  parts : Url → UrlParts
  /-- `path_segments_mut().extend`. -/
  extendSegments : Url → List Str → Option Url
  /-- `query_pairs_mut().append_pair`, for each of the pairs. -/
  appendPairs : Url → List (Str × Str) → Url
  setHost : Url → Str → Option Url
  setPort : Url → Nat → Option Url
  setUsername : Url → Str → Option Url
  setPassword : Url → Str → Option Url
  /-- The set a user and a password are written with. -/
  userinfo : AsciiSet
  /-- The set a path segment is written with, under a scheme. -/
  pathSegment : Str → AsciiSet

def placeholderHost : Str := "oxyn.invalid".toList

def placeholderUrl (scheme : Str) : Str := scheme ++ "://".toList ++ placeholderHost

def schemeOf (scheme : Str) : Str := scheme.map Char.toLower

def dropBreaks (segment : Str) : Str :=
  segment.filter fun c => c ≠ '\t' ∧ c ≠ '\n' ∧ c ≠ '\r'

/-- A segment that is a step in the path and not a name. -/
def IsDot (segment : Str) : Prop := segment = ".".toList ∨ segment = "..".toList

instance (segment : Str) : Decidable (IsDot segment) := inferInstanceAs (Decidable (_ ∨ _))

def pathOf (set : AsciiSet) (segments : List Str) : Str :=
  segments.flatMap fun segment => '/' :: encode set segment

namespace UrlCrate

/-- The laws of the URLs of a scheme.  `file` does not obey them: its URLs take neither a user nor
a port. -/
structure Lawful (crate : UrlCrate) (scheme : Str) : Prop where
  userinfo_sign : crate.userinfo.holds sign = false
  segment_sign : (crate.pathSegment scheme).holds sign = true
  segment_slash : (crate.pathSegment scheme).holds 0x2f = true
  /-- A scheme and a host are a URL of nothing else. -/
  parse_placeholder : ∀ {name : Str} {url : crate.Url}, schemeOf name = scheme →
    crate.parse (placeholderUrl name) = some url →
    ∃ host path, crate.parts url = ⟨scheme, true, [], none, host, none, path, []⟩ ∧
      (path = [] ∨ path = ['/'])
  /-- A URL with an authority is read back as it was. -/
  parse_asStr : ∀ {url : crate.Url}, (crate.parts url).scheme = scheme →
    (crate.parts url).hasAuthority = true →
    trim (crate.asStr url) = crate.asStr url ∧
      ∃ read, crate.parse (crate.asStr url) = some read ∧ crate.parts read = crate.parts url
  /-- The segments that are written are the ones given, without tabs and line breaks; the dots
  are taken as steps. -/
  extendSegments : ∀ {url url' : crate.Url} {segments : List Str},
    (crate.parts url).scheme = scheme →
    (crate.parts url).path = [] ∨ (crate.parts url).path = ['/'] →
    crate.extendSegments url segments = some url' →
    ∃ pieces, crate.parts url' =
        { crate.parts url with path := pathOf (crate.pathSegment scheme) pieces } ∧
      (∀ piece ∈ pieces, ¬ IsDot piece ∧
        (piece = [] ∨ ∃ segment ∈ segments, piece = dropBreaks segment)) ∧
      ((∀ segment ∈ segments, segment ≠ [] ∧ ¬ IsDot segment ∧ dropBreaks segment = segment) →
        pieces = segments)
  appendPairs : ∀ {url : crate.Url} (pairs : List (Str × Str)),
    (crate.parts url).scheme = scheme →
    crate.parts (crate.appendPairs url pairs) =
      { crate.parts url with queryPairs := (crate.parts url).queryPairs ++ pairs }
  setHost : ∀ {url url' : crate.Url} {host : Str}, (crate.parts url).scheme = scheme →
    crate.setHost url host = some url' →
    ∃ hostStr, crate.parts url' = { crate.parts url with hostStr } ∧
      ((hostStr.filter (· ≠ [])).isSome ↔ host ≠ [])
  setPort : ∀ {url url' : crate.Url} {port : Nat}, (crate.parts url).scheme = scheme →
    crate.setPort url port = some url' →
    ∃ port', crate.parts url' = { crate.parts url with port := port' }
  setUsername : ∀ {url url' : crate.Url} {user : Str}, (crate.parts url).scheme = scheme →
    crate.setUsername url user = some url' →
    crate.parts url' = { crate.parts url with username := encode crate.userinfo user }
  /-- A URL with a host takes a password; the empty one is none. -/
  setPassword : ∀ {url : crate.Url} (password : Str), (crate.parts url).scheme = scheme →
    (crate.parts url).host.isSome →
    ∃ url', crate.setPassword url password = some url' ∧
      crate.parts url' = { crate.parts url with
        password := if password = [] then none else some (encode crate.userinfo password) }

end UrlCrate

end Oxyn.Driver
