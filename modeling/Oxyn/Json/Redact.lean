/-
# `Oxyn.Json.Redact` — credentials of a JSON request

The scan of a text collects what is replaced: the value of a key the rules name, and a string
whose content holds a secret once it is decoded and read again.
-/
import Mathlib.Data.List.Infix
import Oxyn.Json.Read
import Oxyn.Lib.Splice

namespace Oxyn.Json

open Text List

/-! ## Text -/

/-- `str::find` of a text. -/
def find (needle : Str) (s : Str) : Option Nat := s.tails.findIdx? (needle.isPrefixOf ·)

/-- `str::contains`. -/
def contains (s needle : Str) : Bool := (find needle s).isSome

theorem prefix_of_find {needle s : Str} {i : Nat} (h : find needle s = some i) :
    needle <+: s.drop i := by
  obtain ⟨hi, hprefix, -⟩ := findIdx?_eq_some_iff_getElem.mp h
  rw [getElem_tails] at hprefix
  exact List.isPrefixOf_iff_prefix.mp hprefix

theorem contains_iff {s needle : Str} : contains s needle = true ↔ needle <:+: s := by
  rw [contains, Option.isSome_iff_exists]
  constructor
  · rintro ⟨i, hi⟩
    exact (prefix_of_find hi).isInfix.trans (drop_suffix i s).isInfix
  · rintro ⟨u, v, rfl⟩
    rw [← Option.isSome_iff_exists, find, findIdx?_isSome, any_eq_true]
    refine ⟨needle ++ v, (mem_tails _ _).mpr ⟨u, by simp⟩, ?_⟩
    exact List.isPrefixOf_iff_prefix.mpr (prefix_append _ _)

/-- `str::rfind` of a character. -/
def rfind (c : Char) (s : Str) : Option Nat :=
  (s.reverse.findIdx? (· == c)).map fun i => s.length - 1 - i

/-- The serializer's reading and writing of one JSON string. -/
structure SerdeJson where
  fromStr : Str → Option Str
  toString : Str → Option Str

/-- The content of a single-quoted string as the body of a JSON string. -/
def requote : Str → Str
  | [] => []
  | '\\' :: '\'' :: rest => '\'' :: requote rest
  | '\\' :: c :: rest => '\\' :: c :: requote rest
  | ['\\'] => ['\\', '\\']
  | '"' :: rest => '\\' :: '"' :: requote rest
  | c :: rest => c :: requote rest

/-- `str::strip_suffix` of a character, or the text. -/
def stripSuffix (s : Str) (c : Char) : Str := if s.getLast? = some c then s.dropLast else s

def decode (json : SerdeJson) (literal : Str) : Str :=
  match literal.head? with
  | none => literal
  | some quote =>
    let content := stripSuffix (slice literal 1 (size literal)) quote
    if !contains content ['\\'] then content
    else
      (if quote = '"' then json.fromStr literal
        else json.fromStr ('"' :: requote content ++ ['"'])).getD content

/-! ## Connection strings -/

def redactedPassword : Str := "<redacted>".toList

/-- What is written, up to where the text is copied, and where the search goes on. -/
structure UriState where
  redacted : Str
  copied : Nat
  search : Nat

/-- One connection string, up to the next blank, its user information to its last `@`; positions
count characters. -/
def uriStep (text : Str) (s : UriState) : Option UriState :=
  (find "://".toList (text.drop s.search)).map fun found =>
    let authority := s.search + found + 3
    let rest := text.drop authority
    let uri := rest.takeWhile (!isWhitespace ·)
    let next := authority + uri.length
    match rfind '@' uri with
    | none => { s with search := next }
    | some end_ =>
      match (uri.take end_).findIdx? (· == ':') with
      | none => { s with search := next }
      | some colon =>
        if (uri.take end_).drop (colon + 1) = redactedPassword then { s with search := next }
        else
          let start := authority + colon + 1
          ⟨s.redacted ++ (text.take start).drop s.copied ++ redactedPassword,
            authority + end_, next⟩

theorem uriStep_forward {text : Str} {s t : UriState} (h : uriStep text s = some t) :
    text.length - t.search < text.length - s.search := by
  obtain ⟨found, hfound, rfl⟩ := Option.map_eq_some_iff.mp h
  have hlen := (prefix_of_find hfound).length_le
  have hthree : "://".toList.length = 3 := rfl
  simp only [length_drop, hthree] at hlen
  have hnext : text.length - (s.search + found + 3 +
      ((text.drop (s.search + found + 3)).takeWhile (!isWhitespace ·)).length) <
      text.length - s.search := by omega
  simp only
  split
  · exact hnext
  · split
    · exact hnext
    · split
      · exact hnext
      · exact hnext

def uriLoop (text : Str) : Loop UriState where
  step := uriStep text
  measure := fun s => text.length - s.search
  decreases := uriStep_forward

/-- Replaces the password of every `scheme://user:password@` in a text. -/
def redactUriPasswords (text : Str) : Str :=
  let s := (uriLoop text).final ⟨[], 0, 0⟩
  if s.copied = 0 then text else s.redacted ++ text.drop s.copied

/-! ## The rules -/

def redactedValue : Str := "\"<redacted>\"".toList

/-- How many levels of quoting are read through. -/
def maxNesting : Nat := 4

structure Credentials where
  /-- What a text must hold, written plainly, for one of these keys to be in it. -/
  markers : List Str
  /-- Whether the value of a key, at a depth and under a command, is a credential. -/
  key : Str → Nat → Option Str → Bool
  /-- Whether a string value under a key is a credential by what it holds. -/
  string : Str → Str → Bool
  /-- Whether only a string value is redacted under `key`. -/
  stringsOnly : Bool

/-- Whether a text can hold anything the scan replaces. -/
def mayHoldSecret (text : Str) (rules : Credentials) : Bool :=
  (rules.markers ++ ["://".toList, ['\\']]).any (contains text)

/-- A container open at the scanned position. -/
inductive Frame where
  | object (key : Option Str) (expectingKey : Bool)
  | array
deriving DecidableEq, Repr

/-- Where the scan stands: the open containers, the decoded first key, and what is to be replaced so
far. -/
structure ScanState where
  index : Nat
  stack : List Frame
  command : Option Str
  out : List Replacement

section Scan

variable (json : SerdeJson) (text : Str) (rules : Credentials) (inner : Str → Str)

/-- What replaces a string, quotes included, if it holds a credential once decoded;
`inner` reads the level below. -/
def redactString (literal : Str) : Option Str :=
  if !mayHoldSecret literal rules then none
  else
    let decoded := decode json literal
    let redacted := redactUriPasswords (inner decoded)
    if redacted = decoded then none else some ((json.toString redacted).getD redactedValue)

def stringAt (index : Nat) : Bool := (bytes text)[index]?.any isQuote

/-- Whether the value at `start` under a key is a credential. -/
def isSecret (key : Str) (depth : Nat) (command : Option Str) (start : Nat) : Bool :=
  (rules.key key depth command && (stringAt text start || !rules.stringsOnly)) ||
    (stringAt text start &&
      rules.string key (decode json (slice text start (skipQuoted (bytes text) start))))

def onColon (s : ScanState) : ScanState :=
  match s.stack with
  | .object key _ :: below =>
    let read := { s with index := s.index + 1, stack := .object key false :: below }
    match key with
    | none => read
    | some key =>
      let start := skipWhitespace (bytes text) (s.index + 1)
      if isSecret json text rules key s.stack.length s.command start then
        { read with
          index := skipValue (bytes text) start
          out := s.out ++ [⟨start, skipValue (bytes text) start, redactedValue⟩] }
      else read
  | _ => { s with index := s.index + 1 }

/-- A key, or `none` where none is expected. -/
def readKey (s : ScanState) (key : Str) : Option ScanState :=
  match s.stack with
  | .object _ true :: below =>
    some { s with
      stack := .object (some key) true :: below
      command := if s.stack.length = 1 ∧ s.command = none then some key else s.command }
  | _ => none

def onQuote (s : ScanState) : ScanState :=
  let stop := skipQuoted (bytes text) s.index
  let literal := slice text s.index stop
  match readKey s (decode json literal) with
  | some s => { s with index := stop }
  | none =>
    match redactString json rules inner literal with
    | some marker => { s with index := stop, out := s.out ++ [⟨s.index, stop, marker⟩] }
    | none => { s with index := stop }

def onIdentifier (s : ScanState) : ScanState :=
  let stop := skipIdentifier (bytes text) s.index
  { (readKey s (slice text s.index stop)).getD s with index := stop }

def scanStep (s : ScanState) : Option ScanState :=
  (bytes text)[s.index]?.map fun c =>
    if c == 0x7b then
      { s with
        index := s.index + 1
        stack := .object none true :: s.stack
        command := if s.stack.length = 0 then none else s.command }
    else if c == Byte.openBracket then { s with index := s.index + 1, stack := .array :: s.stack }
    else if c == 0x7d || c == Byte.closeBracket then
      { s with index := s.index + 1, stack := s.stack.tail }
    else if c == 0x2c then
      { s with
        index := s.index + 1
        stack := match s.stack with
          | .object _ _ :: below => .object none true :: below
          | stack => stack }
    else if c == Byte.colon then onColon json text rules s
    else if isQuote c then onQuote json text rules inner s
    else if isIdentifierStart c then onIdentifier text s
    else { s with index := s.index + 1 }

variable {json text rules inner}

theorem readKey_index {s t : ScanState} {key : Str} (h : readKey s key = some t) :
    t.index = s.index ∧ t.out = s.out := by
  unfold readKey at h
  split at h
  · obtain rfl := Option.some.inj h
    exact ⟨rfl, rfl⟩
  · simp at h

theorem onColon_forward (s : ScanState) (h : s.index < (bytes text).length) :
    s.index < (onColon json text rules s).index := by
  unfold onColon
  split
  · split
    · exact Nat.lt_succ_self _
    · simp only
      split
      · have hstart : skipWhitespace (bytes text) (s.index + 1) ≤ (bytes text).length :=
          takeWhile_bounds _ h
        have hle := (skipValue_bounds hstart).1
        have : s.index + 1 ≤ skipWhitespace (bytes text) (s.index + 1) := Nat.le_add_right _ _
        simp only
        omega
      · exact Nat.lt_succ_self _
  · exact Nat.lt_succ_self _

theorem onQuote_forward (s : ScanState) (h : s.index < (bytes text).length) :
    s.index < (onQuote json text rules inner s).index := by
  have hlt := (skipQuoted_bounds h).1
  unfold onQuote
  simp only
  split
  · exact hlt
  · split
    · exact hlt
    · exact hlt

/-- A container is open whose last key is this one. -/
def HoldsKey (s : ScanState) (key : Str) : Prop := ∃ e, Frame.object (some key) e ∈ s.stack

variable (json text rules inner) in
/-- What a turn of the scan is.  Brackets and commas read nothing. -/
inductive Turned (s : ScanState) (c : UInt8) : ScanState → Prop
  | structural {t : ScanState} : t.index = s.index + 1 → t.out = s.out →
      (∀ key, HoldsKey t key → HoldsKey s key) → Turned s c t
  | colon : c = Byte.colon → Turned s c (onColon json text rules s)
  | quote : isQuote c = true → Turned s c (onQuote json text rules inner s)
  | identifier : isIdentifierStart c = true → Turned s c (onIdentifier text s)

theorem turned_of_scanStep {s t : ScanState} (h : scanStep json text rules inner s = some t) :
    ∃ c, (bytes text)[s.index]? = some c ∧ Turned json text rules inner s c t := by
  obtain ⟨c, hc, rfl⟩ := Option.map_eq_some_iff.mp h
  refine ⟨c, hc, ?_⟩
  by_cases h1 : c == 0x7b
  · rw [if_pos h1]
    refine .structural rfl rfl ?_
    rintro key ⟨e, hmem⟩
    exact ⟨e, by simpa using hmem⟩
  rw [if_neg h1]
  by_cases h2 : c == Byte.openBracket
  · rw [if_pos h2]
    refine .structural rfl rfl ?_
    rintro key ⟨e, hmem⟩
    exact ⟨e, by simpa using hmem⟩
  rw [if_neg h2]
  by_cases h3 : c == 0x7d || c == Byte.closeBracket
  · rw [if_pos h3]
    refine .structural rfl rfl ?_
    rintro key ⟨e, hmem⟩
    exact ⟨e, mem_of_mem_tail hmem⟩
  rw [if_neg h3]
  by_cases h4 : c == 0x2c
  · rw [if_pos h4]
    refine .structural rfl rfl ?_
    rintro key ⟨e, hmem⟩
    simp only at hmem
    split at hmem
    next below hstack => exact ⟨e, hstack ▸ mem_cons_of_mem _ (by simpa using hmem)⟩
    next => exact ⟨e, hmem⟩
  rw [if_neg h4]
  by_cases h5 : c == Byte.colon
  · rw [if_pos h5]
    exact .colon (by simpa using h5)
  rw [if_neg h5]
  by_cases h6 : isQuote c = true
  · rw [if_pos h6]
    exact .quote h6
  rw [if_neg h6]
  by_cases h7 : isIdentifierStart c = true
  · rw [if_pos h7]
    exact .identifier h7
  · rw [if_neg h7]
    exact .structural rfl rfl fun key h => h

theorem scanStep_forward {s t : ScanState} (h : scanStep json text rules inner s = some t) :
    s.index < t.index := by
  obtain ⟨c, hc, hturned⟩ := turned_of_scanStep h
  have hlt := (List.getElem?_eq_some_iff.mp hc).1
  cases hturned with
  | structural hindex => omega
  | colon => exact onColon_forward s hlt
  | quote => exact onQuote_forward s hlt
  | identifier hstart => exact skipIdentifier_lt hc hstart

variable (json text rules inner)

def scanLoop : Loop ScanState where
  step := scanStep json text rules inner
  measure := fun s => (bytes text).length - s.index
  decreases := fun {s t} h => by
    have := scanStep_forward h
    obtain ⟨c, hc, -⟩ := Option.map_eq_some_iff.mp h
    have := (List.getElem?_eq_some_iff.mp hc).1
    omega

def scanStart : ScanState := ⟨0, [], none, []⟩

def scan : List Replacement := ((scanLoop json text rules inner).final scanStart).out

def replaced : Str :=
  let replacements := scan json text rules inner
  if replacements.isEmpty then text else spliced text replacements

end Scan

/-- `redact_nested`: with no level of quoting left, a string is what it decodes to. -/
def redactNested (json : SerdeJson) (rules : Credentials) : Nat → Str → Str
  | 0, text => if !mayHoldSecret text rules then text else replaced json text rules id
  | nesting + 1, text =>
    if !mayHoldSecret text rules then text
    else replaced json text rules (redactNested json rules nesting)

def redactCredentials (json : SerdeJson) (text : Str) (rules : Credentials) : Str :=
  redactNested json rules maxNesting text

/-! ## The two grammars -/

def mongo : Credentials where
  markers := ["pwd".toList, "payload".toList]
  key := fun key depth command =>
    key == "pwd".toList || (depth == 1 && key == "payload".toList &&
      command.any fun name => name == "saslStart".toList || name == "saslContinue".toList)
  string := fun _ _ => false
  stringsOnly := false

def credentialKeys : List Str :=
  ["password".toList, "password_hash".toList, "current_password".toList, "access_token".toList,
    "refresh_token".toList, "kerberos_ticket".toList, "service_account_token".toList,
    "api_key".toList, "client_secret".toList, "secret_key".toList,
    "secure_settings_password".toList]

/-- The header whose value is a credential, matched in any case. -/
def header : Str := "authorization".toList

def searchDsl : Credentials where
  markers := ["password".toList, "_token".toList, "ticket".toList, "api_key".toList,
    "secret".toList, "uthorization".toList, "hash".toList]
  key := fun key _ _ => credentialKeys.contains key || eqIgnoreAsciiCase key header
  string := fun key decoded => key == "hash".toList && "$2".toList.isPrefixOf decoded
  stringsOnly := true

end Oxyn.Json
