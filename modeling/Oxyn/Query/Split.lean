/-
# `Oxyn.Query.Split` — a batch and its statements

The loop of `split_with` over what the scanner reports, and the bare words of a text.
-/
import Oxyn.Query.Scan

namespace Oxyn

open Text Cursor

/-! ## Fragments -/

/-- A statement isolated in a batch; `start` and `stop` are its span. -/
structure Fragment where
  text : Str
  start : Nat
  stop : Nat
  hasComment : Bool
  terminated : Bool
  unreadableComment : Bool
deriving DecidableEq, Repr

/-- What the scanner learned about a fragment, beside its bounds. -/
structure Flags where
  hasComment : Bool
  terminated : Bool
  unreadableComment : Bool
deriving DecidableEq, Repr

/-- The fragment between two positions, unless nothing is left once trimmed. -/
def fragment? (sql : Str) (start stop : Nat) (flags : Flags) : Option Fragment :=
  match get? sql start stop with
  | none => none
  | some raw =>
    let text := trim raw
    if text = [] then none
    else
      let lead := size raw - size (trimStart raw)
      let first := start + lead
      some ⟨text, first, first + size text, flags.hasComment, flags.terminated,
        flags.unreadableComment⟩

def pushFragment (sql : Str) (start stop : Nat) (flags : Flags) (out : List Fragment) :
    List Fragment :=
  out ++ (fragment? sql start stop flags).toList

/-- The statement being read. -/
structure Pending where
  start : Nat
  hasComment : Bool
  hasCode : Bool
  unreadable : Bool
deriving DecidableEq, Repr

namespace Pending

/-- `Pending::at`. -/
def startingAt (start : Nat) : Pending := ⟨start, false, false, false⟩

/-- Something that is code was read. -/
def withCode (p : Pending) : Pending := { p with hasCode := true }

/-- A comment was read.  An unreadable one is never dropped as « comments only »:
what it hides may run. -/
def withComment (p : Pending) (readable : Bool) : Pending :=
  if readable then { p with hasComment := true }
  else { p with hasComment := true, hasCode := true, unreadable := true }

def flush (p : Pending) (sql : Str) (stop : Nat) (terminated : Bool) (out : List Fragment) :
    List Fragment :=
  if p.hasCode then
    pushFragment sql p.start stop ⟨p.hasComment, terminated, p.unreadable⟩ out
  else out

end Pending

/-- The variables of the loop of `split_with`. -/
structure Splitting where
  pending : Pending
  fragments : List Fragment
deriving DecidableEq, Repr

namespace Splitting

def initial : Splitting := ⟨.startingAt 0, []⟩

/-- The callback of `split_with`. -/
def read (sql : Str) (s : Splitting) (x : Item Tok) : Splitting :=
  match x.kind with
  | .comment => { s with pending := s.pending.withComment true }
  | .unreadableComment => { s with pending := s.pending.withComment false }
  | .semicolon => ⟨.startingAt x.stop, s.pending.flush sql x.start true s.fragments⟩
  | .word | .quoted | .singleQuoted | .symbol => { s with pending := s.pending.withCode }

def finish (sql : Str) (s : Splitting) : List Fragment :=
  s.pending.flush sql (size sql) false s.fragments

end Splitting

def splitWith (sql : Str) (p : SplitProfile) : List Fragment :=
  ((scan sql p).foldl (Splitting.read sql) .initial).finish sql

/-! ## Bare words -/

/-- A bare word: not in a string, not in a quoted identifier, not in a comment. -/
structure Word where
  text : Str
  start : Nat
  stop : Nat
  /-- The word is followed by an opening parenthesis: it is a function call. -/
  call : Bool
deriving DecidableEq, Repr

def nextVisibleByte (b : List UInt8) (i : Nat) : Option UInt8 :=
  match loop blankTurn (b.drop i) i () with
  | .left _ c => some c
  | .off _ => none

/-- The word the scanner reports, if it reports one. -/
def word? (sql : Str) (x : Item Tok) : Option Word :=
  if x.kind = .word then
    (get? sql x.start x.stop).map fun text =>
      ⟨text, x.start, x.stop,
        nextVisibleByte (bytes sql) x.stop == some Byte.openParenthesis⟩
  else none

def wordsWith (sql : Str) (p : SplitProfile) : List Word := (scan sql p).filterMap (word? sql)

def words (sql : Str) (d : SqlDialect) : List Word := wordsWith sql (.forDialect d)

def isKeyword (word : Str) (keyword : String) : Bool := eqIgnoreAsciiCase word keyword.toList

/-! ## Tokens -/

/-- What the scanner tells a token is. -/
inductive TokenKind where
  | word | quoted | string | symbol | separator
deriving DecidableEq, Repr

def Tok.tokenKind : Tok → Option TokenKind
  | .word => some .word
  | .quoted => some .quoted
  | .singleQuoted => some .string
  | .symbol => some .symbol
  | .semicolon => some .separator
  | .comment | .unreadableComment => none

/-- A token, as written, quotes included. -/
structure Token where
  kind : TokenKind
  text : Str
  start : Nat
  stop : Nat
deriving DecidableEq, Repr

/-- The token the scanner reports, if it reports one. -/
def token? (sql : Str) (x : Item Tok) : Option Token :=
  x.kind.tokenKind.bind fun kind =>
    (get? sql x.start x.stop).map fun text => ⟨kind, text, x.start, x.stop⟩

/-- The elements of the text, in order, as the scanner reads them for `words`. -/
def tokens (sql : Str) (d : SqlDialect) : List Token :=
  (scan sql (.forDialect d)).filterMap (token? sql)

/-! ## One cut -/

variable {start stop : Nat} {sql : Str} {f : Fragment}

theorem fragment?_eq_some {flags : Flags} :
    fragment? sql start stop flags = some f ↔
      ∃ raw, get? sql start stop = some raw ∧ trim raw ≠ [] ∧
        f = ⟨trim raw, start + size (leading raw), start + size (leading raw) + size (trim raw),
          flags.hasComment, flags.terminated, flags.unreadableComment⟩ := by
  unfold fragment?
  cases get? sql start stop with
  | none => simp
  | some raw =>
    simp only [size_leading, Option.some.injEq, exists_eq_left']
    split
    next h => simp [h]
    next h => simp [h, eq_comm]

theorem get?_trim {sql raw : Str} (h : get? sql start stop = some raw) :
    get? sql (start + size (leading raw)) (start + size (leading raw) + size (trim raw)) =
        some (trim raw) ∧
      start + size (leading raw) + size (trim raw) + size (trailing raw) = stop := by
  obtain ⟨u, v, rfl, rfl, rfl⟩ := get?_eq_some.mp h
  have hraw := leading_trim_trailing raw
  constructor
  · refine get?_eq_some.mpr ⟨u ++ leading raw, trailing raw ++ v, ?_, by simp, rfl⟩
    conv_lhs => rw [hraw]
    simp
  · have := congrArg size hraw
    simp only [size_append] at this
    omega

theorem fragment?_bounds {flags : Flags} (h : fragment? sql start stop flags = some f) :
    start ≤ f.start ∧ f.start < f.stop ∧ f.stop ≤ stop := by
  obtain ⟨raw, hraw, hne, rfl⟩ := fragment?_eq_some.mp h
  have hpos : 0 < size (trim raw) := by
    rcases Nat.eq_zero_or_pos (size (trim raw)) with h0 | h0
    · exact absurd (size_eq_zero.mp h0) hne
    · exact h0
  have := (get?_trim hraw).2
  simp only
  omega

def Fragment.Covers (f : Fragment) (i : Nat) : Prop := f.start ≤ i ∧ i < f.stop

theorem blankAt_of_get? {sql raw : Str} {n m i : Nat} (hraw : get? sql n m = some raw)
    (hi : n ≤ i) (him : i < m)
    (hout : i < n + size (leading raw) ∨ n + size (leading raw) + size (trim raw) ≤ i) :
    BlankAt sql i := by
  obtain ⟨u, v, hsql, rfl, -⟩ := get?_eq_some.mp hraw
  have hcut := leading_trim_trailing raw
  have hstop := (get?_trim hraw).2
  rcases hout with hlt | hge
  · have := blankAt_of_all (u := u) (w := leading raw) (v := trim raw ++ trailing raw ++ v)
      (fun c hc => isWhitespace_of_mem_leading hc) hi hlt
    rw [hsql, hcut]
    simpa using this
  · have := blankAt_of_all (u := u ++ leading raw ++ trim raw) (w := trailing raw) (v := v)
      (i := i) (fun c hc => isWhitespace_of_mem_trailing hc) (by simp; omega) (by simp; omega)
    rw [hsql, hcut]
    simpa using this

theorem fragment?_covers {n m i : Nat} (flags : Flags)
    (hn : isCharBoundary sql n = true) (hm : isCharBoundary sql m = true) (hi : n ≤ i)
    (him : i < m) :
    (∃ f, fragment? sql n m flags = some f ∧ f.Covers i) ∨ BlankAt sql i := by
  obtain ⟨raw, hraw⟩ := get?_of_boundaries hn hm (by omega)
  by_cases hlead : i < n + size (leading raw)
  · exact .inr (blankAt_of_get? hraw hi him (.inl hlead))
  by_cases htrail : n + size (leading raw) + size (trim raw) ≤ i
  · exact .inr (blankAt_of_get? hraw hi him (.inr htrail))
  have hne : trim raw ≠ [] := by
    intro h
    simp only [h, size_nil] at htrail
    omega
  exact .inl ⟨_, fragment?_eq_some.mpr ⟨raw, hraw, hne, rfl⟩, by
    constructor <;> simp only <;> omega⟩

/-! ## Collecting -/

theorem pushFragment_eq (sql : Str) (start stop : Nat) (flags : Flags) (out : List Fragment) :
    pushFragment sql start stop flags out = out ++ pushFragment sql start stop flags [] := by
  simp [pushFragment]

theorem Pending.flush_eq (p : Pending) (sql : Str) (stop : Nat) (terminated : Bool)
    (out : List Fragment) :
    p.flush sql stop terminated out = out ++ p.flush sql stop terminated [] := by
  unfold flush
  split
  · exact pushFragment_eq ..
  · simp

theorem Pending.mem_flush {p : Pending} {terminated : Bool} :
    f ∈ p.flush sql stop terminated [] ↔ p.hasCode = true ∧
      fragment? sql p.start stop ⟨p.hasComment, terminated, p.unreadable⟩ = some f := by
  unfold flush
  split
  next h => simp [h, pushFragment]
  next h => simp [h]

end Oxyn
