/-
# `Oxyn.Json.Read` — where a JSON value ends

The lexical reading the redactions of MongoDB and of the search DSL share.
-/
import Oxyn.Lib.Cursor
import Oxyn.Lib.Loop
import Oxyn.Lib.Text
import Oxyn.Query.Scan

namespace Oxyn.Json

open Text Cursor List

/-! ## Strings and names -/

def isQuote (c : UInt8) : Bool := c == Byte.doubleQuote || c == Byte.apostrophe

/-- A string's body: an escape takes the byte behind it along. -/
def quotedTurn (quote : UInt8) (_ : Unit) (c : UInt8) (_ : Option UInt8) : Turn Unit Unit :=
  if c == Byte.backslash then .two () else if c == quote then .leave 1 () else .one ()

/-- The index just after the string whose opening quote is at `index`. -/
def skipQuoted (b : List UInt8) (index : Nat) : Nat :=
  let quote := if b[index]? = some Byte.apostrophe then Byte.apostrophe else Byte.doubleQuote
  (loop (quotedTurn quote) (b.drop (index + 1)) (index + 1) ()).index b.length

def skipWhitespace (b : List UInt8) (index : Nat) : Nat :=
  index + ((b.drop index).takeWhile isAsciiWhitespace).length

def isIdentifierStart (c : UInt8) : Bool := isAsciiAlphabetic c || c == 0x5f || c == 0x24

def isIdentifierByte (c : UInt8) : Bool := isIdentifierStart c || isAsciiDigit c

def skipIdentifier (b : List UInt8) (index : Nat) : Nat :=
  index + ((b.drop index).takeWhile isIdentifierByte).length

variable {index : Nat}

theorem skipQuoted_bounds {b : List UInt8} (h : index < b.length) :
    index < skipQuoted b index ∧ skipQuoted b index ≤ b.length := by
  simp only [skipQuoted]
  generalize (if b[index]? = some Byte.apostrophe then Byte.apostrophe else Byte.doubleQuote) = q
  cases hl : loop (quotedTurn q) (b.drop (index + 1)) (index + 1) () with
  | off s => exact ⟨h, Nat.le_refl _⟩
  | left j r =>
    have hle := le_of_left hl
    have hlen := left_le_length (fun s c n k r hturn => by
      unfold quotedTurn at hturn
      split_ifs at hturn
      simp at hturn
      omega) hl
    simp only [length_drop] at hlen
    exact ⟨by simp only [Exit.index]; omega, by simp only [Exit.index]; omega⟩

theorem takeWhile_bounds (p : UInt8 → Bool) {b : List UInt8}
    (h : index ≤ b.length) : index + ((b.drop index).takeWhile p).length ≤ b.length := by
  have := (List.takeWhile_prefix p (l := b.drop index)).length_le
  rw [length_drop] at this
  omega

theorem skipIdentifier_lt {b : List UInt8} {c : UInt8} (hc : b[index]? = some c)
    (hstart : isIdentifierStart c = true) : index < skipIdentifier b index := by
  obtain ⟨hlt, rfl⟩ := List.getElem?_eq_some_iff.mp hc
  have hbyte : isIdentifierByte b[index] = true := by simp [isIdentifierByte, hstart]
  rw [skipIdentifier, drop_eq_getElem_cons hlt, takeWhile_cons_of_pos hbyte,
    length_cons]
  omega

/-! ## Values -/

/-- Brackets still open, the index, and whether the first one is closed. -/
structure Balance where
  depth : Nat
  cursor : Nat
  closed : Bool

def balanceStep (b opening closing : List UInt8) (s : Balance) : Option Balance :=
  if s.closed then none
  else
    b[s.cursor]?.map fun c =>
      if isQuote c then { s with cursor := skipQuoted b s.cursor }
      else if opening.contains c then { s with depth := s.depth + 1, cursor := s.cursor + 1 }
      else if closing.contains c then ⟨s.depth - 1, s.cursor + 1, s.depth - 1 = 0⟩
      else { s with cursor := s.cursor + 1 }

variable {b opening closing : List UInt8}

theorem balanceStep_forward {s t : Balance} (h : balanceStep b opening closing s = some t) :
    s.cursor < t.cursor ∧ t.cursor ≤ b.length := by
  unfold balanceStep at h
  split at h
  · simp at h
  · obtain ⟨c, hc, rfl⟩ := Option.map_eq_some_iff.mp h
    have hlt := (List.getElem?_eq_some_iff.mp hc).1
    split_ifs
    · exact skipQuoted_bounds hlt
    · exact ⟨Nat.lt_succ_self _, hlt⟩
    · exact ⟨Nat.lt_succ_self _, hlt⟩
    · exact ⟨Nat.lt_succ_self _, hlt⟩

def balanceLoop (b opening closing : List UInt8) : Loop Balance where
  step := balanceStep b opening closing
  measure := fun s => b.length - s.cursor
  decreases := fun h => by
    have := balanceStep_forward h
    omega

/-- The index just after the bracket at `index` is closed, strings skipped. -/
def skipBalanced (b : List UInt8) (index : Nat) (opening closing : List UInt8) : Nat :=
  ((balanceLoop b opening closing).final ⟨0, index, false⟩).cursor

theorem skipBalanced_bounds (hindex : index ≤ b.length) :
    index ≤ skipBalanced b index opening closing ∧
      skipBalanced b index opening closing ≤ b.length := by
  refine Loop.final_of_invariant (m := balanceLoop b opening closing)
    (P := fun s => index ≤ s.cursor ∧ s.cursor ≤ b.length) (fun s t hs h => ?_)
    ⟨Nat.le_refl _, hindex⟩
  have := balanceStep_forward h
  omega

theorem lt_skipBalanced {c : UInt8}
    (hc : b[index]? = some c) : index < skipBalanced b index opening closing := by
  have hlt := (List.getElem?_eq_some_iff.mp hc).1
  have hfinal := Loop.step_final (m := balanceLoop b opening closing) ⟨0, index, false⟩
  have hreach := Loop.reach_final (m := balanceLoop b opening closing) ⟨0, index, false⟩
  refine Nat.lt_of_le_of_ne (skipBalanced_bounds (Nat.le_of_lt hlt)).1 fun heq => ?_
  -- the loop would have ended where it began, and it can take a step there
  have hstay : ∀ t, (balanceLoop b opening closing).Reach ⟨0, index, false⟩ t →
      t = ⟨0, index, false⟩ ∨ index < t.cursor := by
    intro t ht
    induction ht with
    | refl => exact .inl rfl
    | @step t u ht hstep ih =>
      have hforward := balanceStep_forward hstep
      rcases ih with rfl | ih
      · exact .inr hforward.1
      · exact .inr (by omega)
  rcases hstay _ hreach with hsame | hlt'
  · rw [hsame] at hfinal
    have hnone : balanceStep b opening closing ⟨0, index, false⟩ = none := hfinal
    simp [balanceStep, hc] at hnone
  · exact Nat.lt_irrefl index (Nat.lt_of_lt_of_eq hlt' heq.symm)

/-- One turn over a scalar: a constructor's parentheses and a string are taken whole. -/
def scalarStep (b : List UInt8) (cursor : Nat) : Option Nat :=
  b[cursor]?.bind fun c =>
    if c == Byte.openParenthesis then some (skipBalanced b cursor [Byte.openParenthesis] [0x29])
    else if isQuote c then some (skipQuoted b cursor)
    else if c == 0x2c || c == 0x7d || c == Byte.closeBracket || isAsciiWhitespace c then none
    else some (cursor + 1)

theorem scalarStep_forward {cursor next : Nat}
    (h : scalarStep b cursor = some next) : cursor < next ∧ next ≤ b.length := by
  obtain ⟨c, hc, h⟩ := Option.bind_eq_some_iff.mp h
  have hlt := (List.getElem?_eq_some_iff.mp hc).1
  split_ifs at h
  · obtain rfl := Option.some.inj h
    exact ⟨lt_skipBalanced hc, (skipBalanced_bounds (Nat.le_of_lt hlt)).2⟩
  · obtain rfl := Option.some.inj h
    exact skipQuoted_bounds hlt
  · obtain rfl := Option.some.inj h
    exact ⟨Nat.lt_succ_self _, hlt⟩

def scalarLoop (b : List UInt8) : Loop Nat where
  step := scalarStep b
  measure := fun cursor => b.length - cursor
  decreases := fun h => by
    have := scalarStep_forward h
    omega

def skipValue (b : List UInt8) (index : Nat) : Nat :=
  let stop :=
    match b[index]? with
    | some c =>
      if isQuote c then skipQuoted b index
      else if c == 0x7b || c == Byte.openBracket then
        skipBalanced b index [0x7b, Byte.openBracket] [0x7d, Byte.closeBracket]
      else (scalarLoop b).final index
    | none => (scalarLoop b).final index
  min stop b.length

theorem skipValue_bounds (hindex : index ≤ b.length) :
    index ≤ skipValue b index ∧ skipValue b index ≤ b.length := by
  have hscalar : index ≤ (scalarLoop b).final index :=
    Loop.final_of_invariant (m := scalarLoop b) (P := fun s => index ≤ s)
      (fun s t hs h => by
        have := scalarStep_forward h
        omega) (Nat.le_refl _)
  refine ⟨Nat.le_min.mpr ⟨?_, hindex⟩, Nat.min_le_right _ _⟩
  split
  next c hc =>
    have hlt := (List.getElem?_eq_some_iff.mp hc).1
    split_ifs
    · exact Nat.le_of_lt (skipQuoted_bounds hlt).1
    · exact (skipBalanced_bounds hindex).1
    · exact hscalar
  next => exact hscalar

end Oxyn.Json
