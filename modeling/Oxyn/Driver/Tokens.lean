/-
# `Oxyn.Driver.Tokens` — the words of a statement, as the drivers read them

The drivers that pin a setting look for it in the tokens of a statement, by its first words and by
the names it spells, in quotes or without.
-/
import Oxyn.Query.Split

namespace Oxyn.Driver

open Text List

/-- Is the token a bare word, spelled so in any case? -/
def isWord (token : Token) (expected : String) : Bool :=
  token.kind == .word && isKeyword token.text expected

/-- What stands between two of this quote; a doubled quote inside is left as written. -/
def stripQuotes (quote : Char) : Str → Option Str
  | [] => none
  | c :: inner => if c = quote ∧ inner.getLast? = some quote then some inner.dropLast else none

/-! ## Words -/

theorem isWord_unique {token : Token} {expected other : String} (h : isWord token expected = true)
    (hother : isWord token other = true) :
    expected.toList.map Char.toLower = other.toList.map Char.toLower := by
  have hfirst := eq_of_beq ((Bool.and_eq_true _ _).mp h).2
  have hsecond := eq_of_beq ((Bool.and_eq_true _ _).mp hother).2
  exact hfirst.symm.trans hsecond

theorem isWord_false {token : Token} {expected other : String} (h : isWord token expected = true)
    (hne : expected.toList.map Char.toLower ≠ other.toList.map Char.toLower) :
    isWord token other = false :=
  Bool.eq_false_iff.mpr fun hother => hne (isWord_unique h hother)

/-! ## Quotes -/

theorem stripQuotes_eq_some {quote : Char} {s inner : Str} :
    stripQuotes quote s = some inner ↔ s = quote :: (inner ++ [quote]) := by
  constructor
  · intro h
    cases s with
    | nil => cases h
    | cons c rest =>
      rw [stripQuotes] at h
      by_cases hquotes : c = quote ∧ rest.getLast? = some quote
      · rw [if_pos hquotes] at h
        obtain ⟨rfl, hlast⟩ := hquotes
        rw [← Option.some.inj h, dropLast_append_getLast? _ hlast]
      · rw [if_neg hquotes] at h
        cases h
  · rintro rfl
    have hlast : (inner ++ [quote]).getLast? = some quote := getLast?_concat
    rw [stripQuotes, if_pos ⟨rfl, hlast⟩, dropLast_concat]

end Oxyn.Driver
