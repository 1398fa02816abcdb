/-
# `Oxyn.Lib.Decimal` — numbers written in decimal digits

A run of digits, the number it writes, and back: a numeral alone, and a numeral padded with zeros
to a width.
-/
import Mathlib.Algebra.Order.Ring.Nat
import Mathlib.Data.List.Basic
import Mathlib.Data.List.TakeWhile
import Mathlib.Data.List.Induction

namespace Decimal

open List

def Digits (s : List Char) : Prop := ∀ c ∈ s, c.isDigit = true

instance (s : List Char) : Decidable (Digits s) :=
  List.decidableBAll (fun c : Char => c.isDigit = true) s

def value (s : List Char) : Nat := Nat.ofDigitChars 10 s 0

/-- `{n}`. -/
def numeral (n : Nat) : List Char := Nat.toDigits 10 n

/-- `{n:0width}`: a shorter numeral gets zeros before it. -/
def padded (width n : Nat) : List Char :=
  List.replicate (width - (numeral n).length) '0' ++ numeral n

theorem Digits.nil : Digits [] := fun _ h => absurd h not_mem_nil

theorem Digits.append {s t : List Char} (hs : Digits s) (ht : Digits t) : Digits (s ++ t) := by
  intro c hc
  rcases mem_append.mp hc with hc | hc
  · exact hs c hc
  · exact ht c hc

theorem Digits.sublist {s t : List Char} (h : s.Sublist t) (ht : Digits t) : Digits s :=
  fun c hc => ht c (h.subset hc)

theorem digits_numeral (n : Nat) : Digits (numeral n) := by
  intro c hc
  exact Nat.isDigit_of_mem_toDigits (by decide) (by decide) hc

theorem digits_padded (width n : Nat) : Digits (padded width n) := by
  refine Digits.append ?_ (digits_numeral n)
  intro c hc
  rw [eq_of_mem_replicate hc]
  decide

theorem numeral_ne_nil (n : Nat) : numeral n ≠ [] := Nat.toDigits_ne_nil

theorem padded_ne_nil (width n : Nat) : padded width n ≠ [] := by
  intro h
  exact numeral_ne_nil n (append_eq_nil_iff.mp h).2

/-! ## Values -/

theorem value_append (s t : List Char) : value (s ++ t) = value s * 10 ^ t.length + value t := by
  unfold value
  rw [Nat.ofDigitChars_append, Nat.ofDigitChars_eq_ofDigitChars_zero, Nat.mul_comm]

@[simp] theorem value_numeral (n : Nat) : value (numeral n) = n := Nat.ofDigitChars_ten_toDigits

@[simp] theorem value_padded (width n : Nat) : value (padded width n) = n := by
  have hzeros : value (List.replicate (width - (numeral n).length) '0') = 0 := by
    unfold value
    rw [Nat.ofDigitChars_replicate_zero, Nat.mul_zero]
  rw [padded, value_append, hzeros, Nat.zero_mul, Nat.zero_add, value_numeral]

theorem length_numeral_le {n k : Nat} (hk : 0 < k) : (numeral n).length ≤ k ↔ n < 10 ^ k :=
  Nat.length_toDigits_le_iff (by decide) hk

theorem length_padded {width n : Nat} (hw : 0 < width) (h : n < 10 ^ width) :
    (padded width n).length = width := by
  have hle := (length_numeral_le hw).mpr h
  rw [padded, length_append, length_replicate]
  exact Nat.sub_add_cancel hle

theorem digit_value_lt {c : Char} (h : c.isDigit = true) : c.toNat - '0'.toNat < 10 := by
  have hle := ((Bool.and_eq_true _ _).mp h).2
  have : c.toNat ≤ 57 := of_decide_eq_true hle
  have : '0'.toNat = 48 := rfl
  omega

theorem value_lt {s : List Char} (h : Digits s) : value s < 10 ^ s.length := by
  induction s using List.reverseRecOn with
  | nil => exact Nat.one_pos
  | append_singleton s c ih =>
    have hs : value s < 10 ^ s.length := ih fun d hd => h d (mem_append_left _ hd)
    have hc : value [c] < 10 := by
      have := digit_value_lt (h c (mem_append_right _ (mem_singleton_self c)))
      unfold value
      rw [Nat.ofDigitChars_cons, Nat.ofDigitChars_nil, Nat.mul_zero, Nat.zero_add]
      exact this
    rw [value_append, length_append, length_singleton, Nat.pow_succ (m := s.length),
      Nat.pow_one]
    omega

theorem value_take {s : List Char} (h : Digits s) (k : Nat) :
    value (s.take k) = value s / 10 ^ (s.length - k) := by
  have hdrop : value (s.drop k) < 10 ^ (s.length - k) := by
    have := value_lt (h.sublist (drop_sublist k s))
    rwa [length_drop] at this
  conv_rhs => rw [← take_append_drop k s, value_append, length_drop]
  rw [take_append_drop, Nat.mul_comm, Nat.mul_add_div (Nat.pow_pos (by decide)),
    Nat.div_eq_of_lt hdrop, Nat.add_zero]

/-! ## Reading digits from a text -/

/-- The digits a text begins with, as a number, and the rest. -/
def readDigits (s : List Char) : Option (Nat × List Char) :=
  if s.takeWhile Char.isDigit = [] then none
  else some (value (s.takeWhile Char.isDigit), s.dropWhile Char.isDigit)

/-- No digit goes on at the front of a text. -/
def Stops (s : List Char) : Prop := ∀ c ∈ s.head?, c.isDigit = false

theorem stops_nil : Stops [] := fun _ h => absurd h (by simp)

theorem stops_cons {c : Char} (h : c.isDigit = false) (s : List Char) : Stops (c :: s) := by
  rintro d ⟨⟩
  exact h

theorem takeWhile_digits_append {d rest : List Char} (hd : Digits d) (hrest : Stops rest) :
    (d ++ rest).takeWhile Char.isDigit = d ∧ (d ++ rest).dropWhile Char.isDigit = rest := by
  rw [takeWhile_append_of_pos hd, dropWhile_append_of_pos hd]
  cases rest with
  | nil => exact ⟨append_nil _, rfl⟩
  | cons c rest =>
    have hc : ¬ c.isDigit = true := Bool.not_eq_true _ ▸ hrest c rfl
    rw [takeWhile_cons_of_neg hc, dropWhile_cons_of_neg hc, append_nil]
    exact ⟨rfl, rfl⟩

theorem readDigits_append {d rest : List Char} (hne : d ≠ []) (hd : Digits d)
    (hrest : Stops rest) : readDigits (d ++ rest) = some (value d, rest) := by
  obtain ⟨htake, hdrop⟩ := takeWhile_digits_append hd hrest
  rw [readDigits, htake, hdrop, if_neg hne]

theorem readDigits_numeral (n : Nat) {rest : List Char} (hrest : Stops rest) :
    readDigits (numeral n ++ rest) = some (n, rest) := by
  rw [readDigits_append (numeral_ne_nil n) (digits_numeral n) hrest, value_numeral]

theorem readDigits_padded (width n : Nat) {rest : List Char} (hrest : Stops rest) :
    readDigits (padded width n ++ rest) = some (n, rest) := by
  rw [readDigits_append (padded_ne_nil width n) (digits_padded width n) hrest, value_padded]

/-! ## Numbers with a sign and decimals -/

/-- `mantissa / 10 ^ scale`, as it was written. -/
structure Scaled where
  mantissa : Int
  scale : Nat
deriving DecidableEq, Repr

def signed (negative : Bool) (n : Nat) : Int := if negative then -n else n

/-- `-12.340`: a point is written if decimals follow it. -/
def text (negative : Bool) (whole decimals : List Char) : List Char :=
  (if negative then ['-'] else []) ++ whole ++ (if decimals = [] then [] else '.' :: decimals)

def readUnsigned (s : List Char) : Option (Nat × Nat) :=
  let whole := s.takeWhile Char.isDigit
  if whole = [] then none
  else match s.dropWhile Char.isDigit with
    | [] => some (value whole, 0)
    | c :: decimals =>
      if c = '.' ∧ decimals ≠ [] ∧ Digits decimals then
        some (value (whole ++ decimals), decimals.length)
      else none

/-- Reads a number written with digits, a sign before it and decimals after a point. -/
def read (s : List Char) : Option Scaled :=
  if s.head? = some '-' then (readUnsigned s.tail).map fun n => ⟨signed true n.1, n.2⟩
  else (readUnsigned s).map fun n => ⟨signed false n.1, n.2⟩

theorem readUnsigned_text {whole decimals : List Char} (hne : whole ≠ []) (hw : Digits whole)
    (hd : Digits decimals) :
    readUnsigned (whole ++ (if decimals = [] then [] else '.' :: decimals)) =
      some (value (whole ++ decimals), decimals.length) := by
  unfold readUnsigned
  dsimp only
  rw [takeWhile_append_of_pos hw, dropWhile_append_of_pos hw]
  by_cases hnil : decimals = []
  · rw [if_pos hnil, hnil, takeWhile_nil, append_nil, if_neg hne]
    rfl
  · rw [if_neg hnil, takeWhile_cons_of_neg (by decide), append_nil, if_neg hne,
      dropWhile_cons_of_neg (by decide)]
    exact if_pos ⟨rfl, hnil, hd⟩

theorem read_text {negative : Bool} {whole decimals : List Char} (hne : whole ≠ [])
    (hw : Digits whole) (hd : Digits decimals) :
    read (text negative whole decimals) =
      some ⟨signed negative (value (whole ++ decimals)), decimals.length⟩ := by
  have hread := readUnsigned_text hne hw hd
  cases negative with
  | true =>
    change (readUnsigned (whole ++ (if decimals = [] then [] else '.' :: decimals))).map _ = _
    rw [hread]
    rfl
  | false =>
    have htext : text false whole decimals =
        whole ++ (if decimals = [] then [] else '.' :: decimals) := rfl
    have hhead : (text false whole decimals).head? ≠ some '-' := by
      intro h
      rw [htext, head?_append_of_ne_nil _ hne] at h
      exact absurd (hw '-' (mem_of_mem_head? h)) (by decide)
    rw [read, if_neg hhead, htext, hread]
    rfl

end Decimal
