/-
# `Oxyn.Lib.Boundaries` — the character boundary next to a byte position

A byte position may fall inside a character.
-/
import Oxyn.Lib.Text

namespace Text

open List

variable {s t : Str} {i n : Nat}

/-- The first boundary from a position on, if it is within the text. -/
def ceilBoundary (s : Str) (i : Nat) : Nat :=
  if i < size s ∧ isCharBoundary s i = false then ceilBoundary s (i + 1) else i
termination_by size s - i

/-- The last boundary up to a position, above another one. -/
def floorBoundary (s : Str) (low : Nat) : Nat → Nat
  | 0 => 0
  | i + 1 => if low < i + 1 ∧ isCharBoundary s (i + 1) = false then floorBoundary s low i else i + 1

structure IsFirst (s : Str) (n i : Nat) : Prop where
  boundary : isCharBoundary s i = true
  le : n ≤ i
  first : ∀ j, n ≤ j → j < i → isCharBoundary s j = false

theorem IsFirst.unique {j : Nat} (h : IsFirst s n i) (h' : IsFirst s n j) : i = j := by
  rcases Nat.lt_trichotomy i j with hlt | heq | hlt
  · exact absurd (h.boundary.symm.trans (h'.first i h.le hlt)) nofun
  · exact heq
  · exact absurd (h'.boundary.symm.trans (h.first j h'.le hlt)) nofun

theorem ceilBoundary_isFirst (h : i ≤ size s) : IsFirst s i (ceilBoundary s i) := by
  induction hn : size s - i generalizing i with
  | zero =>
    have heq : i = size s := by omega
    unfold ceilBoundary
    rw [if_neg (by omega), heq]
    exact ⟨isCharBoundary_size s, Nat.le_refl _, fun j hle hlt => absurd hlt (Nat.not_lt.mpr hle)⟩
  | succ n ih =>
    unfold ceilBoundary
    split
    next hinside =>
      have hnext := ih (i := i + 1) (by omega) (by omega)
      refine ⟨hnext.boundary, by have hle := hnext.le; omega, fun j hle hlt => ?_⟩
      rcases Nat.eq_or_lt_of_le hle with rfl | hless
      · exact hinside.2
      · exact hnext.first j hless hlt
    next hboundary =>
      have htrue : isCharBoundary s i = true := by
        by_contra hfalse
        exact hboundary ⟨by omega, by simpa using hfalse⟩
      exact ⟨htrue, Nat.le_refl _, fun j hle hlt => absurd hlt (Nat.not_lt.mpr hle)⟩

theorem floorBoundary_spec {low : Nat} (hlow : isCharBoundary s low = true) (h : low ≤ i) :
    isCharBoundary s (floorBoundary s low i) = true ∧ low ≤ floorBoundary s low i ∧
      floorBoundary s low i ≤ i ∧
      ∀ j, floorBoundary s low i < j → j ≤ i → isCharBoundary s j = false := by
  induction i with
  | zero =>
    exact ⟨isCharBoundary_zero s, h, Nat.le_refl _, fun j hlt hle => by
      unfold floorBoundary at hlt
      omega⟩
  | succ i ih =>
    unfold floorBoundary
    split
    next hinside =>
      obtain ⟨hboundary, hle, hbelow, hnone⟩ := ih (by omega)
      refine ⟨hboundary, hle, by omega, fun j hlt hj => ?_⟩
      rcases Nat.eq_or_lt_of_le hj with rfl | hless
      · exact hinside.2
      · exact hnone j hlt (by omega)
    next hboundary =>
      refine ⟨?_, h, Nat.le_refl _, fun j hlt hle => by omega⟩
      rcases Nat.eq_or_lt_of_le h with heq | hless
      · exact heq ▸ hlow
      · by_contra hfalse
        exact hboundary ⟨hless, by simpa using hfalse⟩

/-! ## Boundaries of a text behind another -/

theorem isCharBoundary_append_left (h : i ≤ size s) :
    isCharBoundary (s ++ t) i = isCharBoundary s i := by
  rw [Bool.eq_iff_iff, isCharBoundary_iff, isCharBoundary_iff]
  constructor
  · rintro ⟨u, v, heq, rfl⟩
    rcases append_eq_append_iff.mp heq with ⟨w, rfl, rfl⟩ | ⟨w, rfl, rfl⟩
    · have hw : w = [] := size_eq_zero.mp (by rw [size_append] at h; omega)
      rw [hw, append_nil]
      exact ⟨s, [], (append_nil s).symm, rfl⟩
    · exact ⟨u, w, rfl, rfl⟩
  · rintro ⟨u, v, rfl, rfl⟩
    exact ⟨u, v ++ t, append_assoc .., rfl⟩

theorem isCharBoundary_append_right :
    isCharBoundary (s ++ t) (size s + i) = isCharBoundary t i := by
  rw [Bool.eq_iff_iff, isCharBoundary_iff, isCharBoundary_iff]
  constructor
  · rintro ⟨u, v, heq, hsize⟩
    rcases append_eq_append_iff.mp heq with ⟨w, rfl, rfl⟩ | ⟨w, rfl, rfl⟩
    · rw [size_append] at hsize
      exact ⟨w, v, rfl, by omega⟩
    · rw [size_append] at hsize
      have hi : i = 0 := by omega
      exact ⟨[], t, rfl, by rw [hi, size_nil]⟩
  · rintro ⟨u, v, rfl, rfl⟩
    exact ⟨s ++ u, v, by rw [append_assoc], size_append ..⟩

theorem IsFirst.append (h : IsFirst s n i) (t : Str) : IsFirst (s ++ t) n i := by
  have hle := isCharBoundary_le h.boundary
  refine ⟨(isCharBoundary_append_left hle).trans h.boundary, h.le, fun j hj hlt => ?_⟩
  exact (isCharBoundary_append_left (by omega)).trans (h.first j hj hlt)

theorem IsFirst.behind (s : Str) (h : IsFirst t n i) :
    IsFirst (s ++ t) (size s + n) (size s + i) := by
  refine ⟨isCharBoundary_append_right.trans h.boundary, Nat.add_le_add_left h.le _,
    fun j hj hlt => ?_⟩
  obtain ⟨k, rfl⟩ := Nat.exists_eq_add_of_le (Nat.le_trans (Nat.le_add_right _ _) hj)
  exact isCharBoundary_append_right.trans (h.first k (by omega) (by omega))

end Text
