/-
# `Oxyn.Lib.Offsets` — a sequence cut into blocks, and found again by number

A sequence is kept in blocks, and next to each block the number of its first element.  The numbers
are counters of a machine, which stop at their greatest value `cap` instead of wrapping
(`satAdd`).
-/
import Mathlib.Algebra.Order.Ring.Int
import Mathlib.Algebra.BigOperators.Group.List.Basic
import Mathlib.Data.List.TakeWhile

namespace Offsets

open List

/-- A sum that stops at the greatest value of its type. -/
def satAdd (cap a b : Nat) : Nat := min (a + b) cap

/-- A product that stops at the greatest value of its type. -/
def satMul (cap a b : Nat) : Nat := min (a * b) cap

theorem satAdd_min (cap a b : Nat) : satAdd cap (min a cap) b = min (a + b) cap := by
  unfold satAdd
  omega

theorem satAdd_eq_of_lt {cap a b : Nat} (h : satAdd cap a b < cap) : satAdd cap a b = a + b := by
  unfold satAdd at h ⊢
  omega

/-! ## Searching -/

variable {α : Type}

def partitionPoint (p : α → Bool) (l : List α) : Nat := (l.takeWhile p).length

theorem partitionPoint_le (p : α → Bool) (l : List α) : partitionPoint p l ≤ l.length :=
  (List.takeWhile_prefix p).length_le

theorem holds_before {p : α → Bool} {l : List α} {i : Nat} {x : α}
    (hi : i < partitionPoint p l) (hx : l[i]? = some x) : p x = true := by
  obtain ⟨rest, hl⟩ := List.takeWhile_prefix (l := l) p
  have hget : (l.takeWhile p)[i]? = some x := by
    rw [← hl, getElem?_append_left hi] at hx
    exact hx
  exact mem_takeWhile_imp (mem_of_getElem? hget)

theorem fails_at {p : α → Bool} {l : List α} {x : α}
    (hx : l[partitionPoint p l]? = some x) : p x = false := by
  induction l with
  | nil => simp at hx
  | cons y l ih =>
    cases hy : p y with
    | true =>
      rw [partitionPoint, takeWhile_cons, hy] at hx
      exact ih hx
    | false =>
      rw [partitionPoint, takeWhile_cons, hy] at hx
      obtain rfl : y = x := by simpa using hx
      exact hy

/-! ## Starts -/

/-- The number of the first element of each block, by the lengths of the blocks. -/
def starts (cap : Nat) (lens : List Nat) : List Nat :=
  (List.range lens.length).map fun i => min (lens.take i).sum cap

theorem length_starts (cap : Nat) (lens : List Nat) : (starts cap lens).length = lens.length := by
  simp [starts]

variable {lens : List Nat}

variable {cap : Nat}

theorem getElem?_starts {i : Nat} (hi : i < lens.length) :
    (starts cap lens)[i]? = some (min (lens.take i).sum cap) := by
  simp [starts, hi]

theorem starts_snoc (cap : Nat) (lens : List Nat) (n : Nat) :
    starts cap (lens ++ [n]) = starts cap lens ++ [min lens.sum cap] := by
  unfold starts
  rw [length_append, length_singleton, range_succ, map_append]
  congr 1
  · refine map_congr_left fun i hi => ?_
    rw [take_append_of_le_length (Nat.le_of_lt (mem_range.mp hi))]
  · simp

theorem sum_take_succ {i n : Nat} (hn : lens[i]? = some n) :
    (lens.take (i + 1)).sum = (lens.take i).sum + n := by
  rw [take_add_one, sum_append, hn]
  simp

/-- A start is that of the block before, and its length; it is greater, unless the
counter has stopped. -/
theorem starts_lt (hpos : ∀ n ∈ lens, 0 < n) {i s t : Nat}
    (hs : (starts cap lens)[i]? = some s) (ht : (starts cap lens)[i + 1]? = some t) :
    s < t ∨ (s = cap ∧ t = cap) := by
  have hi : i + 1 < lens.length := by
    have := (List.getElem?_eq_some_iff.mp ht).1
    rwa [length_starts] at this
  rw [getElem?_starts (by omega)] at hs
  rw [getElem?_starts hi] at ht
  obtain rfl := Option.some.inj hs
  obtain rfl := Option.some.inj ht
  have hn : lens[i]? = some lens[i] := getElem?_eq_getElem (by omega)
  have hlt := hpos _ (mem_of_getElem? hn)
  rw [sum_take_succ hn]
  omega

theorem exists_block {row : Nat} (hrow : row < min lens.sum cap) :
    ∃ i s n, partitionPoint (fun start => decide (start ≤ row)) (starts cap lens) = i + 1 ∧
      (starts cap lens)[i]? = some s ∧ s ≤ row ∧ lens[i]? = some n ∧ row - s < n := by
  have hle := partitionPoint_le (fun start => decide (start ≤ row)) (starts cap lens)
  have hbefore := fun i x => @holds_before _ (fun start => decide (start ≤ row)) (starts cap lens) i x
  have hat := fun x => @fails_at _ (fun start => decide (start ≤ row)) (starts cap lens) x
  rw [length_starts] at hle
  generalize partitionPoint (fun start => decide (start ≤ row)) (starts cap lens) = k at *
  cases k with
  | zero =>
    cases lens with
    | nil => simp at hrow
    | cons n lens =>
      have hhead : (starts cap (n :: lens))[0]? = some (min 0 cap) :=
        getElem?_starts (Nat.zero_lt_succ lens.length)
      have := hat _ hhead
      simp at this
  | succ i =>
    have hi : i < lens.length := by omega
    have hstart : (starts cap lens)[i]? = some (min (lens.take i).sum cap) := getElem?_starts hi
    have hle := of_decide_eq_true (hbefore i _ (Nat.lt_succ_self i) hstart)
    have hn : lens[i]? = some lens[i] := getElem?_eq_getElem hi
    have hnext : row < min (lens.take (i + 1)).sum cap := by
      rcases Nat.lt_or_ge (i + 1) lens.length with hlt | hge
      · have := hat _ (getElem?_starts hlt)
        simpa using this
      · rwa [take_of_length_le hge]
    rw [sum_take_succ hn] at hnext
    refine ⟨i, _, _, rfl, hstart, hle, hn, ?_⟩
    omega

end Offsets
