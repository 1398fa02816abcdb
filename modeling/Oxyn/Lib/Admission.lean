/-
# `Oxyn.Lib.Admission` — what a budget lets in, one after the other

Items come in an order, each with a cost.  One that still fits is taken and paid for, one that
does not is passed over, and a smaller one behind it may still fit.
-/
import Mathlib.Algebra.GroupWithZero.Nat
import Mathlib.Data.List.Nodup
import Mathlib.Algebra.BigOperators.Group.List.Basic

namespace Admission

open List

variable {α : Type} (cost : α → Nat) (limit : Nat)

/-- The items taken, in order, once so much is used. -/
def admitted : Nat → List α → List α
  | _, [] => []
  | used, x :: rest =>
    if used + cost x ≤ limit then x :: admitted (used + cost x) rest else admitted used rest

variable {cost limit}

variable {used : Nat}

theorem admitted_cons_of_fits {x : α} (h : used + cost x ≤ limit) (rest : List α) :
    admitted cost limit used (x :: rest) = x :: admitted cost limit (used + cost x) rest :=
  if_pos h

theorem admitted_cons_of_not {x : α} (h : ¬ used + cost x ≤ limit) (rest : List α) :
    admitted cost limit used (x :: rest) = admitted cost limit used rest :=
  if_neg h

theorem admitted_sublist (cost : α → Nat) (limit used : Nat) (items : List α) :
    (admitted cost limit used items).Sublist items := by
  induction items generalizing used with
  | nil => exact List.Sublist.refl _
  | cons x rest ih =>
    by_cases hfits : used + cost x ≤ limit
    · rw [admitted_cons_of_fits hfits]
      exact (ih _).cons_cons x
    · rw [admitted_cons_of_not hfits]
      exact (ih _).cons x

theorem sum_admitted_le (used : Nat) (items : List α) :
    ((admitted cost limit used items).map cost).sum ≤ limit - used := by
  induction items generalizing used with
  | nil => exact Nat.zero_le _
  | cons x rest ih =>
    by_cases hfits : used + cost x ≤ limit
    · have hrest := ih (used + cost x)
      rw [admitted_cons_of_fits hfits, map_cons, sum_cons]
      omega
    · rw [admitted_cons_of_not hfits]
      exact ih used

theorem admitted_eq_self {items : List α} (h : used + (items.map cost).sum ≤ limit) :
    admitted cost limit used items = items := by
  induction items generalizing used with
  | nil => rfl
  | cons x rest ih =>
    rw [map_cons, sum_cons] at h
    rw [admitted_cons_of_fits (by omega), ih (by omega)]

theorem length_admitted_add [DecidableEq α] (cost : α → Nat) (limit used : Nat) {items : List α}
    (hnodup : items.Nodup) :
    (admitted cost limit used items).length +
      (items.filter fun x => x ∉ admitted cost limit used items).length = items.length := by
  have hsub := admitted_sublist cost limit used items
  have hkept : items.filter (fun x => x ∈ admitted cost limit used items) =
      admitted cost limit used items := by
    have hfilter := hsub.filter fun x => decide (x ∈ admitted cost limit used items)
    rw [filter_eq_self.mpr fun x hx => decide_eq_true hx] at hfilter
    refine (hfilter.eq_of_length_le ?_).symm
    refine List.Nodup.length_le_of_subset (hnodup.filter _) fun x hx => ?_
    exact of_decide_eq_true (mem_filter.mp hx).2
  have hcount := length_eq_length_filter_add (l := items)
    fun x => decide (x ∈ admitted cost limit used items)
  rw [hkept] at hcount
  rw [hcount]
  congr 2
  exact filter_congr fun x _ => (decide_not ..)

end Admission
