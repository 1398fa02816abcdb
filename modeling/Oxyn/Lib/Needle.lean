/-
# `Oxyn.Lib.Needle` — the first occurrence of a needle in what has come so far

A stream comes piece by piece, and what counts is where a needle first occurs in all of it.
`before` and `behind` are the two sides of that place.
-/
import Mathlib.Data.List.Infix

namespace Needle

open List

variable {α : Type} {n s t : List α}

/-! ## Where a needle starts -/

theorem starts_append_iff (h : n.length ≤ s.length) : n <+: s ++ t ↔ n <+: s := by
  constructor
  · intro hlong
    exact prefix_of_prefix_length_le hlong (prefix_append s t) h
  · intro hshort
    exact hshort.trans (prefix_append s t)

theorem holds_append (h : n <:+: s) : n <:+: s ++ t := h.trans (infix_append' [] s t)

/-- A list that does not hold the needle goes on with it only from near its end. -/
theorem not_starts_of_absent {i : Nat} (h : ¬ n <:+: s) (hi : i + n.length ≤ s.length) :
    ¬ n <+: (s ++ t).drop i := by
  rintro hstart
  rw [drop_append_of_le_length (by omega)] at hstart
  have hlen : n.length ≤ (s.drop i).length := by
    rw [length_drop]
    omega
  have hshort := (starts_append_iff hlen).mp hstart
  exact h (hshort.isInfix.trans (drop_suffix i s).isInfix)

theorem holds_drop {k : Nat} (h : ∀ i < k, ¬ n <+: s.drop i) (hn : n ≠ []) :
    n <:+: s ↔ n <:+: s.drop k := by
  refine ⟨fun hheld => ?_, fun hheld => hheld.trans (drop_suffix k s).isInfix⟩
  induction k generalizing s with
  | zero => exact hheld
  | succ k ih =>
    cases s with
    | nil => exact absurd (infix_nil.mp hheld) hn
    | cons c s =>
      have hlater := (infix_cons_iff.mp hheld).resolve_left (h 0 (Nat.succ_pos k))
      rw [drop_succ_cons]
      refine ih (fun i hi => ?_) hlater
      exact h (i + 1) (Nat.succ_lt_succ hi)

/-! ## The first occurrence -/

variable [DecidableEq α]

/-- What stands before the first occurrence of `n`; all of it, if there is none. -/
def before (n : List α) : List α → List α
  | [] => []
  | c :: s => if n <+: c :: s then [] else c :: before n s

/-- What stands behind that occurrence. -/
def behind (n s : List α) : List α := s.drop ((before n s).length + n.length)

theorem before_of_starts (h : n <+: s) : before n s = [] := by
  cases s with
  | nil => rfl
  | cons c s => exact if_pos h

theorem before_cons {c : α} (h : ¬ n <+: c :: s) : before n (c :: s) = c :: before n s := if_neg h

theorem before_eq_self (h : ¬ n <:+: s) : before n s = s := by
  induction s with
  | nil => rfl
  | cons c s ih =>
    rw [infix_cons_iff, not_or] at h
    rw [before_cons h.1, ih h.2]

theorem before_initial (n s : List α) : before n s <+: s := by
  induction s with
  | nil => exact prefix_rfl
  | cons c s ih =>
    by_cases h : n <+: c :: s
    · rw [before_of_starts h]
      exact nil_prefix
    · rw [before_cons h]
      exact (prefix_cons_inj c).mpr ih

theorem cut (h : n <:+: s) : s = before n s ++ (n ++ behind n s) := by
  induction s with
  | nil =>
    obtain rfl := infix_nil.mp h
    rfl
  | cons c s ih =>
    by_cases hstart : n <+: c :: s
    · obtain ⟨rest, hrest⟩ := hstart
      rw [behind, before_of_starts ⟨rest, hrest⟩, ← hrest, length_nil, Nat.zero_add,
        drop_left, nil_append]
    · have hlater := (infix_cons_iff.mp h).resolve_left hstart
      have hbehind : behind n (c :: s) = behind n s := by
        rw [behind, behind, before_cons hstart, length_cons, Nat.add_right_comm,
          drop_succ_cons]
      rw [before_cons hstart, hbehind, cons_append, ← ih hlater]

theorem starts_before (h : n <:+: s) : n <+: s.drop (before n s).length := by
  have hdrop := congrArg (List.drop (before n s).length) (cut h)
  rw [drop_left] at hdrop
  rw [hdrop]
  exact prefix_append _ _

/-! ## What has come, and what comes -/

theorem before_append (h : n <:+: s) : before n (s ++ t) = before n s := by
  induction s with
  | nil =>
    obtain rfl := infix_nil.mp h
    rw [before_of_starts nil_prefix, before_of_starts nil_prefix]
  | cons c s ih =>
    rw [cons_append]
    by_cases hstart : n <+: c :: s
    · have hlong : n <+: c :: (s ++ t) := hstart.trans (prefix_append (c :: s) t)
      rw [before_of_starts hstart, before_of_starts hlong]
    · have hlater := (infix_cons_iff.mp h).resolve_left hstart
      have hlen : n.length ≤ (c :: s).length :=
        Nat.le_trans hlater.length_le (Nat.le_succ _)
      have hlong : ¬ n <+: c :: (s ++ t) := fun hlong =>
        hstart ((starts_append_iff hlen).mp hlong)
      rw [before_cons hstart, before_cons hlong, ih hlater]

theorem behind_append (h : n <:+: s) : behind n (s ++ t) = behind n s ++ t := by
  have hcut := congrArg List.length (cut h)
  rw [length_append, length_append] at hcut
  rw [behind, before_append h, drop_append_of_le_length (by omega)]
  rfl

/-- Until the needle came, all but the last symbols are before it. -/
theorem length_lt_of_absent (h : ¬ n <:+: s) (hlong : n <:+: s ++ t) :
    s.length < (before n (s ++ t)).length + n.length := by
  by_contra hle
  exact not_starts_of_absent h (Nat.not_lt.mp hle) (starts_before hlong)

/-! ## A search that skips what was searched -/

theorem before_drop {k : Nat} (h : ∀ i < k, ¬ n <+: s.drop i) :
    before n s = s.take k ++ before n (s.drop k) := by
  induction k generalizing s with
  | zero => rfl
  | succ k ih =>
    cases s with
    | nil => rfl
    | cons c s =>
      have hstart : ¬ n <+: c :: s := h 0 (Nat.succ_pos k)
      have hlater : ∀ i < k, ¬ n <+: s.drop i := by
        intro i hi
        exact h (i + 1) (Nat.succ_lt_succ hi)
      rw [before_cons hstart, take_succ_cons, drop_succ_cons, cons_append,
        ih hlater]

end Needle
