/-
# `Oxyn.Lib.Keyed` — rows with a primary key

A table is a list of rows; a row is looked up by its key.
-/
import Mathlib.Algebra.Order.Ring.Int
import Mathlib.Data.List.Nodup

namespace Keyed

open List

variable {α κ : Type} {key : α → κ} {rows : List α} {k : κ}

variable {change : α → α}

theorem map_key (hkeep : ∀ row, key (change row) = key row) :
    (rows.map change).map key = rows.map key := by
  rw [map_map]
  exact map_congr_left fun row _ => hkeep row

variable {row : α}

theorem nodup_append (hdistinct : (rows.map key).Nodup)
    (hnew : ∀ old ∈ rows, key old ≠ key row) : ((rows ++ [row]).map key).Nodup := by
  rw [map_append]
  refine List.nodup_append.mpr ⟨hdistinct, nodup_singleton _, fun a ha b hb => ?_⟩
  obtain ⟨old, hold, rfl⟩ := mem_map.mp ha
  exact mem_singleton.mp hb ▸ hnew old hold

variable [DecidableEq κ]

def lookup (key : α → κ) (rows : List α) (k : κ) : Option α := rows.find? (key · = k)

theorem key_of_lookup (h : lookup key rows k = some row) : key row = k := by
  simpa using find?_some h

theorem mem_of_lookup (h : lookup key rows k = some row) : row ∈ rows :=
  mem_of_find?_eq_some h

theorem lookup_eq_none : lookup key rows k = none ↔ ∀ row ∈ rows, key row ≠ k := by
  unfold lookup
  rw [find?_eq_none]
  simp

theorem lookup_of_mem (hdistinct : (rows.map key).Nodup) (hmem : row ∈ rows) :
    lookup key rows (key row) = some row := by
  induction rows with
  | nil => cases hmem
  | cons first rest ih =>
    rw [map_cons, nodup_cons] at hdistinct
    unfold lookup
    rcases mem_cons.mp hmem with rfl | hmem
    · exact find?_cons_of_pos (by simp)
    · have hne : key first ≠ key row := fun heq => hdistinct.1 (heq ▸ mem_map_of_mem hmem)
      rw [find?_cons_of_neg (by simpa using hne)]
      exact ih hdistinct.2 hmem

theorem lookup_map (hkeep : ∀ row, key (change row) = key row) :
    lookup key (rows.map change) k = (lookup key rows k).map change := by
  unfold lookup
  rw [find?_map]
  simp only [Function.comp_def, hkeep]

theorem lookup_map_at {at' : κ} (hkeep : ∀ row, key (change row) = key row) :
    lookup key (rows.map fun row => if key row = at' then change row else row) k =
      if k = at' then (lookup key rows k).map change else lookup key rows k := by
  have hsame (row : α) : key (if key row = at' then change row else row) = key row := by
    split
    · exact hkeep row
    · rfl
  rw [lookup_map hsame]
  cases hrow : lookup key rows k with
  | none => simp
  | some row =>
    rw [Option.map_some, key_of_lookup hrow]
    split <;> rfl

theorem lookup_append (row : α) (hnew : ∀ old ∈ rows, key old ≠ key row) :
    lookup key (rows ++ [row]) k = if k = key row then some row else lookup key rows k := by
  unfold lookup
  rw [find?_append, find?_singleton]
  by_cases heq : k = key row
  · obtain rfl := heq
    have hnone : rows.find? (key · = key row) = none := by
      rw [find?_eq_none]
      simpa using hnew
    simp [hnone]
  · simp [heq, Ne.symm heq]

theorem lookup_filter (hdistinct : (rows.map key).Nodup) {keep : α → Bool} :
    lookup key (rows.filter keep) k = (lookup key rows k).filter keep := by
  have hdistinct' : ((rows.filter keep).map key).Nodup :=
    hdistinct.sublist (filter_sublist.map _)
  cases hrow : lookup key rows k with
  | none =>
    rw [lookup_eq_none] at hrow
    rw [Option.filter_none, lookup_eq_none]
    exact fun row hmem => hrow row (mem_of_mem_filter hmem)
  | some row =>
    obtain rfl := key_of_lookup hrow
    cases hkeep : keep row with
    | true =>
      rw [Option.filter_some, if_pos hkeep]
      exact lookup_of_mem hdistinct' (mem_filter.mpr ⟨mem_of_lookup hrow, hkeep⟩)
    | false =>
      rw [Option.filter_some, if_neg (by simp [hkeep]), lookup_eq_none]
      intro other hmem heq
      obtain ⟨hmem, hkept⟩ := mem_filter.mp hmem
      have hother := lookup_of_mem hdistinct hmem
      rw [heq, hrow] at hother
      obtain rfl := Option.some.inj hother
      cases hkeep.symm.trans hkept

end Keyed
