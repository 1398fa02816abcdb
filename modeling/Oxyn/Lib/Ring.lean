/-
# `Oxyn.Lib.Ring` — a bounded memory

A list with the oldest first, where a new element pushes the oldest ones out once the capacity is
reached.
-/
import Mathlib.Data.List.Basic

namespace Ring

open List

variable {α : Type}

/-- Forgets the oldest elements until one more fits. -/
def makeRoom (capacity : Nat) : List α → List α
  | [] => []
  | x :: l => if capacity ≤ (x :: l).length then makeRoom capacity l else x :: l

/-- Remembers one more element; a memory of capacity zero remembers nothing. -/
def push (capacity : Nat) (l : List α) (x : α) : List α :=
  if capacity = 0 then l else makeRoom capacity l ++ [x]

variable {capacity : Nat}

theorem length_makeRoom_lt (h : 0 < capacity) (l : List α) :
    (makeRoom capacity l).length < capacity := by
  induction l with
  | nil => exact h
  | cons x l ih =>
    unfold makeRoom
    split_ifs with hx
    · exact ih
    · omega

variable {l : List α}

theorem length_push_le (h : l.length ≤ capacity) (x : α) :
    (push capacity l x).length ≤ capacity := by
  unfold push
  split_ifs with hc
  · exact h
  · have := length_makeRoom_lt (Nat.pos_of_ne_zero hc) l
    simp only [length_append, length_singleton]
    omega

/-- The newest elements stay, as long as they leave room for one. -/
theorem makeRoom_append (l m : List α) (h : m.length < capacity) :
    ∃ l', makeRoom capacity (l ++ m) = l' ++ m := by
  induction l with
  | nil =>
    refine ⟨[], ?_⟩
    cases m with
    | nil => rfl
    | cons x m => exact if_neg (by omega)
  | cons x l ih =>
    rw [cons_append, makeRoom]
    split_ifs
    · exact ih
    · exact ⟨x :: l, rfl⟩

/-! ## What is remembered -/

/-- At most `n` elements came after some occurrence of `x`. -/
def Recent (x : α) (n : Nat) (l : List α) : Prop :=
  ∃ l₁ l₂, l = l₁ ++ x :: l₂ ∧ l₂.length ≤ n

variable {x : α}

theorem Recent.mem {n : Nat} (h : Recent x n l) : x ∈ l := by
  obtain ⟨l₁, l₂, rfl, -⟩ := h
  simp

theorem recent_push (h : 0 < capacity) (l : List α) (x : α) :
    Recent x 0 (push capacity l x) :=
  ⟨makeRoom capacity l, [], if_neg (Nat.pos_iff_ne_zero.mp h), Nat.le_refl 0⟩

theorem Recent.push {capacity n : Nat} (h : Recent x n l)
    (hn : n + 1 < capacity) (y : α) : Recent x (n + 1) (Ring.push capacity l y) := by
  obtain ⟨l₁, l₂, rfl, hl⟩ := h
  have hlt : (x :: l₂).length < capacity := by
    rw [length_cons]
    omega
  obtain ⟨l', hl'⟩ := makeRoom_append l₁ (x :: l₂) hlt
  refine ⟨l', l₂ ++ [y], ?_, by simpa using hl⟩
  rw [Ring.push, if_neg (by omega), hl']
  simp

def pushes (capacity : Nat) (l : List α) (ys : List α) : List α := ys.foldl (push capacity) l

theorem length_pushes_le (ys : List α) (h : l.length ≤ capacity) :
    (pushes capacity l ys).length ≤ capacity := by
  induction ys generalizing l with
  | nil => exact h
  | cons y ys ih => exact ih (length_push_le h y)

theorem Recent.pushes {capacity n : Nat} (ys : List α) (h : Recent x n l)
    (hn : n + ys.length < capacity) : Recent x (n + ys.length) (Ring.pushes capacity l ys) := by
  induction ys generalizing l n with
  | nil => exact h
  | cons y ys ih =>
    rw [length_cons] at hn ⊢
    have hy : Recent x (n + 1) (Ring.push capacity l y) := h.push (by omega) y
    rw [show n + (ys.length + 1) = n + 1 + ys.length by omega]
    exact ih hy (by omega)

theorem recent_pushes (l ys : List α) (x : α) (zs : List α)
    (h : zs.length < capacity) : Recent x zs.length (pushes capacity l (ys ++ x :: zs)) := by
  have hc : 0 < capacity := by omega
  have hx : Recent x 0 (push capacity (pushes capacity l ys) x) := recent_push hc _ x
  have hzs : Recent x (0 + zs.length) (pushes capacity _ zs) := hx.pushes zs (by omega)
  rw [Nat.zero_add] at hzs
  simpa [pushes] using hzs

theorem Recent.filter {n : Nat} {keep : α → Bool} (h : Recent x n l)
    (hx : keep x = true) : Recent x n (l.filter keep) := by
  obtain ⟨l₁, l₂, rfl, hl⟩ := h
  refine ⟨l₁.filter keep, l₂.filter keep, ?_, Nat.le_trans (length_filter_le _ _) hl⟩
  rw [filter_append, filter_cons_of_pos hx]

end Ring
