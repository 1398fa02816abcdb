/-
# `Oxyn.Lib.Aggregate` — the join of what there is

A loop that keeps nothing until it has seen something, and the join of what it has seen after
that, computes a join in the lattice with a bottom added: `aggregate`.
-/
import Mathlib.Order.WithBot
import Mathlib.Order.BoundedOrder.Lattice

namespace Aggregate

open List

variable {α : Type} [SemilatticeSup α]

/-- One turn of the loop. -/
def joined : Option α → α → α
  | some previous, x => previous ⊔ x
  | none, x => x

/-- The join of a list, `⊥` when it is empty. -/
def aggregate (l : List α) : WithBot α := l.foldl (fun (acc : WithBot α) (x : α) => acc ⊔ ↑x) ⊥

/-- It is what the loop computes. -/
theorem foldl_joined (l : List α) :
    l.foldl (fun (acc : Option α) (x : α) => some (joined acc x)) none = aggregate l := by
  suffices h : ∀ acc : Option α, l.foldl (fun acc x => some (joined acc x)) acc =
      l.foldl (fun (acc : WithBot α) (x : α) => acc ⊔ ↑x) (id acc) from h none
  induction l with
  | nil => exact fun _ => rfl
  | cons x l ih =>
    intro acc
    have hx : (some (joined acc x) : WithBot α) = (id acc : WithBot α) ⊔ ↑x := by
      cases acc with
      | none => exact (bot_sup_eq (x : WithBot α)).symm
      | some a => rfl
    exact (ih _).trans (congrArg (fun w : WithBot α => l.foldl _ w) hx)

@[simp] theorem aggregate_nil : aggregate ([] : List α) = ⊥ := rfl

theorem aggregate_append (l m : List α) : aggregate (l ++ m) = aggregate l ⊔ aggregate m := by
  have h : ∀ acc : WithBot α,
      m.foldl (fun (acc : WithBot α) (x : α) => acc ⊔ ↑x) acc = acc ⊔ aggregate m := by
    induction m with
    | nil => simp [aggregate]
    | cons x m ih =>
      intro acc
      rw [foldl_cons, ih]
      unfold aggregate
      rw [foldl_cons, bot_sup_eq, ih x, sup_assoc]
      rfl
  rw [aggregate, foldl_append]
  exact h _

@[simp] theorem aggregate_cons (x : α) (l : List α) : aggregate (x :: l) = ↑x ⊔ aggregate l :=
  aggregate_append [x] l

variable {l : List α}

theorem le_aggregate {x : α} (hx : x ∈ l) : ↑x ≤ aggregate l := by
  obtain ⟨l₁, l₂, rfl⟩ := append_of_mem hx
  rw [aggregate_append, aggregate_cons]
  exact le_sup_of_le_right le_sup_left

theorem aggregate_eq_bot : aggregate l = ⊥ ↔ l = [] := by
  constructor
  · intro h
    cases l with
    | nil => rfl
    | cons x l =>
      have hx : (x : WithBot α) ≤ aggregate (x :: l) := le_aggregate (by simp)
      rw [h, le_bot_iff] at hx
      exact absurd hx WithBot.coe_ne_bot
  · rintro rfl
    rfl

/-- Nothing but the least element aggregates to the least element. -/
theorem eq_of_aggregate {b : α} (hb : ∀ x : α, b ≤ x) (h : aggregate l = ↑b) :
    l ≠ [] ∧ ∀ x ∈ l, x = b := by
  refine ⟨fun hnil => by simp [hnil] at h, fun x hx => ?_⟩
  have hle := le_aggregate hx
  rw [h, WithBot.coe_le_coe] at hle
  exact le_antisymm hle (hb x)

end Aggregate
