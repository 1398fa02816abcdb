/-
# `Oxyn.Query.Severity` — intents and risks, ordered

How serious an intent or a risk is puts both in a linear order, and facts in the product of the
two.
-/
import Oxyn.Lib.Aggregate
import Oxyn.Query.Classify
import Mathlib.Order.Lattice

namespace Oxyn

open Aggregate

/-- `Read < Write < Ddl < Unknown < Grant`: between `Ddl` and `Unknown`, as
restrictive, `Unknown` wins. -/
def StatementIntent.severity : StatementIntent → Nat
  | .read => 0
  | .write => 1
  | .ddl => 2
  | .unknown => 3
  | .grant => 4

theorem StatementIntent.severity_injective : Function.Injective severity := by
  intro a b
  cases a <;> cases b <;> decide

instance : LinearOrder StatementIntent :=
  LinearOrder.lift' StatementIntent.severity StatementIntent.severity_injective

theorem riskRank_injective : Function.Injective riskRank := by
  intro a b
  cases a <;> cases b <;> decide

instance : LinearOrder MutationRisk := LinearOrder.lift' riskRank riskRank_injective

theorem maxIntent_eq (a b : StatementIntent) : maxIntent a b = max a b := by
  cases a <;> cases b <;> decide

theorem maxRisk_eq (a b : MutationRisk) : maxRisk a b = max a b := by
  cases a <;> cases b <;> decide

theorem StatementIntent.read_le (i : StatementIntent) : .read ≤ i := by
  cases i <;> decide

theorem MutationRisk.none_le (r : MutationRisk) : .none ≤ r := by
  cases r <;> decide

namespace Facts

instance : LE Facts := ⟨fun a b => a.intent ≤ b.intent ∧ a.risk ≤ b.risk⟩

theorem le_iff {a b : Facts} : a ≤ b ↔ a.intent ≤ b.intent ∧ a.risk ≤ b.risk := Iff.rfl

theorem merge_intent (a b : Facts) : (a.merge b).intent = max a.intent b.intent := maxIntent_eq ..

theorem merge_risk (a b : Facts) : (a.merge b).risk = max a.risk b.risk := maxRisk_eq ..

/-- Facts are ordered field by field, and `merge` is their join. -/
instance : SemilatticeSup Facts where
  le_refl _ := ⟨le_refl _, le_refl _⟩
  le_trans _ _ _ h h' := ⟨h.1.trans h'.1, h.2.trans h'.2⟩
  le_antisymm _ _ h h' := Facts.ext (le_antisymm h.1 h'.1) (le_antisymm h.2 h'.2)
  sup := merge
  le_sup_left a b := by
    rw [le_iff, merge_intent, merge_risk]
    exact ⟨le_max_left _ _, le_max_left _ _⟩
  le_sup_right a b := by
    rw [le_iff, merge_intent, merge_risk]
    exact ⟨le_max_right _ _, le_max_right _ _⟩
  sup_le a b c h h' := by
    rw [le_iff, merge_intent, merge_risk]
    exact ⟨max_le h.1 h'.1, max_le h.2 h'.2⟩

theorem merge_eq_sup (a b : Facts) : a.merge b = a ⊔ b := rfl

theorem read_le (f : Facts) : .read ≤ f := ⟨f.intent.read_le, f.risk.none_le⟩

theorem merge_eq_read {a b : Facts} : a.merge b = .read ↔ a = .read ∧ b = .read := by
  rw [merge_eq_sup]
  constructor
  · intro h
    exact ⟨le_antisymm (h ▸ le_sup_left) a.read_le, le_antisymm (h ▸ le_sup_right) b.read_le⟩
  · rintro ⟨rfl, rfl⟩
    exact sup_idem _

end Facts

theorem mergeAll_eq (facts : List Facts) : mergeAll facts = aggregate facts := by
  rw [← foldl_joined]
  unfold mergeAll
  congr 1
  funext acc f
  cases acc <;> rfl

theorem eq_read_of_mergeAll {facts : List Facts} (h : (mergeAll facts).getD .unknown = .read) :
    facts ≠ [] ∧ ∀ f ∈ facts, f = .read := by
  refine eq_of_aggregate Facts.read_le ?_
  rw [← mergeAll_eq]
  cases hm : mergeAll facts with
  | none =>
    rw [hm] at h
    exact absurd h (by decide)
  | some g =>
    rw [hm] at h
    exact congrArg some h

end Oxyn
