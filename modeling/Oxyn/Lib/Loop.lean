/-
# `Oxyn.Lib.Loop` — loops that end

A loop over an explicit state is a partial step and a measure that every step decreases.
-/
import Mathlib.Data.List.Basic

/-- A step on `σ` that cannot be taken forever. -/
structure Loop (σ : Type) where
  step : σ → Option σ
  measure : σ → Nat
  decreases : ∀ {s s'}, step s = some s' → measure s' < measure s

namespace Loop

variable {σ : Type} (m : Loop σ)

/-- At most `fuel` steps. -/
def iterate : Nat → σ → σ
  | 0, s => s
  | fuel + 1, s =>
    match m.step s with
    | none => s
    | some s' => iterate fuel s'

/-- The state the loop ends in. -/
def final (s : σ) : σ := m.iterate (m.measure s) s

/-- The states the loop goes through. -/
inductive Reach (s : σ) : σ → Prop
  | refl : Reach s s
  | step {t u : σ} : Reach s t → m.step t = some u → Reach s u

variable {m}

theorem Reach.trans {s t u : σ} (hst : m.Reach s t) (htu : m.Reach t u) : m.Reach s u := by
  induction htu with
  | refl => exact hst
  | step _ h ih => exact .step ih h

variable {s t : σ}

theorem Reach.invariant {P : σ → Prop} (hstep : ∀ t u, P t → m.step t = some u → P u)
    (h : m.Reach s t) (hs : P s) : P t := by
  induction h with
  | refl => exact hs
  | step _ hstep' ih => exact hstep _ _ ih hstep'

theorem reach_iterate (fuel : Nat) (s : σ) : m.Reach s (m.iterate fuel s) := by
  induction fuel generalizing s with
  | zero => exact .refl
  | succ fuel ih =>
    cases h : m.step s with
    | none => simp only [iterate, h]; exact .refl
    | some s' => simp only [iterate, h]; exact .trans (.step .refl h) (ih s')

theorem reach_final (s : σ) : m.Reach s (m.final s) := reach_iterate _ s

/-- The fuel is enough: the loop ends where no step can be taken. -/
theorem step_final (s : σ) : m.step (m.final s) = none := by
  suffices ∀ fuel s, m.measure s ≤ fuel → m.step (m.iterate fuel s) = none from
    this _ s (Nat.le_refl _)
  intro fuel
  induction fuel with
  | zero =>
    intro s hs
    cases h : m.step s with
    | none => exact h
    | some s' => have := m.decreases h; omega
  | succ fuel ih =>
    intro s hs
    cases h : m.step s with
    | none => simp [iterate, h]
    | some s' =>
      simp only [iterate, h]
      exact ih s' (by have := m.decreases h; omega)

theorem Reach.head {s u : σ} (h : m.Reach s u) : s = u ∨ ∃ t, m.step s = some t ∧ m.Reach t u := by
  induction h with
  | refl => exact .inl rfl
  | @step t u _ hstep ih =>
    obtain rfl | ⟨v, hv, hvt⟩ := ih
    · exact .inr ⟨u, hstep, .refl⟩
    · exact .inr ⟨v, hv, .step hvt hstep⟩

/-- The loop has one run: each state it goes through is on its way to the last one. -/
theorem Reach.final (h : m.Reach s t) : m.Reach t (m.final s) := by
  induction h with
  | refl => exact reach_final s
  | @step t u _ hstep ih =>
    obtain hlast | ⟨v, hv, hvfinal⟩ := ih.head
    · rw [hlast, step_final] at hstep
      simp at hstep
    · obtain rfl := Option.some.inj (hv.symm.trans hstep)
      exact hvfinal

/-- A state of the run that takes no step is the last one. -/
theorem Reach.final_eq (h : m.Reach s t) (hnone : m.step t = none) : m.final s = t := by
  obtain hlast | ⟨u, hu, -⟩ := h.final.head
  · exact hlast.symm
  · rw [hnone] at hu
    simp at hu

/-- What holds at first and is kept by every step holds at the end. -/
theorem final_of_invariant {P : σ → Prop} (hstep : ∀ t u, P t → m.step t = some u → P u)
    (hs : P s) : P (m.final s) :=
  (reach_final s).invariant hstep hs

end Loop
