/-
# `Oxyn.Lib.Runs` — runs of a step relation, and what their traces say

A system is a step relation labelled with the events it leaves in a trace.  A run is taken from
its end: what the last step did is what an induction on runs looks at.
-/
import Mathlib.Data.List.Induction

namespace Runs

open List

variable {σ ε : Type}

/-- From a state, through the events of a trace, to a state. -/
inductive Steps (step : σ → ε → σ → Prop) (s : σ) : List ε → σ → Prop
  | nil : Steps step s [] s
  | snoc {t u : σ} {tr : List ε} {ev : ε} :
      Steps step s tr t → step t ev u → Steps step s (tr ++ [ev]) u

variable {step : σ → ε → σ → Prop}

variable {tr : List ε}

variable {ev : ε}

theorem Steps.snoc_inv {s u : σ} (h : Steps step s (tr ++ [ev]) u) :
    ∃ t, Steps step s tr t ∧ step t ev u := by
  generalize htr : tr ++ [ev] = full at h
  cases h with
  | nil => simp at htr
  | @snoc t _ tr' ev' h hstep =>
    obtain ⟨rfl, hev⟩ := append_inj' htr rfl
    obtain rfl := singleton_inj.mp hev
    exact ⟨t, h, hstep⟩

variable {s t : σ}

theorem Steps.nil_inv (h : Steps step s [] t) : t = s := by
  generalize htr : ([] : List ε) = tr at h
  cases h with
  | nil => rfl
  | snoc _ _ => simp at htr

theorem Steps.singleton_inv (h : Steps step s [ev] t) : step s ev t := by
  obtain ⟨u, hu, hstep⟩ := Steps.snoc_inv ((nil_append [ev]).symm ▸ h)
  exact hu.nil_inv ▸ hstep

theorem Steps.trans {s t u : σ} {tr tr' : List ε} (h : Steps step s tr t)
    (h' : Steps step t tr' u) : Steps step s (tr ++ tr') u := by
  induction h' with
  | nil => rwa [append_nil]
  | snoc _ hstep ih =>
    rw [← append_assoc]
    exact ih.snoc hstep

theorem Steps.split {s u : σ} {tr tr' : List ε} (h : Steps step s (tr ++ tr') u) :
    ∃ t, Steps step s tr t ∧ Steps step t tr' u := by
  induction tr' using List.reverseRecOn generalizing u with
  | nil => exact ⟨u, by simpa using h, .nil⟩
  | append_singleton l ev ih =>
    rw [← append_assoc] at h
    obtain ⟨v, hv, hstep⟩ := h.snoc_inv
    obtain ⟨t, ht, hl⟩ := ih hv
    exact ⟨t, ht, hl.snoc hstep⟩

theorem Steps.split_cons {s u : σ} {tr tr' : List ε} (h : Steps step s (tr ++ ev :: tr') u) :
    ∃ t t', Steps step s tr t ∧ step t ev t' ∧ Steps step t' tr' u := by
  rw [← singleton_append, ← append_assoc] at h
  obtain ⟨t', h₁, h₂⟩ := h.split
  obtain ⟨t, ht, hstep⟩ := h₁.snoc_inv
  exact ⟨t, t', ht, hstep, h₂⟩

variable {P : σ → Prop}

/-- What every step keeps, a run keeps. -/
theorem Steps.invariant (hstep : ∀ s ev t, P s → step s ev t → P t)
    (h : Steps step s tr t) (hs : P s) : P t := by
  induction h with
  | nil => exact hs
  | snoc _ hst ih => exact hstep _ _ _ ih hst

theorem Steps.imp {step' : σ → ε → σ → Prop} (himp : ∀ s ev t, step s ev t → step' s ev t)
    (h : Steps step s tr t) : Steps step' s tr t := by
  induction h with
  | nil => exact .nil
  | snoc _ hst ih => exact ih.snoc (himp _ _ _ hst)

/-- What holds of the empty trace, and of a trace grown by a step if it held before. -/
theorem Steps.history {P : List ε → σ → Prop} (hnil : P [] s)
    (hstep : ∀ tr t ev u, Steps step s tr t → P tr t → step t ev u → P (tr ++ [ev]) u)
    (h : Steps step s tr t) : P tr t := by
  induction h with
  | nil => exact hnil
  | snoc h hst ih => exact hstep _ _ _ _ h ih hst

/-! ## Sometime -/

/-- Some state the run went through. -/
def Sometime (step : σ → ε → σ → Prop) (s : σ) (P : σ → Prop) (tr : List ε) : Prop :=
  ∃ before after u, tr = before ++ after ∧ Steps step s before u ∧ P u

theorem Steps.sometime (h : Steps step s tr t) (ht : P t) : Sometime step s P tr :=
  ⟨tr, [], t, (append_nil tr).symm, h, ht⟩

theorem Sometime.snoc (h : Sometime step s P tr) (ev : ε) :
    Sometime step s P (tr ++ [ev]) := by
  obtain ⟨before, after, u, rfl, hu, hP⟩ := h
  exact ⟨before, after ++ [ev], u, append_assoc .., hu, hP⟩

/-! ## Behind -/

/-- Some state the run went through, once `Q` held of what had happened. -/
def Behind (step : σ → ε → σ → Prop) (s : σ) (Q : List ε → Prop) (P : σ → Prop)
    (tr : List ε) : Prop :=
  ∃ before after u, tr = before ++ after ∧ Q before ∧ Steps step s before u ∧ P u

section Behind

variable {Q : List ε → Prop}

theorem Steps.behind (h : Steps step s tr t) (hQ : Q tr) (ht : P t) : Behind step s Q P tr :=
  ⟨tr, [], t, (append_nil tr).symm, hQ, h, ht⟩

theorem Behind.snoc (h : Behind step s Q P tr) (ev : ε) : Behind step s Q P (tr ++ [ev]) := by
  obtain ⟨before, after, u, rfl, hQ, hu, hP⟩ := h
  exact ⟨before, after ++ [ev], u, append_assoc .., hQ, hu, hP⟩

theorem Behind.imp {P' : σ → Prop} (himp : ∀ u, P u → P' u) (h : Behind step s Q P tr) :
    Behind step s Q P' tr := by
  obtain ⟨before, after, u, htr, hQ, hu, hP⟩ := h
  exact ⟨before, after, u, htr, hQ, hu, himp u hP⟩

end Behind

/-! ## Since -/

def Since (start stop : ε → Prop) (tr : List ε) : Prop :=
  ∃ before ev after, tr = before ++ ev :: after ∧ start ev ∧ ∀ x ∈ after, ¬ stop x

variable {start stop : ε → Prop}

theorem not_since_nil : ¬ Since start stop [] := by
  rintro ⟨before, ev, after, h, -⟩
  simp at h

theorem Since.imp {start start' stop : ε → Prop} (himp : ∀ x, start x → start' x)
    (h : Since start stop tr) : Since start' stop tr := by
  obtain ⟨before, ev, after, htr, hev, hafter⟩ := h
  exact ⟨before, ev, after, htr, himp ev hev, hafter⟩

theorem Since.exists_mem (h : Since start stop tr) :
    ∃ ev ∈ tr, start ev := by
  obtain ⟨before, ev, after, rfl, hev, -⟩ := h
  exact ⟨ev, by simp, hev⟩

/-- One more event starts it, or lets it go on. -/
theorem since_snoc :
    Since start stop (tr ++ [ev]) ↔ start ev ∨ (¬ stop ev ∧ Since start stop tr) := by
  constructor
  · rintro ⟨before, x, after, h, hx, hafter⟩
    rcases eq_nil_or_concat after with rfl | ⟨after', y, rfl⟩
    · obtain ⟨rfl, hev⟩ := append_inj' h rfl
      exact Or.inl (singleton_inj.mp hev ▸ hx)
    · have h' : tr ++ [ev] = (before ++ x :: after') ++ [y] := by simpa using h
      obtain ⟨rfl, hev⟩ := append_inj' h' rfl
      obtain rfl := singleton_inj.mp hev
      exact Or.inr ⟨hafter ev (by simp), before, x, after', rfl, hx,
        fun z hz => hafter z (by simp [hz])⟩
  · rintro (hev | ⟨hev, before, x, after, rfl, hx, hafter⟩)
    · exact ⟨tr, ev, [], rfl, hev, by simp⟩
    · refine ⟨before, x, after ++ [ev], by simp, hx, fun z hz => ?_⟩
      rcases mem_append.mp hz with hz | hz
      · exact hafter z hz
      · exact mem_singleton.mp hz ▸ hev

/-- A state observation that starts with an event, and goes on while nothing stops it,
is what the trace says. -/
theorem Steps.since (hs : ¬ P s)
    (hstep : ∀ t ev u, step t ev u → (P u ↔ start ev ∨ (¬ stop ev ∧ P t)))
    (h : Steps step s tr t) : P t ↔ Since start stop tr := by
  induction h with
  | nil => exact ⟨fun hp => absurd hp hs, fun h => absurd h not_since_nil⟩
  | snoc _ hst ih => rw [hstep _ _ _ hst, since_snoc, ih]

end Runs
