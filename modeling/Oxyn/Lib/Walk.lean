/-
# `Oxyn.Lib.Walk` — loops that look at all that is left

The loops of `Oxyn.Lib.Cursor` see one symbol ahead and step over two at most.
-/
import Mathlib.Data.List.Basic

namespace Walk

open List

/-- What one turn decides: step over `skip + 1` symbols, or stop with a result. -/
inductive Turn (σ ρ : Type) where
  | go (skip : Nat) (s : σ)
  | stop (r : ρ)

/-- How a walk ends: stopped, or off the end of the buffer at an index. -/
inductive Exit (σ ρ : Type) where
  | stopped (r : ρ)
  | off (i : Nat) (s : σ)
deriving DecidableEq, Repr

section

variable {α σ ρ : Type} (turn : Nat → σ → α → List α → Turn σ ρ)

/-- The buffer from `i` on, its index, the symbols still to step over and the loop's
own state. -/
def walk : List α → Nat → Nat → σ → Exit σ ρ
  | [], i, _, s => .off i s
  | c :: rest, i, 0, s =>
    match turn i s c rest with
    | .stop r => .stopped r
    | .go n s' => walk rest (i + 1) n s'
  | _ :: rest, i, n + 1, s => walk rest (i + 1) n s

variable {turn}

theorem walk_skip {l : List α} {n : Nat} (h : n ≤ l.length) (i : Nat) (s : σ) :
    walk turn l i n s = walk turn (l.drop n) (i + n) 0 s := by
  induction n generalizing l i with
  | zero => rfl
  | succ n ih =>
    cases l with
    | nil => simp at h
    | cons c l =>
      rw [walk, ih (by simpa using h), drop_succ_cons]
      exact congrArg (walk turn (l.drop n) · 0 s) (by omega)

theorem walk_stop {c : α} {rest : List α} {i : Nat} {s : σ} {r : ρ}
    (h : turn i s c rest = .stop r) : walk turn (c :: rest) i 0 s = .stopped r := by
  rw [walk, h]

theorem walk_go {c : α} {rest : List α} {i n : Nat} {s s' : σ}
    (h : turn i s c rest = .go n s') (hn : n ≤ rest.length) :
    walk turn (c :: rest) i 0 s = walk turn (rest.drop n) (i + (n + 1)) 0 s' := by
  rw [walk, h]
  show walk turn rest (i + 1) n s' = _
  rw [walk_skip hn]
  exact congrArg (walk turn (rest.drop n) · 0 s') (by omega)

/-- Induction along a walk whose turns do not step over the end. -/
theorem walk_induction (turn : Nat → σ → α → List α → Turn σ ρ)
    {motive : List α → Nat → σ → Prop}
    (hnil : ∀ i s, motive [] i s)
    (hstop : ∀ c rest i s r, turn i s c rest = .stop r → motive (c :: rest) i s)
    (hgo : ∀ c rest i s n s', turn i s c rest = .go n s' →
      motive (rest.drop n) (i + (n + 1)) s' → motive (c :: rest) i s)
    (l : List α) (i : Nat) (s : σ) : motive l i s := by
  suffices ∀ m (l : List α) i s, l.length ≤ m → motive l i s from this _ l i s (Nat.le_refl _)
  intro m
  induction m with
  | zero =>
    intro l i s hl
    rw [length_eq_zero_iff.mp (Nat.le_zero.mp hl)]
    exact hnil i s
  | succ m ih =>
    intro l i s hl
    cases l with
    | nil => exact hnil i s
    | cons c rest =>
      cases h : turn i s c rest with
      | stop r => exact hstop c rest i s r h
      | go n s' =>
        refine hgo c rest i s n s' h (ih _ _ _ ?_)
        simp only [length_cons, length_drop] at hl ⊢
        omega

end

end Walk
