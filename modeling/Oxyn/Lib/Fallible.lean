/-
# `Oxyn.Lib.Fallible` — computations that may fail, and transactions

A computation that succeeds went through each of its steps, and past each of its refusals.
A transaction whose body fails leaves the state as it was.
-/
import Mathlib.Algebra.Order.Ring.Int
import Mathlib.Data.List.Forall2
import Mathlib.Tactic.Basic

namespace Fallible

variable {ε α β σ : Type}

variable {f : α → Except ε β}

theorem bind_eq_ok {x : Except ε α} {b : β} :
    (x >>= f) = .ok b ↔ ∃ a, x = .ok a ∧ f a = .ok b := by
  constructor
  · intro h
    cases x with
    | error e => cases h
    | ok a => exact ⟨a, rfl, h⟩
  · rintro ⟨a, rfl, h⟩
    exact h

@[simp] theorem ok_bind {a : α} : (Except.ok a >>= f) = f a := rfl

theorem pure_eq_ok {a b : α} : (pure a : Except ε α) = .ok b ↔ a = b := by
  simp [pure, Except.pure]

/-- A list of computations that succeed, each with its result. -/
theorem forall₂_of_mapM {l : List α} {m : List β} (h : l.mapM f = .ok m) :
    List.Forall₂ (fun a b => f a = .ok b) l m := by
  induction l generalizing m with
  | nil =>
    cases h
    exact .nil
  | cons a l ih =>
    rw [List.mapM_cons] at h
    obtain ⟨b, hb, h⟩ := bind_eq_ok.mp h
    obtain ⟨rest, hrest, h⟩ := bind_eq_ok.mp h
    cases h
    exact .cons hb (ih hrest)

def refuse (condition : Bool) (error : ε) : Except ε Unit :=
  if condition then .error error else .ok ()

@[simp] theorem refuse_eq_ok {condition : Bool} {error : ε} {u : Unit} :
    refuse condition error = .ok u ↔ condition = false := by
  cases condition <;> simp [refuse]

@[simp] theorem refuse_false {error : ε} : refuse false error = .ok () := rfl

/-- The body's changes are kept if it succeeds, and only then. -/
def transaction (body : σ → Except ε (α × σ)) (s : σ) : Except ε α × σ :=
  match body s with
  | .ok (a, s') => (.ok a, s')
  | .error e => (.error e, s)

theorem transaction_eq_ok {body : σ → Except ε (α × σ)} {s s' : σ} {a : α} :
    transaction body s = (.ok a, s') ↔ body s = .ok (a, s') := by
  unfold transaction
  constructor
  · intro h
    split at h
    next a' s'' hbody =>
      obtain ⟨ha, rfl⟩ := Prod.mk.inj h
      rw [hbody, Except.ok.inj ha]
    · cases (Prod.mk.inj h).1
  · intro h
    rw [h]

theorem transaction_eq_error {body : σ → Except ε (α × σ)} {s s' : σ} {e : ε}
    (h : transaction body s = (.error e, s')) : s' = s := by
  unfold transaction at h
  split at h
  · cases (Prod.mk.inj h).1
  · exact (Prod.mk.inj h).2.symm

/-! ## A reply, put another way -/

theorem map_eq_ok {f : α → β} {result : Except ε α × σ} {b : β} {s : σ}
    (h : result.map (Except.map f) id = (.ok b, s)) : ∃ a, result = (.ok a, s) ∧ f a = b := by
  obtain ⟨reply, s'⟩ := result
  obtain ⟨hreply, hs⟩ := Prod.mk.inj h
  cases reply with
  | error e => cases hreply
  | ok a => exact ⟨a, Prod.ext rfl hs, Except.ok.inj hreply⟩

theorem map_eq_error {f : α → β} {result : Except ε α × σ} {e : ε} {s : σ}
    (h : result.map (Except.map f) id = (.error e, s)) : result = (.error e, s) := by
  obtain ⟨reply, s'⟩ := result
  obtain ⟨hreply, hs⟩ := Prod.mk.inj h
  cases reply with
  | error e' => exact Prod.ext (congrArg Except.error (Except.error.inj hreply)) hs
  | ok a => cases hreply

end Fallible
