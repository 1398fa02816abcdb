/-
# `Oxyn.Llm.Decoding` — what a decoder keeps, counts and emits

A fragment is counted before it is kept or emitted, and the first overrun stops the decoding where
it is: what was kept and emitted before it stays.
-/
import Oxyn.Lib.Scan
import Oxyn.Llm.Stream

namespace Oxyn.Llm

open List

/-- What is kept of the calls or blocks, the budget, and what was emitted. -/
structure Account (K J : Type) where
  kept : K
  budget : GenerationBudget
  out : List (ChatEvent J)

abbrev Decoding (K J α : Type) : Type := Scan (Account K J) BudgetExceeded α

section

variable {K J α : Type}

def emit (e : ChatEvent J) : Decoding K J Unit := fun a => (.ok (), { a with out := a.out ++ [e] })

def current : Decoding K J K := fun a => (.ok a.kept, a)

def keepAs (f : K → K) : Decoding K J Unit := fun a => (.ok (), { a with kept := f a.kept })

def count (charge : GenerationBudget → Except BudgetExceeded GenerationBudget) :
    Decoding K J Unit := fun a =>
  match charge a.budget with
  | .ok budget => (.ok (), { a with budget := budget })
  | .error limit => (.error limit, a)

/-! ## What is emitted -/

/-- Whatever becomes of it, only events of a kind are emitted. -/
def Emits (P : ChatEvent J → Prop) (p : Decoding K J α) : Prop :=
  ∀ a, ∃ es, (p a).2.out = a.out ++ es ∧ ∀ e ∈ es, P e

variable {P : ChatEvent J → Prop}

theorem Emits.answer (x : Except BudgetExceeded α) : Emits P (Scan.answer x : Decoding K J α) :=
  fun a => ⟨[], (append_nil a.out).symm, nofun⟩

theorem Emits.pure (x : α) : Emits P (Pure.pure x : Decoding K J α) := Emits.answer (.ok x)

theorem Emits.current : Emits P (current : Decoding K J K) :=
  fun a => ⟨[], (append_nil a.out).symm, nofun⟩

theorem Emits.keepAs (f : K → K) : Emits P (keepAs f : Decoding K J Unit) :=
  fun a => ⟨[], (append_nil a.out).symm, nofun⟩

theorem Emits.count (charge : GenerationBudget → Except BudgetExceeded GenerationBudget) :
    Emits P (count charge : Decoding K J Unit) := by
  intro a
  refine ⟨[], ?_, nofun⟩
  unfold Llm.count
  split
  · exact (append_nil a.out).symm
  · exact (append_nil a.out).symm

theorem Emits.emit {e : ChatEvent J} (he : P e) : Emits P (emit e : Decoding K J Unit) := by
  intro a
  refine ⟨[e], rfl, fun e' he' => ?_⟩
  cases mem_singleton.mp he'
  exact he

variable {p : Decoding K J α} {β : Type}

theorem Emits.bind {f : α → Decoding K J β} (hp : Emits P p)
    (hf : ∀ x, Emits P (f x)) : Emits P (p >>= f) := by
  intro a
  obtain ⟨es, hes, hall⟩ := hp a
  rcases hrun : p a with ⟨e | x, mid⟩
  · rw [Scan.bind_error hrun]
    rw [hrun] at hes
    exact ⟨es, hes, hall⟩
  · rw [Scan.bind_ok hrun]
    rw [hrun] at hes
    obtain ⟨es', hes', hall'⟩ := hf x mid
    refine ⟨es ++ es', ?_, fun e he => ?_⟩
    · rw [hes', hes, append_assoc]
    · rcases mem_append.mp he with he | he
      · exact hall e he
      · exact hall' e he

/-! ## What is kept -/

/-- Whatever becomes of it, what is kept of the calls or blocks stays. -/
def Leaves (p : Decoding K J α) : Prop := ∀ a, (p a).2.kept = a.kept

theorem Leaves.count (charge : GenerationBudget → Except BudgetExceeded GenerationBudget) :
    Leaves (count charge : Decoding K J Unit) := by
  intro a
  unfold Llm.count
  split
  · rfl
  · rfl

theorem Leaves.then (hp : Leaves p) (f : α → Decoding K J β) (a : Account K J) :
    ((p >>= f) a).2.kept = a.kept ∨
      ∃ x mid, p a = (.ok x, mid) ∧ mid.kept = a.kept ∧ (p >>= f) a = f x mid := by
  have hkept := hp a
  rcases hrun : p a with ⟨e | x, mid⟩
  · rw [hrun] at hkept
    rw [Scan.bind_error hrun]
    exact .inl hkept
  · rw [hrun] at hkept
    exact .inr ⟨x, mid, rfl, hkept, Scan.bind_ok hrun⟩

theorem Leaves.bind {f : α → Decoding K J β} (hp : Leaves p)
    (hf : ∀ x, Leaves (f x)) : Leaves (p >>= f) := by
  intro a
  rcases hp.then f a with hkept | ⟨x, mid, -, hkept, hrun⟩
  · exact hkept
  · rw [hrun, hf x mid, hkept]

end

/-- An event inside a generation: neither its end, nor a call that is complete. -/
def isInner {J : Type} (e : ChatEvent J) : Prop := e.isTerminal = false ∧ e.isCall = false

def StopReason.isCut (r : StopReason) : Prop :=
  r = .interrupted ∨ r = .providerError ∨ r = .cancelled

section

variable {J : Type}

/-- Neither an end nor a call. -/
def AllInner (es : List (ChatEvent J)) : Prop := ∀ e ∈ es, isInner e

theorem AllInner.nil : AllInner ([] : List (ChatEvent J)) := fun _ h => nomatch h

variable {es : List (ChatEvent J)}

theorem AllInner.quiet (h : AllInner es) : Quiet es :=
  fun e he => (h e he).1

theorem AllInner.append {es es' : List (ChatEvent J)} (h : AllInner es) (h' : AllInner es') :
    AllInner (es ++ es') := by
  intro e he
  rcases mem_append.mp he with he | he
  · exact h e he
  · exact h' e he

variable {e : ChatEvent J}

theorem AllInner.cons (he : isInner e) (h : AllInner es) : AllInner (e :: es) := by
  intro e' he'
  rcases mem_cons.mp he' with rfl | he'
  · exact he
  · exact h e' he'

theorem AllInner.no_call (h : AllInner es) (he : e ∈ es) (hcall : e.isCall = true) : False :=
  nomatch hcall.symm.trans (h e he).2

theorem AllInner.no_call_done (h : AllInner es) {reason : StopReason}
    (he : e ∈ es ++ [.done reason]) (hcall : e.isCall = true) : False := by
  rcases mem_append.mp he with he | he
  · exact h.no_call he hcall
  · cases mem_singleton.mp he
    cases hcall

theorem isInner_error (message : String) : isInner (.error message : ChatEvent J) := ⟨rfl, rfl⟩

theorem callEvent_quiet (json : Json J) (ioError : String) (id name arguments : Text.Str) :
    (callEvent json ioError id name arguments).isTerminal = false := by
  unfold callEvent
  split
  · rfl
  · split
    · rfl
    · rfl

end

end Oxyn.Llm
