/-
# `Oxyn.Lib.Escaping` — writing symbols so that a delimiter is not one

A text between two delimiters must not hold the closing one as it is.  Every convention for that
is of one kind: a symbol is written as itself, or as a pair that no symbol written as itself
begins.
-/
import Mathlib.Data.List.Basic

/-- A convention: what each symbol is written as, and what a pair stands for. -/
structure Escaping (α : Type) where
  code : α → List α
  undo : α → α → Option α
  code_cases : ∀ c, (code c = [c] ∧ ∀ d, undo c d = none) ∨
    ∃ e d, code c = [e, d] ∧ undo e d = some c

namespace Escaping

open List

variable {α : Type} (esc : Escaping α)

def encode (l : List α) : List α := l.flatMap esc.code

/-- Reading back: `undo` says which pairs stand for a symbol; any other symbol stands
for itself. -/
def unpair (undo : α → α → Option α) : List α → List α
  | [] => []
  | [c] => [c]
  | c :: d :: rest =>
    match undo c d with
    | some x => x :: unpair undo rest
    | none => c :: unpair undo (d :: rest)

def decode (l : List α) : List α := unpair esc.undo l

variable {esc}

@[simp] theorem encode_nil : esc.encode [] = [] := rfl

@[simp] theorem encode_cons (c : α) (l : List α) :
    esc.encode (c :: l) = esc.code c ++ esc.encode l := by
  simp [encode]

theorem unpair_plain {undo : α → α → Option α} {c : α} (h : ∀ d, undo c d = none)
    (l : List α) : unpair undo (c :: l) = c :: unpair undo l := by
  cases l with
  | nil => rfl
  | cons d l => simp [unpair, h d]

theorem unpair_pair {undo : α → α → Option α} {c d x : α} (h : undo c d = some x)
    (l : List α) : unpair undo (c :: d :: l) = x :: unpair undo l := by
  simp [unpair, h]

theorem decode_encode (l : List α) : esc.decode (esc.encode l) = l := by
  unfold decode
  induction l with
  | nil => rfl
  | cons c l ih =>
    rw [encode_cons]
    rcases esc.code_cases c with ⟨hcode, hplain⟩ | ⟨e, d, hcode, hpair⟩
    · rw [hcode, singleton_append, unpair_plain hplain, ih]
    · rw [hcode, cons_append, singleton_append, unpair_pair hpair, ih]

/-! ## The two conventions -/

variable [DecidableEq α]

/-- A mark is written twice. -/
def doubling (q : α) : Escaping α where
  code c := if c = q then [q, q] else [c]
  undo c d := if c = q ∧ d = q then some q else none
  code_cases c := by
    by_cases hc : c = q
    · exact .inr ⟨q, q, by simp [hc], by simp [hc]⟩
    · exact .inl ⟨by simp [hc], by simp [hc]⟩

/-- A symbol `e` is written before the marks, of which it is one. -/
def leading (e : α) (marks : List α) (h : e ∈ marks) : Escaping α where
  code c := if c ∈ marks then [e, c] else [c]
  undo c d := if c = e then some d else none
  code_cases c := by
    by_cases hc : c ∈ marks
    · exact .inr ⟨e, c, by simp [hc], by simp⟩
    · have hne : c ≠ e := fun heq => hc (heq ▸ h)
      exact .inl ⟨by simp [hc], by simp [hne]⟩

end Escaping
