/-
# `Oxyn.Core.Connection` — connections and their markings

Identifiers, the environment a connection is marked with, and the registry of what the gate knows
about connections.
-/
import Oxyn.Core.Query
import Mathlib.Order.MinMax
import Mathlib.Data.Option.Basic

namespace Oxyn

/-! ## Identifiers -/

structure ConnectionId where
  uuid : BitVec 128
deriving DecidableEq, Repr

structure SessionId where
  uuid : BitVec 128
deriving DecidableEq, Repr

structure CommandId where
  uuid : BitVec 128
deriving DecidableEq, Repr

structure AgentId where
  uuid : BitVec 128
deriving DecidableEq, Repr

structure AgentSessionId where
  uuid : BitVec 128
deriving DecidableEq, Repr

/-! ## Environments -/

/-- The environment marking, from the least protected to the most. -/
inductive Environment where
  | local | development | staging | production
deriving DecidableEq, Repr

namespace Environment

def rank : Environment → Nat
  | .local => 0
  | .development => 1
  | .staging => 2
  | .production => 3

theorem rank_injective : Function.Injective rank := by
  intro a b
  cases a <;> cases b <;> decide

instance : LinearOrder Environment := LinearOrder.lift' rank rank_injective

def default : Environment := .production

def isProduction : Environment → Bool
  | .production => true
  | _ => false

@[simp] theorem isProduction_iff {e : Environment} : e.isProduction = true ↔ e = .production := by
  cases e <;> decide

theorem le_production (e : Environment) : e ≤ .production := by
  cases e <;> decide

theorem isProduction_mono {a b : Environment} (h : a ≤ b) (ha : a.isProduction = true) :
    b.isProduction = true := by
  rw [isProduction_iff] at ha ⊢
  exact le_antisymm b.le_production (ha ▸ h)

end Environment

/-! ## Configurations and facts -/

structure ConnectionConfig where
  id : ConnectionId
  name : String
  environment : Environment
  readOnly : Bool
deriving DecidableEq, Repr

/-- What the gate must know about a connection to decide. -/
structure ConnectionFacts where
  /-- The name shown to the user. -/
  name : String
  environment : Environment
  readOnly : Bool
deriving DecidableEq, Repr

/-- The same connection, at least as protected.  The name is free: no decision is
taken on it. -/
structure ConnectionFacts.Raised (f g : ConnectionFacts) : Prop where
  environment : f.environment ≤ g.environment
  readOnly : f.readOnly = true → g.readOnly = true

/-! ## The registry -/

/-- A registry indexed by connection: nothing is kept about an unknown one. -/
abbrev Registry (α : Type) := ConnectionId → Option α

namespace Registry

variable {α : Type}

def empty : Registry α := fun _ => none

/-- Registers or replaces what is known of a connection. -/
def insert (r : Registry α) (id : ConnectionId) (a : α) : Registry α :=
  fun i => if i = id then some a else r i

@[simp] theorem insert_self (r : Registry α) (id : ConnectionId) (a : α) :
    r.insert id a id = some a := if_pos rfl

theorem insert_of_ne (r : Registry α) {i id : ConnectionId} (a : α) (h : i ≠ id) :
    r.insert id a i = r i := if_neg h

end Registry

/-- The same connections are known, each at least as protected. -/
def RaisedMarkings (reg reg' : Registry ConnectionFacts) : Prop :=
  ∀ id, Option.Rel ConnectionFacts.Raised (reg id) (reg' id)

theorem ConnectionFacts.Raised.refl (f : ConnectionFacts) : f.Raised f := ⟨le_refl _, id⟩

theorem RaisedMarkings.refl (reg : Registry ConnectionFacts) : RaisedMarkings reg reg := by
  intro id
  cases reg id with
  | none => exact .none
  | some f => exact .some (ConnectionFacts.Raised.refl f)

theorem RaisedMarkings.insert {reg : Registry ConnectionFacts} {id : ConnectionId}
    {f g : ConnectionFacts} (hf : reg id = some f) (h : f.Raised g) :
    RaisedMarkings reg (reg.insert id g) := by
  intro i
  by_cases hi : i = id
  · subst hi
    rw [hf, Registry.insert_self]
    exact .some h
  · rw [Registry.insert_of_ne _ _ hi]
    exact RaisedMarkings.refl reg i

end Oxyn
