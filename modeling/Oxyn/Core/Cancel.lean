/-
# `Oxyn.Core.Cancel` — cancel tokens, shared and dropped at any time

A token is a handle on a shared state: a flag, and weak references to the states of its children.
-/
import Mathlib.Logic.Function.Basic
import Oxyn.Lib.Runs

open Runs

namespace Oxyn.Cancel

/-! ## The forest -/

/-- Where a visit of `cancel_inner` is. -/
inductive Visit where
  | swapping
  | taking
  /-- The children that were taken, and are still to be visited. -/
  | visiting (rest : List Nat)

structure Frame where
  node : Nat
  visit : Visit

/-- Where a call of `child` is; it has the lock of its parent's children after the first. -/
inductive Making where
  | locking
  | loading
  | storing (cancelled : Bool)

inductive Running where
  | idle
  /-- The visits of a `cancel`, the innermost first. -/
  | cancelling (token : Nat) (stack : List Frame)
  | making (parent : Nat) (making : Making)

namespace Running

/-- A call with these visits left. -/
def resume (token : Nat) : List Frame → Running
  | [] => .idle
  | stack => .cancelling token stack

/-- A visit keeps its state alive. -/
def holds (node : Nat) : Running → Bool
  | .cancelling _ stack => stack.any (·.node = node)
  | _ => false

def locks (node : Nat) : Running → Bool
  | .making parent .loading | .making parent (.storing _) => parent = node
  | _ => false

/-- The token the call was made on, which is not dropped meanwhile. -/
def borrows (node : Nat) : Running → Bool
  | .cancelling token _ => token = node
  | .making parent _ => parent = node
  | .idle => false

end Running

structure Forest where
  size : Nat
  calls : Nat
  /-- The token a child was created from. -/
  parent : Nat → Option Nat
  cancelled : Nat → Bool
  children : Nat → List Nat
  /-- The tokens held on a state. -/
  handles : Nat → Nat
  running : Nat → Running

namespace Forest

def new : Forest := ⟨0, 0, fun _ => none, fun _ => false, fun _ => [], fun _ => 0, fun _ => .idle⟩

variable (forest : Forest)

def someCall (does : Running → Bool) : Bool :=
  (List.range forest.calls).any fun call => does (forest.running call)

/-- Is the strong count positive? -/
def alive (node : Nat) : Bool := 0 < forest.handles node || forest.someCall (·.holds node)

def locked (node : Nat) : Bool := forest.someCall (·.locks node)

def borrowed (node : Nat) : Bool := forest.someCall (·.borrows node)

def run (call : Nat) (running : Running) : Forest :=
  { forest with running := Function.update forest.running call running }

def begin (running : Running) : Forest :=
  { forest.run forest.calls running with calls := forest.calls + 1 }

def setHandles (node count : Nat) : Forest :=
  { forest with handles := Function.update forest.handles node count }

def setChildren (node : Nat) (children : List Nat) : Forest :=
  { forest with children := Function.update forest.children node children }

def setCancelled (node : Nat) : Forest :=
  { forest with cancelled := Function.update forest.cancelled node true }

end Forest

/-! ## Steps -/

inductive Act where
  | new
  | clone (token : Nat)
  | drop (token : Nat)
  | cancel (token : Nat)
  | child (token : Nat)
  | advance (call : Nat)
deriving DecidableEq

/-- What a step shows. -/
inductive Outcome where
  | created (token : Nat)
  | done
  | began (call : Nat)
  | working
  | returned (token : Nat)
  | born (parent child : Nat)
deriving DecidableEq

namespace Forest

variable (forest : Forest)

/-- The innermost visit is over: the call goes on with the one below, or returns. -/
def leave (call token : Nat) (stack : List Frame) : Outcome × Forest :=
  (if stack.isEmpty then .returned token else .working, forest.run call (.resume token stack))

/-- One step of a `cancel`, in its innermost visit. -/
def visit (call token : Nat) (frame : Frame) (stack : List Frame) : Option (Outcome × Forest) :=
  let go (visit : Visit) := Running.cancelling token (⟨frame.node, visit⟩ :: stack)
  match frame.visit with
  | .swapping =>
    if forest.cancelled frame.node then some (forest.leave call token stack)
    else some (.working, (forest.setCancelled frame.node).run call (go .taking))
  | .taking =>
    if forest.locked frame.node then none
    else some (.working, (forest.setChildren frame.node []).run call
      (go (.visiting (forest.children frame.node))))
  | .visiting [] => some (forest.leave call token stack)
  | .visiting (weak :: rest) =>
    if forest.alive weak then
      -- The upgraded reference lives as long as the visit of the child.
      some (.working, forest.run call
        (.cancelling token (⟨weak, .swapping⟩ :: ⟨frame.node, .visiting rest⟩ :: stack)))
    else some (.working, forest.run call (go (.visiting rest)))

def bear (call parent : Nat) (cancelled : Bool) : Outcome × Forest :=
  let child := forest.size
  let forest := { forest with
    size := child + 1
    parent := Function.update forest.parent child (some parent) }
  let forest := (forest.setHandles child 1).run call .idle
  (.born parent child,
    if cancelled then forest.setCancelled child
    else forest.setChildren parent (forest.children parent ++ [child]))

/-- One step of a `child`. -/
def make (call parent : Nat) : Making → Option (Outcome × Forest)
  | .locking =>
    if forest.locked parent then none
    else
      -- Finished children are purged under the lock.
      let children := (forest.children parent).filter forest.alive
      some (.working, (forest.setChildren parent children).run call (.making parent .loading))
  | .loading =>
    some (.working, forest.run call (.making parent (.storing (forest.cancelled parent))))
  | .storing cancelled => some (forest.bear call parent cancelled)

def step : Act → Option (Outcome × Forest)
  | .new =>
    some (.created forest.size,
      { forest.setHandles forest.size 1 with size := forest.size + 1 })
  | .clone token =>
    if 0 < forest.handles token then
      some (.done, forest.setHandles token (forest.handles token + 1))
    else none
  | .drop token =>
    -- A token is not dropped while a call is made on it.
    if 0 < forest.handles token ∧ (forest.borrowed token → 1 < forest.handles token) then
      some (.done, forest.setHandles token (forest.handles token - 1))
    else none
  | .cancel token =>
    if 0 < forest.handles token then
      some (.began forest.calls, forest.begin (.cancelling token [⟨token, .swapping⟩]))
    else none
  | .child token =>
    if 0 < forest.handles token then
      some (.began forest.calls, forest.begin (.making token .locking))
    else none
  | .advance call =>
    match forest.running call with
    | .idle | .cancelling _ [] => none
    | .cancelling token (frame :: stack) => forest.visit call token frame stack
    | .making parent making => forest.make call parent making

end Forest

def ForestStep (forest : Forest) (event : Act × Outcome) (forest' : Forest) : Prop :=
  forest.step event.1 = some (event.2, forest')

/-- A token was created from another, or from one that was. -/
inductive Below (parent : Nat → Option Nat) (token : Nat) : Nat → Prop
  | child {node : Nat} : parent node = some token → Below parent token node
  | step {middle node : Nat} : Below parent token middle → parent node = some middle →
      Below parent token node

end Oxyn.Cancel
