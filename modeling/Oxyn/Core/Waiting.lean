/-
# `Oxyn.Core.Waiting` — a cancellation wakes all who wait for it

One token, cancelled by any number of calls, its own and those that come down to it, while any
number of tasks wait in `cancelled`.  A call sets the flag and then notifies; a task registers
and then reads the flag again.

Tokio's `Notify` is taken by what it documents: a future that is enabled is registered, and
`notify_waiters` reaches the futures registered then and keeps no permit for others
(`NotifyLaws`).  A task may be woken for nothing.
-/
import Mathlib.Logic.Function.Basic
import Oxyn.Lib.Runs

open Runs

namespace Oxyn.Cancel

open List

/-! ## One token -/

/-- Where a call of `cancelled` is. -/
inductive Waiter where
  /-- There is none, or it was dropped. -/
  | absent
  | entering
  | enabling
  /-- It is registered; was it notified since? -/
  | rereading (notified : Bool)
  | awaiting (notified : Bool)
  | woken
  | returned
deriving DecidableEq

/-- Where a call of `cancel_inner` is. -/
inductive Notifier where
  | over
  | swapping
  | notifying
deriving DecidableEq

structure Watched where
  cancelled : Bool
  waiters : Nat → Waiter
  notifiers : Nat → Notifier

inductive WaitAct where
  | wait (task : Nat)
  | proceed (task : Nat)
  /-- A task is woken for nothing. -/
  | wake (task : Nat)
  | drop (task : Nat)
  | cancel (call : Nat)
  | advance (call : Nat)
deriving DecidableEq

/-- `notify_waiters`, for one of them. -/
def Waiter.notify : Waiter → Waiter
  | .rereading _ => .rereading true
  | .awaiting _ => .awaiting true
  | waiter => waiter

/-- The documented laws of `notify_waiters`. -/
structure NotifyLaws (notify : Waiter → Waiter) : Prop where
  /-- A future that is registered is notified. -/
  rereading : ∀ notified, notify (.rereading notified) = .rereading true
  awaiting : ∀ notified, notify (.awaiting notified) = .awaiting true
  /-- No permit is kept for a future that is not. -/
  others : ∀ waiter, (∀ notified, waiter ≠ .rereading notified) →
    (∀ notified, waiter ≠ .awaiting notified) → notify waiter = waiter

theorem Waiter.notify_laws : NotifyLaws notify := by
  refine ⟨fun _ => rfl, fun _ => rfl, fun waiter hrereading hawaiting => ?_⟩
  cases waiter with
  | rereading notified => exact absurd rfl (hrereading notified)
  | awaiting notified => exact absurd rfl (hawaiting notified)
  | _ => rfl

namespace Watched

def new : Watched := ⟨false, fun _ => .absent, fun _ => .over⟩

variable (token : Watched)

def put (task : Nat) (waiter : Waiter) : Watched :=
  { token with waiters := Function.update token.waiters task waiter }

def turn (call : Nat) (notifier : Notifier) : Watched :=
  { token with notifiers := Function.update token.notifiers call notifier }

/-- `if self.is_cancelled() { return; }`. -/
def look (next : Waiter) : Waiter := if token.cancelled then .returned else next

/-- One step of `cancelled`: a look at the flag, or what comes before the next one. -/
def proceed (task : Nat) : Option Waiter :=
  match token.waiters task with
  | .entering | .woken => some (token.look .enabling)
  | .enabling => some (.rereading false)
  | .rereading notified => some (token.look (.awaiting notified))
  | .awaiting true => some .woken
  | .absent | .awaiting false | .returned => none

def step : WaitAct → Option Watched
  | .wait task => if token.waiters task = .absent then some (token.put task .entering) else none
  | .proceed task => (token.proceed task).map (token.put task)
  | .wake task =>
    if token.waiters task = .awaiting false then some (token.put task .woken) else none
  | .drop task => some (token.put task .absent)
  | .cancel call =>
    if token.notifiers call = .over then some (token.turn call .swapping) else none
  | .advance call =>
    match token.notifiers call with
    | .over => none
    | .swapping =>
      if token.cancelled then some (token.turn call .over)
      else some { token.turn call .notifying with cancelled := true }
    | .notifying =>
      some { token.turn call .over with waiters := fun task => (token.waiters task).notify }

end Watched

def WaitStep (token : Watched) (act : WaitAct) (token' : Watched) : Prop :=
  token.step act = some token'

/-- The call of the task returns in so many of its steps at most. -/
def Watched.returns (task : Nat) : Nat → Watched → Bool
  | 0, token => token.waiters task = .returned
  | n + 1, token => returns task 0 token || (token.step (.proceed task)).any (returns task n)

/-! ## What every step keeps -/

/-- Nobody returns without a cancellation, and nobody sleeps through one. -/
structure Watched.Awake (token : Watched) : Prop where
  returned : ∀ task, token.waiters task = .returned → token.cancelled = true
  asleep : ∀ task, token.waiters task = .awaiting false → token.cancelled = true →
    ∃ call, token.notifiers call = .notifying

variable {token token' : Watched} {act : WaitAct}

theorem Watched.Awake.put (h : token.Awake) (task : Nat) {waiter : Waiter}
    (hreturned : waiter = .returned → token.cancelled = true)
    (hasleep : waiter = .awaiting false → token.cancelled = false) :
    (token.put task waiter).Awake := by
  refine ⟨fun other hother => ?_, fun other hother hset => ?_⟩
  · have hnow : Function.update token.waiters task waiter other = .returned := hother
    rw [Function.update_apply] at hnow
    split at hnow
    · exact hreturned hnow
    · exact h.returned other hnow
  · have hnow : Function.update token.waiters task waiter other = .awaiting false := hother
    rw [Function.update_apply] at hnow
    split at hnow
    · exact absurd hset (Bool.eq_false_iff.mp (hasleep hnow))
    · exact h.asleep other hnow hset

theorem Watched.Awake.turn (h : token.Awake) {call : Nat}
    (hcall : token.notifiers call ≠ .notifying) (notifier : Notifier) :
    (token.turn call notifier).Awake := by
  refine ⟨h.returned, fun task hasleep hset => ?_⟩
  obtain ⟨other, hother⟩ := h.asleep task hasleep hset
  have hne : other ≠ call := fun heq => hcall (heq ▸ hother)
  exact ⟨other, (Function.update_of_ne hne ..).trans hother⟩

theorem Watched.Awake.proceed (h : token.Awake) {task : Nat} {waiter : Waiter}
    (hgoes : token.proceed task = some waiter) : (token.put task waiter).Awake := by
  have hlook : ∀ {next : Waiter}, next ≠ .returned → (token.put task (token.look next)).Awake := by
    intro next hnext
    unfold Watched.look
    split
    next hset => exact h.put task (fun _ => hset) nofun
    next hclear =>
      exact h.put task (fun hnow => absurd hnow hnext) fun _ => eq_false_of_ne_true hclear
  unfold Watched.proceed at hgoes
  split at hgoes <;> cases hgoes
  · exact hlook nofun
  · exact hlook nofun
  · exact h.put task nofun nofun
  · exact hlook nofun
  · exact h.put task nofun nofun

/-- Nobody is made to return, and nobody is left asleep. -/
theorem NotifyLaws.spec {notify : Waiter → Waiter} (h : NotifyLaws notify) (waiter : Waiter) :
    (notify waiter = .returned → waiter = .returned) ∧ notify waiter ≠ .awaiting false := by
  cases waiter with
  | rereading notified =>
    rw [h.rereading]
    exact ⟨nofun, nofun⟩
  | awaiting notified =>
    rw [h.awaiting]
    exact ⟨nofun, nofun⟩
  | _ =>
    rw [h.others _ (by simp) (by simp)]
    exact ⟨id, nofun⟩

theorem Watched.Awake.step (h : token.Awake) (hstep : WaitStep token act token') :
    token'.Awake := by
  unfold WaitStep Watched.step at hstep
  cases act with
  | wait task | wake task =>
    obtain ⟨-, hstep⟩ := Option.ite_none_right_eq_some.mp hstep
    cases hstep
    exact h.put task nofun nofun
  | proceed task =>
    obtain ⟨waiter, hgoes, rfl⟩ := Option.map_eq_some_iff.mp hstep
    exact h.proceed hgoes
  | drop task =>
    cases hstep
    exact h.put task nofun nofun
  | cancel call =>
    obtain ⟨hover, hstep⟩ := Option.ite_none_right_eq_some.mp hstep
    cases hstep
    exact h.turn (hover ▸ nofun) _
  | advance call =>
    dsimp only at hstep
    split at hstep
    · cases hstep
    next hswapping =>
      split at hstep <;> cases hstep
      · exact h.turn (hswapping ▸ nofun) _
      · exact ⟨fun _ _ => rfl, fun _ _ _ => ⟨call, Function.update_self ..⟩⟩
    · cases hstep
      exact ⟨fun task hnow => h.returned task ((Waiter.notify_laws.spec _).1 hnow),
        fun task hnow => absurd hnow (Waiter.notify_laws.spec _).2⟩

/-- A call of `cancelled` returns on a cancellation only; once one has set the flag and notified,
every call under way can take a step, and returns in two of them at most. -/
theorem no_cancellation_is_missed {tr : List WaitAct} (hrun : Steps WaitStep .new tr token) :
    (∀ task, token.waiters task = .returned → token.cancelled = true) ∧
    (token.cancelled = true → (∀ call, token.notifiers call ≠ .notifying) →
      ∀ task, token.waiters task ≠ .absent → token.returns task 2 = true) := by
  have h : token.Awake := hrun.invariant (fun _ _ _ h hstep => h.step hstep) ⟨nofun, nofun⟩
  refine ⟨h.returned, fun hset hquiet task hwaits => ?_⟩
  cases hwaiter : token.waiters task with
  | absent => exact absurd hwaiter hwaits
  | awaiting notified =>
    cases notified with
    | false =>
      obtain ⟨call, hcall⟩ := h.asleep task hwaiter hset
      exact absurd hcall (hquiet call)
    | true =>
      simp [Watched.returns, Watched.step, Watched.proceed, Watched.look, Watched.put, hwaiter, hset]
  | _ =>
    simp [Watched.returns, Watched.step, Watched.proceed, Watched.look, Watched.put, hwaiter, hset]

/-- A task that sleeps when the cancellation comes. -/
theorem sleeper_returns : ∃ tr token, Steps WaitStep .new tr token ∧
    token.waiters 0 = .awaiting true ∧ token.returns 0 2 = true := by
  have hnext : ∀ {tr : List WaitAct} {token token' : Watched} (act : WaitAct),
      Steps WaitStep .new tr token → token.step act = some token' →
      Steps WaitStep .new (tr ++ [act]) token' := fun _ hrun hstep => hrun.snoc hstep
  have hlooked := hnext (.proceed 0) (hnext (.wait 0) .nil rfl) rfl
  have hasleep := hnext (.proceed 0) (hnext (.proceed 0) hlooked rfl) rfl
  have hset := hnext (.advance 0) (hnext (.cancel 0) hasleep rfl) rfl
  have hrun := hnext (.advance 0) hset rfl
  refine ⟨_, _, hrun, rfl, (no_cancellation_is_missed hrun).2 rfl (fun call => ?_) 0 nofun⟩
  cases call with
  | _ => nofun

end Oxyn.Cancel
