/-
# `Oxyn.Exec.Approval` — commands awaiting approval, and their expiry

The queue of the approval registry, operation for operation.  A pending request is kept under its
own identifier by its type.
-/
import Oxyn.Lib.Ring
import Oxyn.Lib.Runs
import Oxyn.Core.Policy
import Mathlib.Data.List.AList

open Runs Ring

namespace Oxyn

open List

/-! ## The queue -/

/-- A command set aside while waiting for an approval. -/
structure PendingCommand where
  id : CommandId
  /-- Who asked: approving an agent's command does not make it a human's. -/
  actor : Actor
  /-- The reclassified command, as it will be executed. -/
  command : Command
  reason : String
  preview : Option Preview
  requestedAt : Nat
  expiresAt : Nat
deriving DecidableEq

/-- Is the request stale at instant `now`? -/
def PendingCommand.isExpiredAt (p : PendingCommand) (now : Nat) : Bool := p.expiresAt ≤ now

/-- What can keep an approval from going through. -/
inductive ApprovalError where
  | unknown
  | expired (after : Nat)
  | queueFull (limit : Nat)
  | alreadyPending
deriving DecidableEq

structure ApprovalRegistry where
  ttl : Nat
  capacity : Nat

namespace ApprovalRegistry

/-- Five minutes, and sixty-four requests. -/
def default : ApprovalRegistry := ⟨5 * 60 * 1000000000, 64⟩

end ApprovalRegistry

/-- What is waiting, and what expired without an answer. -/
@[ext] structure Queue where
  pending : AList fun id : CommandId => {p : PendingCommand // p.id = id}
  /-- The last identifiers removed because stale, oldest first. -/
  expired : List CommandId
deriving DecidableEq

namespace Queue

def empty : Queue := ⟨∅, []⟩

/-- Number of pending requests, stale ones included. -/
def len (q : Queue) : Nat := q.pending.keys.length

/-- The request waiting under `id`, without removing it. -/
def peek (q : Queue) (id : CommandId) : Option PendingCommand :=
  (q.pending.lookup id).map Subtype.val

/-- What is waiting for an answer, in no particular order. -/
def all (q : Queue) : List PendingCommand := q.pending.entries.map fun e => e.2.val

def rememberExpired (q : Queue) (id : CommandId) (capacity : Nat) : Queue :=
  { q with expired := push capacity q.expired id }

def erase (q : Queue) (id : CommandId) : Queue := { q with pending := q.pending.erase id }

/-- Takes the request waiting under `id` out of the map, if there is one. -/
def remove (q : Queue) (id : CommandId) : Queue × Option PendingCommand :=
  (q.erase id, q.peek id)

/-- The requests stale at `now`. -/
def stale (q : Queue) (now : Nat) : List CommandId :=
  (q.all.filter (·.isExpiredAt now)).map (·.id)

def purge (capacity : Nat) : List CommandId → Queue → Queue × List PendingCommand
  | [], q => (q, [])
  | id :: ids, q =>
    match q.remove id with
    | (q, none) => purge capacity ids q
    | (q, some entry) =>
      let next := purge capacity ids (q.rememberExpired id capacity)
      (next.1, entry :: next.2)

/-- Has the identifier expired?  Forgotten once read. -/
def forgetExpired (q : Queue) (id : CommandId) : Queue × Bool :=
  let kept := q.expired.filter (· ≠ id)
  ({ q with expired := kept }, kept.length ≠ q.expired.length)

/-- Was `id` removed as stale and not reported since?  Reads without forgetting. -/
def wasExpired (q : Queue) (id : CommandId) : Bool := q.expired.contains id

/-- Removes a request the user answered "no" to. -/
def reject (q : Queue) (id : CommandId) : Queue × Option PendingCommand := q.remove id

end Queue

namespace ApprovalRegistry

variable (reg : ApprovalRegistry)

/-- Sets a command aside and returns the created request.  `order` is the one in which
the stale requests are purged first. -/
def submit (q : Queue) (now : Nat) (order : List CommandId) (id : CommandId) (actor : Actor)
    (command : Command) (reason : String) (preview : Option Preview) :
    Queue × Except ApprovalError PendingCommand :=
  let entry : PendingCommand := ⟨id, actor, command, reason, preview, now, now + reg.ttl⟩
  -- Stale ones do not count in the bound.
  let q := (q.purge reg.capacity order).1
  if reg.capacity ≤ q.len then (q, .error (.queueFull reg.capacity))
  else if (q.peek id).isSome then (q, .error .alreadyPending)
  else ({ q with pending := q.pending.insert id ⟨entry, rfl⟩ }, .ok entry)

def takeAt (q : Queue) (id : CommandId) (now : Nat) : Queue × Except ApprovalError PendingCommand :=
  match q.remove id with
  | (q, none) =>
    let (q, forgotten) := q.forgetExpired id
    (q, .error (if forgotten then .expired reg.ttl else .unknown))
  | (q, some entry) => (q, if entry.isExpiredAt now then .error (.expired reg.ttl) else .ok entry)

/-- Removes a request as stale, whether or not its delay has passed. -/
def expire (q : Queue) (id : CommandId) : Queue × Option PendingCommand :=
  match q.remove id with
  | (q, none) => (q, none)
  | (q, some entry) => (q.rememberExpired id reg.capacity, some entry)

/-- Removes stale requests and returns them. -/
def sweep (q : Queue) (order : List CommandId) : Queue × List PendingCommand :=
  q.purge reg.capacity order

end ApprovalRegistry

/-! ## Operations and runs -/

/-- A call on the registry.  The two that purge carry an instant and an order. -/
inductive Op where
  | submit (now : Nat) (order : List CommandId) (id : CommandId) (actor : Actor)
      (command : Command) (reason : String) (preview : Option Preview)
  | take (now : Nat) (id : CommandId)
  | reject (id : CommandId)
  | expire (id : CommandId)
  | sweep (now : Nat) (order : List CommandId)
  | wasExpired (id : CommandId)
  | peek (id : CommandId)
  | pending
  | len

inductive Answer where
  | request (result : Except ApprovalError PendingCommand)
  | removed (entry : Option PendingCommand)
  | all (entries : List PendingCommand)
  | bool (b : Bool)
  | nat (n : Nat)

structure Call where
  op : Op
  answer : Answer

namespace ApprovalRegistry

variable (reg : ApprovalRegistry)

/-- What a call does. -/
def apply (q : Queue) : Op → Queue × Answer
  | .submit now order id actor command reason preview =>
    let (q', r) := reg.submit q now order id actor command reason preview
    (q', .request r)
  | .take now id => let (q', r) := reg.takeAt q id now; (q', .request r)
  | .reject id => let (q', r) := q.reject id; (q', .removed r)
  | .expire id => let (q', r) := reg.expire q id; (q', .removed r)
  | .sweep _ order => let (q', r) := reg.sweep q order; (q', .all r)
  | .wasExpired id => (q, .bool (q.wasExpired id))
  | .peek id => (q, .removed (q.peek id))
  | .pending => (q, .all q.all)
  | .len => (q, .nat q.len)

end ApprovalRegistry

/-- The order a call purges in: some enumeration of the stale requests. -/
def Op.Fits (q : Queue) : Op → Prop
  | .submit now order _ _ _ _ _ => order.Perm (q.stale now)
  | .sweep now order => order.Perm (q.stale now)
  | _ => True

def ApprovalRegistry.Step (reg : ApprovalRegistry) (q : Queue) (call : Call) (q' : Queue) :
    Prop :=
  call.op.Fits q ∧ reg.apply q call.op = (q', call.answer)

abbrev ApprovalRegistry.Run (reg : ApprovalRegistry) (tr : List Call) (q : Queue) : Prop :=
  Steps reg.Step Queue.empty tr q

/-! ## What each operation leaves pending -/

namespace Queue

@[simp] theorem peek_empty (id : CommandId) : empty.peek id = none := rfl

theorem id_of_peek {q : Queue} {id : CommandId} {e : PendingCommand} (h : q.peek id = some e) :
    e.id = id := by
  obtain ⟨⟨p, hp⟩, -, rfl⟩ := Option.map_eq_some_iff.mp h
  exact hp

theorem peek_erase (q : Queue) (id i : CommandId) :
    (q.erase id).peek i = if i = id then none else q.peek i := by
  by_cases h : i = id
  · subst h
    simp [peek, erase]
  · simp [peek, erase, h, AList.lookup_erase_ne h]

@[simp] theorem peek_rememberExpired (q : Queue) (id i : CommandId) (capacity : Nat) :
    (q.rememberExpired id capacity).peek i = q.peek i := rfl

theorem peek_purge (capacity : Nat) (order : List CommandId) (q : Queue) (i : CommandId) :
    (q.purge capacity order).1.peek i = if i ∈ order then none else q.peek i := by
  induction order generalizing q with
  | nil => rfl
  | cons id ids ih =>
    have hnext : (q.purge capacity (id :: ids)).1.peek i
        = if i ∈ ids then none else (q.erase id).peek i := by
      simp only [purge, remove]
      cases q.peek id with
      | none => exact ih _
      | some entry => exact ih _
    rw [hnext, peek_erase]
    by_cases hid : i = id <;> simp [hid]

theorem len_erase_le (q : Queue) (id : CommandId) : (q.erase id).len ≤ q.len := by
  simp only [len, erase, AList.keys_erase]
  exact length_erase_le

theorem len_purge_le (capacity : Nat) (order : List CommandId) (q : Queue) :
    (q.purge capacity order).1.len ≤ q.len := by
  induction order generalizing q with
  | nil => exact Nat.le_refl _
  | cons id ids ih =>
    simp only [purge, remove]
    cases q.peek id with
    | none | some entry => exact (ih _).trans (len_erase_le q id)

theorem mem_all {q : Queue} {e : PendingCommand} : e ∈ q.all ↔ q.peek e.id = some e := by
  simp only [all, mem_map, peek, Option.map_eq_some_iff]
  constructor
  · rintro ⟨⟨id, p, hp⟩, hmem, rfl⟩
    subst hp
    exact ⟨⟨p, rfl⟩, AList.mem_lookup_iff.mpr hmem, rfl⟩
  · rintro ⟨p, hmem, hp⟩
    exact ⟨⟨_, p⟩, AList.mem_lookup_iff.mp hmem, hp⟩

theorem mem_stale {q : Queue} {now : Nat} {id : CommandId} :
    id ∈ q.stale now ↔ ∃ e, q.peek id = some e ∧ e.isExpiredAt now = true := by
  simp only [stale, mem_map, mem_filter, mem_all]
  constructor
  · rintro ⟨e, ⟨he, hs⟩, rfl⟩
    exact ⟨e, he, hs⟩
  · rintro ⟨e, he, hs⟩
    have := id_of_peek he
    subst this
    exact ⟨e, ⟨he, hs⟩, rfl⟩

theorem stale_nodup (q : Queue) (now : Nat) : (q.stale now).Nodup := by
  have hids : q.all.map (·.id) = q.pending.keys := by
    unfold all AList.keys List.keys
    rw [map_map]
    exact map_congr_left fun e _ => e.2.property
  refine List.Nodup.sublist (filter_sublist.map _) ?_
  rw [hids]
  exact q.pending.keys_nodup

end Queue

def Call.Submits (reg : ApprovalRegistry) (e : PendingCommand) (c : Call) : Prop :=
  (∃ order, c.op = .submit e.requestedAt order e.id e.actor e.command e.reason e.preview) ∧
    c.answer = .request (.ok e) ∧ e.expiresAt = e.requestedAt + reg.ttl

/-- A call that leaves nothing pending under an identifier, whatever it answers. -/
def Op.Removes (id : CommandId) : Op → Prop
  | .submit _ order _ _ _ _ _ => id ∈ order
  | .take _ i => i = id
  | .reject i => i = id
  | .expire i => i = id
  | .sweep _ order => id ∈ order
  | _ => False

section

variable {reg : ApprovalRegistry} {q q' : Queue}

/-- What a submission leaves when it succeeds. -/
def Queue.insert (q : Queue) (e : PendingCommand) : Queue :=
  { q with pending := q.pending.insert e.id ⟨e, rfl⟩ }

theorem Queue.peek_insert (q : Queue) (e : PendingCommand) (i : CommandId) :
    (q.insert e).peek i = if i = e.id then some e else q.peek i := by
  by_cases h : i = e.id
  · subst h
    simp [peek, insert]
  · simp [peek, insert, h, AList.lookup_insert_ne h]

variable {id : CommandId}

variable {order : List CommandId} {answer : Answer} {now : Nat}

theorem step_submit {actor : Actor} {command : Command} {reason : String} {preview : Option Preview}
    (h : reg.Step q ⟨.submit now order id actor command reason preview, answer⟩ q') :
    ((∃ err, answer = .request (.error err)) ∧ q' = (q.purge reg.capacity order).1) ∨
      ∃ e : PendingCommand, e = ⟨id, actor, command, reason, preview, now, now + reg.ttl⟩ ∧
        answer = .request (.ok e) ∧ (q.purge reg.capacity order).1.len < reg.capacity ∧
        (q.purge reg.capacity order).1.peek e.id = none ∧
        q' = (q.purge reg.capacity order).1.insert e := by
  obtain ⟨-, h⟩ := h
  simp only [ApprovalRegistry.apply, ApprovalRegistry.submit] at h
  split_ifs at h with hfull hpending
  · obtain ⟨rfl, rfl⟩ := Prod.mk.inj h
    exact Or.inl ⟨⟨_, rfl⟩, rfl⟩
  · obtain ⟨rfl, rfl⟩ := Prod.mk.inj h
    exact Or.inl ⟨⟨_, rfl⟩, rfl⟩
  · obtain ⟨rfl, rfl⟩ := Prod.mk.inj h
    exact Or.inr ⟨_, rfl, rfl, Nat.lt_of_not_le hfull, by simpa using hpending, rfl⟩

theorem Queue.forgetExpired_snd (q : Queue) (id : CommandId) :
    (q.forgetExpired id).2 = q.wasExpired id := by
  have hkept : (q.expired.filter (· ≠ id)).length = q.expired.length ↔ id ∉ q.expired := by
    rw [length_filter_eq_length_iff]
    constructor
    · intro h hid
      exact of_decide_eq_true (h id hid) rfl
    · intro hid i hi
      exact decide_eq_true fun he => hid (he ▸ hi)
  rw [Bool.eq_iff_iff, forgetExpired, wasExpired, contains_iff_mem, decide_eq_true_iff, Ne,
    hkept, not_not]

/-- A `take` removes what is pending, and answers it unless it is stale; or it finds
nothing, and answers whether the identifier is remembered as expired. -/
theorem step_take (h : reg.Step q ⟨.take now id, answer⟩ q') :
    (∃ e, q.peek id = some e ∧ q' = q.erase id ∧
        answer = .request (if e.isExpiredAt now then .error (.expired reg.ttl) else .ok e)) ∨
      (q.peek id = none ∧ q'.pending = q.pending.erase id ∧
        q'.expired = q.expired.filter (· ≠ id) ∧
        answer = .request (.error (if q.wasExpired id then .expired reg.ttl else .unknown))) := by
  obtain ⟨-, h⟩ := h
  simp only [ApprovalRegistry.apply, ApprovalRegistry.takeAt, Queue.remove] at h
  cases hid : q.peek id with
  | some e =>
    rw [hid] at h
    obtain ⟨rfl, rfl⟩ := Prod.mk.inj h
    exact Or.inl ⟨e, rfl, rfl, rfl⟩
  | none =>
    rw [hid] at h
    obtain ⟨rfl, rfl⟩ := Prod.mk.inj h
    exact Or.inr ⟨rfl, rfl, rfl, by simp [Queue.forgetExpired_snd, Queue.wasExpired, Queue.erase]⟩

theorem step_expire (h : reg.Step q ⟨.expire id, answer⟩ q') :
    (∃ e, q.peek id = some e ∧ q' = (q.erase id).rememberExpired id reg.capacity ∧
        answer = .removed (some e)) ∨
      (q.peek id = none ∧ q' = q.erase id ∧ answer = .removed none) := by
  obtain ⟨-, h⟩ := h
  simp only [ApprovalRegistry.apply, ApprovalRegistry.expire, Queue.remove] at h
  cases hid : q.peek id with
  | some e =>
    rw [hid] at h
    obtain ⟨rfl, rfl⟩ := Prod.mk.inj h
    exact Or.inl ⟨e, rfl, rfl, rfl⟩
  | none =>
    rw [hid] at h
    obtain ⟨rfl, rfl⟩ := Prod.mk.inj h
    exact Or.inr ⟨rfl, rfl, rfl⟩

theorem ApprovalRegistry.peek_takeAt (id i : CommandId) (now : Nat) :
    (reg.takeAt q id now).1.peek i = if i = id then none else q.peek i := by
  simp only [takeAt, Queue.remove]
  cases q.peek id <;> exact Queue.peek_erase q id i

theorem ApprovalRegistry.peek_expire (id i : CommandId) :
    (reg.expire q id).1.peek i = if i = id then none else q.peek i := by
  simp only [expire, Queue.remove]
  cases q.peek id <;> exact Queue.peek_erase q id i

variable {e : PendingCommand} {c : Call}

theorem peek_of_removed {P : Prop} [Decidable P] (hc : ¬ c.Submits reg e) (hP : c.op.Removes id ↔ P)
    (h : q'.peek id = if P then none else q.peek id) :
    q'.peek id = some e ↔
      (c.Submits reg e ∧ e.id = id) ∨ (¬ c.op.Removes id ∧ q.peek id = some e) := by
  rw [h, hP]
  by_cases hp : P <;> simp [hp, hc]

theorem peek_step (h : reg.Step q c q') (id : CommandId) (e : PendingCommand) :
    q'.peek id = some e ↔
      (c.Submits reg e ∧ e.id = id) ∨ (¬ c.op.Removes id ∧ q.peek id = some e) := by
  obtain ⟨op, answer⟩ := c
  cases op with
  | submit now order i actor command reason preview =>
    have hpurge := Queue.peek_purge reg.capacity order q id
    rcases step_submit h with ⟨⟨err, rfl⟩, rfl⟩ | ⟨e', he', rfl, -, hnone, rfl⟩
    · exact peek_of_removed (P := id ∈ order) (fun hs => nomatch hs.2.1) Iff.rfl hpurge
    · have hsub : Call.Submits reg e ⟨.submit now order i actor command reason preview,
          .request (.ok e')⟩ ↔ e' = e := by
        constructor
        · rintro ⟨-, hans, -⟩
          cases hans
          rfl
        · rintro rfl
          subst he'
          exact ⟨⟨order, rfl⟩, rfl, rfl⟩
      have hmem : Op.Removes id (.submit now order i actor command reason preview)
          ↔ id ∈ order := Iff.rfl
      rw [Queue.peek_purge] at hnone
      rw [Queue.peek_insert, hpurge, hsub, hmem]
      by_cases hid : id = e'.id
      · subst hid
        have hold : ¬ (e'.id ∉ order ∧ q.peek e'.id = some e) := by
          rintro ⟨ho, hs⟩
          rw [if_neg ho, hs] at hnone
          cases hnone
        rw [if_pos rfl, Option.some.injEq, or_iff_left hold]
        exact ⟨fun h => ⟨h, h ▸ rfl⟩, And.left⟩
      · rw [if_neg hid]
        have hne : ¬ (e' = e ∧ e.id = id) := fun h => hid (h.2 ▸ h.1 ▸ rfl)
        by_cases ho : id ∈ order <;> simp [ho, hne]
  | take now i =>
    obtain ⟨rfl, -⟩ := Prod.mk.inj h.2
    exact peek_of_removed (fun hs => nomatch hs.1) eq_comm (ApprovalRegistry.peek_takeAt i id now)
  | reject i =>
    obtain ⟨rfl, -⟩ := Prod.mk.inj h.2
    exact peek_of_removed (fun hs => nomatch hs.1) eq_comm (Queue.peek_erase q i id)
  | expire i =>
    obtain ⟨rfl, -⟩ := Prod.mk.inj h.2
    exact peek_of_removed (fun hs => nomatch hs.1) eq_comm (ApprovalRegistry.peek_expire i id)
  | sweep now order =>
    obtain ⟨rfl, -⟩ := Prod.mk.inj h.2
    exact peek_of_removed (P := id ∈ order) (fun hs => nomatch hs.1) Iff.rfl
      (Queue.peek_purge _ order q id)
  | wasExpired i | peek i | pending | len =>
    obtain ⟨rfl, -⟩ := Prod.mk.inj h.2
    exact peek_of_removed (P := False) (fun hs => nomatch hs.1) Iff.rfl rfl

theorem peek_run {tr : List Call} (h : Steps reg.Step q tr q') (hq : q.peek id = none) :
    q'.peek id = some e ↔
      Since (fun c => c.Submits reg e ∧ e.id = id) (fun c => c.op.Removes id) tr :=
  Steps.since (P := fun q => q.peek id = some e) (by simp [hq])
    (fun _ _ _ hs => peek_step hs id e) h

/-! ## The bounds -/

theorem len_insert (q : Queue) (h : q.peek e.id = none) :
    (q.insert e).len = q.len + 1 := by
  have hmem : e.id ∉ q.pending.keys := by
    rw [← AList.mem_keys, ← AList.lookup_eq_none]
    simpa [Queue.peek] using h
  simp [Queue.len, Queue.insert, AList.keys_insert, erase_of_not_mem hmem]

theorem len_step (h : reg.Step q c q') (hq : q.len ≤ reg.capacity) :
    q'.len ≤ reg.capacity := by
  obtain ⟨op, answer⟩ := c
  cases op with
  | submit now order i actor command reason preview =>
    have hpurge := Queue.len_purge_le reg.capacity order q
    rcases step_submit h with ⟨-, rfl⟩ | ⟨e, -, -, hlen, hnone, rfl⟩
    · exact hpurge.trans hq
    · rw [len_insert _ hnone]
      exact hlen
  | take now i =>
    have hlen := (Queue.len_erase_le q i).trans hq
    rcases step_take h with ⟨e, -, rfl, -⟩ | ⟨-, hpending, -⟩
    · exact hlen
    · rwa [Queue.len, hpending]
  | reject i =>
    obtain ⟨rfl, -⟩ := Prod.mk.inj h.2
    exact (Queue.len_erase_le q i).trans hq
  | expire i =>
    have hlen := (Queue.len_erase_le q i).trans hq
    rcases step_expire h with ⟨e, -, rfl, -⟩ | ⟨-, rfl, -⟩ <;> exact hlen
  | sweep now order =>
    obtain ⟨rfl, -⟩ := Prod.mk.inj h.2
    exact (Queue.len_purge_le _ order q).trans hq
  | wasExpired i | peek i | pending | len =>
    obtain ⟨rfl, -⟩ := Prod.mk.inj h.2
    exact hq

/-! ## The memory of what expired -/

def Call.expiries : Call → List CommandId
  | ⟨.submit _ order _ _ _ _ _, _⟩ => order
  | ⟨.sweep _ order, _⟩ => order
  | ⟨.expire id, .removed (some _)⟩ => [id]
  | _ => []

/-- A `take` that answered an identifier expired. -/
def Call.Reports (id : CommandId) (c : Call) : Prop :=
  ∃ now after, c = ⟨.take now id, .request (.error (.expired after))⟩

theorem Queue.expired_purge {capacity : Nat} (q : Queue)
    (hnodup : order.Nodup) (h : ∀ id ∈ order, q.peek id ≠ none) :
    (q.purge capacity order).1.expired = pushes capacity q.expired order := by
  induction order generalizing q with
  | nil => rfl
  | cons id ids ih =>
    obtain ⟨hid, hids⟩ := nodup_cons.mp hnodup
    obtain ⟨entry, hentry⟩ := Option.ne_none_iff_exists'.mp (h id (by simp))
    simp only [purge, remove, hentry]
    refine ih _ hids fun i hi => ?_
    have hne : i ≠ id := fun he => hid (he ▸ hi)
    rw [peek_rememberExpired, peek_erase, if_neg hne]
    exact h i (mem_cons_of_mem _ hi)

theorem expired_purge_of_perm (h : order.Perm (q.stale now)) (capacity : Nat) :
    (q.purge capacity order).1.expired = pushes capacity q.expired order := by
  refine q.expired_purge (h.nodup_iff.mpr (q.stale_nodup now)) fun id hid => ?_
  obtain ⟨e, he, -⟩ := Queue.mem_stale.mp (h.mem_iff.mp hid)
  simp [he]

theorem expired_step (h : reg.Step q c q') :
    q'.expired = pushes reg.capacity q.expired c.expiries ∨
      ∃ id, c.expiries = [] ∧ q'.expired = q.expired.filter (· ≠ id) ∧
        (id ∈ q.expired → c.Reports id) := by
  obtain ⟨op, answer⟩ := c
  cases op with
  | submit now order i actor command reason preview =>
    have hpurge := expired_purge_of_perm h.1 reg.capacity
    rcases step_submit h with ⟨-, rfl⟩ | ⟨e, -, -, -, -, rfl⟩
    · exact Or.inl hpurge
    · exact Or.inl hpurge
  | take now i =>
    rcases step_take h with ⟨e, -, rfl, -⟩ | ⟨-, -, hexpired, rfl⟩
    · exact Or.inl rfl
    · refine Or.inr ⟨i, rfl, hexpired, fun hmem => ⟨now, reg.ttl, ?_⟩⟩
      have hwas : q.wasExpired i = true := contains_iff_mem.mpr hmem
      rw [hwas, if_pos rfl]
  | expire i =>
    rcases step_expire h with ⟨e, -, rfl, rfl⟩ | ⟨-, rfl, rfl⟩
    · exact Or.inl rfl
    · exact Or.inl rfl
  | sweep now order =>
    obtain ⟨rfl, -⟩ := Prod.mk.inj h.2
    exact Or.inl (expired_purge_of_perm h.1 reg.capacity)
  | reject i | wasExpired i | peek i | pending | len =>
    obtain ⟨rfl, -⟩ := Prod.mk.inj h.2
    exact Or.inl rfl

theorem length_expired_step (h : reg.Step q c q')
    (hq : q.expired.length ≤ reg.capacity) : q'.expired.length ≤ reg.capacity := by
  rcases expired_step h with hpush | ⟨id, -, hfilter, -⟩
  · rw [hpush]
    exact length_pushes_le _ hq
  · rw [hfilter]
    exact (length_filter_le _ _).trans hq

theorem recent_step {n : Nat} (h : reg.Step q c q')
    (hid : Recent id n q.expired) (hc : ¬ c.Reports id)
    (hn : n + c.expiries.length < reg.capacity) :
    Recent id (n + c.expiries.length) q'.expired := by
  rcases expired_step h with hpush | ⟨i, hnil, hfilter, hreport⟩
  · rw [hpush]
    exact hid.pushes c.expiries hn
  · rw [hnil, hfilter]
    refine hid.filter (decide_eq_true fun he => ?_)
    subst he
    exact hc (hreport hid.mem)

theorem recent_run {tr : List Call} {n : Nat} (h : Steps reg.Step q tr q')
    (hid : Recent id n q.expired) (hc : ∀ c ∈ tr, ¬ c.Reports id)
    (hn : n + (tr.flatMap Call.expiries).length < reg.capacity) :
    Recent id (n + (tr.flatMap Call.expiries).length) q'.expired := by
  induction h with
  | nil => exact hid
  | @snoc t u tr c h hstep ih =>
    have hlen : ((tr ++ [c]).flatMap Call.expiries).length
        = (tr.flatMap Call.expiries).length + c.expiries.length := by simp
    rw [hlen] at hn ⊢
    have ih := ih (fun x hx => hc x (by simp [hx])) (by omega)
    rw [← Nat.add_assoc] at hn ⊢
    exact recent_step hstep ih (hc c (by simp)) hn

/-! ## An approval is used once, and in time -/

theorem stale_of_replaced {e e' : PendingCommand}
    (h : reg.Step q c q') (he : q.peek id = some e) (he' : q'.peek id = some e') (hne : e' ≠ e) :
    e.isExpiredAt e'.requestedAt = true := by
  rcases (peek_step h id e').mp he' with ⟨⟨⟨order, hop⟩, hans, -⟩, rfl⟩ | ⟨-, hkept⟩
  · obtain ⟨op, answer⟩ := c
    obtain rfl : op = _ := hop
    rcases step_submit h with ⟨⟨err, herr⟩, -⟩ | ⟨e'', rfl, -, -, hnone, -⟩
    · obtain rfl : answer = _ := hans
      cases herr
    · rw [Queue.peek_purge] at hnone
      have hmem : e'.id ∈ order := by
        by_contra ho
        rw [if_neg ho, he] at hnone
        cases hnone
      obtain ⟨s, hs, hstale⟩ := Queue.mem_stale.mp (h.1.mem_iff.mp hmem)
      rw [he] at hs
      cases hs
      exact hstale
  · rw [he] at hkept
    cases hkept
    exact absurd rfl hne

theorem peek_of_taken (h : reg.Step q ⟨.take now id, .request (.ok e)⟩ q') :
    q.peek id = some e ∧ now < e.expiresAt := by
  rcases step_take h with ⟨e', he', -, hans⟩ | ⟨-, -, -, hans⟩
  · split_ifs at hans with hs
    · cases hans
    · cases hans
      exact ⟨he', by simpa [PendingCommand.isExpiredAt] using hs⟩
  · cases hans

section

variable {tr : List Call} (h : reg.Run tr q)
include h

theorem len_run : q.len ≤ reg.capacity :=
  Steps.invariant (P := fun q => q.len ≤ reg.capacity) (fun _ _ _ hq hs => len_step hs hq) h
    (Nat.zero_le _)

theorem length_expired_run : q.expired.length ≤ reg.capacity :=
  Steps.invariant (P := fun q => q.expired.length ≤ reg.capacity)
    (fun _ _ _ hq hs => length_expired_step hs hq) h (Nat.zero_le _)

theorem since_of_taken {before after : List Call}
    (htr : tr = before ++ ⟨.take now id, .request (.ok e)⟩ :: after) :
    now < e.expiresAt ∧ e.id = id ∧
      Since (fun c => c.Submits reg e) (fun c => c.op.Removes id) before := by
  subst htr
  obtain ⟨t, t', hbefore, hstep, -⟩ := h.split_cons
  obtain ⟨hpeek, hnow⟩ := peek_of_taken hstep
  have hsince := (peek_run hbefore (Queue.peek_empty id)).mp hpeek
  exact ⟨hnow, Queue.id_of_peek hpeek, hsince.imp fun _ => And.left⟩

theorem submitted_between {before between after : List Call} {now now' : Nat}
    {e e' : PendingCommand}
    (htr : tr = before ++ ⟨.take now id, .request (.ok e)⟩ ::
      (between ++ ⟨.take now' id, .request (.ok e')⟩ :: after)) :
    ∃ c ∈ between, c.Submits reg e' := by
  subst htr
  obtain ⟨t, t', -, hstep, hrest⟩ := h.split_cons
  obtain ⟨u, u', hbetween, hstep', -⟩ := hrest.split_cons
  have hnone : t'.peek id = none := by
    rcases step_take hstep with ⟨_, -, rfl, -⟩ | ⟨-, -, -, hans⟩
    · rw [Queue.peek_erase, if_pos rfl]
    · cases hans
  have hsince := (peek_run hbetween hnone).mp (peek_of_taken hstep').1
  exact (hsince.imp fun _ => And.left).exists_mem

/-- What was removed as stale, and not reported, is remembered until enough other
identifiers have expired. -/
theorem mem_expired_of_expiry {before after : List Call}
    {earlier later : List CommandId} (htr : tr = before ++ c :: after)
    (hc : c.expiries = earlier ++ id :: later)
    (hlen : later.length + (after.flatMap Call.expiries).length < reg.capacity)
    (hreport : ∀ c ∈ after, ¬ c.Reports id) : id ∈ q.expired := by
  subst htr
  obtain ⟨t, t', -, hstep, hafter⟩ := h.split_cons
  have hrecent : Recent id later.length t'.expired := by
    rcases expired_step hstep with hpush | ⟨_, hnil, -, -⟩
    · rw [hpush, hc]
      exact recent_pushes t.expired earlier id later (by omega)
    · rw [hnil] at hc
      simp at hc
  exact (recent_run hafter hrecent hreport hlen).mem

end

theorem takeAt_of_none (now : Nat) (h : q.peek id = none) :
    (reg.takeAt q id now).2
      = .error (if q.wasExpired id then .expired reg.ttl else .unknown) := by
  simp [ApprovalRegistry.takeAt, Queue.remove, h, Queue.forgetExpired_snd, Queue.wasExpired,
    Queue.erase]

theorem takeAt_of_some (now : Nat) (h : q.peek id = some e) :
    (reg.takeAt q id now).2
      = if e.isExpiredAt now then .error (.expired reg.ttl) else .ok e := by
  simp [ApprovalRegistry.takeAt, Queue.remove, h]

/-- In every run: a `take` returns what was submitted under its identifier, not stale, and removed
by nothing in between, so two requests taken under one identifier were submitted twice. A pending
request gives way to another only once stale, and the capacity bounds both lists. What was removed
as stale is remembered until it is reported or the capacity of later expiries is reached, and a
`take` answers of it that it expired; what is pending again is taken. -/
theorem approval_used_once_and_in_time {tr : List Call} (h : reg.Run tr q) :
    (∀ before after now id e, tr = before ++ ⟨.take now id, .request (.ok e)⟩ :: after →
      now < e.expiresAt ∧ e.id = id ∧
        Since (fun c => c.Submits reg e) (fun c => c.op.Removes id) before) ∧
    (∀ before between after now now' id e e',
      tr = before ++ ⟨.take now id, .request (.ok e)⟩ ::
        (between ++ ⟨.take now' id, .request (.ok e')⟩ :: after) →
      ∃ c ∈ between, c.Submits reg e') ∧
    (∀ c q' id e e', reg.Step q c q' → q.peek id = some e → q'.peek id = some e' → e' ≠ e →
      e.isExpiredAt e'.requestedAt = true) ∧
    q.len ≤ reg.capacity ∧ q.expired.length ≤ reg.capacity ∧
    (∀ before c after earlier id later, tr = before ++ c :: after →
      c.expiries = earlier ++ id :: later →
      later.length + (after.flatMap Call.expiries).length < reg.capacity →
      (∀ c ∈ after, ¬ c.Reports id) →
      q.wasExpired id = true ∧
        ∀ now, q.peek id = none → (reg.takeAt q id now).2 = .error (.expired reg.ttl)) ∧
    (∀ id now, ((reg.takeAt q id now).2 = .error (.expired reg.ttl) →
        (reg.takeAt q id now).1.peek id = none) ∧
      ∀ e, q.wasExpired id = true → q.peek id = some e → now < e.expiresAt →
        (reg.takeAt q id now).2 = .ok e) := by
  refine ⟨?_, ?_, ?_, len_run h, length_expired_run h, ?_, ?_⟩
  · intro before after now id e htr
    exact since_of_taken h htr
  · intro before between after now now' id e e' htr
    exact submitted_between h htr
  · intro c q' id e e' hstep he he' hne
    exact stale_of_replaced hstep he he' hne
  · intro before c after earlier id later htr hc hlen hreport
    have hwas : q.wasExpired id = true :=
      contains_iff_mem.mpr (mem_expired_of_expiry h htr hc hlen hreport)
    refine ⟨hwas, fun now hnone => ?_⟩
    rw [takeAt_of_none now hnone, hwas, if_pos rfl]
  · intro id now
    refine ⟨fun _ => ?_, fun e _ he hnow => ?_⟩
    · rw [ApprovalRegistry.peek_takeAt, if_pos rfl]
    · have hfresh : ¬ e.isExpiredAt now = true := by
        simpa [PendingCommand.isExpiredAt] using hnow
      rw [takeAt_of_some now he, if_neg hfresh]

end

/-- A registry of one request, valid for ten units of time. -/
def oneSlot : ApprovalRegistry := ⟨10, 1⟩

/-- A request to remove a connection, as it is set aside at an instant. -/
def removal (now : Nat) : PendingCommand :=
  ⟨⟨1⟩, .human, .deleteConnection devConnection, "ddl operation", none, now, now + 10⟩

/-- The call that sets it aside. -/
def submitRemoval (now : Nat) : Call :=
  ⟨.submit now [] ⟨1⟩ .human (.deleteConnection devConnection) "ddl operation" none,
    .request (.ok (removal now))⟩

def expireRemoval (now : Nat) : Call := ⟨.expire ⟨1⟩, .removed (some (removal now))⟩

theorem run_expired : oneSlot.Run [submitRemoval 5, expireRemoval 5] ⟨∅, [⟨1⟩]⟩ := by
  have hsubmit : oneSlot.Step Queue.empty (submitRemoval 5) (Queue.empty.insert (removal 5)) :=
    ⟨.refl _, rfl⟩
  have hexpire : oneSlot.Step (Queue.empty.insert (removal 5)) (expireRemoval 5) ⟨∅, [⟨1⟩]⟩ :=
    ⟨trivial, rfl⟩
  exact (Steps.nil.snoc hsubmit).snoc hexpire

theorem approval_remembered_after_an_expiry : Queue.wasExpired ⟨∅, [⟨1⟩]⟩ ⟨1⟩ = true :=
  ((approval_used_once_and_in_time run_expired).2.2.2.2.2.1 [submitRemoval 5] (expireRemoval 5) []
    [] ⟨1⟩ [] rfl rfl (by decide) (by simp)).1

/-- Set aside again under the same identifier, it is taken: a remembered identifier is
not always answered expired. -/
theorem expired_identifier_taken_again :
    ¬ ∀ (reg : ApprovalRegistry) (q : Queue) (before after : List Call) (c : Call)
      (earlier later : List CommandId) (id : CommandId) (now : Nat),
      reg.Run (before ++ c :: after) q → c.expiries = earlier ++ id :: later →
      later.length + (after.flatMap Call.expiries).length < reg.capacity →
      (∀ c ∈ after, ¬ c.Reports id) →
      (reg.takeAt q id now).2 = .error (.expired reg.ttl) := by
  intro h
  have hrun : oneSlot.Run ([submitRemoval 5] ++ expireRemoval 5 :: [submitRemoval 6])
      (Queue.insert ⟨∅, [⟨1⟩]⟩ (removal 6)) := run_expired.snoc ⟨.refl _, rfl⟩
  have htaken := h oneSlot _ _ _ _ [] [] ⟨1⟩ 7 hrun rfl (by decide)
    (by rintro c hc ⟨now, after, rfl⟩; simp [submitRemoval] at hc)
  cases htaken

end Oxyn
