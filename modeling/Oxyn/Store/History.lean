/-
# `Oxyn.Store.History` — an unresolved write keeps its warning until it is acknowledged

An execution is recorded when it is submitted, finished when its outcome is known, and
acknowledged by the user when its outcome is in doubt.  A finish takes an acknowledgement off.
-/
import Oxyn.Core.Query
import Oxyn.Lib.Keyed
import Oxyn.Lib.Runs

open Runs

namespace Oxyn.History

open List

open Text Keyed

/-! ## The data -/

abbrev Date := Int

inductive HistoryStatus where
  | running | succeeded | failed | cancelled | denied
deriving DecidableEq

inductive ErrorClass where
  | transient | permanent | ambiguous
deriving DecidableEq

structure HistoryRecord where
  ts : Date
  intent : StatementIntent
  status : HistoryStatus
  duration : Option Nat
  rows : Option Nat
  error : Option Str
  errorClass : Option ErrorClass
  result : Option Nat
  reconciledAt : Option Date

/-- A row of `query_history`. -/
structure HistoryEntry where
  id : Nat
  record : HistoryRecord

inductive Reconciliation where
  | recorded | notNeeded | stillRunning
deriving DecidableEq

/-- The rule, for a row read whole and for the startup scan. -/
def requiresReconciliation (intent : StatementIntent) (status : HistoryStatus)
    (errorClass : Option ErrorClass) : Bool :=
  errorClass == some .ambiguous ||
    (intent.isMutating && (status == .running || status == .cancelled ||
      status == .failed && errorClass.isNone))

def HistoryRecord.unresolved (record : HistoryRecord) : Bool :=
  requiresReconciliation record.intent record.status record.errorClass

/-- `HistoryRecord::requires_reconciliation`. -/
def HistoryRecord.requiresReconciliation (record : HistoryRecord) : Bool :=
  record.reconciledAt.isNone && record.unresolved

/-- The startup scan: what SQL excludes, and the rule. -/
def anyRequiresReconciliation (entries : List HistoryEntry) : Bool :=
  (entries.filter fun entry =>
    (entry.record.status != .succeeded || entry.record.errorClass.isSome) &&
      entry.record.reconciledAt.isNone).any (·.record.unresolved)

/-! ## Operations -/

/-- The outcome of an execution; what was submitted is not written again. -/
def HistoryRecord.finish (stored given : HistoryRecord) : HistoryRecord :=
  { stored with
    status := given.status
    duration := given.duration
    rows := given.rows
    error := given.error
    errorClass := given.errorClass
    result := given.result
    reconciledAt := none }

/-- `UPDATE query_history SET … WHERE id = …`. -/
def amend (entries : List HistoryEntry) (id : Nat) (change : HistoryRecord → HistoryRecord) :
    List HistoryEntry :=
  entries.map fun entry => if entry.id = id then ⟨entry.id, change entry.record⟩ else entry

def finish (entries : List HistoryEntry) (id : Nat) (record : HistoryRecord) :
    List HistoryEntry := amend entries id (·.finish record)

def reconcile (entries : List HistoryEntry) (id : Nat) (liveSince now : Date) :
    Reconciliation × List HistoryEntry :=
  match lookup (·.id) entries id with
  | none => (.notNeeded, entries)
  | some entry =>
    if entry.record.reconciledAt.isSome then (.recorded, entries)
    else if !entry.record.unresolved then (.notNeeded, entries)
    else if entry.record.status == .running && liveSince ≤ entry.record.ts then
      (.stillRunning, entries)
    else (.recorded, amend entries id fun record => { record with reconciledAt := some now })

/-! ## Launches on one file -/

/-- A launch, and when it began: its `live_since`. -/
structure Launch where
  name : Nat
  startedAt : Date
deriving DecidableEq

/-- The table, its last sequence number, the launches that have not ended, and the executions
under way in them. -/
structure World where
  entries : List HistoryEntry
  lastId : Nat
  launches : List Launch
  running : List (Nat × Launch)

def World.new : World := ⟨[], 0, [], []⟩

inductive HistoryEvent where
  | started (launch : Launch)
  | recorded (launch : Launch) (record : HistoryRecord) (id : Nat)
  | finished (id : Nat) (record : HistoryRecord)
  /-- An execution ends, and its outcome is not recorded. -/
  | lost (id : Nat)
  | reconciled (launch : Launch) (id : Nat) (now : Date) (answer : Reconciliation)
  | ended (launch : Launch)

inductive HistoryStep : World → HistoryEvent → World → Prop
  | started {w : World} {launch : Launch} : launch ∉ w.launches →
      HistoryStep w (.started launch) { w with launches := w.launches ++ [launch] }
  | recorded {w : World} {launch : Launch} {record : HistoryRecord} : launch ∈ w.launches →
      launch.startedAt ≤ record.ts →
      HistoryStep w (.recorded launch record (w.lastId + 1))
        { w with
          entries := w.entries ++ [⟨w.lastId + 1, record⟩]
          lastId := w.lastId + 1
          running :=
            if record.status = .running then w.running ++ [(w.lastId + 1, launch)]
            else w.running }
  | finished {w : World} {id : Nat} {record : HistoryRecord} :
      HistoryStep w (.finished id record)
        { w with
          entries := finish w.entries id record
          running := w.running.filter (·.1 ≠ id) }
  | lost {w : World} {id : Nat} :
      HistoryStep w (.lost id) { w with running := w.running.filter (·.1 ≠ id) }
  | reconciled {w : World} {launch : Launch} {id : Nat} {now : Date} : launch ∈ w.launches →
      HistoryStep w
        (.reconciled launch id now (reconcile w.entries id launch.startedAt now).1)
        { w with entries := (reconcile w.entries id launch.startedAt now).2 }
  | ended {w : World} {launch : Launch} : launch ∈ w.launches →
      HistoryStep w (.ended launch)
        { w with
          launches := w.launches.filter (· ≠ launch)
          running := w.running.filter (·.2 ≠ launch) }

/-- A record is submitted unacknowledged, and no launch acknowledges an execution under way in
another one that began later. -/
def CleanStep (w : World) (event : HistoryEvent) (w' : World) : Prop :=
  HistoryStep w event w' ∧
    (∀ launch record id, event = .recorded launch record id → record.reconciledAt = none) ∧
    ∀ launch id now answer, event = .reconciled launch id now answer →
      ∀ owner, (id, owner) ∈ w.running →
        ∀ entry, lookup (·.id) w.entries id = some entry → launch.startedAt ≤ entry.record.ts

/-! ## The rule, and what the operations do -/

theorem unresolved_passes {record : HistoryRecord} (h : record.unresolved = true) :
    (record.status != .succeeded || record.errorClass.isSome) = true := by
  cases hclass : record.errorClass with
  | some c => simp
  | none =>
    cases hstatus : record.status with
    | succeeded => simp [HistoryRecord.unresolved, requiresReconciliation, hclass, hstatus] at h
    | running => rfl
    | failed => rfl
    | cancelled => rfl
    | denied => rfl

theorem anyRequiresReconciliation_iff {entries : List HistoryEntry} :
    anyRequiresReconciliation entries = true ↔
      ∃ entry ∈ entries, entry.record.requiresReconciliation = true := by
  unfold anyRequiresReconciliation HistoryRecord.requiresReconciliation
  rw [any_eq_true]
  constructor
  · rintro ⟨entry, hmem, hunresolved⟩
    obtain ⟨hmem, hpasses⟩ := mem_filter.mp hmem
    exact ⟨entry, hmem, Bool.and_eq_true_iff.mpr ⟨(Bool.and_eq_true_iff.mp hpasses).2, hunresolved⟩⟩
  · rintro ⟨entry, hmem, hreported⟩
    obtain ⟨hnone, hunresolved⟩ := Bool.and_eq_true_iff.mp hreported
    exact ⟨entry, mem_filter.mpr
      ⟨hmem, Bool.and_eq_true_iff.mpr ⟨unresolved_passes hunresolved, hnone⟩⟩, hunresolved⟩

section Step

variable {entries : List HistoryEntry} {id other : Nat}

theorem lookup_amend {change : HistoryRecord → HistoryRecord} :
    lookup (·.id) (amend entries id change) other =
      if other = id then
        (lookup (·.id) entries other).map fun entry => ⟨entry.id, change entry.record⟩
      else lookup (·.id) entries other :=
  lookup_map_at fun _ => rfl

theorem amend_ids {change : HistoryRecord → HistoryRecord} :
    (amend entries id change).map (·.id) = entries.map (·.id) :=
  map_key fun entry => by split <;> rfl

theorem reconcile_recorded {liveSince now : Date}
    (h : (reconcile entries id liveSince now).1 = .recorded) :
    ∃ entry, lookup (·.id) entries id = some entry ∧
      ((entry.record.reconciledAt.isSome = true ∧
          (reconcile entries id liveSince now).2 = entries) ∨
        (entry.record.reconciledAt = none ∧ entry.record.unresolved = true ∧
          (entry.record.status = .running → entry.record.ts < liveSince) ∧
          (reconcile entries id liveSince now).2 =
            amend entries id fun record => { record with reconciledAt := some now })) := by
  unfold reconcile at h ⊢
  cases hentry : lookup (·.id) entries id with
  | none =>
    rw [hentry] at h
    cases h
  | some entry =>
    rw [hentry] at h
    refine ⟨entry, rfl, ?_⟩
    dsimp only at h ⊢
    split at h
    next hset =>
      rw [if_pos hset]
      exact .inl ⟨hset, rfl⟩
    next hset =>
      rw [if_neg hset]
      split at h
      · cases h
      next hunresolved =>
        rw [if_neg hunresolved]
        split at h
        · cases h
        next hrunning =>
          rw [if_neg hrunning]
          refine .inr ⟨Option.not_isSome_iff_eq_none.mp hset, by simpa using hunresolved,
            fun hstatus => ?_, rfl⟩
          simpa [hstatus] using hrunning

theorem reconcile_refused {liveSince now : Date}
    (h : (reconcile entries id liveSince now).1 ≠ .recorded) :
    (reconcile entries id liveSince now).2 = entries := by
  unfold reconcile at h ⊢
  split
  · rfl
  next entry hentry =>
    rw [hentry] at h
    dsimp only at h ⊢
    split
    · rfl
    next hset =>
      rw [if_neg hset] at h
      split
      · rfl
      next hunresolved =>
        rw [if_neg hunresolved] at h
        split
        · rfl
        next hrunning =>
          rw [if_neg hrunning] at h
          exact absurd rfl h

end Step

/-! ## What a run keeps -/

/-- The keys of the table, and what stands in it of the executions under way. -/
structure World.Orderly (w : World) : Prop where
  distinct : (w.entries.map (·.id)).Nodup
  drawn : ∀ entry ∈ w.entries, entry.id ≤ w.lastId
  /-- An execution under way is recorded as such, without an acknowledgement. -/
  running : ∀ id owner, (id, owner) ∈ w.running →
    ∃ entry, lookup (·.id) w.entries id = some entry ∧ entry.record.status = .running ∧
      entry.record.reconciledAt = none

theorem orderly_new : World.new.Orderly :=
  ⟨nodup_nil, fun _ hmem => absurd hmem not_mem_nil,
    fun _ _ hmem => absurd hmem not_mem_nil⟩

theorem not_recorded_of_running {w : World} {launch owner : Launch} {id : Nat} {now : Date}
    (h : w.Orderly) (hrunning : (id, owner) ∈ w.running)
    (hearly : ∀ entry, lookup (·.id) w.entries id = some entry → launch.startedAt ≤ entry.record.ts) :
    (reconcile w.entries id launch.startedAt now).1 ≠ .recorded := by
  intro hanswer
  obtain ⟨entry, hentry, hstatus, hnone⟩ := h.running id owner hrunning
  obtain ⟨entry', hentry', hcase⟩ := reconcile_recorded hanswer
  obtain rfl := Option.some.inj (hentry.symm.trans hentry')
  rcases hcase with ⟨hset, -⟩ | ⟨-, -, hlate, -⟩
  · rw [hnone] at hset
    cases hset
  · exact absurd (hlate hstatus) (Int.not_lt.mpr (hearly entry hentry))

variable {w w' : World}

theorem World.Orderly.amended {id : Nat} {change : HistoryRecord → HistoryRecord}
    (h : w.Orderly) (hentries : w'.entries = amend w.entries id change)
    (hlast : w'.lastId = w.lastId)
    (hrunning : ∀ pair ∈ w'.running, pair ∈ w.running ∧ pair.1 ≠ id) : w'.Orderly := by
  refine ⟨?_, fun entry hmem => ?_, fun other owner hmem => ?_⟩
  · rw [hentries, amend_ids]
    exact h.distinct
  · have hid : entry.id ∈ w'.entries.map (·.id) := mem_map_of_mem hmem
    rw [hentries, amend_ids] at hid
    obtain ⟨old, hold, heq⟩ := mem_map.mp hid
    rw [hlast, ← heq]
    exact h.drawn old hold
  · obtain ⟨hmem, hne⟩ := hrunning _ hmem
    obtain ⟨entry, hentry, hrest⟩ := h.running other owner hmem
    exact ⟨entry, by rw [hentries, lookup_amend, if_neg hne, hentry], hrest⟩

theorem World.Orderly.recorded {record : HistoryRecord} {launch : Launch}
    (h : w.Orderly) (hundated : record.reconciledAt = none)
    (hentries : w'.entries = w.entries ++ [⟨w.lastId + 1, record⟩])
    (hlast : w'.lastId = w.lastId + 1)
    (hrunning : w'.running = if record.status = .running then w.running ++ [(w.lastId + 1, launch)]
      else w.running) : w'.Orderly := by
  have hnew : ∀ entry ∈ w.entries, entry.id ≠ w.lastId + 1 :=
    fun entry hmem heq => absurd (h.drawn entry hmem) (by omega)
  have hlookup (id : Nat) : lookup (·.id) w'.entries id =
      if id = w.lastId + 1 then some ⟨w.lastId + 1, record⟩ else lookup (·.id) w.entries id := by
    rw [hentries]
    exact lookup_append _ hnew
  have hold {id : Nat} {owner : Launch} (hmem : (id, owner) ∈ w.running) : ∃ entry,
      lookup (·.id) w'.entries id = some entry ∧ entry.record.status = .running ∧
        entry.record.reconciledAt = none := by
    obtain ⟨entry, hentry, hrest⟩ := h.running id owner hmem
    have hne : id ≠ w.lastId + 1 := key_of_lookup hentry ▸ hnew entry (mem_of_lookup hentry)
    exact ⟨entry, by rw [hlookup, if_neg hne, hentry], hrest⟩
  refine ⟨?_, fun entry hmem => ?_, fun id owner hmem => ?_⟩
  · rw [hentries]
    exact nodup_append h.distinct hnew
  · rw [hentries] at hmem
    rw [hlast]
    rcases mem_append.mp hmem with hmem | hmem
    · exact Nat.le_succ_of_le (h.drawn entry hmem)
    · obtain rfl := mem_singleton.mp hmem
      exact Nat.le_refl (w.lastId + 1)
  · rw [hrunning] at hmem
    split at hmem
    next hstatus =>
      rcases mem_append.mp hmem with hmem | hmem
      · exact hold hmem
      · obtain ⟨rfl, rfl⟩ := Prod.mk.inj (mem_singleton.mp hmem)
        exact ⟨_, by rw [hlookup, if_pos rfl], hstatus, hundated⟩
    · exact hold hmem

theorem World.Orderly.step {event : HistoryEvent} (h : w.Orderly)
    (hclean : CleanStep w event w') : w'.Orderly := by
  obtain ⟨hstep, hundated, hearly⟩ := hclean
  cases hstep with
  | started => exact ⟨h.distinct, h.drawn, h.running⟩
  | recorded => exact h.recorded (hundated _ _ _ rfl) rfl rfl rfl
  | @finished id record =>
    have hentries : finish w.entries id record = amend w.entries id (·.finish record) := rfl
    refine h.amended hentries rfl fun pair hmem => ?_
    obtain ⟨hmem, hother⟩ := mem_filter.mp hmem
    exact ⟨hmem, of_decide_eq_true hother⟩
  | lost =>
    exact ⟨h.distinct, h.drawn, fun id owner hmem => h.running id owner (mem_of_mem_filter hmem)⟩
  | @reconciled launch id now hlive =>
    by_cases hanswer : (reconcile w.entries id launch.startedAt now).1 = .recorded
    · obtain ⟨entry, hentry, hcase⟩ := reconcile_recorded hanswer
      rcases hcase with ⟨-, hsame⟩ | ⟨-, -, -, hset⟩
      · rw [hsame]
        exact ⟨h.distinct, h.drawn, h.running⟩
      · refine h.amended hset rfl fun pair hmem => ⟨hmem, ?_⟩
        rintro rfl
        exact not_recorded_of_running h hmem (hearly _ _ _ _ rfl _ hmem) hanswer
    · rw [reconcile_refused hanswer]
      exact ⟨h.distinct, h.drawn, h.running⟩
  | ended =>
    exact ⟨h.distinct, h.drawn, fun id owner hmem => h.running id owner (mem_of_mem_filter hmem)⟩

def World.Acknowledged (w : World) (id : Nat) : Prop :=
  ∃ entry, lookup (·.id) w.entries id = some entry ∧ entry.record.reconciledAt.isSome = true

/-- An acknowledgement that succeeds. -/
def HistoryEvent.Reconciles (id : Nat) (event : HistoryEvent) : Prop :=
  ∃ launch now, event = .reconciled launch id now .recorded

def HistoryEvent.Finishes (id : Nat) (event : HistoryEvent) : Prop :=
  ∃ record, event = .finished id record

theorem acknowledged_step {event : HistoryEvent} (h : w.Orderly)
    (hclean : CleanStep w event w') (id : Nat) :
    w'.Acknowledged id ↔ event.Reconciles id ∨ (¬ event.Finishes id ∧ w.Acknowledged id) := by
  obtain ⟨hstep, hundated, -⟩ := hclean
  have hsame {w' : World} {event : HistoryEvent} (hentries : w'.entries = w.entries)
      (hnot : ¬ event.Reconciles id) (hnot' : ¬ event.Finishes id) :
      w'.Acknowledged id ↔ event.Reconciles id ∨ (¬ event.Finishes id ∧ w.Acknowledged id) := by
    unfold World.Acknowledged
    rw [hentries]
    exact ⟨fun hset => .inr ⟨hnot', hset⟩, fun hset => (hset.resolve_left hnot).2⟩
  cases hstep with
  | started => exact hsame rfl (fun ⟨_, _, heq⟩ => nomatch heq) fun ⟨_, heq⟩ => nomatch heq
  | @recorded launch record hlive hafter =>
    have hnot : ¬ HistoryEvent.Reconciles id (.recorded launch record (w.lastId + 1)) :=
      fun ⟨_, _, heq⟩ => nomatch heq
    have hnot' : ¬ HistoryEvent.Finishes id (.recorded launch record (w.lastId + 1)) :=
      fun ⟨_, heq⟩ => nomatch heq
    have hnew : ∀ entry ∈ w.entries, entry.id ≠ w.lastId + 1 :=
      fun entry hmem heq => absurd (h.drawn entry hmem) (by omega)
    have hlookup : lookup (·.id) (w.entries ++ [⟨w.lastId + 1, record⟩]) id =
        if id = w.lastId + 1 then some ⟨w.lastId + 1, record⟩
        else lookup (·.id) w.entries id := lookup_append _ hnew
    have hundated : record.reconciledAt = none := hundated _ _ _ rfl
    constructor
    · rintro ⟨entry, hentry, hset⟩
      rw [hlookup] at hentry
      split at hentry
      · obtain rfl := Option.some.inj hentry
        rw [hundated] at hset
        cases hset
      · exact .inr ⟨hnot', entry, hentry, hset⟩
    · intro hset
      obtain ⟨-, entry, hentry, hset⟩ := hset.resolve_left hnot
      have hne : id ≠ w.lastId + 1 := key_of_lookup hentry ▸ hnew entry (mem_of_lookup hentry)
      exact ⟨entry, by rw [hlookup, if_neg hne, hentry], hset⟩
  | @finished id' record =>
    have hnot : ¬ HistoryEvent.Reconciles id (.finished id' record) :=
      fun ⟨_, _, heq⟩ => nomatch heq
    have hlookup : lookup (·.id) (finish w.entries id' record) id =
        if id = id' then
          (lookup (·.id) w.entries id).map fun entry => ⟨entry.id, entry.record.finish record⟩
        else lookup (·.id) w.entries id := lookup_amend
    constructor
    · rintro ⟨entry, hentry, hset⟩
      rw [hlookup] at hentry
      split at hentry
      · obtain ⟨old, -, rfl⟩ := Option.map_eq_some_iff.mp hentry
        cases hset
      next hne =>
        refine .inr ⟨?_, entry, hentry, hset⟩
        rintro ⟨record', heq⟩
        cases heq
        exact hne rfl
    · intro hset
      obtain ⟨hother, entry, hentry, hset⟩ := hset.resolve_left hnot
      have hne : id ≠ id' := fun heq => hother ⟨record, heq ▸ rfl⟩
      exact ⟨entry, by rw [hlookup, if_neg hne, hentry], hset⟩
  | lost => exact hsame rfl (fun ⟨_, _, heq⟩ => nomatch heq) fun ⟨_, heq⟩ => nomatch heq
  | @reconciled launch id' now hlive =>
    have hnot (answer : Reconciliation) :
        ¬ HistoryEvent.Finishes id (.reconciled launch id' now answer) :=
      fun ⟨_, heq⟩ => nomatch heq
    by_cases hanswer : (reconcile w.entries id' launch.startedAt now).1 = .recorded
    · rw [hanswer]
      have hiff : HistoryEvent.Reconciles id (.reconciled launch id' now .recorded) ↔ id = id' :=
        ⟨fun ⟨_, _, heq⟩ => by cases heq; rfl, fun heq => ⟨launch, now, heq ▸ rfl⟩⟩
      rw [hiff]
      obtain ⟨entry, hentry, hcase⟩ := reconcile_recorded hanswer
      rcases hcase with ⟨hset, hentries⟩ | ⟨-, -, -, hentries⟩
      · show (∃ e, lookup (·.id) (reconcile w.entries id' launch.startedAt now).2 id = some e ∧ _) ↔ _
        rw [hentries]
        refine ⟨fun hack => .inr ⟨hnot _, hack⟩, fun hack => ?_⟩
        rcases hack with rfl | ⟨-, hack⟩
        · exact ⟨entry, hentry, hset⟩
        · exact hack
      · show (∃ e, lookup (·.id) (reconcile w.entries id' launch.startedAt now).2 id = some e ∧ _) ↔ _
        rw [hentries, lookup_amend]
        constructor
        · rintro ⟨other, hother, hset⟩
          split at hother
          next heq => exact .inl heq
          · exact .inr ⟨hnot _, other, hother, hset⟩
        · intro hack
          by_cases heq : id = id'
          · obtain rfl := heq
            rw [if_pos rfl, hentry]
            exact ⟨_, rfl, rfl⟩
          · rw [if_neg heq]
            exact (hack.resolve_left heq).2
    · refine hsame (reconcile_refused hanswer) ?_ (hnot _)
      rintro ⟨_, _, heq⟩
      exact hanswer (HistoryEvent.reconciled.inj heq).2.2.2
  | ended => exact hsame rfl (fun ⟨_, _, heq⟩ => nomatch heq) fun ⟨_, heq⟩ => nomatch heq

theorem orderly_of_run {tr : List HistoryEvent} (h : Steps CleanStep .new tr w) :
    w.Orderly := h.invariant (fun _ _ _ horderly hstep => horderly.step hstep) orderly_new

/-- An entry is acknowledged if it was since its outcome was last written, and only then. -/
theorem acknowledged_iff {tr : List HistoryEvent} (h : Steps CleanStep .new tr w)
    (id : Nat) :
    w.Acknowledged id ↔ Since (HistoryEvent.Reconciles id) (HistoryEvent.Finishes id) tr := by
  refine Steps.history (P := fun tr w => w.Orderly ∧ (w.Acknowledged id ↔
    Since (HistoryEvent.Reconciles id) (HistoryEvent.Finishes id) tr)) ?_ ?_ h |>.2
  · refine ⟨orderly_new, ?_, fun hsince => absurd hsince not_since_nil⟩
    rintro ⟨entry, hentry, -⟩
    cases hentry
  · rintro tr w event w' - ⟨horderly, hiff⟩ hstep
    refine ⟨horderly.step hstep, ?_⟩
    rw [acknowledged_step horderly hstep, since_snoc, hiff]

/-! ## Two launches on one file -/

def firstLaunch : Launch := ⟨0, 0⟩

def secondLaunch : Launch := ⟨1, 20⟩

def submitted : HistoryRecord := ⟨10, .write, .running, none, none, none, none, none, none⟩

/-- Its outcome: nobody knows. -/
def timedOut : HistoryRecord :=
  ⟨10, .write, .failed, none, none, none, some .ambiguous, none, none⟩

def begun : World := ⟨[], 0, [firstLaunch], []⟩

def written : World := ⟨[⟨1, submitted⟩], 1, [firstLaunch], [(1, firstLaunch)]⟩

def unknown : World := ⟨[⟨1, timedOut⟩], 1, [firstLaunch], []⟩

def both : World := ⟨[⟨1, submitted⟩], 1, [firstLaunch, secondLaunch], [(1, firstLaunch)]⟩

def silenced : World :=
  { both with entries := [⟨1, { submitted with reconciledAt := some 30 }⟩] }

theorem step_begun : HistoryStep .new (.started firstLaunch) begun := .started (by decide)

theorem step_written : HistoryStep begun (.recorded firstLaunch submitted 1) written :=
  .recorded (by decide) (by decide)

theorem step_unknown : HistoryStep written (.finished 1 timedOut) unknown := .finished

theorem step_both : HistoryStep written (.started secondLaunch) both := .started (by decide)

theorem step_silenced : HistoryStep both (.reconciled secondLaunch 1 30 .recorded) silenced :=
  .reconciled (by decide)

theorem run_unknown : Steps CleanStep .new
    ([] ++ [.started firstLaunch] ++ [.recorded firstLaunch submitted 1] ++
      [.finished 1 timedOut]) unknown := by
  have hbegun : CleanStep .new (.started firstLaunch) begun :=
    ⟨step_begun, (fun _ _ _ heq => nomatch heq), (fun _ _ _ _ heq => nomatch heq)⟩
  have hwritten : CleanStep begun (.recorded firstLaunch submitted 1) written :=
    ⟨step_written, fun _ _ _ heq => (HistoryEvent.recorded.inj heq).2.1 ▸ rfl,
      (fun _ _ _ _ heq => nomatch heq)⟩
  have hunknown : CleanStep written (.finished 1 timedOut) unknown :=
    ⟨step_unknown, (fun _ _ _ heq => nomatch heq), (fun _ _ _ _ heq => nomatch heq)⟩
  exact ((Steps.nil.snoc hbegun).snoc hwritten).snoc hunknown

/-- An unresolved entry is reported, unless it was acknowledged since its outcome was written; no
execution under way is acknowledged; and an ambiguous outcome is reported whatever was acknowledged
before. -/
theorem warning_kept_until_acknowledged {tr : List HistoryEvent} {w : World}
    (h : Steps CleanStep .new tr w) :
    (∀ entry ∈ w.entries, entry.record.unresolved = true →
      (entry.record.requiresReconciliation = true ∧
          anyRequiresReconciliation w.entries = true) ∨
        Since (HistoryEvent.Reconciles entry.id) (HistoryEvent.Finishes entry.id) tr) ∧
    (∀ launch id now w', CleanStep w (.reconciled launch id now .recorded) w' →
      ∀ owner, (id, owner) ∉ w.running) ∧
    (∀ id record w', HistoryStep w (.finished id record) w' →
      record.errorClass = some .ambiguous →
        ∀ entry ∈ w'.entries, entry.id = id → entry.record.requiresReconciliation = true) := by
  have horderly := orderly_of_run h
  refine ⟨fun entry hmem hunresolved => ?_, ?_, ?_⟩
  · cases hset : entry.record.reconciledAt with
    | none =>
      have hreported : entry.record.requiresReconciliation = true := by
        rw [HistoryRecord.requiresReconciliation, hset, hunresolved]
        rfl
      exact .inl ⟨hreported, anyRequiresReconciliation_iff.mpr ⟨entry, hmem, hreported⟩⟩
    | some date =>
      refine .inr ((acknowledged_iff h entry.id).mp ⟨entry, lookup_of_mem horderly.distinct hmem, ?_⟩)
      rw [hset]
      rfl
  · rintro launch id now w' ⟨hstep, -, hearly⟩ owner hrunning
    have hnot : (reconcile w.entries id launch.startedAt now).1 ≠ .recorded :=
      not_recorded_of_running horderly hrunning (hearly launch id now .recorded rfl owner hrunning)
    generalize hevent : HistoryEvent.reconciled launch id now .recorded = event at hstep
    cases hstep with
    | reconciled hlive =>
      obtain ⟨rfl, rfl, rfl, hanswer⟩ := HistoryEvent.reconciled.inj hevent
      exact hnot hanswer.symm
    | started => cases hevent
    | recorded => cases hevent
    | finished => cases hevent
    | lost => cases hevent
    | ended => cases hevent
  · intro id record w' hstep hambiguous entry hmem hid
    cases hstep with
    | finished =>
      obtain ⟨old, -, heq⟩ := mem_map.mp hmem
      split at heq
      · obtain rfl := heq
        simp [HistoryRecord.requiresReconciliation, HistoryRecord.unresolved,
          HistoryRecord.finish, History.requiresReconciliation, hambiguous]
      next hne =>
        obtain rfl := heq
        exact absurd hid hne

theorem unknown_outcome_is_reported :
    (∀ entry ∈ unknown.entries, entry.record.unresolved = true →
      (entry.record.requiresReconciliation = true ∧
          anyRequiresReconciliation unknown.entries = true) ∨
        Since (HistoryEvent.Reconciles entry.id) (HistoryEvent.Finishes entry.id)
          ([] ++ [.started firstLaunch] ++ [.recorded firstLaunch submitted 1] ++
            [.finished 1 timedOut])) ∧
    (∀ launch id now w', CleanStep unknown (.reconciled launch id now .recorded) w' →
      ∀ owner, (id, owner) ∉ unknown.running) ∧
    (∀ id record w', HistoryStep unknown (.finished id record) w' →
      record.errorClass = some .ambiguous →
        ∀ entry ∈ w'.entries, entry.id = id → entry.record.requiresReconciliation = true) :=
  warning_kept_until_acknowledged run_unknown

/-- The write is under way in the first launch, and the second, which began later, acknowledges
it. -/
theorem acknowledged_while_running :
    ¬ ∀ (tr : List HistoryEvent) (w w' : World) (launch : Launch) (id : Nat) (now : Date),
      Steps HistoryStep .new tr w → HistoryStep w (.reconciled launch id now .recorded) w' →
      ∀ owner, (id, owner) ∉ w.running := by
  intro h
  have hrun := ((Steps.nil.snoc step_begun).snoc step_written).snoc step_both
  exact h _ both silenced secondLaunch 1 30 hrun step_silenced firstLaunch (by decide)

end Oxyn.History
