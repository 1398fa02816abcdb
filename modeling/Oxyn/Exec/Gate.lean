/-
# `Oxyn.Exec.Gate` — what an executed request went through

In every run, whatever interleaves with a task, each call a session receives was made
by a task the gate answered: the command the task holds is the command that was judged,
and what it was bounded by is what the registries held (`Readings`).  The moments follow one
another: the event that created the task, each of its reads, the gate's answer, the call.
The proof goes task by task: `StageHolds` says what a stage stands for, one read of the
registries keeps it (`StageHolds.next`), and a run does (`sound_of_run`).

Two things the session receives were not judged as they are, by design: a preview names a
relation, the gate judges the command, and the driver composes the request; and a marking
that lands behind the answer is not seen by the call.
-/
import Oxyn.Exec.Executor
import Oxyn.Query.ReadOnly

open Runs

namespace Oxyn

open List

open Text

/-! ## Where a task comes from -/

/-- The event that created the task `i`, and the command it was given. -/
def Task.CreatedIn (t : Task) (i : Nat) (given : Command) (tr : List Event) : Prop :=
  match t.approved with
  | none => ∃ before after, tr = before ++ .dispatch t.id t.actor given :: after ∧
      before.countP Event.creates = i
  | some e => ∃ before now after, tr = before ++ .approve now e :: after ∧
      before.countP Event.creates = i ∧ t.id = e.id ∧ t.actor = e.actor ∧ given = e.command

theorem Task.CreatedIn.snoc {t : Task} {i : Nat} {given : Command} {tr : List Event}
    (h : t.CreatedIn i given tr) (ev : Event) : t.CreatedIn i given (tr ++ [ev]) := by
  unfold CreatedIn at h ⊢
  split at h
  · obtain ⟨before, after, rfl, hi⟩ := h
    exact ⟨before, after ++ [ev], by rw [append_assoc, cons_append], hi⟩
  · obtain ⟨before, now, after, rfl, hi⟩ := h
    exact ⟨before, now, after ++ [ev], by rw [append_assoc, cons_append], hi⟩

/-! ## What a task has read -/

namespace Executor

variable (exec : Executor)

abbrev Behind (Q : List Event → Prop) (P : State → Prop) (tr : List Event) : Prop :=
  Runs.Behind exec.Step State.initial Q P tr

section Readings

variable (i : Nat) (t : Task) (command : Command) (env retained : Environment)

/-- A task that was dispatched reads its command off the text; one that was approved takes
the command that waited. -/
def Prepares : List Event → Prop := fun tr =>
  ∃ given, exec.Behind (t.CreatedIn i given) (fun u =>
    match t.approved with
    | none => ∃ driver, reclassified exec.reader given (driverFor u.sessions driver given) = command
    | some _ => given = command) tr

def ReadsEnvironment : List Event → Prop :=
  exec.Behind (exec.Prepares i t command) fun u => environmentOf u.connections command = env

def ReadsRetained : List Event → Prop :=
  exec.Behind (exec.ReadsEnvironment i t command env) fun u =>
    retainedEnvironment u.policy command env = retained

def ReadsMark (announced : Bool) : List Event → Prop :=
  exec.Behind (exec.ReadsRetained i t command env retained) fun u =>
    markedReadOnly u.connections command = announced

def ReadsReadOnly (readOnly : Bool) : List Event → Prop := fun tr =>
  ∃ announced, exec.Behind (exec.ReadsMark i t command env retained announced) (fun u =>
    retainedReadOnly u.policy command announced = readOnly) tr

/-- All a task reads before the gate answers, one after the other, behind the event that created the
task. -/
structure Readings (readOnly : Bool) (tr : List Event) : Prop where
  prepared : Prepared exec.reader command
  reads : exec.ReadsReadOnly i t command env retained readOnly tr
  bounds : t.command = boundedTo exec.reader command retained readOnly

/-- The gate answers once all is read. -/
def Judged (readOnly : Bool) (decision : Decision) : List Event → Prop :=
  exec.Behind (exec.Readings i t command env retained readOnly) fun u =>
    authorize u.policy t.actor t.command env = decision

end Readings

/-- What the stage of the task `i` stands for. -/
def StageHolds (tr : List Event) (i : Nat) (t : Task) : Prop :=
  match t.stage with
  | .received => t.approved = none ∧ t.CreatedIn i t.command tr
  | .reclassified => Prepared exec.reader t.command ∧ exec.Prepares i t t.command tr
  | .announced env =>
    Prepared exec.reader t.command ∧ exec.ReadsEnvironment i t t.command env tr
  | .retained env retained =>
    Prepared exec.reader t.command ∧ exec.ReadsRetained i t t.command env retained tr
  | .marked env retained announced =>
    Prepared exec.reader t.command ∧ exec.ReadsMark i t t.command env retained announced tr
  | .bounded env retained readOnly =>
    ∃ command, exec.Readings i t command env retained readOnly tr
  | .decided env retained readOnly decision =>
    ∃ command, exec.Judged i t command env retained readOnly decision tr
  | .finished => True

end Executor

namespace Executor

variable {exec : Executor}

variable {tr : List Event}

variable {s : State}

variable {i : Nat} {t : Task}

theorem StageHolds.snoc (h : exec.StageHolds tr i t) (ev : Event) :
    exec.StageHolds (tr ++ [ev]) i t := by
  unfold StageHolds at h ⊢
  split at h
  · exact ⟨h.1, h.2.snoc ev⟩
  · obtain ⟨hprepared, given, hgiven⟩ := h
    exact ⟨hprepared, given, hgiven.snoc ev⟩
  · exact ⟨h.1, h.2.snoc ev⟩
  · exact ⟨h.1, h.2.snoc ev⟩
  · exact ⟨h.1, h.2.snoc ev⟩
  · obtain ⟨command, hprepared, ⟨announced, hreads⟩, hbounds⟩ := h
    exact ⟨command, hprepared, ⟨announced, hreads.snoc ev⟩, hbounds⟩
  · obtain ⟨command, hjudged⟩ := h
    exact ⟨command, hjudged.snoc ev⟩
  · trivial

variable {driver : Driver}

/-- One read of the shared registries keeps what the stage stands for: it comes after all
the task has read so far. -/
theorem StageHolds.next {t' : Task} (hrun : exec.Run tr s)
    (h : exec.StageHolds tr i t) (hnext : exec.next s driver t = some t') :
    exec.StageHolds tr i t' := by
  unfold StageHolds at h
  unfold Executor.next at hnext
  split at hnext
  · next hstage =>
    rw [hstage] at h
    obtain rfl := Option.some.inj hnext
    obtain ⟨hnone, hcreated⟩ := h
    refine ⟨prepared_reclassified .., t.command, hrun.behind hcreated ?_⟩
    simp only [hnone]
    exact ⟨driver, rfl⟩
  · next hstage =>
    rw [hstage] at h
    obtain rfl := Option.some.inj hnext
    exact ⟨h.1, hrun.behind h.2 rfl⟩
  · next env hstage =>
    rw [hstage] at h
    obtain rfl := Option.some.inj hnext
    exact ⟨h.1, hrun.behind h.2 rfl⟩
  · next env retained hstage =>
    rw [hstage] at h
    obtain rfl := Option.some.inj hnext
    exact ⟨h.1, hrun.behind h.2 rfl⟩
  · next env retained announced hstage =>
    rw [hstage] at h
    obtain rfl := Option.some.inj hnext
    exact ⟨t.command, h.1, ⟨announced, hrun.behind h.2 rfl⟩, rfl⟩
  · next env retained readOnly hstage =>
    rw [hstage] at h
    obtain rfl := Option.some.inj hnext
    obtain ⟨command, hreadings⟩ := h
    exact ⟨command, hrun.behind ⟨hreadings.prepared, hreadings.reads, hreadings.bounds⟩ rfl⟩
  · simp at hnext
  · simp at hnext

theorem createdIn_next {t' : Task} {given : Command}
    (h : t.CreatedIn i given tr) (hnext : exec.next s driver t = some t') :
    t'.CreatedIn i given tr := by
  unfold Executor.next at hnext
  split at hnext <;> cases hnext <;> exact h

/-! ## What a step does -/

variable {ev : Event}

theorem tasks_of_step {s s' : State} (h : exec.Step s ev s') :
    (s'.tasks = s.tasks ∧ ev.creates = false) ∨
      (∃ id actor command, ev = .dispatch id actor command ∧
        s'.tasks = s.tasks ++ [⟨id, actor, command, none, .received⟩]) ∨
      (∃ now e q, ev = .approve now e ∧ exec.approvals.Step s.approvals (takeCall now e) q ∧
        s'.tasks = s.tasks ++ [⟨e.id, e.actor, e.command, some e, .reclassified⟩]) ∨
      (∃ i t t', ev.creates = false ∧ s.tasks[i]? = some t ∧ s'.tasks = s.tasks.set i t' ∧
        ((∃ driver, exec.next s driver t = some t') ∨ t' = { t with stage := .finished })) := by
  cases h with
  | markPolicy | markExecutor | setSession | approvals => exact .inl ⟨rfl, rfl⟩
  | dispatch id actor command => exact .inr (.inl ⟨id, actor, command, rfl, rfl⟩)
  | approve hq => exact .inr (.inr (.inl ⟨_, _, _, rfl, hq, rfl⟩))
  | advance ht hnext => exact .inr (.inr (.inr ⟨_, _, _, rfl, ht, rfl, .inl ⟨_, hnext⟩⟩))
  | submit ht _ _ _ _ | execute ht _ _
  | drop ht => exact .inr (.inr (.inr ⟨_, _, _, rfl, ht, rfl, .inr rfl⟩))

theorem approvals_of_step {s s' : State} (h : exec.Step s ev s') :
    Steps exec.approvals.Step s.approvals ev.calls s'.approvals := by
  cases h with
  | approvals _ hq | approve hq | submit _ _ _ _ hq => exact Steps.nil.snoc hq
  | markPolicy | markExecutor | setSession | dispatch | advance | execute | drop => exact .nil

theorem approvals_run (h : exec.Run tr s) :
    exec.approvals.Run (tr.flatMap Event.calls) s.approvals := by
  induction h with
  | nil => exact .nil
  | snoc _ hstep ih =>
    rw [flatMap_append, flatMap_singleton]
    exact ih.trans (approvals_of_step hstep)

/-! ## The run of a task -/

/-- What a run says of its tasks. -/
structure Sound (exec : Executor) (tr : List Event) (s : State) : Prop where
  created : ∀ i t, s.tasks[i]? = some t →
    (∃ given, t.CreatedIn i given tr) ∧ exec.StageHolds tr i t
  count : s.tasks.length = tr.countP Event.creates
  /-- What waits for an approval was reclassified. -/
  submitted : ∀ c ∈ tr.flatMap Event.calls, ∀ e, c.Submits exec.approvals e →
    Prepared exec.reader e.command

theorem Sound.prepared_of_taken {now : Nat} {e : PendingCommand}
    {q : Queue} (h : Sound exec tr s) (hrun : exec.Run tr s)
    (htake : exec.approvals.Step s.approvals (takeCall now e) q) :
    Prepared exec.reader e.command := by
  have hcalls := (approvals_run hrun).snoc htake
  have htr : tr.flatMap Event.calls ++ [takeCall now e] =
      tr.flatMap Event.calls ++ ⟨.take now e.id, .request (.ok e)⟩ :: [] := rfl
  obtain ⟨-, -, hsince⟩ := since_of_taken hcalls htr
  obtain ⟨c, hc, hsubmits⟩ := hsince.exists_mem
  exact h.submitted c hc e hsubmits

theorem Sound.submitted_of_step {s s' : State} (h : Sound exec tr s) (hstep : exec.Step s ev s') :
    ∀ c ∈ ev.calls, ∀ e, c.Submits exec.approvals e → Prepared exec.reader e.command := by
  intro c hc e hsubmits
  cases hstep with
  | approvals hnot _ =>
    obtain rfl := mem_singleton.mp hc
    exact absurd hsubmits (hnot e)
  | approve _ =>
    obtain rfl := mem_singleton.mp hc
    obtain ⟨⟨order, hop⟩, -⟩ := hsubmits
    cases hop
  | submit ht _ hstage hop _ =>
    obtain rfl := mem_singleton.mp hc
    obtain ⟨⟨order, hop'⟩, -⟩ := hsubmits
    rw [hop] at hop'
    injection hop' with _ _ _ _ hcommand
    have hholds := (h.created _ _ ht).2
    unfold StageHolds at hholds
    rw [hstage] at hholds
    obtain ⟨command, _, _, _, -, hreadings, -, -⟩ := hholds
    rw [← hcommand, hreadings.bounds]
    exact prepared_boundedTo _ hreadings.prepared _ _
  | markPolicy | markExecutor | setSession | dispatch | advance | execute | drop =>
    simp [Event.calls] at hc

theorem Sound.step {s s' : State} (h : Sound exec tr s)
    (hrun : exec.Run tr s) (hstep : exec.Step s ev s') : Sound exec (tr ++ [ev]) s' := by
  have hold : ∀ i t, s.tasks[i]? = some t →
      (∃ given, t.CreatedIn i given (tr ++ [ev])) ∧ exec.StageHolds (tr ++ [ev]) i t := by
    intro i t ht
    obtain ⟨⟨given, hcreated⟩, hholds⟩ := h.created i t ht
    exact ⟨⟨given, hcreated.snoc ev⟩, hholds.snoc ev⟩
  -- a task that is new stands behind the others
  have hnew : ∀ t : Task, ev.creates = true → s'.tasks = s.tasks ++ [t] →
      t.CreatedIn s.tasks.length t.command (tr ++ [ev]) →
      exec.StageHolds (tr ++ [ev]) s.tasks.length t →
      (∀ i t', s'.tasks[i]? = some t' →
        (∃ given, t'.CreatedIn i given (tr ++ [ev])) ∧ exec.StageHolds (tr ++ [ev]) i t') ∧
      s'.tasks.length = (tr ++ [ev]).countP Event.creates := by
    intro t hev htasks hcreated hholds
    refine ⟨fun i t' ht' => ?_, ?_⟩
    · rw [htasks] at ht'
      rcases Nat.lt_or_ge i s.tasks.length with hlt | hge
      · rw [getElem?_append_left hlt] at ht'
        exact hold i t' ht'
      · rw [getElem?_append_right hge] at ht'
        obtain ⟨hi, rfl⟩ : i - s.tasks.length = 0 ∧ t = t' := by
          rw [getElem?_singleton] at ht'
          split at ht'
          · next h0 => exact ⟨h0, Option.some.inj ht'⟩
          · simp at ht'
        obtain rfl : i = s.tasks.length := by omega
        exact ⟨⟨_, hcreated⟩, hholds⟩
    · simp [htasks, h.count, hev]
  have hsubmitted : ∀ c ∈ (tr ++ [ev]).flatMap Event.calls, ∀ e, c.Submits exec.approvals e →
      Prepared exec.reader e.command := by
    intro c hc
    rw [flatMap_append, flatMap_singleton] at hc
    rcases mem_append.mp hc with hc | hc
    · exact h.submitted c hc
    · exact h.submitted_of_step hstep c hc
  rcases tasks_of_step hstep with ⟨htasks, hev⟩ | ⟨id, actor, command, rfl, htasks⟩ |
    ⟨now, e, q, rfl, hq, htasks⟩ | ⟨i, t, t', hev, ht, htasks, hmoved⟩
  · refine ⟨by rw [htasks]; exact hold, ?_, hsubmitted⟩
    simp [htasks, h.count, hev]
  · have hdispatched : (⟨id, actor, command, none, .received⟩ : Task).CreatedIn s.tasks.length
        command (tr ++ [.dispatch id actor command]) := ⟨tr, [], rfl, h.count.symm⟩
    obtain ⟨hcreated, hcount⟩ := hnew _ rfl htasks hdispatched ⟨rfl, hdispatched⟩
    exact ⟨hcreated, hcount, hsubmitted⟩
  · have happroved : (⟨e.id, e.actor, e.command, some e, .reclassified⟩ : Task).CreatedIn
        s.tasks.length e.command (tr ++ [.approve now e]) :=
      ⟨tr, now, [], rfl, h.count.symm, rfl, rfl, rfl⟩
    obtain ⟨hcreated, hcount⟩ := hnew _ rfl htasks happroved
      ⟨h.prepared_of_taken hrun hq, e.command, (hrun.snoc hstep).behind happroved rfl⟩
    exact ⟨hcreated, hcount, hsubmitted⟩
  · refine ⟨fun j u hu => ?_, ?_, hsubmitted⟩
    · rw [htasks, getElem?_set] at hu
      split at hu
      · next hij =>
        subst hij
        split at hu
        · obtain rfl := Option.some.inj hu
          obtain ⟨⟨given, hcreated⟩, hholds⟩ := h.created _ _ ht
          rcases hmoved with ⟨driver, hnext⟩ | rfl
          · exact ⟨⟨given, (createdIn_next hcreated hnext).snoc ev⟩,
              (hholds.next hrun hnext).snoc ev⟩
          · have hfinished : ({ t with stage := .finished } : Task).CreatedIn i given tr := hcreated
            exact ⟨⟨given, hfinished.snoc ev⟩, trivial⟩
        · simp at hu
      · exact hold j u hu
    · simp [htasks, h.count, hev]

theorem sound_of_run (h : exec.Run tr s) : Sound exec tr s := by
  induction h with
  | nil => exact ⟨by simp [State.initial], rfl, by simp⟩
  | snoc hrun hstep ih => exact ih.step hrun hstep

/-! ## The calls to sessions -/

theorem finished_of_step {s s' : State} (h : exec.Step s ev s') {i : Nat}
    (hi : ∃ t, s.tasks[i]? = some t ∧ t.stage = .finished) :
    ∃ t, s'.tasks[i]? = some t ∧ t.stage = .finished := by
  obtain ⟨t, ht, hstage⟩ := hi
  have hlt : i < s.tasks.length := (List.getElem?_eq_some_iff.mp ht).1
  rcases tasks_of_step h with ⟨htasks, -⟩ | ⟨id, actor, command, -, htasks⟩ |
    ⟨now, e, q, -, -, htasks⟩ | ⟨j, u, u', -, hu, htasks, hmoved⟩
  · exact ⟨t, htasks ▸ ht, hstage⟩
  · exact ⟨t, by rw [htasks, getElem?_append_left hlt, ht], hstage⟩
  · exact ⟨t, by rw [htasks, getElem?_append_left hlt, ht], hstage⟩
  · by_cases hij : j = i
    · subst hij
      obtain rfl := Option.some.inj (ht.symm.trans hu)
      refine ⟨u', by rw [htasks, getElem?_set_self hlt], ?_⟩
      rcases hmoved with ⟨driver, hnext⟩ | rfl
      · simp [Executor.next, hstage] at hnext
      · rfl
    · exact ⟨t, by rw [htasks, getElem?_set_ne hij, ht], hstage⟩

/-- What held of a call when it was made. -/
structure CallHolds (exec : Executor) (before : List Event) (driver : Driver)
    (call : ExecuteCall) : Prop where
  created : ∃ given, call.caller.CreatedIn call.task given before
  holds : exec.StageHolds before call.task call.caller
  mayRun : call.caller.MayRun
  executed : ∃ u, exec.Run before u ∧ executeCommand exec.reader u.sessions driver
    call.caller.command = .ok (some (call.connection, call.session, call.request))

/-- What a run says of the calls: one for each task at most, made by a task the gate
answered. -/
structure CallsHold (exec : Executor) (tr : List Event) (s : State) : Prop where
  holds : ∀ call ∈ s.calls, ∃ before driver after,
    tr = before ++ .execute call.task driver :: after ∧ CallHolds exec before driver call
  finished : ∀ call ∈ s.calls, ∃ t, s.tasks[call.task]? = some t ∧ t.stage = .finished
  apart : s.calls.Pairwise fun a b => a.task ≠ b.task

variable {call : ExecuteCall}

theorem CallsHold.step {s s' : State} (h : CallsHold exec tr s)
    (hrun : exec.Run tr s) (hstep : exec.Step s ev s') : CallsHold exec (tr ++ [ev]) s' := by
  have hold : ∀ call ∈ s.calls, ∃ before driver after,
      tr ++ [ev] = before ++ .execute call.task driver :: after ∧
        CallHolds exec before driver call := by
    intro call hc
    obtain ⟨before, driver, after, htr, hholds⟩ := h.holds call hc
    exact ⟨before, driver, after ++ [ev], by rw [htr, append_assoc, cons_append], hholds⟩
  have hsame : s'.calls = s.calls → CallsHold exec (tr ++ [ev]) s' := by
    intro hcalls
    refine ⟨fun call hc => ?_, fun call hc => ?_, hcalls ▸ h.apart⟩
    · exact hold call (hcalls ▸ hc)
    · exact finished_of_step hstep (h.finished call (hcalls ▸ hc))
  have hstep' := hstep
  cases hstep with
  | @execute i t driver c session r ht hmay hexec =>
    have hlt : i < s.tasks.length := (List.getElem?_eq_some_iff.mp ht).1
    have hsound := (sound_of_run hrun).created i t ht
    refine ⟨fun call hc => ?_, fun call hc => ?_, ?_⟩
    · rcases mem_append.mp hc with hc | hc
      · exact hold call hc
      · obtain rfl := mem_singleton.mp hc
        exact ⟨tr, driver, [], rfl, hsound.1, hsound.2, hmay, _, hrun, hexec⟩
    · rcases mem_append.mp hc with hc | hc
      · exact finished_of_step hstep' (h.finished call hc)
      · obtain rfl := mem_singleton.mp hc
        exact ⟨_, getElem?_set_self hlt, rfl⟩
    · refine pairwise_append.mpr ⟨h.apart, pairwise_singleton _ _, ?_⟩
      intro a ha b hb
      obtain rfl := mem_singleton.mp hb
      -- the caller of an earlier call is over, this one is not
      rintro rfl
      obtain ⟨u, hu, hfinished⟩ := h.finished a ha
      obtain ⟨env, retained, readOnly, decision, hstage, -⟩ := hmay
      obtain rfl := Option.some.inj (ht.symm.trans hu)
      rw [hstage] at hfinished
      cases hfinished
  | markPolicy | markExecutor | setSession | approvals | dispatch | approve | advance | submit
  | drop => exact hsame rfl

theorem callsHold_of_run (h : exec.Run tr s) :
    CallsHold exec tr s := by
  induction h with
  | nil => exact ⟨by simp [State.initial], by simp [State.initial], .nil⟩
  | snoc hrun hstep ih => exact ih.step hrun hstep

/-! ## Nothing past the gate -/

/-- How a task was cleared to run: the gate allowed its command, or the user approved it: the event
that created the task took from the queue, unexpired, a request that was submitted as it is and
removed by nothing since. -/
inductive Cleared (exec : Executor) (before : List Event) (call : ExecuteCall)
    (decision : Decision) : Prop
  | allowed : call.caller.approved = none → decision = .allow → Cleared exec before call decision
  | approved {past since : List Event} {now : Nat} {e : PendingCommand} :
      call.caller.approved = some e → before = past ++ .approve now e :: since →
      past.countP Event.creates = call.task → now < e.expiresAt →
      Since (fun c => c.Submits exec.approvals e) (fun c => c.op.Removes e.id)
        (past.flatMap Event.calls) →
      decision.isDenied = false → Cleared exec before call decision

/-- Which request a session receives: the one of the command that was judged, or the one
its driver composed for a preview, which modifies nothing and is bounded. -/
inductive Receives (exec : Executor) (call : ExecuteCall) : Prop
  | judged : call.caller.command = .execute call.connection call.session call.request →
      Receives exec call
  | preview {catalog schema : Option Str} {relation : Str} {limit : Nat} {shape : PreviewShape}
      {driver : Driver} {composed : ExecRequest} {limits : ExecLimits} :
      call.caller.command = .previewRelation call.connection call.session catalog schema relation
        limit shape →
      call.request = { reclassifiedRequest exec.reader composed (some driver) with
        limits := limits } →
      call.request.isMutating = false → call.request.limits.readOnly = true → Receives exec call

structure Gated (exec : Executor) (before : List Event) (call : ExecuteCall)
    (command : Command) (env retained : Environment) (readOnly : Bool) (decision : Decision) :
    Prop where
  /-- The gate answered once the task had read all it reads, itself after the event that
  created the task.  When it answered on a mutation, the connection was known to it as
  writable, and to an agent it was not production. -/
  judged : exec.Behind (exec.Readings call.task call.caller command env retained readOnly)
    (fun u => authorize u.policy call.caller.actor call.caller.command env = decision ∧
      (call.request.isMutating = true →
        (call.caller.actor.isAgent = true →
          retainedEnvironment u.policy call.caller.command env ≠ .production) ∧
        ∃ f, u.policy call.connection = some f ∧ f.readOnly = false)) before
  cleared : Cleared exec before call decision
  receives : Receives exec call
  /-- A read leaves bounded, unless its text is made of transaction verbs. -/
  bounded : call.request.isMutating = false → retained = .production ∨ readOnly = true →
    call.request.limits.readOnly = true ∨
      (call.request.transactionControl = true ∧
        call.request.onlyControlsTransactions exec.reader = true)

theorem not_isDenied_of_cleared {decision : Decision}
    (h : Cleared exec tr call decision) : decision.isDenied = false := by
  cases h with
  | allowed _ hallow => rw [hallow]; rfl
  | approved _ _ _ _ _ hdenied => exact hdenied

theorem cleared_of_created (hrun : exec.Run tr s) {decision : Decision} {given : Command}
    (hcreated : call.caller.CreatedIn call.task given tr)
    (hmay : (call.caller.approved = none ∧ decision = .allow) ∨
      (call.caller.approved.isSome = true ∧ decision.isDenied = false)) :
    Cleared exec tr call decision := by
  rcases hmay with ⟨hnone, hallow⟩ | ⟨hsome, hdenied⟩
  · exact .allowed hnone hallow
  · obtain ⟨e, he⟩ := Option.isSome_iff_exists.mp hsome
    unfold Task.CreatedIn at hcreated
    simp only [he] at hcreated
    obtain ⟨past, now, since, rfl, hi, -⟩ := hcreated
    have hcalls := approvals_run hrun
    rw [flatMap_append, flatMap_cons] at hcalls
    obtain ⟨hnow, -, hsince⟩ := since_of_taken hcalls rfl
    exact .approved he rfl hi hnow hsince hdenied

theorem CallHolds.gated {before : List Event} (h : CallHolds exec before driver call) :
    ∃ command env retained readOnly decision,
      Gated exec before call command env retained readOnly decision := by
  obtain ⟨⟨given, hcreated⟩, hholds, ⟨env, retained, readOnly, decision, hstage, hmay⟩, u, hrun,
    hexec⟩ := h
  unfold StageHolds at hholds
  rw [hstage] at hholds
  obtain ⟨command, hjudged⟩ := hholds
  have hcleared := cleared_of_created hrun hcreated hmay
  have hdenied := not_isDenied_of_cleared hcleared
  refine ⟨command, env, retained, readOnly, decision, ?_⟩
  rcases executeCommand_eq_some exec.reader hexec with ⟨hcommand, hbarrier⟩ |
    ⟨catalog, schema, relation, limit, shape, hcommand, hmutating, hreadOnly, composed, limits, hr⟩
  · refine ⟨?_, hcleared, .judged hcommand, fun hread hbound => ?_⟩
    · refine hjudged.imp fun u hu => ⟨hu, fun hmutating => ?_⟩
      refine open_of_not_isDenied (hu ▸ hdenied) ?_ (by rw [hcommand]; rfl) (by rw [hcommand]; rfl)
      rw [hcommand]
      exact hmutating
    · obtain ⟨_, _, _, -, hreadings, -, -⟩ := hjudged
      by_cases hverbs : call.request.isBoundedRead exec.reader = true
      · exact .inl
          (readOnly_of_boundedTo exec.reader (hreadings.bounds ▸ hcommand) hbound hverbs)
      · refine .inr ?_
        simpa [ExecRequest.isBoundedRead, hread] using hverbs
  · exact ⟨hjudged.imp fun u hu => ⟨hu, fun h => by simp [hmutating] at h⟩, hcleared,
      .preview hcommand hr hmutating hreadOnly, fun _ _ => .inl hreadOnly⟩

/-! ## A command the gate allows -/

theorem advance_last {t : Task} (t' : Task)
    (h : exec.Run tr { s with tasks := s.tasks ++ [t] }) (driver : Driver)
    (hnext : exec.next s driver t = some t') :
    exec.Run (tr ++ [.advance s.tasks.length driver]) { s with tasks := s.tasks ++ [t'] } := by
  have hstep : exec.Step { s with tasks := s.tasks ++ [t] } (.advance s.tasks.length driver)
      (State.setTask { s with tasks := s.tasks ++ [t] } s.tasks.length t') :=
    .advance (by simp) hnext
  have hset : State.setTask { s with tasks := s.tasks ++ [t] } s.tasks.length t' =
      { s with tasks := s.tasks ++ [t'] } := by
    simp [State.setTask]
  exact h.snoc (hset ▸ hstep)

/-- The task created last reads all it reads as things stand, and the gate answers. -/
theorem decide_last {id : CommandId} {actor : Actor} {approved : Option PendingCommand}
    {prepared bounded : Command} {env retained : Environment} {readOnly : Bool}
    {decision : Decision} (driver : Driver)
    (h : exec.Run tr { s with
      tasks := s.tasks ++ [⟨id, actor, prepared, approved, .reclassified⟩] })
    (henv : environmentOf s.connections prepared = env)
    (hretained : retainedEnvironment s.policy prepared env = retained)
    (hreadOnly : retainedReadOnly s.policy prepared (markedReadOnly s.connections prepared) =
      readOnly)
    (hbounded : boundedTo exec.reader prepared retained readOnly = bounded)
    (hdecision : authorize s.policy actor bounded env = decision) :
    ∃ tr', exec.Run (tr ++ tr') { s with
      tasks := s.tasks ++
        [⟨id, actor, bounded, approved, .decided env retained readOnly decision⟩] } := by
  have reads : ∀ {tr command command' stage stage'},
      exec.Run tr { s with tasks := s.tasks ++ [⟨id, actor, command, approved, stage⟩] } →
      exec.next s driver ⟨id, actor, command, approved, stage⟩ =
        some ⟨id, actor, command', approved, stage'⟩ →
      exec.Run (tr ++ [.advance s.tasks.length driver])
        { s with tasks := s.tasks ++ [⟨id, actor, command', approved, stage'⟩] } :=
    fun h hnext => advance_last _ h driver hnext
  have h₁ := reads h (congrArg some (by rw [henv]))
  have h₂ := reads h₁ (congrArg some (by rw [hretained]))
  have h₃ := reads h₂ (congrArg some rfl)
  have h₄ := reads h₃ (congrArg some (by rw [hreadOnly, hbounded]))
  have h₅ := reads h₄ (congrArg some (by rw [hdecision]))
  simp only [append_assoc] at h₅
  exact ⟨_, h₅⟩

theorem decide_dispatched (h : exec.Run tr s) (id : CommandId) (actor : Actor)
    (command : Command) (driver : Driver) {prepared bounded : Command}
    {env retained : Environment} {readOnly : Bool} {decision : Decision}
    (hprepared : reclassified exec.reader command (driverFor s.sessions driver command) = prepared)
    (henv : environmentOf s.connections prepared = env)
    (hretained : retainedEnvironment s.policy prepared env = retained)
    (hreadOnly : retainedReadOnly s.policy prepared (markedReadOnly s.connections prepared) =
      readOnly)
    (hbounded : boundedTo exec.reader prepared retained readOnly = bounded)
    (hdecision : authorize s.policy actor bounded env = decision) :
    ∃ tr', exec.Run (tr ++ tr') { s with
      tasks := s.tasks ++
        [⟨id, actor, bounded, none, .decided env retained readOnly decision⟩] } := by
  have hread := advance_last ⟨id, actor, prepared, none, .reclassified⟩
    (h.snoc (.dispatch s id actor command)) driver (congrArg some (by rw [hprepared]))
  obtain ⟨tr', hdecided⟩ :=
    decide_last driver hread henv hretained hreadOnly hbounded hdecision
  simp only [append_assoc] at hdecided
  exact ⟨_, hdecided⟩

theorem execute_last {t : Task} (driver : Driver) {c : ConnectionId} {session : SessionId}
    {r : ExecRequest} (h : exec.Run tr { s with tasks := s.tasks ++ [t] }) (hmay : t.MayRun)
    (hexec : executeCommand exec.reader s.sessions driver t.command =
      .ok (some (c, session, r))) :
    ∃ s', exec.Run (tr ++ [.execute s.tasks.length driver]) s' ∧
      ⟨s.tasks.length, t, c, session, r⟩ ∈ s'.calls ∧ s'.policy = s.policy :=
  ⟨_, h.snoc (.execute getElem?_concat_length hmay hexec),
    mem_append_right _ (mem_singleton.mpr rfl), rfl⟩

/-- A document store: no text of it is SQL, and its driver proves every request a read. -/
def documentStore : Executor :=
  ⟨⟨fun _ _ => .error "not SQL", integers, fun _ => ""⟩, ApprovalRegistry.default⟩

def unbounded (text : String) : ExecRequest :=
  { declared text .read .none with
    language := .mongoQuery
    limits := { ExecLimits.default with readOnly := false } }

def findAll : ExecRequest := unbounded "db.orders.find({})"

def findDriver : Driver := ⟨fun _ => some .read, fun _ => none, fun _ _ _ => some findAll⟩

def insertDriver : Driver := ⟨fun _ => some .write, fun _ => none, fun _ _ _ => none⟩

def sessionOpen : State :=
  { State.initial with
    sessions := Function.update State.initial.sessions ⟨4⟩ (some ⟨devConnection, true, true⟩) }

theorem run_sessionOpen (exec : Executor) :
    exec.Run [.setSession ⟨4⟩ (some ⟨devConnection, true, true⟩)] sessionOpen :=
  Steps.nil.snoc (.setSession State.initial ⟨4⟩ (some ⟨devConnection, true, true⟩))

def devOpen : State :=
  { sessionOpen with
    policy := Function.update sessionOpen.policy devConnection
      (some ⟨"dev", .development, false⟩)
    connections := Function.update sessionOpen.connections devConnection
      (some ⟨devConnection, "dev", .development, false⟩) }

theorem run_devOpen (exec : Executor) : ∃ tr, exec.Run tr devOpen :=
  ⟨_, ((run_sessionOpen exec).snoc (.markPolicy _ devConnection
    (some ⟨"dev", .development, false⟩))).snoc (.markExecutor _ devConnection
    (some ⟨devConnection, "dev", .development, false⟩))⟩

def insertOne : ExecRequest := unbounded "db.orders.insertOne({})"

/-- What waits for the user: the insertion as its driver proved it to be. -/
def pendingInsert : PendingCommand where
  id := ⟨1⟩
  actor := .agent ⟨2⟩ ⟨3⟩
  command := .execute devConnection ⟨4⟩ { insertOne with intent := .write }
  reason := "an agent is requesting a write operation on \"dev\""
  preview := some ⟨insertOne.text, "dev", none⟩
  requestedAt := 7
  expiresAt := 7 + ApprovalRegistry.default.ttl

def insertAnswer : Decision := .requireApproval pendingInsert.reason pendingInsert.preview

def approvedInsert : Task :=
  ⟨pendingInsert.id, pendingInsert.actor, pendingInsert.command, some pendingInsert,
    .decided .development .development false insertAnswer⟩

def askedOpen : State :=
  { devOpen with
    tasks := [⟨pendingInsert.id, pendingInsert.actor, pendingInsert.command, none, .finished⟩] }

theorem run_approvedInsert : ∃ tr, documentStore.Run tr
    { askedOpen with tasks := askedOpen.tasks ++ [approvedInsert] } := by
  obtain ⟨tr, hopen⟩ := run_devOpen documentStore
  have hanswer : authorize devOpen.policy pendingInsert.actor pendingInsert.command .development =
      insertAnswer := rfl
  obtain ⟨tr', hdecided⟩ := decide_dispatched hopen pendingInsert.id pendingInsert.actor
    (.execute devConnection ⟨4⟩ insertOne) insertDriver rfl rfl rfl rfl rfl hanswer
  have hsubmit : documentStore.approvals.Step devOpen.approvals
      ⟨.submit 7 [] pendingInsert.id pendingInsert.actor pendingInsert.command pendingInsert.reason
        pendingInsert.preview, .request (.ok pendingInsert)⟩
      (Queue.empty.insert pendingInsert) := ⟨.refl _, rfl⟩
  have htake : documentStore.approvals.Step (Queue.empty.insert pendingInsert)
      (takeCall 8 pendingInsert) Queue.empty := ⟨trivial, rfl⟩
  have hasked := hdecided.snoc (.submit getElem?_concat_length rfl rfl rfl hsubmit)
  have htaken := hasked.snoc (.approve htake)
  obtain ⟨tr'', happroved⟩ :=
    decide_last (s := askedOpen) insertDriver htaken rfl rfl rfl rfl hanswer
  exact ⟨_, happroved⟩

/-! ## In every run -/

/-- In every run: each call a session receives was made by a task of its own, that was
cleared by the gate on the command it holds, for the request of that command or for a
preview of it. -/
theorem nothing_past_the_gate {tr : List Event} {s : State} (h : exec.Run tr s) :
    (∀ call ∈ s.calls, ∃ before driver after,
      tr = before ++ .execute call.task driver :: after ∧
      ∃ command env retained readOnly decision,
        Gated exec before call command env retained readOnly decision) ∧
    s.calls.Pairwise fun a b => a.task ≠ b.task := by
  have hcalls := callsHold_of_run h
  refine ⟨fun call hc => ?_, hcalls.apart⟩
  obtain ⟨before, driver, after, htr, hholds⟩ := hcalls.holds call hc
  exact ⟨before, driver, after, htr, hholds.gated⟩

/-- An insertion an agent announced as a read: it was asked for, approved, judged again and
made. -/
theorem insert_went_through_the_gate :
    ∃ (tr before : List Event) (s : State) (call : ExecuteCall) (command : Command)
      (env retained : Environment) (readOnly : Bool) (decision : Decision),
      documentStore.Run tr s ∧ call ∈ s.calls ∧ call.caller.approved = some pendingInsert ∧
        before <+: tr ∧ Gated documentStore before call command env retained readOnly decision := by
  obtain ⟨tr, hrun⟩ := run_approvedInsert
  obtain ⟨s, hmade, hcall, -⟩ := execute_last insertDriver hrun
    ⟨_, _, _, _, rfl, .inr ⟨rfl, rfl⟩⟩ rfl
  obtain ⟨before, driver, after, htr, command, env, retained, readOnly, decision, hgated⟩ :=
    (nothing_past_the_gate hmade).1 _ hcall
  exact ⟨_, before, s, _, command, env, retained, readOnly, decision, hmade, hcall, rfl,
    htr ▸ prefix_append .., hgated⟩

/-- A call was made by the last event of a run, under the markings the run ends with. -/
def MadeUnder (exec : Executor) (tr : List Event) (s : State) (call : ExecuteCall)
    (facts : ConnectionFacts) : Prop :=
  (∃ before driver, tr = before ++ [.execute call.task driver]) ∧ exec.Run tr s ∧
    call ∈ s.calls ∧ s.policy call.connection = some facts

def shutMarking : ConnectionFacts := ⟨"dev", .production, true⟩

theorem madeUnder_shut {tr : List Event} {s : State} {t : Task} (driver : Driver)
    {c : ConnectionId} {session : SessionId} {r : ExecRequest}
    (h : documentStore.Run tr { s with tasks := s.tasks ++ [t] }) (hmay : t.MayRun)
    (hexec : executeCommand documentStore.reader s.sessions driver t.command =
      .ok (some (c, session, r))) :
    ∃ tr' s', MadeUnder documentStore tr' s' ⟨s.tasks.length, t, c, session, r⟩ shutMarking := by
  obtain ⟨s', hmade, hcall, hpolicy⟩ :=
    execute_last (s := { s with policy := Function.update s.policy c (some shutMarking) }) driver
      (h.snoc (.markPolicy _ c (some shutMarking))) hmay hexec
  exact ⟨_, s', ⟨_, _, rfl⟩, hmade, hcall,
    (congrFun hpolicy c).trans (Function.update_self ..)⟩

/-- A preview sends a request the gate was not asked about. And a marking that lands between the
answer and the call is not seen: an agent's insertion is executed on a connection marked production
and read-only by then, and a read without the bound. -/
theorem executes_what_was_not_judged :
    (∃ (tr : List Event) (s : State) (call : ExecuteCall), documentStore.Run tr s ∧
      call ∈ s.calls ∧
      call.caller.command ≠ .execute call.connection call.session call.request) ∧
    (∃ (tr : List Event) (s : State) (call : ExecuteCall),
      MadeUnder documentStore tr s call shutMarking ∧ call.caller.actor.isAgent = true ∧
      call.request.isMutating = true) ∧
    ∃ (tr : List Event) (s : State) (call : ExecuteCall),
      MadeUnder documentStore tr s call shutMarking ∧ call.request.isMutating = false ∧
      call.request.limits.readOnly = false ∧ call.request.transactionControl = false := by
  refine ⟨?_, ?_, ?_⟩
  · obtain ⟨tr, hdecided⟩ := decide_dispatched (run_sessionOpen documentStore) ⟨1⟩ .human
      (.previewRelation devConnection ⟨4⟩ none (some "shop".toList) "orders".toList 10
        ⟨[], none, 0, none⟩) findDriver rfl rfl rfl rfl rfl rfl
    obtain ⟨s, hmade, hcall, -⟩ := execute_last findDriver hdecided
      ⟨_, _, _, _, rfl, .inl ⟨rfl, rfl⟩⟩ rfl
    exact ⟨_, s, _, hmade, hcall, fun h => by cases h⟩
  · obtain ⟨tr, hrun⟩ := run_approvedInsert
    obtain ⟨tr', s, hmade⟩ := madeUnder_shut insertDriver hrun
      ⟨_, _, _, _, rfl, .inr ⟨rfl, rfl⟩⟩ rfl
    exact ⟨tr', s, _, hmade, rfl, rfl⟩
  · obtain ⟨tr, hopen⟩ := run_devOpen documentStore
    obtain ⟨tr', hdecided⟩ := decide_dispatched hopen ⟨1⟩ .human
      (.execute devConnection ⟨4⟩ findAll) findDriver rfl rfl rfl rfl rfl rfl
    obtain ⟨tr'', s, hmade⟩ := madeUnder_shut findDriver hdecided
      ⟨_, _, _, _, rfl, .inl ⟨rfl, rfl⟩⟩ rfl
    exact ⟨tr'', s, _, hmade, rfl, rfl, rfl⟩

end Executor

end Oxyn
