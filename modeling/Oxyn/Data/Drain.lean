/-
# `Oxyn.Data.Drain` — what a drained result claims

`Stands` is where a call stands after the source has yielded some rows: the buffer holds them all
while the loop stores, a prefix of them once it stopped, and is closed when the call answers.
-/
import Oxyn.Data.Sink

namespace Oxyn.Data

open List

variable {Field Row : Type}

/-! ## Rows stored -/

namespace ResultBuffer

variable {fields : List Field} {limits : BufferLimits} {buffer buffer' : ResultBuffer Field Row}
  {rows : List Row}

def Stored (fields : List Field) (limits : BufferLimits) (buffer : ResultBuffer Field Row)
    (rows : List Row) : Prop :=
  ∃ tr batches, Streamed fields limits tr buffer batches ∧ accepted tr = rows

structure IsOpen (buffer : ResultBuffer Field Row) : Prop where
  complete : buffer.index.complete = false
  truncated : buffer.index.stats.truncated = true →
    ∃ limit ∈ buffer.limits.maxRows, limit ≤ buffer.index.rows

theorem stored_withLimits (fields : List Field) (limits : BufferLimits) :
    Stored fields limits (.withLimits fields limits : ResultBuffer Field Row) [] :=
  ⟨[], [], Streamed.withLimits fields limits, rfl⟩

theorem isOpen_withLimits (fields : List Field) (limits : BufferLimits) :
    (withLimits fields limits : ResultBuffer Field Row).IsOpen :=
  ⟨rfl, fun h => Bool.noConfusion h⟩

/-- What is stored is a prefix of what was taken; all of it, unless it is marked. -/
theorem Stored.represents (h : Stored fields limits buffer rows) :
    ∃ batches, buffer.Represents batches ∧ batches.flatMap (·.rows) <+: rows ∧
      (buffer.index.stats.truncated = false → batches.flatMap (·.rows) = rows) := by
  obtain ⟨tr, batches, hstream, rfl⟩ := h
  refine ⟨batches, hstream.represents, ?_, fun hwhole => ?_⟩
  · rw [hstream.contents, BufferLimits.cut]
    split
    · exact prefix_refl _
    · exact List.take_prefix _ _
  · rw [hstream.contents]
    by_contra hne
    exact absurd (hstream.truncated hne) (by simp [hwhole])

theorem IsOpen.pressure_ne_complete (h : buffer.IsOpen) : buffer.pressure ≠ .complete := by
  unfold pressure
  simp only [h.complete, Bool.false_eq_true, ↓reduceIte]
  split_ifs <;> simp

theorem IsOpen.whole_of_ready (h : buffer.IsOpen) (hready : buffer.pressure = .ready) :
    buffer.index.stats.truncated = false := by
  by_contra hmarked
  obtain ⟨limit, hlimit, hle⟩ := h.truncated (Bool.not_eq_false _ ▸ hmarked)
  simp [pressure, h.complete, Option.mem_def.mp hlimit, hle] at hready

variable [DecidableEq Field]

theorem Stored.markTruncated (h : Stored fields limits buffer rows) :
    Stored fields limits buffer.markTruncated rows := by
  obtain ⟨tr, batches, hstream, rfl⟩ := h
  have hstep : OpStep buffer (.markTruncated, .marked) buffer.markTruncated := rfl
  obtain ⟨batches', hstream'⟩ := hstream.step hstep
  exact ⟨_, batches', hstream', by simp [accepted]⟩

theorem Stored.markComplete (h : Stored fields limits buffer rows) (stats : ExecStats) :
    Stored fields limits (buffer.markComplete stats) rows := by
  obtain ⟨tr, batches, hstream, rfl⟩ := h
  have hstep : OpStep buffer (.markComplete stats, .marked) (buffer.markComplete stats) := rfl
  obtain ⟨batches', hstream'⟩ := hstream.step hstep
  exact ⟨_, batches', hstream', by simp [accepted]⟩

theorem Stored.push {batch : RecordBatch Field Row} {disk : Except DiskError StreamLen}
    {position : Option Nat} (h : Stored fields limits buffer rows)
    (hpush : buffer.push batch disk = (.ok position, buffer')) :
    Stored fields limits buffer' (rows ++ batch.rows) := by
  obtain ⟨tr, batches, hstream, rfl⟩ := h
  obtain ⟨batches', hstream'⟩ := hstream.push hpush
  exact ⟨_, batches', hstream', by simp [accepted]⟩

theorem IsOpen.push {batch : RecordBatch Field Row} {disk : Except DiskError StreamLen}
    {position : Option Nat} (h : buffer.IsOpen) (hstored : Stored fields limits buffer rows)
    (hpush : buffer.push batch disk = (.ok position, buffer')) : buffer'.IsOpen := by
  obtain ⟨tr, batches, hstream, -⟩ := hstored
  obtain ⟨-, -, rfl⟩ | ⟨plan, slot, file, hbatch, hplan, hplaced, -, rfl⟩ :=
    push_eq_ok hstream.represents.file hpush
  · exact h
  · obtain ⟨-, hrows, -, htruncated⟩ := BufferIndex.plan_eq_ok hplan
    obtain ⟨hlt, hkeep⟩ := BufferIndex.planRows_eq_ok hrows
    refine ⟨h.complete, fun hmarked => ?_⟩
    obtain ⟨hnone, -⟩ | ⟨limit, hlimit, hcut, hsome⟩ := hkeep
    · -- Nothing was cut now, and nothing was before.
      rw [hnone] at htruncated
      have hbefore : buffer.index.stats.truncated = true := by
        simpa [published, htruncated, BufferIndex.append, ExecStats.recordBatch] using hmarked
      obtain ⟨limit, hlimit, hle⟩ := h.truncated hbefore
      exact absurd hle (Nat.not_le.mpr (hlt limit hlimit))
    · have hle := buffer.limits.maxRows_le limit hlimit
      have hkept : (kept batch plan.keepRows).numRows = limit - buffer.index.rows := by
        rw [hsome]
        simp only [kept, RecordBatch.slice, RecordBatch.numRows, length_take] at hcut ⊢
        omega
      have := hlt limit hlimit
      refine ⟨limit, hlimit, ?_⟩
      show limit ≤ Offsets.satAdd wordMax buffer.index.rows (kept batch plan.keepRows).numRows
      unfold Offsets.satAdd
      omega

end ResultBuffer

/-! ## Where a call stands -/

def yielded (asked : List (Asked Field Row)) : List Row := asked.flatMap (·.rows)

variable {fields : List Field} {limits : BufferLimits}

def BatchSink.Holds (fields : List Field) (limits : BufferLimits) (sink : BatchSink Field Row)
    (rows : List Row) : Prop :=
  ∃ stored, sink.buffer.Stored fields limits stored ∧ stored <+: rows

/-- Where a call stands, once the source has yielded these rows. -/
inductive Stands (fields : List Field) (limits : BufferLimits) (rows : List Row) :
    BatchSink Field Row → Flow Field → Prop
  | storing {sink : BatchSink Field Row} :
      sink.buffer.IsOpen → sink.buffer.Stored fields limits rows →
      Stands fields limits rows sink (.next .none)
  | stopped {sink : BatchSink Field Row} {stopping : Stopping Field} :
      sink.awaitsTerminalOutcome = true → stopping ≠ .none →
      stopping.stopped ≠ some .exhausted → sink.buffer.IsOpen → sink.Holds fields limits rows →
      Stands fields limits rows sink (.next stopping)
  | dropped {sink : BatchSink Field Row} :
      sink.buffer.IsOpen → sink.Holds fields limits rows → Stands fields limits rows sink .dropped
  | exhausted {sink : BatchSink Field Row} :
      sink.buffer.index.complete = true → sink.buffer.index.stats.truncated = false →
      sink.buffer.Stored fields limits rows →
      Stands fields limits rows sink (.answered (.ok .exhausted))
  | cut {sink : BatchSink Field Row} {answer : Except (SinkError Field) SinkOutcome} :
      answer ≠ .ok .exhausted → sink.buffer.index.complete = true →
      sink.buffer.index.stats.truncated = true → sink.Holds fields limits rows →
      Stands fields limits rows sink (.answered answer)
  | unmarked {sink : BatchSink Field Row} {error : DataError Field} :
      sink.awaitsTerminalOutcome = true → sink.buffer.index.complete = true →
      sink.buffer.index.stats.truncated = false → sink.Holds fields limits rows →
      Stands fields limits rows sink (.answered (.error (.store error)))

namespace BatchSink

variable {sink : BatchSink Field Row} {rows : List Row}

theorem Holds.append (h : sink.Holds fields limits rows) (more : List Row) :
    sink.Holds fields limits (rows ++ more) := by
  obtain ⟨stored, hstored, hprefix⟩ := h
  exact ⟨stored, hstored, hprefix.trans (prefix_append rows more)⟩

theorem holds_self (h : sink.buffer.Stored fields limits rows) : sink.Holds fields limits rows :=
  ⟨rows, h, prefix_refl rows⟩

theorem holds_of_stored (h : sink.buffer.Stored fields limits rows) (more : List Row) :
    sink.Holds fields limits (rows ++ more) :=
  ⟨rows, h, prefix_append rows more⟩

theorem complete_sealWith (stats : ExecStats) (truncated : Bool) :
    (sink.sealWith stats truncated).buffer.index.complete = true := rfl

theorem truncated_sealWith (stats : ExecStats) (truncated : Bool) :
    (sink.sealWith stats truncated).buffer.index.stats.truncated =
      (truncated || sink.buffer.index.stats.truncated || stats.truncated) := by
  cases truncated with
  | true =>
    simp [sealWith, ResultBuffer.markComplete, ResultBuffer.markTruncated, ExecStats.markTruncated]
  | false =>
    cases hmarked : sink.buffer.index.stats.truncated <;>
      simp [sealWith, ResultBuffer.markComplete, hmarked, ExecStats.markTruncated]

theorem fullOutcome_ne (sink : BatchSink Field Row) : sink.fullOutcome ≠ .exhausted := by
  unfold fullOutcome
  split <;> simp

variable {stopping : Stopping Field}

theorem stands_stopped (hawaits : sink.awaitsTerminalOutcome = true) (hopen : sink.buffer.IsOpen)
    (hholds : sink.Holds fields limits rows) {outcome : SinkOutcome} (houtcome : outcome ≠ .exhausted)
    (storeFailure : Option (DataError Field)) :
    Stands fields limits rows sink (.next ⟨some outcome, storeFailure⟩) :=
  .stopped hawaits (by simp [Stopping.none]) (by simpa using houtcome) hopen hholds

theorem stopping_of_ne_none (h : stopping ≠ .none) : sink.stopping stopping = some stopping := by
  unfold BatchSink.stopping
  rw [if_neg]
  rintro ⟨hstopped, hfailure⟩
  obtain ⟨stopped, storeFailure⟩ := stopping
  obtain rfl := Option.isNone_iff_eq_none.mp hstopped
  obtain rfl := Option.isNone_iff_eq_none.mp hfailure
  exact h rfl

theorem stopping_none_of_ne_ready (hopen : sink.buffer.IsOpen)
    (hpressure : sink.buffer.pressure ≠ .ready) :
    ∃ outcome, sink.stopping .none = some ⟨some outcome, none⟩ := by
  unfold BatchSink.stopping
  cases h : sink.buffer.pressure with
  | ready => exact absurd h hpressure
  | rowLimit | saturated => exact ⟨_, rfl⟩
  | complete => exact absurd h hopen.pressure_ne_complete

/-- While the loop stores, the buffer has room; else it was noted why it does not store. -/
theorem stopping_stands (h : Stands fields limits rows sink (.next stopping))
    (hawaits : sink.awaitsTerminalOutcome = true) :
    ∃ stopping', sink.stopping stopping = some stopping' ∧
      Stands fields limits rows sink (.next stopping') ∧
      (stopping' = .none → sink.buffer.pressure = .ready) := by
  cases h with
  | storing hopen hstored =>
    have hstopped : ∀ {outcome : SinkOutcome}, outcome ≠ .exhausted →
        Stands fields limits rows sink (.next ⟨some outcome, none⟩) := fun houtcome =>
      stands_stopped hawaits hopen (holds_self hstored) houtcome none
    cases hpressure : sink.buffer.pressure with
    | ready =>
      exact ⟨.none, by simp [BatchSink.stopping, Stopping.none, hpressure],
        .storing hopen hstored, fun _ => rfl⟩
    | rowLimit =>
      refine ⟨⟨some (if sink.buffer.index.stats.truncated then .rowLimit
          else .rowLimitUnverified), none⟩,
        by simp [BatchSink.stopping, Stopping.none, hpressure], hstopped ?_, ?_⟩
      · split_ifs <;> simp
      · simp [Stopping.none]
    | saturated =>
      exact ⟨⟨some .saturated, none⟩, by simp [BatchSink.stopping, Stopping.none, hpressure],
        hstopped (by simp), by simp [Stopping.none]⟩
    | complete => exact absurd hpressure hopen.pressure_ne_complete
  | stopped hawaits hne houtcome hopen hholds =>
    exact ⟨stopping, stopping_of_ne_none hne, .stopped hawaits hne houtcome hopen hholds,
      fun h => absurd h hne⟩

variable [DecidableEq Field]

theorem stored_sealWith (h : sink.buffer.Stored fields limits rows) (stats : ExecStats)
    (truncated : Bool) : (sink.sealWith stats truncated).buffer.Stored fields limits rows := by
  cases truncated with
  | true => exact h.markTruncated.markComplete stats
  | false => exact h.markComplete stats

theorem Holds.sealWith (h : sink.Holds fields limits rows) (stats : ExecStats)
    (truncated : Bool) : (sink.sealWith stats truncated).Holds fields limits rows := by
  obtain ⟨stored, hstored, hprefix⟩ := h
  exact ⟨stored, stored_sealWith hstored stats truncated, hprefix⟩

theorem stands_cut (h : sink.Holds fields limits rows) (stats : ExecStats)
    {answer : Except (SinkError Field) SinkOutcome} (hanswer : answer ≠ .ok .exhausted) :
    Stands fields limits rows (sink.sealWith stats true) (.answered answer) :=
  .cut hanswer (complete_sealWith stats true) (by simp [truncated_sealWith]) (h.sealWith stats true)

/-! ### The first loop -/

theorem store_stands (hopen : sink.buffer.IsOpen) (hstored : sink.buffer.Stored fields limits rows)
    (batch : RecordBatch Field Row) (turn : Turn Field Row) :
    Stands fields limits (rows ++ batch.rows) (sink.store batch turn).1
      (sink.store batch turn).2.1 := by
  unfold store
  split
  next buffer hpush => exact .storing (hopen.push hstored hpush) (hstored.push hpush)
  next index buffer hpush => exact .storing (hopen.push hstored hpush) (hstored.push hpush)
  next reason buffer hpush =>
    obtain rfl := ResultBuffer.push_eq_error hpush
    exact stands_cut (holds_of_stored hstored _) _ fun h => fullOutcome_ne _ (Except.ok.inj h)
  next error buffer _ hpush =>
    obtain rfl := ResultBuffer.push_eq_error hpush
    exact stands_cut (holds_of_stored hstored _) _ (by simp)

theorem receive_stands (hopen : sink.buffer.IsOpen)
    (hstored : sink.buffer.Stored fields limits rows) {confirmingEnd : Bool}
    (hwhole : sink.buffer.index.stats.truncated = false) (received : Received Field Row)
    (turn : Turn Field Row) :
    Stands fields limits (rows ++ Asked.rows ⟨sink.buffer.pressure, .received received, turn.stats⟩)
      (sink.receive confirmingEnd received turn).1
      (sink.receive confirmingEnd received turn).2.1 := by
  cases received with
  | ended =>
    simp only [receive, Asked.rows, append_nil]
    cases hdeclared : turn.stats.truncated with
    | true =>
      refine .cut (by simp) rfl ?_ ((holds_self hstored).sealWith _ _)
      simp [truncated_sealWith, hdeclared]
    | false =>
      exact .exhausted rfl (by simp [truncated_sealWith, hdeclared, hwhole])
        (stored_sealWith hstored _ _)
  | failed error =>
    refine stands_cut (holds_of_stored hstored _) _ ?_
    split_ifs <;> simp
  | batch batch =>
    simp only [receive, Asked.rows]
    split_ifs with hconfirming hempty
    · have hnil : batch.rows = [] := length_eq_zero_iff.mp hempty
      rw [hnil, append_nil]
      exact .storing hopen hstored
    · exact stands_cut (holds_of_stored hstored _) _ (by simp)
    · exact store_stands hopen hstored batch turn

theorem await_stands (hopen : sink.buffer.IsOpen) (hstored : sink.buffer.Stored fields limits rows)
    (confirmingEnd : Bool) (hwhole : sink.buffer.index.stats.truncated = false)
    (turn : Turn Field Row) :
    Stands fields limits (rows ++ yielded (sink.await confirmingEnd turn).asked.toList)
      (sink.await confirmingEnd turn).sink (sink.await confirmingEnd turn).flow := by
  obtain ⟨cancelled, awaited, stats, disk⟩ := turn
  cases awaited with
  | dropped => exact .dropped hopen (holds_of_stored hstored _)
  | cancelled =>
    have haborted : BatchSink.Holds fields limits { sink with aborted := true } rows :=
      holds_self hstored
    exact stands_cut (haborted.append _) stats (by simp)
  | received received =>
    simpa [await, yielded] using receive_stands hopen hstored hwhole received
      ⟨cancelled, .received received, stats, disk⟩

theorem answer_stands (hstored : sink.buffer.Stored fields limits rows) (stats : ExecStats)
    {outcome : SinkOutcome} (houtcome : outcome ≠ .exhausted) :
    Stands fields limits (rows ++ yielded ((sink.sealWith stats true).answer outcome).asked.toList)
      ((sink.sealWith stats true).answer outcome).sink
      ((sink.sealWith stats true).answer outcome).flow :=
  stands_cut (holds_of_stored hstored _) stats (by simpa using houtcome)

theorem drainTurn_stands (hopen : sink.buffer.IsOpen)
    (hstored : sink.buffer.Stored fields limits rows) (turn : Turn Field Row) :
    Stands fields limits (rows ++ yielded (sink.drainTurn turn).asked.toList)
      (sink.drainTurn turn).sink (sink.drainTurn turn).flow := by
  unfold drainTurn
  split
  · exact answer_stands hstored _ (by simp)
  · split
    next hready => exact await_stands hopen hstored false (hopen.whole_of_ready hready) turn
    next =>
      split
      · exact answer_stands hstored _ (by simp)
      next hwhole =>
        split
        · exact await_stands hopen hstored true (eq_false_of_ne_true hwhole) turn
        · exact answer_stands hstored _ (by simp)
    next => exact answer_stands hstored _ (by simp)
    next hcomplete => exact absurd hcomplete hopen.pressure_ne_complete

/-! ### The second loop -/

theorem storeToEnd_stands (hawaits : sink.awaitsTerminalOutcome = true)
    (hopen : sink.buffer.IsOpen) (hstored : sink.buffer.Stored fields limits rows)
    (batch : RecordBatch Field Row) (turn : Turn Field Row) :
    Stands fields limits (rows ++ batch.rows) (sink.storeToEnd .none batch turn).1
      (sink.storeToEnd .none batch turn).2.1 := by
  unfold storeToEnd
  split
  next buffer hpush => exact .storing (hopen.push hstored hpush) (hstored.push hpush)
  next index buffer hpush => exact .storing (hopen.push hstored hpush) (hstored.push hpush)
  next reason buffer hpush =>
    obtain rfl := ResultBuffer.push_eq_error hpush
    exact stands_stopped hawaits hopen (holds_of_stored hstored _) (fullOutcome_ne _) none
  next error buffer _ hpush =>
    obtain rfl := ResultBuffer.push_eq_error hpush
    exact .stopped hawaits (by simp [Stopping.none]) (by simp [Stopping.none]) hopen
      (holds_of_stored hstored _)

theorem endToEnd_stands (h : Stands fields limits rows sink (.next stopping))
    (hready : stopping = .none → sink.buffer.pressure = .ready) (turn : Turn Field Row) :
    Stands fields limits rows (sink.receiveToEnd stopping .ended turn).1
      (sink.receiveToEnd stopping .ended turn).2.1 := by
  obtain ⟨stopped, storeFailure⟩ := stopping
  cases h with
  | storing hopen hstored =>
    have hwhole := hopen.whole_of_ready (hready rfl)
    cases hdeclared : turn.stats.truncated with
    | true =>
      simp only [receiveToEnd, hdeclared, Bool.or_true, ↓reduceIte]
      exact stands_cut (holds_self hstored) _ (by simp)
    | false =>
      simp only [receiveToEnd, hdeclared, Option.isSome_none, Bool.or_false,
        Bool.false_eq_true, ↓reduceIte]
      exact .exhausted rfl (by simp [truncated_sealWith, hdeclared, hwhole])
        (stored_sealWith hstored _ _)
  | stopped hawaits hne houtcome hopen hholds =>
    cases stopped with
    | some outcome =>
      refine stands_cut hholds _ ?_
      cases storeFailure with
      | none => simpa using houtcome
      | some failure => simp
    | none =>
      cases storeFailure with
      | none => exact absurd rfl hne
      | some failure =>
        cases hmarked : (sink.sealWith turn.stats turn.stats.truncated).buffer.index.stats.truncated with
        | true => exact .cut (by simp) rfl hmarked (hholds.sealWith _ _)
        | false => exact .unmarked hawaits rfl hmarked (hholds.sealWith _ _)

theorem receiveToEnd_stands (h : Stands fields limits rows sink (.next stopping))
    (hawaits : sink.awaitsTerminalOutcome = true)
    (hready : stopping = .none → sink.buffer.pressure = .ready) (received : Received Field Row)
    (turn : Turn Field Row) :
    Stands fields limits (rows ++ Asked.rows ⟨sink.buffer.pressure, .received received, turn.stats⟩)
      (sink.receiveToEnd stopping received turn).1
      (sink.receiveToEnd stopping received turn).2.1 := by
  cases received with
  | ended => simpa [Asked.rows] using endToEnd_stands h hready turn
  | failed error =>
    have hholds : sink.Holds fields limits rows := by
      cases h with
      | storing hopen hstored => exact holds_self hstored
      | stopped _ _ _ hopen hholds => exact hholds
    refine stands_cut (hholds.append _) _ ?_
    split_ifs <;> simp
  | batch batch =>
    cases h with
    | storing hopen hstored => exact storeToEnd_stands hawaits hopen hstored batch turn
    | stopped hawaits hne houtcome hopen hholds =>
      obtain ⟨stopped, storeFailure⟩ := stopping
      cases storeFailure with
      | some failure => exact .stopped hawaits hne houtcome hopen (hholds.append _)
      | none =>
        cases stopped with
        | none => exact absurd rfl hne
        | some outcome =>
          refine stands_stopped hawaits hopen (hholds.append _) ?_ none
          split_ifs
          · simp
          · simpa using houtcome

theorem drainToEndTurn_stands (h : Stands fields limits rows sink (.next stopping))
    (hawaits : sink.awaitsTerminalOutcome = true) (turn : Turn Field Row) :
    Stands fields limits (rows ++ yielded (sink.drainToEndTurn stopping turn).asked.toList)
      (sink.drainToEndTurn stopping turn).sink (sink.drainToEndTurn stopping turn).flow := by
  obtain ⟨stopping', hstopping, hstands, hready⟩ := stopping_stands h hawaits
  obtain ⟨cancelled, awaited, stats, disk⟩ := turn
  unfold drainToEndTurn
  rw [hstopping]
  cases awaited with
  | dropped =>
    cases hstands with
    | storing hopen hstored => exact .dropped hopen (holds_of_stored hstored _)
    | stopped _ _ _ hopen hholds => exact .dropped hopen (hholds.append _)
  | cancelled => simpa [yielded, Asked.rows] using hstands
  | received received =>
    simpa [yielded] using receiveToEnd_stands hstands hawaits hready received
      ⟨cancelled, .received received, stats, disk⟩

/-! ### Calls -/

theorem turn_stands (h : Stands fields limits rows sink (.next stopping)) (turn : Turn Field Row) :
    Stands fields limits (rows ++ yielded (sink.turn stopping turn).asked.toList)
      (sink.turn stopping turn).sink (sink.turn stopping turn).flow := by
  unfold BatchSink.turn
  split
  next hawaits => exact drainToEndTurn_stands h hawaits turn
  next hawaits =>
    cases h with
    | storing hopen hstored => exact drainTurn_stands hopen hstored turn
    | stopped hawaits' => exact absurd hawaits' hawaits

theorem loop_stands (h : Stands fields limits rows sink (.next stopping))
    (turns : List (Turn Field Row)) :
    Stands fields limits (rows ++ yielded (sink.loop stopping turns).asked)
      (sink.loop stopping turns).sink (sink.loop stopping turns).flow := by
  induction turns generalizing sink stopping rows with
  | nil => simpa [loop, yielded] using h
  | cons turn turns ih =>
    have hturn := turn_stands h turn
    unfold loop
    simp only
    split
    next stopping' hflow =>
      rw [hflow] at hturn
      simpa [yielded] using ih hturn
    next hflow => exact hturn

/-! ### A batch that could not be stored -/

end BatchSink

/-- The call answered something else than the end, and the truncation is not marked. -/
def Call.Unmarked (call : Call Field Row) : Prop :=
  ∃ answer, call.flow = .answered answer ∧ answer ≠ .ok .exhausted ∧
    call.sink.buffer.index.stats.truncated = false

/-- While the buffer has room, the source yields a batch that cannot be stored for another reason.
-/
def StoreFails [DecidableEq Field] (buffer : ResultBuffer Field Row) : List (Turn Field Row) → Prop
  | [] => False
  | turn :: turns =>
    buffer.pressure = .ready ∧
      match turn.awaited with
      | .received (.batch batch) =>
        match buffer.push batch turn.disk with
        | (.ok _, buffer) => StoreFails buffer turns
        | (.error (.full _), _) => False
        | (.error _, _) => True
      | .cancelled => StoreFails buffer turns
      | _ => False

/-- The source reaches its end, and declares no truncation. -/
def EndsWhole : List (Turn Field Row) → Prop
  | [] => False
  | turn :: turns =>
    match turn.awaited with
    | .received (.batch _) | .cancelled => EndsWhole turns
    | .received .ended => turn.stats.truncated = false
    | _ => False

namespace BatchSink

variable {sink : BatchSink Field Row} {before stopping : Stopping Field} {turn : Turn Field Row}
  {turns : List (Turn Field Row)} [DecidableEq Field]

theorem not_unmarked_nil : ¬ (sink.loop before []).Unmarked := by
  rintro ⟨answer, hflow, -⟩
  cases hflow

theorem unmarked_next (h : (sink.turn before turn).flow = .next stopping) :
    (sink.loop before (turn :: turns)).Unmarked ↔
      ((sink.turn before turn).sink.loop stopping turns).Unmarked := by
  unfold Call.Unmarked
  rw [loop]
  dsimp only
  rw [h]

theorem unmarked_last (h : ∀ stopping, (sink.turn before turn).flow ≠ .next stopping) :
    (sink.loop before (turn :: turns)).Unmarked ↔
      ∃ answer, (sink.turn before turn).flow = .answered answer ∧ answer ≠ .ok .exhausted ∧
        (sink.turn before turn).sink.buffer.index.stats.truncated = false := by
  unfold Call.Unmarked
  rw [loop]
  dsimp only
  cases hflow : (sink.turn before turn).flow with
  | next stopping => exact absurd hflow (h stopping)
  | answered answer => rfl
  | dropped => rfl

section

variable {cancelled : Bool} {stats : ExecStats} {disk : Except DiskError StreamLen}
  (hawaits : sink.awaitsTerminalOutcome = true) (hstopping : sink.stopping before = some stopping)
include hawaits hstopping

theorem turn_unanswered {awaited : Awaited Field Row} {flow : Flow Field}
    (h : awaited = .dropped ∧ flow = .dropped ∨ awaited = .cancelled ∧ flow = .next stopping) :
    (sink.turn before ⟨cancelled, awaited, stats, disk⟩).flow = flow ∧
      (sink.turn before ⟨cancelled, awaited, stats, disk⟩).sink = sink := by
  rw [BatchSink.turn, if_pos hawaits, drainToEndTurn, hstopping]
  obtain ⟨rfl, rfl⟩ | ⟨rfl, rfl⟩ := h
  · exact ⟨rfl, rfl⟩
  · exact ⟨rfl, rfl⟩

theorem turn_received {received : Received Field Row} {sink' : BatchSink Field Row}
    {flow : Flow Field} {progress : Option BatchProgress}
    (h : sink.receiveToEnd stopping received ⟨cancelled, .received received, stats, disk⟩ =
      (sink', flow, progress)) :
    (sink.turn before ⟨cancelled, .received received, stats, disk⟩).flow = flow ∧
      (sink.turn before ⟨cancelled, .received received, stats, disk⟩).sink = sink' := by
  rw [BatchSink.turn, if_pos hawaits, drainToEndTurn, hstopping]
  dsimp only
  rw [h]
  exact ⟨rfl, rfl⟩

theorem not_unmarked_dropped :
    ¬ (sink.loop before (⟨cancelled, .dropped, stats, disk⟩ :: turns)).Unmarked := by
  have hflow : (sink.turn before ⟨cancelled, .dropped, stats, disk⟩).flow = .dropped :=
    (turn_unanswered hawaits hstopping (.inl ⟨rfl, rfl⟩)).1
  rw [unmarked_last (by rw [hflow]; simp), hflow]
  rintro ⟨answer, hanswer, -⟩
  cases hanswer

theorem unmarked_cancelled :
    (sink.loop before (⟨cancelled, .cancelled, stats, disk⟩ :: turns)).Unmarked ↔
      (sink.loop stopping turns).Unmarked := by
  rw [unmarked_next (turn_unanswered hawaits hstopping (.inr ⟨rfl, rfl⟩)).1,
    (turn_unanswered hawaits hstopping (.inr ⟨rfl, rfl⟩)).2]

theorem unmarked_sealed {received : Received Field Row} {truncated : Bool}
    {answer : Except (SinkError Field) SinkOutcome}
    (h : sink.receiveToEnd stopping received ⟨cancelled, .received received, stats, disk⟩ =
      (sink.sealWith stats truncated, .answered answer, none)) :
    (sink.loop before (⟨cancelled, .received received, stats, disk⟩ :: turns)).Unmarked ↔
      answer ≠ .ok .exhausted ∧ truncated = false ∧
        sink.buffer.index.stats.truncated = false ∧ stats.truncated = false := by
  obtain ⟨hflow, hsink⟩ := turn_received hawaits hstopping h
  rw [unmarked_last (by rw [hflow]; simp), hflow, hsink, truncated_sealWith, Bool.or_eq_false_iff,
    Bool.or_eq_false_iff, and_assoc]
  constructor
  · rintro ⟨_, ⟨⟩, hrest⟩
    exact hrest
  · exact fun hrest => ⟨answer, rfl, hrest⟩

theorem not_unmarked_failed (error : SourceError) :
    ¬ (sink.loop before (⟨cancelled, .received (.failed error), stats, disk⟩ :: turns)).Unmarked := by
  have hsealed : sink.receiveToEnd stopping (.failed error)
      ⟨cancelled, .received (.failed error), stats, disk⟩ =
        (sink.sealWith stats true, .answered _, none) := rfl
  rw [unmarked_sealed hawaits hstopping hsealed]
  exact fun h => Bool.false_ne_true h.2.1.symm

theorem unmarked_ended :
    (sink.loop before (⟨cancelled, .received .ended, stats, disk⟩ :: turns)).Unmarked ↔
      stopping.storeFailure.isSome = true ∧ stopping.stopped = none ∧
        stats.truncated = false ∧ sink.buffer.index.stats.truncated = false := by
  rw [unmarked_sealed hawaits hstopping rfl]
  obtain ⟨stopped, storeFailure⟩ := stopping
  cases stopped with
  | some outcome => simp
  | none =>
    cases storeFailure with
    | none => cases hdeclared : stats.truncated <;> simp
    | some failure => simp [and_comm]

theorem unmarked_batch {batch : RecordBatch Field Row} {sink' : BatchSink Field Row}
    {stopping' : Stopping Field} {progress : Option BatchProgress}
    (h : sink.receiveToEnd stopping (.batch batch)
      ⟨cancelled, .received (.batch batch), stats, disk⟩ = (sink', .next stopping', progress)) :
    (sink.loop before (⟨cancelled, .received (.batch batch), stats, disk⟩ :: turns)).Unmarked ↔
      (sink'.loop stopping' turns).Unmarked := by
  obtain ⟨hflow, hsink⟩ := turn_received hawaits hstopping h
  rw [unmarked_next hflow, hsink]

end

/-- Once the loop does not store, a batch changes neither the buffer nor what was noted,
but for the certainty of a cut. -/
theorem receiveToEnd_of_ne_none (sink : BatchSink Field Row) (h : stopping ≠ .none)
    (batch : RecordBatch Field Row) (turn : Turn Field Row) :
    ∃ stopping', sink.receiveToEnd stopping (.batch batch) turn = (sink, .next stopping', none) ∧
      stopping' ≠ .none ∧ stopping'.storeFailure = stopping.storeFailure ∧
      stopping'.stopped.isSome = stopping.stopped.isSome := by
  obtain ⟨stopped, storeFailure⟩ := stopping
  cases storeFailure with
  | some failure => exact ⟨⟨stopped, some failure⟩, rfl, h, rfl, rfl⟩
  | none =>
    cases stopped with
    | some outcome => exact ⟨_, rfl, by simp [Stopping.none], rfl, rfl⟩
    | none => exact absurd rfl h

theorem unmarked_iff_of_ne_none (hawaits : sink.awaitsTerminalOutcome = true)
    (hstopping : sink.stopping before = some stopping) (hne : stopping ≠ .none) :
    (sink.loop before turns).Unmarked ↔ stopping.storeFailure.isSome = true ∧
      stopping.stopped = none ∧ EndsWhole turns ∧ sink.buffer.index.stats.truncated = false := by
  induction turns generalizing before stopping with
  | nil => exact iff_of_false not_unmarked_nil fun h => h.2.2.1
  | cons turn turns ih =>
    obtain ⟨cancelled, awaited, stats, disk⟩ := turn
    cases awaited with
    | dropped => exact iff_of_false (not_unmarked_dropped hawaits hstopping) fun h => h.2.2.1
    | cancelled =>
      rw [unmarked_cancelled hawaits hstopping]
      exact ih (stopping_of_ne_none hne) hne
    | received received =>
      cases received with
      | ended => exact unmarked_ended hawaits hstopping
      | failed error =>
        exact iff_of_false (not_unmarked_failed hawaits hstopping error) fun h => h.2.2.1
      | batch batch =>
        obtain ⟨stopping', hreceive, hne', hfailure', hstopped'⟩ :=
          receiveToEnd_of_ne_none sink hne batch
            ⟨cancelled, .received (.batch batch), stats, disk⟩
        rw [unmarked_batch hawaits hstopping hreceive, ih (stopping_of_ne_none hne') hne', hfailure',
          ← Option.not_isSome_iff_eq_none, hstopped', Option.not_isSome_iff_eq_none]
        rfl

theorem not_unmarked_of_stopped (hawaits : sink.awaitsTerminalOutcome = true)
    (hstopping : sink.stopping before = some stopping) (hstopped : stopping.stopped.isSome = true) :
    ¬ (sink.loop before turns).Unmarked := by
  rw [unmarked_iff_of_ne_none hawaits hstopping (by rintro rfl; simp [Stopping.none] at hstopped)]
  rintro ⟨-, hnone, -⟩
  simp [hnone] at hstopped

variable {batch : RecordBatch Field Row}

theorem receiveToEnd_of_push_ok (turn : Turn Field Row)
    {position : Option Nat} {buffer : ResultBuffer Field Row}
    (hpush : sink.buffer.push batch turn.disk = (.ok position, buffer)) :
    ∃ progress, sink.receiveToEnd .none (.batch batch) turn =
      ({ sink with buffer := buffer }, .next .none, progress) := by
  cases position with
  | none => exact ⟨none, by simp [receiveToEnd, Stopping.none, storeToEnd, hpush]⟩
  | some index => exact ⟨_, by simp [receiveToEnd, Stopping.none, storeToEnd, hpush]; rfl⟩

theorem receiveToEnd_of_push_error (turn : Turn Field Row)
    {error : DataError Field} (hpush : sink.buffer.push batch turn.disk = (.error error, sink.buffer)) :
    (∃ reason, error = .full reason ∧ sink.receiveToEnd .none (.batch batch) turn =
        (sink, .next ⟨some sink.fullOutcome, none⟩, none)) ∨
      ((∀ reason, error ≠ .full reason) ∧ sink.receiveToEnd .none (.batch batch) turn =
        (sink, .next ⟨none, some error⟩, none)) := by
  cases error with
  | full reason => exact .inl ⟨reason, rfl, by simp [receiveToEnd, Stopping.none, storeToEnd, hpush]⟩
  | _ => exact .inr ⟨by simp, by simp [receiveToEnd, Stopping.none, storeToEnd, hpush]⟩

theorem storeFails_of_push_error {cancelled : Bool} {stats : ExecStats}
    {disk : Except DiskError StreamLen} {error : DataError Field}
    {buffer : ResultBuffer Field Row} (hready : sink.buffer.pressure = .ready)
    (hpush : sink.buffer.push batch disk = (.error error, buffer)) :
    StoreFails sink.buffer (⟨cancelled, .received (.batch batch), stats, disk⟩ :: turns) ↔
      ∀ reason, error ≠ .full reason := by
  simp only [StoreFails, hready, hpush, true_and]
  cases error <;> simp

/-- A call of the second loop ends unmarked exactly when a batch could not be stored and the source
still reached its end. -/
theorem unmarked_iff {rows : List Row}
    (hawaits : sink.awaitsTerminalOutcome = true) (hopen : sink.buffer.IsOpen)
    (hstored : sink.buffer.Stored fields limits rows) :
    (sink.loop .none turns).Unmarked ↔ StoreFails sink.buffer turns ∧ EndsWhole turns := by
  induction turns generalizing sink rows with
  | nil => exact iff_of_false not_unmarked_nil fun h => h.1
  | cons turn turns ih =>
    rcases eq_or_ne sink.buffer.pressure .ready with hready | hready
    swap
    · obtain ⟨outcome, hstopping⟩ := stopping_none_of_ne_ready hopen hready
      exact iff_of_false (not_unmarked_of_stopped hawaits hstopping rfl) fun h => hready h.1.1
    have hstopping : sink.stopping .none = some .none := by
      simp [BatchSink.stopping, Stopping.none, hready]
    obtain ⟨cancelled, awaited, stats, disk⟩ := turn
    cases awaited with
    | dropped => exact iff_of_false (not_unmarked_dropped hawaits hstopping) fun h => h.1.2
    | cancelled =>
      rw [unmarked_cancelled hawaits hstopping, ih hawaits hopen hstored]
      simp only [StoreFails, EndsWhole, hready, true_and]
    | received received =>
      cases received with
      | ended =>
        rw [unmarked_ended hawaits hstopping]
        exact iff_of_false (fun h => by simp [Stopping.none] at h) fun h => h.1.2
      | failed error =>
        exact iff_of_false (not_unmarked_failed hawaits hstopping error) fun h => h.1.2
      | batch batch =>
        cases hpush : sink.buffer.push batch disk with
        | mk answer buffer =>
          cases answer with
          | ok position =>
            obtain ⟨progress, hreceive⟩ := receiveToEnd_of_push_ok
              ⟨cancelled, .received (.batch batch), stats, disk⟩ hpush
            have hrest := @ih { sink with buffer := buffer } _ hawaits
              (hopen.push hstored hpush) (hstored.push hpush)
            rw [unmarked_batch hawaits hstopping hreceive, hrest]
            simp only [StoreFails, EndsWhole, hready, hpush, true_and]
          | error error =>
            obtain rfl := ResultBuffer.push_eq_error hpush
            rw [storeFails_of_push_error hready hpush]
            obtain ⟨reason, rfl, hreceive⟩ | ⟨hother, hreceive⟩ :=
              receiveToEnd_of_push_error
                ⟨cancelled, .received (.batch batch), stats, disk⟩ hpush
            · rw [unmarked_batch hawaits hstopping hreceive]
              exact iff_of_false (not_unmarked_of_stopped hawaits
                (stopping_of_ne_none (by simp [Stopping.none])) rfl) fun h => h.1 _ rfl
            · have hne : (⟨none, some error⟩ : Stopping Field) ≠ .none := by simp [Stopping.none]
              rw [unmarked_batch hawaits hstopping hreceive,
                unmarked_iff_of_ne_none hawaits (stopping_of_ne_none hne) hne]
              exact ⟨fun h => ⟨hother, h.2.2.1⟩,
                fun h => ⟨rfl, rfl, h.2, hopen.whole_of_ready hready⟩⟩

/-! ### What was asked for -/

variable {fields : List Field} {limits : BufferLimits} {rows : List Row}
  {answer : Except (SinkError Field) SinkOutcome}

theorem flow_storeToEnd (sink : BatchSink Field Row) (before : Stopping Field)
    (batch : RecordBatch Field Row) (turn : Turn Field Row) :
    ∃ stopping, (sink.storeToEnd before batch turn).2.1 = .next stopping := by
  unfold storeToEnd
  split <;> exact ⟨_, rfl⟩

theorem flow_receiveToEnd_batch (sink : BatchSink Field Row) (before : Stopping Field)
    (batch : RecordBatch Field Row) (turn : Turn Field Row) :
    ∃ stopping, (sink.receiveToEnd before (.batch batch) turn).2.1 = .next stopping := by
  unfold receiveToEnd
  simp only
  split_ifs
  · exact ⟨_, rfl⟩
  · split
    · exact ⟨_, rfl⟩
    · exact flow_storeToEnd _ _ _ _

theorem turn_toEnd (turn : Turn Field Row) (hawaits : sink.awaitsTerminalOutcome = true)
    (hstopping : sink.stopping before = some stopping) :
    (sink.turn before turn).asked = some ⟨sink.buffer.pressure, turn.awaited, turn.stats⟩ ∧
    match turn.awaited with
    | .dropped => (sink.turn before turn).flow = .dropped
    | .cancelled | .received (.batch _) =>
      ∃ stopping, (sink.turn before turn).flow = .next stopping
    | .received _ => ∃ answer, (sink.turn before turn).flow = .answered answer := by
  obtain ⟨cancelled, awaited, stats, disk⟩ := turn
  unfold BatchSink.turn drainToEndTurn
  rw [if_pos hawaits, hstopping]
  cases awaited with
  | dropped => exact ⟨rfl, rfl⟩
  | cancelled => exact ⟨rfl, _, rfl⟩
  | received received =>
    cases received with
    | batch batch => exact ⟨rfl, flow_receiveToEnd_batch _ _ _ _⟩
    | ended | failed error => exact ⟨rfl, _, rfl⟩

end BatchSink

/-- What the source is asked, if it is asked until it ends or fails. -/
def readToEnd : List (Awaited Field Row) → List (Awaited Field Row)
  | [] => []
  | awaited :: rest =>
    match awaited with
    | .received (.batch _) | .cancelled => awaited :: readToEnd rest
    | _ => [awaited]

def Awaited.IsEnd (awaited : Awaited Field Row) : Prop :=
  awaited = .received .ended ∨ ∃ error, awaited = .received (.failed error)

namespace BatchSink

variable {sink : BatchSink Field Row} {before stopping : Stopping Field} {turn : Turn Field Row}
  {turns : List (Turn Field Row)} [DecidableEq Field] {fields : List Field}
  {limits : BufferLimits} {rows : List Row}

theorem loop_of_next (turns : List (Turn Field Row))
    (h : (sink.turn before turn).flow = .next stopping) :
    sink.loop before (turn :: turns) =
      { (sink.turn before turn).sink.loop stopping turns with
        asked := (sink.turn before turn).asked.toList ++
          ((sink.turn before turn).sink.loop stopping turns).asked
        progress := (sink.turn before turn).progress.toList ++
          ((sink.turn before turn).sink.loop stopping turns).progress } := by
  simp only [loop, h]

theorem loop_of_answered {answer : Except (SinkError Field) SinkOutcome}
    (turns : List (Turn Field Row)) (h : (sink.turn before turn).flow = .answered answer) :
    sink.loop before (turn :: turns) =
      ⟨(sink.turn before turn).asked.toList, .answered answer, (sink.turn before turn).sink,
        (sink.turn before turn).progress.toList⟩ := by
  simp only [loop, h]

theorem loop_of_dropped (turns : List (Turn Field Row))
    (h : (sink.turn before turn).flow = .dropped) :
    sink.loop before (turn :: turns) =
      ⟨(sink.turn before turn).asked.toList, .dropped, (sink.turn before turn).sink,
        (sink.turn before turn).progress.toList⟩ := by
  simp only [loop, h]

structure SameModes (sink sink' : BatchSink Field Row) : Prop where
  awaits : sink'.awaitsTerminalOutcome = sink.awaitsTerminalOutcome
  confirm : sink'.confirmEndAtLimit = sink.confirmEndAtLimit

theorem sameModes_receive (sink : BatchSink Field Row) (confirmingEnd : Bool)
    (received : Received Field Row) (turn : Turn Field Row) :
    sink.SameModes (sink.receive confirmingEnd received turn).1 := by
  unfold receive store
  split
  · exact ⟨rfl, rfl⟩
  · exact ⟨rfl, rfl⟩
  · split_ifs
    · exact ⟨rfl, rfl⟩
    · exact ⟨rfl, rfl⟩
    · split <;> exact ⟨rfl, rfl⟩

theorem sameModes_await (sink : BatchSink Field Row) (confirmingEnd : Bool)
    (turn : Turn Field Row) : sink.SameModes (sink.await confirmingEnd turn).sink := by
  unfold await
  simp only
  split
  · exact ⟨rfl, rfl⟩
  · exact ⟨rfl, rfl⟩
  · exact sameModes_receive _ _ _ _

theorem sameModes_receiveToEnd (sink : BatchSink Field Row) (before : Stopping Field)
    (received : Received Field Row) (turn : Turn Field Row) :
    sink.SameModes (sink.receiveToEnd before received turn).1 := by
  unfold receiveToEnd storeToEnd
  split
  · exact ⟨rfl, rfl⟩
  · exact ⟨rfl, rfl⟩
  · split_ifs
    · exact ⟨rfl, rfl⟩
    · split
      · exact ⟨rfl, rfl⟩
      · split <;> exact ⟨rfl, rfl⟩

theorem sameModes_turn (sink : BatchSink Field Row) (before : Stopping Field)
    (turn : Turn Field Row) : sink.SameModes (sink.turn before turn).sink := by
  unfold BatchSink.turn
  split
  · unfold drainToEndTurn
    split
    · exact ⟨rfl, rfl⟩
    · simp only
      split
      · exact ⟨rfl, rfl⟩
      · exact ⟨rfl, rfl⟩
      · exact sameModes_receiveToEnd _ _ _ _
  · unfold drainTurn
    split
    · exact ⟨rfl, rfl⟩
    · split
      · exact sameModes_await _ _ _
      · split
        · exact ⟨rfl, rfl⟩
        · split
          · exact sameModes_await _ _ _
          · exact ⟨rfl, rfl⟩
      · exact ⟨rfl, rfl⟩
      · exact ⟨rfl, rfl⟩

theorem sameModes_loop (sink : BatchSink Field Row) (before : Stopping Field)
    (turns : List (Turn Field Row)) : sink.SameModes (sink.loop before turns).sink := by
  induction turns generalizing sink before with
  | nil => exact ⟨rfl, rfl⟩
  | cons turn turns ih =>
    have hturn := sameModes_turn sink before turn
    cases hflow : (sink.turn before turn).flow with
    | next stopping =>
      rw [loop_of_next turns hflow]
      have hrest := ih (sink.turn before turn).sink stopping
      exact ⟨hrest.awaits.trans hturn.awaits, hrest.confirm.trans hturn.confirm⟩
    | answered answer => rwa [loop_of_answered turns hflow]
    | dropped => rwa [loop_of_dropped turns hflow]

theorem loop_toEnd (h : Stands fields limits rows sink (.next before))
    (hawaits : sink.awaitsTerminalOutcome = true) :
    (sink.loop before turns).asked.map (·.awaited) = readToEnd (turns.map (·.awaited)) ∧
      ∀ answer, (sink.loop before turns).flow = .answered answer →
        ∃ front last, (sink.loop before turns).asked = front ++ [last] ∧ last.awaited.IsEnd := by
  induction turns generalizing sink before rows with
  | nil => exact ⟨rfl, fun answer h => by cases h⟩
  | cons turn turns ih =>
    obtain ⟨stopping, hstopping, -⟩ := stopping_stands h hawaits
    have hturn := turn_stands h turn
    have hawaits' := (sameModes_turn sink before turn).awaits.trans hawaits
    obtain ⟨hasked, hflow⟩ := turn_toEnd turn hawaits hstopping
    have hnext : ∀ {stopping' : Stopping Field},
        (sink.turn before turn).flow = .next stopping' →
        readToEnd (turn.awaited :: turns.map (·.awaited)) =
          turn.awaited :: readToEnd (turns.map (·.awaited)) →
        (sink.loop before (turn :: turns)).asked.map (·.awaited) =
          readToEnd ((turn :: turns).map (·.awaited)) ∧
        ∀ answer, (sink.loop before (turn :: turns)).flow = .answered answer →
          ∃ front last, (sink.loop before (turn :: turns)).asked = front ++ [last] ∧
            last.awaited.IsEnd := by
      intro stopping' hflow hread
      rw [hflow] at hturn
      obtain ⟨hrest, hlast⟩ := ih hturn hawaits'
      rw [loop_of_next turns hflow, hasked]
      refine ⟨by simpa [hread] using hrest, fun answer hanswer => ?_⟩
      obtain ⟨front, last, hfront, hend⟩ := hlast answer hanswer
      exact ⟨⟨sink.buffer.pressure, turn.awaited, turn.stats⟩ :: front, last, by simp [hfront], hend⟩
    obtain ⟨cancelled, awaited, stats, disk⟩ := turn
    cases awaited with
    | dropped =>
      rw [loop_of_dropped turns hflow, hasked]
      exact ⟨rfl, fun answer h => by cases h⟩
    | cancelled =>
      obtain ⟨stopping', hflow⟩ := hflow
      exact hnext hflow rfl
    | received received =>
      cases received with
      | batch batch =>
        obtain ⟨stopping', hflow⟩ := hflow
        exact hnext hflow rfl
      | ended =>
        obtain ⟨answer, hflow⟩ := hflow
        rw [loop_of_answered turns hflow, hasked]
        exact ⟨rfl, fun _ _ => ⟨[], _, rfl, .inl rfl⟩⟩
      | failed error =>
        obtain ⟨answer, hflow⟩ := hflow
        rw [loop_of_answered turns hflow, hasked]
        exact ⟨rfl, fun _ _ => ⟨[], _, rfl, .inr ⟨error, rfl⟩⟩⟩

end BatchSink

/-- A batch with rows, asked for where the buffer had no room. -/
def Asked.pastLimit (asked : Asked Field Row) : Bool :=
  asked.pressure ≠ .ready && !asked.rows.isEmpty

namespace BatchSink

variable {sink : BatchSink Field Row} {before stopping : Stopping Field} {turn : Turn Field Row}
  {turns : List (Turn Field Row)} [DecidableEq Field] {fields : List Field}
  {limits : BufferLimits} {rows : List Row} {asked : Asked Field Row}

theorem asked_await (sink : BatchSink Field Row) (confirmingEnd : Bool) (turn : Turn Field Row) :
    (sink.await confirmingEnd turn).asked =
      some ⟨sink.buffer.pressure, turn.awaited, turn.stats⟩ := by
  unfold await
  simp only
  split <;> rfl

/-- While the end is confirmed, the loop goes on past a batch without rows only. -/
theorem rows_of_await_next (h : (sink.await true turn).flow = .next stopping) :
    Asked.rows ⟨sink.buffer.pressure, turn.awaited, turn.stats⟩ = [] := by
  obtain ⟨cancelled, awaited, stats, disk⟩ := turn
  cases awaited with
  | dropped => rfl
  | cancelled => rfl
  | received received =>
    cases received with
    | ended => rfl
    | failed error => rfl
    | batch batch =>
      simp only [await, receive, ↓reduceIte] at h
      split at h
      next hempty => exact length_eq_zero_iff.mp hempty
      next => cases h

theorem turn_room (hawaits : sink.awaitsTerminalOutcome = false)
    (hasked : (sink.turn before turn).asked = some asked) :
    (asked.pressure = .ready ∨ (sink.confirmEndAtLimit = true ∧ asked.pressure = .rowLimit)) ∧
      ∀ stopping, (sink.turn before turn).flow = .next stopping → asked.pastLimit = false := by
  rw [BatchSink.turn, if_neg (by simp [hawaits])] at *
  unfold drainTurn at *
  split at hasked
  · cases hasked
  next hcancelled =>
    simp only [hcancelled, Bool.false_eq_true, ↓reduceIte]
    cases hpressure : sink.buffer.pressure with
    | ready =>
      simp only [hpressure] at hasked ⊢
      obtain rfl := Option.some.inj ((asked_await _ _ _).symm.trans hasked)
      exact ⟨.inl hpressure, fun _ _ => by simp [Asked.pastLimit, hpressure]⟩
    | rowLimit =>
      simp only [hpressure] at hasked ⊢
      split at hasked
      · cases hasked
      next hmarked =>
        split at hasked
        next hconfirm =>
          obtain rfl := Option.some.inj ((asked_await _ _ _).symm.trans hasked)
          refine ⟨.inr ⟨hconfirm, hpressure⟩, fun stopping hflow => ?_⟩
          simp only [hmarked, hconfirm, ↓reduceIte] at hflow
          simp [Asked.pastLimit, rows_of_await_next hflow]
        next => cases hasked
    | saturated | complete =>
      simp only [hpressure] at hasked
      cases hasked

theorem loop_room (hawaits : sink.awaitsTerminalOutcome = false) :
    (∀ asked ∈ (sink.loop before turns).asked, asked.pressure = .ready ∨
        (sink.confirmEndAtLimit = true ∧ asked.pressure = .rowLimit)) ∧
      ((sink.loop before turns).asked.filter (·.pastLimit)).length ≤ 1 := by
  induction turns generalizing sink before with
  | nil => exact ⟨by simp [loop], by simp [loop]⟩
  | cons turn turns ih =>
    obtain ⟨hawaits', hconfirm'⟩ := sameModes_turn sink before turn
    have hlast : (∀ asked ∈ (sink.turn before turn).asked.toList, asked.pressure = .ready ∨
          (sink.confirmEndAtLimit = true ∧ asked.pressure = .rowLimit)) ∧
        ((sink.turn before turn).asked.toList.filter (·.pastLimit)).length ≤ 1 := by
      refine ⟨fun asked hasked => (turn_room hawaits (Option.mem_toList.mp hasked)).1, ?_⟩
      refine Nat.le_trans (length_filter_le _ _) ?_
      cases (sink.turn before turn).asked <;> simp
    cases hflow : (sink.turn before turn).flow with
    | answered answer => rwa [loop_of_answered turns hflow]
    | dropped => rwa [loop_of_dropped turns hflow]
    | next stopping =>
      obtain ⟨hroom, hpast⟩ := @ih (sink.turn before turn).sink stopping (hawaits'.trans hawaits)
      rw [loop_of_next turns hflow]
      refine ⟨fun asked hasked => ?_, ?_⟩
      · rcases mem_append.mp hasked with hfirst | hrest
        · exact hlast.1 asked hfirst
        · exact hconfirm' ▸ hroom asked hrest
      · cases hasked : (sink.turn before turn).asked with
        | none => simpa using hpast
        | some asked => simpa [(turn_room hawaits hasked).2 stopping hflow] using hpast

/-! ### Exhausted -/

def endedWhole (asked : Asked Field Row) : Prop :=
  asked.awaited = .received .ended ∧ asked.stats.truncated = false

theorem store_ne_exhausted (sink : BatchSink Field Row) (batch : RecordBatch Field Row)
    (turn : Turn Field Row) : (sink.store batch turn).2.1 ≠ .answered (.ok .exhausted) := by
  unfold store
  split
  · simp
  · simp
  · simpa using fullOutcome_ne _
  · simp

theorem endedWhole_of_await {confirmingEnd : Bool}
    (h : (sink.await confirmingEnd turn).flow = .answered (.ok .exhausted)) :
    endedWhole (⟨sink.buffer.pressure, turn.awaited, turn.stats⟩ : Asked Field Row) := by
  obtain ⟨cancelled, awaited, stats, disk⟩ := turn
  cases awaited with
  | dropped => cases h
  | cancelled => cases h
  | received received =>
    cases received with
    | ended =>
      cases hdeclared : stats.truncated with
      | false => exact ⟨rfl, hdeclared⟩
      | true => simp [await, receive, hdeclared] at h
    | failed error =>
      simp only [await, receive] at h
      split_ifs at h <;> cases h
    | batch batch =>
      simp only [await, receive] at h
      split at h
      · split at h <;> cases h
      · exact absurd h (store_ne_exhausted sink batch _)

theorem turn_exhausted (h : Stands fields limits rows sink (.next before))
    (hflow : (sink.turn before turn).flow = .answered (.ok .exhausted)) :
    ∃ asked, (sink.turn before turn).asked = some asked ∧ endedWhole asked := by
  cases hawaits : sink.awaitsTerminalOutcome with
  | true =>
    obtain ⟨stopping, hstopping, -⟩ := stopping_stands h hawaits
    -- The end of the call marks no truncation, so that the end of the source declared none.
    have hturn := turn_stands h turn
    rw [hflow, BatchSink.turn, if_pos hawaits] at hturn
    rw [BatchSink.turn, if_pos hawaits] at hflow ⊢
    unfold drainToEndTurn at hturn hflow ⊢
    rw [hstopping] at hturn hflow ⊢
    obtain ⟨cancelled, awaited, stats, disk⟩ := turn
    cases awaited with
    | dropped => cases hflow
    | cancelled => cases hflow
    | received received =>
      cases received with
      | batch batch =>
        obtain ⟨stopping', hnext⟩ := flow_receiveToEnd_batch sink stopping batch
          ⟨cancelled, .received (.batch batch), stats, disk⟩
        cases hnext.symm.trans hflow
      | ended =>
        refine ⟨_, rfl, rfl, ?_⟩
        cases hturn with
        | exhausted _ hwhole =>
          simp only [receiveToEnd, truncated_sealWith] at hwhole
          simp_all
        | cut hne => exact absurd rfl hne
      | failed error =>
        simp only [receiveToEnd] at hflow
        split at hflow <;> cases hflow
  | false =>
    rw [BatchSink.turn, if_neg (by simp [hawaits])] at *
    have hopen : sink.buffer.IsOpen := by
      cases h with
      | storing hopen hstored => exact hopen
      | stopped hawaits' => simp [hawaits] at hawaits'
    unfold drainTurn at *
    split at hflow
    · cases hflow
    next hcancelled =>
      simp only [hcancelled, Bool.false_eq_true, ↓reduceIte]
      cases hpressure : sink.buffer.pressure with
      | ready =>
        simp only [hpressure] at hflow ⊢
        exact ⟨_, asked_await _ _ _, endedWhole_of_await hflow⟩
      | rowLimit =>
        simp only [hpressure] at hflow ⊢
        split at hflow
        · cases hflow
        next hmarked =>
          split at hflow
          next hconfirm =>
            simp only [hmarked, hconfirm, Bool.false_eq_true, ↓reduceIte]
            exact ⟨_, asked_await _ _ _, endedWhole_of_await hflow⟩
          · cases hflow
      | saturated =>
        simp only [hpressure] at hflow
        cases hflow
      | complete => exact absurd hpressure hopen.pressure_ne_complete

theorem loop_exhausted (h : Stands fields limits rows sink (.next before))
    (hflow : (sink.loop before turns).flow = .answered (.ok .exhausted)) :
    ∃ front last, (sink.loop before turns).asked = front ++ [last] ∧ endedWhole last := by
  induction turns generalizing sink before rows with
  | nil => cases hflow
  | cons turn turns ih =>
    have hturn := turn_stands h turn
    cases hturnFlow : (sink.turn before turn).flow with
    | dropped =>
      rw [loop_of_dropped turns hturnFlow] at hflow
      cases hflow
    | answered answer =>
      rw [loop_of_answered turns hturnFlow] at hflow ⊢
      obtain rfl := Flow.answered.inj hflow
      obtain ⟨asked, hasked, hended⟩ := turn_exhausted h hturnFlow
      exact ⟨[], asked, by simp [hasked], hended⟩
    | next stopping =>
      rw [hturnFlow] at hturn
      rw [loop_of_next turns hturnFlow] at hflow ⊢
      obtain ⟨front, last, hfront, hended⟩ := ih hturn hflow
      exact ⟨(sink.turn before turn).asked.toList ++ front, last, by simp [hfront], hended⟩

end BatchSink

/-! ## A drained result never claims more than it holds -/

/-- What a call on these turns answers, leaves in the buffer and asks the source for. -/
structure NeverOverclaims [DecidableEq Field] (sink : BatchSink Field Row)
    (turns : List (Turn Field Row)) (call : Call Field Row) : Prop where
  exhausted : call.flow = .answered (.ok .exhausted) →
    (∃ front last, call.asked = front ++ [last] ∧ BatchSink.endedWhole last) ∧
      ∃ batches, call.sink.buffer.Represents batches ∧
        batches.flatMap (·.rows) = yielded call.asked
  cut : ∀ answer, call.flow = .answered answer → answer ≠ .ok .exhausted →
    call.sink.buffer.index.complete = true ∧ call.sink.buffer.index.stats.truncated = true
  stored : ∃ batches, call.sink.buffer.Represents batches ∧
    batches.flatMap (·.rows) <+: yielded call.asked
  room : sink.awaitsTerminalOutcome = false →
    (∀ asked ∈ call.asked, asked.pressure = .ready ∨
        (sink.confirmEndAtLimit = true ∧ asked.pressure = .rowLimit)) ∧
      (call.asked.filter (·.pastLimit)).length ≤ 1
  toEnd : sink.awaitsTerminalOutcome = true →
    call.asked.map (·.awaited) = readToEnd (turns.map (·.awaited)) ∧
      ∀ answer, call.flow = .answered answer →
        ∃ front last, call.asked = front ++ [last] ∧ last.awaited.IsEnd

section

variable {fields : List Field} {limits : BufferLimits} {rows : List Row}

theorem Stands.holds {sink : BatchSink Field Row} {flow : Flow Field}
    (h : Stands fields limits rows sink flow) : sink.Holds fields limits rows := by
  cases h with
  | storing _ hstored => exact BatchSink.holds_self hstored
  | stopped _ _ _ _ hholds => exact hholds
  | dropped _ hholds => exact hholds
  | exhausted _ _ hstored => exact BatchSink.holds_self hstored
  | cut _ _ _ hholds => exact hholds
  | unmarked _ _ _ hholds => exact hholds

theorem Stands.closed {sink : BatchSink Field Row} {answer : Except (SinkError Field) SinkOutcome}
    (h : Stands fields limits rows sink (.answered answer)) :
    sink.buffer.index.complete = true := by
  cases h <;> assumption

theorem Stands.awaits_of_unmarked {sink : BatchSink Field Row}
    {answer : Except (SinkError Field) SinkOutcome}
    (h : Stands fields limits rows sink (.answered answer)) (hne : answer ≠ .ok .exhausted)
    (hwhole : sink.buffer.index.stats.truncated = false) :
    sink.awaitsTerminalOutcome = true := by
  cases h with
  | exhausted => exact absurd rfl hne
  | cut _ _ hmarked => simp [hmarked] at hwhole
  | unmarked hawaits => exact hawaits

variable [DecidableEq Field]

/-- All but the mark of a truncation holds of every call; the mark is missing exactly where
a call ends unmarked. -/
theorem neverOverclaims_iff {sink : BatchSink Field Row}
    (h : Stands fields limits [] sink (.next .none)) (turns : List (Turn Field Row)) :
    NeverOverclaims sink turns (sink.loop .none turns) ↔ ¬ (sink.loop .none turns).Unmarked := by
  have hloop := BatchSink.loop_stands h turns
  rw [nil_append] at hloop
  constructor
  · rintro hover ⟨answer, hflow, hne, hwhole⟩
    simp [(hover.cut answer hflow hne).2] at hwhole
  · intro hmarked
    refine ⟨fun hflow => ⟨BatchSink.loop_exhausted h hflow, ?_⟩, fun answer hflow hne => ?_, ?_,
      BatchSink.loop_room, BatchSink.loop_toEnd h⟩
    · rw [hflow] at hloop
      cases hloop with
      | exhausted _ hwhole hstored =>
        obtain ⟨batches, hrepresents, -, hrows⟩ := hstored.represents
        exact ⟨batches, hrepresents, hrows hwhole⟩
      | cut hne => exact absurd rfl hne
    · refine ⟨(hflow ▸ hloop).closed, ?_⟩
      by_contra hwhole
      exact hmarked ⟨answer, hflow, hne, eq_false_of_ne_true hwhole⟩
    · obtain ⟨stored, hstored, hprefix⟩ := hloop.holds
      obtain ⟨batches, hrepresents, hrows, -⟩ := hstored.represents
      exact ⟨batches, hrepresents, hrows.trans hprefix⟩

/-- A new sink never overclaims, but where it awaits the terminal outcome, a batch cannot be
stored while the buffer has room, and the source reaches its end all the same. -/
theorem drain_never_overclaims (fields : List Field) (limits : BufferLimits)
    (confirmEndAtLimit awaitsTerminalOutcome : Bool) (turns : List (Turn Field Row)) :
    let sink := BatchSink.new (.withLimits fields limits) confirmEndAtLimit awaitsTerminalOutcome
    NeverOverclaims sink turns (sink.drainWith turns) ↔
      ¬ (awaitsTerminalOutcome = true ∧ StoreFails (.withLimits fields limits) turns ∧
        EndsWhole turns) := by
  intro sink
  have hopen : sink.buffer.IsOpen := ResultBuffer.isOpen_withLimits fields limits
  have hstored : sink.buffer.Stored fields limits [] := ResultBuffer.stored_withLimits fields limits
  have hstands : Stands fields limits [] sink (.next .none) := .storing hopen hstored
  show NeverOverclaims sink turns (sink.loop .none turns) ↔ _
  rw [neverOverclaims_iff hstands, not_iff_not]
  cases awaitsTerminalOutcome with
  | true =>
    rw [BatchSink.unmarked_iff rfl hopen hstored]
    exact (and_iff_right rfl).symm
  | false =>
    refine iff_of_false ?_ (by simp)
    rintro ⟨answer, hflow, hne, hwhole⟩
    have hloop := BatchSink.loop_stands hstands turns
    rw [hflow] at hloop
    have hawaits := hloop.awaits_of_unmarked hne hwhole
    rw [(BatchSink.sameModes_loop sink .none turns).awaits] at hawaits
    cases hawaits

end

/-- A sink that awaits the terminal outcome, and keeps no row in memory. -/
def spillingSink : BatchSink Unit Nat :=
  .new (.withLimits [()] ⟨0, none, none, true, Nat.zero_le _, rows_unbounded⟩) false true

/-- The source yields one row, which the disk does not take, and ends. -/
def refusedRow : List (Turn Unit Nat) :=
  [⟨false, .received (.batch ⟨[()], [7], 40⟩), .default, .error .spill⟩,
    ⟨false, .received .ended, .default, .error .spill⟩]

/-- The buffer is complete, holds no row, and is not marked truncated. -/
theorem refused_row_unmarked :
    ¬ NeverOverclaims spillingSink refusedRow (spillingSink.drainWith refusedRow) := by
  intro h
  have hmarked := (h.cut (.error (.store (.disk .spill))) rfl (by simp)).2
  exact absurd hmarked (by decide)

end Oxyn.Data
