/-
# `Oxyn.Data.Sink` — draining a source into a result buffer

A sink asks its source for a batch, stores it, and goes round again.
-/
import Oxyn.Data.Stream

namespace Oxyn.Data

variable {Field Row : Type} [DecidableEq Field]

/-! ## Answers -/

/-- Why the sink stopped. -/
inductive SinkOutcome where
  | exhausted
  | rowLimit
  | rowLimitUnverified
  | saturated
  | cancelled
deriving DecidableEq

/-- How a source fails; the other failures are told apart by their text only. -/
inductive SourceError where
  | cancelled
  | timeout
  | other (message : String)
deriving DecidableEq

def SourceError.isCancelled : SourceError → Bool
  | .cancelled => true
  | _ => false

inductive SinkError (Field : Type) where
  | internal (message : String)
  | source (error : SourceError)
  | store (error : DataError Field)

/-- What the sink just stored. -/
structure BatchProgress where
  index : Nat
  rows : Nat
  totalRows : Nat

/-! ## Turns -/

inductive Received (Field Row : Type) where
  | batch (batch : RecordBatch Field Row)
  | ended
  | failed (error : SourceError)

/-- What comes first while a batch is awaited. -/
inductive Awaited (Field Row : Type) where
  | received (received : Received Field Row)
  | cancelled
  | dropped

structure Turn (Field Row : Type) where
  cancelled : Bool
  awaited : Awaited Field Row
  stats : ExecStats
  disk : Except DiskError StreamLen

structure Asked (Field Row : Type) where
  pressure : Pressure
  awaited : Awaited Field Row
  stats : ExecStats

/-- The rows a source yielded. -/
def Asked.rows (asked : Asked Field Row) : List Row :=
  match asked.awaited with
  | .received (.batch batch) => batch.rows
  | _ => []

/-- Why the second loop no longer stores what it reads. -/
structure Stopping (Field : Type) where
  stopped : Option SinkOutcome
  storeFailure : Option (DataError Field)

/-- How a turn ends. -/
inductive Flow (Field : Type) where
  | next (stopping : Stopping Field)
  | answered (answer : Except (SinkError Field) SinkOutcome)
  | dropped

/-- The loop still stores what it reads. -/
def Stopping.none : Stopping Field := ⟨.none, .none⟩

/-! ## The sink -/

structure BatchSink (Field Row : Type) where
  buffer : ResultBuffer Field Row
  /-- Was a read abandoned in flight? -/
  aborted : Bool
  confirmEndAtLimit : Bool
  awaitsTerminalOutcome : Bool

structure Turned (Field Row : Type) where
  sink : BatchSink Field Row
  flow : Flow Field
  asked : Option (Asked Field Row)
  progress : Option BatchProgress

def ResultBuffer.batchRows (buffer : ResultBuffer Field Row) (position : Nat) : Option Nat :=
  buffer.index.starts[position]?.map fun start =>
    (buffer.index.starts[position + 1]?.getD buffer.index.rows) - start

namespace BatchSink

def new (buffer : ResultBuffer Field Row) (confirmEndAtLimit awaitsTerminalOutcome : Bool) :
    BatchSink Field Row :=
  ⟨buffer, false, confirmEndAtLimit, awaitsTerminalOutcome⟩

variable (sink : BatchSink Field Row)

/-- Closes the buffer with the source's measurements. -/
def sealWith (stats : ExecStats) (truncated : Bool) : BatchSink Field Row :=
  let buffer := if truncated then sink.buffer.markTruncated else sink.buffer
  { sink with buffer := buffer.markComplete stats }

/-- What is reported of a batch that was stored. -/
def progressOf (index : Nat) : BatchProgress :=
  ⟨index, (sink.buffer.batchRows index).getD 0, sink.buffer.index.rows⟩

def fullOutcome : SinkOutcome :=
  match sink.buffer.pressure with
  | .rowLimit => .rowLimit
  | _ => .saturated

/-! ### The first loop -/

def store (batch : RecordBatch Field Row) (turn : Turn Field Row) :
    BatchSink Field Row × Flow Field × Option BatchProgress :=
  match sink.buffer.push batch turn.disk with
  | (.ok none, buffer) => ({ sink with buffer := buffer }, .next .none, none)
  | (.ok (some index), buffer) =>
    let sink := { sink with buffer := buffer }
    (sink, .next .none, some (sink.progressOf index))
  | (.error (.full _), buffer) =>
    let sink := { sink with buffer := buffer }
    (sink.sealWith turn.stats true, .answered (.ok sink.fullOutcome), none)
  | (.error error, buffer) =>
    ({ sink with buffer := buffer }.sealWith turn.stats true, .answered (.error (.store error)), none)

def receive (confirmingEnd : Bool) (received : Received Field Row) (turn : Turn Field Row) :
    BatchSink Field Row × Flow Field × Option BatchProgress :=
  match received with
  | .ended =>
    -- A bounded driver ends its stream at the limit, and says so in its stats.
    (sink.sealWith turn.stats false,
      .answered (.ok (if turn.stats.truncated then .rowLimit else .exhausted)), none)
  | .failed error =>
    let answer :=
      if error.isCancelled then .ok .cancelled
      else if error = .timeout ∧ confirmingEnd then .ok .rowLimitUnverified
      else .error (.source error)
    (sink.sealWith turn.stats true, .answered answer, none)
  | .batch batch =>
    if confirmingEnd then
      if batch.numRows = 0 then (sink, .next .none, none)
      else (sink.sealWith turn.stats true, .answered (.ok .rowLimit), none)
    else sink.store batch turn

/-- Asks the source for a batch, and races it against the token. -/
def await (confirmingEnd : Bool) (turn : Turn Field Row) : Turned Field Row :=
  let asked := some ⟨sink.buffer.pressure, turn.awaited, turn.stats⟩
  match turn.awaited with
  | .dropped => ⟨sink, .dropped, asked, none⟩
  | .cancelled =>
    ⟨{ sink with aborted := true }.sealWith turn.stats true, .answered (.ok .cancelled), asked, none⟩
  | .received received =>
    let (sink, flow, progress) := sink.receive confirmingEnd received turn
    ⟨sink, flow, asked, progress⟩

/-- An answer without asking the source. -/
def answer (outcome : SinkOutcome) : Turned Field Row := ⟨sink, .answered (.ok outcome), none, none⟩

/-- One turn of the first loop. -/
def drainTurn (turn : Turn Field Row) : Turned Field Row :=
  if turn.cancelled then (sink.sealWith turn.stats true).answer .cancelled
  else
    match sink.buffer.pressure with
    | .ready => sink.await false turn
    | .rowLimit =>
      if sink.buffer.index.stats.truncated then (sink.sealWith turn.stats true).answer .rowLimit
      else if sink.confirmEndAtLimit then sink.await true turn
      else (sink.sealWith turn.stats true).answer .rowLimitUnverified
    | .saturated => (sink.sealWith turn.stats true).answer .saturated
    | .complete => sink.answer .exhausted

/-! ### The second loop -/

/-- Why the buffer takes no more rows, once it does not; a complete one ends the call. -/
def stopping (before : Stopping Field) : Option (Stopping Field) :=
  if before.stopped.isNone ∧ before.storeFailure.isNone then
    match sink.buffer.pressure with
    | .ready => some before
    | .rowLimit =>
      some { before with
        stopped := some (if sink.buffer.index.stats.truncated then .rowLimit else .rowLimitUnverified) }
    | .saturated => some { before with stopped := some .saturated }
    | .complete => none
  else some before

def storeToEnd (before : Stopping Field) (batch : RecordBatch Field Row) (turn : Turn Field Row) :
    BatchSink Field Row × Flow Field × Option BatchProgress :=
  match sink.buffer.push batch turn.disk with
  | (.ok none, buffer) => ({ sink with buffer := buffer }, .next before, none)
  | (.ok (some index), buffer) =>
    let sink := { sink with buffer := buffer }
    (sink, .next before, some (sink.progressOf index))
  | (.error (.full _), buffer) =>
    let sink := { sink with buffer := buffer }
    (sink, .next { before with stopped := some sink.fullOutcome }, none)
  | (.error error, buffer) =>
    ({ sink with buffer := buffer }, .next { before with storeFailure := some error }, none)

def receiveToEnd (before : Stopping Field) (received : Received Field Row)
    (turn : Turn Field Row) : BatchSink Field Row × Flow Field × Option BatchProgress :=
  match received with
  | .ended =>
    let truncated := before.stopped.isSome || turn.stats.truncated
    let answer := match before.storeFailure with
      | some failure => .error (.store failure)
      | none => .ok (before.stopped.getD (if truncated then .rowLimit else .exhausted))
    (sink.sealWith turn.stats truncated, .answered answer, none)
  | .failed error =>
    let answer := if error.isCancelled then .ok .cancelled else .error (.source error)
    (sink.sealWith turn.stats true, .answered answer, none)
  | .batch batch =>
    if before.storeFailure.isSome then (sink, .next before, none)
    else
      match before.stopped with
      | some outcome =>
        -- A row the limit kept out: the result is certainly cut.
        let stopped :=
          if outcome = .rowLimitUnverified ∧ 0 < batch.numRows then .rowLimit else outcome
        (sink, .next { before with stopped := some stopped }, none)
      | none => sink.storeToEnd before batch turn

/-- One turn of the second loop: where only the token was triggered, the source is awaited again. -/
def drainToEndTurn (before : Stopping Field) (turn : Turn Field Row) : Turned Field Row :=
  match sink.stopping before with
  | none => sink.answer .exhausted
  | some stopping =>
    let asked := some ⟨sink.buffer.pressure, turn.awaited, turn.stats⟩
    match turn.awaited with
    | .dropped => ⟨sink, .dropped, asked, none⟩
    | .cancelled => ⟨sink, .next stopping, asked, none⟩
    | .received received =>
      let (sink, flow, progress) := sink.receiveToEnd stopping received turn
      ⟨sink, flow, asked, progress⟩

/-! ### Calls -/

def turn (before : Stopping Field) (turn : Turn Field Row) : Turned Field Row :=
  if sink.awaitsTerminalOutcome then sink.drainToEndTurn before turn else sink.drainTurn turn

end BatchSink

structure Call (Field Row : Type) where
  asked : List (Asked Field Row)
  flow : Flow Field
  sink : BatchSink Field Row
  progress : List BatchProgress

namespace BatchSink

def loop (sink : BatchSink Field Row) (before : Stopping Field) :
    List (Turn Field Row) → Call Field Row
  | [] => ⟨[], .next before, sink, []⟩
  | turn :: turns =>
    let turned := sink.turn before turn
    match turned.flow with
    | .next stopping =>
      let rest := turned.sink.loop stopping turns
      { rest with
        asked := turned.asked.toList ++ rest.asked
        progress := turned.progress.toList ++ rest.progress }
    | flow => ⟨turned.asked.toList, flow, turned.sink, turned.progress.toList⟩

def drainWith (sink : BatchSink Field Row) (turns : List (Turn Field Row)) : Call Field Row :=
  if sink.aborted then
    ⟨[], .answered (.error (.internal
      "batch source was abandoned mid-flight and cannot be resumed")), sink, []⟩
  else sink.loop .none turns

end BatchSink

end Oxyn.Data
