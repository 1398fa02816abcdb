/-
# `Oxyn.Data.Export` — exporting a result while it is closed

An export reads the buffer several times: whether it is truncated, whether it is complete, how
many batches it holds, then each of them.
-/
import Oxyn.Data.Stream

open Runs

namespace Oxyn.Data

open List

open Offsets

variable {Field Row : Type}

/-! ## Formats and errors -/

inductive ExportFormat where
  | csv
  | tsv
  | json
  | jsonLines
  | parquet
  | arrowIpc
  | sql
  | markdown
deriving DecidableEq

namespace ExportFormat

def extension : ExportFormat → String
  | csv => "csv"
  | tsv => "tsv"
  | json => "json"
  | jsonLines => "jsonl"
  | parquet => "parquet"
  | arrowIpc => "arrow"
  | sql => "sql"
  | markdown => "md"

/-- Is this format really written? -/
def isSupported : ExportFormat → Bool
  | csv | tsv | json | jsonLines | arrowIpc => true
  | _ => false

/-- Does a row become an object whose keys are the names of the columns? -/
def keyedByName : ExportFormat → Bool
  | json | jsonLines => true
  | _ => false

end ExportFormat

inductive ExportError (Field : Type) where
  | truncatedResult
  | incompleteResult
  | duplicateColumnNames (format : String) (names : List String)
  | unsupportedFormat (format : String)
  | cancelled
  | spill (message : String)
  | read (error : DataError Field)
  | write (message : String)

structure ExportSummary where
  rows : Nat
  batches : Nat
deriving DecidableEq

structure ExportOptions where
  format : ExportFormat
  allowIncomplete : Bool

/-- The names carried by more than one column, once each, in the order of their second
column. -/
def sharedNames (names : List String) : List String :=
  (names.foldl
    (fun (seen, shared) name =>
      if name ∈ seen ∧ name ∉ shared then (seen, shared ++ [name])
      else (name :: seen, shared))
    (([] : List String), ([] : List String))).2

/-! ## The export -/

inductive Stage (Field : Type) where
  | readTruncated
  | readComplete
  | readCount
  | readBatch (batchCount position : Nat) (summary : ExportSummary)
  | answered (result : Except (ExportError Field) ExportSummary)

structure Exporting (Field Row : Type) where
  buffer : ResultBuffer Field Row
  stage : Stage Field
  written : List Row

/-- What a step of the export meets: its token triggered, and how the disk and the writer
fail. -/
structure ExportTurn where
  cancelled : Bool
  disk : Option DiskError
  writer : Option String

namespace Exporting

variable [DecidableEq Field] (name : Field → String) (opts : ExportOptions)

def goOn (exporting : Exporting Field Row) (stage : Stage Field) : Exporting Field Row :=
  { exporting with stage := stage }

def refuse (exporting : Exporting Field Row) (error : ExportError Field) : Exporting Field Row :=
  exporting.goOn (.answered (.error error))

def checkComplete (exporting : Exporting Field Row) : Exporting Field Row :=
  if exporting.buffer.index.complete = false ∧ opts.allowIncomplete = false then
    exporting.refuse .incompleteResult
  else
    let names := sharedNames (exporting.buffer.fields.map name)
    if opts.format.keyedByName ∧ names ≠ [] then
      exporting.refuse (.duplicateColumnNames opts.format.extension names)
    else exporting.goOn .readCount

/-- Opens the writer on the batches there are now: the export of a result in progress has a
defined end. -/
def openWriter (exporting : Exporting Field Row) (turn : ExportTurn) : Exporting Field Row :=
  if opts.format.isSupported then
    match turn.writer with
    | some failure => exporting.refuse (.write failure)
    | none => exporting.goOn (.readBatch exporting.buffer.index.slots.length 0 ⟨0, 0⟩)
  else exporting.refuse (.unsupportedFormat opts.format.extension)

/-- Reads one batch back and writes it; the token is looked at in between two of them. -/
def emit (exporting : Exporting Field Row) (batchCount position : Nat) (summary : ExportSummary)
    (turn : ExportTurn) : Exporting Field Row :=
  if turn.cancelled then exporting.refuse .cancelled
  else
    let (answer, buffer) := exporting.buffer.batchCancellable position ⟨false, turn.disk, false, false⟩
    let exporting := { exporting with buffer := buffer }
    match answer with
    | .error error => exporting.refuse (.read error)
    | .ok none => exporting.refuse (.spill "a batch vanished from the buffer during export")
    | .ok (some batch) =>
      match turn.writer with
      | some failure => exporting.refuse (.write failure)
      | none =>
        { exporting with
          written := exporting.written ++ batch.rows
          stage := .readBatch batchCount (position + 1)
            ⟨satAdd wordMax summary.rows batch.numRows, satAdd wordMax summary.batches 1⟩ }

/-- Ends the file, and answers. -/
def finish (exporting : Exporting Field Row) (summary : ExportSummary) (turn : ExportTurn) :
    Exporting Field Row :=
  match turn.writer with
  | some failure => exporting.refuse (.write failure)
  | none => exporting.goOn (.answered (.ok summary))

def step (exporting : Exporting Field Row) (turn : ExportTurn) : Option (Exporting Field Row) :=
  match exporting.stage with
  | .readTruncated =>
    -- Truncated first: it is never cleared.
    some (if exporting.buffer.index.stats.truncated then exporting.refuse .truncatedResult
      else exporting.goOn .readComplete)
  | .readComplete => some (exporting.checkComplete name opts)
  | .readCount => some (exporting.openWriter opts turn)
  | .readBatch batchCount position summary =>
    some (if position < batchCount then exporting.emit batchCount position summary turn
      else exporting.finish summary turn)
  | .answered _ => none

end Exporting

/-! ## Runs -/

/-- A step of the export, or an operation of the producer or of a reader. -/
inductive ExportEvent (Field Row : Type) where
  | turn (turn : ExportTurn)
  | buffer (op : Op Field Row) (answer : Answer Field Row)

inductive ExportStep [DecidableEq Field] (name : Field → String) (opts : ExportOptions) :
    Exporting Field Row → ExportEvent Field Row → Exporting Field Row → Prop
  | turn {exporting exporting' : Exporting Field Row} (turn : ExportTurn) :
      exporting.step name opts turn = some exporting' →
      ExportStep name opts exporting (.turn turn) exporting'
  | buffer {exporting : Exporting Field Row} (op : Op Field Row) {answer : Answer Field Row}
      {buffer : ResultBuffer Field Row} : exporting.buffer.apply op = (answer, buffer) →
      ExportStep name opts exporting (.buffer op answer) { exporting with buffer := buffer }

def Exporting.new (fields : List Field) (limits : BufferLimits) : Exporting Field Row :=
  ⟨.withLimits fields limits, .readTruncated, []⟩

/-- An operation that marks a truncation, whatever the buffer holds. -/
def Op.marksTruncation : Op Field Row → Bool
  | .markTruncated => true
  | .markComplete stats => stats.truncated
  | _ => false

def Stage.isPastChecks : Stage Field → Bool
  | .readCount | .readBatch .. => true
  | _ => false

/-- The buffer is not cut and closed between the checks, and no truncation is marked on a complete
one while it is written. -/
def Undisturbed (exporting : Exporting Field Row) : ExportEvent Field Row → Prop
  | .turn _ => exporting.stage = .readComplete →
      ¬ (exporting.buffer.index.complete = true ∧ exporting.buffer.index.stats.truncated = true)
  | .buffer op _ => exporting.stage.isPastChecks = true →
      ¬ (exporting.buffer.index.complete = true ∧ op.marksTruncation = true)

def QuietStep [DecidableEq Field] (name : Field → String) (opts : ExportOptions)
    (exporting : Exporting Field Row) (event : ExportEvent Field Row)
    (exporting' : Exporting Field Row) : Prop :=
  ExportStep name opts exporting event exporting' ∧ Undisturbed exporting event

/-! ## A complete buffer stays as it is -/

namespace ResultBuffer

variable {buffer buffer' : ResultBuffer Field Row} {batches batches' : List (RecordBatch Field Row)}

theorem Represents.unique (h : buffer.Represents batches) (h' : buffer'.Represents batches')
    (hslots : buffer'.index.slots = buffer.index.slots) (hspill : buffer'.spill = buffer.spill) :
    batches' = batches := by
  have hmap : batches'.map some = batches.map some := by
    rw [← h.slots, ← h'.slots, hslots, hspill]
  exact map_injective_iff.mpr (fun _ _ => Option.some.inj) hmap

variable [DecidableEq Field]

theorem push_of_complete (hcomplete : buffer.index.complete = true) (batch : RecordBatch Field Row)
    (disk : Except DiskError StreamLen) : (buffer.push batch disk).2 = buffer := by
  cases hpush : buffer.push batch disk with
  | mk answer pushed =>
    cases answer with
    | error e => exact push_eq_error hpush
    | ok position =>
      unfold push at hpush
      split at hpush
      · exact (Prod.mk.inj hpush).2.symm
      · simp only at hpush
        split at hpush
        · simp at hpush
        next plan hplanned =>
          have := (BufferIndex.plan_eq_ok (plan_of_planned hplanned).2).1
          simp [hcomplete] at this

structure Closed (buffer : ResultBuffer Field Row) (marked : Bool)
    (buffer' : ResultBuffer Field Row) : Prop where
  slots : buffer'.index.slots = buffer.index.slots
  spill : buffer'.spill = buffer.spill
  complete : buffer'.index.complete = true
  truncated : buffer'.index.stats.truncated = (buffer.index.stats.truncated || marked)

theorem Represents.closed_of_apply (h : buffer.Represents batches)
    (hcomplete : buffer.index.complete = true) (op : Op Field Row) :
    buffer.Closed op.marksTruncation (buffer.apply op).2 := by
  have hread : ∀ {position : Nat} {answer : Option (RecordBatch Field Row)}
      {buffer' : ResultBuffer Field Row}, buffer.Reads batches position answer buffer' →
      buffer.Closed false buffer' := by
    rintro position answer _ ⟨⟨cache, rfl⟩, -, -⟩
    exact ⟨rfl, rfl, hcomplete, (Bool.or_false _).symm⟩
  cases op with
  | push batch disk =>
    have hsame : (buffer.apply (.push batch disk)).2 = buffer :=
      push_of_complete hcomplete batch disk
    rw [hsame]
    exact ⟨rfl, rfl, hcomplete, (Bool.or_false _).symm⟩
  | markTruncated => exact ⟨rfl, rfl, hcomplete, (Bool.or_true _).symm⟩
  | markComplete stats =>
    refine ⟨rfl, rfl, rfl, ?_⟩
    cases hmarked : buffer.index.stats.truncated <;>
      simp [apply, ResultBuffer.markComplete, hmarked, ExecStats.markTruncated, Op.marksTruncation]
  | batch position read => exact hread (h.batchCancellable position read)
  | cachedBatch position contended => exact hread (h.cachedBatch position contended)
  | loadPage position read => exact hread (h.loadPage position read)

end ResultBuffer

/-! ## What an export has written -/

section

variable [DecidableEq Field] {fields : List Field} {limits : BufferLimits}
  {name : Field → String} {opts : ExportOptions} {exporting exporting' : Exporting Field Row}
  {event : ExportEvent Field Row}

def Reached (fields : List Field) (limits : BufferLimits) (buffer : ResultBuffer Field Row) : Prop :=
  ∃ tr, BufferRun fields limits tr buffer

theorem Reached.apply {buffer : ResultBuffer Field Row} (h : Reached fields limits buffer)
    (op : Op Field Row) : Reached fields limits (buffer.apply op).2 := by
  obtain ⟨tr, hrun⟩ := h
  exact ⟨_, hrun.snoc (show OpStep buffer (op, (buffer.apply op).1) (buffer.apply op).2 from rfl)⟩

theorem Reached.represents {buffer : ResultBuffer Field Row} (h : Reached fields limits buffer) :
    ∃ batches, buffer.Represents batches := by
  obtain ⟨tr, hrun⟩ := h
  obtain ⟨batches, hstream⟩ := Streamed.run hrun
  exact ⟨batches, hstream.represents⟩

structure WrittenUpTo (exporting : Exporting Field Row) (batchCount position : Nat) : Prop where
  complete : exporting.buffer.index.complete = true
  whole : exporting.buffer.index.stats.truncated = false
  batchCount : batchCount = exporting.buffer.index.slots.length
  written : ∃ batches, exporting.buffer.Represents batches ∧
    exporting.written = (batches.take position).flatMap (·.rows)

structure Exports (fields : List Field) (limits : BufferLimits)
    (exporting : Exporting Field Row) : Prop where
  reached : Reached fields limits exporting.buffer
  nothing : exporting.stage = .readTruncated ∨ exporting.stage = .readComplete ∨
    exporting.stage = .readCount → exporting.written = []
  counted : exporting.stage = .readCount →
    exporting.buffer.index.complete = true ∧ exporting.buffer.index.stats.truncated = false
  writing : ∀ batchCount position summary,
    exporting.stage = .readBatch batchCount position summary →
      WrittenUpTo exporting batchCount position

theorem exports_new (fields : List Field) (limits : BufferLimits) :
    Exports fields limits (.new fields limits : Exporting Field Row) where
  reached := ⟨[], .nil⟩
  nothing := fun _ => rfl
  counted := fun h => by cases h
  writing := fun _ _ _ h => by cases h

theorem WrittenUpTo.apply {batchCount position : Nat} (h : WrittenUpTo exporting batchCount position)
    (hreached : Reached fields limits exporting.buffer) {op : Op Field Row}
    (hop : op.marksTruncation = false) :
    WrittenUpTo { exporting with buffer := (exporting.buffer.apply op).2 } batchCount position := by
  obtain ⟨batches, hrepresents, hwritten⟩ := h.written
  obtain ⟨batches', hrepresents'⟩ := (hreached.apply op).represents
  have hclosed := hrepresents.closed_of_apply h.complete op
  obtain rfl := hrepresents.unique hrepresents' hclosed.slots hclosed.spill
  refine ⟨hclosed.complete, ?_, ?_, batches', hrepresents', hwritten⟩
  · rw [hclosed.truncated, h.whole, hop]
    rfl
  · rw [h.batchCount, hclosed.slots]

theorem Exports.buffer (h : Exports fields limits exporting) {op : Op Field Row}
    {answer : Answer Field Row} (hquiet : Undisturbed exporting (.buffer op answer)) :
    Exports fields limits { exporting with buffer := (exporting.buffer.apply op).2 } := by
  have hmarks : exporting.buffer.index.complete = true → exporting.stage.isPastChecks = true →
      op.marksTruncation = false := fun hcomplete hpast =>
    eq_false_of_ne_true fun hop => hquiet hpast ⟨hcomplete, hop⟩
  refine ⟨h.reached.apply op, h.nothing, fun hcount => ?_, fun batchCount position summary hstage => ?_⟩
  · obtain ⟨hcomplete, hwhole⟩ := h.counted hcount
    have hstage : exporting.stage = .readCount := hcount
    obtain ⟨batches, hrepresents⟩ := h.reached.represents
    have hclosed := hrepresents.closed_of_apply hcomplete op
    refine ⟨hclosed.complete, ?_⟩
    rw [hclosed.truncated, hwhole, hmarks hcomplete (by simp [hstage, Stage.isPastChecks])]
    rfl
  · have hstage' : exporting.stage = .readBatch batchCount position summary := hstage
    have hwriting := h.writing _ _ _ hstage'
    exact hwriting.apply h.reached
      (hmarks hwriting.complete (by simp [hstage', Stage.isPastChecks]))

theorem Exports.answered (h : Exports fields limits exporting)
    (result : Except (ExportError Field) ExportSummary) :
    Exports fields limits (exporting.goOn (.answered result)) where
  reached := h.reached
  nothing := fun hstage => by rcases hstage with h | h | h <;> cases h
  counted := fun hstage => by cases hstage
  writing := fun _ _ _ hstage => by cases hstage

theorem Exports.checkComplete (h : Exports fields limits exporting)
    (hallow : opts.allowIncomplete = false) (hstage : exporting.stage = .readComplete)
    (hwhole : ¬ (exporting.buffer.index.complete = true ∧
      exporting.buffer.index.stats.truncated = true)) :
    Exports fields limits (exporting.checkComplete name opts) := by
  unfold Exporting.checkComplete
  split
  · exact h.answered _
  next hcomplete =>
    simp only
    split
    · exact h.answered _
    · have hclosed : exporting.buffer.index.complete = true := by
        by_contra hopen
        exact hcomplete ⟨eq_false_of_ne_true hopen, hallow⟩
      refine ⟨h.reached, fun _ => h.nothing (.inr (.inl hstage)), fun _ => ⟨hclosed, ?_⟩,
        fun _ _ _ hstage => by cases hstage⟩
      exact eq_false_of_ne_true fun hmarked => hwhole ⟨hclosed, hmarked⟩

theorem Exports.openWriter (h : Exports fields limits exporting)
    (hstage : exporting.stage = .readCount) (turn : ExportTurn) :
    Exports fields limits (exporting.openWriter opts turn) := by
  unfold Exporting.openWriter
  split
  · split
    · exact h.answered _
    · obtain ⟨hcomplete, hwhole⟩ := h.counted hstage
      obtain ⟨batches, hrepresents⟩ := h.reached.represents
      refine ⟨h.reached, fun hstage => by (rcases hstage with h | h | h <;> cases h),
        fun hstage => (by cases hstage), fun batchCount position summary hstage => ?_⟩
      obtain ⟨rfl, rfl, -⟩ := Stage.readBatch.inj hstage
      refine ⟨hcomplete, hwhole, rfl, batches, hrepresents, ?_⟩
      exact h.nothing (.inr (.inr ‹_›))
  · exact h.answered _

theorem Exports.emit (h : Exports fields limits exporting) {batchCount position : Nat}
    {summary : ExportSummary} (hstage : exporting.stage = .readBatch batchCount position summary)
    (turn : ExportTurn) :
    Exports fields limits (exporting.emit batchCount position summary turn) := by
  have hquiet : Undisturbed exporting
      (.buffer (.batch position ⟨false, turn.disk, false, false⟩)
        (exporting.buffer.apply (.batch position ⟨false, turn.disk, false, false⟩)).1) :=
    fun _ hmarks => Bool.noConfusion hmarks.2
  have hread := h.buffer hquiet
  have hwriting := hread.writing _ _ _ hstage
  obtain ⟨batches, hrepresents, hwritten⟩ := (h.writing _ _ _ hstage).written
  have hbatch := hrepresents.batchCancellable position ⟨false, turn.disk, false, false⟩
  simp only [ResultBuffer.apply, Prod.map, id] at hread hwriting
  unfold Exporting.emit
  split
  · exact h.answered _
  · cases hanswer : exporting.buffer.batchCancellable position ⟨false, turn.disk, false, false⟩ with
    | mk answer buffer =>
      rw [hanswer] at hread hwriting hbatch
      cases answer with
      | error error => exact hread.answered _
      | ok batch =>
        cases batch with
        | none => exact hread.answered _
        | some batch =>
          simp only
          split
          · exact hread.answered _
          · refine ⟨hread.reached, fun hstage => by (rcases hstage with h | h | h <;> cases h),
              fun hstage => (by cases hstage), fun batchCount' position' summary' hstage => ?_⟩
            obtain ⟨rfl, rfl, -⟩ := Stage.readBatch.inj hstage
            have hget : batches[position]? = some batch := hbatch.batch batch rfl
            refine ⟨hwriting.complete, hwriting.whole, hwriting.batchCount, batches,
              hbatch.represents, ?_⟩
            rw [take_add_one, hget, flatMap_append, ← hwritten]
            simp

theorem Exports.step (h : Exports fields limits exporting) (hallow : opts.allowIncomplete = false)
    (hquiet : Undisturbed exporting event) (hstep : ExportStep name opts exporting event exporting') :
    Exports fields limits exporting' := by
  cases hstep with
  | buffer op happly =>
    obtain rfl := congrArg Prod.snd happly
    exact h.buffer hquiet
  | turn turn hstep =>
    unfold Exporting.step at hstep
    split at hstep
    next hstage =>
      obtain rfl := Option.some.inj hstep
      split
      · exact h.answered _
      · exact ⟨h.reached, fun _ => h.nothing (.inl hstage), fun hstage => (by cases hstage),
          fun _ _ _ hstage => by cases hstage⟩
    next hstage =>
      obtain rfl := Option.some.inj hstep
      exact h.checkComplete hallow hstage (hquiet hstage)
    next hstage =>
      obtain rfl := Option.some.inj hstep
      exact h.openWriter hstage _
    next hstage =>
      obtain rfl := Option.some.inj hstep
      split
      · exact h.emit hstage _
      · unfold Exporting.finish
        split
        · exact h.answered _
        · exact h.answered _
    · cases hstep

theorem Exports.run {tr : List (ExportEvent Field Row)} (hallow : opts.allowIncomplete = false)
    (hrun : Steps (QuietStep name opts) (.new fields limits) tr exporting) :
    Exports fields limits exporting :=
  hrun.invariant (fun _ _ _ h hstep => h.step hallow hstep.2 hstep.1) (exports_new fields limits)

theorem answered_of_step {turn : ExportTurn} {summary : ExportSummary}
    (hstep : ExportStep name opts exporting (.turn turn) exporting')
    (hanswer : exporting'.stage = .answered (.ok summary)) :
    ∃ batchCount position last, exporting.stage = .readBatch batchCount position last ∧
      batchCount ≤ position ∧ exporting' = exporting.goOn (.answered (.ok summary)) := by
  cases hstep with
  | turn turn hstep =>
    unfold Exporting.step at hstep
    split at hstep
    · obtain rfl := Option.some.inj hstep
      split at hanswer <;> cases hanswer
    · obtain rfl := Option.some.inj hstep
      unfold Exporting.checkComplete at hanswer
      split at hanswer
      · cases hanswer
      · simp only at hanswer
        split at hanswer <;> cases hanswer
    · obtain rfl := Option.some.inj hstep
      unfold Exporting.openWriter at hanswer
      split at hanswer
      · split at hanswer <;> cases hanswer
      · cases hanswer
    next batchCount position last hstage =>
      obtain rfl := Option.some.inj hstep
      split at hanswer
      · unfold Exporting.emit at hanswer
        split at hanswer
        · cases hanswer
        · simp only at hanswer
          split at hanswer
          · cases hanswer
          · cases hanswer
          · split at hanswer <;> cases hanswer
      next hlast =>
        rw [if_neg hlast]
        unfold Exporting.finish at hanswer ⊢
        split at hanswer
        · cases hanswer
        · obtain rfl := Except.ok.inj (Stage.answered.inj hanswer)
          exact ⟨batchCount, position, last, hstage, Nat.not_lt.mp hlast, rfl⟩
    · cases hstep

/-! ## A cut result is not exported as a whole one -/

/-- As long as nothing cuts and closes the buffer between the two checks, or marks it while it
is written, an export that succeeds has written every row of a result that is complete and
not truncated. -/
theorem whole_result_exported {tr : List (ExportEvent Field Row)} {turn : ExportTurn}
    {summary : ExportSummary} (hallow : opts.allowIncomplete = false)
    (hrun : Steps (QuietStep name opts) (.new fields limits) tr exporting)
    (hstep : ExportStep name opts exporting (.turn turn) exporting')
    (hanswer : exporting'.stage = .answered (.ok summary)) :
    exporting'.buffer.index.complete = true ∧
      exporting'.buffer.index.stats.truncated = false ∧
      ∃ batches, exporting'.buffer.Represents batches ∧
        exporting'.written = batches.flatMap (·.rows) := by
  have hexports := Exports.run hallow hrun
  obtain ⟨batchCount, position, last, hstage, hlast, rfl⟩ := answered_of_step hstep hanswer
  obtain ⟨hcomplete, hwhole, hcount, batches, hrepresents, hwritten⟩ := hexports.writing _ _ _ hstage
  refine ⟨hcomplete, hwhole, batches, hrepresents, hwritten.trans ?_⟩
  have hlength : batches.length = exporting.buffer.index.slots.length := by
    simpa using (congrArg List.length hrepresents.slots).symm
  rw [take_of_length_le (by omega)]

end

/-- A whole result, written to a text file. -/
def csvOnly : ExportOptions := ⟨.csv, false⟩

def oneColumn : Exporting Unit Nat :=
  .new [()] ⟨100, none, none, true, hundred_le_wordMax, rows_unbounded⟩

/-- Nothing fails, and no token is triggered. -/
def calm : ExportTurn := ⟨false, none, none⟩

/-- A row is stored and the result closed before the export begins. -/
theorem one_row_exported :
    ∃ tr exporting exporting', Steps (QuietStep (fun _ => "n") csvOnly) oneColumn tr exporting ∧
      ExportStep (fun _ => "n") csvOnly exporting (.turn calm) exporting' ∧
      ∃ batches, exporting'.buffer.Represents batches ∧
        exporting'.written = batches.flatMap (·.rows) := by
  have hpush : Steps (QuietStep (fun _ => "n") csvOnly) oneColumn _ _ :=
    Steps.nil.snoc ⟨.buffer (.push ⟨[()], [7], 40⟩ (.error .spill)) rfl, nofun⟩
  have hclose := hpush.snoc ⟨.buffer (.markComplete .default) rfl, nofun⟩
  have hwhole := hclose.snoc ⟨.turn calm rfl, nofun⟩
  have hcomplete := hwhole.snoc ⟨.turn calm rfl, fun _ h => Bool.noConfusion h.2⟩
  have hcount := hcomplete.snoc ⟨.turn calm rfl, nofun⟩
  have hbatch := hcount.snoc ⟨.turn calm rfl, nofun⟩
  exact ⟨_, _, _, hbatch, .turn calm rfl,
    (whole_result_exported rfl hbatch (.turn calm rfl) rfl).2.2⟩

/-- Between the two checks the producer stops at a row it cannot take, marks the result and
closes it: the export succeeds. -/
theorem cut_result_exported :
    ¬ ∀ tr (exporting exporting' : Exporting Unit Nat) turn summary,
      Steps (ExportStep (fun _ => "n") csvOnly) oneColumn tr exporting →
      ExportStep (fun _ => "n") csvOnly exporting (.turn turn) exporting' →
      exporting'.stage = .answered (.ok summary) →
      exporting'.buffer.index.stats.truncated = false := by
  intro h
  have hpush : Steps (ExportStep (fun _ => "n") csvOnly) oneColumn _ _ :=
    Steps.nil.snoc (.buffer (.push ⟨[()], [7], 40⟩ (.error .spill)) rfl)
  have hwhole := hpush.snoc (.turn calm rfl)
  have hmark := hwhole.snoc (.buffer .markTruncated rfl)
  have hclose := hmark.snoc (.buffer (.markComplete .default) rfl)
  have hcomplete := hclose.snoc (.turn calm rfl)
  have hcount := hcomplete.snoc (.turn calm rfl)
  have hbatch := hcount.snoc (.turn calm rfl)
  have hwhole := h _ _ _ calm _ hbatch (.turn calm rfl) rfl
  cases hwhole

end Oxyn.Data
