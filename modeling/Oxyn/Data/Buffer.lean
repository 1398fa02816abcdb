/-
# `Oxyn.Data.Buffer` — the result buffer

A buffer takes batches one after the other.
-/
import Oxyn.Data.Spill
import Oxyn.Lib.Runs

open Runs

namespace Oxyn.Data

open Offsets

variable {Field Row : Type} [DecidableEq Field]

/-! ## Limits -/

/-- The bounds of a result buffer. -/
structure BufferLimits where
  memoryBudget : Nat
  maxRows : Option Nat
  maxSpillBytes : Option Nat
  allowSpill : Bool
  memoryBudget_le : memoryBudget ≤ wordMax
  maxRows_le : ∀ rows ∈ maxRows, rows ≤ wordMax

theorem rows_unbounded : ∀ rows ∈ (none : Option Nat), rows ≤ wordMax := nofun

theorem hundred_le_wordMax : 100 ≤ wordMax := by decide

namespace BufferLimits

def cacheBudget (limits : BufferLimits) : Nat :=
  if limits.allowSpill then limits.memoryBudget / 4 else 0

def residentBudget (limits : BufferLimits) : Nat := limits.memoryBudget - limits.cacheBudget

def cut {α : Type} (limits : BufferLimits) (rows : List α) : List α :=
  match limits.maxRows with
  | none => rows
  | some maxRows => rows.take maxRows

end BufferLimits

/-- Why the buffer accepts, or no longer accepts, one more batch. -/
inductive Pressure where
  | ready
  | rowLimit
  | saturated
  | complete
deriving DecidableEq

/-! ## The index -/

inductive Slot (Field Row : Type) where
  | resident (batch : RecordBatch Field Row)
  | spilled (reference : SpillRef)

structure BufferIndex (Field Row : Type) where
  /-- The number of the first row of each batch. -/
  starts : List Nat
  slots : List (Slot Field Row)
  rows : Nat
  residentBytes : Nat
  spilledBytes : Nat
  spilledBatches : Nat
  complete : Bool
  stats : ExecStats

/-- What a push decided before touching the disk. -/
structure PushPlan where
  keepRows : Option Nat
  truncated : Bool
  spill : Bool

namespace BufferIndex

def new : BufferIndex Field Row := ⟨[], [], 0, 0, 0, 0, false, .default⟩

variable (index : BufferIndex Field Row)

def planRows (maxRows : Option Nat) (rows : Nat) : Except (DataError Field) (Option Nat) :=
  match maxRows with
  | none => .ok none
  | some maxRows =>
    let rest := maxRows - index.rows
    if rest = 0 then .error (.full "row limit reached")
    else if rest < rows then .ok (some rest)
    else .ok none

/-- Must a batch go to disk, and may it? -/
def planSpill (limits : BufferLimits) (memoryBudget bytes : Nat) :
    Except (DataError Field) Bool :=
  if satAdd wordMax index.residentBytes bytes ≤ memoryBudget then .ok false
  else if limits.allowSpill = false then
    .error (.full "memory budget reached and spilling is disabled")
  else
    match limits.maxSpillBytes with
    | none => .ok true
    | some quota =>
      if quota < satAdd wordMax index.spilledBytes bytes then
        .error (.full "spill quota reached")
      else .ok true

/-- Decides the fate of an incoming batch, without modifying anything. -/
def plan (limits : BufferLimits) (memoryBudget rows bytes : Nat) :
    Except (DataError Field) PushPlan :=
  if index.complete then .error .alreadyComplete
  else do
    let keepRows ← index.planRows limits.maxRows rows
    let spill ← index.planSpill limits memoryBudget bytes
    return ⟨keepRows, keepRows.isSome, spill⟩

/-- Publishes an already placed batch. -/
def append (slot : Slot Field Row) (rows bytes : Nat) : BufferIndex Field Row :=
  { index with
    starts := index.starts ++ [index.rows]
    slots := index.slots ++ [slot]
    rows := satAdd wordMax index.rows rows
    residentBytes := match slot with
      | .resident _ => satAdd wordMax index.residentBytes bytes
      | .spilled _ => index.residentBytes
    spilledBytes := match slot with
      | .resident _ => index.spilledBytes
      | .spilled reference => satAdd wordMax index.spilledBytes reference.len
    spilledBatches := match slot with
      | .resident _ => index.spilledBatches
      | .spilled _ => satAdd wordMax index.spilledBatches 1 }

end BufferIndex

/-! ## The buffer -/

structure ResultBuffer (Field Row : Type) where
  fields : List Field
  limits : BufferLimits
  index : BufferIndex Field Row
  spill : SpillFile Field Row
  cache : SpillCache Field Row

namespace ResultBuffer

def withLimits (fields : List Field) (limits : BufferLimits) : ResultBuffer Field Row :=
  ⟨fields, limits, .new, .create, .new limits.cacheBudget⟩

variable (buffer : ResultBuffer Field Row)

/-- Would the buffer accept one more batch, and if not why? -/
def pressure : Pressure :=
  let index := buffer.index
  if index.complete then .complete
  else if buffer.limits.maxRows.any (· ≤ index.rows) then .rowLimit
  else if buffer.limits.residentBudget ≤ index.residentBytes ∧
      (buffer.limits.allowSpill = false ∨
        buffer.limits.maxSpillBytes.any (· ≤ index.spilledBytes)) then .saturated
  else .ready

def checkSchema (batch : RecordBatch Field Row) : Except (DataError Field) Unit :=
  if batch.fields = buffer.fields then .ok ()
  else .error (.schemaMismatch buffer.fields batch.fields)

def place (batch : RecordBatch Field Row) (spill : Bool) (disk : Except DiskError StreamLen) :
    Except (DataError Field) (Slot Field Row) × ResultBuffer Field Row :=
  if spill then
    match disk with
    | .error error => (.error (.disk error), buffer)
    | .ok len =>
      let (reference, file) := buffer.spill.append batch len
      (.ok (.spilled reference), { buffer with spill := file })
  else (.ok (.resident batch), buffer)

def publish (batch : RecordBatch Field Row) (slot : Slot Field Row) (truncated : Bool) :
    Except (DataError Field) (Option Nat) × ResultBuffer Field Row :=
  if buffer.index.complete then (.error .alreadyComplete, buffer)
  else
    let index := buffer.index.append slot batch.numRows batch.memory
    let stats := index.stats.recordBatch batch.numRows batch.memory
    (.ok (some buffer.index.slots.length),
      { buffer with
        index := { index with stats := if truncated then stats.markTruncated else stats } })

/-- The batch a plan keeps. -/
def kept (batch : RecordBatch Field Row) : Option Nat → RecordBatch Field Row
  | some rows => batch.slice rows
  | none => batch

/-- Adds a batch, and answers its position; an empty one has none.  `disk` is what
writing it to the spill file would give. -/
def push (batch : RecordBatch Field Row) (disk : Except DiskError StreamLen) :
    Except (DataError Field) (Option Nat) × ResultBuffer Field Row :=
  if batch.numRows = 0 then (.ok none, buffer)
  else
    let planned := do
      buffer.checkSchema batch
      buffer.index.plan buffer.limits buffer.limits.residentBudget batch.numRows batch.memory
    match planned with
    | .error error => (.error error, buffer)
    | .ok plan =>
      let batch := kept batch plan.keepRows
      match buffer.place batch plan.spill disk with
      | (.error error, placed) => (.error error, placed)
      | (.ok slot, placed) => placed.publish batch slot plan.truncated

/-- Declares the stream over; the caller's measurements win, a truncation stays. -/
def markComplete (stats : ExecStats) : ResultBuffer Field Row :=
  let count := buffer.index.stats
  let merged : ExecStats :=
    { stats with
      rows := if stats.rows = 0 then count.rows else stats.rows
      bytes := if stats.bytes = 0 then count.bytes else stats.bytes
      batches := if stats.batches = 0 then count.batches else stats.batches }
  { buffer with
    index := { buffer.index with
      stats := if count.truncated then merged.markTruncated else merged
      complete := true } }

def markTruncated : ResultBuffer Field Row :=
  { buffer with index := { buffer.index with stats := buffer.index.stats.markTruncated } }

/-- Finds the batch and the local offset of a global row. -/
def locate (row : Nat) : Option (Nat × Nat) :=
  if buffer.index.rows ≤ row then none
  else
    match partitionPoint (fun start => decide (start ≤ row)) buffer.index.starts with
    | 0 => none
    | position + 1 =>
      buffer.index.starts[position]?.map fun start => (position, row - start)

/-! ### Pages -/

/-- What a read of a page meets: the token triggered before, during or after the read of the disk,
and the disk's failure. -/
structure PageRead where
  before : Bool
  disk : Option DiskError
  after : Bool
  late : Bool

def rehydrate (position : Nat) (reference : SpillRef) (read : PageRead) :
    Except (DataError Field) (Option (RecordBatch Field Row)) × ResultBuffer Field Row :=
  match buffer.cache.get position with
  | some (batch, cache) => (.ok (some batch), { buffer with cache := cache })
  | none =>
    match read.disk, buffer.spill.read reference with
    | some error, _ => (.error (.disk error), buffer)
    | none, none => (.error (.disk .spill), buffer)
    | none, some batch =>
      match buffer.checkSchema batch with
      | .error error => (.error error, buffer)
      | .ok () =>
        if read.after then (.error .cancelled, buffer)
        else (.ok (some batch), { buffer with cache := buffer.cache.insert position batch })

def batchCancellable (position : Nat) (read : PageRead) :
    Except (DataError Field) (Option (RecordBatch Field Row)) × ResultBuffer Field Row :=
  if read.before then (.error .cancelled, buffer)
  else
    match buffer.index.slots[position]? with
    | none => (.ok none, buffer)
    | some (.resident batch) => (.ok (some batch), buffer)
    | some (.spilled reference) => buffer.rehydrate position reference read

def cachedBatch (position : Nat) (contended : Bool) :
    Option (RecordBatch Field Row) × ResultBuffer Field Row :=
  if contended then (none, buffer)
  else
    match buffer.index.slots[position]? with
    | none => (none, buffer)
    | some (.resident batch) => (some batch, buffer)
    | some (.spilled _) =>
      match buffer.cache.get position with
      | none => (none, buffer)
      | some (batch, cache) => (some batch, { buffer with cache := cache })

/-- Loads a page into the cache; `false` for an absent one. -/
def loadPage (position : Nat) (read : PageRead) :
    Except (DataError Field) Bool × ResultBuffer Field Row :=
  if read.before then (.error .cancelled, buffer)
  else
    match buffer.index.slots[position]? with
    | none => (.ok false, buffer)
    | some (.resident _) => (.ok true, buffer)
    | some (.spilled reference) =>
      if buffer.limits.cacheBudget < reference.retainedBytes then
        (.error (.full
          "result page exceeds the display cache budget; exporting remains available"), buffer)
      else
        match buffer.batchCancellable position read with
        | (.error error, loaded) => (.error error, loaded)
        | (.ok none, loaded) => (.ok false, loaded)
        | (.ok (some batch), loaded) =>
          if read.late then (.error .cancelled, loaded)
          else if loaded.cache.capacityBytes < retainedSize batch then
            (.error (.full
              "decoded result page exceeds the display cache budget; exporting remains available"),
              loaded)
          else (.ok true, loaded)

end ResultBuffer

/-! ## Operations -/

inductive Op (Field Row : Type) where
  | push (batch : RecordBatch Field Row) (disk : Except DiskError StreamLen)
  | markTruncated
  | markComplete (stats : ExecStats)
  | batch (position : Nat) (read : ResultBuffer.PageRead)
  | cachedBatch (position : Nat) (contended : Bool)
  | loadPage (position : Nat) (read : ResultBuffer.PageRead)

inductive Answer (Field Row : Type) where
  | pushed (result : Except (DataError Field) (Option Nat))
  | marked
  | batch (result : Except (DataError Field) (Option (RecordBatch Field Row)))
  | loaded (result : Except (DataError Field) Bool)

def ResultBuffer.apply (buffer : ResultBuffer Field Row) :
    Op Field Row → Answer Field Row × ResultBuffer Field Row
  | .push batch disk => (buffer.push batch disk).map .pushed id
  | .markTruncated => (.marked, buffer.markTruncated)
  | .markComplete stats => (.marked, buffer.markComplete stats)
  | .batch position read => (buffer.batchCancellable position read).map .batch id
  | .cachedBatch position contended =>
    (buffer.cachedBatch position contended).map (fun batch => .batch (.ok batch)) id
  | .loadPage position read => (buffer.loadPage position read).map .loaded id

def OpStep (buffer : ResultBuffer Field Row) (event : Op Field Row × Answer Field Row)
    (buffer' : ResultBuffer Field Row) : Prop :=
  buffer.apply event.1 = (event.2, buffer')

/-- Operations one after the other: what they answer, and the buffer they leave. -/
def ResultBuffer.applyAll (buffer : ResultBuffer Field Row) :
    List (Op Field Row) → List (Op Field Row × Answer Field Row) × ResultBuffer Field Row
  | [] => ([], buffer)
  | op :: ops =>
    let (tr, last) := (buffer.apply op).2.applyAll ops
    ((op, (buffer.apply op).1) :: tr, last)

theorem steps_applyAll (buffer : ResultBuffer Field Row) (ops : List (Op Field Row)) :
    Steps OpStep buffer (buffer.applyAll ops).1 (buffer.applyAll ops).2 := by
  induction ops generalizing buffer with
  | nil => exact .nil
  | cons op ops ih =>
    have hfirst : Steps OpStep buffer [(op, (buffer.apply op).1)] (buffer.apply op).2 :=
      Steps.nil.snoc rfl
    exact hfirst.trans (ih _)

abbrev BufferRun (fields : List Field) (limits : BufferLimits)
    (tr : List (Op Field Row × Answer Field Row)) (buffer : ResultBuffer Field Row) : Prop :=
  Steps OpStep (.withLimits fields limits) tr buffer

end Oxyn.Data
