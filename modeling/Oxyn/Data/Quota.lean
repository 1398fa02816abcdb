/-
# `Oxyn.Data.Quota` — the quota of the spill file

Whether a batch may spill is decided on its size in memory, before it is encoded; what is charged
is the length of what was written.
-/
import Oxyn.Data.Stream

open Runs

namespace Oxyn.Data

open Offsets

variable {Field Row : Type}

/-- A batch goes to disk when it does not fit beside those in memory. -/
def ResultBuffer.Overflows (buffer : ResultBuffer Field Row) (batch : RecordBatch Field Row) : Prop :=
  ¬ satAdd wordMax buffer.index.residentBytes batch.memory ≤ buffer.limits.residentBudget

variable [DecidableEq Field]

/-- A step that is not a push of a batch longer on disk than in memory, where the batch spills. -/
def CompactStep (buffer : ResultBuffer Field Row) (event : Op Field Row × Answer Field Row)
    (buffer' : ResultBuffer Field Row) : Prop :=
  OpStep buffer event buffer' ∧ ∀ batch len, event.1 = .push batch (.ok len) →
    buffer.Overflows batch → len.1 ≤ batch.memory

namespace ResultBuffer

variable {buffer : ResultBuffer Field Row}

omit [DecidableEq Field] in
theorem room_of_planSpill {index : BufferIndex Field Row} {limits : BufferLimits}
    {memoryBudget bytes : Nat} (h : index.planSpill limits memoryBudget bytes = .ok true) :
    ∀ quota ∈ limits.maxSpillBytes, satAdd wordMax index.spilledBytes bytes ≤ quota := by
  intro quota hquota
  unfold BufferIndex.planSpill at h
  rw [Option.mem_def.mp hquota] at h
  split_ifs at h with hfits hforbidden
  · simp at h
  · dsimp only at h
    split_ifs at h with hover
    exact Nat.le_of_not_lt hover

theorem spilledBytes_push (batch : RecordBatch Field Row) (disk : Except DiskError StreamLen) :
    (buffer.push batch disk).2.limits = buffer.limits ∧
      ((buffer.push batch disk).2.index.spilledBytes = buffer.index.spilledBytes ∨
        ∃ len, disk = .ok len ∧ buffer.Overflows batch ∧
          (∀ quota ∈ buffer.limits.maxSpillBytes,
            satAdd wordMax buffer.index.spilledBytes batch.memory ≤ quota) ∧
          (buffer.push batch disk).2.index.spilledBytes =
            satAdd wordMax buffer.index.spilledBytes len.1) := by
  unfold push
  split
  · exact ⟨rfl, .inl rfl⟩
  dsimp only
  split
  · exact ⟨rfl, .inl rfl⟩
  next plan hplanned =>
    obtain ⟨hopen, -, hspill, -⟩ := BufferIndex.plan_eq_ok (plan_of_planned hplanned).2
    obtain ⟨keepRows, truncated, spill⟩ := plan
    cases spill with
    | false =>
      simp only [place, publish, hopen, Bool.false_eq_true, ↓reduceIte]
      cases truncated <;> exact ⟨trivial, .inl rfl⟩
    | true =>
      cases disk with
      | error e => exact ⟨rfl, .inl rfl⟩
      | ok len =>
        have hover : buffer.Overflows batch := fun hfits =>
          Bool.noConfusion ((BufferIndex.planSpill_eq_ok hspill).mpr hfits)
        simp only [place, publish, hopen, Bool.false_eq_true, ↓reduceIte]
        refine ⟨trivial, .inr ⟨len, rfl, hover, room_of_planSpill hspill, ?_⟩⟩
        cases truncated <;> rfl

end ResultBuffer

def WithinQuota (limits : BufferLimits) (buffer : ResultBuffer Field Row) : Prop :=
  ∀ quota ∈ limits.maxSpillBytes, buffer.index.spilledBytes ≤ quota

theorem withinQuota_of_step {limits : BufferLimits} {buffer buffer' : ResultBuffer Field Row}
    {event : Op Field Row × Answer Field Row} {batches : List (RecordBatch Field Row)}
    (hlimits : buffer.limits = limits) (hbatches : buffer.Represents batches)
    (h : WithinQuota limits buffer) (hstep : CompactStep buffer event buffer') :
    WithinQuota limits buffer' := by
  obtain ⟨op, answer⟩ := event
  obtain ⟨happly, hcompact⟩ := hstep
  replace happly : buffer.apply op = (answer, buffer') := happly
  obtain rfl : (buffer.apply op).2 = buffer' := by rw [happly]
  have hread : ∀ {position : Nat} {answer : Option (RecordBatch Field Row)}
      {buffer' : ResultBuffer Field Row}, buffer.Reads batches position answer buffer' →
      WithinQuota limits buffer' := by
    rintro position answer _ ⟨⟨cache, rfl⟩, -, -⟩
    exact h
  cases op with
  | push batch disk =>
    show WithinQuota limits (buffer.push batch disk).2
    intro quota hquota
    obtain ⟨-, hsame | ⟨len, rfl, hover, hroom, hgrown⟩⟩ := buffer.spilledBytes_push batch disk
    · exact hsame ▸ h quota hquota
    · have hlen := hcompact batch len rfl hover
      have hmemory := hroom quota (hlimits ▸ hquota)
      rw [hgrown]
      unfold satAdd at hmemory ⊢
      omega
  | markTruncated => exact h
  | markComplete stats => exact h
  | batch position read => exact hread (hbatches.batchCancellable position read)
  | cachedBatch position contended => exact hread (hbatches.cachedBatch position contended)
  | loadPage position read => exact hread (hbatches.loadPage position read)

/-- Where no batch that spills is longer on disk than in memory, the quota bounds the disk. -/
theorem spilled_le_quota {fields : List Field} {limits : BufferLimits}
    {tr : List (Op Field Row × Answer Field Row)} {buffer : ResultBuffer Field Row}
    (hrun : Steps CompactStep (.withLimits fields limits) tr buffer) :
    WithinQuota limits buffer := by
  induction hrun with
  | nil => exact fun quota _ => Nat.zero_le quota
  | snoc hbefore hstep ih =>
    obtain ⟨batches, h⟩ := Streamed.run (hbefore.imp fun _ _ _ hstep => hstep.1)
    exact withinQuota_of_step h.limits_eq h.represents ih hstep

def tenBytes : BufferLimits := ⟨0, none, some 10, true, Nat.zero_le _, rows_unbounded⟩

/-- A batch of eight bytes, written as eight. -/
theorem spilled_le_ten :
    let op : Op Unit Nat := .push ⟨[()], [0], 8⟩ (.ok ⟨8, by decide⟩)
    WithinQuota tenBytes ((ResultBuffer.withLimits [()] tenBytes).apply op).2 := by
  intro op
  have hstep : OpStep (.withLimits [()] tenBytes)
      (op, ((ResultBuffer.withLimits [()] tenBytes).apply op).1)
      ((ResultBuffer.withLimits [()] tenBytes).apply op).2 := rfl
  refine spilled_le_quota (Steps.nil.snoc ⟨hstep, fun batch len hpush _ => ?_⟩)
  obtain ⟨rfl, hlen⟩ := Op.push.inj hpush
  exact (congrArg Subtype.val (Except.ok.inj hlen)) ▸ Nat.le_refl 8

/-- A batch of eight bytes whose stream is five hundred bytes long. -/
theorem spilled_past_quota :
    ¬ ∀ (tr : List (Op Unit Nat × Answer Unit Nat)) (buffer : ResultBuffer Unit Nat),
      BufferRun [()] tenBytes tr buffer → WithinQuota tenBytes buffer := by
  intro h
  have hpast := h _ _ (steps_applyAll (.withLimits [()] tenBytes)
    [.push ⟨[()], [0], 8⟩ (.ok ⟨500, by decide⟩)]) 10 rfl
  exact absurd hpast (by decide)

end Oxyn.Data
