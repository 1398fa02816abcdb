/-
# `Oxyn.Data.Stream` — the result buffer is the stream, cut once

`Represents` is what every operation keeps: the batches the slots stand for, read back where they
were spilled, and the starts, the rows, the bytes and the cached pages that follow from them.
-/
import Oxyn.Data.Buffer

open Runs

namespace Oxyn.Data

open List

open Offsets

variable {Field Row : Type}

/-! ## What a push does -/

namespace BufferIndex

variable {index : BufferIndex Field Row}

/-- The rows a limit leaves of a batch: all of them, or the first ones. -/
theorem planRows_eq_ok {maxRows : Option Nat} {rows : Nat} {keepRows : Option Nat}
    (h : index.planRows maxRows rows = .ok keepRows) :
    (∀ limit ∈ maxRows, index.rows < limit) ∧
      ((keepRows = none ∧ ∀ limit ∈ maxRows, index.rows + rows ≤ limit) ∨
        ∃ limit, maxRows = some limit ∧ limit < index.rows + rows ∧
          keepRows = some (limit - index.rows)) := by
  unfold planRows at h
  cases maxRows with
  | none =>
    obtain rfl := Except.ok.inj h
    exact ⟨by simp, .inl ⟨rfl, by simp⟩⟩
  | some limit =>
    simp only at h
    split_ifs at h with hfull hcut
    all_goals
      obtain rfl := Except.ok.inj h
      refine ⟨fun limit' hlimit => ?_, ?_⟩
      · obtain rfl := Option.some.inj hlimit
        omega
    · exact .inr ⟨limit, rfl, by omega, rfl⟩
    · refine .inl ⟨rfl, fun limit' hlimit => ?_⟩
      obtain rfl := Option.some.inj hlimit
      omega

theorem planSpill_eq_ok {limits : BufferLimits} {memoryBudget bytes : Nat} {spill : Bool}
    (h : index.planSpill limits memoryBudget bytes = .ok spill) :
    spill = false ↔ satAdd wordMax index.residentBytes bytes ≤ memoryBudget := by
  unfold planSpill at h
  split_ifs at h with hfits
  · obtain rfl := Except.ok.inj h
    exact ⟨fun _ => hfits, fun _ => rfl⟩
  · have hspill : spill = true := by
      split at h
      · exact (Except.ok.inj h).symm
      · split_ifs at h
        exact (Except.ok.inj h).symm
    simp [hspill, hfits]

theorem planRows_of_reached {maxRows : Option Nat} (h : maxRows.any (· ≤ index.rows) = true)
    (rows : Nat) : ∃ e, index.planRows maxRows rows = .error e := by
  cases maxRows with
  | none => simp at h
  | some limit =>
    have hle : limit ≤ index.rows := of_decide_eq_true h
    exact ⟨_, if_pos (Nat.sub_eq_zero_of_le hle)⟩

theorem planSpill_of_saturated {limits : BufferLimits} {memoryBudget bytes : Nat}
    (h : memoryBudget ≤ index.residentBytes ∧ (limits.allowSpill = false ∨
      limits.maxSpillBytes.any (· ≤ index.spilledBytes) = true))
    (hpos : 0 < bytes) (hresident : index.residentBytes + bytes ≤ wordMax)
    (hspilled : index.spilledBytes + bytes ≤ wordMax) :
    ∃ e, index.planSpill limits memoryBudget bytes = .error e := by
  obtain ⟨hused, hspill⟩ := h
  have hover : ¬ satAdd wordMax index.residentBytes bytes ≤ memoryBudget := by
    unfold satAdd
    omega
  unfold planSpill
  rw [if_neg hover]
  rcases hspill with hforbidden | hquota
  · exact ⟨_, if_pos hforbidden⟩
  · split_ifs
    · exact ⟨_, rfl⟩
    · cases hmax : limits.maxSpillBytes with
      | none => simp [hmax] at hquota
      | some quota =>
        rw [hmax] at hquota
        have hle : quota ≤ index.spilledBytes := of_decide_eq_true hquota
        exact ⟨_, if_pos (by unfold satAdd; omega)⟩

theorem plan_eq_ok {limits : BufferLimits} {memoryBudget rows bytes : Nat} {plan : PushPlan}
    (h : index.plan limits memoryBudget rows bytes = .ok plan) :
    index.complete = false ∧
      index.planRows limits.maxRows rows = .ok plan.keepRows ∧
      index.planSpill limits memoryBudget bytes = .ok plan.spill ∧
      plan.truncated = plan.keepRows.isSome := by
  unfold BufferIndex.plan at h
  cases hcomplete : index.complete with
  | true => simp [hcomplete] at h
  | false =>
    cases hrows : index.planRows limits.maxRows rows with
    | error e => simp [hcomplete, hrows, Bind.bind, Except.bind] at h
    | ok keepRows =>
      cases hspill : index.planSpill limits memoryBudget bytes with
      | error e => simp [hcomplete, hrows, hspill, Bind.bind, Except.bind] at h
      | ok spill =>
        simp only [hcomplete, hrows, hspill, Bind.bind, Except.bind, Pure.pure, Except.pure] at h
        obtain rfl := Except.ok.inj h
        exact ⟨rfl, rfl, rfl, rfl⟩

end BufferIndex

def SpillFile.stored (file : SpillFile Field Row) :
    Slot Field Row → Option (RecordBatch Field Row)
  | .resident batch => some batch
  | .spilled reference => file.read reference

theorem SpillFile.stored_of_read {file file' : SpillFile Field Row}
    (hread : ∀ reference batch, file.read reference = some batch →
      file'.read reference = some batch)
    {slots : List (Slot Field Row)} {batches : List (RecordBatch Field Row)}
    (h : slots.map file.stored = batches.map some) : slots.map file'.stored = batches.map some := by
  rw [← h]
  refine map_congr_left fun slot hslot => ?_
  have hmem : file.stored slot ∈ batches.map some := h ▸ mem_map_of_mem hslot
  obtain ⟨batch, -, hbatch⟩ := mem_map.mp hmem
  cases slot with
  | resident batch => rfl
  | spilled reference => exact (hread _ _ hbatch.symm).trans hbatch

namespace ResultBuffer

variable {buffer buffer' : ResultBuffer Field Row} {batch : RecordBatch Field Row}
  {disk : Except DiskError StreamLen}

/-- A batch that was placed: its slot stands for it, and nothing else has changed. -/
structure Placed (buffer : ResultBuffer Field Row) (batch : RecordBatch Field Row) (spill : Bool)
    (slot : Slot Field Row) (file : SpillFile Field Row) : Prop where
  stored : file.stored slot = some batch
  bounded : file.Bounded
  read : ∀ reference stored, buffer.spill.read reference = some stored →
    file.read reference = some stored
  isResident : spill = false ↔ ∃ batch, slot = .resident batch

variable {slot : Slot Field Row}

theorem placed_of_place {spill : Bool} {placed : ResultBuffer Field Row}
    (hfile : buffer.spill.Bounded) (h : buffer.place batch spill disk = (.ok slot, placed)) :
    ∃ file, placed = { buffer with spill := file } ∧ buffer.Placed batch spill slot file := by
  unfold place at h
  cases spill with
  | false =>
    obtain ⟨hslot, rfl⟩ := Prod.mk.inj h
    obtain rfl := Except.ok.inj hslot
    exact ⟨buffer.spill, rfl, rfl, hfile, fun _ _ h => h, by simp⟩
  | true =>
    cases disk with
    | error e => simp at h
    | ok len =>
      obtain ⟨hslot, rfl⟩ := Prod.mk.inj h
      obtain rfl := Except.ok.inj hslot
      exact ⟨_, rfl, hfile.read_append batch len, hfile.append batch len,
        fun _ _ hread => SpillFile.read_append_of_read hread batch len, by simp⟩

def published (buffer : ResultBuffer Field Row) (batch : RecordBatch Field Row)
    (slot : Slot Field Row) (truncated : Bool) : BufferIndex Field Row :=
  let index := buffer.index.append slot batch.numRows batch.memory
  let stats := index.stats.recordBatch batch.numRows batch.memory
  { index with stats := if truncated then stats.markTruncated else stats }

theorem place_eq_error {spill : Bool} {e : DataError Field} {placed : ResultBuffer Field Row}
    (h : buffer.place batch spill disk = (.error e, placed)) : placed = buffer := by
  unfold place at h
  split at h
  · split at h
    · exact (Prod.mk.inj h).2.symm
    · simp at h
  · simp at h

theorem index_place (buffer : ResultBuffer Field Row) (batch : RecordBatch Field Row) (spill : Bool)
    (disk : Except DiskError StreamLen) : (buffer.place batch spill disk).2.index = buffer.index := by
  unfold place
  split
  · split <;> rfl
  · rfl

/-! ## What the buffer represents -/

structure Represents (buffer : ResultBuffer Field Row)
    (batches : List (RecordBatch Field Row)) : Prop where
  slots : buffer.index.slots.map buffer.spill.stored = batches.map some
  nonempty : ∀ batch ∈ batches, 0 < batch.numRows
  starts : buffer.index.starts = Offsets.starts wordMax (batches.map (·.numRows))
  rows : buffer.index.rows = min (batches.map (·.numRows)).sum wordMax
  file : buffer.spill.Bounded
  resident : buffer.index.residentBytes ≤ buffer.limits.residentBudget
  cache : buffer.cache.Bounded
  capacity : buffer.cache.capacityBytes = buffer.limits.cacheBudget
  cached : ∀ entry ∈ buffer.cache.entries, batches[entry.1]? = some entry.2

variable {batches : List (RecordBatch Field Row)}

theorem represents_withLimits (fields : List Field) (limits : BufferLimits) :
    (withLimits fields limits : ResultBuffer Field Row).Represents [] where
  slots := rfl
  nonempty := by simp
  starts := rfl
  rows := by simp [withLimits, BufferIndex.new]
  file := SpillFile.bounded_create
  resident := Nat.zero_le _
  cache := SpillCache.bounded_new _
  capacity := rfl
  cached := by simp [withLimits, SpillCache.new]

theorem memory_kept (batch : RecordBatch Field Row) (keepRows : Option Nat) :
    (kept batch keepRows).memory = batch.memory := by
  cases keepRows <;> rfl

variable {plan : PushPlan}

theorem kept_pos {limits : BufferLimits} {memoryBudget bytes : Nat} (hbatch : 0 < batch.numRows)
    (hplan : buffer.index.plan limits memoryBudget batch.numRows bytes = .ok plan) :
    0 < (kept batch plan.keepRows).numRows := by
  obtain ⟨hlt, hkeep⟩ := BufferIndex.planRows_eq_ok (BufferIndex.plan_eq_ok hplan).2.1
  rcases hkeep with ⟨hnone, -⟩ | ⟨limit, hlimit, -, hsome⟩
  · rw [hnone]
    exact hbatch
  · have := hlt limit hlimit
    rw [hsome]
    simp only [kept, RecordBatch.slice, RecordBatch.numRows, length_take] at hbatch ⊢
    omega

theorem Represents.publish {file : SpillFile Field Row}
    (h : buffer.Represents batches) (hbatch : 0 < batch.numRows)
    (hplan : buffer.index.plan buffer.limits buffer.limits.residentBudget
      batch.numRows batch.memory = .ok plan)
    (hplaced : buffer.Placed (kept batch plan.keepRows) plan.spill slot file) :
    { buffer with
      spill := file
      index := buffer.published (kept batch plan.keepRows) slot plan.truncated }.Represents
      (batches ++ [kept batch plan.keepRows]) := by
  refine ⟨?_, ?_, ?_, ?_, hplaced.bounded, ?_, h.cache, h.capacity, ?_⟩
  · have hold := SpillFile.stored_of_read hplaced.read h.slots
    simp only [published, BufferIndex.append, map_append, hold, map_cons, map_nil,
      hplaced.stored]
  · intro b hb
    rcases mem_append.mp hb with hb | hb
    · exact h.nonempty b hb
    · exact mem_singleton.mp hb ▸ kept_pos hbatch hplan
  · simp only [published, BufferIndex.append, h.starts, h.rows, map_append, map_cons,
      map_nil, starts_snoc]
  · simp only [published, BufferIndex.append, h.rows, map_append, map_cons,
      map_nil, sum_append, sum_cons, sum_nil, Nat.add_zero, satAdd_min]
  · cases slot with
    | spilled reference => exact h.resident
    | resident b =>
      have hspill := hplaced.isResident.mpr ⟨b, rfl⟩
      have hfits := BufferIndex.planSpill_eq_ok (BufferIndex.plan_eq_ok hplan).2.2.1
      simp only [published, BufferIndex.append, memory_kept]
      exact hfits.mp hspill
  · intro entry hentry
    have := h.cached entry hentry
    rw [getElem?_append_left (List.getElem?_eq_some_iff.mp this).1]
    exact this

theorem Represents.markTruncated (h : buffer.Represents batches) :
    buffer.markTruncated.Represents batches :=
  { h with }

theorem Represents.markComplete (h : buffer.Represents batches) (stats : ExecStats) :
    (buffer.markComplete stats).Represents batches :=
  { h with }

variable {position : Nat}

theorem Represents.batch_of_slot (h : buffer.Represents batches)
    (hslot : buffer.index.slots[position]? = some slot) :
    ∃ batch, batches[position]? = some batch ∧ buffer.spill.stored slot = some batch := by
  have hget : (batches.map some)[position]? = some (buffer.spill.stored slot) := by
    rw [← h.slots, getElem?_map, hslot]
    rfl
  rw [getElem?_map] at hget
  obtain ⟨batch, hbatch, hstored⟩ := Option.map_eq_some_iff.mp hget
  exact ⟨batch, hbatch, hstored.symm⟩

/-! ## Pages -/

structure Reads (buffer : ResultBuffer Field Row) (batches : List (RecordBatch Field Row))
    (position : Nat) (answer : Option (RecordBatch Field Row)) (buffer' : ResultBuffer Field Row) :
    Prop where
  cacheOnly : ∃ cache, buffer' = { buffer with cache := cache }
  represents : buffer'.Represents batches
  batch : ∀ batch, answer = some batch → batches[position]? = some batch

theorem Represents.reads_none (h : buffer.Represents batches) (position : Nat) :
    buffer.Reads batches position none buffer :=
  ⟨⟨buffer.cache, rfl⟩, h, by simp⟩

theorem Represents.reads_resident (h : buffer.Represents batches)
    (hslot : buffer.index.slots[position]? = some (.resident batch)) :
    buffer.Reads batches position (some batch) buffer := by
  obtain ⟨stored, hbatch, hstored⟩ := h.batch_of_slot hslot
  refine ⟨⟨buffer.cache, rfl⟩, h, ?_⟩
  rintro _ ⟨⟩
  exact hbatch.trans hstored.symm

theorem Represents.reads_cached (h : buffer.Represents batches)
    {cache : SpillCache Field Row} (hget : buffer.cache.get position = some (batch, cache)) :
    buffer.Reads batches position (some batch) { buffer with cache := cache } := by
  obtain ⟨hmem, hperm, -, hcapacity, -⟩ := SpillCache.get_eq hget
  refine ⟨⟨cache, rfl⟩, { h with
    cache := h.cache.get hget
    capacity := hcapacity.trans h.capacity
    cached := fun entry hentry => h.cached entry (hperm.mem_iff.mp hentry) }, ?_⟩
  rintro _ ⟨⟩
  exact h.cached _ hmem

theorem cacheBudget_lt (limits : BufferLimits) : limits.cacheBudget < wordMax := by
  have := limits.memoryBudget_le
  have : 0 < wordMax := by decide
  unfold BufferLimits.cacheBudget
  split_ifs <;> omega

theorem Represents.reads_inserted (h : buffer.Represents batches)
    (hbatch : batches[position]? = some batch) :
    buffer.Reads batches position (some batch)
      { buffer with cache := buffer.cache.insert position batch } := by
  obtain ⟨hbounded, hcapacity, hentries⟩ :=
    h.cache.insert (h.capacity ▸ cacheBudget_lt buffer.limits) position batch
  refine ⟨⟨_, rfl⟩, { h with
    cache := hbounded
    capacity := hcapacity.trans h.capacity
    cached := fun entry hentry => ?_ }, ?_⟩
  · obtain hold | rfl := hentries entry hentry
    · exact h.cached entry hold
    · exact hbatch
  · rintro _ ⟨⟩
    exact hbatch

theorem Represents.cachedBatch (h : buffer.Represents batches) (position : Nat)
    (contended : Bool) :
    buffer.Reads batches position (buffer.cachedBatch position contended).1
      (buffer.cachedBatch position contended).2 := by
  unfold ResultBuffer.cachedBatch
  split_ifs
  · exact h.reads_none position
  · split
    · exact h.reads_none position
    next hslot => exact h.reads_resident hslot
    next hslot =>
      split
      · exact h.reads_none position
      next hget => exact h.reads_cached hget

section

variable [DecidableEq Field]

theorem Represents.rehydrate (h : buffer.Represents batches) {reference : SpillRef}
    (hslot : buffer.index.slots[position]? = some (.spilled reference)) (read : PageRead) :
    buffer.Reads batches position (buffer.rehydrate position reference read).1.toOption.join
      (buffer.rehydrate position reference read).2 := by
  unfold ResultBuffer.rehydrate
  split
  next hget => exact h.reads_cached hget
  next =>
    split
    · exact h.reads_none position
    · exact h.reads_none position
    next stored _ hread =>
      split
      · exact h.reads_none position
      · split_ifs
        · exact h.reads_none position
        · obtain ⟨b, hb, hstored⟩ := h.batch_of_slot hslot
          obtain rfl := Option.some.inj (hstored.symm.trans hread)
          exact h.reads_inserted hb

theorem Represents.batchCancellable (h : buffer.Represents batches) (position : Nat)
    (read : PageRead) :
    buffer.Reads batches position (buffer.batchCancellable position read).1.toOption.join
      (buffer.batchCancellable position read).2 := by
  unfold ResultBuffer.batchCancellable
  split_ifs
  · exact h.reads_none position
  · split
    · exact h.reads_none position
    next hslot => exact h.reads_resident hslot
    next hslot => exact h.rehydrate hslot read

theorem Represents.loadPage (h : buffer.Represents batches) (position : Nat) (read : PageRead) :
    buffer.Reads batches position none (buffer.loadPage position read).2 := by
  have hread := h.batchCancellable position read
  unfold ResultBuffer.loadPage
  split
  · exact h.reads_none position
  · split
    · exact h.reads_none position
    · exact h.reads_none position
    · split
      · exact h.reads_none position
      · split
        all_goals
          rename_i hanswer
          rw [hanswer] at hread
        · exact ⟨hread.cacheOnly, hread.represents, by simp⟩
        · exact ⟨hread.cacheOnly, hread.represents, by simp⟩
        · split_ifs <;> exact ⟨hread.cacheOnly, hread.represents, by simp⟩

end

/-! ## Pushes -/

variable [DecidableEq Field]

theorem plan_of_planned (h : (do
      buffer.checkSchema batch
      buffer.index.plan buffer.limits buffer.limits.residentBudget batch.numRows batch.memory) =
        Except.ok plan) :
    batch.fields = buffer.fields ∧
      buffer.index.plan buffer.limits buffer.limits.residentBudget batch.numRows
        batch.memory = .ok plan := by
  unfold checkSchema at h
  split_ifs at h with hfields
  · exact ⟨hfields, h⟩
  · simp [Bind.bind, Except.bind] at h

theorem push_eq_ok {position : Option Nat} (hfile : buffer.spill.Bounded)
    (h : buffer.push batch disk = (.ok position, buffer')) :
    (batch.numRows = 0 ∧ position = none ∧ buffer' = buffer) ∨
      ∃ plan slot file, 0 < batch.numRows ∧
        buffer.index.plan buffer.limits buffer.limits.residentBudget batch.numRows
          batch.memory = .ok plan ∧
        buffer.Placed (kept batch plan.keepRows) plan.spill slot file ∧
        position = some buffer.index.slots.length ∧
        buffer' = { buffer with
          spill := file
          index := buffer.published (kept batch plan.keepRows) slot plan.truncated } := by
  unfold push at h
  split_ifs at h with hempty
  · obtain ⟨hposition, rfl⟩ := Prod.mk.inj h
    exact .inl ⟨hempty, (Except.ok.inj hposition).symm, rfl⟩
  · simp only at h
    split at h
    · simp at h
    next plan hplanned =>
      obtain ⟨-, hplan⟩ := plan_of_planned hplanned
      split at h
      · simp at h
      next slot placed hplace =>
        obtain ⟨file, rfl, hplaced⟩ := placed_of_place hfile hplace
        have hopen := (BufferIndex.plan_eq_ok hplan).1
        simp only [publish, hopen, Bool.false_eq_true, ↓reduceIte] at h
        obtain ⟨hposition, rfl⟩ := Prod.mk.inj h
        exact .inr ⟨plan, slot, file, Nat.pos_of_ne_zero hempty, hplan, hplaced,
          (Except.ok.inj hposition).symm, rfl⟩

/-- A push that fails leaves the index as it was, and the cache. -/
theorem push_eq_error {e : DataError Field} (h : buffer.push batch disk = (.error e, buffer')) :
    buffer' = buffer := by
  unfold push at h
  split_ifs at h with hempty
  · simp at h
  · simp only at h
    split at h
    · exact (Prod.mk.inj h).2.symm
    next plan hplanned =>
      have hopen := (BufferIndex.plan_eq_ok (plan_of_planned hplanned).2).1
      split at h
      next e' placed hplace =>
        obtain rfl := place_eq_error hplace
        exact (Prod.mk.inj h).2.symm
      next slot placed hplace =>
        have hindex := index_place buffer (kept batch plan.keepRows) plan.spill disk
        simp only [hplace] at hindex
        simp [publish, hindex, hopen] at h

end ResultBuffer

/-! ## Runs -/

def accepted (tr : List (Op Field Row × Answer Field Row)) : List Row :=
  tr.flatMap fun
    | (.push batch _, .pushed (.ok _)) => batch.rows
    | _ => []

theorem accepted_snoc (tr : List (Op Field Row × Answer Field Row))
    (event : Op Field Row × Answer Field Row) :
    accepted (tr ++ [event]) = accepted tr ++ accepted [event] := by
  simp [accepted]

structure Streamed (fields : List Field) (limits : BufferLimits)
    (tr : List (Op Field Row × Answer Field Row)) (buffer : ResultBuffer Field Row)
    (batches : List (RecordBatch Field Row)) : Prop where
  fields_eq : buffer.fields = fields
  limits_eq : buffer.limits = limits
  represents : buffer.Represents batches
  contents : batches.flatMap (·.rows) = limits.cut (accepted tr)
  truncated : limits.cut (accepted tr) ≠ accepted tr → buffer.index.stats.truncated = true

namespace Streamed

variable {fields : List Field} {limits : BufferLimits}
  {tr : List (Op Field Row × Answer Field Row)} {buffer buffer' : ResultBuffer Field Row}
  {batches : List (RecordBatch Field Row)} {batch : RecordBatch Field Row}

theorem withLimits (fields : List Field) (limits : BufferLimits) :
    Streamed fields limits [] (.withLimits fields limits : ResultBuffer Field Row) [] where
  fields_eq := rfl
  limits_eq := rfl
  represents := ResultBuffer.represents_withLimits fields limits
  contents := by simp [accepted, BufferLimits.cut]; split <;> simp
  truncated := by simp [accepted, BufferLimits.cut]; split <;> simp

theorem length_contents (h : Streamed fields limits tr buffer batches) :
    (batches.map (·.numRows)).sum = (limits.cut (accepted tr)).length := by
  rw [← h.contents, length_flatMap]
  rfl

theorem length_lt_of_rows_lt (h : Streamed fields limits tr buffer batches) {limit : Nat}
    (hlimit : limits.maxRows = some limit) (hlt : buffer.index.rows < limit) :
    (accepted tr).length < limit ∧ buffer.index.rows = (accepted tr).length := by
  have hle := limits.maxRows_le limit hlimit
  have hrows := h.represents.rows
  rw [h.length_contents, BufferLimits.cut, hlimit] at hrows
  simp only [length_take] at hrows
  omega

theorem kept_rows (h : Streamed fields limits tr buffer batches) {keepRows : Option Nat}
    (hplan : buffer.index.planRows limits.maxRows batch.numRows = .ok keepRows) :
    limits.cut (accepted tr ++ batch.rows) =
        limits.cut (accepted tr) ++ (ResultBuffer.kept batch keepRows).rows ∧
      (limits.cut (accepted tr ++ batch.rows) ≠ accepted tr ++ batch.rows →
        keepRows.isSome = true) := by
  obtain ⟨hlt, hkeep⟩ := BufferIndex.planRows_eq_ok hplan
  cases hmax : limits.maxRows with
  | none =>
    simp only [BufferLimits.cut, hmax] at hkeep ⊢
    obtain ⟨rfl, -⟩ | ⟨limit, hlimit, -⟩ := hkeep
    · exact ⟨rfl, fun hne => absurd rfl hne⟩
    · simp at hlimit
  | some limit =>
    obtain ⟨hlength, hrows⟩ := h.length_lt_of_rows_lt hmax (hlt limit hmax)
    simp only [BufferLimits.cut, hmax, take_append, take_of_length_le hlength.le]
    obtain ⟨rfl, hfits⟩ | ⟨limit', hlimit, hcut, rfl⟩ := hkeep
    · have := hfits limit hmax
      have hall : batch.rows.take (limit - (accepted tr).length) = batch.rows :=
        take_of_length_le (by unfold RecordBatch.numRows at this; omega)
      rw [hall]
      exact ⟨rfl, fun hne => absurd rfl hne⟩
    · obtain rfl := Option.some.inj (hmax.symm.trans hlimit)
      rw [hrows]
      exact ⟨rfl, fun _ => rfl⟩

theorem truncated_published {slot : Slot Field Row} {truncated : Bool}
    (h : buffer.index.stats.truncated = true ∨ truncated = true) :
    (buffer.published batch slot truncated).stats.truncated = true := by
  unfold ResultBuffer.published
  cases truncated with
  | true => rfl
  | false => simpa [BufferIndex.append, ExecStats.recordBatch] using h

variable {event : Op Field Row × Answer Field Row}

theorem same (h : Streamed fields limits tr buffer batches) (hnone : accepted [event] = [])
    (hfields : buffer'.fields = buffer.fields) (hlimits : buffer'.limits = buffer.limits)
    (hrepresents : buffer'.Represents batches)
    (htruncated : buffer.index.stats.truncated = true → buffer'.index.stats.truncated = true) :
    Streamed fields limits (tr ++ [event]) buffer' batches where
  fields_eq := hfields.trans h.fields_eq
  limits_eq := hlimits.trans h.limits_eq
  represents := hrepresents
  contents := by rw [accepted_snoc, hnone, append_nil, h.contents]
  truncated := by
    rw [accepted_snoc, hnone, append_nil]
    exact fun hne => htruncated (h.truncated hne)

theorem reads (h : Streamed fields limits tr buffer batches)
    (hnone : accepted [event] = []) {position : Nat} {answer : Option (RecordBatch Field Row)}
    (hreads : buffer.Reads batches position answer buffer') :
    Streamed fields limits (tr ++ [event]) buffer' batches := by
  obtain ⟨⟨cache, rfl⟩, hrepresents, -⟩ := hreads
  exact h.same hnone rfl rfl hrepresents id

variable [DecidableEq Field]

theorem push (h : Streamed fields limits tr buffer batches) {disk : Except DiskError StreamLen}
    {position : Option Nat} (hpush : buffer.push batch disk = (.ok position, buffer')) :
    ∃ batches', Streamed fields limits (tr ++ [(.push batch disk, .pushed (.ok position))])
      buffer' batches' := by
  have haccepted : accepted [((.push batch disk, .pushed (.ok position)) :
      Op Field Row × Answer Field Row)] = batch.rows := by simp [accepted]
  obtain ⟨hempty, -, rfl⟩ | ⟨plan, slot, file, hbatch, hplan, hplaced, -, rfl⟩ :=
    ResultBuffer.push_eq_ok h.represents.file hpush
  · refine ⟨batches, h.same ?_ rfl rfl h.represents id⟩
    rw [haccepted]
    exact length_eq_zero_iff.mp hempty
  · obtain ⟨-, hrows, -, htruncated⟩ := BufferIndex.plan_eq_ok hplan
    obtain ⟨hkept, hcut⟩ := h.kept_rows (h.limits_eq ▸ hrows)
    refine ⟨_, h.fields_eq, h.limits_eq, h.represents.publish hbatch hplan hplaced, ?_, fun hne => ?_⟩
    · rw [accepted_snoc, haccepted, hkept, flatMap_append, h.contents]
      simp
    · rw [accepted_snoc, haccepted] at hne
      exact truncated_published (.inr (htruncated.trans (hcut hne)))

theorem step (h : Streamed fields limits tr buffer batches) (hstep : OpStep buffer event buffer') :
    ∃ batches', Streamed fields limits (tr ++ [event]) buffer' batches' := by
  obtain ⟨op, answer⟩ := event
  have happly : buffer.apply op = (answer, buffer') := hstep
  obtain rfl : (buffer.apply op).1 = answer := by rw [happly]
  obtain rfl : (buffer.apply op).2 = buffer' := by rw [happly]
  cases op with
  | push batch disk =>
    cases hpush : buffer.push batch disk with
    | mk answer pushed =>
      simp only [ResultBuffer.apply, hpush, Prod.map, id]
      cases answer with
      | ok position => exact h.push hpush
      | error e =>
        obtain rfl := ResultBuffer.push_eq_error hpush
        exact ⟨batches, h.same rfl rfl rfl h.represents id⟩
  | markTruncated => exact ⟨batches, h.same rfl rfl rfl h.represents.markTruncated fun _ => rfl⟩
  | markComplete stats =>
    refine ⟨batches, h.same rfl rfl rfl (h.represents.markComplete stats) fun htruncated => ?_⟩
    simp [ResultBuffer.apply, ResultBuffer.markComplete, htruncated, ExecStats.markTruncated]
  | batch position read => exact ⟨batches, h.reads rfl (h.represents.batchCancellable position read)⟩
  | cachedBatch position contended =>
    exact ⟨batches, h.reads rfl (h.represents.cachedBatch position contended)⟩
  | loadPage position read => exact ⟨batches, h.reads rfl (h.represents.loadPage position read)⟩

theorem run (hrun : BufferRun fields limits tr buffer) :
    ∃ batches, Streamed fields limits tr buffer batches :=
  hrun.history (P := fun tr buffer => ∃ batches, Streamed fields limits tr buffer batches)
    ⟨[], withLimits fields limits⟩ fun _ _ _ _ _ ⟨_, h⟩ hstep => h.step hstep

end Streamed

/-! ## What follows -/

namespace ResultBuffer

variable {buffer buffer' : ResultBuffer Field Row} {batches : List (RecordBatch Field Row)}

theorem numRows_of_getElem? {i n : Nat} (hn : (batches.map (·.numRows))[i]? = some n) :
    ∃ batch, batches[i]? = some batch ∧ n = batch.numRows := by
  rw [getElem?_map] at hn
  obtain ⟨batch, hbatch, rfl⟩ := Option.map_eq_some_iff.mp hn
  exact ⟨batch, hbatch, rfl⟩

theorem Represents.locate_of_lt (h : buffer.Represents batches) {row : Nat}
    (hrow : row < buffer.index.rows) :
    ∃ i start batch, buffer.locate row = some (i, row - start) ∧
      buffer.index.starts[i]? = some start ∧ start ≤ row ∧ batches[i]? = some batch ∧
      row - start < batch.numRows := by
  obtain ⟨i, start, n, hsearch, hstart, hle, hn, hlt⟩ := exists_block (h.rows ▸ hrow)
  obtain ⟨batch, hbatch, rfl⟩ := numRows_of_getElem? hn
  refine ⟨i, start, batch, ?_, h.starts ▸ hstart, hle, hbatch, hlt⟩
  have hnot : ¬ buffer.index.rows ≤ row := Nat.not_le.mpr hrow
  simp only [locate, hnot, ↓reduceIte, h.starts, hsearch, hstart, Option.map_some]

theorem locate_of_le {row : Nat} (h : buffer.index.rows ≤ row) : buffer.locate row = none := by
  simp [locate, h]

variable [DecidableEq Field]

theorem push_of_plan_error {batch : RecordBatch Field Row} {disk : Except DiskError StreamLen}
    {e : DataError Field} (hbatch : 0 < batch.numRows) (hfields : batch.fields = buffer.fields)
    (hplan : buffer.index.plan buffer.limits buffer.limits.residentBudget
      batch.numRows batch.memory = .error e) :
    buffer.push batch disk = (.error e, buffer) := by
  unfold push
  rw [if_neg (Nat.pos_iff_ne_zero.mp hbatch)]
  simp only [checkSchema, hfields, ↓reduceIte, hplan, Bind.bind, Except.bind]

theorem push_of_pressure (hpressure : buffer.pressure ≠ .ready) {batch : RecordBatch Field Row}
    (disk : Except DiskError StreamLen) (hbatch : 0 < batch.numRows)
    (hfields : batch.fields = buffer.fields)
    (hcounted : buffer.pressure = .saturated → 0 < batch.memory ∧
      buffer.index.residentBytes + batch.memory ≤ wordMax ∧
      buffer.index.spilledBytes + batch.memory ≤ wordMax) :
    ∃ e, buffer.push batch disk = (.error e, buffer) := by
  suffices ∃ e, buffer.index.plan buffer.limits buffer.limits.residentBudget
      batch.numRows batch.memory = .error e from
    this.imp fun e he => push_of_plan_error hbatch hfields he
  unfold pressure at hpressure hcounted
  unfold BufferIndex.plan
  simp only at hpressure hcounted
  split_ifs at hpressure hcounted with hcomplete hrows hmemory
  · exact ⟨_, if_pos hcomplete⟩
  · obtain ⟨e, he⟩ := BufferIndex.planRows_of_reached hrows batch.numRows
    exact ⟨e, by simp only [hcomplete, Bool.false_eq_true, ↓reduceIte, he, Bind.bind, Except.bind]⟩
  · obtain ⟨hpos, hresident, hspilled⟩ := hcounted rfl
    obtain ⟨e, he⟩ := BufferIndex.planSpill_of_saturated hmemory hpos hresident
      hspilled
    cases hplan : buffer.index.planRows buffer.limits.maxRows batch.numRows with
    | error e' =>
      exact ⟨e', by
        simp only [hcomplete, Bool.false_eq_true, ↓reduceIte, Bind.bind, Except.bind]⟩
    | ok keepRows =>
      exact ⟨e, by
        simp only [hcomplete, Bool.false_eq_true, ↓reduceIte, he, Bind.bind, Except.bind]⟩
  · exact absurd rfl hpressure

theorem spilled_of_push {batch : RecordBatch Field Row} {disk : Except DiskError StreamLen}
    {position : Option Nat} (hfile : buffer.spill.Bounded)
    (hused : buffer.limits.residentBudget ≤ buffer.index.residentBytes)
    (hbatch : 0 < batch.numRows) (hmemory : 0 < batch.memory)
    (hcounted : buffer.index.residentBytes + batch.memory ≤ wordMax)
    (hpush : buffer.push batch disk = (.ok position, buffer')) :
    buffer'.index.residentBytes = buffer.index.residentBytes ∧
      ∃ reference, buffer'.index.slots = buffer.index.slots ++ [.spilled reference] := by
  obtain ⟨hempty, -⟩ | ⟨plan, slot, file, -, hplan, hplaced, -, rfl⟩ := push_eq_ok hfile hpush
  · omega
  · have hspill := BufferIndex.planSpill_eq_ok (BufferIndex.plan_eq_ok hplan).2.2.1
    have hover : ¬ satAdd wordMax buffer.index.residentBytes batch.memory ≤
        buffer.limits.residentBudget := by
      unfold satAdd
      omega
    cases slot with
    | resident b => exact absurd (hspill.mp (hplaced.isResident.mpr ⟨b, rfl⟩)) hover
    | spilled reference => exact ⟨rfl, reference, rfl⟩

end ResultBuffer

theorem truncated_of_step [DecidableEq Field] {buffer buffer' : ResultBuffer Field Row}
    {event : Op Field Row × Answer Field Row} {batches : List (RecordBatch Field Row)}
    (h : buffer.Represents batches) (hstep : OpStep buffer event buffer')
    (htruncated : buffer.index.stats.truncated = true) :
    buffer'.index.stats.truncated = true := by
  obtain ⟨op, answer⟩ := event
  have happly : buffer.apply op = (answer, buffer') := hstep
  obtain rfl : (buffer.apply op).2 = buffer' := by rw [happly]
  have hread : ∀ {position : Nat} {answer : Option (RecordBatch Field Row)}
      {buffer' : ResultBuffer Field Row}, buffer.Reads batches position answer buffer' →
      buffer'.index.stats.truncated = true := by
    rintro position answer _ ⟨⟨cache, rfl⟩, -, -⟩
    exact htruncated
  cases op with
  | push batch disk =>
    cases hpush : buffer.push batch disk with
    | mk answer pushed =>
      simp only [ResultBuffer.apply, hpush, Prod.map, id]
      cases answer with
      | error e => exact ResultBuffer.push_eq_error hpush ▸ htruncated
      | ok position =>
        obtain ⟨-, -, rfl⟩ | ⟨plan, slot, file, -, -, -, -, rfl⟩ :=
          ResultBuffer.push_eq_ok h.file hpush
        · exact htruncated
        · exact Streamed.truncated_published (.inl htruncated)
  | markTruncated => rfl
  | markComplete stats =>
    simp [ResultBuffer.apply, ResultBuffer.markComplete, htruncated, ExecStats.markTruncated]
  | batch position read => exact hread (h.batchCancellable position read)
  | cachedBatch position contended => exact hread (h.cachedBatch position contended)
  | loadPage position read => exact hread (h.loadPage position read)

theorem truncated_of_steps [DecidableEq Field] {fields : List Field} {limits : BufferLimits}
    {tr tr' : List (Op Field Row × Answer Field Row)} {buffer buffer' : ResultBuffer Field Row}
    (hrun : BufferRun fields limits tr buffer) (hsteps : Steps OpStep buffer tr' buffer')
    (htruncated : buffer.index.stats.truncated = true) :
    buffer'.index.stats.truncated = true := by
  induction hsteps with
  | nil => exact htruncated
  | snoc hbefore hstep ih =>
    obtain ⟨batches, h⟩ := Streamed.run (hrun.trans hbefore)
    exact truncated_of_step h.represents hstep ih

structure CutOnce (limits : BufferLimits) (tr : List (Op Field Row × Answer Field Row))
    (buffer : ResultBuffer Field Row) [DecidableEq Field]
    (batches : List (RecordBatch Field Row)) : Prop where
  /-- Each slot stands for its batch, in memory or in the file. -/
  slots : buffer.index.slots.map buffer.spill.stored = batches.map some
  contents : batches.flatMap (·.rows) = limits.cut (accepted tr)
  truncated : limits.cut (accepted tr) ≠ accepted tr → buffer.index.stats.truncated = true
  starts_zero : ∀ start, buffer.index.starts[0]? = some start → start = 0
  starts_grow : ∀ i start next, buffer.index.starts[i]? = some start →
    buffer.index.starts[i + 1]? = some next → start < next ∨ (start = wordMax ∧ next = wordMax)
  locate_isSome : ∀ row, (buffer.locate row).isSome = true ↔ row < buffer.index.rows
  locate_eq : ∀ row i offset, buffer.locate row = some (i, offset) →
    ∃ start batch, buffer.index.starts[i]? = some start ∧ start + offset = row ∧
      batches[i]? = some batch ∧ offset < batch.numRows
  pages : ∀ i read batch, (buffer.batchCancellable i read).1 = .ok (some batch) →
    batches[i]? = some batch
  resident : buffer.index.residentBytes ≤ limits.residentBudget
  retained : buffer.index.residentBytes + buffer.cache.retainedBytes ≤ limits.memoryBudget

theorem Streamed.cutOnce [DecidableEq Field] {fields : List Field} {limits : BufferLimits}
    {tr : List (Op Field Row × Answer Field Row)} {buffer : ResultBuffer Field Row}
    {batches : List (RecordBatch Field Row)} (h : Streamed fields limits tr buffer batches) :
    CutOnce limits tr buffer batches where
  slots := h.represents.slots
  contents := h.contents
  truncated := h.truncated
  starts_zero := by
    intro start hstart
    rw [h.represents.starts] at hstart
    have hlt := (List.getElem?_eq_some_iff.mp hstart).1
    rw [getElem?_starts (by rwa [length_starts] at hlt)] at hstart
    simpa using hstart.symm
  starts_grow := by
    intro i start next hstart hnext
    rw [h.represents.starts] at hstart hnext
    refine starts_lt (fun n hn => ?_) hstart hnext
    obtain ⟨batch, hbatch, rfl⟩ := mem_map.mp hn
    exact h.represents.nonempty batch hbatch
  locate_isSome := by
    intro row
    rcases Nat.lt_or_ge row buffer.index.rows with hlt | hge
    · obtain ⟨i, start, batch, hlocate, -⟩ := h.represents.locate_of_lt hlt
      simp [hlocate, hlt]
    · simp [ResultBuffer.locate_of_le hge, Nat.not_lt.mpr hge]
  locate_eq := by
    intro row i offset hlocate
    have hlt : row < buffer.index.rows := by
      by_contra hge
      rw [ResultBuffer.locate_of_le (Nat.not_lt.mp hge)] at hlocate
      simp at hlocate
    obtain ⟨i', start, batch, hlocate', hstart, hle, hbatch, hoffset⟩ :=
      h.represents.locate_of_lt hlt
    obtain ⟨rfl, rfl⟩ := Prod.mk.inj (Option.some.inj (hlocate'.symm.trans hlocate))
    exact ⟨start, batch, hstart, Nat.add_sub_cancel' hle, hbatch, hoffset⟩
  pages := by
    intro i read batch hanswer
    refine (h.represents.batchCancellable i read).batch batch ?_
    rw [hanswer]
    rfl
  resident := h.limits_eq ▸ h.represents.resident
  retained := by
    have hresident := h.represents.resident
    have hcached := h.represents.cache.retainedBytes_le
    rw [h.represents.capacity] at hcached
    rw [h.limits_eq] at hresident hcached
    unfold BufferLimits.residentBudget BufferLimits.cacheBudget at *
    split_ifs at * <;> omega

/-! ## The result buffer is the stream, cut once -/

section

variable [DecidableEq Field] {fields : List Field} {limits : BufferLimits}
  {tr : List (Op Field Row × Answer Field Row)} {buffer : ResultBuffer Field Row}

/-- Whatever is done with a buffer, it is the stream of what it accepted, cut once; a push that
fails changes nothing; under pressure a push fails, and spills once the memory is used up; a
truncation stays. -/
theorem buffer_is_the_stream (hrun : BufferRun fields limits tr buffer) :
    (∃ batches, CutOnce limits tr buffer batches) ∧
      (∀ batch disk e buffer', buffer.push batch disk = (.error e, buffer') → buffer' = buffer) ∧
      (buffer.pressure ≠ .ready → ∀ batch disk, 0 < batch.numRows → batch.fields = fields →
        (buffer.pressure = .saturated → 0 < batch.memory ∧
          buffer.index.residentBytes + batch.memory ≤ wordMax ∧
          buffer.index.spilledBytes + batch.memory ≤ wordMax) →
        ∃ e, buffer.push batch disk = (.error e, buffer)) ∧
      (limits.residentBudget ≤ buffer.index.residentBytes →
        ∀ batch disk position buffer', 0 < batch.numRows → 0 < batch.memory →
          buffer.index.residentBytes + batch.memory ≤ wordMax →
          buffer.push batch disk = (.ok position, buffer') →
          buffer'.index.residentBytes = buffer.index.residentBytes ∧
            ∃ reference, buffer'.index.slots = buffer.index.slots ++ [.spilled reference]) ∧
      (∀ tr' buffer', Steps OpStep buffer tr' buffer' → buffer.index.stats.truncated = true →
        buffer'.index.stats.truncated = true) := by
  obtain ⟨batches, h⟩ := Streamed.run hrun
  refine ⟨⟨batches, h.cutOnce⟩, fun batch disk e buffer' => ResultBuffer.push_eq_error,
    fun hpressure batch disk hbatch hfields hcounted => ?_,
    fun hused batch disk position buffer' hbatch hmemory hcounted => ?_,
    fun tr' buffer' hsteps => truncated_of_steps hrun hsteps⟩
  · exact ResultBuffer.push_of_pressure hpressure disk hbatch (hfields.trans h.fields_eq.symm)
      hcounted
  · exact ResultBuffer.spilled_of_push h.represents.file (h.limits_eq.symm ▸ hused) hbatch hmemory
      hcounted

end

/-- A second batch that does not fit in memory, and of which the limit leaves one row. -/
theorem buffer_of_two_pushes :
    let limits : BufferLimits := ⟨100, some 3, none, true, by decide, by simp [wordMax]⟩
    let ops : List (Op Unit Nat) := [.push ⟨[()], [10, 11], 40⟩ (.error .spill),
      .push ⟨[()], [12, 13], 40⟩ (.ok ⟨7, by decide⟩)]
    let last := (ResultBuffer.withLimits [()] limits).applyAll ops
    last.2.index.starts = [0, 2] ∧ ∃ batches, CutOnce limits last.1 last.2 batches := by
  intro limits ops last
  exact ⟨by decide, (buffer_is_the_stream (steps_applyAll (.withLimits [()] limits) ops)).1⟩

def noMemory : BufferLimits := ⟨0, none, none, false, Nat.zero_le _, rows_unbounded⟩

/-- Rows without columns, as many as a `usize` counts. -/
structure Countless (batch : RecordBatch Unit Unit) : Prop where
  fields : batch.fields = []
  numRows : batch.numRows = wordMax
  memory : batch.memory = 0

theorem exists_countless : ∃ batch, Countless batch :=
  ⟨⟨[], List.replicate wordMax (), 0⟩, rfl, length_replicate, rfl⟩

/-- A batch without columns holds no memory, and stays where there is none. -/
theorem Countless.push {batch : RecordBatch Unit Unit} (h : Countless batch)
    {buffer : ResultBuffer Unit Unit} (hfields : buffer.fields = [])
    (hlimits : buffer.limits = noMemory) (hopen : buffer.index.complete = false)
    (hresident : buffer.index.residentBytes = 0) (disk : Except DiskError StreamLen) :
    buffer.push batch disk = (.ok (some buffer.index.slots.length),
      { buffer with index := buffer.published batch (.resident batch) false }) := by
  have hpos : batch.numRows ≠ 0 := by rw [h.numRows]; decide
  have hplan : buffer.index.plan noMemory noMemory.residentBudget
      batch.numRows batch.memory = .ok ⟨none, false, false⟩ := by
    simp [BufferIndex.plan, hopen, BufferIndex.planRows, BufferIndex.planSpill, hresident, noMemory,
      h.memory, satAdd, Bind.bind, Except.bind, Pure.pure, Except.pure]
  have hschema : buffer.checkSchema batch = .ok () := if_pos (h.fields.trans hfields.symm)
  unfold ResultBuffer.push
  rw [if_neg hpos]
  simp only [hschema, hlimits, hplan, Bind.bind, Except.bind, ResultBuffer.place,
    Bool.false_eq_true, ↓reduceIte, ResultBuffer.publish, hopen]
  rfl

theorem Countless.run {batch : RecordBatch Unit Unit} (h : Countless batch)
    {tr : List (Op Unit Unit × Answer Unit Unit)} {buffer : ResultBuffer Unit Unit}
    (hrun : BufferRun [] noMemory tr buffer) (hfields : buffer.fields = [])
    (hlimits : buffer.limits = noMemory) (hopen : buffer.index.complete = false)
    (hresident : buffer.index.residentBytes = 0) :
    ∃ (tr' : List (Op Unit Unit × Answer Unit Unit)) (buffer' : ResultBuffer Unit Unit),
      BufferRun [] noMemory tr' buffer' ∧ buffer'.fields = [] ∧
      buffer'.limits = noMemory ∧ buffer'.index.complete = false ∧
      buffer'.index.residentBytes = 0 ∧
      buffer'.index.starts = buffer.index.starts ++ [buffer.index.rows] ∧
      buffer'.index.rows = min (buffer.index.rows + wordMax) wordMax := by
  have hstep : OpStep buffer
      (.push batch (.error .spill), .pushed (.ok (some buffer.index.slots.length)))
      { buffer with index := buffer.published batch (.resident batch) false } := by
    simp only [OpStep, ResultBuffer.apply, h.push hfields hlimits hopen hresident, Prod.map, id]
  refine ⟨_, _, hrun.snoc hstep, hfields, hlimits, hopen, ?_, rfl, ?_⟩
  · simp [ResultBuffer.published, BufferIndex.append, hresident, h.memory, satAdd]
  · simp [ResultBuffer.published, BufferIndex.append, h.numRows, satAdd]

/-- A batch without columns is taken although the memory is used up; and past the
greatest `usize` of rows two batches start at the same number. -/
theorem pushed_under_pressure :
    (¬ ∀ (tr : List (Op Unit Unit × Answer Unit Unit)) (buffer : ResultBuffer Unit Unit),
      BufferRun [] noMemory tr buffer → buffer.pressure ≠ .ready →
      ∀ batch disk, 0 < batch.numRows → batch.fields = [] →
        ∃ e, buffer.push batch disk = (.error e, buffer)) ∧
    ¬ ∀ (tr : List (Op Unit Unit × Answer Unit Unit)) (buffer : ResultBuffer Unit Unit),
      BufferRun [] noMemory tr buffer → ∀ i start next, buffer.index.starts[i]? = some start →
        buffer.index.starts[i + 1]? = some next → start < next := by
  constructor
  · intro h
    obtain ⟨e, he⟩ := h [] (.withLimits [] noMemory) .nil (by decide) ⟨[], [()], 0⟩
      (.error .spill) (by decide) rfl
    have hfirst : ((ResultBuffer.withLimits [] noMemory).push (⟨[], [()], 0⟩ : RecordBatch Unit Unit)
        (.error .spill)).1 = .ok (some 0) := rfl
    rw [he] at hfirst
    cases hfirst
  · intro h
    obtain ⟨batch, hbatch⟩ := exists_countless
    obtain ⟨_, _, hrun₁, hf₁, hl₁, ho₁, hr₁, hstarts₁, hrows₁⟩ :=
      hbatch.run (.nil : BufferRun [] noMemory [] (.withLimits [] noMemory)) rfl rfl rfl rfl
    obtain ⟨_, _, hrun₂, hf₂, hl₂, ho₂, hr₂, hstarts₂, hrows₂⟩ :=
      hbatch.run hrun₁ hf₁ hl₁ ho₁ hr₁
    obtain ⟨tr, buffer, hrun, -, -, -, -, hstarts, -⟩ := hbatch.run hrun₂ hf₂ hl₂ ho₂ hr₂
    have hall : buffer.index.starts = [0, wordMax, wordMax] := by
      rw [hstarts, hstarts₂, hstarts₁, hrows₂, hrows₁]
      simp [ResultBuffer.withLimits, BufferIndex.new]
    have := h tr buffer hrun 1 wordMax wordMax (by rw [hall]; rfl) (by rw [hall]; rfl)
    exact Nat.lt_irrefl _ this

end Oxyn.Data
