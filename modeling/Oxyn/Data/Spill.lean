/-
# `Oxyn.Data.Spill` — batches, the spill file and the cache of pages

A result arrives in batches.  What does not fit in memory is written to a file, each batch as a
stream of its own at an offset that is kept with the batch's place, and is read back from there.
-/
import Oxyn.Lib.Loop
import Oxyn.Lib.Offsets

namespace Oxyn.Data

open Offsets List

/-- The greatest value of a `usize`, and of a `u64`. -/
def wordMax : Nat := 2 ^ 64 - 1

/-! ## Batches -/

structure RecordBatch (Field Row : Type) where
  fields : List Field
  rows : List Row
  memory : Nat
deriving DecidableEq

namespace RecordBatch

variable {Field Row : Type}

def numRows (batch : RecordBatch Field Row) : Nat := batch.rows.length

/-- The first rows; a slice shares its parent's memory. -/
def slice (batch : RecordBatch Field Row) (n : Nat) : RecordBatch Field Row :=
  { batch with rows := batch.rows.take n }

end RecordBatch

structure ExecStats where
  rows : Nat
  bytes : Nat
  serverTime : Option Nat
  totalTime : Nat
  batches : Nat
  truncated : Bool
deriving DecidableEq

namespace ExecStats

def default : ExecStats := ⟨0, 0, none, 0, 0, false⟩

def recordBatch (stats : ExecStats) (rows bytes : Nat) : ExecStats :=
  { stats with
    rows := satAdd wordMax stats.rows rows
    bytes := satAdd wordMax stats.bytes bytes
    batches := satAdd wordMax stats.batches 1 }

def markTruncated (stats : ExecStats) : ExecStats := { stats with truncated := true }

end ExecStats

/-- How the disk, or the encoder in front of it, fails. -/
inductive DiskError where
  | spill
  | arrow
deriving DecidableEq

inductive DataError (Field : Type) where
  | schemaMismatch (expected found : List Field)
  | alreadyComplete
  | full (reason : String)
  | disk (error : DiskError)
  | cancelled
deriving DecidableEq

/-! ## The spill file -/

/-- The size of an entry of the cache: a number and a batch's handle. -/
def entrySize : Nat := 48

def columnSize : Nat := 16

def retainedSize {Field Row : Type} (batch : RecordBatch Field Row) : Nat :=
  satAdd wordMax (satAdd wordMax batch.memory entrySize)
    (satMul wordMax batch.fields.length columnSize)

/-- Where a spilled batch is in the file. -/
structure SpillRef where
  offset : Nat
  len : Nat
  rows : Nat
  retainedBytes : Nat
deriving DecidableEq

structure SpillFile (Field Row : Type) where
  nextOffset : Nat
  streams : List (SpillRef × RecordBatch Field Row)

/-- The length of a stream that was written; it holds the schema at least. -/
abbrev StreamLen := { n : Nat // 0 < n }

namespace SpillFile

variable {Field Row : Type}

def create : SpillFile Field Row := ⟨0, []⟩

/-- Appends a batch whose stream is `len` bytes long. -/
def append (file : SpillFile Field Row) (batch : RecordBatch Field Row) (len : StreamLen) :
    SpillRef × SpillFile Field Row :=
  let reference : SpillRef := ⟨file.nextOffset, len.1, batch.numRows, retainedSize batch⟩
  (reference, ⟨file.nextOffset + len.1, file.streams ++ [(reference, batch)]⟩)

def read (file : SpillFile Field Row) (reference : SpillRef) :
    Option (RecordBatch Field Row) :=
  (file.streams.find? fun stream => stream.1 = reference).map Prod.snd

def Bounded (file : SpillFile Field Row) : Prop :=
  ∀ stream ∈ file.streams, stream.1.offset < file.nextOffset

theorem bounded_create : (create : SpillFile Field Row).Bounded := by
  intro stream h
  simp [create] at h

variable {file : SpillFile Field Row}

theorem Bounded.append (h : file.Bounded)
    (batch : RecordBatch Field Row) (len : StreamLen) : (file.append batch len).2.Bounded := by
  have hlen := len.2
  intro stream hstream
  rcases mem_append.mp hstream with hold | hnew
  · have := h stream hold
    simp only [SpillFile.append]
    omega
  · obtain rfl := mem_singleton.mp hnew
    simp only [SpillFile.append]
    omega

theorem read_append_of_read {reference : SpillRef}
    {batch : RecordBatch Field Row} (h : file.read reference = some batch)
    (batch' : RecordBatch Field Row) (len : StreamLen) :
    (file.append batch' len).2.read reference = some batch := by
  obtain ⟨stream, hstream, rfl⟩ := Option.map_eq_some_iff.mp h
  simp [read, SpillFile.append, find?_append, hstream]

theorem Bounded.read_append (h : file.Bounded) (batch : RecordBatch Field Row) (len : StreamLen) :
    (file.append batch len).2.read (file.append batch len).1 = some batch := by
  have hnone : file.streams.find? (fun stream => stream.1 = (file.append batch len).1) = none := by
    refine find?_eq_none.mpr fun stream hstream heq => ?_
    have hoffset := h stream hstream
    rw [of_decide_eq_true heq] at hoffset
    exact Nat.lt_irrefl _ hoffset
  simp only [read, SpillFile.append] at hnone ⊢
  simp [find?_append, hnone]

end SpillFile

/-! ## The cache -/

/-- Batches read back, the least recently used first, and what the queue has allocated
for its entries. -/
structure SpillCache (Field Row : Type) where
  entries : List (Nat × RecordBatch Field Row)
  allocated : Nat
  capacityBytes : Nat
  charged : Nat

namespace SpillCache

variable {Field Row : Type}

def new (capacityBytes : Nat) : SpillCache Field Row := ⟨[], 0, capacityBytes, 0⟩

variable (cache : SpillCache Field Row)

def retainedBytes : Nat :=
  satAdd wordMax cache.charged (satMul wordMax cache.allocated entrySize)

/-- Makes the entry at a position the most recently used one. -/
def get (index : Nat) : Option (RecordBatch Field Row × SpillCache Field Row) :=
  match cache.entries.find? (·.1 = index) with
  | none => none
  | some entry =>
    some (entry.2, { cache with entries := cache.entries.eraseP (·.1 = index) ++ [entry] })

/-- Room for one more entry; nothing is allocated where there is room already. -/
def reserveOne : SpillCache Field Row :=
  { cache with allocated := max cache.allocated (cache.entries.length + 1) }

def charge (batch : RecordBatch Field Row) : Nat := retainedSize batch - entrySize

/-- One turn of the eviction: the oldest entry goes, while `bytes` more do not fit. -/
def evictStep (bytes : Nat) (cache : SpillCache Field Row) : Option (SpillCache Field Row) :=
  if satAdd wordMax cache.retainedBytes bytes ≤ cache.capacityBytes then none
  else
    match cache.entries with
    | [] => none
    | oldest :: entries =>
      some { cache with
        entries := entries
        charged := cache.charged - charge oldest.2
        -- The queue is shrunk to its entries, then reserves one.
        allocated := entries.length + 1 }

def evictLoop (bytes : Nat) : Loop (SpillCache Field Row) where
  step := evictStep bytes
  measure := fun cache => cache.entries.length
  decreases := fun {cache cache'} h => by
    unfold evictStep at h
    split_ifs at h
    cases hentries : cache.entries with
    | nil => simp [hentries] at h
    | cons oldest entries =>
      rw [hentries] at h
      obtain rfl := Option.some.inj h
      simp

def insert (index : Nat) (batch : RecordBatch Field Row) : SpillCache Field Row :=
  let bytes := charge batch
  if cache.capacityBytes < satAdd wordMax bytes entrySize then cache
  else if cache.entries.any (·.1 = index) then cache
  else
    let room := (evictLoop bytes).final cache.reserveOne
    if satAdd wordMax room.retainedBytes bytes ≤ cache.capacityBytes then
      { room with
        charged := satAdd wordMax room.charged bytes
        entries := room.entries ++ [(index, batch)] }
    else room

/-! ### The bound of the cache -/

structure Charged (cache : SpillCache Field Row) : Prop where
  charged : cache.charged = (cache.entries.map (charge ·.2)).sum
  room : cache.entries.length ≤ cache.allocated

structure Bounded (cache : SpillCache Field Row) : Prop extends cache.Charged where
  fits : cache.charged + cache.allocated * entrySize ≤ cache.capacityBytes

theorem bounded_new (capacityBytes : Nat) :
    (new capacityBytes : SpillCache Field Row).Bounded :=
  ⟨⟨rfl, Nat.le_refl 0⟩, by simp [new]⟩

variable {cache}

theorem Bounded.retainedBytes_le (h : cache.Bounded) :
    cache.retainedBytes ≤ cache.capacityBytes := by
  have hfits := h.fits
  unfold retainedBytes satAdd satMul
  omega

theorem sum_le_of_retained {bytes : Nat} (hcapacity : cache.capacityBytes < wordMax)
    (h : satAdd wordMax cache.retainedBytes bytes ≤ cache.capacityBytes) :
    cache.charged + cache.allocated * entrySize + bytes ≤ cache.capacityBytes := by
  have hall := satAdd_eq_of_lt (Nat.lt_of_le_of_lt h hcapacity)
  have hretained : cache.retainedBytes < wordMax := by omega
  have hsum := satAdd_eq_of_lt hretained
  have hmul : satMul wordMax cache.allocated entrySize = cache.allocated * entrySize := by
    unfold retainedBytes at hretained hsum
    unfold satMul at hsum hretained ⊢
    omega
  unfold retainedBytes at h hall
  omega

variable {cache' : SpillCache Field Row}

theorem get_eq {index : Nat} {batch : RecordBatch Field Row}
    (h : cache.get index = some (batch, cache')) :
    (index, batch) ∈ cache.entries ∧ cache'.entries.Perm cache.entries ∧
      cache'.allocated = cache.allocated ∧ cache'.capacityBytes = cache.capacityBytes ∧
      cache'.charged = cache.charged := by
  unfold get at h
  cases hfind : cache.entries.find? (·.1 = index) with
  | none => simp [hfind] at h
  | some entry =>
    rw [hfind] at h
    obtain ⟨rfl, rfl⟩ := Prod.mk.inj (Option.some.inj h)
    have hkey : entry.1 = index := by simpa using find?_some hfind
    have hmem := mem_of_find?_eq_some hfind
    refine ⟨hkey ▸ hmem, ?_, rfl, rfl, rfl⟩
    obtain ⟨front, back, hentries, hfront⟩ := find?_eq_some_iff_append.mp hfind |>.2
    have herase : cache.entries.eraseP (·.1 = index) = front ++ back := by
      rw [hentries, eraseP_append_right _ fun x hx => by simpa using hfront x hx]
      simp [hkey]
    simp only [herase]
    rw [hentries]
    exact (perm_append_singleton entry _).trans perm_middle.symm

theorem Bounded.get (h : cache.Bounded) {index : Nat} {batch : RecordBatch Field Row}
    (hget : cache.get index = some (batch, cache')) :
    cache'.Bounded := by
  obtain ⟨-, hperm, hallocated, hcapacity, hcharged⟩ := get_eq hget
  refine ⟨⟨?_, ?_⟩, ?_⟩
  · rw [hcharged, h.charged]
    exact (hperm.map _).sum_eq.symm
  · rw [hperm.length_eq, hallocated]
    exact h.room
  · rw [hcharged, hallocated, hcapacity]
    exact h.fits

structure Evicting (capacityBytes : Nat) (entries : List (Nat × RecordBatch Field Row))
    (cache : SpillCache Field Row) : Prop where
  charged : cache.charged = (cache.entries.map (charge ·.2)).sum
  room : cache.entries.length + 1 ≤ cache.allocated
  capacity : cache.capacityBytes = capacityBytes
  subset : cache.entries ⊆ entries
  empty : cache.entries = [] → cache.allocated * entrySize ≤ capacityBytes

theorem Bounded.evicting (h : cache.Bounded) (hentry : entrySize ≤ cache.capacityBytes) :
    cache.reserveOne.Evicting cache.capacityBytes cache.entries := by
  refine ⟨h.charged, Nat.le_max_right _ _, rfl, List.Subset.refl _, fun hempty => ?_⟩
  have hfits := h.fits
  have hnil : cache.entries = [] := hempty
  simp only [reserveOne, hnil, length_nil]
  rcases Nat.le_total cache.allocated 1 with hle | hle
  · rw [Nat.max_eq_right hle]
    omega
  · rw [Nat.max_eq_left hle]
    omega

theorem Evicting.step {capacityBytes bytes : Nat} {entries : List (Nat × RecordBatch Field Row)}
    (h : cache.Evicting capacityBytes entries) (hentry : entrySize ≤ capacityBytes)
    (hstep : evictStep bytes cache = some cache') :
    cache'.Evicting capacityBytes entries := by
  unfold evictStep at hstep
  split_ifs at hstep
  cases hentries : cache.entries with
  | nil => simp [hentries] at hstep
  | cons oldest rest =>
    rw [hentries] at hstep
    obtain rfl := Option.some.inj hstep
    have hcharged := h.charged
    have hsubset := h.subset
    rw [hentries] at hcharged hsubset
    refine ⟨?_, Nat.le_refl _, h.capacity, fun x hx => hsubset (mem_cons_of_mem _ hx),
      fun hempty => ?_⟩
    · simp only [hcharged, map_cons, sum_cons]
      omega
    · have hnil : rest = [] := hempty
      simp only [hnil, length_nil]
      omega

theorem Bounded.insert (h : cache.Bounded) (hcapacity : cache.capacityBytes < wordMax)
    (index : Nat) (batch : RecordBatch Field Row) :
    (cache.insert index batch).Bounded ∧
      (cache.insert index batch).capacityBytes = cache.capacityBytes ∧
      ∀ entry ∈ (cache.insert index batch).entries, entry ∈ cache.entries ∨ entry = (index, batch) := by
  unfold SpillCache.insert
  simp only
  split_ifs with hbig hheld hroom
  · exact ⟨h, rfl, fun entry hentry => .inl hentry⟩
  · exact ⟨h, rfl, fun entry hentry => .inl hentry⟩
  all_goals
    have hentry : entrySize ≤ cache.capacityBytes := by
      unfold satAdd at hbig
      omega
    have hevicting := Loop.final_of_invariant (m := evictLoop (charge batch))
      (fun _ _ hevicting => hevicting.step hentry) (h.evicting hentry)
    have hlast := Loop.step_final (m := evictLoop (charge batch)) cache.reserveOne
    generalize (evictLoop (charge batch)).final cache.reserveOne = room at *
  · have hfits := sum_le_of_retained (hevicting.capacity ▸ hcapacity)
      (hevicting.capacity.symm ▸ hroom)
    have hsum : satAdd wordMax room.charged (charge batch) = room.charged + charge batch := by
      have := hevicting.capacity
      unfold satAdd
      omega
    refine ⟨⟨⟨?_, ?_⟩, ?_⟩, hevicting.capacity, fun entry hentry => ?_⟩
    · simp only [hsum, map_append, sum_append, ← hevicting.charged]
      simp
    · simpa using hevicting.room
    · simp only [hsum]
      omega
    · rcases mem_append.mp hentry with hold | hnew
      · exact .inl (hevicting.subset hold)
      · exact .inr (mem_singleton.mp hnew)
  · have hnil : room.entries = [] := by
      cases hentries : room.entries with
      | nil => rfl
      | cons oldest rest => simp [evictLoop, evictStep, hentries, hevicting.capacity, hroom] at hlast
    have hempty := hevicting.empty hnil
    refine ⟨⟨⟨hevicting.charged, Nat.le_of_succ_le hevicting.room⟩, ?_⟩, hevicting.capacity,
      fun entry hentry => .inl (hevicting.subset hentry)⟩
    have hcharged := hevicting.charged
    rw [hnil] at hcharged
    rw [hcharged, hevicting.capacity]
    simpa using hempty

end SpillCache

end Oxyn.Data
