/-
# `Oxyn.Data.Find` — a search in the loaded results

The resident batches are scanned in order, row by row, up to a number of matches.
-/
import Oxyn.Data.Stream
import Oxyn.Lib.Lowercase

namespace Oxyn.Data

open Text Offsets List

def matchLimit : Nat := 50000

structure FindOutcome where
  rows : List Nat
  skippedBatches : Nat
  capped : Bool
deriving DecidableEq

/-- What a cell shows, whole. -/
inductive Rendered where
  | absent
  | shown (text : Str)
  | failed

inductive CellValue where
  | null
  | text (text : Str)
  | truncated (text : Str) (fullBytes : Nat)
  | unrenderable

/-- `finish`: the value, cut at so many characters; `0` for no cut. -/
def finish (text : Str) (maxLen : Nat) : CellValue :=
  if maxLen = 0 ∨ size text ≤ maxLen then .text text
  else if text.length ≤ maxLen then .text text
  else .truncated (text.take maxLen) (size text)

def formatCell (maxLen : Nat) : Rendered → CellValue
  | .absent => .null
  | .shown text => finish text maxLen
  | .failed => .unrenderable

section

variable {Field Row : Type} (tables : CaseTables) (render : Row → Nat → Rendered)

def cellMatches (query : Str) : CellValue → Bool
  | .text text => decide (query <:+: toLowercase tables text)
  | .truncated text _ => decide (query <:+: toLowercase tables text)
  | .null | .unrenderable => false

def rowMatches (query : Str) (columns : Nat) (row : Row) : Bool :=
  (List.range columns).any fun column => cellMatches tables query (formatCell 0 (render row column))

def scanRows (isMatch : Row → Bool) (start : Nat) : Nat → List Row → FindOutcome → FindOutcome
  | _, [], found => found
  | i, row :: rest, found =>
    if matchLimit ≤ found.rows.length then { found with capped := true }
    else
      scanRows isMatch start (i + 1) rest
        (if isMatch row then { found with rows := found.rows ++ [start + i] } else found)

def FindOutcome.skip (found : FindOutcome) : FindOutcome :=
  { found with skippedBatches := found.skippedBatches + 1 }

def visitBatch (buffer : ResultBuffer Field Row) (contended : Nat → Bool) (query : Str)
    (found : FindOutcome) (position : Nat) : FindOutcome :=
  match buffer.index.slots[position]? with
  | some (.resident _) =>
    match (buffer.cachedBatch position (contended position)).1,
      buffer.index.starts[position]? with
    | some batch, some start =>
      scanRows (rowMatches tables render query batch.fields.length) start 0 batch.rows found
    | _, _ => found.skip
  | _ => found.skip

/-- `find_rows`; a lock may be taken when a batch is asked for. -/
def findRows (buffer : ResultBuffer Field Row) (contended : Nat → Bool) (needle : Str) :
    FindOutcome :=
  if trim needle = [] then ⟨[], 0, false⟩
  else
    (List.range buffer.index.slots.length).foldl
      (visitBatch tables render buffer contended (toLowercase tables (trim needle))) ⟨[], 0, false⟩

end

/-! ## What a scan finds -/

section

variable {α Row : Type}

def matching (isMatch : α → Bool) (rows : List (Nat × α)) : List Nat :=
  (rows.filter fun entry => isMatch entry.2).map Prod.fst

structure Found (isMatch : α → Bool) (scanned : List (Nat × α)) (found : FindOutcome) :
    Prop where
  rows : found.rows = (matching isMatch scanned).take matchLimit
  full : found.capped = true → matchLimit ≤ found.rows.length
  all : found.capped = false → found.rows = matching isMatch scanned

variable {isMatch : α → Bool} {scanned : List (Nat × α)} {found : FindOutcome}

theorem matching_append (more : List (Nat × α)) :
    matching isMatch (scanned ++ more) = matching isMatch scanned ++ matching isMatch more := by
  unfold matching
  rw [filter_append, map_append]

theorem matching_cons (r : Nat) (row : α) (rest : List (Nat × α)) :
    matching isMatch ((r, row) :: rest) =
      (if isMatch row then [r] else []) ++ matching isMatch rest := by
  unfold matching
  rw [filter_cons]
  split
  · rfl
  · rfl

theorem Found.open (h : Found isMatch scanned found) (hroom : found.rows.length < matchLimit) :
    found.rows = matching isMatch scanned ∧ found.capped = false := by
  have hfalse : found.capped = false := by
    rw [Bool.eq_false_iff]
    exact fun htrue => absurd (h.full htrue) (Nat.not_le.mpr hroom)
  exact ⟨h.all hfalse, hfalse⟩

theorem Found.full_append (h : Found isMatch scanned found)
    (hfull : matchLimit ≤ found.rows.length) (more : List (Nat × α)) :
    Found isMatch (scanned ++ more) { found with capped := true } := by
  refine ⟨?_, fun _ => hfull, nofun⟩
  have hlength : matchLimit ≤ (matching isMatch scanned).length := by
    have hrows := congrArg List.length h.rows
    rw [length_take] at hrows
    omega
  show found.rows = _
  rw [matching_append, take_append_of_le_length hlength]
  exact h.rows

theorem Found.row (h : Found isMatch scanned found) (hroom : found.rows.length < matchLimit)
    (r : Nat) (row : α) :
    Found isMatch (scanned ++ [(r, row)])
      (if isMatch row then { found with rows := found.rows ++ [r] } else found) := by
  obtain ⟨hrows, hopen⟩ := h.open hroom
  have hmore : matching isMatch (scanned ++ [(r, row)]) =
      found.rows ++ if isMatch row then [r] else [] := by
    rw [matching_append, ← hrows, matching_cons]
    exact congrArg _ (append_nil _)
  split
  next hmatch =>
    rw [if_pos hmatch] at hmore
    refine ⟨?_, fun hcapped => absurd (hcapped.symm.trans hopen) nofun, fun _ => hmore.symm⟩
    rw [hmore, take_of_length_le]
    rw [length_append, length_singleton]
    exact hroom
  next hmatch =>
    rw [if_neg hmatch, append_nil] at hmore
    refine ⟨?_, fun hcapped => absurd (hcapped.symm.trans hopen) nofun, fun _ => hmore.symm⟩
    rw [hmore, take_of_length_le (Nat.le_of_lt hroom)]

def numbered (tag : Row → α) (start i : Nat) (rows : List Row) : List (Nat × α) :=
  (rows.zipIdx i).map fun entry => (start + entry.2, tag entry.1)

theorem numbered_cons (tag : Row → α) (start i : Nat) (row : Row) (rows : List Row) :
    numbered tag start i (row :: rows) = (start + i, tag row) :: numbered tag start (i + 1) rows := by
  unfold numbered
  rw [zipIdx_cons, map_cons]

theorem Found.scanRows (tag : Row → α) (start i : Nat) (rows : List Row)
    (h : Found isMatch scanned found) :
    Found isMatch (scanned ++ numbered tag start i rows)
      (scanRows (fun row => isMatch (tag row)) start i rows found) := by
  induction rows generalizing scanned found i with
  | nil => exact (append_nil scanned).symm ▸ h
  | cons row rest ih =>
    unfold Data.scanRows
    split
    next hfull => exact h.full_append hfull _
    next hroom =>
      have hnext := ih (i + 1) (h.row (Nat.not_le.mp hroom) (start + i) (tag row))
      rw [append_assoc, singleton_append] at hnext
      rw [numbered_cons]
      exact hnext

theorem skipped_scanRows (isMatch : Row → Bool) (start i : Nat) (rows : List Row)
    (found : FindOutcome) :
    (scanRows isMatch start i rows found).skippedBatches = found.skippedBatches := by
  induction rows generalizing found i with
  | nil => rfl
  | cons row rest ih =>
    unfold scanRows
    split
    · rfl
    · rw [ih]
      split
      · rfl
      · rfl

end

/-! ## What is scanned of a buffer -/

section

variable {Field Row : Type} (buffer : ResultBuffer Field Row) (contended : Nat → Bool)

/-- Is a batch in memory, and can it be had? -/
def isScanned (position : Nat) : Bool :=
  match buffer.index.slots[position]? with
  | some (.resident _) => !contended position
  | _ => false

def scannedAt (position : Nat) : List (Nat × Nat × Row) :=
  match buffer.index.slots[position]?, buffer.index.starts[position]? with
  | some (.resident batch), some start =>
    if contended position then [] else numbered (batch.fields.length, ·) start 0 batch.rows
  | _, _ => []

def scannedRows : List (Nat × Nat × Row) :=
  (List.range buffer.index.slots.length).flatMap (scannedAt buffer contended)

/-- How many batches are not scanned. -/
def unscanned : Nat :=
  ((List.range buffer.index.slots.length).filter fun position =>
    !isScanned buffer contended position).length

variable {buffer} {contended}

theorem slots_length {batches : List (RecordBatch Field Row)} (h : buffer.Represents batches) :
    buffer.index.slots.length = batches.length := by
  have hlength := congrArg List.length h.slots
  rw [length_map, length_map] at hlength
  exact hlength

theorem start_at {batches : List (RecordBatch Field Row)} (h : buffer.Represents batches)
    {position : Nat} (hlt : position < buffer.index.slots.length) :
    buffer.index.starts[position]? =
      some (min (((batches.map (·.numRows)).take position).sum) wordMax) := by
  rw [h.starts]
  refine getElem?_starts ?_
  rw [length_map, ← slots_length h]
  exact hlt

variable (tables : CaseTables) (render : Row → Nat → Rendered) (query : Str)

theorem visit_spec {batches : List (RecordBatch Field Row)} (h : buffer.Represents batches)
    {position : Nat} (hlt : position < buffer.index.slots.length)
    {scanned : List (Nat × Nat × Row)} {found : FindOutcome}
    (hfound : Found (fun entry => rowMatches tables render query entry.1 entry.2) scanned found) :
    Found (fun entry => rowMatches tables render query entry.1 entry.2)
        (scanned ++ scannedAt buffer contended position)
        (visitBatch tables render buffer contended query found position) ∧
      (visitBatch tables render buffer contended query found position).skippedBatches =
        found.skippedBatches + if isScanned buffer contended position then 0 else 1 := by
  have hstart := start_at h hlt
  have hskip : Found (fun entry => rowMatches tables render query entry.1 entry.2)
      (scanned ++ []) found.skip :=
    (append_nil scanned).symm ▸ ⟨hfound.rows, hfound.full, hfound.all⟩
  unfold visitBatch scannedAt isScanned ResultBuffer.cachedBatch
  rw [hstart]
  cases hslot : buffer.index.slots[position]? with
  | none => exact ⟨hskip, rfl⟩
  | some slot =>
    cases slot with
    | spilled reference => exact ⟨hskip, rfl⟩
    | resident batch =>
      cases hcontended : contended position with
      | true => exact ⟨hskip, rfl⟩
      | false =>
        exact ⟨hfound.scanRows (batch.fields.length, ·) _ 0 batch.rows,
          skipped_scanRows _ _ 0 batch.rows found⟩

theorem find_spec {batches : List (RecordBatch Field Row)} (h : buffer.Represents batches)
    {needle : Str} (hneedle : trim needle ≠ []) :
    Found (fun entry => rowMatches tables render (toLowercase tables (trim needle)) entry.1 entry.2)
        (scannedRows buffer contended) (findRows tables render buffer contended needle) ∧
      (findRows tables render buffer contended needle).skippedBatches =
        unscanned buffer contended := by
  have hrun : ∀ n, n ≤ buffer.index.slots.length →
      Found (fun entry =>
          rowMatches tables render (toLowercase tables (trim needle)) entry.1 entry.2)
          ((List.range n).flatMap (scannedAt buffer contended))
          ((List.range n).foldl (visitBatch tables render buffer contended
            (toLowercase tables (trim needle))) ⟨[], 0, false⟩) ∧
        ((List.range n).foldl (visitBatch tables render buffer contended
          (toLowercase tables (trim needle))) ⟨[], 0, false⟩).skippedBatches =
          ((List.range n).filter fun position => !isScanned buffer contended position).length := by
    intro n
    induction n with
    | zero => exact fun _ => ⟨⟨rfl, nofun, fun _ => rfl⟩, rfl⟩
    | succ n ih =>
      intro hle
      obtain ⟨hfound, hskipped⟩ := ih (Nat.le_of_succ_le hle)
      obtain ⟨hmore, hcount⟩ := @visit_spec _ _ _ contended tables render
        (toLowercase tables (trim needle)) _ h _ hle _ _ hfound
      rw [range_succ, flatMap_append, flatMap_singleton, foldl_append,
        foldl_cons, foldl_nil, filter_append, length_append]
      refine ⟨hmore, hcount.trans ?_⟩
      rw [hskipped]
      refine congrArg _ ?_
      cases hscanned : isScanned buffer contended n with
      | true | false => simp [hscanned]
  unfold findRows scannedRows unscanned
  rw [if_neg hneedle]
  exact hrun _ (Nat.le_refl _)

end

/-! ## Numbers of rows -/

section

variable {Field Row : Type} {buffer : ResultBuffer Field Row} {contended : Nat → Bool}
  {batches : List (RecordBatch Field Row)}

theorem sum_take_le (l : List Nat) (n : Nat) : (l.take n).sum ≤ l.sum := by
  have hsplit := congrArg List.sum (take_append_drop n l)
  rw [sum_append] at hsplit
  omega

variable {entry : Nat × Row}

theorem scanned_spec (h : buffer.Represents batches) (hrows : buffer.index.rows < wordMax)
    {position r : Nat} (hmem : (r, entry) ∈ scannedAt buffer contended position) :
    ∃ batch i, batches[position]? = some batch ∧ batch.rows[i]? = some entry.2 ∧
      entry.1 = batch.fields.length ∧ r = ((batches.map (·.numRows)).take position).sum + i := by
  unfold scannedAt at hmem
  cases hslot : buffer.index.slots[position]? with
  | none => rw [hslot] at hmem; cases hmem
  | some slot =>
    have hlt := (List.getElem?_eq_some_iff.mp hslot).1
    have hstart := start_at h hlt
    rw [hslot, hstart] at hmem
    cases slot with
    | spilled reference => cases hmem
    | resident batch =>
      dsimp only at hmem
      split at hmem
      · cases hmem
      · have hbatch : batches[position]? = some batch := by
          have hmap := congrArg (·[position]?) h.slots
          rw [getElem?_map, getElem?_map, hslot] at hmap
          obtain ⟨b, hb, hsome⟩ := Option.map_eq_some_iff.mp hmap.symm
          rw [hb, Option.some.inj hsome]
        obtain ⟨⟨row, i⟩, hrow, heq⟩ := mem_map.mp hmem
        cases heq
        have hsum : ((batches.map (·.numRows)).take position).sum ≤ wordMax := by
          have htotal := h.rows
          have htake := sum_take_le (batches.map (·.numRows)) position
          omega
        refine ⟨batch, i, hbatch, ?_, rfl, ?_⟩
        · exact mem_zipIdx_iff_getElem?.mp hrow
        · show min _ _ + i = _
          rw [Nat.min_eq_left hsum]

theorem mem_scannedRows {r : Nat} :
    (r, entry) ∈ scannedRows buffer contended ↔
      ∃ position < buffer.index.slots.length, (r, entry) ∈ scannedAt buffer contended position := by
  unfold scannedRows
  rw [mem_flatMap]
  constructor
  · rintro ⟨position, hrange, hmem⟩
    exact ⟨position, mem_range.mp hrange, hmem⟩
  · rintro ⟨position, hlt, hmem⟩
    exact ⟨position, mem_range.mpr hlt, hmem⟩

theorem getElem?_rows {position i : Nat} {batch : RecordBatch Field Row} {row : Row}
    (hbatch : batches[position]? = some batch) (hrow : batch.rows[i]? = some row) :
    (batches.flatMap (·.rows))[((batches.map (·.numRows)).take position).sum + i]? = some row := by
  induction batches generalizing position with
  | nil => cases hbatch
  | cons first rest ih =>
    rw [flatMap_cons]
    cases position with
    | zero =>
      obtain rfl := Option.some.inj hbatch
      rw [take_zero, sum_nil, Nat.zero_add,
        getElem?_append_left (List.getElem?_eq_some_iff.mp hrow).1]
      exact hrow
    | succ position =>
      rw [map_cons, take_succ_cons, sum_cons, Nat.add_assoc]
      show (first.rows ++ _)[first.rows.length + _]? = _
      rw [getElem?_append_right (Nat.le_add_right _ _), Nat.add_sub_cancel_left]
      exact ih hbatch

theorem scanned_between (h : buffer.Represents batches) (hrows : buffer.index.rows < wordMax)
    {position r : Nat} (hmem : (r, entry) ∈ scannedAt buffer contended position) :
    ((batches.map (·.numRows)).take position).sum ≤ r ∧
      r < ((batches.map (·.numRows)).take (position + 1)).sum := by
  obtain ⟨batch, i, hbatch, hrow, -, rfl⟩ := scanned_spec h hrows hmem
  have hnum : (batches.map (·.numRows))[position]? = some batch.numRows := by
    rw [getElem?_map, hbatch]
    rfl
  have hlt : i < batch.numRows := (List.getElem?_eq_some_iff.mp hrow).1
  rw [sum_take_succ hnum]
  omega

theorem numbered_increasing {α : Type} (tag : Row → α) (start i : Nat) (rows : List Row) :
    ((numbered tag start i rows).map Prod.fst).Pairwise (· < ·) ∧
      ∀ r ∈ (numbered tag start i rows).map Prod.fst, start + i ≤ r := by
  induction rows generalizing i with
  | nil => exact ⟨.nil, fun _ hmem => nomatch hmem⟩
  | cons row rest ih =>
    obtain ⟨hpairwise, hbound⟩ := ih (i + 1)
    rw [numbered_cons, map_cons]
    refine ⟨pairwise_cons.mpr ⟨fun r hr => ?_, hpairwise⟩, fun r hr => ?_⟩
    · exact hbound r hr
    · rcases mem_cons.mp hr with rfl | hr
      · exact Nat.le_refl _
      · exact Nat.le_of_succ_le (hbound r hr)

theorem scannedAt_increasing (position : Nat) :
    ((scannedAt buffer contended position).map Prod.fst).Pairwise (· < ·) := by
  unfold scannedAt
  split
  · split
    · exact .nil
    · exact (numbered_increasing _ _ _ _).1
  · exact .nil

theorem scanned_increasing (h : buffer.Represents batches) (hrows : buffer.index.rows < wordMax) :
    ((scannedRows buffer contended).map Prod.fst).Pairwise (· < ·) := by
  have hrun : ∀ n, (((List.range n).flatMap (scannedAt buffer contended)).map Prod.fst).Pairwise
        (· < ·) ∧
      ∀ r ∈ ((List.range n).flatMap (scannedAt buffer contended)).map Prod.fst,
        r < ((batches.map (·.numRows)).take n).sum := by
    intro n
    induction n with
    | zero => exact ⟨.nil, fun _ hmem => nomatch hmem⟩
    | succ n ih =>
      obtain ⟨hpairwise, hbound⟩ := ih
      have hnext : ∀ r ∈ (scannedAt buffer contended n).map Prod.fst,
          ((batches.map (·.numRows)).take n).sum ≤ r ∧
            r < ((batches.map (·.numRows)).take (n + 1)).sum := by
        intro r hr
        obtain ⟨⟨r', entry⟩, hmem, rfl⟩ := mem_map.mp hr
        exact scanned_between h hrows hmem
      rw [range_succ, flatMap_append, flatMap_singleton, map_append]
      refine ⟨pairwise_append.mpr
        ⟨hpairwise, scannedAt_increasing n, fun r hr r' hr' => ?_⟩, fun r hr => ?_⟩
      · exact Nat.lt_of_lt_of_le (hbound r hr) (hnext r' hr').1
      · rcases mem_append.mp hr with hr | hr
        · have hless := hbound r hr
          have hgrow : ((batches.map (·.numRows)).take n).sum ≤
              ((batches.map (·.numRows)).take (n + 1)).sum := by
            rw [take_add_one, sum_append]
            exact Nat.le_add_right _ _
          exact Nat.lt_of_lt_of_le hless hgrow
        · exact (hnext r hr).2
  exact (hrun _).1

end

/-! ## A search misses no row it read -/

def Shows {Row : Type} (render : Row → Nat → Rendered) (s : Str) (columns : Nat) (row : Row) :
    Prop :=
  ∃ column < columns, ∃ text, render row column = .shown text ∧ s <:+: text

/-- What a search answers about the rows it scanned, which are rows of the stream. -/
structure FindsAll {Field Row : Type} (render : Row → Nat → Rendered) (s : Str)
    (stream : List Row) (buffer : ResultBuffer Field Row) (contended : Nat → Bool)
    (found : FindOutcome) : Prop where
  absolute : ∀ r columns row, (r, columns, row) ∈ scannedRows buffer contended →
    stream[r]? = some row
  increasing : found.rows.Pairwise (· < ·)
  listed : ∀ r ∈ found.rows, ∃ entry, (r, entry) ∈ scannedRows buffer contended
  all : found.capped = false → ∀ r columns row,
    (r, columns, row) ∈ scannedRows buffer contended → Shows render s columns row → r ∈ found.rows
  first : found.capped = true → found.rows.length = matchLimit ∧ ∀ r columns row,
    (r, columns, row) ∈ scannedRows buffer contended → Shows render s columns row →
      r ∉ found.rows → ∀ r' ∈ found.rows, r' < r
  skipped : found.skippedBatches = unscanned buffer contended

section

variable {Field Row : Type} {tables : CaseTables} {render : Row → Nat → Rendered}

theorem formatCell_shown (text : Str) : formatCell 0 (.shown text) = .text text := by
  unfold formatCell finish
  exact if_pos (.inl rfl)

theorem rowMatches_of_shows {s : Str} (hsettled : Settled tables s) {columns : Nat} {row : Row}
    (h : Shows render s columns row) :
    rowMatches tables render (toLowercase tables s) columns row = true := by
  obtain ⟨column, hlt, text, hrender, hheld⟩ := h
  refine any_eq_true.mpr ⟨column, mem_range.mpr hlt, ?_⟩
  rw [hrender, formatCell_shown]
  exact decide_eq_true (toLowercase_holds hsettled hheld)

theorem mem_matching {α : Type} {isMatch : α → Bool} {scanned : List (Nat × α)} {r : Nat} {x : α}
    (hmem : (r, x) ∈ scanned) (hmatch : isMatch x = true) : r ∈ matching isMatch scanned :=
  mem_map.mpr ⟨(r, x), mem_filter.mpr ⟨hmem, hmatch⟩, rfl⟩

theorem matching_sublist {α : Type} (isMatch : α → Bool) (scanned : List (Nat × α)) :
    (matching isMatch scanned).Sublist (scanned.map Prod.fst) :=
  filter_sublist.map Prod.fst

variable [DecidableEq Field] {fields : List Field} {limits : BufferLimits}
  {tr : List (Op Field Row × Answer Field Row)} {buffer : ResultBuffer Field Row}

theorem finds_all {needle : Str} (hneedle : trim needle ≠ [])
    (hsettled : Settled tables (trim needle)) (hrun : BufferRun fields limits tr buffer)
    (hrows : buffer.index.rows < wordMax) (contended : Nat → Bool) :
    FindsAll render (trim needle) (limits.cut (accepted tr)) buffer contended
      (findRows tables render buffer contended needle) := by
  obtain ⟨batches, hstream⟩ := Streamed.run hrun
  have hrepresents := hstream.represents
  obtain ⟨hfound, hskipped⟩ :=
    @find_spec _ _ buffer contended tables render batches hrepresents needle hneedle
  have horder := (@scanned_increasing _ _ _ contended _ hrepresents hrows).sublist
    (matching_sublist
      (fun entry => rowMatches tables render (toLowercase tables (trim needle)) entry.1 entry.2)
      (scannedRows buffer contended))
  have hmatch : ∀ r columns row, (r, columns, row) ∈ scannedRows buffer contended →
      Shows render (trim needle) columns row →
        r ∈ matching (fun entry =>
          rowMatches tables render (toLowercase tables (trim needle)) entry.1 entry.2)
          (scannedRows buffer contended) := by
    intro r columns row hmem hshows
    exact mem_matching hmem (rowMatches_of_shows hsettled hshows)
  refine ⟨fun r columns row hmem => ?_, ?_, fun r hr => ?_, fun hopen r columns row hmem hshows => ?_,
    fun hcapped => ⟨?_, fun r columns row hmem hshows hnot r' hr' => ?_⟩, hskipped⟩
  · obtain ⟨position, -, hat⟩ := mem_scannedRows.mp hmem
    obtain ⟨batch, i, hbatch, hrow, -, rfl⟩ := scanned_spec hrepresents hrows hat
    rw [← hstream.contents]
    exact getElem?_rows hbatch hrow
  · rw [hfound.rows]
    exact horder.sublist (take_sublist _ _)
  · rw [hfound.rows] at hr
    obtain ⟨⟨r, entry⟩, hentry, rfl⟩ := mem_map.mp (mem_of_mem_take hr)
    exact ⟨entry, (mem_filter.mp hentry).1⟩
  · rw [hfound.all hopen]
    exact hmatch r columns row hmem hshows
  · refine Nat.le_antisymm ?_ (hfound.full hcapped)
    rw [hfound.rows]
    exact length_take_le _ _
  · -- a match that is not kept is behind all that are
    have hmem := hmatch r columns row hmem hshows
    rw [← take_append_drop matchLimit (matching _ _), ← hfound.rows] at hmem horder
    rcases mem_append.mp hmem with hin | hout
    · exact absurd hin hnot
    · exact (pairwise_append.mp horder).2.2 r' hr' r hout

end

/-! ### One row -/

/-- Limits under which a batch of no bytes stays in memory. -/
def roomy : BufferLimits := ⟨0, none, none, false, Nat.zero_le _, rows_unbounded⟩

/-- What a buffer has taken that was sent one row, of one cell. -/
def oneRow (text : Str) :
    List (Op Unit Str × Answer Unit Str) × ResultBuffer Unit Str :=
  (ResultBuffer.withLimits [()] roomy).applyAll [.push ⟨[()], [text], 0⟩ (.error .spill)]

def wholeText (text : Str) (_ : Nat) : Rendered := .shown text

theorem oneRow_run (text : Str) :
    BufferRun [()] roomy (oneRow text).1 (oneRow text).2 :=
  steps_applyAll (.withLimits [()] roomy) _

theorem oneRow_rows (text : Str) : (oneRow text).2.index.rows < wordMax := by
  have hrows : (oneRow text).2.index.rows = min (0 + 1) wordMax := rfl
  rw [hrows]
  decide

theorem oneRow_scanned (text : Str) :
    (0, 1, text) ∈ scannedRows (oneRow text).2 fun _ => false := by
  have hscanned : scannedRows (oneRow text).2 (fun _ => false) = [(0, 1, text)] := rfl
  rw [hscanned]
  exact mem_singleton.mpr rfl

theorem findRows_oneRow (tables : CaseTables) {needle : Str} (hneedle : trim needle ≠ [])
    (text : Str) :
    findRows tables wholeText (oneRow text).2 (fun _ => false) needle =
      if toLowercase tables (trim needle) <:+: toLowercase tables text then ⟨[0], 0, false⟩
      else ⟨[], 0, false⟩ := by
  have hscan : findRows tables wholeText (oneRow text).2 (fun _ => false) needle =
      scanRows (rowMatches tables wholeText (toLowercase tables (trim needle)) 1) 0 0 [text]
        ⟨[], 0, false⟩ := by
    unfold findRows
    rw [if_neg hneedle]
    rfl
  have hmatch : rowMatches tables wholeText (toLowercase tables (trim needle)) 1 text =
      decide (toLowercase tables (trim needle) <:+: toLowercase tables text) := by
    unfold rowMatches wholeText
    rw [formatCell_shown]
    exact Bool.or_false _
  rw [hscan, scanRows, scanRows, hmatch, if_neg (by decide)]
  by_cases h : toLowercase tables (trim needle) <:+: toLowercase tables text
  · rw [if_pos h, if_pos (decide_eq_true h)]
    rfl
  · rw [if_neg h, if_neg (by rw [decide_eq_false h]; nofun)]

/-- A search finds whatever is there to be found, in every buffer, exactly if no capital sigma of
its needle may be written in two ways. -/
theorem search_misses_no_row {tables : CaseTables} {needle : Str} (hneedle : trim needle ≠ []) :
    (∀ (Field Row : Type) [DecidableEq Field] (render : Row → Nat → Rendered)
      (fields : List Field) (limits : BufferLimits) (tr : List (Op Field Row × Answer Field Row))
      (buffer : ResultBuffer Field Row), BufferRun fields limits tr buffer →
        buffer.index.rows < wordMax → ∀ contended,
          FindsAll render (trim needle) (limits.cut (accepted tr)) buffer contended
            (findRows tables render buffer contended needle)) ↔
      Settled tables (trim needle) := by
  constructor
  · intro h
    by_contra hnot
    obtain ⟨text, hheld, hlower⟩ := exists_not_held hnot
    have hall := (h Unit Str wholeText [()] roomy _ _ (oneRow_run text) (oneRow_rows text)
      fun _ => false).all
    rw [findRows_oneRow tables hneedle, if_neg hlower] at hall
    exact nomatch hall rfl 0 1 text (oneRow_scanned text)
      ⟨0, Nat.zero_lt_one, text, rfl, hheld⟩
  · intro hsettled Field Row _ render fields limits tr buffer hrun hrows contended
    exact finds_all hneedle hsettled hrun hrows contended

/-- The letters of ASCII, and the first of the Greek ones. -/
def latin : CaseTables where
  lower c := if c = 'Α' then ['α'] else [c.toLower]
  ignorable c := c = '.' || c = ':'
  cased c := c.isAlpha || c = 'Α' || c = 'α' || c = 'Σ' || c = 'σ' || c = 'ς'
  ordinary := by decide

/-- A letter is found whatever is around it. -/
theorem letter_is_found :
    FindsAll wholeText ['A'] ["bad".toList] (oneRow "bad".toList).2 (fun _ => false)
      (findRows latin wholeText (oneRow "bad".toList).2 (fun _ => false) ['A']) := by
  have hneedle : trim ['A'] = ['A'] := by decide
  have hsettled : Settled latin (trim ['A']) := by
    rw [hneedle]
    intro u v heq
    cases u with
    | nil => exact absurd (List.cons.inj heq).1 (by decide)
    | cons c u =>
      have hnil := (List.cons.inj heq).2
      cases u with
      | nil => cases hnil
      | cons d u => cases hnil
  have hall := (search_misses_no_row (by rw [hneedle]; nofun)).mpr hsettled Unit Str wholeText [()]
    roomy _ _ (oneRow_run "bad".toList) (oneRow_rows _) fun _ => false
  rw [hneedle] at hall
  exact hall

/-- A word that ends with a sigma is not found in a longer one that begins with it. -/
theorem final_sigma_is_missed :
    ['Α', 'Σ'] <:+: ['Α', 'Σ', 'Α'] ∧
      (findRows latin wholeText (oneRow ['Α', 'Σ', 'Α']).2 (fun _ => false) ['Α', 'Σ']) =
        ⟨[], 0, false⟩ ∧
      ¬ FindsAll wholeText ['Α', 'Σ'] [['Α', 'Σ', 'Α']] (oneRow ['Α', 'Σ', 'Α']).2 (fun _ => false)
        (findRows latin wholeText (oneRow ['Α', 'Σ', 'Α']).2 (fun _ => false) ['Α', 'Σ']) := by
  have hheld : ['Α', 'Σ'] <:+: ['Α', 'Σ', 'Α'] := ⟨[], ['Α'], rfl⟩
  have hneedle : trim ['Α', 'Σ'] = ['Α', 'Σ'] := by decide
  have hnone : findRows latin wholeText (oneRow ['Α', 'Σ', 'Α']).2 (fun _ => false) ['Α', 'Σ'] =
      ⟨[], 0, false⟩ := by
    rw [findRows_oneRow latin (by rw [hneedle]; nofun), hneedle, if_neg (by decide)]
  refine ⟨hheld, hnone, fun h => ?_⟩
  have hall := h.all
  rw [hnone] at hall
  exact nomatch hall rfl 0 1 _ (oneRow_scanned _) ⟨0, Nat.zero_lt_one, _, rfl, hheld⟩

end Oxyn.Data
