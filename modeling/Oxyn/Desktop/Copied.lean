/-
# `Oxyn.Desktop.Copied` — the rows of a copy, in order

A copy that is composed holds the rows of its range, each as `writeRow` writes it, whatever the
batches they come in (`compose_eq_ok`).
-/
import Oxyn.Desktop.Copy
import Oxyn.Lib.Fallible

namespace Oxyn.Desktop.Copy

open Text Decimal Data List

/-! ## The rows of a copy -/

section

variable {F : Type} {offset : Nat}

def linesFrom (offset : Nat) : Nat → List (Row F) → List (Line F)
  | _, [] => []
  | row, values :: rest => ⟨values, row - offset, row⟩ :: linesFrom offset (row + 1) rest

theorem linesFrom_append (row : Nat) (rows more : List (Row F)) :
    linesFrom offset row (rows ++ more) =
      linesFrom offset row rows ++ linesFrom offset (row + rows.length) more := by
  induction rows generalizing row with
  | nil => rfl
  | cons values rows ih =>
    rw [cons_append, linesFrom, linesFrom, ih, cons_append, length_cons,
      Nat.add_assoc, Nat.add_comm 1]

def Written (write : Line F → Except CopyError Str) (lines : List (Line F)) (texts : List Str) :
    Prop :=
  List.Forall₂ (fun line text => write line = .ok text) lines texts

variable {write : Line F → Except CopyError Str}

variable {out out' : Str}

theorem writeRows_eq_ok {rows : List (Row F)} {row : Nat}
    (h : writeRows write offset rows row out = .ok out') :
    ∃ texts, Written write (linesFrom offset row rows) texts ∧ out' = out ++ texts.flatten := by
  induction rows generalizing row out with
  | nil =>
    cases h
    exact ⟨[], .nil, (append_nil _).symm⟩
  | cons values rows ih =>
    obtain ⟨text, hwrite, h⟩ := Fallible.bind_eq_ok.mp h
    split at h
    · cases h
    · obtain ⟨texts, hwritten, rfl⟩ := ih h
      refine ⟨text :: texts, .cons hwrite hwritten, ?_⟩
      rw [append_assoc, flatten_cons]

variable {buffer buffer' : ResultBuffer Field (Row F)}
  {batches : List (RecordBatch Field (Row F))} {disk : Disk}

theorem fetch_eq_ok (h : buffer.Represents batches) {turn position : Nat}
    {batch : RecordBatch Field (Row F)} {answered : ResultBuffer Field (Row F)}
    (hfetch : fetch buffer disk turn position = (.ok batch, answered)) :
    batches[position]? = some batch ∧ answered.Represents batches ∧
      answered.index = buffer.index := by
  have hcached := h.cachedBatch position (disk.contended turn)
  unfold fetch at hfetch
  split at hfetch
  next heq =>
    cases hfetch
    rw [heq] at hcached
    obtain ⟨cache, hcache⟩ := hcached.cacheOnly
    exact ⟨hcached.batch _ rfl, hcached.represents, congrArg (·.index) hcache⟩
  next between heq =>
    rw [heq] at hcached
    obtain ⟨cache, hcache⟩ := hcached.cacheOnly
    have hread := hcached.represents.batchCancellable position
      ⟨false, disk.fails turn, false, false⟩
    split at hfetch
    · cases hfetch
    · cases hfetch
    next heq =>
      cases hfetch
      rw [heq] at hread
      obtain ⟨cache', hcache'⟩ := hread.cacheOnly
      exact ⟨hread.batch _ rfl, hread.represents,
        (congrArg (·.index) hcache').trans (congrArg (·.index) hcache)⟩

theorem start_eq (h : buffer.Represents batches) {position start row : Nat}
    (hrow : row < buffer.index.rows) (hstart : buffer.index.starts[position]? = some start)
    (hle : start ≤ row) : start = ((batches.map (·.numRows)).take position).sum := by
  have hposition : position < (batches.map (·.numRows)).length := by
    have := (List.getElem?_eq_some_iff.mp hstart).1
    rwa [h.starts, Offsets.length_starts] at this
  rw [h.starts, Offsets.getElem?_starts hposition] at hstart
  have hrows := h.rows
  have := Option.some.inj hstart
  omega

theorem drop_rows {position start row : Nat} {batch : RecordBatch Field (Row F)}
    (hbatch : batches[position]? = some batch)
    (hstart : start = ((batches.map (·.numRows)).take position).sum) (hle : start ≤ row)
    (hlt : row - start < batch.numRows) :
    ∃ rest, (batches.flatMap (·.rows)).drop row = batch.rows.drop (row - start) ++ rest := by
  refine ⟨(batches.drop (position + 1)).flatMap (·.rows), ?_⟩
  have hsplit : batches = batches.take position ++ batch :: batches.drop (position + 1) := by
    obtain ⟨hposition, rfl⟩ := List.getElem?_eq_some_iff.mp hbatch
    rw [← drop_eq_getElem_cons, take_append_drop]
  have hlength : ((batches.take position).flatMap (·.rows)).length = start := by
    rw [length_flatMap, hstart, ← map_take]
    rfl
  conv_lhs => rw [hsplit]
  rw [flatMap_append, flatMap_cons, drop_append, hlength,
    drop_eq_nil_of_le (by omega), nil_append, drop_append_of_le_length]
  exact Nat.le_of_lt hlt

structure Goes (write : Line F → Except CopyError Str) (offset : Nat) (rows : List (Row F))
    (stop row : Nat) (out : Str) (row' : Nat) (out' : Str) : Prop where
  le : row ≤ row'
  le_stop : row' ≤ stop
  written : ∃ texts,
    Written write (linesFrom offset row ((rows.drop row).take (row' - row))) texts ∧
      out' = out ++ texts.flatten

theorem goes_nowhere (rows : List (Row F)) {stop row : Nat} (hrow : row ≤ stop) (out : Str) :
    Goes write offset rows stop row out row out where
  le := Nat.le_refl _
  le_stop := hrow
  written := by
    refine ⟨[], ?_, (append_nil out).symm⟩
    rw [Nat.sub_self, take_zero]
    exact .nil

theorem Goes.after {rows front rest : List (Row F)} {stop row row' : Nat}
    {texts : List Str} (hdrop : rows.drop row = front ++ rest) {take : Nat}
    (htake : take ≤ front.length)
    (hwritten : Written write (linesFrom offset row (front.take take)) texts)
    (h : Goes write offset rows stop (row + take) (out ++ texts.flatten) row' out') :
    Goes write offset rows stop row out row' out' := by
  obtain ⟨hle, hstop, texts', hwritten', rfl⟩ := h
  refine ⟨by omega, hstop, texts ++ texts', ?_, ?_⟩
  · have hrows : (rows.drop row).take (row' - row) =
        front.take take ++ (rows.drop (row + take)).take (row' - (row + take)) := by
      rw [show row' - row = take + (row' - (row + take)) by omega, take_add, drop_drop,
        hdrop, take_append_of_le_length htake]
    rw [hrows, linesFrom_append, length_take_of_le htake]
    exact rel_append hwritten hwritten'
  · rw [flatten_append, append_assoc]

theorem copyBatches_eq_ok {stop : Nat} (hstop : stop ≤ buffer.index.rows)
    (h : buffer.Represents batches) {fuel row row' : Nat} (hrow : row ≤ stop)
    (hcopy : copyBatches write disk offset stop fuel row out buffer = (.ok (row', out'), buffer')) :
    Goes write offset (batches.flatMap (·.rows)) stop row out row' out' := by
  induction fuel generalizing row out buffer with
  | zero =>
    cases hcopy
    exact goes_nowhere _ hrow _
  | succ fuel ih =>
    rw [copyBatches] at hcopy
    split at hcopy
    next hlt =>
      have hin := Nat.lt_of_lt_of_le hlt hstop
      obtain ⟨position, start, batch, hlocate, hstart, hle, hbatch, hlast⟩ := h.locate_of_lt hin
      rw [hlocate] at hcopy
      dsimp only at hcopy
      split at hcopy
      · cases hcopy
      next fetched answered hfetch =>
        obtain ⟨hfetched, hanswered, hindex⟩ := fetch_eq_ok h hfetch
        obtain rfl := Option.some.inj (hbatch.symm.trans hfetched)
        split at hcopy
        · cases hcopy
          exact goes_nowhere _ hrow _
        · split at hcopy
          · cases hcopy
          next more hwrite =>
            obtain ⟨texts, hwritten, rfl⟩ := writeRows_eq_ok hwrite
            obtain ⟨rest, hdrop⟩ := drop_rows hbatch (start_eq h hin hstart hle) hle hlast
            have htake : min (batch.numRows - (row - start)) (stop - row) ≤
                (batch.rows.drop (row - start)).length := by
              rw [length_drop]
              exact Nat.min_le_left _ _
            exact (ih (hindex.symm ▸ hstop) hanswered (by omega) hcopy).after hdrop htake hwritten
    next =>
      cases hcopy
      exact goes_nowhere _ hrow _

def ranged {α : Type} (rows : List α) (spec : CopySpec) : List α :=
  (rows.drop spec.offset).take spec.count

theorem columns_of_prepared {fields : List Field} {spec : CopySpec} {sql target : Option SqlTarget}
    {cols : List Column} {insert : Str}
    (h : prepared fields spec sql = .ok (cols, target, insert)) :
    columns fields spec.columns = .ok cols := by
  obtain ⟨cols', hcolumns, h⟩ := Fallible.bind_eq_ok.mp h
  obtain ⟨target', -, h⟩ := Fallible.bind_eq_ok.mp h
  obtain ⟨insert', -, h⟩ := Fallible.bind_eq_ok.mp h
  cases h
  exact hcolumns

/-- A copy that is composed is what its columns and the rows of its range are written as. -/
theorem compose_eq_ok {floats : Floats F} {spec : CopySpec} {sql : Option SqlTarget}
    {options : FormatOptions} {text : Str} (h : buffer.Represents batches)
    (hcompose : (compose floats buffer disk spec sql options).1 = .ok text) :
    ∃ cols target insert texts, columns buffer.fields spec.columns = .ok cols ∧
      Written (fun line => writeRow floats spec cols target insert line options)
        (linesFrom spec.offset spec.offset (ranged (batches.flatMap (·.rows)) spec)) texts ∧
      (ranged (batches.flatMap (·.rows)) spec).length = spec.count ∧ spec.count ≠ 0 ∧
      text = start spec cols ++ texts.flatten ++ finishText spec.format := by
  unfold compose at hcompose
  split at hcompose
  · cases hcompose
  next hcount =>
    split at hcompose
    · cases hcompose
    · split at hcompose
      · cases hcompose
      next hrows =>
        dsimp only at hcompose
        split at hcompose
        · cases hcompose
        next cols target insert hchecked =>
          split at hcompose
          · cases hcompose
          next row out answered hcopy =>
            split at hcompose
            · cases hcompose
            next hend =>
              have hcolumns := columns_of_prepared hchecked
              have hstop := Nat.not_lt.mp hrows
              obtain ⟨hle, hge, texts, hwritten, rfl⟩ :=
                copyBatches_eq_ok hstop h (Nat.le_add_right _ _) hcopy
              obtain rfl : row = spec.offset + spec.count := by omega
              rw [Nat.add_sub_cancel_left] at hwritten
              cases hcompose
              refine ⟨cols, target, insert, texts, hcolumns, hwritten, ?_, hcount, rfl⟩
              have htotal := h.rows
              rw [ranged, length_take, length_drop, length_flatMap]
              change min _ ((batches.map (·.numRows)).sum - _) = _
              omega

end

/-! ## The columns of a copy -/

structure Asks (fields : List Field) (asked : List Nat) (cols : List Column) : Prop where
  indexes : cols.map (·.index) = asked
  named : ∀ column ∈ cols, fields[column.index]? = some ⟨column.name, column.dataType⟩ ∧
    column.kind = .of column.dataType
  ne_nil : cols ≠ []

theorem columnsFrom_eq_ok {fields : List Field} {seen asked : List Nat} {cols : List Column}
    (h : columnsFrom fields seen asked = .ok cols) :
    cols.map (·.index) = asked ∧ ∀ column ∈ cols,
      fields[column.index]? = some ⟨column.name, column.dataType⟩ ∧
        column.kind = .of column.dataType := by
  induction asked generalizing seen cols with
  | nil =>
    cases h
    exact ⟨rfl, nofun⟩
  | cons index asked ih =>
    rw [columnsFrom] at h
    split at h
    · cases h
    next field hfield =>
      split at h
      · cases h
      · cases hrest : columnsFrom fields (index :: seen) asked with
        | error error =>
          rw [hrest] at h
          cases h
        | ok rest =>
          rw [hrest] at h
          cases h
          obtain ⟨hindexes, hnamed⟩ := ih hrest
          refine ⟨by rw [map_cons, hindexes], ?_⟩
          rintro column (_ | ⟨_, hcolumn⟩)
          · exact ⟨hfield, rfl⟩
          · exact hnamed column hcolumn

theorem columns_eq_ok {fields : List Field} {asked : List Nat} {cols : List Column}
    (h : columns fields asked = .ok cols) : Asks fields asked cols := by
  unfold columns at h
  split at h
  · cases h
  next hasked =>
    obtain ⟨hindexes, hnamed⟩ := columnsFrom_eq_ok h
    refine ⟨hindexes, hnamed, ?_⟩
    rintro rfl
    exact hasked hindexes.symm

/-! ## The cells of a row -/

def shownAs : Option Str → CellValue
  | none => .null
  | some text => .text text

def RowShows {F : Type} (floats : Floats F) (options : FormatOptions) (cols : List Column)
    (row : Row F) (cells : List (Option Str)) : Prop :=
  List.Forall₂ (fun column cell => formatAt floats options row column.index = shownAs cell)
    cols cells

section

variable {F : Type} {floats : Floats F} {options : FormatOptions} {spec : CopySpec}
  {line : Line F} {column : Column}

theorem shown_eq_ok {cell : Option Str} (h : shown floats line column options = .ok cell) :
    formatAt floats options line.values column.index = shownAs cell := by
  unfold shown at h
  split at h <;> cases h <;> assumption

def led (first next : Str) (line : Line F) : Str := if line.ordinal = 0 then first else next

variable {write : Line F → Except CopyError Str} {offset : Nat} {β : Type}
  {Q : Row F → β × Str → Prop} {first next : Str}

theorem written_next (hwrite : ∀ line text, write line = .ok text →
      ∃ b record, Q line.values (b, record) ∧ text = led first next line ++ record)
    {row : Nat} (hrow : offset < row) {rows : List (Row F)} {texts : List Str}
    (h : Written write (linesFrom offset row rows) texts) :
    ∃ entries, List.Forall₂ Q rows entries ∧
      texts.flatten = (entries.map Prod.snd).flatMap (next ++ ·) := by
  induction rows generalizing row texts with
  | nil =>
    cases h
    exact ⟨[], .nil, rfl⟩
  | cons values rows ih =>
    cases h with
    | cons hline hrest =>
      obtain ⟨b, record, hq, rfl⟩ := hwrite _ _ hline
      obtain ⟨entries, hentries, hflatten⟩ := ih (Nat.lt_succ_of_lt hrow) hrest
      refine ⟨(b, record) :: entries, .cons hq hentries, ?_⟩
      have hled : led first next (⟨values, row - offset, row⟩ : Line F) = next :=
        if_neg (Nat.sub_ne_zero_of_lt hrow)
      rw [flatten_cons, hflatten, hled, map_cons, flatMap_cons]

/-- Lines that are written one by one are written as a whole: each row's record, and what is
put between records. -/
theorem written_records (hwrite : ∀ line text, write line = .ok text →
      ∃ b record, Q line.values (b, record) ∧ text = led first next line ++ record)
    {rows : List (Row F)} (hne : rows ≠ []) {texts : List Str}
    (h : Written write (linesFrom offset offset rows) texts) :
    ∃ entries, List.Forall₂ Q rows entries ∧
      texts.flatten = first ++ next.intercalate (entries.map Prod.snd) := by
  cases rows with
  | nil => exact absurd rfl hne
  | cons values rows =>
    cases h with
    | cons hline hrest =>
      obtain ⟨b, record, hq, rfl⟩ := hwrite _ _ hline
      obtain ⟨entries, hentries, hflatten⟩ :=
        written_next hwrite (Nat.lt_succ_self offset) hrest
      refine ⟨(b, record) :: entries, .cons hq hentries, ?_⟩
      have hled : led first next (⟨values, offset - offset, offset⟩ : Line F) = first :=
        if_pos (Nat.sub_self offset)
      rw [flatten_cons, hflatten, hled, map_cons, intercalate_cons, append_assoc]

end

end Oxyn.Desktop.Copy
