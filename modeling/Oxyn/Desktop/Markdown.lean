/-
# `Oxyn.Desktop.Markdown` — a copied table and its columns

A copy in Markdown has a line for the header, one for the separators and one a row, since no line
break of a cell is left in it.
-/
import Oxyn.Desktop.ReadBack
import Oxyn.Lib.Table

namespace Oxyn.Desktop.Copy

open Text Data Table List

/-- A cell's text, its line breaks replaced. -/
def replaceBreaks : Str → Str
  | [] => []
  | '\r' :: '\n' :: rest => "<br>".toList ++ replaceBreaks rest
  | c :: rest => (if c = '\r' ∨ c = '\n' then "<br>".toList else [c]) ++ replaceBreaks rest

theorem pushMarkdown_eq (t : Str) : pushMarkdown t = escapePipes (replaceBreaks t) := by
  fun_induction pushMarkdown t with
  | case1 => rfl
  | case2 rest ih =>
    rw [ih, replaceBreaks, escapePipes_append]
    rfl
  | case3 c rest hnot ih =>
    have hreplace : replaceBreaks (c :: rest) =
        (if c = '\r' ∨ c = '\n' then "<br>".toList else [c]) ++ replaceBreaks rest := by
      rw [replaceBreaks]
      exact hnot
    rw [ih, hreplace, escapePipes_append]
    congr 1
    by_cases hpipe : c = '|'
    · subst hpipe
      rfl
    · by_cases hbreak : c = '\r' ∨ c = '\n'
      · rw [if_neg hpipe, if_pos hbreak]
        rfl
      · rw [if_neg hpipe, if_neg hbreak, escapePipes, flatMap_cons, if_neg hpipe]
        rfl

theorem not_mem_replaceBreaks (t : Str) : '\n' ∉ replaceBreaks t ∧ '\r' ∉ replaceBreaks t := by
  fun_induction replaceBreaks t with
  | case1 => exact ⟨not_mem_nil, not_mem_nil⟩
  | case2 rest ih =>
    simp only [mem_append, not_or]
    exact ⟨⟨by decide, ih.1⟩, by decide, ih.2⟩
  | case3 c rest hnot ih =>
    simp only [mem_append, not_or]
    refine ⟨⟨?_, ih.1⟩, ?_, ih.2⟩
    · split_ifs with hbreak
      · decide
      · exact fun hmem => hbreak (Or.inr (mem_singleton.mp hmem).symm)
    · split_ifs with hbreak
      · decide
      · exact fun hmem => hbreak (Or.inl (mem_singleton.mp hmem).symm)

theorem not_mem_row {c : Char} (hc : c ≠ '|' ∧ c ≠ '\\' ∧ c ≠ ' ') {texts : List Str}
    (h : ∀ t ∈ texts, c ∉ t) : c ∉ row texts := by
  rintro (_ | ⟨_, hmem⟩)
  · exact hc.1 rfl
  · obtain ⟨t, ht, hmem⟩ := mem_flatMap.mp hmem
    simp only [pad, mem_append, mem_cons, not_mem_nil, or_false, cons_append]
      at hmem
    rcases hmem with hmem | (hmem | hmem) | hmem
    · exact hc.2.2 hmem
    · obtain ⟨d, hd, hmem⟩ := mem_flatMap.mp hmem
      split_ifs at hmem with hpipe
      · rcases mem_pair.mp hmem with rfl | rfl
        · exact hc.2.1 rfl
        · exact h t ht hd
      · obtain rfl := mem_singleton.mp hmem
        exact h t ht hd
    · exact hc.2.2 hmem
    · exact hc.1 hmem

/-! ## The lines of a table -/

section

variable {F : Type} {floats : Floats F} {options : FormatOptions} {spec : CopySpec}
  {line : Line F} {column : Column} {cols : List Column} {sql : Option SqlTarget} {insert : Str}

/-- The texts of a row's cells: what is shown, or the word for an absent value, with line breaks
replaced. -/
def tableCells (options : FormatOptions) (cells : List (Option Str)) : List Str :=
  cells.map fun cell => replaceBreaks (cell.getD options.nullText)

theorem markdownCell_eq_ok {text : Str} (h : markdownCell floats line options column = .ok text) :
    ∃ cell, formatAt floats options line.values column.index = shownAs cell ∧
      text = pad (escapePipes (replaceBreaks (cell.getD options.nullText))) ++ ['|'] := by
  obtain ⟨cell, hshown, h⟩ := Fallible.bind_eq_ok.mp h
  refine ⟨cell, shown_eq_ok hshown, ?_⟩
  rw [← pushMarkdown_eq]
  cases cell with
  | none | some text =>
    obtain rfl := Except.ok.inj h
    simp [pad]

theorem cells_of_line {texts : List Str}
    (h : cols.mapM (markdownCell floats line options) = .ok texts) :
    ∃ cells, RowShows floats options cols line.values cells ∧
      '|' :: texts.flatten = row (tableCells options cells) := by
  have hall := Fallible.forall₂_of_mapM h
  clear h
  induction hall with
  | nil => exact ⟨[], .nil, rfl⟩
  | cons hcell _ ih =>
    obtain ⟨cell, hshows, rfl⟩ := markdownCell_eq_ok hcell
    obtain ⟨cells, hcells, htexts⟩ := ih
    refine ⟨cell :: cells, .cons hshows hcells, ?_⟩
    rw [flatten_cons, (List.cons.inj htexts).2]
    rfl

def Tabulates (floats : Floats F) (options : FormatOptions) (cols : List Column) (values : Row F)
    (entry : List (Option Str) × Str) : Prop :=
  RowShows floats options cols values entry.1 ∧ entry.2 = row (tableCells options entry.1)

theorem markdown_line (hformat : spec.format = .markdown) {text : Str}
    (h : writeRow floats spec cols sql insert line options = .ok text) :
    ∃ cells record, Tabulates floats options cols line.values (cells, record) ∧
      text = led ['\n'] ['\n'] line ++ record := by
  simp only [writeRow, hformat] at h
  obtain ⟨texts, htexts, h⟩ := Fallible.bind_eq_ok.mp h
  obtain ⟨cells, hshows, hrow⟩ := cells_of_line htexts
  refine ⟨cells, '|' :: texts.flatten, ⟨hshows, hrow⟩, ?_⟩
  obtain rfl := Except.ok.inj h
  rw [led, ite_self]
  rfl

theorem start_markdown (hformat : spec.format = .markdown) :
    start spec cols = row (cols.map fun column => replaceBreaks column.name) ++
      '\n' :: row (cols.map fun _ => "---".toList) := by
  have hheader : ∀ cols : List Column,
      cols.flatMap (fun column => ' ' :: pushMarkdown column.name ++ " |".toList) =
        (cols.map fun column => replaceBreaks column.name).flatMap fun t =>
          pad (escapePipes t) ++ ['|'] := by
    intro cols
    rw [flatMap_map]
    congr 1
    funext column
    rw [pushMarkdown_eq]
    simp [pad]
  have hdashes : cols.flatMap (fun _ => " --- |".toList) =
      (cols.map fun _ => "---".toList).flatMap fun t => pad (escapePipes t) ++ ['|'] := by
    rw [flatMap_map]
    rfl
  simp only [start, hformat]
  rw [hheader, hdashes]
  simp [row]

def tableLines (options : FormatOptions) (cols : List Column) (grid : List (List (Option Str))) :
    List (List Str) :=
  (cols.map fun column => replaceBreaks column.name) :: (cols.map fun _ => "---".toList) ::
    grid.map (tableCells options)

theorem not_mem_tableLines {grid : List (List (Option Str))} {cells : List Str}
    (hcells : cells ∈ tableLines options cols grid) {t : Str} (ht : t ∈ cells) :
    '\n' ∉ t ∧ '\r' ∉ t := by
  simp only [tableLines, mem_cons, mem_map] at hcells
  rcases hcells with rfl | rfl | ⟨cells, -, rfl⟩
  · obtain ⟨column, -, rfl⟩ := mem_map.mp ht
    exact not_mem_replaceBreaks _
  · obtain ⟨column, -, rfl⟩ := mem_map.mp ht
    decide
  · obtain ⟨cell, -, rfl⟩ := mem_map.mp ht
    exact not_mem_replaceBreaks _

theorem clear_tableLines {esc : Escapes} {grid : List (List (Option Str))} :
    (∀ texts ∈ tableLines options cols grid, ∀ t ∈ texts, Table.Clear esc t) ↔
      (∀ column ∈ cols, Table.Clear esc (replaceBreaks column.name)) ∧
        ∀ cells ∈ grid, ∀ cell ∈ cells,
          Table.Clear esc (replaceBreaks (cell.getD options.nullText)) := by
  have hdashes : Table.Clear esc "---".toList := by
    intro u c v h
    have hmem : '\\' ∈ "---".toList := by
      rw [h]
      exact mem_append_right _ mem_cons_self
    exact absurd hmem (by decide)
  simp only [tableLines, tableCells, forall_mem_cons, forall_mem_map]
  exact ⟨fun h => ⟨h.1, h.2.2⟩, fun h => ⟨h.1, fun _ _ => hdashes, h.2⟩⟩

theorem splitOn_markdown (hformat : spec.format = .markdown) {rows : List (Row F)}
    (hrows : rows ≠ []) {texts : List Str}
    (h : Written (fun line => writeRow floats spec cols sql insert line options)
      (linesFrom spec.offset spec.offset rows) texts) :
    ∃ grid, List.Forall₂ (RowShows floats options cols) rows grid ∧
      (start spec cols ++ texts.flatten ++ finishText spec.format).splitOn '\n' =
        (tableLines options cols grid).map row := by
  obtain ⟨entries, hentries, hflatten⟩ :=
    written_records (fun line text => markdown_line hformat) hrows h
  have hgrid : List.Forall₂ (RowShows floats options cols) rows (entries.map Prod.fst) := by
    rw [forall₂_map_right_iff]
    exact hentries.imp fun _ _ h => h.1
  have hrecords : entries.map Prod.snd =
      (entries.map Prod.fst).map fun cells => row (tableCells options cells) := by
    rw [map_map]
    exact map_congr_left (forall_right (fun _ _ h => h.2) hentries)
  have hne : entries.map Prod.snd ≠ [] := by
    intro hnil
    obtain rfl := map_eq_nil_iff.mp hnil
    exact hrows (forall₂_nil_right_iff.mp hentries)
  refine ⟨entries.map Prod.fst, hgrid, ?_⟩
  have hwhole : start spec cols ++ texts.flatten ++ finishText spec.format =
      ['\n'].intercalate ((tableLines options cols (entries.map Prod.fst)).map row) := by
    rw [start_markdown hformat, hflatten, hrecords, tableLines, map_cons, map_cons,
      map_map (f := tableCells options), intercalate_cons_cons,
      intercalate_cons_of_ne_nil]
    · simp [finishText, hformat, Function.comp_def]
    · rw [hrecords] at hne
      exact hne
  rw [hwhole, splitOn_intercalate]
  · intro l hl
    obtain ⟨cells, hcells, rfl⟩ := mem_map.mp hl
    exact not_mem_row (by decide) fun t ht => (not_mem_tableLines hcells ht).1
  · exact cons_ne_nil _ _

end

/-! ## The columns of a table -/

section

variable {F : Type} {floats : Floats F} {options : FormatOptions} {spec : CopySpec}
  {sql : Option SqlTarget} {disk : Disk} {fields : List Field} {limits : BufferLimits}
  {tr : List (Data.Op Field (Row F) × Data.Answer Field (Row F))}
  {buffer : ResultBuffer Field (Row F)}

/-- A copied table has a line a row under its header and separators, whatever is in it; and the
lines are read as the cells exactly where no text of the header or of a cell holds a backslash
before a character that may be escaped. -/
theorem table_keeps_columns_iff (esc : Escapes) (hrun : BufferRun fields limits tr buffer)
    (hformat : spec.format = .markdown) {text : Str}
    (hcompose : (compose floats buffer disk spec sql options.forCopy).1 = .ok text) :
    ∃ cols grid, Asks fields spec.columns cols ∧
      List.Forall₂ (RowShows floats options.forCopy cols)
        (ranged (limits.cut (accepted tr)) spec) grid ∧
      (text.splitOn '\n').length = spec.count + 2 ∧ (∀ l ∈ text.splitOn '\n', '\r' ∉ l) ∧
      ((text.splitOn '\n').map (readRow esc) = (tableLines options cols grid).map some ↔
        (∀ column ∈ cols, Table.Clear esc (replaceBreaks column.name)) ∧
          ∀ cells ∈ grid, ∀ cell ∈ cells,
            Table.Clear esc (replaceBreaks (cell.getD options.nullText))) := by
  obtain ⟨batches, hstream⟩ := Streamed.run hrun
  obtain ⟨cols, target, insert, texts, hcolumns, hwritten, hlength, hcount, rfl⟩ :=
    compose_eq_ok hstream.represents hcompose
  have hcols := columns_eq_ok hcolumns
  rw [hstream.fields_eq] at hcols
  rw [hstream.contents] at hwritten hlength
  have hrows : ranged (limits.cut (accepted tr)) spec ≠ [] := by
    intro hnil
    rw [hnil] at hlength
    exact hcount hlength.symm
  obtain ⟨grid, hgrid, hsplit⟩ := splitOn_markdown hformat hrows hwritten
  refine ⟨cols, grid, hcols, hgrid, ?_, ?_, ?_⟩
  · rw [hsplit, length_map, tableLines, length_cons, length_cons, length_map,
      ← hgrid.length_eq, hlength]
  · intro l hl
    rw [hsplit] at hl
    obtain ⟨cells, hcells, rfl⟩ := mem_map.mp hl
    exact not_mem_row (by decide) fun t ht => (not_mem_tableLines hcells ht).2
  · change _ = (tableLines options.forCopy cols grid).map some ↔ _
    rw [hsplit, map_map, map_inj_left]
    exact (forall₂_congr fun texts _ => readRow_row texts).trans clear_tableLines

end

/-- A copy that asks for all of the rows of one column, in one batch. -/
def oneColumn (text : Str) : List (Data.Op Field (Row Unit) × Data.Answer Field (Row Unit)) ×
    ResultBuffer Field (Row Unit) :=
  (ResultBuffer.withLimits [⟨['n'], .utf8⟩] pricedLimits).applyAll
    [.push ⟨[⟨['n'], .utf8⟩], [[.string text]], 40⟩ (.error .spill)]

theorem grid_of_pipe {column : Column} (hindex : column.index = 0)
    {grid : List (List (Option Str))}
    (h : List.Forall₂ (RowShows oneFloat (FormatOptions.forCopy ⟨0, [], .none⟩) [column])
      [[.string ['|']]] grid) : grid = [[some ['|']]] := by
  obtain ⟨cells, _, hcells, ⟨⟩, rfl⟩ := forall₂_cons_left_iff.mp h
  obtain ⟨cell, _, hcell, ⟨⟩, rfl⟩ := forall₂_cons_left_iff.mp hcells
  rw [hindex] at hcell
  cases cell with
  | none => cases hcell
  | some text =>
    cases hcell
    rfl

/-- A pipe alone keeps its column: the table is read as it was. -/
theorem pipe_keeps_its_column :
    (compose oneFloat (oneColumn ['|']).2 ⟨fun _ => false, fun _ => none⟩
        ⟨0, 1, [0], .markdown, true⟩ none (FormatOptions.forCopy ⟨0, [], .none⟩)).1 =
      .ok "| n |\n| --- |\n| \\| |".toList ∧
    ("| n |\n| --- |\n| \\| |".toList.splitOn '\n').map (readRow punctuation) =
      [some [['n']], some ["---".toList], some [['|']]] := by
  have hcompose : (compose oneFloat (oneColumn ['|']).2 ⟨fun _ => false, fun _ => none⟩
      ⟨0, 1, [0], .markdown, true⟩ none (FormatOptions.forCopy ⟨0, [], .none⟩)).1 =
        .ok "| n |\n| --- |\n| \\| |".toList := by rfl
  obtain ⟨cols, grid, hcols, hgrid, -, -, hiff⟩ := table_keeps_columns_iff punctuation
    (steps_applyAll (.withLimits [⟨['n'], .utf8⟩] pricedLimits) _) rfl hcompose
  obtain ⟨column, rfl, hindex⟩ := map_eq_singleton_iff.mp hcols.indexes
  obtain ⟨hfield, -⟩ := hcols.named column mem_cons_self
  rw [hindex] at hfield
  have hname : ['n'] = column.name := congrArg Field.name (Option.some.inj hfield)
  obtain rfl := grid_of_pipe hindex hgrid
  refine ⟨hcompose, (hiff.mpr ⟨fun other hother => ?_, fun cells hcells cell hcell => ?_⟩).trans ?_⟩
  · obtain rfl := mem_singleton.mp hother
    rw [← hname]
    exact .of_not_mem (by decide)
  · obtain rfl := mem_singleton.mp hcells
    obtain rfl := mem_singleton.mp hcell
    exact .of_not_mem (by decide)
  · rw [tableLines, map_singleton, ← hname]
    rfl

/-- A backslash before a pipe loses it: the cell is read as a backslash, and the pipe that was
escaped separates. -/
theorem backslash_splits_a_cell :
    ∃ text, (compose oneFloat (oneColumn ['\\', '|']).2 ⟨fun _ => false, fun _ => none⟩
        ⟨0, 1, [0], .markdown, true⟩ none (FormatOptions.forCopy ⟨0, [], .none⟩)).1 = .ok text ∧
      (text.splitOn '\n')[2]? = some "| \\\\| |".toList ∧
      cells (marks punctuation "| \\\\| |".toList) = [[], [' ', '\\'], [' '], []] ∧
      (text.splitOn '\n').map (readRow punctuation) ≠
        [some [['n']], some ["---".toList], some [['\\', '|']]] := by
  refine ⟨"| n |\n| --- |\n| \\\\| |".toList, by rfl, by decide, by decide, by decide⟩

end Oxyn.Desktop.Copy
