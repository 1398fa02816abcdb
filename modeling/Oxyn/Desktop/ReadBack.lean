/-
# `Oxyn.Desktop.ReadBack` — a copied grid is read back as the grid

A reader of delimited text reads the header and the cells of the rows copied; a
reader of JSON reads one object a row.  The batches are typed, as Arrow's are: a
value has the type of its column.
-/
import Oxyn.Desktop.Copied
import Oxyn.Lib.Delimited
import Oxyn.Lib.JsonText

namespace Oxyn.Desktop.Copy

open Text Decimal Data List

/-! ## Delimited text -/

section

open Delimited

variable {F : Type} {floats : Floats F} {options : FormatOptions} {spec : CopySpec}
  {line : Line F} {column : Column}

theorem writes_pushDelimited (separator : Char) (text : Str) :
    Writes separator text (pushDelimited text separator) := by
  unfold pushDelimited
  split_ifs with h
  · exact .quoted
  · refine .plain fun c hc hmark => h ?_
    rw [any_eq_true]
    exact ⟨c, hc, decide_eq_true hmark⟩

theorem delimitedField_eq_ok {field : Str}
    (h : delimitedField floats spec line options column = .ok field) :
    ∃ cell, formatAt floats options line.values column.index = shownAs cell ∧
      Writes (delimiter spec.format) (cell.getD []) field := by
  obtain ⟨cell, hshown, h⟩ := Fallible.bind_eq_ok.mp h
  refine ⟨cell, shown_eq_ok hshown, ?_⟩
  cases cell with
  | none =>
    cases h
    exact .plain nofun
  | some text =>
    cases h
    exact writes_pushDelimited _ text

theorem fields_of_line {cols : List Column} {fields : List Str}
    (h : cols.mapM (delimitedField floats spec line options) = .ok fields) :
    ∃ cells, RowShows floats options cols line.values cells ∧
      List.Forall₂ (Writes (delimiter spec.format)) (cells.map (·.getD [])) fields := by
  have hall := Fallible.forall₂_of_mapM h
  clear h
  induction hall with
  | nil => exact ⟨[], .nil, .nil⟩
  | cons hfield _ ih =>
    obtain ⟨cell, hshows, hwrites⟩ := delimitedField_eq_ok hfield
    obtain ⟨cells, hcells, hfields⟩ := ih
    exact ⟨cell :: cells, .cons hshows hcells, .cons hwrites hfields⟩

theorem delimiter_spec (format : CopyRowsFormat) :
    delimiter format ≠ '"' ∧ delimiter format ≠ '\n' := by
  unfold delimiter
  split <;> decide

def Delimits (floats : Floats F) (options : FormatOptions) (separator : Char) (cols : List Column)
    (row : Row F) (entry : List (Option Str) × Str) : Prop :=
  RowShows floats options cols row entry.1 ∧
    WritesRecord separator (entry.1.map (·.getD [])) entry.2

variable {cols : List Column} {sql : Option SqlTarget} {insert : Str}

theorem delimited_line (hcols : cols ≠ []) (hformat : spec.format = .csv ∨ spec.format = .tsv)
    {text : Str} (h : writeRow floats spec cols sql insert line options = .ok text) :
    ∃ cells record,
      Delimits floats options (delimiter spec.format) cols line.values (cells, record) ∧
      text = led (if spec.header then ['\n'] else []) ['\n'] line ++ record := by
  have hwrite : ∃ fields, cols.mapM (delimitedField floats spec line options) = .ok fields ∧
      text = (if ¬ line.ordinal = 0 ∨ spec.header then ['\n'] else []) ++
        [delimiter spec.format].intercalate fields := by
    rcases hformat with hf | hf
    all_goals
      simp only [writeRow, hf] at h
      obtain ⟨fields, hfields, h⟩ := Fallible.bind_eq_ok.mp h
      refine ⟨fields, hfields, ?_⟩
      rw [hf]
      exact (Except.ok.inj h).symm
  obtain ⟨fields, hfields, rfl⟩ := hwrite
  obtain ⟨cells, hshows, hwrites⟩ := fields_of_line hfields
  refine ⟨cells, [delimiter spec.format].intercalate fields, ⟨hshows, ?_, fields, hwrites, rfl⟩, ?_⟩
  · have hlength := hshows.length_eq
    intro hnil
    obtain rfl : cells = [] := map_eq_nil_iff.mp hnil
    exact hcols (length_eq_zero_iff.mp hlength)
  · unfold led
    by_cases hfirst : line.ordinal = 0
    · simp only [hfirst, not_true_eq_false, false_or, ↓reduceIte]
    · simp only [hfirst, not_false_eq_true, true_or, ↓reduceIte]

theorem forall_right {α γ : Type} {R : α → γ → Prop} {P : γ → Prop} (hR : ∀ a b, R a b → P b)
    {l : List α} {m : List γ} (h : List.Forall₂ R l m) : ∀ b ∈ m, P b := by
  induction h with
  | nil => nofun
  | cons hfirst _ ih =>
    rintro b (_ | ⟨_, hb⟩)
    · exact hR _ _ hfirst
    · exact ih b hb

theorem start_delimited (hformat : spec.format = .csv ∨ spec.format = .tsv) :
    start spec cols =
      if spec.header then
        [delimiter spec.format].intercalate
          (cols.map fun column => pushDelimited column.name (delimiter spec.format))
      else [] := by
  rcases hformat with h | h <;> rw [start, h]

theorem finishText_delimited (hformat : spec.format = .csv ∨ spec.format = .tsv) :
    finishText spec.format = [] := by
  rcases hformat with h | h <;> rw [h] <;> rfl

theorem header_record (separator : Char) (hcols : cols ≠ []) :
    WritesRecord separator (cols.map (·.name))
      ([separator].intercalate (cols.map fun column => pushDelimited column.name separator)) := by
  refine ⟨fun h => hcols (map_eq_nil_iff.mp h), _, ?_, rfl⟩
  rw [forall₂_map_left_iff, forall₂_map_right_iff, forall₂_same]
  exact fun column _ => writes_pushDelimited separator column.name

/-- Delimited text is read as the header, if there is one, and the cells of the rows. -/
theorem read_delimited (hcols : cols ≠ []) (hformat : spec.format = .csv ∨ spec.format = .tsv)
    {rows : List (Row F)} (hrows : rows ≠ []) {texts : List Str}
    (h : Written (fun line => writeRow floats spec cols sql insert line options)
      (linesFrom spec.offset spec.offset rows) texts) :
    ∃ grid, List.Forall₂ (RowShows floats options cols) rows grid ∧
      read (delimiter spec.format) (start spec cols ++ texts.flatten ++ finishText spec.format) =
        some ((if spec.header then [cols.map (·.name)] else []) ++
          grid.map fun cells => cells.map (·.getD [])) := by
  obtain ⟨hquote, hline⟩ := delimiter_spec spec.format
  obtain ⟨entries, hentries, hflatten⟩ :=
    written_records (fun line text => delimited_line hcols hformat) hrows h
  have hgrid : List.Forall₂ (RowShows floats options cols) rows (entries.map Prod.fst) := by
    rw [forall₂_map_right_iff]
    exact hentries.imp fun _ _ h => h.1
  have hrecords : List.Forall₂ (WritesRecord (delimiter spec.format))
      ((entries.map Prod.fst).map fun cells => cells.map (·.getD [])) (entries.map Prod.snd) := by
    rw [map_map, forall₂_map_left_iff, forall₂_map_right_iff, forall₂_same]
    exact forall_right (fun _ _ h => h.2) hentries
  have hne : entries ≠ [] := by
    rintro rfl
    exact hrows (forall₂_nil_right_iff.mp hentries)
  refine ⟨entries.map Prod.fst, hgrid, ?_⟩
  rw [start_delimited hformat, finishText_delimited hformat, hflatten, append_nil]
  cases hheader : spec.header with
  | true =>
    have hwhole := read_intercalate hquote hline
      (List.Forall₂.cons (header_record _ hcols) hrecords) (cons_ne_nil _ _)
    rw [intercalate_cons_of_ne_nil (fun h => hne (map_eq_nil_iff.mp h)),
      append_assoc] at hwhole
    exact hwhole
  | false =>
    refine read_intercalate hquote hline hrecords fun h => hne ?_
    exact map_eq_nil_iff.mp (map_eq_nil_iff.mp h)

end

/-! ## JSON -/

section

open JsonText

/-- A value of a kind, as Arrow's typed arrays hold them. -/
def Typed {F : Type} : Kind → Cell F → Prop
  | _, .null => True
  | .boolean, .boolean _ => True
  | .integer, .integer _ => True
  | .float, .float _ => True
  | .decimal, .decimal _ => True
  | .text, .string _ => True
  | .temporal, .other _ => True
  | .other, .other _ => True
  | _, _ => False

def TypedRow {F : Type} (fields : List Field) (row : Row F) : Prop :=
  List.Forall₂ (fun field cell => Typed (.of field.dataType) cell) fields row

def Floats.Lawful {F : Type} (floats : Floats F) : Prop :=
  ∀ value, floats.isFinite value = true → NumberText (floats.floatText value)

def jsonValue {F : Type} (floats : Floats F) (row : Row F) (column : Column) : Option Str → Json
  | none => .null
  | some text =>
    match column.kind, row[column.index]? with
    | .boolean, _ => .bool (text = "true".toList)
    | .integer, _ => .number text
    | .float, some (.float value) =>
      if floats.isFinite value then .number text else .string text
    | _, _ => .string text

/-! ### Strings and numbers -/

theorem hexValue_hexDigit : ∀ n < 16, hexValue? (hexDigit n) = some n := by decide

theorem spells_jsonChar (c : Char) : Spells (jsonChar c) c := by
  unfold jsonChar
  split_ifs with hquote hslash hline hreturn htab hcontrol
  · rw [hquote]
    exact spells_escape rfl (by decide)
  · rw [hslash]
    exact spells_escape rfl (by decide)
  · rw [hline]
    exact spells_escape rfl (by decide)
  · rw [hreturn]
    exact spells_escape rfl (by decide)
  · rw [htab]
    exact spells_escape rfl (by decide)
  · refine spells_unicode (hexValue_hexDigit _ ?_) (hexValue_hexDigit _ ?_) ?_ hcontrol
    all_goals omega
  · exact spells_self hquote hslash (Nat.not_lt.mp hcontrol)

theorem numeral_of_zero {n : Nat} (h : (numeral n).head? = some '0') : numeral n = ['0'] := by
  cases htext : numeral n with
  | nil => exact absurd htext (numeral_ne_nil n)
  | cons c rest =>
    rw [htext] at h
    obtain rfl := Option.some.inj h
    have hdigits : Digits rest := (digits_numeral n).sublist (htext ▸ sublist_cons_self _ _)
    have hvalue : value rest = n := by
      have hall := value_append ['0'] rest
      rw [singleton_append, ← htext, value_numeral] at hall
      rw [hall]
      exact (Nat.zero_add _).symm.trans (by rw [show value ['0'] = 0 from rfl, Nat.zero_mul])
    cases rest with
    | nil => rfl
    | cons d rest =>
      have hlt := value_lt hdigits
      rw [hvalue] at hlt
      have hle := (length_numeral_le (Nat.succ_pos _)).mpr hlt
      rw [htext] at hle
      exact absurd hle (Nat.not_succ_le_self _)

theorem numberText_integer (z : Int) : NumberText (integerText z) := by
  have hwhole : numeral z.natAbs ≠ [] ∧ Digits (numeral z.natAbs) ∧
      ((numeral z.natAbs).head? = some '0' → numeral z.natAbs = ['0']) :=
    ⟨numeral_ne_nil _, digits_numeral _, numeral_of_zero⟩
  unfold integerText
  split_ifs
  · exact ⟨['-'], numeral z.natAbs, [], [], by simp, Or.inr rfl, hwhole, Or.inl rfl, Or.inl rfl⟩
  · exact ⟨[], numeral z.natAbs, [], [], by simp, Or.inl rfl, hwhole, Or.inl rfl, Or.inl rfl⟩

theorem digits_append {run rest : Str} (hne : run ≠ []) (hrun : Digits run) (hrest : Stops rest) :
    digits (run ++ rest) = some rest := by
  obtain ⟨htake, hdrop⟩ := takeWhile_digits_append hrun hrest
  rw [digits, htake, hdrop, if_neg hne]

theorem head_ne_of_digits {run rest : Str} (hne : run ≠ []) (hrun : Digits run) {c : Char}
    (hc : c.isDigit = false) : (run ++ rest).head? ≠ some c := by
  cases run with
  | nil => exact absurd rfl hne
  | cons d run =>
    rintro ⟨⟩
    exact Bool.false_ne_true (hc.symm.trans (hrun _ mem_cons_self))

variable {text : Str}

theorem isNumber_of_numberText (h : NumberText text) : isNumber text = true := by
  obtain ⟨sign, whole, fraction, exponent, rfl, hsign, ⟨hne, hwhole, -⟩, hfraction, hexponent⟩ := h
  have hends : exponentEnds exponent = true := by
    rcases hexponent with rfl | ⟨e, esign, run, rfl, he, hes, hrne, hrun⟩
    · rfl
    · rw [cons_append, exponentEnds, if_pos he, decide_eq_true_eq]
      have hdigits : digits run = some [] := by
        have := digits_append hrne hrun stops_nil
        rwa [append_nil] at this
      rcases hes with rfl | rfl | rfl
      · rw [nil_append, if_neg, hdigits]
        rw [← append_nil run]
        exact not_or.mpr ⟨head_ne_of_digits hrne hrun rfl, head_ne_of_digits hrne hrun rfl⟩
      · exact hdigits
      · exact hdigits
  have hstops : Stops exponent ∧ exponent.head? ≠ some '.' := by
    rcases hexponent with rfl | ⟨e, esign, run, rfl, he, -⟩
    · exact ⟨stops_nil, by simp⟩
    · rcases he with rfl | rfl <;> exact ⟨stops_cons rfl _, by simp⟩
  have hunsigned : (if (sign ++ (whole ++ (fraction ++ exponent))).head? = some '-' then
      (sign ++ (whole ++ (fraction ++ exponent))).tail
      else sign ++ (whole ++ (fraction ++ exponent))) = whole ++ (fraction ++ exponent) := by
    rcases hsign with rfl | rfl
    · exact if_neg (head_ne_of_digits hne hwhole rfl)
    · rfl
  rw [append_assoc, append_assoc, isNumber, hunsigned]
  rcases hfraction with rfl | ⟨run, rfl, hrne, hrun⟩
  · rw [nil_append, digits_append hne hwhole hstops.1]
    dsimp only
    rw [if_neg hstops.2, hends]
  · rw [cons_append, digits_append hne hwhole (stops_cons rfl _)]
    dsimp only
    rw [head?_cons, if_pos rfl, tail_cons, digits_append hrne hrun hstops.1]
    exact hends

/-! ### Members and objects -/

variable {F : Type} {floats : Floats F} {options : FormatOptions} {spec : CopySpec}
  {line : Line F} {column : Column} {cols : List Column} {sql : Option SqlTarget} {insert : Str}

theorem memberText_json (name text : Str) :
    pushJsonString name ++ ": ".toList ++ text = memberText jsonChar name [' '] text := by
  simp [pushJsonString, memberText]

theorem formatValue_forCopy {cell : Cell F}
    (h : formatValue floats options.forCopy cell = .text text) :
    (∀ value, cell = .boolean value → text = if value then "true".toList else "false".toList) ∧
      (∀ value, cell = .integer value → text = integerText value) ∧
      ∀ value, cell = .float value → text = floats.floatText value := by
  refine ⟨?_, ?_, ?_⟩
  · rintro value rfl
    exact (CellValue.text.inj h).symm
  · rintro value rfl
    exact (CellValue.text.inj h).symm
  · rintro value rfl
    exact (CellValue.text.inj h).symm

theorem reads_shown (hfloats : floats.Lawful) {cell : Cell F}
    (hcell : line.values[column.index]? = some cell) (htyped : Typed column.kind cell)
    (h : formatValue floats options.forCopy cell = .text text) :
    Reads (if jsonNative floats line column text then text else pushJsonString text)
      (jsonValue floats line.values column (some text)) := by
  have hstring : Reads (pushJsonString text) (.string text) := reads_string spells_jsonChar text
  obtain ⟨hboolean, hinteger, hfloat⟩ := formatValue_forCopy h
  cases hkind : column.kind with
  | boolean =>
    rw [hkind] at htyped
    simp only [jsonNative, jsonValue, hkind, hcell, ↓reduceIte]
    cases cell with
    | boolean value =>
      rw [hboolean value rfl]
      cases value with
      | true => exact reads_bool true
      | false => exact reads_bool false
    | null => cases h
    | _ => exact htyped.elim
  | integer =>
    rw [hkind] at htyped
    simp only [jsonNative, jsonValue, hkind, hcell, ↓reduceIte]
    cases cell with
    | integer value =>
      rw [hinteger value rfl]
      exact reads_number (numberText_integer value)
    | null => cases h
    | _ => exact htyped.elim
  | float =>
    rw [hkind] at htyped
    cases cell with
    | float value =>
      simp only [jsonNative, jsonValue, finite, hkind, hcell]
      cases hfinite : floats.isFinite value with
      | true =>
        have hnumber := hfloats value hfinite
        rw [← hfloat value rfl] at hnumber
        rw [isNumber_of_numberText hnumber]
        exact reads_number hnumber
      | false => exact hstring
    | null => cases h
    | _ => exact htyped.elim
  | _ =>
    simp only [jsonNative, jsonValue, hkind]
    exact hstring

def TypedIn (cols : List Column) (row : Row F) : Prop :=
  ∀ column ∈ cols, ∀ cell, row[column.index]? = some cell → Typed column.kind cell

theorem typedIn_of_row {fields : List Field} {asked : List Nat} (hcols : Asks fields asked cols)
    {row : Row F} (h : TypedRow fields row) : TypedIn cols row := by
  intro column hcolumn cell hcell
  obtain ⟨hfield, hkind⟩ := hcols.named column hcolumn
  obtain ⟨hlength, hget⟩ := forall₂_iff_get.mp h
  obtain ⟨hlt, rfl⟩ := List.getElem?_eq_some_iff.mp hcell
  have htyped := hget column.index (hlength ▸ hlt) hlt
  rw [get_eq_getElem, (List.getElem?_eq_some_iff.mp hfield).2] at htyped
  rw [hkind]
  exact htyped

theorem jsonMember_eq_ok (hfloats : floats.Lawful)
    (h : jsonMember floats line options.forCopy column = .ok text) :
    ∃ cell, formatAt floats options.forCopy line.values column.index = shownAs cell ∧
      (TypedIn [column] line.values →
        Member jsonChar [' '] (column.name, jsonValue floats line.values column cell) text) := by
  obtain ⟨shownCell, hshown, h⟩ := Fallible.bind_eq_ok.mp h
  have hformat := shown_eq_ok hshown
  refine ⟨shownCell, hformat, fun htyped => ?_⟩
  cases shownCell with
  | none =>
    cases h
    exact ⟨_, reads_null, memberText_json _ _⟩
  | some shownText =>
    unfold formatAt at hformat
    split at hformat
    · cases hformat
    next cell hcell =>
      have hreads := reads_shown hfloats hcell
        (htyped column (mem_singleton_self column) cell hcell) hformat
      refine ⟨_, hreads, ?_⟩
      dsimp only at h
      split_ifs at h ⊢
      · cases h
        exact memberText_json _ _
      · cases h
        exact memberText_json _ _

def jsonMembers (floats : Floats F) (cols : List Column) (row : Row F)
    (cells : List (Option Str)) : List (Str × Json) :=
  List.zipWith (fun column cell => (column.name, jsonValue floats row column cell)) cols cells

theorem members_of_line (hfloats : floats.Lawful) {members : List Str}
    (h : cols.mapM (jsonMember floats line options.forCopy) = .ok members) :
    ∃ cells, RowShows floats options.forCopy cols line.values cells ∧
      (TypedIn cols line.values →
        List.Forall₂ (Member jsonChar [' ']) (jsonMembers floats cols line.values cells)
          members) := by
  have hall := Fallible.forall₂_of_mapM h
  clear h
  induction hall with
  | nil => exact ⟨[], .nil, fun _ => .nil⟩
  | @cons column _ cols _ hmember _ ih =>
    obtain ⟨cell, hshows, hwrites⟩ := jsonMember_eq_ok hfloats hmember
    obtain ⟨cells, hcells, hmembers⟩ := ih
    refine ⟨cell :: cells, .cons hshows hcells, fun htyped => .cons (hwrites ?_) (hmembers ?_)⟩
    · intro other hother
      obtain rfl := mem_singleton.mp hother
      exact htyped other mem_cons_self
    · exact fun other hother => htyped other (mem_cons_of_mem _ hother)

def Notates (floats : Floats F) (options : FormatOptions) (cols : List Column) (row : Row F)
    (entry : List (Option Str) × Str) : Prop :=
  RowShows floats options cols row entry.1 ∧
    (TypedIn cols row → Reads entry.2 (.object (jsonMembers floats cols row entry.1)))

theorem json_line (hcols : cols ≠ []) (hformat : spec.format = .json) (hfloats : floats.Lawful)
    (h : writeRow floats spec cols sql insert line options.forCopy = .ok text) :
    ∃ cells record, Notates floats options.forCopy cols line.values (cells, record) ∧
      text = led "\n  ".toList ",\n  ".toList line ++ record := by
  simp only [writeRow, hformat] at h
  obtain ⟨members, hmembers, h⟩ := Fallible.bind_eq_ok.mp h
  obtain ⟨cells, hshows, hwrites⟩ := members_of_line hfloats hmembers
  refine ⟨cells, '\x7b' :: (", ".toList.intercalate members ++ ['\x7d']),
    ⟨hshows, fun htyped => ?_⟩, ?_⟩
  · have hne : jsonMembers floats cols line.values cells ≠ [] := by
      intro hnil
      rcases zipWith_eq_nil_iff.mp hnil with hnil | hnil
      · exact hcols hnil
      · have := hshows.length_eq
        rw [hnil] at this
        exact hcols (length_eq_zero_iff.mp this)
    exact reads_object (readsMembers_intercalate spells_jsonChar (hwrites htyped) hne
      blank_nil (by decide) (by decide))
  · obtain rfl := Except.ok.inj h
    unfold led
    split_ifs <;> simp

theorem read_json (hcols : cols ≠ []) (hformat : spec.format = .json) (hfloats : floats.Lawful)
    {rows : List (Row F)} (hrows : rows ≠ []) (htyped : ∀ row ∈ rows, TypedIn cols row)
    {texts : List Str}
    (h : Written (fun line => writeRow floats spec cols sql insert line options.forCopy)
      (linesFrom spec.offset spec.offset rows) texts) :
    ∃ grid, List.Forall₂ (RowShows floats options.forCopy cols) rows grid ∧
      JsonText.read (start spec cols ++ texts.flatten ++ finishText spec.format) =
        some (.array (List.zipWith (fun row cells => .object (jsonMembers floats cols row cells))
          rows grid)) := by
  obtain ⟨entries, hentries, hflatten⟩ :=
    written_records (fun line text => json_line hcols hformat hfloats) hrows h
  have hgrid : List.Forall₂ (RowShows floats options.forCopy cols) rows (entries.map Prod.fst) := by
    rw [forall₂_map_right_iff]
    exact hentries.imp fun _ _ h => h.1
  have hreads : List.Forall₂ Reads (entries.map Prod.snd)
      (List.zipWith (fun row cells => .object (jsonMembers floats cols row cells)) rows
        (entries.map Prod.fst)) := by
    clear hflatten hgrid h hrows
    induction hentries with
    | nil => exact .nil
    | cons hentry _ ih =>
      refine .cons (hentry.2 (htyped _ mem_cons_self)) (ih fun row hrow => ?_)
      exact htyped row (mem_cons_of_mem _ hrow)
  have hne : entries.map Prod.snd ≠ [] := by
    intro hnil
    obtain rfl := map_eq_nil_iff.mp hnil
    exact hrows (forall₂_nil_right_iff.mp hentries)
  refine ⟨entries.map Prod.fst, hgrid, ?_⟩
  have hwhole := read_of_reads (reads_array (readsItems_intercalate hreads hne
    (by decide : Blank "\n  ".toList) (by decide : Blank ['\n'])))
  rw [hflatten]
  simp only [start, finishText, hformat]
  exact hwhole

end

/-! ## The grid -/

section

variable {F : Type} {floats : Floats F} {options : FormatOptions} {spec : CopySpec}
  {sql : Option SqlTarget} {disk : Disk} {fields : List Field} {limits : BufferLimits}
  {tr : List (Data.Op Field (Row F) × Data.Answer Field (Row F))}
  {buffer : ResultBuffer Field (Row F)}

/-- Whatever batches a result came in, what is copied of it is read back as the rows of the range
that the grid shows: as delimited text, the header and the texts, NULL an empty one; as JSON, an
object a row. -/
theorem copied_grid_is_read_back (hrun : BufferRun fields limits tr buffer)
    (htyped : ∀ row ∈ accepted tr, TypedRow fields row) (hfloats : floats.Lawful) {text : Str}
    (hcompose : (compose floats buffer disk spec sql options.forCopy).1 = .ok text) :
    ∃ cols, Asks fields spec.columns cols ∧
      (ranged (limits.cut (accepted tr)) spec).length = spec.count ∧
      (spec.format = .csv ∨ spec.format = .tsv →
        ∃ grid, List.Forall₂ (RowShows floats options.forCopy cols)
            (ranged (limits.cut (accepted tr)) spec) grid ∧
          Delimited.read (delimiter spec.format) text =
            some ((if spec.header then [cols.map (·.name)] else []) ++
              grid.map fun cells => cells.map (·.getD []))) ∧
      (spec.format = .json →
        ∃ grid, List.Forall₂ (RowShows floats options.forCopy cols)
            (ranged (limits.cut (accepted tr)) spec) grid ∧
          JsonText.read text =
            some (.array (List.zipWith
              (fun row cells => .object (jsonMembers floats cols row cells))
              (ranged (limits.cut (accepted tr)) spec) grid))) := by
  obtain ⟨batches, hstream⟩ := Streamed.run hrun
  obtain ⟨cols, target, insert, texts, hcolumns, hwritten, hlength, hcount, rfl⟩ :=
    compose_eq_ok hstream.represents hcompose
  have hcols := columns_eq_ok hcolumns
  rw [hstream.fields_eq] at hcols
  rw [hstream.contents] at hwritten hlength
  have hrows : ranged (limits.cut (accepted tr)) spec ≠ [] := by
    intro hnil
    rw [hnil] at hlength
    exact hcount hlength.symm
  refine ⟨cols, hcols, hlength, fun hformat => ?_, fun hformat => ?_⟩
  · exact read_delimited hcols.ne_nil hformat hrows hwritten
  · refine read_json hcols.ne_nil hformat hfloats hrows (fun row hrow => ?_) hwritten
    have hcut : row ∈ limits.cut (accepted tr) :=
      mem_of_mem_drop (mem_of_mem_take hrow)
    have haccepted : row ∈ accepted tr := by
      unfold BufferLimits.cut at hcut
      split at hcut
      · exact hcut
      · exact mem_of_mem_take hcut
    exact typedIn_of_row hcols (htyped row haccepted)

end

/-- A float that is always one and a half. -/
def oneFloat : Floats Unit := ⟨fun _ => true, fun _ => "1.5".toList⟩

theorem oneFloat_lawful : oneFloat.Lawful := by
  rintro ⟨⟩ -
  exact ⟨[], ['1'], ['.', '5'], [], rfl, Or.inl rfl, ⟨nofun, by decide, nofun⟩,
    Or.inr ⟨['5'], rfl, nofun, by decide⟩, Or.inl rfl⟩

def pricedFields : List Field := [⟨"a,".toList, .utf8⟩, ⟨['n'], .float64⟩]

def pricedLimits : BufferLimits := ⟨100, some 3, none, true, by decide, by simp [wordMax]⟩

def priced : List (Data.Op Field (Row Unit) × Data.Answer Field (Row Unit)) ×
    ResultBuffer Field (Row Unit) :=
  (ResultBuffer.withLimits pricedFields pricedLimits).applyAll
    [.push ⟨pricedFields, [[.string "x\"".toList, .float ()]], 40⟩ (.error .spill),
      .push ⟨pricedFields, [[.null, .null]], 40⟩ (.ok ⟨7, by decide⟩)]

/-- Two rows of two batches, with a separator in a name and a quote in a cell. -/
theorem two_batches_are_read_back :
    ∃ cols grid, List.Forall₂ (RowShows oneFloat (FormatOptions.forCopy ⟨0, [], .none⟩) cols)
        (ranged (pricedLimits.cut (accepted priced.1)) ⟨0, 2, [0, 1], .csv, true⟩) grid ∧
      Delimited.read ',' "\"a,\",n\n\"x\"\"\",1.5\n,".toList =
        some ([cols.map (·.name)] ++ grid.map fun cells => cells.map (·.getD [])) := by
  have haccepted : accepted priced.1 =
      [[.string "x\"".toList, .float ()], [.null, .null]] := by rfl
  have htyped : ∀ row ∈ accepted priced.1, TypedRow pricedFields row := by
    rw [haccepted]
    intro row hrow
    rcases mem_pair.mp hrow with rfl | rfl
    · exact .cons trivial (.cons trivial .nil)
    · exact .cons trivial (.cons trivial .nil)
  have hcompose : (compose oneFloat priced.2 ⟨fun _ => false, fun _ => none⟩
      ⟨0, 2, [0, 1], .csv, true⟩ none (FormatOptions.forCopy ⟨0, [], .none⟩)).1 =
        .ok "\"a,\",n\n\"x\"\"\",1.5\n,".toList := by rfl
  obtain ⟨cols, -, -, hcsv, -⟩ := copied_grid_is_read_back
    (steps_applyAll (.withLimits pricedFields pricedLimits) _) htyped oneFloat_lawful hcompose
  exact ⟨cols, hcsv (Or.inl rfl)⟩

end Oxyn.Desktop.Copy
