/-
# `Oxyn.Desktop.Copy` — rows of a held result, composed as text

A copy takes a range of rows and some columns of a result, and writes them in
one of six formats.  The rows come batch after batch; each is written by
`writeRow` after the rows before it.  A copy is refused rather than trimmed.

What Arrow decides is a parameter: `Cell` says what a value is, and the text of
a float is `floatText`.
-/
import Oxyn.Catalog.Literal
import Oxyn.Catalog.Quote
import Oxyn.Data.Find
import Oxyn.Lib.Decimal

namespace Oxyn.Desktop.Copy

open Text Decimal Data

def maxCopyRows : Nat := 2000

def maxCopyBytes : Nat := 32 * 1024 * 1024

inductive CopyRowsFormat where
  | tsv | csv | json | markdown | insert | inList
deriving DecidableEq, Repr

structure CopySpec where
  offset : Nat
  count : Nat
  columns : List Nat
  format : CopyRowsFormat
  header : Bool

/-- Where composed SQL goes: its dialect, and the relation an `INSERT` names, already quoted. -/
structure SqlTarget where
  dialect : SqlDialect
  relation : Option Str

/-! ## Columns -/

/-- An Arrow type; the ones that are not told apart have only their name. -/
inductive DataType where
  | null | boolean
  | int8 | int16 | int32 | int64 | uint8 | uint16 | uint32 | uint64
  | float32 | float64
  | decimal128 | decimal256
  | utf8 | largeUtf8 | utf8View
  | date32 | date64 | time32 | time64 | timestamp | duration
  | other (display : Str)
deriving DecidableEq, Repr

/-- What a column's Arrow type allows a copy to write. -/
inductive Kind where
  | null | boolean | integer | float | decimal | text | temporal | other
deriving DecidableEq, Repr

def Kind.of : DataType → Kind
  | .null => .null
  | .boolean => .boolean
  | .int8 | .int16 | .int32 | .int64 | .uint8 | .uint16 | .uint32 | .uint64 => .integer
  | .float32 | .float64 => .float
  | .decimal128 | .decimal256 => .decimal
  | .utf8 | .largeUtf8 | .utf8View => .text
  | .date32 | .date64 | .time32 | .time64 | .timestamp | .duration => .temporal
  | .other _ => .other

structure Field where
  name : Str
  dataType : DataType
deriving DecidableEq, Repr

structure Column where
  index : Nat
  name : Str
  dataType : DataType
  kind : Kind
deriving DecidableEq, Repr

/-! ## Errors -/

/-- Why a copy is refused. -/
inductive CopyError where
  | noRows
  | tooManyRows
  | outside (total : Nat)
  | noColumns
  | unknownColumn
  | repeatedColumn
  | noConnection
  | notOneColumn
  | noRelation
  | noLiteral (name : Str) (dataType : DataType)
  | badName (position : Nat) (error : LiteralError)
  | reading (error : DataError Field)
  | missingBatch
  | cut (name : Str) (row : Nat)
  | unrenderable (name : Str) (row : Nat)
  | noPlainDigits (name : Str) (row : Nat)
  | notFinite (name : Str) (row : Nat)
  | notBoolean (name : Str) (row : Nat)
  | badValue (name : Str) (row : Nat) (error : LiteralError)
  | tooLong
  | unread
deriving DecidableEq

/-! ## Cells -/

inductive NumberGrouping where
  | none | thousands
deriving DecidableEq, Repr

/-- The settings of a cell's rendering that a copy depends on. -/
structure FormatOptions where
  maxLen : Nat
  nullText : Str
  numberGrouping : NumberGrouping

/-- The user's settings, without what is a reading comfort of the grid. -/
def FormatOptions.forCopy (options : FormatOptions) : FormatOptions :=
  { options with maxLen := 0, numberGrouping := .none }

def groupSeparator : Char := '\u00a0'

def group (txt : Str) (mode : NumberGrouping) : Str :=
  match mode with
  | .none => txt
  | .thousands =>
    let start := if txt.head? = some '-' ∨ txt.head? = some '+' then 1 else 0
    let digits := (txt.drop start).takeWhile Char.isDigit
    if digits.length ≤ 3 then txt
    else
      txt.take start ++
        (digits.zipIdx.flatMap fun (digit, rank) =>
          (if 0 < rank ∧ (digits.length - rank) % 3 = 0 then [groupSeparator] else []) ++
            [digit]) ++
        (txt.drop start).dropWhile Char.isDigit

/-- A value of a batch; `other` for the types whose text another formatter gives. -/
inductive Cell (F : Type) where
  | null
  | boolean (value : Bool)
  | integer (value : Int)
  | float (value : F)
  | decimal (text : Str)
  | string (text : Str)
  | other (rendered : Rendered)

abbrev Row (F : Type) := List (Cell F)

structure Floats (F : Type) where
  isFinite : F → Bool
  floatText : F → Str

section

variable {F : Type} (floats : Floats F)

/-- `{z}`. -/
def integerText (z : Int) : Str := if z < 0 then '-' :: numeral z.natAbs else numeral z.natAbs

/-- `format_value`: the cell as the grid shows it. -/
def formatValue (options : FormatOptions) : Cell F → CellValue
  | .null => .null
  | .boolean value => .text (if value then "true".toList else "false".toList)
  | .integer value => finish (group (integerText value) options.numberGrouping) options.maxLen
  | .float value => finish (floats.floatText value) options.maxLen
  | .decimal text => finish (group text options.numberGrouping) options.maxLen
  | .string text => finish text options.maxLen
  | .other rendered => formatCell options.maxLen rendered

/-- `format_cell`, of a row and a column of a batch. -/
def formatAt (options : FormatOptions) (row : Row F) (column : Nat) : CellValue :=
  match row[column]? with
  | none => .unrenderable
  | some cell => formatValue floats options cell

/-- One row being written: its values, where it is in the copy and its number in the result. -/
structure Line (F : Type) where
  values : Row F
  ordinal : Nat
  row : Nat

def shown (line : Line F) (column : Column) (options : FormatOptions) :
    Except CopyError (Option Str) :=
  match formatAt floats options line.values column.index with
  | .null => .ok none
  | .text text => .ok (some text)
  | .truncated _ _ => .error (.cut column.name line.row)
  | .unrenderable => .error (.unrenderable column.name line.row)

def finite (line : Line F) (column : Column) : Option Bool :=
  match line.values[column.index]? with
  | some (.float value) => some (floats.isFinite value)
  | _ => none

end

/-- A run of ASCII digits, and what follows; nothing if there is none. -/
def digits (s : Str) : Option Str :=
  if s.takeWhile Char.isDigit = [] then none else some (s.dropWhile Char.isDigit)

/-- `([eE][+-]?\d+)?$`. -/
def exponentEnds (s : Str) : Bool :=
  match s with
  | [] => true
  | c :: s =>
    if c = 'e' ∨ c = 'E' then
      digits (if s.head? = some '+' ∨ s.head? = some '-' then s.tail else s) = some []
    else false

/-- Whether a text is exactly `-?\d+(\.\d+)?([eE][+-]?\d+)?`. -/
def isNumber (text : Str) : Bool :=
  match digits (if text.head? = some '-' then text.tail else text) with
  | none => false
  | some rest =>
    if rest.head? = some '.' then
      match digits rest.tail with
      | none => false
      | some rest => exponentEnds rest
    else exponentEnds rest

/-! ## Writing -/

def delimiter (format : CopyRowsFormat) : Char := if format = .csv then ',' else '\t'

/-- A field, quoted when it holds the delimiter, a quote or a line break. -/
def pushDelimited (text : Str) (delimiter : Char) : Str :=
  if text.any fun c => c = delimiter ∨ c = '"' ∨ c = '\n' ∨ c = '\r' then
    '"' :: (text.flatMap fun c => if c = '"' then ['"', c] else [c]) ++ ['"']
  else text

/-- A hexadecimal digit, in lower case. -/
def hexDigit (n : Nat) : Char := Nat.digitChar n

def jsonChar (c : Char) : Str :=
  if c = '"' then ['\\', '"']
  else if c = '\\' then ['\\', '\\']
  else if c = '\n' then ['\\', 'n']
  else if c = '\r' then ['\\', 'r']
  else if c = '\t' then ['\\', 't']
  else if c.toNat < 0x20 then
    ['\\', 'u', '0', '0', hexDigit (c.toNat / 16), hexDigit (c.toNat % 16)]
  else [c]

def pushJsonString (text : Str) : Str := '"' :: text.flatMap jsonChar ++ ['"']

/-- A table cell: `|` escaped, line breaks as `<br>`. -/
def pushMarkdown : Str → Str
  | [] => []
  | '\r' :: '\n' :: rest => "<br>".toList ++ pushMarkdown rest
  | c :: rest =>
    (if c = '|' then ['\\', '|']
      else if c = '\r' ∨ c = '\n' then "<br>".toList
      else [c]) ++ pushMarkdown rest

/-- What stands before the rows. -/
def start (spec : CopySpec) (columns : List Column) : Str :=
  match spec.format with
  | .tsv | .csv =>
    if spec.header then
      List.intercalate [delimiter spec.format]
        (columns.map fun column => pushDelimited column.name (delimiter spec.format))
    else []
  | .json => ['[']
  | .markdown =>
    '|' :: (columns.flatMap fun column => ' ' :: pushMarkdown column.name ++ " |".toList) ++
      "\n|".toList ++ columns.flatMap fun _ => " --- |".toList
  | .inList => ['(']
  | .insert => []

/-- What stands after them. -/
def finishText : CopyRowsFormat → Str
  | .json => "\n]".toList
  | .inList => [')']
  | _ => []

section

variable {F : Type} (floats : Floats F)

/-- Whether a JSON value can be written as the grid's text, unquoted. -/
def jsonNative (line : Line F) (column : Column) (text : Str) : Bool :=
  match column.kind with
  | .boolean | .integer => true
  | .float => finite floats line column = some true && isNumber text
  | _ => false

def sqlValue (line : Line F) (column : Column) (dialect : SqlDialect) (options : FormatOptions) :
    Except CopyError Str := do
  match ← shown floats line column options with
  | none => .ok "NULL".toList
  | some text =>
    match column.kind with
    | .null => .ok "NULL".toList
    | .boolean =>
      match line.values[column.index]? with
      | some (.boolean value) =>
        -- T-SQL has no boolean literal
        .ok (if dialect = .sqlServer then (if value then ['1'] else ['0'])
          else if value then "TRUE".toList else "FALSE".toList)
      | _ => .error (.notBoolean column.name line.row)
    | .integer | .decimal =>
      if isNumber text then .ok text else .error (.noPlainDigits column.name line.row)
    | .float =>
      if finite floats line column = some true && isNumber text then .ok text
      else .error (.notFinite column.name line.row)
    | .text | .temporal =>
      match pushStringLiteral [] text dialect with
      | (out, .ok ()) => .ok out
      | (_, .error error) => .error (.badValue column.name line.row error)
    | .other => .error (.noLiteral column.name column.dataType)

def delimitedField (spec : CopySpec) (line : Line F) (options : FormatOptions) (column : Column) :
    Except CopyError Str := do
  match ← shown floats line column options with
  -- NULL is an empty field
  | none => .ok []
  | some text => .ok (pushDelimited text (delimiter spec.format))

def jsonMember (line : Line F) (options : FormatOptions) (column : Column) :
    Except CopyError Str := do
  let name := pushJsonString column.name ++ ": ".toList
  match ← shown floats line column options with
  | none => .ok (name ++ "null".toList)
  | some text =>
    if jsonNative floats line column text then .ok (name ++ text)
    else .ok (name ++ pushJsonString text)

def markdownCell (line : Line F) (options : FormatOptions) (column : Column) :
    Except CopyError Str := do
  match ← shown floats line column options with
  | some text => .ok (' ' :: pushMarkdown text ++ " |".toList)
  | none => .ok (' ' :: pushMarkdown options.nullText ++ " |".toList)

/-- What `write_row` appends. -/
def writeRow (spec : CopySpec) (columns : List Column) (sql : Option SqlTarget) (insert : Str)
    (line : Line F) (options : FormatOptions) : Except CopyError Str :=
  let first := line.ordinal = 0
  match spec.format, sql with
  | .tsv, _ | .csv, _ => do
      let fields ← columns.mapM (delimitedField floats spec line options)
      .ok ((if ¬ first ∨ spec.header then ['\n'] else []) ++
        List.intercalate [delimiter spec.format] fields)
  | .json, _ => do
      let members ← columns.mapM (jsonMember floats line options)
      .ok ((if first then "\n  \x7b".toList else ",\n  \x7b".toList) ++
        List.intercalate ", ".toList members ++ "\x7d".toList)
  | .markdown, _ => do
      let cells ← columns.mapM (markdownCell floats line options)
      .ok ("\n|".toList ++ cells.flatten)
  | .insert, some target => do
      let values ← columns.mapM (sqlValue floats line · target.dialect options)
      .ok ((if first then [] else ['\n']) ++ insert ++ List.intercalate ", ".toList values ++
        ");".toList)
  | .inList, some target => do
      let values ← columns.mapM (sqlValue floats line · target.dialect options)
      .ok ((if first then [] else ", ".toList) ++ values.flatten)
  | .insert, none | .inList, none => .error .noConnection

end

/-! ## Checks before any row -/

def columnsFrom (fields : List Field) : List Nat → List Nat → Except CopyError (List Column)
  | _, [] => .ok []
  | seen, index :: asked =>
    match fields[index]? with
    | none => .error .unknownColumn
    | some field =>
      if index ∈ seen then .error .repeatedColumn
      else
        (columnsFrom fields (index :: seen) asked).map
          (⟨index, field.name, field.dataType, .of field.dataType⟩ :: ·)

def columns (fields : List Field) (asked : List Nat) : Except CopyError (List Column) :=
  if asked = [] then .error .noColumns else columnsFrom fields [] asked

def sqlTarget (spec : CopySpec) (sql : Option SqlTarget) (columns : List Column) :
    Except CopyError SqlTarget :=
  match sql with
  | none => .error .noConnection
  | some target =>
    if spec.format = .inList ∧ columns.length ≠ 1 then .error .notOneColumn
    else if spec.format = .insert ∧ target.relation = none then .error .noRelation
    else
      match columns.find? (·.kind = .other) with
      | some column => .error (.noLiteral column.name column.dataType)
      | none => .ok target

/-- The names of an `INSERT`, each checked before it is quoted. -/
def quotedNames (style : QuoteStyle) : Nat → List Column → Except CopyError (List Str)
  | _, [] => .ok []
  | position, column :: rest =>
    match refuseControls column.name fun _ => false with
    | .error error => .error (.badName (position + 1) error)
    | .ok () =>
      (quotedNames style (position + 1) rest).map (quoteIdentifier column.name style :: ·)

/-- `INSERT INTO <relation> (<columns>) VALUES (`, quoted once for every row. -/
def insertPrefix (target : SqlTarget) (columns : List Column) : Except CopyError Str :=
  match target.relation with
  | none => .error .noRelation
  | some relation =>
    (quotedNames (.forDialect target.dialect) 0 columns).map fun names =>
      "INSERT INTO ".toList ++ relation ++ " (".toList ++ List.intercalate ", ".toList names ++
        ") VALUES (".toList

def CopyRowsFormat.isSql (format : CopyRowsFormat) : Bool := format = .insert ∨ format = .inList

def sqlFor (spec : CopySpec) (sql : Option SqlTarget) (columns : List Column) :
    Except CopyError (Option SqlTarget) :=
  if spec.format.isSql then (sqlTarget spec sql columns).map some else .ok none

/-- What stands before the values of each row. -/
def insertFor (spec : CopySpec) (sql : Option SqlTarget) (columns : List Column) :
    Except CopyError Str :=
  match spec.format, sql with
  | .insert, some target => insertPrefix target columns
  | _, _ => .ok []

/-- The columns, the target and the beginning of an `INSERT`. -/
def prepared (fields : List Field) (spec : CopySpec) (sql : Option SqlTarget) :
    Except CopyError (List Column × Option SqlTarget × Str) := do
  let columns ← columns fields spec.columns
  let sql ← sqlFor spec sql columns
  let insert ← insertFor spec sql columns
  .ok (columns, sql, insert)

/-! ## Rows -/

section

variable {F : Type} (floats : Floats F)

/-- What the reads of a copy meet, turn by turn: is the lock taken, and does the disk fail? -/
structure Disk where
  contended : Nat → Bool
  fails : Nat → Option DiskError

def fetch (buffer : ResultBuffer Field (Row F)) (disk : Disk) (turn position : Nat) :
    Except CopyError (RecordBatch Field (Row F)) × ResultBuffer Field (Row F) :=
  match buffer.cachedBatch position (disk.contended turn) with
  | (some batch, buffer) => (.ok batch, buffer)
  | (none, buffer) =>
    match buffer.batchCancellable position ⟨false, disk.fails turn, false, false⟩ with
    | (.error error, buffer) => (.error (.reading error), buffer)
    | (.ok none, buffer) => (.error .missingBatch, buffer)
    | (.ok (some batch), buffer) => (.ok batch, buffer)

def writeRows (write : Line F → Except CopyError Str) (offset : Nat) :
    List (Row F) → Nat → Str → Except CopyError Str
  | [], _, out => .ok out
  | values :: rest, row, out => do
      let text ← write ⟨values, row - offset, row⟩
      if maxCopyBytes < size (out ++ text) then .error .tooLong
      else writeRows write offset rest (row + 1) (out ++ text)

/-- `while row < end`, at most `fuel` batches: the row reached and the text written. -/
def copyBatches (write : Line F → Except CopyError Str) (disk : Disk) (offset stop : Nat) :
    Nat → Nat → Str → ResultBuffer Field (Row F) →
      Except CopyError (Nat × Str) × ResultBuffer Field (Row F)
  | 0, row, out, buffer => (.ok (row, out), buffer)
  | fuel + 1, row, out, buffer =>
    if row < stop then
      match buffer.locate row with
      | none => (.ok (row, out), buffer)
      | some (position, startInBatch) =>
        match fetch buffer disk fuel position with
        | (.error error, buffer) => (.error error, buffer)
        | (.ok batch, buffer) =>
          let take := min (batch.numRows - startInBatch) (stop - row)
          if take = 0 then (.ok (row, out), buffer)
          else
            match writeRows write offset ((batch.rows.drop startInBatch).take take) row
                out with
            | .error error => (.error error, buffer)
            | .ok out => copyBatches write disk offset stop fuel (row + take) out buffer
    else (.ok (row, out), buffer)

/-- Composes a copy over the rows the buffer holds; each turn of the loop writes a row at least. -/
def compose (buffer : ResultBuffer Field (Row F)) (disk : Disk) (spec : CopySpec)
    (sql : Option SqlTarget) (options : FormatOptions) :
    Except CopyError Str × ResultBuffer Field (Row F) :=
  if spec.count = 0 then (.error .noRows, buffer)
  else if maxCopyRows < spec.count then (.error .tooManyRows, buffer)
  else if buffer.index.rows < spec.offset + spec.count then
    (.error (.outside buffer.index.rows), buffer)
  else
    match prepared buffer.fields spec sql with
    | .error error => (.error error, buffer)
    | .ok (columns, sql, insert) =>
      let stop := spec.offset + spec.count
      match copyBatches (fun line => writeRow floats spec columns sql insert line options) disk
          spec.offset stop spec.count spec.offset (start spec columns) buffer with
      | (.error error, buffer) => (.error error, buffer)
      | (.ok (row, out), buffer) =>
        if row < stop then (.error .unread, buffer)
        else (.ok (out ++ finishText spec.format), buffer)

end

end Oxyn.Desktop.Copy
