/-
# `Oxyn.ClickHouse.Params` — the values a console binds

The console binds values by position, ClickHouse by name: the `n`-th value goes to the `n`-th
distinct `{name:Type}` placeholder of the text.
-/
import Oxyn.Lib.Lossy
import Oxyn.Query.Scan

namespace Oxyn.ClickHouse

open Text Cursor List

/-- Why a request is refused before it is sent. -/
inductive OxynError where
  | config (message : Str)
  | notSupported (capability : Str)
deriving DecidableEq, Repr

namespace Params

abbrev openBrace : UInt8 := 0x7b
abbrev closeBrace : UInt8 := 0x7d
abbrev closeParenthesis : UInt8 := 0x29

/-- The most placeholders read from one statement. -/
def maxPlaceholders : Nat := 1024

/-! ## What is stepped over -/

/-- The body of `skip_quoted`: a backslash escapes, a doubled quote too. -/
def quotedTurn (quote : UInt8) (_ : Unit) (c : UInt8) (next : Option UInt8) :
    Cursor.Turn Unit Unit :=
  if c == Byte.backslash then .two ()
  else if c == quote then
    if next == some quote then .two () else .leave 1 ()
  else .one ()

/-- Past a quoted string or name. -/
def skipQuoted (b : List UInt8) (i : Nat) (quote : UInt8) : Nat :=
  (loop (quotedTurn quote) (b.drop (i + 1)) (i + 1) ()).index b.length

/-- Past a `--` or `#` comment, which ends at a line feed only. -/
def skipLine (b : List UInt8) (i : Nat) : Nat :=
  (Cursor.find [Byte.lineFeed] (b.drop i) i).getD b.length

/-- The body of `skip_block`; the state is the depth. -/
def blockTurn (depth : Nat) (c : UInt8) (next : Option UInt8) : Cursor.Turn Nat Unit :=
  if c == Byte.slash && next == some Byte.star then .two (depth + 1)
  else if c == Byte.star && next == some Byte.slash then
    if depth - 1 = 0 then .leave 2 () else .two (depth - 1)
  else .one depth

/-- Past a block comment, which nests. -/
def skipBlock (b : List UInt8) (i : Nat) : Nat :=
  (loop blockTurn (b.drop i) i 0).index b.length

/-- A byte of a placeholder's name, or of a heredoc's tag. -/
def isNameByte (c : UInt8) : Bool := isAsciiAlphabetic c || isAsciiDigit c || c == 0x5f

/-- Past a `$tag$ … $tag$` string, or one byte when `$` opens none. -/
def skipHeredoc (b : List UInt8) (i : Nat) : Nat :=
  let stop := runEnd isNameByte b (i + 1)
  if b[stop]? == some Byte.dollar then
    let tag := (b.drop i).take (stop + 1 - i)
    (Cursor.find tag (b.drop (stop + 1)) (stop + 1)).getD b.length
  else i + 1

/-! ## A placeholder -/

def typePart (b : List UInt8) (i : Nat) : Option (Item UInt8) :=
  b[i]?.map fun c =>
    if c == Byte.apostrophe || c == Byte.doubleQuote || c == Byte.backtick then
      ⟨c, i, skipQuoted b i c⟩
    else ⟨c, i, i + 1⟩

theorem quotedTurn_eq (quote : UInt8) : quotedTurn quote = Oxyn.quotedTurn quote true := by
  funext s c next
  simp only [quotedTurn, Oxyn.quotedTurn, Bool.true_and]

theorem skipQuoted_eq (b : List UInt8) (i : Nat) (quote : UInt8) :
    skipQuoted b i quote = Oxyn.skipQuoted b i quote true := by
  unfold skipQuoted
  rw [quotedTurn_eq]
  rfl

variable {b : List UInt8} {i : Nat}

theorem typePart_forward {x : Item UInt8}
    (h : typePart b i = some x) : i ≤ x.start ∧ x.start < x.stop ∧ x.stop ≤ b.length := by
  obtain ⟨c, hc, rfl⟩ := Option.map_eq_some_iff.mp h
  have hi : i < b.length := (List.getElem?_eq_some_iff.mp hc).1
  split
  · have hbounds := skipQuoted_bounds (q := c) (e := true) hi
    rw [← skipQuoted_eq] at hbounds
    exact ⟨Nat.le_refl i, hbounds.1, hbounds.2⟩
  · exact ⟨Nat.le_refl i, Nat.lt_succ_self i, hi⟩

def typeParts (b : List UInt8) : Reader UInt8 where
  size := b.length
  next := typePart b
  forward := typePart_forward

def typeEnd : Nat → List (Item UInt8) → Option Nat
  | _, [] => none
  | depth, x :: rest =>
    if x.kind == Byte.openParenthesis then typeEnd (depth + 1) rest
    else if x.kind == closeParenthesis then typeEnd (depth - 1) rest
    else if x.kind == closeBrace && depth == 0 then some x.stop
    else typeEnd depth rest

/-- `{name:Type}` starting at `i`: the name and where the placeholder ends. -/
def placeholder (b : List UInt8) (i : Nat) : Option (Str × Nat) :=
  let stop := runEnd isNameByte b (i + 1)
  match fromUtf8 ((b.drop (i + 1)).take (stop - (i + 1))) with
  | none => none
  | some name =>
    if name.isEmpty || name.head?.any Char.isDigit then none
    else
      let colon := runEnd isAsciiWhitespace b stop
      if b[colon]? == some Byte.colon then
        (typeEnd 0 ((typeParts b).items (colon + 1))).map fun stop => (name, stop)
      else none

/-! ## The placeholders of a text -/

/-- One turn of `placeholders`, standing at the byte `c`: the name taken, and where it goes on. -/
def turn (b : List UInt8) (i : Nat) (c : UInt8) : Option Str × Nat :=
  if c == Byte.apostrophe || c == Byte.doubleQuote || c == Byte.backtick then
    (none, skipQuoted b i c)
  else if c == Byte.dash && b[i + 1]? == some Byte.dash then (none, skipLine b i)
  else if c == Byte.hash then (none, skipLine b i)
  else if c == Byte.slash && b[i + 1]? == some Byte.star then (none, skipBlock b i)
  else if c == Byte.dollar then (none, skipHeredoc b i)
  else if c == openBrace then
    match placeholder b i with
    | some (name, stop) => (some name, stop)
    | none => (none, i + 1)
  else (none, i + 1)

def part (b : List UInt8) (i : Nat) : Option (Item (Option Str)) :=
  b[i]?.map fun c => ⟨(turn b i c).1, i, (turn b i c).2⟩

/-! ### Where the steps end -/

theorem typeEnd_mem {depth stop : Nat} {parts : List (Item UInt8)}
    (h : typeEnd depth parts = some stop) : ∃ x ∈ parts, x.stop = stop := by
  induction parts generalizing depth with
  | nil => simp [typeEnd] at h
  | cons x rest ih =>
    have hlater : (∃ depth, typeEnd depth rest = some stop) → ∃ y ∈ x :: rest, y.stop = stop := by
      rintro ⟨depth, h⟩
      obtain ⟨y, hy, hstop⟩ := ih h
      exact ⟨y, mem_cons_of_mem _ hy, hstop⟩
    rw [typeEnd] at h
    split at h
    · exact hlater ⟨_, h⟩
    split at h
    · exact hlater ⟨_, h⟩
    split at h
    · exact ⟨x, mem_cons_self, Option.some.inj h⟩
    · exact hlater ⟨_, h⟩

theorem placeholder_bounds {i stop : Nat} {name : Str}
    (h : placeholder b i = some (name, stop)) : i + 1 < stop ∧ stop ≤ b.length := by
  unfold placeholder at h
  simp only at h
  split at h
  · simp at h
  split at h
  · simp at h
  split at h
  next hcolon =>
    obtain ⟨stop', hend, heq⟩ := Option.map_eq_some_iff.mp h
    obtain ⟨-, rfl⟩ := Prod.mk.inj heq
    obtain ⟨x, hx, rfl⟩ := typeEnd_mem hend
    have hbounds := Reader.bounds_of_mem_items hx
    have hname := le_runEnd (p := isNameByte) (b := b) (i := i + 1)
    have hblank := le_runEnd (p := isAsciiWhitespace) (b := b) (i := runEnd isNameByte b (i + 1))
    exact ⟨by omega, hbounds.2.2⟩
  · simp at h

theorem find_getD_bounds (needle : List UInt8) (hi : i ≤ b.length) :
    i ≤ (Cursor.find needle (b.drop i) i).getD b.length ∧
      (Cursor.find needle (b.drop i) i).getD b.length ≤ b.length := by
  cases hfind : Cursor.find needle (b.drop i) i with
  | none => exact ⟨hi, Nat.le_refl _⟩
  | some j =>
    have hbounds := find_bounds hfind
    rw [length_drop] at hbounds
    simp only [Option.getD_some]
    omega

theorem skipHeredoc_bounds (hi : i < b.length) :
    i < skipHeredoc b i ∧ skipHeredoc b i ≤ b.length := by
  unfold skipHeredoc
  simp only
  split
  next h =>
    have hstop := (List.getElem?_eq_some_iff.mp (beq_iff_eq.mp h)).1
    have hrun := le_runEnd (p := isNameByte) (b := b) (i := i + 1)
    have hfind := find_getD_bounds ((b.drop i).take (runEnd isNameByte b (i + 1) + 1 - i))
      (show runEnd isNameByte b (i + 1) + 1 ≤ b.length from hstop)
    omega
  · exact ⟨Nat.lt_succ_self i, hi⟩

theorem blockTurn_eq : blockTurn = Oxyn.blockTurn true := by
  funext depth c next
  simp only [blockTurn, Oxyn.blockTurn, Bool.true_and]

theorem skipBlock_eq (h0 : b[i]? = some Byte.slash)
    (h1 : b[i + 1]? = some Byte.star) : skipBlock b i = skipBlockComment b i true := by
  obtain ⟨hlt, hget⟩ := List.getElem?_eq_some_iff.mp h0
  obtain ⟨hlt', hget'⟩ := List.getElem?_eq_some_iff.mp h1
  unfold skipBlock skipBlockComment
  rw [blockTurn_eq, drop_eq_getElem_cons hlt, hget, drop_eq_getElem_cons hlt', hget']
  rfl

theorem skipLine_bounds {c : UInt8} (h : b[i]? = some c) :
    i < skipLine b i ∧ skipLine b i ≤ b.length := by
  have hi := (List.getElem?_eq_some_iff.mp h).1
  unfold skipLine
  cases hfind : Cursor.find [Byte.lineFeed] (b.drop i) i with
  | none => exact ⟨hi, Nat.le_refl _⟩
  | some j =>
    have hbounds := find_bounds hfind
    simp only [length_drop, length_singleton] at hbounds
    simp only [Option.getD_some]
    omega

theorem turn_bounds {c : UInt8} (hc : b[i]? = some c) :
    i < (turn b i c).2 ∧ (turn b i c).2 ≤ b.length := by
  have hi : i < b.length := (List.getElem?_eq_some_iff.mp hc).1
  have hone : i < i + 1 ∧ i + 1 ≤ b.length := ⟨Nat.lt_succ_self i, hi⟩
  unfold turn
  split
  · rw [skipQuoted_eq]
    exact skipQuoted_bounds hi
  split
  · exact skipLine_bounds hc
  split
  · exact skipLine_bounds hc
  split
  next h =>
    simp only [Bool.and_eq_true, beq_iff_eq] at h
    have h2 := (List.getElem?_eq_some_iff.mp h.2).1
    have hbounds := skipBlockComment_bounds true h2
    rw [← skipBlock_eq (h.1 ▸ hc) h.2] at hbounds
    simp only
    omega
  split
  · exact skipHeredoc_bounds hi
  split
  · split
    next name stop h =>
      have hbounds := placeholder_bounds h
      simp only
      omega
    · exact hone
  · exact hone

theorem part_eq_some {x : Item (Option Str)} :
    part b i = some x ↔ ∃ c, b[i]? = some c ∧ x = ⟨(turn b i c).1, i, (turn b i c).2⟩ := by
  unfold part
  rw [Option.map_eq_some_iff]
  exact exists_congr fun c => and_congr_right fun _ => eq_comm

/-- The loop over the text. -/
def parts (b : List UInt8) : Reader (Option Str) where
  size := b.length
  next := part b
  forward := by
    intro i x h
    obtain ⟨c, hc, rfl⟩ := part_eq_some.mp h
    have hbounds := turn_bounds hc
    exact ⟨Nat.le_refl i, hbounds.1, hbounds.2⟩

def collect : List Str → List (Item (Option Str)) → Except OxynError (List Str)
  | names, [] => .ok names
  | names, x :: rest =>
    match x.kind with
    | none => collect names rest
    | some taken =>
      if taken ∈ names then collect names rest
      else if maxPlaceholders ≤ names.length then
        .error (.config "the statement names too many placeholders to bind".toList)
      else collect (names ++ [taken]) rest

/-- The distinct placeholder names of the text, in the order it first names them. -/
def placeholders (b : List UInt8) : Except OxynError (List Str) := collect [] ((parts b).items 0)

/-! ## The values -/

/-- What other libraries write: a number with a fraction, a document, an identifier, a date, a
time of day and a wall-clock time. -/
structure Formats where
  Float64 : Type
  Json : Type
  Uuid : Type
  NaiveDate : Type
  NaiveTime : Type
  NaiveDateTime : Type
  float64 : Float64 → Str
  json : Json → Str
  hyphenated : Uuid → Str
  /-- `%Y-%m-%d` -/
  date : NaiveDate → Str
  /-- `%H:%M:%S%.f` -/
  time : NaiveTime → Str
  /-- `%Y-%m-%d %H:%M:%S%.f` -/
  timestampNaive : NaiveDateTime → Str

/-- A bound value.  An instant is its seconds since the epoch and the nanoseconds past them. -/
inductive ScalarValue (f : Formats) where
  | null
  | bool (value : Bool)
  | int64 (value : Int)
  | float64 (value : f.Float64)
  | decimal (text : Str)
  | text (text : Str)
  | bytes (value : List UInt8)
  | uuid (value : f.Uuid)
  | date (value : f.NaiveDate)
  | time (value : f.NaiveTime)
  | timestamp (seconds : Int) (nanos : Nat)
  | timestampNaive (value : f.NaiveDateTime)
  | interval (months days nanos : Int)
  | json (value : f.Json)
  | array (values : List (ScalarValue f))

def digits (n : Int) : Str := (toString n).toList

/-- `{n:09}`. -/
def nineDigits (n : Nat) : Str := List.leftpad 9 '0' (digits n)

def refusal (rank : Nat) (what : String) : OxynError :=
  .notSupported ("bound value ".toList ++ digits rank ++ ": ClickHouse cannot receive ".toList ++
    what.toList ++ " as a parameter".toList)

section Values

variable {f : Formats}

/-- The text the server parses as the placeholder's type; `none` is `NULL`. -/
def textOf (rank : Nat) : ScalarValue f → Except OxynError (Option Str)
  | .null => .ok none
  | .bool value => .ok (some (if value then ['1'] else ['0']))
  | .int64 value => .ok (some (digits value))
  | .float64 value => .ok (some (f.float64 value))
  | .decimal text => .ok (some text)
  | .text text => .ok (some text)
  | .json value => .ok (some (f.json value))
  | .uuid value => .ok (some (f.hyphenated value))
  | .date value => .ok (some (f.date value))
  | .time value => .ok (some (f.time value))
  | .timestampNaive value => .ok (some (f.timestampNaive value))
  | .timestamp seconds nanos =>
    if seconds < 0 then .error (refusal rank "an instant before 1970")
    else if nanos = 0 then .ok (some (digits seconds))
    else .ok (some (digits seconds ++ '.' :: nineDigits nanos))
  | .bytes _ => .error (refusal rank "bytes; bind their hex text and read it with `unhex()`")
  | .interval .. => .error (refusal rank "an interval")
  | .array _ => .error (refusal rank "an array")

/-- What a request carries for one bound value. -/
abbrev Bound := Str × Option Str

def countMessage (names values : Nat) : Str :=
  "the statement names ".toList ++ digits names ++
    " distinct `\x7bname:Type\x7d` placeholder(s) and ".toList ++ digits values ++
    " value(s) are bound: ClickHouse binds them by name, in the order ".toList ++
    "the statement first names them".toList

def boundFrom : Nat → List Str → List (ScalarValue f) → Except OxynError (List Bound)
  | rank, name :: names, value :: values => do
      let text ← textOf rank value
      let rest ← boundFrom (rank + 1) names values
      return (name, text) :: rest
  | _, _, _ => .ok []

/-- Binds `values` to the placeholders of `text`, in order. -/
def bind (text : Str) (values : List (ScalarValue f)) : Except OxynError (List Bound) := do
  let names ← placeholders (Text.bytes text)
  if names.length = values.length then boundFrom 1 names values
  else .error (.config (countMessage names.length values.length))

end Values

end Params

end Oxyn.ClickHouse
