/-
# `Oxyn.Redis.Wire` — the RESP reader

What comes from the server is a stream of bytes, in buffers of any size.
-/
import Oxyn.Lib.Lossy
import Oxyn.Lib.Scan
import Mathlib.Data.List.Basic

namespace Oxyn.Resp

/-! ## The data -/

abbrev Bytes := List UInt8

def maxLine : Nat := 2 ^ 20

def maxDepth : Nat := 32

/-- `u64::MAX`. -/
def u64Max : Nat := 2 ^ 64 - 1

/-- Why the reader stopped. -/
inductive WireError where
  | truncated
  | io
  | malformed (text : String)
deriving DecidableEq

inductive Aggregate where
  | array | set | map | push
deriving DecidableEq

/-- The number of elements an aggregate of so many entries holds. -/
def Aggregate.elements (kind : Aggregate) (len : Nat) : Except WireError Nat :=
  if kind = .map then
    if u64Max < 2 * len then .error (.malformed "a map length overflows") else .ok (2 * len)
  else .ok len

/-- The first line of an element: its type, and what the line carries. -/
inductive Head (F : Type) where
  | simple (text : Bytes)
  | error (text : Bytes)
  | bulkError (len : Nat)
  | integer (n : Int)
  | double (x : F)
  | boolean (b : Bool)
  | bigNumber (digits : Bytes)
  | null
  | bulk (len : Nat)
  | verbatim (len : Nat)
  | aggregate (kind : Aggregate) (len : Nat)

inductive RawHead (F : Type) where
  | head (head : Head F)
  | attribute (len : Nat)

/-- A string kept up to a bound. -/
structure Clipped where
  bytes : Bytes
  fullLen : Nat
deriving DecidableEq

/-- One element, read whole within a budget. -/
inductive Value (F : Type) where
  | null
  | simple (text : Bytes)
  | bulk (text : Clipped)
  | verbatim (format : Bytes) (text : Clipped)
  | integer (n : Int)
  | double (x : F)
  | boolean (b : Bool)
  | bigNumber (digits : Bytes)
  | error (text : Bytes)
  | list (kind : Aggregate) (items : List (Value F))
  | map (pairs : List (Value F × Value F))
  | elided (kind : Aggregate) (len : Nat)

/-- `f64`, as the standard library reads it. -/
structure Floats (F : Type) where
  parse : Bytes → Option F
  infinity : F
  negInfinity : F
  nan : F

/-! ## What a line carries -/

def isDigit (b : UInt8) : Bool := 48 ≤ b && b ≤ 57

def decimal (digits : Bytes) : Nat := digits.foldl (fun n b => 10 * n + (b.toNat - 48)) 0

def isDigits (text : Bytes) : Bool := !text.isEmpty && text.all isDigit

/-- A length; `-1` is the null of RESP2. -/
def length (text : Bytes) : Except WireError (Option Nat) :=
  if text = [63] then
    .error (.malformed "a streamed RESP3 type, which this driver does not read")
  else if text = [45, 49] then .ok none
  else if !isDigits text then .error (.malformed "a length that is not digits")
  else if u64Max < decimal text then .error (.malformed "a length beyond 64 bits")
  else .ok (some (decimal text))

def requiredLength (text : Bytes) : Except WireError Nat :=
  match length text with
  | .error e => .error e
  | .ok none => .error (.malformed "a null where an aggregate length belongs")
  | .ok (some n) => .ok n

/-- `str::parse::<i64>`, of a text that begins with no `+`. -/
def parseI64 : Bytes → Option Int
  | 45 :: digits =>
    if isDigits digits && decimal digits ≤ 2 ^ 63 then some (-decimal digits) else none
  | digits => if isDigits digits && decimal digits < 2 ^ 63 then some (decimal digits) else none

/-- `strip_prefix(b"+")`, or the whole. -/
def stripPlus : Bytes → Bytes
  | 43 :: rest => rest
  | text => text

def parseInteger (text : Bytes) : Except WireError Int :=
  match parseI64 (stripPlus text) with
  | some n => .ok n
  | none => .error (.malformed "an integer outside the signed 64-bit range")

def inDouble (b : UInt8) : Bool :=
  isDigit b || b == 43 || b == 45 || b == 46 || b == 101 || b == 69

/-- `std::str::from_utf8`, does it accept? -/
def isUtf8 (text : Bytes) : Bool := Text.bytes (Text.fromUtf8Lossy text) = text

section

variable {F : Type} (floats : Floats F)

def parseDouble (text : Bytes) : Except WireError F :=
  if !isUtf8 text then .error (.malformed "a double that is not ASCII")
  else if text = [105, 110, 102] || text = [43, 105, 110, 102] then .ok floats.infinity
  else if text = [45, 105, 110, 102] then .ok floats.negInfinity
  else if text = [110, 97, 110] || text = [45, 110, 97, 110] then .ok floats.nan
  else if text.isEmpty || !text.all inDouble then
    .error (.malformed "a double that is not a number")
  else
    match floats.parse text with
    | some x => .ok x
    | none => .error (.malformed "a double that is not a number")

/-- Without its sign. -/
def unsigned : Bytes → Bytes
  | 43 :: rest => rest
  | 45 :: rest => rest
  | text => text

def parseBigNumber (text : Bytes) : Except WireError Bytes :=
  if isDigits (unsigned text) then .ok text
  else .error (.malformed "a big number that is not digits")

def orNull (len : Except WireError (Option Nat)) (head : Nat → Head F) :
    Except WireError (RawHead F) :=
  len.map fun len => .head (len.elim .null head)

def headOf (marker : UInt8) (rest : Bytes) : Except WireError (RawHead F) :=
  if marker = 43 then .ok (.head (.simple rest))
  else if marker = 45 then .ok (.head (.error rest))
  else if marker = 58 then (parseInteger rest).map fun n => .head (.integer n)
  else if marker = 44 then (parseDouble floats rest).map fun x => .head (.double x)
  else if marker = 35 then
    if rest = [116] then .ok (.head (.boolean true))
    else if rest = [102] then .ok (.head (.boolean false))
    else .error (.malformed "a boolean that is neither t nor f")
  else if marker = 40 then (parseBigNumber rest).map fun digits => .head (.bigNumber digits)
  else if marker = 95 && rest.isEmpty then .ok (.head .null)
  else if marker = 36 then orNull (length rest) .bulk
  else if marker = 33 then
    match length rest with
    | .error e => .error e
    | .ok none => .error (.malformed "a null error")
    | .ok (some n) => .ok (.head (.bulkError n))
  else if marker = 61 then
    match length rest with
    | .error e => .error e
    | .ok none => .error (.malformed "a null verbatim string")
    | .ok (some n) => .ok (.head (.verbatim n))
  else if marker = 42 then orNull (length rest) (.aggregate .array)
  else if marker = 126 then (requiredLength rest).map fun n => .head (.aggregate .set n)
  else if marker = 37 then (requiredLength rest).map fun n => .head (.aggregate .map n)
  else if marker = 62 then (requiredLength rest).map fun n => .head (.aggregate .push n)
  else if marker = 124 then (requiredLength rest).map .attribute
  else .error (.malformed "a byte that starts no RESP type")

def lineHead : Bytes → Except WireError (RawHead F)
  | [] => .error (.malformed "an empty line where a type byte belongs")
  | marker :: rest => headOf floats marker rest

end

/-! ## The reader -/

/-- Where the bytes come from: a line, a payload of which the first bytes are kept, one byte, the
byte that comes next, and what there is up to a line feed. A line leaves less to read. -/
structure Source (σ : Type) where
  line : Scan σ WireError Bytes
  payload : Nat → Nat → Scan σ WireError Bytes
  byte : Scan σ WireError UInt8
  first : σ → Option UInt8
  longLine : Nat → Scan σ WireError Clipped
  size : σ → Nat
  line_uses : Scan.Uses size line
  payload_within : ∀ len keep, Scan.Within size (payload len keep)
  byte_within : Scan.Within size byte

def behindAttribute (pending len : Nat) : Except WireError Nat := do
  let pairs ← Aggregate.elements .map len
  if u64Max < pending + pairs + 1 then .error (.malformed "an attribute length overflows")
  else .ok (pending + pairs + 1)

def behindAggregate (pending : Nat) (kind : Aggregate) (len : Nat) : Except WireError Nat := do
  let items ← kind.elements len
  if u64Max < pending + items then .error (.malformed "an aggregate length overflows")
  else .ok (pending + items)

def splitVerbatim (whole : Clipped) : Except WireError (Value F) :=
  match whole.bytes with
  | a :: b :: c :: 58 :: rest => .ok (.verbatim [a, b, c] ⟨rest, whole.fullLen - 4⟩)
  | _ => .error (.malformed "a verbatim string without its format")

section

variable {F σ : Type} (floats : Floats F) (src : Source σ)

def rawHead : Scan σ WireError (RawHead F) := do
  let line ← src.line
  Scan.answer (lineHead floats line)

/-- The CRLF behind a payload. -/
def terminator : Scan σ WireError Unit := do
  let cr ← src.byte
  let lf ← src.byte
  if cr = 13 ∧ lf = 10 then pure ()
  else Scan.answer (.error (.malformed "a bulk string not followed by CRLF"))

/-- A payload of `len` bytes and its terminator, of which the first `keep` are kept. -/
def bulk (len keep : Nat) : Scan σ WireError Clipped := do
  let bytes ← src.payload len (min len keep)
  let _ ← terminator src
  pure ⟨bytes, len⟩

/-- One turn of `skip`: one element less is pending, and those it holds more. -/
def skipHead (pending : Nat) : RawHead F → Scan σ WireError Nat
  | .attribute len => Scan.answer (behindAttribute pending len)
  | .head (.bulk len) => do
      let _ ← bulk src len 0
      pure pending
  | .head (.verbatim len) => do
      let _ ← bulk src len 0
      pure pending
  | .head (.bulkError len) => do
      let _ ← bulk src len 0
      pure pending
  | .head (.aggregate kind len) => Scan.answer (behindAggregate pending kind len)
  | .head _ => pure pending

def skipTurn : Nat → Scan σ WireError (Nat ⊕ Unit)
  | 0 => pure (.inr ())
  | pending + 1 => do
      let head ← rawHead floats src
      let left ← skipHead src pending head
      pure (.inl left)

theorem rawHead_uses : Scan.Uses src.size (rawHead floats src) :=
  src.line_uses.bind fun _ => Scan.Within.answer _

theorem terminator_within : Scan.Within src.size (terminator src) := by
  refine src.byte_within.bind fun cr => src.byte_within.bind fun lf => ?_
  split
  · exact Scan.Within.answer _
  · exact Scan.Within.answer _

theorem bulk_within (len keep : Nat) : Scan.Within src.size (bulk src len keep) :=
  (src.payload_within _ _).bind fun _ =>
    (terminator_within src).bind fun _ => Scan.Within.answer _

theorem skipHead_within (pending : Nat) (head : RawHead F) :
    Scan.Within src.size (skipHead src pending head) := by
  have hbulk : ∀ len, Scan.Within src.size (do
      let _ ← bulk src len 0
      pure pending) :=
    fun len => (bulk_within src len 0).bind fun _ => Scan.Within.answer _
  unfold skipHead
  split
  · exact Scan.Within.answer _
  · exact hbulk _
  · exact hbulk _
  · exact hbulk _
  · exact Scan.Within.answer _
  · exact Scan.Within.answer _

theorem skipTurn_shrinks : Scan.Shrinks src.size (skipTurn floats src) := by
  intro pending left s s' h
  cases pending with
  | zero => cases h
  | succ pending =>
    refine (rawHead_uses floats src).bind (fun head => ?_) _ _ _ h
    exact (skipHead_within src pending head).bind fun _ => Scan.Within.answer _

theorem skipTurn_within (pending : Nat) : Scan.Within src.size (skipTurn floats src pending) := by
  cases pending with
  | zero => exact Scan.Within.answer _
  | succ pending =>
    exact (rawHead_uses floats src).within.bind fun head =>
      (skipHead_within src pending head).bind fun _ => Scan.Within.answer _

/-- Reads and discards so many whole elements. -/
def skip (elements : Nat) : Scan σ WireError Unit :=
  Scan.loop src.size (skipTurn floats src) (skipTurn_shrinks floats src) elements

theorem skip_within (elements : Nat) : Scan.Within src.size (skip floats src elements) :=
  Scan.Within.loop (skipTurn_within floats src) elements

def headTurn : Unit → Scan σ WireError (Unit ⊕ Head F) := fun _ => do
  match ← rawHead floats src with
  | .attribute len => do
      let pairs ← Scan.answer (Aggregate.elements .map len)
      let _ ← skip floats src pairs
      pure (.inl ())
  | .head head => pure (.inr head)

theorem headTurn_uses (a : Unit) : Scan.Uses src.size (headTurn floats src a) := by
  refine (rawHead_uses floats src).bind fun raw => ?_
  match raw with
  | .attribute len =>
    exact (Scan.Within.answer _).bind fun pairs =>
      (skip_within floats src pairs).bind fun _ => Scan.Within.answer _
  | .head head => exact Scan.Within.answer _

theorem headTurn_shrinks : Scan.Shrinks src.size (headTurn floats src) :=
  fun a s a' s' h => headTurn_uses floats src a s (.inl a') s' h

/-- The next head, attributes skipped. -/
def head : Scan σ WireError (Head F) :=
  Scan.loop src.size (headTurn floats src) (headTurn_shrinks floats src) ()

theorem head_uses : Scan.Uses src.size (head floats src) :=
  Scan.Uses.loop (headTurn_uses floats src) ()

/-! ### Heads, by their line -/

section

variable {floats src} {s s' : σ} {line : Bytes}

theorem rawHead_of_line {raw : RawHead F} (hline : src.line s = (.ok line, s'))
    (hhead : lineHead floats line = .ok raw) : rawHead floats src s = (.ok raw, s') := by
  show (src.line >>= fun line => Scan.answer (lineHead floats line)) s = _
  rw [Scan.bind_ok hline]
  show (lineHead floats line, s') = _
  rw [hhead]

theorem head_of_line {h : Head F} (hline : src.line s = (.ok line, s'))
    (hhead : lineHead floats line = .ok (.head h)) : head floats src s = (.ok h, s') := by
  refine Scan.loop_leave ?_
  show (rawHead floats src >>= _) s = _
  rw [Scan.bind_ok (rawHead_of_line hline hhead)]
  rfl

theorem head_of_no_line {e : WireError} (hline : src.line s = (.error e, s')) :
    head floats src s = (.error e, s') := by
  have hraw : rawHead floats src s = (.error e, s') := by
    show (src.line >>= fun line => Scan.answer (lineHead floats line)) s = _
    rw [Scan.bind_error hline]
  refine Scan.loop_error ?_
  show (rawHead floats src >>= _) s = _
  rw [Scan.bind_error hraw]

end

/-! ## Elements

An element is read with the budget left, and answers with what it leaves of it.
-/

section

variable (read : Nat → Scan σ WireError (Value F × Nat))

def items (kind : Aggregate) : Nat → Nat → Scan σ WireError (List (Value F) × Nat)
  | 0, budget => pure ([], budget)
  | remaining + 1, budget =>
    if budget = 0 then do
      let _ ← skip floats src (remaining + 1)
      pure ([.elided kind (remaining + 1)], budget)
    else do
      let item ← read budget
      let others ← items kind remaining item.2
      pure (item.1 :: others.1, others.2)

def pairs : Nat → Nat → Scan σ WireError (List (Value F × Value F) × Nat)
  | 0, budget => pure ([], budget)
  | remaining + 1, budget =>
    if budget = 0 then do
      let elements ← Scan.answer (Aggregate.elements .map (remaining + 1))
      let _ ← skip floats src elements
      pure ([(.elided .map (remaining + 1), .null)], budget)
    else do
      let key ← read budget
      let value ← read key.2
      let others ← pairs remaining value.2
      pure ((key.1, value.1) :: others.1, others.2)

def aggregate (kind : Aggregate) (len budget : Nat) : Scan σ WireError (Value F × Nat) :=
  if kind = .map then do
    let pairs ← pairs floats src read len budget
    pure (.map pairs.1, pairs.2)
  else do
    let items ← items floats src read kind len budget
    pure (.list kind items.1, items.2)

end

/-- An aggregate read and discarded. -/
def elide (kind : Aggregate) (len budget : Nat) : Scan σ WireError (Value F × Nat) := do
  let elements ← Scan.answer (kind.elements len)
  let _ ← skip floats src elements
  pure (.elided kind len, budget)

/-- What is behind a head, an aggregate being read as `nested` says. -/
def keep (nested : Aggregate → Nat → Nat → Scan σ WireError (Value F × Nat)) (budget : Nat) :
    Head F → Scan σ WireError (Value F × Nat)
  | .simple text => pure (.simple text, budget - text.length)
  | .error text => pure (.error text, budget - text.length)
  | .bulkError len => do
      let text ← bulk src len (min budget maxLine)
      pure (.error text.bytes, budget - text.bytes.length)
  | .integer n => pure (.integer n, budget)
  | .double x => pure (.double x, budget)
  | .boolean b => pure (.boolean b, budget)
  | .bigNumber digits => pure (.bigNumber digits, budget - digits.length)
  | .null => pure (.null, budget)
  | .bulk len => do
      let text ← bulk src len budget
      pure (.bulk text, budget - text.bytes.length)
  | .verbatim len => do
      let whole ← bulk src len (min (budget + 4) u64Max)
      let value ← Scan.answer (splitVerbatim whole)
      pure (value, budget - whole.bytes.length)
  | .aggregate kind len => nested kind len budget

/-- The element's own cost is charged behind its bytes. -/
def charged (cost : Nat) (p : Scan σ WireError (Value F × Nat)) :
    Scan σ WireError (Value F × Nat) := do
  let read ← p
  pure (read.1, read.2 - cost)

/-- What is behind a head, with room for so many levels; without room or budget an aggregate is
skipped. -/
def element (cost : Nat) : Nat → Head F → Nat → Scan σ WireError (Value F × Nat)
  | 0, h, budget => charged cost (keep src (elide floats src) budget h)
  | room + 1, h, budget =>
    charged cost (keep src (fun kind len budget =>
      if budget = 0 then elide floats src kind len budget
      else
        aggregate floats src (fun budget => do
          let h ← head floats src
          element cost room h budget) kind len budget) budget h)

def restOf (cost : Nat) (h : Head F) (budget : Nat) : Scan σ WireError (Value F × Nat) :=
  element floats src cost maxDepth h budget

def value (cost budget : Nat) : Scan σ WireError (Value F × Nat) := do
  let h ← head floats src
  restOf floats src cost h budget

/-- As `value`, but a simple string may be longer than a line; what is kept of it is cut. -/
def longLineValue (cost keep budget : Nat) : Scan σ WireError (Value F × Nat) := fun s =>
  if src.first s = some 43 then
    (do
      let _ ← src.byte
      let text ← src.longLine keep
      pure (Value.bulk text, budget)) s
  else value floats src cost budget s

end

/-! ## What is sent -/

def decimalText (n : Nat) : Bytes :=
  if n < 10 then [UInt8.ofNat (48 + n)]
  else decimalText (n / 10) ++ [UInt8.ofNat (48 + n % 10)]

/-- A command as the server expects it: an array of bulk strings. -/
def encode (argv : List Bytes) : Bytes :=
  [42] ++ decimalText argv.length ++ [13, 10] ++
    argv.flatMap fun arg => [36] ++ decimalText arg.length ++ [13, 10] ++ arg ++ [13, 10]

end Oxyn.Resp
