/-
# `Oxyn.Redis.Encoding` — what a RESP value is, and how it is written

The values of RESP2 and RESP3 as a server sends them, whole (`Tree`), and the bytes a sequence of
them may be written as (`Encodes`): headers in any accepted spelling, attributes in front of any
element.
-/
import Oxyn.Redis.Wire

namespace Oxyn.Resp

/-! ## Values, whole -/

inductive Tree (F : Type) where
  | null
  | simple (text : Bytes)
  | error (text : Bytes)
  | bulkError (text : Bytes)
  | integer (n : Int)
  | double (x : F)
  | boolean (b : Bool)
  | bigNumber (digits : Bytes)
  | bulk (text : Bytes)
  | verbatim (format text : Bytes)
  | aggregate (kind : Aggregate) (items : List (Tree F))

/-- The elements of an entry: a map has two for each. -/
def Aggregate.arity : Aggregate → Nat
  | .map => 2
  | _ => 1

def Aggregate.marker : Aggregate → UInt8
  | .array => 42
  | .set => 126
  | .map => 37
  | .push => 62

def pairUp {α : Type} : List α → List (α × α)
  | a :: b :: rest => (a, b) :: pairUp rest
  | _ => []

def ofItems {F : Type} (kind : Aggregate) (items : List (Value F)) : Value F :=
  if kind = .map then .map (pairUp items) else .list kind items

mutual

/-- The value a tree is; an error's text is kept up to `MAX_LINE`. -/
def Tree.value {F : Type} : Tree F → Value F
  | .null => .null
  | .simple text => .simple text
  | .error text => .error text
  | .bulkError text => .error (text.take maxLine)
  | .integer n => .integer n
  | .double x => .double x
  | .boolean b => .boolean b
  | .bigNumber digits => .bigNumber digits
  | .bulk text => .bulk ⟨text, text.length⟩
  | .verbatim format text => .verbatim format ⟨text, text.length⟩
  | .aggregate kind items => ofItems kind (Tree.values items)

def Tree.values {F : Type} : List (Tree F) → List (Value F)
  | [] => []
  | t :: ts => t.value :: Tree.values ts

end

mutual

def Tree.nesting {F : Type} : Tree F → Nat
  | .aggregate _ items => Tree.nestings items + 1
  | _ => 0

def Tree.nestings {F : Type} : List (Tree F) → Nat
  | [] => 0
  | t :: ts => max t.nesting (Tree.nestings ts)

end

/-! ## What is kept of a tree -/

mutual

/-- A tree of which strings may have lost their end, and aggregates their last entries or all
of them; what is gone is counted. -/
inductive Trimmed {F : Type} : Tree F → Value F → Prop
  | whole (t : Tree F) : Trimmed t t.value
  | bulkError (text : Bytes) (n : Nat) : Trimmed (.bulkError text) (.error (text.take n))
  | bulk (text : Bytes) (n : Nat) : Trimmed (.bulk text) (.bulk ⟨text.take n, text.length⟩)
  | verbatim (format text : Bytes) (n : Nat) :
      Trimmed (.verbatim format text) (.verbatim format ⟨text.take n, text.length⟩)
  | elided (kind : Aggregate) (items : List (Tree F)) :
      Trimmed (.aggregate kind items) (.elided kind (items.length / kind.arity))
  | list {kind : Aggregate} {items : List (Tree F)} {values : List (Value F)} :
      kind ≠ .map → TrimmedItems kind items values →
        Trimmed (.aggregate kind items) (.list kind values)
  | map {items : List (Tree F)} {values : List (Value F × Value F)} :
      TrimmedPairs items values → Trimmed (.aggregate .map items) (.map values)

inductive TrimmedItems {F : Type} : Aggregate → List (Tree F) → List (Value F) → Prop
  | nil {kind : Aggregate} : TrimmedItems kind [] []
  | cons {kind : Aggregate} {t : Tree F} {v : Value F} {ts : List (Tree F)}
      {vs : List (Value F)} :
      Trimmed t v → TrimmedItems kind ts vs → TrimmedItems kind (t :: ts) (v :: vs)
  | rest {kind : Aggregate} (t : Tree F) (ts : List (Tree F)) :
      TrimmedItems kind (t :: ts) [.elided kind (ts.length + 1)]

inductive TrimmedPairs {F : Type} : List (Tree F) → List (Value F × Value F) → Prop
  | nil {ts : List (Tree F)} : ts.length < 2 → TrimmedPairs ts []
  | cons {t t' : Tree F} {v v' : Value F} {ts : List (Tree F)} {vs : List (Value F × Value F)} :
      Trimmed t v → Trimmed t' v' → TrimmedPairs ts vs →
        TrimmedPairs (t :: t' :: ts) ((v, v') :: vs)
  | rest (t t' : Tree F) (ts : List (Tree F)) :
      TrimmedPairs (t :: t' :: ts) [(.elided .map (ts.length / 2 + 1), .null)]

end

/-! ## How values are written -/

/-- A line a server may send: no line feed in it, and shorter than `MAX_LINE`. -/
def Line (line : Bytes) : Prop := 10 ∉ line ∧ line.length < maxLine

def Counts (n : Nat) (digits : Bytes) : Prop := isDigits digits = true ∧ decimal digits = n

inductive IntegerText : Int → Bytes → Prop
  | plain {digits : Bytes} : isDigits digits = true → decimal digits < 2 ^ 63 →
      IntegerText (decimal digits) digits
  | plus {digits : Bytes} : isDigits digits = true → decimal digits < 2 ^ 63 →
      IntegerText (decimal digits) (43 :: digits)
  | minus {digits : Bytes} : isDigits digits = true → decimal digits ≤ 2 ^ 63 →
      IntegerText (-decimal digits) (45 :: digits)

/-- A text of a double: `inf`, `nan`, or a number as the standard library reads it. -/
inductive DoubleText {F : Type} (floats : Floats F) : F → Bytes → Prop
  | inf : DoubleText floats floats.infinity [105, 110, 102]
  | plusInf : DoubleText floats floats.infinity [43, 105, 110, 102]
  | minusInf : DoubleText floats floats.negInfinity [45, 105, 110, 102]
  | nan : DoubleText floats floats.nan [110, 97, 110]
  | minusNan : DoubleText floats floats.nan [45, 110, 97, 110]
  | number {text : Bytes} {x : F} : text ≠ [] → text.all inDouble = true →
      floats.parse text = some x → DoubleText floats x text

section

variable {F : Type} (floats : Floats F)

/-- The line of a value that holds no others, and the bytes behind it. -/
inductive Scalar : Tree F → Bytes → Bytes → Prop
  | null : Scalar .null [95] []
  | nullBulk : Scalar .null [36, 45, 49] []
  | nullArray : Scalar .null [42, 45, 49] []
  | simple (text : Bytes) : Scalar (.simple text) (43 :: text) []
  | error (text : Bytes) : Scalar (.error text) (45 :: text) []
  | integer {n : Int} {text : Bytes} : IntegerText n text → Scalar (.integer n) (58 :: text) []
  | double {x : F} {text : Bytes} : DoubleText floats x text →
      Scalar (.double x) (44 :: text) []
  | boolean (b : Bool) : Scalar (.boolean b) [35, if b then 116 else 102] []
  | bigNumber {text : Bytes} : isDigits (unsigned text) = true →
      Scalar (.bigNumber text) (40 :: text) []
  | bulk {text digits : Bytes} : Counts text.length digits →
      Scalar (.bulk text) (36 :: digits) (text ++ [13, 10])
  | bulkError {text digits : Bytes} : Counts text.length digits →
      Scalar (.bulkError text) (33 :: digits) (text ++ [13, 10])
  | verbatim {a b c : UInt8} {text digits : Bytes} : Counts (text.length + 4) digits →
      Scalar (.verbatim [a, b, c] text) (61 :: digits) (a :: b :: c :: 58 :: text ++ [13, 10])

/-- The bytes a sequence of values may be written as. -/
inductive Encodes : List (Tree F) → Bytes → Prop
  | nil : Encodes [] []
  | scalar {t : Tree F} {line payload rest : Bytes} {ts : List (Tree F)} :
      Scalar floats t line payload → Line line → Encodes ts rest →
        Encodes (t :: ts) (line ++ [13, 10] ++ payload ++ rest)
  | annotated {attributes : List (Tree F)} {n : Nat} {digits inner rest : Bytes} {t : Tree F}
      {ts : List (Tree F)} :
      Counts n digits → Line (124 :: digits) → attributes.length = 2 * n →
        Encodes attributes inner → Encodes (t :: ts) rest →
          Encodes (t :: ts) (124 :: digits ++ [13, 10] ++ inner ++ rest)
  | aggregate {kind : Aggregate} {items : List (Tree F)} {len : Nat} {digits inner rest : Bytes}
      {ts : List (Tree F)} :
      Counts len digits → Line (kind.marker :: digits) → items.length = kind.arity * len →
        Encodes items inner → Encodes ts rest →
          Encodes (.aggregate kind items :: ts)
            (kind.marker :: digits ++ [13, 10] ++ inner ++ rest)

end

end Oxyn.Resp
