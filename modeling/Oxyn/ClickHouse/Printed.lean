/-
# `Oxyn.ClickHouse.Printed` — the types a server has, and how it prints them

A `ServerType` is a type as ClickHouse spells it: `LowCardinality`, `Nested`, a `Point` and the
function of a `SimpleAggregateFunction` are still there, all of which the driver's own type no
longer tells apart (`ServerType.meaning`).
-/
import Oxyn.ClickHouse.Types

namespace Oxyn.ClickHouse

open Text

/-! ## Quoted texts -/

def escape (quote c : Char) : Str :=
  if c = '\\' ∨ c = quote then ['\\', c]
  else if c = Char.ofNat 0 then ['\\', '0']
  else if c = Char.ofNat 8 then ['\\', 'b']
  else if c = Char.ofNat 12 then ['\\', 'f']
  else if c = '\n' then ['\\', 'n']
  else if c = '\r' then ['\\', 'r']
  else if c = '\t' then ['\\', 't']
  else [c]

def quotedText (quote : Char) (text : Str) : Str :=
  quote :: (text.flatMap (escape quote) ++ [quote])

/-- A number in decimal. -/
def intText : Int → Str
  | .ofNat n => Nat.toDigits 10 n
  | .negSucc n => '-' :: Nat.toDigits 10 (n + 1)

/-- A name that needs no quotes. -/
def Bare (name : Str) : Prop :=
  (∀ c ∈ name, Parser.isWordChar c = true) ∧ name.head?.any (fun c => !c.isDigit) = true

def PrintsName (name s : Str) : Prop := s = quotedText '`' name ∨ s = name ∧ Bare name

def joined : List Str → Str
  | [] => []
  | [item] => item
  | item :: rest => item ++ (", ".toList ++ joined rest)

/-- A type with arguments. -/
def call (name : Str) (items : List Str) : Str := name ++ ('(' :: (joined items ++ [')']))

/-- An argument list that is closed where it ends: parentheses in pairs, and quotes closed. -/
inductive Balanced : Str → Prop
  | nil : Balanced []
  | plain {c : Char} {s : Str} : c ∉ ['(', ')', '\'', '`'] → Balanced s → Balanced (c :: s)
  | quoted {quote : Char} {text s : Str} : quote = '\'' ∨ quote = '`' →
      s.head? ≠ some quote → Balanced s → Balanced (quotedText quote text ++ s)
  | nested {inner s : Str} : Balanced inner → Balanced s → Balanced ('(' :: (inner ++ ')' :: s))

/-! ## The types of a server -/

inductive ServerType where
  /-- A type that takes no argument. -/
  | simple (name : Str)
  | interval (unit : Str)
  | json (arguments : Option Str)
  | decimal (precision scale : Nat)
  | fixedString (width : Nat)
  | dateTime (zone : Option Str)
  | dateTime64 (precision : Nat) (zone : Option Str)
  | time64 (precision : Nat)
  | enum8 (labels : List (Str × Int))
  | enum16 (labels : List (Str × Int))
  | nullable (inner : ServerType)
  | lowCardinality (inner : ServerType)
  | array (inner : ServerType)
  | map (key value : ServerType)
  | tuple (elements : List (Option Str × ServerType))
  | nested (elements : List (Option Str × ServerType))
  | simpleAggregate (function : Str) (parameters : List Int) (inner : ServerType)

namespace ServerType

mutual

/-- The types named in the text, the function of an aggregate among them. -/
def nodes : ServerType → Nat
  | .nullable inner => 1 + inner.nodes
  | .lowCardinality inner => 1 + inner.nodes
  | .array inner => 1 + inner.nodes
  | .map key value => 1 + (key.nodes + value.nodes)
  | .tuple elements => 1 + nodesIn elements
  | .nested elements => 1 + nodesIn elements
  | .simpleAggregate _ _ inner => 1 + (1 + inner.nodes)
  | _ => 1

def nodesIn : List (Option Str × ServerType) → Nat
  | [] => 0
  | (_, ty) :: rest => ty.nodes + nodesIn rest

end

mutual

/-- How deep the types are nested: none for a type without arguments. -/
def nesting : ServerType → Nat
  | .nullable inner => inner.nesting + 1
  | .lowCardinality inner => inner.nesting + 1
  | .array inner => inner.nesting + 1
  | .map key value => max key.nesting value.nesting + 1
  | .tuple elements => nestingIn elements + 1
  | .nested elements => nestingIn elements + 1
  | .simpleAggregate _ _ inner => inner.nesting + 1
  | _ => 0

def nestingIn : List (Option Str × ServerType) → Nat
  | [] => 0
  | (_, ty) :: rest => max ty.nesting (nestingIn rest)

end

mutual

def texts : ServerType → List Str
  | .dateTime zone => zone.toList
  | .dateTime64 _ zone => zone.toList
  | .enum8 labels => labels.map Prod.fst
  | .enum16 labels => labels.map Prod.fst
  | .nullable inner => inner.texts
  | .lowCardinality inner => inner.texts
  | .array inner => inner.texts
  | .map key value => key.texts ++ value.texts
  | .tuple elements => textsIn elements
  | .nested elements => textsIn elements
  | .simpleAggregate _ _ inner => inner.texts
  | _ => []

def textsIn : List (Option Str × ServerType) → List Str
  | [] => []
  | (name, ty) :: rest => name.toList ++ (ty.texts ++ textsIn rest)

end

section

variable (read : Str → Str)

mutual

/-- The type in the driver's terms, its texts read by a function. -/
def meaningBy : ServerType → ChType
  | .simple name => (ChType.simple name).getD .nothing
  | .interval _ => .interval
  | .json _ => .json
  | .decimal precision scale => .decimal precision scale
  | .fixedString width => .fixedString width
  | .dateTime zone => .dateTime (zone.map read)
  | .dateTime64 precision zone => .dateTime64 precision (zone.map read)
  | .time64 precision => .time64 precision
  | .enum8 labels => .enum 8 (labels.map fun entry => (read entry.1, entry.2))
  | .enum16 labels => .enum 16 (labels.map fun entry => (read entry.1, entry.2))
  | .nullable inner => .ofNullable inner.meaningBy
  | .lowCardinality inner => inner.meaningBy
  | .array inner => .array inner.meaningBy
  | .map key value => .map key.meaningBy value.meaningBy
  | .tuple elements => .tuple (meaningIn elements)
  | .nested elements => .array (.tuple (meaningIn elements))
  | .simpleAggregate _ _ inner => inner.meaningBy

def meaningIn : List (Option Str × ServerType) → List (Option Str × ChType)
  | [] => []
  | (name, ty) :: rest => (name.map read, ty.meaningBy) :: meaningIn rest

end

end

def meaning (t : ServerType) : ChType := t.meaningBy fun text => text

def IsI64 (z : Int) : Prop := -2 ^ 63 ≤ z ∧ z < 2 ^ 63

mutual

/-- The server's numbers are within their bounds, a tuple has an element, and no map's key may be
`NULL`. -/
def Valid : ServerType → Prop
  | .simple name => (ChType.simple name).isSome = true
  | .interval unit => ∀ c ∈ unit, Parser.isWordChar c = true
  | .json arguments => ∀ text ∈ arguments, Balanced text
  | .decimal precision scale => 1 ≤ precision ∧ precision ≤ 76 ∧ scale ≤ precision
  | .fixedString width => 0 < width ∧ IsI64 width
  | .dateTime64 precision _ => precision ≤ 9
  | .time64 precision => precision ≤ 9
  | .enum8 labels => ∀ entry ∈ labels, -2 ^ 7 ≤ entry.2 ∧ entry.2 < 2 ^ 7
  | .enum16 labels => ∀ entry ∈ labels, -2 ^ 15 ≤ entry.2 ∧ entry.2 < 2 ^ 15
  | .nullable inner => inner.Valid
  | .lowCardinality inner => inner.Valid
  | .array inner => inner.Valid
  | .map key value => key.Valid ∧ value.Valid ∧ key.meaning.isNullable = false
  | .tuple elements => elements ≠ [] ∧ ValidIn elements
  | .nested elements => elements ≠ [] ∧ ValidIn elements
  | .simpleAggregate function parameters inner =>
    Bare function ∧ function ∉ Parser.opaqueArguments ∧ (∀ z ∈ parameters, IsI64 z) ∧ inner.Valid
  | _ => True

def ValidIn : List (Option Str × ServerType) → Prop
  | [] => True
  | (_, ty) :: rest => ty.Valid ∧ ValidIn rest

end

def entryText (entry : Str × Int) : Str :=
  quotedText '\'' entry.1 ++ (" = ".toList ++ intText entry.2)

def functionText (function : Str) (parameters : List Int) : Str :=
  if parameters = [] then function else call function (parameters.map intText)

mutual

def Prints : ServerType → Str → Prop
  | .simple name, s => s = name
  | .interval unit, s => s = "Interval".toList ++ unit
  | .json none, s => s = "JSON".toList
  | .json (some arguments), s => s = "JSON".toList ++ ('(' :: (arguments ++ [')']))
  | .decimal precision scale, s => s = call "Decimal".toList [intText precision, intText scale]
  | .fixedString width, s => s = call "FixedString".toList [intText width]
  | .dateTime none, s => s = "DateTime".toList
  | .dateTime (some zone), s => s = call "DateTime".toList [quotedText '\'' zone]
  | .dateTime64 precision none, s => s = call "DateTime64".toList [intText precision]
  | .dateTime64 precision (some zone), s =>
    s = call "DateTime64".toList [intText precision, quotedText '\'' zone]
  | .time64 precision, s => s = call "Time64".toList [intText precision]
  | .enum8 labels, s => s = call "Enum8".toList (labels.map entryText)
  | .enum16 labels, s => s = call "Enum16".toList (labels.map entryText)
  | .nullable inner, s => ∃ i, inner.Prints i ∧ s = call "Nullable".toList [i]
  | .lowCardinality inner, s => ∃ i, inner.Prints i ∧ s = call "LowCardinality".toList [i]
  | .array inner, s => ∃ i, inner.Prints i ∧ s = call "Array".toList [i]
  | .map key value, s =>
    ∃ k v, key.Prints k ∧ value.Prints v ∧ s = call "Map".toList [k, v]
  | .tuple elements, s => ∃ items, PrintsIn elements items ∧ s = call "Tuple".toList items
  | .nested elements, s => ∃ items, PrintsIn elements items ∧ s = call "Nested".toList items
  | .simpleAggregate function parameters inner, s =>
    ∃ i, inner.Prints i ∧
      s = call "SimpleAggregateFunction".toList [functionText function parameters, i]

/-- The texts of the elements of a tuple. -/
def PrintsIn : List (Option Str × ServerType) → List Str → Prop
  | [], items => items = []
  | (none, ty) :: rest, items =>
    ∃ i others, ty.Prints i ∧ PrintsIn rest others ∧ items = i :: others
  | (some name, ty) :: rest, items =>
    ∃ n i others, PrintsName name n ∧ ty.Prints i ∧ PrintsIn rest others ∧
      items = (n ++ ' ' :: i) :: others

end

end ServerType

end Oxyn.ClickHouse
