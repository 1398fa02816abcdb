/-
# `Oxyn.ClickHouse.Types` — the types a result announces

A column's type comes as text, and how many bytes a value takes is known from its type alone.
`parse` reads the text as the driver does, into a `ChType`.
-/
import Oxyn.Lib.Scan
import Oxyn.Lib.Text

namespace Oxyn.ClickHouse

open Text List

def maxDepth : Nat := 64

def maxNodes : Nat := 100000

/-- A ClickHouse type, as far as decoding it needs. -/
inductive ChType where
  | bool
  | int (bits : Nat)
  | uint (bits : Nat)
  | float32
  | float64
  | bfloat16
  | decimal (precision scale : Nat)
  | string
  | fixedString (width : Nat)
  | uuid
  | date
  | date32
  | dateTime (zone : Option Str)
  | dateTime64 (precision : Nat) (zone : Option Str)
  | time
  | time64 (precision : Nat)
  | enum (bits : Nat) (labels : List (Str × Int))
  | ipv4
  | ipv6
  | interval
  | json
  | nothing
  | nullable (inner : ChType)
  | array (inner : ChType)
  | tuple (elements : List (Option Str × ChType))
  | map (key value : ChType)
  | unsupported (reason : Str)

namespace ChType

/-- Whether a value of this type may be `NULL`. -/
def isNullable : ChType → Bool
  | .nullable _ => true
  | .nothing => true
  | _ => false

end ChType

/-! ## The parser -/

/-- What is left of a type's text, and the types read so far. -/
structure Parser where
  rest : Str
  nodes : Nat

/-- Why a type name could not be read at all. -/
structure TypeSyntaxError where
  reason : String
deriving DecidableEq, Repr

/-- One argument of a type: a nested type, named in a tuple, a number, a quoted string, or an
entry of an enum. -/
inductive Arg where
  | type (name : Option Str) (ty : ChType)
  | number (value : Int)
  | text (text : Str)
  | entry (label : Str) (value : Int)

abbrev Parse (α : Type) := Scan Parser TypeSyntaxError α

namespace Parser

def size (p : Parser) : Nat := p.rest.length

def fail {α : Type} (reason : String) : Parse α := Scan.answer (.error ⟨reason⟩)

/-- `ok_or`. -/
def orFail {α : Type} (x : Option α) (reason : String) : Parse α :=
  match x with
  | some a => pure a
  | none => fail reason

def eat (c : Char) : Parse Bool := fun p =>
  match trimStart p.rest with
  | [] => (.ok false, { p with rest := [] })
  | d :: rest =>
    if d = c then (.ok true, { p with rest }) else (.ok false, { p with rest := d :: rest })

/-- What a character stands for behind a backslash. -/
def unescape (c : Char) : Char :=
  if c = 'n' then '\n' else if c = 't' then '\t' else if c = 'r' then '\r'
  else if c = '0' then Char.ofNat 0 else c

/-- The body of a quoted text whose opening quote was consumed, and what is behind its closing
quote. -/
def quoted (quote : Char) : Str → Option (Str × Str)
  | [] => none
  | [c] => if c ≠ '\\' ∧ c = quote then some ([], []) else none
  | c :: d :: rest =>
    if c = '\\' then (quoted quote rest).map fun q => (unescape d :: q.1, q.2)
    else if c = quote then
      if d = quote then (quoted quote rest).map fun q => (quote :: q.1, q.2)
      else some ([], d :: rest)
    else (quoted quote (d :: rest)).map fun q => (c :: q.1, q.2)

def isWordChar (c : Char) : Bool := c.isAlphanum || c = '_'

def word : Parse (Option Str) := fun p =>
  match trimStart p.rest with
  | '`' :: rest =>
    match quoted '`' rest with
    | some (name, rest) => (.ok (some name), { p with rest })
    | none => (.ok none, { p with rest })
  | rest =>
    if rest.takeWhile isWordChar = [] then (.ok none, { p with rest })
    else (.ok (some (rest.takeWhile isWordChar)), { p with rest := rest.dropWhile isWordChar })

def decimalOf (digits : Str) : Nat :=
  digits.foldl (fun v c => v * 10 + (c.toNat - '0'.toNat)) 0

/-- A number's text without its sign. -/
def unsigned (s : Str) : Str := if s.head? = some '-' then s.tail else s

/-- The number at the start of a text. -/
def valueAt (s : Str) : Int :=
  (if s.head? = some '-' then -1 else 1) * decimalOf ((unsigned s).takeWhile Char.isDigit)

/-- An `i64`, in decimal. -/
def number : Parse (Option Int) := fun p =>
  let rest := trimStart p.rest
  if (unsigned rest).takeWhile Char.isDigit = [] ∨ valueAt rest < -2 ^ 63 ∨ 2 ^ 63 ≤ valueAt rest then
    (.ok none, { p with rest })
  else (.ok (some (valueAt rest)), { p with rest := (unsigned rest).dropWhile Char.isDigit })

theorem quoted_suffix {quote : Char} {s out rest : Str} (h : quoted quote s = some (out, rest)) :
    rest <:+ s := by
  fun_induction quoted quote s generalizing out rest with
  | case1 => cases h
  | case2 c hc =>
    cases h
    exact suffix_cons ..
  | case3 c hc => cases h
  | case4 d rest' ih | case5 rest' hc ih =>
    obtain ⟨⟨out', rest''⟩, hq, heq⟩ := Option.map_eq_some_iff.mp h
    cases heq
    exact (ih hq).trans ((suffix_cons _ _).trans (suffix_cons _ _))
  | case6 d rest' hc hd =>
    cases h
    exact suffix_cons ..
  | case7 c d rest' hc hquote ih =>
    obtain ⟨⟨out', rest''⟩, hq, heq⟩ := Option.map_eq_some_iff.mp h
    cases heq
    exact (ih hq).trans (suffix_cons ..)

/-- Up to the `)` that closes an already opened `(`: what is behind it. -/
def skipBalanced (nested : Nat) (s : Str) : Except TypeSyntaxError Str :=
  match s with
  | [] => .error ⟨"an unterminated argument list"⟩
  | c :: rest =>
    if c = '(' then skipBalanced (nested + 1) rest
    else if c = ')' then
      if nested ≤ 1 then .ok rest else skipBalanced (nested - 1) rest
    else if c = '\'' ∨ c = '`' then
      match _hq : quoted c rest with
      | none => .error ⟨"an unterminated string"⟩
      | some (_, rest') => skipBalanced nested rest'
    else skipBalanced nested rest
termination_by s.length
decreasing_by
  · exact Nat.lt_succ_self _
  · exact Nat.lt_succ_self _
  · exact Nat.lt_succ_of_le (quoted_suffix _hq).length_le
  · exact Nat.lt_succ_self _

/-! ### No step gives back what it read -/

theorem trimStart_suffix (s : Str) : trimStart s <:+ s := dropWhile_suffix _

theorem suffix_of_cons {c : Char} {s t : Str} (h : trimStart s = c :: t) : t <:+ s :=
  (suffix_cons c t).trans (h ▸ trimStart_suffix s)

theorem eat_cases {c : Char} {p p' : Parser} {b : Bool} (h : eat c p = (.ok b, p')) :
    p'.nodes = p.nodes ∧ p'.size + b.toNat ≤ p.size := by
  have hle := (trimStart_suffix p.rest).length_le
  rw [eat] at h
  split at h
  next heq =>
    cases h
    exact ⟨rfl, Nat.zero_le _⟩
  next d rest heq =>
    rw [heq] at hle
    split at h
    · cases h
      exact ⟨rfl, hle⟩
    · cases h
      exact ⟨rfl, hle⟩

theorem unsigned_suffix (s : Str) : unsigned s <:+ s := by
  unfold unsigned
  split
  · exact tail_suffix s
  · exact suffix_refl s

/-- A relation between what a step leaves and what it was given, which holds of a text and its
end. -/
structure Shorter (R : Parser → Parser → Prop) : Prop where
  of_suffix : ∀ {s' s : Parser}, s'.rest <:+ s.rest → R s' s
  trans : ∀ {a b c : Parser}, R a b → R b c → R a c

theorem size_shorter : Shorter fun s' s => s'.size ≤ s.size := ⟨IsSuffix.length_le, Nat.le_trans⟩

section Leads

variable {R : Parser → Parser → Prop} (hR : Shorter R) {α β : Type}
include hR

theorem Shorter.answer (x : Except TypeSyntaxError α) : Scan.Leads R (Scan.answer x : Parse α) :=
  .answer (fun _ => hR.of_suffix (suffix_refl _)) x

theorem Shorter.bind {p : Parse α} {f : α → Parse β} (hp : Scan.Leads R p)
    (hf : ∀ a, Scan.Leads R (f a)) : Scan.Leads R (p >>= f) :=
  .bind (R := R) hR.trans hp hf

theorem Shorter.map {p : Parse α} (hp : Scan.Leads R p) (f : α → β) : Scan.Leads R (f <$> p) :=
  hR.bind hp fun a => hR.answer (.ok (f a))

theorem orFail_leads (x : Option α) (reason : String) : Scan.Leads R (orFail x reason) := by
  cases x with
  | none | some a => exact hR.answer _

theorem eat_leads (c : Char) : Scan.Leads R (eat c) := by
  intro s a s' h
  unfold eat at h
  split at h
  next heq =>
    cases h
    exact hR.of_suffix nil_suffix
  next d rest heq =>
    split at h
    · cases h
      exact hR.of_suffix (suffix_of_cons heq)
    · cases h
      exact hR.of_suffix (heq ▸ trimStart_suffix s.rest)

theorem word_leads : Scan.Leads R word := by
  intro s a s' h
  refine hR.of_suffix ?_
  unfold word at h
  split at h
  next rest heq =>
    split at h
    next name rest' hq =>
      cases h
      exact (quoted_suffix hq).trans (suffix_of_cons heq)
    next =>
      cases h
      exact suffix_of_cons heq
  next =>
    split at h
    · cases h
      exact trimStart_suffix s.rest
    · cases h
      exact (dropWhile_suffix _).trans (trimStart_suffix s.rest)

theorem number_leads : Scan.Leads R number := by
  intro s a s' h
  refine hR.of_suffix ?_
  unfold number at h
  dsimp only at h
  split at h
  · cases h
    exact trimStart_suffix s.rest
  · cases h
    exact (dropWhile_suffix _).trans ((unsigned_suffix _).trans (trimStart_suffix s.rest))

end Leads

theorem fail_within {α : Type} (reason : String) : Scan.Within size (fail reason : Parse α) :=
  Scan.Within.answer _

/-! ### Arguments and types -/

/-- Whether a type name follows. -/
def startsType (rest : Str) : Bool := rest.head?.any fun c => c.isAlpha || c = '`'

def startsNumber (rest : Str) : Bool := rest.head?.any fun c => c.isDigit || c = '-'

/-- `name Type` inside a tuple or a nested: a word followed by another type.  Else nothing is
read. -/
def argName : Parse (Option Str) := fun p =>
  match word p with
  | (.ok (some first), p') =>
    if startsType (trimStart p'.rest) then
      (.ok (some first), { p' with rest := trimStart p'.rest })
    else (.ok none, p)
  | (.ok none, p') => (.error ⟨"an argument was expected"⟩, p')
  | (.error e, p') => (.error e, p')

def entryOrText (text : Str) : Parse Arg := do
  if ← eat '=' then
    let value ← number
    Arg.entry text <$> orFail value "an enum value was expected"
  else pure (.text text)

def arg (inner : Parse ChType) : Parse Arg := fun p =>
  match trimStart p.rest with
  | '\'' :: rest =>
    match quoted '\'' rest with
    | some (text, rest) => entryOrText text { p with rest }
    | none => (.error ⟨"an unterminated string"⟩, { p with rest })
  | rest =>
    if startsNumber rest then
      (do Arg.number <$> orFail (← number) "a number out of range") { p with rest }
    else (do
      let name ← argName
      Arg.type name <$> inner) { p with rest }

section Leads

variable {R : Parser → Parser → Prop} (hR : Shorter R) {inner : Parse ChType}
include hR

theorem argName_leads : Scan.Leads R argName := by
  intro s a s' h
  unfold argName at h
  split at h
  next first p' hword =>
    split at h
    · cases h
      exact hR.trans (hR.of_suffix (trimStart_suffix _)) (word_leads hR s _ p' hword)
    · cases h
      exact hR.of_suffix (suffix_refl _)
  next => cases h
  next => cases h

theorem entryOrText_leads (text : Str) : Scan.Leads R (entryOrText text) := by
  refine hR.bind (eat_leads hR '=') fun b => ?_
  cases b with
  | true => exact hR.bind (number_leads hR) fun value => hR.map (orFail_leads hR value _) _
  | false => exact hR.answer _

theorem arg_leads (hinner : Scan.Leads R inner) : Scan.Leads R (arg inner) := by
  intro s a s' h
  unfold arg at h
  split at h
  next rest heq =>
    split at h
    next text rest' hq =>
      exact hR.trans (entryOrText_leads hR text _ a s' h)
        (hR.of_suffix ((quoted_suffix hq).trans (suffix_of_cons heq)))
    next => cases h
  next =>
    split at h
    · have hnumber : Scan.Leads R (do
          Arg.number <$> orFail (← number) "a number out of range" : Parse Arg) :=
        hR.bind (number_leads hR) fun value => hR.map (orFail_leads hR value _) _
      exact hR.trans (hnumber _ a s' h) (hR.of_suffix (trimStart_suffix s.rest))
    · have htype : Scan.Leads R (do
          let name ← argName
          Arg.type name <$> inner : Parse Arg) :=
        hR.bind (argName_leads hR) fun name => hR.map hinner _
      exact hR.trans (htype _ a s' h) (hR.of_suffix (trimStart_suffix s.rest))

end Leads

variable {inner : Parse ChType}

/-- One argument, and what is behind it. -/
def argsTurn (inner : Parse ChType) (done : List Arg) : Parse (List Arg ⊕ List Arg) := do
  let a ← arg inner
  if ← eat ')' then pure (.inr (done ++ [a]))
  else if ← eat ',' then pure (.inl (done ++ [a]))
  else fail "`,` or `)` was expected"

theorem argsTurn_shrinks (hinner : Scan.Within size inner) :
    Scan.Shrinks size (argsTurn inner) := by
  intro done p done' p' h
  obtain ⟨a, p₁, harg, h⟩ := Scan.bind_eq_ok h
  obtain ⟨closed, p₂, hclosed, h⟩ := Scan.bind_eq_ok h
  have hle := arg_leads size_shorter hinner p a p₁ harg
  have hle' := eat_leads size_shorter ')' p₁ closed p₂ hclosed
  cases closed with
  | true => cases h
  | false =>
    obtain ⟨more, p₃, hmore, h⟩ := Scan.bind_eq_ok h
    cases more with
    | true =>
      cases h
      have hlt := (eat_cases hmore).2
      exact Nat.lt_of_lt_of_le hlt (Nat.le_trans hle' hle)
    | false => cases h

/-- The arguments behind an opened `(`. -/
def args (inner : Parse ChType) (hinner : Scan.Within size inner) : Parse (List Arg) := do
  if ← eat ')' then pure []
  else Scan.loop size (argsTurn inner) (argsTurn_shrinks hinner) []

theorem args_leads {R : Parser → Parser → Prop} (hR : Shorter R)
    (hwithin : Scan.Within size inner) (hinner : Scan.Leads R inner) :
    Scan.Leads R (args inner hwithin) := by
  refine hR.bind (eat_leads hR ')') fun closed => ?_
  cases closed with
  | true => exact hR.answer _
  | false =>
    refine Scan.Leads.loop (R := R) hR.trans (fun done => ?_) []
    refine hR.bind (arg_leads hR hinner) fun a => hR.bind (eat_leads hR ')') fun closed => ?_
    cases closed with
    | true => exact hR.answer _
    | false =>
      refine hR.bind (eat_leads hR ',') fun more => ?_
      cases more with
      | true | false => exact hR.answer _

/-! ### A type from its name and its arguments -/

/-- Types whose arguments are not read. -/
def opaqueArguments : List Str :=
  ["JSON".toList, "Object".toList, "Dynamic".toList, "Variant".toList,
    "AggregateFunction".toList]

end Parser

namespace ChType

def point : ChType := .tuple [(none, .float64), (none, .float64)]

/-- `Nullable(T)`: that of `Nothing` is the type of a bare `NULL`. -/
def ofNullable : ChType → ChType
  | .nothing => .nothing
  | inner => .nullable inner

/-- The types that take no argument. -/
def simpleTypes : List (Str × ChType) :=
  [("Bool".toList, .bool), ("Boolean".toList, .bool),
    ("Int8".toList, .int 8), ("Int16".toList, .int 16), ("Int32".toList, .int 32),
    ("Int64".toList, .int 64), ("Int128".toList, .int 128), ("Int256".toList, .int 256),
    ("UInt8".toList, .uint 8), ("UInt16".toList, .uint 16), ("UInt32".toList, .uint 32),
    ("UInt64".toList, .uint 64), ("UInt128".toList, .uint 128), ("UInt256".toList, .uint 256),
    ("Float32".toList, .float32), ("Float64".toList, .float64), ("BFloat16".toList, .bfloat16),
    ("String".toList, .string), ("UUID".toList, .uuid), ("Date".toList, .date),
    ("Date32".toList, .date32), ("Time".toList, .time), ("IPv4".toList, .ipv4),
    ("IPv6".toList, .ipv6), ("Nothing".toList, .nothing), ("Point".toList, point),
    ("Ring".toList, .array point), ("LineString".toList, .array point),
    ("Polygon".toList, .array (.array point)), ("MultiLineString".toList, .array (.array point)),
    ("MultiPolygon".toList, .array (.array (.array point)))]

def simple (name : Str) : Option ChType :=
  (simpleTypes.find? fun entry => entry.1 = name).map fun entry => entry.2

def decimalChecked (name : Str) (precision scale : Int) : ChType :=
  if 1 ≤ precision ∧ precision ≤ 76 ∧ 0 ≤ scale ∧ scale ≤ precision then
    .decimal precision.toNat scale.toNat
  else .unsupported name

def ofDecimal (name : Str) : List Arg → ChType
  | [.number p, .number s] => decimalChecked name p s
  | [.number p] => decimalChecked name p 0
  | _ => .unsupported name

def decimalOfWidth (precision : Int) (name : Str) : List Arg → ChType
  | [.number s] => decimalChecked name precision s
  | _ => .unsupported name

def ofFixedString (name : Str) : List Arg → ChType
  | [.number n] => if 0 < n then .fixedString n.toNat else .unsupported name
  | _ => .unsupported name

def ofDateTime (name : Str) : List Arg → ChType
  | [] => .dateTime none
  | [.text zone] => .dateTime (some zone)
  | _ => .unsupported name

def dateTime64Checked (name : Str) (precision : Int) (zone : Option Str) : ChType :=
  if 0 ≤ precision ∧ precision ≤ 9 then .dateTime64 precision.toNat zone else .unsupported name

def ofDateTime64 (name : Str) : List Arg → ChType
  | [.number p] => dateTime64Checked name p none
  | [.number p, .text zone] => dateTime64Checked name p (some zone)
  | _ => .unsupported name

def ofTime64 (name : Str) : List Arg → ChType
  | [.number p] => if 0 ≤ p ∧ p ≤ 9 then .time64 p.toNat else .unsupported name
  | _ => .unsupported name

/-- The labels of an enum whose values fit its width, or `None`. -/
def labelsOf (bits : Nat) : List Arg → Option (List (Str × Int))
  | [] => some []
  | .entry label value :: rest =>
    if -2 ^ (bits - 1) ≤ value ∧ value < 2 ^ (bits - 1) then
      (labelsOf bits rest).map ((label, value) :: ·)
    else none
  | _ => none

def enumeration (bits : Nat) (name : Str) (args : List Arg) : ChType :=
  match labelsOf bits args with
  | some labels => .enum bits labels
  | none => .unsupported name

def ofOne (make : ChType → ChType) (name : Str) : List Arg → ChType
  | [.type none ty] => make ty
  | _ => .unsupported name

/-- `SimpleAggregateFunction`: the type of its last argument. -/
def ofLast (name : Str) (args : List Arg) : ChType :=
  match args.getLast? with
  | some (.type none ty) => ty
  | _ => .unsupported name

/-- The types of a tuple with their names, or `None`. -/
def elementsOf : List Arg → Option (List (Option Str × ChType))
  | [] => some []
  | .type label ty :: rest => (elementsOf rest).map ((label, ty) :: ·)
  | _ => none

def tupleOf (args : List Arg) : Option (List (Option Str × ChType)) :=
  (elementsOf args).filter fun elements => !elements.isEmpty

/-- `Tuple`, and what is made of one. -/
def ofTuple (make : ChType → ChType) (name : Str) (args : List Arg) : ChType :=
  match tupleOf args with
  | some elements => make (.tuple elements)
  | none => .unsupported name

def ofMap (name : Str) : List Arg → ChType
  | [.type none key, .type none value] =>
    if key.isNullable then .unsupported name else .map key value
  | _ => .unsupported name

/-- The types that take arguments. -/
def compositeTypes : List (Str × (Str → List Arg → ChType)) :=
  [("JSON".toList, fun _ _ => .json), ("Decimal".toList, ofDecimal),
    ("Decimal32".toList, decimalOfWidth 9), ("Decimal64".toList, decimalOfWidth 18),
    ("Decimal128".toList, decimalOfWidth 38), ("Decimal256".toList, decimalOfWidth 76),
    ("FixedString".toList, ofFixedString), ("DateTime".toList, ofDateTime),
    ("DateTime64".toList, ofDateTime64), ("Time64".toList, ofTime64),
    ("Enum8".toList, enumeration 8), ("Enum16".toList, enumeration 16),
    ("Nullable".toList, ofOne ofNullable), ("LowCardinality".toList, ofOne id),
    ("Array".toList, ofOne .array), ("SimpleAggregateFunction".toList, ofLast),
    ("Tuple".toList, ofTuple id), ("Nested".toList, ofTuple .array), ("Map".toList, ofMap)]

def composite (name : Str) (args : List Arg) : ChType :=
  match compositeTypes.find? fun entry => entry.1 = name with
  | some entry => entry.2 name args
  | none =>
    if "Interval".toList <+: name ∧ args = [] then .interval else .unsupported name

/-- A named type, once its arguments are read. -/
def build (name : Str) (args : List Arg) : ChType :=
  match simple name with
  | some ty => if args = [] then ty else .unsupported name
  | none => composite name args

end ChType

namespace Parser

/-- Arguments behind an opened `(` that are not read: none. -/
def skipArguments : Parse (List Arg) := fun p =>
  match skipBalanced 1 p.rest with
  | .ok rest => (.ok [], { p with rest })
  | .error e => (.error e, p)

def argumentsOf (name : Str) (inner : Parse ChType) (hinner : Scan.Within size inner) :
    Parse (List Arg) := do
  if ← eat '(' then
    if name ∈ opaqueArguments then skipArguments else args inner hinner
  else pure []

def counted (inner : Parse ChType) (hinner : Scan.Within size inner) : Parse ChType := do
  let name ← orFail (← word) "a type name was expected"
  ChType.build name <$> argumentsOf name inner hinner

/-- A type whose arguments are read by `inner`. -/
def ty (inner : Parse ChType) (hinner : Scan.Within size inner) : Parse ChType := fun p =>
  let p := { p with nodes := p.nodes + 1 }
  if maxNodes < p.nodes then (.error ⟨"a type of more than 100,000 parts"⟩, p)
  else counted inner hinner p

theorem skipBalanced_suffix {nested : Nat} {s rest : Str} (h : skipBalanced nested s = .ok rest) :
    rest <:+ s := by
  fun_induction skipBalanced nested s with
  | case1 => cases h
  | case2 nested rest' ih => exact (ih h).trans (suffix_cons ..)
  | case3 =>
    cases h
    exact suffix_cons ..
  | case4 nested rest' _ _ ih => exact (ih h).trans (suffix_cons ..)
  | case5 => cases h
  | case6 nested c rest' _ _ _ out rest'' hq ih =>
    exact (ih h).trans ((quoted_suffix hq).trans (suffix_cons ..))
  | case7 nested c rest' _ _ _ ih => exact (ih h).trans (suffix_cons ..)

section Leads

variable {R : Parser → Parser → Prop} (hR : Shorter R) {inner : Parse ChType}
include hR

theorem argumentsOf_leads (name : Str) (hwithin : Scan.Within size inner)
    (hinner : Scan.Leads R inner) : Scan.Leads R (argumentsOf name inner hwithin) := by
  refine hR.bind (eat_leads hR '(') fun opened => ?_
  split
  · split
    · intro s a s' h
      unfold skipArguments at h
      split at h
      next rest hskip =>
        cases h
        exact hR.of_suffix (skipBalanced_suffix hskip)
      next => cases h
    · exact args_leads hR hwithin hinner
  · exact hR.answer _

theorem ty_leads (hwithin : Scan.Within size inner) (hinner : Scan.Leads R inner) :
    Scan.Leads R (ty inner hwithin) := by
  have hcounted : Scan.Leads R (counted inner hwithin) :=
    hR.bind (word_leads hR) fun name => hR.bind (orFail_leads hR name _) fun name =>
      hR.map (argumentsOf_leads hR name hwithin hinner) _
  intro s a s' h
  unfold ty at h
  dsimp only at h
  split at h
  · cases h
  · refine hR.trans (hcounted { s with nodes := s.nodes + 1 } a s' h) (hR.of_suffix ?_)
    exact suffix_refl _

end Leads

theorem ty_within {inner : Parse ChType} (hinner : Scan.Within size inner) :
    Scan.Within size (ty inner hinner) :=
  ty_leads size_shorter hinner hinner

/-- `Parser::ty`, with the levels below `MAX_DEPTH` that are left. -/
def tyAt : Nat → { p : Parse ChType // Scan.Within size p }
  | 0 => ⟨fail "a type nested beyond 64 levels", fail_within _⟩
  | levels + 1 => ⟨ty (tyAt levels).1 (tyAt levels).2, ty_within (tyAt levels).2⟩

end Parser

/-- Reads a type name as the server prints it. -/
def parse (text : Str) : Except TypeSyntaxError ChType :=
  match (Parser.tyAt (maxDepth + 1)).1 ⟨trim text, 0⟩ with
  | (.ok ty, p) =>
    if trim p.rest = [] then .ok ty else .error ⟨"text after the end of the type"⟩
  | (.error e, _) => .error e

end Oxyn.ClickHouse
