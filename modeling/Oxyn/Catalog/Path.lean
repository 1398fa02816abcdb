/-
# `Oxyn.Catalog.Path` — qualified paths in the catalog hierarchy

Three levels carry a name, the catalog, the namespace and the relation, and each may be missing.
-/
import Oxyn.Lib.Cursor
import Oxyn.Lib.Escaping
import Oxyn.Lib.Text

namespace Oxyn

open Text Cursor List

/-! ## Names -/

structure CatalogPathError where
  detail : String
deriving DecidableEq, Repr

/-- `char::is_control`: the general category `Cc`. -/
def isControl (c : Char) : Bool :=
  c.toNat ≤ 0x1f || (0x7f ≤ c.toNat && c.toNat ≤ 0x9f)

def validateSegment (name : Str) : Except CatalogPathError Unit :=
  if name.isEmpty then .error ⟨"a named level cannot be empty"⟩
  else if name.any isControl then .error ⟨"a level name contains a control character"⟩
  else .ok ()

/-- A name that is accepted as a level. -/
abbrev Segment := { name : Str // validateSegment name = .ok () }

def segment? (name : Str) : Except CatalogPathError Segment :=
  match h : validateSegment name with
  | .ok () => .ok ⟨name, h⟩
  | .error e => .error e

theorem segment?_val (s : Segment) : segment? s.val = .ok s := by
  unfold segment?
  split
  · rfl
  next e h => exact absurd (s.property.symm.trans h) (by simp)

theorem Segment.ne_nil (s : Segment) : s.val ≠ [] := by
  intro h
  have := s.property
  simp [h, validateSegment] at this

/-! ## Paths -/

/-- Number of nameable levels in a path. -/
def tierCount : Nat := 3

/-- Qualified path, tolerant of missing levels. -/
structure CatalogPath where
  catalog : Option Segment
  nameSpace : Option Segment
  relation : Option Segment
deriving DecidableEq

namespace CatalogPath

def empty : CatalogPath := ⟨none, none, none⟩

/-- A level that is present is validated. -/
def level? : Option Str → Except CatalogPathError (Option Segment)
  | none => .ok none
  | some name => (segment? name).map some

def fromLevels (catalog nameSpace relation : Option Str) :
    Except CatalogPathError CatalogPath := do
  return ⟨← level? catalog, ← level? nameSpace, ← level? relation⟩

def forRelation (catalog nameSpace : Option Str) (name : Str) :
    Except CatalogPathError CatalogPath :=
  fromLevels catalog nameSpace (some name)

/-- The levels, from the most general to the most precise. -/
def tiers (p : CatalogPath) : List (Option Segment) := [p.catalog, p.nameSpace, p.relation]

/-- The present levels, from the most general to the most precise. -/
def segments (p : CatalogPath) : List Segment := p.tiers.flatMap Option.toList

/-! ## The text of a path -/

abbrev pathQuoting : Escaping Char := .doubling '"'

def writeSegment (ident : Str) : Str :=
  if !ident.contains '.' && !ident.contains '"' then ident
  else '"' :: (pathQuoting.encode ident ++ ['"'])

/-- A level as it is written; a missing one leaves an empty segment. -/
def writeTier : Option Segment → Str
  | none => []
  | some s => writeSegment s.val

/-- `Display`: the levels from the first present one on, dots between them. -/
def display (p : CatalogPath) : Str :=
  match p.tiers.findIdx? Option.isSome with
  | none => []
  | some first => List.intercalate ['.'] ((p.tiers.drop first).map writeTier)

end CatalogPath

/-! ## Reading a path back -/

/-- State of the segment parser. -/
inductive ReadState where
  | normal | cite | afterQuote
deriving DecidableEq, Repr

/-- What `split_segments` keeps while it goes through the text. -/
structure SegmentReading where
  segments : List (Option Segment)
  current : Str
  state : ReadState

namespace SegmentReading

def initial : SegmentReading := ⟨[], [], .normal⟩

/-- `finish_segment`, and the push of what it returns. -/
def finishSegment (s : SegmentReading) (wasQuoted : Bool) :
    Except CatalogPathError SegmentReading :=
  if s.current.isEmpty then
    if wasQuoted then .error ⟨"a quoted level cannot be empty"⟩
    else .ok ⟨s.segments ++ [none], [], .normal⟩
  else (segment? s.current).map fun level => ⟨s.segments ++ [some level], [], .normal⟩

def finishTurn (s : SegmentReading) (wasQuoted : Bool) :
    Turn SegmentReading CatalogPathError :=
  match s.finishSegment wasQuoted with
  | .ok s' => .one s'
  | .error e => .leave 0 e

def turn (s : SegmentReading) (c : Char) (next : Option Char) :
    Turn SegmentReading CatalogPathError :=
  match s.state with
  | .cite =>
    if c = '"' then
      if next = some '"' then .two { s with current := s.current ++ ['"'] }
      else .one { s with state := .afterQuote }
    else .one { s with current := s.current ++ [c] }
  | .afterQuote =>
    if c ≠ '.' then .leave 0 ⟨"a quoted level must be followed by a separator"⟩
    else s.finishTurn true
  | .normal =>
    if c = '"' then
      if s.current.isEmpty then .one { s with state := .cite }
      else .leave 0 ⟨"a quote cannot start in the middle of a level"⟩
    else if c = '.' then s.finishTurn false
    else .one { s with current := s.current ++ [c] }

/-- Where the text ends. -/
def finish (s : SegmentReading) : Except CatalogPathError (List (Option Segment)) :=
  match s.state with
  | .cite => .error ⟨"unterminated quote"⟩
  | .afterQuote => (s.finishSegment true).map (·.segments)
  | .normal => (s.finishSegment false).map (·.segments)

end SegmentReading

def splitSegments (entree : Str) : Except CatalogPathError (List (Option Segment)) :=
  match loop SegmentReading.turn entree 0 .initial with
  | .left _ e => .error e
  | .off s => s.finish

/-- `FromStr`: the segments are aligned from the right. -/
def CatalogPath.parse (s : Str) : Except CatalogPathError CatalogPath := do
  let segments ← splitSegments s
  if segments.length > tierCount then
    throw ⟨"more than three levels"⟩
  match List.replicate (tierCount - segments.length) none ++ segments with
  | [catalog, nameSpace, relation] => return ⟨catalog, nameSpace, relation⟩
  | _ => return .empty

/-! ## What was written is read -/

namespace SegmentReading

variable {segs : List (Option Segment)}

theorem passes_plain (segs : List (Option Segment)) {name : Str}
    (h : ∀ c ∈ name, c ≠ '.' ∧ c ≠ '"') (cur : Str) :
    Passes turn ⟨segs, cur, .normal⟩ name ⟨segs, cur ++ name, .normal⟩ := by
  induction name generalizing cur with
  | nil => simpa using Passes.nil _
  | cons c name ih =>
    have hc := h c (by simp)
    have hone : Passes turn ⟨segs, cur, .normal⟩ [c] ⟨segs, cur ++ [c], .normal⟩ :=
      passes_one fun n => by simp [turn, hc]
    simpa using hone.append (ih (fun d hd => h d (by simp [hd])) (cur ++ [c]))

theorem passes_quoted (name cur : Str) :
    Passes turn ⟨segs, cur, .cite⟩ (CatalogPath.pathQuoting.encode name)
      ⟨segs, cur ++ name, .cite⟩ := by
  induction name generalizing cur with
  | nil => simpa using Passes.nil _
  | cons c name ih =>
    have hc : Passes turn ⟨segs, cur, .cite⟩ (CatalogPath.pathQuoting.code c)
        ⟨segs, cur ++ [c], .cite⟩ := by
      by_cases hq : c = '"'
      · subst hq
        exact passes_two (by simp [turn])
      · rw [show CatalogPath.pathQuoting.code c = [c] by simp [Escaping.doubling, hq]]
        exact passes_one fun n => by simp [turn, hq]
    simpa using hc.append (ih (cur ++ [c]))

theorem finishSegment_val (level : Segment) (state : ReadState) (wasQuoted : Bool) :
    finishSegment ⟨segs, level.val, state⟩ wasQuoted =
      .ok ⟨segs ++ [some level], [], .normal⟩ := by
  have hne : level.val.isEmpty = false := by simpa using level.ne_nil
  simp [finishSegment, hne, segment?_val, Except.map]

theorem writeSegment_cases (name : Str) :
    (CatalogPath.writeSegment name = name ∧ ∀ c ∈ name, c ≠ '.' ∧ c ≠ '"') ∨
      CatalogPath.writeSegment name = '"' :: (CatalogPath.pathQuoting.encode name ++ ['"']) := by
  unfold CatalogPath.writeSegment
  split
  next h =>
    simp only [Bool.and_eq_true, Bool.not_eq_true', contains_eq_mem,
      decide_eq_false_iff_not] at h
    refine .inl ⟨rfl, fun c hc => ⟨?_, ?_⟩⟩
    · rintro rfl; exact h.1 hc
    · rintro rfl; exact h.2 hc
  next => exact .inr rfl

theorem passes_cite (name : Str) :
    Passes turn ⟨segs, [], .normal⟩ ('"' :: CatalogPath.pathQuoting.encode name)
      ⟨segs, name, .cite⟩ := by
  have hopen : Passes turn ⟨segs, [], .normal⟩ ['"'] ⟨segs, [], .cite⟩ :=
    passes_one fun n => by simp [turn]
  exact hopen.append (passes_quoted name [])

theorem passes_writeTier (t : Option Segment) :
    Passes turn ⟨segs, [], .normal⟩ (CatalogPath.writeTier t ++ ['.'])
      ⟨segs ++ [t], [], .normal⟩ := by
  cases t with
  | none => exact passes_one fun n => by simp [turn, finishTurn, finishSegment]
  | some level =>
    show Passes turn _ (CatalogPath.writeSegment level.val ++ ['.']) _
    rcases writeSegment_cases level.val with ⟨hw, hplain⟩ | hw
    · rw [hw]
      refine (passes_plain segs hplain []).append (passes_one fun n => ?_)
      simp [turn, finishTurn, finishSegment_val]
    · rw [hw, cons_append, append_assoc, ← cons_append]
      refine (passes_cite level.val).append fun rest i => ?_
      simp [loop, turn, finishTurn, finishSegment_val, Nat.add_assoc]

theorem loop_writeTier (t : Option Segment) (i : Nat) :
    ∃ s, loop turn (CatalogPath.writeTier t) i ⟨segs, [], .normal⟩ = .off s ∧
      s.finish = .ok (segs ++ [t]) := by
  cases t with
  | none => exact ⟨_, rfl, by simp [finish, finishSegment, Except.map]⟩
  | some level =>
    show ∃ s, loop turn (CatalogPath.writeSegment level.val) i _ = _ ∧ _
    rcases writeSegment_cases level.val with ⟨hw, hplain⟩ | hw
    · have h := passes_plain segs hplain [] [] i
      rw [append_nil, nil_append] at h
      refine ⟨⟨segs, level.val, .normal⟩, ?_, ?_⟩
      · rw [hw]
        exact h
      · simp [finish, finishSegment_val, Except.map]
    · refine ⟨⟨segs, level.val, .afterQuote⟩, ?_, ?_⟩
      · rw [hw, ← cons_append, passes_cite]
        simp [loop, turn]
      · simp [finish, finishSegment_val, Except.map]

theorem loop_joined {ts : List (Option Segment)} (hne : ts ≠ [])
    (segs : List (Option Segment)) (i : Nat) :
    ∃ s, loop turn (List.intercalate ['.'] (ts.map CatalogPath.writeTier)) i
        ⟨segs, [], .normal⟩ = .off s ∧ s.finish = .ok (segs ++ ts) := by
  induction ts generalizing segs i with
  | nil => exact absurd rfl hne
  | cons t ts ih =>
    cases ts with
    | nil => simpa using loop_writeTier t i
    | cons u ts =>
      obtain ⟨s, hloop, hfinish⟩ := ih (by simp) (segs ++ [t])
        (i + (CatalogPath.writeTier t ++ ['.']).length)
      refine ⟨s, ?_, by simpa using hfinish⟩
      rw [map_cons, map_cons, intercalate_cons_cons,
        passes_writeTier t]
      exact hloop

end SegmentReading

theorem splitSegments_joined {ts : List (Option Segment)} (hne : ts ≠ []) :
    splitSegments (List.intercalate ['.'] (ts.map CatalogPath.writeTier)) = .ok ts := by
  obtain ⟨s, hloop, hfinish⟩ := SegmentReading.loop_joined hne [] 0
  simp only [splitSegments, SegmentReading.initial, hloop, hfinish, nil_append]

namespace CatalogPath

variable {p : CatalogPath}

theorem tiers_of_first {first : Nat} (h : p.tiers.findIdx? Option.isSome = some first) :
    first < tierCount ∧ p.tiers = List.replicate first none ++ p.tiers.drop first := by
  obtain ⟨catalog, nameSpace, relation⟩ := p
  simp only [tiers, tierCount] at h ⊢
  cases catalog with
  | some c =>
    obtain rfl : first = 0 := by simpa [findIdx?_cons] using h.symm
    simp
  | none =>
    cases nameSpace with
    | some n =>
      obtain rfl : first = 1 := by simpa [findIdx?_cons] using h.symm
      simp
    | none =>
      cases relation with
      | some r =>
        obtain rfl : first = 2 := by simpa [findIdx?_cons] using h.symm
        simp
      | none => simp [findIdx?_cons] at h

theorem tiers_of_none (h : p.tiers.findIdx? Option.isSome = none) :
    p = empty := by
  obtain ⟨catalog, nameSpace, relation⟩ := p
  simpa [tiers, empty, findIdx?_eq_none_iff] using h

theorem parse_of_split {s : Str} {segments : List (Option Segment)}
    (hs : splitSegments s = .ok segments) (hlen : segments.length ≤ tierCount)
    (hp : List.replicate (tierCount - segments.length) none ++ segments = p.tiers) :
    parse s = .ok p := by
  simp [parse, hs, hp, tiers, bind, Except.bind, pure, Except.pure, Nat.not_lt.mpr hlen]

theorem parse_display (p : CatalogPath) : parse p.display = .ok p := by
  unfold display
  split
  next h =>
    obtain rfl := tiers_of_none h
    rfl
  next first h =>
    obtain ⟨hlt, htiers⟩ := tiers_of_first h
    have hlen : (p.tiers.drop first).length = tierCount - first := by simp [tiers, tierCount]
    have hne : p.tiers.drop first ≠ [] := by
      intro hnil
      rw [hnil] at hlen
      simp at hlen
      omega
    refine parse_of_split (splitSegments_joined hne) (by omega) ?_
    rw [hlen, show tierCount - (tierCount - first) = first by omega, ← htiers]

/-- Paths and their texts are exact inverses: what is displayed is read back,
what is read displays as a text that reads the same, and no two paths display
alike. -/
theorem path_text_inverse :
    (∀ p : CatalogPath, parse p.display = .ok p) ∧
      (∀ (s : Str) (p : CatalogPath), parse s = .ok p → parse p.display = .ok p) ∧
      Function.Injective display := by
  refine ⟨parse_display, fun _ p _ => parse_display p, fun p q h => ?_⟩
  have hp := parse_display p
  rw [h, parse_display q] at hp
  exact (Except.ok.inj hp).symm

end CatalogPath

end Oxyn
