/-
# `Oxyn.Ai.Wanted` — what the gate would describe, known before anything is rendered

The selection lives here once: the gate describes what it keeps, and the host loads what it wants.
-/
import Oxyn.Ai.KeyPatterns
import Oxyn.Lib.IndexMap

namespace Oxyn.Ai

open Text Catalog

/-! ## Scores -/

structure F32 where
  bits : BitVec 32
deriving DecidableEq

namespace F32

def isFinite (x : F32) : Bool := x.bits.toNat / 2 ^ 23 % 2 ^ 8 ≠ 2 ^ 8 - 1

/-- `total_cmp` compares these: the bits, those below the sign turned over when it is set. -/
def totalKey (x : F32) : Int :=
  if x.bits.toNat < 2 ^ 31 then x.bits.toNat else 2 ^ 31 - 1 - (x.bits.toNat : Int)

def totalCmp (x y : F32) : Ordering := compare x.totalKey y.totalKey

end F32

structure SemanticScores where
  scores : IndexMap CatalogPath F32
  finite : scores.All fun _ score => score.isFinite = true

namespace SemanticScores

def new : SemanticScores := ⟨.empty, .empty⟩

def insert (semantic : SemanticScores) (path : CatalogPath) (score : F32) : SemanticScores :=
  if h : score.isFinite = true then
    ⟨semantic.scores.insert path score, semantic.finite.insert h⟩
  else semantic

def get (semantic : SemanticScores) (path : CatalogPath) : Option F32 := semantic.scores.get path

def isEmpty (semantic : SemanticScores) : Bool := semantic.scores.entries.isEmpty

def compare (semantic : SemanticScores) (a b : CatalogPath) : Ordering :=
  match semantic.get a, semantic.get b with
  | some x, some y => y.totalCmp x
  | some _, none => .lt
  | none, some _ => .gt
  | none, none => .eq

end SemanticScores

/-! ## What is left open -/

/-- The score of a name in floating point, the rendering of a value, and the masking of a
credential in a text. -/
structure Outside where
  /-- How well a relation and its description match a question, given the characters a prefix needs;
  nothing where the match is too weak. -/
  rate : Str → Nat → RelationRef → Option Relation → Option F32
  Value : Type
  showValue : Value → Str
  redactAnyLanguage : Str → Str

/-! ## The selection -/

/-- Characters a word of the question needs before it may match the start of a name. -/
def questionMinPrefixChars : Nat := 4

/-- `usize::MAX`. -/
def usizeMax : Nat := 2 ^ 64 - 1

def compareLevel (a b : Option Segment) : Ordering :=
  match a, b with
  | none, none => .eq
  | none, some _ => .lt
  | some _, none => .gt
  | some a, some b => KeyPatterns.compareStr a.val b.val

/-- `Ord` of a path: its levels, a missing one first. -/
def comparePath (a b : CatalogPath) : Ordering :=
  (compareLevel a.catalog b.catalog).then
    ((compareLevel a.nameSpace b.nameSpace).then (compareLevel a.relation b.relation))

def listingOrder (cache : CatalogCache) : List RelationRef :=
  (cache.iterRelations.map Prod.fst).mergeSort fun a b =>
    ((comparePath a.parent b.parent).then (KeyPatterns.compareStr a.name.val b.name.val)).isLE

structure SearchHit where
  path : CatalogPath
  score : F32

section Selection

variable (outside : Outside) (cache : CatalogCache) (focus : Str) (limit : Nat)

/-- The relations that match a question, the best first, up to a number. -/
def search (question : Str) (minPrefixChars limit : Nat) : List SearchHit :=
  ((cache.iterRelations.filterMap fun entry =>
    (outside.rate question minPrefixChars entry.1 entry.2).map fun score =>
      ⟨entry.1.path, score⟩).mergeSort
    fun a b => ((b.score.totalCmp a.score).then (comparePath a.path b.path)).isLE).take limit

def hits (limit : Nat) : List SearchHit :=
  if (trim focus).isEmpty then []
  else search outside cache (trim focus) questionMinPrefixChars limit

def found : List CatalogPath :=
  if (hits outside cache focus limit).isEmpty then
    ((listingOrder cache).take limit).map (·.path)
  else (hits outside cache focus limit).map (·.path)

/-- Adds what is not there yet, up to a number. -/
def complete (limit : Nat) (chosen : List CatalogPath) : List CatalogPath → List CatalogPath
  | [] => chosen
  | path :: rest =>
    if limit ≤ chosen.length then chosen
    else if chosen.contains path then complete limit chosen rest
    else complete limit (chosen ++ [path]) rest

def rankedHits (semantic : SemanticScores) : List CatalogPath :=
  ((hits outside cache focus usizeMax).mergeSort fun a b =>
    ((b.score.totalCmp a.score).then
      ((semantic.compare a.path b.path).then (comparePath a.path b.path))).isLE).map (·.path)

/-- What the search missed and carries a score. -/
def unmatched (semantic : SemanticScores) (chosen : List CatalogPath) : List CatalogPath :=
  ((cache.iterRelations.map (·.1.path)).filter fun path =>
    !chosen.contains path && (semantic.get path).isSome).mergeSort
    fun a b => ((semantic.compare a b).then (comparePath a b)).isLE

/-- `found`, ordered by scores as well: the matches, what carries a score, and failing any match the
rest in the order of the paths. -/
def ranked (semantic : SemanticScores) : List CatalogPath :=
  let chosen := rankedHits outside cache focus semantic
  if limit ≤ chosen.length then chosen.take limit
  else
    let scored := chosen ++ (unmatched cache semantic chosen).take (limit - chosen.length)
    if chosen.isEmpty then complete limit scored ((listingOrder cache).map (·.path)) else scored

/-- Mentioned relations first, in the order they were typed, then what the search finds, up to
`limit`. -/
def select (mentioned : List CatalogPath) (fill : Bool) (semantic : SemanticScores) :
    List CatalogPath :=
  let chosen := mentioned.take limit
  if !fill || limit ≤ chosen.length then chosen
  else
    complete limit chosen
      (if semantic.isEmpty then found outside cache focus limit
        else ranked outside cache focus limit semantic)

end Selection

end Oxyn.Ai
