/-
# `Oxyn.Ai.KeyPatterns` — key names are data

A key's name often holds the data itself.
-/
import Oxyn.Ai.Rendering

namespace Oxyn.Ai.KeyPatterns

open Text Catalog

/-- Characters that end a key's namespace. -/
def separators : List Char := [':', '/', '|', '.', '#']

def maxPrefixChars : Nat := 32

def maxPrefixDigits : Nat := 4

def minKeysPerPattern : Nat := 2

def maxPatterns : Nat := 24

def withholdsName (tier : PrivacyTier) (kind : RelationKind) : Bool :=
  kind = .keyPattern && !tier.allowsRowValues

def tierWithholds (tier : PrivacyTier) : Bool := withholdsName tier .keyPattern

/-- Does a prefix read as a namespace? -/
def acceptable (front : Str) : Bool :=
  !front.isEmpty && front.length ≤ maxPrefixChars && front.head?.any (·.isAlpha) &&
    (front.all fun c => c.isAlphanum || c = '_' || c = '-') &&
    (front.filter (·.isDigit)).length ≤ maxPrefixDigits

/-- The prefix of a key, up to and including its first separator, if it can be sent. -/
def namespaceOf (key : Str) : Option Str :=
  let front := key.takeWhile fun c => !separators.contains c
  match key.drop front.length with
  | [] => none
  | separator :: _ => if acceptable front then some (front ++ [separator]) else none

/-! ## Counts -/

/-- `Ord` of a text. -/
def compareStr (s t : Str) : Ordering := compareOfLessAndEq s t

/-- `Ord` of a pair of texts. -/
def comparePair (s t : Str × Str) : Ordering :=
  (compareStr s.1 t.1).then (compareStr s.2 t.2)

def tally {κ : Type} [BEq κ] (cmp : κ → κ → Ordering) (keys : List κ) : List (κ × Nat) :=
  (keys.eraseDups.mergeSort fun a b => (cmp a b).isLE).map fun key => (key, keys.count key)

def keys (cache : CatalogCache) (naming : Naming) : List (Str × Str) :=
  (cache.iterRelations.filter fun entry => entry.1.kind = .keyPattern).map fun entry =>
    (naming.path { entry.1.parent with relation := none }, entry.1.name.val)

/-- How many keys stand at each place. -/
def parents (keys : List (Str × Str)) : List (Str × Nat) := tally compareStr (keys.map Prod.fst)

/-- The prefixes that are sent: the biggest families first. -/
def ranked (keys : List (Str × Str)) : List ((Str × Str) × Nat) :=
  let named := keys.filterMap fun key => (namespaceOf key.2).map fun front => (key.1, front)
  (((tally comparePair named).filter fun family => minKeysPerPattern ≤ family.2).mergeSort
    fun a b => ((compare b.2 a.2).then (comparePair a.1 b.1)).isLE).take maxPatterns

def patternLine (naming : Naming) (family : (Str × Str) × Nat) : Str :=
  let pattern := naming.name (family.1.2 ++ ['*'])
  let subject := if family.1.1.isEmpty then pattern else family.1.1 ++ ['.'] ++ pattern
  "  key_pattern ".toList ++ subject ++ " — ".toList ++ decimal family.2 ++ " keys\n".toList

def restLine (families : List ((Str × Str) × Nat)) (place : Str × Nat) : Str :=
  let described := ((families.filter fun family => family.1.1 = place.1).map (·.2)).sum
  let rest := place.2 - described
  if rest = 0 then []
  else
    "  ".toList ++ decimal rest ++ " other keys".toList ++
      (if place.1.isEmpty then [] else " in ".toList ++ place.1) ++
      ", no pattern shared\n".toList

def render (cache : CatalogCache) (tier : PrivacyTier) (naming : Naming) : Str :=
  let keys := keys cache naming
  if tierWithholds tier = false ∨ keys = [] then []
  else
    ("key names are not sent under privacy tier `" ++ tier.asStr ++ "`: only the prefix up to " ++
      "the first separator and a count (a key name often holds the data itself); exact key " ++
      "names leave only under `sampled`. Ask the user for a key name instead of guessing " ++
      "one.\n").toList ++
      (ranked keys).flatMap (patternLine naming) ++
      (parents keys).flatMap (restLine (ranked keys)) ++ ['\n']

end Oxyn.Ai.KeyPatterns
