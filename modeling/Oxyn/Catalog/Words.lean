/-
# `Oxyn.Catalog.Words` — the words of an identifier

An identifier is cut where it is not alphanumeric, and each segment at its case changes, by a loop
that slices the segment at the offsets it remembers.
-/
import Oxyn.Lib.Text

namespace Oxyn.Catalog

open Text List

/-- The Unicode tables a search reads. -/
structure CharTables where
  isAlphanumeric : Char → Bool
  isUppercase : Char → Bool
  isLowercase : Char → Bool

/-- `str::char_indices`, of a text that begins at an offset. -/
def charIndices : Nat → Str → List (Nat × Char)
  | _, [] => []
  | offset, c :: s => (offset, c) :: charIndices (offset + c.utf8Size) s

variable (tables : CharTables)

/-- Does `current` begin a new word, given the character before and the two after? -/
def startsAWord (previous : Option Char) (current : Char) (next afterNext : Option Char) : Bool :=
  match previous with
  | none => false
  | some previous =>
    if !tables.isUppercase current then false
    else
      -- the `s` of `IDs` closes the acronym when nothing lowercase follows it
      let pluralS := next == some 's' && !afterNext.any tables.isLowercase
      tables.isLowercase previous || previous.isDigit ||
        (tables.isUppercase previous && next.any tables.isLowercase && !pluralS)

def caseWordsFrom (segment : Str) : List (Nat × Char) → Nat → Option Char → List Str
  | [], start, _ =>
    -- the start goes to the end, and there is no word after the last one
    ((get? segment start (size segment)).filter fun rest => !rest.isEmpty).toList
  | (offset, current) :: rest, start, previous =>
    if startsAWord tables previous current (rest[0]?.map Prod.snd) (rest[1]?.map Prod.snd) then
      -- an iterator ends where it has no item
      match get? segment start offset with
      | some word => word :: caseWordsFrom segment rest offset (some current)
      | none => []
    else caseWordsFrom segment rest start (some current)

/-- Cuts one segment, free of separators, at its case changes. -/
def caseWords (segment : Str) : List Str :=
  caseWordsFrom tables segment (charIndices 0 segment) 0 none

def words (ident : Str) : List Str :=
  ((ident.splitOnP fun c => !tables.isAlphanumeric c).filter fun segment => !segment.isEmpty).flatMap
    (caseWords tables)

/-! ## One segment -/

variable {tables}

theorem flatten_caseWordsFrom (done word rest : Str) (previous : Option Char)
    (hprevious : previous.isSome = true → word ≠ []) :
    let made := caseWordsFrom tables (done ++ word ++ rest)
      (charIndices (size (done ++ word)) rest) (size done) previous
    made.flatten = word ++ rest ∧ ∀ w ∈ made, w ≠ [] := by
  induction rest generalizing done word previous with
  | nil =>
    have hget : get? (done ++ word ++ []) (size done) (size (done ++ word ++ [])) = some word :=
      get?_eq_some.mpr ⟨done, [], rfl, rfl, by simp⟩
    dsimp only
    rw [charIndices, caseWordsFrom, hget, append_nil]
    cases word with
    | nil => exact ⟨rfl, nofun⟩
    | cons c word => exact ⟨append_nil _, by simp⟩
  | cons c rest ih =>
    have hsize : size (done ++ word) + c.utf8Size = size (done ++ word ++ [c]) := by
      simp [Nat.add_assoc]
    dsimp only
    rw [charIndices, caseWordsFrom, hsize]
    split
    next hstarts =>
      have hword : word ≠ [] := by
        refine hprevious ?_
        cases previous with
        | none => cases hstarts
        | some _ => rfl
      have hget : get? (done ++ word ++ c :: rest) (size done) (size (done ++ word)) = some word :=
        get?_eq_some.mpr ⟨done, c :: rest, rfl, rfl, by simp⟩
      obtain ⟨hflatten, hne⟩ := ih (done ++ word) [c] (some c) fun _ => nofun
      rw [append_assoc _ [c], singleton_append] at hflatten hne
      rw [hget]
      refine ⟨congrArg (word ++ ·) hflatten, fun w hw => ?_⟩
      rcases mem_cons.mp hw with rfl | hw
      · exact hword
      · exact hne w hw
    next =>
      have h := ih done (word ++ [c]) (some c) fun _ => by simp
      rwa [← append_assoc done, append_assoc _ [c], append_assoc word, singleton_append] at h

theorem flatten_caseWords (segment : Str) :
    (caseWords tables segment).flatten = segment ∧ ∀ w ∈ caseWords tables segment, w ≠ [] :=
  flatten_caseWordsFrom [] [] segment none nofun

/-! ## The identifier -/

/-- The words are in the text, one behind the other, and what is between them is not of `p`. -/
inductive Cut (p : Char → Bool) : Str → List Str → Prop
  | nil : Cut p [] []
  | skip {c : Char} {s : Str} {ws : List Str} : p c = false → Cut p s ws → Cut p (c :: s) ws
  | word {w s : Str} {ws : List Str} :
      w ≠ [] → (∀ c ∈ w, p c = true) → Cut p s ws → Cut p (w ++ s) (w :: ws)

namespace Cut

variable {p : Char → Bool} {s : Str} {ws : List Str}

theorem flatten_eq (h : Cut p s ws) : ws.flatten = s.filter p := by
  induction h with
  | nil => rfl
  | skip hc _ ih => rw [ih, filter_cons_of_neg (by simp [hc])]
  | word _ hw _ ih => rw [flatten_cons, ih, filter_append, filter_eq_self.mpr hw]

theorem ne_nil_of_mem (h : Cut p s ws) {w : Str} (hw : w ∈ ws) : w ≠ [] := by
  induction h with
  | nil => cases hw
  | skip _ _ ih => exact ih hw
  | word hne _ _ ih =>
    rcases mem_cons.mp hw with rfl | hw
    · exact hne
    · exact ih hw

theorem append (h : Cut p s ws) {parts : List Str} (hne : ∀ w ∈ parts, w ≠ [])
    (hp : ∀ c ∈ parts.flatten, p c = true) : Cut p (parts.flatten ++ s) (parts ++ ws) := by
  induction parts with
  | nil => exact h
  | cons w parts ih =>
    rw [flatten_cons] at hp ⊢
    rw [append_assoc]
    refine .word (hne w mem_cons_self) (fun c hc => hp c (mem_append_left _ hc)) ?_
    exact ih (fun v hv => hne v (mem_cons_of_mem _ hv)) fun c hc => hp c (mem_append_right _ hc)

theorem modifyHead_nil_append (l : List Str) : l.modifyHead ([] ++ ·) = l := by
  cases l with
  | nil => rfl
  | cons s l => rfl

theorem splitOnP (w : Str) (hw : ∀ c ∈ w, p c = true) (s : Str) :
    Cut p (w ++ s) ((((s.splitOnP fun c => !p c).modifyHead (w ++ ·)).filter
      fun segment => !segment.isEmpty)) := by
  induction s generalizing w with
  | nil =>
    rw [splitOnP_nil, modifyHead_cons, append_nil]
    cases w with
    | nil => exact .nil
    | cons c w => simpa using word (cons_ne_nil c w) hw .nil
  | cons c s ih =>
    rw [splitOnP_cons_eq_if_modifyHead]
    cases hc : p c with
    | false =>
      have hrest := ih [] nofun
      rw [modifyHead_nil_append] at hrest
      have hrest := skip hc hrest
      rw [Bool.not_false, if_pos rfl, modifyHead_cons, append_nil]
      cases w with
      | nil => exact hrest
      | cons d w => simpa using word (cons_ne_nil d w) hw hrest
    | true =>
      have h := ih (w ++ [c]) fun d hd => by
        rcases mem_append.mp hd with hd | hd
        · exact hw d hd
        · exact mem_singleton.mp hd ▸ hc
      rw [Bool.not_true, if_neg Bool.false_ne_true, modifyHead_modifyHead]
      simpa [Function.comp_def] using h

theorem flatMap_caseWords (h : Cut p s ws) : Cut p s (ws.flatMap (caseWords tables)) := by
  induction h with
  | nil => exact .nil
  | skip hc _ ih => exact .skip hc ih
  | @word w s ws _ hw _ ih =>
    obtain ⟨hflatten, hne⟩ : (caseWords tables w).flatten = w ∧ _ := flatten_caseWords w
    have h := ih.append hne (by rwa [hflatten])
    rwa [hflatten] at h

end Cut

/-- The words of an identifier are in it, in its order, and hold every alphanumeric character once
and no other; those of a segment are the segment. -/
theorem words_cut (tables : CharTables) (ident : Str) :
    Cut tables.isAlphanumeric ident (words tables ident) ∧
      (words tables ident).flatten = ident.filter tables.isAlphanumeric ∧
      (∀ w ∈ words tables ident, w ≠ []) ∧
      (caseWords tables ident).flatten = ident ∧ ∀ w ∈ caseWords tables ident, w ≠ [] := by
  have hsegments : Cut tables.isAlphanumeric ident _ := Cut.splitOnP [] nofun ident
  rw [Cut.modifyHead_nil_append] at hsegments
  have hcut : Cut tables.isAlphanumeric ident (words tables ident) := hsegments.flatMap_caseWords
  exact ⟨hcut, hcut.flatten_eq, fun w => hcut.ne_nil_of_mem, flatten_caseWords ident⟩

end Oxyn.Catalog
