/-
# `Oxyn.Redis.Redact` — credentials kept out of the history

`redact_secrets` collects the spans of the secrets of each command and replaces them.
-/
import Mathlib.Data.List.Sort
import Oxyn.Lib.Lossy
import Oxyn.Lib.Splice
import Oxyn.Redis.Agreement

namespace Oxyn

open Text Argv List

/-! ## The secrets of a command -/

/-- The configuration parameters whose value is a credential. -/
def secretParameters : List Str :=
  ["requirepass".toList, "masterauth".toList, "masteruser".toList, "tls-key-file-pass".toList,
    "tls-client-key-file-pass".toList]

/-- An argument as the server compares a keyword: decoded, ASCII-lowercase. -/
def keyword (v : List UInt8) : Str := (fromUtf8Lossy v).map Char.toLower

def redactedMarker : Str := "<redacted>".toList

/-- What replaces a rule of `ACL SETUSER` that is a credential: its kind is kept. -/
def ruleMarker (v : List UInt8) : Option Str :=
  match v.head? with
  | some 0x3e => some ('>' :: redactedMarker)
  | some 0x3c => some ('<' :: redactedMarker)
  | some 0x23 => some ('#' :: redactedMarker)
  | some 0x21 => some ('!' :: redactedMarker)
  | _ => none

def redactedArgument (a : Argument) : Replacement := ⟨a.start, a.stop, redactedMarker⟩

def secretsOf (command : List Argument) : List Replacement :=
  let word (i : Nat) : Option Str := (command[i]?).map (keyword ·.bytes)
  match word 0 with
  | none => []
  | some name =>
    if name = "auth".toList then ((command.drop 1).getLast?).toList.map redactedArgument
    else if name = "hello".toList then
      match (List.range' 1 (command.length - 1)).find? (word · = some "auth".toList) with
      | some i => (command[i + 2]?).toList.map redactedArgument
      | none => []
    else if name = "acl".toList ∧ word 1 = some "setuser".toList then
      (command.drop 3).filterMap fun rule =>
        (ruleMarker rule.bytes).map fun marker => ⟨rule.start, rule.stop, marker⟩
    else if name = "config".toList ∧ word 1 = some "set".toList then
      (List.range' 2 (command.length - 2)).filterMap fun i =>
        if (word i).any (secretParameters.contains ·) then (command[i + 1]?).map redactedArgument
        else none
    else if name = "migrate".toList then
      (List.range command.length).filterMap fun i =>
        if word i = some "auth".toList then (command[i + 1]?).map redactedArgument
        else if word i = some "auth2".toList then (command[i + 2]?).map redactedArgument
        else none
    else []

/-- The text with its credentials replaced. Spans with one start are one argument's, so the order of
equals does not matter. -/
def redactSecrets (text : Str) : Str :=
  let replacements := (argvCommands text).flatMap secretsOf
  if replacements.isEmpty then text
  else spliced text (replacements.insertionSort fun r r' => r.start ≤ r'.start)

/-! ## Which arguments they are -/

/-- What replaces the argument `k` of a command that holds these arguments, if it is a
secret. -/
def markerAt (args : List (List UInt8)) (k : Nat) : Option Str :=
  let word (i : Nat) : Option Str := (args[i]?).map keyword
  match word 0 with
  | none => none
  | some name =>
    if name = "auth".toList then
      if 1 ≤ k ∧ k + 1 = args.length then some redactedMarker else none
    else if name = "hello".toList then
      if ((List.range' 1 (args.length - 1)).find? (word · = some "auth".toList)).map (· + 2) =
        some k then some redactedMarker else none
    else if name = "acl".toList ∧ word 1 = some "setuser".toList then
      if 3 ≤ k then (args[k]?).bind ruleMarker else none
    else if name = "config".toList ∧ word 1 = some "set".toList then
      if 3 ≤ k ∧ (word (k - 1)).any (secretParameters.contains ·) then some redactedMarker
      else none
    else if name = "migrate".toList then
      if (1 ≤ k ∧ word (k - 1) = some "auth".toList) ∨
        (2 ≤ k ∧ word (k - 2) = some "auth2".toList) then some redactedMarker else none
    else none

def held (command : List Argument) : List (List UInt8) := command.map (·.bytes)

theorem word_held (command : List Argument) (i : Nat) :
    ((held command)[i]?).map keyword = (command[i]?).map (keyword ·.bytes) := by
  rw [held, getElem?_map, Option.map_map]
  rfl

section Arms

variable {command : List Argument} {r : Replacement}

theorem mem_redacted_at {j : Nat} : r ∈ (command[j]?).toList.map redactedArgument ↔
    ∃ a, command[j]? = some a ∧ r = redactedArgument a := by
  simp [eq_comm]

theorem mem_redacted_last : r ∈ ((command.drop 1).getLast?).toList.map redactedArgument ↔
    ∃ k a, command[k]? = some a ∧ (1 ≤ k ∧ k + 1 = command.length) ∧ r = redactedArgument a := by
  rw [getLast?_drop]
  split
  next hlen =>
    simp only [Option.toList_none, map_nil, not_mem_nil, false_iff]
    rintro ⟨k, a, -, ⟨h1, h2⟩, -⟩
    omega
  next hlen =>
    rw [getLast?_eq_getElem?, mem_redacted_at]
    constructor
    · rintro ⟨a, ha, rfl⟩
      exact ⟨command.length - 1, a, ha, by omega, rfl⟩
    · rintro ⟨k, a, ha, ⟨-, hk⟩, rfl⟩
      exact ⟨a, by rw [← ha]; congr 1; omega, rfl⟩

theorem mem_filterMap_drop {n : Nat} {f : Argument → Option Replacement} :
    r ∈ (command.drop n).filterMap f ↔ ∃ k a, command[k]? = some a ∧ n ≤ k ∧ f a = some r := by
  rw [mem_filterMap]
  constructor
  · rintro ⟨a, ha, hf⟩
    obtain ⟨m, hm⟩ := mem_iff_getElem?.mp ha
    rw [getElem?_drop] at hm
    exact ⟨n + m, a, hm, Nat.le_add_right n m, hf⟩
  · rintro ⟨k, a, ha, hk, hf⟩
    refine ⟨a, mem_iff_getElem?.mpr ⟨k - n, ?_⟩, hf⟩
    rw [getElem?_drop, Nat.add_sub_cancel' hk, ha]

theorem mem_redacted_behind {n : Nat} {P : Nat → Prop} [DecidablePred P] :
    (r ∈ (List.range' n (command.length - n)).filterMap fun i =>
      if P i then (command[i + 1]?).map redactedArgument else none) ↔
    ∃ k a, command[k]? = some a ∧ (n + 1 ≤ k ∧ P (k - 1)) ∧ r = redactedArgument a := by
  simp only [mem_filterMap, mem_range'_1]
  constructor
  · rintro ⟨i, ⟨hn, -⟩, hr⟩
    split at hr
    next hP =>
      obtain ⟨a, ha, rfl⟩ := Option.map_eq_some_iff.mp hr
      exact ⟨i + 1, a, ha, ⟨by omega, hP⟩, rfl⟩
    next => simp at hr
  · rintro ⟨k, a, ha, ⟨hk, hP⟩, rfl⟩
    have hlt := (List.getElem?_eq_some_iff.mp ha).1
    refine ⟨k - 1, by omega, ?_⟩
    rw [if_pos hP, show k - 1 + 1 = k by omega, ha]
    rfl

/-- The argument one behind a place of the first kind, or two behind one of the
second. -/
theorem mem_redacted_one_or_two {P Q : Nat → Prop} [DecidablePred P] [DecidablePred Q]
    (hPQ : ∀ i, P i → ¬ Q i) :
    (r ∈ (List.range command.length).filterMap fun i =>
      if P i then (command[i + 1]?).map redactedArgument
      else if Q i then (command[i + 2]?).map redactedArgument else none) ↔
    ∃ k a, command[k]? = some a ∧ (1 ≤ k ∧ P (k - 1) ∨ 2 ≤ k ∧ Q (k - 2)) ∧
      r = redactedArgument a := by
  simp only [mem_filterMap, mem_range]
  constructor
  · rintro ⟨i, -, hr⟩
    split at hr
    next hP =>
      obtain ⟨a, ha, rfl⟩ := Option.map_eq_some_iff.mp hr
      exact ⟨i + 1, a, ha, .inl ⟨by omega, hP⟩, rfl⟩
    next =>
      split at hr
      next hQ =>
        obtain ⟨a, ha, rfl⟩ := Option.map_eq_some_iff.mp hr
        exact ⟨i + 2, a, ha, .inr ⟨by omega, hQ⟩, rfl⟩
      next => simp at hr
  · rintro ⟨k, a, ha, hk, rfl⟩
    have hlt := (List.getElem?_eq_some_iff.mp ha).1
    rcases hk with ⟨hk, hP⟩ | ⟨hk, hQ⟩
    · refine ⟨k - 1, by omega, ?_⟩
      rw [if_pos hP, show k - 1 + 1 = k by omega, ha]
      rfl
    · refine ⟨k - 2, by omega, ?_⟩
      rw [if_neg fun hP => hPQ _ hP hQ, if_pos hQ, show k - 2 + 2 = k by omega, ha]
      rfl

end Arms

theorem mem_secretsOf {command : List Argument} {r : Replacement} :
    r ∈ secretsOf command ↔ ∃ k a m, command[k]? = some a ∧ markerAt (held command) k = some m ∧
      r = ⟨a.start, a.stop, m⟩ := by
  have hlen : (held command).length = command.length := length_map _
  -- an arm that gives every secret the same marker
  have hmarked {Q : Nat → Prop} [DecidablePred Q] :
      (∃ k a m, command[k]? = some a ∧ (if Q k then some redactedMarker else none) = some m ∧
          r = ⟨a.start, a.stop, m⟩) ↔
        ∃ k a, command[k]? = some a ∧ Q k ∧ r = redactedArgument a := by
    constructor
    · rintro ⟨k, a, m, ha, hm, hr⟩
      split at hm
      next hQ =>
        obtain rfl := Option.some.inj hm
        exact ⟨k, a, ha, hQ, hr⟩
      next => simp at hm
    · rintro ⟨k, a, ha, hQ, hr⟩
      exact ⟨k, a, _, ha, if_pos hQ, hr⟩
  unfold secretsOf markerAt
  simp only [word_held, hlen]
  cases (command[0]?).map (keyword ·.bytes) with
  | none => simp
  | some name =>
    simp only
    split_ifs with h1 h2 h3 h4 h5
    · rw [hmarked, mem_redacted_last]
    · rw [hmarked]
      cases hfind : (List.range' 1 (command.length - 1)).find? _ with
      | none => simp
      | some i =>
        simp only [mem_redacted_at, Option.map_some, Option.some.injEq]
        constructor
        · rintro ⟨a, ha, hr⟩
          exact ⟨i + 2, a, ha, rfl, hr⟩
        · rintro ⟨k, a, ha, rfl, hr⟩
          exact ⟨a, ha, hr⟩
    · rw [mem_filterMap_drop]
      have hheld {k : Nat} {a : Argument} (ha : command[k]? = some a) :
          (held command)[k]? = some a.bytes := by
        rw [held, getElem?_map, ha]
        rfl
      constructor
      · rintro ⟨k, a, ha, hk, hr⟩
        obtain ⟨m, hm, rfl⟩ := Option.map_eq_some_iff.mp hr
        exact ⟨k, a, m, ha, by rw [if_pos hk, hheld ha]; exact hm, rfl⟩
      · rintro ⟨k, a, m, ha, hm, rfl⟩
        split at hm
        next hk =>
          rw [hheld ha, Option.bind_some] at hm
          exact ⟨k, a, ha, hk, by rw [hm]; rfl⟩
        next => simp at hm
    · rw [hmarked]
      exact mem_redacted_behind
    · rw [hmarked]
      exact mem_redacted_one_or_two fun i h h' => by rw [h] at h'; exact absurd h' (by decide)
    · simp

/-! ## The text written -/

def piecesOf (command : List Argument) : List Piece :=
  command.mapIdx fun k a => ⟨a.start, a.stop, markerAt (held command) k⟩

def pieces (text : Str) : List Piece := (argvCommands text).flatMap piecesOf

theorem mem_piecesOf {command : List Argument} {x : Piece} : x ∈ piecesOf command ↔
    ∃ k a, command[k]? = some a ∧ x = ⟨a.start, a.stop, markerAt (held command) k⟩ := by
  rw [piecesOf, mem_mapIdx]
  constructor
  · rintro ⟨k, hk, rfl⟩
    exact ⟨k, command[k], getElem?_eq_getElem hk, rfl⟩
  · rintro ⟨k, a, ha, rfl⟩
    obtain ⟨hk, rfl⟩ := List.getElem?_eq_some_iff.mp ha
    exact ⟨k, hk, rfl⟩

theorem spans_piecesOf (command : List Argument) :
    (piecesOf command).map (fun x => (x.start, x.stop)) =
      command.map fun a => (a.start, a.stop) := by
  refine ext_getElem (by simp [piecesOf]) fun k h1 h2 => ?_
  simp [piecesOf]

theorem spans_pieces (text : Str) :
    (pieces text).map (fun x => (x.start, x.stop)) =
      (arguments text).map fun a => (a.start, a.stop) := by
  rw [← flatten_commands, pieces, map_flatMap, map_flatten, ← flatMap_def]
  exact congrArg (List.flatMap · (argvCommands text)) (funext spans_piecesOf)

theorem fits_of_cuts {text : Str} {i : Nat} {args : List Argument} {l : List Piece}
    (h : Cuts text args) (hl : l.map (fun x => (x.start, x.stop)) <:+
      args.map fun a => (a.start, a.stop))
    (hi : isCharBoundary text i = true) (hle : ∀ x ∈ l, i ≤ x.start) : Fits text i l := by
  induction l generalizing i with
  | nil => exact .nil hi
  | cons x l ih =>
    have hmem : (x.start, x.stop) ∈ args.map fun a => (a.start, a.stop) :=
      hl.subset (by simp)
    obtain ⟨a, ha, hspan⟩ := mem_map.mp hmem
    obtain ⟨hstart, hstop⟩ := Prod.mk.inj hspan
    have hproper := h.proper a ha
    have hboundary := h.boundary a ha
    rw [hstart, hstop] at hproper hboundary
    have hpairwise : (args.map fun a => (a.start, a.stop)).Pairwise fun p q => p.2 ≤ q.1 :=
      pairwise_map.mpr h.ordered
    have hordered := (pairwise_map.mp (hpairwise.sublist hl.sublist))
    refine .cons hi hboundary.1 (hle x (by simp)) hproper.1
      (ih ((suffix_cons _ _).trans hl) hboundary.2 fun y hy => ?_)
    exact (pairwise_cons.mp hordered).1 y hy

theorem fits_pieces (text : Str) : Fits text 0 (pieces text) :=
  fits_of_cuts (cuts_arguments text) (by rw [spans_pieces]) (isCharBoundary_zero text)
    fun _ _ => Nat.zero_le _

/-- What is written is the text with the secrets replaced and the rest kept. -/
theorem redactSecrets_eq_weave (text : Str) : redactSecrets text = weave text 0 (pieces text) := by
  have hmarks : Marks (pieces text) 0 (((argvCommands text).flatMap secretsOf).insertionSort
      fun r r' => r.start ≤ r'.start) := by
    refine ⟨pairwise_insertionSort _ _, fun r hr => .inr ?_, fun x hx m hm => ?_⟩
    · obtain ⟨command, hcommand, hr⟩ := mem_flatMap.mp ((mem_insertionSort _).mp hr)
      obtain ⟨k, a, m, ha, hm, rfl⟩ := mem_secretsOf.mp hr
      exact mem_flatMap.mpr ⟨command, hcommand, mem_piecesOf.mpr ⟨k, a, ha, by rw [hm]⟩⟩
    · obtain ⟨command, hcommand, hx⟩ := mem_flatMap.mp hx
      obtain ⟨k, a, ha, rfl⟩ := mem_piecesOf.mp hx
      refine (mem_insertionSort _).mpr (mem_flatMap.mpr ⟨command, hcommand, ?_⟩)
      exact mem_secretsOf.mpr ⟨k, a, m, ha, hm, rfl⟩
  rw [← spliced_eq_weave (fits_pieces text) hmarks, redactSecrets]
  split
  next hnone =>
    -- nothing to replace: the text itself
    rw [List.isEmpty_iff.mp hnone]
    have hall : get? text 0 (size text) = some text :=
      get?_eq_some.mpr ⟨[], [], by simp, rfl, by simp⟩
    simp [spliced, slice, hall]
  next => rfl

end Oxyn
