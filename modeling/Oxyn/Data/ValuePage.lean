/-
# `Oxyn.Data.ValuePage` — bounded pages of one value

A value is formatted in fragments; a writer keeps the bytes of one page of it, from the first
boundary behind the position asked for, and counts the rest.
-/
import Oxyn.Lib.Boundaries

namespace Oxyn.Data

open Text List

/-! ## The writer -/

def valuePageBytes : Nat := 16 * 1024

structure ValuePage where
  text : Str
  isNull : Bool
  offset : Nat
  nextOffset : Option Nat
  totalBytes : Nat
deriving DecidableEq

structure PageWriter where
  text : Str
  requested : Nat
  total : Nat
  start : Option Nat
  stop : Nat
  sealed : Bool

def PageWriter.asked (requested : Nat) : PageWriter := ⟨[], requested, 0, none, requested, false⟩

def sliceOf (value : Str) (start stop : Nat) : Option Str :=
  (get? value start stop).filter fun slice => !slice.isEmpty

def PageWriter.keep (w : PageWriter) (base start stop : Nat) : Option Str → PageWriter
  | some slice =>
    { w with
      start := some (w.start.getD (base + start))
      text := w.text ++ slice
      stop := base + stop }
  | none => w

def PageWriter.writeStr (w : PageWriter) (value : Str) : PageWriter :=
  let base := w.total
  let counted := { w with total := w.total + size value }
  if counted.total ≤ w.requested ∨ size w.text = valuePageBytes ∨ w.sealed = true then counted
  else
    let start := ceilBoundary value (min (w.requested - base) (size value))
    let stop := floorBoundary value start
      (min (start + (valuePageBytes - size w.text)) (size value))
    { counted with sealed := decide (stop < size value) }.keep base start stop
      (sliceOf value start stop)

/-! ## A page -/

inductive Cell where
  | missing
  | null
  | unformattable
  /-- The writes of the formatter, and does it fail behind them? -/
  | value (fragments : List Str) (fails : Bool)

inductive InspectError where
  | cancelled | arrow
deriving DecidableEq

/-- The fragments written one after the other, until one finds the inspection cancelled. -/
def PageWriter.writeAll (cancelled : Nat → Bool) (w : PageWriter) : Nat → List Str → Option PageWriter
  | _, [] => some w
  | n, value :: rest =>
    if cancelled n then none else writeAll cancelled (w.writeStr value) (n + 1) rest

def PageWriter.page (w : PageWriter) : ValuePage where
  text := w.text
  isNull := false
  offset := w.start.getD (min w.requested w.total)
  nextOffset := if w.stop < w.total then some w.stop else none
  totalBytes := w.total

/-- `cancelled n` is what the token answers the `n`-th time, and a token that was cancelled stays
so. -/
def inspectValue (cancelled : Nat → Bool) (cell : Cell) (offset : Nat) :
    Except InspectError (Option ValuePage) :=
  if cancelled 0 then .error .cancelled
  else
    match cell with
    | .missing => .ok none
    | .null => .ok (some ⟨[], true, 0, none, 0⟩)
    | .unformattable => .error .arrow
    | .value fragments fails =>
      match (PageWriter.asked offset).writeAll cancelled 1 fragments with
      | none => .error .cancelled
      | some w =>
        if cancelled (fragments.length + 1) then .error .cancelled
        else if fails then .error .arrow
        else .ok (some w.page)

/-! ## What the writer holds -/

/-- A page behind the first boundary from the position asked for, which is full or sealed when there
is more. -/
structure Kept (w : PageWriter) (written skipped rest : Str) : Prop where
  cut : written = skipped ++ w.text ++ rest
  first : IsFirst written w.requested (size skipped)
  room : size w.text ≤ valuePageBytes
  full : rest ≠ [] → w.sealed = true ∨ size w.text = valuePageBytes
  seals : w.sealed = true → rest ≠ []
  empty : w.text = [] → rest = [] ∧ w.start = none ∧ w.stop = w.requested
  held : w.text ≠ [] → w.start = some (size skipped) ∧ w.stop = size skipped + size w.text

/-- Nothing is kept while the position is not reached. -/
structure Waiting (w : PageWriter) : Prop where
  text : w.text = []
  start : w.start = none
  stop : w.stop = w.requested
  sealed : w.sealed = false

structure Holds (w : PageWriter) (written : Str) : Prop where
  total : w.total = size written
  waiting : size written ≤ w.requested → Waiting w
  kept : w.requested < size written → ∃ skipped rest, Kept w written skipped rest

theorem asked_holds (requested : Nat) : Holds (.asked requested) [] :=
  ⟨rfl, fun _ => ⟨rfl, rfl, rfl, rfl⟩, nofun⟩

section

variable {w : PageWriter} {written value : Str}

theorem Holds.count (h : Holds w written)
    (hskip : w.total + size value ≤ w.requested ∨ size w.text = valuePageBytes ∨ w.sealed = true) :
    Holds { w with total := w.total + size value } (written ++ value) := by
  have htotal := h.total
  refine ⟨by rw [size_append, ← htotal], fun hle => ?_, fun hlt => ?_⟩
  · rw [size_append] at hle
    obtain ⟨htext, hstart, hstop, hsealed⟩ := h.waiting (Nat.le_trans (Nat.le_add_right _ _) hle)
    exact ⟨htext, hstart, hstop, hsealed⟩
  · rw [size_append, ← htotal] at hlt
    have hclosed : size w.text = valuePageBytes ∨ w.sealed = true := by
      rcases hskip with hle | hclosed
      · exact absurd hle (Nat.not_le.mpr hlt)
      · exact hclosed
    -- a closed page has begun
    have hreached : w.requested < size written := by
      by_contra hnot
      obtain ⟨htext, -, -, hsealed⟩ := h.waiting (Nat.not_lt.mp hnot)
      rcases hclosed with hfull | htrue
      · rw [htext] at hfull
        exact absurd hfull (by decide)
      · exact absurd (htrue.symm.trans hsealed) nofun
    obtain ⟨skipped, rest, hkept⟩ := h.kept hreached
    have hne : w.text ≠ [] := by
      intro htext
      rcases hclosed with hfull | htrue
      · rw [htext] at hfull
        exact absurd hfull (by decide)
      · exact hkept.seals htrue (hkept.empty htext).1
    refine ⟨skipped, rest ++ value, ?_, hkept.first.append value, hkept.room,
      fun _ => hclosed.symm, fun htrue hnil => ?_, fun hnil => absurd hnil hne, fun _ => hkept.held hne⟩
    · rw [hkept.cut]
      simp only [append_assoc]
    · exact hkept.seals htrue (append_eq_nil_iff.mp hnil).1

theorem Holds.begin (h : Holds w written) (hreaches : w.requested < w.total + size value)
    (hopen : size w.text ≠ valuePageBytes ∧ w.sealed = false) :
    ∃ front back skipped, value = front ++ back ∧
      ceilBoundary value (min (w.requested - w.total) (size value)) = size front ∧
      written ++ front = skipped ++ w.text ∧ IsFirst (written ++ value) w.requested (size skipped) ∧
      (w.text = [] → w.start = none ∧ w.stop = w.requested ∧ skipped = written ++ front) ∧
      (w.text ≠ [] → w.start = some (size skipped) ∧ w.stop = size skipped + size w.text) := by
  have htotal := h.total
  have hfirst : IsFirst value (min (w.requested - w.total) (size value)) _ :=
    ceilBoundary_isFirst (Nat.min_le_right _ _)
  obtain ⟨front, back, hvalue, hfront⟩ := isCharBoundary_iff.mp hfirst.boundary
  by_cases hreached : w.requested < size written
  · -- the page has been reached: the fragment is read from its beginning
    obtain ⟨skipped, rest, hkept⟩ := h.kept hreached
    have hrest : rest = [] := by
      by_contra hne
      rcases hkept.full hne with htrue | hfull
      · exact absurd (htrue.symm.trans hopen.2) nofun
      · exact hopen.1 hfull
    have hzero : min (w.requested - w.total) (size value) = 0 := by omega
    rw [hzero] at hfirst hfront ⊢
    have hfront0 : ceilBoundary value 0 = 0 :=
      hfirst.unique ⟨isCharBoundary_zero value, Nat.le_refl 0, nofun⟩
    have hcut : written = skipped ++ w.text := by
      have hcut := hkept.cut
      rwa [hrest, append_nil] at hcut
    refine ⟨[], value, skipped, rfl, hfront0, ?_, hkept.first.append value, fun hnil => ?_,
      hkept.held⟩
    · rw [append_nil, hcut]
    · obtain ⟨-, hstart, hstop⟩ := hkept.empty hnil
      rw [hnil, append_nil] at hcut
      exact ⟨hstart, hstop, by rw [append_nil, hcut]⟩
  · obtain ⟨htext, hstart, hstop, -⟩ := h.waiting (Nat.not_lt.mp hreached)
    have hmin : min (w.requested - w.total) (size value) = w.requested - size written := by omega
    rw [hmin] at hfirst hfront ⊢
    have hbehind := hfirst.behind written
    rw [Nat.add_sub_cancel' (Nat.not_lt.mp hreached), ← hfront, ← size_append] at hbehind
    exact ⟨front, back, written ++ front, hvalue, hfront.symm, by rw [htext, append_nil],
      hbehind, fun _ => ⟨hstart, hstop, rfl⟩, fun hne => absurd htext hne⟩

theorem fragment_cut {front back : Str} (hvalue : value = front ++ back) (room : Nat) :
    ∃ mid rest, value = front ++ mid ++ rest ∧
      floorBoundary value (size front) (min (size front + room) (size value)) =
        size front + size mid ∧
      size mid ≤ room ∧ (rest = [] ∨ (4 ≤ room → mid ≠ [])) := by
  have hlow : isCharBoundary value (size front) = true :=
    isCharBoundary_iff.mpr ⟨front, back, hvalue, rfl⟩
  have hle : size front ≤ min (size front + room) (size value) := by
    rw [hvalue, size_append]
    omega
  obtain ⟨hstop, hlow', hhigh, hnone⟩ := floorBoundary_spec hlow hle
  obtain ⟨mid, hmid⟩ := get?_of_boundaries hlow hstop hlow'
  obtain ⟨u, rest, hcut, hu, hsize⟩ := get?_eq_some.mp hmid
  obtain ⟨rfl, -⟩ : front = u ∧ back = mid ++ rest :=
    append_inj_of_size (by rw [← hvalue, hcut, append_assoc]) hu.symm
  refine ⟨mid, rest, hcut, hsize.symm, by omega, ?_⟩
  cases hrest : rest with
  | nil => exact .inl rfl
  | cons c others =>
    refine .inr fun hroom hnil => ?_
    -- the next character would have fitted
    have hfits := c.utf8Size_le_four
    have hpos := c.utf8Size_pos
    have hnext : isCharBoundary value (size front + c.utf8Size) = true := by
      refine isCharBoundary_iff.mpr ⟨front ++ [c], others, ?_, ?_⟩
      · rw [hcut, hrest, hnil, append_nil, append_assoc]
        rfl
      · rw [size_append, size_cons, size_nil, Nat.add_zero]
    have hsizes : size value = size front + (c.utf8Size + size others) := by
      rw [hcut, hrest, hnil, append_nil, size_append, size_cons]
    rw [hnil, size_nil, Nat.add_zero] at hsize
    have hfalse := hnone (size front + c.utf8Size) (by omega) (by omega)
    exact absurd (hnext.symm.trans hfalse) nofun

theorem sliceOf_cut {front mid rest : Str} :
    sliceOf (front ++ mid ++ rest) (size front) (size front + size mid) =
      if mid = [] then none else some mid := by
  have hget : get? (front ++ mid ++ rest) (size front) (size front + size mid) = some mid :=
    get?_eq_some.mpr ⟨front, rest, rfl, rfl, rfl⟩
  unfold sliceOf
  rw [hget]
  cases mid with
  | nil => rfl
  | cons c mid => rfl

theorem Holds.write (h : Holds w written) (value : Str) :
    Holds (w.writeStr value) (written ++ value) := by
  unfold PageWriter.writeStr
  dsimp only
  split
  next hskip => exact h.count hskip
  next hskip =>
    rw [not_or, not_or, Bool.not_eq_true] at hskip
    obtain ⟨hreaches, hfull, hsealed⟩ := hskip
    obtain ⟨front, back, skipped, hvalue, hceil, hfront, hfirst, hempty, hheld⟩ :=
      h.begin (Nat.not_le.mp hreaches) ⟨hfull, hsealed⟩
    obtain ⟨mid, rest, hcut, hfloor, hroom, hprogress⟩ :=
      fragment_cut hvalue (valuePageBytes - size w.text)
    rw [hceil, hfloor]
    have hslice : sliceOf value (size front) (size front + size mid) =
        if mid = [] then none else some mid := by
      rw [hcut]
      exact sliceOf_cut
    have hseals : decide (size front + size mid < size value) = true ↔ rest ≠ [] := by
      rw [decide_eq_true_iff, hcut, size_append, size_append]
      cases rest with
      | nil => simp
      | cons c rest =>
        have hpos := c.utf8Size_pos
        simp only [size_cons, ne_eq, reduceCtorEq, not_false_eq_true, iff_true]
        omega
    have hsplit : written ++ value = skipped ++ (w.text ++ mid) ++ rest := by
      rw [hcut, ← append_assoc, ← append_assoc, hfront]
      simp only [append_assoc]
    have hsizes : size written + size front = size skipped + size w.text := by
      rw [← size_append, ← size_append, hfront]
    have htotal := h.total
    have hroomText : size w.text ≤ valuePageBytes := by
      by_cases hreached : w.requested < size written
      · obtain ⟨_, _, hkept⟩ := h.kept hreached
        exact hkept.room
      · rw [(h.waiting (Nat.not_lt.mp hreached)).text]
        exact Nat.zero_le _
    rw [hslice]
    by_cases hmid : mid = []
    · rw [if_pos hmid]
      rw [hmid, append_nil] at hsplit
      refine ⟨by rw [size_append, ← htotal]; rfl, fun hle => ?_, fun _ => ?_⟩
      · rw [size_append] at hle
        exact absurd hle (Nat.not_le.mpr (by rw [← htotal]; exact Nat.not_le.mp hreaches))
      · refine ⟨skipped, rest, hsplit, hfirst, hroomText, fun hne => .inl (hseals.mpr hne),
          hseals.mp, fun hnil => ?_, hheld⟩
        obtain ⟨hstart, hstop, -⟩ := hempty hnil
        refine ⟨hprogress.resolve_right fun hfits => hfits ?_ hmid, hstart, hstop⟩
        have htext : w.text = [] := hnil
        rw [htext]
        decide
    · rw [if_neg hmid]
      refine ⟨by rw [size_append, ← htotal]; rfl, fun hle => ?_, fun _ => ?_⟩
      · rw [size_append] at hle
        exact absurd hle (Nat.not_le.mpr (by rw [← htotal]; exact Nat.not_le.mp hreaches))
      · have hstart : some (w.start.getD (w.total + size front)) = some (size skipped) := by
          by_cases hnil : w.text = []
          · obtain ⟨hnone, -, hskipped⟩ := hempty hnil
            rw [hnone, hskipped, size_append, htotal]
            rfl
          · rw [(hheld hnil).1]
            rfl
        refine ⟨skipped, rest, hsplit, hfirst, ?_, fun hne => .inl (hseals.mpr hne), hseals.mp,
          fun hnil => absurd (append_eq_nil_iff.mp hnil).2 hmid, fun _ => ⟨hstart, ?_⟩⟩
        · show size (w.text ++ mid) ≤ valuePageBytes
          rw [size_append]
          omega
        · show w.total + (size front + size mid) = size skipped + size (w.text ++ mid)
          rw [size_append]
          omega

theorem Holds.writeAll {cancelled : Nat → Bool} {n : Nat} {fragments : List Str} {w' : PageWriter}
    (h : Holds w written) (hrun : w.writeAll cancelled n fragments = some w') :
    Holds w' (written ++ fragments.flatten) := by
  induction fragments generalizing w written n with
  | nil =>
    cases hrun
    rw [flatten_nil, append_nil]
    exact h
  | cons value rest ih =>
    unfold PageWriter.writeAll at hrun
    split at hrun
    · cases hrun
    · rw [flatten_cons, ← append_assoc]
      exact ih (h.write value) hrun

theorem writeAll_requested {cancelled : Nat → Bool} {n : Nat} {fragments : List Str}
    {w' : PageWriter} (hrun : w.writeAll cancelled n fragments = some w') :
    w'.requested = w.requested := by
  induction fragments generalizing w n with
  | nil =>
    cases hrun
    rfl
  | cons value rest ih =>
    unfold PageWriter.writeAll at hrun
    split at hrun
    · cases hrun
    · refine (ih hrun).trans ?_
      unfold PageWriter.writeStr
      dsimp only
      split
      · rfl
      · unfold PageWriter.keep
        split
        · rfl
        · rfl

end

/-! ## A page is the right one -/

structure PageRight (text : Str) (offset : Nat) (page : ValuePage) : Prop where
  room : size page.text ≤ valuePageBytes
  /-- From the first boundary at or behind the position, up to the next one or the end. -/
  part : offset ≤ size text → ∃ first, IsFirst text offset first ∧
    get? text first (page.nextOffset.getD (size text)) = some page.text
  past : size text < offset → page.text = [] ∧ page.nextOffset = none
  next : ∀ n, page.nextOffset = some n → isCharBoundary text n = true ∧ offset < n

def InsideLast (text : Str) (offset : Nat) : Prop :=
  ∃ front c, text = front ++ [c] ∧ size front < offset ∧ offset < size text

variable {offset : Nat}

theorem InsideLast.first {text : Str} (h : InsideLast text offset) :
    IsFirst text offset (size text) := by
  obtain ⟨front, c, rfl, hlow, hhigh⟩ := h
  refine ⟨isCharBoundary_size _, Nat.le_of_lt hhigh, fun i hle hlt => ?_⟩
  by_contra htrue
  obtain ⟨u, v, hcut, rfl⟩ := isCharBoundary_iff.mp (by simpa using htrue)
  rcases append_eq_append_iff.mp hcut with ⟨w, rfl, hw⟩ | ⟨w, rfl, hw⟩
  · cases w with
    | nil =>
      rw [size_append, size_nil] at hle
      omega
    | cons d w =>
      -- behind the first part, the text is one character
      obtain ⟨rfl, hnil⟩ := List.cons.inj hw
      obtain ⟨rfl, -⟩ := append_eq_nil_iff.mp hnil.symm
      exact absurd hlt (Nat.lt_irrefl _)
  · rw [size_append] at hlow
    omega

theorem insideLast_of_first {text : Str} (h : IsFirst text offset (size text))
    (hlt : offset < size text) : InsideLast text offset := by
  induction text using List.reverseRecOn with
  | nil => cases hlt
  | append_singleton front c _ =>
    refine ⟨front, c, rfl, ?_, hlt⟩
    by_contra hle
    have hboundary : isCharBoundary (front ++ [c]) (size front) = true :=
      isCharBoundary_iff.mpr ⟨front, [c], rfl, rfl⟩
    have hpos := c.utf8Size_pos
    have hfalse := h.first (size front) (Nat.not_lt.mp hle)
      (by rw [size_append, size_cons]; omega)
    exact absurd (hboundary.symm.trans hfalse) nofun

/-- A page is the right one, unless the position is inside the last character. -/
theorem page_right_iff {w : PageWriter} {text : Str} (h : Holds w text) :
    PageRight text w.requested w.page ↔ ¬ InsideLast text w.requested := by
  have htotal := h.total
  by_cases hreached : w.requested < size text
  · obtain ⟨skipped, rest, hkept⟩ := h.kept hreached
    by_cases hnil : w.text = []
    · -- nothing was kept: the first boundary is the end of the text
      obtain ⟨hrest, -, hstop⟩ := hkept.empty hnil
      have hskipped : text = skipped := by
        have hcut := hkept.cut
        rwa [hnil, hrest, append_nil, append_nil] at hcut
      have hnext : w.page.nextOffset = some w.requested := by
        unfold PageWriter.page
        dsimp only
        rw [hstop, htotal, if_pos hreached]
      refine iff_of_false (fun hright => ?_) (not_not_intro ?_)
      · exact absurd (hright.next _ hnext).2 (Nat.lt_irrefl _)
      · have hfirst := hkept.first
        rw [← hskipped] at hfirst
        exact insideLast_of_first hfirst hreached
    · obtain ⟨-, hstop⟩ := hkept.held hnil
      have hpos : 0 < size w.text := Nat.pos_of_ne_zero fun hzero => hnil (size_eq_zero.mp hzero)
      have hsizes : size text = size skipped + size w.text + size rest := by
        rw [hkept.cut, size_append, size_append]
      have hslice : get? text (size skipped) (size skipped + size w.text) = some w.text :=
        get?_eq_some.mpr ⟨skipped, rest, hkept.cut, rfl, rfl⟩
      refine iff_of_true ?_ fun hinside => ?_
      · refine ⟨hkept.room, fun _ => ⟨size skipped, hkept.first, ?_⟩,
          fun hlt => absurd hreached (Nat.lt_asymm hlt), fun n hn => ?_⟩
        · unfold PageWriter.page
          dsimp only
          split
          next => rw [hstop]; exact hslice
          next hend =>
            have hsame : size text = size skipped + size w.text := by omega
            rw [Option.getD_none, hsame]
            exact hslice
        · unfold PageWriter.page at hn
          dsimp only at hn
          split at hn
          next =>
            cases hn
            rw [hstop]
            have hle := hkept.first.le
            exact ⟨(boundaries_of_get? hslice).2, by omega⟩
          next => cases hn
      · have hsame := hinside.first.unique hkept.first
        omega
  · obtain ⟨htext, -, hstop, -⟩ := h.waiting (Nat.not_lt.mp hreached)
    have hnext : w.page.nextOffset = none := by
      unfold PageWriter.page
      dsimp only
      rw [hstop, htotal, if_neg hreached]
    refine iff_of_true ?_ fun ⟨_, _, _, _, hlt⟩ => hreached hlt
    refine ⟨?_, fun hle => ?_, fun _ => ⟨htext, hnext⟩, fun n hn => ?_⟩
    · show size w.text ≤ _
      rw [htext]
      exact Nat.zero_le _
    · have hsame : w.requested = size text := Nat.le_antisymm hle (Nat.not_lt.mp hreached)
      refine ⟨size text, ⟨isCharBoundary_size text, hle, fun i hi hlt => ?_⟩, ?_⟩
      · omega
      · rw [hnext, Option.getD_none]
        show get? text (size text) (size text) = some w.text
        rw [htext]
        exact get?_eq_some.mpr ⟨text, [], by simp, rfl, rfl⟩
    · cases hnext.symm.trans hn

theorem inspect_eq_page {cancelled : Nat → Bool} {fragments : List Str} {fails : Bool}
    {page : ValuePage}
    (h : inspectValue cancelled (.value fragments fails) offset = .ok (some page)) :
    ∃ w, Holds w fragments.flatten ∧ w.requested = offset ∧ page = w.page := by
  unfold inspectValue at h
  split at h
  · cases h
  · dsimp only at h
    split at h
    · cases h
    next w hrun =>
      split at h
      · cases h
      · split at h
        · cases h
        · cases h
          exact ⟨w, (asked_holds offset).writeAll hrun, writeAll_requested hrun, rfl⟩

/-- An inspection that nobody cancels. -/
def unwatched (_ : Nat) : Bool := false

theorem writeAll_unwatched (w : PageWriter) (n : Nat) (fragments : List Str) :
    ∃ w', w.writeAll unwatched n fragments = some w' := by
  induction fragments generalizing w n with
  | nil => exact ⟨w, rfl⟩
  | cons value rest ih => exact ih (w.writeStr value) (n + 1)

theorem inspect_unwatched (fragments : List Str) (offset : Nat) :
    ∃ page, inspectValue unwatched (.value fragments false) offset = .ok (some page) := by
  obtain ⟨w, hrun⟩ := writeAll_unwatched (.asked offset) 1 fragments
  refine ⟨w.page, ?_⟩
  have hopen : ¬ unwatched 0 = true := nofun
  unfold inspectValue
  rw [if_neg hopen]
  dsimp only
  rw [hrun]
  rfl

/-! ## Following the pages -/

/-- The pages visited, following what each says; the value may be formatted in other fragments at
each visit. -/
inductive Visits (shown : Nat → List Str) : Nat → List ValuePage → Prop
  | last {offset : Nat} {page : ValuePage} :
      inspectValue unwatched (.value (shown offset) false) offset = .ok (some page) →
      page.nextOffset = none → Visits shown offset [page]
  | more {offset next : Nat} {page : ValuePage} {pages : List ValuePage} :
      inspectValue unwatched (.value (shown offset) false) offset = .ok (some page) →
      page.nextOffset = some next → Visits shown next pages →
        Visits shown offset (page :: pages)

section

variable {text : Str} {shown : Nat → List Str}

variable {offset : Nat}

theorem right_of_boundary {cancelled : Nat → Bool} {fragments : List Str} {fails : Bool}
    {page : ValuePage} (htext : fragments.flatten = text)
    (h : inspectValue cancelled (.value fragments fails) offset = .ok (some page)) :
    PageRight text offset page ↔ ¬ InsideLast text offset := by
  obtain ⟨w, hholds, rfl, rfl⟩ := inspect_eq_page h
  exact page_right_iff (htext ▸ hholds)

theorem not_inside_of_boundary (h : isCharBoundary text offset = true) :
    ¬ InsideLast text offset := by
  intro hinside
  have hlt : offset < size text := by
    obtain ⟨_, _, _, _, hlt⟩ := hinside
    exact hlt
  exact absurd (h.symm.trans (hinside.first.first offset (Nat.le_refl _) hlt)) nofun

theorem visits_from (hshown : ∀ offset, (shown offset).flatten = text)
    (h : isCharBoundary text offset = true) :
    ∃ pages, Visits shown offset pages ∧
      get? text offset (size text) = some (pages.flatMap (·.text)) := by
  induction hn : size text - offset using Nat.strongRecOn generalizing offset with
  | _ n ih =>
    obtain ⟨page, hpage⟩ := inspect_unwatched (shown offset) offset
    have hright := (right_of_boundary (hshown offset) hpage).mpr (not_inside_of_boundary h)
    have hle := isCharBoundary_le h
    obtain ⟨first, hfirst, hpart⟩ := hright.part hle
    have hself : IsFirst text offset offset := ⟨h, Nat.le_refl _, fun i hi hlt => by omega⟩
    obtain rfl := hself.unique hfirst
    cases hnext : page.nextOffset with
    | none =>
      rw [hnext, Option.getD_none] at hpart
      refine ⟨[page], .last hpage hnext, ?_⟩
      rw [flatMap_cons, flatMap_nil, append_nil]
      exact hpart
    | some next =>
      rw [hnext, Option.getD_some] at hpart
      obtain ⟨hboundary, hless⟩ := hright.next next hnext
      have hwithin := isCharBoundary_le hboundary
      obtain ⟨pages, hvisits, hrest⟩ := ih _ (by omega) hboundary rfl
      refine ⟨page :: pages, .more hpage hnext hvisits, ?_⟩
      -- the page and what is behind it are one slice
      obtain ⟨u, v, hcut, hu, hsize⟩ := get?_eq_some.mp hpart
      obtain ⟨u', v', hcut', hu', hsize'⟩ := get?_eq_some.mp hrest
      have hempty : v' = [] := by
        have hsizes := congrArg size hcut'
        rw [size_append, size_append] at hsizes
        exact size_eq_zero.mp (by omega)
      rw [hempty, append_nil] at hcut'
      obtain ⟨hsame, -⟩ : u ++ page.text = u' ∧ v = pages.flatMap (·.text) :=
        append_inj_of_size (hcut.symm.trans hcut') (by rw [size_append]; omega)
      refine get?_eq_some.mpr ⟨u, [], ?_, hu, ?_⟩
      · rw [flatMap_cons, append_nil, ← append_assoc, hsame]
        exact hcut'
      · rw [flatMap_cons, size_append]
        omega

theorem visits_rebuild (hshown : ∀ offset, (shown offset).flatten = text) :
    ∃ pages, Visits shown 0 pages ∧ pages.flatMap (·.text) = text := by
  obtain ⟨pages, hvisits, hpages⟩ := visits_from hshown (isCharBoundary_zero text)
  refine ⟨pages, hvisits, ?_⟩
  obtain ⟨u, v, hcut, hu, hsize⟩ := get?_eq_some.mp hpages
  have hfront : u = [] := size_eq_zero.mp hu
  have hback : v = [] := by
    have hsizes := congrArg size hcut
    rw [size_append, size_append] at hsizes
    exact size_eq_zero.mp (by omega)
  rw [hfront, hback, append_nil, nil_append] at hcut
  exact hcut.symm

/-- A page is the part of the value it says, and the pages rebuild it, exactly if the position
asked for is not inside the last character. -/
theorem value_pages {cancelled : Nat → Bool} {fails : Bool} {offset : Nat} {page : ValuePage}
    (hshown : ∀ offset, (shown offset).flatten = text)
    (h : inspectValue cancelled (.value (shown offset) fails) offset = .ok (some page)) :
    (PageRight text offset page ∧
      ∃ pages, Visits shown 0 pages ∧ pages.flatMap (·.text) = text) ↔
      ¬ InsideLast text offset :=
  ⟨fun hall => (right_of_boundary (hshown offset) h).mp hall.1,
    fun hinside => ⟨(right_of_boundary (hshown offset) h).mpr hinside, visits_rebuild hshown⟩⟩

/-- A text of characters of two bytes. -/
def accents (n : Nat) : Str := replicate n 'é'

theorem size_accents (n : Nat) : size (accents n) = 2 * n := by
  induction n with
  | zero => rfl
  | succ n ih =>
    have hchar : 'é'.utf8Size = 2 := by decide
    rw [accents, replicate_succ, size_cons, ← accents, ih, hchar]
    omega

/-- The writes differ from one visit to the next. -/
def shownAccents (offset : Nat) : List Str :=
  if offset = 0 then [accents 4000, accents 5000] else [accents 9000]

theorem flatten_shownAccents (offset : Nat) : (shownAccents offset).flatten = accents 9000 := by
  unfold shownAccents
  split
  · rw [flatten_cons, flatten_singleton]
    exact replicate_append_replicate
  · exact flatten_singleton

/-- A value that fills more than a page, asked for from inside its second character. -/
theorem accents_are_paged : ∃ page,
    inspectValue unwatched (.value (shownAccents 3) false) 3 = .ok (some page) ∧
      PageRight (accents 9000) 3 page ∧
      ∃ pages, Visits shownAccents 0 pages ∧ pages.flatMap (·.text) = accents 9000 ∧
        1 < pages.length := by
  obtain ⟨page, hpage⟩ := inspect_unwatched (shownAccents 3) 3
  have hsize := size_accents 9000
  have hbefore : ¬ InsideLast (accents 9000) 3 := by
    rintro ⟨front, c, htext, hlt, -⟩
    have hchar := c.utf8Size_le_four
    rw [htext, size_append, size_cons, size_nil] at hsize
    omega
  obtain ⟨hright, pages, hvisits, hpages⟩ :=
    (value_pages flatten_shownAccents hpage).mpr hbefore
  refine ⟨page, hpage, hright, pages, hvisits, hpages, ?_⟩
  cases hvisits with
  | last hfirst hnone =>
    -- one page does not hold so much
    have hroom := ((right_of_boundary (flatten_shownAccents 0) hfirst).mpr
      (not_inside_of_boundary (isCharBoundary_zero _))).room
    rw [flatMap_cons, flatMap_nil, append_nil] at hpages
    rw [hpages, hsize] at hroom
    exact absurd hroom (by decide)
  | more _ _ hrest => cases hrest <;> simp

/-- From inside a last character of two bytes, the page is empty and leads to itself. -/
theorem last_character_is_stuck : ∃ page,
    inspectValue unwatched (.value [['é']] false) 1 = .ok (some page) ∧
      ¬ (PageRight ['é'] 1 page ∧
        ∃ pages, Visits (fun _ => [['é']]) 0 pages ∧ pages.flatMap (·.text) = ['é']) := by
  obtain ⟨page, hpage⟩ := inspect_unwatched [['é']] 1
  refine ⟨page, hpage, fun ⟨hright, _⟩ => ?_⟩
  have hflatten : [['é']].flatten = ['é'] := rfl
  exact (right_of_boundary hflatten hpage).mp hright ⟨[], 'é', rfl, by decide, by decide⟩

end

end Oxyn.Data
