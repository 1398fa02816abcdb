/-
# `Oxyn.ClickHouse.Bound` — values are bound where the classifier reads code

The placeholders `bind` takes (`takenFrom`) against those that lie in the scanner's code
(`CodePlaces`).
-/
import Oxyn.ClickHouse.Lexers

namespace Oxyn.ClickHouse.Params

open Text Cursor List

/-! ## The placeholders `bind` takes, and those in code -/

/-- The placeholders `bind` takes when it reads from `i` on: where, and the name. -/
def takenFrom (text : Str) (i : Nat) : List (Nat × Str) :=
  ((parts (bytes text)).items i).filterMap fun x => x.kind.map fun name => (x.start, name)

/-- The placeholders that lie in the scanner's code, from `i` on. -/
def inCodeFrom (text : Str) (i : Nat) : List (Nat × Str) :=
  (List.range' i (size text - i)).filterMap (placeAt text)

/-- One more name, unless it is there. -/
def addName (names : List Str) (name : Str) : List Str :=
  if name ∈ names then names else names ++ [name]

def distinctNames (places : List (Nat × Str)) : List Str :=
  (places.map Prod.snd).foldl addName []

/-- What the user and the gate see to bind: the placeholders in code, in text order. -/
structure CodePlaces (text : Str) (places : List (Nat × Str)) : Prop where
  ordered : places.Pairwise fun first second => first.1 < second.1
  mem_iff : ∀ i name, (i, name) ∈ places ↔
    (∃ stop, IsPlaceholder (bytes text) i name stop) ∧ Outside text i

structure BindsInCode (f : Formats) (text : Str) (places : List (Nat × Str)) : Prop where
  /-- A placeholder is taken if and only if it lies in code. -/
  taken : ∀ i name stop, IsPlaceholder (bytes text) i name stop →
    ((i, name) ∈ takenFrom text 0 ↔ Outside text i)
  /-- Nothing else is taken. -/
  only : ∀ i name, (i, name) ∈ takenFrom text 0 → ∃ stop, IsPlaceholder (bytes text) i name stop
  /-- The `n`-th value goes to the `n`-th distinct name. -/
  bound : ∀ (values : List (ScalarValue f)) bound, bind text values = .ok bound →
    bound.length = values.length ∧ ∀ n value, values[n]? = some value →
      ∃ name t, (distinctNames places)[n]? = some name ∧ textOf (n + 1) value = .ok t ∧
        bound[n]? = some (name, t)
  /-- As many values as names, each with a text, are bound. -/
  accepted : ∀ values : List (ScalarValue f), (distinctNames places).length = values.length →
    values.length ≤ maxPlaceholders →
      (∀ n value, values[n]? = some value → ∃ t, textOf (n + 1) value = .ok t) →
        ∃ bound, bind text values = .ok bound
  /-- Any other number of values is refused. -/
  refused : ∀ values : List (ScalarValue f), (distinctNames places).length ≠ values.length →
    ∃ e, bind text values = .error e

/-- What keeps the two readings together: no tag in code begins with a digit, and a placeholder in
code ends in code and holds the beginning of no other one in code. -/
structure Apart (text : Str) : Prop where
  tags : ∀ i, Outside text i → ¬ DigitTag (bytes text) i
  ends : ∀ i name stop, IsPlaceholder (bytes text) i name stop → Outside text i → InCode text stop
  inside : ∀ i name stop, IsPlaceholder (bytes text) i name stop → Outside text i →
    ∀ j name' stop', i < j → j < stop → IsPlaceholder (bytes text) j name' stop' → ¬ Outside text j

section Runs

variable {text : Str} {i j : Nat} {c : UInt8}

theorem turn_brace (b : List UInt8) (i : Nat) :
    turn b i openBrace =
      match placeholder b i with
      | some (name, stop) => (some name, stop)
      | none => (none, i + 1) := rfl

theorem turn_name (hc : (bytes text)[i]? = some c) :
    (turn (bytes text) i c).1 = nameAt (bytes text) i := by
  by_cases hbrace : c = openBrace
  · subst hbrace
    unfold nameAt
    rw [turn_brace, if_pos hc]
    cases placeholder (bytes text) i <;> rfl
  · rw [nameAt_eq_none hc hbrace]
    unfold turn
    repeat' split
    all_goals simp_all

theorem next_of_byte (hc : (bytes text)[i]? = some c) :
    (parts (bytes text)).next i =
      some ⟨nameAt (bytes text) i, i, (turn (bytes text) i c).2⟩ := by
  rw [← turn_name hc]
  exact part_eq_some.mpr ⟨c, hc, rfl⟩

theorem takenFrom_step (hc : (bytes text)[i]? = some c) :
    takenFrom text i = ((nameAt (bytes text) i).map fun name => (i, name)).toList ++
      takenFrom text (turn (bytes text) i c).2 := by
  unfold takenFrom
  rw [Reader.items_of_some (next_of_byte hc), filterMap_cons]
  cases nameAt (bytes text) i <;> rfl

theorem inCodeFrom_skip (hij : i ≤ j) (hj : j ≤ size text)
    (h : ∀ k, i ≤ k → k < j → placeAt text k = none) : inCodeFrom text i = inCodeFrom text j := by
  obtain ⟨m, rfl⟩ := Nat.exists_eq_add_of_le hij
  have hsplit : List.range' i (size text - i) =
      List.range' i m ++ List.range' (i + m) (size text - (i + m)) := by
    rw [range'_append_1]
    congr 1
    omega
  unfold inCodeFrom
  rw [hsplit, filterMap_append, filterMap_eq_nil_iff.mpr, nil_append]
  intro k hk
  obtain ⟨hik, hkm⟩ := mem_range'_1.mp hk
  exact h k hik hkm

theorem inCodeFrom_step (hi : i < size text) :
    inCodeFrom text i = (placeAt text i).toList ++ inCodeFrom text (i + 1) := by
  have hlen : size text - i = (size text - (i + 1)) + 1 := by omega
  unfold inCodeFrom
  rw [hlen, range'_succ, filterMap_cons]
  cases placeAt text i <;> rfl

theorem mem_inCodeFrom {place : Nat × Str} :
    place ∈ inCodeFrom text 0 ↔ placeAt text place.1 = some place := by
  unfold inCodeFrom
  rw [mem_filterMap]
  constructor
  · rintro ⟨k, -, hplace⟩
    rw [(placeAt_eq_some.mp hplace).2.2]
    exact hplace
  · intro hplace
    refine ⟨place.1, mem_range'_1.mpr ⟨Nat.zero_le _, ?_⟩, hplace⟩
    have hname := (placeAt_eq_some.mp hplace).2.1
    unfold nameAt at hname
    split at hname
    next h =>
      have hlt := (List.getElem?_eq_some_iff.mp h).1
      rw [length_bytes] at hlt
      omega
    · cases hname

theorem placeAt_of_inCode (hi : InCode text i) :
    placeAt text i = (nameAt (bytes text) i).map fun name => (i, name) := by
  unfold placeAt
  split
  next => rfl
  next houtside =>
    have hnone : nameAt (bytes text) i = none :=
      if_neg fun hbrace => houtside (hi.outside (no_region_at hbrace (by decide)))
    rw [hnone]
    rfl

/-- The run lemma: from wherever the reading is in code, `bind` takes the placeholders that lie in
code. -/
theorem takenFrom_eq (h : Apart text) (j : Nat) (hcode : InCode text j) :
    takenFrom text j = inCodeFrom text j := by
  induction j using Reader.reading_induction (r := parts (bytes text)) with
  | h j ih =>
    cases hc : (bytes text)[j]? with
    | none =>
      have hlen : size text ≤ j := List.getElem?_eq_none_iff.mp hc
      have hnone : (parts (bytes text)).next j = none := by
        show part (bytes text) j = none
        unfold part
        rw [hc]
        rfl
      unfold takenFrom inCodeFrom
      rw [Reader.items_of_none hnone, Nat.sub_eq_zero_of_le hlen]
      rfl
    | some c =>
      have hbounds := turn_bounds hc
      have hlt := (List.getElem?_eq_some_iff.mp hc).1
      rw [length_bytes] at hlt hbounds
      have ih := ih _ (next_of_byte hc)
      rw [takenFrom_step hc]
      by_cases hleap : Leap (bytes text) j
      · cases hleap with
        | placeholder name stop hbrace hplace =>
          obtain rfl := Option.some.inj (hc.symm.trans hbrace)
          have hstop : (turn (bytes text) j openBrace).2 = stop := by
            rw [turn_brace, hplace]
          have hgrammar := (placeholder_iff hbrace).mp hplace
          have houtside : Outside text j := hcode.outside (no_region_at hbrace (by decide))
          simp only [hstop] at ih hbounds ⊢
          rw [ih (h.ends j name stop hgrammar houtside), inCodeFrom_step hlt,
            placeAt_of_inCode hcode, inCodeFrom_skip (i := j + 1) (j := stop) (by omega) hbounds.2]
          -- what begins in it does not lie in code
          intro k hjk hks
          cases hk : placeAt text k with
          | none => rfl
          | some place =>
            obtain ⟨hout, hname, -⟩ := placeAt_eq_some.mp hk
            obtain ⟨stop', hgrammar'⟩ := nameAt_eq_some.mp hname
            exact absurd hout (h.inside j name stop hgrammar houtside k _ stop' hjk hks hgrammar')
        | digitTag htag => exact absurd htag (h.tags j (hcode.outside (no_region_of_digitTag htag)))
      · obtain ⟨hnone, hclear⟩ := turn_sound hcode hc hleap
        rw [turn_name hc] at hnone
        rw [hnone, ih hclear.code,
          inCodeFrom_skip (Nat.le_of_lt hbounds.1) hbounds.2 hclear.empty]
        rfl

theorem codePlaces_inCodeFrom (text : Str) : CodePlaces text (inCodeFrom text 0) where
  ordered := by
    unfold inCodeFrom
    refine pairwise_filterMap.mpr ((pairwise_lt_range' 1).imp ?_)
    intro a b hab place hplace place' hplace'
    rw [(placeAt_eq_some.mp hplace).2.2, (placeAt_eq_some.mp hplace').2.2]
    exact hab
  mem_iff := by
    intro i name
    rw [mem_inCodeFrom, placeAt_eq_some, nameAt_eq_some]
    exact ⟨fun h => ⟨h.2.1, h.1⟩, fun h => ⟨h.2, h.1, rfl⟩⟩

end Runs

/-! ## The values -/

section Values

variable {f : Formats} {text : Str}

theorem collect_eq_ok {names all : List Str} {items : List (Item (Option Str))}
    (h : collect names items = .ok all) :
    all = (items.filterMap Item.kind).foldl addName names := by
  induction items generalizing names with
  | nil => exact (Except.ok.inj h).symm
  | cons x items ih =>
    rw [collect] at h
    rw [filterMap_cons]
    cases hk : x.kind with
    | none =>
      rw [hk] at h
      exact ih h
    | some name =>
      rw [hk] at h
      simp only at h
      rw [foldl_cons, addName]
      split at h
      next hmem =>
        rw [if_pos hmem]
        exact ih h
      next hmem =>
        rw [if_neg hmem]
        split at h
        · cases h
        · exact ih h

theorem length_le_foldl_addName (all names : List Str) :
    names.length ≤ (all.foldl addName names).length := by
  induction all generalizing names with
  | nil => exact Nat.le_refl _
  | cons name all ih =>
    have hone : names.length ≤ (addName names name).length := by
      unfold addName
      split
      · exact Nat.le_refl _
      · rw [length_append]
        exact Nat.le_add_right _ _
    exact Nat.le_trans hone (ih _)

variable {names : List Str}

theorem collect_of_length_le {items : List (Item (Option Str))}
    (h : ((items.filterMap Item.kind).foldl addName names).length ≤ maxPlaceholders) :
    collect names items = .ok ((items.filterMap Item.kind).foldl addName names) := by
  induction items generalizing names with
  | nil => rfl
  | cons x items ih =>
    rw [filterMap_cons] at h ⊢
    rw [collect]
    cases hk : x.kind with
    | none =>
      rw [hk] at h
      exact ih h
    | some name =>
      rw [hk] at h
      simp only [foldl_cons] at h ⊢
      split
      next hmem =>
        rw [addName, if_pos hmem] at h ⊢
        exact ih h
      next hmem =>
        rw [addName, if_neg hmem] at h ⊢
        have hlen := length_le_foldl_addName (items.filterMap Item.kind) (names ++ [name])
        rw [length_append, length_singleton] at hlen
        rw [if_neg (by omega)]
        exact ih h

theorem taken_names (text : Str) :
    (((parts (bytes text)).items 0).filterMap Item.kind) = (takenFrom text 0).map Prod.snd := by
  unfold takenFrom
  rw [map_filterMap]
  refine filterMap_congr fun x _ => ?_
  cases x.kind <;> rfl

theorem placeholders_eq_ok (h : placeholders (bytes text) = .ok names) :
    names = distinctNames (takenFrom text 0) := by
  rw [collect_eq_ok h, taken_names]
  rfl

theorem placeholders_of_length_le
    (h : (distinctNames (takenFrom text 0)).length ≤ maxPlaceholders) :
    placeholders (bytes text) = .ok (distinctNames (takenFrom text 0)) := by
  unfold placeholders
  rw [collect_of_length_le (by rw [taken_names]; exact h), taken_names]
  rfl

theorem boundFrom_eq_ok {rank : Nat} {values : List (ScalarValue f)}
    {bound : List Bound} (hlen : names.length = values.length)
    (h : boundFrom rank names values = .ok bound) :
    bound.length = values.length ∧ ∀ n value, values[n]? = some value →
      ∃ name t, names[n]? = some name ∧ textOf (n + rank) value = .ok t ∧
        bound[n]? = some (name, t) := by
  induction names generalizing rank values bound with
  | nil =>
    obtain rfl := length_eq_zero_iff.mp hlen.symm
    obtain rfl := Except.ok.inj h
    exact ⟨rfl, fun n value hvalue => by simp at hvalue⟩
  | cons name names ih =>
    cases values with
    | nil => simp at hlen
    | cons value values =>
      rw [boundFrom] at h
      cases htext : textOf rank value with
      | error e => rw [htext] at h; cases h
      | ok t =>
      cases hrest : boundFrom (rank + 1) names values with
      | error e => rw [htext, hrest] at h; cases h
      | ok rest =>
      rw [htext, hrest] at h
      obtain rfl := Except.ok.inj h
      obtain ⟨hlength, hvalues⟩ := ih (Nat.succ.inj hlen) hrest
      refine ⟨congrArg (· + 1) hlength, fun n v hv => ?_⟩
      cases n with
      | zero =>
        obtain rfl := Option.some.inj hv
        exact ⟨name, t, rfl, by rw [Nat.zero_add]; exact htext, rfl⟩
      | succ n =>
        obtain ⟨name', t', hname, ht, hbound⟩ := hvalues n v hv
        refine ⟨name', t', hname, ?_, hbound⟩
        rw [Nat.add_right_comm]
        exact ht

theorem exists_boundFrom (rank : Nat) (names : List Str) (values : List (ScalarValue f))
    (h : ∀ n value, values[n]? = some value → ∃ t, textOf (n + rank) value = .ok t) :
    ∃ bound, boundFrom rank names values = .ok bound := by
  induction names generalizing rank values with
  | nil => exact ⟨[], rfl⟩
  | cons name names ih =>
    cases values with
    | nil => exact ⟨[], rfl⟩
    | cons value values =>
      obtain ⟨t, ht⟩ := h 0 value rfl
      rw [Nat.zero_add] at ht
      obtain ⟨rest, hrest⟩ := ih (rank + 1) values fun n v hv => by
        obtain ⟨t, ht⟩ := h (n + 1) v hv
        rw [Nat.add_right_comm] at ht
        exact ⟨t, ht⟩
      exact ⟨(name, t) :: rest, by rw [boundFrom, ht, hrest]; rfl⟩

theorem bindsInCode_of_taken (h : takenFrom text 0 = inCodeFrom text 0) :
    BindsInCode f text (inCodeFrom text 0) where
  taken := by
    intro i name stop hplace
    rw [h, (codePlaces_inCodeFrom text).mem_iff]
    exact ⟨And.right, fun houtside => ⟨⟨stop, hplace⟩, houtside⟩⟩
  only := by
    intro i name hmem
    rw [h, (codePlaces_inCodeFrom text).mem_iff] at hmem
    exact hmem.1
  bound := by
    intro values bound hbind
    unfold bind at hbind
    cases hnames : placeholders (bytes text) with
    | error e => rw [hnames] at hbind; cases hbind
    | ok names =>
      rw [hnames] at hbind
      obtain rfl : names = distinctNames (inCodeFrom text 0) := by
        rw [placeholders_eq_ok hnames, h]
      change (if _ then _ else _) = _ at hbind
      split at hbind
      next hlen => exact boundFrom_eq_ok hlen hbind
      · cases hbind
  accepted := by
    intro values hlen hmax htexts
    obtain ⟨bound, hbound⟩ := exists_boundFrom 1 (distinctNames (inCodeFrom text 0)) values htexts
    refine ⟨bound, ?_⟩
    unfold bind
    rw [placeholders_of_length_le (by rw [h]; omega), h]
    exact (if_pos hlen).trans hbound
  refused := by
    intro values hlen
    unfold bind
    cases hnames : placeholders (bytes text) with
    | error e => exact ⟨e, rfl⟩
    | ok names =>
      obtain rfl : names = distinctNames (inCodeFrom text 0) := by
        rw [placeholders_eq_ok hnames, h]
      exact ⟨_, if_neg hlen⟩

end Values

/-- Values are bound where the classifier reads code, as long as each placeholder there stands
apart from what else the text holds. -/
theorem values_bound_in_code (f : Formats) (text : Str) (h : Apart text) :
    ∃ places, CodePlaces text places ∧ BindsInCode f text places :=
  ⟨_, codePlaces_inCodeFrom text, bindsInCode_of_taken (takenFrom_eq h 0 .zero)⟩

/-- `{a:T('}')}'{b:T}'`: a brace in the type is quoted, and what looks like another placeholder is a
string. -/
def quotedBrace : Str := "\x7ba:T('\x7d')\x7d'\x7bb:T\x7d'".toList

def textFormats : Formats :=
  ⟨Str, Str, Str, Str, Str, Str, id, id, id, id, id, id⟩

theorem quotedBrace_is_bound :
    ∃ places, CodePlaces quotedBrace places ∧ BindsInCode textFormats quotedBrace places := by
  have hends : ∀ i < 17, Outside quotedBrace i →
      ∀ place ∈ placeholder (bytes quotedBrace) i, InCode quotedBrace place.2 := by
    decide
  have hinside : ∀ i < 17, Outside quotedBrace i →
      ∀ place ∈ placeholder (bytes quotedBrace) i, ∀ j < place.2, i < j →
        (nameAt (bytes quotedBrace) j).isSome = true → ¬ Outside quotedBrace j := by
    decide
  have hbrace : ∀ {i name stop}, IsPlaceholder (bytes quotedBrace) i name stop →
      (bytes quotedBrace)[i]? = some openBrace := by
    rintro i name stop ⟨_, _, _, hdrop, -⟩
    exact (drop_succ_of_drop hdrop).1
  have hlt : ∀ {i : Nat}, (bytes quotedBrace)[i]? = some openBrace → i < 17 := fun h =>
    (List.getElem?_eq_some_iff.mp h).1
  refine values_bound_in_code textFormats quotedBrace ⟨?_, ?_, ?_⟩
  · rintro i - ⟨_, _, _, hdrop, -⟩
    have hno : ∀ c ∈ bytes quotedBrace, c ≠ Byte.dollar := by decide
    exact hno _ (mem_of_getElem? (drop_succ_of_drop hdrop).1) rfl
  · intro i name stop hplace houtside
    have h := hbrace hplace
    exact hends i (hlt h) houtside _ ((placeholder_iff h).mpr hplace)
  · intro i name stop hplace houtside j name' stop' hij hjs hplace'
    have h := hbrace hplace
    refine hinside i (hlt h) houtside _ ((placeholder_iff h).mpr hplace) j hjs hij ?_
    rw [nameAt_eq_some.mpr ⟨stop', hplace'⟩]
    rfl

/-- `SELECT {a:Int /* } {b:Int} */ }`. -/
def commentInType : Str :=
  "SELECT \x7ba:Int /* \x7d \x7bb:Int\x7d */ \x7d".toList

/-- A comment in the type ends the placeholder early, and what is left of it is read as code. -/
theorem comment_in_type_is_read : ¬ ∃ f places, BindsInCode f commentInType places := by
  rintro ⟨f, places, h⟩
  obtain ⟨stop, hplace⟩ : ∃ stop, IsPlaceholder (bytes commentInType) 19 ['b'] stop :=
    nameAt_eq_some.mp (by decide)
  have htaken : (19, ['b']) ∈ takenFrom commentInType 0 := by decide
  have houtside := (h.taken 19 ['b'] stop hplace).mp htaken
  revert houtside
  decide

-- the other leap: a string to `bind` alone hides a placeholder the scanner reads as code
example : takenFrom "$1$ {a:Int} $1$".toList 0 = [] ∧
    inCodeFrom "$1$ {a:Int} $1$".toList 0 = [(4, ['a'])] := by decide

end Oxyn.ClickHouse.Params
