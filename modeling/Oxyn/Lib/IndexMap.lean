/-
# `Oxyn.Lib.IndexMap` — maps that keep the order of insertion

An insertion-ordered map is the list of its entries, no key twice.  A key that is
there keeps its place when it is written again.  Every operation is known by what is
found under a key afterwards.
-/
import Mathlib.Algebra.Order.Ring.Int
import Mathlib.Data.List.Basic
import Mathlib.Data.List.Nodup

/-- Entries in order of insertion, no key twice. -/
structure IndexMap (κ ν : Type) where
  entries : List (κ × ν)
  nodup : (entries.map Prod.fst).Nodup

namespace IndexMap

open List

variable {κ ν : Type} [DecidableEq κ]

def empty : IndexMap κ ν := ⟨[], nodup_nil⟩

/-- What is found under a key in a list of entries. -/
def find (k : κ) : List (κ × ν) → Option ν
  | [] => none
  | e :: rest => if e.1 = k then some e.2 else find k rest

def get (m : IndexMap κ ν) (k : κ) : Option ν := find k m.entries

def values (m : IndexMap κ ν) : List ν := m.entries.map Prod.snd

/-- The value under a key, changed in place. -/
def modify (m : IndexMap κ ν) (k : κ) (f : ν → ν) : IndexMap κ ν where
  entries := m.entries.map fun e => (e.1, if e.1 = k then f e.2 else e.2)
  nodup := by
    rw [map_map]
    exact m.nodup

def mapValues (m : IndexMap κ ν) (f : ν → ν) : IndexMap κ ν where
  entries := m.entries.map fun e => (e.1, f e.2)
  nodup := by
    rw [map_map]
    exact m.nodup

/-- The entries whose key a predicate keeps. -/
def retain (m : IndexMap κ ν) (p : κ → Bool) : IndexMap κ ν where
  entries := m.entries.filter fun e => p e.1
  nodup := m.nodup.sublist (filter_sublist.map _)

def remove (m : IndexMap κ ν) (k : κ) : IndexMap κ ν := m.retain fun j => j ≠ k

/-- The entries a predicate on keys and values keeps. -/
def filter (m : IndexMap κ ν) (p : κ → ν → Bool) : IndexMap κ ν where
  entries := m.entries.filter fun e => p e.1 e.2
  nodup := m.nodup.sublist (filter_sublist.map _)

theorem find_eq_none {k : κ} {l : List (κ × ν)} : find k l = none ↔ k ∉ l.map Prod.fst := by
  induction l with
  | nil => simp [find]
  | cons e rest ih =>
    rw [find, map_cons, mem_cons, not_or, ← ih]
    split
    next h => simp [h]
    next h => simp [Ne.symm h]

/-- The entry of a key, made with a value where there is none. -/
def orInsert (m : IndexMap κ ν) (k : κ) (v : ν) : IndexMap κ ν :=
  match h : m.get k with
  | some _ => m
  | none =>
    { entries := m.entries ++ [(k, v)]
      nodup := by
        rw [map_append, List.nodup_append]
        refine ⟨m.nodup, nodup_singleton _, ?_⟩
        intro a ha b hb hab
        rw [map_singleton, mem_singleton] at hb
        rw [hab, hb] at ha
        exact find_eq_none.mp h ha }

/-- A key and its value, in the place the key has. -/
def insert (m : IndexMap κ ν) (k : κ) (v : ν) : IndexMap κ ν :=
  (m.orInsert k v).modify k fun _ => v

/-! ## What is found under a key -/

section Get

variable {m : IndexMap κ ν} {k j : κ} {v : ν} {f : ν → ν}

@[simp] theorem get_empty : (empty : IndexMap κ ν).get k = none := rfl

theorem find_map (g : κ → ν → ν) (l : List (κ × ν)) :
    find k (l.map fun e => (e.1, g e.1 e.2)) = (find k l).map (g k) := by
  induction l with
  | nil => rfl
  | cons e rest ih =>
    simp only [map_cons, find, ih]
    split
    next h => rw [h, Option.map_some]
    next => rfl

theorem find_append (l l' : List (κ × ν)) : find k (l ++ l') = (find k l).or (find k l') := by
  induction l with
  | nil => simp [find]
  | cons e rest ih =>
    simp only [cons_append, find, ih]
    split
    · rfl
    · rfl

theorem find_filter (p : κ → Bool) (l : List (κ × ν)) :
    find k (l.filter fun e => p e.1) = if p k then find k l else none := by
  induction l with
  | nil => simp [find]
  | cons e rest ih =>
    cases he : p e.1 with
    | false =>
      rw [filter_cons_of_neg (by simp [he]), ih, find]
      split
      next hk =>
        split
        next hek => rw [hek, hk] at he; simp at he
        next => rfl
      next => rfl
    | true =>
      rw [filter_cons_of_pos (by simp [he]), find, find, ih]
      split
      next hek => rw [← hek, he, if_pos rfl]
      next => rfl

theorem get_retain {p : κ → Bool} : (m.retain p).get k = if p k then m.get k else none :=
  find_filter p m.entries

theorem isSome_get : (m.get k).isSome ↔ k ∈ m.entries.map Prod.fst := by
  rw [Option.isSome_iff_ne_none]
  exact (not_congr find_eq_none).trans not_not

theorem get_modify : (m.modify k f).get j = if j = k then (m.get j).map f else m.get j := by
  have h := find_map (k := j) (fun i w => if i = k then f w else w) m.entries
  refine h.trans ?_
  by_cases hj : j = k
  · simp only [hj, ↓reduceIte]
    rfl
  · simp only [hj, ↓reduceIte, Option.map_id']
    rfl

theorem get_mapValues : (m.mapValues f).get j = (m.get j).map f :=
  find_map (fun _ w => f w) m.entries

theorem get_remove : (m.remove k).get j = if j = k then none else m.get j := by
  rw [remove, get_retain]
  by_cases hj : j = k
  · simp [hj]
  · simp [hj]

theorem get_orInsert :
    (m.orInsert k v).get j = if j = k then some ((m.get k).getD v) else m.get j := by
  unfold orInsert
  split
  next w h =>
    split
    next hj => rw [hj, h, Option.getD_some]
    next => rfl
  next h =>
    show find j (m.entries ++ [(k, v)]) = _
    rw [find_append]
    split
    next hj =>
      have hnone : find k m.entries = none := h
      rw [hj, hnone, h]
      simp [find]
    next hj =>
      have hlast : find j [(k, v)] = none := by simp [find, Ne.symm hj]
      rw [hlast, Option.or_none]
      rfl

theorem get_insert : (m.insert k v).get j = if j = k then some v else m.get j := by
  rw [insert, get_modify, get_orInsert]
  split
  next => rfl
  next => rfl

theorem find_eq_some {l : List (κ × ν)} (hnodup : (l.map Prod.fst).Nodup) :
    find k l = some v ↔ (k, v) ∈ l := by
  induction l with
  | nil => simp [find]
  | cons e rest ih =>
    rw [map_cons, nodup_cons] at hnodup
    rw [find, mem_cons]
    split
    next hk =>
      constructor
      · intro h
        exact .inl (Prod.ext hk.symm (Option.some.inj h).symm)
      · rintro (h | h)
        · rw [← h]
        · exact absurd (hk ▸ mem_map_of_mem h) hnodup.1
    next hk =>
      rw [ih hnodup.2]
      constructor
      · exact .inr
      · rintro (h | h)
        · exact absurd (congrArg Prod.fst h).symm hk
        · exact h

theorem get_eq_some : m.get k = some v ↔ (k, v) ∈ m.entries := find_eq_some m.nodup

theorem get_filter {p : κ → ν → Bool} :
    (m.filter p).get k = some v ↔ m.get k = some v ∧ p k v = true := by
  rw [get_eq_some, get_eq_some]
  exact mem_filter

theorem any_values {p : ν → Bool} : m.values.any p = true ↔ ∃ k v, m.get k = some v ∧ p v = true := by
  unfold values
  rw [any_map, any_eq_true]
  constructor
  · rintro ⟨⟨k, v⟩, hmem, hp⟩
    exact ⟨k, v, get_eq_some.mpr hmem, hp⟩
  · rintro ⟨k, v, hget, hp⟩
    exact ⟨(k, v), get_eq_some.mp hget, hp⟩

end Get

/-! ## Writing entries one after the other -/

section Entries

variable {m m' : IndexMap κ ν} {k j : κ} {v : ν}

omit [DecidableEq κ] in
theorem ext_entries (h : m.entries = m'.entries) : m = m' := by
  cases m
  cases m'
  cases h
  rfl

theorem entries_insert_of_new (h : k ∉ m.entries.map Prod.fst) :
    (m.insert k v).entries = m.entries ++ [(k, v)] := by
  have hnone : m.get k = none := find_eq_none.mpr h
  have hnew : (m.orInsert k v).entries = m.entries ++ [(k, v)] := by
    unfold orInsert
    split
    next w hsome => rw [hsome] at hnone; cases hnone
    next => rfl
  show (m.orInsert k v).entries.map (fun e => (e.1, if e.1 = k then v else e.2)) = _
  rw [hnew, map_append, map_singleton, if_pos rfl]
  refine congrArg (· ++ [(k, v)]) ((map_congr_left ?_).trans (map_id _))
  intro e he
  have hne : e.1 ≠ k := fun heq => h (heq ▸ mem_map_of_mem he)
  rw [if_neg hne]
  rfl

theorem mem_keys_insert :
    j ∈ (m.insert k v).entries.map Prod.fst ↔ j = k ∨ j ∈ m.entries.map Prod.fst := by
  rw [← isSome_get, get_insert, ← isSome_get]
  split
  next h => simp [h]
  next h => simp [h]

theorem mem_keys_foldl_insert {l : List (κ × ν)} :
    j ∈ (l.foldl (fun m e => m.insert e.1 e.2) m).entries.map Prod.fst ↔
      j ∈ m.entries.map Prod.fst ∨ j ∈ l.map Prod.fst := by
  induction l generalizing m with
  | nil => simp
  | cons e l ih =>
    rw [foldl_cons, ih, mem_keys_insert, map_cons, mem_cons]
    constructor
    · rintro ((h | h) | h)
      · exact .inr (.inl h)
      · exact .inl h
      · exact .inr (.inr h)
    · rintro (h | h | h)
      · exact .inl (.inr h)
      · exact .inl (.inl h)
      · exact .inr h

theorem entries_foldl_insert {l : List (κ × ν)} (hnodup : (l.map Prod.fst).Nodup)
    (hnew : ∀ e ∈ l, e.1 ∉ m.entries.map Prod.fst) :
    (l.foldl (fun m e => m.insert e.1 e.2) m).entries = m.entries ++ l := by
  induction l generalizing m with
  | nil => rw [foldl_nil, append_nil]
  | cons e l ih =>
    obtain ⟨hfresh, hnodup⟩ := nodup_cons.mp hnodup
    have hlater : ∀ f ∈ l, f.1 ∉ (m.insert e.1 e.2).entries.map Prod.fst := by
      intro f hf hmem
      rcases mem_keys_insert.mp hmem with heq | hold
      · exact hfresh (heq ▸ mem_map_of_mem hf)
      · exact hnew f (mem_cons_of_mem _ hf) hold
    rw [foldl_cons, ih hnodup hlater, entries_insert_of_new (hnew e mem_cons_self),
      append_assoc, singleton_append]

omit [DecidableEq κ] in
theorem nodup_flatMap_entries {α : Type} {f : κ × ν → List α} (key : α → κ)
    (hkey : ∀ e ∈ m.entries, ∀ x ∈ f e, key x = e.1) (hf : ∀ e ∈ m.entries, (f e).Nodup) :
    (m.entries.flatMap f).Nodup := by
  refine nodup_flatMap.mpr ⟨hf, ?_⟩
  refine (pairwise_map.mp m.nodup).imp_of_mem fun {a b} ha hb hne x hxa hxb => ?_
  exact hne ((hkey a ha x hxa).symm.trans (hkey b hb x hxb))

end Entries

/-! ## What holds of every entry -/

/-- What every entry of a map satisfies. -/
def All (m : IndexMap κ ν) (P : κ → ν → Prop) : Prop := ∀ k v, m.get k = some v → P k v

namespace All

variable {m : IndexMap κ ν} {P Q : κ → ν → Prop}

theorem empty : (IndexMap.empty : IndexMap κ ν).All P := fun _ _ h => nomatch h

theorem imp (h : m.All P) (himp : ∀ k v, P k v → Q k v) : m.All Q :=
  fun k v hget => himp k v (h k v hget)

theorem insert (h : m.All P) {k : κ} {v : ν} (hnew : P k v) : (m.insert k v).All P := by
  intro j w hget
  rw [get_insert] at hget
  split at hget
  next hj => exact hj ▸ Option.some.inj hget ▸ hnew
  next => exact h j w hget

theorem orInsert (h : m.All P) {k : κ} {v : ν} (hnew : P k v) : (m.orInsert k v).All P := by
  intro j w hget
  rw [get_orInsert] at hget
  split at hget
  next hj =>
    obtain rfl := Option.some.inj hget
    cases hk : m.get k with
    | none => exact hj ▸ hnew
    | some old => exact hj ▸ h k old hk
  next => exact h j w hget

theorem remove (h : m.All P) (k : κ) : (m.remove k).All P := by
  intro j w hget
  rw [get_remove] at hget
  split at hget
  · cases hget
  · exact h j w hget

theorem remove_ne (h : m.All P) (k : κ) : (m.remove k).All fun j w => j ≠ k ∧ P j w := by
  intro j w hget
  rw [get_remove] at hget
  split at hget
  · cases hget
  next hj => exact ⟨hj, h j w hget⟩

theorem filter (h : m.All P) (p : κ → ν → Bool) :
    (m.filter p).All fun k v => P k v ∧ p k v = true := by
  intro k v hget
  obtain ⟨hget, hp⟩ := get_filter.mp hget
  exact ⟨h k v hget, hp⟩

theorem modify (h : m.All P) {k : κ} {f : ν → ν} (hnew : ∀ v, P k v → P k (f v)) :
    (m.modify k f).All P := by
  intro j w hget
  rw [get_modify] at hget
  split at hget
  next hj =>
    obtain ⟨v, hv, rfl⟩ := Option.map_eq_some_iff.mp hget
    exact hj ▸ hnew v (hj ▸ h j v hv)
  next => exact h j w hget

theorem mapValues (h : m.All P) {f : ν → ν} (hnew : ∀ k v, P k v → Q k (f v)) :
    (m.mapValues f).All Q := by
  intro k w hget
  rw [get_mapValues] at hget
  obtain ⟨v, hv, rfl⟩ := Option.map_eq_some_iff.mp hget
  exact hnew k v (h k v hv)

end All

/-! ## Writing a list again -/

section Relist

variable {ι : Type} (key : ι → κ) (fresh : ι → ν) (reuse : ι → ν → ν)

/-- One entry of a new list: what the old map held under its key is taken from it. -/
def relistStep (s : IndexMap κ ν × IndexMap κ ν) (info : ι) : IndexMap κ ν × IndexMap κ ν :=
  (s.1.remove (key info),
    s.2.insert (key info) (match s.1.get (key info) with
      | some existing => reuse info existing
      | none => fresh info))

/-- The entries of a new list, each with what the old map held under its key. -/
def relist (infos : List ι) (previous : IndexMap κ ν) : IndexMap κ ν :=
  (infos.foldl (relistStep key fresh reuse) (previous, empty)).2

variable {key fresh reuse}

variable {infos : List ι} {left made : IndexMap κ ν}

theorem get_foldl_relistStep {k : κ} {v : ν}
    (h : (infos.foldl (relistStep key fresh reuse) (left, made)).2.get k = some v) :
    made.get k = some v ∨ ∃ info ∈ infos, key info = k ∧
      (v = fresh info ∨ ∃ old, left.get k = some old ∧ v = reuse info old) := by
  induction infos generalizing left made with
  | nil => exact .inl h
  | cons info rest ih =>
    obtain hmade | ⟨other, hmem, hkey, hother⟩ := ih h
    · rw [get_insert] at hmade
      split at hmade
      next hk =>
        refine .inr ⟨info, mem_cons_self, hk.symm, ?_⟩
        obtain rfl := Option.some.inj hmade
        split
        next existing hget => exact .inr ⟨existing, hk ▸ hget, rfl⟩
        next => exact .inl rfl
      next => exact .inl hmade
    · refine .inr ⟨other, mem_cons_of_mem _ hmem, hkey, hother.imp_right ?_⟩
      rintro ⟨old, hold, hv⟩
      rw [get_remove] at hold
      split at hold
      · simp at hold
      · exact ⟨old, hold, hv⟩

variable {previous : IndexMap κ ν}

theorem get_relist {k : κ} {v : ν} (h : (relist key fresh reuse infos previous).get k = some v) :
    ∃ info ∈ infos, key info = k ∧
      (v = fresh info ∨ ∃ old, previous.get k = some old ∧ v = reuse info old) := by
  obtain hempty | hinfo := get_foldl_relistStep h
  · simp at hempty
  · exact hinfo

theorem All.relist {P : κ → ν → Prop}
    (h : previous.All P) (hfresh : ∀ info, P (key info) (fresh info))
    (hreuse : ∀ info v, P (key info) v → P (key info) (reuse info v)) :
    (relist key fresh reuse infos previous).All P := by
  intro k v hget
  obtain ⟨info, -, rfl, rfl | ⟨old, hold, rfl⟩⟩ := get_relist hget
  · exact hfresh info
  · exact hreuse info old (h _ _ hold)

theorem get_foldl_relistStep_of_not_mem {k : κ} (h : k ∉ infos.map key) :
    (infos.foldl (relistStep key fresh reuse) (left, made)).2.get k = made.get k := by
  induction infos generalizing left made with
  | nil => rfl
  | cons info rest ih =>
    rw [map_cons, mem_cons, not_or] at h
    rw [foldl_cons]
    refine (ih h.2).trans ?_
    rw [get_insert, if_neg h.1]

theorem get_foldl_relistStep_of_mem {k : κ} (h : k ∈ infos.map key) :
    ∃ info, (infos.foldl (relistStep key fresh reuse) (left, made)).2.get k =
      some (match left.get k with
        | some old => if (infos.map key).count k = 1 then reuse info old else fresh info
        | none => fresh info) := by
  induction infos generalizing left made with
  | nil => cases h
  | cons info rest ih =>
    rw [foldl_cons, map_cons, count_cons]
    by_cases hkey : key info = k
    · subst hkey
      by_cases hrest : key info ∈ rest.map key
      · obtain ⟨other, hother⟩ := ih hrest
        refine ⟨other, hother.trans ?_⟩
        have hcount := count_pos_iff.mpr hrest
        rw [get_remove, if_pos rfl, if_pos (beq_self_eq_true _)]
        cases left.get (key info) with
        | none => rfl
        | some old => exact congrArg some (if_neg (by omega)).symm
      · refine ⟨info, (get_foldl_relistStep_of_not_mem hrest).trans ?_⟩
        rw [get_insert, if_pos rfl, count_eq_zero.mpr hrest]
        cases left.get (key info) with
        | none => rfl
        | some old => simp
    · obtain ⟨other, hother⟩ := ih ((mem_cons.mp h).resolve_left (Ne.symm hkey))
      refine ⟨other, hother.trans ?_⟩
      rw [get_remove, if_neg (Ne.symm hkey), if_neg (by simpa using hkey), Nat.add_zero]

/-- Under a key that is listed again: what was there when it is listed once, and something new
otherwise. -/
theorem get_relist_of_mem {k : κ} (h : k ∈ infos.map key) :
    ∃ info, (relist key fresh reuse infos previous).get k =
      some (match previous.get k with
        | some old => if (infos.map key).count k = 1 then reuse info old else fresh info
        | none => fresh info) :=
  get_foldl_relistStep_of_mem h

theorem get_relist_of_not_mem {k : κ}
    (h : k ∉ infos.map key) : (relist key fresh reuse infos previous).get k = none :=
  get_foldl_relistStep_of_not_mem h

/-- A listed entry that was there keeps what is under it, and one not listed is gone. -/
def Kept (keys : List κ) (same : ν → ν → Prop) (old new : IndexMap κ ν) : Prop :=
  ∀ k, (k ∈ keys → ∀ v, old.get k = some v → ∃ w, new.get k = some w ∧ same v w) ∧
    (k ∉ keys → new.get k = none)

/-- A listed entry that was there has nothing under it, or is listed once and was not dropped
before. -/
def Spared (keys : List κ) (blank : ν → Prop) (dropped : Bool) (old : IndexMap κ ν) : Prop :=
  ∀ k ∈ keys, ∀ v, old.get k = some v → blank v ∨ (dropped = false ∧ keys.count k = 1)

theorem kept_relist_iff {same : ν → ν → Prop} {blank : ν → Prop}
    {old : IndexMap κ ν} (hfresh : ∀ info v, same v (fresh info) ↔ blank v)
    (hreuse : ∀ info v, same v (reuse info v)) (dropped : Bool) :
    Kept (infos.map key) same old
        (relist key fresh reuse infos (bif dropped then .empty else old)) ↔
      Spared (infos.map key) blank dropped old := by
  constructor
  · intro h k hk v hold
    obtain ⟨w, hget, hsame⟩ := (h k).1 hk v hold
    obtain ⟨info, hinfo⟩ := get_relist_of_mem hk
    rw [hinfo] at hget
    obtain rfl := Option.some.inj hget
    cases dropped with
    | true => exact .inl ((hfresh info v).mp hsame)
    | false =>
      simp only [cond_false, hold] at hsame
      split at hsame
      next hcount => exact .inr ⟨rfl, hcount⟩
      next => exact .inl ((hfresh info v).mp hsame)
  · intro h k
    refine ⟨fun hk v hold => ?_, get_relist_of_not_mem⟩
    obtain ⟨info, hinfo⟩ := get_relist_of_mem hk
    refine ⟨_, hinfo, ?_⟩
    rcases h k hk v hold with hblank | ⟨rfl, hcount⟩
    · split
      next other hother =>
        cases dropped with
        | true => cases hother
        | false =>
          obtain rfl := Option.some.inj (hold.symm.trans hother)
          split
          · exact hreuse info v
          · exact (hfresh info v).mpr hblank
      next => exact (hfresh info v).mpr hblank
    · simp only [cond_false, hold, hcount, if_true]
      exact hreuse info v

end Relist

end IndexMap
