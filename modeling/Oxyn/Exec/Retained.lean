/-
# `Oxyn.Exec.Retained` — results nobody reads any more

Results are kept in a map, and their identifiers in a list, a result that is inserted going to its
end.
-/
import Mathlib.Data.List.Dedup
import Oxyn.Lib.IndexMap
import Oxyn.Lib.Runs
import Oxyn.Data.Spill

open Offsets Runs

namespace Oxyn.Retained

open List

/-- What the buffers report while a pruning reads them. -/
structure Reported (Result : Type) where
  strongCount : Result → Nat
  residentBytes : Result → Nat
  cachedBytes : Result → Nat
  spilledBytes : Result → Nat

/-- A result without a reader, and what it holds. -/
structure Idle (Id : Type) where
  id : Id
  memory : Nat
  spill : Nat
deriving DecidableEq

/-- How many results, and what they hold: a count, or a limit. -/
structure Totals where
  count : Nat
  memory : Nat
  spill : Nat

def Totals.within (totals limits : Totals) : Bool :=
  decide (totals.count ≤ limits.count) && decide (totals.memory ≤ limits.memory) &&
    decide (totals.spill ≤ limits.spill)

def Totals.less {Id : Type} (totals : Totals) (item : Idle Id) : Totals :=
  ⟨totals.count - 1, totals.memory - item.memory, totals.spill - item.spill⟩

structure RetainedResults (Id Result : Type) where
  entries : IndexMap Id Result
  order : List Id

section

variable {Id Result : Type} [DecidableEq Id]

/-- `prune_to`, along the idle results. -/
def evictIdle (limits : Totals) :
    List (Idle Id) → Totals → IndexMap Id Result → List Result → List Result × IndexMap Id Result
  | [], _, entries, evicted => (evicted, entries)
  | item :: rest, totals, entries, evicted =>
    if totals.within limits then (evicted, entries)
    else
      match entries.get item.id with
      | some entry =>
        evictIdle limits rest (totals.less item) (entries.remove item.id) (evicted ++ [entry])
      | none => evictIdle limits rest totals entries evicted

namespace RetainedResults

def default : RetainedResults Id Result := ⟨.empty, []⟩

variable (results : RetainedResults Id Result)

def insert (id : Id) (result : Result) : RetainedResults Id Result :=
  ⟨results.entries.insert id result, results.order.filter (· ≠ id) ++ [id]⟩

def remove (id : Id) : RetainedResults Id Result :=
  ⟨results.entries.remove id, results.order.filter (· ≠ id)⟩

/-- A result that is held and has no reader. -/
def idle? (reported : Reported Result) (id : Id) : Option (Idle Id) := do
  let entry ← results.entries.get id
  if reported.strongCount entry ≠ 1 then none
  else
    some ⟨id, satAdd Data.wordMax (reported.residentBytes entry) (reported.cachedBytes entry),
      reported.spilledBytes entry⟩

def pruneTo (reported : Reported Result) (limits : Totals) :
    List Result × RetainedResults Id Result :=
  let idle := results.order.filterMap (results.idle? reported)
  let totals : Totals := ⟨idle.length,
    idle.foldl (fun sum item => satAdd Data.wordMax sum item.memory) 0,
    idle.foldl (fun sum item => satAdd Data.wordMax sum item.spill) 0⟩
  let (evicted, entries) := evictIdle limits idle totals results.entries []
  (evicted, ⟨entries, results.order.filter fun id => (entries.get id).isSome⟩)

def held (id : Id) : Bool := (results.entries.get id).isSome

end RetainedResults

/-- What is done with the results; a reader pins one, or lets it go, without them. -/
inductive Op (Id Result : Type) where
  | insert (id : Id) (result : Result)
  | get (id : Id)
  | remove (id : Id)
  | prune (reported : Reported Result) (limits : Totals)

def RetainedResults.apply (results : RetainedResults Id Result) :
    Op Id Result → RetainedResults Id Result
  | .insert id result => results.insert id result
  | .get _ => results
  | .remove id => results.remove id
  | .prune reported limits => (results.pruneTo reported limits).2

def OpStep (results : RetainedResults Id Result) (op : Op Id Result)
    (results' : RetainedResults Id Result) : Prop := results' = results.apply op

/-! ## One pruning -/

/-- What is held by the results of a list. -/
def total (idle : List (Idle Id)) : Totals :=
  ⟨idle.length, (idle.map (·.memory)).sum, (idle.map (·.spill)).sum⟩

omit [DecidableEq Id] in
theorem less_total (item : Idle Id) (rest : List (Idle Id)) :
    (total (item :: rest)).less item = total rest := by
  simp [total, Totals.less]

omit [DecidableEq Id] in
theorem within_total_nil (limits : Totals) : (total ([] : List (Idle Id))).within limits = true := by
  simp [total, Totals.within]

theorem foldl_satAdd {α : Type} (size : α → Nat) (items : List α) (sum : Nat)
    (h : sum + (items.map size).sum ≤ Data.wordMax) :
    items.foldl (fun sum item => satAdd Data.wordMax sum (size item)) sum =
      sum + (items.map size).sum := by
  induction items generalizing sum with
  | nil => rfl
  | cons item rest ih =>
    rw [map_cons, sum_cons, ← Nat.add_assoc] at h ⊢
    have hexact : satAdd Data.wordMax sum (size item) = sum + size item := by
      unfold satAdd
      omega
    rw [foldl_cons, hexact, ih _ h]

/-- The shortest prefix goes that leaves the rest within the limits. -/
structure Evicts (limits : Totals) (idle : List (Idle Id)) (exact : Prop)
    (before after : IndexMap Id Result) (evicted : List Result) (n : Nat) : Prop where
  evicted : evicted = (idle.take n).filterMap fun item => before.get item.id
  gone : ∀ id, after.get id = if id ∈ (idle.take n).map (·.id) then none else before.get id
  within : exact → (total (idle.drop n)).within limits = true
  shortest : exact → ∀ k < n, (total (idle.drop k)).within limits = false

theorem evicts_evictIdle (limits : Totals) {idle : List (Idle Id)} {entries : IndexMap Id Result}
    (hnodup : (idle.map (·.id)).Nodup) (hheld : ∀ item ∈ idle, (entries.get item.id).isSome)
    (totals : Totals) (evicted : List Result) :
    ∃ n own, (evictIdle limits idle totals entries evicted).1 = evicted ++ own ∧
      Evicts limits idle (totals = total idle) entries
        (evictIdle limits idle totals entries evicted).2 own n := by
  induction idle generalizing entries totals evicted with
  | nil =>
    exact ⟨0, [], (append_nil _).symm, rfl, fun id => by simp [evictIdle],
      fun _ => within_total_nil limits, fun _ k hk => absurd hk (Nat.not_lt_zero k)⟩
  | cons item rest ih =>
    rw [evictIdle]
    split
    next hwithin =>
      exact ⟨0, [], (append_nil _).symm, rfl, fun id => by simp,
        fun h => h ▸ hwithin, fun _ k hk => absurd hk (Nat.not_lt_zero k)⟩
    next hover =>
      obtain ⟨entry, hentry⟩ := Option.isSome_iff_exists.mp (hheld item mem_cons_self)
      rw [map_cons, nodup_cons] at hnodup
      have hne : ∀ other ∈ rest, other.id ≠ item.id := fun other hmem heq =>
        hnodup.1 (heq ▸ mem_map_of_mem hmem)
      have hrest : ∀ other ∈ rest, ((entries.remove item.id).get other.id).isSome := by
        intro other hmem
        rw [IndexMap.get_remove, if_neg (hne other hmem)]
        exact hheld other (mem_cons_of_mem _ hmem)
      obtain ⟨n, own, hown, h⟩ := ih hnodup.2 hrest (totals.less item) (evicted ++ [entry])
      simp only [hentry]
      refine ⟨n + 1, entry :: own, by rw [hown, append_assoc]; rfl, ?_, fun id => ?_,
        fun hexact => ?_, fun hexact k hk => ?_⟩
      · simp only [take_succ_cons, filterMap_cons, hentry, h.evicted]
        refine congrArg _ (filterMap_congr fun other hmem => ?_)
        rw [IndexMap.get_remove, if_neg (hne other (mem_of_mem_take hmem))]
      · rw [h.gone, IndexMap.get_remove, take_succ_cons, map_cons]
        by_cases hid : id = item.id
        · simp [hid]
        · simp [hid, mem_cons]
      · exact h.within (by rw [hexact, less_total])
      · cases k with
        | zero => exact hexact ▸ eq_false_of_ne_true hover
        | succ k => exact h.shortest (by rw [hexact, less_total]) k (Nat.lt_of_succ_lt_succ hk)

/-! ## Runs -/

/-- The identifiers inserted, in order. -/
def inserted (tr : List (Op Id Result)) : List Id :=
  tr.filterMap fun
    | .insert id _ => some id
    | _ => none

/-- The identifiers inserted or looked up, in order. -/
def used (tr : List (Op Id Result)) : List Id :=
  tr.filterMap fun
    | .insert id _ | .get id => some id
    | _ => none

theorem dedup_snoc (l : List Id) (id : Id) :
    (l ++ [id]).dedup = l.dedup.filter (· ≠ id) ++ [id] := by
  induction l with
  | nil => simp
  | cons x l ih =>
    rw [cons_append, dedup_cons, dedup_cons, ih]
    by_cases hx : x = id
    · rw [hx, if_pos (mem_append_right l mem_cons_self)]
      by_cases hmem : id ∈ l <;> simp [hmem]
    · by_cases hmem : x ∈ l <;> simp [hx, hmem]

structure Tidy (tr : List (Op Id Result)) (results : RetainedResults Id Result) : Prop where
  order : results.order = (inserted tr).dedup.filter results.held
  known : ∀ id, results.held id = true → id ∈ inserted tr

namespace Tidy

variable {tr : List (Op Id Result)} {results : RetainedResults Id Result}

theorem nodup (h : Tidy tr results) : results.order.Nodup :=
  h.order ▸ (nodup_dedup _).filter _

theorem mem_order (h : Tidy tr results) {id : Id} : id ∈ results.order ↔ results.held id = true := by
  rw [h.order, mem_filter, mem_dedup]
  exact ⟨fun hid => hid.2, fun hid => ⟨h.known id hid, hid⟩⟩

theorem idle_eq (h : Tidy tr results) (reported : Reported Result) :
    results.order.filterMap (results.idle? reported) =
      (inserted tr).dedup.filterMap (results.idle? reported) := by
  rw [h.order, filterMap_filter]
  refine filterMap_congr fun id _ => ?_
  unfold RetainedResults.held RetainedResults.idle?
  cases results.entries.get id <;> rfl

end Tidy

theorem idle?_eq_some {results : RetainedResults Id Result} {reported : Reported Result} {id : Id}
    {item : Idle Id} (h : results.idle? reported id = some item) :
    item.id = id ∧ ∃ entry, results.entries.get id = some entry ∧ reported.strongCount entry = 1 := by
  obtain ⟨entry, hentry, h⟩ := Option.bind_eq_some_iff.mp h
  split at h
  · cases h
  next hcount => exact ⟨(Option.some.inj h) ▸ rfl, entry, hentry, not_not.mp hcount⟩

theorem ids_idle (results : RetainedResults Id Result) (reported : Reported Result) (ids : List Id) :
    (ids.filterMap (results.idle? reported)).map (·.id) =
      ids.filter fun id => (results.idle? reported id).isSome := by
  induction ids with
  | nil => rfl
  | cons id rest ih =>
    rw [filterMap_cons, filter_cons]
    cases hidle : results.idle? reported id with
    | none => exact ih
    | some item =>
      rw [map_cons, ih, (idle?_eq_some hidle).1]
      rfl

/-- A pruning evicts results without a reader alone, as few as it can, in a given order; a total
beyond the largest word is left out. -/
def EvictsShortest (recency : List Id) (results : RetainedResults Id Result)
    (reported : Reported Result) (limits : Totals) : Prop :=
  let idle := recency.filterMap (results.idle? reported)
  (∀ result ∈ (results.pruneTo reported limits).1, reported.strongCount result = 1) ∧
    ∃ n, Evicts limits idle
      ((total idle).memory ≤ Data.wordMax ∧ (total idle).spill ≤ Data.wordMax) results.entries
      (results.pruneTo reported limits).2.entries (results.pruneTo reported limits).1 n

theorem Tidy.evictsShortest {tr : List (Op Id Result)} {results : RetainedResults Id Result}
    (h : Tidy tr results) (reported : Reported Result) (limits : Totals) :
    EvictsShortest (inserted tr).dedup results reported limits := by
  unfold EvictsShortest RetainedResults.pruneTo
  rw [← h.idle_eq]
  have hnodup := ids_idle results reported results.order ▸ h.nodup.filter _
  have hitem : ∀ item ∈ results.order.filterMap (results.idle? reported), ∃ entry,
      results.entries.get item.id = some entry ∧ reported.strongCount entry = 1 := by
    intro item hmem
    obtain ⟨id, -, hsome⟩ := mem_filterMap.mp hmem
    obtain ⟨rfl, hentry⟩ := idle?_eq_some hsome
    exact hentry
  generalize results.order.filterMap (results.idle? reported) = idle at hnodup hitem ⊢
  have hheld : ∀ item ∈ idle, (results.entries.get item.id).isSome := fun item hmem =>
    let ⟨_, hentry, _⟩ := hitem item hmem
    hentry ▸ rfl
  obtain ⟨n, own, hown, hevicts⟩ := evicts_evictIdle limits hnodup hheld
    ⟨idle.length, idle.foldl (fun sum item => satAdd Data.wordMax sum item.memory) 0,
      idle.foldl (fun sum item => satAdd Data.wordMax sum item.spill) 0⟩ []
  rw [nil_append] at hown
  refine ⟨fun result hmem => ?_, n, ?_⟩
  · dsimp only at hmem
    rw [hown, hevicts.evicted] at hmem
    obtain ⟨item, htaken, hentry⟩ := mem_filterMap.mp hmem
    obtain ⟨entry, hget, hcount⟩ := hitem item (mem_of_mem_take htaken)
    rwa [← Option.some.inj (hget.symm.trans hentry)]
  · have hexact : (total idle).memory ≤ Data.wordMax ∧ (total idle).spill ≤ Data.wordMax →
        (⟨idle.length, idle.foldl (fun sum item => satAdd Data.wordMax sum item.memory) 0,
          idle.foldl (fun sum item => satAdd Data.wordMax sum item.spill) 0⟩ : Totals) =
            total idle := by
      intro ⟨hmemory, hspill⟩
      rw [foldl_satAdd _ _ _ (by rwa [Nat.zero_add]), foldl_satAdd _ _ _ (by rwa [Nat.zero_add]),
        Nat.zero_add, Nat.zero_add]
      rfl
    exact ⟨hown.trans hevicts.evicted, hevicts.gone, fun h => hevicts.within (hexact h),
      fun h => hevicts.shortest (hexact h)⟩

omit [DecidableEq Id] in
theorem inserted_snoc (tr : List (Op Id Result)) (op : Op Id Result) :
    inserted (tr ++ [op]) = inserted tr ++ inserted [op] := filterMap_append

theorem Tidy.drops {tr : List (Op Id Result)} {results results' : RetainedResults Id Result}
    (h : Tidy tr results) {op : Op Id Result} (hop : inserted [op] = [])
    (horder : results'.order = results.order.filter results'.held)
    (hheld : ∀ id, results'.held id = true → results.held id = true) :
    Tidy (tr ++ [op]) results' := by
  have hsame : inserted (tr ++ [op]) = inserted tr := by
    rw [inserted_snoc, hop, append_nil]
  refine ⟨?_, fun id hid => hsame ▸ h.known id (hheld id hid)⟩
  rw [horder, h.order, filter_filter, hsame]
  refine filter_congr fun id _ => ?_
  cases hid : results'.held id with
  | false => rfl
  | true => exact hheld id hid

theorem Tidy.step {tr : List (Op Id Result)} {results results' : RetainedResults Id Result}
    (h : Tidy tr results) {op : Op Id Result} (hstep : OpStep results op results') :
    Tidy (tr ++ [op]) results' := by
  obtain rfl := hstep
  cases op with
  | insert id result =>
    have hheld : ∀ other, (results.apply (.insert id result)).held other =
        (decide (other = id) || results.held other) := by
      intro other
      simp only [RetainedResults.held, RetainedResults.apply, RetainedResults.insert,
        IndexMap.get_insert]
      by_cases hother : other = id <;> simp [hother]
    refine ⟨?_, fun other hother => ?_⟩
    · rw [inserted_snoc, show inserted [Op.insert id result] = [id] from rfl, dedup_snoc,
        filter_append, filter_filter]
      have hlast : [id].filter (results.apply (.insert id result)).held = [id] := by
        simp [hheld]
      rw [hlast]
      show results.order.filter _ ++ [id] = _
      rw [h.order, filter_filter]
      refine congrArg (· ++ [id]) (filter_congr fun other _ => ?_)
      rw [hheld]
      by_cases hother : other = id <;> simp [hother]
    · rw [hheld, Bool.or_eq_true, decide_eq_true_iff] at hother
      rw [inserted_snoc, mem_append]
      rcases hother with rfl | hother
      · exact .inr mem_cons_self
      · exact .inl (h.known other hother)
  | get id =>
    exact h.drops rfl (filter_eq_self.mpr fun id hid => h.mem_order.mp hid).symm
      fun _ hid => hid
  | remove id =>
    have hheld : ∀ other, (results.apply (.remove id)).held other =
        (decide (other ≠ id) && results.held other) := by
      intro other
      simp only [RetainedResults.held, RetainedResults.apply, RetainedResults.remove,
        IndexMap.get_remove]
      by_cases hother : other = id <;> simp [hother]
    refine h.drops rfl (filter_congr fun other hother => ?_) fun other hother => ?_
    · rw [hheld, h.mem_order.mp hother, Bool.and_true]
    · rw [hheld, Bool.and_eq_true] at hother
      exact hother.2
  | prune reported limits =>
    refine h.drops rfl rfl fun id hid => ?_
    obtain ⟨-, n, hevicts⟩ := h.evictsShortest reported limits
    have hgone := hevicts.gone id
    unfold RetainedResults.held at hid ⊢
    rw [RetainedResults.apply, hgone] at hid
    split at hid
    · cases hid
    · exact hid

/-- In every run the order and the entries hold the same identifiers, by their last insertion, and
a pruning evicts the shortest prefix of those without a reader. -/
theorem order_of_run {tr : List (Op Id Result)} {results : RetainedResults Id Result}
    (hrun : Steps OpStep .default tr results) :
    results.order.Nodup ∧ (∀ id, id ∈ results.order ↔ (results.entries.get id).isSome) ∧
      results.order = (inserted tr).dedup.filter results.held ∧
      ∀ reported limits, EvictsShortest (inserted tr).dedup results reported limits := by
  have h := hrun.history (P := Tidy) ⟨rfl, fun _ hid => Bool.noConfusion hid⟩
    fun _ _ _ _ _ h hstep => h.step hstep
  exact ⟨h.nodup, fun id => h.mem_order, h.order, h.evictsShortest⟩

end

/-- Two results are inserted, and the first is looked up. -/
def looked : List (Op Nat Nat) := [.insert 1 10, .insert 2 20, .get 1]

def lookedResults : RetainedResults Nat Nat := (RetainedResults.default.insert 1 10).insert 2 20

theorem steps_looked : Steps OpStep .default looked lookedResults :=
  ((Steps.nil.snoc rfl).snoc rfl).snoc rfl

/-- Results without readers, each of so many bytes. -/
def unread (bytes : Nat) : Reported Nat := ⟨fun _ => 1, fun _ => bytes, fun _ => 0, fun _ => 0⟩

/-- A pruning to one result evicts the first one, and leaves the other. -/
theorem order_of_pruned :
    (lookedResults.pruneTo (unread 5) ⟨1, 5, 0⟩).1 = [10] ∧
      EvictsShortest (inserted looked).dedup lookedResults (unread 5) ⟨1, 5, 0⟩ ∧
      (lookedResults.apply (.prune (unread 5) ⟨1, 5, 0⟩)).order.Nodup ∧
      (lookedResults.apply (.prune (unread 5) ⟨1, 5, 0⟩)).order = [2] :=
  ⟨by decide, (order_of_run steps_looked).2.2.2 _ _, (order_of_run (steps_looked.snoc rfl)).1,
    by decide⟩

/-- The result that was looked up last goes first; and of two results that fill all memory each,
the second stays, the sum of both being cut to the largest word. -/
theorem used_result_goes_first :
    (¬ ∀ (tr : List (Op Nat Nat)) (results : RetainedResults Nat Nat),
      Steps OpStep .default tr results →
        ∀ reported limits, EvictsShortest (used tr).dedup results reported limits) ∧
    ¬ ∀ (tr : List (Op Nat Nat)) (results : RetainedResults Nat Nat),
      Steps OpStep .default tr results → ∀ reported limits, ∃ n,
        Evicts limits ((inserted tr).dedup.filterMap (results.idle? reported)) True results.entries
          (results.pruneTo reported limits).2.entries (results.pruneTo reported limits).1 n := by
  constructor
  · intro h
    obtain ⟨-, n, hevicts⟩ := h looked _ steps_looked (unread 0) ⟨1, 0, 0⟩
    cases n with
    | zero => exact absurd hevicts.evicted (by decide)
    | succ n =>
      have hgone := hevicts.gone 2
      split at hgone
      · exact absurd hgone (by decide)
      next hkept => exact hkept mem_cons_self
  · intro h
    obtain ⟨n, hevicts⟩ := h looked _ steps_looked (unread (2 ^ 64 - 1)) ⟨2, 0, 0⟩
    rcases n with _ | _ | n
    · exact absurd hevicts.evicted (by decide)
    · exact absurd (hevicts.within trivial) (by decide)
    · have hgone := hevicts.gone 2
      split at hgone
      · exact absurd hgone (by decide)
      next hkept => exact hkept (mem_cons_of_mem _ mem_cons_self)

end Oxyn.Retained
