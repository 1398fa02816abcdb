/-
# `Oxyn.Exec.CatalogBudget` — the bound of a connection's catalog

Every refresh charges its patch to its scope.  Past the limits the least recently published scopes
are evicted, each with what lives under it, and the cache is told what to drop.
-/
import Mathlib.Data.List.Perm.Basic
import Oxyn.Exec.CatalogRead
import Oxyn.Lib.Loop

namespace Oxyn.Catalog

open Text List

/-! ## Anchors -/

/-- The tree node under which a scope's data lives. -/
structure Anchor where
  catalog : Option Str
  nameSpace : Option (Option Str)
  relation : Option Str
deriving DecidableEq

/-- Whether evicting this node's contents also drops the other's. -/
def Anchor.covers (held other : Anchor) : Bool :=
  held.catalog == other.catalog &&
    match held.nameSpace, held.relation with
    | none, _ => other.nameSpace.isSome
    | some nameSpace, none => other.nameSpace == some nameSpace && other.relation.isSome
    | some _, some _ => false

/-- The node of a scope; the root is never evicted. -/
def anchor : CatalogRefreshScope → Option Anchor
  | .namespaces catalog => some ⟨catalog, none, none⟩
  | .relations catalog nameSpace => some ⟨catalog, some nameSpace, none⟩
  | .relation catalog nameSpace relation | .constraints catalog nameSpace relation
  | .incomingForeignKeys catalog nameSpace relation | .definition catalog nameSpace relation =>
    some ⟨catalog, some nameSpace, some relation⟩
  | _ => none

/-- Whether the eviction of a scope takes the node of another with it. -/
def covers (victim key : CatalogRefreshScope) : Bool :=
  match anchor victim, anchor key with
  | some evicted, some held => evicted.covers held
  | _, _ => false

/-- What the cache drops for an evicted scope: a relation's description goes with the last scope
that charged it. -/
def eviction (victim : CatalogRefreshScope) (relationStillHeld : Bool) :
    Except RefreshError (List CatalogScope) :=
  let narrow (catalog nameSpace : Option Str) (relation : Str)
      (scope : CatalogPath → CatalogScope) : Except RefreshError (List CatalogScope) := do
    let target ← path catalog nameSpace (some relation)
    return scope target :: (if relationStillHeld then [] else [.relation target])
  match victim with
  | .namespaces catalog => do return [.catalog (← path catalog none none)]
  | .relations catalog nameSpace => do return [.nameSpace (← path catalog nameSpace none)]
  | .relation catalog nameSpace relation => do
      return [.relation (← path catalog nameSpace (some relation))]
  | .constraints catalog nameSpace relation => narrow catalog nameSpace relation .constraints
  | .incomingForeignKeys catalog nameSpace relation =>
    narrow catalog nameSpace relation .incomingForeignKeys
  | .definition catalog nameSpace relation => narrow catalog nameSpace relation .definition
  | _ => .ok []

def evictions (relationStillHeld : CatalogRefreshScope → Bool) :
    List CatalogRefreshScope → Except RefreshError (List CatalogScope)
  | [] => .ok []
  | victim :: rest => do
      let own ← eviction victim (relationStillHeld victim)
      let others ← evictions relationStillHeld rest
      return own ++ others

theorem mem_evictions {held : CatalogRefreshScope → Bool} {victims : List CatalogRefreshScope}
    {evicted : List CatalogScope} (h : evictions held victims = .ok evicted)
    {victim : CatalogRefreshScope} (hv : victim ∈ victims) :
    ∃ own, eviction victim (held victim) = .ok own ∧ ∀ scope ∈ own, scope ∈ evicted := by
  induction victims generalizing evicted with
  | nil => simp at hv
  | cons v rest ih =>
    simp only [evictions, bind_eq_ok] at h
    obtain ⟨own, hown, others, hothers, h⟩ := h
    obtain rfl := Except.ok.inj h
    obtain rfl | hrest := mem_cons.mp hv
    · exact ⟨own, hown, fun scope hscope => mem_append_left _ hscope⟩
    · obtain ⟨own', hown', hmem⟩ := ih hothers hrest
      exact ⟨own', hown', fun scope hscope => mem_append_right _ (hmem scope hscope)⟩

/-! ## Reservations -/

def maxCatalogScopes : Nat := 1024

def maxCatalogObjects : Nat := 50000

/-- What a scope is charged, and when it was last published. -/
structure Reservation where
  objects : Nat
  used : Nat

/-- The scopes charged; recency is counted in publications. -/
structure CatalogBudget where
  scopes : IndexMap CatalogRefreshScope Reservation
  clock : Nat

def CatalogBudget.default : CatalogBudget := ⟨.empty, 0⟩

/-- Addition of machine words, stopping at the largest. -/
def saturatingAdd (a b : Nat) : Nat := min (a + b) (2 ^ 64 - 1)

abbrev Entry := CatalogRefreshScope × Reservation

/-- `Vec::swap_remove`: the last element takes the place of the removed one. -/
def swapRemove {α : Type} (l : List α) (i : Nat) : List α :=
  match l.getLast? with
  | none => []
  | some last => (l.set i last).dropLast

theorem perm_swapRemove {α : Type} {l : List α} {i : Nat} (h : i < l.length) :
    l.Perm (l[i] :: swapRemove l i) := by
  refine (getElem_cons_eraseIdx_perm h).symm.trans (List.Perm.cons _ ?_)
  obtain ⟨init, last, rfl⟩ := eq_nil_or_concat l |>.resolve_left (by rintro rfl; simp at h)
  simp only [concat_eq_append, swapRemove, getLast?_append, getLast?_singleton,
    Option.some_or]
  rw [concat_eq_append, length_append, length_singleton] at h
  obtain hi | rfl := Nat.lt_succ_iff_lt_or_eq.mp h
  · rw [eraseIdx_append_of_lt_length hi, set_append_left _ _ hi, dropLast_concat]
    exact (perm_append_singleton _ _).trans (set_perm_cons_eraseIdx hi last).symm
  · rw [eraseIdx_append_of_length_le (Nat.le_refl _)]
    simp

structure Evicting where
  kept : List Entry
  victims : List CatalogRefreshScope

/-- Whether both limits hold with a patch beside the scopes kept. -/
def fits (objects : Nat) (kept : List Entry) : Bool :=
  decide (kept.length < maxCatalogScopes) &&
    decide (kept.foldl (fun sum e => saturatingAdd sum e.2.objects) objects ≤ maxCatalogObjects)

/-- The least recently published scope that may go, and its position: not the root, and
not a parent of the target. -/
def oldest (target : Option Anchor) (kept : List Entry) : Option (Entry × Nat) :=
  (kept.zipIdx.filter fun e =>
    (anchor e.1.1).any fun held => !target.any fun t => held.covers t).argmin (·.1.2.used)

/-- One victim; what lives inside the evicted node goes with it. -/
def evictStep (objects : Nat) (target : Option Anchor) (s : Evicting) : Option Evicting :=
  if fits objects s.kept then none
  else
    (oldest target s.kept).map fun victim =>
      { kept := (swapRemove s.kept victim.2).filter fun e => !covers victim.1.1 e.1
        victims := s.victims ++ [victim.1.1] }

variable {target : Option Anchor}

theorem oldest_eq_some {kept : List Entry} {victim : Entry × Nat}
    (h : oldest target kept = some victim) :
    ∃ hi : victim.2 < kept.length, kept[victim.2] = victim.1 ∧ (anchor victim.1.1).isSome ∧
      ∀ held ∈ anchor victim.1.1, ∀ t ∈ target, held.covers t = false := by
  obtain ⟨hmem, hanchor⟩ := mem_filter.mp (argmin_mem h)
  obtain ⟨hi, hget⟩ := mem_zipIdx' hmem
  cases hheld : anchor victim.1.1 with
  | none => rw [hheld] at hanchor; simp at hanchor
  | some held =>
    refine ⟨hi, hget.symm, rfl, ?_⟩
    intro held' hheld' t ht
    obtain rfl := Option.some.inj hheld'
    rw [hheld, Option.mem_def.mp ht] at hanchor
    simpa using hanchor

variable {objects : Nat}

theorem evictStep_eq_some {s s' : Evicting} (h : evictStep objects target s = some s') :
    ∃ victim, oldest target s.kept = some victim ∧
      s'.kept = ((swapRemove s.kept victim.2).filter fun e => !covers victim.1.1 e.1) ∧
      s'.victims = s.victims ++ [victim.1.1] := by
  unfold evictStep at h
  split at h
  · simp at h
  · obtain ⟨victim, hvictim, rfl⟩ := Option.map_eq_some_iff.mp h
    exact ⟨victim, hvictim, rfl, rfl⟩

def evictLoop (objects : Nat) (target : Option Anchor) : Loop Evicting where
  step := evictStep objects target
  measure := fun s => s.kept.length
  decreases := fun {s s'} h => by
    obtain ⟨victim, hvictim, hkept, -⟩ := evictStep_eq_some h
    obtain ⟨hi, -⟩ := oldest_eq_some hvictim
    have hperm := (perm_swapRemove hi).length_eq
    have hfilter := length_filter_le (fun e => !covers victim.1.1 e.1)
      (swapRemove s.kept victim.2)
    rw [hkept]
    simp only [length_cons] at hperm
    omega

/-- Charges a patch to its scope, evicting until both limits hold: what the cache must drop first,
and the budget after it. -/
def CatalogBudget.reserve (budget : CatalogBudget) (entries : List Entry)
    (scope : CatalogRefreshScope) (patch : CatalogPatch) :
    Except RefreshError (List CatalogScope × CatalogBudget) :=
  let objects := max ((budget.scopes.get scope).elim 0 (·.objects)) patch.objectCount
  let target := anchor scope
  let s := (evictLoop objects target).final ⟨entries.filter fun e => e.1 ≠ scope, []⟩
  if fits objects s.kept then do
    let relationStillHeld (victim : CatalogRefreshScope) : Bool :=
      (anchor victim).any fun evicted =>
        target == some evicted || s.kept.any fun e => anchor e.1 == some evicted
    let evicted ← evictions relationStillHeld s.victims
    let held := budget.scopes.retain fun key =>
      !s.victims.any fun victim => victim == key || covers victim key
    let clock := saturatingAdd budget.clock 1
    return (evicted, ⟨held.insert scope ⟨objects, clock⟩, clock⟩)
  else
    .error (.config "catalog cache limit exceeded (1024 scopes, 50000 metadata objects)")

/-! ## What a reservation does -/

/-- Whether a scope is charged. -/
def CatalogBudget.Live (budget : CatalogBudget) (scope : CatalogRefreshScope) : Prop :=
  (budget.scopes.get scope).isSome

def gone (victims : List CatalogRefreshScope) (key : CatalogRefreshScope) : Bool :=
  victims.any fun victim => victim == key || covers victim key

def evictable (target : Option Anchor) (key : CatalogRefreshScope) : Bool :=
  (anchor key).any fun held => !target.any fun t => held.covers t

theorem gone_snoc (victims : List CatalogRefreshScope) (victim key : CatalogRefreshScope) :
    gone (victims ++ [victim]) key = (gone victims key || (victim == key || covers victim key)) := by
  simp [gone, any_append]

/-- A scope is the least recently published one that may go, after others have gone. -/
structure Oldest (entries : List Entry) (target : Option Anchor)
    (before : List CatalogRefreshScope) (victim : CatalogRefreshScope) : Prop where
  evictable : evictable target victim = true
  still : gone before victim = false
  first : ∃ e ∈ entries, e.1 = victim ∧ ∀ other ∈ entries, gone before other.1 = false →
    Catalog.evictable target other.1 = true → e.2.used ≤ other.2.used

structure Evicted (entries : List Entry) (target : Option Anchor) (s : Evicting) : Prop where
  kept : s.kept.Perm (entries.filter fun e => !gone s.victims e.1)
  oldest : ∀ before victim after, s.victims = before ++ victim :: after →
    Oldest entries target before victim

theorem Evicted.mem {entries : List Entry} {s : Evicting}
    (hs : Evicted entries target s) {e : Entry} :
    e ∈ s.kept ↔ e ∈ entries ∧ gone s.victims e.1 = false := by
  rw [hs.kept.mem_iff, mem_filter, Bool.not_eq_true']

theorem Evicted.evictable_of_mem {entries : List Entry} {s : Evicting}
    (hs : Evicted entries target s) {victim : CatalogRefreshScope} (h : victim ∈ s.victims) :
    evictable target victim = true := by
  obtain ⟨before, after, hsplit⟩ := append_of_mem h
  exact (hs.oldest _ _ _ hsplit).evictable

theorem Evicted.step {entries : List Entry}
    {s s' : Evicting} (hkeys : (entries.map Prod.fst).Nodup) (hs : Evicted entries target s)
    (h : evictStep objects target s = some s') : Evicted entries target s' := by
  obtain ⟨victim, hvictim, hkept, hvictims⟩ := evictStep_eq_some h
  obtain ⟨hi, hget, -⟩ := oldest_eq_some hvictim
  obtain ⟨hmem, hevictable⟩ := mem_filter.mp (argmin_mem hvictim)
  have hperm := perm_swapRemove hi
  rw [hget] at hperm
  have hnodup : (s.kept.map Prod.fst).Nodup := (hs.kept.map Prod.fst).symm.nodup
    (hkeys.sublist (filter_sublist.map _))
  have hother := (hperm.map Prod.fst).nodup hnodup
  rw [map_cons, nodup_cons] at hother
  -- what is left beside the victim is what has another key
  have hleft : (swapRemove s.kept victim.2).Perm (s.kept.filter fun e => e.1 ≠ victim.1.1) := by
    refine ((hperm.filter _).trans (.of_eq ?_)).symm
    rw [filter_cons_of_neg (by simp), filter_eq_self]
    intro e he
    rw [decide_eq_true_iff]
    exact fun heq => hother.1 (heq ▸ mem_map_of_mem he)
  constructor
  · rw [hkept, hvictims]
    refine ((hleft.filter _).trans ((hs.kept.filter _).filter _)).trans (.of_eq ?_)
    rw [filter_filter, filter_filter]
    refine filter_congr fun e _ => ?_
    rw [gone_snoc, Bool.not_or, Bool.not_or]
    by_cases heq : victim.1.1 = e.1
    · simp [heq]
    · simp [Ne.symm heq, beq_eq_false_iff_ne.mpr heq, Bool.and_comm]
  · intro before key after hsplit
    rw [hvictims] at hsplit
    rcases eq_nil_or_concat after with rfl | ⟨init, last, rfl⟩
    · obtain ⟨rfl, hlast⟩ := append_inj' hsplit rfl
      obtain rfl := singleton_inj.mp hlast
      have hheld := hs.mem.mp (hget ▸ getElem_mem hi)
      refine ⟨hevictable, hheld.2, victim.1, hheld.1, rfl, fun other hmem' hstill hmay => ?_⟩
      obtain ⟨j, hj, hjget⟩ := mem_iff_getElem.mp (hs.mem.mpr ⟨hmem', hstill⟩)
      exact le_of_mem_argmin (f := fun e : Entry × Nat => e.1.2.used) (a := (other, j))
        (mem_filter.mpr ⟨mem_zipIdx_iff_getElem?.mpr
          (List.getElem?_eq_some_iff.mpr ⟨hj, hjget⟩), hmay⟩) hvictim
    · rw [concat_eq_append, ← cons_append, ← append_assoc] at hsplit
      obtain ⟨hbefore, -⟩ := append_inj' hsplit rfl
      exact hs.oldest before key init hbefore

/-- What a reservation that succeeds has done. -/
structure Reserved (budget : CatalogBudget) (scope : CatalogRefreshScope)
    (evicted : List CatalogScope) (after : CatalogBudget) (victims : List CatalogRefreshScope) :
    Prop where
  /-- The scope is charged. -/
  charged : after.Live scope
  /-- A scope that was charged still is, or is a victim, or goes with one. -/
  live : ∀ key, budget.Live key → after.Live key ∨
    ∃ victim ∈ victims, (anchor victim).isSome ∧ (victim = key ∨ covers victim key = true)
  /-- No other scope is charged. -/
  only : ∀ key, after.Live key → key = scope ∨ budget.Live key
  /-- What the cache drops for a victim; a description stays where another scope of its relation is
  charged. -/
  drops : ∀ victim ∈ victims, ∃ held own, eviction victim held = .ok own ∧
    (∀ dropped ∈ own, dropped ∈ evicted) ∧
    (held = true → ∃ key, after.Live key ∧ anchor key = anchor victim)

theorem evicted_final {entries : List Entry} (hkeys : (entries.map Prod.fst).Nodup)
    (objects : Nat) (target : Option Anchor) :
    Evicted entries target ((evictLoop objects target).final ⟨entries, []⟩) := by
  refine Loop.final_of_invariant (P := Evicted entries target) (fun _ _ hs => hs.step hkeys) ⟨?_, ?_⟩
  · exact .of_eq (filter_eq_self.mpr fun e _ => rfl).symm
  · intro before victim after hsplit
    exact absurd hsplit (by simp)

def charge (budget : CatalogBudget) (scope : CatalogRefreshScope) (patch : CatalogPatch) : Nat :=
  max ((budget.scopes.get scope).elim 0 (·.objects)) patch.objectCount

def CatalogBudget.charged (budget : CatalogBudget) (scope : CatalogRefreshScope)
    (victims : List CatalogRefreshScope) (objects : Nat) : CatalogBudget :=
  ⟨(budget.scopes.retain fun key => !gone victims key).insert scope
    ⟨objects, saturatingAdd budget.clock 1⟩, saturatingAdd budget.clock 1⟩

theorem CatalogBudget.live_charged {budget : CatalogBudget} {scope key : CatalogRefreshScope}
    {victims : List CatalogRefreshScope} :
    (budget.charged scope victims objects).Live key ↔
      key = scope ∨ (budget.Live key ∧ gone victims key = false) := by
  unfold CatalogBudget.Live CatalogBudget.charged
  rw [IndexMap.get_insert]
  split
  next heq => simp [heq]
  next hne =>
    rw [IndexMap.get_retain]
    cases hgone : gone victims key <;> simp [hne]

/-- Whether the description of a victim's relation stays, charged by another scope. -/
def stillHeld (scope : CatalogRefreshScope) (kept : List Entry) (victim : CatalogRefreshScope) :
    Bool :=
  (anchor victim).any fun evicted =>
    anchor scope == some evicted || kept.any fun e => anchor e.1 == some evicted

section

variable {budget after : CatalogBudget} {entries : List Entry} {scope : CatalogRefreshScope}
  {patch : CatalogPatch} {evicted : List CatalogScope}

theorem nodup_entries (hentries : entries.Perm budget.scopes.entries) :
    ((entries.filter fun e => e.1 ≠ scope).map Prod.fst).Nodup :=
  ((hentries.map Prod.fst).symm.nodup budget.scopes.nodup).sublist (filter_sublist.map _)

/-- What is kept, and the victims, where no more is evicted. -/
def evicting (budget : CatalogBudget) (entries : List Entry) (scope : CatalogRefreshScope)
    (patch : CatalogPatch) : Evicting :=
  (evictLoop (charge budget scope patch) (anchor scope)).final
    ⟨entries.filter fun e => e.1 ≠ scope, []⟩

theorem reserve_eq : budget.reserve entries scope patch =
    let s := evicting budget entries scope patch
    if fits (charge budget scope patch) s.kept then do
      let evicted ← evictions (stillHeld scope s.kept) s.victims
      return (evicted, budget.charged scope s.victims (charge budget scope patch))
    else
      .error (.config "catalog cache limit exceeded (1024 scopes, 50000 metadata objects)") := rfl

theorem reserve_fits (hentries : entries.Perm budget.scopes.entries)
    (h : budget.reserve entries scope patch = .ok (evicted, after)) :
    ∃ s, Evicted (entries.filter fun e => e.1 ≠ scope) (anchor scope) s ∧
      fits (charge budget scope patch) s.kept = true ∧
      evictions (stillHeld scope s.kept) s.victims = .ok evicted ∧
      after = budget.charged scope s.victims (charge budget scope patch) := by
  rw [reserve_eq] at h
  dsimp only at h
  split at h
  next hfits =>
    obtain ⟨own, hown, h⟩ := bind_eq_ok.mp h
    obtain ⟨rfl, rfl⟩ := Prod.mk.inj (Except.ok.inj h)
    exact ⟨_, evicted_final (nodup_entries hentries) _ _, hfits, hown, rfl⟩
  next => simp at h

theorem reserve_eq_ok (hentries : entries.Perm budget.scopes.entries)
    (h : budget.reserve entries scope patch = .ok (evicted, after)) :
    ∃ victims, Reserved budget scope evicted after victims := by
  obtain ⟨s, hs, -, hown, rfl⟩ := reserve_fits hentries h
  have hanchored : ∀ victim ∈ s.victims, (anchor victim).isSome := fun victim hmem => by
    have hevictable := hs.evictable_of_mem hmem
    unfold evictable at hevictable
    cases hanchor : anchor victim with
    | none => simp [hanchor] at hevictable
    | some held => rfl
  refine ⟨s.victims, CatalogBudget.live_charged.mpr (.inl rfl), fun key hkey => ?_,
    fun key hkey => (CatalogBudget.live_charged.mp hkey).imp_right And.left, fun victim hmem => ?_⟩
  · cases hgone : gone s.victims key with
    | false => exact .inl (CatalogBudget.live_charged.mpr (.inr ⟨hkey, hgone⟩))
    | true =>
      obtain ⟨victim, hmem, hvictim⟩ := any_eq_true.mp hgone
      rw [Bool.or_eq_true, beq_iff_eq] at hvictim
      exact .inr ⟨victim, hmem, hanchored victim hmem, hvictim⟩
  · obtain ⟨own', hown', hsub⟩ := mem_evictions hown hmem
    refine ⟨_, own', hown', hsub, fun hheld => ?_⟩
    obtain ⟨a, ha⟩ := Option.isSome_iff_exists.mp (hanchored victim hmem)
    rw [stillHeld, ha, Option.any_some, Bool.or_eq_true, beq_iff_eq, any_eq_true] at hheld
    rw [ha]
    obtain htarget | ⟨e, he, hanchor⟩ := hheld
    · exact ⟨scope, CatalogBudget.live_charged.mpr (.inl rfl), htarget⟩
    · obtain ⟨hentry, hstill⟩ := hs.mem.mp he
      have hlive := IndexMap.isSome_get.mpr
        (mem_map_of_mem (hentries.mem_iff.mp (mem_filter.mp hentry).1))
      exact ⟨e.1, CatalogBudget.live_charged.mpr (.inr ⟨hlive, hstill⟩), beq_iff_eq.mp hanchor⟩

end

end Oxyn.Catalog
