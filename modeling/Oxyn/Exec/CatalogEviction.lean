/-
# `Oxyn.Exec.CatalogEviction` — what a reservation evicts, and when it is refused

A reservation that succeeds leaves the budget within both limits, whatever it held; what has gone
are the victims and what lay under them, each victim the least recently published of those that
could still go.
-/
import Mathlib.Algebra.Order.BigOperators.Group.List
import Mathlib.Algebra.Order.Ring.Nat
import Oxyn.Exec.CatalogCharge

open Runs

namespace Oxyn.Catalog

open List

/-! ## What fits -/

theorem foldl_saturatingAdd_le (entries : List Entry) (sum : Nat) :
    entries.foldl (fun sum e => saturatingAdd sum e.2.objects) sum ≤ maxCatalogObjects ↔
      sum + (entries.map (·.2.objects)).sum ≤ maxCatalogObjects := by
  induction entries generalizing sum with
  | nil => simp
  | cons e rest ih =>
    rw [foldl_cons, ih, map_cons, sum_cons]
    unfold saturatingAdd maxCatalogObjects
    omega

variable {objects : Nat}

theorem fits_iff {kept : List Entry} :
    fits objects kept = true ↔ kept.length < maxCatalogScopes ∧
      objects + (kept.map (·.2.objects)).sum ≤ maxCatalogObjects := by
  rw [fits, Bool.and_eq_true, decide_eq_true_iff, decide_eq_true_iff, foldl_saturatingAdd_le]

theorem fits_of_sublist {kept all : List Entry} (hsub : kept.Sublist all)
    (h : fits objects all = true) : fits objects kept = true := by
  rw [fits_iff] at h ⊢
  have hsum := (hsub.map (·.2.objects)).sum_le_sum fun _ _ => Nat.zero_le _
  exact ⟨Nat.lt_of_le_of_lt hsub.length_le h.1, Nat.le_trans (Nat.add_le_add_left hsum _) h.2⟩

theorem fits_of_perm {kept kept' : List Entry} (hperm : kept.Perm kept') :
    fits objects kept = fits objects kept' := by
  rw [Bool.eq_iff_iff, fits_iff, fits_iff, hperm.length_eq, (hperm.map _).sum_eq]

theorem perm_entries_insert {κ ν : Type} [DecidableEq κ] (m : IndexMap κ ν) (k : κ) (v : ν) :
    (m.insert k v).entries.Perm ((k, v) :: (m.remove k).entries) := by
  have hgone : ∀ w, (k, w) ∉ (m.remove k).entries := fun w hmem => by
    have hget := IndexMap.get_eq_some.mpr hmem
    rw [IndexMap.get_remove, if_pos rfl] at hget
    cases hget
  refine (perm_ext_iff_of_nodup (m.insert k v).nodup.of_map
    (nodup_cons.mpr ⟨hgone v, (m.remove k).nodup.of_map⟩)).mpr fun ⟨j, w⟩ => ?_
  rw [← IndexMap.get_eq_some, IndexMap.get_insert, mem_cons, ← IndexMap.get_eq_some,
    IndexMap.get_remove, Prod.mk.injEq]
  by_cases hj : j = k
  · simp [hj, eq_comm]
  · simp [hj]

/-! ## Names -/

def Named (scope : CatalogRefreshScope) : Prop := ∀ held, ∃ own, eviction scope held = .ok own

theorem named_of_read {provider : CatalogProvider} {capabilities : Capabilities}
    {scope : CatalogRefreshScope} {patch : CatalogPatch}
    (h : read provider capabilities scope = .ok patch) : Named scope := by
  intro held
  cases scope with
  | root | resolutionPath => exact ⟨_, rfl⟩
  | namespaces | relations | relation =>
    obtain ⟨target, htarget, -⟩ := bind_eq_ok.mp h
    exact ⟨_, bind_eq_ok.mpr ⟨target, htarget, rfl⟩⟩
  | constraints | incomingForeignKeys | definition =>
    obtain ⟨-, -, h⟩ := bind_eq_ok.mp h
    obtain ⟨target, htarget, -⟩ := bind_eq_ok.mp h
    exact ⟨_, bind_eq_ok.mpr ⟨target, htarget, rfl⟩⟩

theorem evictions_of_named {held : CatalogRefreshScope → Bool} {victims : List CatalogRefreshScope}
    (h : ∀ victim ∈ victims, Named victim) : ∃ evicted, evictions held victims = .ok evicted := by
  induction victims with
  | nil => exact ⟨[], rfl⟩
  | cons victim rest ih =>
    obtain ⟨own, hown⟩ := h victim mem_cons_self (held victim)
    obtain ⟨others, hothers⟩ := ih fun v hv => h v (mem_cons_of_mem _ hv)
    exact ⟨own ++ others, bind_eq_ok.mpr ⟨own, hown, bind_eq_ok.mpr ⟨others, hothers, rfl⟩⟩⟩

theorem named_of_run {s : Catalogued} {tr : List Refresh} (hrun : Steps RefreshStep .start tr s) :
    ∀ key, s.budget.Live key → Named key := by
  induction hrun with
  | nil => exact fun key hkey => absurd hkey (by simp [CatalogBudget.Live, Catalogued.start,
      CatalogBudget.default])
  | @snoc s _ _ r _ hstep ih =>
    obtain ⟨hentries, rfl⟩ := hstep
    unfold refreshed
    split
    · exact ih
    next patch hread =>
      split
      · exact ih
      next evicted after hreserve =>
        obtain ⟨victims, hreserved⟩ := reserve_eq_ok hentries hreserve
        intro key hkey
        obtain rfl | hbefore := hreserved.only key hkey
        · exact named_of_read hread
        · exact ih key hbefore

/-! ## What goes -/

def CatalogScope.Holds (scope : CatalogScope) (node : Anchor) : Prop :=
  match scope with
  | .server => True
  | .catalog p => mapKey p.catalog = rawKey node.catalog
  | .nameSpace p => mapKey p.catalog = rawKey node.catalog ∧
      node.nameSpace.map rawKey = some (mapKey p.nameSpace)
  | .relation p | .constraints p | .incomingForeignKeys p | .definition p =>
    mapKey p.catalog = rawKey node.catalog ∧
      node.nameSpace.map rawKey = some (mapKey p.nameSpace) ∧
      node.relation = some (mapKey p.relation)

theorem holds_of_eviction {victim key : CatalogRefreshScope} {held : Bool}
    {own : List CatalogScope} {node : Anchor} (hown : eviction victim held = .ok own)
    (hgone : victim = key ∨ covers victim key = true) (hnode : anchor key = some node)
    (hevictable : (anchor victim).isSome) : ∃ dropped ∈ own, dropped.Holds node := by
  have hcovers : anchor victim = some node ∨ ∃ a, anchor victim = some a ∧ a.covers node = true := by
    obtain rfl | hcovers := hgone
    · exact .inl hnode
    · obtain ⟨a, ha⟩ := Option.isSome_iff_exists.mp hevictable
      simp only [covers, ha, hnode] at hcovers
      exact .inr ⟨a, ha, hcovers⟩
  cases victim with
  | root | resolutionPath => simp [anchor] at hevictable
  | namespaces c =>
    obtain ⟨p, hp, hown⟩ := bind_eq_ok.mp hown
    obtain rfl := Except.ok.inj hown
    refine ⟨_, mem_cons_self, (path_eq_ok hp).1.trans ?_⟩
    obtain h | ⟨a, h, hcovers⟩ := hcovers
    · exact (Option.some.inj h) ▸ rfl
    · obtain rfl := Option.some.inj h
      simp only [Anchor.covers, Bool.and_eq_true, beq_iff_eq] at hcovers
      rw [hcovers.1]
  | relations c n =>
    obtain ⟨p, hp, hown⟩ := bind_eq_ok.mp hown
    obtain rfl := Except.ok.inj hown
    obtain ⟨hc, hn, -⟩ := path_eq_ok hp
    refine ⟨_, mem_cons_self, ?_⟩
    obtain h | ⟨a, h, hcovers⟩ := hcovers
    · exact (Option.some.inj h) ▸ ⟨hc, congrArg some hn.symm⟩
    · obtain rfl := Option.some.inj h
      simp only [Anchor.covers, Bool.and_eq_true, beq_iff_eq] at hcovers
      refine ⟨hc.trans (by rw [hcovers.1]), ?_⟩
      rw [hcovers.2.1, hn]
      rfl
  | relation c n r | constraints c n r | incomingForeignKeys c n r | definition c n r =>
    obtain ⟨p, hp, hown⟩ := bind_eq_ok.mp hown
    obtain rfl := Except.ok.inj hown
    obtain ⟨hc, hn, hr, -⟩ := path_eq_ok hp
    refine ⟨_, mem_cons_self, ?_⟩
    obtain h | ⟨a, h, hcovers⟩ := hcovers
    · exact (Option.some.inj h) ▸ ⟨hc, congrArg some hn.symm, congrArg some hr.symm⟩
    · obtain rfl := Option.some.inj h
      simp [Anchor.covers] at hcovers

theorem covers_trans {a b c : Anchor} (hab : a.covers b = true) (hbc : b.covers c = true) :
    a.covers c = true := by
  obtain ⟨ac, an, ar⟩ := a
  obtain ⟨bc, bn, br⟩ := b
  obtain ⟨cc, cn, cr⟩ := c
  simp only [Anchor.covers, Bool.and_eq_true, beq_iff_eq] at hab hbc ⊢
  obtain ⟨rfl, hab⟩ := hab
  obtain ⟨rfl, hbc⟩ := hbc
  refine ⟨rfl, ?_⟩
  cases an <;> cases ar <;> cases bn <;> cases br <;> simp_all

theorem evictable_of_gone {target : Option Anchor} {victims : List CatalogRefreshScope}
    {key : CatalogRefreshScope} (hvictims : ∀ victim ∈ victims, evictable target victim = true)
    (hgone : gone victims key = true) : evictable target key = true := by
  obtain ⟨victim, hmem, hvictim⟩ := any_eq_true.mp hgone
  have hmay := hvictims victim hmem
  rw [Bool.or_eq_true, beq_iff_eq] at hvictim
  obtain rfl | hcovers := hvictim
  · exact hmay
  · unfold covers at hcovers
    unfold evictable at hmay ⊢
    cases ha : anchor victim with
    | none => simp [ha] at hmay
    | some a =>
      cases hb : anchor key with
      | none => simp [ha, hb] at hcovers
      | some b =>
        simp only [ha, hb, Option.any_some, Bool.not_eq_true'] at hcovers hmay ⊢
        cases target with
        | none => rfl
        | some t =>
          rw [Option.any_some, Bool.eq_false_iff] at hmay ⊢
          exact fun hbt => hmay (covers_trans hcovers hbt)

/-! ## Reservations -/

/-- What a reservation that succeeds has evicted. -/
structure Made (budget : CatalogBudget) (entries : List Entry) (scope : CatalogRefreshScope)
    (patch : CatalogPatch) (evicted : List CatalogScope) (after : CatalogBudget)
    (victims : List CatalogRefreshScope) : Prop where
  scopes : after.scopes.entries.length ≤ maxCatalogScopes
  objects : (after.scopes.entries.map (·.2.objects)).sum ≤ maxCatalogObjects
  charged : ∃ r, after.scopes.get scope = some r ∧ patch.objectCount ≤ r.objects
  /-- Neither the root nor what is above the scope has gone. -/
  above : ∀ key, budget.Live key → (anchor key = none ∨ covers key scope = true) → after.Live key
  /-- What has gone is a victim, or lay under one; the cache is told to drop its node. -/
  removed : ∀ key, budget.Live key → ¬ after.Live key → gone victims key = true ∧
    ∃ node, anchor key = some node ∧ ∃ dropped ∈ evicted, dropped.Holds node
  /-- Each victim was the least recently published of the other scopes that could still go. -/
  oldest : ∀ before victim rest, victims = before ++ victim :: rest →
    Oldest (entries.filter fun e => e.1 ≠ scope) (anchor scope) before victim

def NoRoom (budget : CatalogBudget) (entries : List Entry) (scope : CatalogRefreshScope)
    (patch : CatalogPatch) : Prop :=
  ∀ choice : List CatalogRefreshScope, (∀ victim ∈ choice, evictable (anchor scope) victim = true) →
    fits (charge budget scope patch)
      ((entries.filter fun e => e.1 ≠ scope).filter fun e => !gone choice e.1) = false

section

variable {budget after : CatalogBudget} {entries : List Entry} {scope : CatalogRefreshScope}
  {patch : CatalogPatch} {evicted : List CatalogScope}

theorem made_of_reserve (hentries : entries.Perm budget.scopes.entries)
    (h : budget.reserve entries scope patch = .ok (evicted, after)) :
    ∃ victims, Made budget entries scope patch evicted after victims := by
  obtain ⟨s, hs, hfits, hown, rfl⟩ := reserve_fits hentries h
  have hperm : (budget.charged scope s.victims (charge budget scope patch)).scopes.entries.Perm
      ((scope, ⟨charge budget scope patch, saturatingAdd budget.clock 1⟩) :: s.kept) := by
    refine (perm_entries_insert _ _ _).trans (List.Perm.cons _ ?_)
    refine .trans ?_ hs.kept.symm
    show List.Perm (List.filter _ (List.filter _ _)) _
    rw [filter_filter, filter_filter]
    refine (hentries.symm.filter _).trans (.of_eq (filter_congr fun e _ => Bool.and_comm ..))
  obtain ⟨hscopes, hobjects⟩ := fits_iff.mp hfits
  have hmay := fun key (hgone : gone s.victims key = true) =>
    evictable_of_gone (fun _ hv => hs.evictable_of_mem hv) hgone
  have hgone : ∀ key, budget.Live key →
      ¬ (budget.charged scope s.victims (charge budget scope patch)).Live key →
      gone s.victims key = true := fun key hlive hdead =>
    eq_true_of_ne_false fun hstill => hdead (CatalogBudget.live_charged.mpr (.inr ⟨hlive, hstill⟩))
  refine ⟨s.victims, ?_, ?_, ?_, fun key hlive habove => ?_, fun key hlive hdead => ?_, hs.oldest⟩
  · rw [hperm.length_eq]
    exact hscopes
  · rw [(hperm.map _).sum_eq]
    exact hobjects
  · exact ⟨_, by rw [CatalogBudget.charged, IndexMap.get_insert, if_pos rfl], Nat.le_max_right _ _⟩
  · refine not_not.mp fun hdead => ?_
    have hevictable := hmay key (hgone key hlive hdead)
    unfold evictable at hevictable
    unfold covers at habove
    cases ha : anchor key with
    | none => simp [ha] at hevictable
    | some a => cases ht : anchor scope <;> simp_all
  · obtain ⟨victim, hmem, hvictim⟩ := any_eq_true.mp (hgone key hlive hdead)
    rw [Bool.or_eq_true, beq_iff_eq] at hvictim
    have hevictable := hmay key (hgone key hlive hdead)
    have hanchored := hs.evictable_of_mem hmem
    unfold evictable at hevictable hanchored
    obtain ⟨node, hnode⟩ : ∃ node, anchor key = some node := by
      cases ha : anchor key with
      | none => simp [ha] at hevictable
      | some node => exact ⟨node, rfl⟩
    have hsome : (anchor victim).isSome := by
      cases ha : anchor victim with
      | none => simp [ha] at hanchored
      | some a => rfl
    obtain ⟨own, hown', hsub⟩ := mem_evictions hown hmem
    obtain ⟨dropped, hdropped, hholds⟩ := holds_of_eviction hown' hvictim hnode hsome
    exact ⟨hgone key hlive hdead, node, hnode, dropped, hsub dropped hdropped, hholds⟩

theorem noRoom_of_reserve (hentries : entries.Perm budget.scopes.entries)
    (hnamed : ∀ key, budget.Live key → Named key) {e : RefreshError}
    (h : budget.reserve entries scope patch = .error e) : NoRoom budget entries scope patch := by
  have hs := evicted_final (@nodup_entries budget entries scope hentries)
    (charge budget scope patch) (anchor scope)
  have hstop := Loop.step_final (m := evictLoop (charge budget scope patch) (anchor scope))
    ⟨entries.filter fun e => e.1 ≠ scope, []⟩
  rw [reserve_eq] at h
  unfold evicting at h
  generalize (evictLoop (charge budget scope patch) (anchor scope)).final
    ⟨entries.filter fun e => e.1 ≠ scope, []⟩ = s at hs hstop h
  dsimp only at h
  split at h
  · -- the scopes that are held have names
    obtain ⟨own, hown⟩ := @evictions_of_named (stillHeld scope s.kept) s.victims
      fun victim hmem => by
        obtain ⟨before, rest, hsplit⟩ := append_of_mem hmem
        obtain ⟨-, -, entry, hentry, rfl, -⟩ := hs.oldest before victim rest hsplit
        exact hnamed _ (IndexMap.isSome_get.mpr (mem_map_of_mem
          (hentries.mem_iff.mp (mem_filter.mp hentry).1)))
    rw [hown] at h
    cases h
  next hfull =>
    -- what is kept may not go, and stays under any choice
    have hlast : oldest (anchor scope) s.kept = none := by
      have hstep : evictStep (charge budget scope patch) (anchor scope) s = none := hstop
      rw [evictStep, if_neg hfull, Option.map_eq_none_iff] at hstep
      exact hstep
    have hstays : ∀ e ∈ s.kept, evictable (anchor scope) e.1 = false := by
      intro e he
      obtain ⟨i, hi, hget⟩ := mem_iff_getElem.mp he
      have hnone := filter_eq_nil_iff.mp (argmin_eq_none.mp hlast) (e, i)
        (mem_zipIdx_iff_getElem?.mpr (List.getElem?_eq_some_iff.mpr ⟨hi, hget⟩))
      exact eq_false_of_ne_true hnone
    intro choice hchoice
    refine eq_false_of_ne_true fun hfits => hfull ?_
    have hsub : (entries.filter fun e => e.1 ≠ scope).filter (fun e => !gone s.victims e.1) =
        ((entries.filter fun e => e.1 ≠ scope).filter fun e => !gone choice e.1).filter
          fun e => !gone s.victims e.1 := by
      rw [filter_filter (l := entries.filter fun e => e.1 ≠ scope)]
      refine filter_congr fun e he => ?_
      cases hgone : gone s.victims e.1 with
      | true => rfl
      | false =>
        have hkept := hstays e (hs.mem.mpr ⟨he, hgone⟩)
        have hnot : gone choice e.1 = false := eq_false_of_ne_true fun hchosen =>
          Bool.noConfusion (hkept.symm.trans (evictable_of_gone hchoice hchosen))
        rw [hnot]
        rfl
    rw [fits_of_perm hs.kept, hsub]
    exact fits_of_sublist filter_sublist hfits

/-- In every run of refreshes: a reservation that succeeds keeps both limits and what must stay;
one that fails changes nothing, and no choice would have made room. -/
theorem reserve_of_run {s : Catalogued} {tr : List Refresh} (hrun : Steps RefreshStep .start tr s)
    (hentries : entries.Perm s.budget.scopes.entries) :
    match s.budget.reserve entries scope patch with
    | .ok (evicted, after) => ∃ victims, Made s.budget entries scope patch evicted after victims
    | .error _ => NoRoom s.budget entries scope patch ∧
        ∀ r : Refresh, r.scope = scope → r.entries = entries →
          read r.provider r.capabilities scope = .ok patch → refreshed s r = s := by
  split
  next evicted after h => exact made_of_reserve hentries h
  next e h =>
    refine ⟨noRoom_of_reserve hentries (named_of_run hrun) h, ?_⟩
    rintro r rfl rfl hread
    rw [refreshed, hread]
    dsimp only
    rw [h]

end

/-! ## A listing that evicts another -/

/-- A namespace that takes more than half of the objects. -/
def wideSource : CatalogProvider :=
  { emptySource with
    listRelations := fun p => .ok (replicate 30000 (.validated p ⟨['a'], rfl⟩ .table)) }

def listed (name : Char) : CatalogRefreshScope := .relations none (some [name])

def wideListing : Refresh := ⟨listed 'a', wideSource, ⟨0⟩, [], 0⟩

section

variable {patch : CatalogPatch}

theorem objectCount_of_read {c : Char} (h : read wideSource ⟨0⟩ (listed c) = .ok patch) :
    patch.objectCount = 30000 := by
  obtain ⟨parent, -, h⟩ := bind_eq_ok.mp h
  obtain ⟨infos, hinfos, h⟩ := bind_eq_ok.mp h
  obtain rfl := Except.ok.inj hinfos
  obtain rfl := Except.ok.inj h
  show 0 + 0 + 0 + (replicate 30000 _).length + 0 + 0 + 0 + 0 + 0 + 0 + 0 = 30000
  rw [length_replicate]

theorem reserve_first (h : patch.objectCount = 30000) :
    CatalogBudget.default.reserve [] (listed 'a') patch =
      .ok ([], ⟨.insert .empty (listed 'a') ⟨30000, 1⟩, 1⟩) := by
  have hcharge : charge .default (listed 'a') patch = 30000 := by rw [charge, h]; rfl
  rw [reserve_eq, evicting, hcharge]
  rfl

theorem reserve_second {budget : CatalogBudget}
    (hbudget : budget = ⟨.insert .empty (listed 'a') ⟨30000, 1⟩, 1⟩)
    (h : patch.objectCount = 30000) :
    budget.reserve budget.scopes.entries (listed 'b') patch =
      .ok ([.nameSpace ⟨none, some ⟨['a'], rfl⟩, none⟩],
        ⟨.insert .empty (listed 'b') ⟨30000, 2⟩, 2⟩) := by
  subst hbudget
  have hcharge : charge ⟨.insert .empty (listed 'a') ⟨30000, 1⟩, 1⟩ (listed 'b') patch = 30000 := by
    rw [charge, h]
    rfl
  rw [reserve_eq, evicting, hcharge]
  rfl

theorem budget_refreshed_wideListing : (refreshed .start wideListing).budget =
    ⟨.insert .empty (listed 'a') ⟨30000, 1⟩, 1⟩ := by
  obtain ⟨patch, hread⟩ : ∃ patch, read wideSource ⟨0⟩ (listed 'a') = .ok patch := ⟨_, rfl⟩
  unfold refreshed
  rw [show read wideListing.provider wideListing.capabilities wideListing.scope = _ from hread]
  dsimp only
  rw [show Catalogued.start.budget.reserve wideListing.entries wideListing.scope patch = _ from
    reserve_first (objectCount_of_read hread)]

end

/-- Two namespaces are listed, each more than half of what a catalog may hold: the second listing
evicts the first. -/
theorem listing_evicts_another :
    ∃ s patch after victims, Steps RefreshStep .start [wideListing] s ∧
      read wideSource ⟨0⟩ (listed 'b') = .ok patch ∧
      Made s.budget s.budget.scopes.entries (listed 'b') patch
        [.nameSpace ⟨none, some ⟨['a'], rfl⟩, none⟩] after victims := by
  obtain ⟨s, hrun, hbudget⟩ : ∃ s, Steps RefreshStep .start [wideListing] s ∧
      s.budget = ⟨.insert .empty (listed 'a') ⟨30000, 1⟩, 1⟩ :=
    ⟨_, .snoc .nil ⟨.refl _, rfl⟩, budget_refreshed_wideListing⟩
  obtain ⟨patch, hread⟩ : ∃ patch, read wideSource ⟨0⟩ (listed 'b') = .ok patch := ⟨_, rfl⟩
  have hmade := @reserve_of_run s.budget.scopes.entries (listed 'b') patch s _ hrun (.refl _)
  rw [reserve_second hbudget (objectCount_of_read hread)] at hmade
  obtain ⟨victims, hmade⟩ := hmade
  exact ⟨s, patch, _, victims, hrun, hread, hmade⟩

end Oxyn.Catalog
