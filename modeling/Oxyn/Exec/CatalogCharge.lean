/-
# `Oxyn.Exec.CatalogCharge` — what the cache holds is charged

The budget and the cache are two trees, and a refresh changes both: it reserves, drops from the
cache what the reservation evicts, and applies its patch.
-/
import Oxyn.Exec.CatalogBudget
import Oxyn.Lib.Runs

namespace Oxyn.Catalog

open Text List

/-! ## What goes with a victim -/

variable {l : Level}

theorem under_of_belongs {scope : CatalogRefreshScope} {held : Anchor}
    (hl : Belongs scope l) (hanchor : anchor scope = some held) :
    (∃ i, l = .tree (some (rawKey held.catalog, i))) ∧
      ∀ n, held.nameSpace = some n →
        ∃ i, l = .tree (some (rawKey held.catalog, some (rawKey n, i))) := by
  cases scope with
  | root | resolutionPath => simp [anchor] at hanchor
  | namespaces c =>
    obtain rfl := Option.some.inj hanchor
    exact ⟨⟨none, hl⟩, fun n hn => by simp at hn⟩
  | relations c n =>
    obtain rfl := Option.some.inj hanchor
    refine ⟨⟨_, hl⟩, fun n' hn => ?_⟩
    obtain rfl := Option.some.inj hn
    exact ⟨none, hl⟩
  | relation c n r =>
    obtain rfl := Option.some.inj hanchor
    obtain rfl | rfl | rfl := hl <;>
      exact ⟨⟨_, rfl⟩, fun n' hn => by obtain rfl := Option.some.inj hn; exact ⟨_, rfl⟩⟩
  | constraints c n r | incomingForeignKeys c n r | definition c n r =>
    obtain rfl := Option.some.inj hanchor
    obtain rfl | rfl := hl <;>
      exact ⟨⟨_, rfl⟩, fun n' hn => by obtain rfl := Option.some.inj hn; exact ⟨_, rfl⟩⟩

theorem anchor_eq_some_iff {scope : CatalogRefreshScope} {c n : Option Str} {r : Str} :
    anchor scope = some ⟨c, some n, some r⟩ ↔ scope.relation? = some (c, n, r) := by
  cases scope with
  | _ => simp [anchor, CatalogRefreshScope.relation?]

theorem dropped_of_narrow {c n : Option Str} {r : Str} {part : RelationPart}
    {narrow : CatalogPath → CatalogScope} {held : Bool} {own : List CatalogScope}
    (hnarrow : ∀ p : CatalogPath, p.relation.isSome → ∀ cache : CatalogCache,
      (cache.evict (narrow p)).freshnessAt (.part p part) = .never)
    (hown : (do
      let target ← path c n (some r)
      return narrow target :: (if held then [] else [.relation target])) = .ok own)
    (hl : l = .relation (rawKey c) (rawKey n) r .detail ∨ l = .relation (rawKey c) (rawKey n) r part) :
    (∃ dropped ∈ own, ∀ cache : CatalogCache, (cache.evict dropped).freshnessAt l = .never) ∨
      (held = true ∧ l = .relation (rawKey c) (rawKey n) r .detail) := by
  obtain ⟨p, hp, hown⟩ := bind_eq_ok.mp hown
  obtain rfl := Except.ok.inj hown
  have hsome : p.relation.isSome := (path_eq_ok hp).2.2.2
  obtain rfl | rfl := hl
  · cases held with
    | true => exact .inr ⟨rfl, rfl⟩
    | false =>
      refine .inl ⟨.relation p, mem_cons_of_mem _ mem_cons_self, fun cache => ?_⟩
      rw [← part_of_path hp]
      exact CatalogCache.freshnessAt_evict_relation hsome trivial
  · refine .inl ⟨narrow p, mem_cons_self, fun cache => ?_⟩
    rw [← part_of_path hp]
    exact hnarrow p hsome cache

/-- A victim's eviction drops every level of it and of what goes with it, but for a description that
another scope holds. -/
theorem dropped_of_victim {victim scope : CatalogRefreshScope} {held : Bool}
    {own : List CatalogScope} (hown : eviction victim held = .ok own)
    (hanchor : (anchor victim).isSome) (hscope : victim = scope ∨ covers victim scope = true)
    (hl : Belongs scope l) :
    (∃ dropped ∈ own, ∀ cache : CatalogCache, (cache.evict dropped).freshnessAt l = .never) ∨
      (held = true ∧ ∃ c n r, victim.relation? = some (c, n, r) ∧
        l = .relation (rawKey c) (rawKey n) r .detail) := by
  have hanchored : ∀ evicted : Anchor, anchor victim = some evicted → ∃ node : Anchor,
      anchor scope = some node ∧ (victim = scope ∨ evicted.covers node = true) := by
    intro evicted hevicted
    obtain rfl | hcovers := hscope
    · exact ⟨evicted, hevicted, .inl rfl⟩
    · unfold covers at hcovers
      rw [hevicted] at hcovers
      cases hnode : anchor scope with
      | none => rw [hnode] at hcovers; simp at hcovers
      | some node =>
        rw [hnode] at hcovers
        exact ⟨node, rfl, .inr hcovers⟩
  -- a node that carries a relation covers nothing
  have hself : ∀ c n r, anchor victim = some ⟨c, some n, some r⟩ → victim = scope := by
    intro c n r hvictim
    obtain ⟨node, -, heq | hcovers⟩ := hanchored _ hvictim
    · exact heq
    · simp [Anchor.covers] at hcovers
  cases victim with
  | root | resolutionPath => simp [anchor] at hanchor
  | namespaces c =>
    obtain ⟨p, hp, hown⟩ := bind_eq_ok.mp hown
    obtain rfl := Except.ok.inj hown
    obtain ⟨node, hnode, hcatalog⟩ := hanchored _ rfl
    have hc : node.catalog = c := by
      obtain rfl | hcovers := hcatalog
      · obtain rfl := Option.some.inj hnode
        rfl
      · simp only [Anchor.covers, Bool.and_eq_true, beq_iff_eq] at hcovers
        exact hcovers.1.symm
    obtain ⟨i, rfl⟩ := (under_of_belongs hl hnode).1
    refine .inl ⟨.catalog p, mem_singleton_self _, fun cache => ?_⟩
    rw [hc, ← (path_eq_ok hp).1]
    exact CatalogCache.freshnessAt_evict_catalog p i
  | relations c n =>
    obtain ⟨p, hp, hown⟩ := bind_eq_ok.mp hown
    obtain rfl := Except.ok.inj hown
    obtain ⟨node, hnode, hspace⟩ := hanchored _ rfl
    have hcn : node.catalog = c ∧ node.nameSpace = some n := by
      obtain rfl | hcovers := hspace
      · obtain rfl := Option.some.inj hnode
        exact ⟨rfl, rfl⟩
      · simp only [Anchor.covers, Bool.and_eq_true, beq_iff_eq] at hcovers
        exact ⟨hcovers.1.symm, hcovers.2.1⟩
    obtain ⟨i, rfl⟩ := (under_of_belongs hl hnode).2 n hcn.2
    refine .inl ⟨.nameSpace p, mem_singleton_self _, fun cache => ?_⟩
    rw [hcn.1, ← (path_eq_ok hp).1, ← (path_eq_ok hp).2.1]
    exact CatalogCache.freshnessAt_evict_nameSpace p i
  | relation c n r =>
    obtain rfl := hself c n r rfl
    obtain ⟨p, hp, hown⟩ := bind_eq_ok.mp hown
    obtain rfl := Except.ok.inj hown
    have hsome : p.relation.isSome := (path_eq_ok hp).2.2.2
    refine .inl ⟨.relation p, mem_singleton_self _, fun cache => ?_⟩
    obtain rfl | rfl | rfl := hl
    · rw [← part_of_path hp]
      exact CatalogCache.freshnessAt_evict_relation hsome trivial
    · rw [← part_of_path hp]
      exact CatalogCache.freshnessAt_evict_relation hsome trivial
    · rw [← part_of_path hp]
      exact CatalogCache.freshnessAt_evict_relation hsome trivial
  | constraints c n r | incomingForeignKeys c n r | definition c n r =>
    obtain rfl := hself c n r rfl
    refine (dropped_of_narrow (fun p hp cache => ?_) hown hl).imp_right
      fun ⟨hheld, hl⟩ => ⟨hheld, c, n, r, rfl, hl⟩
    exact CatalogCache.freshnessAt_relationNodeMutOpt hp fun _ => rfl

/-! ## Refreshes -/

/-- The catalog of a connection, and beside it what the patches charged to each live
scope publish. -/
structure Catalogued where
  budget : CatalogBudget
  cache : CatalogCache
  charges : List (CatalogRefreshScope × Level)

def Catalogued.start : Catalogued := ⟨.default, .new, []⟩

/-- A refresh: its scope, what is read, the order the budget's map is gone through in,
and when the patch is applied. -/
structure Refresh where
  scope : CatalogRefreshScope
  provider : CatalogProvider
  capabilities : Capabilities
  entries : List Entry
  now : Int

/-- `refresh_catalog`, under the connection's lock: nothing is published when the read or
the reservation fails. -/
def refreshed (s : Catalogued) (r : Refresh) : Catalogued :=
  match read r.provider r.capabilities r.scope with
  | .error _ => s
  | .ok patch =>
    match s.budget.reserve r.entries r.scope patch with
    | .error _ => s
    | .ok (evicted, budget) =>
      { budget
        cache := (patch.apply r.now (evicted.foldl CatalogCache.evict s.cache)).1
        charges := (s.charges.filter fun charge => (budget.scopes.get charge.1).isSome) ++
          patch.levels.map fun l => (r.scope, l) }

def RefreshStep (s : Catalogued) (r : Refresh) (s' : Catalogued) : Prop :=
  r.entries.Perm s.budget.scopes.entries ∧ s' = refreshed s r

structure Charged (s : Catalogued) : Prop where
  /-- A level that is held is charged to a live scope. -/
  held : ∀ l, s.cache.freshnessAt l ≠ .never →
    ∃ scope, s.budget.Live scope ∧ (scope, l) ∈ s.charges
  /-- What is charged to a scope is its own. -/
  belongs : ∀ scope l, (scope, l) ∈ s.charges → Belongs scope l
  /-- The description of a relation is charged to each of its scopes. -/
  described : ∀ scope c n r, s.budget.Live scope → scope.relation? = some (c, n, r) →
    (scope, .relation (rawKey c) (rawKey n) r .detail) ∈ s.charges

theorem charged_start : Charged .start := by
  refine ⟨fun l hl => ?_, fun scope l hl => ?_, fun scope c n r hlive => ?_⟩
  · exact absurd (CatalogCache.freshnessAt_new l) hl
  · exact absurd hl not_mem_nil
  · simp [CatalogBudget.Live, Catalogued.start, CatalogBudget.default] at hlive

theorem Charged.step {s s' : Catalogued} {r : Refresh} (hs : Charged s)
    (h : RefreshStep s r s') : Charged s' := by
  obtain ⟨hentries, rfl⟩ := h
  unfold refreshed
  split
  · exact hs
  next patch hread =>
    split
    · exact hs
    next evicted after hreserve =>
      obtain ⟨victims, hreserved⟩ := reserve_eq_ok hentries hreserve
      have hkept : ∀ scope l, (scope, l) ∈ s.charges → after.Live scope →
          (scope, l) ∈ (s.charges.filter fun charge => (after.scopes.get charge.1).isSome) ++
            patch.levels.map fun l => (r.scope, l) :=
        fun scope l hmem hlive => mem_append_left _ (mem_filter.mpr ⟨hmem, hlive⟩)
      have hown : ∀ l ∈ patch.levels,
          (r.scope, l) ∈ (s.charges.filter fun charge => (after.scopes.get charge.1).isSome) ++
            patch.levels.map fun l => (r.scope, l) :=
        fun l hl => mem_append_right _ (mem_map_of_mem hl)
      -- a live scope of a relation is charged its description, the refreshed one by its patch
      have hdescribed : ∀ scope c n rel, after.Live scope → scope.relation? = some (c, n, rel) →
          (scope, Level.relation (rawKey c) (rawKey n) rel .detail) ∈
            (s.charges.filter fun charge => (after.scopes.get charge.1).isSome) ++
              patch.levels.map fun l => (r.scope, l) := by
        intro scope c n rel hlive hrelation
        obtain rfl | hbefore := hreserved.only scope hlive
        · exact hown _ (detail_mem_of_read hread hrelation)
        · exact hkept _ _ (hs.described scope c n rel hbefore hrelation) hlive
      refine ⟨fun l hl => ?_, fun scope l hmem => ?_, hdescribed⟩
      · obtain hpublished | hsame | hnever := CatalogPatch.onlyDrops_apply patch r.now
          (evicted.foldl CatalogCache.evict s.cache) l
        · exact ⟨r.scope, hreserved.charged, hown l (CatalogPatch.mem_levels_of_published hpublished)⟩
        · have hheld : (evicted.foldl CatalogCache.evict s.cache).freshnessAt l ≠ .never := by
            rw [← hsame]
            exact hl
          have hbefore : s.cache.freshnessAt l ≠ .never := by
            have hdrops : OnlyDrops (fun _ => False) s.cache.freshnessAt
                (evicted.foldl CatalogCache.evict s.cache).freshnessAt := CatalogCache.onlyDrops_evictAll
            obtain hfalse | hsame | hnever := hdrops l
            · exact hfalse.elim
            · rw [← hsame]
              exact hheld
            · exact absurd hnever hheld
          obtain ⟨scope, hlive, hmem⟩ := hs.held l hbefore
          obtain hlive | ⟨victim, hvictim, hanchor, hgone⟩ := hreserved.live scope hlive
          · exact ⟨scope, hlive, hkept scope l hmem hlive⟩
          · -- what was charged to a scope that went is dropped, or a description still charged
            obtain ⟨held, own, hown', hsub, hstill⟩ := hreserved.drops victim hvictim
            obtain ⟨dropped, hdropped, hnever⟩ | ⟨hheld', c, n, rel, hrelation, rfl⟩ :=
              dropped_of_victim hown' hanchor hgone (hs.belongs scope l hmem)
            · exact absurd (CatalogCache.freshnessAt_evictAll (hsub dropped hdropped) hnever) hheld
            · obtain ⟨key, hkey, hsame⟩ := hstill hheld'
              rw [anchor_eq_some_iff.mpr hrelation, anchor_eq_some_iff] at hsame
              exact ⟨key, hkey, hdescribed key c n rel hkey hsame⟩
        · exact absurd hnever hl
      · obtain hmem | hmem := mem_append.mp hmem
        · exact hs.belongs scope l (mem_filter.mp hmem).1
        · obtain ⟨l', hl', heq⟩ := mem_map.mp hmem
          obtain ⟨rfl, rfl⟩ := Prod.mk.inj heq
          exact belongs_of_read hread hl'

theorem charged_of_run {s : Catalogued} {tr : List Refresh}
    (h : Runs.Steps RefreshStep .start tr s) : Charged s := by
  induction h with
  | nil => exact charged_start
  | snoc _ hstep ih => exact ih.step hstep

/-- Every level the cache holds is charged: it belongs to a live reservation, which
published it. -/
theorem held_level_is_charged {s : Catalogued} {tr : List Refresh}
    (h : Runs.Steps RefreshStep .start tr s) {l : Level} (hl : s.cache.freshnessAt l ≠ .never) :
    ∃ scope, s.budget.Live scope ∧ Belongs scope l ∧ (scope, l) ∈ s.charges := by
  obtain ⟨scope, hlive, hmem⟩ := (charged_of_run h).held l hl
  exact ⟨scope, hlive, (charged_of_run h).belongs scope l hmem, hmem⟩

def emptySource : CatalogProvider where
  serverInfo := .error .provider
  listCatalogs := .error .provider
  listNamespaces := fun _ => .error .provider
  listRelations := fun _ => .ok []
  describeRelation := fun _ => .error .provider
  listIndexes := fun _ => .error .provider
  listForeignKeys := fun _ => .error .provider
  listConstraints := fun _ => .error .provider
  listIncomingForeignKeys := fun _ => .error .provider
  relationDefinition := fun _ => .error .provider
  resolutionPath := .error .provider

def listRoot : Refresh :=
  ⟨.relations none none, emptySource, ⟨0⟩, [], 0⟩

theorem listed_root_is_charged :
    (refreshed .start listRoot).cache.freshnessAt (.relations [] []) ≠ .never ∧
      ∃ scope, (refreshed .start listRoot).budget.Live scope ∧ Belongs scope (.relations [] []) ∧
        (scope, Level.relations [] []) ∈ (refreshed .start listRoot).charges := by
  have hheld : (refreshed .start listRoot).cache.freshnessAt (.relations [] []) ≠ .never := by
    decide
  exact ⟨hheld, held_level_is_charged (.snoc .nil ⟨.refl _, rfl⟩) hheld⟩

end Oxyn.Catalog
