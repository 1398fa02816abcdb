/-
# `Oxyn.Exec.CatalogPlaces` — where the nodes of the tree are, and the definitions that stay

A relation is found under the keys of the path its summary carries, and every operation on the
cache keeps it so (`Reached.placed`).
-/
import Oxyn.Exec.CatalogRead

namespace Oxyn

open Text List

theorem Catalog.mapKey_injective : Function.Injective mapKey := by
  intro s t h
  cases s with
  | none =>
    cases t with
    | none => rfl
    | some t => exact absurd h.symm t.ne_nil
  | some s =>
    cases t with
    | none => exact absurd h s.ne_nil
    | some t => exact congrArg some (Subtype.ext h)

namespace CatalogPath

def keys (path : CatalogPath) : Str × Str × Str :=
  (Catalog.mapKey path.catalog, Catalog.mapKey path.nameSpace, Catalog.mapKey path.relation)

theorem keys_injective : Function.Injective keys := by
  rintro ⟨c, n, r⟩ ⟨c', n', r'⟩ h
  obtain ⟨hc, hn, hr⟩ : _ ∧ _ ∧ _ := by simpa [keys] using h
  rw [Catalog.mapKey_injective hc, Catalog.mapKey_injective hn, Catalog.mapKey_injective hr]

end CatalogPath

namespace Catalog

/-! ## Where the nodes are -/

def RelationNode.Placed (c n r : Str) (node : RelationNode) : Prop :=
  node.summary.path.keys = (c, n, r)

theorem RelationNode.Placed.of_summary {c n r : Str} {node node' : RelationNode}
    (hnode : node.Placed c n r) (h : node'.summary = node.summary) : node'.Placed c n r := by
  rwa [RelationNode.Placed, h]

def NamespaceNode.Placed (c n : Str) (node : NamespaceNode) : Prop :=
  node.relations.value.All (RelationNode.Placed c n)

def CatalogNode.Placed (c : Str) (node : CatalogNode) : Prop :=
  node.namespaces.value.All (NamespaceNode.Placed c)

theorem NamespaceNode.placed_new (c n : Str) (info : Option NamespaceRef) :
    (NamespaceNode.new info).Placed c n :=
  IndexMap.All.empty

theorem CatalogNode.placed_new (c : Str) (info : Option CatalogRef) :
    (CatalogNode.new info).Placed c :=
  IndexMap.All.empty

namespace CatalogCache

def Placed (cache : CatalogCache) : Prop := cache.catalogs.value.All CatalogNode.Placed

section Placed

variable {cache cache' : CatalogCache} {path : CatalogPath} {f : RelationNode → RelationNode}

theorem Placed.catalogNodeMut (h : cache.Placed) {catalog : Option Segment}
    {f : CatalogNode → CatalogNode}
    (hf : ∀ node : CatalogNode, node.Placed (mapKey catalog) → (f node).Placed (mapKey catalog)) :
    (cache.catalogNodeMut catalog f).Placed :=
  (h.orInsert (CatalogNode.placed_new _ _)).modify hf

theorem Placed.namespaceNodeMut (h : cache.Placed) {f : NamespaceNode → NamespaceNode}
    (hf : ∀ node : NamespaceNode, node.Placed (mapKey path.catalog) (mapKey path.nameSpace) →
      (f node).Placed (mapKey path.catalog) (mapKey path.nameSpace)) :
    (cache.namespaceNodeMut path f).Placed :=
  h.catalogNodeMut fun _ hnode => (hnode.orInsert (NamespaceNode.placed_new _ _ _)).modify hf

theorem Placed.namespaceNodeAt (h : cache.Placed) {c n : Str} {f : NamespaceNode → NamespaceNode}
    (hf : ∀ node : NamespaceNode, node.Placed c n → (f node).Placed c n) :
    (cache.namespaceNodeAt c n f).Placed :=
  h.modify fun _ hnode => hnode.modify hf

theorem Placed.relationNodeOrCreate (h : cache.Placed) {kind : RelationKind}
    (hcache : cache.relationNodeOrCreate path kind f = .ok cache')
    (hf : ∀ node, (f node).summary = node.summary) : cache'.Placed := by
  unfold CatalogCache.relationNodeOrCreate at hcache
  split at hcache
  · cases hcache
  · obtain rfl := Except.ok.inj hcache
    refine h.namespaceNodeMut fun node hnode => (hnode.orInsert ?_).modify
      fun _ hv => hv.of_summary (hf _)
    rfl

theorem Placed.relationNodeAt (h : cache.Placed) (c n r : Str)
    (hf : ∀ node, (f node).summary = node.summary) :
    (cache.relationNodeAt c n r f).Placed :=
  h.namespaceNodeAt fun _ hnode => hnode.modify fun _ hv => hv.of_summary (hf _)

theorem Placed.relationNodeMutOpt (h : cache.Placed)
    (hf : ∀ node, (f node).summary = node.summary) :
    (cache.relationNodeMutOpt path f).Placed := by
  unfold CatalogCache.relationNodeMutOpt
  split
  · exact h
  · exact h.relationNodeAt _ _ _ hf

theorem Placed.relationNodeExistingMut (h : cache.Placed)
    (hcache : cache.relationNodeExistingMut path f = .ok cache')
    (hf : ∀ node, (f node).summary = node.summary) : cache'.Placed := by
  unfold CatalogCache.relationNodeExistingMut at hcache
  split_ifs at hcache
  obtain rfl := Except.ok.inj hcache
  exact h.relationNodeMutOpt hf

end Placed

theorem exists_of_setDefinition {cache after : CatalogCache} {now : Int} {path : CatalogPath}
    {definition : RelationDefinition} (h : cache.setDefinition now path definition = .ok after) :
    ∃ mid, (cache.relationNodeExistingMut path fun node =>
        { node with definition := node.definition.set now (some definition) }) = .ok mid ∧
      after = mid.evictDefinitions path := by
  unfold setDefinition at h
  generalize CatalogCache.relationNodeExistingMut _ _ _ = set at h
  cases set with
  | error => cases h
  | ok mid => exact ⟨mid, rfl, (Except.ok.inj h).symm⟩

theorem Placed.of_mem_parts {patch : CatalogPatch} {l : Level} {now : Int}
    {w : Int → CatalogCache → Except CacheError CatalogCache} {before after : CatalogCache}
    (hw : (l, w) ∈ patch.parts) (h : before.Placed) (hafter : w now before = .ok after) :
    after.Placed := by
  simp only [CatalogPatch.parts, mem_append, Option.mem_toList, Option.map_eq_some_iff,
    Prod.mk.injEq] at hw
  obtain ((((((((((⟨v, -, -, rfl⟩ | ⟨v, -, -, rfl⟩) | ⟨v, -, -, rfl⟩) | ⟨v, -, -, rfl⟩) |
    ⟨v, -, -, rfl⟩) | ⟨v, -, -, rfl⟩) | ⟨v, -, -, rfl⟩) | ⟨v, -, -, rfl⟩) |
    ⟨v, -, -, rfl⟩) | ⟨v, -, -, rfl⟩) | ⟨v, -, -, rfl⟩) := hw
  · obtain rfl := Except.ok.inj hafter
    exact h
  · obtain rfl := Except.ok.inj hafter
    exact h.relist (fun _ => CatalogNode.placed_new _ _) fun _ _ hnode => hnode
  · obtain rfl := Except.ok.inj hafter
    exact h.catalogNodeMut fun node hnode =>
      hnode.relist (fun _ => NamespaceNode.placed_new _ _ _) fun _ _ hspace => hspace
  · dsimp only at hafter
    unfold CatalogCache.setRelations at hafter
    split at hafter
    · cases hafter
    · obtain rfl := Except.ok.inj hafter
      exact h.namespaceNodeMut fun node hnode => hnode.relist (fun _ => rfl) fun _ _ _ => rfl
  · exact h.relationNodeOrCreate hafter fun _ => rfl
  · exact h.relationNodeExistingMut hafter fun _ => rfl
  · exact h.relationNodeExistingMut hafter fun _ => rfl
  · exact h.relationNodeExistingMut hafter fun _ => rfl
  · exact h.relationNodeExistingMut hafter fun _ => rfl
  · obtain ⟨mid, hmid, rfl⟩ := exists_of_setDefinition hafter
    exact evictDefinitions_keeps mid _ (fun _ _ hcache => hcache.relationNodeMutOpt fun _ => rfl)
      (h.relationNodeExistingMut hmid fun _ => rfl)
  · obtain rfl := Except.ok.inj hafter
    exact h

theorem Placed.apply {cache : CatalogCache} (h : cache.Placed) (patch : CatalogPatch) (now : Int) :
    (patch.apply now cache).1.Placed := by
  suffices ∀ ws : List (Level × (CatalogCache → Except CacheError CatalogCache)),
      (∀ w ∈ ws, ∀ before after, before.Placed → w.2 before = .ok after → after.Placed) →
      ∀ cache, cache.Placed → (CatalogPatch.write ws cache).1.Placed by
    refine this _ (fun w hw before after hbefore hafter => ?_) cache h
    obtain ⟨⟨l, w⟩, hmem, rfl⟩ := mem_map.mp hw
    exact hbefore.of_mem_parts hmem hafter
  intro ws hws
  induction ws with
  | nil => exact fun _ h => h
  | cons w rest ih =>
    intro cache h
    rw [CatalogPatch.write]
    split
    next after hafter =>
      exact ih (fun w hw => hws w (mem_cons_of_mem _ hw)) after
        (hws w mem_cons_self cache after h hafter)
    next => exact h

section Operations

variable {cache : CatalogCache}

theorem placed_invalidateNamespace {c n : Str} {space : NamespaceNode} (h : space.Placed c n) :
    (invalidateNamespace space).Placed c n :=
  h.mapValues fun _ _ hv => hv

theorem placed_invalidateCatalog {c : Str} {catalogue : CatalogNode} (h : catalogue.Placed c) :
    (invalidateCatalog catalogue).Placed c :=
  h.mapValues fun _ _ hs => placed_invalidateNamespace hs

theorem Placed.invalidate (h : cache.Placed) (scope : CatalogScope) :
    (cache.invalidate scope).Placed := by
  cases scope with
  | server => exact h.mapValues fun _ _ hc => placed_invalidateCatalog hc
  | catalog path => exact h.modify fun _ hc => placed_invalidateCatalog hc
  | nameSpace path => exact h.namespaceNodeAt fun _ hs => placed_invalidateNamespace hs
  | _ => exact h.relationNodeMutOpt fun _ => rfl

theorem Placed.forget (h : cache.Placed) (scope : CatalogScope) : (cache.forget scope).Placed := by
  cases scope with
  | server => exact .empty
  | catalog path => exact h.remove _
  | nameSpace path => exact h.modify fun _ hc => hc.remove _
  | relation path =>
    rw [CatalogCache.forget]
    split
    · exact h
    · exact h.namespaceNodeAt fun _ hs => hs.remove _
  | _ => exact h.relationNodeMutOpt fun _ => rfl

theorem Placed.evict (h : cache.Placed) (scope : CatalogScope) : (cache.evict scope).Placed := by
  cases scope with
  | server => exact .empty
  | catalog path =>
    rw [CatalogCache.evict]
    split
    · exact h.remove _
    · exact h.modify fun _ _ => .empty
  | nameSpace path =>
    refine h.modify fun node hc => ?_
    unfold evictNamespace
    split
    · exact hc.remove _
    · exact hc.modify fun _ _ => .empty
  | relation path =>
    rw [CatalogCache.evict]
    split
    · exact h
    · refine h.namespaceNodeAt fun node hs => ?_
      unfold evictRelation
      split
      · exact hs
      · dsimp only
        split
        · exact hs.remove _
        · exact hs.modify fun _ hv => hv
  | _ => exact h.forget _

end Operations

/-- What the operations make of an empty cache. -/
inductive Reached : CatalogCache → Prop
  | new : Reached .new
  | apply {cache : CatalogCache} (patch : CatalogPatch) (now : Int) :
      Reached cache → Reached (patch.apply now cache).1
  | invalidate {cache : CatalogCache} (scope : CatalogScope) :
      Reached cache → Reached (cache.invalidate scope)
  | forget {cache : CatalogCache} (scope : CatalogScope) :
      Reached cache → Reached (cache.forget scope)
  | evict {cache : CatalogCache} (scope : CatalogScope) :
      Reached cache → Reached (cache.evict scope)

theorem Reached.placed {cache : CatalogCache} (h : Reached cache) : cache.Placed := by
  induction h with
  | new => exact .empty
  | apply patch now _ ih => exact ih.apply patch now
  | invalidate scope _ ih => exact ih.invalidate scope
  | forget scope _ ih => exact ih.forget scope
  | evict scope _ ih => exact ih.evict scope

/-! ## The definitions that stay -/

variable {cache : CatalogCache} {path : CatalogPath} {held : Held}

theorem Placed.of_mem_held (h : cache.Placed) (hheld : held ∈ cache.heldDefinitions) :
    ∃ node, cache.relationNode held.path = some node ∧ held.path = node.summary.path ∧
      held.place = held.path.keys := by
  obtain ⟨⟨c, catalogue⟩, hc, hheld⟩ := mem_flatMap.mp hheld
  obtain ⟨⟨n, space⟩, hn, hheld⟩ := mem_flatMap.mp hheld
  obtain ⟨⟨r, node⟩, hr, hheld⟩ := mem_filterMap.mp hheld
  obtain ⟨definition, -, rfl⟩ := Option.map_eq_some_iff.mp hheld
  have hc := IndexMap.get_eq_some.mpr hc
  have hn := IndexMap.get_eq_some.mpr hn
  have hr := IndexMap.get_eq_some.mpr hr
  have hplace : node.summary.path.keys = (c, n, r) := h _ _ hc _ _ hn _ _ hr
  refine ⟨node, ?_, rfl, hplace.symm⟩
  obtain ⟨rfl, rfl, rfl⟩ : _ ∧ _ ∧ _ := by simpa [CatalogPath.keys] using hplace
  simp only [relationNode, namespaceNode, hc, hn, Option.bind_eq_bind, Option.bind_some]
  exact hr

/-- No relation is met twice. -/
theorem nodup_heldDefinitions (cache : CatalogCache) :
    (cache.heldDefinitions.map (·.place)).Nodup := by
  simp only [heldDefinitions, map_flatMap, map_filterMap, Option.map_map]
  refine IndexMap.nodup_flatMap_entries (·.1) ?_ fun catalog _ => ?_
  · intro catalog _ place hplace
    obtain ⟨space, -, hplace⟩ := mem_flatMap.mp hplace
    obtain ⟨relation, -, hplace⟩ := mem_filterMap.mp hplace
    obtain ⟨definition, -, rfl⟩ := Option.map_eq_some_iff.mp hplace
    rfl
  refine IndexMap.nodup_flatMap_entries (·.2.1) ?_ fun space _ => ?_
  · intro space _ place hplace
    obtain ⟨relation, -, hplace⟩ := mem_filterMap.mp hplace
    obtain ⟨definition, -, rfl⟩ := Option.map_eq_some_iff.mp hplace
    rfl
  refine (pairwise_map.mp space.2.relations.value.nodup).filterMap _ ?_
  intro relation other hne place hplace place' hplace' heq
  obtain ⟨definition, -, rfl⟩ := Option.map_eq_some_iff.mp hplace
  obtain ⟨definition', -, rfl⟩ := Option.map_eq_some_iff.mp hplace'
  exact hne (congrArg (·.2.2) heq)

theorem relationNode_dropDefinition {place : Str × Str × Str} (h : place ≠ path.keys) :
    (cache.dropDefinition place).relationNode path = cache.relationNode path := by
  obtain ⟨c, n, r⟩ := place
  cases hname : path.relation with
  | none => simp [relationNode, hname]
  | some name =>
    simp only [relationNode, hname, namespaceNode, dropDefinition, CatalogCache.relationNodeAt,
      CatalogCache.namespaceNodeAt, Cached.modify, IndexMap.get_modify, Option.bind_eq_bind,
      Option.bind_some]
    by_cases hc : mapKey path.catalog = c
    · rw [if_pos hc]
      cases hcatalog : cache.catalogs.value.get (mapKey path.catalog) with
      | none => simp
      | some catalogue =>
        simp only [Option.map_some, Option.bind_some, IndexMap.get_modify]
        by_cases hn : mapKey path.nameSpace = n
        · rw [if_pos hn]
          cases hspace : catalogue.namespaces.value.get (mapKey path.nameSpace) with
          | none => simp
          | some space =>
            simp only [Option.map_some, Option.bind_some, IndexMap.get_modify]
            rw [if_neg]
            rintro rfl
            exact h (by rw [CatalogPath.keys, hc, hn, hname]; rfl)
        · rw [if_neg hn]
    · rw [if_neg hc]

theorem relationNode_relationNodeExistingMut {mid : CatalogCache} {f : RelationNode → RelationNode}
    (h : cache.relationNodeExistingMut path f = .ok mid) :
    ∃ node, mid.relationNode path = some (f node) := by
  unfold CatalogCache.relationNodeExistingMut at h
  split_ifs at h with hpath hnode
  obtain rfl := Except.ok.inj h
  obtain ⟨node, hnode⟩ := Option.ne_none_iff_exists'.mp (mt Option.isNone_iff_eq_none.mpr hnode)
  obtain ⟨name, hname⟩ := Option.ne_none_iff_exists'.mp (mt Option.isNone_iff_eq_none.mpr hpath)
  simp only [relationNode, hname, namespaceNode, Option.bind_eq_bind, Option.bind_some,
    Option.bind_eq_some_iff] at hnode
  obtain ⟨space, ⟨catalogue, hcatalog, hspace⟩, hnode⟩ := hnode
  refine ⟨node, ?_⟩
  simp [relationNode, hname, namespaceNode, CatalogCache.relationNodeMutOpt,
    CatalogCache.relationNodeAt, CatalogCache.namespaceNodeAt, Cached.modify, IndexMap.get_modify,
    hcatalog, hspace, hnode]

/-- What is held is within its limits. -/
def Fits (cache : CatalogCache) : Prop :=
  cache.heldDefinitions.length ≤ maxDefinitions ∧
    (cache.heldDefinitions.map (·.bytes)).sum ≤ maxDefinitionBytes

theorem Placed.of_step {next : CatalogCache} (h : cache.Placed)
    (hstep : cache.evictDefinitionsStep path = some next) :
    ∃ held ∈ cache.heldDefinitions, held.path.keys ≠ path.keys ∧
      next = cache.dropDefinition held.place := by
  unfold evictDefinitionsStep at hstep
  dsimp only at hstep
  split at hstep
  · cases hstep
  · simp only [Option.bind_eq_bind, Option.bind_eq_some_iff, Option.some.injEq] at hstep
    obtain ⟨oldest, holdest, -, -, rfl⟩ := hstep
    obtain ⟨hmem, hother⟩ := mem_filter.mp (argmin_mem holdest)
    obtain ⟨node, -, hpath, hplace⟩ := h.of_mem_held hmem
    refine ⟨oldest, hmem, fun heq => of_decide_eq_true hother
      (CatalogPath.keys_injective heq), ?_⟩
    rw [hplace, hpath]
    rfl

/-- The last turn finds the definitions within their limits, or one alone. -/
theorem Placed.of_last (h : cache.Placed) (hlast : cache.evictDefinitionsStep path = none) :
    cache.Fits ∨ cache.heldDefinitions.map (·.path) = [path] := by
  by_cases hfits : cache.Fits
  · exact .inl hfits
  have hall : ∀ held ∈ cache.heldDefinitions, held.path = path := by
    unfold evictDefinitionsStep at hlast
    dsimp only at hlast
    rw [if_neg (show ¬ (_ ∧ _) from hfits)] at hlast
    cases holdest : (cache.heldDefinitions.filter (·.path ≠ path)).argmin (·.fetchedAt) with
    | none => simpa using argmin_eq_none.mp holdest
    | some oldest =>
      obtain ⟨node, hnode, -⟩ := h.of_mem_held (mem_filter.mp (argmin_mem holdest)).1
      rw [holdest, Option.bind_eq_bind, Option.bind_some, hnode] at hlast
      cases hlast
  have hplaces : cache.heldDefinitions.map (·.place) =
      replicate cache.heldDefinitions.length path.keys := by
    refine eq_replicate_iff.mpr ⟨length_map _, fun place hplace => ?_⟩
    obtain ⟨held, hheld, rfl⟩ := mem_map.mp hplace
    obtain ⟨-, -, -, hplace⟩ := h.of_mem_held hheld
    rw [hplace, hall held hheld]
  have hone := cache.nodup_heldDefinitions
  rw [hplaces, nodup_replicate] at hone
  right
  cases hheld : cache.heldDefinitions with
  | nil => exact absurd (by simp [Fits, hheld]) hfits
  | cons held rest =>
    rw [hheld, length_cons] at hone
    obtain rfl := length_eq_zero_iff.mp (Nat.le_zero.mp (Nat.le_of_succ_le_succ hone))
    rw [map_singleton, hall held (hheld ▸ mem_cons_self)]

theorem Placed.evicts {turns : Nat} (h : cache.Placed) (path : CatalogPath)
    (hturns : cache.heldDefinitions.length ≤ turns) :
    (evictDefinitionsLoop path turns cache).Placed ∧
      (evictDefinitionsLoop path turns cache).evictDefinitionsStep path = none ∧
      ∃ dropped : List (Str × Str × Str), path.keys ∉ dropped ∧
        evictDefinitionsLoop path turns cache = dropped.foldl dropDefinition cache := by
  induction turns generalizing cache with
  | zero =>
    have hnil := length_eq_zero_iff.mp (Nat.le_zero.mp hturns)
    exact ⟨h, by simp [evictDefinitionsLoop, evictDefinitionsStep, hnil], [], not_mem_nil, rfl⟩
  | succ turns ih =>
    rw [evictDefinitionsLoop]
    cases hstep : cache.evictDefinitionsStep path with
    | none => exact ⟨h, hstep, [], not_mem_nil, rfl⟩
    | some next =>
      obtain ⟨held, hheld, hother, rfl⟩ := h.of_step hstep
      obtain ⟨-, -, -, hplace⟩ := h.of_mem_held hheld
      have hless : (cache.dropDefinition held.place).heldDefinitions.length <
          cache.heldDefinitions.length := by
        rw [heldDefinitions_dropDefinition]
        exact length_filter_lt_length_iff_exists.mpr ⟨held, hheld, by simp⟩
      have hnext : (cache.dropDefinition held.place).Placed := h.relationNodeAt _ _ _ fun _ => rfl
      obtain ⟨hplaced, hlast, dropped, hnot, heq⟩ := ih hnext (by omega)
      refine ⟨hplaced, hlast, held.place :: dropped, ?_, heq⟩
      rw [mem_cons, not_or, hplace]
      exact ⟨hother.symm, hnot⟩

/-- Last successful definition read. -/
def definition (cache : CatalogCache) (path : CatalogPath) : Option RelationDefinition :=
  (cache.relationNode path).bind (·.definition.value)

theorem definition_foldl_dropDefinition {dropped : List (Str × Str × Str)}
    (h : path.keys ∉ dropped) :
    (dropped.foldl dropDefinition cache).definition path = cache.definition path := by
  induction dropped generalizing cache with
  | nil => rfl
  | cons place rest ih =>
    obtain ⟨hplace, hrest⟩ := not_or.mp (mt mem_cons.mpr h)
    rw [foldl_cons, ih hrest, definition, relationNode_dropDefinition (Ne.symm hplace), definition]

/-- The loop ends; what is held then fits, or is the definition just stored, which stays in any
case; and all the loop did was to drop definitions of other relations. -/
theorem setDefinition_evicts {after : CatalogCache} {now : Int} {definition : RelationDefinition}
    (h : Reached cache) (hset : cache.setDefinition now path definition = .ok after) :
    after.evictDefinitionsStep path = none ∧
      (after.Fits ∨ after.heldDefinitions.map (·.path) = [path]) ∧
      after.definition path = some definition ∧
      ∃ (dropped : List (Str × Str × Str)) (mid : CatalogCache), path.keys ∉ dropped ∧
        after = dropped.foldl dropDefinition mid ∧
        (cache.relationNodeExistingMut path fun node =>
          { node with definition := node.definition.set now (some definition) }) = .ok mid := by
  obtain ⟨mid, hmid, rfl⟩ := exists_of_setDefinition hset
  have hplaced := h.placed.relationNodeExistingMut hmid fun _ => rfl
  obtain ⟨hafter, hlast, dropped, hnot, heq⟩ := hplaced.evicts path (Nat.le_refl _)
  refine ⟨hlast, hafter.of_last hlast, ?_, dropped, mid, hnot, heq, hmid⟩
  obtain ⟨node, hnode⟩ := relationNode_relationNodeExistingMut hmid
  rw [show mid.evictDefinitions path = _ from heq, definition_foldl_dropDefinition hnot,
    CatalogCache.definition, hnode]
  rfl

/-! ## Seventeen definitions -/

def views : List Segment :=
  "abcdefghijklmnopq".toList.filterMap fun c =>
    if h : validateSegment [c] = .ok () then some ⟨[c], h⟩ else none

def select : RelationDefinition := ⟨"select 1".toList, []⟩

def listViews : CatalogPatch where
  relations := some (.empty, views.map fun name => ⟨.empty, name, .view, none⟩)

def readView (name : Segment) : CatalogPatch where
  definition := some (⟨none, none, some name⟩, select)

def sixteen : CatalogCache :=
  (views.take 16).foldl (fun cache name => ((readView name).apply 0 cache).1)
    (listViews.apply 0 .new).1

theorem reached_sixteen : Reached sixteen := by
  unfold sixteen
  generalize views.take 16 = read
  suffices ∀ cache, Reached cache →
      Reached (read.foldl (fun cache name => ((readView name).apply 0 cache).1) cache) from
    this _ (.apply listViews 0 .new)
  induction read with
  | nil => exact fun _ h => h
  | cons name rest ih => exact fun cache h => ih _ (.apply (readView name) 0 h)

def firstView : CatalogPath := ⟨none, none, views.head?⟩

def lastView : CatalogPath := ⟨none, none, views.getLast?⟩

/-- The seventeenth definition evicts the first. -/
theorem setDefinition_evicts_first :
    ∃ after, sixteen.setDefinition 1 lastView select = .ok after ∧ after.Fits ∧
      (sixteen.definition firstView).isSome ∧ after.definition firstView = none ∧
      after.definition lastView = some select := by
  have hfirst : (sixteen.setDefinition 1 lastView select).toOption.map
      (fun cache => ((cache.definition firstView).isNone, cache.heldDefinitions.length)) =
        some (true, 16) := by
    decide +kernel
  cases hafter : sixteen.setDefinition 1 lastView select with
  | error e =>
    rw [hafter] at hfirst
    cases hfirst
  | ok after =>
    rw [hafter] at hfirst
    obtain ⟨hgone, hheld⟩ := Prod.mk.inj (Option.some.inj hfirst)
    obtain ⟨-, hfits, hkept, -⟩ := setDefinition_evicts reached_sixteen hafter
    refine ⟨after, rfl, hfits.resolve_right fun hone => ?_, by decide +kernel,
      Option.isNone_iff_eq_none.mp hgone, hkept⟩
    have hlength := congrArg List.length hone
    rw [length_map, hheld] at hlength
    cases hlength

end CatalogCache

end Catalog

end Oxyn
