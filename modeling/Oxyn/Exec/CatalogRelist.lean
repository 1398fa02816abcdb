/-
# `Oxyn.Exec.CatalogRelist` — what a level listed again keeps

A listing is authoritative on its level: what it does not name goes, and what remains should keep
the subtree it had.
-/
import Oxyn.Exec.CatalogRead

namespace Oxyn.Catalog

open Text List

/-! ## The levels -/

namespace CatalogCache

def namespacesAt (cache : CatalogCache) (catalog : Str) : IndexMap Str NamespaceNode :=
  ((cache.catalogs.value.get catalog).map (·.namespaces.value)).getD .empty

def relationsAt (cache : CatalogCache) (path : CatalogPath) : IndexMap Str RelationNode :=
  (((cache.namespacesAt (mapKey path.catalog)).get (mapKey path.nameSpace)).map
    (·.relations.value)).getD .empty

variable {cache : CatalogCache} {now : Int}

theorem get_catalogNodeMut (catalog : Option Segment) (f : CatalogNode → CatalogNode) :
    (cache.catalogNodeMut catalog f).catalogs.value.get (mapKey catalog) =
      some (f ((cache.catalogs.value.get (mapKey catalog)).getD
        (.new (catalog.map .validated)))) := by
  show ((cache.catalogs.value.orInsert _ _).modify _ f).get _ = _
  rw [IndexMap.get_modify, if_pos rfl, IndexMap.get_orInsert, if_pos rfl]
  rfl

theorem namespacesAt_setNamespaces (catalog : Option Segment) (infos : List NamespaceRef) :
    (cache.setNamespaces now catalog infos).namespacesAt (mapKey catalog) =
      IndexMap.relist (·.name.val)
        (fun info => .new (some { info with parent := ⟨catalog, none, none⟩ }))
        (fun info existing =>
          { existing with info := some { info with parent := ⟨catalog, none, none⟩ } })
        infos (cache.namespacesAt (mapKey catalog)) := by
  unfold namespacesAt setNamespaces
  rw [get_catalogNodeMut]
  cases cache.catalogs.value.get (mapKey catalog) with
  | none => rfl
  | some node => rfl

theorem relationsAt_namespaceNodeMut (path : CatalogPath) (f : NamespaceNode → NamespaceNode) :
    (cache.namespaceNodeMut path f).relationsAt path =
      (f (((cache.namespacesAt (mapKey path.catalog)).get (mapKey path.nameSpace)).getD
        (.new (path.nameSpace.map (.validated ⟨path.catalog, none, none⟩))))).relations.value := by
  unfold relationsAt namespacesAt namespaceNodeMut
  rw [get_catalogNodeMut]
  show (Option.map _ (((_ : IndexMap Str NamespaceNode).orInsert _ _).modify _ f |>.get _)).getD _ = _
  rw [IndexMap.get_modify, if_pos rfl, IndexMap.get_orInsert, if_pos rfl]
  cases cache.catalogs.value.get (mapKey path.catalog) with
  | none => rfl
  | some node => rfl

end CatalogCache

/-! ## A patch -/

/-- The node listed anew: what is under it is what was. -/
def CatalogNode.Same (node node' : CatalogNode) : Prop := node' = { node with info := node'.info }

def NamespaceNode.Same (node node' : NamespaceNode) : Prop :=
  node' = { node with info := node'.info }

def RelationNode.Same (node node' : RelationNode) : Prop :=
  node' = { node with summary := node'.summary }

/-- Nothing was read under the node. -/
def CatalogNode.Blank (node : CatalogNode) : Prop := node = .new node.info

def NamespaceNode.Blank (node : NamespaceNode) : Prop := node = .new node.info

def RelationNode.Blank (node : RelationNode) : Prop := node = .new node.summary

def CatalogRefreshScope.Lists : CatalogRefreshScope → Prop
  | .root | .namespaces _ | .relations _ _ => True
  | _ => False

/-- Each level a patch lists keeps what is known of the entries that remain, and no other. -/
def KeepsKnown (patch : CatalogPatch) (old new : CatalogCache) : Prop :=
  (∀ infos, patch.catalogs = some infos →
    if infos = [] then ∀ k, k ≠ missingTier → new.catalogs.value.get k = none
    else IndexMap.Kept (infos.map (·.name.val)) CatalogNode.Same old.catalogs.value new.catalogs.value) ∧
  (∀ p, patch.namespaces = some p → IndexMap.Kept (p.2.map (·.name.val)) NamespaceNode.Same
    (old.namespacesAt (mapKey p.1)) (new.namespacesAt (mapKey p.1))) ∧
  ∀ p, patch.relations = some p → IndexMap.Kept (p.2.map (·.name.val)) RelationNode.Same
    (old.relationsAt p.1) (new.relationsAt p.1)

/-- Every listed entry that was there has nothing under it, or is listed once and not under the
server by a patch without catalogs. -/
def SparedBy (patch : CatalogPatch) (old : CatalogCache) : Prop :=
  (∀ infos, patch.catalogs = some infos →
    IndexMap.Spared (infos.map (·.name.val)) CatalogNode.Blank false old.catalogs.value) ∧
  (∀ p, patch.namespaces = some p → IndexMap.Spared (p.2.map (·.name.val)) NamespaceNode.Blank
    patch.catalogs.isSome (old.namespacesAt (mapKey p.1))) ∧
  ∀ p, patch.relations = some p → IndexMap.Spared (p.2.map (·.name.val)) RelationNode.Blank
    patch.catalogs.isSome (old.relationsAt p.1)

theorem CatalogNode.same_new {node : CatalogNode} (info : CatalogRef) :
    node.Same (.new (some info)) ↔ node.Blank := by
  cases node
  simp [Same, Blank, CatalogNode.new, eq_comm]

theorem NamespaceNode.same_new {node : NamespaceNode} (info : NamespaceRef) :
    node.Same (.new (some info)) ↔ node.Blank := by
  cases node
  simp [Same, Blank, NamespaceNode.new, eq_comm]

theorem RelationNode.same_new {node : RelationNode} (summary : RelationRef) :
    node.Same (.new summary) ↔ node.Blank := by
  cases node
  simp [Same, Blank, RelationNode.new, eq_comm]

section Levels

variable (cache : CatalogCache) (now : Int)

theorem kept_setCatalogs_iff (infos : List CatalogRef) :
    IndexMap.Kept (infos.map (·.name.val)) CatalogNode.Same cache.catalogs.value
        (cache.setCatalogs now infos).catalogs.value ↔
      IndexMap.Spared (infos.map (·.name.val)) CatalogNode.Blank false cache.catalogs.value := by
  refine IndexMap.kept_relist_iff (fun info _ => CatalogNode.same_new info) ?_ false
  intro info node
  rfl

theorem kept_setNamespaces_iff {old : IndexMap Str NamespaceNode} (catalog : Option Segment)
    (infos : List NamespaceRef) {dropped : Bool}
    (hprevious : cache.namespacesAt (mapKey catalog) = bif dropped then .empty else old) :
    IndexMap.Kept (infos.map (·.name.val)) NamespaceNode.Same old
        ((cache.setNamespaces now catalog infos).namespacesAt (mapKey catalog)) ↔
      IndexMap.Spared (infos.map (·.name.val)) NamespaceNode.Blank dropped old := by
  rw [CatalogCache.namespacesAt_setNamespaces, hprevious]
  refine IndexMap.kept_relist_iff (fun info _ => NamespaceNode.same_new _) ?_ dropped
  intro info node
  rfl

theorem kept_setRelations_iff {old : IndexMap Str RelationNode} {path : CatalogPath}
    (infos : List RelationRef) {dropped : Bool} {cache' : CatalogCache}
    (hprevious : cache.relationsAt path = bif dropped then .empty else old)
    (h : cache.setRelations now path infos = .ok cache') :
    IndexMap.Kept (infos.map (·.name.val)) RelationNode.Same old (cache'.relationsAt path) ↔
      IndexMap.Spared (infos.map (·.name.val)) RelationNode.Blank dropped old := by
  unfold CatalogCache.setRelations at h
  split at h
  · cases h
  · obtain rfl := Except.ok.inj h
    have hrelations : (((cache.namespacesAt (mapKey path.catalog)).get (mapKey path.nameSpace)).getD
        (.new (path.nameSpace.map (.validated ⟨path.catalog, none, none⟩)))).relations.value =
        cache.relationsAt path := by
      unfold CatalogCache.relationsAt
      cases (cache.namespacesAt (mapKey path.catalog)).get (mapKey path.nameSpace) with
      | none => rfl
      | some node => rfl
    rw [CatalogCache.relationsAt_namespaceNodeMut]
    simp only [Cached.set]
    rw [hrelations, hprevious]
    refine IndexMap.kept_relist_iff (fun info _ => RelationNode.same_new _) ?_ dropped
    intro info node
    rfl

end Levels

theorem get_catalogNodeMut_of_ne {cache : CatalogCache} {now : Int} {k : Str}
    (hk : k ≠ missingTier) (f : CatalogNode → CatalogNode) :
    ((cache.setCatalogs now []).catalogNodeMut none f).catalogs.value.get k = none := by
  show (((_ : IndexMap Str CatalogNode).orInsert _ _).modify _ f).get k = none
  have hne : ¬ k = mapKey none := hk
  rw [IndexMap.get_modify, if_neg hne, IndexMap.get_orInsert, if_neg hne]
  rfl

theorem patch_of_read {provider : CatalogProvider} {capabilities : Capabilities}
    {scope : CatalogRefreshScope} {patch : CatalogPatch} (hlists : scope.Lists)
    (h : read provider capabilities scope = .ok patch) :
    (∃ server infos, infos ≠ [] ∧
        patch = { server := some server, catalogs := some infos }) ∨
      (∃ server infos, patch =
        { server := some server, catalogs := some [], namespaces := some (none, infos) }) ∨
      (∃ server infos, patch =
        { server := some server, catalogs := some [], relations := some (.empty, infos) }) ∨
      (∃ p, patch = { namespaces := some p }) ∨
      ∃ p : CatalogPath × List RelationRef, p.1.relation = none ∧ patch = { relations := some p } := by
  cases scope with
  | root =>
    simp only [read, bind_eq_ok] at h
    obtain ⟨info, -, catalogs, -, h⟩ := h
    split_ifs at h with hempty hschemas
    · obtain ⟨infos, -, h⟩ := bind_eq_ok.mp h
      obtain rfl := List.isEmpty_iff.mp hempty
      exact .inr (.inl ⟨{ info with capabilities }, infos, (Except.ok.inj h).symm⟩)
    · obtain ⟨infos, -, h⟩ := bind_eq_ok.mp h
      obtain rfl := List.isEmpty_iff.mp hempty
      exact .inr (.inr (.inl ⟨{ info with capabilities }, infos, (Except.ok.inj h).symm⟩))
    · exact .inl ⟨{ info with capabilities }, catalogs,
        fun hnil => hempty (List.isEmpty_iff.mpr hnil), (Except.ok.inj h).symm⟩
  | namespaces catalog =>
    simp only [read, bind_eq_ok] at h
    obtain ⟨target, -, -, -, infos, -, h⟩ := h
    exact .inr (.inr (.inr (.inl ⟨_, (Except.ok.inj h).symm⟩)))
  | relations catalog nameSpace =>
    simp only [read, bind_eq_ok] at h
    obtain ⟨parent, hpath, infos, -, h⟩ := h
    have hrelation := (path_eq_ok hpath).2.2.2
    exact .inr (.inr (.inr (.inr ⟨_, by simpa using hrelation, (Except.ok.inj h).symm⟩)))
  | _ => exact hlists.elim

/-- A level listed again keeps what was known of the entries that remain exactly when none of them
with something under it is listed twice, or by the root of a server without catalogs. -/
theorem relisting_keeps_iff {provider : CatalogProvider} {capabilities : Capabilities}
    {scope : CatalogRefreshScope} {patch : CatalogPatch} (hlists : scope.Lists)
    (h : read provider capabilities scope = .ok patch) (cache : CatalogCache) (now : Int) :
    KeepsKnown patch cache (patch.apply now cache).1 ↔ SparedBy patch cache := by
  unfold KeepsKnown SparedBy
  rcases patch_of_read hlists h with ⟨server, infos, hne, rfl⟩ | ⟨server, infos, rfl⟩ |
    ⟨server, infos, rfl⟩ | ⟨p, rfl⟩ | ⟨p, hp, rfl⟩
  · simp only [Option.some.injEq, forall_eq', reduceCtorEq, false_implies, implies_true, and_true,
      if_neg hne]
    exact kept_setCatalogs_iff (cache.setServerInfo now server) now infos
  · simp only [Option.some.injEq, forall_eq', reduceCtorEq, false_implies, implies_true, and_true,
      if_true, Option.isSome_some]
    refine (and_iff_right fun k hk => ?_).trans
      (Iff.trans ?_ (and_iff_right fun _ h => absurd h not_mem_nil).symm)
    · exact get_catalogNodeMut_of_ne hk _
    · exact kept_setNamespaces_iff ((cache.setServerInfo now server).setCatalogs now []) now none
        infos rfl
  · simp only [Option.some.injEq, forall_eq', reduceCtorEq, false_implies, implies_true, true_and,
      if_true, Option.isSome_some]
    refine (and_iff_right fun k hk => ?_).trans
      (Iff.trans ?_ (and_iff_right fun _ h => absurd h not_mem_nil).symm)
    · exact get_catalogNodeMut_of_ne hk _
    · exact kept_setRelations_iff ((cache.setServerInfo now server).setCatalogs now []) now infos
        rfl rfl
  · simp only [Option.some.injEq, forall_eq', reduceCtorEq, false_implies, implies_true, and_true,
      true_and, Option.isSome_none]
    exact kept_setNamespaces_iff cache now p.1 p.2 rfl
  · obtain ⟨⟨catalog, nameSpace, relation⟩, infos⟩ := p
    obtain rfl : relation = none := hp
    simp only [Option.some.injEq, forall_eq', reduceCtorEq, false_implies, implies_true, true_and,
      Option.isSome_none]
    exact kept_setRelations_iff cache now infos rfl rfl

/-! ## A server without catalogs -/

def publicName : Segment := ⟨"public".toList, rfl⟩

def users : Segment := ⟨"users".toList, rfl⟩

def emptyTable : Relation := ⟨.table, none, none, []⟩

def oneNamespace : CatalogProvider where
  serverInfo := .ok ⟨[], [], ⟨0⟩⟩
  listCatalogs := .ok []
  listNamespaces _ := .ok [.validated .empty publicName]
  listRelations parent := .ok [.validated parent users .table]
  describeRelation _ := .ok emptyTable
  listIndexes _ := .error .provider
  listForeignKeys _ := .error .provider
  listConstraints _ := .error .provider
  listIncomingForeignKeys _ := .error .provider
  relationDefinition _ := .error .provider
  resolutionPath := .ok []

/-- A session that has a schema level. -/
def hasSchemas : Capabilities := ⟨2 ^ Capabilities.schemas⟩

def schemasPatch : CatalogPatch where
  server := some ⟨[], [], hasSchemas⟩
  catalogs := some []
  namespaces := some (none, [.validated .empty publicName])

def publicPatch : CatalogPatch where
  relations := some (⟨none, some publicName, none⟩,
    [.validated ⟨none, some publicName, none⟩ users .table])

def usersPatch : CatalogPatch where
  relation := some (⟨none, some publicName, some users⟩, emptyTable)

/-- The root is read, the namespace is listed, and the root is read again: the namespace is still
listed and its tables are not known any more. -/
theorem root_forgets_tables :
    read oneNamespace hasSchemas .root = .ok schemasPatch ∧
      read oneNamespace hasSchemas (.relations none (some publicName.val)) = .ok publicPatch ∧
      ¬ KeepsKnown schemasPatch (publicPatch.apply 1 (schemasPatch.apply 0 .new).1).1
        (schemasPatch.apply 2 (publicPatch.apply 1 (schemasPatch.apply 0 .new).1).1).1 := by
  refine ⟨rfl, rfl, fun h => ?_⟩
  obtain ⟨node, hget, hsame⟩ := (h.2.1 _ rfl publicName.val).1 mem_cons_self _ rfl
  have hnode : node.relations.freshness = .never := by
    rw [← Option.some.inj hget]
    rfl
  rw [hsame] at hnode
  cases hnode

/-- The namespace is listed, its table is described, and the namespace is listed again: the
description is still there. -/
theorem relisting_keeps_description :
    read oneNamespace hasSchemas (.relation none (some publicName.val) users.val) =
        .ok usersPatch ∧
      KeepsKnown publicPatch (usersPatch.apply 1 (publicPatch.apply 0 .new).1).1
        (publicPatch.apply 2 (usersPatch.apply 1 (publicPatch.apply 0 .new).1).1).1 ∧
      (publicPatch.apply 2 (usersPatch.apply 1 (publicPatch.apply 0 .new).1).1).1.freshnessAt
        (.relation [] publicName.val users.val .detail) = .fetched 1 := by
  refine ⟨rfl, (@relisting_keeps_iff oneNamespace hasSchemas (.relations none (some publicName.val))
    publicPatch trivial rfl _ 2).mpr ⟨nofun, nofun, fun p hp k hk node hnode => ?_⟩, by decide⟩
  obtain rfl := Option.some.inj hp
  obtain rfl := mem_singleton.mp hk
  exact .inr ⟨rfl, rfl⟩

end Oxyn.Catalog
