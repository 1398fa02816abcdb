/-
# `Oxyn.Catalog.Cache` — the introspection cache of a connection

A tree fed piece by piece: catalogs, their namespaces, their relations, and the details of a
relation, each level with its freshness.
-/
import Mathlib.Data.List.MinMax
import Oxyn.Catalog.Model
import Oxyn.Lib.IndexMap

namespace Oxyn.Catalog

open Text List

/-! ## Freshness -/

/-- The freshness state of a cache node. -/
inductive Freshness where
  | never
  | fetched (instant : Int)
  | invalidated
deriving DecidableEq, Repr

-- The order on instants is the one that computes.
instance (priority := high) preorderWithBotInt : Preorder (WithBot Int) :=
  @WithBot.instPreorder Int Int.instLinearOrder.toPreorder

namespace Freshness

def isKnown : Freshness → Bool
  | never => false
  | _ => true

/-- Instant of the last read; nothing comes before any instant. -/
def fetchedAt : Freshness → WithBot Int
  | fetched instant => (instant : WithBot Int)
  | _ => ⊥

/-- Goes to `invalidated`, unless the node was never read. -/
def invalidate (f : Freshness) : Freshness := if f.isKnown then invalidated else f

theorem invalidate_ne_fetched (f : Freshness) (instant : Int) : f.invalidate ≠ fetched instant := by
  cases f with
  | never | fetched _ | invalidated => simp [invalidate, isKnown]

end Freshness

structure Cached (α : Type) where
  freshness : Freshness
  value : α

def Cached.default {α : Type} (value : α) : Cached α := ⟨.never, value⟩

def Cached.set {α : Type} (_ : Cached α) (now : Int) (value : α) : Cached α := ⟨.fetched now, value⟩

def Cached.invalidate {α : Type} (c : Cached α) : Cached α :=
  { c with freshness := c.freshness.invalidate }

/-! ## What is cached -/

structure RelationNode where
  summary : RelationRef
  detail : Cached (Option Relation)
  indexes : Cached (Option (List Index))
  foreignKeys : Cached (Option (List ForeignKey))
  constraints : Cached (Option (List Constraint))
  incomingKeys : Cached (Option (List IncomingForeignKey))
  definition : Cached (Option RelationDefinition)

/-- A namespace and its relations; no `info` for a missing level. -/
structure NamespaceNode where
  info : Option NamespaceRef
  relations : Cached (IndexMap Str RelationNode)

structure CatalogNode where
  info : Option CatalogRef
  namespaces : Cached (IndexMap Str NamespaceNode)

/-- The metadata tree of one connection. -/
structure CatalogCache where
  server : Cached (Option ServerInfo)
  catalogs : Cached (IndexMap Str CatalogNode)
  resolutionPath : Cached (Option (List Str))

def RelationNode.new (summary : RelationRef) : RelationNode where
  summary := summary
  detail := .default none
  indexes := .default none
  foreignKeys := .default none
  constraints := .default none
  incomingKeys := .default none
  definition := .default none

def NamespaceNode.new (info : Option NamespaceRef) : NamespaceNode := ⟨info, .default .empty⟩

def CatalogNode.new (info : Option CatalogRef) : CatalogNode := ⟨info, .default .empty⟩

def CatalogCache.new : CatalogCache := ⟨.default none, .default .empty, .default none⟩

/-- Node key of a missing level: no name is empty. -/
def missingTier : Str := []

/-- The node key matching an optional level name. -/
def mapKey (ident : Option Segment) : Str := (ident.map (·.val)).getD missingTier

/-! ## Levels -/

inductive RelationPart where
  | detail
  | indexes
  | foreignKeys
  | constraints
  | incomingKeys
  | definition
deriving DecidableEq, Repr

abbrev InNamespace := Option (Str × RelationPart)

/-- A level under a catalog node: its namespaces, or a level of one of them. -/
abbrev InCatalog := Option (Str × InNamespace)

instance : DecidableEq InNamespace := inferInstanceAs (DecidableEq (Option (Str × RelationPart)))

instance : DecidableEq InCatalog := inferInstanceAs (DecidableEq (Option (Str × InNamespace)))

/-- A level of the cache, by the keys of the nodes above it. -/
inductive Level where
  | server
  | resolutionPath
  | tree (place : Option (Str × InCatalog))
deriving DecidableEq

namespace Level

/-- The server's catalogs. -/
@[match_pattern] abbrev catalogs : Level := tree none

@[match_pattern] abbrev namespaces (catalog : Str) : Level := tree (some (catalog, none))

@[match_pattern] abbrev relations (catalog nameSpace : Str) : Level :=
  tree (some (catalog, some (nameSpace, none)))

@[match_pattern] abbrev relation (catalog nameSpace name : Str) (part : RelationPart) : Level :=
  tree (some (catalog, some (nameSpace, some (name, part))))

abbrev part (path : CatalogPath) (part : RelationPart) : Level :=
  relation (mapKey path.catalog) (mapKey path.nameSpace) (mapKey path.relation) part

end Level

/-- The freshness of a map of nodes, or of a level under one of them: a node that is
not there was never read. -/
def Cached.freshnessAt {ν ι : Type} (inner : ν → ι → Freshness) (c : Cached (IndexMap Str ν)) :
    Option (Str × ι) → Freshness
  | none => c.freshness
  | some (k, i) => ((c.value.get k).map fun node => inner node i).getD .never

def RelationNode.freshnessAt (node : RelationNode) : RelationPart → Freshness
  | .detail => node.detail.freshness
  | .indexes => node.indexes.freshness
  | .foreignKeys => node.foreignKeys.freshness
  | .constraints => node.constraints.freshness
  | .incomingKeys => node.incomingKeys.freshness
  | .definition => node.definition.freshness

def NamespaceNode.freshnessAt (node : NamespaceNode) : InNamespace → Freshness :=
  node.relations.freshnessAt RelationNode.freshnessAt

def CatalogNode.freshnessAt (node : CatalogNode) : InCatalog → Freshness :=
  node.namespaces.freshnessAt NamespaceNode.freshnessAt

def CatalogCache.freshnessAt (cache : CatalogCache) : Level → Freshness
  | .server => cache.server.freshness
  | .resolutionPath => cache.resolutionPath.freshness
  | .tree place => cache.catalogs.freshnessAt CatalogNode.freshnessAt place

@[simp] theorem CatalogCache.freshnessAt_tree (cache : CatalogCache)
    (place : Option (Str × InCatalog)) :
    cache.freshnessAt (.tree place) = cache.catalogs.freshnessAt CatalogNode.freshnessAt place := rfl

@[simp] theorem RelationNode.freshnessAt_new (summary : RelationRef) (part : RelationPart) :
    (RelationNode.new summary).freshnessAt part = .never := by
  cases part with
  | _ => rfl

@[simp] theorem Cached.freshnessAt_empty {ν ι : Type} (inner : ν → ι → Freshness)
    (i : Option (Str × ι)) : (Cached.default IndexMap.empty).freshnessAt inner i = .never := by
  cases i with
  | none => rfl
  | some i => rfl

@[simp] theorem NamespaceNode.freshnessAt_new (info : Option NamespaceRef) (i : InNamespace) :
    (NamespaceNode.new info).freshnessAt i = .never :=
  Cached.freshnessAt_empty _ _

@[simp] theorem CatalogNode.freshnessAt_new (info : Option CatalogRef) (i : InCatalog) :
    (CatalogNode.new info).freshnessAt i = .never :=
  Cached.freshnessAt_empty _ _

@[simp] theorem CatalogCache.freshnessAt_new (l : Level) :
    CatalogCache.new.freshnessAt l = .never := by
  cases l with
  | server => rfl
  | resolutionPath => rfl
  | tree place => exact Cached.freshnessAt_empty _ _

/-! ## Levels that are not written -/

/-- Every level outside a set is as it was, or dropped. -/
def OnlyDrops {ι : Type} (except : ι → Prop) (old new : ι → Freshness) : Prop :=
  ∀ i, except i ∨ new i = old i ∨ new i = .never

section OnlyDrops

variable {ι : Type} {except : ι → Prop} {old new : ι → Freshness}

theorem OnlyDrops.refl (old : ι → Freshness) : OnlyDrops except old old := fun _ => .inr (.inl rfl)

theorem OnlyDrops.trans {mid : ι → Freshness} (h : OnlyDrops except old mid)
    (h' : OnlyDrops except mid new) : OnlyDrops except old new := by
  intro i
  obtain he | hnew | hnew := h' i
  · exact .inl he
  · obtain he | hmid | hmid := h i
    · exact .inl he
    · exact .inr (.inl (hnew.trans hmid))
    · exact .inr (.inr (hnew.trans hmid))
  · exact .inr (.inr hnew)

theorem OnlyDrops.mono {except' : ι → Prop} (h : OnlyDrops except old new)
    (hsub : ∀ i, except i → except' i) : OnlyDrops except' old new :=
  fun i => (h i).imp_left (hsub i)

theorem OnlyDrops.of_never (h : ∀ i, new i = .never) : OnlyDrops except old new :=
  fun i => .inr (.inr (h i))

end OnlyDrops

section Nodes

variable {ν ι : Type} {inner : ν → ι → Freshness} {c : Cached (IndexMap Str ν)} {k : Str}

/-- The level is at or under one node of a map, and there in a set. -/
def Under (k : Str) (except : ι → Prop) : Option (Str × ι) → Prop
  | none => False
  | some (j, i) => j = k ∧ except i

/-- A node changed in place. -/
def Cached.modify (c : Cached (IndexMap Str ν)) (k : Str) (f : ν → ν) : Cached (IndexMap Str ν) :=
  { c with value := c.value.modify k f }

/-- The node of a key, made where there is none: the level above stays as it was read. -/
def Cached.entry (c : Cached (IndexMap Str ν)) (k : Str) (new : ν) : Cached (IndexMap Str ν) :=
  { c with value := c.value.orInsert k new }

/-- A node taken out. -/
def Cached.shiftRemove (c : Cached (IndexMap Str ν)) (k : Str) : Cached (IndexMap Str ν) :=
  { c with value := c.value.remove k }

theorem freshnessAt_modify {f : ν → ν} {j : Str} {i : ι} :
    (c.modify k f).freshnessAt inner (some (j, i)) =
      if j = k then ((c.value.get k).map fun node => inner (f node) i).getD .never
      else c.freshnessAt inner (some (j, i)) := by
  simp only [Cached.freshnessAt, Cached.modify, IndexMap.get_modify]
  split
  next h => rw [h, Option.map_map]; rfl
  next => rfl

theorem onlyDrops_modify {f : ν → ν} {except : ι → Prop}
    (hf : ∀ node, OnlyDrops except (inner node) (inner (f node))) :
    OnlyDrops (Under k except) (c.freshnessAt inner) ((c.modify k f).freshnessAt inner) := by
  rintro (_ | ⟨j, i⟩)
  · exact .inr (.inl rfl)
  · rw [freshnessAt_modify]
    split
    next hj =>
      cases hget : c.value.get k with
      | none => exact .inr (.inr rfl)
      | some node =>
        obtain he | hsame | hnever := hf node i
        · exact .inl ⟨hj, he⟩
        · refine .inr (.inl ?_)
          simp only [Cached.freshnessAt, hj, hget]
          exact hsame
        · exact .inr (.inr hnever)
    next => exact .inr (.inl rfl)

theorem onlyDrops_modify_of_drops {f : ν → ν} {except : Option (Str × ι) → Prop}
    (hf : ∀ node, OnlyDrops (fun _ => False) (inner node) (inner (f node))) :
    OnlyDrops except (c.freshnessAt inner) ((c.modify k f).freshnessAt inner) := by
  refine (onlyDrops_modify hf).mono ?_
  rintro (_ | ⟨j, i⟩) hplace
  · exact hplace.elim
  · exact hplace.2.elim

theorem freshnessAt_entry {new : ν} (hnew : ∀ i, inner new i = .never) :
    (c.entry k new).freshnessAt inner = c.freshnessAt inner := by
  funext place
  obtain _ | ⟨j, i⟩ := place
  · rfl
  · simp only [Cached.freshnessAt, Cached.entry, IndexMap.get_orInsert]
    split
    next hj =>
      cases hget : c.value.get k with
      | none => simp [hj, hget, hnew]
      | some node => simp [hj, hget]
    next => rfl

theorem freshnessAt_shiftRemove {j : Str} {i : ι} :
    (c.shiftRemove k).freshnessAt inner (some (j, i)) =
      if j = k then .never else c.freshnessAt inner (some (j, i)) := by
  simp only [Cached.freshnessAt, Cached.shiftRemove, IndexMap.get_remove]
  split
  next => rfl
  next => rfl

theorem onlyDrops_shiftRemove {except : Option (Str × ι) → Prop} :
    OnlyDrops except (c.freshnessAt inner) ((c.shiftRemove k).freshnessAt inner) := by
  rintro (_ | ⟨j, i⟩)
  · exact .inr (.inl rfl)
  · rw [freshnessAt_shiftRemove]
    split
    next => exact .inr (.inr rfl)
    next => exact .inr (.inl rfl)

variable {β : Type} {key : β → Str} {fresh : β → ν} {reuse : β → ν → ν}

theorem onlyDrops_relist (hfresh : ∀ info i, inner (fresh info) i = .never)
    (hreuse : ∀ info node i, inner (reuse info node) i = inner node i) (infos : List β) (now : Int) :
    OnlyDrops (fun place => place = none) (c.freshnessAt inner)
      ((c.set now (IndexMap.relist key fresh reuse infos c.value)).freshnessAt inner) := by
  rintro (_ | ⟨j, i⟩)
  · exact .inl rfl
  · right
    simp only [Cached.freshnessAt, Cached.set]
    cases hget : (IndexMap.relist key fresh reuse infos c.value).get j with
    | none => exact .inr rfl
    | some node =>
      obtain ⟨info, -, -, hnode | ⟨old, hold, hnode⟩⟩ := IndexMap.get_relist hget
      · exact .inr (by simp [hnode, hfresh])
      · exact .inl (by simp [hnode, hold, hreuse])

end Nodes

/-! ## Navigation -/

/-- What an operation on the cache can refuse: a calling bug, not a failure. -/
inductive CacheError where
  | notARelation
  | notANamespace
  | unknownRelation
deriving DecidableEq, Repr

def Tree (except : Option (Str × InCatalog) → Prop) : Level → Prop
  | .tree place => except place
  | _ => False

namespace CatalogCache

variable (cache : CatalogCache)

def catalogNodeMut (catalog : Option Segment) (f : CatalogNode → CatalogNode) : CatalogCache :=
  { cache with
    catalogs := (cache.catalogs.entry (mapKey catalog) (.new (catalog.map .validated))).modify
      (mapKey catalog) f }

def namespaceNodeMut (path : CatalogPath) (f : NamespaceNode → NamespaceNode) : CatalogCache :=
  let parent : CatalogPath := ⟨path.catalog, none, none⟩
  cache.catalogNodeMut path.catalog fun node =>
    { node with
      namespaces := (node.namespaces.entry (mapKey path.nameSpace)
        (.new (path.nameSpace.map (.validated parent)))).modify (mapKey path.nameSpace) f }

def relationNodeOrCreate (path : CatalogPath) (kind : RelationKind)
    (f : RelationNode → RelationNode) : Except CacheError CatalogCache :=
  match path.relation with
  | none => .error .notARelation
  | some name =>
    let parent : CatalogPath := ⟨path.catalog, path.nameSpace, none⟩
    .ok (cache.namespaceNodeMut path fun node =>
      { node with
        relations := (node.relations.entry name.val (.new (.validated parent name kind))).modify
          name.val f })

def namespaceNodeAt (catalog nameSpace : Str) (f : NamespaceNode → NamespaceNode) : CatalogCache :=
  { cache with
    catalogs := cache.catalogs.modify catalog fun node =>
      { node with namespaces := node.namespaces.modify nameSpace f } }

def namespaceNodeMutOpt (path : CatalogPath) (f : NamespaceNode → NamespaceNode) : CatalogCache :=
  cache.namespaceNodeAt (mapKey path.catalog) (mapKey path.nameSpace) f

def relationNodeAt (catalog nameSpace name : Str) (f : RelationNode → RelationNode) :
    CatalogCache :=
  cache.namespaceNodeAt catalog nameSpace fun node =>
    { node with relations := node.relations.modify name f }

def relationNodeMutOpt (path : CatalogPath) (f : RelationNode → RelationNode) : CatalogCache :=
  match path.relation with
  | none => cache
  | some name => cache.relationNodeAt (mapKey path.catalog) (mapKey path.nameSpace) name.val f

def namespaceNode (path : CatalogPath) : Option NamespaceNode := do
  let catalog ← cache.catalogs.value.get (mapKey path.catalog)
  catalog.namespaces.value.get (mapKey path.nameSpace)

def relationNode (path : CatalogPath) : Option RelationNode := do
  let name ← path.relation
  let nameSpace ← cache.namespaceNode path
  nameSpace.relations.value.get name.val

def relationNodeExistingMut (path : CatalogPath) (f : RelationNode → RelationNode) :
    Except CacheError CatalogCache :=
  if path.relation.isNone then .error .notARelation
  else if (cache.relationNode path).isNone then .error .unknownRelation
  else .ok (cache.relationNodeMutOpt path f)

variable {cache}

theorem onlyDrops_catalogs {c : Cached (IndexMap Str CatalogNode)}
    {except : Option (Str × InCatalog) → Prop}
    (h : OnlyDrops except (cache.catalogs.freshnessAt CatalogNode.freshnessAt)
      (c.freshnessAt CatalogNode.freshnessAt)) :
    OnlyDrops (Tree except) cache.freshnessAt
      ({ cache with catalogs := c } : CatalogCache).freshnessAt := by
  intro l
  cases l with
  | server | resolutionPath => exact .inr (.inl rfl)
  | tree place => exact h place

theorem onlyDrops_catalogNodeMut {catalog : Option Segment} {f : CatalogNode → CatalogNode}
    {except : InCatalog → Prop}
    (hf : ∀ node, OnlyDrops except node.freshnessAt (f node).freshnessAt) :
    OnlyDrops (Tree (Under (mapKey catalog) except)) cache.freshnessAt
      (cache.catalogNodeMut catalog f).freshnessAt := by
  have hentry := freshnessAt_entry (c := cache.catalogs) (k := mapKey catalog)
    (CatalogNode.freshnessAt_new (catalog.map .validated))
  refine onlyDrops_catalogs ?_
  rw [← hentry]
  exact onlyDrops_modify hf

variable {path : CatalogPath}

theorem onlyDrops_namespaceNodeMut {f : NamespaceNode → NamespaceNode} {except : InNamespace → Prop}
    (hf : ∀ node, OnlyDrops except node.freshnessAt (f node).freshnessAt) :
    OnlyDrops (Tree (Under (mapKey path.catalog) (Under (mapKey path.nameSpace) except)))
      cache.freshnessAt (cache.namespaceNodeMut path f).freshnessAt := by
  refine onlyDrops_catalogNodeMut fun node => ?_
  have hentry := freshnessAt_entry (c := node.namespaces) (k := mapKey path.nameSpace)
    (NamespaceNode.freshnessAt_new (path.nameSpace.map (.validated ⟨path.catalog, none, none⟩)))
  show OnlyDrops _ (node.namespaces.freshnessAt NamespaceNode.freshnessAt) _
  rw [← hentry]
  exact onlyDrops_modify hf

variable {cache' : CatalogCache} {f : RelationNode → RelationNode}

theorem onlyDrops_relationNodeOrCreate {kind : RelationKind} {except : RelationPart → Prop}
    (hf : ∀ node, OnlyDrops except node.freshnessAt (f node).freshnessAt)
    (h : cache.relationNodeOrCreate path kind f = .ok cache') :
    OnlyDrops (Tree (Under (mapKey path.catalog) (Under (mapKey path.nameSpace)
      (Under (mapKey path.relation) except)))) cache.freshnessAt cache'.freshnessAt := by
  unfold relationNodeOrCreate at h
  split at h
  next => simp at h
  next name hname =>
    obtain rfl := Except.ok.inj h
    refine onlyDrops_namespaceNodeMut fun node => ?_
    have hentry := freshnessAt_entry (c := node.relations) (k := name.val)
      (RelationNode.freshnessAt_new
        (.validated ⟨path.catalog, path.nameSpace, none⟩ name kind))
    show OnlyDrops _ (node.relations.freshnessAt RelationNode.freshnessAt) _
    rw [← hentry, hname]
    exact onlyDrops_modify hf

theorem onlyDrops_namespaceNodeAt {catalog nameSpace : Str} {f : NamespaceNode → NamespaceNode}
    {except : InNamespace → Prop}
    (hf : ∀ node, OnlyDrops except node.freshnessAt (f node).freshnessAt) :
    OnlyDrops (Tree (Under catalog (Under nameSpace except))) cache.freshnessAt
      (cache.namespaceNodeAt catalog nameSpace f).freshnessAt :=
  onlyDrops_catalogs (onlyDrops_modify fun _ => onlyDrops_modify hf)

theorem onlyDrops_relationNodeAt {catalog nameSpace name : Str} {except : RelationPart → Prop}
    (hf : ∀ node, OnlyDrops except node.freshnessAt (f node).freshnessAt) :
    OnlyDrops (Tree (Under catalog (Under nameSpace (Under name except)))) cache.freshnessAt
      (cache.relationNodeAt catalog nameSpace name f).freshnessAt :=
  onlyDrops_namespaceNodeAt fun _ => onlyDrops_modify hf

theorem onlyDrops_relationNodeMutOpt {except : RelationPart → Prop}
    (hf : ∀ node, OnlyDrops except node.freshnessAt (f node).freshnessAt) :
    OnlyDrops (Tree (Under (mapKey path.catalog) (Under (mapKey path.nameSpace)
      (Under (mapKey path.relation) except)))) cache.freshnessAt
      (cache.relationNodeMutOpt path f).freshnessAt := by
  unfold relationNodeMutOpt
  split
  next => exact .refl _
  next name hname =>
    rw [hname]
    exact onlyDrops_relationNodeAt hf

theorem onlyDrops_relationNodeExistingMut {except : RelationPart → Prop}
    (hf : ∀ node, OnlyDrops except node.freshnessAt (f node).freshnessAt)
    (h : cache.relationNodeExistingMut path f = .ok cache') :
    OnlyDrops (Tree (Under (mapKey path.catalog) (Under (mapKey path.nameSpace)
      (Under (mapKey path.relation) except)))) cache.freshnessAt cache'.freshnessAt := by
  unfold relationNodeExistingMut at h
  split_ifs at h
  obtain rfl := Except.ok.inj h
  exact onlyDrops_relationNodeMutOpt hf

/-! ## Writing -/

variable (cache) (now : Int)

/-- Records the server identity. -/
def setServerInfo (info : ServerInfo) : CatalogCache :=
  { cache with server := cache.server.set now (some info) }

/-- Records the namespaces an unqualified name resolves in. -/
def setResolutionPath (path : List Str) : CatalogCache :=
  { cache with resolutionPath := cache.resolutionPath.set now (some path) }

/-- Records the list of catalogs; those that remain keep their subtree. -/
def setCatalogs (catalogs : List CatalogRef) : CatalogCache :=
  { cache with
    catalogs := cache.catalogs.set now
      (IndexMap.relist (·.name.val) (fun info => .new (some info))
        (fun info existing => { existing with info := some info }) catalogs cache.catalogs.value) }

def setNamespaces (catalog : Option Segment) (namespaces : List NamespaceRef) : CatalogCache :=
  let parent : CatalogPath := ⟨catalog, none, none⟩
  cache.catalogNodeMut catalog fun node =>
    { node with
      namespaces := node.namespaces.set now
        (IndexMap.relist (·.name.val) (fun info => .new (some { info with parent }))
          (fun info existing => { existing with info := some { info with parent } })
          namespaces node.namespaces.value) }

/-- Records the relations of a namespace; the details of those that remain are kept. -/
def setRelations (nameSpace : CatalogPath) (relations : List RelationRef) :
    Except CacheError CatalogCache :=
  if nameSpace.relation.isSome then .error .notANamespace
  else
    .ok (cache.namespaceNodeMut nameSpace fun node =>
      { node with
        relations := node.relations.set now
          (IndexMap.relist (·.name.val) (fun info => .new { info with parent := nameSpace })
            (fun info existing => { existing with summary := { info with parent := nameSpace } })
            relations node.relations.value) })

/-- Records the description of a relation, created if it was not listed. -/
def setRelation (path : CatalogPath) (relation : Relation) : Except CacheError CatalogCache :=
  cache.relationNodeOrCreate path relation.kind fun node =>
    { node with
      detail := node.detail.set now (some { relation with fields := bound relation.fields }) }

def setIndexes (path : CatalogPath) (indexes : List Index) : Except CacheError CatalogCache :=
  cache.relationNodeExistingMut path fun node =>
    { node with indexes := node.indexes.set now (some indexes) }

def setForeignKeys (path : CatalogPath) (keys : List ForeignKey) : Except CacheError CatalogCache :=
  cache.relationNodeExistingMut path fun node =>
    { node with foreignKeys := node.foreignKeys.set now (some keys) }

def setConstraints (path : CatalogPath) (constraints : List Constraint) :
    Except CacheError CatalogCache :=
  cache.relationNodeExistingMut path fun node =>
    { node with constraints := node.constraints.set now (some constraints) }

def setIncomingForeignKeys (path : CatalogPath) (keys : List IncomingForeignKey) :
    Except CacheError CatalogCache :=
  cache.relationNodeExistingMut path fun node =>
    { node with incomingKeys := node.incomingKeys.set now (some keys) }

/-! ### Definitions -/

def maxDefinitions : Nat := 16

def maxDefinitionBytes : Nat := 16 * 1024 * 1024

def definitionBytes (definition : RelationDefinition) : Nat :=
  definition.notes.foldl (fun total note => total + size note) (size definition.sql)

/-- A definition that is held: where, for which relation, when it was read, what it takes. -/
structure Held where
  place : Str × Str × Str
  path : CatalogPath
  fetchedAt : WithBot Int
  bytes : Nat

def heldDefinitions : List Held :=
  cache.catalogs.value.entries.flatMap fun catalog =>
    catalog.2.namespaces.value.entries.flatMap fun nameSpace =>
      nameSpace.2.relations.value.entries.filterMap fun relation =>
        relation.2.definition.value.map fun definition =>
          ⟨(catalog.1, nameSpace.1, relation.1), relation.2.summary.path,
            relation.2.definition.freshness.fetchedAt, definitionBytes definition⟩

/-- The definition of the relation at three keys, no longer held. -/
def dropDefinition (place : Str × Str × Str) : CatalogCache :=
  cache.relationNodeAt place.1 place.2.1 place.2.2 fun node =>
    { node with definition := .default none }

theorem heldDefinitions_dropDefinition (place : Str × Str × Str) :
    (cache.dropDefinition place).heldDefinitions =
      cache.heldDefinitions.filter (·.place ≠ place) := by
  obtain ⟨c, n, r⟩ := place
  simp only [heldDefinitions, dropDefinition, relationNodeAt, namespaceNodeAt, Cached.modify,
    IndexMap.modify, flatMap_map, filter_flatMap]
  refine flatMap_congr fun catalog _ => ?_
  by_cases hc : catalog.1 = c
  · simp only [hc, ↓reduceIte, flatMap_map]
    refine flatMap_congr fun nameSpace _ => ?_
    by_cases hn : nameSpace.1 = n
    · simp only [hn, ↓reduceIte, filterMap_map, filter_filterMap]
      refine filterMap_congr fun relation _ => ?_
      by_cases hr : relation.1 = r
      · cases hvalue : relation.2.definition.value with
        | none => simp [hr, Cached.default]
        | some definition => simp [hr, Cached.default, Option.filter]
      · cases hvalue : relation.2.definition.value with
        | none => simp [hr, hvalue]
        | some definition => simp [hr, hvalue, Option.filter]
    · simp only [hn, ↓reduceIte]
      refine (filter_eq_self.mpr ?_).symm
      intro held hheld
      obtain ⟨relation, -, hrelation⟩ := mem_filterMap.mp hheld
      obtain ⟨definition, -, rfl⟩ := Option.map_eq_some_iff.mp hrelation
      simp [hn]
  · simp only [hc, ↓reduceIte]
    rw [← filter_flatMap]
    refine (filter_eq_self.mpr ?_).symm
    intro held hheld
    obtain ⟨nameSpace, -, hheld⟩ := mem_flatMap.mp hheld
    obtain ⟨relation, -, hrelation⟩ := mem_filterMap.mp hheld
    obtain ⟨definition, -, rfl⟩ := Option.map_eq_some_iff.mp hrelation
    simp [hc]

/-- The oldest definition but the one just published goes, while there are too many. -/
def evictDefinitionsStep (protected_ : CatalogPath) (cache : CatalogCache) :
    Option CatalogCache :=
  let held := cache.heldDefinitions
  if held.length ≤ maxDefinitions ∧ (held.map (·.bytes)).sum ≤ maxDefinitionBytes then none
  else do
    let oldest ← (held.filter (·.path ≠ protected_)).argmin (·.fetchedAt)
    let _ ← cache.relationNode oldest.path
    some (cache.relationNodeMutOpt oldest.path fun node =>
      { node with definition := .default none })

def evictDefinitionsLoop (protected_ : CatalogPath) : Nat → CatalogCache → CatalogCache
  | 0, cache => cache
  | turns + 1, cache =>
    match cache.evictDefinitionsStep protected_ with
    | none => cache
    | some cache => evictDefinitionsLoop protected_ turns cache

/-- Evicts the oldest definitions until what is held is within its limits: a turn for each
definition is enough. -/
def evictDefinitions (path : CatalogPath) : CatalogCache :=
  evictDefinitionsLoop path cache.heldDefinitions.length cache

theorem evictDefinitions_keeps {P : CatalogCache → Prop} (path : CatalogPath)
    (hdrop : ∀ cache p, P cache → P (cache.relationNodeMutOpt p fun node =>
      { node with definition := .default none })) (h : P cache) :
    P (cache.evictDefinitions path) := by
  unfold evictDefinitions
  generalize cache.heldDefinitions.length = turns
  induction turns generalizing cache with
  | zero => exact h
  | succ turns ih =>
    rw [evictDefinitionsLoop]
    cases hstep : cache.evictDefinitionsStep path with
    | none => exact h
    | some next =>
      unfold evictDefinitionsStep at hstep
      dsimp only at hstep
      split at hstep
      · cases hstep
      · simp only [Option.bind_eq_bind, Option.bind_eq_some_iff, Option.some.injEq] at hstep
        obtain ⟨oldest, -, -, -, rfl⟩ := hstep
        exact ih _ (hdrop _ _ h)

def setDefinition (path : CatalogPath) (definition : RelationDefinition) :
    Except CacheError CatalogCache :=
  (cache.relationNodeExistingMut path fun node =>
    { node with definition := node.definition.set now (some definition) }).map
      (evictDefinitions · path)

variable {cache} {now}

/-! ### What a write publishes -/

theorem onlyDrops_setServerInfo (info : ServerInfo) :
    OnlyDrops (· = .server) cache.freshnessAt (cache.setServerInfo now info).freshnessAt := by
  intro l
  cases l with
  | server => exact .inl rfl
  | resolutionPath | tree place => exact .inr (.inl rfl)

theorem onlyDrops_setResolutionPath (path : List Str) :
    OnlyDrops (· = .resolutionPath) cache.freshnessAt
      (cache.setResolutionPath now path).freshnessAt := by
  intro l
  cases l with
  | server => exact .inr (.inl rfl)
  | resolutionPath => exact .inl rfl
  | tree place => exact .inr (.inl rfl)

theorem onlyDrops_setCatalogs (catalogs : List CatalogRef) :
    OnlyDrops (· = .catalogs) cache.freshnessAt (cache.setCatalogs now catalogs).freshnessAt := by
  have hnode : OnlyDrops (· = none) (cache.catalogs.freshnessAt CatalogNode.freshnessAt)
      ((cache.setCatalogs now catalogs).catalogs.freshnessAt CatalogNode.freshnessAt) := by
    refine onlyDrops_relist (fun info i => ?_) (fun info existing i => ?_) catalogs now
    · exact CatalogNode.freshnessAt_new _ i
    · rfl
  refine (onlyDrops_catalogs hnode).mono ?_
  rintro (_ | _ | place) hplace
  · exact hplace.elim
  · exact hplace.elim
  · exact congrArg Level.tree hplace

theorem onlyDrops_setNamespaces (catalog : Option Segment) (namespaces : List NamespaceRef) :
    OnlyDrops (· = .namespaces (mapKey catalog)) cache.freshnessAt
      (cache.setNamespaces now catalog namespaces).freshnessAt := by
  have hnode : OnlyDrops (Tree (Under (mapKey catalog) (· = none))) cache.freshnessAt
      (cache.setNamespaces now catalog namespaces).freshnessAt := by
    refine onlyDrops_catalogNodeMut fun node => ?_
    show OnlyDrops _ (node.namespaces.freshnessAt NamespaceNode.freshnessAt) _
    refine onlyDrops_relist (fun info i => ?_) (fun info existing i => ?_) namespaces now
    · exact NamespaceNode.freshnessAt_new _ i
    · rfl
  refine hnode.mono ?_
  rintro (_ | _ | _ | ⟨c, place⟩) hplace
  · exact hplace.elim
  · exact hplace.elim
  · exact hplace.elim
  · obtain ⟨rfl, rfl⟩ := hplace
    rfl

theorem onlyDrops_setRelations {nameSpace : CatalogPath} {relations : List RelationRef}
    (h : cache.setRelations now nameSpace relations = .ok cache') :
    OnlyDrops (· = .relations (mapKey nameSpace.catalog) (mapKey nameSpace.nameSpace))
      cache.freshnessAt cache'.freshnessAt := by
  unfold setRelations at h
  split at h
  · simp at h
  · obtain rfl := Except.ok.inj h
    have hnode : ∀ node : NamespaceNode, OnlyDrops (· = none) node.freshnessAt
        (NamespaceNode.freshnessAt { node with
          relations := node.relations.set now
            (IndexMap.relist (·.name.val) (fun info => .new { info with parent := nameSpace })
              (fun info existing => { existing with summary := { info with parent := nameSpace } })
              relations node.relations.value) }) := by
      intro node
      refine onlyDrops_relist (fun info i => ?_) (fun info existing i => ?_) relations now
      · exact RelationNode.freshnessAt_new _ i
      · cases i with
        | _ => rfl
    refine (onlyDrops_namespaceNodeMut hnode).mono ?_
    rintro (_ | _ | _ | ⟨c, _ | ⟨n, place⟩⟩) hplace
    · exact hplace.elim
    · exact hplace.elim
    · exact hplace.elim
    · exact hplace.2.elim
    · obtain ⟨rfl, rfl, rfl⟩ := hplace
      rfl

theorem onlyDrops_part {part : RelationPart}
    (h : OnlyDrops (Tree (Under (mapKey path.catalog) (Under (mapKey path.nameSpace)
      (Under (mapKey path.relation) (· = part))))) cache.freshnessAt cache'.freshnessAt) :
    OnlyDrops (· = .part path part) cache.freshnessAt cache'.freshnessAt := by
  refine h.mono ?_
  rintro (_ | _ | _ | ⟨c, _ | ⟨n, _ | ⟨r, p⟩⟩⟩) hplace
  · exact hplace.elim
  · exact hplace.elim
  · exact hplace.elim
  · exact hplace.2.elim
  · exact hplace.2.2.elim
  · obtain ⟨rfl, rfl, rfl, rfl⟩ := hplace
    rfl

theorem onlyDrops_setRelation {relation : Relation}
    (h : cache.setRelation now path relation = .ok cache') :
    OnlyDrops (· = .part path .detail) cache.freshnessAt cache'.freshnessAt := by
  refine onlyDrops_part (onlyDrops_relationNodeOrCreate (fun node i => ?_) h)
  cases i with
  | detail => exact .inl rfl
  | _ => exact .inr (.inl rfl)

theorem onlyDrops_setPart {part : RelationPart}
    (hf : ∀ node i, i ≠ part → (f node).freshnessAt i = node.freshnessAt i)
    (h : cache.relationNodeExistingMut path f = .ok cache') :
    OnlyDrops (· = .part path part) cache.freshnessAt cache'.freshnessAt := by
  refine onlyDrops_part (onlyDrops_relationNodeExistingMut (fun node i => ?_) h)
  by_cases hi : i = part
  · exact .inl hi
  · exact .inr (.inl (hf node i hi))

theorem onlyDrops_setIndexes {indexes : List Index}
    (h : cache.setIndexes now path indexes = .ok cache') :
    OnlyDrops (· = .part path .indexes) cache.freshnessAt cache'.freshnessAt :=
  onlyDrops_setPart (fun _ i hi => by cases i <;> first | rfl | exact absurd rfl hi) h

theorem onlyDrops_setForeignKeys {keys : List ForeignKey}
    (h : cache.setForeignKeys now path keys = .ok cache') :
    OnlyDrops (· = .part path .foreignKeys) cache.freshnessAt cache'.freshnessAt :=
  onlyDrops_setPart (fun _ i hi => by cases i <;> first | rfl | exact absurd rfl hi) h

theorem onlyDrops_setConstraints {constraints : List Constraint}
    (h : cache.setConstraints now path constraints = .ok cache') :
    OnlyDrops (· = .part path .constraints) cache.freshnessAt cache'.freshnessAt :=
  onlyDrops_setPart (fun _ i hi => by cases i <;> first | rfl | exact absurd rfl hi) h

theorem onlyDrops_setIncomingForeignKeys {keys : List IncomingForeignKey}
    (h : cache.setIncomingForeignKeys now path keys = .ok cache') :
    OnlyDrops (· = .part path .incomingKeys) cache.freshnessAt cache'.freshnessAt :=
  onlyDrops_setPart (fun _ i hi => by cases i <;> first | rfl | exact absurd rfl hi) h

theorem onlyDrops_catalogs_of_drops {except : Level → Prop} {c : Cached (IndexMap Str CatalogNode)}
    (h : OnlyDrops (fun _ => False) (cache.catalogs.freshnessAt CatalogNode.freshnessAt)
      (c.freshnessAt CatalogNode.freshnessAt)) :
    OnlyDrops except cache.freshnessAt ({ cache with catalogs := c } : CatalogCache).freshnessAt := by
  refine (onlyDrops_catalogs h).mono ?_
  rintro (_ | _ | place) hplace
  · exact hplace.elim
  · exact hplace.elim
  · exact hplace.elim

theorem onlyDrops_namespaceNodeAt_of_drops {except : Level → Prop} {c n : Str}
    {f : NamespaceNode → NamespaceNode}
    (hf : ∀ node, OnlyDrops (fun _ => False) node.freshnessAt (f node).freshnessAt) :
    OnlyDrops except cache.freshnessAt (cache.namespaceNodeAt c n f).freshnessAt :=
  onlyDrops_catalogs_of_drops (onlyDrops_modify_of_drops fun _ => onlyDrops_modify_of_drops hf)

theorem onlyDrops_relationNodeAt_of_drops {except : Level → Prop} {c n r : Str}
    (hf : ∀ node, OnlyDrops (fun _ => False) node.freshnessAt (f node).freshnessAt) :
    OnlyDrops except cache.freshnessAt (cache.relationNodeAt c n r f).freshnessAt :=
  onlyDrops_namespaceNodeAt_of_drops fun _ => onlyDrops_modify_of_drops hf

theorem onlyDrops_relationNodeMutOpt_of_drops {except : Level → Prop}
    (hf : ∀ node, OnlyDrops (fun _ => False) node.freshnessAt (f node).freshnessAt) :
    OnlyDrops except cache.freshnessAt (cache.relationNodeMutOpt path f).freshnessAt := by
  unfold relationNodeMutOpt
  split
  next => exact .refl _
  next name _ => exact onlyDrops_relationNodeAt_of_drops hf

theorem onlyDrops_evictDefinitions {except : Level → Prop} (path : CatalogPath) :
    OnlyDrops except cache.freshnessAt (cache.evictDefinitions path).freshnessAt := by
  refine evictDefinitions_keeps
    (P := fun cache' => OnlyDrops except cache.freshnessAt cache'.freshnessAt) cache path ?_ (.refl _)
  intro mid p hmid
  refine hmid.trans (onlyDrops_relationNodeMutOpt_of_drops fun node i => ?_)
  cases i with
  | definition => exact .inr (.inr rfl)
  | _ => exact .inr (.inl rfl)

theorem onlyDrops_setDefinition {definition : RelationDefinition}
    (h : cache.setDefinition now path definition = .ok cache') :
    OnlyDrops (· = .part path .definition) cache.freshnessAt cache'.freshnessAt := by
  unfold setDefinition at h
  cases hset : cache.relationNodeExistingMut path fun node =>
      { node with definition := node.definition.set now (some definition) } with
  | error e => rw [hset] at h; simp [Except.map] at h
  | ok mid =>
    rw [hset] at h
    obtain rfl := Except.ok.inj h
    have hpart : OnlyDrops (· = .part path .definition) cache.freshnessAt mid.freshnessAt :=
      onlyDrops_setPart (fun _ i hi => by cases i <;> first | rfl | exact absurd rfl hi) hset
    exact hpart.trans (onlyDrops_evictDefinitions path)

end CatalogCache

/-! ## Scopes -/

/-- The subtree targeted by an invalidation or an eviction. -/
inductive CatalogScope where
  | server
  | catalog (path : CatalogPath)
  | nameSpace (path : CatalogPath)
  | relation (path : CatalogPath)
  | constraints (path : CatalogPath)
  | incomingForeignKeys (path : CatalogPath)
  | definition (path : CatalogPath)

def RelationNode.invalidate (node : RelationNode) : RelationNode :=
  { node with
    detail := node.detail.invalidate
    indexes := node.indexes.invalidate
    foreignKeys := node.foreignKeys.invalidate
    constraints := node.constraints.invalidate
    incomingKeys := node.incomingKeys.invalidate
    definition := node.definition.invalidate }

namespace CatalogCache

def invalidateNamespace (space : NamespaceNode) : NamespaceNode :=
  { space with
    relations := { space.relations.invalidate with
      value := space.relations.value.mapValues RelationNode.invalidate } }

def invalidateCatalog (catalogue : CatalogNode) : CatalogNode :=
  { catalogue with
    namespaces := { catalogue.namespaces.invalidate with
      value := catalogue.namespaces.value.mapValues invalidateNamespace } }

/-- Marks a subtree for rereading, without erasing its data. -/
def invalidate (cache : CatalogCache) : CatalogScope → CatalogCache
  | .server =>
    { server := cache.server.invalidate
      resolutionPath := cache.resolutionPath.invalidate
      catalogs := { cache.catalogs.invalidate with
        value := cache.catalogs.value.mapValues invalidateCatalog } }
  | .catalog path =>
    { cache with catalogs := cache.catalogs.modify (mapKey path.catalog) invalidateCatalog }
  | .nameSpace path => cache.namespaceNodeMutOpt path invalidateNamespace
  | .constraints path => cache.relationNodeMutOpt path fun node =>
    { node with constraints := node.constraints.invalidate }
  | .incomingForeignKeys path => cache.relationNodeMutOpt path fun node =>
    { node with incomingKeys := node.incomingKeys.invalidate }
  | .definition path => cache.relationNodeMutOpt path fun node =>
    { node with definition := node.definition.invalidate }
  | .relation path => cache.relationNodeMutOpt path RelationNode.invalidate

/-- Marks the whole cache for rereading. -/
def invalidateAll (cache : CatalogCache) : CatalogCache := cache.invalidate .server

/-- Removes a subtree from the cache; its parent's listing is invalidated. -/
def forget (cache : CatalogCache) : CatalogScope → CatalogCache
  | .server => .new
  | .catalog path =>
    { cache with catalogs := (cache.catalogs.shiftRemove (mapKey path.catalog)).invalidate }
  | .nameSpace path =>
    { cache with
      catalogs := cache.catalogs.modify (mapKey path.catalog) fun catalogue =>
        { catalogue with
          namespaces := (catalogue.namespaces.shiftRemove (mapKey path.nameSpace)).invalidate } }
  | .constraints path => cache.relationNodeMutOpt path fun node =>
    { node with constraints := .default none }
  | .incomingForeignKeys path => cache.relationNodeMutOpt path fun node =>
    { node with incomingKeys := .default none }
  | .definition path => cache.relationNodeMutOpt path fun node =>
    { node with definition := .default none }
  | .relation path =>
    match path.relation with
    | none => cache
    | some name => cache.namespaceNodeMutOpt path fun space =>
      { space with relations := (space.relations.shiftRemove name.val).invalidate }

/-- What an eviction leaves of a relation under its namespace: a node no listing carries
goes once nothing is left of it. -/
def evictRelation (name : Str) (space : NamespaceNode) : NamespaceNode :=
  let listed := space.relations.freshness ≠ .never
  let evicted (node : RelationNode) : RelationNode :=
    { node with detail := .default none, indexes := .default none, foreignKeys := .default none }
  match space.relations.value.get name with
  | none => space
  | some node =>
    let empty := node.constraints.value.isNone && node.incomingKeys.value.isNone &&
      node.definition.value.isNone
    if !listed && empty then { space with relations := space.relations.shiftRemove name }
    else { space with relations := space.relations.modify name evicted }

def evictNamespace (key : Str) (catalog : CatalogNode) : CatalogNode :=
  if catalog.namespaces.freshness = .never then
    { catalog with namespaces := catalog.namespaces.shiftRemove key }
  else
    { catalog with
      namespaces := catalog.namespaces.modify key fun space =>
        { space with relations := .default .empty } }

/-- Drops what was read under a node, to bound memory: the node stays where its
parent's listing put it. -/
def evict (cache : CatalogCache) : CatalogScope → CatalogCache
  | .server => .new
  | .catalog path =>
    let key := mapKey path.catalog
    if cache.catalogs.freshness = .never then
      { cache with catalogs := cache.catalogs.shiftRemove key }
    else
      { cache with
        catalogs := cache.catalogs.modify key fun catalog =>
          { catalog with namespaces := .default .empty } }
  | .nameSpace path =>
    { cache with
      catalogs := cache.catalogs.modify (mapKey path.catalog)
        (evictNamespace (mapKey path.nameSpace)) }
  | .relation path =>
    match path.relation with
    | none => cache
    | some name => cache.namespaceNodeMutOpt path (evictRelation name.val)
  | scope => cache.forget scope

/-! ### What an eviction drops -/

def described : RelationPart → Prop
  | .detail | .indexes | .foreignKeys => True
  | _ => False

theorem evictRelation_drops (name : Str) (space : NamespaceNode) :
    OnlyDrops (fun _ => False) space.freshnessAt (evictRelation name space).freshnessAt ∧
      ∀ part, described part → (evictRelation name space).freshnessAt (some (name, part)) = .never := by
  unfold evictRelation
  cases hget : space.relations.value.get name with
  | none =>
    refine ⟨.refl _, fun part _ => ?_⟩
    simp [NamespaceNode.freshnessAt, Cached.freshnessAt, hget]
  | some node =>
    simp only
    split
    · refine ⟨onlyDrops_shiftRemove, fun part _ => ?_⟩
      show (space.relations.shiftRemove name).freshnessAt _ _ = _
      rw [freshnessAt_shiftRemove, if_pos rfl]
    · constructor
      · refine onlyDrops_modify_of_drops fun node i => ?_
        cases i with
        | detail | indexes | foreignKeys => exact .inr (.inr rfl)
        | _ => exact .inr (.inl rfl)
      · intro part hpart
        show (space.relations.modify name _).freshnessAt _ _ = _
        rw [freshnessAt_modify, if_pos rfl, hget]
        cases part with
        | detail | indexes | foreignKeys => rfl
        | _ => exact hpart.elim

theorem evictNamespace_drops (key : Str) (catalog : CatalogNode) :
    OnlyDrops (fun _ => False) catalog.freshnessAt (evictNamespace key catalog).freshnessAt ∧
      ∀ i, (evictNamespace key catalog).freshnessAt (some (key, i)) = .never := by
  unfold evictNamespace
  split
  · refine ⟨onlyDrops_shiftRemove, fun i => ?_⟩
    show (catalog.namespaces.shiftRemove key).freshnessAt _ _ = _
    rw [freshnessAt_shiftRemove, if_pos rfl]
  · constructor
    · refine onlyDrops_modify_of_drops fun space => ?_
      exact .of_never fun i => Cached.freshnessAt_empty _ i
    · intro i
      show (catalog.namespaces.modify key _).freshnessAt _ _ = _
      rw [freshnessAt_modify, if_pos rfl]
      cases catalog.namespaces.value.get key with
      | none => rfl
      | some space => exact Cached.freshnessAt_empty _ i

variable {cache : CatalogCache}

theorem onlyDrops_evict {except : Level → Prop} (scope : CatalogScope) :
    OnlyDrops except cache.freshnessAt (cache.evict scope).freshnessAt := by
  cases scope with
  | server => exact .of_never freshnessAt_new
  | catalog path =>
    simp only [evict]
    split
    · exact onlyDrops_catalogs_of_drops onlyDrops_shiftRemove
    · refine onlyDrops_catalogs_of_drops (onlyDrops_modify_of_drops fun _ => ?_)
      exact .of_never fun i => Cached.freshnessAt_empty _ i
  | nameSpace path =>
    refine onlyDrops_catalogs_of_drops (onlyDrops_modify_of_drops fun node => ?_)
    exact (evictNamespace_drops _ node).1
  | relation path =>
    simp only [evict]
    split
    · exact .refl _
    · exact onlyDrops_namespaceNodeAt_of_drops fun node => (evictRelation_drops _ node).1
  | constraints path =>
    refine onlyDrops_relationNodeMutOpt_of_drops fun node i => ?_
    cases i with
    | constraints => exact .inr (.inr rfl)
    | _ => exact .inr (.inl rfl)
  | incomingForeignKeys path =>
    refine onlyDrops_relationNodeMutOpt_of_drops fun node i => ?_
    cases i with
    | incomingKeys => exact .inr (.inr rfl)
    | _ => exact .inr (.inl rfl)
  | definition path =>
    refine onlyDrops_relationNodeMutOpt_of_drops fun node i => ?_
    cases i with
    | definition => exact .inr (.inr rfl)
    | _ => exact .inr (.inl rfl)

theorem freshnessAt_namespaceNodeAt {c n : Str} {f : NamespaceNode → NamespaceNode}
    {i : InNamespace} (hf : ∀ space, (f space).freshnessAt i = .never) :
    (cache.namespaceNodeAt c n f).freshnessAt (.tree (some (c, some (n, i)))) = .never := by
  rw [freshnessAt_tree]
  show (cache.catalogs.modify _ _).freshnessAt CatalogNode.freshnessAt _ = _
  rw [freshnessAt_modify, if_pos rfl]
  cases cache.catalogs.value.get c with
  | none => rfl
  | some catalog =>
    show (catalog.namespaces.modify n f).freshnessAt NamespaceNode.freshnessAt (some (n, i)) = _
    rw [freshnessAt_modify, if_pos rfl]
    cases catalog.namespaces.value.get n with
    | none => rfl
    | some space => exact hf space

theorem freshnessAt_relationNodeMutOpt {path : CatalogPath} {f : RelationNode → RelationNode}
    {part : RelationPart} (hrelation : path.relation.isSome)
    (hf : ∀ node, (f node).freshnessAt part = .never) :
    (cache.relationNodeMutOpt path f).freshnessAt (.part path part) = .never := by
  obtain ⟨name, hname⟩ := Option.isSome_iff_exists.mp hrelation
  have hkey : mapKey path.relation = name.val := by rw [hname]; rfl
  simp only [relationNodeMutOpt, hname]
  refine freshnessAt_namespaceNodeAt fun space => ?_
  show (space.relations.modify _ _).freshnessAt RelationNode.freshnessAt _ = _
  rw [hkey, freshnessAt_modify, if_pos rfl]
  cases space.relations.value.get name.val with
  | none => rfl
  | some node => exact hf node

theorem freshnessAt_evict_catalog (path : CatalogPath) (i : InCatalog) :
    (cache.evict (.catalog path)).freshnessAt (.tree (some (mapKey path.catalog, i))) = .never := by
  rw [freshnessAt_tree]
  simp only [evict]
  split
  · show (cache.catalogs.shiftRemove _).freshnessAt CatalogNode.freshnessAt _ = _
    rw [freshnessAt_shiftRemove, if_pos rfl]
  · show (cache.catalogs.modify _ _).freshnessAt CatalogNode.freshnessAt _ = _
    rw [freshnessAt_modify, if_pos rfl]
    cases cache.catalogs.value.get (mapKey path.catalog) with
    | none => rfl
    | some catalog => exact Cached.freshnessAt_empty _ i

theorem freshnessAt_evict_nameSpace (path : CatalogPath) (i : InNamespace) :
    (cache.evict (.nameSpace path)).freshnessAt
      (.tree (some (mapKey path.catalog, some (mapKey path.nameSpace, i)))) = .never := by
  rw [freshnessAt_tree]
  show (cache.catalogs.modify _ _).freshnessAt CatalogNode.freshnessAt _ = _
  rw [freshnessAt_modify, if_pos rfl]
  cases cache.catalogs.value.get (mapKey path.catalog) with
  | none => rfl
  | some catalog => exact (evictNamespace_drops _ catalog).2 i

theorem freshnessAt_evict_relation {path : CatalogPath} (hrelation : path.relation.isSome)
    {part : RelationPart} (hpart : described part) :
    (cache.evict (.relation path)).freshnessAt (.part path part) = .never := by
  obtain ⟨name, hname⟩ := Option.isSome_iff_exists.mp hrelation
  have hkey : mapKey path.relation = name.val := by rw [hname]; rfl
  simp only [evict, hname]
  refine freshnessAt_namespaceNodeAt fun space => ?_
  rw [hkey]
  exact (evictRelation_drops _ space).2 part hpart

section Evictions

variable {evicted : List CatalogScope}

theorem onlyDrops_evictAll {except : Level → Prop} :
    OnlyDrops except cache.freshnessAt (evicted.foldl evict cache).freshnessAt := by
  induction evicted generalizing cache with
  | nil => exact .refl _
  | cons scope rest ih => exact (onlyDrops_evict scope).trans ih

theorem freshnessAt_evictAll {scope : CatalogScope} (hmem : scope ∈ evicted) {l : Level}
    (hl : ∀ cache : CatalogCache, (cache.evict scope).freshnessAt l = .never) :
    (evicted.foldl evict cache).freshnessAt l = .never := by
  induction evicted generalizing cache with
  | nil => simp at hmem
  | cons other rest ih =>
    obtain rfl | hrest := mem_cons.mp hmem
    · have hdrops : OnlyDrops (fun _ => False) (cache.evict scope).freshnessAt
          (rest.foldl evict (cache.evict scope)).freshnessAt := onlyDrops_evictAll
      obtain hfalse | hsame | hnever := hdrops l
      · exact hfalse.elim
      · exact hsame.trans (hl cache)
      · exact hnever
    · exact ih hrest

end Evictions

theorem freshnessAt_invalidateAll (l : Level) (instant : Int) :
    cache.invalidateAll.freshnessAt l ≠ .fetched instant := by
  have hrelation : ∀ (node : RelationNode) part,
      node.invalidate.freshnessAt part ≠ .fetched instant := by
    intro node part
    cases part with
    | _ => exact Freshness.invalidate_ne_fetched _ _
  have hnamespace : ∀ (space : NamespaceNode) i,
      (invalidateNamespace space).freshnessAt i ≠ .fetched instant := by
    rintro space (_ | ⟨r, part⟩)
    · exact Freshness.invalidate_ne_fetched _ _
    · show Option.getD (Option.map _ (IndexMap.get (IndexMap.mapValues _ _) r)) _ ≠ _
      rw [IndexMap.get_mapValues]
      cases space.relations.value.get r with
      | none => simp
      | some node => exact hrelation node part
  have hcatalog : ∀ (catalog : CatalogNode) i,
      (invalidateCatalog catalog).freshnessAt i ≠ .fetched instant := by
    rintro catalog (_ | ⟨n, i⟩)
    · exact Freshness.invalidate_ne_fetched _ _
    · show Option.getD (Option.map _ (IndexMap.get (IndexMap.mapValues _ _) n)) _ ≠ _
      rw [IndexMap.get_mapValues]
      cases catalog.namespaces.value.get n with
      | none => simp
      | some space => exact hnamespace space i
  obtain _ | _ | _ | ⟨c, i⟩ := l
  · exact Freshness.invalidate_ne_fetched _ _
  · exact Freshness.invalidate_ne_fetched _ _
  · exact Freshness.invalidate_ne_fetched _ _
  · show Option.getD (Option.map _ (IndexMap.get (IndexMap.mapValues _ _) c)) _ ≠ _
    rw [IndexMap.get_mapValues]
    cases cache.catalogs.value.get c with
    | none => simp
    | some catalog => exact hcatalog catalog i

end CatalogCache

end Oxyn.Catalog
