/-
# `Oxyn.Exec.CatalogRead` — one read of the catalog, and its publication

A refresh reads what its scope asks for from the provider into a patch, and the patch is applied
to the cache.
-/
import Oxyn.Catalog.Cache

namespace Oxyn.Catalog

open Text List

/-! ## Scopes and errors -/

inductive CatalogRefreshScope where
  | root
  | namespaces (catalog : Option Str)
  | relations (catalog nameSpace : Option Str)
  | relation (catalog nameSpace : Option Str) (relation : Str)
  | constraints (catalog nameSpace : Option Str) (relation : Str)
  | incomingForeignKeys (catalog nameSpace : Option Str) (relation : Str)
  | definition (catalog nameSpace : Option Str) (relation : Str)
  | resolutionPath
deriving DecidableEq

inductive RefreshError where
  | config (detail : String)
  | notSupported (capability : String)
  | catalogUnavailable (detail : String)
  | internal (error : CacheError)
  | cancelled
  /-- Any other error the provider returns. -/
  | provider
deriving DecidableEq, Repr

def path (catalog nameSpace relation : Option Str) : Except RefreshError CatalogPath :=
  match CatalogPath.fromLevels catalog nameSpace relation with
  | .ok path => .ok path
  | .error _ => .error (.config "invalid catalog scope identifier")

def rawKey (name : Option Str) : Str := name.getD missingTier

theorem mapKey_of_level? {name : Option Str} {s : Option Segment}
    (h : CatalogPath.level? name = .ok s) : mapKey s = rawKey name := by
  cases name with
  | none =>
    obtain rfl := Except.ok.inj h
    rfl
  | some name =>
    simp only [CatalogPath.level?, segment?] at h
    split at h
    · obtain rfl := Except.ok.inj h
      rfl
    · simp [Except.map] at h

theorem path_eq_ok {c n r : Option Str} {p : CatalogPath} (h : path c n r = .ok p) :
    mapKey p.catalog = rawKey c ∧ mapKey p.nameSpace = rawKey n ∧ mapKey p.relation = rawKey r ∧
      (p.relation.isSome = r.isSome) := by
  unfold path at h
  split at h
  next q hq =>
    obtain rfl := Except.ok.inj h
    unfold CatalogPath.fromLevels at hq
    cases hc : CatalogPath.level? c with
    | error e => rw [hc] at hq; simp [bind, Except.bind] at hq
    | ok c' =>
      cases hn : CatalogPath.level? n with
      | error e => rw [hc, hn] at hq; simp [bind, Except.bind] at hq
      | ok n' =>
        cases hr : CatalogPath.level? r with
        | error e => rw [hc, hn, hr] at hq; simp [bind, Except.bind] at hq
        | ok r' =>
          rw [hc, hn, hr] at hq
          obtain rfl := Except.ok.inj hq
          refine ⟨mapKey_of_level? hc, mapKey_of_level? hn, mapKey_of_level? hr, ?_⟩
          cases r with
          | none =>
            obtain rfl := Except.ok.inj hr
            rfl
          | some r =>
            simp only [CatalogPath.level?, segment?] at hr
            split at hr
            · obtain rfl := Except.ok.inj hr
              rfl
            · simp [Except.map] at hr
  next => simp at h

/-! ## Patches -/

/-- What one successful read publishes; absent means not read, never empty. -/
structure CatalogPatch where
  server : Option ServerInfo := none
  catalogs : Option (List CatalogRef) := none
  namespaces : Option (Option Segment × List NamespaceRef) := none
  relations : Option (CatalogPath × List RelationRef) := none
  relation : Option (CatalogPath × Relation) := none
  indexes : Option (CatalogPath × List Index) := none
  foreignKeys : Option (CatalogPath × List ForeignKey) := none
  constraints : Option (CatalogPath × List Constraint) := none
  incomingKeys : Option (CatalogPath × List IncomingForeignKey) := none
  definition : Option (CatalogPath × RelationDefinition) := none
  resolutionPath : Option (List Str) := none

namespace CatalogPatch

def objectCount (patch : CatalogPatch) : Nat :=
  patch.server.toList.length
    + (patch.catalogs.map (·.length)).getD 0
    + (patch.namespaces.map (·.2.length)).getD 0
    + (patch.relations.map (·.2.length)).getD 0
    + (patch.relation.map (1 + ·.2.fields.length)).getD 0
    + (patch.constraints.map (·.2.length)).getD 0
    + (patch.incomingKeys.map (·.2.length)).getD 0
    + patch.definition.toList.length
    + (patch.resolutionPath.map (·.length)).getD 0
    + (patch.indexes.map (·.2.length)).getD 0
    + (patch.foreignKeys.map (·.2.length)).getD 0

/-- What a patch writes, in order, each with the level it publishes: a relation's details after its
description. -/
def parts (patch : CatalogPatch) :
    List (Level × (Int → CatalogCache → Except CacheError CatalogCache)) :=
  (patch.server.map fun info =>
      (Level.server, fun now cache => .ok (cache.setServerInfo now info))).toList
    ++ (patch.catalogs.map fun catalogs =>
      (Level.catalogs, fun now cache => .ok (cache.setCatalogs now catalogs))).toList
    ++ (patch.namespaces.map fun p =>
      (Level.namespaces (mapKey p.1), fun now cache =>
        .ok (cache.setNamespaces now p.1 p.2))).toList
    ++ (patch.relations.map fun p =>
      (Level.relations (mapKey p.1.catalog) (mapKey p.1.nameSpace), fun now cache =>
        cache.setRelations now p.1 p.2)).toList
    ++ (patch.relation.map fun p =>
      (Level.part p.1 .detail, fun now cache => cache.setRelation now p.1 p.2)).toList
    ++ (patch.indexes.map fun p =>
      (Level.part p.1 .indexes, fun now cache => cache.setIndexes now p.1 p.2)).toList
    ++ (patch.foreignKeys.map fun p =>
      (Level.part p.1 .foreignKeys, fun now cache => cache.setForeignKeys now p.1 p.2)).toList
    ++ (patch.constraints.map fun p =>
      (Level.part p.1 .constraints, fun now cache => cache.setConstraints now p.1 p.2)).toList
    ++ (patch.incomingKeys.map fun p =>
      (Level.part p.1 .incomingKeys, fun now cache =>
        cache.setIncomingForeignKeys now p.1 p.2)).toList
    ++ (patch.definition.map fun p =>
      (Level.part p.1 .definition, fun now cache => cache.setDefinition now p.1 p.2)).toList
    ++ (patch.resolutionPath.map fun names =>
      (Level.resolutionPath, fun now cache => .ok (cache.setResolutionPath now names))).toList

def levels (patch : CatalogPatch) : List Level := patch.parts.map Prod.fst

/-- Writes one after the other: what is written before a refusal stays. -/
def write : List (Level × (CatalogCache → Except CacheError CatalogCache)) → CatalogCache →
    CatalogCache × Option CacheError
  | [], cache => (cache, none)
  | w :: rest, cache =>
    match w.2 cache with
    | .ok cache => write rest cache
    | .error e => (cache, some e)

def written : List (Level × (CatalogCache → Except CacheError CatalogCache)) → CatalogCache →
    List Level
  | [], _ => []
  | w :: rest, cache =>
    match w.2 cache with
    | .ok cache => w.1 :: written rest cache
    | .error _ => []

def apply (patch : CatalogPatch) (now : Int) (cache : CatalogCache) :
    CatalogCache × Option CacheError :=
  write (patch.parts.map fun part => (part.1, part.2 now)) cache

def published (patch : CatalogPatch) (now : Int) (cache : CatalogCache) : List Level :=
  written (patch.parts.map fun part => (part.1, part.2 now)) cache

theorem mem_levels_of_published {patch : CatalogPatch} {now : Int} {cache : CatalogCache}
    {l : Level} (h : l ∈ patch.published now cache) : l ∈ patch.levels := by
  suffices ∀ ws : List (Level × (CatalogCache → Except CacheError CatalogCache)),
      ∀ cache, l ∈ written ws cache → l ∈ ws.map Prod.fst by
    have hmem := this _ _ h
    rw [map_map] at hmem
    exact hmem
  intro ws
  induction ws with
  | nil => exact fun _ h => h
  | cons w rest ih =>
    intro cache h
    rw [written] at h
    split at h
    · obtain rfl | hrest := mem_cons.mp h
      · exact mem_cons_self
      · exact mem_cons_of_mem _ (ih _ hrest)
    · simp at h

theorem onlyDrops_write {ws : List (Level × (CatalogCache → Except CacheError CatalogCache))}
    {cache : CatalogCache}
    (hws : ∀ w ∈ ws, ∀ before after, w.2 before = .ok after →
      OnlyDrops (· = w.1) before.freshnessAt after.freshnessAt) :
    OnlyDrops (· ∈ written ws cache) cache.freshnessAt (write ws cache).1.freshnessAt := by
  induction ws generalizing cache with
  | nil => exact .refl _
  | cons w rest ih =>
    rw [write, written]
    split
    next after hafter =>
      have hown := (hws w mem_cons_self _ _ hafter).mono fun l hl => by
        show l ∈ w.1 :: written rest after
        exact hl ▸ mem_cons_self
      have hrest : OnlyDrops (· ∈ written rest after) after.freshnessAt
          (write rest after).1.freshnessAt := ih fun w hw => hws w (mem_cons_of_mem _ hw)
      exact hown.trans (hrest.mono fun l hl => mem_cons_of_mem w.1 hl)
    next => exact .refl _

theorem onlyDrops_of_mem_parts {patch : CatalogPatch} {l : Level} {now : Int}
    {w : Int → CatalogCache → Except CacheError CatalogCache} {before after : CatalogCache}
    (hw : (l, w) ∈ patch.parts) (hafter : w now before = .ok after) :
    OnlyDrops (· = l) before.freshnessAt after.freshnessAt := by
  simp only [parts, mem_append, Option.mem_toList, Option.map_eq_some_iff,
    Prod.mk.injEq] at hw
  obtain ((((((((((⟨v, -, rfl, rfl⟩ | ⟨v, -, rfl, rfl⟩) | ⟨v, -, rfl, rfl⟩) | ⟨v, -, rfl, rfl⟩) |
    ⟨v, -, rfl, rfl⟩) | ⟨v, -, rfl, rfl⟩) | ⟨v, -, rfl, rfl⟩) | ⟨v, -, rfl, rfl⟩) |
    ⟨v, -, rfl, rfl⟩) | ⟨v, -, rfl, rfl⟩) | ⟨v, -, rfl, rfl⟩) := hw
  · obtain rfl := Except.ok.inj hafter
    exact CatalogCache.onlyDrops_setServerInfo v
  · obtain rfl := Except.ok.inj hafter
    exact CatalogCache.onlyDrops_setCatalogs v
  · obtain rfl := Except.ok.inj hafter
    exact CatalogCache.onlyDrops_setNamespaces v.1 v.2
  · exact CatalogCache.onlyDrops_setRelations hafter
  · exact CatalogCache.onlyDrops_setRelation hafter
  · exact CatalogCache.onlyDrops_setIndexes hafter
  · exact CatalogCache.onlyDrops_setForeignKeys hafter
  · exact CatalogCache.onlyDrops_setConstraints hafter
  · exact CatalogCache.onlyDrops_setIncomingForeignKeys hafter
  · exact CatalogCache.onlyDrops_setDefinition hafter
  · obtain rfl := Except.ok.inj hafter
    exact CatalogCache.onlyDrops_setResolutionPath v

theorem onlyDrops_apply (patch : CatalogPatch) (now : Int) (cache : CatalogCache) :
    OnlyDrops (· ∈ patch.published now cache) cache.freshnessAt
      (patch.apply now cache).1.freshnessAt := by
  refine onlyDrops_write fun w hw before after hafter => ?_
  obtain ⟨⟨l, w⟩, hmem, rfl⟩ := mem_map.mp hw
  exact onlyDrops_of_mem_parts hmem hafter

end CatalogPatch

/-! ## Reading -/

/-- What the session's catalog provider answers, a cancellation included. -/
structure CatalogProvider where
  serverInfo : Except RefreshError ServerInfo
  listCatalogs : Except RefreshError (List CatalogRef)
  listNamespaces : Option Segment → Except RefreshError (List NamespaceRef)
  listRelations : CatalogPath → Except RefreshError (List RelationRef)
  describeRelation : CatalogPath → Except RefreshError Relation
  listIndexes : CatalogPath → Except RefreshError (List Index)
  listForeignKeys : CatalogPath → Except RefreshError (List ForeignKey)
  listConstraints : CatalogPath → Except RefreshError (List Constraint)
  listIncomingForeignKeys : CatalogPath → Except RefreshError (List IncomingForeignKey)
  relationDefinition : CatalogPath → Except RefreshError RelationDefinition
  resolutionPath : Except RefreshError (List Str)

def require (granted : Bool) (capability : String) : Except RefreshError Unit :=
  if granted then .ok () else .error (.notSupported capability)

/-- A read made only where the session has the capability. -/
def optionally {α : Type} (granted : Bool) (answer : Except RefreshError α) :
    Except RefreshError (Option α) :=
  if granted then answer.map some else .ok none

/-- Bounds of a definition, checked without reading its SQL. -/
def RelationDefinition.validate (definition : RelationDefinition) : Except RefreshError Unit :=
  if (trim definition.sql).isEmpty ∨ size definition.sql > 1048576 ∨ definition.notes.length > 32 ∨
      (definition.notes.map size).sum > 65536 then
    .error (.catalogUnavailable "object definition is empty or exceeds preview limits")
  else .ok ()

def read (provider : CatalogProvider) (capabilities : Capabilities) :
    CatalogRefreshScope → Except RefreshError CatalogPatch
  | .root => do
      let info ← provider.serverInfo
      -- the session's capabilities are authoritative, whatever the metadata says
      let server : ServerInfo := { info with capabilities }
      let catalogs ← provider.listCatalogs
      if catalogs.isEmpty then
        if capabilities.contains Capabilities.schemas then
          let namespaces ← provider.listNamespaces none
          return { server, catalogs, namespaces := some (none, namespaces) }
        else
          let relations ← provider.listRelations .empty
          return { server, catalogs, relations := some (.empty, relations) }
      else return { server, catalogs }
  | .namespaces catalog => do
      let target ← path catalog none none
      require (capabilities.contains Capabilities.schemas) "SCHEMAS"
      let namespaces ← provider.listNamespaces target.catalog
      return { namespaces := some (target.catalog, namespaces) }
  | .relations catalog nameSpace => do
      let parent ← path catalog nameSpace none
      let relations ← provider.listRelations parent
      return { relations := some (parent, relations) }
  | .relation catalog nameSpace relation => do
      let target ← path catalog nameSpace (some relation)
      let detail ← provider.describeRelation target
      let indexes ←
        optionally (capabilities.contains Capabilities.indexes) (provider.listIndexes target)
      let keys ←
        optionally (capabilities.contains Capabilities.foreignKeys) (provider.listForeignKeys target)
      return {
        indexes := indexes.map (target, ·)
        foreignKeys := keys.map (target, ·)
        relation := some (target, detail) }
  | .constraints catalog nameSpace relation => do
      require (capabilities.contains Capabilities.constraints) "CONSTRAINTS"
      let target ← path catalog nameSpace (some relation)
      let detail ← provider.describeRelation target
      let constraints ← provider.listConstraints target
      return { constraints := some (target, constraints), relation := some (target, detail) }
  | .incomingForeignKeys catalog nameSpace relation => do
      require (capabilities.contains Capabilities.incomingForeignKeys) "INCOMING_FOREIGN_KEYS"
      let target ← path catalog nameSpace (some relation)
      let detail ← provider.describeRelation target
      let keys ← provider.listIncomingForeignKeys target
      return { incomingKeys := some (target, keys), relation := some (target, detail) }
  | .definition catalog nameSpace relation => do
      require (capabilities.contains Capabilities.objectDefinition) "OBJECT_DEFINITION"
      let target ← path catalog nameSpace (some relation)
      let detail ← provider.describeRelation target
      let definition ← provider.relationDefinition target
      definition.validate
      return { definition := some (target, definition), relation := some (target, detail) }
  | .resolutionPath =>
    match provider.resolutionPath with
    | .ok namespaces => .ok { resolutionPath := some namespaces }
    | .error (.notSupported _) => .ok {}
    | .error other => .error other

/-- The relation a scope is about: its description is published with what is asked for. -/
def CatalogRefreshScope.relation? : CatalogRefreshScope → Option (Option Str × Option Str × Str)
  | .relation c n r | .constraints c n r | .incomingForeignKeys c n r | .definition c n r =>
    some (c, n, r)
  | _ => none

def Belongs : CatalogRefreshScope → Level → Prop
  | .root, l =>
    l = .server ∨ l = .catalogs ∨ l = .namespaces missingTier ∨
      l = .relations missingTier missingTier
  | .namespaces c, l => l = .namespaces (rawKey c)
  | .relations c n, l => l = .relations (rawKey c) (rawKey n)
  | .relation c n r, l =>
    l = .relation (rawKey c) (rawKey n) r .detail ∨
      l = .relation (rawKey c) (rawKey n) r .indexes ∨
      l = .relation (rawKey c) (rawKey n) r .foreignKeys
  | .constraints c n r, l =>
    l = .relation (rawKey c) (rawKey n) r .detail ∨
      l = .relation (rawKey c) (rawKey n) r .constraints
  | .incomingForeignKeys c n r, l =>
    l = .relation (rawKey c) (rawKey n) r .detail ∨
      l = .relation (rawKey c) (rawKey n) r .incomingKeys
  | .definition c n r, l =>
    l = .relation (rawKey c) (rawKey n) r .detail ∨
      l = .relation (rawKey c) (rawKey n) r .definition
  | .resolutionPath, l => l = .resolutionPath

theorem bind_eq_ok {ε α β : Type} {x : Except ε α} {f : α → Except ε β} {b : β} :
    x >>= f = .ok b ↔ ∃ a, x = .ok a ∧ f a = .ok b := by
  cases x with
  | error e | ok a => simp [bind, Except.bind]

theorem part_of_path {c n : Option Str} {r : Str} {p : CatalogPath}
    (h : path c n (some r) = .ok p) (part : RelationPart) :
    Level.part p part = .relation (rawKey c) (rawKey n) r part := by
  obtain ⟨hc, hn, hr, -⟩ := path_eq_ok h
  show Level.relation _ _ _ _ = _
  rw [hc, hn, hr]
  rfl

theorem belongs_of_read {provider : CatalogProvider} {capabilities : Capabilities}
    {scope : CatalogRefreshScope} {patch : CatalogPatch}
    (h : read provider capabilities scope = .ok patch) {l : Level} (hl : l ∈ patch.levels) :
    Belongs scope l := by
  cases scope with
  | root =>
    simp only [read, bind_eq_ok] at h
    obtain ⟨server, -, catalogs, -, h⟩ := h
    split_ifs at h
    · obtain ⟨namespaces, -, h⟩ := bind_eq_ok.mp h
      obtain rfl := Except.ok.inj h
      simp [CatalogPatch.levels, CatalogPatch.parts, mapKey] at hl
      obtain rfl | rfl | rfl := hl
      · exact .inl rfl
      · exact .inr (.inl rfl)
      · exact .inr (.inr (.inl rfl))
    · obtain ⟨relations, -, h⟩ := bind_eq_ok.mp h
      obtain rfl := Except.ok.inj h
      simp [CatalogPatch.levels, CatalogPatch.parts, mapKey, CatalogPath.empty] at hl
      obtain rfl | rfl | rfl := hl
      · exact .inl rfl
      · exact .inr (.inl rfl)
      · exact .inr (.inr (.inr rfl))
    · obtain rfl := Except.ok.inj h
      simp [CatalogPatch.levels, CatalogPatch.parts] at hl
      obtain rfl | rfl := hl
      · exact .inl rfl
      · exact .inr (.inl rfl)
  | namespaces c =>
    simp only [read, bind_eq_ok] at h
    obtain ⟨target, hpath, -, -, namespaces, -, h⟩ := h
    obtain rfl := Except.ok.inj h
    simpa [CatalogPatch.levels, CatalogPatch.parts, Belongs, (path_eq_ok hpath).1] using hl
  | relations c n =>
    simp only [read, bind_eq_ok] at h
    obtain ⟨parent, hpath, relations, -, h⟩ := h
    obtain rfl := Except.ok.inj h
    simpa [CatalogPatch.levels, CatalogPatch.parts, Belongs, (path_eq_ok hpath).1,
      (path_eq_ok hpath).2.1] using hl
  | relation c n r =>
    simp only [read, bind_eq_ok] at h
    obtain ⟨target, hpath, detail, -, indexes, -, keys, -, h⟩ := h
    obtain rfl := Except.ok.inj h
    simp only [CatalogPatch.levels, CatalogPatch.parts] at hl
    simp [part_of_path hpath] at hl
    obtain rfl | ⟨-, rfl⟩ | ⟨-, rfl⟩ := hl
    · exact .inl rfl
    · exact .inr (.inl rfl)
    · exact .inr (.inr rfl)
  | constraints c n r =>
    simp only [read, bind_eq_ok] at h
    obtain ⟨-, -, target, hpath, detail, -, constraints, -, h⟩ := h
    obtain rfl := Except.ok.inj h
    simpa [CatalogPatch.levels, CatalogPatch.parts, part_of_path hpath, Belongs] using hl
  | incomingForeignKeys c n r =>
    simp only [read, bind_eq_ok] at h
    obtain ⟨-, -, target, hpath, detail, -, keys, -, h⟩ := h
    obtain rfl := Except.ok.inj h
    simpa [CatalogPatch.levels, CatalogPatch.parts, part_of_path hpath, Belongs] using hl
  | definition c n r =>
    simp only [read, bind_eq_ok] at h
    obtain ⟨-, -, target, hpath, detail, -, definition, -, -, -, h⟩ := h
    obtain rfl := Except.ok.inj h
    simpa [CatalogPatch.levels, CatalogPatch.parts, part_of_path hpath, Belongs] using hl
  | resolutionPath =>
    simp only [read] at h
    split at h
    · obtain rfl := Except.ok.inj h
      simpa [CatalogPatch.levels, CatalogPatch.parts, Belongs] using hl
    · obtain rfl := Except.ok.inj h
      simp [CatalogPatch.levels, CatalogPatch.parts] at hl
    · simp at h

theorem detail_mem_of_read {provider : CatalogProvider} {capabilities : Capabilities}
    {scope : CatalogRefreshScope} {patch : CatalogPatch}
    (h : read provider capabilities scope = .ok patch) {c n : Option Str} {r : Str}
    (hrelation : scope.relation? = some (c, n, r)) :
    Level.relation (rawKey c) (rawKey n) r .detail ∈ patch.levels := by
  cases scope with
  | root | namespaces _ | relations _ _ | resolutionPath =>
    simp [CatalogRefreshScope.relation?] at hrelation
  | relation c' n' r' =>
    obtain ⟨rfl, rfl, rfl⟩ : c' = c ∧ n' = n ∧ r' = r := by
      simpa [CatalogRefreshScope.relation?] using hrelation
    simp only [read, bind_eq_ok] at h
    obtain ⟨target, hpath, detail, -, indexes, -, keys, -, h⟩ := h
    obtain rfl := Except.ok.inj h
    simp [CatalogPatch.levels, CatalogPatch.parts, part_of_path hpath]
  | constraints c' n' r' =>
    obtain ⟨rfl, rfl, rfl⟩ : c' = c ∧ n' = n ∧ r' = r := by
      simpa [CatalogRefreshScope.relation?] using hrelation
    simp only [read, bind_eq_ok] at h
    obtain ⟨-, -, target, hpath, detail, -, constraints, -, h⟩ := h
    obtain rfl := Except.ok.inj h
    simp [CatalogPatch.levels, CatalogPatch.parts, part_of_path hpath]
  | incomingForeignKeys c' n' r' =>
    obtain ⟨rfl, rfl, rfl⟩ : c' = c ∧ n' = n ∧ r' = r := by
      simpa [CatalogRefreshScope.relation?] using hrelation
    simp only [read, bind_eq_ok] at h
    obtain ⟨-, -, target, hpath, detail, -, keys, -, h⟩ := h
    obtain rfl := Except.ok.inj h
    simp [CatalogPatch.levels, CatalogPatch.parts, part_of_path hpath]
  | definition c' n' r' =>
    obtain ⟨rfl, rfl, rfl⟩ : c' = c ∧ n' = n ∧ r' = r := by
      simpa [CatalogRefreshScope.relation?] using hrelation
    simp only [read, bind_eq_ok] at h
    obtain ⟨-, -, target, hpath, detail, -, definition, -, -, -, h⟩ := h
    obtain rfl := Except.ok.inj h
    simp [CatalogPatch.levels, CatalogPatch.parts, part_of_path hpath]

end Oxyn.Catalog
