/-
# `Oxyn.Catalog.Listing` — what the cache answers, and which listings are unread

Reading takes nothing from the server.
-/
import Oxyn.Catalog.Cache

namespace Oxyn.Catalog.CatalogCache

open Text

variable (cache : CatalogCache)

/-! ## Reading -/

/-- The server identity, if it was read. -/
def serverInfo : Option ServerInfo := cache.server.value

/-- What its listing says of a relation. -/
def relationSummary (path : CatalogPath) : Option RelationRef :=
  (cache.relationNode path).map (·.summary)

/-- The description of a relation, if it was requested. -/
def relation (path : CatalogPath) : Option Relation :=
  (cache.relationNode path).bind (·.detail.value)

def indexes (path : CatalogPath) : Option (List Index) :=
  (cache.relationNode path).bind (·.indexes.value)

def foreignKeys (path : CatalogPath) : Option (List ForeignKey) :=
  (cache.relationNode path).bind (·.foreignKeys.value)

/-- Every known relation, with its description when it was requested. -/
def iterRelations : List (RelationRef × Option Relation) :=
  cache.catalogs.value.values.flatMap fun catalog =>
    catalog.namespaces.value.values.flatMap fun space =>
      space.relations.value.values.map fun node => (node.summary, node.detail.value)

/-- Number of known relations, all levels together. -/
def relationCount : Nat := cache.iterRelations.length

/-- Does the cache contain nothing at all? -/
def isEmpty : Bool := cache.server.value.isNone && cache.catalogs.value.entries.isEmpty

/-! ## Listings -/

/-- The freshness of a subtree, as its root node carries it. -/
def freshness : CatalogScope → Freshness
  | .server => cache.catalogs.freshness
  | .catalog path => cache.freshnessAt (.namespaces (mapKey path.catalog))
  | .nameSpace path => cache.freshnessAt (.relations (mapKey path.catalog) (mapKey path.nameSpace))
  | .relation path => cache.freshnessAt (.part path .detail)
  | .constraints path => cache.freshnessAt (.part path .constraints)
  | .incomingForeignKeys path => cache.freshnessAt (.part path .incomingKeys)
  | .definition path => cache.freshnessAt (.part path .definition)

/-- The level name of a node key. -/
def fromKey (rawValue : Str) : Option Segment := (segment? rawValue).toOption

def catalogScopes (hasSchemas : Bool) (key : Str) (catalog : CatalogNode) : List CatalogScope :=
  if hasSchemas then
    .catalog ⟨fromKey key, none, none⟩ ::
      (catalog.namespaces.value.entries.filter fun space =>
        !(space.2.info.any (·.isSystem))).map fun space =>
          .nameSpace ⟨fromKey key, fromKey space.1, none⟩
  else [.nameSpace ⟨fromKey key, none, none⟩]

/-- The listings that name every relation of the session's source, of its own catalog where the
server marks one. -/
def listingScopes : List CatalogScope :=
  match cache.serverInfo with
  | none => []
  | some server =>
    let hasSchemas := server.capabilities.contains Capabilities.schemas
    let sessionMarked :=
      cache.catalogs.value.values.any fun node => node.info.any (·.isDefault)
    (cache.catalogs.value.entries.filter fun catalog =>
      !(sessionMarked && catalog.2.info.any fun info => !info.isDefault)).flatMap
        fun catalog => catalogScopes hasSchemas catalog.1 catalog.2

def unlistedCount : Nat :=
  (cache.listingScopes.filter fun scope => cache.freshness scope = .never).length

end Oxyn.Catalog.CatalogCache
