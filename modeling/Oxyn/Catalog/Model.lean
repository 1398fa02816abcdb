/-
# `Oxyn.Catalog.Model` — the metadata model, the same for every database

Server, catalogs, namespaces, relations and their fields.  A type is kept for the fields it holds,
in arrays or in documents; the server's own name for it stands beside it.
-/
import Oxyn.Catalog.Path
import Oxyn.Core.Capabilities

namespace Oxyn.Catalog

open Text

/-! ## The server and its levels -/

structure ServerInfo where
  product : Str
  version : Str
  capabilities : Capabilities

structure CatalogRef where
  name : Segment
  /-- Is it the session's? -/
  isDefault : Bool

/-- A catalog nobody listed. -/
def CatalogRef.validated (name : Segment) : CatalogRef := ⟨name, false⟩

structure NamespaceRef where
  parent : CatalogPath
  name : Segment
  isSystem : Bool

/-- A namespace nobody listed. -/
def NamespaceRef.validated (parent : CatalogPath) (name : Segment) : NamespaceRef :=
  ⟨parent, name, false⟩

/-! ## Relations -/

inductive RelationKind where
  | table | view | materializedView | collection | index | stream | keyPattern | nodeLabel
  | relationshipType | function | procedure | sequence
deriving DecidableEq, Repr

def RelationKind.asStr : RelationKind → String
  | .table => "table"
  | .view => "view"
  | .materializedView => "materialized_view"
  | .collection => "collection"
  | .index => "index"
  | .stream => "stream"
  | .keyPattern => "key_pattern"
  | .nodeLabel => "node_label"
  | .relationshipType => "relationship_type"
  | .function => "function"
  | .procedure => "procedure"
  | .sequence => "sequence"

/-- What a listing says of a relation. -/
structure RelationRef where
  parent : CatalogPath
  name : Segment
  kind : RelationKind
  comment : Option Str

/-- A relation nobody listed. -/
def RelationRef.validated (parent : CatalogPath) (name : Segment) (kind : RelationKind) :
    RelationRef :=
  ⟨parent, name, kind, none⟩

def RelationRef.path (r : RelationRef) : CatalogPath := { r.parent with relation := some r.name }

structure FieldOf (T : Type) where
  name : Str
  logicalType : T
  /-- The type as the server names it. -/
  rawType : Str
  nullable : Bool
  default : Option Str
  comment : Option Str
  isPrimaryKey : Bool
  /-- Was it deduced by sampling? -/
  inferred : Bool

inductive LogicalType where
  | array (inner : LogicalType)
  | struct (fields : List (FieldOf LogicalType))
  | scalar

abbrev Field := FieldOf LogicalType

structure Relation where
  kind : RelationKind
  comment : Option Str
  estimatedRows : Option Nat
  fields : List Field

def Relation.hasInferredSchema (r : Relation) : Bool := r.fields.any (·.inferred)

structure Index where
  name : Str
  fields : List Str
  unique : Bool
  method : Option Str
  predicate : Option Str

def Index.isPartial (index : Index) : Bool := index.predicate.isSome

inductive ReferentialAction where
  | noAction | restrict | cascade | setNull | setDefault
deriving DecidableEq, Repr

def ReferentialAction.asStr : ReferentialAction → String
  | .noAction => "no_action"
  | .restrict => "restrict"
  | .cascade => "cascade"
  | .setNull => "set_null"
  | .setDefault => "set_default"

structure ForeignKeyTarget where
  relation : CatalogPath
  fields : List Str

structure ForeignKey where
  name : Str
  fields : List Str
  references : ForeignKeyTarget
  onDelete : ReferentialAction

structure Constraint where
  name : Str

/-- A key of another relation that references this one. -/
structure IncomingForeignKey where
  source : CatalogPath
  key : ForeignKey

structure RelationDefinition where
  sql : Str
  notes : List Str

/-! ## How deep a type may nest -/

/-- The deepest a field's type is kept, the field itself being level 1. -/
def maxTypeDepth : Nat := 32

def LogicalType.cut : Nat → LogicalType → LogicalType
  | 0, _ => .scalar
  | _ + 1, .scalar => .scalar
  | levels + 1, .array inner => .array (inner.cut levels)
  | levels + 1, .struct fields =>
    .struct (fields.map fun field => { field with logicalType := field.logicalType.cut levels })

/-- Cuts every type nested past `maxTypeDepth`. -/
def bound (fields : List Field) : List Field :=
  fields.map fun field => { field with logicalType := field.logicalType.cut (maxTypeDepth - 1) }

end Oxyn.Catalog
