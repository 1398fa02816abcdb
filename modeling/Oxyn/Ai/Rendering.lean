/-
# `Oxyn.Ai.Rendering` — a relation and a sample, as a prompt shows them

The rendering knows the catalog's common model and no product.  Every name is written by `Naming`;
every other text of the server is cleaned, bounded and folded onto one line.
-/
import Oxyn.Ai.Naming
import Oxyn.Ai.Privacy
import Oxyn.Catalog.Listing

namespace Oxyn.Ai

open Text Catalog

/-! ## Bounds -/

/-- Bytes counted per token. -/
def charsPerToken : Nat := 4

def maxCommentChars : Nat := 200

def maxSampleValueChars : Nat := 64

def maxTypeChars : Nat := 64

/-- The fields of the relation are the first level. -/
def maxFieldDepth : Nat := 4

def estimateTokens (text : Str) : Nat := (size text + (charsPerToken - 1)) / charsPerToken

/-- How much schema an agent needs to see, and in what form. -/
structure ContextPolicy where
  maxContextTokens : Nat
  maxRelations : Nat
  maxFieldsPerRelation : Nat
  includeServerInfo : Bool
  includeIndexes : Bool
  includeForeignKeys : Bool
  includeComments : Bool
  maxSampleRows : Nat

def ContextPolicy.default : ContextPolicy := ⟨6000, 24, 64, true, true, true, true, 5⟩

def decimal (n : Nat) : Str := Nat.toDigits 10 n

/-! ## The header -/

def renderHeader (cache : CatalogCache) (policy : ContextPolicy) (language : QueryLanguage) : Str :=
  (match policy.includeServerInfo, cache.serverInfo with
    | true, some info =>
      "server: ".toList ++ sanitizeInline info.product maxTypeChars ++ [' '] ++
        sanitizeInline info.version maxTypeChars ++ "\ncapabilities: ".toList ++
        info.capabilities.display ++ ['\n']
    | _, _ => []) ++
  (match language with
    | .sql dialect =>
      "query language: sql (dialect: ".toList ++ dialect.asStr.toList ++ ")\n".toList
    | other => "query language: ".toList ++ other.display.toList ++ ['\n']) ++ ['\n']

/-! ## Fields -/

def nestedFields : LogicalType → List Field
  | .struct fields => fields
  | .array inner => nestedFields inner
  | .scalar => []

/-- Fields left aside: how many, and whether the count is incomplete. -/
structure OmittedFields where
  count : Nat
  uncounted : Bool
deriving DecidableEq

namespace OmittedFields

def default : OmittedFields := ⟨0, false⟩

def one (o : OmittedFields) : OmittedFields := { o with count := o.count + 1 }

def absorb (o other : OmittedFields) : OmittedFields :=
  ⟨o.count + other.count, o.uncounted || other.uncounted⟩

end OmittedFields

/-- How many subfields a type carries, over at most so many levels. -/
def countNested (logical : LogicalType) : Nat → OmittedFields
  | 0 => if (nestedFields logical).isEmpty then .default else ⟨0, true⟩
  | below + 1 =>
    (nestedFields logical).foldl
      (fun tally field => tally.one.absorb (countNested field.logicalType below)) .default

def renderField (policy : ContextPolicy) (naming : Naming) (field : Field) : Str :=
  let raw := trim field.rawType
  naming.name field.name ++ [' '] ++
    (if raw.isEmpty then "unknown".toList else sanitizeInline raw maxTypeChars) ++
    (if field.nullable then [] else " not null".toList) ++
    (if field.isPrimaryKey then " primary key".toList else []) ++
    (if field.inferred then " (inferred)".toList else []) ++
    (match field.default with
      | some default => " default ".toList ++ sanitizeInline default maxSampleValueChars
      | none => []) ++
    (match policy.includeComments, field.comment with
      | true, some comment => " — ".toList ++ sanitizeInline comment maxCommentChars
      | _, _ => [])

/-- What a list of fields has written, the number of fields it may still write, and what it
left aside. -/
structure FieldLines where
  out : Str
  budget : Nat
  hidden : OmittedFields

/-- A list of fields; `deeper` says how many levels are written below this one. -/
def renderFieldList (policy : ContextPolicy) (naming : Naming) (deeper : Nat) (fields : List Field)
    (start : FieldLines) : FieldLines :=
  fields.foldl
    (fun lines field =>
      if lines.budget = 0 then
        { lines with
          hidden := lines.hidden.one.absorb (countNested field.logicalType maxFieldDepth) }
      else
        let written : FieldLines :=
          ⟨lines.out ++ List.replicate (2 * (maxFieldDepth - deeper + 1)) ' ' ++
              renderField policy naming field ++ ['\n'],
            lines.budget - 1, lines.hidden⟩
        match deeper with
        | 0 =>
          { written with
            hidden := (nestedFields field.logicalType).foldl
              (fun hidden sub =>
                hidden.one.absorb (countNested sub.logicalType maxFieldDepth)) written.hidden }
        | below + 1 =>
          renderFieldList policy naming below (nestedFields field.logicalType) written)
    start

def renderFields (policy : ContextPolicy) (naming : Naming) (relation : Relation) : Str :=
  if relation.fields.isEmpty then "  no fields known\n".toList
  else
    let lines := renderFieldList policy naming (maxFieldDepth - 1) relation.fields
      ⟨[], policy.maxFieldsPerRelation, .default⟩
    "  fields:\n".toList ++ lines.out ++
      if lines.hidden.uncounted then
        "    … more fields omitted (too deeply nested to count)\n".toList
      else if 0 < lines.hidden.count then
        "    … ".toList ++ decimal lines.hidden.count ++ " more fields omitted\n".toList
      else []

/-! ## Relations -/

def renderIndex (naming : Naming) (index : Index) : Str :=
  "  ".toList ++ (if index.unique then "unique ".toList else []) ++ "index ".toList ++
    naming.name index.name ++
    (match index.method with
      | some method => " using ".toList ++ sanitizeInline method maxTypeChars
      | none => []) ++
    " (".toList ++ naming.list index.fields ++ [')'] ++
    (if index.isPartial then " (partial)".toList else []) ++ ['\n']

def renderForeignKey (naming : Naming) (key : ForeignKey) : Str :=
  "  foreign key ".toList ++ naming.name key.name ++ " (".toList ++ naming.list key.fields ++
    ") references ".toList ++ naming.path key.references.relation ++ " (".toList ++
    naming.list key.references.fields ++ ") on delete ".toList ++ key.onDelete.asStr.toList ++
    ['\n']

/-- The kind of a relation: its description says it first, then its listing. -/
def kindOf (cache : CatalogCache) (path : CatalogPath) : Option RelationKind :=
  ((cache.relation path).map (·.kind)).or ((cache.relationSummary path).map (·.kind))

def kindLabel (cache : CatalogCache) (path : CatalogPath) : Str :=
  ((kindOf cache path).elim "relation" RelationKind.asStr).toList

/-- The comment of a relation: its description says it first, then its listing. -/
def commentOf (cache : CatalogCache) (path : CatalogPath) : Option Str :=
  ((cache.relation path).bind (·.comment)).or ((cache.relationSummary path).bind (·.comment))

/-- What a description says of the relation as a whole. -/
def renderFacts (relation : Relation) : Str :=
  (match relation.estimatedRows with
    | some rows => "  estimated rows: ".toList ++ decimal rows ++ ['\n']
    | none => []) ++
  if relation.hasInferredSchema then
    "  schema inferred by sampling; the server did not declare it\n".toList
  else []

def renderDetails (cache : CatalogCache) (policy : ContextPolicy) (path : CatalogPath)
    (naming : Naming) : Str :=
  (if policy.includeIndexes then
    ((cache.indexes path).getD []).flatMap (renderIndex naming) else []) ++
  if policy.includeForeignKeys then
    ((cache.foreignKeys path).getD []).flatMap (renderForeignKey naming) else []

/-- Describes a relation: what the catalog knows of it, and nothing else. -/
def renderRelation (cache : CatalogCache) (policy : ContextPolicy) (path : CatalogPath)
    (naming : Naming) : Str :=
  let detail := cache.relation path
  kindLabel cache path ++ [' '] ++ naming.path path ++ ['\n'] ++
    (detail.elim [] renderFacts) ++
    (match policy.includeComments, commentOf cache path with
      | true, some text => "  comment: ".toList ++ sanitizeInline text maxCommentChars ++ ['\n']
      | _, _ => []) ++
    match detail with
    | none => "  fields not read yet\n\n".toList
    | some relation =>
      renderFields policy naming relation ++ renderDetails cache policy path naming ++ ['\n']

/-- Names a relation whose description alone exceeds the budget. -/
def renderOversized (cache : CatalogCache) (path : CatalogPath) (naming : Naming) : Str :=
  kindLabel cache path ++ [' '] ++ naming.path path ++
    ("\n  object too large to describe within the context budget; its fields are not shown, " ++
      "and searching again will not change that\n\n").toList

/-! ## Samples -/

/-- Rows the user approved, of the columns they ticked. -/
structure RowSample (V : Type) where
  relation : CatalogPath
  columns : List Str
  rows : List (List V)

section Samples

variable {V : Type} (showValue : V → Str)

def renderRow (row : List V) : Str :=
  "  row: ".toList ++
    List.intercalate " | ".toList
      (row.map fun value => sanitizeInline (showValue value) maxSampleValueChars) ++ ['\n']

def renderSample (policy : ContextPolicy) (sample : RowSample V) (naming : Naming) : Str :=
  "row sample approved by the user for ".toList ++ naming.path sample.relation ++
    "\n  columns: ".toList ++ naming.list sample.columns ++ ['\n'] ++
    (sample.rows.take policy.maxSampleRows).flatMap (renderRow showValue) ++
    (if 0 < sample.rows.length - policy.maxSampleRows then
      "  ".toList ++ decimal (sample.rows.length - policy.maxSampleRows) ++
        " more approved rows not shown\n".toList
    else []) ++ ['\n']

end Samples

end Oxyn.Ai
