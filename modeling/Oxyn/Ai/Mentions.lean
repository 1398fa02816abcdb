/-
# `Oxyn.Ai.Mentions` — what the user named, and how it comes in through the gate

A mention imposes an object on the context.  Its address is checked and not believed: what the
cache does not know is dropped and counted, and a column is looked up in the description that was
read.
-/
import Oxyn.Ai.Wanted

namespace Oxyn.Ai

open Text Catalog KeyPatterns

/-! ## Mentions -/

/-- Maximum number of mentions kept for one question. -/
def maxMentions : Nat := 16

def maxSavedQueryChars : Nat := 4000

def maxTitleChars : Nat := 120

inductive Mention where
  /-- A relation, and one of its columns if the user named one. -/
  | relation (path : CatalogPath) (field : Option Str)
  /-- A query the user saved. -/
  | savedQuery (title text : Str)

/-- The mentions, once checked against the cache. -/
structure Resolved where
  /-- To describe first, without duplicates, in input order. -/
  relations : List CatalogPath
  lines : List Str
  queries : List (Str × Str)
  /-- Unknown to the cache, or too many. -/
  ignored : Nat

namespace Resolved

def start (mentions : List Mention) : Resolved := ⟨[], [], [], mentions.length - maxMentions⟩

def say (r : Resolved) (line : Str) : Resolved :=
  if r.lines.contains line then r else { r with lines := r.lines ++ [line] }

def add (r : Resolved) (path : CatalogPath) : Resolved :=
  if r.relations.contains path then r else { r with relations := r.relations ++ [path] }

def ignore (r : Resolved) : Resolved := { r with ignored := r.ignored + 1 }

end Resolved

/-- A key whose name stays home. -/
def withheldLine (tier : PrivacyTier) (kind : RelationKind) : Str :=
  ("mentioned by the user: a " ++ kind.asStr ++ " whose name is withheld under privacy tier `" ++
    tier.asStr ++ "`\n").toList

def relationLine (naming : Naming) (kind : RelationKind) (path : CatalogPath) : Str :=
  "mentioned by the user: ".toList ++ kind.asStr.toList ++ [' '] ++ naming.path path ++ ['\n']

def fieldLine (naming : Naming) (kind : RelationKind) (path : CatalogPath) (name : Str) : Str :=
  "mentioned by the user: field ".toList ++ naming.name name ++ " of ".toList ++
    kind.asStr.toList ++ [' '] ++ naming.path path ++ ['\n']

/-- Does the description that was read list this column? -/
def listsField (cache : CatalogCache) (path : CatalogPath) (name : Str) : Bool :=
  (cache.relation path).any fun relation => relation.fields.any fun known => known.name = name

/-- What a mention says; nothing for a column that the description does not list. -/
def mentionLine (cache : CatalogCache) (naming : Naming) (kind : RelationKind)
    (path : CatalogPath) : Option Str → Option Str
  | none => some (relationLine naming kind path)
  | some name => if listsField cache path name then some (fieldLine naming kind path name) else none

section Resolving

variable (cache : CatalogCache) (tier : PrivacyTier) (naming : Naming)

def resolveMention (r : Resolved) : Mention → Resolved
  | .savedQuery title text => { r with queries := r.queries ++ [(title, text)] }
  | .relation path field =>
    match kindOf cache path with
    | none => r.ignore
    | some kind =>
      if withholdsName tier kind then r.say (withheldLine tier kind)
      else
        match mentionLine cache naming kind path field with
        | some line => (r.say line).add path
        | none => r.ignore

def resolveMentions (mentions : List Mention) : Resolved :=
  (mentions.take maxMentions).foldl (resolveMention cache tier naming) (.start mentions)

end Resolving

def mentionedRelations (cache : CatalogCache) (mentions : List Mention) : List CatalogPath :=
  (mentions.take maxMentions).foldl
    (fun mentioned mention =>
      match mention with
      | .savedQuery .. => mentioned
      | .relation path _ =>
        if (cache.relationSummary path).isSome && !mentioned.contains path then
          mentioned ++ [path]
        else mentioned)
    []

/-- The relations the gate would describe, in its order, for a build given scores. -/
def wantedRelationsRanked (outside : Outside) (cache : CatalogCache) (policy : ContextPolicy)
    (focus : Str) (mentions : List Mention) (fill : Bool) (semantic : SemanticScores) :
    List CatalogPath :=
  select outside cache focus policy.maxRelations (mentionedRelations cache mentions) fill semantic

/-! ## Saved queries, and what did not fit -/

/-- `str::lines`. -/
def linesOf (text : Str) : List Str :=
  let pieces := text.splitOn '\n'
  (if pieces.getLast? = some [] then pieces.dropLast else pieces).map fun line =>
    if line.getLast? = some '\r' then line.dropLast else line

def jsonTitle (title : Str) : Str := jsonLiteral (sanitizeInline title maxTitleChars)

def renderSavedQuery (outside : Outside) (title text : Str) : Str :=
  "saved query ".toList ++ jsonTitle title ++
    " (written in the user's workspace, not read from the database):\n".toList ++
    (linesOf (sanitizeClamped (outside.redactAnyLanguage text) maxSavedQueryChars)).flatMap
      (fun line => "    ".toList ++ line ++ ['\n']) ++ ['\n']

def renderOmittedQuery (title : Str) : Str :=
  "mentioned by the user but not included, over the context budget: saved query ".toList ++
    jsonTitle title ++ ['\n']

def renderOmittedRelation (path : CatalogPath) (naming : Naming) : Str :=
  "mentioned by the user but not described, over the context budget: ".toList ++
    naming.path path ++ ['\n']

end Oxyn.Ai
