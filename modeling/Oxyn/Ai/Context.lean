/-
# `Oxyn.Ai.Context` — the single gateway: what reaches a prompt

`build` is the one function through which context enters a prompt.
-/
import Oxyn.Ai.Mentions

namespace Oxyn.Ai

open Text Catalog KeyPatterns

/-! ## What is asked for -/

structure ContextBuilder (outside : Outside) where
  cache : CatalogCache
  tier : PrivacyTier
  policy : ContextPolicy
  language : QueryLanguage
  focus : Str
  samples : List (RowSample outside.Value)
  mentions : List Mention
  /-- Are the mentions completed by search? -/
  fill : Bool
  semantic : SemanticScores
  /-- The conversation's fence, or a fresh one. -/
  fence : Fence

/-- The assembled context, ready to reach a prompt. -/
structure AgentContext where
  tier : PrivacyTier
  fence : Fence
  block : Str
  relations : List CatalogPath
  estimatedTokens : Nat
  omittedRelations : Nat
  droppedSamples : Nat
  ignoredMentions : Nat
  omittedMentions : Nat
  unloadedRelations : Nat
  unlistedSchemas : Nat

/-- What the budget let in so far: the text, its cost, what is described and what is not. -/
structure Filling where
  body : Str
  used : Nat
  kept : List CatalogPath
  omitted : Nat
  leftOut : List Str
  droppedSamples : Nat

/-- A text that was let in. -/
def Filling.admit (f : Filling) (chunk : Str) : Filling :=
  { f with body := f.body ++ chunk, used := f.used + estimateTokens chunk }

namespace ContextBuilder

variable {outside : Outside} (b : ContextBuilder outside)

def new (cache : CatalogCache) (tier : PrivacyTier) (fence : Fence) : ContextBuilder outside where
  cache := cache
  tier := tier
  policy := .default
  language := .sql .ansi
  focus := []
  samples := []
  mentions := []
  fill := true
  semantic := .new
  fence := fence

def naming : Naming := .forLanguage b.language

def mentioned : Resolved := resolveMentions b.cache b.tier b.naming b.mentions

def withholdsName (path : CatalogPath) : Bool :=
  (b.cache.relationSummary path).any fun listed => KeyPatterns.withholdsName b.tier listed.kind

/-- The relations to describe, under one ceiling. -/
def selectRelations : List CatalogPath :=
  select outside b.cache b.focus b.policy.maxRelations b.mentioned.relations b.fill b.semantic

/-- What is written whatever the budget: the server, the mentions, the keys. -/
def header : Str :=
  renderHeader b.cache b.policy b.language ++ b.mentioned.lines.flatten ++
    (if b.mentioned.lines.isEmpty then [] else ['\n']) ++ render b.cache b.tier b.naming

def headerCost : Nat := estimateTokens b.header

/-- A relation's description, or its name where the description alone exceeds the budget. -/
def relationChunk (path : CatalogPath) : Str :=
  let chunk := renderRelation b.cache b.policy path b.naming
  if b.policy.maxContextTokens < b.headerCost + estimateTokens chunk then
    renderOversized b.cache path b.naming
  else chunk

/-- Is there room for this text? -/
def fits (f : Filling) (chunk : Str) : Bool :=
  f.used + estimateTokens chunk ≤ b.policy.maxContextTokens

/-- One selected relation: described if there is room, else counted. -/
def addRelation (f : Filling) (path : CatalogPath) : Filling :=
  if b.withholdsName path then f
  else if b.fits f (b.relationChunk path) then
    { f.admit (b.relationChunk path) with kept := f.kept ++ [path] }
  else { f with omitted := f.omitted + 1 }

def nameMention (f : Filling) (path : CatalogPath) : Filling :=
  if f.kept.contains path then f
  else
    { f with
      omitted := if b.selectRelations.contains path then f.omitted else f.omitted + 1
      leftOut := f.leftOut ++ [renderOmittedRelation path b.naming] }

def addQuery (f : Filling) (query : Str × Str) : Filling :=
  let chunk := renderSavedQuery outside query.1 query.2
  if b.fits f chunk then f.admit chunk
  else { f with leftOut := f.leftOut ++ [renderOmittedQuery query.1] }

def addSample (f : Filling) (sample : RowSample outside.Value) : Filling :=
  let chunk := renderSample outside.showValue b.policy sample b.naming
  if b.fits f chunk then f.admit chunk else { f with droppedSamples := f.droppedSamples + 1 }

/-- Before any relation. -/
def start : Filling := ⟨b.header, b.headerCost, [], 0, [], 0⟩

def described : Filling := b.selectRelations.foldl b.addRelation b.start

def named : Filling := b.mentioned.relations.foldl b.nameMention b.described

def explained : Filling :=
  let f := b.mentioned.queries.foldl b.addQuery b.named
  { f with body := f.body ++ f.leftOut.flatten }

def filled : Filling :=
  if b.tier.allowsRowValues then b.samples.foldl b.addSample b.explained
  else { b.explained with droppedSamples := b.samples.length }

/-- What stands before the fence: counts only, and no name. -/
def summary (f : Filling) : Str :=
  let unloaded := (f.kept.filter fun path => (b.cache.relation path).isNone).length
  ("Database context — privacy tier `" ++ b.tier.asStr ++ "`: " ++ b.tier.describe ++
      ".\n").toList ++
    "Describing ".toList ++ decimal f.kept.length ++ " of ".toList ++
    decimal b.cache.relationCount ++ " known relations".toList ++
    (if 0 < f.omitted then
      " (".toList ++ decimal f.omitted ++
        (" more matched but did not fit the context budget; narrow the search rather than " ++
          "guessing)").toList
    else []) ++ ".\n".toList ++
    (if b.cache.isEmpty then
      "The catalog of this connection has not been read yet: no relation is known.\n".toList
    else []) ++
    (if 0 < unloaded then
      decimal unloaded ++
        " relations not loaded yet: their fields are unknown, do not guess them.\n".toList
    else []) ++
    (if 0 < b.cache.unlistedCount then
      decimal b.cache.unlistedCount ++
        " schemas not listed yet: their relations are not counted above.\n".toList
    else [])

/-- The block to insert in a prompt. -/
def block : Str := b.summary b.filled ++ b.fence.fence b.filled.body

def build : AgentContext where
  tier := b.tier
  fence := b.fence
  block := b.block
  relations := b.filled.kept
  estimatedTokens := estimateTokens b.block
  omittedRelations := b.filled.omitted
  droppedSamples := b.filled.droppedSamples
  ignoredMentions := b.mentioned.ignored
  omittedMentions := b.filled.leftOut.length
  unloadedRelations := (b.filled.kept.filter fun path => (b.cache.relation path).isNone).length
  unlistedSchemas := b.cache.unlistedCount

end ContextBuilder

end Oxyn.Ai
