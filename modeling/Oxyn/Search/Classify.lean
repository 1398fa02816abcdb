/-
# `Oxyn.Search.Classify` — what a search request does, and how destructive it is

Verbs lie in this API, so the request is read from its endpoint; an endpoint in no table is
unknown, hence mutating.
-/
import Oxyn.Core.Query
import Oxyn.Json.Value
import Oxyn.Search.Route

namespace Oxyn.Search

open Text Json List

variable {F : Type}

structure SearchRequest (F : Type) where
  method : Str
  path : Str
  body : Option (Json.Value F)
  text : Option Str
  ndjson : Bool

def isOneOf (names : List String) (s : Str) : Bool := names.any fun name => name.toList == s

/-! ## The endpoints -/

/-- The APIs that hold the structure of the cluster. -/
def structures : List String :=
  ["_mapping", "_alias", "_aliases", "_settings", "_index_template", "_component_template",
    "_template", "_data_stream", "_ilm", "_ingest", "_scripts", "_snapshot", "_slm", "_license",
    "_enrich", "_transform", "_ml", "_rollup", "_watcher", "_synonyms", "_plugins/_ism"]

def isStructure (endpoint : Str) : Bool := isOneOf structures endpoint

def searches : List String :=
  ["_count", "_msearch", "_mget", "_explain", "_validate", "_analyze", "_field_caps",
    "_termvectors", "_mtermvectors", "_search_shards", "_rank_eval", "_knn_search",
    "_terms_enum", "_render", "_sql", "_query"]

/-- What can be read, among the rest. -/
def monitored : List String :=
  ["_cat", "_stats", "_segments", "_recovery", "_shard_stores", "_resolve", "_health_report",
    "_remote", "_xpack"] ++ structures

def indexOperations : List String :=
  ["_open", "_close", "_clone", "_shrink", "_split", "_rollover", "_forcemerge", "_refresh",
    "_flush", "_cache", "_block", "_freeze", "_unfreeze", "_migrate", "_downsample", "_upgrade"]

def documentWrites : List String :=
  ["_doc", "_create", "_update", "_bulk", "_update_by_query", "_delete_by_query", "_reindex"]

def opensearchSqlReads (request : SearchRequest F) (rest : List Str) : Bool :=
  if rest.head? == some "_explain".toList then true
  else
    match (request.body.bind (Json.Value.get? "query".toList)).bind Json.Value.asStr with
    | none => false
    | some statement =>
      let keyword := (trimStart statement).takeWhile Char.isAlpha
      ["SELECT", "SHOW", "DESCRIBE"].any fun read => eqIgnoreAsciiCase keyword read.toList

def intentOn (request : SearchRequest F) (route : Route) : StatementIntent :=
  let reads := isOneOf ["GET", "HEAD"] request.method
  let posts := isOneOf ["POST"] request.method
  let searching := isOneOf ["GET", "HEAD", "POST"] request.method
  match route.endpoint with
  | none =>
    if reads then .read
    else if isOneOf ["PUT", "DELETE"] request.method then .ddl
    else .unknown
  | some (endpoint, rest) =>
    let is := fun names => isOneOf names endpoint
    let first := fun names => rest.head?.any (isOneOf names)
    let last := fun names => rest.getLast?.any (isOneOf names)
    if is ["_search", "_pit"] then
      if searching then .read
      else if isOneOf ["DELETE"] request.method &&
          ((is ["_pit"] && rest.isEmpty) ||
            (is ["_search"] && first ["scroll", "point_in_time"])) then .read
      else .unknown
    else if is searches then
      if searching then .read else .unknown
    else if is ["_plugins/_sql"] then
      if isOneOf ["GET", "POST"] request.method && opensearchSqlReads request rest then .read
      else .unknown
    else if is monitored && reads then .read
    else if is ["_cluster", "_nodes", "_tasks"] && reads then .read
    else if is ["_cluster"] && first ["allocation"] && posts then .read
    else if is ["_tasks"] && posts && last ["_cancel"] then .write
    else if is ["_disk_usage", "_field_usage_stats"] then .read
    else if isStructure endpoint && posts &&
        rest.any fun segment => "_simulate".toList.isPrefixOf segment then .read
    else if is ["_enrich"] && last ["_execute"] then .write
    else if isStructure endpoint then .ddl
    else if is ["_cluster", "_nodes"] then .ddl
    else if is indexOperations then .ddl
    else if is ["_doc", "_source"] && reads then .read
    else if is documentWrites then .write
    else if is ["_security", "_plugins/_security"] then
      if reads || last ["_has_privileges", "_authenticate"] ||
          first ["_has_privileges", "_authenticate"] then .read
      else .grant
    else .unknown

/-- Classifies a request conservatively: an unknown endpoint is mutating. -/
def statementIntent (request : SearchRequest F) : StatementIntent :=
  match Route.parse request.path with
  | none => .unknown
  | some route => intentOn request route

/-! ## Queries that match everything -/

/-- A text of the Lucene syntax recognized as matching all. -/
def matchesAllText (text : Str) : Bool := isOneOf ["", "*", "*:*"] (trim text)

/-- A clause list, in either of its forms: one object, or an array of them. -/
def clauses : Option (Json.Value F) → List (Json.Value F)
  | none => []
  | some (.array items) => items
  | some item => [item]

theorem sizeOf_clauses {given : Option (Json.Value F)} {c : Json.Value F} (h : c ∈ clauses given) :
    ∃ v, given = some v ∧ sizeOf c ≤ sizeOf v := by
  cases given with
  | none => exact absurd h not_mem_nil
  | some v =>
    refine ⟨v, rfl, ?_⟩
    cases v with
    | array items =>
      have := sizeOf_lt_of_mem (show c ∈ items from h)
      rw [Json.Value.array.sizeOf_spec]
      omega
    | _ => rw [mem_singleton.mp h]

theorem sizeOf_clause {name : Str} {fields : List (Str × Json.Value F)} {c : Json.Value F}
    (h : c ∈ clauses (field name fields)) : sizeOf c < sizeOf fields := by
  obtain ⟨v, hv, hle⟩ := sizeOf_clauses h
  exact Nat.lt_of_le_of_lt hle (sizeOf_field hv)

theorem sizeOf_clause_get? {name : Str} {body c : Json.Value F} (h : c ∈ clauses (body.get? name)) :
    sizeOf c < sizeOf body := by
  obtain ⟨v, hv, hle⟩ := sizeOf_clauses h
  exact Nat.lt_of_le_of_lt hle (Json.Value.sizeOf_get? hv)

mutual

/-- Whether a clause may match every document.  A shape that is not read may. -/
def matchesEverything (query : Json.Value F) : Bool :=
  match query with
  | .object [(kind, body)] =>
    if kind = "match_all".toList then true
    else if kind = "bool".toList then
      match body with
      | .object fields => boolMatchesEverything fields
      | _ => true
    else if kind = "constant_score".toList then innerMatchesEverything "filter".toList body
    else if kind = "function_score".toList ∨ kind = "script_score".toList then
      innerMatchesEverything "query".toList body
    else if kind = "boosting".toList then innerMatchesEverything "positive".toList body
    else if kind = "dis_max".toList then
      (clauses (body.get? "queries".toList)).attach.any fun ⟨c, _⟩ => matchesEverything c
    else if kind = "query_string".toList ∨ kind = "simple_query_string".toList then
      ((body.get? "query".toList).bind Json.Value.asStr).all matchesAllText
    else false
  | _ => true
termination_by sizeOf query
decreasing_by
  all_goals try have := sizeOf_clause_get? ‹_ ∈ clauses _›
  all_goals simp only [Json.Value.object.sizeOf_spec, List.cons.sizeOf_spec, Prod.mk.sizeOf_spec]
  all_goals omega

/-- The clause in a field of a wrapper, if there is one. -/
def innerMatchesEverything (name : Str) (body : Json.Value F) : Bool :=
  match _ : body.get? name with
  | none => true
  | some inner => matchesEverything inner
termination_by sizeOf body
decreasing_by exact Json.Value.sizeOf_get? ‹_›

/-- Next to a `must` or a `filter`, `should` clauses only score, unless a `minimum_should_match`
makes them required. -/
def boolMatchesEverything (fields : List (Str × Json.Value F)) : Bool :=
  let must := clauses (field "must".toList fields)
  let filter := clauses (field "filter".toList fields)
  let mustNot := clauses (field "must_not".toList fields)
  let should := clauses (field "should".toList fields)
  let required :=
    (clauses (field "must".toList fields)).attach.all (fun ⟨c, _⟩ => matchesEverything c) &&
      (clauses (field "filter".toList fields)).attach.all fun ⟨c, _⟩ => matchesEverything c
  let shouldRequired := (field "minimum_should_match".toList fields).isSome ||
    (must.isEmpty && filter.isEmpty)
  let shouldRestricts := shouldRequired && !should.isEmpty &&
    !(clauses (field "should".toList fields)).attach.any fun ⟨c, _⟩ => matchesEverything c
  required && mustNot.isEmpty && !shouldRestricts
termination_by sizeOf fields
decreasing_by
  all_goals exact sizeOf_clause ‹_›

end

/-- Does a by-query request possibly match every document of its target?  An absent query does. -/
def unboundedQuery (request : SearchRequest F) (route : Route) : Bool :=
  match route.parameter "q".toList with
  | some q => matchesAllText q
  | none => (request.body.bind (Json.Value.get? "query".toList)).all matchesEverything

def mutationRisk (request : SearchRequest F) : MutationRisk :=
  match Route.parse request.path with
  | none => .none
  | some route =>
    match intentOn request route with
    | .read | .unknown => .none
    | .write | .ddl | .grant =>
      match route.endpoint with
      | none => if isOneOf ["DELETE"] request.method then .dropObject else .none
      | some (endpoint, rest) =>
        if isOneOf ["_delete_by_query"] endpoint && unboundedQuery request route then
          .unboundedDelete
        else if isOneOf ["_update_by_query"] endpoint && unboundedQuery request route then
          .unboundedUpdate
        else if isOneOf ["_close"] endpoint then .dropObject
        else if isOneOf ["DELETE"] request.method && isStructure endpoint &&
            !rest.isEmpty then .dropObject
        else .none

end Oxyn.Search
