/-
# `Oxyn.Mongo.Command` — what a MongoDB command does

A command is one document and its first key is its name.  A name in no table is unknown, hence
mutating; a listed read that holds a write stage writes, and server-side JavaScript is no read.
-/
import Oxyn.Core.Query
import Oxyn.Json.Value

namespace Oxyn.Mongo

open Text Json

variable {F : Type}

/-! ## The tables -/

def reads : List String :=
  ["aggregate", "count", "distinct", "find", "getMore", "listCollections", "listIndexes",
    "listDatabases", "dbStats", "collStats", "dataSize", "dbHash", "buildInfo", "hello", "ping",
    "serverStatus", "connectionStatus", "hostInfo", "whatsmyuri", "listCommands",
    "getCmdLineOpts", "getLog", "getParameter", "getDefaultRWConcern", "getClusterParameter",
    "usersInfo", "rolesInfo", "replSetGetStatus", "replSetGetConfig", "currentOp", "lockInfo",
    "top", "connPoolStats", "shardConnPoolStats", "listShards", "balancerStatus", "getShardMap",
    "shardingState", "isdbgrid", "planCacheListFilters"]

/-- Commands that write documents. -/
def writes : List String := ["insert", "update", "delete", "findAndModify", "bulkWrite"]

/-- Commands that change structure. -/
def ddl : List String :=
  ["create", "drop", "dropDatabase", "createIndexes", "dropIndexes", "renameCollection",
    "collMod", "convertToCapped", "cloneCollectionAsCapped", "compact", "reIndex",
    "createSearchIndexes", "dropSearchIndex", "updateSearchIndex"]

def grants : List String :=
  ["createUser", "dropUser", "updateUser", "dropAllUsersFromDatabase", "grantRolesToUser",
    "revokeRolesFromUser", "createRole", "dropRole", "updateRole", "dropAllRolesFromDatabase",
    "grantPrivilegesToRole", "revokePrivilegesFromRole", "grantRolesToRole",
    "revokeRolesFromRole"]

/-- Commands that end a transaction. -/
def transactionVerbs : List String := ["commitTransaction", "abortTransaction"]

def writeStages : List String := ["$out", "$merge"]

/-- Operators that run JavaScript on the server. -/
def javascript : List String := ["$where", "$function", "$accumulator"]

def contains (names : List String) (s : Str) : Bool := names.any fun name => name.toList == s

/-! ## Keys at every depth -/

mutual

def hasKeyAnywhere (wanted : List String) : Json.Value F → Option Str
  | .object entries => hasKeyInEntries wanted entries
  | .array items => hasKeyInItems wanted items
  | _ => none

def hasKeyInEntries (wanted : List String) : List (Str × Json.Value F) → Option Str
  | [] => none
  | (key, value) :: rest =>
    if contains wanted key then some key
    else (hasKeyAnywhere wanted value).or (hasKeyInEntries wanted rest)

def hasKeyInItems (wanted : List String) : List (Json.Value F) → Option Str
  | [] => none
  | item :: rest => (hasKeyAnywhere wanted item).or (hasKeyInItems wanted rest)

end

/-- `key` is an object key somewhere in this value. -/
inductive HasKey (key : Str) : Json.Value F → Prop
  | here {entries : List (Str × Json.Value F)} {value : Json.Value F} :
      (key, value) ∈ entries → HasKey key (.object entries)
  | entry {entries : List (Str × Json.Value F)} {name : Str} {value : Json.Value F} :
      (name, value) ∈ entries → HasKey key value → HasKey key (.object entries)
  | item {items : List (Json.Value F)} {value : Json.Value F} :
      value ∈ items → HasKey key value → HasKey key (.array items)

variable {wanted : List String}

theorem hasKeyInEntries_eq_none {entries : List (Str × Json.Value F)} :
    hasKeyInEntries wanted entries = none ↔
      ∀ e ∈ entries, contains wanted e.1 = false ∧ hasKeyAnywhere wanted e.2 = none := by
  induction entries with
  | nil => simp [hasKeyInEntries]
  | cons e rest ih =>
    rw [hasKeyInEntries, List.forall_mem_cons, ← ih]
    cases hkey : contains wanted e.1 <;> simp

theorem hasKeyInItems_eq_none {items : List (Json.Value F)} :
    hasKeyInItems wanted items = none ↔ ∀ v ∈ items, hasKeyAnywhere wanted v = none := by
  induction items with
  | nil => simp [hasKeyInItems]
  | cons v rest ih => rw [hasKeyInItems, List.forall_mem_cons, ← ih, Option.or_eq_none_iff]

theorem not_hasKey {key : Str} (hkey : contains wanted key = true) {v : Json.Value F}
    (h : hasKeyAnywhere wanted v = none) : ¬ HasKey key v := by
  intro hhas
  induction hhas with
  | here hmem =>
    have hno := (hasKeyInEntries_eq_none.mp (by rwa [hasKeyAnywhere] at h) _ hmem).1
    rw [hkey] at hno
    cases hno
  | entry hmem _ ih =>
    exact ih (hasKeyInEntries_eq_none.mp (by rwa [hasKeyAnywhere] at h) _ hmem).2
  | item hmem _ ih => exact ih (hasKeyInItems_eq_none.mp (by rwa [hasKeyAnywhere] at h) _ hmem)

/-! ## The reading of a command -/

/-- What the reading asks of the standard library. -/
structure Outside (F : Type) where
  /-- `(x - 1.0).abs() < f64::EPSILON`. -/
  isNearOne : F → Bool
  escapeDebug : Str → Str

/-- A filter that matches every document: absent or `{}`. -/
def selectsEverything : Option (Json.Value F) → Bool
  | none => true
  | some (.object []) => true
  | _ => false

/-- `multi` absent or literally `false`. -/
def isFalse : Option (Json.Value F) → Bool
  | none => true
  | some (.bool false) => true
  | _ => false

/-- A `limit` that is literally the number one, in any of its spellings. -/
def isOne (o : Outside F) : Option (Json.Value F) → Bool
  | some (.number (.negative n)) => n == 1
  | some (.number (.unsigned n)) => n == 1
  | some (.number (.float x)) => o.isNearOne x
  | _ => false

def statements (key : String) (document : Json.Value F) : List (Json.Value F) :=
  match document.get? key.toList with
  | some (.array items) => items
  | _ => []

def writeRisk (o : Outside F) (name : Str) (document : Json.Value F) : MutationRisk :=
  if name = "delete".toList then
    if (statements "deletes" document).any fun s =>
        selectsEverything (s.get? "q".toList) && !isOne o (s.get? "limit".toList) then
      .unboundedDelete
    else .none
  else if name = "update".toList then
    if (statements "updates" document).any fun s =>
        selectsEverything (s.get? "q".toList) && !isFalse (s.get? "multi".toList) then
      .unboundedUpdate
    else .none
  else if name = "bulkWrite".toList then
    let unbounded := fun verb : String => (statements "ops" document).any fun op =>
      (op.get? verb.toList).isSome && selectsEverything (op.get? "filter".toList) &&
        !isFalse (op.get? "multi".toList)
    if unbounded "delete" then .unboundedDelete
    else if unbounded "update" then .unboundedUpdate
    else .none
  else .none

/-- What a command does, and on what the reading rests. -/
structure Reading where
  intent : StatementIntent
  risk : MutationRisk
  certain : Bool
  note : Option Str

namespace Reading

def known (intent : StatementIntent) (risk : MutationRisk) : Reading := ⟨intent, risk, true, none⟩

def unknown (note : Str) : Reading := ⟨.unknown, .none, false, some note⟩

def orWrite (reading : Reading) (document : Json.Value F) : Reading :=
  if reading.intent = .read ∧ (hasKeyAnywhere writeStages document).isSome then
    .known .write .none
  else reading

end Reading

def ddlRisk (name : Str) : MutationRisk :=
  if contains ["drop", "dropDatabase", "dropIndexes", "dropSearchIndex"] name then .dropObject
  else .none

/-- `usersInfo` that would return credential hashes. -/
def asksCredentials (name : Str) (document : Json.Value F) : Bool :=
  name == "usersInfo".toList && !isFalse (document.get? "showCredentials".toList)

def readCommand (o : Outside F) : Json.Value F → Reading
  | .object [] => .unknown "a command names itself with its first key".toList
  | .object ((name, body) :: rest) =>
    let document := .object ((name, body) :: rest)
    match hasKeyAnywhere javascript document with
    | some operator =>
      .unknown ("`".toList ++ operator ++
        "` runs JavaScript on the server: Oxyn cannot prove it only reads".toList)
    | none =>
      if asksCredentials name document then
        .unknown "`usersInfo` with `showCredentials` returns credential hashes".toList
      else if name = "explain".toList then (readCommand o body).orWrite document
      else if contains reads name then (Reading.known .read .none).orWrite document
      else if contains writes name then
        (Reading.known .write (writeRisk o name document)).orWrite document
      else if contains ddl name then (Reading.known .ddl (ddlRisk name)).orWrite document
      else if contains grants name then (Reading.known .grant .none).orWrite document
      else if contains transactionVerbs name then (Reading.known .read .none).orWrite document
      else
        .unknown ("`".toList ++ o.escapeDebug name ++
          "` is not a command Oxyn knows the effect of".toList)
  | _ => .unknown "a command is a JSON object".toList

/-! ## What a read is -/

def innermost : Json.Value F → Json.Value F
  | .object ((name, body) :: rest) =>
    if name = "explain".toList then innermost body else .object ((name, body) :: rest)
  | document => document

/-- The innermost command is listed as a read or ends a transaction, and no credentials are asked of
it. -/
def ReadsInside (document : Json.Value F) : Prop :=
  ∃ name body rest, innermost document = .object ((name, body) :: rest) ∧
    (contains reads name = true ∨ contains transactionVerbs name = true) ∧
    asksCredentials name (innermost document) = false

/-- An `explain` around a document, with these other fields. -/
def explained (extras : List (Str × Json.Value F)) (document : Json.Value F) : Json.Value F :=
  .object (("explain".toList, document) :: extras)

variable {o : Outside F}

theorem eq_read_of_not_isMutating {i : StatementIntent} (h : ¬ i.isMutating = true) :
    i = .read := by
  cases i <;> simp [StatementIntent.isMutating] at h ⊢

variable {document : Json.Value F}

theorem orWrite_read {reading : Reading} (h : (reading.orWrite document).intent = .read) :
    reading.intent = .read ∧ hasKeyAnywhere writeStages document = none := by
  unfold Reading.orWrite at h
  split_ifs at h with hwrites
  · cases h
  · exact ⟨h, by simpa [h] using hwrites⟩

/-- A command judged a read: no key searched for is anywhere in it, and it explains a read or
is listed as one. -/
theorem readCommand_read (h : (readCommand o document).intent = .read) :
    hasKeyAnywhere javascript document = none ∧ hasKeyAnywhere writeStages document = none ∧
      ∃ name body rest, document = .object ((name, body) :: rest) ∧
        asksCredentials name document = false ∧
        (name = "explain".toList ∧ (readCommand o body).intent = .read ∨
          name ≠ "explain".toList ∧
            (contains reads name = true ∨ contains transactionVerbs name = true)) := by
  unfold readCommand at h
  split at h
  · cases h
  · next name body rest =>
    simp only at h
    split at h
    · cases h
    · next hjs =>
      split_ifs at h with hasks hexplain hreads hwrites hddl hgrants hverbs
      · cases h
      · have ⟨hbody, hstages⟩ := orWrite_read h
        exact ⟨hjs, hstages, name, body, rest, rfl, by simpa using hasks, .inl ⟨hexplain, hbody⟩⟩
      · exact ⟨hjs, (orWrite_read h).2, name, body, rest, rfl, by simpa using hasks,
          .inr ⟨hexplain, .inl hreads⟩⟩
      · cases (orWrite_read h).1
      · cases (orWrite_read h).1
      · cases (orWrite_read h).1
      · exact ⟨hjs, (orWrite_read h).2, name, body, rest, rfl, by simpa using hasks,
          .inr ⟨hexplain, .inr hverbs⟩⟩
      · cases h
  · cases h

theorem read_of_explained {extras : List (Str × Json.Value F)}
    (h : (readCommand o (explained extras document)).intent = .read) :
    (readCommand o document).intent = .read := by
  obtain ⟨-, -, name, body, rest, hdoc, -, hcase⟩ := readCommand_read h
  cases hdoc
  rcases hcase with ⟨-, hbody⟩ | ⟨hne, -⟩
  · exact hbody
  · exact absurd rfl hne

theorem readsInside_of_read (document : Json.Value F)
    (h : (readCommand o document).intent = .read) : ReadsInside document := by
  obtain ⟨-, -, name, body, rest, rfl, hasks, hcase⟩ := readCommand_read h
  rcases hcase with ⟨hexplain, hbody⟩ | ⟨hne, hlisted⟩
  · have hinside := readsInside_of_read body hbody
    unfold ReadsInside at hinside ⊢
    rwa [innermost, if_pos hexplain]
  · have hinner : innermost (.object ((name, body) :: rest)) = .object ((name, body) :: rest) := by
      rw [innermost, if_neg hne]
    exact ⟨name, body, rest, hinner, hlisted, by rwa [hinner]⟩
termination_by sizeOf document

/-- A read verdict is sound at every depth, and no explain around a document makes it one. -/
theorem read_is_sound (o : Outside F) (document : Json.Value F) :
    ((readCommand o document).intent = .read → ReadsInside document ∧
      ∀ key, contains writeStages key = true ∨ contains javascript key = true →
        ¬ HasKey key document) ∧
    ∀ wrappers : List (List (Str × Json.Value F)),
      (readCommand o document).intent.isMutating = true →
      (readCommand o (wrappers.foldr explained document)).intent.isMutating = true := by
  refine ⟨fun h => ⟨readsInside_of_read document h, ?_⟩, fun wrappers h => ?_⟩
  · obtain ⟨hjs, hstages, -⟩ := readCommand_read h
    rintro key (hkey | hkey)
    · exact not_hasKey hkey hstages
    · exact not_hasKey hkey hjs
  · induction wrappers with
    | nil => exact h
    | cons extras wrappers ih =>
      by_contra hread
      have hinner := read_of_explained (eq_read_of_not_isMutating hread)
      rw [hinner] at ih
      cases ih

/-- A count explained twice, with a field beside it. -/
theorem explained_count_reads :
    ReadsInside (explained [("verbosity".toList, .string "queryPlanner".toList)]
      (explained [] (.object [("count".toList, .string "users".toList)] : Json.Value Unit))) :=
  ((read_is_sound ⟨fun _ => false, id⟩ _).1 (by decide)).1

end Oxyn.Mongo
