/-
# `Oxyn.Store.Documents` — query documents, their working copy and their named copy

A document is one row: a working copy and a named copy, each with its revision.  A close or a
deletion moves both revisions, so that a draft or a save that comes late finds them past its own.
-/
import Oxyn.Core.Query
import Oxyn.Store.Error
import Oxyn.Lib.Latest
import Oxyn.Lib.Runs

namespace Oxyn.Store

open Text Fallible

/-! ## The data -/

abbrev WorkspaceId := Nat

structure QueryDocumentUpdate where
  revision : Nat
  expectedRevision : Option Nat
  title : Str
  language : QueryLanguage
  text : Str
  connection : Option Nat
  saveNamed : Bool
  isOpen : Bool
  /-- Its JSON text. -/
  provenance : Option Str

def maxQueryDocumentBytes : Nat := 1024 * 1024

def maxProvenanceBytes : Nat := 512

structure Document where
  workspace : WorkspaceId
  title : Str
  language : QueryLanguage
  content : Str
  connection : Option Nat
  revision : Nat
  savedRevision : Nat
  isSaved : Bool
  isOpen : Bool
  savedContent : Option Str
  savedTitle : Option Str
  provenance : Option Str

/-- A row of the table `documents`. -/
structure Row extends Document where
  isDeleted : Bool

inductive Statement where
  | begun | belongs | prior | current | working | named | existing | insert | close | erase | readBack
  | commit

structure Env where
  /-- The token is found triggered once the connection is locked. -/
  cancelled : Bool
  /-- A connection of the table, and its workspace. -/
  belongs : Nat → WorkspaceId → Bool
  fails : Statement → Bool
  /-- The token is found triggered after a failure. -/
  cancelledAfter : Bool

def Env.run (env : Env) (statement : Statement) : Except StoreError Unit :=
  refuse (env.fails statement) .sqlite

/-- `Store::with_connection_cancellable`, around a transaction. -/
def Env.withConnection {α : Type} (env : Env)
    (body : Option Row → Except StoreError (α × Option Row)) (stored : Option Row) :
    Except StoreError α × Option Row :=
  if env.cancelled then (.error .cancelled, stored)
  else
    match transaction body stored with
    | (.error e, stored) => (.error (if env.cancelledAfter then .cancelled else e), stored)
    | done => done

def invalid (detail : String) : StoreError := .corrupted "documents" detail

/-! ## Reading a row -/

/-- A column that is read up to a number of bytes. -/
def bounded (limit : Nat) (text : Str) : Option Str := if size text ≤ limit then some text else none

def fromRow (row : Row) : Except StoreError Document := do
  let savedContent := row.savedContent.bind (bounded maxQueryDocumentBytes)
  let savedTitle := row.savedTitle.bind (bounded 4096)
  refuse (row.isSaved && (savedContent.isNone || savedTitle.isNone))
    (.corrupted "documents.saved_content"
      "saved copy is missing or exceeds the supported text or title limit")
  refuse (bounded 4096 row.title).isNone
    (.corrupted "documents.title" "legacy title exceeds the 4 KiB read limit")
  refuse (bounded maxQueryDocumentBytes row.content).isNone
    (.corrupted "documents.content" "query exceeds the 1 MiB editor limit")
  pure { row.toDocument with
    savedContent := savedContent
    savedTitle := savedTitle
    provenance := row.provenance.bind (bounded maxProvenanceBytes) }

/-! ## Updates -/

/-- `validate`, with the text of its error. -/
def QueryDocumentUpdate.validate (update : QueryDocumentUpdate) : Except String Unit := do
  refuse (update.revision == 0 || i64Max < update.revision ||
      update.expectedRevision.any fun expected => i64Max < expected || update.revision ≤ expected)
    "invalid configuration: document revision must be a positive storage integer"
  refuse ((update.saveNamed && (trim update.title).isEmpty) || 256 < size update.title)
    "invalid configuration: document title must fit 256 UTF-8 bytes; a named save requires a nonempty title"
  refuse (maxQueryDocumentBytes < size update.text)
    "invalid configuration: query text exceeds the 1 MiB editor limit"

/-- What is checked before the connection is locked. -/
def QueryDocumentUpdate.prepare (update : QueryDocumentUpdate) : Except StoreError Unit := do
  update.validate.mapError invalid
  refuse (i64Max < update.revision) (invalid "revision out of range")
  refuse (update.provenance.any (maxProvenanceBytes < size ·))
    (.corrupted "documents.provenance"
      "invalid configuration: provenance exceeds its 512-byte budget; the model name is too long")

/-- `UPDATE documents SET title=…, content=…`. -/
def Row.setWorking (row : Row) (update : QueryDocumentUpdate) : Row :=
  { row with
    title := update.title
    content := update.text
    revision := update.revision
    isOpen := update.isOpen
    provenance := update.provenance.or row.provenance }

/-- `UPDATE documents SET saved_content=…, saved_title=…`. -/
def Row.setNamed (row : Row) (update : QueryDocumentUpdate) : Row :=
  { row with
    savedContent := some update.text
    savedTitle := some update.title
    savedRevision := update.revision
    isSaved := true }

def writeWorking (env : Env) (update : QueryDocumentUpdate) (current : Document) (row : Row) :
    Except StoreError Row :=
  if current.revision < update.revision then do
    env.run .working
    pure (row.setWorking update)
  else pure row

def writeNamed (env : Env) (update : QueryDocumentUpdate) (current : Document) (row : Row) :
    Except StoreError Row :=
  if update.saveNamed && current.savedRevision < update.revision then do
    env.run .named
    pure (row.setNamed update)
  else pure row

def amend (env : Env) (workspace : WorkspaceId) (update : QueryDocumentUpdate) (prior : Row) :
    Except StoreError Row := do
  refuse (prior.workspace != workspace) (invalid "document belongs to another workspace")
  refuse prior.isDeleted (invalid "document was deleted; save a new copy")
  env.run .current
  let current ← fromRow prior
  refuse (update.expectedRevision.any (· != current.revision))
    (invalid "document revision changed; preserve a new copy")
  refuse (current.connection != update.connection || current.language != update.language)
    (invalid "document connection or language changed; save a new copy")
  refuse (current.revision == update.revision && (current.content != update.text ||
      current.title != update.title || current.isOpen != update.isOpen))
    (invalid "document revision conflict; reopen before saving")
  refuse (update.saveNamed && current.isSaved && current.savedRevision == update.revision &&
      (current.savedContent != some update.text || current.savedTitle != some update.title))
    (invalid "saved revision conflict; reopen before saving")
  let row ← writeWorking env update current prior
  writeNamed env update current row

def QueryDocumentUpdate.row (update : QueryDocumentUpdate) (workspace : WorkspaceId) : Row where
  workspace := workspace
  title := update.title
  language := update.language
  content := update.text
  connection := update.connection
  revision := update.revision
  savedRevision := if update.saveNamed then update.revision else 0
  isSaved := update.saveNamed
  isOpen := update.isOpen
  savedContent := if update.saveNamed then some update.text else none
  savedTitle := if update.saveNamed then some update.title else none
  provenance := update.provenance
  isDeleted := false

def create (env : Env) (workspace : WorkspaceId) (update : QueryDocumentUpdate) :
    Except StoreError Row := do
  refuse (update.expectedRevision.any (· != 0))
    (invalid "document disappeared; preserve a new copy")
  env.run .insert
  pure (update.row workspace)

def checkConnection (env : Env) (workspace : WorkspaceId) :
    Option Nat → Except StoreError Unit
  | some connection => do
      env.run .belongs
      refuse (!env.belongs connection workspace)
        (invalid "document connection does not belong to the workspace")
  | none => pure ()

def writeRow (env : Env) (workspace : WorkspaceId) (update : QueryDocumentUpdate) :
    Option Row → Except StoreError Row
  | some prior => amend env workspace update prior
  | none => create env workspace update

/-- The transaction of `update_query`. -/
def updateRow (env : Env) (workspace : WorkspaceId) (update : QueryDocumentUpdate)
    (stored : Option Row) : Except StoreError (Document × Option Row) := do
  env.run .begun
  checkConnection env workspace update.connection
  env.run .prior
  let row ← writeRow env workspace update stored
  env.run .readBack
  let document ← fromRow row
  env.run .commit
  pure (document, some row)

def updateQuery (env : Env) (workspace : WorkspaceId) (update : QueryDocumentUpdate)
    (stored : Option Row) : Except StoreError Document × Option Row :=
  match update.prepare with
  | .error e => (.error e, stored)
  | .ok () => env.withConnection (updateRow env workspace update) stored

/-! ## Closing and deleting -/

structure DocumentRevision where
  next : Nat
  expected : Option Nat

def tombstone (workspace : WorkspaceId) (revision : Nat) : Row where
  workspace := workspace
  title := "Closed query".toList
  language := .sql .ansi
  content := []
  connection := none
  revision := revision
  savedRevision := revision
  isSaved := false
  isOpen := false
  savedContent := none
  savedTitle := none
  provenance := none
  isDeleted := true

/-- `UPDATE documents SET …` of a close, with the texts it reads back from the named copy. -/
def Row.close (row : Row) (current : Document) (revision : Nat) (delete : Bool) : Row :=
  { row with
    content := if delete then [] else current.savedContent.getD []
    title := current.savedTitle.getD current.title
    isOpen := false
    isDeleted := delete
    revision := revision
    savedRevision := revision
    savedContent := if delete then none else row.savedContent
    savedTitle := if delete then none else row.savedTitle
    isSaved := if delete then false else row.isSaved }

def Document.dirty (document : Document) : Bool :=
  document.savedContent.getD [] != document.content ||
    document.savedTitle.getD document.title != document.title

def closeAbsent (env : Env) (workspace : WorkspaceId) (revision : DocumentRevision)
    (discard delete : Bool) (stored : Option Row) : Except StoreError Row := do
  env.run .existing
  refuse (stored.isSome || revision.expected.any (· != 0) || (!discard && !delete))
    (invalid "document is not in the expected state")
  env.run .insert
  pure (tombstone workspace revision.next)

def closePresent (env : Env) (revision : DocumentRevision) (discard delete : Bool) (row : Row) :
    Except StoreError Row := do
  let current ← fromRow row
  refuse (revision.expected.any (· != current.revision))
    (invalid "document revision changed while closing")
  refuse (revision.next ≤ current.revision) (invalid "document changed while closing")
  refuse (current.dirty && !discard && !delete)
    (invalid "save or discard the working changes before closing")
  env.run .close
  pure (row.close current revision.next delete)

def Row.isLive (workspace : WorkspaceId) (row : Row) : Bool :=
  row.workspace == workspace && !row.isDeleted

/-- The transaction of `close_query_checked`. -/
def closeRow (env : Env) (workspace : WorkspaceId) (revision : DocumentRevision)
    (discard delete : Bool) (stored : Option Row) : Except StoreError (Unit × Option Row) := do
  env.run .begun
  env.run .current
  let row ← (stored.filter (Row.isLive workspace)).elim
    (closeAbsent env workspace revision discard delete stored)
    (closePresent env revision discard delete)
  env.run .commit
  pure ((), some row)

def closeQueryChecked (env : Env) (workspace : WorkspaceId) (revision : DocumentRevision)
    (discard delete : Bool) (stored : Option Row) : Except StoreError Unit × Option Row :=
  if i64Max < revision.next then (.error (invalid "revision out of range"), stored)
  else if revision.next = 0 then (.error (invalid "revision must be positive"), stored)
  else env.withConnection (closeRow env workspace revision discard delete) stored

def closeQuery (env : Env) (workspace : WorkspaceId) (revision : Nat) (discard delete : Bool)
    (stored : Option Row) : Except StoreError Unit × Option Row :=
  closeQueryChecked env workspace ⟨revision, none⟩ discard delete stored

/-- `UPDATE documents SET is_deleted=1, …`. -/
def Row.erase (row : Row) : Row :=
  { row with
    isDeleted := true
    isOpen := false
    isSaved := false
    content := []
    savedContent := none
    savedTitle := none
    revision := row.revision + 1
    savedRevision := row.revision + 1 }

def Documents.delete (env : Env) (stored : Option Row) : Except StoreError Bool × Option Row :=
  if env.fails .erase then (.error .sqlite, stored)
  else
    match stored.filter fun row => !row.isDeleted && row.revision < i64Max with
    | some row => (.ok true, some row.erase)
    | none => (.ok false, stored)

end Oxyn.Store
