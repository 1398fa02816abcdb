/-
# `Oxyn.Desktop.Windows` — what each window owns

One registry, read and written under one lock, records for each window the sessions it opened, the
commands it sent, the results it reads, the assistants and the documents it took and the
connections it holds.
-/
import Oxyn.Lib.IndexMap

namespace Oxyn.Desktop

abbrev WindowKey := Nat
abbrev ConnectionId := Nat
abbrev SessionId := Nat
abbrev CommandId := Nat
abbrev ResultId := Nat
abbrev DocumentId := Nat

def maxWindows : Nat := 16

/-- The records; a record of an opening has the connection once the opening names it. -/
structure State where
  windows : List WindowKey
  focused : Option WindowKey
  sessions : IndexMap SessionId (WindowKey × ConnectionId)
  commands : IndexMap CommandId WindowKey
  results : IndexMap ResultId (IndexMap WindowKey Nat)
  assistants : IndexMap ConnectionId WindowKey
  connections : IndexMap WindowKey (List ConnectionId)
  documents : IndexMap DocumentId WindowKey
  openings : IndexMap CommandId (WindowKey × Option ConnectionId)
  disconnecting : List ConnectionId
  deleting : List ConnectionId

/-- What a window owned when it was forgotten. -/
structure Owned where
  sessions : List (ConnectionId × SessionId)
  commands : List CommandId
  results : List (ResultId × Nat)
  assistants : List ConnectionId
  released : List ConnectionId

/-- The refusal of a command naming what another window owns. -/
def elsewhere (what : String) : String := "This " ++ what ++ " belongs to another window"

/-- The refusal of a record for a window that is gone. -/
def closed : String := "This window has closed"

def openInAnotherWindow : String := "This query is open in another window"

def openElsewhere : String :=
  "This connection is open in another window. Close it there first."

namespace State

def new : State :=
  ⟨[], none, .empty, .empty, .empty, .empty, .empty, .empty, .empty, [], []⟩

section

variable (s : State)

/-! ## What is read -/

def isRegistered (key : WindowKey) : Bool := decide (key ∈ s.windows)

def openedLive (connection : ConnectionId) : Bool :=
  s.openings.values.any fun opening =>
    decide (opening.2 = some connection) && s.isRegistered opening.1

def inUse (connection : ConnectionId) : Bool :=
  s.connections.values.any (fun held => decide (connection ∈ held)) || s.openedLive connection

def heldElsewhere (command : CommandId) (connection : ConnectionId) : Bool :=
  s.connections.entries.any (fun entry =>
      decide (some entry.1 ≠ s.commands.get command) && decide (connection ∈ entry.2)) ||
    s.openedLive connection

/-- Does any record name the window? -/
def names (key : WindowKey) : Bool :=
  s.isRegistered key ||
    s.sessions.values.any (fun owner => decide (owner.1 = key)) ||
    s.commands.values.any (fun owner => decide (owner = key)) ||
    s.results.values.any (fun readers => (readers.get key).isSome) ||
    s.assistants.values.any (fun owner => decide (owner = key)) ||
    (s.connections.get key).isSome ||
    s.documents.values.any (fun owner => decide (owner = key)) ||
    s.openings.values.any (fun opening => decide (opening.1 = key))

/-! ## Windows -/

def reserve (key : WindowKey) : Except String State :=
  if maxWindows ≤ s.windows.length then
    .error ("Oxyn opens at most " ++ toString maxWindows ++ " windows. Close one first.")
  else if s.isRegistered key then .error "This window is already open"
  else .ok { s with windows := s.windows ++ [key] }

def focus (key : WindowKey) (focused : Bool) : State :=
  if focused && s.isRegistered key then { s with focused := some key } else s

/-- A connection no window holds or opens is marked; `none` if one does, or if it is marked. -/
def markUnused (connection : ConnectionId) : State × Option ConnectionId :=
  if s.inUse connection || decide (connection ∈ s.disconnecting) then (s, none)
  else ({ s with disconnecting := connection :: s.disconnecting }, some connection)

def markAll : List ConnectionId → State → State × List ConnectionId
  | [], s => (s, [])
  | connection :: rest, s =>
    let marked := s.markUnused connection
    let others := markAll rest marked.1
    (others.1, marked.2.toList ++ others.2)

/-- The records without those of a window; its openings stay. -/
def without (key : WindowKey) : State :=
  { s with
    windows := s.windows.filter (· ≠ key)
    focused := if s.focused = some key then none else s.focused
    sessions := s.sessions.filter fun _ owner => owner.1 ≠ key
    commands := s.commands.filter fun _ owner => owner ≠ key
    results := (s.results.mapValues (·.remove key)).filter fun _ readers =>
      !readers.entries.isEmpty
    assistants := s.assistants.filter fun _ owner => owner ≠ key
    documents := s.documents.filter fun _ owner => owner ≠ key
    connections := s.connections.remove key }

def forget (key : WindowKey) : State × Owned :=
  let marked := markAll ((s.connections.get key).getD []) (s.without key)
  (marked.1,
    { sessions := (s.sessions.entries.filter (·.2.1 = key)).map fun entry => (entry.2.2, entry.1)
      commands := (s.commands.entries.filter (·.2 = key)).map (·.1)
      results := s.results.entries.filterMap fun entry =>
        (entry.2.get key).map fun views => (entry.1, views)
      assistants := (s.assistants.entries.filter (·.2 = key)).map (·.1)
      released := marked.2 })

/-! ## Ownership -/

def hold (key : WindowKey) (connection : ConnectionId) :
    IndexMap WindowKey (List ConnectionId) :=
  s.connections.insert key (((s.connections.get key).getD []).insert connection)

def claimCommand (window : WindowKey) (command : CommandId) : Except String State :=
  if !s.isRegistered window then .error closed
  else if (s.commands.get command).any (· ≠ window) then .error (elsewhere "command")
  else .ok { s with commands := s.commands.insert command window }

def releaseCommand (window : WindowKey) (command : CommandId) : State :=
  if s.commands.get command = some window then { s with commands := s.commands.remove command }
  else s

def claimSession (window : WindowKey) (connection : ConnectionId) (session : SessionId) :
    Except String State :=
  if !s.isRegistered window then .error closed
  else
    .ok { s with
      sessions := s.sessions.insert session (window, connection)
      connections := s.hold window connection }

def releaseSession (session : SessionId) : State := { s with sessions := s.sessions.remove session }

/-- A console moves to another window with its session, its document, its connection and its
catalog's session. -/
def handOver (source target : WindowKey) (connection : ConnectionId) (session : SessionId)
    (document : DocumentId) (catalog : Option SessionId) : Except String State :=
  if !s.isRegistered target then .error closed
  else if s.sessions.get session ≠ some (source, connection) then .error (elsewhere "console")
  else if (s.documents.get document).any (· ≠ source) then .error openInAnotherWindow
  else
    let sessions := s.sessions.insert session (target, connection)
    .ok { s with
      sessions := match catalog with
        | some catalog => sessions.insert catalog (target, connection)
        | none => sessions
      documents := s.documents.insert document target
      connections := s.hold target connection }

def releaseConnection (window : WindowKey) (connection : ConnectionId) :
    State × Option ConnectionId :=
  ({ s with connections := s.connections.modify window (·.filter (· ≠ connection)) } :
    State).markUnused connection

/-- The readers of a result, with a window among them; `view` counts one view more. -/
def reading (window : WindowKey) (result : ResultId) (view : Bool) :
    IndexMap ResultId (IndexMap WindowKey Nat) :=
  let readers := (s.results.get result).getD .empty
  let views := (readers.get window).getD 0
  s.results.insert result (readers.insert window (if view then min (views + 1) (2 ^ 64 - 1) else views))

def claimResult (window : WindowKey) (result : ResultId) (view : Bool) : Except String State :=
  if !s.isRegistered window then .error closed
  else .ok { s with results := s.reading window result view }

def checkResult (window : WindowKey) (result : ResultId) : Except String State :=
  let readers := (s.results.get result).getD .empty
  if readers.entries.isEmpty then .ok { s with results := s.reading window result false }
  else if (readers.get window).isSome then .ok s
  else .error (elsewhere "result")

def unread (window : WindowKey) (readers : IndexMap WindowKey Nat) : IndexMap WindowKey Nat :=
  match readers.get window with
  | some views => if views - 1 = 0 then readers.remove window else readers.insert window (views - 1)
  | none => readers

def forgetResult (window : WindowKey) (result : ResultId) : State :=
  match s.results.get result with
  | none => s
  | some readers =>
    { s with
      results :=
        if (unread window readers).entries.isEmpty then s.results.remove result
        else s.results.insert result (unread window readers) }

def claimDocument (window : WindowKey) (document : DocumentId) : Except String State :=
  if (s.documents.get document).any (· ≠ window) then .error openInAnotherWindow
  else .ok { s with documents := s.documents.insert document window }

def releaseDocument (window : WindowKey) (document : DocumentId) : State :=
  if s.documents.get document = some window then
    { s with documents := s.documents.remove document }
  else s

def claimAssistant (window : WindowKey) (connection : ConnectionId) : Except WindowKey State :=
  match s.assistants.get connection with
  | some owner =>
    if owner ≠ window then .error owner
    else .ok { s with assistants := s.assistants.insert connection window }
  | none => .ok { s with assistants := s.assistants.insert connection window }

def releaseAssistant (window : WindowKey) (connection : ConnectionId) : State :=
  if s.assistants.get connection = some window then
    { s with assistants := s.assistants.remove connection }
  else s

inductive Routed where
  | transactionState (session : SessionId)
  | announces (result : ResultId)
  | other

def route (window : WindowKey) (command : CommandId) : Routed → State × Bool
  | .transactionState session =>
    (s, decide ((s.sessions.get session).map (·.1) = some window))
  | .announces result =>
    if s.commands.get command ≠ some window then (s, false)
    else ({ s with results := s.reading window result false }, true)
  | .other => (s, decide (s.commands.get command = some window))

/-! ## Openings -/

def beginOpening (window : WindowKey) (command : CommandId) : Except String State :=
  if !s.isRegistered window then .error closed
  else if (s.openings.get command).isSome then
    .error "A command with this id is already running"
  else .ok { s with openings := s.openings.insert command (window, none) }

/-- What one turn under the lock answers to an opening that names its connection. -/
inductive BindTurn where
  | done (s : State)
  | refused (error : String)
  | wait

def bindOpening (command : CommandId) (connection : ConnectionId) : BindTurn :=
  match s.openings.get command with
  | none => .done s
  | some opening =>
    if !s.isRegistered opening.1 then .refused closed
    else if connection ∈ s.deleting then .refused "This connection is being deleted."
    else if connection ∈ s.disconnecting then .wait
    else .done { s with openings := s.openings.insert command (opening.1, some connection) }

/-- What an opening gave its window; the opening is forgotten in any case. -/
def adopt (command : CommandId) (connection : ConnectionId) (sessions : List SessionId) :
    State × Except String Unit :=
  let left := { s with openings := s.openings.remove command }
  match s.openings.get command with
  | none => (left, .error closed)
  | some opening =>
    if !s.isRegistered opening.1 then (left, .error closed)
    else
      ({ left with
        connections := s.hold opening.1 connection
        sessions := sessions.foldl
          (fun all session => all.insert session (opening.1, connection)) s.sessions }, .ok ())

def beginDeletion (command : CommandId) (connection : ConnectionId) : Except String State :=
  if s.heldElsewhere command connection then .error openElsewhere
  else .ok { s with deleting := s.deleting.insert connection }

/-! ## Guards that are dropped -/

def dropOpening (command : CommandId) : State := { s with openings := s.openings.remove command }

def dropDisconnecting (connection : ConnectionId) : State :=
  { s with disconnecting := s.disconnecting.filter (· ≠ connection) }

def dropDeletion (connection : ConnectionId) : State :=
  { s with deleting := s.deleting.filter (· ≠ connection) }

end

end State

end Oxyn.Desktop
