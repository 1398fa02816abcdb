/-
# `Oxyn.Core.Command` — the actions submitted to the bus

Who asks, what is asked, and the four readings the gate takes of a command: its intent, its
target, its risk and whether it runs against the server.
-/
import Oxyn.Core.Connection

namespace Oxyn

open Text

/-- Who is asking. -/
inductive Actor where
  | human
  | agent (id : AgentId) (session : AgentSessionId)
deriving DecidableEq, Repr

namespace Actor

def isAgent : Actor → Bool
  | .human => false
  | .agent _ _ => true

end Actor

structure PreviewSort where
  column : Str
  descending : Bool
deriving DecidableEq, Repr

structure PreviewShape where
  sort : List PreviewSort
  predicate : Option Str
  offset : Nat
  columns : Option (List Str)
deriving DecidableEq, Repr

/-- The predicate, if one remains once whitespace is trimmed. -/
def PreviewShape.predicate? (shape : PreviewShape) : Option Str :=
  (shape.predicate.map trim).filter fun text => !text.isEmpty

/-- An action submitted to the bus.  The enumeration is closed. -/
inductive Command where
  | connect (connection : ConnectionId)
  | disconnect (connection : ConnectionId)
  | closeSession (connection : ConnectionId) (session : SessionId)
  | setSessionContext (connection : ConnectionId) (session : SessionId)
  | execute (connection : ConnectionId) (session : SessionId) (request : ExecRequest)
  | previewRelation (connection : ConnectionId) (session : SessionId)
      (catalog «namespace» : Option Str) (relation : Str) (limit : Nat) (shape : PreviewShape)
  | cancel (connection : ConnectionId)
  | refreshCatalog (connection : ConnectionId)
  | describeCatalog (connection : ConnectionId)
  | refreshCatalogScope (connection : ConnectionId)
  | inspectResultValue (connection : ConnectionId)
  | readResultPage (connection : ConnectionId)
  | export (connection : ConnectionId)
  | readWorkspacePreferences
  | writeWorkspacePreferences
  | writeWindowLayout
  | listQueryDocuments
  | saveQueryDocument
  | closeQueryDocument
  | deleteQueryDocument
  | readHistory (connection : Option ConnectionId)
  | readHistoryEntry
  | reconcileHistoryEntry
  | listHistoryConnections
  | openRetainedResult (connection : ConnectionId)
  | openDocument
  | writeDocument
  | createConnection (config : ConnectionConfig)
  | testConnection (config : ConnectionConfig)
  | updateConnection (config : ConnectionConfig)
  | deleteConnection (connection : ConnectionId)
  | listAiProviders
  | saveAiProvider
  | listExternalAgents
  | saveExternalAgent
  | removeExternalAgent
  | removeAiProvider
deriving DecidableEq, Repr

namespace Command

def intent : Command → StatementIntent
  | .execute _ _ request => request.intent
  | .connect _ | .disconnect _ | .closeSession _ _ | .setSessionContext _ _ | .cancel _
  | .refreshCatalog _ | .describeCatalog _ | .refreshCatalogScope _
  | .previewRelation _ _ _ _ _ _ _ | .readResultPage _ | .inspectResultValue _ | .export _
  | .readWorkspacePreferences | .writeWorkspacePreferences | .writeWindowLayout
  | .listQueryDocuments | .saveQueryDocument | .closeQueryDocument | .deleteQueryDocument
  | .readHistory _ | .readHistoryEntry | .reconcileHistoryEntry | .listHistoryConnections
  | .openRetainedResult _ | .openDocument | .writeDocument | .listAiProviders
  | .saveAiProvider | .removeAiProvider | .listExternalAgents | .saveExternalAgent
  | .removeExternalAgent | .testConnection _ => .read
  | .createConnection _ | .updateConnection _ | .deleteConnection _ => .ddl

def targetConnection : Command → Option ConnectionId
  | .readHistory connection => connection
  | .connect c | .disconnect c | .closeSession c _ | .setSessionContext c _ | .execute c _ _
  | .cancel c | .refreshCatalog c | .describeCatalog c | .refreshCatalogScope c
  | .previewRelation c _ _ _ _ _ _ | .readResultPage c | .openRetainedResult c
  | .inspectResultValue c | .export c | .deleteConnection c => some c
  | .createConnection config | .updateConnection config | .testConnection config =>
    some config.id
  | .listQueryDocuments | .saveQueryDocument | .closeQueryDocument | .deleteQueryDocument
  | .readHistoryEntry | .reconcileHistoryEntry | .listHistoryConnections | .openDocument
  | .writeDocument | .readWorkspacePreferences | .writeWorkspacePreferences
  | .writeWindowLayout | .listAiProviders | .saveAiProvider | .removeAiProvider
  | .listExternalAgents | .saveExternalAgent | .removeExternalAgent => none

def mutationRisk : Command → MutationRisk
  | .execute _ _ request => request.risk
  | _ => .none

/-- Does the command begin, end or mark a transaction on its session? -/
def controlsTransaction : Command → Bool
  | .execute _ _ request => request.transactionControl
  | _ => false

/-- Does the command change the session's current database by typing it? -/
def changesContext : Command → Bool
  | .execute _ _ request => request.contextChange
  | _ => false

def touchesDatabase : Command → Bool
  | .connect _ | .disconnect _ | .closeSession _ _ | .setSessionContext _ _ | .execute _ _ _
  | .cancel _ | .refreshCatalog _ | .refreshCatalogScope _ | .previewRelation _ _ _ _ _ _ _
  | .export _ | .testConnection _ => true
  | _ => false

/-- Can the command modify something?  An inconsistent declaration is settled on the
cautious side. -/
def isMutating (cmd : Command) : Bool := cmd.intent.isMutating || cmd.mutationRisk.isSome

def name : Command → String
  | .connect _ => "Connect"
  | .disconnect _ => "Disconnect"
  | .closeSession _ _ => "CloseSession"
  | .setSessionContext _ _ => "SetSessionContext"
  | .execute _ _ _ => "Execute"
  | .previewRelation _ _ _ _ _ _ _ => "PreviewRelation"
  | .readResultPage _ => "ReadResultPage"
  | .inspectResultValue _ => "InspectResultValue"
  | .cancel _ => "Cancel"
  | .refreshCatalog _ => "RefreshCatalog"
  | .describeCatalog _ => "DescribeCatalog"
  | .refreshCatalogScope _ => "RefreshCatalogScope"
  | .export _ => "Export"
  | .openDocument => "OpenDocument"
  | .listQueryDocuments => "ListQueryDocuments"
  | .saveQueryDocument => "SaveQueryDocument"
  | .closeQueryDocument => "CloseQueryDocument"
  | .deleteQueryDocument => "DeleteQueryDocument"
  | .readHistory _ => "ReadHistory"
  | .readHistoryEntry => "ReadHistoryEntry"
  | .reconcileHistoryEntry => "ReconcileHistoryEntry"
  | .listHistoryConnections => "ListHistoryConnections"
  | .openRetainedResult _ => "OpenRetainedResult"
  | .readWorkspacePreferences => "ReadWorkspacePreferences"
  | .writeWorkspacePreferences => "WriteWorkspacePreferences"
  | .writeWindowLayout => "WriteWindowLayout"
  | .writeDocument => "WriteDocument"
  | .createConnection _ => "CreateConnection"
  | .testConnection _ => "TestConnection"
  | .updateConnection _ => "UpdateConnection"
  | .deleteConnection _ => "DeleteConnection"
  | .listAiProviders => "ListAiProviders"
  | .saveAiProvider => "SaveAiProvider"
  | .removeAiProvider => "RemoveAiProvider"
  | .listExternalAgents => "ListExternalAgents"
  | .saveExternalAgent => "SaveExternalAgent"
  | .removeExternalAgent => "RemoveExternalAgent"

/-- The statement text, for an approval preview: never bound values. -/
def statementText : Command → Option Str
  | .execute _ _ request => some request.text
  | _ => none

@[simp] theorem isMutating_execute (c : ConnectionId) (s : SessionId) (r : ExecRequest) :
    (execute c s r).isMutating = r.isMutating := rfl

end Command

end Oxyn
