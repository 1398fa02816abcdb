/-
# `Oxyn.Exec.Executor` — nothing reaches a driver past the gate

The executor as a step relation.
-/
import Oxyn.Exec.Approval
import Oxyn.Exec.Reclassify

open Runs

namespace Oxyn

open Text

/-! ## Tasks and state -/

/-- How far a task has come, and what it has read. -/
inductive Stage where
  /-- Submitted, its text not read yet. -/
  | received
  | reclassified
  /-- The environment to submit to the gate. -/
  | announced (env : Environment)
  /-- The environment the gate will judge in. -/
  | retained (env retained : Environment)
  /-- The mark of the executor's own registry. -/
  | marked (env retained : Environment) (announced : Bool)
  /-- The command is bounded. -/
  | bounded (env retained : Environment) (readOnly : Bool)
  /-- The gate has answered. -/
  | decided (env retained : Environment) (readOnly : Bool) (decision : Decision)
  | finished

/-- A call to `dispatch_as`, or to `approve` for the request it took. -/
structure Task where
  id : CommandId
  actor : Actor
  command : Command
  approved : Option PendingCommand
  stage : Stage

/-- A call to the `execute` of a session, and the task it was made for. -/
structure ExecuteCall where
  task : Nat
  caller : Task
  connection : ConnectionId
  session : SessionId
  request : ExecRequest

/-- What the tasks share, and what they did. -/
structure State where
  /-- What the gate knows about connections. -/
  policy : Registry ConnectionFacts
  /-- What the executor knows about them. -/
  connections : Registry ConnectionConfig
  sessions : Sessions
  approvals : Queue
  tasks : List Task
  calls : List ExecuteCall

namespace State

def initial : State :=
  ⟨Registry.empty, Registry.empty, fun _ => none, Queue.empty, [], []⟩

def setTask (s : State) (i : Nat) (t : Task) : State := { s with tasks := s.tasks.set i t }

end State

/-- The environment to submit to the gate: an unknown connection counts as production. -/
def environmentOf (connections : Registry ConnectionConfig) (command : Command) : Environment :=
  match command with
  | .createConnection config | .updateConnection config | .testConnection config =>
    config.environment
  | other => ((other.targetConnection.bind connections).map (·.environment)).getD .default

def markedReadOnly (connections : Registry ConnectionConfig) (command : Command) : Bool :=
  ((command.targetConnection.bind connections).map (·.readOnly)).getD false

/-- The driver of a command's session, when that session belongs to its connection. -/
def driverFor (sessions : Sessions) (driver : Driver) : Command → Option Driver
  | .execute c s _ => if (sessions s).any (·.connection = c) then some driver else none
  | _ => none

structure Executor where
  reader : SqlReader
  approvals : ApprovalRegistry

namespace Executor

variable (exec : Executor)

def next (s : State) (driver : Driver) (t : Task) : Option Task :=
  match t.stage with
  | .received =>
    some { t with
      command := Oxyn.reclassified exec.reader t.command (driverFor s.sessions driver t.command)
      stage := .reclassified }
  | .reclassified => some { t with stage := .announced (environmentOf s.connections t.command) }
  | .announced env =>
    some { t with stage := .retained env (retainedEnvironment s.policy t.command env) }
  | .retained env retained =>
    some { t with stage := .marked env retained (markedReadOnly s.connections t.command) }
  | .marked env retained announced =>
    let readOnly := retainedReadOnly s.policy t.command announced
    some { t with
      command := boundedTo exec.reader t.command retained readOnly
      stage := .bounded env retained readOnly }
  | .bounded env retained readOnly =>
    let decision := authorize s.policy t.actor t.command env
    some { t with stage := .decided env retained readOnly decision }
  | .decided _ _ _ _ | .finished => none

end Executor

/-- May the task run?  A decision was taken: `allow`, or anything but a refusal once the
user has approved. -/
def Task.MayRun (t : Task) : Prop :=
  ∃ env retained readOnly decision, t.stage = .decided env retained readOnly decision ∧
    ((t.approved = none ∧ decision = .allow) ∨
      (t.approved.isSome = true ∧ decision.isDenied = false))

/-- What happens, in the order it happens. -/
inductive Event where
  | markPolicy (c : ConnectionId) (facts : Option ConnectionFacts)
  | markExecutor (c : ConnectionId) (config : Option ConnectionConfig)
  | setSession (s : SessionId) (slot : Option SessionSlot)
  /-- A rejection, an expiry, a sweep, a read or a failed take. -/
  | approvals (call : Call)
  | dispatch (id : CommandId) (actor : Actor) (command : Command)
  | approve (now : Nat) (e : PendingCommand)
  | advance (i : Nat) (driver : Driver)
  | submit (i : Nat) (call : Call)
  | execute (i : Nat) (driver : Driver)
  /-- The task ends without having reached a session. -/
  | drop (i : Nat)

def takeCall (now : Nat) (e : PendingCommand) : Call := ⟨.take now e.id, .request (.ok e)⟩

def Event.calls : Event → List Call
  | .approvals call | .submit _ call => [call]
  | .approve now e => [takeCall now e]
  | _ => []

def Event.creates : Event → Bool
  | .dispatch _ _ _ | .approve _ _ => true
  | _ => false

namespace Executor

variable (exec : Executor)

inductive Step : State → Event → State → Prop
  | markPolicy (s : State) (c : ConnectionId) (facts : Option ConnectionFacts) :
      Step s (.markPolicy c facts) { s with policy := Function.update s.policy c facts }
  | markExecutor (s : State) (c : ConnectionId) (config : Option ConnectionConfig) :
      Step s (.markExecutor c config)
        { s with connections := Function.update s.connections c config }
  | setSession (s : State) (id : SessionId) (slot : Option SessionSlot) :
      Step s (.setSession id slot) { s with sessions := Function.update s.sessions id slot }
  | approvals {s : State} {call : Call} {q : Queue} :
      (∀ e, ¬ call.Submits exec.approvals e) → exec.approvals.Step s.approvals call q →
      Step s (.approvals call) { s with approvals := q }
  | dispatch (s : State) (id : CommandId) (actor : Actor) (command : Command) :
      Step s (.dispatch id actor command)
        { s with tasks := s.tasks ++ [⟨id, actor, command, none, .received⟩] }
  | approve {s : State} {now : Nat} {e : PendingCommand} {q : Queue} :
      exec.approvals.Step s.approvals (takeCall now e) q →
      Step s (.approve now e)
        { s with
          approvals := q
          tasks := s.tasks ++ [⟨e.id, e.actor, e.command, some e, .reclassified⟩] }
  | advance {s : State} {i : Nat} {t t' : Task} {driver : Driver} :
      s.tasks[i]? = some t → exec.next s driver t = some t' →
      Step s (.advance i driver) (s.setTask i t')
  | submit {s : State} {i : Nat} {t : Task} {call : Call} {q : Queue} {now : Nat}
      {order : List CommandId} {env retained : Environment} {readOnly : Bool} {reason : String}
      {preview : Option Preview} :
      s.tasks[i]? = some t → t.approved = none →
      t.stage = .decided env retained readOnly (.requireApproval reason preview) →
      call.op = .submit now order t.id t.actor t.command reason preview →
      exec.approvals.Step s.approvals call q →
      Step s (.submit i call) { s.setTask i { t with stage := .finished } with approvals := q }
  | execute {s : State} {i : Nat} {t : Task} {driver : Driver} {c : ConnectionId}
      {session : SessionId} {r : ExecRequest} :
      s.tasks[i]? = some t → t.MayRun →
      executeCommand exec.reader s.sessions driver t.command = .ok (some (c, session, r)) →
      Step s (.execute i driver)
        { s.setTask i { t with stage := .finished } with
          calls := s.calls ++ [⟨i, t, c, session, r⟩] }
  | drop {s : State} {i : Nat} {t : Task} :
      s.tasks[i]? = some t → Step s (.drop i) (s.setTask i { t with stage := .finished })

abbrev Run (tr : List Event) (s : State) : Prop := Steps exec.Step State.initial tr s

end Executor

end Oxyn
