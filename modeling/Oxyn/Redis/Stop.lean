/-
# `Oxyn.Redis.Stop` — stopping a command on the server

A second connection of the account asks the server to stop what the first one runs.
-/
import Oxyn.Redis.Connection

namespace Oxyn.Redis

open Text Resp

/-! ## The stopper -/

/-- The kind of command being stopped. -/
inductive Running where
  | blocking | script | function | plain
deriving DecidableEq

/-- What a stop request achieved. -/
inductive Stop where
  | sent | impossible | candidate | unkillable
deriving DecidableEq

/-- Why an execution stops early. -/
inductive Halt where
  | cancelled
  | timedOut (after : Nat)

/-- What the stopper asks of the server. -/
inductive StopRequest where
  | unblock | stats | kill
deriving DecidableEq

/-- What an execution sends, and how it may be stopped. -/
structure Plan where
  argv : List Bytes
  intent : Option StatementIntent
  scripted : Bool
  running : Running
  canStop : Bool

/-- A scalar of a reply as text, when it is one. -/
def textOf {F : Type} : Resp.Value F → Option Str
  | .simple text => some (fromUtf8Lossy text)
  | .bulk clipped | .verbatim _ clipped => some (fromUtf8Lossy clipped.bytes)
  | .integer n => some (toString n).toList
  | _ => none

section

variable {F : Type}

def entry? (name : String) (pairs : List (Resp.Value F × Resp.Value F)) : Option (Resp.Value F) :=
  (pairs.find? fun pair => textOf pair.1 = some name.toList).map Prod.snd

def isWord : Resp.Value F → Bytes → Bool
  | .bulk clipped, sent => clipped.bytes.length == clipped.fullLen && clipped.bytes == sent
  | .simple bytes, sent => bytes == sent
  | _, _ => false

/-- Does `FUNCTION STATS` show this command line as the running script? -/
def runningScriptIs (stats : Resp.Value F) (argv : List Bytes) : Bool :=
  match stats with
  | .map entries =>
    match entry? "running_script" entries with
    | some (.map script) =>
      match entry? "command" script with
      | some (.list _ command) =>
        command.length == argv.length && (command.zip argv).all fun pair =>
          isWord pair.1 pair.2
      | _ => false
    | _ => false
  | _ => false

def stopRequest : Running → Option StopRequest
  | .plain => none
  | .blocking => some .unblock
  | .script | .function => some .stats

/-- `Stopper::stop`, by the server's answer to its request. -/
def stopAnswer (running : Running) (argv : List Bytes) :
    Except RedisError (Resp.Value F) → Except RedisError Stop
  | .ok answer =>
    match running with
    | .plain => .ok .impossible
    | .blocking =>
      match answer with
      | .integer 1 => .ok .sent
      | _ => .ok .impossible
    | .script => .ok .impossible
    | .function => if runningScriptIs answer argv then .ok .candidate else .ok .impossible
  | .error e =>
    match running with
    | .plain => .ok .impossible
    | .blocking => .error e
    | .script => if e.word = some "BUSY".toList then .ok .candidate else .error e
    | .function => if e.word = some "BUSY".toList then .ok .impossible else .error e

/-- `Stopper::kill`, by the server's answer. -/
def killAnswer : Except RedisError (Resp.Value F) → Except RedisError Stop
  | .ok _ => .ok .sent
  | .error e =>
    if e.word = some "UNKILLABLE".toList then .ok .unkillable
    else if e.word = some "NOTBUSY".toList then .ok .impossible
    else .error e

end

/-! ## The verdict -/

def Halt.error : Halt → ExecError
  | .cancelled => .cancelled
  | .timedOut after => .timeout after

/-- `Duration::as_secs`, of nanoseconds. -/
def asSecs (nanos : Nat) : Nat := nanos / 1000000000

def Halt.cause : Halt → String
  | .cancelled => "stopped"
  | .timedOut after => "timed out after " ++ toString (asSecs after) ++ " s"

def verdict (halt : Halt) (proven : Bool) (intent : Option StatementIntent) (unproven : String) :
    ExecError :=
  if proven || intent == some .read then halt.error
  else
    .outcomeUnknown ("the command was " ++ halt.cause ++ " and may have written: " ++ unproven ++
      "; check the data before running it again")

/-- Does the error the stopped command answered prove that it applied nothing? -/
def proves (running : Running) (error : RedisError) : Bool :=
  match running with
  | .blocking => error.word == some "UNBLOCKED".toList
  | .script | .function => error.isScriptKill || error.word == some "BUSY".toList
  | .plain => false

theorem verdict_unproven {intent : Option StatementIntent} (h : intent ≠ some .read) (halt : Halt)
    (unproven : String) : ∃ text, verdict halt false intent unproven = .outcomeUnknown text := by
  unfold verdict
  rw [Bool.false_or, if_neg (by simpa using h)]
  exact ⟨_, rfl⟩

theorem verdict_proven (halt : Halt) (intent : Option StatementIntent) (unproven : String) :
    verdict halt true intent unproven = halt.error := by
  unfold verdict
  rw [Bool.true_or, if_pos rfl]

end Oxyn.Redis
