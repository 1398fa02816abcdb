/-
# `Oxyn.Redis.Connection` — the replies of one connection

The head of a reply, the pushes in front of it dropped, and the errors a reply or a lost
connection become.
-/
import Oxyn.Redis.Wire
import Oxyn.Store.History

namespace Oxyn.Redis

open Text Resp

/-! ## The head of a reply -/

section

variable {F σ : Type} (floats : Resp.Floats F) (src : Source σ)

def replyTurn : Unit → Scan σ WireError (Unit ⊕ Head F) := fun _ => do
  match ← head floats src with
  | .aggregate .push len => do
      let _ ← skip floats src len
      pure (.inl ())
  | h => pure (.inr h)

theorem replyTurn_uses (a : Unit) : Scan.Uses src.size (replyTurn floats src a) := by
  refine (head_uses floats src).bind fun h => ?_
  split
  · exact (skip_within floats src _).bind fun _ => Scan.Within.answer _
  · exact Scan.Within.answer _

theorem replyTurn_shrinks : Scan.Shrinks src.size (replyTurn floats src) :=
  fun a s a' s' h => replyTurn_uses floats src a s (.inl a') s' h

/-- The head of the next reply, push messages skipped. -/
def replyHead : Scan σ WireError (Head F) :=
  Scan.loop src.size (replyTurn floats src) (replyTurn_shrinks floats src) ()

variable {floats src} {s s' : σ}

theorem replyHead_of_head {h : Head F} (hhead : head floats src s = (.ok h, s'))
    (hpush : ∀ len, h ≠ .aggregate .push len) : replyHead floats src s = (.ok h, s') := by
  refine Scan.loop_leave ?_
  show (head floats src >>= _) s = _
  rw [Scan.bind_ok hhead]
  split
  next len => exact absurd rfl (hpush len)
  next => rfl

end

/-- A server that sends no doubles. -/
def noDoubles : Resp.Floats Unit := ⟨fun _ => none, (), (), ()⟩

/-! ## Errors -/

/-- What can go wrong between the driver and the server. -/
inductive RedisError where
  | server (word message : Str)
  | wire (e : WireError)
  | unexpectedReply (command detail : String)

/-- `str::split_once(' ')`. -/
def splitOnce : Str → Option (Str × Str)
  | [] => none
  | c :: rest => if c = ' ' then some ([], rest) else (splitOnce rest).map fun p => (c :: p.1, p.2)

def RedisError.fromServer (text : Bytes) : RedisError :=
  let text := fromUtf8Lossy text
  match splitOnce text with
  | some (word, message) => .server word message
  | none => .server text []

def RedisError.word : RedisError → Option Str
  | .server word _ => some word
  | _ => none

/-- The error a script stopped by `SCRIPT KILL` or `FUNCTION KILL` answers. -/
def RedisError.isScriptKill : RedisError → Bool
  | .server word message => word == "ERR".toList && "Script killed by user".toList.isPrefixOf message
  | _ => false

open History (ErrorClass)

/-- Refused before running. -/
def transientWords : List Str :=
  ["LOADING", "BUSY", "OOM", "MISCONF", "NOREPLICAS", "MASTERDOWN", "TRYAGAIN",
    "CLUSTERDOWN"].map String.toList

def classOf (word : Str) (scripted : Bool) : ErrorClass :=
  if scripted then if word = "NOSCRIPT".toList then .permanent else .ambiguous
  else if word ∈ transientWords then .transient
  else if word = "IOERR".toList then .ambiguous
  else .permanent

inductive ExecError where
  | cancelled
  | timeout (after : Nat)
  | outcomeUnknown (text : String)
  | driver (cls : ErrorClass) (error : RedisError)

def WireError.text : WireError → String
  | .truncated => "the connection closed in the middle of a reply"
  | .io => "the connection failed while reading a reply"
  | .malformed text => "the server sent something that is not RESP: " ++ text

/-- `RedisError::to_string`. -/
def RedisError.text : RedisError → String
  | .server word message => String.ofList word ++ " " ++ String.ofList message
  | .wire e => WireError.text e
  | .unexpectedReply command detail => "unexpected reply to " ++ command ++ ": " ++ detail

/-- A failure behind the command's sending: a lost connection may hide that it was applied. -/
def duringExecution (error : RedisError) (intent : Option StatementIntent) (scripted : Bool) :
    ExecError :=
  match error with
  | .server word _ => .driver (classOf word scripted) error
  | _ =>
    if intent = some .read then .driver .transient error
    else
      .outcomeUnknown ("the connection failed after the command was sent (" ++ error.text ++
        "); the server may have applied it: check the data before running it again")

end Oxyn.Redis
