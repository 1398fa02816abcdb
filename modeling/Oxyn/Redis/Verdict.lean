/-
# `Oxyn.Redis.Verdict` — what a stopped execution is told

The server runs the command, refuses it, blocks it or kills it; the command may write at any
moment it runs, and ends with a reply of its own.
-/
import Oxyn.Lib.Runs
import Oxyn.Redis.Buffers
import Oxyn.Redis.Stop

open Runs

namespace Oxyn.Redis

open Text Resp

/-! ## The server -/

/-- Where the command is on the server. -/
inductive Phase where
  | queued | blocked | running | ended
deriving DecidableEq

/-- Who wrote the reply to the command. -/
inductive Origin where
  | server | command
deriving DecidableEq

/-- The server, for one command: did it apply something, who ended it, and the bytes sent to the
connection since. -/
structure Server where
  phase : Phase
  applied : Bool
  origin : Option Origin
  sent : Bytes

def busyReply : Bytes :=
  Text.bytes "-BUSY Redis is busy running a script.\r\n".toList

def unblockedReply : Bytes :=
  Text.bytes "-UNBLOCKED client unblocked via CLIENT UNBLOCK\r\n".toList

def killedReply : Bytes :=
  Text.bytes "-ERR Script killed by user with SCRIPT KILL.\r\n".toList

/-- The server ends the command, before the command wrote anything, with a reply of its own. -/
def Server.refuse (v : Server) (reply : Bytes) : Server :=
  { v with phase := .ended, origin := some .server, sent := v.sent ++ reply }

inductive Server.Move : Server → Server → Prop
  /-- Something out of band. -/
  | push (v : Server) (bytes : Bytes) : Move v { v with sent := v.sent ++ bytes }
  /-- Another client's script holds the server. -/
  | busy (v : Server) : v.phase = .queued → Move v (v.refuse busyReply)
  | begin (v : Server) : v.phase = .queued → Move v { v with phase := .running }
  | write (v : Server) : v.phase = .running → Move v { v with applied := true }
  | block (v : Server) : v.phase = .running → Move v { v with phase := .blocked }
  | serve (v : Server) : v.phase = .blocked → Move v { v with phase := .running }
  /-- The command ends with a reply of its own. -/
  | finish (v : Server) (reply : Bytes) : v.phase = .running →
      Move v { v with phase := .ended, origin := some .command, sent := v.sent ++ reply }

inductive Server.Serves {F : Type} :
    StopRequest → Server → Except RedisError (Resp.Value F) → Server → Prop
  /-- Refused, or the stopper's connection failed: nothing is stopped. -/
  | refused (request : StopRequest) (v : Server) (e : RedisError) : Serves request v (.error e) v
  /-- A blocked command that served nothing. -/
  | unblocked (v : Server) : v.phase = .blocked → v.applied = false →
      Serves .unblock v (.ok (.integer 1)) (v.refuse unblockedReply)
  /-- A module's command ends its own way. -/
  | resumed (v : Server) : v.phase = .blocked →
      Serves .unblock v (.ok (.integer 1)) { v with phase := .running }
  | notBlocked (v : Server) : v.phase ≠ .blocked → Serves .unblock v (.ok (.integer 0)) v
  /-- Nothing below rests on what the statistics say. -/
  | stats (v : Server) (answer : Resp.Value F) : Serves .stats v (.ok answer) v
  /-- A script that has not written. -/
  | killed (v : Server) : v.phase = .running → v.applied = false →
      Serves .kill v (.ok (.simple [79, 75])) (v.refuse killedReply)
  /-- Another client's script. -/
  | other (v : Server) : v.phase ≠ .running → Serves .kill v (.ok (.simple [79, 75])) v

/-! ## The client -/

inductive Client where
  | waiting
  | asking (halt : Halt)
  | answered (halt : Halt) (stop : Except RedisError Stop)
  | peeking (halt : Halt)
  | killing (halt : Halt)
  | killed (halt : Halt) (stop : Except RedisError Stop)
  | hearing (halt : Halt)
  | reading
  | ended (outcome : Option ExecError)

section

variable (plan : Plan)

/-- The kind of command, as far as this session may stop it. -/
def Plan.stoppable : Running := if plan.canStop then plan.running else .plain

/-- A stop that proves nothing. -/
def unproven (halt : Halt) (text : String) : Client :=
  .ended (some (verdict halt false plan.intent text))

/-- What an accepted stop, or a refused one, makes of the execution. -/
def settle (halt : Halt) : Except RedisError Stop → Client
  | .ok .sent => .hearing halt
  | .ok .unkillable =>
    unproven plan halt ("the script had already written: Redis stops such a script only with " ++
      "SHUTDOWN NOSAVE, which Oxyn never sends, so it runs on to its end")
  | .ok .impossible | .ok .candidate | .error _ =>
    unproven plan halt ("Redis cannot interrupt this command: the connection was closed, and " ++
      "the command runs on to its end on the server")

/-- A candidate is looked at before it is killed. -/
def onStop (halt : Halt) : Except RedisError Stop → Client
  | .ok .candidate => .peeking halt
  | stop => settle plan halt stop

def onAnswer {F : Type} (halt : Halt) : Head F → Client
  | .error text =>
    .ended (some (verdict halt (proves plan.running (RedisError.fromServer text)) plan.intent
      "the command answered its stop with an error of its own"))
  | _ => unproven plan halt "the command completed before the stop reached it"

/-- The head of the reply, when nothing stopped the execution. -/
def onHead {F : Type} : Head F → Client
  | .error text =>
    .ended (some (duringExecution (RedisError.fromServer text) plan.intent plan.scripted))
  | _ => .reading

end

/-! ## The two together -/

structure System where
  client : Client
  server : Server
  /-- How much of what was sent is read and gone. -/
  eaten : Nat
  /-- The stop or the deadline that reached the execution. -/
  halted : Option Halt

/-- The command was sent, on a connection that has nothing else to read. -/
def System.start : System := ⟨.waiting, ⟨.queued, false, none, []⟩, 0, none⟩

/-- What is there to read, in buffers of any sizes. -/
def System.Inbox (s : System) (buffers : List Bytes) : Prop :=
  buffers.flatten = s.server.sent.drop s.eaten

inductive Event (F : Type) where
  | server
  | client
  | halt (halt : Halt)
  | heard (head : Head F)

section

variable {F : Type} (floats : Resp.Floats F) (ending : Ending) (plan : Plan)

inductive Step : System → Event F → System → Prop
  | server (s : System) (v : Server) : s.server.Move v → Step s .server { s with server := v }
  /-- The head of the reply, before any stop. -/
  | head (s : System) (inbox rest : List Bytes) (h : Head F) : s.client = .waiting →
      s.Inbox inbox → replyHead floats (buffers ending) inbox = (.ok h, rest) →
      Step s .client { s with client := onHead plan h }
  /-- The reply cannot be read. -/
  | lost (s : System) (e : RedisError) : s.client = .waiting ∨ s.client = .reading →
      Step s .client
        { s with client := .ended (some (duringExecution e plan.intent plan.scripted)) }
  | read (s : System) : s.client = .reading → Step s .client { s with client := .ended none }
  /-- A stop before the head is there: some bytes of it may be read, and are gone. -/
  | stop (s : System) (halt : Halt) (eaten : Nat) : s.client = .waiting →
      Step s (.halt halt) { s with client := .asking halt, eaten := eaten, halted := some halt }
  /-- A stop when the connection is gone. -/
  | stopLost (s : System) (halt : Halt) : s.client = .waiting →
      Step s (.halt halt)
        { s with client := unproven plan halt "the connection was lost while stopping",
                 halted := some halt }
  /-- A stop behind the head. -/
  | stopReading (s : System) (halt : Halt) (text : String) : s.client = .reading →
      Step s (.halt halt) { s with client := unproven plan halt text, halted := some halt }
  /-- Nothing to ask: the command cannot be interrupted. -/
  | impossible (s : System) (halt : Halt) : s.client = .asking halt →
      stopRequest plan.stoppable = none →
      Step s .client { s with client := onStop plan halt (.ok .impossible) }
  | asked (s : System) (halt : Halt) (request : StopRequest) (answer : Except RedisError (Resp.Value F))
      (v : Server) : s.client = .asking halt → stopRequest plan.stoppable = some request →
      s.server.Serves request answer v →
      Step s .client
        { s with client := .answered halt (stopAnswer plan.stoppable plan.argv answer),
                 server := v }
  | told (s : System) (halt : Halt) (stop : Except RedisError Stop) :
      s.client = .answered halt stop → Step s .client { s with client := onStop plan halt stop }
  /-- A reply waits: the script that runs is not this session's. -/
  | waits (s : System) (halt : Halt) : s.client = .peeking halt →
      s.server.sent.drop s.eaten ≠ [] → Step s .client { s with client := .hearing halt }
  /-- None is seen in time. -/
  | silent (s : System) (halt : Halt) : s.client = .peeking halt →
      Step s .client { s with client := .killing halt }
  | kill (s : System) (halt : Halt) (answer : Except RedisError (Resp.Value F)) (v : Server) :
      s.client = .killing halt → s.server.Serves .kill answer v →
      Step s .client { s with client := .killed halt (killAnswer answer), server := v }
  | gone (s : System) (halt : Halt) (stop : Except RedisError Stop) :
      s.client = .killed halt stop → Step s .client { s with client := settle plan halt stop }
  | hear (s : System) (halt : Halt) (inbox rest : List Bytes) (h : Head F) :
      s.client = .hearing halt → s.Inbox inbox →
      replyHead floats (buffers ending) inbox = (.ok h, rest) →
      Step s (.heard h) { s with client := onAnswer plan halt h }
  | unconfirmed (s : System) (halt : Halt) : s.client = .hearing halt →
      Step s .client
        { s with client := unproven plan halt "the server did not confirm the stop" }

end

/-! ## What the server keeps -/

/-- What has not begun has applied nothing, and what the server ended by itself neither. -/
structure Server.Sound (v : Server) : Prop where
  queued : v.phase = .queued → v.applied = false
  refused : v.origin = some .server → v.phase = .ended ∧ v.applied = false

def Server.Over (v w : Server) : Prop :=
  v.phase = .ended → w.phase = .ended ∧ w.applied = v.applied

theorem Server.Over.refl (v : Server) : v.Over v := fun h => ⟨h, rfl⟩

theorem Server.Over.of_phase {v w : Server} {phase : Phase} (h : v.phase = phase)
    (hphase : phase ≠ .ended) : v.Over w := by
  intro hended
  exact absurd (h.symm.trans hended) hphase

theorem Server.Sound.refuse {v : Server} (h : v.applied = false) (reply : Bytes) :
    (v.refuse reply).Sound :=
  ⟨fun _ => h, fun _ => ⟨rfl, h⟩⟩

theorem Server.Sound.origin {v : Server} (hv : v.Sound) {phase : Phase} (h : v.phase = phase)
    (hphase : phase ≠ .ended) : v.origin ≠ some .server := by
  intro horigin
  exact hphase (h.symm.trans (hv.refused horigin).1)

theorem Server.Sound.go_on {v : Server} (hv : v.Sound) {phase next : Phase} (h : v.phase = phase)
    (hphase : phase ≠ .ended) (hnext : next ≠ .queued) (applied : Bool) :
    ({ v with phase := next, applied := applied } : Server).Sound :=
  ⟨fun hqueued => absurd hqueued hnext,
    fun horigin => absurd horigin (hv.origin h hphase)⟩

theorem Server.Move.keeps {v w : Server} (h : v.Move w) (hv : v.Sound) : w.Sound ∧ v.Over w := by
  cases h with
  | push bytes => exact ⟨⟨hv.queued, hv.refused⟩, fun hended => ⟨hended, rfl⟩⟩
  | busy hphase =>
    exact ⟨.refuse (hv.queued hphase) busyReply, .of_phase hphase (by decide)⟩
  | begin hphase =>
    exact ⟨hv.go_on hphase (by decide) (by decide) v.applied, .of_phase hphase (by decide)⟩
  | write hphase =>
    refine ⟨⟨fun hqueued => ?_, fun horigin => ?_⟩, .of_phase hphase (by decide)⟩
    · cases hphase.symm.trans hqueued
    · exact absurd horigin (hv.origin hphase (by decide))
  | block hphase | serve hphase =>
    exact ⟨hv.go_on hphase (by decide) (by decide) v.applied, .of_phase hphase (by decide)⟩
  | finish reply hphase =>
    refine ⟨⟨fun hqueued => ?_, fun horigin => ?_⟩, .of_phase hphase (by decide)⟩
    · cases hqueued
    · cases horigin

theorem Server.Serves.keeps {F : Type} {request : StopRequest} {v w : Server}
    {answer : Except RedisError (Resp.Value F)} (h : v.Serves request answer w) (hv : v.Sound) :
    w.Sound ∧ v.Over w := by
  cases h with
  | refused => exact ⟨hv, .refl v⟩
  | unblocked _ hphase happlied =>
    exact ⟨.refuse happlied unblockedReply, .of_phase hphase (by decide)⟩
  | resumed _ hphase =>
    exact ⟨hv.go_on hphase (by decide) (by decide) v.applied, .of_phase hphase (by decide)⟩
  | notBlocked | stats => exact ⟨hv, .refl v⟩
  | killed _ hphase happlied =>
    exact ⟨.refuse happlied killedReply, .of_phase hphase (by decide)⟩
  | other => exact ⟨hv, .refl v⟩

/-! ## What a stopped execution ends with -/

/-- The stop's own error, and nothing was applied; or an outcome that is not known. -/
def Settled (v : Server) (halt : Halt) (outcome : Option ExecError) : Prop :=
  (outcome = some halt.error ∧ v.phase = .ended ∧ v.applied = false) ∨
    ∃ text, outcome = some (.outcomeUnknown text)

def System.Honest (s : System) : Prop :=
  ∀ halt outcome, s.halted = some halt → s.client = .ended outcome →
    Settled s.server halt outcome

theorem Settled.over {v w : Server} {halt : Halt} {outcome : Option ExecError}
    (h : Settled v halt outcome) (hover : v.Over w) : Settled w halt outcome := by
  rcases h with ⟨houtcome, hphase, happlied⟩ | hunknown
  · obtain ⟨hended, hsame⟩ := hover hphase
    exact .inl ⟨houtcome, hended, hsame.trans happlied⟩
  · exact .inr hunknown

/-- A client under way knows the stop that reached it. -/
def Client.Under : Client → Option Halt → Prop
  | .waiting, halted | .reading, halted => halted = none
  | .asking halt, halted | .answered halt _, halted | .peeking halt, halted
  | .killing halt, halted | .killed halt _, halted | .hearing halt, halted => halted = some halt
  | .ended _, _ => True

structure System.Inv (s : System) : Prop where
  server : s.server.Sound
  under : s.client.Under s.halted
  honest : s.Honest

section

variable {F : Type} {floats : Resp.Floats F} {ending : Ending} {plan : Plan}

/-- A text taken as a proof is the server's own, or comes from a command that applied nothing. -/
def Sincere (plan : Plan) (s : System) : Event F → Prop
  | .heard (.error text) =>
    proves plan.running (RedisError.fromServer text) → s.server.origin = some .server ∨
      (s.server.phase = .ended ∧ s.server.applied = false)
  | _ => True

/-- Where a stopped execution may be. -/
def Client.Ready (v : Server) (halt : Halt) (c : Client) : Prop :=
  c.Under (some halt) ∧ ∀ outcome, c = .ended outcome → Settled v halt outcome

theorem System.Inv.unstopped {t : System} (hserver : t.server.Sound)
    (hunder : t.client.Under t.halted) (hnone : t.halted = none) : t.Inv :=
  ⟨hserver, hunder, fun _ _ hhalted _ => nomatch hnone.symm.trans hhalted⟩

theorem System.Inv.stopped {t : System} {halt : Halt} (hserver : t.server.Sound)
    (hhalted : t.halted = some halt) (h : t.client.Ready t.server halt) : t.Inv := by
  refine ⟨hserver, hhalted ▸ h.1, fun other outcome hother hended => ?_⟩
  obtain rfl := Option.some.inj (hhalted.symm.trans hother)
  exact h.2 outcome hended

theorem Client.Ready.going {v : Server} {halt : Halt} {c : Client} (hunder : c.Under (some halt))
    (hgoes : ∀ outcome, c ≠ .ended outcome) : c.Ready v halt :=
  ⟨hunder, fun outcome hended => absurd hended (hgoes outcome)⟩

theorem Client.Ready.ended {v : Server} {halt : Halt} {outcome : Option ExecError}
    (h : Settled v halt outcome) : (Client.ended outcome).Ready v halt := by
  refine ⟨trivial, fun other hother => ?_⟩
  cases hother
  exact h

section

variable (hintent : plan.intent ≠ some .read) (v : Server) (halt : Halt)

include hintent

theorem unproven_ready (text : String) : (unproven plan halt text).Ready v halt := by
  obtain ⟨told, htold⟩ := verdict_unproven hintent halt text
  exact .ended (.inr ⟨told, congrArg some htold⟩)

theorem settle_ready (stop : Except RedisError Stop) : (settle plan halt stop).Ready v halt := by
  unfold settle
  split
  · exact .going rfl nofun
  · exact unproven_ready hintent v halt _
  · exact unproven_ready hintent v halt _
  · exact unproven_ready hintent v halt _
  · exact unproven_ready hintent v halt _

theorem onStop_ready (stop : Except RedisError Stop) : (onStop plan halt stop).Ready v halt := by
  unfold onStop
  split
  · exact .going rfl nofun
  · exact settle_ready hintent v halt stop

theorem onAnswer_ready {s : System} (hs : s.server.Sound) {head : Head F}
    (hsincere : Sincere plan s (.heard head)) :
    (onAnswer plan halt head).Ready s.server halt := by
  unfold onAnswer
  split
  next text =>
    cases hproves : proves plan.running (RedisError.fromServer text) with
    | false => exact unproven_ready hintent s.server halt _
    | true =>
      refine .ended (.inl ⟨congrArg some (verdict_proven halt plan.intent _), ?_⟩)
      rcases hsincere hproves with horigin | hended
      · exact hs.refused horigin
      · exact hended
  next => exact unproven_ready hintent s.server halt _

theorem Step.keeps {s t : System} {ev : Event F} (h : Step floats ending plan s ev t)
    (hsincere : Sincere plan s ev) (hs : s.Inv) : t.Inv := by
  have hunder := hs.under
  cases h with
  | server w hmove =>
    obtain ⟨hw, hover⟩ := hmove.keeps hs.server
    exact ⟨hw, hunder, fun halt outcome hhalted hended =>
      (hs.honest halt outcome hhalted hended).over hover⟩
  | head inbox rest head hclient =>
    rw [hclient] at hunder
    refine .unstopped hs.server ?_ hunder
    show (onHead plan head).Under s.halted
    unfold onHead
    split
    · trivial
    · exact hunder
  | lost e hclient =>
    refine .unstopped hs.server trivial ?_
    rcases hclient with hclient | hclient
    · rw [hclient] at hunder
      exact hunder
    · rw [hclient] at hunder
      exact hunder
  | read hclient =>
    rw [hclient] at hunder
    exact .unstopped hs.server trivial hunder
  | stop halt eaten => exact .stopped hs.server rfl (.going rfl nofun)
  | stopLost halt => exact .stopped hs.server rfl (unproven_ready hintent s.server halt _)
  | stopReading halt text =>
    exact .stopped hs.server rfl (unproven_ready hintent s.server halt text)
  | impossible halt hclient =>
    rw [hclient] at hunder
    exact .stopped hs.server hunder (onStop_ready hintent s.server halt (.ok .impossible))
  | asked halt request answer w hclient _ hserves =>
    rw [hclient] at hunder
    exact .stopped (hserves.keeps hs.server).1 hunder (.going rfl nofun)
  | told halt stop hclient =>
    rw [hclient] at hunder
    exact .stopped hs.server hunder (onStop_ready hintent s.server halt stop)
  | waits halt hclient | silent halt hclient =>
    rw [hclient] at hunder
    exact .stopped hs.server hunder (.going rfl nofun)
  | kill halt answer w hclient hserves =>
    rw [hclient] at hunder
    exact .stopped (hserves.keeps hs.server).1 hunder (.going rfl nofun)
  | gone halt stop hclient =>
    rw [hclient] at hunder
    exact .stopped hs.server hunder (settle_ready hintent s.server halt stop)
  | hear halt inbox rest head hclient =>
    rw [hclient] at hunder
    exact .stopped hs.server hunder (onAnswer_ready hintent halt hs.server hsincere)
  | unconfirmed halt hclient =>
    rw [hclient] at hunder
    exact .stopped hs.server hunder (unproven_ready hintent s.server halt _)

end

theorem System.Inv.start : System.start.Inv :=
  .unstopped ⟨fun _ => rfl, fun horigin => nomatch horigin⟩ rfl rfl

/-- A stopped write is never told as not done when it may have been: the stop's own error says
that nothing was applied, for the whole of every run that is sincere. -/
theorem stopped_write_is_settled (hintent : plan.intent ≠ some .read) {tr : List (Event F)}
    {s : System}
    (h : Steps (fun s ev t => Sincere plan s ev ∧ Step floats ending plan s ev t) System.start tr
      s) : s.Honest :=
  (h.invariant (fun _ _ _ hs hstep => hstep.2.keeps hintent hstep.1 hs) System.Inv.start).honest

/-! ### A command unblocked, and a script that says it was busy -/

theorem replyHead_of_errorLine {line text rest : Bytes}
    (hline : lineFrom ending [] [rest] = (.ok line, [])) (htext : line = 45 :: text) :
    replyHead floats (buffers ending) [rest] = (.ok (.error text), []) := by
  refine replyHead_of_head (head_of_line hline ?_) nofun
  rw [htext]
  rfl

end

def blockedPlan : Plan := ⟨[], some .write, false, .blocking, true⟩

/-- What it answers once unblocked, without the marker and the end of the line. -/
def unblockedText : Bytes := Text.bytes "UNBLOCKED client unblocked via CLIENT UNBLOCK".toList

theorem unblocked_write_is_cancelled :
    ∃ s : System, s.client = .ended (some .cancelled) ∧ s.halted = some .cancelled ∧ s.Honest := by
  let step := fun s (ev : Event Unit) t =>
    Sincere blockedPlan s ev ∧ Step noDoubles .closed blockedPlan s ev t
  have hbegin : step System.start .server ⟨.waiting, ⟨.running, false, none, []⟩, 0, none⟩ :=
    ⟨trivial, .server _ _ (.begin _ rfl)⟩
  have hblock : step ⟨.waiting, ⟨.running, false, none, []⟩, 0, none⟩ .server
      ⟨.waiting, ⟨.blocked, false, none, []⟩, 0, none⟩ :=
    ⟨trivial, .server _ _ (.block _ rfl)⟩
  have hstop : step ⟨.waiting, ⟨.blocked, false, none, []⟩, 0, none⟩ (.halt .cancelled)
      ⟨.asking .cancelled, ⟨.blocked, false, none, []⟩, 0, some .cancelled⟩ :=
    ⟨trivial, .stop _ .cancelled 0 rfl⟩
  have hserves : Server.Serves (F := Unit) .unblock ⟨.blocked, false, none, []⟩
      (.ok (.integer 1)) ⟨.ended, false, some .server, unblockedReply⟩ := .unblocked _ rfl rfl
  have hasked : step ⟨.asking .cancelled, ⟨.blocked, false, none, []⟩, 0, some .cancelled⟩ .client
      ⟨.answered .cancelled (.ok .sent), ⟨.ended, false, some .server, unblockedReply⟩, 0,
        some .cancelled⟩ :=
    ⟨trivial, .asked _ .cancelled .unblock (.ok (.integer 1)) _ rfl rfl hserves⟩
  have htold : step ⟨.answered .cancelled (.ok .sent),
        ⟨.ended, false, some .server, unblockedReply⟩, 0, some .cancelled⟩ .client
      ⟨.hearing .cancelled, ⟨.ended, false, some .server, unblockedReply⟩, 0, some .cancelled⟩ :=
    ⟨trivial, .told _ .cancelled (.ok .sent) rfl⟩
  have hread : replyHead noDoubles (buffers .closed) [unblockedReply] =
      (.ok (.error unblockedText), []) :=
    replyHead_of_errorLine (by decide) rfl
  have hheard : step
      ⟨.hearing .cancelled, ⟨.ended, false, some .server, unblockedReply⟩, 0, some .cancelled⟩
      (.heard (.error unblockedText))
      ⟨onAnswer blockedPlan .cancelled (.error unblockedText : Head Unit),
        ⟨.ended, false, some .server, unblockedReply⟩, 0, some .cancelled⟩ :=
    ⟨fun _ => .inl rfl, .hear _ .cancelled [unblockedReply] [] _ rfl (List.append_nil _) hread⟩
  have hproof : proves .blocking (RedisError.fromServer unblockedText) = true := by decide
  refine ⟨_, ?_, rfl, stopped_write_is_settled (by decide)
    ((((((Steps.nil.snoc hbegin).snoc hblock).snoc hstop).snoc hasked).snoc htold).snoc hheard)⟩
  show Client.ended (some (verdict _ (proves .blocking _) _ _)) = _
  rw [hproof, verdict_proven]
  rfl

def scriptPlan : Plan := ⟨[], some .write, true, .script, true⟩

/-- The error it ends with. -/
def busyText : Bytes := Text.bytes "BUSY done".toList

def busyLine : Bytes := Text.bytes "-BUSY done\r\n".toList

theorem script_that_wrote_is_cancelled :
    ¬ ∀ (plan : Plan) (tr : List (Event Unit)) (s : System), plan.intent ≠ some .read →
      Steps (Step noDoubles .closed plan) System.start tr s → s.Honest := by
  intro hclaim
  have hbegin : Step noDoubles .closed scriptPlan System.start .server
      ⟨.waiting, ⟨.running, false, none, []⟩, 0, none⟩ := .server _ _ (.begin _ rfl)
  have hwrite : Step noDoubles .closed scriptPlan ⟨.waiting, ⟨.running, false, none, []⟩, 0, none⟩
      .server ⟨.waiting, ⟨.running, true, none, []⟩, 0, none⟩ := .server _ _ (.write _ rfl)
  have hstop : Step noDoubles .closed scriptPlan ⟨.waiting, ⟨.running, true, none, []⟩, 0, none⟩
      (.halt .cancelled)
      ⟨.asking .cancelled, ⟨.running, true, none, []⟩, 0, some .cancelled⟩ :=
    .stop _ .cancelled 0 rfl
  have hasked : Step noDoubles .closed scriptPlan
      ⟨.asking .cancelled, ⟨.running, true, none, []⟩, 0, some .cancelled⟩ .client
      ⟨.answered .cancelled (.ok .candidate), ⟨.running, true, none, []⟩, 0, some .cancelled⟩ :=
    .asked _ .cancelled .stats (.error (.server "BUSY".toList [])) _ rfl rfl (.refused _ _ _)
  have hfinish : Step noDoubles .closed scriptPlan
      ⟨.answered .cancelled (.ok .candidate), ⟨.running, true, none, []⟩, 0, some .cancelled⟩
      .server
      ⟨.answered .cancelled (.ok .candidate), ⟨.ended, true, some .command, busyLine⟩, 0,
        some .cancelled⟩ := .server _ _ (.finish _ busyLine rfl)
  have htold : Step noDoubles .closed scriptPlan
      ⟨.answered .cancelled (.ok .candidate), ⟨.ended, true, some .command, busyLine⟩, 0,
        some .cancelled⟩ .client
      ⟨.peeking .cancelled, ⟨.ended, true, some .command, busyLine⟩, 0, some .cancelled⟩ :=
    .told _ .cancelled (.ok .candidate) rfl
  have hwaits : Step noDoubles .closed scriptPlan
      ⟨.peeking .cancelled, ⟨.ended, true, some .command, busyLine⟩, 0, some .cancelled⟩ .client
      ⟨.hearing .cancelled, ⟨.ended, true, some .command, busyLine⟩, 0, some .cancelled⟩ :=
    .waits _ .cancelled rfl (by decide)
  have hread : replyHead noDoubles (buffers .closed) [busyLine] = (.ok (.error busyText), []) :=
    replyHead_of_errorLine (by decide) rfl
  have hheard : Step noDoubles .closed scriptPlan
      ⟨.hearing .cancelled, ⟨.ended, true, some .command, busyLine⟩, 0, some .cancelled⟩
      (.heard (.error busyText))
      ⟨onAnswer scriptPlan .cancelled (.error busyText : Head Unit),
        ⟨.ended, true, some .command, busyLine⟩, 0, some .cancelled⟩ :=
    .hear _ .cancelled [busyLine] [] _ rfl (List.append_nil _) hread
  have hproof : proves scriptPlan.running (RedisError.fromServer busyText) = true := by
    decide
  have hsettled := hclaim scriptPlan _ _ (by decide)
    ((((((((Steps.nil.snoc hbegin).snoc hwrite).snoc hstop).snoc hasked).snoc hfinish).snoc
      htold).snoc hwaits).snoc hheard) .cancelled _ rfl rfl
  rcases hsettled with ⟨-, -, happlied⟩ | ⟨text, htext⟩
  · cases happlied
  · rw [hproof, verdict_proven] at htext
    cases htext

end Oxyn.Redis
