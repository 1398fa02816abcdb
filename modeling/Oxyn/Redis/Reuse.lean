/-
# `Oxyn.Redis.Reuse` — the console's connection, from one command to the next

One execution at a time holds the console's connection.
-/
import Oxyn.Lib.Runs
import Oxyn.Redis.Cursor

open Runs

namespace Oxyn.Redis

open List

open Text Resp

/-! ## The connection -/

/-- What was sent and is not read yet, and how many replies were sent for and not read to their end.
-/
structure Connection where
  stream : Bytes
  unread : Nat

/-- May the next command be written? -/
def Connection.inStep (c : Connection) : Bool := c.unread == 0

/-- One reply was read to its end. -/
def Connection.replied (c : Connection) : Connection := { c with unread := c.unread - 1 }

/-- A command is written, and answered by the server at some time. -/
def Connection.send (c : Connection) (reply : Bytes) : Connection :=
  ⟨c.stream ++ reply, c.unread + 1⟩

/-- What a read leaves. -/
def Connection.at (c : Connection) (rest : Flat) : Connection := { c with stream := rest.rest }

/-- A read cut off has taken so many bytes. -/
def Connection.lose (c : Connection) (taken : Nat) : Connection :=
  { c with stream := c.stream.drop taken }

/-! ## The session -/

/-- What the execution that holds the connection waits for. -/
inductive Exec (F : Type) where
  | idle
  /-- The reply to a command of the driver's own. -/
  | calling
  /-- The head of the reply. -/
  | heading (argv : List Bytes)
  /-- The text of an error. -/
  | refused (len : Nat)
  /-- The first record, which names the columns. -/
  | naming (remaining : Nat)
  /-- The stop's answer. -/
  | stopping
  | reading (state : State F) (pending : Bool)

/-- The console's connection, the execution that holds it, and the pushes sent behind the last
reply. -/
structure Session (F : Type) where
  slot : Option Connection
  exec : Exec F
  late : Bytes

def Session.start {F : Type} : Session F := ⟨none, .idle, []⟩

/-- The connection is discarded. -/
def Session.close {F : Type} (s : Session F) : Session F := { s with slot := none, exec := .idle }

def Session.go {F : Type} (s : Session F) (c : Connection) (exec : Exec F) : Session F :=
  { s with slot := some c, exec := exec }

def beginReading {F : Type} (argv : List Bytes) (h : Head F) : Exec F :=
  match Layout.choose argv h, h with
  | .records, .aggregate _ (n + 1) => .naming (n + 1)
  | layout, h => .reading (.start layout h) false

def Session.onHead {F : Type} (s : Session F) (c : Connection) (argv : List Bytes) (h : Head F) :
    Session F :=
  match h with
  | .error _ => s.go c.replied .idle
  | .bulkError len => s.go c (.refused len)
  | h => s.go c (beginReading argv h)

def Session.onAnswer {F : Type} (s : Session F) (c : Connection) (h : Head F) : Session F :=
  match h with
  | .error _ => s.go c.replied .idle
  | _ => s.close

def Pushes {F : Type} (floats : Resp.Floats F) (bytes : Bytes) : Prop :=
  ∃ pushes, (∀ p ∈ pushes, isPush p = true) ∧ Encodes floats pushes bytes

/-- A reply. -/
def Replies {F : Type} (floats : Resp.Floats F) (bytes : Bytes) : Prop :=
  ∃ t, isPush t = false ∧ Encodes floats [t] bytes

inductive SessionEvent (F : Type) where
  | other
  | heard (head : Head F)

section

variable {F : Type} (floats : Resp.Floats F) (ending : Ending) (cost : Nat)

inductive Session.Step : Session F → SessionEvent F → Session F → Prop
  /-- A connection out of step is closed before the next command. -/
  | refresh (s : Session F) (c : Connection) : s.exec = .idle → s.slot = some c →
      c.inStep = false → Step s .other s.close
  | open (s : Session F) : s.exec = .idle → s.slot = none →
      Step s .other ⟨some ⟨[], 0⟩, .idle, []⟩
  /-- Something out of band. -/
  | push (s : Session F) (c : Connection) (bytes : Bytes) : s.slot = some c →
      Pushes floats bytes →
      Step s .other
        { s with slot := some { c with stream := c.stream ++ bytes }, late := s.late ++ bytes }
  /-- The next command finds the connection in step. -/
  | send (s : Session F) (c : Connection) (argv : List Bytes) (reply : Bytes) : s.exec = .idle →
      s.slot = some c → c.inStep = true → Replies floats reply →
      (s.late ++ reply).length ≤ u64Max →
      Step s .other ⟨some (c.send reply), .heading argv, []⟩
  | call (s : Session F) (c : Connection) (reply : Bytes) : s.exec = .idle →
      s.slot = some c → c.inStep = true → Replies floats reply →
      (s.late ++ reply).length ≤ u64Max →
      Step s .other ⟨some (c.send reply), .calling, []⟩
  | called (s : Session F) (c : Connection) (h : Head F) (v : Resp.Value F × Nat) (budget : Nat)
      (mid rest : Flat) : s.exec = .calling → s.slot = some c →
      replyHead floats (flat ending) (behind c.stream) = (.ok h, mid) →
      restOf floats (flat ending) cost h budget mid = (.ok v, rest) →
      Step s .other (s.go (c.at rest).replied .idle)
  | head (s : Session F) (c : Connection) (argv : List Bytes) (h : Head F) (rest : Flat) :
      s.exec = .heading argv → s.slot = some c →
      replyHead floats (flat ending) (behind c.stream) = (.ok h, rest) →
      Step s .other (s.onHead (c.at rest) argv h)
  | refused (s : Session F) (c : Connection) (len : Nat) (text : Clipped) (rest : Flat) :
      s.exec = .refused len → s.slot = some c →
      bulk (flat ending) len (2 ^ 16) (behind c.stream) = (.ok text, rest) →
      Step s .other (s.go (c.at rest).replied .idle)
  | named (s : Session F) (c : Connection) (remaining : Nat) (first : Resp.Value F × Nat)
      (rest : Flat) : s.exec = .naming remaining → s.slot = some c →
      value floats (flat ending) cost maxValueBytes (behind c.stream) = (.ok first, rest) →
      Step s .other (s.go (c.at rest) (.reading (.elements remaining) true))
  | stepped (s : Session F) (c : Connection) (state next : State F) (pending : Bool)
      (rest : Flat) : s.exec = .reading state pending → s.slot = some c →
      state.step floats (flat ending) cost pending (behind c.stream) = (.ok next, rest) →
      Step s .other (s.go (c.at rest) (.reading next false))
  /-- The reply is read. -/
  | ended (s : Session F) (c : Connection) (state : State F) (pending : Bool) :
      s.exec = .reading state pending → s.slot = some c → state.hasMore = false →
      Step s .other (s.go c.replied .idle)
  /-- A read failed, an execution that reads was stopped, its rows are enough; or the session
  closes. -/
  | discard (s : Session F) : Step s .other s.close
  /-- The cursor is dropped between two batches. -/
  | dropped (s : Session F) (c : Connection) (state : State F) (pending : Bool) :
      s.exec = .reading state pending → s.slot = some c →
      Step s .other (if state.hasMore then s.close else s.go c .idle)
  /-- A future is dropped in flight: a cursor then takes its reply for read. -/
  | cut (s : Session F) (c : Connection) (taken : Nat) : s.exec ≠ .idle → s.slot = some c →
      Step s .other (s.go (c.lose taken) .idle)
  /-- A stop before the head is there. -/
  | stop (s : Session F) (c : Connection) (argv : List Bytes) (taken : Nat) :
      s.exec = .heading argv → s.slot = some c → taken + s.late.length ≤ c.stream.length →
      Step s .other (s.go (c.lose taken) .stopping)
  | answer (s : Session F) (c : Connection) (h : Head F) (rest : Flat) : s.exec = .stopping →
      s.slot = some c → replyHead floats (flat ending) (behind c.stream) = (.ok h, rest) →
      Step s (.heard h) (s.onAnswer (c.at rest) h)

end

/-! ## What is left on the stream -/

section

variable {F : Type} (floats : Resp.Floats F) (ending : Ending)

/-- How many replies an execution has not read to their end. -/
def Exec.owes : Exec F → Nat
  | .idle => 0
  | _ => 1

def Left : Exec F → Bytes → Prop
  | .idle, left => left = []
  | .calling, left | .heading _, left => Whole floats left
  | .refused len, left =>
    ∃ t one, Opens ending floats t one (.bulkError len) left ∧ one.length ≤ u64Max
  | .naming remaining, left => 0 < remaining ∧ Fits ending floats false (.elements remaining) left
  | .stopping, _ => True
  | .reading state pending, left => Fits ending floats pending state left

/-- The connection is out of step and known to be, or what is on it is what is left. -/
def Holds (exec : Exec F) (c : Connection) (late : Bytes) : Prop :=
  (exec = .idle ∧ c.unread ≠ 0) ∨
    (c.unread = exec.owes ∧ ∃ left, c.stream = left ++ late ∧ Left floats ending exec left)

structure Session.Inv (s : Session F) : Prop where
  late : Pushes floats s.late
  empty : s.slot = none → s.exec = .idle
  held : ∀ c, s.slot = some c → Holds floats ending s.exec c s.late

/-- An error read as the answer to a stop stands where what is left of the reply is a reply. -/
def Aligned (s : Session F) : SessionEvent F → Prop
  | .heard (.error _) => ∀ c, s.slot = some c → ∃ left, c.stream = left ++ s.late ∧ Whole floats left
  | _ => True

end

section

variable {F : Type} {floats : Resp.Floats F} {ending : Ending} {cost : Nat} {s t : Session F}
  {c : Connection}

theorem Session.Inv.holds (h : s.Inv floats ending) (hslot : s.slot = some c)
    (hexec : s.exec ≠ .idle) :
    c.unread = s.exec.owes ∧ ∃ left, c.stream = left ++ s.late ∧ Left floats ending s.exec left := by
  rcases h.held c hslot with ⟨hidle, -⟩ | hholds
  · exact absurd hidle hexec
  · exact hholds

theorem Session.Inv.close (h : s.Inv floats ending) : s.close.Inv floats ending :=
  ⟨h.late, fun _ => rfl, nofun⟩

theorem Session.Inv.go (h : s.Inv floats ending) {exec : Exec F} (hunread : c.unread = exec.owes)
    {left : Bytes} (hstream : c.stream = left ++ s.late) (hleft : Left floats ending exec left) :
    (s.go c exec).Inv floats ending := by
  refine ⟨h.late, nofun, fun d hd => ?_⟩
  cases hd
  exact .inr ⟨hunread, left, hstream, hleft⟩

theorem Session.Inv.replied (h : s.Inv floats ending) (hunread : c.unread = 1)
    (hstream : c.stream = s.late) : (s.go c.replied .idle).Inv floats ending := by
  have hzero : c.replied.unread = 0 := by
    show c.unread - 1 = 0
    rw [hunread]
  have hleft : c.replied.stream = [] ++ s.late := hstream
  exact h.go hzero hleft rfl

theorem Session.Inv.abandoned (h : s.Inv floats ending) (hunread : c.unread ≠ 0) :
    (s.go c .idle).Inv floats ending := by
  refine ⟨h.late, nofun, fun d hd => ?_⟩
  cases hd
  exact .inl ⟨rfl, hunread⟩

theorem whole_of_late {late reply : Bytes} (hlate : Pushes floats late)
    (hreply : Replies floats reply) (hsmall : (late ++ reply).length ≤ u64Max) :
    Whole floats (late ++ reply) := by
  obtain ⟨pushes, hpushes, hencodes⟩ := hlate
  obtain ⟨t, ht, hone⟩ := hreply
  exact ⟨hsmall, pushes, t, hpushes, ht, encodes_append hencodes hone⟩

theorem Session.Inv.stream_eq (h : s.Inv floats ending) (hexec : s.exec = .idle)
    (hslot : s.slot = some c) (hstep : c.inStep = true) : c.stream = s.late := by
  have hzero : c.unread = 0 := by simpa [Connection.inStep] using hstep
  rcases h.held c hslot with ⟨-, hunread⟩ | ⟨-, left, hstream, hleft⟩
  · exact absurd hzero hunread
  · rw [hexec] at hleft
    obtain rfl : left = [] := hleft
    exact hstream

variable {u : Resp.Tree F}

theorem bulk_of_opens {one left late : Bytes} {len keep : Nat}
    (hopens : Opens ending floats u one (.bulkError len) left) (hkeep : keep ≤ maxLine)
    {text : Clipped} {rest : Flat}
    (hread : bulk (flat ending) len keep (behind (left ++ late)) = (.ok text, rest)) :
    rest = behind late := by
  have hreads := (hopens.opened.reads nofun).keep (fun _ _ => Resp.elide floats (flat ending) .array 0)
    prunedWhole keep late
  obtain ⟨other, mid, hbulk, hpure⟩ := Scan.bind_eq_ok hreads
  rw [Nat.min_eq_left hkeep, hread] at hbulk
  cases hbulk
  exact (Prod.mk.inj hpure).2

theorem begin_left (argv : List Bytes) {one body : Bytes} {h : Head F}
    (hopens : Opens ending floats u one h body) (hsmall : one.length ≤ u64Max) :
    (beginReading argv h).owes = 1 ∧ Left floats ending (beginReading argv h) body := by
  have hfits := start_fits argv hopens hsmall
  unfold beginReading
  split
  next n hlayout =>
    rw [hlayout] at hfits
    exact ⟨rfl, Nat.succ_pos n, hfits⟩
  next => exact ⟨rfl, hfits⟩

theorem error_leaves_nothing {one body text : Bytes}
    (hopens : Opens ending floats u one (.error text) body) : body = [] :=
  HeadReads.eq_nil (hopens.opened.reads nofun) fun _ => rfl

theorem Session.Inv.onHead (h : s.Inv floats ending) (hunread : c.unread = 1) (argv : List Bytes)
    {one body : Bytes} {hd : Head F} (hopens : Opens ending floats u one hd body)
    (hsmall : one.length ≤ u64Max) (hstream : c.stream = body ++ s.late) :
    (s.onHead c argv hd).Inv floats ending := by
  unfold Session.onHead
  split
  next =>
    rw [error_leaves_nothing hopens] at hstream
    exact h.replied hunread hstream
  next => exact h.go hunread hstream ⟨u, one, hopens, hsmall⟩
  next =>
    obtain ⟨howes, hleft⟩ := begin_left argv hopens hsmall
    exact h.go (hunread.trans howes.symm) hstream hleft

theorem Session.Inv.onAnswer (h : s.Inv floats ending) (hunread : c.unread = 1)
    (hslot : s.slot = some c) {hd : Head F} {rest : Flat} (haligned : Aligned floats s (.heard hd))
    (hhead : replyHead floats (flat ending) (behind c.stream) = (.ok hd, rest)) :
    (s.onAnswer (c.at rest) hd).Inv floats ending := by
  unfold Session.onAnswer
  split
  next text =>
    obtain ⟨left, hstream, hwhole⟩ := haligned c hslot
    obtain ⟨u, one, hd, body, hopens, -, -, hread⟩ := replyHead_of_whole ending hwhole
    rw [hstream, hread s.late] at hhead
    cases hhead
    refine h.replied hunread ?_
    show body ++ s.late = s.late
    rw [error_leaves_nothing hopens, nil_append]
  next => exact h.close

theorem Session.Step.keeps {ev : SessionEvent F} (hstep : s.Step floats ending cost ev t)
    (haligned : Aligned floats s ev) (h : s.Inv floats ending) : t.Inv floats ending := by
  cases hstep with
  | refresh | discard => exact h.close
  | «open» hexec hslot =>
    refine ⟨⟨[], nofun, .nil⟩, nofun, fun d hd => ?_⟩
    cases hd
    exact .inr ⟨rfl, [], rfl, rfl⟩
  | push c bytes hslot hbytes =>
    obtain ⟨pushes, hpushes, hencodes⟩ := h.late
    obtain ⟨others, hothers, hmore⟩ := hbytes
    refine ⟨⟨pushes ++ others, ?_, encodes_append hencodes hmore⟩, nofun, fun d hd => ?_⟩
    · intro p hp
      rcases mem_append.mp hp with hp | hp
      · exact hpushes p hp
      · exact hothers p hp
    · cases hd
      rcases h.held c hslot with hknown | ⟨hunread, left, hstream, hleft⟩
      · exact .inl hknown
      · refine .inr ⟨hunread, left, ?_, hleft⟩
        show c.stream ++ bytes = left ++ (s.late ++ bytes)
        rw [hstream, append_assoc]
  | send c argv reply hexec hslot hin hreply hsmall | call c reply hexec hslot hin hreply hsmall =>
    have hstream := h.stream_eq hexec hslot hin
    have hzero : c.unread = 0 := by simpa [Connection.inStep] using hin
    refine ⟨⟨[], nofun, .nil⟩, nofun, fun d hd => ?_⟩
    cases hd
    refine .inr ⟨congrArg (· + 1) hzero, s.late ++ reply, ?_, whole_of_late h.late hreply hsmall⟩
    show c.stream ++ reply = _
    rw [hstream, append_nil]
  | called c hd v budget mid rest hexec hslot hhead hrest =>
    obtain ⟨hunread, left, hstream, hleft⟩ := h.holds hslot (by rw [hexec]; nofun)
    rw [hexec] at hunread hleft
    obtain ⟨u, one, hd', body, hopens, hsmall, -, hread⟩ :=
      replyHead_of_whole ending hleft
    rw [hstream, hread s.late] at hhead
    cases hhead
    obtain ⟨v', hv⟩ := hopens.restOf hsmall cost budget s.late
    rw [hv] at hrest
    cases hrest
    exact h.replied hunread rfl
  | head c argv hd rest hexec hslot hhead =>
    obtain ⟨hunread, left, hstream, hleft⟩ := h.holds hslot (by rw [hexec]; nofun)
    rw [hexec] at hunread hleft
    obtain ⟨u, one, hd', body, hopens, hsmall, -, hread⟩ :=
      replyHead_of_whole ending hleft
    rw [hstream, hread s.late] at hhead
    cases hhead
    have hone : (c.at (behind (body ++ s.late))).unread = 1 := hunread
    exact h.onHead hone argv hopens hsmall rfl
  | refused c len text rest hexec hslot hbulk =>
    obtain ⟨hunread, left, hstream, hleft⟩ := h.holds hslot (by rw [hexec]; nofun)
    rw [hexec] at hunread hleft
    obtain ⟨u, one, hopens, -⟩ := hleft
    rw [hstream] at hbulk
    obtain rfl := bulk_of_opens hopens (by decide) hbulk
    exact h.replied hunread rfl
  | named c remaining first rest hexec hslot hvalue =>
    obtain ⟨hunread, left, hstream, hleft⟩ := h.holds hslot (by rw [hexec]; nofun)
    rw [hexec] at hunread hleft
    obtain ⟨hpos, hsmall, ts, hts, hlen⟩ := hleft
    match ts, hlen with
    | [], hlen => exact absurd hlen (Nat.ne_of_lt hpos)
    | u :: us, hlen =>
      obtain ⟨others, hothers, hle, hread⟩ := value_of_encodes ending hts hsmall
      obtain ⟨v, hv⟩ := hread cost maxValueBytes s.late
      rw [hstream, hv] at hvalue
      cases hvalue
      exact h.go hunread rfl ⟨hle.trans hsmall, us, hothers, hlen⟩
  | stepped c state next pending rest hexec hslot hrun =>
    obtain ⟨hunread, left, hstream, hleft⟩ := h.holds hslot (by rw [hexec]; nofun)
    rw [hexec] at hunread hleft
    rw [hstream] at hrun
    obtain ⟨left', rfl, hfits⟩ := step_fits cost hleft hrun
    exact h.go hunread rfl hfits
  | ended c state pending hexec hslot hmore =>
    obtain ⟨hunread, left, hstream, hleft⟩ := h.holds hslot (by rw [hexec]; nofun)
    rw [hexec] at hunread hleft
    obtain rfl := Fits.nothing_left hleft hmore
    exact h.replied hunread hstream
  | dropped c state pending hexec hslot =>
    obtain ⟨hunread, -⟩ := h.holds hslot (by rw [hexec]; nofun)
    rw [hexec] at hunread
    split
    · exact h.close
    · have hone : c.unread = 1 := hunread
      exact h.abandoned (hone ▸ Nat.one_ne_zero)
  | cut c taken hexec hslot =>
    obtain ⟨hunread, -⟩ := h.holds hslot hexec
    have hone : s.exec.owes = 1 := by
      unfold Exec.owes
      split
      next hidle => exact absurd hidle hexec
      next => rfl
    have hlost : (c.lose taken).unread = 1 := hunread.trans hone
    exact h.abandoned (hlost ▸ Nat.one_ne_zero)
  | stop c argv taken hexec hslot htaken =>
    obtain ⟨hunread, left, hstream, -⟩ := h.holds hslot (by rw [hexec]; nofun)
    rw [hexec] at hunread
    rw [hstream, length_append] at htaken
    have hdrop : (c.lose taken).stream = left.drop taken ++ s.late := by
      show c.stream.drop taken = _
      rw [hstream, drop_append_of_le_length (by omega)]
    exact h.go hunread hdrop trivial
  | answer c hd rest hexec hslot hhead =>
    obtain ⟨hunread, -⟩ := h.holds hslot (by rw [hexec]; nofun)
    rw [hexec] at hunread
    exact h.onAnswer hunread hslot haligned hhead

theorem Session.Inv.start : (Session.start : Session F).Inv floats ending :=
  ⟨⟨[], nofun, .nil⟩, fun _ => rfl, nofun⟩

/-- The connection is reused only in step: what the next command finds on it is what the server
pushed behind the last reply, every reply read to its end. -/
theorem connection_reused_in_step {tr : List (SessionEvent F)}
    (h : Steps (fun s ev t => Aligned floats s ev ∧ s.Step floats ending cost ev t) Session.start tr
      s) (hexec : s.exec = .idle) (hslot : s.slot = some c) (hin : c.inStep = true) :
    c.stream = s.late ∧ Pushes floats s.late := by
  have hinv : s.Inv floats ending :=
    h.invariant (fun _ _ _ hs hstep => hstep.2.keeps hstep.1 hs) Session.Inv.start
  exact ⟨hinv.stream_eq hexec hslot hin, hinv.late⟩

end

/-! ### An array read whole, and a push cut by a stop -/

theorem line_of_short {l : Bytes} (hfeed : 10 ∉ l) (hlen : l.length < 16) : Line l :=
  ⟨hfeed, Nat.lt_trans hlen (by decide)⟩

/-- `*1`, `:7`. -/
def oneElement : Bytes := [42, 49, 13, 10, 58, 55, 13, 10]

theorem encodes_seven : Encodes noDoubles [.integer 7] [58, 55, 13, 10] := by
  have hseven : IntegerText (decimal [55]) [55] := .plain (by decide) (by decide)
  exact .scalar (.integer hseven) (line_of_short (by decide) (by decide)) .nil

theorem encodes_oneElement :
    Encodes noDoubles [.aggregate .array [.integer 7]] oneElement := by
  have hone : Counts 1 [49] := ⟨by decide, by decide⟩
  refine .aggregate hone ?_ rfl encodes_seven .nil
  exact line_of_short (l := [42, 49]) (by decide) (by decide)

theorem element_read_in_step :
    ∃ (s : Session Unit) (c : Connection), s.slot = some c ∧ c.stream = s.late := by
  let step := fun s (ev : SessionEvent Unit) t =>
    Aligned noDoubles s ev ∧ Session.Step noDoubles .closed 0 s ev t
  have hopen : step Session.start .other ⟨some ⟨[], 0⟩, .idle, []⟩ := ⟨trivial, .open _ rfl rfl⟩
  have hsend : step ⟨some ⟨[], 0⟩, .idle, []⟩ .other ⟨some ⟨oneElement, 1⟩, .heading [], []⟩ :=
    ⟨trivial, .send _ ⟨[], 0⟩ [] oneElement rfl rfl rfl ⟨_, rfl, encodes_oneElement⟩ (by decide)⟩
  have hread : replyHead noDoubles (flat .closed) (behind oneElement) =
      (.ok (.aggregate .array 1), behind [58, 55, 13, 10]) :=
    replyHead_of_head (head_of_line (flat_line .closed (line_of_short (l := [42, 49]) (by decide)
      (by decide)) [58, 55, 13, 10]) rfl) nofun
  have hhead : step ⟨some ⟨oneElement, 1⟩, .heading [], []⟩ .other
      ⟨some ⟨[58, 55, 13, 10], 1⟩, .reading (.elements 1) false, []⟩ :=
    ⟨trivial, .head _ ⟨oneElement, 1⟩ [] (.aggregate .array 1) _ rfl rfl hread⟩
  obtain ⟨v, us, others, hv, hus, hcount, -⟩ :=
    nextValue_of_encodes .closed 0 (n := 0) encodes_seven rfl (by decide) []
  obtain rfl : others = [] := eq_nil_of_encodes hus hcount
  have hseven : nextValue noDoubles (flat .closed) 0 (behind [58, 55, 13, 10]) =
      (.ok v, behind []) := hv
  have hstep : State.step noDoubles (flat .closed) 0 false (.elements 1)
      (behind [58, 55, 13, 10]) = (.ok (.elements 0), behind []) := by
    show (nextValue noDoubles (flat .closed) 0 >>= fun _ => pure (State.elements 0)) _ = _
    rw [Scan.bind_ok hseven]
    rfl
  have hstepped : step ⟨some ⟨[58, 55, 13, 10], 1⟩, .reading (.elements 1) false, []⟩ .other
      ⟨some ⟨[], 1⟩, .reading (.elements 0) false, []⟩ :=
    ⟨trivial, .stepped _ ⟨[58, 55, 13, 10], 1⟩ (.elements 1) (.elements 0) false _ rfl rfl hstep⟩
  have hended : step ⟨some ⟨[], 1⟩, .reading (.elements 0) false, []⟩ .other
      ⟨some ⟨[], 0⟩, .idle, []⟩ :=
    ⟨trivial, .ended _ ⟨[], 1⟩ (.elements 0) false rfl rfl rfl⟩
  exact ⟨_, ⟨[], 0⟩, rfl, (connection_reused_in_step (((((Steps.nil.snoc hopen).snoc hsend).snoc
    hhead).snoc hstepped).snoc hended) rfl rfl rfl).1⟩

/-- `>2`, `invalidate`, `*1`, `k-new`. -/
def invalidation : Bytes :=
  [62, 50, 13, 10, 36, 49, 48, 13, 10, 105, 110, 118, 97, 108, 105, 100, 97, 116, 101, 13, 10,
    42, 49, 13, 10, 36, 53, 13, 10, 107, 45, 110, 101, 119, 13, 10]

theorem pushes_invalidation : Pushes noDoubles invalidation := by
  have hone : Counts 1 [49] := ⟨by decide, by decide⟩
  have htwo : Counts 2 [50] := ⟨by decide, by decide⟩
  have hkey : Counts (List.length [107, 45, 110, 101, 119]) [53] := ⟨by decide, by decide⟩
  have hname : Counts (List.length [105, 110, 118, 97, 108, 105, 100, 97, 116, 101]) [49, 48] :=
    ⟨by decide, by decide⟩
  have hitem : Encodes noDoubles [.bulk [107, 45, 110, 101, 119]]
      [36, 53, 13, 10, 107, 45, 110, 101, 119, 13, 10] :=
    .scalar (.bulk hkey) (line_of_short (l := [36, 53]) (by decide) (by decide)) .nil
  have hkeys : Encodes noDoubles [.aggregate .array [.bulk [107, 45, 110, 101, 119]]]
      [42, 49, 13, 10, 36, 53, 13, 10, 107, 45, 110, 101, 119, 13, 10] := by
    refine .aggregate hone ?_ rfl hitem .nil
    exact line_of_short (l := [42, 49]) (by decide) (by decide)
  have hitems : Encodes noDoubles
      [.bulk [105, 110, 118, 97, 108, 105, 100, 97, 116, 101],
        .aggregate .array [.bulk [107, 45, 110, 101, 119]]]
      [36, 49, 48, 13, 10, 105, 110, 118, 97, 108, 105, 100, 97, 116, 101, 13, 10,
        42, 49, 13, 10, 36, 53, 13, 10, 107, 45, 110, 101, 119, 13, 10] :=
    .scalar (.bulk hname) (line_of_short (l := [36, 49, 48]) (by decide) (by decide)) hkeys
  have hpush : Encodes noDoubles [.aggregate .push
      [.bulk [105, 110, 118, 97, 108, 105, 100, 97, 116, 101],
        .aggregate .array [.bulk [107, 45, 110, 101, 119]]]] invalidation := by
    refine .aggregate htwo ?_ rfl hitems .nil
    exact line_of_short (l := [62, 50]) (by decide) (by decide)
  refine ⟨_, fun p hp => ?_, hpush⟩
  cases mem_singleton.mp hp
  rfl

def unblockedLine : Bytes := [45, 85, 78, 66, 76, 79, 67, 75, 69, 68, 13, 10]

theorem push_cut_by_stop_breaks_step :
    ¬ ∀ (tr : List (SessionEvent Unit)) (s : Session Unit) (c : Connection),
      Steps (Session.Step noDoubles .closed 0) Session.start tr s → s.exec = .idle →
        s.slot = some c → c.inStep = true → c.stream = s.late := by
  intro hclaim
  have hopen : Session.Step noDoubles .closed 0 Session.start .other
      ⟨some ⟨[], 0⟩, .idle, []⟩ := .open _ rfl rfl
  have hpush : Session.Step noDoubles .closed 0 ⟨some ⟨[], 0⟩, .idle, []⟩ .other
      ⟨some ⟨invalidation, 0⟩, .idle, invalidation⟩ :=
    .push _ ⟨[], 0⟩ invalidation rfl pushes_invalidation
  have hencodes : Encodes noDoubles [.error [85, 78, 66, 76, 79, 67, 75, 69, 68]] unblockedLine :=
    .scalar (.error _) (line_of_short (by decide) (by decide)) .nil
  have hsend : Session.Step noDoubles .closed 0 ⟨some ⟨invalidation, 0⟩, .idle, invalidation⟩
      .other ⟨some ⟨invalidation ++ unblockedLine, 1⟩, .heading [], []⟩ :=
    .send _ ⟨invalidation, 0⟩ [] unblockedLine rfl rfl rfl ⟨_, rfl, hencodes⟩ (by decide)
  -- the first reading has taken the push up to the `k` of its key
  have hstop : Session.Step noDoubles .closed 0
      ⟨some ⟨invalidation ++ unblockedLine, 1⟩, .heading [], []⟩ .other
      ⟨some ⟨[45, 110, 101, 119, 13, 10] ++ unblockedLine, 1⟩, .stopping, []⟩ :=
    .stop _ ⟨invalidation ++ unblockedLine, 1⟩ [] 30 rfl rfl (by decide)
  have hread : replyHead noDoubles (flat .closed)
      (behind ([45, 110, 101, 119, 13, 10] ++ unblockedLine)) =
        (.ok (.error [110, 101, 119]), behind unblockedLine) :=
    replyHead_of_head (head_of_line (flat_line .closed (line_of_short (l := [45, 110, 101, 119])
      (by decide) (by decide)) unblockedLine) rfl) nofun
  have hanswer : Session.Step noDoubles .closed 0
      ⟨some ⟨[45, 110, 101, 119, 13, 10] ++ unblockedLine, 1⟩, .stopping, []⟩
      (.heard (.error [110, 101, 119])) ⟨some ⟨unblockedLine, 0⟩, .idle, []⟩ :=
    .answer _ ⟨[45, 110, 101, 119, 13, 10] ++ unblockedLine, 1⟩ _ _ rfl rfl hread
  have hstream := hclaim _ _ ⟨unblockedLine, 0⟩ (((((Steps.nil.snoc hopen).snoc hpush).snoc
    hsend).snoc hstop).snoc hanswer) rfl rfl rfl
  cases hstream

end Oxyn.Redis
