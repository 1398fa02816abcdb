/-
# `Oxyn.Llm.Stream` — from the byte stream to the events, for every protocol

The driver assembles the frames and a protocol's decoder: it reports what it observes (a chunk,
the server closed, the transport broke, the caller cancelled), and the decoder says what that is
worth.
-/
import Oxyn.Llm.Sse

namespace Oxyn.Llm

open List

/-- What a protocol decoder must be able to do: each answers the decoder and what it emits. -/
structure EventDecoder (D J : Type) where
  onFrame : D → SseFrame → D × List (ChatEvent J)
  isDone : D → Bool
  finish : D → D × List (ChatEvent J)
  cancel : D → D × List (ChatEvent J)
  transportError : D → String → D × List (ChatEvent J)

/-- What the driver observes at a wait. -/
inductive Observed where
  | chunk (bytes : List UInt8)
  | closed
  | broke (detail : String)
  | cancelled

structure StreamState (D : Type) where
  sse : SseDecoder
  decoder : D
  finished : Bool

/-- What a stream became: each frame read with the events it gave, and those of its end. -/
structure Story (J : Type) where
  turns : List (SseFrame × List (ChatEvent J))
  tail : List (ChatEvent J)

section

variable {D J : Type} (dec : EventDecoder D J)

def drain (sse : SseDecoder) (d : D) :
    List (SseFrame × List (ChatEvent J)) × SseDecoder × D :=
  match _hframe : sse.nextFrame with
  | (none, sse') => ([], sse', d)
  | (some frame, sse') =>
    let read := dec.onFrame d frame
    if dec.isDone read.1 then ([(frame, read.2)], sse', read.1)
    else
      let others := drain sse' read.1
      ((frame, read.2) :: others.1, others.2)
termination_by sse.buffer.length
decreasing_by exact SseDecoder.nextFrame_length _hframe

def onObserved (s : StreamState D) : Observed → Story J × StreamState D
  | .cancelled =>
    let ended := dec.cancel s.decoder
    (⟨[], ended.2⟩, { s with decoder := ended.1, finished := true })
  | .closed =>
    let read := drain dec s.sse.finish s.decoder
    let ended := dec.finish read.2.2
    (⟨read.1, ended.2⟩, ⟨read.2.1, ended.1, true⟩)
  | .broke detail =>
    let ended := dec.transportError s.decoder detail
    (⟨[], ended.2⟩, { s with decoder := ended.1, finished := true })
  | .chunk bytes =>
    let pushed := s.sse.push bytes
    if pushed.2 then
      let read := drain dec pushed.1 s.decoder
      (⟨read.1, []⟩, ⟨read.2.1, read.2.2, dec.isDone read.2.2⟩)
    else
      let ended := dec.transportError s.decoder pushed.1.overflowText
      (⟨[], ended.2⟩, ⟨pushed.1, ended.1, true⟩)

/-- What is observed until the stream is finished; nothing is read behind that. -/
def follow (s : StreamState D) : List Observed → Story J
  | [] => ⟨[], []⟩
  | o :: rest =>
    let now := onObserved dec s o
    if now.2.finished then now.1
    else
      let later := follow now.2 rest
      ⟨now.1.turns ++ later.turns, now.1.tail ++ later.tail⟩

def eventsStream (d : D) (observed : List Observed) : Story J :=
  follow dec ⟨.new, d, false⟩ observed

end

section

variable {J : Type}

def redact (scrub : String → String) : ChatEvent J → ChatEvent J
  | .error message => .error (scrub message)
  | e => e

/-- The frames the decoder was given. -/
def Story.frames (s : Story J) : List SseFrame := s.turns.map Prod.fst

/-- The events, before they are scrubbed. -/
def Story.raw (s : Story J) : List (ChatEvent J) := s.turns.flatMap Prod.snd ++ s.tail

/-- The events of the stream, in the order it emits them. -/
def Story.events (s : Story J) (scrub : String → String) : List (ChatEvent J) :=
  s.raw.map (redact scrub)

end

/-! ## What a story is made of -/

section

variable {D J : Type} {dec : EventDecoder D J}

inductive Reads (dec : EventDecoder D J) : D → List (SseFrame × List (ChatEvent J)) → D → Prop
  | nil (d : D) : Reads dec d [] d
  | cons {d d' : D} (f : SseFrame) {turns : List (SseFrame × List (ChatEvent J))} :
      dec.isDone d = false → Reads dec (dec.onFrame d f).1 turns d' →
        Reads dec d ((f, (dec.onFrame d f).2) :: turns) d'

/-- How a decoder ends: by itself, or by what the driver observed. -/
inductive Over (dec : EventDecoder D J) : D → List (ChatEvent J) → Prop
  | itself {d : D} : dec.isDone d = true → Over dec d []
  | closed {d : D} : dec.isDone d = false → Over dec d (dec.finish d).2
  | cancelled {d : D} : dec.isDone d = false → Over dec d (dec.cancel d).2
  | broke {d : D} (detail : String) : dec.isDone d = false →
      Over dec d (dec.transportError d detail).2

theorem Reads.append {d d' d'' : D} {turns others : List (SseFrame × List (ChatEvent J))}
    (h : Reads dec d turns d') (h' : Reads dec d' others d'') :
    Reads dec d (turns ++ others) d'' := by
  induction h with
  | nil => exact h'
  | cons f hdone _ ih => exact .cons f hdone (ih h')

theorem Reads.split {d d' : D} {before after : List (SseFrame × List (ChatEvent J))}
    {turn : SseFrame × List (ChatEvent J)} (h : Reads dec d (before ++ turn :: after) d') :
    ∃ mid, Reads dec d before mid ∧ dec.isDone mid = false ∧
      turn.2 = (dec.onFrame mid turn.1).2 := by
  induction before generalizing d with
  | nil =>
    cases h with
    | cons f hdone _ => exact ⟨d, .nil d, hdone, rfl⟩
  | cons t before ih =>
    cases h with
    | cons f hdone hrest =>
      obtain ⟨mid, hmid, hopen, hout⟩ := ih hrest
      exact ⟨mid, .cons f hdone hmid, hopen, hout⟩

theorem drain_reads (sse : SseDecoder) (d : D) (hopen : dec.isDone d = false) :
    Reads dec d (drain dec sse d).1 (drain dec sse d).2.2 := by
  induction hn : sse.buffer.length using Nat.strongRecOn generalizing sse d with
  | _ n ih =>
    unfold drain
    split
    next => exact .nil d
    next frame sse' hframe =>
      have hlt := SseDecoder.nextFrame_length hframe
      dsimp only
      split
      · exact .cons frame hopen (.nil _)
      next hdone =>
        have hstill : dec.isDone (dec.onFrame d frame).1 = false := by simpa using hdone
        exact .cons frame hopen (ih _ (hn ▸ hlt) sse' _ hstill rfl)

/-- The end of a stream: the server closes, the transport breaks, or the caller cancels. -/
def Observed.ends : Observed → Bool
  | .chunk _ => false
  | _ => true

/-- None of these events ends the stream. -/
def Quiet (events : List (ChatEvent J)) : Prop := ∀ e ∈ events, e.isTerminal = false

def EndsWith (events : List (ChatEvent J)) (reason : StopReason) : Prop :=
  ∃ front, events = front ++ [.done reason] ∧ Quiet front

theorem Quiet.nil : Quiet ([] : List (ChatEvent J)) := nofun

theorem Quiet.append {es es' : List (ChatEvent J)} (h : Quiet es) (h' : Quiet es') :
    Quiet (es ++ es') := by
  intro e he
  rcases mem_append.mp he with he | he
  · exact h e he
  · exact h' e he

theorem EndsWith.append {es es' : List (ChatEvent J)} {reason : StopReason} (h : Quiet es)
    (h' : EndsWith es' reason) : EndsWith (es ++ es') reason := by
  obtain ⟨front, rfl, hfront⟩ := h'
  exact ⟨es ++ front, (append_assoc ..).symm, h.append hfront⟩

theorem redact_isTerminal (scrub : String → String) (e : ChatEvent J) :
    (redact scrub e).isTerminal = e.isTerminal := by
  cases e <;> rfl

theorem EndsWith.redact {es : List (ChatEvent J)} {reason : StopReason} (h : EndsWith es reason)
    (scrub : String → String) : EndsWith (es.map (redact scrub)) reason := by
  obtain ⟨front, rfl, hfront⟩ := h
  refine ⟨front.map (Llm.redact scrub), map_append, fun e he => ?_⟩
  obtain ⟨e', he', rfl⟩ := mem_map.mp he
  rw [redact_isTerminal]
  exact hfront e' he'

/-- What a decoder keeps of the frames it read until it is done (`P`), and the reasons it then
gives (`R`): it is quiet until it is done, and says so last. -/
structure Lawful (dec : EventDecoder D J) (P : List SseFrame → D → Prop)
    (R : List SseFrame → StopReason → Prop) : Prop where
  onFrame : ∀ frames d f, dec.isDone d = false → P frames d →
    (dec.isDone (dec.onFrame d f).1 = false ∧ Quiet (dec.onFrame d f).2 ∧
      P (frames ++ [f]) (dec.onFrame d f).1) ∨
    (dec.isDone (dec.onFrame d f).1 = true ∧
      ∃ reason, EndsWith (dec.onFrame d f).2 reason ∧ R (frames ++ [f]) reason)
  finish_done : ∀ d, dec.isDone d = true → (dec.finish d).2 = []
  finish : ∀ frames d, dec.isDone d = false → P frames d →
    ∃ reason, EndsWith (dec.finish d).2 reason ∧ R frames reason
  cancel : ∀ frames d, dec.isDone d = false → P frames d →
    ∃ reason, EndsWith (dec.cancel d).2 reason ∧ R frames reason
  transportError : ∀ frames d detail, dec.isDone d = false → P frames d →
    ∃ reason, EndsWith (dec.transportError d detail).2 reason ∧ R frames reason

variable {P : List SseFrame → D → Prop} {R : List SseFrame → StopReason → Prop}

theorem onObserved_spec (hlaw : Lawful dec P R) (s : StreamState D) (o : Observed)
    (hopen : dec.isDone s.decoder = false) :
    ∃ d, Reads dec s.decoder (onObserved dec s o).1.turns d ∧
      (((onObserved dec s o).2.finished = true ∧ Over dec d (onObserved dec s o).1.tail) ∨
        ((onObserved dec s o).2.finished = false ∧ (onObserved dec s o).1.tail = [] ∧
          (onObserved dec s o).2.decoder = d ∧ dec.isDone d = false ∧ o.ends = false)) := by
  cases o with
  | cancelled => exact ⟨_, .nil _, .inl ⟨rfl, .cancelled hopen⟩⟩
  | broke detail => exact ⟨_, .nil _, .inl ⟨rfl, .broke detail hopen⟩⟩
  | closed =>
    have hreads := drain_reads s.sse.finish s.decoder hopen
    refine ⟨_, hreads, .inl ⟨rfl, ?_⟩⟩
    show Over dec _ (dec.finish (drain dec s.sse.finish s.decoder).2.2).2
    cases hdone : dec.isDone (drain dec s.sse.finish s.decoder).2.2 with
    | false => exact .closed hdone
    | true =>
      rw [hlaw.finish_done _ hdone]
      exact .itself hdone
  | chunk bytes =>
    unfold onObserved
    dsimp only
    split
    · refine ⟨_, drain_reads _ s.decoder hopen, ?_⟩
      cases hdone : dec.isDone (drain dec (s.sse.push bytes).1 s.decoder).2.2 with
      | true => exact .inl ⟨rfl, .itself hdone⟩
      | false => exact .inr ⟨rfl, rfl, rfl, rfl, rfl⟩
    · exact ⟨_, .nil _, .inl ⟨rfl, .broke _ hopen⟩⟩

theorem follow_spec (hlaw : Lawful dec P R) (observed : List Observed) (s : StreamState D)
    (hopen : dec.isDone s.decoder = false) :
    ∃ d, Reads dec s.decoder (follow dec s observed).turns d ∧
      (Over dec d (follow dec s observed).tail ∨
        (dec.isDone d = false ∧ (follow dec s observed).tail = [] ∧
          ∀ o ∈ observed, o.ends = false)) := by
  induction observed generalizing s with
  | nil => exact ⟨_, .nil _, .inr ⟨hopen, rfl, nofun⟩⟩
  | cons o rest ih =>
    obtain ⟨d, hreads, hnow⟩ := onObserved_spec hlaw s o hopen
    unfold follow
    dsimp only
    rcases hnow with ⟨hfinished, hover⟩ | ⟨hfinished, htail, rfl, hstill, hends⟩
    · rw [if_pos hfinished]
      exact ⟨d, hreads, .inl hover⟩
    · rw [if_neg (by rw [hfinished]; nofun)]
      obtain ⟨d', hreads', hlater⟩ := ih (onObserved dec s o).2 hstill
      refine ⟨d', hreads.append hreads', ?_⟩
      rw [htail, nil_append]
      rcases hlater with hover | ⟨hopen', htail', hnone⟩
      · exact .inl hover
      · refine .inr ⟨hopen', htail', fun o' ho' => ?_⟩
        rcases mem_cons.mp ho' with rfl | ho'
        · exact hends
        · exact hnone o' ho'

theorem Reads.ends (hlaw : Lawful dec P R) {d d' : D}
    {turns : List (SseFrame × List (ChatEvent J))} (h : Reads dec d turns d')
    (hopen : dec.isDone d = false) :
    ∀ frames, P frames d →
      (dec.isDone d' = false ∧ Quiet (turns.flatMap Prod.snd) ∧
        P (frames ++ turns.map Prod.fst) d') ∨
      (dec.isDone d' = true ∧ ∃ reason, EndsWith (turns.flatMap Prod.snd) reason ∧
        R (frames ++ turns.map Prod.fst) reason) := by
  induction h with
  | nil =>
    intro frames hP
    rw [map_nil, append_nil]
    exact .inl ⟨hopen, Quiet.nil, hP⟩
  | @cons d _ f turns _ hrest ih =>
    intro frames hP
    rcases hlaw.onFrame frames d f hopen hP with ⟨hstill, hquiet, hP'⟩ | ⟨hdone, reason, hends⟩
    · have hlater := ih hstill (frames ++ [f]) hP'
      rw [append_assoc] at hlater
      rcases hlater with ⟨hlast, hothers, hP''⟩ | ⟨hlast, reason, hothers, hR⟩
      · exact .inl ⟨hlast, hquiet.append hothers, hP''⟩
      · exact .inr ⟨hlast, reason, EndsWith.append hquiet hothers, hR⟩
    · -- a decoder that is done reads nothing more
      cases hrest with
      | nil =>
        refine .inr ⟨hdone, reason, ?_⟩
        rw [flatMap_cons, flatMap_nil, append_nil]
        exact hends
      | cons _ hopen' _ => exact absurd (hdone.symm.trans hopen') nofun

theorem Over.ends (hlaw : Lawful dec P R) {d : D} {tail : List (ChatEvent J)}
    (h : Over dec d tail) (frames : List SseFrame) :
    (dec.isDone d = true ∧ tail = []) ∨
      (dec.isDone d = false ∧
        (P frames d → ∃ reason, EndsWith tail reason ∧ R frames reason)) := by
  cases h with
  | itself hdone => exact .inl ⟨hdone, rfl⟩
  | closed hopen => exact .inr ⟨hopen, hlaw.finish frames d hopen⟩
  | cancelled hopen => exact .inr ⟨hopen, hlaw.cancel frames d hopen⟩
  | broke detail hopen => exact .inr ⟨hopen, hlaw.transportError frames d detail hopen⟩

/-- How the byte stream ends: the server closes it, the transport breaks, or the caller
cancels. -/
inductive Ending where
  | closed
  | broke (detail : String)
  | cancelled

def Ending.observed : Ending → Observed
  | .closed => .closed
  | .broke detail => .broke detail
  | .cancelled => .cancelled

def story (dec : EventDecoder D J) (d : D) (chunks : List (List UInt8)) (ending : Ending) :
    Story J :=
  eventsStream dec d (chunks.map .chunk ++ [ending.observed])

theorem story_spec (hlaw : Lawful dec P R) (d : D) (hopen : dec.isDone d = false)
    (chunks : List (List UInt8)) (ending : Ending) :
    ∃ d', Reads dec d (story dec d chunks ending).turns d' ∧
      Over dec d' (story dec d chunks ending).tail := by
  obtain ⟨d', hreads, hover | ⟨-, -, hnone⟩⟩ :=
    follow_spec hlaw (chunks.map .chunk ++ [ending.observed]) ⟨.new, d, false⟩ hopen
  · exact ⟨d', hreads, hover⟩
  · have hend := hnone ending.observed (by simp)
    cases ending <;> cases hend

theorem events_end_once (hlaw : Lawful dec P R) (d : D) (hopen : dec.isDone d = false)
    (hP : P [] d) (chunks : List (List UInt8)) (ending : Ending) (scrub : String → String) :
    ∃ reason, EndsWith ((story dec d chunks ending).events scrub) reason ∧
      R (story dec d chunks ending).frames reason := by
  obtain ⟨d', hreads, hover⟩ := story_spec hlaw d hopen chunks ending
  have hread := hreads.ends hlaw hopen [] hP
  rw [nil_append] at hread
  rcases hread with ⟨hstill, hquiet, hP'⟩ | ⟨hdone, reason, hends, hR⟩
  · rcases hover.ends hlaw (story dec d chunks ending).frames with ⟨hdone, -⟩ | ⟨-, htail⟩
    · exact absurd (hdone.symm.trans hstill) nofun
    · obtain ⟨reason, hends, hR⟩ := htail hP'
      exact ⟨reason, EndsWith.redact (EndsWith.append hquiet hends) scrub, hR⟩
  · rcases hover.ends hlaw (story dec d chunks ending).frames with ⟨-, htail⟩ | ⟨hstill, -⟩
    · refine ⟨reason, EndsWith.redact ?_ scrub, hR⟩
      rw [Story.raw, htail, append_nil]
      exact hends
    · exact absurd (hdone.symm.trans hstill) nofun

/-- What a decoder says of the calls it emits: each comes from a frame that closes it (`C`), and
none from an end. -/
structure CallsClosed (dec : EventDecoder D J) (P : List SseFrame → D → Prop)
    (C : List SseFrame → SseFrame → ChatEvent J → Prop) : Prop where
  onFrame : ∀ frames d f, dec.isDone d = false → P frames d → ∀ e ∈ (dec.onFrame d f).2,
    e.isCall = true → C frames f e
  finish : ∀ d, ∀ e ∈ (dec.finish d).2, e.isCall = false
  cancel : ∀ d, ∀ e ∈ (dec.cancel d).2, e.isCall = false
  transportError : ∀ d detail, ∀ e ∈ (dec.transportError d detail).2, e.isCall = false

theorem Over.no_call {C : List SseFrame → SseFrame → ChatEvent J → Prop}
    (hcalls : CallsClosed dec P C) {d : D} {tail : List (ChatEvent J)} (h : Over dec d tail) :
    ∀ e ∈ tail, e.isCall = false := by
  cases h with
  | itself => nofun
  | closed => exact hcalls.finish d
  | cancelled => exact hcalls.cancel d
  | broke detail => exact hcalls.transportError d detail

theorem calls_closed {C : List SseFrame → SseFrame → ChatEvent J → Prop}
    (hlaw : Lawful dec P R) (hcalls : CallsClosed dec P C) (d : D) (hopen : dec.isDone d = false)
    (hP : P [] d) (chunks : List (List UInt8)) (ending : Ending) {e : ChatEvent J}
    (he : e ∈ (story dec d chunks ending).raw) (hcall : e.isCall = true) :
    ∃ before turn after, (story dec d chunks ending).turns = before ++ turn :: after ∧
      e ∈ turn.2 ∧ C (before.map Prod.fst) turn.1 e := by
  obtain ⟨d', hreads, hover⟩ := story_spec hlaw d hopen chunks ending
  rcases mem_append.mp he with he | he
  · obtain ⟨turn, hturn, hmem⟩ := mem_flatMap.mp he
    obtain ⟨before, after, hsplit⟩ := append_of_mem hturn
    rw [hsplit] at hreads
    obtain ⟨mid, hbefore, hmid, hout⟩ := hreads.split
    refine ⟨before, turn, after, hsplit, hmem, ?_⟩
    have hkept := hbefore.ends hlaw hopen [] hP
    rw [nil_append] at hkept
    rcases hkept with ⟨-, -, hP'⟩ | ⟨hdone, -⟩
    · exact hcalls.onFrame _ mid turn.1 hmid hP' e (hout ▸ hmem) hcall
    · exact absurd (hdone.symm.trans hmid) nofun
  · exact absurd (hcall.symm.trans (hover.no_call hcalls e he)) nofun

end

end Oxyn.Llm
