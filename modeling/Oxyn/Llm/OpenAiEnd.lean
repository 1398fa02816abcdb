/-
# `Oxyn.Llm.OpenAiEnd` — how an OpenAI-compatible generation ends, and which calls it closed

The decoder is lawful: whatever the frames and whatever ends the stream, it ends once, with the
reason given if a `finish_reason` or the sentinel was read, and for a cut otherwise.
-/
import Oxyn.Llm.OpenAi

namespace Oxyn.Llm.OpenAi

open Text List

def isSentinel (f : SseFrame) : Bool := trim f.data == doneSentinel

section

variable {J : Type} (wire : Wire J)

def chunkOf (f : SseFrame) : Option ChatChunk :=
  if (trim f.data).isEmpty ∨ isSentinel f then none else (wire.chunk (trim f.data)).toOption

/-- The `finish_reason`s of a frame that carries no error. -/
def finishReasons (f : SseFrame) : List Str :=
  match chunkOf wire f with
  | some chunk => if chunk.error.isSome then [] else chunk.choices.filterMap ChunkChoice.finishReason
  | none => []

def readAll (frames : List SseFrame) : ChunkDecoder :=
  frames.foldl (fun d f => (onData wire d f.data).1) .new

/-- A choice with a `finish_reason` closes the calls gathered up to it, if nothing before it went
over the budget. -/
inductive ClosedIn (json : Json J) :
    ChunkDecoder → List (ChatEvent J) → List ChunkChoice → ChatEvent J → Prop
  | here {d : ChunkDecoder} {out : List (ChatEvent J)} {choice : ChunkChoice}
      {rest : List ChunkChoice} {a : Account (List PartialCall) J} {reason : Str}
      {e : ChatEvent J} : onDelta choice.delta ⟨d.calls, d.budget, out⟩ = (.ok (), a) →
      choice.finishReason = some reason → e ∈ flushFrom json 0 a.kept →
        ClosedIn json d out (choice :: rest) e
  | later {d : ChunkDecoder} {out : List (ChatEvent J)} {choice : ChunkChoice}
      {rest : List ChunkChoice} {a : Account (List PartialCall) J} {e : ChatEvent J} :
      onDelta choice.delta ⟨d.calls, d.budget, out⟩ = (.ok (), a) →
      ClosedIn json
        (onFinish json { d with calls := a.kept, budget := a.budget } a.out choice.finishReason).1
        (onFinish json { d with calls := a.kept, budget := a.budget } a.out choice.finishReason).2
        rest e →
        ClosedIn json d out (choice :: rest) e

/-- A call is closed by the sentinel or a `finish_reason` read behind its last fragment. -/
def Closes (frames : List SseFrame) (f : SseFrame) (e : ChatEvent J) : Prop :=
  (isSentinel f = true ∧ e ∈ flushFrom wire.json 0 (readAll wire frames).calls) ∨
    ∃ chunk, chunkOf wire f = some chunk ∧ chunk.error = none ∧
      ClosedIn wire.json (readAll wire frames) (chunk.usage.map usageEvent).toList chunk.choices e

def Announces (f : SseFrame) : Prop := isSentinel f = true ∨ finishReasons wire f ≠ []

def lastReason (frames : List SseFrame) : Option StopReason :=
  (frames.flatMap (finishReasons wire)).getLast?.map stopReason

def announcedEnd (frames : List SseFrame) (reason : StopReason) : Prop :=
  reason.isCut ∨
    ((∃ f ∈ frames, Announces wire f) ∧ reason = (lastReason wire frames).getD .unspecified)

end

section

variable {J : Type}

theorem emitText_emits {event : Str → ChatEvent J} (h : ∀ text, isInner (event text)) :
    ∀ text, Emits isInner (emitText event text : Step J Unit)
  | none => Emits.pure _
  | some text => (Emits.count _).bind fun _ => Emits.emit (h text)

theorem positionOf_emits (index : Option Nat) (id : Option Str) :
    Emits isInner (positionOf index id : Step J Nat) := by
  refine Emits.current.bind fun calls => ?_
  split
  · exact Emits.pure _
  · exact (Emits.count _).bind fun _ => Emits.current.bind fun _ =>
      (Emits.keepAs _).bind fun _ => Emits.pure _

theorem keepId_emits (position : Nat) (entry : PartialCall) (id : Option Str) :
    Emits isInner (keepId position entry id : Step J Unit) := by
  unfold keepId
  split
  · split
    · exact (Emits.count _).bind fun _ => Emits.keepAs _
    · exact Emits.pure _
  · exact Emits.pure _

theorem keepName_emits (position index : Nat) (entry : PartialCall) (name : Option Str) :
    Emits isInner (keepName position index entry name : Step J Unit) := by
  unfold keepName
  split
  · exact (Emits.count _).bind fun _ => Emits.keepAs _
  · exact Emits.pure _

theorem keepArguments_emits (position index : Nat) (entry : PartialCall) (arguments : Option Str) :
    Emits isInner (keepArguments position index entry arguments : Step J Unit) := by
  unfold keepArguments
  split
  · exact (Emits.count _).bind fun _ => Emits.keepAs _
  · exact Emits.pure _

theorem announce_emits (position index : Nat) (entry : PartialCall) :
    Emits isInner (announce position index entry : Step J Unit) := by
  unfold announce
  split
  · exact (Emits.keepAs _).bind fun _ => Emits.emit ⟨rfl, rfl⟩
  · exact Emits.pure _

theorem emitFragment_emits (index : Nat) (arguments : Option Str) :
    Emits isInner (emitFragment index arguments : Step J Unit) := by
  unfold emitFragment
  split
  · exact Emits.emit ⟨rfl, rfl⟩
  · exact Emits.pure _

theorem entryAt_emits (position : Nat) :
    Emits isInner (entryAt position : Step J (Option PartialCall)) :=
  Emits.current.bind fun _ => Emits.pure _

theorem accumulate_emits (raw : DeltaToolCall) : Emits isInner (accumulate raw : Step J Unit) := by
  refine (positionOf_emits _ _).bind fun position => (entryAt_emits position).bind fun entry => ?_
  split
  · exact (keepId_emits _ _ _).bind fun _ => (keepName_emits _ _ _ _).bind fun _ =>
      (keepArguments_emits _ _ _ _).bind fun _ => (entryAt_emits position).bind fun _ =>
        (announce_emits _ _ _).bind fun _ => emitFragment_emits _ _
  · exact Emits.pure _

theorem accumulateAll_emits (calls : List DeltaToolCall) :
    Emits isInner (accumulateAll calls : Step J Unit) := by
  induction calls with
  | nil => exact Emits.pure _
  | cons raw rest ih => exact (accumulate_emits raw).bind fun _ => ih

/-- A choice fragment says nothing of the end, and closes no call. -/
theorem onDelta_emits (delta : Delta) : Emits isInner (onDelta delta : Step J Unit) :=
  (emitText_emits (fun _ => ⟨rfl, rfl⟩) _).bind fun _ =>
    (emitText_emits (fun _ => ⟨rfl, rfl⟩) _).bind fun _ => accumulateAll_emits _

theorem discardFrom_inner (position : Nat) (calls : List PartialCall) :
    AllInner (discardFrom position calls : List (ChatEvent J)) := by
  induction calls generalizing position with
  | nil => nofun
  | cons call rest ih =>
    unfold discardFrom
    split
    · exact AllInner.cons (isInner_error _) (ih _)
    · exact ih _

theorem flushCall_quiet (json : Json J) (position : Nat) (call : PartialCall) :
    Quiet (flushCall json position call) := by
  unfold flushCall
  dsimp only
  split
  · intro e he
    cases mem_singleton.mp he
    rfl
  · split
    · intro e he
      cases mem_singleton.mp he
      exact callEvent_quiet ..
    · intro e he
      rcases mem_cons.mp he with rfl | he
      · rfl
      · cases mem_singleton.mp he
        exact callEvent_quiet ..

theorem flushFrom_quiet (json : Json J) (position : Nat) (calls : List PartialCall) :
    Quiet (flushFrom json position calls) := by
  induction calls generalizing position with
  | nil => exact Quiet.nil
  | cons call rest ih => exact (flushCall_quiet json position call).append (ih _)

variable {d : ChunkDecoder}

theorem emitDone_of_open (h : d.done = false) (out : List (ChatEvent J)) :
    emitDone d out =
      ({ d with done := true, stop := none }, out ++ [.done (d.stop.getD .unspecified)]) := by
  unfold emitDone
  rw [h, if_neg nofun]

variable {es : List (ChatEvent J)}

theorem dropAndEnd_spec (h : d.done = false) (hes : AllInner es)
    (out : List (ChatEvent J)) (reason : StopReason) :
    (dropAndEnd d (out ++ es) reason).1.done = true ∧
      ∃ inner, AllInner inner ∧
        (dropAndEnd d (out ++ es) reason).2 = out ++ (inner ++ [.done reason]) := by
  have hdone : ({ d with calls := [], stop := some reason } : ChunkDecoder).done = false := h
  unfold dropAndEnd
  rw [emitDone_of_open hdone]
  refine ⟨rfl, es ++ discardFrom 0 d.calls, hes.append (discardFrom_inner 0 d.calls), ?_⟩
  simp only [append_assoc, Option.getD_some]

theorem dropAndEnd_alone (h : d.done = false) (hes : AllInner es) (reason : StopReason) :
    (dropAndEnd d es reason).1.done = true ∧
      ∃ inner, AllInner inner ∧ (dropAndEnd d es reason).2 = inner ++ [.done reason] :=
  dropAndEnd_spec h hes [] reason

theorem onFinish_done (json : Json J) (h : d.done = false) (out : List (ChatEvent J))
    (reason : Option Str) : (onFinish json d out reason).1.done = false := by
  cases reason with
  | none => exact h
  | some reason => exact h

theorem onFinish_stop (json : Json J) (d : ChunkDecoder) (out : List (ChatEvent J))
    (reason : Option Str) :
    (onFinish json d out reason).1.stop = (reason.map stopReason).or d.stop := by
  cases reason with
  | none => rfl
  | some reason => rfl

theorem onFinish_spec (json : Json J) (d : ChunkDecoder) (out : List (ChatEvent J))
    (reason : Option Str) :
    ∃ closed, (onFinish json d out reason).2 = out ++ closed ∧ Quiet closed ∧
      ∀ e ∈ closed, ∃ given, reason = some given ∧ e ∈ flushFrom json 0 d.calls := by
  cases reason with
  | none => exact ⟨[], (append_nil out).symm, Quiet.nil, nofun⟩
  | some given =>
    exact ⟨flushFrom json 0 d.calls, rfl, flushFrom_quiet json 0 d.calls,
      fun e he => ⟨given, rfl, he⟩⟩

theorem or_stop_cons (choice : ChunkChoice) (rest : List ChunkChoice) (stop : Option StopReason) :
    ((rest.filterMap ChunkChoice.finishReason).getLast?.map stopReason).or
        ((choice.finishReason.map stopReason).or stop) =
      (((choice :: rest).filterMap ChunkChoice.finishReason).getLast?.map stopReason).or stop := by
  cases hfinish : choice.finishReason with
  | none => rw [filterMap_cons_none hfinish, Option.map_none, Option.none_or]
  | some reason =>
    rw [filterMap_cons_some hfinish, getLast?_cons]
    cases (rest.filterMap ChunkChoice.finishReason).getLast? with
    | none => rfl
    | some last => rfl

/-- What the choices of a frame make of a decoder: the events, the calls among them closed, and
the last reason given. -/
theorem onChoices_spec (json : Json J) (choices : List ChunkChoice) (h : d.done = false)
    (out : List (ChatEvent J)) :
    ∃ es, (onChoices json d out choices).2 = out ++ es ∧
      (∀ e ∈ es, e.isCall = true → ClosedIn json d out choices e) ∧
      (((onChoices json d out choices).1.done = false ∧ Quiet es ∧
        (onChoices json d out choices).1.stop =
          ((choices.filterMap ChunkChoice.finishReason).getLast?.map stopReason).or d.stop) ∨
      ((onChoices json d out choices).1.done = true ∧ EndsWith es .interrupted)) := by
  induction choices generalizing d out with
  | nil =>
    refine ⟨[], (append_nil out).symm, nofun, .inl ⟨h, Quiet.nil, ?_⟩⟩
    rw [filterMap_nil, getLast?_nil, Option.map_none, Option.none_or]
    rfl
  | cons choice rest ih =>
    obtain ⟨inner, hinner, hall⟩ := onDelta_emits choice.delta ⟨d.calls, d.budget, out⟩
    unfold onChoices
    split
    next limit a hrun =>
      rw [hrun] at hinner
      have hopen : ({ d with calls := a.kept, budget := a.budget } : ChunkDecoder).done = false := h
      obtain ⟨hdone, dropped, hdropped, hout⟩ :=
        dropAndEnd_spec hopen (AllInner.nil.cons (isInner_error limit.text)) a.out .interrupted
      refine ⟨inner ++ (dropped ++ [.done .interrupted]), ?_, ?_, .inr ⟨hdone, ?_⟩⟩
      · rw [exceed, hout, hinner, append_assoc]
      · intro e he hcall
        rcases mem_append.mp he with he | he
        · exact (AllInner.no_call hall he hcall).elim
        · exact (hdropped.no_call_done he hcall).elim
      · exact EndsWith.append (AllInner.quiet hall)
          ⟨dropped, rfl, AllInner.quiet hdropped⟩
    next a hrun =>
      rw [hrun] at hinner
      have hopen : ({ d with calls := a.kept, budget := a.budget } : ChunkDecoder).done = false := h
      obtain ⟨es, hes, hcalls, hstate⟩ :=
        ih (onFinish_done json hopen a.out choice.finishReason)
          (onFinish json { d with calls := a.kept, budget := a.budget } a.out
            choice.finishReason).2
      obtain ⟨closed, hclosed, hquiet, hflushed⟩ := onFinish_spec json
        { d with calls := a.kept, budget := a.budget } a.out choice.finishReason
      refine ⟨inner ++ (closed ++ es), ?_, fun e he hcall => ?_, ?_⟩
      · dsimp only
        rw [hes, hclosed, hinner, append_assoc, append_assoc]
      · rcases mem_append.mp he with he | he
        · exact (AllInner.no_call hall he hcall).elim
        · rcases mem_append.mp he with he | he
          · obtain ⟨reason, hreason, hmem⟩ := hflushed e he
            exact .here hrun hreason hmem
          · exact .later hrun (hcalls e he hcall)
      · dsimp only
        rcases hstate with ⟨hstill, hothers, hstop⟩ | ⟨hdone, hends⟩
        · refine .inl ⟨hstill, (AllInner.quiet hall).append (hquiet.append hothers), ?_⟩
          rw [hstop, onFinish_stop, or_stop_cons]
        · exact .inr ⟨hdone, EndsWith.append (AllInner.quiet hall) (EndsWith.append hquiet hends)⟩

theorem lastReason_append (wire : Wire J) (frames : List SseFrame) (f : SseFrame) :
    lastReason wire (frames ++ [f]) =
      ((finishReasons wire f).getLast?.map stopReason).or (lastReason wire frames) := by
  unfold lastReason
  rw [flatMap_append, flatMap_singleton, getLast?_append]
  cases (finishReasons wire f).getLast? with
  | none => rw [Option.none_or, Option.map_none, Option.none_or]
  | some last => rfl

theorem readAll_append (wire : Wire J) (frames : List SseFrame) (f : SseFrame) :
    readAll wire (frames ++ [f]) = (onData wire (readAll wire frames) f.data).1 := by
  unfold readAll
  rw [foldl_append, foldl_cons, foldl_nil]

/-- What is known of a decoder that is not done: it has read the frames, and kept the last
reason given. -/
def Read (wire : Wire J) (frames : List SseFrame) (d : ChunkDecoder) : Prop :=
  d = readAll wire frames ∧ d.stop = lastReason wire frames

structure Given (wire : Wire J) (d : ChunkDecoder) (frames : List SseFrame) (f : SseFrame)
    (read : ChunkDecoder × List (ChatEvent J)) : Prop where
  goes : (read.1.done = false ∧ Quiet read.2 ∧
      read.1.stop = ((finishReasons wire f).getLast?.map stopReason).or d.stop) ∨
    (read.1.done = true ∧
      ∃ reason, EndsWith read.2 reason ∧ announcedEnd wire (frames ++ [f]) reason)
  closes : ∀ e ∈ read.2, e.isCall = true → Closes wire frames f e

variable {f : SseFrame}

theorem finishReasons_of_none {wire : Wire J} (h : chunkOf wire f = none) :
    finishReasons wire f = [] := by
  unfold finishReasons
  rw [h]

theorem finishReasons_of_some {wire : Wire J} {chunk : ChatChunk}
    (h : chunkOf wire f = some chunk) (herror : chunk.error = none) :
    finishReasons wire f = chunk.choices.filterMap ChunkChoice.finishReason := by
  unfold finishReasons
  rw [h]
  exact if_neg (by rw [herror]; nofun)

variable {frames : List SseFrame}

/-- A frame of which no choice is read adds no reason. -/
theorem Given.still {wire : Wire J} {d d' : ChunkDecoder}
    (hdone : d'.done = false) (hstop : d'.stop = d.stop)
    (hchunk : chunkOf wire f = none) (hes : AllInner es) : Given wire d frames f (d', es) := by
  refine ⟨.inl ⟨hdone, hes.quiet, ?_⟩, fun e he hcall => ?_⟩
  · rw [finishReasons_of_none hchunk]
    exact hstop
  · exact (hes.no_call he hcall).elim

theorem Given.cut {wire : Wire J}
    {read : ChunkDecoder × List (ChatEvent J)} {inner : List (ChatEvent J)} {reason : StopReason}
    (hdone : read.1.done = true) (hout : read.2 = inner ++ [.done reason])
    (hinner : AllInner inner) (hcut : reason.isCut) : Given wire d frames f read := by
  refine ⟨.inr ⟨hdone, reason, ⟨inner, hout, hinner.quiet⟩, .inl hcut⟩, fun e he hcall => ?_⟩
  rw [hout] at he
  exact (hinner.no_call_done he hcall).elim

theorem onSentinel_given (wire : Wire J)
    (h : d.done = false) (hread : Read wire frames d) (hsentinel : isSentinel f = true) :
    Given wire d frames f (emitDone { d with calls := [] } (flushFrom wire.json 0 d.calls)) := by
  obtain ⟨hsame, hstop⟩ := hread
  have hopen : ({ d with calls := [] } : ChunkDecoder).done = false := h
  have hchunk : chunkOf wire f = none := if_pos (.inr hsentinel)
  rw [emitDone_of_open hopen]
  refine ⟨.inr ⟨rfl, d.stop.getD .unspecified, ⟨_, rfl, flushFrom_quiet _ _ _⟩, .inr ⟨?_, ?_⟩⟩,
    fun e he hcall => .inl ⟨hsentinel, ?_⟩⟩
  · exact ⟨f, mem_append_right _ (mem_singleton_self f), .inl hsentinel⟩
  · rw [lastReason_append, finishReasons_of_none hchunk, getLast?_nil, Option.map_none,
      Option.none_or, hstop]
  · rcases mem_append.mp he with he | he
    · rwa [hsame] at he
    · cases mem_singleton.mp he
      cases hcall

theorem onChunk_given (wire : Wire J) {chunk : ChatChunk}
    (h : d.done = false) (hread : Read wire frames d) (hchunk : chunkOf wire f = some chunk) :
    Given wire d frames f (onChunk wire.json d chunk) := by
  unfold onChunk
  cases herror : chunk.error with
  | some error =>
    obtain ⟨hdone, dropped, hdropped, hout⟩ :=
      dropAndEnd_alone h (AllInner.nil.cons (isInner_error error.describe)) .providerError
    exact .cut hdone hout hdropped (.inr (.inl rfl))
  | none =>
    obtain ⟨es, hes, hcalls, hstate⟩ :=
      onChoices_spec wire.json chunk.choices h (chunk.usage.map usageEvent).toList
    have husage : AllInner (chunk.usage.map usageEvent : Option (ChatEvent J)).toList := by
      intro e he
      obtain ⟨usage, -, rfl⟩ := Option.map_eq_some_iff.mp (Option.mem_toList.mp he)
      exact ⟨rfl, rfl⟩
    refine ⟨?_, fun e he hcall => .inr ⟨chunk, hchunk, herror, ?_⟩⟩
    · dsimp only
      rw [hes]
      rcases hstate with ⟨hstill, hquiet, hstop⟩ | ⟨hdone, hends⟩
      · refine .inl ⟨hstill, husage.quiet.append hquiet, ?_⟩
        rw [finishReasons_of_some hchunk herror]
        exact hstop
      · exact .inr ⟨hdone, .interrupted, EndsWith.append husage.quiet hends, .inl (.inl rfl)⟩
    · rw [← hread.1]
      dsimp only at he
      rw [hes] at he
      rcases mem_append.mp he with he | he
      · exact (husage.no_call he hcall).elim
      · exact hcalls e he hcall

theorem onData_given (wire : Wire J) (h : d.done = false) (hread : Read wire frames d) :
    Given wire d frames f (onData wire d f.data) := by
  unfold onData
  rw [if_neg (by rw [h]; nofun)]
  split
  next hempty => exact .still h rfl (if_pos (.inl hempty)) AllInner.nil
  next hempty =>
    split
    next hsentinel => exact onSentinel_given wire h hread (beq_iff_eq.mpr hsentinel)
    next hsentinel =>
      have hchunk : chunkOf wire f = (wire.chunk (trim f.data)).toOption :=
        if_neg fun hor => hor.elim hempty fun hs => hsentinel (beq_iff_eq.mp hs)
      split
      next chunk hok =>
        rw [hok] at hchunk
        exact onChunk_given wire h hread hchunk
      next e herror =>
        rw [herror] at hchunk
        have hunreadable : AllInner [unreadableFrame (J := J) ioError e] :=
          AllInner.nil.cons (isInner_error _)
        split
        · have hopen : ({ d with errors := d.errors + 1, stop := some .interrupted } :
              ChunkDecoder).done = false := h
          rw [emitDone_of_open hopen]
          exact .cut rfl rfl hunreadable (.inl rfl)
        · exact .still h rfl hchunk hunreadable

theorem finish_ends (wire : Wire J) (h : d.done = false) (hread : Read wire frames d) :
    ∃ reason, EndsWith (finish d : ChunkDecoder × List (ChatEvent J)).2 reason ∧
      announcedEnd wire frames reason := by
  unfold finish
  rw [if_neg (by rw [h]; nofun)]
  split
  next hsome =>
    have hopen : ({ d with calls := [] } : ChunkDecoder).done = false := h
    rw [emitDone_of_open hopen]
    refine ⟨_, ⟨_, rfl, (discardFrom_inner 0 d.calls).quiet⟩, .inr ⟨?_, by rw [← hread.2]⟩⟩
    -- a reason kept was given by a frame
    rw [hread.2, lastReason, Option.isSome_map] at hsome
    obtain ⟨last, hlast⟩ := Option.isSome_iff_exists.mp hsome
    obtain ⟨f, hf, hmem⟩ := mem_flatMap.mp (mem_of_getLast? hlast)
    exact ⟨f, hf, .inr (ne_nil_of_mem hmem)⟩
  next =>
    obtain ⟨-, dropped, hdropped, hout⟩ := dropAndEnd_alone h (AllInner.nil.cons (isInner_error
      "the stream ended before the provider announced the end of the generation")) .interrupted
    exact ⟨.interrupted, ⟨dropped, hout, hdropped.quiet⟩, .inl (.inl rfl)⟩

theorem cancel_ends (h : d.done = false) :
    EndsWith (cancel d : ChunkDecoder × List (ChatEvent J)).2 .cancelled := by
  have hopen : ({ d with calls := [], stop := some .cancelled } : ChunkDecoder).done = false := h
  unfold cancel
  rw [emitDone_of_open hopen]
  exact ⟨[], rfl, Quiet.nil⟩

theorem transportError_ends (h : d.done = false) (detail : String) :
    EndsWith (transportError d detail : ChunkDecoder × List (ChatEvent J)).2 .interrupted := by
  have hopen : ({ d with calls := [], stop := some .interrupted } : ChunkDecoder).done = false := h
  unfold transportError
  rw [if_neg (by rw [h]; nofun), emitDone_of_open hopen]
  exact ⟨_, rfl, (AllInner.nil.cons (isInner_error detail)).quiet⟩

theorem lawful (wire : Wire J) : Lawful (decoder wire) (Read wire) (announcedEnd wire) where
  onFrame frames d f h hread := by
    rcases (onData_given wire (f := f) h hread).goes with ⟨hstill, hquiet, hstop⟩ | hends
    · refine .inl ⟨hstill, hquiet, ?_, ?_⟩
      · rw [readAll_append, ← hread.1]
        rfl
      · rw [lastReason_append, ← hread.2]
        exact hstop
    · exact .inr hends
  finish_done d h := by
    show (finish d).2 = []
    have hdone : d.done = true := h
    unfold finish
    rw [if_pos hdone]
  finish frames d h hread := finish_ends wire h hread
  cancel frames d h _ := ⟨.cancelled, cancel_ends h, .inl (.inr (.inr rfl))⟩
  transportError frames d detail h _ := ⟨.interrupted, transportError_ends h detail, .inl (.inl rfl)⟩

theorem emitDone_no_call (d : ChunkDecoder) {out : List (ChatEvent J)} (hout : AllInner out) :
    ∀ e ∈ (emitDone d out).2, e.isCall = false := by
  intro e he
  unfold emitDone at he
  split at he
  · exact (hout e he).2
  · rcases mem_append.mp he with he | he
    · exact (hout e he).2
    · cases mem_singleton.mp he
      rfl

theorem callsClosed (wire : Wire J) : CallsClosed (decoder wire) (Read wire) (Closes wire) where
  onFrame frames d f h hread := (onData_given wire (f := f) h hread).closes
  finish d e he := by
    change e ∈ (finish d).2 at he
    unfold finish at he
    split at he
    · cases he
    · split at he
      · exact emitDone_no_call _ (discardFrom_inner 0 d.calls) e he
      · exact emitDone_no_call _
          ((AllInner.nil.cons (isInner_error _)).append (discardFrom_inner 0 d.calls)) e he
  cancel d e he := emitDone_no_call _ AllInner.nil e he
  transportError d detail e he := by
    change e ∈ (transportError d detail).2 at he
    unfold transportError at he
    split at he
    · cases he
    · exact emitDone_no_call _ (AllInner.nil.cons (isInner_error detail)) e he

end

end Oxyn.Llm.OpenAi
