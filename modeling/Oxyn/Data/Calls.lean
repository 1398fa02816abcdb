/-
# `Oxyn.Data.Calls` — the calls on one sink

A sink is drained by one call after the other.
-/
import Oxyn.Data.Drain

open Runs

namespace Oxyn.Data

open List

variable {Field Row : Type}

abbrev CallEvent (Field Row : Type) := List (Turn Field Row) × Call Field Row

/-- A read was abandoned: the call was dropped, or the first loop lost its race. -/
def CallEvent.Abandons (awaitsTerminalOutcome : Bool) (event : CallEvent Field Row) : Prop :=
  ∃ asked ∈ event.2.asked, asked.awaited = .dropped ∨
    (awaitsTerminalOutcome = false ∧ asked.awaited = .cancelled)

def CallStep [DecidableEq Field] (sink : BatchSink Field Row) (event : CallEvent Field Row)
    (sink' : BatchSink Field Row) : Prop :=
  sink.drainWith event.1 = event.2 ∧ event.2.sink = sink'

/-- A call that may follow: not after a dropped one, nor on a buffer cut and closed, unless it is
refused or its token is found triggered first. -/
def MayFollow (tr : List (CallEvent Field Row)) (sink : BatchSink Field Row)
    (turns : List (Turn Field Row)) : Prop :=
  (∃ event ∈ tr, event.2.flow = .dropped) ∨
      (sink.buffer.index.complete = true ∧ sink.buffer.index.stats.truncated = true) →
    sink.aborted = true ∨
      (sink.awaitsTerminalOutcome = false ∧ ∀ turn ∈ turns.head?, turn.cancelled = true)

/-- Calls one after the other, what came of them, and the sink they leave. -/
def BatchSink.drainAll [DecidableEq Field] (sink : BatchSink Field Row) :
    List (List (Turn Field Row)) → List (CallEvent Field Row) × BatchSink Field Row
  | [] => ([], sink)
  | turns :: calls =>
    let (tr, last) := (sink.drainWith turns).sink.drainAll calls
    ((turns, sink.drainWith turns) :: tr, last)

theorem steps_drainAll [DecidableEq Field] (sink : BatchSink Field Row)
    (calls : List (List (Turn Field Row))) :
    Steps CallStep sink (sink.drainAll calls).1 (sink.drainAll calls).2 := by
  induction calls generalizing sink with
  | nil => exact .nil
  | cons turns calls ih =>
    have hfirst : Steps CallStep sink [(turns, sink.drainWith turns)] (sink.drainWith turns).sink :=
      Steps.nil.snoc ⟨rfl, rfl⟩
    exact hfirst.trans (ih _)

/-! ## Calls that ask nothing -/

namespace BatchSink

variable [DecidableEq Field] {sink : BatchSink Field Row} {before stopping : Stopping Field}
  {turn : Turn Field Row} {turns : List (Turn Field Row)} {asked : Asked Field Row}

theorem drainTurn_of_asked (hasked : (sink.drainTurn turn).asked = some asked) :
    asked.awaited = turn.awaited ∧
      ∃ confirmingEnd, sink.drainTurn turn = sink.await confirmingEnd turn := by
  have hawait : ∀ confirmingEnd, sink.drainTurn turn = sink.await confirmingEnd turn →
      asked.awaited = turn.awaited ∧
        ∃ confirmingEnd, sink.drainTurn turn = sink.await confirmingEnd turn := by
    intro confirmingEnd heq
    rw [heq, asked_await] at hasked
    exact ⟨(Option.some.inj hasked).symm ▸ rfl, confirmingEnd, heq⟩
  unfold drainTurn at hasked hawait ⊢
  split at hasked
  · cases hasked
  next hcancelled =>
    simp only [hcancelled, Bool.false_eq_true, ↓reduceIte] at hawait ⊢
    cases hpressure : sink.buffer.pressure with
    | ready =>
      simp only [hpressure] at hawait ⊢
      exact hawait false rfl
    | rowLimit =>
      simp only [hpressure] at hasked hawait ⊢
      split at hasked
      · cases hasked
      next hmarked =>
        split at hasked
        next hconfirm =>
          simp only [hmarked, hconfirm, Bool.false_eq_true, ↓reduceIte] at hawait ⊢
          exact hawait true rfl
        · cases hasked
    | saturated | complete =>
      simp only [hpressure] at hasked
      cases hasked

theorem turn_of_abandoned (hasked : (sink.turn before turn).asked = some asked) :
    (asked.awaited = .dropped → (sink.turn before turn).flow = .dropped) ∧
      (sink.awaitsTerminalOutcome = false → asked.awaited = .cancelled →
        (sink.turn before turn).sink.aborted = true ∧
          ∃ answer, (sink.turn before turn).flow = .answered answer) := by
  cases hawaits : sink.awaitsTerminalOutcome with
  | true =>
    refine ⟨fun hdropped => ?_, fun h => by cases h⟩
    cases hstopping : sink.stopping before with
    | none =>
      rw [BatchSink.turn, if_pos hawaits, drainToEndTurn, hstopping] at hasked
      cases hasked
    | some stopping =>
      obtain ⟨hasked', hflow⟩ := turn_toEnd turn hawaits hstopping
      obtain rfl := Option.some.inj (hasked'.symm.trans hasked)
      have hturn : turn.awaited = .dropped := hdropped
      rwa [hturn] at hflow
  | false =>
    rw [BatchSink.turn, if_neg (by simp [hawaits])] at hasked ⊢
    obtain ⟨hawaited, confirmingEnd, hturn⟩ := drainTurn_of_asked hasked
    rw [hturn, hawaited]
    refine ⟨fun hdropped => ?_, fun _ hcancelled => ?_⟩
    · simp only [await, hdropped]
    · simp only [await, hcancelled]
      exact ⟨rfl, _, rfl⟩

theorem loop_of_abandoned (hasked : asked ∈ (sink.loop before turns).asked) :
    (asked.awaited = .dropped → (sink.loop before turns).flow = .dropped) ∧
      (sink.awaitsTerminalOutcome = false → asked.awaited = .cancelled →
        (sink.loop before turns).sink.aborted = true) := by
  induction turns generalizing sink before with
  | nil => simp [loop] at hasked
  | cons turn turns ih =>
    cases hflow : (sink.turn before turn).flow with
    | answered answer =>
      rw [loop_of_answered turns hflow] at hasked ⊢
      obtain ⟨hdropped, haborted⟩ := turn_of_abandoned (Option.mem_toList.mp hasked)
      rw [hflow] at hdropped
      exact ⟨hdropped, fun hawaits hcancelled => (haborted hawaits hcancelled).1⟩
    | dropped =>
      rw [loop_of_dropped turns hflow] at hasked ⊢
      obtain ⟨-, haborted⟩ := turn_of_abandoned (Option.mem_toList.mp hasked)
      exact ⟨fun _ => rfl, fun hawaits hcancelled => (haborted hawaits hcancelled).1⟩
    | next stopping =>
      rw [loop_of_next turns hflow] at hasked ⊢
      rcases mem_append.mp hasked with hfirst | hrest
      · obtain ⟨hdropped, haborted⟩ := turn_of_abandoned (Option.mem_toList.mp hfirst)
        rw [hflow] at hdropped haborted
        refine ⟨fun h => (by cases hdropped h), fun hawaits hcancelled => ?_⟩
        obtain ⟨-, answer, hanswer⟩ := haborted hawaits hcancelled
        cases hanswer
      · obtain ⟨hdropped, haborted⟩ := ih hrest
        exact ⟨hdropped, fun hawaits => haborted
          ((sameModes_turn sink before turn).awaits.trans hawaits)⟩

/-- On a closed buffer a call asks nothing, and claims the end only where its token was not found
triggered. -/
theorem loop_of_complete (hcomplete : sink.buffer.index.complete = true) :
    ∃ flow sink', sink.loop .none turns = ⟨[], flow, sink', []⟩ ∧
      (sink' = sink ∨ ∃ stats, sink' = sink.sealWith stats true) ∧
      (flow = .answered (.ok .exhausted) → sink' = sink ∧
        ¬ (sink.awaitsTerminalOutcome = false ∧ ∀ turn ∈ turns.head?, turn.cancelled = true)) := by
  have hpressure : sink.buffer.pressure = .complete := by simp [ResultBuffer.pressure, hcomplete]
  cases turns with
  | nil => exact ⟨_, _, rfl, .inl rfl, fun h => by cases h⟩
  | cons turn turns =>
    cases hawaits : sink.awaitsTerminalOutcome with
    | true =>
      have hturn : sink.turn .none turn = sink.answer .exhausted := by
        simp [BatchSink.turn, hawaits, drainToEndTurn, BatchSink.stopping, Stopping.none, hpressure]
      rw [loop_of_answered turns (by rw [hturn]; rfl), hturn]
      exact ⟨_, _, rfl, .inl rfl, fun _ => ⟨rfl, by simp⟩⟩
    | false =>
      cases hcancelled : turn.cancelled with
      | true =>
        have hturn : sink.turn .none turn =
            (sink.sealWith turn.stats true).answer .cancelled := by
          simp [BatchSink.turn, hawaits, drainTurn, hcancelled]
        rw [loop_of_answered turns (by rw [hturn]; rfl), hturn]
        exact ⟨_, _, rfl, .inr ⟨turn.stats, rfl⟩, fun h => by cases h⟩
      | false =>
        have hturn : sink.turn .none turn = sink.answer .exhausted := by
          simp [BatchSink.turn, hawaits, drainTurn, hcancelled, hpressure]
        rw [loop_of_answered turns (by rw [hturn]; rfl), hturn]
        exact ⟨_, _, rfl, .inl rfl, fun _ => ⟨rfl, by simp [hcancelled]⟩⟩

theorem loop_of_cancelled (hawaits : sink.awaitsTerminalOutcome = false)
    (hcancelled : ∀ turn ∈ turns.head?, turn.cancelled = true) :
    (sink.loop .none turns).asked = [] := by
  cases turns with
  | nil => rfl
  | cons turn turns =>
    have hturn : sink.turn .none turn = (sink.sealWith turn.stats true).answer .cancelled := by
      simp [BatchSink.turn, hawaits, drainTurn, hcancelled turn rfl]
    rw [loop_of_answered turns (by rw [hturn]; rfl), hturn]
    rfl

end BatchSink

/-! ## Runs of calls -/

section

variable {fields : List Field} {limits : BufferLimits}
  {awaitsTerminalOutcome : Bool} {tr : List (CallEvent Field Row)}
  {sink sink' : BatchSink Field Row} {event : CallEvent Field Row}

structure Called (fields : List Field) (limits : BufferLimits) (awaitsTerminalOutcome : Bool)
    (tr : List (CallEvent Field Row)) (sink : BatchSink Field Row) : Prop where
  awaits : sink.awaitsTerminalOutcome = awaitsTerminalOutcome
  buffer : sink.buffer.index.complete = true ∨ sink.buffer.IsOpen
  stored : ∃ rows, sink.buffer.Stored fields limits rows
  abandoned : (∃ event ∈ tr, event.Abandons awaitsTerminalOutcome) →
    sink.aborted = true ∨ ∃ event ∈ tr, event.2.flow = .dropped

theorem called_new (fields : List Field) (limits : BufferLimits)
    (confirmEndAtLimit awaitsTerminalOutcome : Bool) :
    Called fields limits awaitsTerminalOutcome []
      (.new (.withLimits fields limits) confirmEndAtLimit awaitsTerminalOutcome :
        BatchSink Field Row) where
  awaits := rfl
  buffer := .inr (ResultBuffer.isOpen_withLimits fields limits)
  stored := ⟨[], ResultBuffer.stored_withLimits fields limits⟩
  abandoned := by simp

theorem Stands.closed_or_open {rows : List Row} {flow : Flow Field}
    (h : Stands fields limits rows sink flow) :
    sink.buffer.index.complete = true ∨ sink.buffer.IsOpen := by
  cases h with
  | storing hopen _ | stopped _ _ _ hopen _ | dropped hopen _ => exact .inr hopen
  | exhausted hcomplete _ _ | cut _ hcomplete _ _ | unmarked _ hcomplete _ _ => exact .inl hcomplete

theorem Stands.whole_of_exhausted {rows : List Row}
    (h : Stands fields limits rows sink (.answered (.ok .exhausted))) :
    sink.buffer.index.stats.truncated = false := by
  cases h with
  | exhausted _ hwhole _ => exact hwhole
  | cut hne => exact absurd rfl hne

theorem Called.abandoned_of_silent (h : Called fields limits awaitsTerminalOutcome tr sink)
    (hsilent : event.2.asked = []) (haborted : sink.aborted = true → sink'.aborted = true)
    (habandoned : ∃ e ∈ tr ++ [event], e.Abandons awaitsTerminalOutcome) :
    sink'.aborted = true ∨ ∃ e ∈ tr ++ [event], e.2.flow = .dropped := by
  obtain ⟨event', hmem, hevent⟩ := habandoned
  rcases mem_append.mp hmem with hbefore | hlast
  · refine (h.abandoned ⟨event', hbefore, hevent⟩).imp haborted ?_
    rintro ⟨dropped, hdropped, hflow⟩
    exact ⟨dropped, mem_append_left _ hdropped, hflow⟩
  · obtain rfl := mem_singleton.mp hlast
    obtain ⟨asked, hasked, -⟩ := hevent
    simp [hsilent] at hasked

variable [DecidableEq Field]

/-- What one call keeps, and what it shows. -/
structure CalledOnce (fields : List Field) (limits : BufferLimits) (awaitsTerminalOutcome : Bool)
    (tr : List (CallEvent Field Row)) (event : CallEvent Field Row)
    (sink' : BatchSink Field Row) : Prop where
  called : Called fields limits awaitsTerminalOutcome (tr ++ [event]) sink'
  silent : (∃ event ∈ tr, event.Abandons awaitsTerminalOutcome) → event.2.asked = []
  honest : event.2.flow = .answered (.ok .exhausted) →
    event.2.sink.buffer.index.stats.truncated = false

theorem Called.of_complete (h : Called fields limits awaitsTerminalOutcome tr sink)
    {turns : List (Turn Field Row)} (hfollow : MayFollow tr sink turns)
    (haborted : sink.aborted = false) (hcomplete : sink.buffer.index.complete = true) :
    CalledOnce fields limits awaitsTerminalOutcome tr (turns, sink.loop .none turns)
      (sink.loop .none turns).sink := by
  obtain ⟨flow, sink', hloop, hsink', hclaims⟩ :
      ∃ flow sink', sink.loop .none turns = ⟨[], flow, sink', []⟩ ∧ _ :=
    BatchSink.loop_of_complete hcomplete
  rw [hloop]
  obtain ⟨rows, hstored⟩ := h.stored
  refine ⟨⟨?_, ?_, ?_, h.abandoned_of_silent rfl (by simp [haborted])⟩, fun _ => rfl, fun hflow => ?_⟩
  · obtain rfl | ⟨stats, rfl⟩ := hsink'
    · exact h.awaits
    · exact h.awaits
  · obtain rfl | ⟨stats, rfl⟩ := hsink'
    · exact .inl hcomplete
    · exact .inl rfl
  · obtain rfl | ⟨stats, rfl⟩ := hsink'
    · exact ⟨rows, hstored⟩
    · exact ⟨rows, BatchSink.stored_sealWith hstored stats true⟩
  · obtain ⟨rfl, hnot⟩ := hclaims hflow
    by_contra hmarked
    rcases hfollow (.inr ⟨hcomplete, eq_true_of_ne_false hmarked⟩) with habort | hfirst
    · simp [haborted] at habort
    · exact hnot hfirst

theorem Called.of_open (h : Called fields limits awaitsTerminalOutcome tr sink)
    {turns : List (Turn Field Row)} (hfollow : MayFollow tr sink turns)
    (haborted : sink.aborted = false) (hopen : sink.buffer.IsOpen) :
    CalledOnce fields limits awaitsTerminalOutcome tr (turns, sink.loop .none turns)
      (sink.loop .none turns).sink := by
  obtain ⟨rows, hstored⟩ := h.stored
  have hstands := BatchSink.loop_stands (.storing hopen hstored) turns
  obtain ⟨stored, hstored', -⟩ := hstands.holds
  have hmodes := BatchSink.sameModes_loop sink .none turns
  refine ⟨⟨hmodes.awaits.trans h.awaits, hstands.closed_or_open, ⟨stored, hstored'⟩, ?_⟩, ?_, ?_⟩
  · rintro ⟨event, hmem, hevent⟩
    rcases mem_append.mp hmem with hbefore | hlast
    · rcases h.abandoned ⟨event, hbefore, hevent⟩ with habort | ⟨dropped, hdropped, hflow⟩
      · simp [haborted] at habort
      · exact .inr ⟨dropped, mem_append_left _ hdropped, hflow⟩
    · obtain rfl := mem_singleton.mp hlast
      obtain ⟨asked, hasked, hawaited⟩ := hevent
      obtain ⟨hdropped, habort⟩ := BatchSink.loop_of_abandoned hasked
      rcases hawaited with hawaited | ⟨hawaits, hawaited⟩
      · exact .inr ⟨_, hmem, hdropped hawaited⟩
      · exact .inl (habort (h.awaits.trans hawaits) hawaited)
  · intro habandoned
    rcases h.abandoned habandoned with habort | hdropped
    · simp [haborted] at habort
    · rcases hfollow (.inl hdropped) with habort | ⟨hawaits, hcancelled⟩
      · simp [haborted] at habort
      · exact BatchSink.loop_of_cancelled hawaits hcancelled
  · intro hflow
    have hflow' : (sink.loop .none turns).flow = .answered (.ok .exhausted) := hflow
    exact (hflow' ▸ hstands).whole_of_exhausted

theorem Called.step (h : Called fields limits awaitsTerminalOutcome tr sink)
    (hfollow : MayFollow tr sink event.1) (hstep : CallStep sink event sink') :
    CalledOnce fields limits awaitsTerminalOutcome tr event sink' := by
  obtain ⟨turns, call⟩ := event
  obtain ⟨hcall, hsink⟩ := hstep
  simp only at hcall hsink hfollow
  subst hcall hsink
  cases haborted : sink.aborted with
  | true =>
    simp only [BatchSink.drainWith, haborted, ↓reduceIte]
    exact ⟨⟨h.awaits, h.buffer, h.stored, h.abandoned_of_silent rfl id⟩, fun _ => rfl,
      fun hflow => by cases hflow⟩
  | false =>
    simp only [BatchSink.drainWith, haborted, Bool.false_eq_true, ↓reduceIte]
    rcases h.buffer with hcomplete | hopen
    · exact h.of_complete hfollow haborted hcomplete
    · exact h.of_open hfollow haborted hopen

/-- As long as only such calls follow, no call reads a source that was abandoned in flight,
and none claims the end of a result that is marked truncated. -/
theorem sink_stays_honest {confirmEndAtLimit : Bool} (hrun : Steps CallStep
      (.new (.withLimits fields limits) confirmEndAtLimit awaitsTerminalOutcome) tr sink)
    (hfollow : ∀ before event after t, tr = before ++ event :: after →
      Steps CallStep (.new (.withLimits fields limits) confirmEndAtLimit awaitsTerminalOutcome)
        before t → MayFollow before t event.1) :
    (∀ before event after, tr = before ++ event :: after →
        (∃ event ∈ before, event.Abandons awaitsTerminalOutcome) → event.2.asked = []) ∧
      ∀ event ∈ tr, event.2.flow = .answered (.ok .exhausted) →
        event.2.sink.buffer.index.stats.truncated = false := by
  suffices Called fields limits awaitsTerminalOutcome tr sink ∧ _ ∧ _ from this.2
  induction hrun with
  | nil => exact ⟨called_new _ _ _ _, by simp, by simp⟩
  | @snoc t u tr event hbefore hstep ih =>
    obtain ⟨hcalled, hsilent, hhonest⟩ := ih fun before event' after t htr =>
      hfollow before event' (after ++ [event]) t (by simp [htr])
    have honce := hcalled.step (hfollow tr event [] t rfl hbefore) hstep
    refine ⟨honce.called, fun before event' after htr habandoned => ?_, fun event' hmem => ?_⟩
    · rcases eq_nil_or_concat after with rfl | ⟨after', last, rfl⟩
      · obtain ⟨rfl, hlast⟩ := append_inj' htr rfl
        obtain rfl := singleton_inj.mp hlast
        exact honce.silent habandoned
      · have htr' : tr ++ [event] = (before ++ event' :: after') ++ [last] := by simpa using htr
        obtain ⟨rfl, -⟩ := append_inj' htr' rfl
        exact hsilent before event' after' rfl habandoned
    · rcases mem_append.mp hmem with hold | hlast
      · exact hhonest event' hold
      · exact mem_singleton.mp hlast ▸ honce.honest

end

def roomySink : BatchSink Unit Nat :=
  .new (.withLimits [()] ⟨100, none, none, true, hundred_le_wordMax, rows_unbounded⟩) false false

/-- A turn on which nothing was found triggered. -/
def turnOf (awaited : Awaited Unit Nat) : Turn Unit Nat := ⟨false, awaited, .default, .error .spill⟩

/-- The source of a race that was lost is not read again. -/
theorem not_read_again :
    ((roomySink.drainWith [turnOf .cancelled]).sink.drainWith [turnOf (.received .ended)]).asked =
      [] := by
  have hrun := steps_drainAll roomySink [[turnOf .cancelled], [turnOf (.received .ended)]]
  refine (sink_stays_honest hrun ?_).1 [_] _ [] rfl
    ⟨_, mem_singleton.mpr rfl, ⟨_, mem_singleton.mpr rfl, .inr ⟨rfl, rfl⟩⟩⟩
  intro before event after t htr hbefore
  rcases before with _ | ⟨first, _ | ⟨second, rest⟩⟩
  · -- The first call finds a new sink.
    rw [hbefore.nil_inv]
    exact fun h => absurd h (by simp [BatchSink.new, ResultBuffer.withLimits, BufferIndex.new])
  · -- The second one finds it aborted.
    obtain ⟨rfl, -⟩ := List.cons.inj htr
    obtain ⟨-, hsink⟩ := hbefore.singleton_inv
    exact fun _ => .inl (hsink ▸ rfl)
  · have := congrArg List.length htr
    simp [BatchSink.drainAll] at this

/-- A call that was dropped does not stop the next one from reading; and a result that was
cancelled is claimed to be whole. -/
theorem read_after_drop :
    (¬ ∀ (tr : List (CallEvent Unit Nat)) (sink : BatchSink Unit Nat),
      Steps CallStep roomySink tr sink → ∀ before event after, tr = before ++ event :: after →
        (∃ event ∈ before, event.Abandons false) → event.2.asked = []) ∧
    ¬ ∀ (tr : List (CallEvent Unit Nat)) (sink : BatchSink Unit Nat),
      Steps CallStep roomySink tr sink → ∀ event ∈ tr,
        event.2.flow = .answered (.ok .exhausted) →
          event.2.sink.buffer.index.stats.truncated = false := by
  constructor
  · intro h
    have hsilent := h _ _ (steps_drainAll roomySink [[turnOf .dropped], [turnOf (.received .ended)]])
      [_] _ [] rfl ⟨_, mem_singleton.mpr rfl, ⟨_, mem_singleton.mpr rfl, .inl rfl⟩⟩
    cases hsilent
  · intro h
    have hwhole := h _ _ (steps_drainAll roomySink
      [[⟨true, .dropped, .default, .error .spill⟩], [turnOf (.received .ended)]])
      _ (mem_cons_of_mem _ (mem_singleton.mpr rfl)) rfl
    exact absurd hwhole (by decide)

end Oxyn.Data
