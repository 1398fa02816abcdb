/-
# `Oxyn.Llm.Ended` — a generation stream ends exactly once, and says how

What is common to the decoders is read off their laws: one end, which is the last event, and no
call but those a frame closed.  The scrubbing of error texts changes neither.
-/
import Oxyn.Llm.AnthropicEnd
import Oxyn.Llm.OpenAiEnd

namespace Oxyn.Llm

section

variable {D J : Type} {dec : EventDecoder D J} {P : List SseFrame → D → Prop}
  {R : List SseFrame → StopReason → Prop}
  {C : List SseFrame → SseFrame → ChatEvent J → Prop}

/-- The end is the last event, the only one of its kind, for a reason that the frames bear out; and
each call was closed by the frame that emitted it. -/
structure Story.Honest (s : Story J) (scrub : String → String)
    (R : List SseFrame → StopReason → Prop) (C : List SseFrame → SseFrame → ChatEvent J → Prop) :
    Prop where
  ends : ∃ reason, EndsWith (s.events scrub) reason ∧ R s.frames reason
  closed : ∀ e ∈ s.events scrub, e.isCall = true → ∃ before turn after,
    s.turns = before ++ turn :: after ∧ e ∈ turn.2 ∧ C (before.map Prod.fst) turn.1 e

theorem redact_of_call {scrub : String → String} {e : ChatEvent J}
    (h : (redact scrub e).isCall = true) : redact scrub e = e := by
  cases e with
  | error message => cases h
  | _ => rfl

theorem story_honest (hlaw : Lawful dec P R) (hcalls : CallsClosed dec P C) (d : D)
    (hopen : dec.isDone d = false) (hP : P [] d) (chunks : List (List UInt8)) (ending : Ending)
    (scrub : String → String) : (story dec d chunks ending).Honest scrub R C where
  ends := events_end_once hlaw d hopen hP chunks ending scrub
  closed e he hcall := by
    obtain ⟨raw, hraw, rfl⟩ := List.mem_map.mp he
    have hsame := redact_of_call hcall
    rw [hsame] at hcall ⊢
    exact calls_closed hlaw hcalls d hopen hP chunks ending hraw hcall

end

theorem OpenAi.new_read {J : Type} (wire : OpenAi.Wire J) : OpenAi.Read wire [] .new :=
  ⟨rfl, rfl⟩

theorem Anthropic.new_read {J : Type} (wire : Anthropic.Wire J) : Anthropic.Read wire [] .new :=
  ⟨rfl, rfl, nofun⟩

/-- Both decoders, on every byte stream, however it is cut into chunks and however it ends: one
end, last, for the reason announced if the announcement was read and for a cut otherwise; and
no call that was not closed. -/
theorem stream_ends_once {J : Type} (chunks : List (List UInt8)) (ending : Ending)
    (scrub : String → String) :
    (∀ wire : Anthropic.Wire J, (story (Anthropic.decoder wire) .new chunks ending).Honest scrub
      (Anthropic.announcedEnd wire) (Anthropic.Closes wire)) ∧
    ∀ wire : OpenAi.Wire J, (story (OpenAi.decoder wire) .new chunks ending).Honest scrub
      (OpenAi.announcedEnd wire) (OpenAi.Closes wire) :=
  ⟨fun wire => story_honest (Anthropic.lawful wire) (Anthropic.callsClosed wire) .new rfl
      (Anthropic.new_read wire) chunks ending scrub,
    fun wire => story_honest (OpenAi.lawful wire) (OpenAi.callsClosed wire) .new rfl
      (OpenAi.new_read wire) chunks ending scrub⟩

end Oxyn.Llm
