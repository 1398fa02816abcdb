/-
# `Oxyn.Llm.OpenAi` — the decoder of the OpenAI-compatible protocols

A call's fragments come in frames interleaved with those of the others; what links them is the
server's `index` and, on the first fragment, the `id`.
-/
import Oxyn.Llm.Decoding

namespace Oxyn.Llm.OpenAi

open Text

/-! ## The frames -/

structure DeltaFunction where
  name : Option Str
  arguments : Option Str

structure DeltaToolCall where
  index : Option Nat
  id : Option Str
  function : Option DeltaFunction

structure Delta where
  content : Option Str
  refusal : Option Str
  toolCalls : List DeltaToolCall

structure ChunkChoice where
  delta : Delta
  finishReason : Option Str

structure WireUsage where
  promptTokens : Option Int
  completionTokens : Option Int
  /-- The details of each, when declared. -/
  cachedTokens : Option Int
  reasoningTokens : Option Int

structure WireError where
  message : Option String
  code : Option String

structure ChatChunk where
  choices : List ChunkChoice
  usage : Option WireUsage
  error : Option WireError

/-- A message to show, never empty. -/
def WireError.describe (e : WireError) : String :=
  match e.message, e.code with
  | some message, some code =>
    if message = "" then "code " ++ code else message ++ " (code " ++ code ++ ")"
  | some message, none => if message = "" then "no details given" else message
  | none, some code => "code " ++ code
  | none, none => "no details given"

/-- How the JSON of the protocol is read. -/
structure Wire (J : Type) where
  json : Json J
  chunk : Str → Except JsonError ChatChunk

def ioError : String := "input-output error"

def doneSentinel : Str := "[DONE]".toList

def maxDecodeErrors : Nat := 8

def stopReason (raw : Str) : StopReason :=
  if raw = "stop".toList then .endTurn
  else if raw = "length".toList then .maxTokens
  else if raw = "tool_calls".toList ∨ raw = "function_call".toList then .toolCalls
  else if raw = "content_filter".toList then .contentFilter
  else .other raw

/-- An identifier for a call that was given none. -/
def syntheticId (index : Nat) : Str := "call_".toList ++ (toString index).toList

/-! ## The state -/

/-- A tool call being reassembled. -/
structure PartialCall where
  wireIndex : Option Nat
  id : Option Str
  name : Str
  arguments : Str
  started : Option Str
deriving DecidableEq

structure ChunkDecoder where
  calls : List PartialCall
  budget : GenerationBudget
  stop : Option StopReason
  done : Bool
  errors : Nat

def ChunkDecoder.new : ChunkDecoder := ⟨[], .new, none, false, 0⟩

section

variable {J : Type}

/-! ## A fragment -/

/-- The position of the last call that satisfies a condition. -/
def rposition (p : PartialCall → Bool) (calls : List PartialCall) : Option Nat :=
  (calls.reverse.findIdx? p).map fun i => calls.length - 1 - i

/-- The call a fragment goes on, by its index or as the last one, unless it has another `id`. -/
def continuedByIndex (calls : List PartialCall) (index : Option Nat) (id : Option Str) :
    Option Nat := do
  let candidate ←
    match index with
    | some index => rposition (fun call => call.wireIndex == some index) calls
    | none => if calls.length = 0 then none else some (calls.length - 1)
  let call ← calls[candidate]?
  match id, call.id with
  | some new, some known => if new ≠ known then none else some candidate
  | _, _ => some candidate

def continued (calls : List PartialCall) (index : Option Nat) (id : Option Str) : Option Nat :=
  match id.bind fun id => rposition (fun call => call.id == some id) calls with
  | some same => some same
  | none => continuedByIndex calls index id

def nonEmpty (text : Option Str) : Option Str := text.filter fun value => !value.isEmpty

abbrev Step (J α : Type) : Type := Decoding (List PartialCall) J α

def openCall (index : Option Nat) : Step J Nat := do
  let _ ← count GenerationBudget.openToolCall
  let calls ← current
  let _ ← keepAs (· ++ [⟨index, none, [], [], none⟩])
  pure calls.length

def positionOf (index : Option Nat) (id : Option Str) : Step J Nat := do
  let calls ← current
  match continued calls index id with
  | some position => pure position
  | none => openCall index

def update (position : Nat) (f : PartialCall → PartialCall) : Step J Unit :=
  keepAs (·.modify position f)

def keepId (position : Nat) (entry : PartialCall) : Option Str → Step J Unit
  | some id =>
    if entry.id = none then do
      let _ ← count (·.charge (byteLen id))
      update position fun call => { call with id := some id }
    else pure ()
  | none => pure ()

/-- A fragment of the name: a few servers cut it too. -/
def keepName (position index : Nat) (entry : PartialCall) : Option Str → Step J Unit
  | some name => do
      let _ ← count (·.chargeToolName index (byteLen entry.name) (byteLen name))
      update position fun call => { call with name := call.name ++ name }
  | none => pure ()

def keepArguments (position index : Nat) (entry : PartialCall) : Option Str → Step J Unit
  | some arguments => do
      let _ ← count (·.chargeToolArguments index (byteLen entry.arguments) (byteLen arguments))
      update position fun call => { call with arguments := call.arguments ++ arguments }
  | none => pure ()

def announce (position index : Nat) (entry : PartialCall) : Step J Unit :=
  if entry.started = none ∧ entry.name ≠ [] then do
    let id := entry.id.getD (syntheticId index)
    let _ ← update position fun call => { call with started := some id }
    emit (.toolCallStarted index id entry.name)
  else pure ()

def emitFragment (index : Nat) : Option Str → Step J Unit
  | some arguments => emit (.toolCallDelta index arguments)
  | none => pure ()

def entryAt (position : Nat) : Step J (Option PartialCall) := do
  let calls ← current
  pure calls[position]?

def attach (raw : DeltaToolCall) (position : Nat) (entry : PartialCall) : Step J Unit := do
  let index := min position u32Max
  let _ ← keepId position entry (nonEmpty raw.id)
  let _ ← keepName position index entry (raw.function.bind fun f => nonEmpty f.name)
  let _ ← keepArguments position index entry (raw.function.bind fun f => nonEmpty f.arguments)
  let now ← entryAt position
  let _ ← announce position index (now.getD entry)
  emitFragment index (raw.function.bind fun f => nonEmpty f.arguments)

/-- Stores a tool call fragment and emits what has become certain. -/
def accumulate (raw : DeltaToolCall) : Step J Unit := do
  let position ← positionOf raw.index (nonEmpty raw.id)
  match ← entryAt position with
  | some entry => attach raw position entry
  | none => pure ()

def accumulateAll : List DeltaToolCall → Step J Unit
  | [] => pure ()
  | raw :: rest => do
      let _ ← accumulate raw
      accumulateAll rest

def emitText (event : Str → ChatEvent J) : Option Str → Step J Unit
  | some text => do
      let _ ← count (·.charge (byteLen text))
      emit (event text)
  | none => pure ()

/-- The content of a choice fragment; a refusal is a response, not an error. -/
def onDelta (delta : Delta) : Step J Unit := do
  let _ ← emitText .textDelta (nonEmpty delta.content)
  let _ ← emitText .refusalDelta (nonEmpty delta.refusal)
  accumulateAll delta.toolCalls

/-! ## The ends -/

/-- The calls thrown away, each that had something reported. -/
def discardFrom : Nat → List PartialCall → List (ChatEvent J)
  | _, [] => []
  | position, call :: rest =>
    if call.name ≠ [] ∨ call.arguments ≠ [] then
      .error ("tool call #" ++ toString position ++
        " was not finished by the provider and was dropped") :: discardFrom (position + 1) rest
    else discardFrom (position + 1) rest

def flushCall (json : Json J) (position : Nat) (call : PartialCall) : List (ChatEvent J) :=
  let index := min position u32Max
  if call.name = [] then
    [.error ("tool call #" ++ toString index ++ " has no name and was dropped")]
  else
    match call.started with
    | some announced => [callEvent json ioError announced call.name call.arguments]
    | none =>
      let id := call.id.getD (syntheticId index)
      [.toolCallStarted index id call.name, callEvent json ioError id call.name call.arguments]

def flushFrom (json : Json J) : Nat → List PartialCall → List (ChatEvent J)
  | _, [] => []
  | position, call :: rest => flushCall json position call ++ flushFrom json (position + 1) rest

/-- Emits `Done` once and only once. -/
def emitDone (d : ChunkDecoder) (out : List (ChatEvent J)) : ChunkDecoder × List (ChatEvent J) :=
  if d.done then (d, out)
  else
    ({ d with done := true, stop := none }, out ++ [.done (d.stop.getD .unspecified)])

/-- The calls in progress are thrown away, and reported; the stream ends. -/
def dropAndEnd (d : ChunkDecoder) (out : List (ChatEvent J)) (reason : StopReason) :
    ChunkDecoder × List (ChatEvent J) :=
  emitDone { d with calls := [], stop := some reason } (out ++ discardFrom 0 d.calls)

def exceed (d : ChunkDecoder) (out : List (ChatEvent J)) (limit : BudgetExceeded) :
    ChunkDecoder × List (ChatEvent J) :=
  dropAndEnd d (out ++ [.error limit.text]) .interrupted

/-! ## A frame -/

/-- A `finish_reason` closes the calls gathered: the generation is finished, the stream not. -/
def onFinish (json : Json J) (d : ChunkDecoder) (out : List (ChatEvent J)) :
    Option Str → ChunkDecoder × List (ChatEvent J)
  | some reason =>
    ({ d with calls := [], stop := some (stopReason reason) }, out ++ flushFrom json 0 d.calls)
  | none => (d, out)

def onChoices (json : Json J) (d : ChunkDecoder) (out : List (ChatEvent J)) :
    List ChunkChoice → ChunkDecoder × List (ChatEvent J)
  | [] => (d, out)
  | choice :: rest =>
    match onDelta choice.delta ⟨d.calls, d.budget, out⟩ with
    | (.error limit, a) => exceed { d with calls := a.kept, budget := a.budget } a.out limit
    | (.ok _, a) =>
      let closed := onFinish json { d with calls := a.kept, budget := a.budget } a.out
        choice.finishReason
      onChoices json closed.1 closed.2 rest

def usageEvent (usage : WireUsage) : ChatEvent J :=
  .usage (clampTokens usage.promptTokens) (clampTokens usage.completionTokens) none
    (usage.cachedTokens.map fun n => clampTokens (some n))
    (usage.reasoningTokens.map fun n => clampTokens (some n))

/-- A frame that was read; an error in it is terminal. -/
def onChunk (json : Json J) (d : ChunkDecoder) (chunk : ChatChunk) :
    ChunkDecoder × List (ChatEvent J) :=
  match chunk.error with
  | some error => dropAndEnd d [.error error.describe] .providerError
  | none => onChoices json d (chunk.usage.map usageEvent).toList chunk.choices

/-- Consumes the `data` field of an SSE frame. -/
def onData (wire : Wire J) (d : ChunkDecoder) (data : Str) :
    ChunkDecoder × List (ChatEvent J) :=
  if d.done then (d, [])
  else if (trim data).isEmpty then (d, [])
  else if trim data = doneSentinel then
    emitDone { d with calls := [] } (flushFrom wire.json 0 d.calls)
  else
    match wire.chunk (trim data) with
    | .ok chunk => onChunk wire.json d chunk
    | .error e =>
      if maxDecodeErrors ≤ d.errors + 1 then
        emitDone { d with errors := d.errors + 1, stop := some .interrupted }
          [unreadableFrame ioError e]
      else ({ d with errors := d.errors + 1 }, [unreadableFrame ioError e])

/-- The server closed the stream without the sentinel. -/
def finish (d : ChunkDecoder) : ChunkDecoder × List (ChatEvent J) :=
  if d.done then (d, [])
  else if d.stop.isSome then emitDone { d with calls := [] } (discardFrom 0 d.calls)
  else
    dropAndEnd d
      [.error "the stream ended before the provider announced the end of the generation"]
      .interrupted

def cancel (d : ChunkDecoder) : ChunkDecoder × List (ChatEvent J) :=
  emitDone { d with calls := [], stop := some .cancelled } []

def transportError (d : ChunkDecoder) (detail : String) : ChunkDecoder × List (ChatEvent J) :=
  if d.done then (d, [])
  else emitDone { d with calls := [], stop := some .interrupted } [.error detail]

def decoder (wire : Wire J) : EventDecoder ChunkDecoder J where
  onFrame d frame := onData wire d frame.data
  isDone d := d.done
  finish := finish
  cancel := cancel
  transportError := transportError

end

end Oxyn.Llm.OpenAi
