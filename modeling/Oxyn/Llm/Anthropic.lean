/-
# `Oxyn.Llm.Anthropic` — the decoder of the Anthropic protocol

This protocol opens and closes each content block under an index the server announces; a block's
type is given at its opening, and the deltas that follow depend on it.
-/
import Oxyn.Llm.Decoding

namespace Oxyn.Llm.Anthropic

open Text

/-! ## The frames -/

structure WireUsage where
  inputTokens : Option Int
  outputTokens : Option Int
  cacheCreationInputTokens : Option Int
  cacheReadInputTokens : Option Int

/-- Does the frame carry usable information? -/
def WireUsage.isEmpty (u : WireUsage) : Bool :=
  u.inputTokens.isNone && u.outputTokens.isNone && u.cacheCreationInputTokens.isNone &&
    u.cacheReadInputTokens.isNone

structure WireError where
  type : Option String
  message : Option String

/-- A message to show, never empty unless the type is. -/
def WireError.describe (e : WireError) : String :=
  match e.type, e.message with
  | some kind, some message => if message = "" then kind else message ++ " (" ++ kind ++ ")"
  | none, some message => if message = "" then "no details given" else message
  | some kind, none => kind
  | none, none => "no details given"

structure ContentBlock where
  type : Option Str
  id : Option Str
  name : Option Str
  thinking : Option Str
  signature : Option Str
  data : Option Str

structure Delta where
  type : Option Str
  text : Option Str
  partialJson : Option Str
  thinking : Option Str
  signature : Option Str
  stopReason : Option Str

/-- A frame; of `message_start` only the usage is read. -/
structure Envelope where
  type : Option Str
  index : Option Nat
  messageUsage : Option WireUsage
  contentBlock : Option ContentBlock
  delta : Option Delta
  usage : Option WireUsage
  error : Option WireError

/-- How the JSON of the protocol is read. -/
structure Wire (J : Type) where
  json : Json J
  envelope : Str → Except JsonError Envelope

def ioError : String := "I/O error"

def maxDecodeErrors : Nat := 8

def stopReason (raw : Str) : StopReason :=
  if raw = "end_turn".toList then .endTurn
  else if raw = "max_tokens".toList then .maxTokens
  else if raw = "stop_sequence".toList then .stopSequence
  else if raw = "tool_use".toList then .toolCalls
  else if raw = "pause_turn".toList then .paused
  else if raw = "refusal".toList then .refusal
  else if raw = "model_context_window_exceeded".toList then .contextWindowExceeded
  else .other raw

/-- An identifier for a call that was given none. -/
def syntheticId (index : Nat) : Str := "toolu_".toList ++ (toString index).toList

/-! ## The state -/

/-- What a content block accumulates, according to its type. -/
inductive PartialBlock where
  | text
  | toolUse (id name arguments : Str)
  | thinking (text : Str) (signature : Option Str)
  | redactedThinking (data : Str)
  | unknown
deriving DecidableEq

/-- The open blocks, in the order of their indices. -/
abbrev Blocks : Type := List (Nat × PartialBlock)

/-- `BTreeMap::get`. -/
def Blocks.get (blocks : Blocks) (index : Nat) : Option PartialBlock :=
  (blocks.find? fun entry => entry.1 = index).map Prod.snd

/-- `BTreeMap::insert`. -/
def Blocks.insert (index : Nat) (block : PartialBlock) : Blocks → Blocks
  | [] => [(index, block)]
  | entry :: rest =>
    if index < entry.1 then (index, block) :: entry :: rest
    else if index = entry.1 then (index, block) :: rest
    else entry :: Blocks.insert index block rest

/-- `BTreeMap::remove`. -/
def Blocks.remove (index : Nat) (blocks : Blocks) : Blocks :=
  blocks.filter fun entry => entry.1 ≠ index

structure MessageDecoder where
  blocks : Blocks
  budget : GenerationBudget
  stop : Option StopReason
  done : Bool
  errors : Nat

def MessageDecoder.new : MessageDecoder := ⟨[], .new, none, false, 0⟩

section

variable {J : Type}

abbrev Step (J α : Type) : Type := Decoding Blocks J α

def lengthOf (field : Option Str) : Nat := (field.map byteLen).getD 0

def toolUseType : Str := "tool_use".toList

/-! ## Blocks -/

def countBlock (index : Nat) (block : ContentBlock) : Step J Unit :=
  if block.type = some toolUseType then do
    let _ ← count GenerationBudget.openToolCall
    let _ ← count (·.chargeToolName index 0 (lengthOf block.name))
    count (·.charge (lengthOf block.id))
  else do
    let _ ← count GenerationBudget.openBlock
    count (·.charge (lengthOf block.thinking + lengthOf block.signature + lengthOf block.data))

def openTool (index : Nat) (id name : Str) : Step J PartialBlock :=
  if name = [] then pure (.toolUse id name [])
  else do
    let _ ← emit (.toolCallStarted index id name)
    pure (.toolUse id name [])

def openBlock (index : Nat) (block : ContentBlock) : Step J PartialBlock :=
  if block.type = some "text".toList then pure .text
  else if block.type = some toolUseType then
    openTool index (block.id.getD (syntheticId index)) (block.name.getD [])
  else if block.type = some "thinking".toList then
    pure (.thinking (block.thinking.getD []) block.signature)
  else if block.type = some "redacted_thinking".toList then
    pure (.redactedThinking (block.data.getD []))
  else pure .unknown

/-- `content_block_start`: a block opens, its type is given. -/
def onBlockStart (frame : Envelope) : Step J Unit :=
  match frame.index, frame.contentBlock with
  | some index, some block => do
      let _ ← countBlock index block
      let opened ← openBlock index block
      keepAs (Blocks.insert index opened)
  | _, _ => pure ()

def nonEmpty (text : Option Str) : Option Str := text.filter fun value => !value.isEmpty

def replace (index : Nat) (block : PartialBlock) : Step J Unit :=
  keepAs (Blocks.insert index block)

def isType (delta : Delta) (name : String) : Bool := delta.type == some name.toList

def onFragment (index : Nat) (delta : Delta) : PartialBlock → Step J Unit
  | .text =>
    match isType delta "text_delta", nonEmpty delta.text with
    | true, some text => do
        let _ ← count (·.charge (byteLen text))
        emit (.textDelta text)
    | _, _ => pure ()
  | .toolUse id name arguments =>
    match isType delta "input_json_delta", nonEmpty delta.partialJson with
    | true, some fragment => do
        let _ ← count (·.chargeToolArguments index (byteLen arguments) (byteLen fragment))
        let _ ← replace index (.toolUse id name (arguments ++ fragment))
        emit (.toolCallDelta index fragment)
    | _, _ => pure ()
  | .thinking text signature =>
    match isType delta "thinking_delta", nonEmpty delta.thinking with
    | true, some fragment => do
        let _ ← count (·.charge (byteLen fragment))
        let _ ← replace index (.thinking (text ++ fragment) signature)
        emit (.reasoningDelta index fragment)
    | _, _ =>
      match isType delta "signature_delta", delta.signature with
      | true, some value => do
          let _ ← count (·.charge (byteLen value))
          replace index (.thinking text (some value))
      | _, _ => pure ()
  | .redactedThinking _ | .unknown => pure ()

/-- `content_block_delta`: a block never opened is not invented. -/
def onBlockDelta (frame : Envelope) : Step J Unit :=
  match frame.index, frame.delta with
  | some index, some delta => do
      let blocks ← current
      match blocks.get index with
      | some block => onFragment index delta block
      | none => pure ()
  | _, _ => pure ()

def closeBlock (json : Json J) (index : Nat) : PartialBlock → List (ChatEvent J)
  | .text | .unknown => []
  | .toolUse id name arguments =>
    if name = [] then [.error ("tool call #" ++ toString index ++ " has no name and was dropped")]
    else [callEvent json ioError id name arguments]
  | .thinking text signature => [.reasoningComplete index (.summarized text signature)]
  | .redactedThinking data => [.reasoningComplete index (.redacted data)]

/-! ## The ends -/

def discarded (entry : Nat × PartialBlock) : List (ChatEvent J) :=
  match entry.2 with
  | .text | .unknown => []
  | .toolUse .. =>
    [.error ("tool call #" ++ toString entry.1 ++
      " was not closed by the provider and was dropped")]
  | .thinking .. | .redactedThinking _ =>
    [.error ("reasoning block #" ++ toString entry.1 ++
      " was not closed by the provider and was dropped")]

def emitDone (d : MessageDecoder) (out : List (ChatEvent J)) :
    MessageDecoder × List (ChatEvent J) :=
  if d.done then (d, out)
  else
    ({ d with done := true, stop := none }, out ++ [.done (d.stop.getD .unspecified)])

/-- The open blocks are thrown away, and reported; the stream ends. -/
def dropAndEnd (d : MessageDecoder) (out : List (ChatEvent J)) (stop : Option StopReason) :
    MessageDecoder × List (ChatEvent J) :=
  emitDone { d with blocks := [], stop := stop } (out ++ d.blocks.flatMap discarded)

def exceed (d : MessageDecoder) (out : List (ChatEvent J)) (limit : BudgetExceeded) :
    MessageDecoder × List (ChatEvent J) :=
  dropAndEnd d (out ++ [.error limit.text]) (some .interrupted)

/-! ## A frame -/

def usageEvent (usage : WireUsage) : ChatEvent J :=
  .usage (clampTokens usage.inputTokens) (clampTokens usage.outputTokens)
    (usage.cacheCreationInputTokens.map fun n => clampTokens (some n))
    (usage.cacheReadInputTokens.map fun n => clampTokens (some n)) none

def usageEvents (usage : Option WireUsage) : List (ChatEvent J) :=
  match usage with
  | some usage => if usage.isEmpty then [] else [usageEvent usage]
  | none => []

/-- `content_block_stop`: the block is complete. -/
def onBlockStop (json : Json J) (d : MessageDecoder) (frame : Envelope) :
    MessageDecoder × List (ChatEvent J) :=
  match frame.index with
  | some index =>
    match d.blocks.get index with
    | some block => ({ d with blocks := Blocks.remove index d.blocks }, closeBlock json index block)
    | none => (d, [])
  | none => (d, [])

/-- `message_delta`: the stop reason and the cumulative usage; the stream goes on. -/
def onMessageDelta (d : MessageDecoder) (frame : Envelope) :
    MessageDecoder × List (ChatEvent J) :=
  match frame.delta.bind Delta.stopReason with
  | some reason => ({ d with stop := some (stopReason reason) }, usageEvents frame.usage)
  | none => (d, usageEvents frame.usage)

/-- An error in the stream: the blocks in progress are thrown away. -/
def onError (d : MessageDecoder) (error : Option WireError) :
    MessageDecoder × List (ChatEvent J) :=
  emitDone { d with blocks := [], stop := some .providerError }
    [.error ((error.map WireError.describe).getD "no details given")]

inductive Kind where
  | messageStart | blockStart | blockDelta | blockStop | messageDelta | messageStop | error | other
deriving DecidableEq

def Envelope.kind (frame : Envelope) : Kind :=
  match frame.type with
  | none => .other
  | some name =>
    if name = "message_start".toList then .messageStart
    else if name = "content_block_start".toList then .blockStart
    else if name = "content_block_delta".toList then .blockDelta
    else if name = "content_block_stop".toList then .blockStop
    else if name = "message_delta".toList then .messageDelta
    else if name = "message_stop".toList then .messageStop
    else if name = "error".toList then .error
    else .other

def counted (d : MessageDecoder) (step : Step J Unit) : MessageDecoder × List (ChatEvent J) :=
  match step ⟨d.blocks, d.budget, []⟩ with
  | (.error limit, a) => exceed { d with blocks := a.kept, budget := a.budget } a.out limit
  | (.ok _, a) => ({ d with blocks := a.kept, budget := a.budget }, a.out)

def onEnvelope (json : Json J) (d : MessageDecoder) (frame : Envelope) :
    MessageDecoder × List (ChatEvent J) :=
  match frame.kind with
  | .blockStart => counted d (onBlockStart frame)
  | .blockDelta => counted d (onBlockDelta frame)
  | .messageStart => (d, usageEvents frame.messageUsage)
  | .blockStop => onBlockStop json d frame
  | .messageDelta => onMessageDelta d frame
  | .messageStop => dropAndEnd d [] d.stop
  | .error => onError d frame.error
  | .other => (d, [])

/-- Consumes the `data` field of an SSE frame. -/
def onData (wire : Wire J) (d : MessageDecoder) (data : Str) :
    MessageDecoder × List (ChatEvent J) :=
  if d.done then (d, [])
  else if (trim data).isEmpty then (d, [])
  else
    match wire.envelope (trim data) with
    | .ok frame => onEnvelope wire.json d frame
    | .error e =>
      if maxDecodeErrors ≤ d.errors + 1 then
        emitDone { d with errors := d.errors + 1, stop := some .interrupted }
          [unreadableFrame ioError e]
      else ({ d with errors := d.errors + 1 }, [unreadableFrame ioError e])

/-- The server closed the stream without `message_stop`. -/
def finish (d : MessageDecoder) : MessageDecoder × List (ChatEvent J) :=
  if d.done then (d, [])
  else
    dropAndEnd d [.error "the stream ended before the provider announced the end of the message"]
      (some .interrupted)

def cancel (d : MessageDecoder) : MessageDecoder × List (ChatEvent J) :=
  emitDone { d with blocks := [], stop := some .cancelled } []

def transportError (d : MessageDecoder) (detail : String) :
    MessageDecoder × List (ChatEvent J) :=
  if d.done then (d, [])
  else emitDone { d with blocks := [], stop := some .interrupted } [.error detail]

def decoder (wire : Wire J) : EventDecoder MessageDecoder J where
  onFrame d frame := onData wire d frame.data
  isDone d := d.done
  finish := finish
  cancel := cancel
  transportError := transportError

end

end Oxyn.Llm.Anthropic
