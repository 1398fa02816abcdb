/-
# `Oxyn.Llm.Event` — the events of a generation, and what it may accumulate

What a provider's stream becomes, whatever its protocol; and the account of a generation, in
which every byte is counted before it is kept or emitted.  JSON is read by a library (`Serde`).
-/
import Oxyn.Lib.Lossy
import Oxyn.Lib.Text

namespace Oxyn.Llm

open Text

/-! ## Events -/

/-- Why a stream stops. -/
inductive StopReason where
  | endTurn | maxTokens | toolCalls | contentFilter | stopSequence | refusal | paused
  | contextWindowExceeded | cancelled | interrupted | providerError | unspecified
  | other (raw : Str)
deriving DecidableEq

structure ToolCall (J : Type) where
  id : Str
  name : Str
  arguments : J

inductive ReasoningBlock where
  | summarized (text : Str) (signature : Option Str)
  | redacted (data : Str)
deriving DecidableEq

inductive ChatEvent (J : Type) where
  | textDelta (text : Str)
  | toolCallStarted (index : Nat) (id name : Str)
  | toolCallDelta (index : Nat) (arguments : Str)
  | toolCallComplete (call : ToolCall J)
  | toolCallInvalid (id name : Str) (detail : String)
  | reasoningDelta (index : Nat) (text : Str)
  | reasoningComplete (index : Nat) (block : ReasoningBlock)
  | refusalDelta (text : Str)
  | usage (prompt completion : Nat) (cacheWrite cacheRead reasoning : Option Nat)
  | done (reason : StopReason)
  | error (message : String)

section

variable {J : Type}

/-- Does this event end the stream? -/
def ChatEvent.isTerminal : ChatEvent J → Bool
  | .done _ => true
  | _ => false

/-- Is it a call the model finished writing? -/
def ChatEvent.isCall : ChatEvent J → Bool
  | .toolCallComplete _ | .toolCallInvalid .. => true
  | _ => false

end

/-! ## JSON -/

inductive JsonCategory where
  | io | invalid | data | eof

/-- What is wrong with a text, and where. -/
structure JsonError where
  category : JsonCategory
  line : Nat
  column : Nat

/-- The nature of a parse error, without the data; an I/O error has two names. -/
def JsonError.label (ioError : String) (e : JsonError) : String :=
  match e.category with
  | .io => ioError
  | .invalid => "invalid JSON syntax"
  | .data => "unexpected data type"
  | .eof => "truncated JSON"

/-- Where it is wrong. -/
def JsonError.place (e : JsonError) : String :=
  "line " ++ toString e.line ++ ", column " ++ toString e.column

/-- JSON, as the library reads it into a value. -/
structure Json (J : Type) where
  parse : Str → Except JsonError J
  /-- `{}`. -/
  object : J

/-- `u32::MAX`. -/
def u32Max : Nat := 2 ^ 32 - 1

/-- A token count: missing or negative counts as none, an outsized one saturates. -/
def clampTokens (raw : Option Int) : Nat := min (raw.getD 0).toNat u32Max

/-- `String::len`. -/
def byteLen (s : Str) : Nat := (Text.bytes s).length

def callEvent {J : Type} (json : Json J) (ioError : String) (id name arguments : Str) :
    ChatEvent J :=
  if (trim arguments).isEmpty then .toolCallComplete ⟨id, name, json.object⟩
  else
    match json.parse (trim arguments) with
    | .ok value => .toolCallComplete ⟨id, name, value⟩
    | .error e =>
      .toolCallInvalid id name ("the arguments are not valid JSON: " ++ e.label ioError ++ " (" ++
        e.place ++ ")")

def unreadableFrame {J : Type} (ioError : String) (e : JsonError) : ChatEvent J :=
  .error ("unreadable stream frame (" ++ e.label ioError ++ ", " ++ e.place ++ ")")

/-! ## The budget -/

def maxGenerationBytes : Nat := 8 * 1024 * 1024

def maxToolArgumentsBytes : Nat := 1024 * 1024

def maxToolNameBytes : Nat := 256

def maxToolCalls : Nat := 64

def maxContentBlocks : Nat := 256

/-- A limit reached. -/
inductive BudgetExceeded where
  | generation
  | toolArguments (index : Nat)
  | toolName (index : Nat)
  | toolCalls
  | contentBlocks
deriving DecidableEq

def BudgetExceeded.text (limit : BudgetExceeded) : String :=
  let stop := "Oxyn stopped reading the answer"
  match limit with
  | .generation =>
    "the answer exceeded " ++ toString maxGenerationBytes ++ " bytes; " ++ stop
  | .toolArguments index =>
    "the arguments of tool call #" ++ toString index ++ " exceeded " ++
      toString maxToolArgumentsBytes ++ " bytes; " ++ stop
  | .toolName index =>
    "the name of tool call #" ++ toString index ++ " exceeded " ++ toString maxToolNameBytes ++
      " bytes; " ++ stop
  | .toolCalls =>
    "the answer opened more than " ++ toString maxToolCalls ++ " tool calls; " ++ stop
  | .contentBlocks =>
    "the answer opened more than " ++ toString maxContentBlocks ++ " content blocks; " ++ stop

structure GenerationBudget where
  bytes : Nat
  toolCalls : Nat
  blocks : Nat
deriving DecidableEq

namespace GenerationBudget

def new : GenerationBudget := ⟨0, 0, 0⟩

/-- Counts so many content bytes. -/
def charge (b : GenerationBudget) (len : Nat) : Except BudgetExceeded GenerationBudget :=
  if maxGenerationBytes < b.bytes + len then .error .generation
  else .ok { b with bytes := b.bytes + len }

def openBlock (b : GenerationBudget) : Except BudgetExceeded GenerationBudget :=
  if maxContentBlocks ≤ b.blocks then .error .contentBlocks
  else .ok { b with blocks := b.blocks + 1 }

def openToolCall (b : GenerationBudget) : Except BudgetExceeded GenerationBudget :=
  if maxToolCalls ≤ b.toolCalls then .error .toolCalls
  else b.openBlock.map fun b => { b with toolCalls := b.toolCalls + 1 }

def chargeToolArguments (b : GenerationBudget) (index current fragment : Nat) :
    Except BudgetExceeded GenerationBudget :=
  if maxToolArgumentsBytes < current + fragment then .error (.toolArguments index)
  else b.charge fragment

def chargeToolName (b : GenerationBudget) (index current fragment : Nat) :
    Except BudgetExceeded GenerationBudget :=
  if maxToolNameBytes < current + fragment then .error (.toolName index)
  else b.charge fragment

end GenerationBudget

end Oxyn.Llm
