/-
# `Oxyn.Store.Conversations` — the assistant's threads, their exchanges and their turns

Three tables: the headers, the nodes of the trees of exchanges, and the turns.
-/
import Oxyn.Lib.Text
import Oxyn.Store.Error
import Mathlib.Data.List.MinMax
import Mathlib.Logic.Function.Basic

namespace Oxyn.Store

open Text Fallible List

/-! ## The data -/

abbrev ConversationId := Nat

inductive DestinationKind where
  | provider | externalAgent | unknown
deriving DecidableEq

structure Destination where
  kind : DestinationKind
  id : Option Str
  label : Str
  model : Option Str

/-- A row of `ai_conversations`. -/
structure Conversation where
  id : ConversationId
  agentId : Option Nat
  workspace : Nat
  connection : Option Nat
  connectionName : Option Str
  destination : Destination
  title : Str
  createdAt : Int
  updatedAt : Int
  selected : Option Nat

inductive AnswerEnding where
  | answered | refused | turnLimit | agentLimit | paused | truncated | unknown
deriving DecidableEq

inductive FailureKind where
  | refused | provider | setup | agentNotFound | agentSignIn | agentIncompatible | agentExited
  | agent | unknown
deriving DecidableEq

inductive ExchangeOutcome where
  | answered (ending : AnswerEnding)
  | failed (kind : FailureKind) (retryable : Bool)
  | cancelled
  | unknown
deriving DecidableEq

structure ExchangeRecord where
  parent : Option Nat
  createdAt : Int
  question : Str
  destination : Destination
  /-- What `mentions::encode` answers. -/
  mentions : Except StoreError (Option Str)

/-- A row of `ai_conversation_nodes`. -/
structure Exchange where
  node : Nat
  parent : Option Nat
  createdAt : Int
  question : Str
  destination : Destination
  mentions : Option Str
  withheld : Bool
  sampleRows : Option Nat
  sampleColumns : Option Nat
  outcome : Option ExchangeOutcome

structure TurnColumns where
  reasoning : Option Str
  toolCalls : Option Str
  stop : Option Str

structure TurnRecord where
  ts : Int
  node : Option Nat
  text : Str
  /-- What `encode_reasoning`, `encode_tool_calls` and `encode_stop_reason` answer. -/
  columns : Except StoreError TurnColumns

/-- A row of `ai_conversation_turns`. -/
structure Turn where
  ordinal : Nat
  ts : Int
  node : Option Nat
  text : Str
  columns : TurnColumns

structure Tables where
  conversations : List Conversation
  nodes : ConversationId → List Exchange
  turns : ConversationId → List Turn

/-- `MAX_EXCHANGES_PER_CONVERSATION`. -/
def maxExchanges : Nat := 256

/-- `MAX_TURNS_PER_CONVERSATION`. -/
def maxTurns : Nat := 512

def maxTurnTextBytes : Nat := 1024 * 1024

def nextOf (numbers : List Nat) : Nat := numbers.max?.elim 0 (· + 1)

theorem lt_nextOf {numbers : List Nat} {n : Nat} (hmem : n ∈ numbers) : n < nextOf numbers := by
  unfold nextOf
  cases hmax : numbers.max? with
  | none => rw [max?_eq_none_iff.mp hmax] at hmem; cases hmem
  | some greatest => exact Nat.lt_succ_of_le ((max?_eq_some_iff.mp hmax).2 n hmem)

theorem nextOf_le {numbers : List Nat} {bound : Nat} (hbound : ∀ n ∈ numbers, n < bound) :
    nextOf numbers ≤ bound := by
  unfold nextOf
  cases hmax : numbers.max? with
  | none => exact Nat.zero_le _
  | some greatest => exact hbound _ (max?_eq_some_iff.mp hmax).1

theorem nextOf_range (n : Nat) : nextOf (List.range n) = n := by
  refine Nat.le_antisymm (nextOf_le fun m hmem => mem_range.mp hmem) ?_
  cases n with
  | zero => exact Nat.zero_le _
  | succ n => exact lt_nextOf (mem_range.mpr n.lt_succ_self)

/-! ## Statements -/

inductive Query where
  | begun | touch | parent | greatest | insert | withhold | checkpoint | outcome | select
  | save | delete (rank : Nat) | weigh | commit

structure Faults where
  fails : Query → Bool

def Faults.run (faults : Faults) (query : Query) : Except StoreError Unit :=
  refuse (faults.fails query) .sqlite

namespace Tables

variable (tables : Tables)

def header (id : ConversationId) : Option Conversation :=
  tables.conversations.find? (·.id = id)

/-- `UPDATE ai_conversations SET … WHERE id = …`. -/
def setHeader (id : ConversationId) (change : Conversation → Conversation) : Tables :=
  { tables with
    conversations := tables.conversations.map fun row => if row.id = id then change row else row }

def setNodes (id : ConversationId) (nodes : List Exchange) : Tables :=
  { tables with nodes := Function.update tables.nodes id nodes }

def setTurns (id : ConversationId) (turns : List Turn) : Tables :=
  { tables with turns := Function.update tables.turns id turns }

def exchange (id : ConversationId) (node : Nat) : Option Exchange :=
  (tables.nodes id).find? (·.node = node)

def nodeState (id : ConversationId) (node : Nat) : Option Bool :=
  (tables.exchange id node).map (·.withheld)

/-- `INSERT INTO ai_conversation_nodes`, past the keys and the checks of the table. -/
def insertNode (id : ConversationId) (row : Exchange) : Except StoreError Tables := do
  refuse (tables.header id).isNone .sqlite
  refuse (255 < row.node) .sqlite
  refuse (row.parent.any fun parent => row.node ≤ parent) .sqlite
  refuse (row.parent.any fun parent => (tables.exchange id parent).isNone) .sqlite
  refuse (tables.exchange id row.node).isSome .sqlite
  refuse (maxTurnTextBytes < size row.question || 128 < size row.destination.label ||
    row.destination.id.any (64 < size ·) || row.destination.model.any (128 < size ·) ||
    row.mentions.any (32768 < size ·)) .sqlite
  pure (tables.setNodes id (tables.nodes id ++ [row]))

/-- `INSERT INTO ai_conversation_turns`, past the triggers on its bounds and on its node. -/
def insertTurn (id : ConversationId) (row : Turn) : Except StoreError Tables := do
  refuse (512 ≤ row.ordinal || row.columns.stop.any (256 < size ·)) .sqlite
  refuse (row.node.any fun node => tables.nodeState id node != some false) .sqlite
  refuse (tables.header id).isNone .sqlite
  refuse ((tables.turns id).any (·.ordinal = row.ordinal)) .sqlite
  refuse (maxTurnTextBytes < size row.text || row.columns.reasoning.any (262144 < size ·) ||
    row.columns.toolCalls.any (65536 < size ·)) .sqlite
  pure (tables.setTurns id (tables.turns id ++ [row]))

/-- `UPDATE ai_conversation_nodes SET sample_withheld = 1, …`, past its checks; the trigger
erases the turns of the node. -/
def withholdNode (id : ConversationId) (node sampleRows sampleColumns : Nat) :
    Except StoreError (Option Tables) := do
  if (tables.exchange id node).isNone then pure none
  else do
    refuse (1000 < sampleRows || 256 < sampleColumns) .sqlite
    let withheld := (tables.nodes id).map fun row =>
      if row.node = node then
        { row with
          withheld := true
          sampleRows := some sampleRows
          sampleColumns := some sampleColumns }
      else row
    pure (some ((tables.setNodes id withheld).setTurns id
      ((tables.turns id).filter (·.node ≠ some node))))

/-- `UPDATE ai_conversations SET selected_node = …`, past its trigger. -/
def selectNode (id : ConversationId) (node : Option Nat) : Except StoreError Tables := do
  refuse ((tables.header id).isSome && node.any fun node => (tables.exchange id node).isNone)
    .sqlite
  pure (tables.setHeader id fun row => { row with selected := node })

/-- `DELETE FROM ai_conversations`; the keys take the nodes and the turns with it. -/
def deleteHeader (id : ConversationId) : Tables where
  conversations := tables.conversations.filter (·.id ≠ id)
  nodes := Function.update tables.nodes id []
  turns := Function.update tables.turns id []

end Tables

/-! ## Operations -/

def within (field : String) (length limit : Nat) : Except StoreError Unit :=
  refuse (limit < length) (.tooLarge field limit)

def validateDestination (destination : Destination) : Except StoreError Unit := do
  refuse (destination.kind == .unknown) (.corrupted "ai_conversation_nodes.destination_kind"
    "an unknown destination is a reading fallback, not a value to write")
  within "ai_conversation_nodes.destination_label" (size destination.label) 128
  within "ai_conversation_nodes.model" (destination.model.elim 0 size) 128

def checkNode (faults : Faults) (tables : Tables) (id : ConversationId) (error : StoreError) :
    Option Nat → Except StoreError Unit
  | some node => do
      faults.run .parent
      refuse (tables.nodeState id node).isNone error
  | none => pure ()

def ExchangeRecord.row (exchange : ExchangeRecord) (node : Nat) (mentions : Option Str) :
    Exchange where
  node := node
  parent := exchange.parent
  createdAt := exchange.createdAt
  question := exchange.question
  destination := exchange.destination
  mentions := mentions
  withheld := false
  sampleRows := none
  sampleColumns := none
  outcome := none

/-- What is done once the header is found: `touched` has its new date. -/
def insertExchange (faults : Faults) (id : ConversationId) (exchange : ExchangeRecord)
    (mentions : Option Str) (touched : Tables) : Except StoreError (Option Nat × Tables) := do
  checkNode faults touched id (.corrupted "ai_conversation_nodes.parent"
    "the parent is not a node of this conversation") exchange.parent
  faults.run .greatest
  let node := nextOf ((touched.nodes id).map (·.node))
  refuse (maxExchanges ≤ node) (.tooLarge "ai_conversation_nodes.node" maxExchanges)
  faults.run .insert
  let tables ← touched.insertNode id (exchange.row node mentions)
  faults.run .commit
  pure (some node, tables)

def appendExchangeIn (faults : Faults) (id : ConversationId) (exchange : ExchangeRecord)
    (mentions : Option Str) (tables : Tables) : Except StoreError (Option Nat × Tables) := do
  faults.run .begun
  faults.run .touch
  if (tables.header id).isNone then pure (none, tables)
  else insertExchange faults id exchange mentions <| tables.setHeader id fun row =>
    { row with updatedAt := exchange.createdAt, destination := exchange.destination }

def ExchangeRecord.prepare (exchange : ExchangeRecord) : Except StoreError (Option Str) := do
  within "ai_conversation_nodes.question" (size exchange.question) maxTurnTextBytes
  validateDestination exchange.destination
  exchange.mentions

def appendExchange (faults : Faults) (id : ConversationId) (exchange : ExchangeRecord)
    (tables : Tables) : Except StoreError (Option Nat) × Tables :=
  match exchange.prepare with
  | .error e => (.error e, tables)
  | .ok mentions => transaction (appendExchangeIn faults id exchange mentions) tables

def checkTurnNode (faults : Faults) (tables : Tables) (id : ConversationId) :
    Option Nat → Except StoreError Unit
  | some node => do
      faults.run .parent
      refuse (tables.nodeState id node).isNone (.corrupted "ai_conversation_turns.node"
        "the node is not a node of this conversation")
      refuse (tables.nodeState id node == some true) (.sampleWithheld node)
  | none => pure ()

def TurnRecord.row (turn : TurnRecord) (ordinal : Nat) (columns : TurnColumns) : Turn where
  ordinal := ordinal
  ts := turn.ts
  node := turn.node
  text := turn.text
  columns := columns

def insertTurnRecord (faults : Faults) (id : ConversationId) (turn : TurnRecord)
    (columns : TurnColumns) (touched : Tables) : Except StoreError (Option Nat × Tables) := do
  checkTurnNode faults touched id turn.node
  faults.run .greatest
  let ordinal := nextOf ((touched.turns id).map (·.ordinal))
  refuse (maxTurns ≤ ordinal) (.tooLarge "ai_conversation_turns.ordinal" maxTurns)
  faults.run .insert
  let tables ← touched.insertTurn id (turn.row ordinal columns)
  faults.run .commit
  pure (some ordinal, tables)

def appendIn (faults : Faults) (id : ConversationId) (turn : TurnRecord) (columns : TurnColumns)
    (tables : Tables) : Except StoreError (Option Nat × Tables) := do
  faults.run .begun
  faults.run .touch
  if (tables.header id).isNone then pure (none, tables)
  else insertTurnRecord faults id turn columns <|
    tables.setHeader id fun row => { row with updatedAt := turn.ts }

def TurnRecord.prepare (turn : TurnRecord) : Except StoreError TurnColumns := do
  within "ai_conversation_turns.text" (size turn.text) maxTurnTextBytes
  turn.columns

/-- `Conversations::append`. -/
def appendTurn (faults : Faults) (id : ConversationId) (turn : TurnRecord) (tables : Tables) :
    Except StoreError (Option Nat) × Tables :=
  match turn.prepare with
  | .error e => (.error e, tables)
  | .ok columns => transaction (appendIn faults id turn columns) tables

/-- The checkpoint comes behind the statement, which it does not undo. -/
def withholdSample (faults : Faults) (id : ConversationId) (node sampleRows sampleColumns : Nat)
    (tables : Tables) : Except StoreError Bool × Tables :=
  if 1000 < sampleRows then (.error (.tooLarge "ai_conversation_nodes.sample_rows" 1000), tables)
  else if 256 < sampleColumns then
    (.error (.tooLarge "ai_conversation_nodes.sample_columns" 256), tables)
  else if faults.fails .withhold then (.error .sqlite, tables)
  else
    match tables.withholdNode id node sampleRows sampleColumns with
    | .error e => (.error e, tables)
    | .ok none => (.ok false, tables)
    | .ok (some withheld) =>
      if faults.fails .checkpoint then (.error .sqlite, withheld) else (.ok true, withheld)

/-- An outcome that nobody can name is not one to write. -/
def ExchangeOutcome.isKnown : ExchangeOutcome → Bool
  | .answered .unknown | .failed .unknown _ | .unknown => false
  | _ => true

def finishExchange (faults : Faults) (id : ConversationId) (node : Nat)
    (outcome : ExchangeOutcome) (tables : Tables) : Except StoreError Bool × Tables :=
  if !outcome.isKnown then
    (.error (.corrupted "ai_conversation_nodes.outcome"
      "an unknown outcome is a reading fallback, not a value to write"), tables)
  else if faults.fails .outcome then (.error .sqlite, tables)
  else
    (.ok (tables.exchange id node).isSome, tables.setNodes id ((tables.nodes id).map fun row =>
      if row.node = node then { row with outcome := some outcome } else row))

def selectIn (faults : Faults) (id : ConversationId) (node : Option Nat) (tables : Tables) :
    Except StoreError (Bool × Tables) := do
  faults.run .begun
  checkNode faults tables id (.corrupted "ai_conversations.selected_node"
    "the node is not a node of this conversation") node
  faults.run .select
  let selected ← tables.selectNode id node
  faults.run .commit
  pure ((tables.header id).isSome, selected)

/-- `Conversations::select`. -/
def selectLeaf (faults : Faults) (id : ConversationId) (node : Option Nat) (tables : Tables) :
    Except StoreError Bool × Tables := transaction (selectIn faults id node) tables

/-- `ON CONFLICT(id) DO UPDATE SET …`. -/
def Conversation.resaved (stored given : Conversation) : Conversation :=
  { stored with
    connection := given.connection
    connectionName := given.connectionName
    destination := given.destination
    title := given.title
    updatedAt := given.updatedAt
    agentId := stored.agentId.or given.agentId }

def saveConversation (faults : Faults) (conversation : Conversation) (tables : Tables) :
    Except StoreError Unit × Tables :=
  if 512 < size conversation.title then
    (.error (.tooLarge "ai_conversations.title" 512), tables)
  else if faults.fails .save then (.error .sqlite, tables)
  else if (tables.header conversation.id).isSome then
    (.ok (), tables.setHeader conversation.id (·.resaved conversation))
  else
    (.ok (), { tables with
      conversations := tables.conversations ++ [{ conversation with selected := none }] })

/-- `Conversations::delete`. -/
def deleteConversation (faults : Faults) (owner : Nat) (id : ConversationId) (tables : Tables) :
    Except StoreError Bool × Tables :=
  if faults.fails (.delete 0) then (.error .sqlite, tables)
  else if (tables.header id).any (·.connection = some owner) then
    (.ok true, tables.deleteHeader id)
  else (.ok false, tables)

/-! ## Retention -/

structure RetentionPolicy where
  maxConversations : Nat
  maxAgeDays : Option Nat
  maxBytes : Nat

structure PruneReport where
  conversations : Nat
  turns : Nat
  bytes : Nat

structure Candidate where
  id : ConversationId
  updatedAt : Int
  turns : Nat
  bytes : Nat

/-- `saturating_add`, up to a greatest value. -/
def saturating (greatest a b : Nat) : Nat := min (a + b) greatest

def u32Max : Nat := 2 ^ 32 - 1

def u64Max : Nat := 2 ^ 64 - 1

def Turn.bytes (turn : Turn) : Nat :=
  size turn.text + turn.columns.reasoning.elim 0 size + turn.columns.toolCalls.elim 0 size

/-- The most recently active first. -/
def Conversation.before (a b : Conversation) : Bool :=
  b.updatedAt < a.updatedAt || (a.updatedAt == b.updatedAt && b.id ≤ a.id)

def Tables.weigh (tables : Tables) (workspace : Nat) : List Candidate :=
  ((tables.conversations.filter (·.workspace = workspace)).mergeSort Conversation.before).map
    fun row => ⟨row.id, row.updatedAt, (tables.turns row.id).length,
      ((tables.turns row.id).map (·.bytes)).sum + ((tables.nodes row.id).map (size ·.question)).sum⟩

structure Walk where
  keptBytes : Nat
  dropping : Bool
  report : PruneReport
  removals : List ConversationId

def Walk.new : Walk := ⟨0, false, ⟨0, 0, 0⟩, []⟩

def Walk.visit (policy : RetentionPolicy) (cutoff : Option Int) (walk : Walk)
    (ranked : Candidate × Nat) : Walk :=
  let (candidate, rank) := ranked
  let admitted := !walk.dropping && min rank u32Max < policy.maxConversations &&
    cutoff.all (· ≤ candidate.updatedAt) &&
    (walk.keptBytes == 0 || saturating u64Max walk.keptBytes candidate.bytes ≤ policy.maxBytes)
  if admitted then
    { walk with keptBytes := saturating u64Max walk.keptBytes candidate.bytes }
  else
    { walk with
      dropping := true
      report := ⟨saturating u32Max walk.report.conversations 1,
        saturating u32Max walk.report.turns (min candidate.turns u32Max),
        saturating u64Max walk.report.bytes candidate.bytes⟩
      removals := walk.removals ++ [candidate.id] }

/-- The deletions, one after the other. -/
def removeAll (faults : Faults) : Nat → List ConversationId → Tables → Except StoreError Tables
  | _, [], tables => pure tables
  | rank, id :: ids, tables => do
      faults.run (.delete rank)
      removeAll faults (rank + 1) ids (tables.deleteHeader id)

def pruneIn (faults : Faults) (workspace : Nat) (policy : RetentionPolicy) (cutoff : Option Int)
    (tables : Tables) : Except StoreError (PruneReport × Tables) := do
  faults.run .begun
  faults.run .weigh
  let walk := (tables.weigh workspace).zipIdx.foldl (Walk.visit policy cutoff) .new
  let pruned ← removeAll faults 0 walk.removals tables
  faults.run .commit
  pure (walk.report, pruned)

/-- `Conversations::prune`; `ago` is the date so many days before now, if there is one. -/
def pruneWorkspace (faults : Faults) (ago : Nat → Option Int) (workspace : Nat)
    (policy : RetentionPolicy) (tables : Tables) : Except StoreError PruneReport × Tables :=
  transaction (pruneIn faults workspace policy (policy.maxAgeDays.bind ago)) tables

/-! ## Reading -/

structure BranchPage where
  exchanges : List Exchange
  next : Option Nat

/-- `MAX_EXCHANGE_PAGE`, and `MAX_TURN_PAGE`. -/
def maxPage : Nat := 16

def clampPage (limit : Nat) : Nat := min (max limit 1) maxPage

theorem clampPage_pos (limit : Nat) : 0 < clampPage limit := by
  unfold clampPage maxPage
  omega

/-- `WITH RECURSIVE chain …`, from a node up; `depth` more parents are followed at most. -/
def chainUp (nodes : List Exchange) : Nat → Option Nat → List Nat
  | _, none => []
  | depth, some node =>
    match nodes.find? (·.node = node) with
    | none => []
    | some row =>
      node :: match depth with
        | 0 => []
        | depth + 1 => chainUp nodes depth row.parent

def branch (nodes : List Exchange) (leaf : Nat) : List Nat := (chainUp nodes 256 (some leaf)).reverse

def branchPage (tables : Tables) (id : ConversationId) (leaf start limit : Nat) : BranchPage :=
  let chain := branch (tables.nodes id) leaf
  let last := start + clampPage limit
  ⟨((chain.drop start).take (last - start)).filterMap (tables.exchange id),
    if last < chain.length then some last else none⟩

structure TurnPage where
  turns : List Turn
  next : Option Nat

/-- `ORDER BY ordinal`, from behind an ordinal. -/
def turnsAfter (turns : List Turn) (after : Option Nat) : List Turn :=
  (turns.filter fun turn => after.all (· < turn.ordinal)).mergeSort
    fun a b => a.ordinal ≤ b.ordinal

def transcriptPage (tables : Tables) (id : ConversationId) (after : Option Nat) (limit : Nat) :
    TurnPage :=
  let page := (turnsAfter (tables.turns id) after).take (clampPage limit)
  ⟨page, page.getLast?.bind fun last =>
    if page.length = clampPage limit && (tables.turns id).any (last.ordinal < ·.ordinal) then
      some last.ordinal
    else none⟩

end Oxyn.Store
