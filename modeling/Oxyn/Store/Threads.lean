/-
# `Oxyn.Store.Threads` — what an operation does to a conversation

What an operation writes is said once, for the tables (`Wrote`); what that does to one
conversation, its header, its nodes and its turns, is said from there (`Changed`).
-/
import Oxyn.Store.Conversations
import Oxyn.Lib.Runs

open Runs

namespace Oxyn.Store

open List

open Text Fallible

/-! ## Operations -/

inductive ConversationOp where
  | appendExchange (id : ConversationId) (exchange : ExchangeRecord)
  | append (id : ConversationId) (turn : TurnRecord)
  | withholdSample (id : ConversationId) (node sampleRows sampleColumns : Nat)
  | finishExchange (id : ConversationId) (node : Nat) (outcome : ExchangeOutcome)
  | select (id : ConversationId) (node : Option Nat)
  | save (conversation : Conversation)
  | delete (owner : Nat) (id : ConversationId)
  | prune (ago : Nat → Option Int) (workspace : Nat) (policy : RetentionPolicy)

inductive ConversationReply where
  | node (node : Option Nat)
  | ordinal (ordinal : Option Nat)
  | done (found : Bool)
  | saved
  | pruned (report : PruneReport)

def Tables.perform (faults : Faults) (tables : Tables) :
    ConversationOp → Except StoreError ConversationReply × Tables
  | .appendExchange key record => (appendExchange faults key record tables).map (.map .node) id
  | .append key turn => (appendTurn faults key turn tables).map (.map .ordinal) id
  | .withholdSample key node sampleRows sampleColumns =>
    (withholdSample faults key node sampleRows sampleColumns tables).map (.map .done) id
  | .finishExchange key node outcome =>
    (finishExchange faults key node outcome tables).map (.map .done) id
  | .select key node => (selectLeaf faults key node tables).map (.map .done) id
  | .save conversation => (saveConversation faults conversation tables).map (.map fun _ => .saved) id
  | .delete owner key => (deleteConversation faults owner key tables).map (.map .done) id
  | .prune ago workspace policy =>
    (pruneWorkspace faults ago workspace policy tables).map (.map .pruned) id

structure ConversationEvent where
  op : ConversationOp
  faults : Faults
  reply : Except StoreError ConversationReply

def ConversationStep (tables : Tables) (event : ConversationEvent) (tables' : Tables) : Prop :=
  tables.perform event.faults event.op = (event.reply, tables')

def ConversationEvent.Checkpointed (event : ConversationEvent) : Prop :=
  ∀ key node sampleRows sampleColumns,
    event.op = .withholdSample key node sampleRows sampleColumns →
    event.faults.fails .checkpoint = false

/-! ## What an operation writes -/

/-- A new date, a new destination: the header keeps its place and the node selected. -/
def Touches (change : Conversation → Conversation) : Prop :=
  ∀ header, (change header).id = header.id ∧ (change header).selected = header.selected

inductive Wrote (tables : Tables) : Tables → Prop
  | nothing : Wrote tables tables
  | exchange {key : ConversationId} {change : Conversation → Conversation} {row : Exchange} :
      Touches change → (tables.header key).isSome = true →
      row.node = nextOf ((tables.nodes key).map (·.node)) → row.node < maxExchanges →
      (∀ parent ∈ row.parent, parent < row.node) → row.withheld = false →
      Wrote tables ((tables.setHeader key change).setNodes key (tables.nodes key ++ [row]))
  | turn {key : ConversationId} {change : Conversation → Conversation} {row : Turn} :
      Touches change → (tables.header key).isSome = true →
      row.ordinal = nextOf ((tables.turns key).map (·.ordinal)) →
      (∀ node ∈ row.node, tables.nodeState key node = some false) →
      Wrote tables ((tables.setHeader key change).setTurns key (tables.turns key ++ [row]))
  | withheld {key : ConversationId} {node sampleRows sampleColumns : Nat} {tables' : Tables} :
      tables.withholdNode key node sampleRows sampleColumns = .ok (some tables') →
      Wrote tables tables'
  | finished {key : ConversationId} {change : Exchange → Exchange} :
      (∀ row, (change row).node = row.node ∧ (change row).parent = row.parent ∧
        (change row).withheld = row.withheld) →
      Wrote tables (tables.setNodes key ((tables.nodes key).map change))
  | selected {key : ConversationId} {node : Option Nat} :
      (∀ n ∈ node, (tables.exchange key n).isSome = true) →
      Wrote tables (tables.setHeader key fun row => { row with selected := node })
  | resaved {key : ConversationId} {change : Conversation → Conversation} : Touches change →
      Wrote tables (tables.setHeader key change)
  | saved {conversation : Conversation} : tables.header conversation.id = none →
      conversation.selected = none →
      Wrote tables { tables with conversations := tables.conversations ++ [conversation] }
  | removed (keys : List ConversationId) : Wrote tables (keys.foldl Tables.deleteHeader tables)

variable {faults : Faults} {tables tables' : Tables} {key : ConversationId}

theorem wrote_of_transaction {α : Type} {body : Tables → Except StoreError (α × Tables)}
    {reply : Except StoreError α}
    (hbody : ∀ a done, body tables = .ok (a, done) → Wrote tables done)
    (h : transaction body tables = (reply, tables')) : Wrote tables tables' := by
  cases reply with
  | error e => exact transaction_eq_error h ▸ .nothing
  | ok a => exact hbody a tables' (transaction_eq_ok.mp h)

theorem insertNode_eq_ok {row : Exchange} (h : tables.insertNode key row = .ok tables') :
    (∀ parent ∈ row.parent, parent < row.node) ∧
      tables' = tables.setNodes key (tables.nodes key ++ [row]) := by
  simp only [Tables.insertNode, bind_eq_ok, refuse_eq_ok, pure_eq_ok] at h
  obtain ⟨-, -, -, -, -, hparent, -, -, -, -, -, -, rfl⟩ := h
  refine ⟨fun parent hmem => ?_, rfl⟩
  rw [Option.mem_def.mp hmem] at hparent
  simpa using hparent

theorem insertTurn_eq_ok {row : Turn} (h : tables.insertTurn key row = .ok tables') :
    (∀ node ∈ row.node, tables.nodeState key node = some false) ∧
      tables' = tables.setTurns key (tables.turns key ++ [row]) := by
  simp only [Tables.insertTurn, bind_eq_ok, refuse_eq_ok, pure_eq_ok] at h
  obtain ⟨-, -, -, hnode, -, -, -, -, -, -, rfl⟩ := h
  refine ⟨fun node hmem => ?_, rfl⟩
  rw [Option.mem_def.mp hmem] at hnode
  simpa using hnode

theorem wrote_of_appendExchange {record : ExchangeRecord} {reply : Except StoreError (Option Nat)}
    (h : appendExchange faults key record tables = (reply, tables')) : Wrote tables tables' := by
  unfold appendExchange at h
  split at h
  · exact (Prod.mk.inj h).2 ▸ .nothing
  · refine wrote_of_transaction (fun node done hbody => ?_) h
    simp only [appendExchangeIn, bind_eq_ok] at hbody
    obtain ⟨-, -, -, -, hbody⟩ := hbody
    split at hbody
    · exact (Prod.mk.inj (pure_eq_ok.mp hbody)).2 ▸ .nothing
    next hheader =>
      simp only [insertExchange, bind_eq_ok, refuse_eq_ok, pure_eq_ok] at hbody
      obtain ⟨-, -, -, -, -, hfew, -, -, inserted, hinsert, -, -, hbody⟩ := hbody
      obtain rfl := (Prod.mk.inj hbody).2
      obtain ⟨hparent, rfl⟩ := insertNode_eq_ok hinsert
      refine .exchange (fun _ => ⟨rfl, rfl⟩) ?_ rfl ?_ hparent rfl
      · exact Option.isSome_iff_ne_none.mpr fun hnone => hheader (Option.isNone_iff_eq_none.mpr hnone)
      · exact Nat.not_le.mp (of_decide_eq_false hfew)

theorem appendTurn_cases {turn : TurnRecord} {reply : Except StoreError (Option Nat)}
    (h : appendTurn faults key turn tables = (reply, tables')) :
    (tables' = tables ∧ ∀ ordinal, reply ≠ .ok (some ordinal)) ∨
      ∃ change row, reply = .ok (some row.ordinal) ∧ Touches change ∧
        (tables.header key).isSome = true ∧
        row.ordinal = nextOf ((tables.turns key).map (·.ordinal)) ∧
        (∀ node ∈ row.node, tables.nodeState key node = some false) ∧
        tables' = (tables.setHeader key change).setTurns key (tables.turns key ++ [row]) := by
  unfold appendTurn at h
  split at h
  · exact .inl ⟨(Prod.mk.inj h).2.symm, fun ordinal => (Prod.mk.inj h).1 ▸ nofun⟩
  next columns hprepare =>
    cases reply with
    | error e => exact .inl ⟨transaction_eq_error h, nofun⟩
    | ok given =>
      have hbody := transaction_eq_ok.mp h
      simp only [appendIn, bind_eq_ok] at hbody
      obtain ⟨-, -, -, -, hbody⟩ := hbody
      split at hbody
      · obtain ⟨rfl, rfl⟩ := Prod.mk.inj (pure_eq_ok.mp hbody)
        exact .inl ⟨rfl, nofun⟩
      next hheader =>
        simp only [insertTurnRecord, bind_eq_ok, refuse_eq_ok, pure_eq_ok] at hbody
        obtain ⟨-, -, -, -, -, -, -, -, inserted, hinsert, -, -, hbody⟩ := hbody
        obtain ⟨rfl, rfl⟩ := Prod.mk.inj hbody
        obtain ⟨hnode, rfl⟩ := insertTurn_eq_ok hinsert
        refine .inr ⟨fun header => { header with updatedAt := turn.ts }, _, rfl,
          fun _ => ⟨rfl, rfl⟩, ?_, rfl, hnode, rfl⟩
        exact Option.isSome_iff_ne_none.mpr fun hnone =>
          hheader (Option.isNone_iff_eq_none.mpr hnone)

theorem wrote_of_append {turn : TurnRecord} {reply : Except StoreError (Option Nat)}
    (h : appendTurn faults key turn tables = (reply, tables')) : Wrote tables tables' := by
  rcases appendTurn_cases h with ⟨rfl, -⟩ | ⟨change, row, -, htouch, hheader, hnext, hnode, rfl⟩
  · exact .nothing
  · exact .turn htouch hheader hnext hnode

variable {reply : Except StoreError Bool}

theorem wrote_of_withholdSample {node sampleRows sampleColumns : Nat}
    (h : withholdSample faults key node sampleRows sampleColumns tables = (reply, tables')) :
    Wrote tables tables' := by
  unfold withholdSample at h
  split at h
  · exact (Prod.mk.inj h).2 ▸ .nothing
  split at h
  · exact (Prod.mk.inj h).2 ▸ .nothing
  split at h
  · exact (Prod.mk.inj h).2 ▸ .nothing
  split at h
  · exact (Prod.mk.inj h).2 ▸ .nothing
  · exact (Prod.mk.inj h).2 ▸ .nothing
  next withheld hnode =>
    split at h
    · exact (Prod.mk.inj h).2 ▸ .withheld hnode
    · exact (Prod.mk.inj h).2 ▸ .withheld hnode

theorem wrote_of_finishExchange {node : Nat} {outcome : ExchangeOutcome}
    (h : finishExchange faults key node outcome tables = (reply, tables')) :
    Wrote tables tables' := by
  unfold finishExchange at h
  split at h
  · exact (Prod.mk.inj h).2 ▸ .nothing
  split at h
  · exact (Prod.mk.inj h).2 ▸ .nothing
  · refine (Prod.mk.inj h).2 ▸ .finished fun row => ?_
    split <;> exact ⟨rfl, rfl, rfl⟩

theorem checkNode_eq_ok {error : StoreError} {node : Option Nat} {u : Unit}
    (h : checkNode faults tables key error node = .ok u) :
    ∀ n ∈ node, (tables.exchange key n).isSome = true := by
  intro n hmem
  obtain rfl := Option.mem_def.mp hmem
  obtain ⟨-, -, hnode⟩ := bind_eq_ok.mp h
  simpa [Tables.nodeState] using refuse_eq_ok.mp hnode

theorem wrote_of_select {node : Option Nat}
    (h : selectLeaf faults key node tables = (reply, tables')) : Wrote tables tables' := by
  refine wrote_of_transaction (fun found done hbody => ?_) h
  simp only [selectIn, Tables.selectNode, bind_eq_ok, refuse_eq_ok, pure_eq_ok] at hbody
  obtain ⟨-, -, _, hnode, -, -, selected, ⟨-, -, rfl⟩, -, -, hbody⟩ := hbody
  obtain rfl := (Prod.mk.inj hbody).2
  exact .selected (checkNode_eq_ok hnode)

theorem wrote_of_save {conversation : Conversation} {reply : Except StoreError Unit}
    (h : saveConversation faults conversation tables = (reply, tables')) :
    Wrote tables tables' := by
  unfold saveConversation at h
  split at h
  · exact (Prod.mk.inj h).2 ▸ .nothing
  split at h
  · exact (Prod.mk.inj h).2 ▸ .nothing
  split at h
  · exact (Prod.mk.inj h).2 ▸ .resaved fun _ => ⟨rfl, rfl⟩
  next hheader =>
    refine (Prod.mk.inj h).2 ▸ .saved ?_ rfl
    simpa using hheader

theorem wrote_of_delete {owner : Nat}
    (h : deleteConversation faults owner key tables = (reply, tables')) : Wrote tables tables' := by
  unfold deleteConversation at h
  split at h
  · exact (Prod.mk.inj h).2 ▸ .nothing
  split at h
  · exact (Prod.mk.inj h).2 ▸ .removed [key]
  · exact (Prod.mk.inj h).2 ▸ .nothing

theorem removeAll_eq_ok (keys : List ConversationId) :
    ∀ {rank : Nat} {tables : Tables}, removeAll faults rank keys tables = .ok tables' →
      tables' = keys.foldl Tables.deleteHeader tables := by
  induction keys with
  | nil => exact fun h => (pure_eq_ok.mp h).symm
  | cons key keys ih =>
    intro rank tables h
    simp only [removeAll, bind_eq_ok] at h
    obtain ⟨-, -, h⟩ := h
    exact ih h

theorem wrote_of_prune {ago : Nat → Option Int} {workspace : Nat} {policy : RetentionPolicy}
    {reply : Except StoreError PruneReport}
    (h : pruneWorkspace faults ago workspace policy tables = (reply, tables')) :
    Wrote tables tables' := by
  refine wrote_of_transaction (fun report done hbody => ?_) h
  simp only [pruneIn, bind_eq_ok, pure_eq_ok] at hbody
  obtain ⟨-, -, -, -, pruned, hpruned, -, -, hbody⟩ := hbody
  obtain rfl := (Prod.mk.inj hbody).2
  exact removeAll_eq_ok _ hpruned ▸ .removed _

theorem exists_of_map {α : Type} {f : α → ConversationReply} {result : Except StoreError α × Tables}
    {reply : Except StoreError ConversationReply}
    (h : result.map (Except.map f) id = (reply, tables')) :
    ∃ reply, result = (reply, tables') :=
  ⟨result.1, Prod.ext rfl (Prod.mk.inj h).2⟩

variable {event : ConversationEvent}

/-- An operation makes one of the changes it may make, whatever it replies. -/
theorem wrote_of_step (h : ConversationStep tables event tables') :
    Wrote tables tables' := by
  obtain ⟨op, faults, reply⟩ := event
  cases op with
  | appendExchange key record =>
    obtain ⟨_, h⟩ := exists_of_map h
    exact wrote_of_appendExchange h
  | append key turn =>
    obtain ⟨_, h⟩ := exists_of_map h
    exact wrote_of_append h
  | withholdSample key node sampleRows sampleColumns =>
    obtain ⟨_, h⟩ := exists_of_map h
    exact wrote_of_withholdSample h
  | finishExchange key node outcome =>
    obtain ⟨_, h⟩ := exists_of_map h
    exact wrote_of_finishExchange h
  | select key node =>
    obtain ⟨_, h⟩ := exists_of_map h
    exact wrote_of_select h
  | save conversation =>
    obtain ⟨_, h⟩ := exists_of_map h
    exact wrote_of_save h
  | delete owner key =>
    obtain ⟨_, h⟩ := exists_of_map h
    exact wrote_of_delete h
  | prune ago workspace policy =>
    obtain ⟨_, h⟩ := exists_of_map h
    exact wrote_of_prune h

/-! ## What fails -/

theorem withholdSample_eq_error {node sampleRows sampleColumns : Nat} {e : StoreError}
    (hcheckpoint : faults.fails .checkpoint = false)
    (h : withholdSample faults key node sampleRows sampleColumns tables = (.error e, tables')) :
    tables' = tables := by
  unfold withholdSample at h
  split at h
  · exact (Prod.mk.inj h).2.symm
  split at h
  · exact (Prod.mk.inj h).2.symm
  split at h
  · exact (Prod.mk.inj h).2.symm
  split at h
  · exact (Prod.mk.inj h).2.symm
  · cases (Prod.mk.inj h).1
  · rw [hcheckpoint] at h
    cases (Prod.mk.inj h).1

/-- What fails writes nothing, if it is not the checkpoint that failed. -/
theorem unchanged_of_error {e : StoreError}
    (h : ConversationStep tables event tables') (hreply : event.reply = .error e)
    (hcheckpoint : event.Checkpointed) : tables' = tables := by
  obtain ⟨op, faults, reply⟩ := event
  obtain rfl : reply = .error e := hreply
  cases op with
  | appendExchange key record =>
    have h : appendExchange faults key record tables = (.error e, tables') := map_eq_error h
    unfold appendExchange at h
    split at h
    · exact (Prod.mk.inj h).2.symm
    · exact transaction_eq_error h
  | append key turn =>
    have h : appendTurn faults key turn tables = (.error e, tables') := map_eq_error h
    unfold appendTurn at h
    split at h
    · exact (Prod.mk.inj h).2.symm
    · exact transaction_eq_error h
  | withholdSample key node sampleRows sampleColumns =>
    exact withholdSample_eq_error (hcheckpoint _ _ _ _ rfl) (map_eq_error h)
  | finishExchange key node outcome =>
    have h : finishExchange faults key node outcome tables = (.error e, tables') := map_eq_error h
    unfold finishExchange at h
    split at h
    · exact (Prod.mk.inj h).2.symm
    split at h
    · exact (Prod.mk.inj h).2.symm
    · cases (Prod.mk.inj h).1
  | select key node => exact transaction_eq_error (map_eq_error h)
  | save conversation =>
    have h : saveConversation faults conversation tables = (.error e, tables') := map_eq_error h
    unfold saveConversation at h
    split at h
    · exact (Prod.mk.inj h).2.symm
    split at h
    · exact (Prod.mk.inj h).2.symm
    split at h
    · cases (Prod.mk.inj h).1
    · cases (Prod.mk.inj h).1
  | delete owner key =>
    have h : deleteConversation faults owner key tables = (.error e, tables') := map_eq_error h
    unfold deleteConversation at h
    split at h
    · exact (Prod.mk.inj h).2.symm
    split at h
    · cases (Prod.mk.inj h).1
    · cases (Prod.mk.inj h).1
  | prune ago workspace policy => exact transaction_eq_error (map_eq_error h)

/-! ## The tables, conversation by conversation -/

/-- What the three tables hold of one conversation. -/
structure Thread where
  header : Option Conversation
  nodes : List Exchange
  turns : List Turn

def Tables.thread (tables : Tables) (key : ConversationId) : Thread :=
  ⟨tables.header key, tables.nodes key, tables.turns key⟩

/-- `Tables.nodeState`, of the nodes of one conversation. -/
def stateOf (nodes : List Exchange) (node : Nat) : Option Bool :=
  (nodes.find? (·.node = node)).map (·.withheld)

inductive Changed : Thread → Thread → Prop
  | nothing {thread : Thread} : Changed thread thread
  | exchange {header header' : Conversation} {nodes : List Exchange} {turns : List Turn}
      {row : Exchange} : header'.selected = header.selected →
      row.node = nextOf (nodes.map (·.node)) → row.node < maxExchanges →
      (∀ parent ∈ row.parent, parent < row.node) → row.withheld = false →
      Changed ⟨some header, nodes, turns⟩ ⟨some header', nodes ++ [row], turns⟩
  | turn {header header' : Conversation} {nodes : List Exchange} {turns : List Turn} {row : Turn} :
      header'.selected = header.selected → row.ordinal = nextOf (turns.map (·.ordinal)) →
      (∀ node ∈ row.node, stateOf nodes node = some false) →
      Changed ⟨some header, nodes, turns⟩ ⟨some header', nodes, turns ++ [row]⟩
  | withheld {header : Option Conversation} {nodes : List Exchange} {turns : List Turn}
      {node : Nat} {change : Exchange → Exchange} :
      (∀ row, (change row).node = row.node ∧ (change row).parent = row.parent ∧
        (change row).withheld = (row.withheld || row.node == node)) →
      Changed ⟨header, nodes, turns⟩
        ⟨header, nodes.map change, turns.filter (·.node ≠ some node)⟩
  | finished {header : Option Conversation} {nodes : List Exchange} {turns : List Turn}
      {change : Exchange → Exchange} :
      (∀ row, (change row).node = row.node ∧ (change row).parent = row.parent ∧
        (change row).withheld = row.withheld) →
      Changed ⟨header, nodes, turns⟩ ⟨header, nodes.map change, turns⟩
  | selected {header header' : Conversation} {nodes : List Exchange} {turns : List Turn} :
      (∀ node ∈ header'.selected, (stateOf nodes node).isSome = true) →
      Changed ⟨some header, nodes, turns⟩ ⟨some header', nodes, turns⟩
  | resaved {header header' : Conversation} {nodes : List Exchange} {turns : List Turn} :
      header'.selected = header.selected →
      Changed ⟨some header, nodes, turns⟩ ⟨some header', nodes, turns⟩
  | saved {header : Conversation} {nodes : List Exchange} {turns : List Turn} :
      header.selected = none → Changed ⟨none, nodes, turns⟩ ⟨some header, nodes, turns⟩
  | removed {thread : Thread} : Changed thread ⟨none, [], []⟩

section Views

variable {other : ConversationId}

theorem header_setHeader {change : Conversation → Conversation}
    (hkeep : ∀ header, (change header).id = header.id) :
    (tables.setHeader key change).header other =
      if other = key then (tables.header other).map change else tables.header other := by
  have hsame (row : Conversation) :
      (if row.id = key then change row else row).id = row.id := by
    split
    · exact hkeep row
    · rfl
  have hfind : (tables.setHeader key change).header other =
      (tables.header other).map fun row => if row.id = key then change row else row := by
    unfold Tables.header Tables.setHeader
    rw [find?_map]
    simp only [Function.comp_def, hsame]
  rw [hfind]
  cases hheader : tables.header other with
  | none => simp
  | some row =>
    have hid : row.id = other := by simpa using find?_some hheader
    rw [Option.map_some, hid]
    split <;> rfl

theorem thread_setHeader {change : Conversation → Conversation}
    (hkeep : ∀ header, (change header).id = header.id) :
    (tables.setHeader key change).thread other =
      if other = key then ⟨(tables.header key).map change, tables.nodes key, tables.turns key⟩
      else tables.thread other := by
  unfold Tables.thread
  rw [header_setHeader hkeep]
  split
  next heq => rw [heq]; rfl
  · rfl

theorem thread_setNodes {nodes : List Exchange} :
    (tables.setNodes key nodes).thread other =
      if other = key then ⟨tables.header key, nodes, tables.turns key⟩ else tables.thread other := by
  split
  next heq =>
    rw [heq]
    exact congrArg (Thread.mk _ · _) (Function.update_self ..)
  next hne => exact congrArg (Thread.mk _ · _) (Function.update_of_ne hne ..)

theorem thread_setTurns {turns : List Turn} :
    (tables.setTurns key turns).thread other =
      if other = key then ⟨tables.header key, tables.nodes key, turns⟩ else tables.thread other := by
  split
  next heq =>
    rw [heq]
    exact congrArg (Thread.mk _ _) (Function.update_self ..)
  next hne => exact congrArg (Thread.mk _ _) (Function.update_of_ne hne ..)

theorem thread_deleteHeader : (tables.deleteHeader key).thread other =
    if other = key then ⟨none, [], []⟩ else tables.thread other := by
  have hheader : (tables.deleteHeader key).header other =
      if other = key then none else tables.header other := by
    unfold Tables.header Tables.deleteHeader
    rw [find?_filter]
    split
    next heq =>
      rw [heq, find?_eq_none]
      intro row hmem
      simp
    next hne =>
      refine congrArg (List.find? · tables.conversations) (funext fun row => ?_)
      by_cases hid : row.id = other
      · simp [hid, hne]
      · simp [hid]
  unfold Tables.thread
  rw [hheader]
  split
  next heq =>
    rw [heq]
    exact congrArg₂ (Thread.mk none) (Function.update_self ..) (Function.update_self ..)
  next hne =>
    exact congrArg₂ (Thread.mk _) (Function.update_of_ne hne ..) (Function.update_of_ne hne ..)

theorem thread_deleteAll (keys : List ConversationId) :
    ∀ {tables : Tables}, (keys.foldl Tables.deleteHeader tables).thread other =
      if other ∈ keys then ⟨none, [], []⟩ else tables.thread other := by
  induction keys with
  | nil => intro tables; rfl
  | cons key keys ih =>
    intro tables
    rw [foldl_cons, ih, thread_deleteHeader]
    by_cases hmem : other ∈ keys
    · simp [hmem]
    · simp [hmem]

theorem thread_saved {conversation : Conversation} (hnone : tables.header conversation.id = none) :
    Tables.thread { tables with conversations := tables.conversations ++ [conversation] } other =
      if other = conversation.id then
        ⟨some conversation, tables.nodes conversation.id, tables.turns conversation.id⟩
      else tables.thread other := by
  have hheader : Tables.header { tables with
      conversations := tables.conversations ++ [conversation] } other =
      (tables.header other).or (if conversation.id = other then some conversation else none) := by
    unfold Tables.header
    rw [find?_append, find?_singleton]
    simp
  unfold Tables.thread
  rw [hheader]
  split
  next heq =>
    obtain rfl := heq
    rw [hnone, if_pos rfl]
    rfl
  next hne =>
    rw [if_neg (Ne.symm hne), Option.or_none]

theorem withholdNode_eq_ok {node sampleRows sampleColumns : Nat}
    (h : tables.withholdNode key node sampleRows sampleColumns = .ok (some tables')) :
    ∃ change : Exchange → Exchange,
      (∀ row, (change row).node = row.node ∧ (change row).parent = row.parent ∧
        (change row).withheld = (row.withheld || row.node == node)) ∧
      tables' = (tables.setNodes key ((tables.nodes key).map change)).setTurns key
        ((tables.turns key).filter (·.node ≠ some node)) := by
  unfold Tables.withholdNode at h
  split at h
  · cases Except.ok.inj h
  · obtain ⟨-, -, h⟩ := bind_eq_ok.mp h
    obtain rfl := Option.some.inj (pure_eq_ok.mp h)
    refine ⟨_, fun row => ?_, rfl⟩
    split
    next heq => exact ⟨rfl, rfl, by simp [heq]⟩
    next hne => exact ⟨rfl, rfl, by simp [hne]⟩

theorem Wrote.changed (h : Wrote tables tables') (other : ConversationId) :
    Changed (tables.thread other) (tables'.thread other) := by
  cases h with
  | nothing => exact .nothing
  | @exchange key change row htouch hheader hnext hfew hparent hshown =>
    obtain ⟨header, hheader⟩ := Option.isSome_iff_exists.mp hheader
    rw [thread_setNodes, thread_setHeader fun header => (htouch header).1]
    split
    next heq =>
      obtain rfl := heq
      rw [Tables.thread, header_setHeader fun header => (htouch header).1, if_pos rfl, hheader]
      exact .exchange (htouch header).2 hnext hfew hparent hshown
    next hne => exact .nothing
  | @turn key change row htouch hheader hnext hnode =>
    obtain ⟨header, hheader⟩ := Option.isSome_iff_exists.mp hheader
    rw [thread_setTurns, thread_setHeader fun header => (htouch header).1]
    split
    next heq =>
      obtain rfl := heq
      rw [Tables.thread, header_setHeader fun header => (htouch header).1, if_pos rfl, hheader]
      exact .turn (htouch header).2 hnext hnode
    next hne => exact .nothing
  | @withheld key node sampleRows sampleColumns _ hnode =>
    obtain ⟨change, hchange, rfl⟩ := withholdNode_eq_ok hnode
    rw [thread_setTurns, thread_setNodes]
    split
    next heq =>
      obtain rfl := heq
      have hnodes : (tables.setNodes other ((tables.nodes other).map change)).nodes other =
          (tables.nodes other).map change := Function.update_self ..
      rw [hnodes]
      exact .withheld hchange
    next hne => exact .nothing
  | @finished key change hchange =>
    rw [thread_setNodes]
    split
    next heq =>
      obtain rfl := heq
      exact .finished hchange
    next hne => exact .nothing
  | @selected key node hnode =>
    have hkeep (row : Conversation) : { row with selected := node }.id = row.id := rfl
    rw [thread_setHeader hkeep]
    split
    next heq =>
      obtain rfl := heq
      cases hheader : tables.header other with
      | none =>
        rw [Tables.thread, hheader]
        exact .nothing
      | some header =>
        rw [Tables.thread, hheader]
        exact .selected fun n hmem => (Option.isSome_map ..).trans (hnode n hmem)
    next hne => exact .nothing
  | @resaved key change htouch =>
    rw [thread_setHeader fun header => (htouch header).1]
    split
    next heq =>
      obtain rfl := heq
      cases hheader : tables.header other with
      | none =>
        rw [Tables.thread, hheader]
        exact .nothing
      | some header =>
        rw [Tables.thread, hheader]
        exact .resaved (htouch header).2
    next hne => exact .nothing
  | @saved conversation hnone hselected =>
    rw [thread_saved hnone]
    split
    next heq =>
      obtain rfl := heq
      rw [Tables.thread, hnone]
      exact .saved hselected
    next hne => exact .nothing
  | removed keys =>
    rw [thread_deleteAll]
    split
    · exact .removed
    · exact .nothing

end Views

theorem changed_of_step (h : ConversationStep tables event tables')
    (key : ConversationId) : Changed (tables.thread key) (tables'.thread key) :=
  (wrote_of_step h).changed key

end Oxyn.Store
