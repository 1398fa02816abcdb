/-
# `Oxyn.Store.Tree` — a conversation is a well-formed tree

The nodes of a conversation are numbered from 0, each behind its parent; the selected node is one
of them; and no turn is attached to a node whose sample is withheld.
-/
import Oxyn.Store.Threads

open Runs

namespace Oxyn.Store

open List

open Text Fallible

/-! ## Well-formed conversations -/

/-- What is so of every conversation, at any time. -/
structure WellFormed (thread : Thread) : Prop where
  /-- What has no header has nothing else. -/
  bare : thread.header = none → thread.nodes = [] ∧ thread.turns = []
  numbered : thread.nodes.map (·.node) = List.range thread.nodes.length
  few : thread.nodes.length ≤ maxExchanges
  parents : ∀ row ∈ thread.nodes, ∀ parent ∈ row.parent, parent < row.node
  selected : ∀ header ∈ thread.header, ∀ node ∈ header.selected, node < thread.nodes.length
  /-- An answer is attached to a node that holds no sample. -/
  attached : ∀ turn ∈ thread.turns, ∀ node ∈ turn.node, stateOf thread.nodes node = some false

/-- A store of before the trees: threads, and no exchanges. -/
def Migrated (tables : Tables) : Prop :=
  ∀ key, tables.nodes key = [] ∧ (tables.header key = none → tables.turns key = []) ∧
    (∀ header ∈ tables.header key, header.selected = none) ∧
    ∀ turn ∈ tables.turns key, turn.node = none

theorem Migrated.wellFormed {tables : Tables} (h : Migrated tables) (key : ConversationId) :
    WellFormed (tables.thread key) := by
  obtain ⟨hnodes, hbare, hselected, hturns⟩ := h key
  refine ⟨fun hnone => ⟨hnodes, hbare hnone⟩, ?_, ?_, ?_, ?_, ?_⟩
  · show (tables.nodes key).map (·.node) = List.range (tables.nodes key).length
    rw [hnodes]
    rfl
  · show (tables.nodes key).length ≤ maxExchanges
    rw [hnodes]
    exact Nat.zero_le _
  · intro row hmem
    have hmem : row ∈ tables.nodes key := hmem
    rw [hnodes] at hmem
    cases hmem
  · intro header hmem node hnode
    rw [hselected header hmem] at hnode
    cases hnode
  · intro turn hmem node hnode
    rw [hturns turn hmem] at hnode
    cases hnode

section Nodes

variable {nodes : List Exchange}

/-- Nodes that are numbered in order are found at their number. -/
theorem find_eq_getElem (hnumbered : nodes.map (·.node) = List.range nodes.length) (n : Nat) :
    nodes.find? (·.node = n) = nodes[n]? := by
  have hat (i : Nat) (hi : i < nodes.length) : nodes[i].node = i := by
    have hmap : (nodes.map (·.node))[i]? = (List.range nodes.length)[i]? := by rw [hnumbered]
    simpa [hi] using hmap
  cases hfind : nodes.find? (·.node = n) with
  | none =>
    refine (getElem?_eq_none (Nat.not_lt.mp fun hlt => ?_)).symm
    have hnone := find?_eq_none.mp hfind nodes[n] (getElem_mem hlt)
    exact hnone (by simp [hat n hlt])
  | some row =>
    obtain ⟨i, hi, hrow⟩ := mem_iff_getElem.mp (mem_of_find?_eq_some hfind)
    have hn : row.node = n := by simpa using find?_some hfind
    have hin : i = n := by rw [← hat i hi, hrow, hn]
    rw [← hin, getElem?_eq_getElem hi, hrow]

theorem stateOf_isSome (hnumbered : nodes.map (·.node) = List.range nodes.length) {n : Nat} :
    (stateOf nodes n).isSome = true ↔ n < nodes.length := by
  unfold stateOf
  rw [Option.isSome_map, find_eq_getElem hnumbered]
  simp

variable {change : Exchange → Exchange}

theorem stateOf_map {withheld : Exchange → Bool}
    (hchange : ∀ row, (change row).node = row.node ∧ (change row).withheld = withheld row)
    (n : Nat) :
    stateOf (nodes.map change) n = (nodes.find? (·.node = n)).map withheld := by
  unfold stateOf
  rw [find?_map, Option.map_map]
  simp only [Function.comp_def, fun row => (hchange row).1, fun row => (hchange row).2]

theorem stateOf_finish
    (hchange : ∀ row, (change row).node = row.node ∧ (change row).parent = row.parent ∧
      (change row).withheld = row.withheld) (n : Nat) :
    stateOf (nodes.map change) n = stateOf nodes n :=
  stateOf_map (fun row => ⟨(hchange row).1, (hchange row).2.2⟩) n

theorem stateOf_withhold {node : Nat}
    (hchange : ∀ row, (change row).node = row.node ∧ (change row).parent = row.parent ∧
      (change row).withheld = (row.withheld || row.node == node)) (n : Nat) :
    stateOf (nodes.map change) n = (stateOf nodes n).map (· || n == node) := by
  rw [stateOf_map (fun row => ⟨(hchange row).1, (hchange row).2.2⟩)]
  unfold stateOf
  cases hfind : nodes.find? (·.node = n) with
  | none => rfl
  | some row =>
    have hn : row.node = n := by simpa using find?_some hfind
    simp [hn]

theorem stateOf_append {row : Exchange} {n : Nat} {state : Bool} (h : stateOf nodes n = some state) :
    stateOf (nodes ++ [row]) n = some state := by
  obtain ⟨found, hfound, hstate⟩ := Option.map_eq_some_iff.mp h
  rw [stateOf, find?_append, hfound]
  exact congrArg some hstate

theorem numbered_map (hchange : ∀ row, (change row).node = row.node)
    (hnumbered : nodes.map (·.node) = List.range nodes.length) :
    (nodes.map change).map (·.node) = List.range (nodes.map change).length := by
  simpa [Function.comp_def, hchange] using hnumbered

theorem parents_map
    (hchange : ∀ row, (change row).node = row.node ∧ (change row).parent = row.parent)
    (hparents : ∀ row ∈ nodes, ∀ parent ∈ row.parent, parent < row.node) :
    ∀ row ∈ nodes.map change, ∀ parent ∈ row.parent, parent < row.node := by
  intro row hmem parent hparent
  obtain ⟨old, hold, rfl⟩ := mem_map.mp hmem
  rw [(hchange old).2] at hparent
  rw [(hchange old).1]
  exact hparents old hold parent hparent

end Nodes

theorem Changed.wellFormed {thread thread' : Thread} (h : Changed thread thread')
    (hwell : WellFormed thread) : WellFormed thread' := by
  obtain ⟨hbare, hnumbered, hfew, hparents, hselected, hattached⟩ := hwell
  cases h with
  | nothing => exact ⟨hbare, hnumbered, hfew, hparents, hselected, hattached⟩
  | @exchange header header' nodes turns row hsame hnext hroom hparent hshown =>
    have hnode : row.node = nodes.length := by rw [hnext, hnumbered, nextOf_range]
    refine ⟨nofun, ?_, ?_, ?_, ?_, ?_⟩
    · simp only [map_append, length_append, map_singleton, length_singleton,
        range_succ, hnode]
      rw [hnumbered]
    · rw [length_append, length_singleton, ← hnode]
      exact hroom
    · intro other hmem
      rcases mem_append.mp hmem with hmem | hmem
      · exact hparents other hmem
      · exact mem_singleton.mp hmem ▸ hparent
    · intro header'' hmem node hnode'
      obtain rfl := Option.some.inj hmem
      rw [hsame] at hnode'
      have hlt : node < nodes.length := hselected header rfl node hnode'
      rw [length_append]
      exact Nat.lt_add_right _ hlt
    · intro turn hmem node hnode'
      exact stateOf_append (hattached turn hmem node hnode')
  | @turn header header' nodes turns row hsame hnext hnode =>
    refine ⟨nofun, hnumbered, hfew, hparents, ?_, ?_⟩
    · intro header'' hmem node hnode'
      obtain rfl := Option.some.inj hmem
      rw [hsame] at hnode'
      exact hselected header rfl node hnode'
    · intro turn hmem
      rcases mem_append.mp hmem with hmem | hmem
      · exact hattached turn hmem
      · exact mem_singleton.mp hmem ▸ hnode
  | @withheld header nodes turns node change hchange =>
    refine ⟨fun hnone => ?_, numbered_map (fun row => (hchange row).1) hnumbered, ?_,
      parents_map (fun row => ⟨(hchange row).1, (hchange row).2.1⟩) hparents, ?_, ?_⟩
    · obtain ⟨hnodes, hturns⟩ := hbare hnone
      obtain rfl : nodes = [] := hnodes
      obtain rfl : turns = [] := hturns
      exact ⟨rfl, rfl⟩
    · rw [length_map]
      exact hfew
    · rw [length_map]
      exact hselected
    · intro turn hmem n hn
      obtain ⟨hmem, hkept⟩ := mem_filter.mp hmem
      have hother : n ≠ node := fun heq => of_decide_eq_true hkept (hn.trans (congrArg some heq))
      rw [stateOf_withhold hchange, hattached turn hmem n hn]
      simpa using hother
  | @finished header nodes turns change hchange =>
    refine ⟨fun hnone => ?_, numbered_map (fun row => (hchange row).1) hnumbered, ?_,
      parents_map (fun row => ⟨(hchange row).1, (hchange row).2.1⟩) hparents, ?_, ?_⟩
    · obtain ⟨hnodes, hturns⟩ := hbare hnone
      obtain rfl : nodes = [] := hnodes
      exact ⟨rfl, hturns⟩
    · rw [length_map]
      exact hfew
    · rw [length_map]
      exact hselected
    · intro turn hmem n hn
      rw [stateOf_finish hchange]
      exact hattached turn hmem n hn
  | @selected header header' nodes turns hfound =>
    refine ⟨nofun, hnumbered, hfew, hparents, ?_, hattached⟩
    intro header'' hmem node hnode
    obtain rfl := Option.some.inj hmem
    exact (stateOf_isSome hnumbered).mp (hfound node hnode)
  | @resaved header header' nodes turns hsame =>
    refine ⟨nofun, hnumbered, hfew, hparents, ?_, hattached⟩
    intro header'' hmem node hnode
    obtain rfl := Option.some.inj hmem
    rw [hsame] at hnode
    exact hselected header rfl node hnode
  | @saved header nodes turns hselected' =>
    refine ⟨nofun, hnumbered, hfew, hparents, ?_, hattached⟩
    intro header'' hmem node hnode
    obtain rfl := Option.some.inj hmem
    rw [hselected'] at hnode
    cases hnode
  | removed =>
    refine ⟨fun _ => ⟨rfl, rfl⟩, rfl, Nat.zero_le _, ?_, ?_, ?_⟩
    · exact fun row hmem => absurd hmem not_mem_nil
    · exact fun header hmem => absurd hmem (Option.not_mem_none _)
    · exact fun turn hmem => absurd hmem not_mem_nil

theorem Changed.withheld_final {thread thread' : Thread} (h : Changed thread thread') {node : Nat}
    (hwithheld : stateOf thread.nodes node = some true) :
    stateOf thread'.nodes node = some true ∨ thread'.header = none := by
  cases h with
  | removed => exact .inr rfl
  | exchange => exact .inl (stateOf_append hwithheld)
  | withheld hchange =>
    refine .inl ((stateOf_withhold hchange node).trans ?_)
    rw [hwithheld, Option.map_some, Bool.true_or]
  | finished hchange =>
    rw [stateOf_finish hchange]
    exact .inl hwithheld
  | nothing | turn | selected | resaved | saved => exact .inl hwithheld

/-! ## Branches -/

inductive Lineage (nodes : List Exchange) : Nat → List Exchange → Prop
  | root {row : Exchange} : row ∈ nodes → row.parent = none → Lineage nodes row.node [row]
  | child {row : Exchange} {parent : Nat} {above : List Exchange} : row ∈ nodes →
      row.parent = some parent → Lineage nodes parent above →
      Lineage nodes row.node (above ++ [row])

section Branch

variable {nodes : List Exchange}

theorem Lineage.subset {leaf : Nat} {exchanges : List Exchange} (h : Lineage nodes leaf exchanges) :
    ∀ row ∈ exchanges, row ∈ nodes := by
  induction h with
  | root hmem _ => exact fun row hrow => mem_singleton.mp hrow ▸ hmem
  | child hmem _ _ ih =>
    intro row hrow
    rcases mem_append.mp hrow with hrow | hrow
    · exact ih row hrow
    · exact mem_singleton.mp hrow ▸ hmem

variable {row : Exchange}

theorem find_self (hnumbered : nodes.map (·.node) = List.range nodes.length)
    (hmem : row ∈ nodes) : nodes.find? (·.node = row.node) = some row := by
  obtain ⟨i, hi, rfl⟩ := mem_iff_getElem.mp hmem
  have hmap : (nodes.map (·.node))[i]? = (List.range nodes.length)[i]? := by rw [hnumbered]
  have hat : nodes[i].node = i := by simpa [hi] using hmap
  rw [hat, find_eq_getElem hnumbered, getElem?_eq_getElem hi]

theorem chainUp_none (depth : Nat) : chainUp nodes depth none = [] := by
  cases depth <;> rfl

theorem chainUp_of_child {depth : Nat} (hfind : nodes.find? (·.node = row.node) = some row) :
    chainUp nodes (depth + 1) (some row.node) = row.node :: chainUp nodes depth row.parent := by
  rw [chainUp, hfind]

theorem chainUp_of_root {depth : Nat}
    (hfind : nodes.find? (·.node = row.node) = some row) (hroot : row.parent = none) :
    chainUp nodes depth (some row.node) = [row.node] := by
  cases depth with
  | zero => rw [chainUp, hfind]
  | succ depth => rw [chainUp_of_child hfind, hroot, chainUp_none]

/-- A leaf has ancestors up to a root, and the query finds them: each is smaller, so `depth` is not
reached before the root. -/
theorem exists_lineage (hnumbered : nodes.map (·.node) = List.range nodes.length)
    (hparents : ∀ row ∈ nodes, ∀ parent ∈ row.parent, parent < row.node) {leaf : Nat}
    (hleaf : leaf < nodes.length) : ∃ exchanges, Lineage nodes leaf exchanges ∧
      ∀ depth, leaf ≤ depth →
        chainUp nodes depth (some leaf) = (exchanges.map (·.node)).reverse := by
  induction leaf using Nat.strong_induction_on with
  | _ leaf ih =>
    have hmem : nodes[leaf] ∈ nodes := getElem_mem hleaf
    have hmap : (nodes.map (·.node))[leaf]? = (List.range nodes.length)[leaf]? := by
      rw [hnumbered]
    have hnode : nodes[leaf].node = leaf := by simpa [hleaf] using hmap
    have hfind := find_self hnumbered hmem
    generalize nodes[leaf] = row at hmem hnode hfind
    obtain rfl := hnode
    cases hparent : row.parent with
    | none =>
      exact ⟨[row], .root hmem hparent, fun depth _ => chainUp_of_root hfind hparent⟩
    | some parent =>
      have hlt : parent < row.node := hparents row hmem parent hparent
      obtain ⟨above, habove, hchain⟩ := ih parent hlt (Nat.lt_trans hlt hleaf)
      refine ⟨above ++ [row], .child hmem hparent habove, fun depth hdepth => ?_⟩
      cases depth with
      | zero => omega
      | succ depth =>
        rw [chainUp_of_child hfind, hparent, hchain depth (by omega), map_append,
          reverse_append]
        rfl

end Branch

/-- The pages of a branch: each is asked for where the one before it stopped, with its own limit. -/
inductive ReadBranch (tables : Tables) (key : ConversationId) (leaf : Nat) (limits : Nat → Nat) :
    Nat → Nat → List Exchange → Prop
  | last {turn start : Nat} : (branchPage tables key leaf start (limits turn)).next = none →
      ReadBranch tables key leaf limits turn start
        (branchPage tables key leaf start (limits turn)).exchanges
  | more {turn start next : Nat} {rest : List Exchange} :
      (branchPage tables key leaf start (limits turn)).next = some next →
      ReadBranch tables key leaf limits (turn + 1) next rest →
      ReadBranch tables key leaf limits turn start
        ((branchPage tables key leaf start (limits turn)).exchanges ++ rest)

section Pages

variable {tables : Tables} {key : ConversationId} {leaf : Nat} {exchanges : List Exchange}

theorem branchPage_eq (hchain : branch (tables.nodes key) leaf = exchanges.map (·.node))
    (hfind : ∀ row ∈ exchanges, tables.exchange key row.node = some row) (start limit : Nat) :
    branchPage tables key leaf start limit =
      ⟨(exchanges.drop start).take (clampPage limit),
        if start + clampPage limit < exchanges.length then some (start + clampPage limit)
        else none⟩ := by
  have hpiece : (((exchanges.map (·.node)).drop start).take (clampPage limit)).filterMap
      (tables.exchange key) = (exchanges.drop start).take (clampPage limit) := by
    rw [← map_drop, ← map_take, filterMap_map]
    refine (filterMap_congr fun row hrow => ?_).trans (filterMap_some ..)
    exact hfind row (mem_of_mem_drop (mem_of_mem_take hrow))
  unfold branchPage
  simp only [hchain, Nat.add_sub_cancel_left, hpiece, length_map]

/-- Whatever the limits, the pages are what is left of the branch, and nothing else. -/
theorem readBranch_iff (hchain : branch (tables.nodes key) leaf = exchanges.map (·.node))
    (hfind : ∀ row ∈ exchanges, tables.exchange key row.node = some row) {limits : Nat → Nat}
    {turn start : Nat} {read : List Exchange} :
    ReadBranch tables key leaf limits turn start read ↔ read = exchanges.drop start := by
  have hpage := branchPage_eq hchain hfind
  constructor
  · intro h
    induction h with
    | @last turn start hnext =>
      rw [hpage] at hnext ⊢
      refine take_of_length_le ?_
      rw [length_drop]
      by_contra hlong
      rw [if_pos (by omega)] at hnext
      cases hnext
    | @more turn start next rest hnext _ ih =>
      rw [hpage] at hnext ⊢
      split at hnext
      · obtain rfl := Option.some.inj hnext
        rw [ih, ← drop_drop, take_append_drop]
      · cases hnext
  · rintro rfl
    induction hleft : exchanges.length - start using Nat.strong_induction_on
      generalizing turn start with
    | _ left ih =>
      by_cases hmore : start + clampPage (limits turn) < exchanges.length
      · have hnext : (branchPage tables key leaf start (limits turn)).next =
            some (start + clampPage (limits turn)) := by rw [hpage, if_pos hmore]
        have hpos := clampPage_pos (limits turn)
        have hrest : ReadBranch tables key leaf limits (turn + 1)
            (start + clampPage (limits turn))
            (exchanges.drop (start + clampPage (limits turn))) := ih _ (by omega) rfl
        have hread := ReadBranch.more hnext hrest
        rw [hpage, ← drop_drop, take_append_drop] at hread
        exact hread
      · have hnext : (branchPage tables key leaf start (limits turn)).next = none := by
          rw [hpage, if_neg hmore]
        have hread := ReadBranch.last hnext
        rw [hpage, take_of_length_le (by rw [length_drop]; omega)] at hread
        exact hread

end Pages

/-! ## A conversation of one exchange -/

def Tables.empty : Tables := ⟨[], fun _ => [], fun _ => []⟩

def noFaults : Faults := ⟨fun _ => false⟩

def noCheckpoint : Faults := ⟨fun query => query matches .checkpoint⟩

def someDestination : Destination := ⟨.provider, none, [], none⟩

def aConversation : Conversation :=
  ⟨0, none, 0, none, none, someDestination, [], 0, 0, none⟩

def anExchange : ExchangeRecord := ⟨none, 1, [], someDestination, .ok none⟩

/-- An answer to the first exchange. -/
def anAnswer : TurnRecord := ⟨2, some 0, [], .ok ⟨none, none, none⟩⟩

def Tables.event (tables : Tables) (op : ConversationOp) (faults : Faults) : ConversationEvent :=
  ⟨op, faults, (tables.perform faults op).1⟩

def Tables.after (tables : Tables) (op : ConversationOp) (faults : Faults) : Tables :=
  (tables.perform faults op).2

theorem step_after (tables : Tables) (op : ConversationOp) (faults : Faults) :
    ConversationStep tables (tables.event op faults) (tables.after op faults) := rfl

theorem Tables.empty_migrated : Migrated .empty := by
  intro key
  refine ⟨rfl, fun _ => rfl, fun header hmem => ?_, fun turn hmem => ?_⟩
  · cases hmem
  · cases hmem

def saved : Tables := Tables.empty.after (.save aConversation) noFaults

def asked : Tables := saved.after (.appendExchange 0 anExchange) noFaults

/-- A conversation of one exchange, which has its answer. -/
def answered : Tables := asked.after (.append 0 anAnswer) noFaults

def answeredTrace : List ConversationEvent :=
  [] ++ [Tables.empty.event (.save aConversation) noFaults] ++
    [saved.event (.appendExchange 0 anExchange) noFaults] ++
    [asked.event (.append 0 anAnswer) noFaults]

theorem run_answered : Steps ConversationStep .empty answeredTrace answered :=
  ((Steps.nil.snoc (step_after ..)).snoc (step_after ..)).snoc (step_after ..)

/-! ## Over whole runs -/

structure ConversationTree (tables : Tables) (key : ConversationId) : Prop where
  numbered : (tables.nodes key).map (·.node) = List.range (tables.nodes key).length
  few : (tables.nodes key).length ≤ 256
  parents : ∀ row ∈ tables.nodes key, ∀ parent ∈ row.parent, parent < row.node
  selected : ∀ header ∈ tables.header key, ∀ node ∈ header.selected,
    node < (tables.nodes key).length
  branches : ∀ leaf < (tables.nodes key).length, ∃ exchanges,
    Lineage (tables.nodes key) leaf exchanges ∧
      ∀ limits read, ReadBranch tables key leaf limits 0 0 read ↔ read = exchanges
  /-- There is no branch to a leaf that is not there. -/
  unknown : ∀ leaf, (tables.nodes key).length ≤ leaf →
    ∀ limits read, ReadBranch tables key leaf limits 0 0 read ↔ read = []

theorem WellFormed.tree {tables : Tables} {key : ConversationId}
    (h : WellFormed (tables.thread key)) : ConversationTree tables key where
  numbered := h.numbered
  few := h.few
  parents := h.parents
  selected := h.selected
  branches := by
    intro leaf hleaf
    have hleaf : leaf < (tables.thread key).nodes.length := hleaf
    obtain ⟨exchanges, hlineage, hchain⟩ := exists_lineage h.numbered h.parents hleaf
    refine ⟨exchanges, hlineage, fun limits read => ?_⟩
    have hdeep : leaf ≤ 256 := Nat.le_trans (Nat.le_of_lt hleaf) h.few
    have hbranch : branch (tables.nodes key) leaf = exchanges.map (·.node) :=
      (congrArg List.reverse (hchain 256 hdeep)).trans (reverse_reverse _)
    exact readBranch_iff hbranch fun row hrow => find_self h.numbered (hlineage.subset row hrow)
  unknown := by
    intro leaf hleaf limits read
    have hfind : (tables.nodes key).find? (·.node = leaf) = none :=
      (find_eq_getElem h.numbered leaf).trans (getElem?_eq_none hleaf)
    have hbranch : branch (tables.nodes key) leaf = ([] : List Exchange).map (·.node) := by
      rw [branch, chainUp, hfind]
      rfl
    exact readBranch_iff hbranch fun row hrow => absurd hrow not_mem_nil

theorem wellFormed_of_run {start tables : Tables} {tr : List ConversationEvent}
    (hstart : Migrated start) (h : Steps ConversationStep start tr tables) (key : ConversationId) :
    WellFormed (tables.thread key) := by
  have hkept : ∀ tables event tables', WellFormed (Tables.thread tables key) →
      ConversationStep tables event tables' → WellFormed (tables'.thread key) :=
    fun tables event tables' hwell hstep => (changed_of_step hstep key).wellFormed hwell
  exact h.invariant (P := fun tables => WellFormed (tables.thread key)) hkept (hstart.wellFormed key)

theorem withheld_of_run {tables tables' : Tables} {tr : List ConversationEvent}
    {key : ConversationId} {node : Nat} (h : Steps ConversationStep tables tr tables')
    (hwithheld : tables.nodeState key node = some true) :
    tables'.nodeState key node = some true ∨
      Sometime ConversationStep tables (fun u => u.header key = none) tr := by
  induction h with
  | nil => exact .inl hwithheld
  | snoc hrun hstep ih =>
    rcases ih with hstate | hgone
    · rcases (changed_of_step hstep key).withheld_final hstate with hstate | hgone
      · exact .inl hstate
      · exact .inr ((hrun.snoc hstep).sometime hgone)
    · exact .inr (hgone.snoc _)

/-- Every conversation is a tree; a withheld sample stays so, without an answer, as long as its
conversation is there; and an operation that fails leaves every table as it was, if it is not the
checkpoint behind a withheld sample that failed. -/
theorem conversations_stay_trees {start tables : Tables} {tr : List ConversationEvent}
    (hstart : Migrated start) (h : Steps ConversationStep start tr tables) :
    (∀ key, ConversationTree tables key) ∧
    (∀ before after u key node, tr = before ++ after → Steps ConversationStep start before u →
      Steps ConversationStep u after tables → u.nodeState key node = some true →
      (tables.nodeState key node = some true ∧ ∀ turn ∈ tables.turns key, turn.node ≠ some node) ∨
        Sometime ConversationStep u (fun v => v.header key = none) after) ∧
    (∀ before event after u u' e, tr = before ++ event :: after →
      Steps ConversationStep start before u → ConversationStep u event u' →
      event.reply = .error e → event.Checkpointed → u' = u) := by
  refine ⟨fun key => (wellFormed_of_run hstart h key).tree, ?_, ?_⟩
  · intro before after u key node _ _ hafter hwithheld
    rcases withheld_of_run hafter hwithheld with hstate | hgone
    · refine .inl ⟨hstate, fun turn hturn hnode => ?_⟩
      have hshown := (wellFormed_of_run hstart h key).attached turn hturn node hnode
      cases hstate.symm.trans hshown
    · exact .inr hgone
  · intro before event after u u' e _ _ hstep hreply hcheckpoint
    exact unchanged_of_error hstep hreply hcheckpoint

theorem answered_is_a_tree :
    (∀ key, ConversationTree answered key) ∧
    (∀ before after u key node, answeredTrace = before ++ after →
      Steps ConversationStep .empty before u → Steps ConversationStep u after answered →
      u.nodeState key node = some true →
      (answered.nodeState key node = some true ∧
        ∀ turn ∈ answered.turns key, turn.node ≠ some node) ∨
        Sometime ConversationStep u (fun v => v.header key = none) after) ∧
    (∀ before event after u u' e, answeredTrace = before ++ event :: after →
      Steps ConversationStep .empty before u → ConversationStep u event u' →
      event.reply = .error e → event.Checkpointed → u' = u) :=
  conversations_stay_trees Tables.empty_migrated run_answered

/-- The sample is withheld and the answer erased, and the operation says that it failed. -/
theorem erased_by_an_error :
    ¬ ∀ (start u u' : Tables) (tr : List ConversationEvent) (event : ConversationEvent)
      (e : StoreError), Migrated start → Steps ConversationStep start tr u →
      ConversationStep u event u' → event.reply = .error e → u' = u := by
  intro h
  have hsame : answered.after (.withholdSample 0 0 1 1) noCheckpoint = answered :=
    h .empty answered _ answeredTrace _ .sqlite Tables.empty_migrated run_answered
      (step_after answered (.withholdSample 0 0 1 1) noCheckpoint) (by rfl)
  have hturns : ((answered.after (.withholdSample 0 0 1 1) noCheckpoint).turns 0).length = 0 := by
    decide
  rw [hsame] at hturns
  exact absurd hturns (by decide)

end Oxyn.Store
