/-
# `Oxyn.Llm.Cards` — the cards of an OpenAI-compatible generation, and their identifiers

A call is shown on a card, under its position among the calls gathered; its result goes by its
identifier, which is made up from the position when the server gives none.
-/
import Oxyn.Llm.OpenAiEnd
import Mathlib.Data.List.Nodup
import Mathlib.Data.List.Perm.Basic

namespace Oxyn.Llm

open Text List

section

variable {J : Type}

/-! ## What the events say of the calls -/

def ChatEvent.card : ChatEvent J → Option (Nat × Str)
  | .toolCallStarted index id _ => some (index, id)
  | _ => none

def ChatEvent.closes : ChatEvent J → Option Str
  | .toolCallComplete call => some call.id
  | .toolCallInvalid id _ _ => some id
  | _ => none

def cards (es : List (ChatEvent J)) : List (Nat × Str) := es.filterMap ChatEvent.card

def closings (es : List (ChatEvent J)) : List Str := es.filterMap ChatEvent.closes

/-- No two calls share a card or an identifier, and each is closed once at most, behind the
event that announced it. -/
structure Told (es : List (ChatEvent J)) : Prop where
  cards : ((cards es).map Prod.fst).Nodup
  ids : ((Llm.cards es).map Prod.snd).Nodup
  closings : (closings es).Nodup
  earlier : ∀ before e after id, es = before ++ e :: after → e.closes = some id →
    ((Llm.cards before).map Prod.snd).count id = 1

theorem cards_append (es es' : List (ChatEvent J)) : cards (es ++ es') = cards es ++ cards es' :=
  filterMap_append

theorem closings_append (es es' : List (ChatEvent J)) :
    closings (es ++ es') = closings es ++ closings es' :=
  filterMap_append

def Announced (es : List (ChatEvent J)) : Prop :=
  ∀ before e after id, es = before ++ e :: after → e.closes = some id →
    id ∈ (cards before).map Prod.snd

theorem Announced.nil : Announced ([] : List (ChatEvent J)) := by
  intro before e after id h
  exact (append_ne_nil_of_right_ne_nil before (cons_ne_nil e after) h.symm).elim

theorem Announced.append {es es' : List (ChatEvent J)} (h : Announced es)
    (h' : ∀ e ∈ es', ∀ id, e.closes = some id → id ∈ (cards es).map Prod.snd) :
    Announced (es ++ es') := by
  intro before e after id hsplit hid
  rcases append_eq_append_iff.mp hsplit with ⟨mid, hbefore, hmid⟩ | ⟨mid, hes, hmid⟩
  · rw [hbefore, cards_append, map_append]
    refine mem_append_left _ (h' e ?_ id hid)
    rw [hmid]
    exact mem_append_right _ (mem_cons_self ..)
  · cases mid with
    | nil =>
      rw [append_nil] at hes
      rw [nil_append] at hmid
      rw [← hes]
      refine h' e ?_ id hid
      rw [← hmid]
      exact mem_cons_self ..
    | cons e' mid =>
      obtain ⟨rfl, -⟩ := List.cons.inj hmid
      exact h before e mid id hes hid

theorem told_of_announced {es : List (ChatEvent J)} (hcards : ((cards es).map Prod.fst).Nodup)
    (hids : ((cards es).map Prod.snd).Nodup) (hclosings : (closings es).Nodup)
    (h : Announced es) : Told es where
  cards := hcards
  ids := hids
  closings := hclosings
  earlier before e after id hsplit hid := by
    refine count_eq_one_of_mem ?_ (h before e after id hsplit hid)
    rw [hsplit, cards_append, map_append] at hids
    exact hids.of_append_left

theorem Told.announced {es : List (ChatEvent J)} (h : Told es) : Announced es := by
  intro before e after id hsplit hid
  have hone := h.earlier before e after id hsplit hid
  exact count_pos_iff.mp (hone ▸ Nat.one_pos)

def Plain (es : List (ChatEvent J)) : Prop := ∀ e ∈ es, e.card = none ∧ e.closes = none

theorem Plain.cards {es : List (ChatEvent J)} (h : Plain es) : Llm.cards es = [] :=
  filterMap_eq_nil_iff.mpr fun e he => (h e he).1

theorem Plain.closings {es : List (ChatEvent J)} (h : Plain es) : Llm.closings es = [] :=
  filterMap_eq_nil_iff.mpr fun e he => (h e he).2

theorem Plain.append {es es' : List (ChatEvent J)} (h : Plain es) (h' : Plain es') :
    Plain (es ++ es') := by
  intro e he
  rcases mem_append.mp he with he | he
  · exact h e he
  · exact h' e he

theorem Told.plain {es es' : List (ChatEvent J)} (h : Told es) (h' : Plain es') :
    Told (es ++ es') := by
  have hcards : Llm.cards (es ++ es') = Llm.cards es := by
    rw [cards_append, h'.cards, append_nil]
  refine told_of_announced (by rw [hcards]; exact h.cards) (by rw [hcards]; exact h.ids) ?_ ?_
  · rw [closings_append, h'.closings, append_nil]
    exact h.closings
  · refine h.announced.append fun e he id hid => ?_
    rw [(h' e he).2] at hid
    cases hid

end

namespace OpenAi

/-! ## When a fragment announces a call -/

/-- The position of the call that a fragment goes on, or opens. -/
def landing (calls : List PartialCall) (raw : DeltaToolCall) : Nat :=
  (continued calls raw.index (nonEmpty raw.id)).getD calls.length

def opened (calls : List PartialCall) (raw : DeltaToolCall) : List PartialCall :=
  match continued calls raw.index (nonEmpty raw.id) with
  | some _ => calls
  | none => calls ++ [⟨raw.index, none, [], [], none⟩]

def nameOf (raw : DeltaToolCall) : Option Str := raw.function.bind fun f => nonEmpty f.name

def argumentsOf (raw : DeltaToolCall) : Option Str :=
  raw.function.bind fun f => nonEmpty f.arguments

/-- The call a fragment announces: where it stands, and the identifier it was given, if any. -/
def announced (calls : List PartialCall) (raw : DeltaToolCall) : Option (Nat × Option Str) :=
  match (opened calls raw)[landing calls raw]? with
  | some entry =>
    if entry.started = none ∧ entry.name ++ (nameOf raw).getD [] ≠ [] then
      some (landing calls raw, entry.id.or (nonEmpty raw.id))
    else none
  | none => none

section

variable {J : Type}

def closedCards (es : List (ChatEvent J)) : List (Nat × Str) :=
  (cards es).filter fun card => (closings es).contains card.2

/-- If a fragment announces a call, no call closed before stood at its position or under its
identifier, and none of the list does when one of the two was made up. -/
def Fresh (es : List (ChatEvent J)) (calls : List PartialCall) (raw : DeltaToolCall) : Prop :=
  ∀ position given, announced calls raw = some (position, given) →
    (∀ card ∈ closedCards es,
      card.1 ≠ position ∧ card.2 ≠ given.getD (syntheticId position)) ∧
    ∀ other call, calls[other]? = some call →
      call.started = some (given.getD (syntheticId position)) →
        given ≠ none ∧ given ≠ some (syntheticId other)

/-- Fragments that are fresh, each behind what the ones before it left. -/
def FreshAll (past : List (ChatEvent J)) :
    List DeltaToolCall → Account (List PartialCall) J → Prop
  | [], _ => True
  | raw :: rest, a =>
    Fresh (past ++ a.out) a.kept raw ∧
      ∀ mid, accumulate raw a = (.ok (), mid) → FreshAll past rest mid

def FreshDelta (past : List (ChatEvent J)) (delta : Delta)
    (a : Account (List PartialCall) J) : Prop :=
  ∀ mid mid', emitText .textDelta (nonEmpty delta.content) a = (.ok (), mid) →
    emitText .refusalDelta (nonEmpty delta.refusal) mid = (.ok (), mid') →
      FreshAll past delta.toolCalls mid'

def FreshChoices (json : Json J) (past : List (ChatEvent J)) (d : ChunkDecoder)
    (out : List (ChatEvent J)) : List ChunkChoice → Prop
  | [] => True
  | choice :: rest =>
    FreshDelta past choice.delta ⟨d.calls, d.budget, out⟩ ∧
      ∀ a, onDelta choice.delta ⟨d.calls, d.budget, out⟩ = (.ok (), a) →
        let closed := onFinish json { d with calls := a.kept, budget := a.budget } a.out
          choice.finishReason
        FreshChoices json past closed.1 closed.2 rest

def FreshFrame (wire : Wire J) (past : List (ChatEvent J)) (d : ChunkDecoder) (f : SseFrame) :
    Prop :=
  ∀ chunk, chunkOf wire f = some chunk → chunk.error = none →
    FreshChoices wire.json past d (chunk.usage.map usageEvent).toList chunk.choices

/-- Frames whose fragments are fresh, each behind what the frames before it left. -/
def FreshRun (wire : Wire J) (past : List (ChatEvent J)) (d : ChunkDecoder) :
    List SseFrame → Prop
  | [] => True
  | f :: rest =>
    FreshFrame wire past d f ∧
      FreshRun wire (past ++ (onData wire d f.data).2) (onData wire d f.data).1 rest

/-! ## What a fragment does -/

variable {i : Nat}

theorem rposition_lt {p : PartialCall → Bool} {calls : List PartialCall}
    (h : rposition p calls = some i) : i < calls.length := by
  obtain ⟨j, hj, rfl⟩ := Option.map_eq_some_iff.mp h
  have hlt : j < calls.reverse.length := (findIdx?_eq_some_iff_getElem.mp hj).1
  rw [length_reverse] at hlt
  omega

variable {id : Option Str}

theorem candidate_lt {calls : List PartialCall} {candidate i : Nat}
    (h : (calls[candidate]?.bind fun call =>
      match id, call.id with
      | some new, some known => if new ≠ known then none else some candidate
      | _, _ => some candidate) = some i) : i < calls.length := by
  obtain ⟨call, hcall, h⟩ := Option.bind_eq_some_iff.mp h
  have hlt : candidate < calls.length := (List.getElem?_eq_some_iff.mp hcall).1
  split at h
  · split at h
    · cases h
    · cases h
      exact hlt
  · cases h
    exact hlt

theorem continuedByIndex_lt {calls : List PartialCall} {index : Option Nat}
    (h : continuedByIndex calls index id = some i) : i < calls.length := by
  unfold continuedByIndex at h
  cases index with
  | some index =>
    obtain ⟨candidate, -, h⟩ := Option.bind_eq_some_iff.mp h
    exact candidate_lt h
  | none =>
    dsimp only at h
    split at h
    · cases h
    · exact candidate_lt h

theorem continued_lt {calls : List PartialCall} {index : Option Nat}
    (h : continued calls index id = some i) : i < calls.length := by
  unfold continued at h
  split at h
  next same hsame =>
    cases h
    obtain ⟨known, -, hpos⟩ := Option.bind_eq_some_iff.mp hsame
    exact rposition_lt hpos
  next => exact continuedByIndex_lt h

theorem landing_lt (calls : List PartialCall) (raw : DeltaToolCall) :
    landing calls raw < (opened calls raw).length := by
  unfold landing opened
  cases hcontinued : continued calls raw.index (nonEmpty raw.id) with
  | some position => exact continued_lt hcontinued
  | none =>
    rw [Option.getD_none, length_append]
    exact Nat.lt_succ_self _

/-- A call with what a fragment brings. -/
def gathered (raw : DeltaToolCall) (call : PartialCall) : PartialCall :=
  { call with
    id := call.id.or (nonEmpty raw.id)
    name := call.name ++ (nameOf raw).getD []
    arguments := call.arguments ++ (argumentsOf raw).getD [] }

/-- The identifier a call is announced under. -/
def labelOf (position : Nat) (call : PartialCall) : Str :=
  call.id.getD (syntheticId (min position u32Max))

/-- A call behind its announcement. -/
def labelled (position : Nat) (call : PartialCall) : PartialCall :=
  if call.started = none ∧ call.name ≠ [] then
    { call with started := some (labelOf position call) }
  else call

def announcement (position : Nat) (call : PartialCall) : List (ChatEvent J) :=
  if call.started = none ∧ call.name ≠ [] then
    [.toolCallStarted (min position u32Max) (labelOf position call) call.name]
  else []

def fragments (raw : DeltaToolCall) (position : Nat) : List (ChatEvent J) :=
  (argumentsOf raw).toList.map fun arguments => .toolCallDelta (min position u32Max) arguments

theorem count_error {charge : GenerationBudget → Except BudgetExceeded GenerationBudget}
    {a : Account (List PartialCall) J} {limit : BudgetExceeded}
    (h : charge a.budget = .error limit) : (count charge : Step J Unit) a = (.error limit, a) := by
  unfold count
  rw [h]

theorem count_ok {charge : GenerationBudget → Except BudgetExceeded GenerationBudget}
    {a : Account (List PartialCall) J} {budget : GenerationBudget}
    (h : charge a.budget = .ok budget) :
    (count charge : Step J Unit) a = (.ok (), { a with budget := budget }) := by
  unfold count
  rw [h]

theorem set_of_getElem? {calls : List PartialCall} {position : Nat} {call : PartialCall}
    (h : calls[position]? = some call) : calls.set position call = calls := by
  obtain ⟨hlt, rfl⟩ := List.getElem?_eq_some_iff.mp h
  exact set_getElem_self hlt

theorem modify_of_getElem? {calls : List PartialCall} {position : Nat} {call : PartialCall}
    (h : calls[position]? = some call) (f : PartialCall → PartialCall) :
    calls.modify position f = calls.set position (f call) := by
  obtain ⟨hlt, rfl⟩ := List.getElem?_eq_some_iff.mp h
  rw [modify_eq_take_cons_drop hlt, set_eq_take_append_cons_drop, if_pos hlt]

/-- A step that makes another call of the one at a position, and says something; a limit
reached, it has said nothing. -/
def Brings (position : Nat) (call next : PartialCall) (es : List (ChatEvent J))
    (p : Step J Unit) : Prop :=
  ∀ a, a.kept[position]? = some call →
    (∃ limit s, p a = (.error limit, s) ∧ s.out = a.out) ∨
    ∃ budget, p a = (.ok (), ⟨a.kept.set position next, budget, a.out ++ es⟩) ∧
      budget.toolCalls = a.budget.toolCalls

section

variable {position : Nat} {call mid next : PartialCall} {es : List (ChatEvent J)}

theorem Brings.skip : Brings position call call [] (Pure.pure () : Step J Unit) := by
  intro a hcall
  refine .inr ⟨a.budget, ?_, rfl⟩
  rw [append_nil, set_of_getElem? hcall]
  rfl

theorem Brings.update {charge : GenerationBudget → Except BudgetExceeded GenerationBudget}
    (h : ∀ b b', charge b = .ok b' → b'.toolCalls = b.toolCalls) (f : PartialCall → PartialCall) :
    Brings position call (f call) [] (do
      let _ ← count charge
      OpenAi.update position f : Step J Unit) := by
  intro a hcall
  cases hcharge : charge a.budget with
  | error limit =>
    exact .inl ⟨limit, a, Scan.bind_error (count_error hcharge), rfl⟩
  | ok budget =>
    refine .inr ⟨budget, (Scan.bind_ok (count_ok hcharge)).trans ?_, h _ _ hcharge⟩
    rw [append_nil, ← modify_of_getElem? hcall]
    rfl

theorem Brings.then {p q : Step J Unit} (hp : Brings position call mid [] p)
    (hq : Brings position mid next es q) : Brings position call next es (p >>= fun _ => q) := by
  intro a hcall
  have hlt : position < a.kept.length := (List.getElem?_eq_some_iff.mp hcall).1
  rcases hp a hcall with ⟨limit, s, hrun, hout⟩ | ⟨budget, hrun, hcalls⟩
  · exact .inl ⟨limit, s, Scan.bind_error hrun, hout⟩
  · rw [append_nil] at hrun
    rcases hq ⟨a.kept.set position mid, budget, a.out⟩ (getElem?_set_self hlt) with
      ⟨limit, s, hrun', hout⟩ | ⟨budget', hrun', hcalls'⟩
    · exact .inl ⟨limit, s, (Scan.bind_ok hrun).trans hrun', hout⟩
    · dsimp only at hrun'
      rw [set_set] at hrun'
      exact .inr ⟨budget', (Scan.bind_ok hrun).trans hrun', hcalls'.trans hcalls⟩

theorem charge_toolCalls {b b' : GenerationBudget} {len : Nat} (h : b.charge len = .ok b') :
    b'.toolCalls = b.toolCalls := by
  unfold GenerationBudget.charge at h
  split at h
  · cases h
  · cases h
    rfl

theorem keepId_brings (id : Option Str) :
    Brings position call { call with id := call.id.or id } []
      (keepId position call id : Step J Unit) := by
  cases id with
  | none =>
    rw [Option.or_none]
    exact .skip
  | some id =>
    unfold keepId
    dsimp only
    split
    next hnone =>
      rw [hnone]
      exact Brings.update (fun _ _ => charge_toolCalls) fun call => { call with id := some id }
    next hsome =>
      obtain ⟨known, hknown⟩ := Option.ne_none_iff_exists'.mp hsome
      have hsame : ({ call with id := call.id.or (some id) } : PartialCall) = call := by
        rw [hknown, Option.some_or, ← hknown]
      rw [hsame]
      exact .skip

theorem keepName_brings (index : Nat) (entry : PartialCall) (name : Option Str) :
    Brings position call { call with name := call.name ++ name.getD [] } []
      (keepName position index entry name : Step J Unit) := by
  cases name with
  | none =>
    rw [Option.getD_none, append_nil]
    exact .skip
  | some name =>
    refine Brings.update (fun b b' h => ?_) fun call => { call with name := call.name ++ name }
    unfold GenerationBudget.chargeToolName at h
    split at h
    · cases h
    · exact charge_toolCalls h

theorem keepArguments_brings (index : Nat) (entry : PartialCall) (arguments : Option Str) :
    Brings position call { call with arguments := call.arguments ++ arguments.getD [] } []
      (keepArguments position index entry arguments : Step J Unit) := by
  cases arguments with
  | none =>
    rw [Option.getD_none, append_nil]
    exact .skip
  | some arguments =>
    refine Brings.update (fun b b' h => ?_)
      fun call => { call with arguments := call.arguments ++ arguments }
    unfold GenerationBudget.chargeToolArguments at h
    split at h
    · cases h
    · exact charge_toolCalls h

theorem say_brings (entry : PartialCall) (raw : DeltaToolCall) :
    Brings position call (labelled position call)
      (announcement position call ++ fragments raw position) (do
        let now ← entryAt position
        let _ ← announce position (min position u32Max) (now.getD entry)
        emitFragment (min position u32Max) (argumentsOf raw) : Step J Unit) := by
  intro a hcall
  refine .inr ⟨a.budget, ?_, rfl⟩
  have hentry : (entryAt position : Step J (Option PartialCall)) a = (.ok (some call), a) := by
    rw [← hcall]
    rfl
  rw [Scan.bind_ok hentry, Option.getD_some]
  have hfragment : ∀ s : Account (List PartialCall) J,
      emitFragment (min position u32Max) (argumentsOf raw) s =
        (.ok (), { s with out := s.out ++ fragments raw position }) := by
    intro s
    unfold fragments
    cases argumentsOf raw with
    | none =>
      rw [Option.toList_none, map_nil, append_nil]
      rfl
    | some arguments => rfl
  unfold announce labelled announcement
  by_cases hnow : call.started = none ∧ call.name ≠ []
  · rw [if_pos hnow, if_pos hnow, if_pos hnow, ← append_assoc, ← modify_of_getElem? hcall
      fun call' => { call' with started := some (labelOf position call) }]
    exact (Scan.bind_ok rfl).trans (hfragment _)
  · rw [if_neg hnow, if_neg hnow, if_neg hnow, nil_append, set_of_getElem? hcall]
    exact (Scan.bind_ok rfl).trans (hfragment a)

end

theorem attach_brings (raw : DeltaToolCall) (position : Nat) (call : PartialCall) :
    Brings position call (labelled position (gathered raw call))
      (announcement position (gathered raw call) ++ fragments raw position)
      (attach raw position call : Step J Unit) :=
  (keepId_brings _).then ((keepName_brings _ _ _).then ((keepArguments_brings _ _ _).then
    (say_brings call raw)))

def Few (a : Account (List PartialCall) J) : Prop :=
  a.kept.length ≤ a.budget.toolCalls ∧ a.budget.toolCalls ≤ maxToolCalls

theorem openToolCall_counts {b b' : GenerationBudget} (h : b.openToolCall = .ok b') :
    b'.toolCalls = b.toolCalls + 1 ∧ b'.toolCalls ≤ maxToolCalls := by
  unfold GenerationBudget.openToolCall at h
  split at h
  · cases h
  next hfew =>
    unfold GenerationBudget.openBlock at h
    split at h
    · cases h
    · cases h
      exact ⟨rfl, Nat.succ_le_of_lt (Nat.lt_of_not_le hfew)⟩

theorem positionOf_opens (raw : DeltaToolCall) {a : Account (List PartialCall) J} (h : Few a) :
    (∃ limit, positionOf raw.index (nonEmpty raw.id) a = (.error limit, a)) ∨
    ∃ budget, positionOf raw.index (nonEmpty raw.id) a =
        (.ok (landing a.kept raw), ⟨opened a.kept raw, budget, a.out⟩) ∧
      Few (⟨opened a.kept raw, budget, a.out⟩ : Account (List PartialCall) J) := by
  have hcurrent : (current : Step J (List PartialCall)) a = (.ok a.kept, a) := rfl
  unfold positionOf
  rw [Scan.bind_ok hcurrent]
  unfold landing opened
  cases continued a.kept raw.index (nonEmpty raw.id) with
  | some position => exact .inr ⟨a.budget, rfl, h⟩
  | none =>
    unfold openCall
    cases hcount : a.budget.openToolCall with
    | error limit => exact .inl ⟨limit, Scan.bind_error (count_error hcount)⟩
    | ok budget =>
      obtain ⟨hone, hfew⟩ := openToolCall_counts hcount
      refine .inr ⟨budget, Scan.bind_ok (count_ok hcount), ?_, hfew⟩
      rw [length_append, hone]
      exact Nat.succ_le_succ h.1

/-- A fragment: a limit reached, nothing is said; otherwise it has made its call grow, and said
what it brings. -/
theorem accumulate_spec (raw : DeltaToolCall) {a : Account (List PartialCall) J} (h : Few a) :
    (∃ limit s, accumulate raw a = (.error limit, s) ∧ s.out = a.out) ∨
    ∃ call budget, (opened a.kept raw)[landing a.kept raw]? = some call ∧
      accumulate raw a = (.ok (), ⟨(opened a.kept raw).set (landing a.kept raw)
          (labelled (landing a.kept raw) (gathered raw call)), budget,
        a.out ++ (announcement (landing a.kept raw) (gathered raw call) ++
          fragments raw (landing a.kept raw))⟩) ∧
      (opened a.kept raw).length ≤ budget.toolCalls ∧ budget.toolCalls ≤ maxToolCalls := by
  unfold accumulate
  rcases positionOf_opens raw h with ⟨limit, hrun⟩ | ⟨budget, hrun, hlen, hfew⟩
  · exact .inl ⟨limit, a, Scan.bind_error hrun, rfl⟩
  · rw [Scan.bind_ok hrun]
    obtain ⟨call, hcall⟩ : ∃ call, (opened a.kept raw)[landing a.kept raw]? = some call :=
      ⟨_, getElem?_eq_getElem (landing_lt a.kept raw)⟩
    have hentry : (entryAt (landing a.kept raw) : Step J (Option PartialCall))
        ⟨opened a.kept raw, budget, a.out⟩ =
          (.ok (some call), ⟨opened a.kept raw, budget, a.out⟩) := by
      rw [← hcall]
      rfl
    rw [Scan.bind_ok hentry]
    rcases attach_brings raw (landing a.kept raw) call ⟨opened a.kept raw, budget, a.out⟩ hcall with
      ⟨limit, s, hattach, hout⟩ | ⟨budget', hattach, hcalls⟩
    · exact .inl ⟨limit, s, hattach, hout⟩
    · refine .inr ⟨call, budget', hcall, hattach, ?_, ?_⟩
      · rw [hcalls]
        exact hlen
      · rw [hcalls]
        exact hfew

/-! ## The calls that are announced -/

/-- The cards of the calls of a list that are announced, the first standing at a position. -/
def live (position : Nat) (calls : List PartialCall) : List (Nat × Str) :=
  (calls.zipIdx position).filterMap fun entry => entry.1.started.map fun id => (entry.2, id)

theorem live_cons (position : Nat) (call : PartialCall) (rest : List PartialCall) :
    live position (call :: rest) =
      (call.started.map fun id => (position, id)).toList ++ live (position + 1) rest := by
  unfold live
  rw [zipIdx_cons, filterMap_cons]
  cases call.started with
  | none => rfl
  | some id => rfl

theorem mem_live {calls : List PartialCall} {card : Nat × Str} :
    card ∈ live 0 calls ↔ ∃ call, calls[card.1]? = some call ∧ call.started = some card.2 := by
  unfold live
  rw [mem_filterMap]
  constructor
  · rintro ⟨⟨call, position⟩, hmem, hcard⟩
    obtain ⟨id, hstarted, rfl⟩ := Option.map_eq_some_iff.mp hcard
    exact ⟨call, mem_zipIdx_iff_getElem?.mp hmem, hstarted⟩
  · rintro ⟨call, hcall, hstarted⟩
    exact ⟨(call, card.1), mem_zipIdx_iff_getElem?.mpr hcall,
      Option.map_eq_some_iff.mpr ⟨card.2, hstarted, rfl⟩⟩

theorem live_append_unannounced (position : Nat) (calls : List PartialCall) {call : PartialCall}
    (h : call.started = none) : live position (calls ++ [call]) = live position calls := by
  unfold live
  rw [zipIdx_append, filterMap_append, zipIdx_singleton, filterMap_cons_none,
    filterMap_nil, append_nil]
  rw [h]
  rfl

theorem live_set_same {calls : List PartialCall} {place : Nat} {call next : PartialCall}
    (hcall : calls[place]? = some call) (h : next.started = call.started) (position : Nat) :
    live position (calls.set place next) = live position calls := by
  induction calls generalizing place position with
  | nil => rfl
  | cons first rest ih =>
    cases place with
    | zero =>
      cases hcall
      rw [set_cons_zero, live_cons, live_cons, h]
    | succ place => rw [set_cons_succ, live_cons, live_cons, ih hcall]

theorem live_set_new {calls : List PartialCall} {place : Nat} {call next : PartialCall} {id : Str}
    (hcall : calls[place]? = some call) (hnone : call.started = none) (h : next.started = some id)
    (position : Nat) :
    (live position (calls.set place next)).Perm
      ((position + place, id) :: live position calls) := by
  induction calls generalizing place position with
  | nil => cases hcall
  | cons first rest ih =>
    cases place with
    | zero =>
      cases hcall
      rw [set_cons_zero, live_cons, live_cons, h, hnone]
      exact List.Perm.refl _
    | succ place =>
      rw [set_cons_succ, live_cons, live_cons]
      refine ((ih hcall (position + 1)).append_left _).trans ?_
      rw [show position + 1 + place = position + (place + 1) by omega]
      exact perm_middle

theorem callEvent_closes (json : Json J) (id name arguments : Str) :
    (callEvent json ioError id name arguments).card = none ∧
      (callEvent json ioError id name arguments).closes = some id := by
  unfold callEvent
  split
  · exact ⟨rfl, rfl⟩
  · split
    · exact ⟨rfl, rfl⟩
    · exact ⟨rfl, rfl⟩

def Named (calls : List PartialCall) : Prop :=
  ∀ call ∈ calls, call.started = none ↔ call.name = []

theorem flushFrom_closes (json : Json J) {calls : List PartialCall} (h : Named calls)
    (position : Nat) :
    cards (flushFrom json position calls) = [] ∧
      closings (flushFrom json position calls) = (live position calls).map Prod.snd := by
  induction calls generalizing position with
  | nil => exact ⟨rfl, rfl⟩
  | cons call rest ih =>
    obtain ⟨hcards, hclosings⟩ :=
      ih (fun call' hmem => h call' (mem_cons_of_mem _ hmem)) (position + 1)
    have hnamed := h call (mem_cons_self ..)
    unfold flushFrom
    rw [cards_append, closings_append, hcards, hclosings, live_cons, append_nil,
      map_append]
    unfold flushCall
    dsimp only
    cases hstarted : call.started with
    | none =>
      rw [if_pos (hnamed.mp hstarted)]
      exact ⟨rfl, rfl⟩
    | some id =>
      have hname : call.name ≠ [] := fun hempty => by
        rw [hnamed.mpr hempty] at hstarted
        cases hstarted
      obtain ⟨hcard, hcloses⟩ := callEvent_closes json id call.name call.arguments
      rw [if_neg hname]
      unfold cards closings
      rw [filterMap_cons_none hcard, filterMap_cons_some hcloses]
      exact ⟨rfl, rfl⟩

/-! ## The invariant -/

/-- Of the calls gathered and what was said so far, those announced are those that were closed and
those that stand in the list. -/
structure Carded (calls : List PartialCall) (es : List (ChatEvent J)) : Prop where
  known : ∃ closed, (cards es).Perm (closed ++ live 0 calls) ∧ closed.map Prod.snd = closings es
  positions : ((cards es).map Prod.fst).Nodup
  ids : ((cards es).map Prod.snd).Nodup
  announced : Announced es
  named : Named calls
  few : calls.length ≤ maxToolCalls
  label : ∀ (position : Nat) (call : PartialCall) (id : Str), calls[position]? = some call →
    call.started = some id → id = syntheticId position ∨ call.id = some id
  apart : ∀ (p q : Nat) (call other : PartialCall) (id : Str), calls[p]? = some call →
    calls[q]? = some other → call.id = some id → other.id = some id → p = q

theorem Carded.nil : Carded [] ([] : List (ChatEvent J)) where
  known := ⟨[], .refl _, rfl⟩
  positions := nodup_nil
  ids := nodup_nil
  announced := .nil
  named := nofun
  few := Nat.zero_le _
  label := nofun
  apart := nofun

section

variable {calls : List PartialCall} {es : List (ChatEvent J)}

theorem Carded.told (h : Carded calls es) : Told es := by
  obtain ⟨closed, hperm, hclosed⟩ := h.known
  refine told_of_announced h.positions h.ids ?_ h.announced
  have hids := (hperm.map Prod.snd).nodup_iff.mp h.ids
  rw [map_append, hclosed] at hids
  exact hids.of_append_left

theorem Carded.plain {es' : List (ChatEvent J)} (h : Carded calls es) (h' : Plain es') :
    Carded calls (es ++ es') := by
  have hcards : cards (es ++ es') = cards es := by
    rw [cards_append, h'.cards, append_nil]
  have hclosings : closings (es ++ es') = closings es := by
    rw [closings_append, h'.closings, append_nil]
  refine { h with known := ?_, positions := ?_, ids := ?_, announced := ?_ }
  · rw [hcards, hclosings]
    exact h.known
  · rw [hcards]
    exact h.positions
  · rw [hcards]
    exact h.ids
  · refine h.announced.append fun e he id hid => ?_
    rw [(h' e he).2] at hid
    cases hid

/-- An end announcement closes the calls of the list. -/
theorem Carded.flush (json : Json J) (h : Carded calls es) :
    Carded [] (es ++ flushFrom json 0 calls) := by
  obtain ⟨closed, hperm, hclosed⟩ := h.known
  obtain ⟨hnone, hclosings⟩ := flushFrom_closes json h.named 0
  have hcards : cards (es ++ flushFrom json 0 calls) = cards es := by
    rw [cards_append, hnone, append_nil]
  refine { Carded.nil (J := J) with known := ?_, positions := ?_, ids := ?_, announced := ?_ }
  · refine ⟨closed ++ live 0 calls, ?_, ?_⟩
    · rw [hcards]
      exact hperm.trans (.of_eq (append_nil _).symm)
    · rw [closings_append, hclosings, map_append, hclosed]
  · rw [hcards]
    exact h.positions
  · rw [hcards]
    exact h.ids
  · refine h.announced.append fun e he id hid => ?_
    have hmem : id ∈ closings (flushFrom json 0 calls) := mem_filterMap.mpr ⟨e, he, hid⟩
    rw [hclosings] at hmem
    refine (hperm.map Prod.snd).mem_iff.mpr ?_
    rw [map_append]
    exact mem_append_right _ hmem

/-! ## A fragment keeps it -/

variable {raw : DeltaToolCall}

theorem getElem?_opened {position : Nat} {call : PartialCall}
    (h : (opened calls raw)[position]? = some call) :
    calls[position]? = some call ∨
      call = ⟨raw.index, none, [], [], none⟩ ∧ position = calls.length := by
  unfold opened at h
  split at h
  · exact .inl h
  · rcases Nat.lt_or_ge position calls.length with hlt | hge
    · rw [getElem?_append_left hlt] at h
      exact .inl h
    · rw [getElem?_append_right hge] at h
      obtain ⟨hzero, hcall⟩ := List.getElem?_eq_some_iff.mp h
      have hposition : position - calls.length = 0 := Nat.lt_one_iff.mp hzero
      refine .inr ⟨?_, by omega⟩
      rw [← hcall]
      simp only [hposition, getElem_cons_zero]

theorem getElem?_of_opened {position : Nat} {call : PartialCall}
    (h : (opened calls raw)[position]? = some call) (hold : call.started ≠ none ∨ call.id ≠ none) :
    calls[position]? = some call := by
  rcases getElem?_opened h with hsame | ⟨rfl, -⟩
  · exact hsame
  · rcases hold with hold | hold
    · exact absurd rfl hold
    · exact absurd rfl hold

theorem Carded.opened (h : Carded calls es) (raw : DeltaToolCall)
    (hfew : (opened calls raw).length ≤ maxToolCalls) : Carded (OpenAi.opened calls raw) es := by
  have hlive : live 0 (OpenAi.opened calls raw) = live 0 calls := by
    unfold OpenAi.opened
    split
    · rfl
    · exact live_append_unannounced 0 calls rfl
  refine { h with known := ?_, named := ?_, few := hfew, label := ?_, apart := ?_ }
  · rw [hlive]
    exact h.known
  · intro call hmem
    obtain ⟨position, hcall⟩ := mem_iff_getElem?.mp hmem
    rcases getElem?_opened hcall with hsame | ⟨rfl, -⟩
    · exact h.named call (mem_of_getElem? hsame)
    · exact iff_of_true rfl rfl
  · intro position call id hcall hstarted
    refine h.label position call id (getElem?_of_opened hcall (.inl ?_)) hstarted
    rw [hstarted]
    exact Option.some_ne_none id
  · intro p q call other id hcall hother hid hsame
    refine h.apart p q call other id (getElem?_of_opened hcall (.inr ?_))
      (getElem?_of_opened hother (.inr ?_)) hid hsame
    · rw [hid]
      exact Option.some_ne_none id
    · rw [hsame]
      exact Option.some_ne_none id

variable (calls) in
/-- A fragment with an identifier goes on the call that has it, if there is one. -/
theorem landing_of_id {new : Str} (h : nonEmpty raw.id = some new) :
    (∃ call, (OpenAi.opened calls raw)[landing calls raw]? = some call ∧ call.id = some new) ∨
      ∀ call ∈ calls, call.id ≠ some new := by
  unfold landing OpenAi.opened
  unfold continued
  rw [h, Option.bind_some]
  cases hposition : rposition (fun call => call.id == some new) calls with
  | some same =>
    refine .inl ?_
    obtain ⟨i, hi, rfl⟩ := Option.map_eq_some_iff.mp hposition
    obtain ⟨hlt, hid, -⟩ := findIdx?_eq_some_iff_getElem.mp hi
    rw [getElem_reverse] at hid
    rw [length_reverse] at hlt
    have hin : calls.length - 1 - i < calls.length := by omega
    exact ⟨calls[calls.length - 1 - i], getElem?_eq_getElem hin, beq_iff_eq.mp hid⟩
  | none =>
    refine .inr fun call hmem hid => ?_
    have hnone := findIdx?_eq_none_iff.mp (Option.map_eq_none_iff.mp hposition) call
      (mem_reverse.mpr hmem)
    rw [hid, beq_self_eq_true] at hnone
    cases hnone

/-- The identifier a fragment brings is that of no other call. -/
theorem Carded.apart_grown (h : Carded calls es) {call : PartialCall}
    (hcall : (OpenAi.opened calls raw)[landing calls raw]? = some call) {q : Nat}
    {other : PartialCall} {id : Str} (hother : (OpenAi.opened calls raw)[q]? = some other)
    (hid : call.id.or (nonEmpty raw.id) = some id) (hsame : other.id = some id) :
    q = landing calls raw := by
  have hin : calls[q]? = some other :=
    getElem?_of_opened hother (.inr (by rw [hsame]; exact Option.some_ne_none id))
  rcases Option.or_eq_some_iff.mp hid with hknown | ⟨hnone, hnew⟩
  · exact h.apart q (landing calls raw) other call id hin
      (getElem?_of_opened hcall (.inr (by rw [hknown]; exact Option.some_ne_none id))) hsame hknown
  · rcases landing_of_id calls hnew with ⟨call', hcall', hid'⟩ | habsent
    · rw [hcall] at hcall'
      cases hcall'
      rw [hnone] at hid'
      cases hid'
    · exact absurd hsame (habsent other (mem_of_getElem? hin))

theorem Carded.apart_set (h : Carded calls es) {call next : PartialCall}
    (hcall : (OpenAi.opened calls raw)[landing calls raw]? = some call)
    (hfew : (OpenAi.opened calls raw).length ≤ maxToolCalls)
    (hnext : next.id = call.id.or (nonEmpty raw.id)) (p q : Nat) (c c' : PartialCall) (id : Str)
    (hc : ((OpenAi.opened calls raw).set (landing calls raw) next)[p]? = some c)
    (hc' : ((OpenAi.opened calls raw).set (landing calls raw) next)[q]? = some c')
    (hid : c.id = some id) (hid' : c'.id = some id) : p = q := by
  have hlt := landing_lt calls raw
  rcases eq_or_ne p (landing calls raw) with hp | hp
  · rcases eq_or_ne q (landing calls raw) with hq | hq
    · exact hp.trans hq.symm
    · rw [hp, getElem?_set_self hlt] at hc
      rw [getElem?_set_ne hq.symm] at hc'
      cases hc
      exact hp.trans (h.apart_grown hcall hc' (hnext.symm.trans hid) hid').symm
  · rw [getElem?_set_ne hp.symm] at hc
    rcases eq_or_ne q (landing calls raw) with hq | hq
    · rw [hq, getElem?_set_self hlt] at hc'
      cases hc'
      exact (h.apart_grown hcall hc (hnext.symm.trans hid') hid).trans hq.symm
    · rw [getElem?_set_ne hq.symm] at hc'
      exact (h.opened raw hfew).apart p q c c' id hc hc' hid hid'

/-- The calls behind a fragment are named and labelled, if its own call is. -/
theorem Carded.set (h : Carded calls es) {call next : PartialCall} {es' : List (ChatEvent J)}
    (hcall : (OpenAi.opened calls raw)[landing calls raw]? = some call)
    (hfew : (OpenAi.opened calls raw).length ≤ maxToolCalls)
    (hnext : next.id = call.id.or (nonEmpty raw.id)) (hnamed : next.started = none ↔ next.name = [])
    (hlabel : ∀ id, next.started = some id →
      id = syntheticId (landing calls raw) ∨ next.id = some id)
    (hknown : ∃ closed, (cards (es ++ es')).Perm (closed ++
        live 0 ((OpenAi.opened calls raw).set (landing calls raw) next)) ∧
      closed.map Prod.snd = closings (es ++ es'))
    (hpositions : ((cards (es ++ es')).map Prod.fst).Nodup)
    (hids : ((cards (es ++ es')).map Prod.snd).Nodup) (hquiet : ∀ e ∈ es', e.closes = none) :
    Carded ((OpenAi.opened calls raw).set (landing calls raw) next) (es ++ es') := by
  have hopened := h.opened raw hfew
  refine ⟨hknown, hpositions, hids, ?_, ?_, ?_, ?_, h.apart_set hcall hfew hnext⟩
  · refine h.announced.append fun e he id hid => ?_
    rw [hquiet e he] at hid
    cases hid
  · intro c hmem
    rcases mem_or_eq_of_mem_set hmem with hmem | rfl
    · exact hopened.named c hmem
    · exact hnamed
  · rw [length_set]
    exact hfew
  · intro position c id hc hstarted
    rcases eq_or_ne position (landing calls raw) with rfl | hne
    · rw [getElem?_set_self (landing_lt calls raw)] at hc
      cases hc
      exact hlabel id hstarted
    · rw [getElem?_set_ne hne.symm] at hc
      exact hopened.label position c id hc hstarted

theorem labelOf_of_few {position : Nat} (h : position < maxToolCalls) (call : PartialCall) :
    labelOf position call = call.id.getD (syntheticId position) := by
  unfold labelOf
  rw [Nat.min_eq_left (h.le.trans (by decide))]

theorem fragments_plain (raw : DeltaToolCall) (position : Nat) :
    Plain (fragments raw position : List (ChatEvent J)) := by
  intro e he
  obtain ⟨arguments, -, rfl⟩ := mem_map.mp he
  exact ⟨rfl, rfl⟩

theorem nodup_snoc {α : Type} {l : List α} {x : α} (h : l.Nodup) (hx : x ∉ l) :
    (l ++ [x]).Nodup :=
  concat_eq_append ▸ h.concat hx

theorem Carded.label_fresh (h : Carded calls es) {call : PartialCall}
    (hcall : (OpenAi.opened calls raw)[landing calls raw]? = some call)
    (hfresh : Fresh es calls raw) (hnone : call.started = none)
    (hname : call.name ++ (nameOf raw).getD [] ≠ []) :
    landing calls raw ∉ (cards es).map Prod.fst ∧
      (call.id.or (nonEmpty raw.id)).getD (syntheticId (landing calls raw)) ∉
        (cards es).map Prod.snd := by
  have hsays : OpenAi.announced calls raw =
      some (landing calls raw, call.id.or (nonEmpty raw.id)) := by
    unfold OpenAi.announced
    rw [hcall]
    exact if_pos ⟨hnone, hname⟩
  obtain ⟨hclosed, hlive⟩ := hfresh _ _ hsays
  obtain ⟨closed, hperm, hsame⟩ := h.known
  -- a card is that of a call closed before, or of one that stands in the list
  have hcases : ∀ card ∈ cards es, card ∈ closedCards es ∨
      ∃ other, calls[card.1]? = some other ∧ other.started = some card.2 := by
    intro card hcard
    rcases mem_append.mp (hperm.mem_iff.mp hcard) with hmem | hmem
    · refine .inl (mem_filter.mpr ⟨hcard, ?_⟩)
      rw [← hsame]
      exact contains_iff_mem.mpr (mem_map_of_mem hmem)
    · exact .inr (mem_live.mp hmem)
  constructor
  · intro hmem
    obtain ⟨card, hcard, hat⟩ := mem_map.mp hmem
    rcases hcases card hcard with hmem | ⟨other, hother, hstarted⟩
    · exact (hclosed card hmem).1 hat
    · rw [hat] at hother
      rcases getElem?_opened hcall with hsame' | ⟨-, hend⟩
      · rw [hother] at hsame'
        cases hsame'
        rw [hnone] at hstarted
        cases hstarted
      · rw [hend, getElem?_eq_none (Nat.le_refl _)] at hother
        cases hother
  · intro hmem
    obtain ⟨card, hcard, hid⟩ := mem_map.mp hmem
    rcases hcases card hcard with hmem | ⟨other, hother, hstarted⟩
    · exact (hclosed card hmem).2 hid
    · rw [hid] at hstarted
      obtain ⟨hgiven, hmade⟩ := hlive card.1 other hother hstarted
      obtain ⟨id, hsome⟩ := Option.ne_none_iff_exists'.mp hgiven
      rw [hsome, Option.getD_some] at hstarted
      rcases h.label card.1 other id hother hstarted with rfl | hknown
      · exact hmade hsome
      · -- the call of that identifier is the one the fragment goes on
        have hin : (OpenAi.opened calls raw)[card.1]? = some other := by
          unfold OpenAi.opened
          split
          · exact hother
          · rw [getElem?_append_left (List.getElem?_eq_some_iff.mp hother).1]
            exact hother
        have hplace := h.apart_grown hcall hin hsome hknown
        rw [hplace, hcall] at hin
        cases hin
        rw [hnone] at hstarted
        cases hstarted

theorem Carded.grow (h : Carded calls es) {call : PartialCall}
    (hcall : (OpenAi.opened calls raw)[landing calls raw]? = some call)
    (hfew : (OpenAi.opened calls raw).length ≤ maxToolCalls) (hfresh : Fresh es calls raw) :
    Carded ((OpenAi.opened calls raw).set (landing calls raw)
        (labelled (landing calls raw) (gathered raw call)))
      (es ++ announcement (landing calls raw) (gathered raw call)) := by
  obtain ⟨closed, hperm, hsame⟩ := (h.opened raw hfew).known
  have hlanding : landing calls raw < maxToolCalls := (landing_lt calls raw).trans_le hfew
  have hmem : call ∈ OpenAi.opened calls raw := mem_of_getElem? hcall
  unfold announcement labelled
  by_cases hnow : (gathered raw call).started = none ∧ (gathered raw call).name ≠ []
  · rw [if_pos hnow, if_pos hnow, Nat.min_eq_left (hlanding.le.trans (by decide))]
    obtain ⟨hposition, hid⟩ := h.label_fresh hcall hfresh hnow.1 hnow.2
    have hlabel : labelOf (landing calls raw) (gathered raw call) =
        (call.id.or (nonEmpty raw.id)).getD (syntheticId (landing calls raw)) :=
      labelOf_of_few hlanding _
    have hcards : ∀ name : Str, cards (es ++ [.toolCallStarted (landing calls raw)
        (labelOf (landing calls raw) (gathered raw call)) name]) =
          cards es ++ [(landing calls raw, labelOf (landing calls raw) (gathered raw call))] :=
      fun name => cards_append _ _
    refine h.set hcall hfew rfl (iff_of_false (Option.some_ne_none _) hnow.2) ?_ ⟨closed, ?_, ?_⟩
      ?_ ?_ ?_
    · rintro id ⟨⟩
      rw [hlabel]
      cases hgiven : call.id.or (nonEmpty raw.id) with
      | none => exact .inl rfl
      | some given => exact .inr hgiven
    · rw [hcards]
      refine (hperm.append_right _).trans ?_
      rw [append_assoc]
      refine List.Perm.append_left closed ((perm_append_singleton _ _).trans ?_)
      refine List.Perm.trans ?_ (live_set_new hcall hnow.1 rfl 0).symm
      rw [Nat.zero_add]
    · rw [closings_append, hsame]
      exact (append_nil _).symm
    · rw [hcards, map_append]
      exact nodup_snoc h.positions hposition
    · rw [hcards, map_append, hlabel]
      exact nodup_snoc h.ids hid
    · intro e he
      cases mem_singleton.mp he
      rfl
  · rw [if_neg hnow, if_neg hnow]
    have hnamed := (h.opened raw hfew).named call hmem
    refine h.set hcall hfew rfl ?_ ?_ ⟨closed, ?_, ?_⟩ ?_ ?_ nofun
    · constructor
      · intro hnone
        exact not_not.mp fun hname => hnow ⟨hnone, hname⟩
      · intro hempty
        exact hnamed.mpr (append_eq_nil_iff.mp hempty).1
    · intro id hstarted
      rcases (h.opened raw hfew).label _ call id hcall hstarted with hmade | hknown
      · exact .inl hmade
      · refine .inr ?_
        unfold gathered
        rw [hknown, Option.some_or]
    · have hlive : live 0 ((OpenAi.opened calls raw).set (landing calls raw) (gathered raw call)) =
          live 0 (OpenAi.opened calls raw) :=
        live_set_same hcall (show (gathered raw call).started = call.started from rfl) 0
      rw [append_nil, hlive]
      exact hperm
    · rw [append_nil]
      exact hsame
    · rw [append_nil]
      exact h.positions
    · rw [append_nil]
      exact h.ids

end

/-! ## A frame keeps it -/

/-- What is known while the frames are read, behind those of the past. -/
def Kept (past : List (ChatEvent J)) (a : Account (List PartialCall) J) : Prop :=
  Few a ∧ Carded a.kept (past ++ a.out)

def Leads (past : List (ChatEvent J)) (p : Step J Unit) (a : Account (List PartialCall) J) :
    Prop :=
  (∃ limit s, p a = (.error limit, s) ∧ Told (past ++ s.out)) ∨
    ∃ mid, p a = (.ok (), mid) ∧ Kept past mid

section

variable {past : List (ChatEvent J)} {a : Account (List PartialCall) J}

theorem Leads.then {p q : Step J Unit} (hp : Leads past p a)
    (hq : ∀ mid, p a = (.ok (), mid) → Kept past mid → Leads past q mid) :
    Leads past (p >>= fun _ => q) a := by
  rcases hp with ⟨limit, s, hrun, htold⟩ | ⟨mid, hrun, hkept⟩
  · exact .inl ⟨limit, s, Scan.bind_error hrun, htold⟩
  · rcases hq mid hrun hkept with ⟨limit, s, hrun', htold⟩ | ⟨mid', hrun', hkept'⟩
    · exact .inl ⟨limit, s, (Scan.bind_ok hrun).trans hrun', htold⟩
    · exact .inr ⟨mid', (Scan.bind_ok hrun).trans hrun', hkept'⟩

theorem Kept.plain {budget : GenerationBudget} {es : List (ChatEvent J)} (h : Kept past a)
    (hbudget : budget.toolCalls = a.budget.toolCalls) (hes : Plain es) :
    Kept past ⟨a.kept, budget, a.out ++ es⟩ := by
  refine ⟨?_, ?_⟩
  · unfold Few
    rw [hbudget]
    exact h.1
  · rw [← append_assoc]
    exact h.2.plain hes

theorem accumulate_leads (h : Kept past a) {raw : DeltaToolCall}
    (hfresh : Fresh (past ++ a.out) a.kept raw) : Leads past (accumulate raw) a := by
  rcases accumulate_spec raw h.1 with
    ⟨limit, s, hrun, hout⟩ | ⟨call, budget, hcall, hrun, hlen, hfew⟩
  · refine .inl ⟨limit, s, hrun, ?_⟩
    rw [hout]
    exact h.2.told
  · refine .inr ⟨_, hrun, ⟨?_, hfew⟩, ?_⟩
    · rw [length_set]
      exact hlen
    · have hgrown := (h.2.grow hcall (hlen.trans hfew) hfresh).plain
        (fragments_plain raw (landing a.kept raw))
      rw [append_assoc, append_assoc] at hgrown
      exact hgrown

theorem accumulateAll_leads (raws : List DeltaToolCall) (h : Kept past a)
    (hfresh : FreshAll past raws a) : Leads past (accumulateAll raws) a := by
  induction raws generalizing a with
  | nil => exact .inr ⟨a, rfl, h⟩
  | cons raw rest ih =>
    exact (accumulate_leads h hfresh.1).then fun mid hrun hkept => ih hkept (hfresh.2 mid hrun)

theorem emitText_leads (h : Kept past a) {event : Str → ChatEvent J}
    (hevent : ∀ text, (event text).card = none ∧ (event text).closes = none) (text : Option Str) :
    Leads past (emitText event text) a := by
  cases text with
  | none => exact .inr ⟨a, rfl, h⟩
  | some text =>
    have hplain : Plain [event text] := by
      intro e he
      cases mem_singleton.mp he
      exact hevent text
    unfold emitText
    cases hcharge : a.budget.charge (byteLen text) with
    | error limit =>
      exact .inl ⟨limit, a, Scan.bind_error (count_error hcharge), h.2.told⟩
    | ok budget =>
      exact .inr ⟨_, Scan.bind_ok (count_ok hcharge),
        h.plain (charge_toolCalls hcharge) hplain⟩

theorem onDelta_leads (h : Kept past a) {delta : Delta} (hfresh : FreshDelta past delta a) :
    Leads past (onDelta delta) a :=
  (emitText_leads h (fun _ => ⟨rfl, rfl⟩) _).then fun mid hrun hmid =>
    (emitText_leads hmid (fun _ => ⟨rfl, rfl⟩) _).then fun mid' hrun' hmid' =>
      accumulateAll_leads _ hmid' (hfresh mid mid' hrun hrun')

end

theorem emitDone_plain (d : ChunkDecoder) (out : List (ChatEvent J)) :
    (emitDone d out).1.done = true ∧ ∃ es, Plain es ∧ (emitDone d out).2 = out ++ es := by
  unfold emitDone
  split
  next hdone => exact ⟨hdone, [], nofun, (append_nil out).symm⟩
  next =>
    refine ⟨rfl, _, ?_, rfl⟩
    intro e he
    cases mem_singleton.mp he
    exact ⟨rfl, rfl⟩

theorem plain_error (message : String) : Plain [(.error message : ChatEvent J)] := by
  intro e he
  cases mem_singleton.mp he
  exact ⟨rfl, rfl⟩

theorem discardFrom_plain (position : Nat) (calls : List PartialCall) :
    Plain (discardFrom position calls : List (ChatEvent J)) := by
  induction calls generalizing position with
  | nil => nofun
  | cons call rest ih =>
    unfold discardFrom
    split
    · exact (plain_error _).append (ih _)
    · exact ih _

theorem dropAndEnd_plain (d : ChunkDecoder) (out : List (ChatEvent J)) (reason : StopReason) :
    (dropAndEnd d out reason).1.done = true ∧
      ∃ es, Plain es ∧ (dropAndEnd d out reason).2 = out ++ es := by
  unfold dropAndEnd
  obtain ⟨hdone, es, hes, hout⟩ := emitDone_plain
    { d with calls := [], stop := some reason } (out ++ discardFrom 0 d.calls)
  refine ⟨hdone, discardFrom 0 d.calls ++ es, (discardFrom_plain 0 d.calls).append hes, ?_⟩
  rw [hout, append_assoc]

/-- What a decoder knows between two frames. -/
def Between (past : List (ChatEvent J)) (d : ChunkDecoder) : Prop :=
  Told past ∧ (d.done = false → Kept past ⟨d.calls, d.budget, []⟩)

section

variable {past : List (ChatEvent J)} {d : ChunkDecoder}

variable {out : List (ChatEvent J)}

theorem Between.of_kept (h : Kept past ⟨d.calls, d.budget, out⟩) : Between (past ++ out) d := by
  refine ⟨h.2.told, fun _ => ⟨h.1, ?_⟩⟩
  rw [append_nil]
  exact h.2

theorem Between.of_done {d' : ChunkDecoder} {out es : List (ChatEvent J)}
    (hdone : d'.done = true) (h : Told (past ++ out)) (hes : Plain es) :
    Between (past ++ (out ++ es)) d' := by
  rw [← append_assoc]
  exact ⟨h.plain hes, fun hopen => nomatch hdone.symm.trans hopen⟩

theorem onFinish_kept (json : Json J) {reason : Option Str}
    (h : Kept past ⟨d.calls, d.budget, out⟩) :
    Kept past ⟨(onFinish json d out reason).1.calls, (onFinish json d out reason).1.budget,
      (onFinish json d out reason).2⟩ := by
  cases reason with
  | none => exact h
  | some reason =>
    refine ⟨⟨Nat.zero_le _, h.1.2⟩, ?_⟩
    show Carded [] (past ++ (out ++ flushFrom json 0 d.calls))
    rw [← append_assoc]
    exact h.2.flush json

theorem onChoices_between (json : Json J) (choices : List ChunkChoice)
    (h : Kept past ⟨d.calls, d.budget, out⟩) (hfresh : FreshChoices json past d out choices) :
    Between (past ++ (onChoices json d out choices).2) (onChoices json d out choices).1 := by
  induction choices generalizing d out with
  | nil => exact .of_kept h
  | cons choice rest ih =>
    unfold onChoices
    rcases onDelta_leads h hfresh.1 with ⟨limit, s, hrun, htold⟩ | ⟨mid, hrun, hkept⟩
    · rw [hrun]
      dsimp only
      unfold exceed
      obtain ⟨hdone, es, hes, hout⟩ := dropAndEnd_plain
        { d with calls := s.kept, budget := s.budget } (s.out ++ [.error limit.text]) .interrupted
      rw [hout, append_assoc]
      exact .of_done hdone htold ((plain_error _).append hes)
    · rw [hrun]
      exact ih (onFinish_kept json hkept) (hfresh.2 mid hrun)

theorem plain_usage (usage : Option WireUsage) :
    Plain (usage.map usageEvent : Option (ChatEvent J)).toList := by
  intro e he
  obtain ⟨usage, -, rfl⟩ := Option.map_eq_some_iff.mp (Option.mem_toList.mp he)
  exact ⟨rfl, rfl⟩

theorem onData_between (wire : Wire J) {f : SseFrame} (h : d.done = false)
    (hbetween : Between past d) (hfresh : FreshFrame wire past d f) :
    Between (past ++ (onData wire d f.data).2) (onData wire d f.data).1 := by
  have hkept := hbetween.2 h
  have hsame : ∀ {es : List (ChatEvent J)}, Plain es → Kept past ⟨d.calls, d.budget, es⟩ :=
    fun hes => hkept.plain rfl hes
  have htold : Told (past ++ []) := (append_nil past).symm ▸ hbetween.1
  unfold onData
  rw [if_neg (by rw [h]; nofun)]
  split
  next => exact .of_kept hkept
  next hempty =>
    split
    next hsentinel =>
      obtain ⟨hdone, es, hes, hout⟩ :=
        emitDone_plain { d with calls := [] } (flushFrom wire.json 0 d.calls)
      rw [hout]
      refine .of_done hdone ?_ hes
      have hflush := (hkept.2.flush wire.json).told
      rwa [append_nil] at hflush
    next hsentinel =>
      split
      next chunk hok =>
        have hchunk : chunkOf wire f = some chunk := by
          refine (if_neg fun hor => hor.elim hempty fun hs => hsentinel (beq_iff_eq.mp hs)).trans ?_
          rw [hok]
          rfl
        unfold onChunk
        cases herror : chunk.error with
        | some error =>
          obtain ⟨hdone, es, hes, hout⟩ :=
            dropAndEnd_plain d [.error error.describe] .providerError
          dsimp only
          rw [hout]
          exact .of_done hdone (hbetween.1.plain (plain_error _)) hes
        | none =>
          exact onChoices_between wire.json chunk.choices (hsame (plain_usage chunk.usage))
            (hfresh chunk hchunk herror)
      next e herror =>
        split
        · obtain ⟨hdone, es, hes, hout⟩ := emitDone_plain
            { d with errors := d.errors + 1, stop := some .interrupted }
            [unreadableFrame (J := J) ioError e]
          rw [hout]
          exact .of_done hdone (hbetween.1.plain (plain_error _)) hes
        · exact .of_kept (hsame (plain_error _))

theorem reads_between (wire : Wire J) {turns : List (SseFrame × List (ChatEvent J))}
    {d' : ChunkDecoder} (hread : Reads (decoder wire) d turns d') (h : Between past d)
    (hfresh : FreshRun wire past d (turns.map Prod.fst)) :
    Between (past ++ turns.flatMap Prod.snd) d' := by
  induction hread generalizing past with
  | nil d =>
    rw [flatMap_nil, append_nil]
    exact h
  | cons f hopen hrest ih =>
    rw [flatMap_cons, ← append_assoc]
    exact ih (onData_between wire hopen h hfresh.1) hfresh.2

end

theorem over_plain (wire : Wire J) {d : ChunkDecoder} {tail : List (ChatEvent J)}
    (h : Over (decoder wire) d tail) : Plain tail := by
  have hdone : ∀ {es : List (ChatEvent J)} (d' : ChunkDecoder), Plain es →
      Plain (emitDone d' es).2 := by
    intro es d' hes
    obtain ⟨-, more, hmore, hout⟩ := emitDone_plain d' es
    rw [hout]
    exact hes.append hmore
  cases h with
  | itself => exact nofun
  | closed =>
    show Plain (finish d).2
    unfold finish
    split
    · exact nofun
    · split
      · exact hdone _ (discardFrom_plain 0 d.calls)
      · exact hdone _ ((plain_error _).append (discardFrom_plain 0 d.calls))
  | cancelled => exact hdone _ nofun
  | broke detail =>
    show Plain (transportError d detail).2
    unfold transportError
    split
    · exact nofun
    · exact hdone _ (plain_error detail)

/-- As long as the fragments are fresh, no two calls of a generation share a card or an
identifier, and each call that is closed was announced once before; whatever ends the stream. -/
theorem told_of_reads (wire : Wire J) {turns : List (SseFrame × List (ChatEvent J))}
    {d : ChunkDecoder} (hread : Reads (decoder wire) .new turns d)
    (hfresh : FreshRun wire [] .new (turns.map Prod.fst)) :
    Told (turns.flatMap Prod.snd) ∧
      ∀ tail, Over (decoder wire) d tail → Told (turns.flatMap Prod.snd ++ tail) := by
  have hnew : Between ([] : List (ChatEvent J)) ChunkDecoder.new :=
    ⟨Carded.nil.told, fun _ => ⟨⟨Nat.le_refl _, Nat.zero_le _⟩, Carded.nil⟩⟩
  have htold := (reads_between wire hread hnew hfresh).1
  exact ⟨htold, fun tail hover => htold.plain (over_plain wire hover)⟩

end

/-! ### A gateway that goes on behind an end announcement -/

/-- A frame in which a call without identifier is opened and closed. -/
def toolFrame : SseFrame where
  event := none
  data := ("\x7b\"choices\":[\x7b\"delta\":\x7b\"tool_calls\":[\x7b\"function\":\x7b" ++
    "\"name\":\"f\"\x7d\x7d]\x7d,\"finish_reason\":\"tool_calls\"\x7d]\x7d").toList

def toolCall : DeltaToolCall := ⟨none, none, some ⟨some "f".toList, none⟩⟩

def toolDelta : Delta := ⟨none, none, [toolCall]⟩

def toolChunk : ChatChunk := ⟨[⟨toolDelta, some "tool_calls".toList⟩], none, none⟩

def toolWire : Wire Unit where
  json := ⟨fun _ => .ok (), ()⟩
  chunk data := if data = toolFrame.data then .ok toolChunk else .error ⟨.invalid, 1, 1⟩

def toolDecoder : ChunkDecoder := (onData toolWire .new toolFrame.data).1

theorem toolFrame_data : trim toolFrame.data = toolFrame.data ∧ toolFrame.data.isEmpty = false ∧
    toolFrame.data ≠ doneSentinel := by
  rw [show toolFrame.data = _ from toList_append_of_eq rfl rfl]
  exact ⟨by decide, rfl, by decide⟩

/-- A second call beside the first, which has an identifier. -/
def secondCall : DeltaToolCall := ⟨some 1, some "b".toList, some ⟨some "g".toList, none⟩⟩

def bothChunk : ChatChunk :=
  ⟨[⟨⟨none, none, [toolCall, secondCall]⟩, some "tool_calls".toList⟩], none, none⟩

/-- A frame in which both are opened and closed. -/
def bothWire : Wire Unit := { toolWire with chunk := fun _ => .ok bothChunk }

theorem chunk_toolFrame : toolWire.chunk toolFrame.data = .ok toolChunk := by
  unfold toolWire
  dsimp only
  rw [if_pos rfl]

theorem chunkOf_toolFrame (wire : Wire Unit) :
    chunkOf wire toolFrame = (wire.chunk toolFrame.data).toOption := by
  obtain ⟨htrim, hblank, hsentinel⟩ := toolFrame_data
  unfold chunkOf isSentinel
  rw [htrim, if_neg]
  rw [hblank]
  rintro (h | h)
  · exact Bool.false_ne_true h
  · exact hsentinel (eq_of_beq h)

theorem onData_toolFrame {wire : Wire Unit} {chunk : ChatChunk} {d : ChunkDecoder}
    (hd : d.done = false) (hchunk : wire.chunk toolFrame.data = .ok chunk) :
    onData wire d toolFrame.data = onChunk wire.json d chunk := by
  obtain ⟨htrim, hblank, hsentinel⟩ := toolFrame_data
  unfold onData
  rw [htrim, hd, hblank, if_neg Bool.false_ne_true, if_neg Bool.false_ne_true,
    if_neg hsentinel, hchunk]

theorem reads_toolFrame {wire : Wire Unit} {chunk : ChatChunk} {d d' : ChunkDecoder}
    {out : List (ChatEvent Unit)} (hd : d.done = false)
    (hchunk : wire.chunk toolFrame.data = .ok chunk)
    (hturn : onChunk wire.json d chunk = (d', out)) :
    Reads (decoder wire) d [(toolFrame, out)] d' := by
  have hframe : (decoder wire).onFrame d toolFrame = (d', out) :=
    (onData_toolFrame hd hchunk).trans hturn
  have hreads : Reads (decoder wire) d [(toolFrame, ((decoder wire).onFrame d toolFrame).2)]
      ((decoder wire).onFrame d toolFrame).1 := .cons toolFrame hd (.nil _)
  rwa [hframe] at hreads

def afterFirst : Account (List PartialCall) Unit :=
  (accumulate toolCall ⟨ChunkDecoder.new.calls, ChunkDecoder.new.budget, []⟩).2

theorem calls_afterFirst :
    afterFirst.kept = [⟨none, none, "f".toList, [], some (syntheticId 0)⟩] := rfl

theorem fresh_secondCall : Fresh ([] ++ afterFirst.out) afterFirst.kept secondCall := by
  rintro position given ⟨⟩
  refine ⟨nofun, fun other call hcall hstarted => ?_⟩
  rw [calls_afterFirst] at hcall
  obtain ⟨hother, rfl⟩ := List.getElem?_eq_some_iff.mp hcall
  obtain rfl := Nat.lt_one_iff.mp hother
  have hsame : some (syntheticId 0) = some "b".toList := hstarted
  exact absurd hsame (by decide)

theorem chunk_bothWire : bothWire.chunk toolFrame.data = .ok bothChunk := rfl

theorem fresh_bothChunk : FreshRun bothWire [] .new [toolFrame] := by
  refine ⟨fun chunk hchunk _ => ?_, trivial⟩
  obtain rfl := Option.some.inj ((chunkOf_toolFrame bothWire).symm.trans hchunk)
  refine ⟨?_, fun _ _ => trivial⟩
  rintro mid mid' ⟨⟩ ⟨⟩
  refine ⟨fun position given _ => ⟨nofun, nofun⟩, fun mid hmid => ?_⟩
  obtain rfl : afterFirst = mid := congrArg Prod.snd hmid
  exact ⟨fresh_secondCall, fun _ _ => trivial⟩

/-- Two calls in one frame, the first of which has no identifier, stand on two cards. -/
theorem both_calls_are_told :
    (cards (onData bothWire .new toolFrame.data).2).map Prod.fst = [0, 1] ∧
      Told (onData bothWire .new toolFrame.data).2 := by
  rw [onData_toolFrame rfl chunk_bothWire]
  refine ⟨by decide +kernel, ?_⟩
  rcases hturn : onChunk bothWire.json .new bothChunk with ⟨d, out⟩
  have htold :=
    (told_of_reads bothWire (reads_toolFrame rfl chunk_bothWire hturn) fresh_bothChunk).1
  rwa [flatMap_singleton] at htold

theorem toolDecoder_eq : toolDecoder = (onChunk toolWire.json .new toolChunk).1 := by
  have hdata : onData toolWire .new toolFrame.data = onChunk toolWire.json .new toolChunk :=
    onData_toolFrame rfl chunk_toolFrame
  exact congrArg Prod.fst hdata

theorem toolDecoder_goes_on : toolDecoder.done = false := by
  rw [toolDecoder_eq]
  decide

theorem cards_toolFrame :
    (cards ((onChunk toolWire.json .new toolChunk).2 ++
      (onChunk toolWire.json toolDecoder toolChunk).2)).map Prod.fst = [0, 0] := by
  rw [toolDecoder_eq]
  decide

/-- Behind the end announcement, another call stands on the card of the first. -/
theorem reopened_call_shares_card :
    ¬ ∀ (wire : Wire Unit) (turns : List (SseFrame × List (ChatEvent Unit))) (d : ChunkDecoder),
      Reads (decoder wire) .new turns d → Told (turns.flatMap Prod.snd) := by
  intro h
  have hcards := cards_toolFrame
  have hd := toolDecoder_goes_on
  have hdecoder := toolDecoder_eq
  rcases hturn : onChunk toolWire.json .new toolChunk with ⟨d, out⟩
  rw [hturn] at hcards hdecoder
  rw [hdecoder] at hcards hd
  rcases hturn' : onChunk toolWire.json d toolChunk with ⟨d', out'⟩
  rw [hturn'] at hcards
  have htwice := (reads_toolFrame rfl chunk_toolFrame hturn).append
    (reads_toolFrame hd chunk_toolFrame hturn')
  have hnodup := (h toolWire _ _ htwice).cards
  rw [flatMap_append, flatMap_singleton, flatMap_singleton, hcards] at hnodup
  exact absurd hnodup (by decide)

end OpenAi

end Oxyn.Llm
