/-
# `Oxyn.Llm.AnthropicEnd` — how an Anthropic generation ends, and which calls it closed

The decoder is lawful: whatever the frames and whatever ends the stream, it ends once, with the
reason given if a `message_stop` was read, and for a cut otherwise.
-/
import Oxyn.Llm.Anthropic

namespace Oxyn.Llm.Anthropic

open Text List

/-! ## Blocks under their indices -/

theorem Blocks.get_cons (entry : Nat × PartialBlock) (rest : Blocks) (index : Nat) :
    Blocks.get (entry :: rest) index = if entry.1 = index then some entry.2 else rest.get index := by
  unfold Blocks.get
  rw [find?_cons]
  by_cases h : entry.1 = index
  · rw [if_pos h, decide_eq_true h]
    rfl
  · rw [if_neg h, decide_eq_false h]

theorem Blocks.get_insert_self (blocks : Blocks) (index : Nat) (block : PartialBlock) :
    (Blocks.insert index block blocks).get index = some block := by
  induction blocks with
  | nil => exact (Blocks.get_cons ..).trans (if_pos rfl)
  | cons entry rest ih =>
    unfold Blocks.insert
    split
    · exact (Blocks.get_cons ..).trans (if_pos rfl)
    · split
      · exact (Blocks.get_cons ..).trans (if_pos rfl)
      next hne => exact (Blocks.get_cons ..).trans ((if_neg (Ne.symm hne)).trans ih)

theorem Blocks.get_insert_of_ne (blocks : Blocks) {index other : Nat} (h : other ≠ index)
    (block : PartialBlock) : (Blocks.insert index block blocks).get other = blocks.get other := by
  induction blocks with
  | nil => exact (Blocks.get_cons ..).trans (if_neg (Ne.symm h))
  | cons entry rest ih =>
    unfold Blocks.insert
    split
    · exact (Blocks.get_cons ..).trans (if_neg (Ne.symm h))
    · split
      next heq =>
        rw [Blocks.get_cons, Blocks.get_cons, if_neg (Ne.symm h), if_neg (heq ▸ Ne.symm h)]
      next => rw [Blocks.get_cons, Blocks.get_cons, ih]

theorem Blocks.get_remove_self (blocks : Blocks) (index : Nat) :
    (Blocks.remove index blocks).get index = none := by
  induction blocks with
  | nil => rfl
  | cons entry rest ih =>
    unfold Blocks.remove
    by_cases h : entry.1 = index
    · rw [filter_cons_of_neg (by simpa using h)]
      exact ih
    · rw [filter_cons_of_pos (by simpa using h), Blocks.get_cons, if_neg h]
      exact ih

theorem Blocks.get_remove_of_ne (blocks : Blocks) {index other : Nat} (h : other ≠ index) :
    (Blocks.remove index blocks).get other = blocks.get other := by
  induction blocks with
  | nil => rfl
  | cons entry rest ih =>
    unfold Blocks.remove
    by_cases heq : entry.1 = index
    · rw [filter_cons_of_neg (by simpa using heq), Blocks.get_cons,
        if_neg (heq ▸ Ne.symm h)]
      exact ih
    · rw [filter_cons_of_pos (by simpa using heq), Blocks.get_cons, Blocks.get_cons]
      exact congrArg _ ih

/-! ## What a stream announces -/

section

variable {J : Type} (wire : Wire J)

def envelopeOf (f : SseFrame) : Option Envelope :=
  if (trim f.data).isEmpty then none else (wire.envelope (trim f.data)).toOption

/-- The reason a `message_delta` gives. -/
def givenReason (f : SseFrame) : Option Str :=
  match envelopeOf wire f with
  | some frame => if frame.kind = .messageDelta then frame.delta.bind Delta.stopReason else none
  | none => none

def Announces (f : SseFrame) : Prop :=
  ∃ frame, envelopeOf wire f = some frame ∧ frame.kind = .messageStop

def lastReason (frames : List SseFrame) : Option StopReason :=
  (frames.filterMap (givenReason wire)).getLast?.map stopReason

def announcedEnd (frames : List SseFrame) (reason : StopReason) : Prop :=
  reason.isCut ∨
    ((∃ f ∈ frames, Announces wire f) ∧ reason = (lastReason wire frames).getD .unspecified)

def readAll (frames : List SseFrame) : MessageDecoder :=
  frames.foldl (fun d f => (onData wire d f.data).1) .new

/-- A `content_block_start` that opens a tool call. -/
def OpensCall (f : SseFrame) (index : Nat) (id name : Str) : Prop :=
  ∃ frame block, envelopeOf wire f = some frame ∧ frame.kind = .blockStart ∧
    frame.index = some index ∧ frame.contentBlock = some block ∧ block.type = some toolUseType ∧
    id = block.id.getD (syntheticId index) ∧ name = block.name.getD []

/-- A `content_block_stop` of an index. -/
def Stops (f : SseFrame) (index : Nat) : Prop :=
  ∃ frame, envelopeOf wire f = some frame ∧ frame.kind = .blockStop ∧ frame.index = some index

def OpenCall (frames : List SseFrame) (index : Nat) (id name : Str) : Prop :=
  ∃ before f after, frames = before ++ f :: after ∧ OpensCall wire f index id name ∧
    ∀ g ∈ after, ¬ Stops wire g index

def Closes (frames : List SseFrame) (f : SseFrame) (e : ChatEvent J) : Prop :=
  ∃ index id name arguments, Stops wire f index ∧ OpenCall wire frames index id name ∧
    (readAll wire frames).blocks.get index = some (.toolUse id name arguments) ∧
    e = callEvent wire.json ioError id name arguments

end

/-! ## The steps that count -/

section

variable {J : Type}

theorem countBlock_emits (index : Nat) (block : ContentBlock) :
    Emits isInner (countBlock index block : Step J Unit) := by
  unfold countBlock
  split
  · exact (Emits.count _).bind fun _ => (Emits.count _).bind fun _ => Emits.count _
  · exact (Emits.count _).bind fun _ => Emits.count _

theorem countBlock_leaves (index : Nat) (block : ContentBlock) :
    Leaves (countBlock index block : Step J Unit) := by
  unfold countBlock
  split
  · exact (Leaves.count _).bind fun _ => (Leaves.count _).bind fun _ => Leaves.count _
  · exact (Leaves.count _).bind fun _ => Leaves.count _

/-- The block that a `content_block_start` opens. -/
def openedBlock (index : Nat) (block : ContentBlock) : PartialBlock :=
  if block.type = some "text".toList then .text
  else if block.type = some toolUseType then
    .toolUse (block.id.getD (syntheticId index)) (block.name.getD []) []
  else if block.type = some "thinking".toList then
    .thinking (block.thinking.getD []) block.signature
  else if block.type = some "redacted_thinking".toList then
    .redactedThinking (block.data.getD [])
  else .unknown

variable {index : Nat}

theorem openedBlock_toolUse {block : ContentBlock} {id name arguments : Str}
    (h : openedBlock index block = .toolUse id name arguments) :
    block.type = some toolUseType ∧ id = block.id.getD (syntheticId index) ∧
      name = block.name.getD [] := by
  unfold openedBlock at h
  split at h
  · cases h
  · split at h
    next htype =>
      cases h
      exact ⟨htype, rfl, rfl⟩
    · split at h
      · cases h
      · split at h
        · cases h
        · cases h

def announced (index : Nat) (block : ContentBlock) : List (ChatEvent J) :=
  if block.type = some toolUseType ∧ block.name.getD [] ≠ [] then
    [.toolCallStarted index (block.id.getD (syntheticId index)) (block.name.getD [])]
  else []

theorem text_ne_toolUse : "text".toList ≠ toolUseType := by decide

theorem openTool_run (index : Nat) (id name : Str) (a : Account Blocks J) :
    openTool index id name a = (.ok (.toolUse id name []), { a with out := a.out ++
      (if name ≠ [] then [.toolCallStarted index id name] else []) }) := by
  unfold openTool
  by_cases hname : name = []
  · rw [if_pos hname, if_neg (not_not_intro hname), append_nil]
    rfl
  · rw [if_neg hname, if_pos hname]
    rfl

theorem openBlock_run (index : Nat) (block : ContentBlock) (a : Account Blocks J) :
    openBlock index block a =
      (.ok (openedBlock index block), { a with out := a.out ++ announced index block }) := by
  have hquiet : ∀ opened, block.type ≠ some toolUseType →
      (pure opened : Step J PartialBlock) a =
        (.ok opened, { a with out := a.out ++ announced index block }) := by
    intro opened hne
    rw [announced, if_neg fun h => hne h.1, append_nil]
    rfl
  unfold openBlock openedBlock
  split
  next htext =>
    refine hquiet _ fun htool => text_ne_toolUse ?_
    exact Option.some.inj (htext.symm.trans htool)
  next =>
    split
    next htool =>
      rw [openTool_run, announced]
      simp only [htool, true_and]
    next hne =>
      split
      · exact hquiet _ hne
      · split
        · exact hquiet _ hne
        · exact hquiet _ hne

theorem openBlock_emits (index : Nat) (block : ContentBlock) :
    Emits isInner (openBlock index block : Step J PartialBlock) := by
  intro a
  rw [openBlock_run]
  refine ⟨announced index block, rfl, fun e he => ?_⟩
  unfold announced at he
  split at he
  · cases mem_singleton.mp he
    exact ⟨rfl, rfl⟩
  · cases he

theorem onBlockStart_emits (frame : Envelope) :
    Emits isInner (onBlockStart frame : Step J Unit) := by
  unfold onBlockStart
  split
  next index block _ _ =>
    exact (countBlock_emits index block).bind fun _ =>
      (openBlock_emits index block).bind fun _ => Emits.keepAs _
  next => exact Emits.pure _

theorem onBlockStart_kept {frame : Envelope} {a a' : Account Blocks J}
    (h : onBlockStart frame a = (.ok (), a')) :
    (a'.kept = a.kept ∧ a'.out = a.out) ∨
      ∃ index block, frame.index = some index ∧ frame.contentBlock = some block ∧
        a'.kept = Blocks.insert index (openedBlock index block) a.kept := by
  unfold onBlockStart at h
  cases hindex : frame.index with
  | none =>
    rw [hindex] at h
    cases h
    exact .inl ⟨rfl, rfl⟩
  | some index =>
    rw [hindex] at h
    cases hblock : frame.contentBlock with
    | none =>
      rw [hblock] at h
      cases h
      exact .inl ⟨rfl, rfl⟩
    | some block =>
      rw [hblock] at h
      obtain ⟨u, mid, hcount, hthen⟩ := Scan.bind_eq_ok h
      rw [Scan.bind_ok (openBlock_run index block mid)] at hthen
      have hkept := countBlock_leaves index block a
      rw [hcount] at hkept
      cases hthen
      exact .inr ⟨index, block, rfl, rfl, congrArg _ hkept⟩

/-- The calls open are those that were, under the same indices. -/
def SameCalls (before after : Blocks) : Prop :=
  ∀ index id name arguments, after.get index = some (.toolUse id name arguments) →
    ∃ earlier, before.get index = some (.toolUse id name earlier)

theorem SameCalls.of_eq {before after : Blocks} (h : after = before) : SameCalls before after := by
  intro index id name arguments hget
  exact ⟨arguments, h ▸ hget⟩

theorem SameCalls.insert {before : Blocks} {block : PartialBlock}
    (h : ∀ id name arguments, block = .toolUse id name arguments →
      ∃ earlier, before.get index = some (.toolUse id name earlier)) :
    SameCalls before (Blocks.insert index block before) := by
  intro other id name arguments hget
  by_cases hsame : other = index
  · rw [hsame, Blocks.get_insert_self] at hget
    rw [hsame]
    exact h id name arguments (Option.some.inj hget)
  · rw [Blocks.get_insert_of_ne _ hsame] at hget
    exact ⟨arguments, hget⟩

def KeepsCalls (index : Nat) (block : PartialBlock) (p : Step J Unit) : Prop :=
  ∀ a, Blocks.get a.kept index = some block → SameCalls a.kept (p a).2.kept

theorem KeepsCalls.pure (index : Nat) (block : PartialBlock) :
    KeepsCalls index block (Pure.pure () : Step J Unit) :=
  fun _ _ => .of_eq rfl

/-- Behind a count, a block is replaced by one of its own kind, if anything. -/
theorem KeepsCalls.counted {charge : GenerationBudget → Except BudgetExceeded GenerationBudget}
    {f : Unit → Step J Unit} {block : PartialBlock} (next : PartialBlock)
    (h : ∀ id name arguments, next = .toolUse id name arguments →
      ∃ earlier, block = .toolUse id name earlier)
    (hf : ∀ mid, (f () mid).2.kept = mid.kept ∨
      (f () mid).2.kept = Blocks.insert index next mid.kept) :
    KeepsCalls index block (count charge >>= f) := by
  intro a hblock
  rcases (Leaves.count charge).then f a with hkept | ⟨u, mid, -, hkept, hrun⟩
  · exact .of_eq hkept
  · rw [hrun]
    rcases hf mid with hsame | hreplaced
    · exact .of_eq (hsame.trans hkept)
    · rw [hreplaced, hkept]
      refine .insert fun id name arguments hnext => ?_
      obtain ⟨earlier, hearlier⟩ := h id name arguments hnext
      exact ⟨earlier, hearlier ▸ hblock⟩

theorem onFragment_calls (index : Nat) (delta : Delta) (block : PartialBlock) :
    KeepsCalls index block (onFragment index delta block : Step J Unit) := by
  cases block with
  | text =>
    unfold onFragment
    dsimp only
    split
    · exact .counted .text nofun fun _ => .inl rfl
    · exact .pure _ _
  | toolUse id name arguments =>
    unfold onFragment
    dsimp only
    split
    next fragment _ _ =>
      refine .counted (.toolUse id name (arguments ++ fragment)) ?_ fun _ => .inr rfl
      intro id' name' arguments' heq
      cases heq
      exact ⟨arguments, rfl⟩
    next => exact .pure _ _
  | thinking text signature =>
    unfold onFragment
    dsimp only
    split
    next fragment _ _ =>
      exact .counted (.thinking (text ++ fragment) signature) nofun fun _ => .inr rfl
    next =>
      split
      next value _ _ =>
        exact .counted (.thinking text (some value)) nofun fun _ => .inr rfl
      next => exact .pure _ _
  | redactedThinking data | unknown => exact .pure _ _

theorem onBlockDelta_calls (frame : Envelope) (a : Account Blocks J) :
    SameCalls a.kept (onBlockDelta frame a).2.kept := by
  unfold onBlockDelta
  cases frame.index with
  | none => exact .of_eq rfl
  | some index =>
    cases frame.delta with
    | none => exact .of_eq rfl
    | some delta =>
      dsimp only
      have hcurrent : current a = (.ok a.kept, a) := rfl
      rw [Scan.bind_ok hcurrent]
      cases hblock : Blocks.get a.kept index with
      | none => exact .of_eq rfl
      | some block => exact onFragment_calls index delta block a hblock

theorem onFragment_emits (index : Nat) (delta : Delta) (block : PartialBlock) :
    Emits isInner (onFragment index delta block : Step J Unit) := by
  cases block with
  | text =>
    unfold onFragment
    dsimp only
    split
    · exact (Emits.count _).bind fun _ => Emits.emit ⟨rfl, rfl⟩
    · exact Emits.pure _
  | toolUse id name arguments =>
    unfold onFragment
    dsimp only
    split
    · exact (Emits.count _).bind fun _ => (Emits.keepAs _).bind fun _ => Emits.emit ⟨rfl, rfl⟩
    · exact Emits.pure _
  | thinking text signature =>
    unfold onFragment
    dsimp only
    split
    · exact (Emits.count _).bind fun _ => (Emits.keepAs _).bind fun _ => Emits.emit ⟨rfl, rfl⟩
    · split
      · exact (Emits.count _).bind fun _ => Emits.keepAs _
      · exact Emits.pure _
  | redactedThinking data | unknown => exact Emits.pure _

theorem onBlockDelta_emits (frame : Envelope) :
    Emits isInner (onBlockDelta frame : Step J Unit) := by
  unfold onBlockDelta
  split
  next index delta _ _ =>
    refine Emits.current.bind fun blocks => ?_
    split
    · exact onFragment_emits index delta _
    · exact Emits.pure _
  next => exact Emits.pure _

/-! ## The ends -/

theorem discarded_inner (entry : Nat × PartialBlock) :
    AllInner (discarded entry : List (ChatEvent J)) := by
  unfold discarded
  split
  · exact AllInner.nil
  · exact AllInner.nil
  · exact AllInner.nil.cons (isInner_error _)
  · exact AllInner.nil.cons (isInner_error _)
  · exact AllInner.nil.cons (isInner_error _)

theorem discardedAll_inner (blocks : Blocks) :
    AllInner (blocks.flatMap discarded : List (ChatEvent J)) := by
  intro e he
  obtain ⟨entry, -, hmem⟩ := mem_flatMap.mp he
  exact discarded_inner entry e hmem

theorem usageEvents_inner (usage : Option WireUsage) :
    AllInner (usageEvents usage : List (ChatEvent J)) := by
  unfold usageEvents
  split
  · split
    · exact AllInner.nil
    · exact AllInner.nil.cons ⟨rfl, rfl⟩
  · exact AllInner.nil

theorem closeBlock_spec (json : Json J) (index : Nat) (block : PartialBlock) :
    Quiet (closeBlock json index block) ∧
      ∀ e ∈ closeBlock json index block, e.isCall = true →
        ∃ id name arguments, block = .toolUse id name arguments ∧
          e = callEvent json ioError id name arguments := by
  cases block with
  | text | unknown => exact ⟨Quiet.nil, nofun⟩
  | thinking text signature =>
    have hinner : AllInner (closeBlock json index (.thinking text signature)) :=
      AllInner.nil.cons ⟨rfl, rfl⟩
    exact ⟨hinner.quiet, fun e he hcall => (hinner.no_call he hcall).elim⟩
  | redactedThinking data =>
    have hinner : AllInner (closeBlock json index (.redactedThinking data)) :=
      AllInner.nil.cons ⟨rfl, rfl⟩
    exact ⟨hinner.quiet, fun e he hcall => (hinner.no_call he hcall).elim⟩
  | toolUse id name arguments =>
    unfold closeBlock
    dsimp only
    split
    · have hinner : AllInner [(.error ("tool call #" ++ toString index ++
          " has no name and was dropped") : ChatEvent J)] := AllInner.nil.cons (isInner_error _)
      exact ⟨hinner.quiet, fun e he hcall => (hinner.no_call he hcall).elim⟩
    · refine ⟨fun e he => ?_, fun e he _ => ⟨id, name, arguments, rfl, ?_⟩⟩
      · cases mem_singleton.mp he
        exact callEvent_quiet ..
      · exact mem_singleton.mp he

variable {d : MessageDecoder}

theorem emitDone_of_open (h : d.done = false) (out : List (ChatEvent J)) :
    emitDone d out =
      ({ d with done := true, stop := none }, out ++ [.done (d.stop.getD .unspecified)]) := by
  unfold emitDone
  rw [h, if_neg nofun]

theorem dropAndEnd_spec (h : d.done = false) {es : List (ChatEvent J)} (hes : AllInner es)
    (stop : Option StopReason) :
    (dropAndEnd d es stop).1.done = true ∧
      ∃ inner, AllInner inner ∧
        (dropAndEnd d es stop).2 = inner ++ [.done (stop.getD .unspecified)] := by
  have hopen : ({ d with blocks := [], stop := stop } : MessageDecoder).done = false := h
  unfold dropAndEnd
  rw [emitDone_of_open hopen]
  exact ⟨rfl, es ++ d.blocks.flatMap discarded, hes.append (discardedAll_inner d.blocks), rfl⟩

/-! ## A frame -/

variable {wire : Wire J}

theorem lastReason_append (wire : Wire J) (frames : List SseFrame) (f : SseFrame) :
    lastReason wire (frames ++ [f]) =
      ((givenReason wire f).map stopReason).or (lastReason wire frames) := by
  unfold lastReason
  rw [filterMap_append, getLast?_append, filterMap_cons, filterMap_nil]
  cases givenReason wire f with
  | none => rfl
  | some last => rfl

theorem readAll_append (wire : Wire J) (frames : List SseFrame) (f : SseFrame) :
    readAll wire (frames ++ [f]) = (onData wire (readAll wire frames) f.data).1 := by
  unfold readAll
  rw [foldl_append, foldl_cons, foldl_nil]

theorem OpenCall.later {frames : List SseFrame} {id name : Str} {f : SseFrame}
    (h : OpenCall wire frames index id name) (hstop : ¬ Stops wire f index) :
    OpenCall wire (frames ++ [f]) index id name := by
  obtain ⟨before, g, after, rfl, hopens, hafter⟩ := h
  refine ⟨before, g, after ++ [f], by rw [append_assoc, cons_append], hopens,
    fun g' hg' => ?_⟩
  rcases mem_append.mp hg' with hg' | hg'
  · exact hafter g' hg'
  · cases mem_singleton.mp hg'
    exact hstop

def CallsOpen (wire : Wire J) (frames : List SseFrame) (blocks : Blocks) : Prop :=
  ∀ index id name arguments, blocks.get index = some (.toolUse id name arguments) →
    OpenCall wire frames index id name

/-- A decoder that is not done has read the frames, and kept the last reason given and the calls
that are open. -/
def Read (wire : Wire J) (frames : List SseFrame) (d : MessageDecoder) : Prop :=
  d = readAll wire frames ∧ d.stop = lastReason wire frames ∧ CallsOpen wire frames d.blocks

theorem CallsOpen.later {frames : List SseFrame} {f : SseFrame} {before after : Blocks}
    (h : CallsOpen wire frames before) (hsame : SameCalls before after)
    (hstop : ∀ index, Stops wire f index → after.get index = none) :
    CallsOpen wire (frames ++ [f]) after := by
  intro index id name arguments hget
  obtain ⟨earlier, hbefore⟩ := hsame index id name arguments hget
  refine (h index id name earlier hbefore).later fun hstops => ?_
  rw [hstop index hstops] at hget
  cases hget

structure Given (wire : Wire J) (d : MessageDecoder) (frames : List SseFrame) (f : SseFrame)
    (read : MessageDecoder × List (ChatEvent J)) : Prop where
  goes : (read.1.done = false ∧ Quiet read.2 ∧
      read.1.stop = ((givenReason wire f).map stopReason).or d.stop ∧
      CallsOpen wire (frames ++ [f]) read.1.blocks) ∨
    (read.1.done = true ∧
      ∃ reason, EndsWith read.2 reason ∧ announcedEnd wire (frames ++ [f]) reason)
  closes : ∀ e ∈ read.2, e.isCall = true → Closes wire frames f e

theorem Given.still {frames : List SseFrame} {f : SseFrame}
    {read : MessageDecoder × List (ChatEvent J)} (hread : Read wire frames d)
    (hdone : read.1.done = false) (hstop : read.1.stop = d.stop) (hes : AllInner read.2)
    (hreason : givenReason wire f = none) (hsame : SameCalls d.blocks read.1.blocks)
    (hstops : ∀ index, Stops wire f index → read.1.blocks.get index = none) :
    Given wire d frames f read := by
  refine ⟨.inl ⟨hdone, hes.quiet, ?_, hread.2.2.later hsame hstops⟩,
    fun e he hcall => (hes.no_call he hcall).elim⟩
  rw [hreason]
  exact hstop

theorem Given.cut {frames : List SseFrame} {f : SseFrame}
    {read : MessageDecoder × List (ChatEvent J)} {inner : List (ChatEvent J)} {reason : StopReason}
    (hdone : read.1.done = true) (hout : read.2 = inner ++ [.done reason])
    (hinner : AllInner inner) (hcut : reason.isCut) : Given wire d frames f read := by
  refine ⟨.inr ⟨hdone, reason, ⟨inner, hout, hinner.quiet⟩, .inl hcut⟩, fun e he hcall => ?_⟩
  rw [hout] at he
  exact (hinner.no_call_done he hcall).elim

section

variable {frames : List SseFrame} {f : SseFrame} {frame : Envelope}

theorem not_stops (hframe : envelopeOf wire f = some frame)
    (hkind : frame.kind ≠ .blockStop) : ¬ Stops wire f index := by
  rintro ⟨frame', hframe', hkind', -⟩
  cases hframe.symm.trans hframe'
  exact hkind hkind'

theorem givenReason_eq_none (hframe : envelopeOf wire f = some frame)
    (hkind : frame.kind ≠ .messageDelta) : givenReason wire f = none := by
  unfold givenReason
  rw [hframe]
  exact if_neg hkind

theorem counted_given {step : Step J Unit} (h : d.done = false)
    (hemits : Emits isInner step) (hreason : givenReason wire f = none)
    (hopen : ∀ a, step ⟨d.blocks, d.budget, []⟩ = (.ok (), a) →
      CallsOpen wire (frames ++ [f]) a.kept) :
    Given wire d frames f (counted d step) := by
  obtain ⟨inner, hinner, hall⟩ := hemits ⟨d.blocks, d.budget, []⟩
  rw [nil_append] at hinner
  unfold counted
  split
  next limit a hrun =>
    rw [hrun] at hinner
    have hstill : ({ d with blocks := a.kept, budget := a.budget } : MessageDecoder).done = false := h
    have hevents : AllInner (a.out ++ [.error limit.text]) := by
      rw [hinner]
      exact AllInner.append hall (AllInner.nil.cons (isInner_error _))
    obtain ⟨hdone, dropped, hdropped, hout⟩ :=
      dropAndEnd_spec hstill hevents (some .interrupted)
    exact .cut hdone hout hdropped (.inl rfl)
  next a hrun =>
    have hcalls := hopen a hrun
    rw [hrun] at hinner
    have hevents : AllInner a.out := hinner ▸ hall
    refine ⟨.inl ⟨h, hevents.quiet, ?_, hcalls⟩,
      fun e he hcall => (hevents.no_call he hcall).elim⟩
    rw [hreason]
    rfl

theorem onBlockStart_given (h : d.done = false) (hread : Read wire frames d)
    (hframe : envelopeOf wire f = some frame) (hkind : frame.kind = .blockStart) :
    Given wire d frames f (counted d (onBlockStart frame)) := by
  have hstops : ∀ index, ¬ Stops wire f index :=
    fun index => not_stops hframe (by rw [hkind]; nofun)
  refine counted_given h (onBlockStart_emits frame)
    (givenReason_eq_none hframe (by rw [hkind]; nofun)) fun a hrun => ?_
  rcases onBlockStart_kept hrun with ⟨hkept, -⟩ | ⟨index, block, hindex, hblock, hkept⟩
  · exact hread.2.2.later (.of_eq hkept) fun index hstop => absurd hstop (hstops index)
  · intro other id name arguments hget
    rw [hkept] at hget
    by_cases hsame : other = index
    · -- the call this frame opens
      rw [hsame, Blocks.get_insert_self] at hget
      obtain ⟨htype, hid, hname⟩ := openedBlock_toolUse (Option.some.inj hget)
      rw [hsame]
      exact ⟨frames, f, [], rfl,
        ⟨frame, block, hframe, hkind, hindex, hblock, htype, hid, hname⟩, nofun⟩
    · rw [Blocks.get_insert_of_ne _ hsame] at hget
      exact (hread.2.2 other id name arguments hget).later (hstops other)

theorem onBlockDelta_given (h : d.done = false) (hread : Read wire frames d)
    (hframe : envelopeOf wire f = some frame) (hkind : frame.kind = .blockDelta) :
    Given wire d frames f (counted d (onBlockDelta frame)) := by
  refine counted_given h (onBlockDelta_emits frame)
    (givenReason_eq_none hframe (by rw [hkind]; nofun)) fun a hrun => ?_
  have hsame := onBlockDelta_calls (J := J) frame ⟨d.blocks, d.budget, []⟩
  rw [hrun] at hsame
  exact hread.2.2.later hsame fun index hstop =>
    absurd hstop (not_stops hframe (by rw [hkind]; nofun))

theorem onBlockStop_given (h : d.done = false) (hread : Read wire frames d)
    (hframe : envelopeOf wire f = some frame) (hkind : frame.kind = .blockStop) :
    Given wire d frames f (onBlockStop wire.json d frame) := by
  have hreason := givenReason_eq_none hframe (by rw [hkind]; nofun)
  have hstops : ∀ {index : Nat}, Stops wire f index → frame.index = some index := by
    rintro index ⟨frame', hframe', -, hindex⟩
    cases hframe.symm.trans hframe'
    exact hindex
  unfold onBlockStop
  cases hindex : frame.index with
  | none =>
    refine .still hread h rfl AllInner.nil hreason (.of_eq rfl) fun index hstop => ?_
    cases hindex.symm.trans (hstops hstop)
  | some index =>
    dsimp only
    cases hblock : Blocks.get d.blocks index with
    | none =>
      refine .still hread h rfl AllInner.nil hreason (.of_eq rfl) fun other hstop => ?_
      cases hindex.symm.trans (hstops hstop)
      exact hblock
    | some block =>
      obtain ⟨hquiet, hcalls⟩ := closeBlock_spec wire.json index block
      refine ⟨.inl ⟨h, hquiet, ?_, ?_⟩, fun e he hcall => ?_⟩
      · rw [hreason]
        rfl
      · refine hread.2.2.later (fun other id name arguments hget => ?_) fun other hstop => ?_
        · by_cases hsame : other = index
          · rw [hsame, Blocks.get_remove_self] at hget
            cases hget
          · rw [Blocks.get_remove_of_ne _ hsame] at hget
            exact ⟨arguments, hget⟩
        · cases hindex.symm.trans (hstops hstop)
          exact Blocks.get_remove_self _ _
      · obtain ⟨id, name, arguments, rfl, heq⟩ := hcalls e he hcall
        refine ⟨index, id, name, arguments, ⟨frame, hframe, hkind, hindex⟩,
          hread.2.2 index id name arguments hblock, ?_, heq⟩
        rw [← hread.1]
        exact hblock

theorem onMessageDelta_given (h : d.done = false) (hread : Read wire frames d)
    (hframe : envelopeOf wire f = some frame) (hkind : frame.kind = .messageDelta) :
    Given wire d frames f (onMessageDelta d frame : MessageDecoder × List (ChatEvent J)) := by
  have hgiven : givenReason wire f = frame.delta.bind Delta.stopReason := by
    unfold givenReason
    rw [hframe]
    exact if_pos hkind
  have husage := usageEvents_inner (J := J) frame.usage
  have hcalls : CallsOpen wire (frames ++ [f]) d.blocks := hread.2.2.later (.of_eq rfl)
    fun index hstop => absurd hstop (not_stops hframe (by rw [hkind]; nofun))
  unfold onMessageDelta
  split
  next reason hreason =>
    refine ⟨.inl ⟨h, husage.quiet, ?_, hcalls⟩, fun e he hcall => (husage.no_call he hcall).elim⟩
    rw [hgiven, hreason]
    rfl
  next hreason =>
    refine ⟨.inl ⟨h, husage.quiet, ?_, hcalls⟩, fun e he hcall => (husage.no_call he hcall).elim⟩
    rw [hgiven, hreason]
    rfl

theorem onMessageStop_given (h : d.done = false) (hread : Read wire frames d)
    (hframe : envelopeOf wire f = some frame) (hkind : frame.kind = .messageStop) :
    Given wire d frames f (dropAndEnd d [] d.stop : MessageDecoder × List (ChatEvent J)) := by
  obtain ⟨hdone, inner, hinner, hout⟩ := dropAndEnd_spec h (AllInner.nil (J := J)) d.stop
  refine ⟨.inr ⟨hdone, _, ⟨inner, hout, hinner.quiet⟩, .inr ⟨?_, ?_⟩⟩, fun e he hcall => ?_⟩
  · exact ⟨f, mem_append_right _ (mem_singleton_self f), frame, hframe, hkind⟩
  · rw [lastReason_append, givenReason_eq_none hframe (by rw [hkind]; nofun), Option.map_none,
      Option.none_or, hread.2.1]
  · rw [hout] at he
    exact (hinner.no_call_done he hcall).elim

theorem onEnvelope_given (h : d.done = false) (hread : Read wire frames d)
    (hframe : envelopeOf wire f = some frame) :
    Given wire d frames f (onEnvelope wire.json d frame) := by
  have hno : frame.kind ≠ .blockStop → ∀ index, Stops wire f index → d.blocks.get index = none :=
    fun hkind index hstop => absurd hstop (not_stops hframe hkind)
  unfold onEnvelope
  split
  next hkind => exact onBlockStart_given h hread hframe hkind
  next hkind => exact onBlockDelta_given h hread hframe hkind
  next hkind =>
    exact .still hread h rfl (usageEvents_inner _)
      (givenReason_eq_none hframe (by rw [hkind]; nofun)) (.of_eq rfl) (hno (by rw [hkind]; nofun))
  next hkind => exact onBlockStop_given h hread hframe hkind
  next hkind => exact onMessageDelta_given h hread hframe hkind
  next hkind => exact onMessageStop_given h hread hframe hkind
  next hkind =>
    have hopen : ({ d with blocks := [], stop := some .providerError } :
        MessageDecoder).done = false := h
    rw [onError, emitDone_of_open hopen]
    exact .cut rfl rfl (AllInner.nil.cons (isInner_error _)) (.inr (.inl rfl))
  next hkind =>
    exact .still hread h rfl AllInner.nil
      (givenReason_eq_none hframe (by rw [hkind]; nofun)) (.of_eq rfl) (hno (by rw [hkind]; nofun))

theorem Given.unread {read : MessageDecoder × List (ChatEvent J)} (hread : Read wire frames d)
    (hframe : envelopeOf wire f = none) (hdone : read.1.done = false)
    (hstop : read.1.stop = d.stop) (hblocks : read.1.blocks = d.blocks) (hes : AllInner read.2) :
    Given wire d frames f read := by
  refine .still hread hdone hstop hes ?_ (.of_eq hblocks) ?_
  · unfold givenReason
    rw [hframe]
  · rintro index ⟨frame, hsome, -⟩
    cases hframe.symm.trans hsome

theorem onData_given (h : d.done = false) (hread : Read wire frames d) :
    Given wire d frames f (onData wire d f.data) := by
  unfold onData
  rw [if_neg (by rw [h]; nofun)]
  split
  next hempty => exact .unread hread (if_pos hempty) h rfl rfl AllInner.nil
  next hempty =>
    have hframe : envelopeOf wire f = (wire.envelope (trim f.data)).toOption := if_neg hempty
    split
    next frame hok =>
      rw [hok] at hframe
      exact onEnvelope_given h hread hframe
    next e herror =>
      rw [herror] at hframe
      have hunreadable : AllInner [unreadableFrame (J := J) ioError e] :=
        AllInner.nil.cons (isInner_error _)
      split
      · have hopen : ({ d with errors := d.errors + 1, stop := some .interrupted } :
            MessageDecoder).done = false := h
        rw [emitDone_of_open hopen]
        exact .cut rfl rfl hunreadable (.inl rfl)
      · exact .unread hread hframe h rfl rfl hunreadable

end

/-! ## The laws -/

theorem finish_ends (h : d.done = false) :
    EndsWith (finish d : MessageDecoder × List (ChatEvent J)).2 .interrupted := by
  unfold finish
  rw [if_neg (by rw [h]; nofun)]
  obtain ⟨-, inner, hinner, hout⟩ := dropAndEnd_spec h (AllInner.nil.cons (isInner_error
    "the stream ended before the provider announced the end of the message")) (some .interrupted)
  exact ⟨inner, hout, hinner.quiet⟩

theorem cancel_ends (h : d.done = false) :
    EndsWith (cancel d : MessageDecoder × List (ChatEvent J)).2 .cancelled := by
  have hopen : ({ d with blocks := [], stop := some .cancelled } : MessageDecoder).done = false := h
  unfold cancel
  rw [emitDone_of_open hopen]
  exact ⟨[], rfl, Quiet.nil⟩

theorem transportError_ends (h : d.done = false) (detail : String) :
    EndsWith (transportError d detail : MessageDecoder × List (ChatEvent J)).2 .interrupted := by
  have hopen : ({ d with blocks := [], stop := some .interrupted } :
      MessageDecoder).done = false := h
  unfold transportError
  rw [if_neg (by rw [h]; nofun), emitDone_of_open hopen]
  exact ⟨_, rfl, (AllInner.nil.cons (isInner_error detail)).quiet⟩

theorem lawful (wire : Wire J) : Lawful (decoder wire) (Read wire) (announcedEnd wire) where
  onFrame frames d f h hread := by
    rcases (onData_given (f := f) h hread).goes with ⟨hstill, hquiet, hstop, hcalls⟩ | hends
    · refine .inl ⟨hstill, hquiet, ?_, ?_, hcalls⟩
      · rw [readAll_append, ← hread.1]
        rfl
      · rw [lastReason_append, ← hread.2.1]
        exact hstop
    · exact .inr hends
  finish_done d h := by
    show (finish d).2 = []
    have hdone : d.done = true := h
    unfold finish
    rw [if_pos hdone]
  finish frames d h _ := ⟨.interrupted, finish_ends h, .inl (.inl rfl)⟩
  cancel frames d h _ := ⟨.cancelled, cancel_ends h, .inl (.inr (.inr rfl))⟩
  transportError frames d detail h _ := ⟨.interrupted, transportError_ends h detail, .inl (.inl rfl)⟩

theorem emitDone_no_call (d : MessageDecoder) {out : List (ChatEvent J)} (hout : AllInner out) :
    ∀ e ∈ (emitDone d out).2, e.isCall = false := by
  intro e he
  unfold emitDone at he
  split at he
  · exact (hout e he).2
  · rcases mem_append.mp he with he | he
    · exact (hout e he).2
    · cases mem_singleton.mp he
      rfl

theorem callsClosed (wire : Wire J) : CallsClosed (decoder wire) (Read wire) (Closes wire) where
  onFrame frames d f h hread := (onData_given (f := f) h hread).closes
  finish d e he := by
    change e ∈ (finish d).2 at he
    unfold finish at he
    split at he
    · cases he
    · exact emitDone_no_call _
        ((AllInner.nil.cons (isInner_error _)).append (discardedAll_inner d.blocks)) e he
  cancel d e he := emitDone_no_call _ AllInner.nil e he
  transportError d detail e he := by
    change e ∈ (transportError d detail).2 at he
    unfold transportError at he
    split at he
    · cases he
    · exact emitDone_no_call _ (AllInner.nil.cons (isInner_error detail)) e he

end

end Oxyn.Llm.Anthropic
