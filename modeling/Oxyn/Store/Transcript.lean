/-
# `Oxyn.Store.Transcript` — ordinals are not given twice, and a transcript is read whole

A turn is given the number past the greatest one there is, and a reader asks for what comes behind
the last number it was given.
-/
import Oxyn.Store.Tree

open Runs

namespace Oxyn.Store

open List

open Fallible

/-! ## Turns, and their numbers -/

inductive ConversationOp.Writes (key : ConversationId) : ConversationOp → Prop
  | exchange (record : ExchangeRecord) : Writes key (.appendExchange key record)
  | turn (record : TurnRecord) : Writes key (.append key record)
  | withhold (node sampleRows sampleColumns : Nat) :
      Writes key (.withholdSample key node sampleRows sampleColumns)

def ConversationEvent.given (event : ConversationEvent) : List Nat :=
  match event.op, event.reply with
  | .append _ _, .ok (.ordinal (some ordinal)) => [ordinal]
  | _, _ => []

section Turns

variable {tables tables' : Tables} {key : ConversationId}

theorem turns_of_appendExchange {faults : Faults} {record : ExchangeRecord}
    {reply : Except StoreError (Option Nat)}
    (h : appendExchange faults key record tables = (reply, tables')) :
    tables'.turns key = tables.turns key := by
  unfold appendExchange at h
  split at h
  · rw [(Prod.mk.inj h).2]
  · cases reply with
    | error e => rw [transaction_eq_error h]
    | ok node =>
      have hbody := transaction_eq_ok.mp h
      simp only [appendExchangeIn, bind_eq_ok] at hbody
      obtain ⟨-, -, -, -, hbody⟩ := hbody
      split at hbody
      · rw [← (Prod.mk.inj (pure_eq_ok.mp hbody)).2]
      · simp only [insertExchange, bind_eq_ok, refuse_eq_ok, pure_eq_ok] at hbody
        obtain ⟨-, -, -, -, -, -, -, -, inserted, hinsert, -, -, hbody⟩ := hbody
        rw [← (Prod.mk.inj hbody).2, (insertNode_eq_ok hinsert).2]
        rfl

theorem turns_of_withholdSample {faults : Faults} {node sampleRows sampleColumns : Nat}
    {reply : Except StoreError Bool}
    (h : withholdSample faults key node sampleRows sampleColumns tables = (reply, tables')) :
    (tables'.turns key).Sublist (tables.turns key) := by
  have hnode (withheld : Tables)
      (h : tables.withholdNode key node sampleRows sampleColumns = .ok (some withheld)) :
      (withheld.turns key).Sublist (tables.turns key) := by
    obtain ⟨change, -, rfl⟩ := withholdNode_eq_ok h
    have hturns : ((tables.setNodes key ((tables.nodes key).map change)).setTurns key
        ((tables.turns key).filter (·.node ≠ some node))).turns key =
        (tables.turns key).filter (·.node ≠ some node) := Function.update_self ..
    rw [hturns]
    exact filter_sublist
  unfold withholdSample at h
  split at h
  · exact (Prod.mk.inj h).2 ▸ List.Sublist.refl _
  split at h
  · exact (Prod.mk.inj h).2 ▸ List.Sublist.refl _
  split at h
  · exact (Prod.mk.inj h).2 ▸ List.Sublist.refl _
  split at h
  · exact (Prod.mk.inj h).2 ▸ List.Sublist.refl _
  · exact (Prod.mk.inj h).2 ▸ List.Sublist.refl _
  next withheld hwithheld =>
    split at h
    · exact (Prod.mk.inj h).2 ▸ hnode withheld hwithheld
    · exact (Prod.mk.inj h).2 ▸ hnode withheld hwithheld

theorem turns_of_step {event : ConversationEvent} (hop : event.op.Writes key)
    (h : ConversationStep tables event tables') :
    (event.given = [] ∧ (tables'.turns key).Sublist (tables.turns key)) ∨
      ∃ row, event.given = [row.ordinal] ∧
        row.ordinal = nextOf ((tables.turns key).map (·.ordinal)) ∧
        tables'.turns key = tables.turns key ++ [row] := by
  obtain ⟨op, faults, reply⟩ := event
  cases hop with
  | exchange record =>
    obtain ⟨_, h⟩ := exists_of_map h
    exact .inl ⟨rfl, turns_of_appendExchange h ▸ List.Sublist.refl _⟩
  | withhold node sampleRows sampleColumns =>
    obtain ⟨_, h⟩ := exists_of_map h
    exact .inl ⟨rfl, turns_of_withholdSample h⟩
  | turn record =>
    cases reply with
    | error e =>
      obtain ⟨_, h'⟩ := exists_of_map h
      rcases appendTurn_cases h' with ⟨rfl, -⟩ | ⟨change, row, hreply, -⟩
      · exact .inl ⟨rfl, List.Sublist.refl _⟩
      · have herror : appendTurn faults key record tables = (.error e, tables') := map_eq_error h
        cases hreply.symm.trans ((Prod.mk.inj (h'.symm.trans herror)).1)
    | ok reply =>
      obtain ⟨given, happend, rfl⟩ : ∃ given,
          appendTurn faults key record tables = (.ok given, tables') ∧
          ConversationReply.ordinal given = reply := map_eq_ok h
      rcases appendTurn_cases happend with ⟨rfl, hnone⟩ | ⟨change, row, hreply, -, -, hnext, -, rfl⟩
      · cases given with
        | none => exact .inl ⟨rfl, List.Sublist.refl _⟩
        | some ordinal => exact absurd rfl (hnone ordinal)
      · obtain rfl := Except.ok.inj hreply
        exact .inr ⟨row, rfl, hnext, Function.update_self ..⟩

end Turns

/-! ## Pages -/

section Pages

variable {turns : List Turn} {after : Option Nat}

theorem mem_turnsAfter {turn : Turn} :
    turn ∈ turnsAfter turns after ↔ turn ∈ turns ∧ ∀ last ∈ after, last < turn.ordinal := by
  unfold turnsAfter
  rw [mem_mergeSort, mem_filter]
  refine and_congr_right fun _ => ?_
  cases after with
  | none => simp
  | some last => simp

theorem turnsAfter_sorted (hdistinct : (turns.map (·.ordinal)).Nodup) :
    (turnsAfter turns after).Pairwise fun a b => a.ordinal < b.ordinal := by
  have hle : (turnsAfter turns after).Pairwise fun a b => a.ordinal ≤ b.ordinal := by
    refine (pairwise_mergeSort (fun a b c hab hbc => ?_) (fun a b => ?_) _).imp of_decide_eq_true
    · exact decide_eq_true (Nat.le_trans (of_decide_eq_true hab) (of_decide_eq_true hbc))
    · simpa using Nat.le_total a.ordinal b.ordinal
  have hne : (turnsAfter turns after).Pairwise fun a b => a.ordinal ≠ b.ordinal := by
    have hfilter := (pairwise_map.mp hdistinct).sublist
      (filter_sublist (p := fun turn : Turn => after.all (· < turn.ordinal)))
    exact (mergeSort_perm _ _).pairwise_iff (fun hab hba => hab hba.symm) |>.mpr hfilter
  exact (hle.and hne).imp fun ⟨hle, hne⟩ => Nat.lt_of_le_of_ne hle hne

variable {tables : Tables} {key : ConversationId} {limit : Nat}

theorem page_sublist : (transcriptPage tables key after limit).turns.Sublist
    (turnsAfter (tables.turns key) after) := take_sublist ..

theorem page_of_next (hdistinct : ((tables.turns key).map (·.ordinal)).Nodup) {next : Nat}
    (h : (transcriptPage tables key after limit).next = some next) :
    (∃ last ∈ (transcriptPage tables key after limit).turns, last.ordinal = next) ∧
      (∀ turn ∈ (transcriptPage tables key after limit).turns, turn.ordinal ≤ next) ∧
      ∀ turn ∈ turnsAfter (tables.turns key) after, turn.ordinal ≤ next →
        turn ∈ (transcriptPage tables key after limit).turns := by
  have hsorted : (turnsAfter (tables.turns key) after).Pairwise fun a b => a.ordinal < b.ordinal :=
    turnsAfter_sorted hdistinct
  obtain ⟨last, hlast, hnext⟩ := Option.bind_eq_some_iff.mp h
  split at hnext
  · obtain rfl := Option.some.inj hnext
    have hsplit := take_append_drop (clampPage limit) (turnsAfter (tables.turns key) after)
    rw [← hsplit, pairwise_append] at hsorted
    obtain ⟨hpage, -, hbehind⟩ := hsorted
    have hmem := mem_of_getLast? hlast
    refine ⟨⟨last, hmem, rfl⟩, fun turn hturn => ?_, fun turn hturn hle => ?_⟩
    · obtain ⟨front, hfront⟩ := getLast?_eq_some_iff.mp hlast
      have hturn : turn ∈ (turnsAfter (tables.turns key) after).take (clampPage limit) := hturn
      rw [hfront] at hturn hpage
      rcases mem_append.mp hturn with hturn | hturn
      · exact Nat.le_of_lt ((pairwise_append.mp hpage).2.2 turn hturn last (by simp))
      · exact Nat.le_of_eq (congrArg _ (mem_singleton.mp hturn))
    · rw [← hsplit] at hturn
      rcases mem_append.mp hturn with hturn | hturn
      · exact hturn
      · exact absurd (hbehind last hmem turn hturn) (Nat.not_lt.mpr hle)
  · cases hnext

theorem page_of_last (hdistinct : ((tables.turns key).map (·.ordinal)).Nodup)
    (h : (transcriptPage tables key after limit).next = none) :
    ∀ turn ∈ turnsAfter (tables.turns key) after,
      turn ∈ (transcriptPage tables key after limit).turns := by
  have hsorted : (turnsAfter (tables.turns key) after).Pairwise fun a b => a.ordinal < b.ordinal :=
    turnsAfter_sorted hdistinct
  intro turn hturn
  have hsplit := take_append_drop (clampPage limit) (turnsAfter (tables.turns key) after)
  rw [← hsplit] at hturn
  rcases mem_append.mp hturn with hturn | hturn
  · exact hturn
  -- The page is full, and there is a turn behind its last one: it would name a next one.
  · exfalso
    have hlong : clampPage limit < (turnsAfter (tables.turns key) after).length := by
      by_contra hshort
      rw [drop_eq_nil_of_le (Nat.not_lt.mp hshort)] at hturn
      cases hturn
    have hfull : ((turnsAfter (tables.turns key) after).take (clampPage limit)).length =
        clampPage limit := length_take_of_le (Nat.le_of_lt hlong)
    cases hlast : ((turnsAfter (tables.turns key) after).take (clampPage limit)).getLast? with
    | none =>
      rw [getLast?_eq_none_iff.mp hlast] at hfull
      exact absurd hfull (Nat.ne_of_lt (clampPage_pos limit))
    | some last =>
      rw [← hsplit, pairwise_append] at hsorted
      have hbehind := hsorted.2.2 last (mem_of_getLast? hlast) turn hturn
      have hmore : (tables.turns key).any (last.ordinal < ·.ordinal) = true :=
        any_eq_true.mpr ⟨turn, (mem_turnsAfter.mp (mem_of_mem_drop hturn)).1,
          decide_eq_true hbehind⟩
      have hnext : (transcriptPage tables key after limit).next = some last.ordinal := by
        unfold transcriptPage
        simp only [hlast, Option.bind_some, hfull, hmore, decide_true, Bool.and_self, if_true]
      rw [h] at hnext
      cases hnext

end Pages

/-! ## Writers, and a reader -/

/-- A reader of a transcript, page by page. -/
structure Reader where
  after : Option Nat
  received : List Turn
  finished : Bool

def Reader.new : Reader := ⟨none, [], false⟩

def Reader.turnPage (reader : Reader) (page : TurnPage) : Reader :=
  ⟨page.next, reader.received ++ page.turns, page.next.isNone⟩

/-- The tables, the ordinals given since the conversation began, and the reader. -/
structure Followed where
  tables : Tables
  given : List Nat
  reader : Reader

inductive TranscriptEvent where
  | wrote (event : ConversationEvent)
  | read (limit : Nat)

inductive TranscriptStep (key : ConversationId) : Followed → TranscriptEvent → Followed → Prop
  | wrote {tables tables' : Tables} {given : List Nat} {reader : Reader}
      {event : ConversationEvent} : event.op.Writes key → ConversationStep tables event tables' →
      TranscriptStep key ⟨tables, given, reader⟩ (.wrote event)
        ⟨tables', given ++ event.given, reader⟩
  | read {tables : Tables} {given : List Nat} {reader : Reader} {limit : Nat} :
      reader.finished = false →
      TranscriptStep key ⟨tables, given, reader⟩ (.read limit)
        ⟨tables, given, reader.turnPage (transcriptPage tables key reader.after limit)⟩

def Begun (key : ConversationId) (s : Followed) : Prop :=
  s.given = (s.tables.turns key).map (·.ordinal) ∧ s.given.Nodup ∧ s.reader = .new

/-- No number that was given is past those of the turns that are there. -/
def Unerased (key : ConversationId) (s : Followed) : Prop :=
  ∀ ordinal ∈ s.given, ∃ turn ∈ s.tables.turns key, ordinal ≤ turn.ordinal

/-- A step that does not append a turn where the last ones have been erased. -/
def OrderlyStep (key : ConversationId) (s : Followed) (event : TranscriptEvent) (s' : Followed) :
    Prop :=
  TranscriptStep key s event s' ∧
    ∀ wrote, event = .wrote wrote → wrote.given ≠ [] → Unerased key s

/-- What a run of such steps keeps. -/
structure Faithful (key : ConversationId) (s : Followed) : Prop where
  distinct : s.given.Nodup
  stored : ∀ turn ∈ s.tables.turns key, turn.ordinal ∈ s.given
  rows : ((s.tables.turns key).map (·.ordinal)).Nodup
  ordered : s.reader.received.Pairwise fun a b => a.ordinal < b.ordinal
  /-- The reader stands at a number that was given, past all it was given. -/
  stands : s.reader.finished = false →
    (∀ turn ∈ s.reader.received, ∃ last ∈ s.reader.after, turn.ordinal ≤ last) ∧
      ∀ last ∈ s.reader.after, last ∈ s.given
  whole : s.reader.finished = false → ∀ turn ∈ s.tables.turns key, ∀ last ∈ s.reader.after,
    turn.ordinal ≤ last → turn ∈ s.reader.received

section Faithful

variable {key : ConversationId} {s s' : Followed}

theorem Begun.faithful (h : Begun key s) : Faithful key s := by
  obtain ⟨hgiven, hdistinct, hnew⟩ := h
  refine ⟨hdistinct, fun turn hturn => ?_, hgiven ▸ hdistinct, ?_, fun _ => ⟨?_, ?_⟩, ?_⟩
  · rw [hgiven]
    exact mem_map_of_mem hturn
  · rw [hnew]
    exact .nil
  · rw [hnew]
    exact fun turn hturn => absurd hturn not_mem_nil
  · rw [hnew]
    exact fun last hlast => absurd hlast (Option.not_mem_none _)
  · rw [hnew]
    exact fun _ turn _ last hlast => absurd hlast (Option.not_mem_none _)

theorem lt_of_unerased (h : Unerased key s) {ordinal : Nat} (hgiven : ordinal ∈ s.given) :
    ordinal < nextOf ((s.tables.turns key).map (·.ordinal)) := by
  obtain ⟨turn, hturn, hle⟩ := h ordinal hgiven
  exact Nat.lt_of_le_of_lt hle (lt_nextOf (mem_map_of_mem hturn))

theorem Faithful.read (h : Faithful key s) (hgoing : s.reader.finished = false) (limit : Nat) :
    Faithful key ⟨s.tables, s.given,
      s.reader.turnPage (transcriptPage s.tables key s.reader.after limit)⟩ := by
  obtain ⟨hupTo, hknown⟩ := h.stands hgoing
  have hsub : (transcriptPage s.tables key s.reader.after limit).turns.Sublist
      (turnsAfter (s.tables.turns key) s.reader.after) := page_sublist
  have hbehind (turn : Turn) (hturn : turn ∈ (transcriptPage s.tables key s.reader.after limit).turns) :
      turn ∈ s.tables.turns key ∧ ∀ last ∈ s.reader.after, last < turn.ordinal :=
    mem_turnsAfter.mp (hsub.subset hturn)
  refine ⟨h.distinct, h.stored, h.rows, ?_, fun hmore => ?_, fun hmore => ?_⟩
  · refine pairwise_append.mpr ⟨h.ordered, (turnsAfter_sorted h.rows).sublist hsub, ?_⟩
    intro turn hturn turn' hturn'
    obtain ⟨last, hlast, hle⟩ := hupTo turn hturn
    exact Nat.lt_of_le_of_lt hle ((hbehind turn' hturn').2 last hlast)
  all_goals
    obtain ⟨next, hnext⟩ : ∃ next,
        (transcriptPage s.tables key s.reader.after limit).next = some next :=
      Option.isSome_iff_exists.mp (Option.isNone_eq_false_iff.mp hmore)
    obtain ⟨⟨end', hend, hend'⟩, hle, hall⟩ := page_of_next h.rows hnext
  · refine ⟨fun turn hturn => ⟨next, hnext, ?_⟩, fun last hlast => ?_⟩
    · rcases mem_append.mp hturn with hturn | hturn
      · obtain ⟨last, hlast, hle'⟩ := hupTo turn hturn
        rw [← hend']
        exact Nat.le_trans hle' (Nat.le_of_lt ((hbehind end' hend).2 last hlast))
      · exact hle turn hturn
    · obtain rfl : next = last := Option.some.inj (hnext.symm.trans hlast)
      rw [← hend']
      exact h.stored end' (hbehind end' hend).1
  · intro turn hturn last hlast hturn'
    obtain rfl : next = last := Option.some.inj (hnext.symm.trans hlast)
    refine mem_append.mpr ?_
    by_cases hpast : ∀ last ∈ s.reader.after, last < turn.ordinal
    · exact .inr (hall turn (mem_turnsAfter.mpr ⟨hturn, hpast⟩) hturn')
    · simp only [not_forall, Nat.not_lt] at hpast
      obtain ⟨last, hlast, hle'⟩ := hpast
      exact .inl (h.whole hgoing turn hturn last hlast hle')

theorem Faithful.step {event : TranscriptEvent} (h : Faithful key s)
    (hstep : OrderlyStep key s event s') : Faithful key s' := by
  obtain ⟨hstep, horderly⟩ := hstep
  cases hstep with
  | read hgoing => exact h.read hgoing _
  | @wrote tables tables' given reader event hop hstep =>
    rcases turns_of_step hop hstep with ⟨hnone, hsub⟩ | ⟨row, hrow, hnext, hturns⟩
    · rw [hnone, append_nil]
      exact ⟨h.distinct, fun turn hturn => h.stored turn (hsub.subset hturn),
        h.rows.sublist (hsub.map _), h.ordered, h.stands,
        fun hgoing turn hturn => h.whole hgoing turn (hsub.subset hturn)⟩
    · have hpast (ordinal : Nat) (hgiven : ordinal ∈ given) : ordinal < row.ordinal := by
        rw [hnext]
        exact lt_of_unerased (horderly event rfl (hrow ▸ cons_ne_nil _ _)) hgiven
      rw [hrow]
      refine ⟨?_, fun turn hturn => ?_, ?_, h.ordered, fun hgoing => ?_, fun hgoing => ?_⟩
      · exact List.nodup_append.mpr ⟨h.distinct, pairwise_singleton ..,
          fun a ha b hb => Nat.ne_of_lt (mem_singleton.mp hb ▸ hpast a ha)⟩
      · have hturn : turn ∈ tables'.turns key := hturn
        rw [hturns] at hturn
        rcases mem_append.mp hturn with hturn | hturn
        · exact mem_append_left _ (h.stored turn hturn)
        · exact mem_append_right _ (mem_singleton.mp hturn ▸ mem_singleton.mpr rfl)
      · show ((tables'.turns key).map (·.ordinal)).Nodup
        rw [hturns, map_append]
        refine List.nodup_append.mpr ⟨h.rows, pairwise_singleton .., fun a ha b hb => ?_⟩
        obtain ⟨turn, hturn, rfl⟩ := mem_map.mp ha
        exact Nat.ne_of_lt (mem_singleton.mp hb ▸ hpast _ (h.stored turn hturn))
      · obtain ⟨hupTo, hknown⟩ := h.stands hgoing
        exact ⟨hupTo, fun last hlast => mem_append_left _ (hknown last hlast)⟩
      · intro turn hturn last hlast hle
        have hturn : turn ∈ tables'.turns key := hturn
        rw [hturns] at hturn
        rcases mem_append.mp hturn with hturn | hturn
        · exact h.whole hgoing turn hturn last hlast hle
        -- The turn that is new is past where the reader stands.
        · obtain rfl := mem_singleton.mp hturn
          exact absurd (hpast last ((h.stands hgoing).2 last hlast)) (Nat.not_lt.mpr hle)

theorem Faithful.finish {limit : Nat} (h : Faithful key s)
    (hstep : TranscriptStep key s (.read limit) s') (hfinished : s'.reader.finished = true) :
    ∀ turn ∈ s'.tables.turns key, turn ∈ s'.reader.received := by
  cases hstep with
  | @read tables given reader _ hgoing =>
    have hlast : (transcriptPage tables key reader.after limit).next = none :=
      Option.isNone_iff_eq_none.mp hfinished
    intro turn hturn
    refine mem_append.mpr ?_
    by_cases hpast : ∀ last ∈ reader.after, last < turn.ordinal
    · exact .inr (page_of_last h.rows hlast turn (mem_turnsAfter.mpr ⟨hturn, hpast⟩))
    · simp only [not_forall, Nat.not_lt] at hpast
      obtain ⟨last, hmem, hle⟩ := hpast
      exact .inl (h.whole hgoing turn hturn last hmem hle)

end Faithful

/-! ## The last turn erased -/

/-- A turn that is attached to no exchange. -/
def aRemark : TurnRecord := ⟨3, none, [], .ok ⟨none, none, none⟩⟩

def erased : Tables := answered.after (.withholdSample 0 0 1 1) noFaults

def remarked : Tables := erased.after (.append 0 aRemark) noFaults

def followed : Followed := ⟨saved, [], .new⟩

theorem followed_begun : Begun 0 followed := ⟨rfl, nodup_nil, rfl⟩

theorem step_asked : TranscriptStep 0 followed
    (.wrote (saved.event (.appendExchange 0 anExchange) noFaults)) ⟨asked, [], .new⟩ :=
  .wrote (.exchange anExchange) (step_after ..)

theorem step_answered : TranscriptStep 0 ⟨asked, [], .new⟩
    (.wrote (asked.event (.append 0 anAnswer) noFaults)) ⟨answered, [0], .new⟩ :=
  .wrote (.turn anAnswer) (step_after ..)

theorem step_erased : TranscriptStep 0 ⟨answered, [0], .new⟩
    (.wrote (answered.event (.withholdSample 0 0 1 1) noFaults)) ⟨erased, [0], .new⟩ :=
  .wrote (.withhold 0 1 1) (step_after ..)

theorem step_remarked : TranscriptStep 0 ⟨erased, [0], .new⟩
    (.wrote (erased.event (.append 0 aRemark) noFaults)) ⟨remarked, [0, 0], .new⟩ :=
  .wrote (.turn aRemark) (step_after ..)

/-- As long as no turn is appended where the last ones have been erased, no ordinal is given
twice, a reader is not given a turn twice, and when it stops it has been given all there are. -/
theorem transcript_is_faithful {key : ConversationId} {start s : Followed}
    {tr : List TranscriptEvent} (hbegun : Begun key start)
    (h : Steps (OrderlyStep key) start tr s) :
    s.given.Nodup ∧ (s.reader.received.map (·.ordinal)).Nodup ∧
      ∀ limit s', TranscriptStep key s (.read limit) s' → s'.reader.finished = true →
        ∀ turn ∈ s'.tables.turns key, turn ∈ s'.reader.received := by
  have hfaithful : Faithful key s :=
    h.invariant (fun _ _ _ hfaithful hstep => hfaithful.step hstep) hbegun.faithful
  refine ⟨hfaithful.distinct, ?_, fun limit s' => hfaithful.finish⟩
  exact pairwise_map.mpr (hfaithful.ordered.imp Nat.ne_of_lt)

/-! ### An answer erased behind the reader -/

def noted : Tables := answered.after (.append 0 aRemark) noFaults

def withheld : Tables := noted.after (.withholdSample 0 0 1 1) noFaults

def notedAgain : Tables := withheld.after (.append 0 aRemark) noFaults

theorem turnsAfter_of_sorted {turns : List Turn} (after : Option Nat)
    (h : turns.Pairwise fun a b => a.ordinal ≤ b.ordinal) :
    turnsAfter turns after = turns.filter fun turn => after.all (· < turn.ordinal) :=
  mergeSort_of_pairwise ((h.sublist filter_sublist).imp decide_eq_true)

def atAnswer : Reader := Reader.new.turnPage (transcriptPage noted 0 none 1)

/-- An answer and a remark; the answer is read, and then erased; another remark. -/
theorem run_notedAgain :
    ∃ tr, Steps (OrderlyStep 0) followed tr ⟨notedAgain, [0, 1, 2], atAnswer⟩ := by
  have hanswered : Steps (OrderlyStep 0) followed _ ⟨answered, [0], .new⟩ :=
    (Steps.nil.snoc ⟨step_asked, fun _ _ _ => by simp [Unerased, followed]⟩).snoc
      ⟨step_answered, fun _ _ _ => by simp [Unerased]⟩
  have hnoted : TranscriptStep 0 ⟨answered, [0], .new⟩
      (.wrote (answered.event (.append 0 aRemark) noFaults)) ⟨noted, [0, 1], .new⟩ :=
    .wrote (.turn aRemark) (step_after ..)
  have hread : TranscriptStep 0 ⟨noted, [0, 1], .new⟩ (.read 1) ⟨noted, [0, 1], atAnswer⟩ :=
    .read rfl
  have hwithheld : TranscriptStep 0 ⟨noted, [0, 1], atAnswer⟩
      (.wrote (noted.event (.withholdSample 0 0 1 1) noFaults)) ⟨withheld, [0, 1], atAnswer⟩ :=
    .wrote (.withhold 0 1 1) (step_after ..)
  have hagain : TranscriptStep 0 ⟨withheld, [0, 1], atAnswer⟩
      (.wrote (withheld.event (.append 0 aRemark) noFaults))
      ⟨notedAgain, [0, 1, 2], atAnswer⟩ :=
    .wrote (.turn aRemark) (step_after ..)
  exact ⟨_, (((hanswered.snoc ⟨hnoted, fun _ _ _ => by unfold Unerased; decide⟩).snoc
    ⟨hread, fun _ h => by cases h⟩).snoc ⟨hwithheld, fun _ h hgiven => by
      cases h
      exact absurd rfl hgiven⟩).snoc ⟨hagain, fun _ _ _ => by unfold Unerased; decide +kernel⟩⟩

theorem atAnswer_eq : atAnswer = ⟨some 0, answered.turns 0, false⟩ := by
  unfold atAnswer transcriptPage
  rw [turnsAfter_of_sorted _ (by decide)]
  rfl

theorem lastPage_notedAgain :
    transcriptPage notedAgain 0 (some 0) 8 = ⟨notedAgain.turns 0, none⟩ := by
  unfold transcriptPage
  rw [turnsAfter_of_sorted _ (by decide)]
  rfl

/-- What the reader is given in the end: the answer that was there, and both remarks. -/
theorem erased_answer_is_followed :
    [0, 1, 2].Nodup ∧ ∃ s', TranscriptStep 0 ⟨notedAgain, [0, 1, 2], atAnswer⟩ (.read 8) s' ∧
      s'.reader.received.map (·.ordinal) = [0, 1, 2] ∧
      ∀ turn ∈ s'.tables.turns 0, turn ∈ s'.reader.received := by
  obtain ⟨tr, hrun⟩ := run_notedAgain
  obtain ⟨hdistinct, -, hlast⟩ := transcript_is_faithful followed_begun hrun
  have hread : TranscriptStep 0 ⟨notedAgain, [0, 1, 2], atAnswer⟩ (.read 8)
      ⟨notedAgain, [0, 1, 2], ⟨none, answered.turns 0 ++ notedAgain.turns 0, true⟩⟩ := by
    have h := @TranscriptStep.read 0 notedAgain [0, 1, 2] ⟨some 0, answered.turns 0, false⟩ 8 rfl
    rw [atAnswer_eq]
    rwa [lastPage_notedAgain] at h
  exact ⟨hdistinct, _, hread, rfl, hlast 8 _ hread rfl⟩

/-- The answer, the last turn, is erased; the next one is given its number. -/
theorem ordinal_given_twice :
    ¬ ∀ (key : ConversationId) (start s : Followed) (tr : List TranscriptEvent), Begun key start →
      Steps (TranscriptStep key) start tr s → s.given.Nodup := by
  intro h
  have hdistinct : [0, 0].Nodup := h 0 followed ⟨remarked, [0, 0], .new⟩ _ followed_begun
    ((((Steps.nil.snoc step_asked).snoc step_answered).snoc step_erased).snoc step_remarked)
  exact absurd hdistinct (by decide)

end Oxyn.Store
