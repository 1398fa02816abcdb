/-
# `Oxyn.Store.Retention` — what a pruning keeps

A pruning walks over the conversations of a workspace, the most recently active first, and keeps a
prefix of them.
-/
import Oxyn.Store.Tree
import Mathlib.Data.List.Nodup

namespace Oxyn.Store

open Fallible Text List

/-! ## The bounds -/

def total (candidates : List Candidate) : Nat := (candidates.map (·.bytes)).sum

def totalTurns (candidates : List Candidate) : Nat := (candidates.map (·.turns)).sum

/-- The conversations are so many at most, and none of them is older than the age bound. -/
structure Admissible (policy : RetentionPolicy) (cutoff : Option Int) (kept : List Candidate) :
    Prop where
  count : kept.length ≤ policy.maxConversations
  age : ∀ candidate ∈ kept, ∀ date, cutoff = some date → date ≤ candidate.updatedAt

/-- Within the three bounds; a conversation alone may exceed the last one. -/
structure Within (policy : RetentionPolicy) (cutoff : Option Int) (kept : List Candidate) : Prop
    extends Admissible policy cutoff kept where
  bytes : total kept ≤ policy.maxBytes ∨ kept.length ≤ 1

/-- The longest prefix within the bounds, and what is past it. -/
structure Longest (policy : RetentionPolicy) (cutoff : Option Int)
    (candidates kept dropped : List Candidate) : Prop where
  split : candidates = kept ++ dropped
  within : Within policy cutoff kept
  next : ∀ candidate rest, dropped = candidate :: rest → ¬ Within policy cutoff (kept ++ [candidate])

/-- The report of a removal, counted without a bound. -/
def reportOf (dropped : List Candidate) : PruneReport :=
  ⟨dropped.length, totalTurns dropped, total dropped⟩

/-- What the fields of a report can hold. -/
structure Countable (dropped : List Candidate) : Prop where
  conversations : dropped.length ≤ u32Max
  turns : totalTurns dropped ≤ u32Max
  bytes : total dropped ≤ u64Max

section

variable {policy : RetentionPolicy} {cutoff : Option Int}

theorem total_append (candidates others : List Candidate) :
    total (candidates ++ others) = total candidates + total others := by
  unfold total
  rw [map_append, sum_append]

theorem total_concat (candidates : List Candidate) (candidate : Candidate) :
    total (candidates ++ [candidate]) = total candidates + candidate.bytes := by
  rw [total_append]
  rfl

theorem Admissible.initial {kept others : List Candidate}
    (h : Admissible policy cutoff (kept ++ others)) : Admissible policy cutoff kept where
  count := by
    have hcount := h.count
    rw [length_append] at hcount
    omega
  age candidate hmem := h.age candidate (mem_append_left _ hmem)

theorem Within.initial {kept others : List Candidate} (h : Within policy cutoff (kept ++ others)) :
    Within policy cutoff kept where
  toAdmissible := h.toAdmissible.initial
  bytes := by
    have hbytes := h.bytes
    rw [total_append, length_append] at hbytes
    omega

theorem Within.nil : Within policy cutoff [] where
  count := Nat.zero_le _
  age := nofun
  bytes := .inl (Nat.zero_le _)

theorem prefix_or {kept dropped kept' dropped' : List Candidate}
    (h : kept ++ dropped = kept' ++ dropped') :
    (∃ more, kept' = kept ++ more ∧ dropped = more ++ dropped') ∨
      ∃ candidate rest, kept = kept' ++ candidate :: rest ∧
        dropped' = candidate :: rest ++ dropped := by
  rcases append_eq_append_iff.mp h with ⟨more, hkept, hdropped⟩ | ⟨more, hkept, hdropped⟩
  · exact .inl ⟨more, hkept, hdropped⟩
  · cases more with
    | nil =>
      rw [append_nil] at hkept
      exact .inl ⟨[], by rw [append_nil, hkept], by rw [nil_append]; exact hdropped.symm⟩
    | cons candidate rest => exact .inr ⟨candidate, rest, hkept, hdropped⟩

theorem Longest.unique {candidates kept dropped kept' dropped' : List Candidate}
    (h : Longest policy cutoff candidates kept dropped)
    (h' : Longest policy cutoff candidates kept' dropped') : kept = kept' ∧ dropped = dropped' := by
  have hlonger : ∀ {kept dropped kept' dropped' : List Candidate} {candidate : Candidate}
      {rest : List Candidate}, Longest policy cutoff candidates kept dropped →
      Longest policy cutoff candidates kept' dropped' → kept = kept' ++ candidate :: rest →
      dropped' = candidate :: rest ++ dropped → False := by
    intro kept dropped kept' dropped' candidate rest hl hl' hkept hdropped
    refine hl'.next candidate (rest ++ dropped) hdropped ?_
    have hwithin := hl.within
    rw [hkept, ← singleton_append, ← append_assoc] at hwithin
    exact hwithin.initial
  rcases prefix_or (h.split.symm.trans h'.split) with ⟨more, hkept, hdropped⟩ | hshorter
  · cases more with
    | nil => exact ⟨by rw [hkept, append_nil], by rw [hdropped, nil_append]⟩
    | cons candidate rest => exact (hlonger h' h hkept hdropped).elim
  · obtain ⟨candidate, rest, hkept, hdropped⟩ := hshorter
    exact (hlonger h h' hkept hdropped).elim

end

/-! ## The walk -/

section

variable {policy : RetentionPolicy} {cutoff : Option Int}

/-- What the walk admits, behind so many conversations of so many bytes. -/
def admits (policy : RetentionPolicy) (cutoff : Option Int) (rank keptBytes : Nat)
    (candidate : Candidate) : Prop :=
  rank < policy.maxConversations ∧ (∀ date, cutoff = some date → date ≤ candidate.updatedAt) ∧
    (keptBytes = 0 ∨ policy.maxBytes = u64Max ∨ keptBytes + candidate.bytes ≤ policy.maxBytes)

structure RetentionPolicy.Typed (policy : RetentionPolicy) : Prop where
  conversations : policy.maxConversations ≤ u32Max
  bytes : policy.maxBytes ≤ u64Max

theorem saturating_min (greatest a b : Nat) :
    saturating greatest (min a greatest) b = min (a + b) greatest := by
  unfold saturating
  omega

variable {candidate : Candidate}

theorem visit_admitted (htyped : policy.Typed) {rank kept : Nat}
    {report : PruneReport} {removals : List ConversationId}
    (h : admits policy cutoff rank kept candidate) :
    Walk.visit policy cutoff ⟨min kept u64Max, false, report, removals⟩ (candidate, rank) =
      ⟨min (kept + candidate.bytes) u64Max, false, report, removals⟩ := by
  have hcount := htyped.conversations
  have hbytes := htyped.bytes
  obtain ⟨hrank, hage, hroom⟩ := h
  have hall : cutoff.all (· ≤ candidate.updatedAt) = true := by
    rw [Option.all_eq_true]
    exact fun date hdate => decide_eq_true (hage date hdate)
  have hmin : min rank u32Max < policy.maxConversations := by omega
  unfold Walk.visit
  dsimp only
  rw [saturating_min, hall, decide_eq_true hmin, if_pos]
  rw [Bool.not_false, Bool.true_and, Bool.true_and, Bool.true_and, Bool.or_eq_true, beq_iff_eq,
    decide_eq_true_iff]
  omega

theorem visit_refused (htyped : policy.Typed) {rank kept : Nat}
    {report : PruneReport} {removals : List ConversationId}
    (h : ¬ admits policy cutoff rank kept candidate) :
    Walk.visit policy cutoff ⟨min kept u64Max, false, report, removals⟩ (candidate, rank) =
      Walk.visit policy cutoff ⟨min kept u64Max, true, report, removals⟩ (candidate, rank) := by
  have hcount := htyped.conversations
  have hbytes := htyped.bytes
  have hrefused : (!false && decide (min rank u32Max < policy.maxConversations) &&
      cutoff.all (· ≤ candidate.updatedAt) && (min kept u64Max == 0 ||
        decide (saturating u64Max (min kept u64Max) candidate.bytes ≤ policy.maxBytes))) = false := by
    rw [Bool.eq_false_iff]
    intro hadmitted
    rw [saturating_min, Bool.not_false, Bool.true_and, Bool.and_eq_true, Bool.and_eq_true,
      Bool.or_eq_true, decide_eq_true_iff, decide_eq_true_iff, beq_iff_eq,
      Option.all_eq_true] at hadmitted
    obtain ⟨⟨hrank, hage⟩, hroom⟩ := hadmitted
    refine h ⟨by omega, fun date hdate => of_decide_eq_true (hage date hdate), ?_⟩
    have hpos : 0 < u64Max := Nat.sub_pos_of_lt (Nat.one_lt_two_pow (by omega))
    omega
  unfold Walk.visit
  dsimp only
  rw [hrefused, if_neg nofun, if_neg nofun]

theorem visit_dropping (ranked : List (Candidate × Nat)) (kept : Nat)
    (dropped : List Candidate) :
    ranked.foldl (Walk.visit policy cutoff) ⟨kept, true,
        ⟨min dropped.length u32Max, min (totalTurns dropped) u32Max, min (total dropped) u64Max⟩,
        dropped.map (·.id)⟩ =
      ⟨kept, true, ⟨min (dropped ++ ranked.map Prod.fst).length u32Max,
        min (totalTurns (dropped ++ ranked.map Prod.fst)) u32Max,
        min (total (dropped ++ ranked.map Prod.fst)) u64Max⟩,
        (dropped ++ ranked.map Prod.fst).map (·.id)⟩ := by
  induction ranked generalizing dropped with
  | nil => rw [map_nil, append_nil, foldl_nil]
  | cons entry ranked ih =>
    have hmore : dropped ++ (entry :: ranked).map Prod.fst =
        (dropped ++ [entry.1]) ++ ranked.map Prod.fst := by
      rw [map_cons, append_assoc, singleton_append]
    rw [foldl_cons, hmore, ← ih]
    refine congrArg (List.foldl _ · ranked) ?_
    unfold Walk.visit
    dsimp only
    rw [Bool.not_true, Bool.false_and, Bool.false_and, Bool.false_and, if_neg nofun]
    have hturns : totalTurns (dropped ++ [entry.1]) = totalTurns dropped + entry.1.turns := by
      unfold totalTurns
      rw [map_append, sum_append]
      rfl
    have hturnsMin : saturating u32Max (min (totalTurns dropped) u32Max) (min entry.1.turns u32Max) =
        min (totalTurns dropped + entry.1.turns) u32Max := by
      unfold saturating
      omega
    rw [total_concat, hturns, length_append, map_append, hturnsMin, saturating_min,
      saturating_min]
    rfl

inductive AdmitsAll (policy : RetentionPolicy) (cutoff : Option Int) :
    List Candidate → Prop
  | nil : AdmitsAll policy cutoff []
  | snoc {kept : List Candidate} {candidate : Candidate} : AdmitsAll policy cutoff kept →
      admits policy cutoff kept.length (total kept) candidate →
      AdmitsAll policy cutoff (kept ++ [candidate])

/-- The walk keeps the longest prefix that is admitted, and removes the rest. -/
theorem walk_spec (htyped : policy.Typed) (kept candidates : List Candidate)
    (hkept : AdmitsAll policy cutoff kept) :
    ∃ more dropped, candidates = more ++ dropped ∧ AdmitsAll policy cutoff (kept ++ more) ∧
      (∀ candidate rest, dropped = candidate :: rest →
        ¬ admits policy cutoff (kept ++ more).length (total (kept ++ more)) candidate) ∧
      let walk := (candidates.zipIdx kept.length).foldl (Walk.visit policy cutoff)
        ⟨min (total kept) u64Max, false, ⟨0, 0, 0⟩, []⟩
      walk.removals = dropped.map (·.id) ∧
        walk.report = ⟨min dropped.length u32Max, min (totalTurns dropped) u32Max,
          min (total dropped) u64Max⟩ := by
  induction candidates generalizing kept with
  | nil =>
    refine ⟨[], [], rfl, (append_nil kept).symm ▸ hkept, nofun, rfl, ?_⟩
    rfl
  | cons candidate rest ih =>
    by_cases hadmitted : admits policy cutoff kept.length (total kept) candidate
    · obtain ⟨more, dropped, hsplit, hall, hnext, hwalk⟩ := ih (kept ++ [candidate])
        (.snoc hkept hadmitted)
      rw [append_assoc, singleton_append] at hall hnext
      refine ⟨candidate :: more, dropped, by rw [hsplit, cons_append], hall, hnext, ?_⟩
      rw [zipIdx_cons, foldl_cons, visit_admitted htyped hadmitted]
      rw [total_concat, length_append] at hwalk
      exact hwalk
    · refine ⟨[], candidate :: rest, rfl, (append_nil kept).symm ▸ hkept, ?_, ?_⟩
      · intro next others heq
        cases heq
        rw [append_nil]
        exact hadmitted
      · have hdropping := @visit_dropping policy cutoff
          ((candidate :: rest).zipIdx kept.length) (min (total kept) u64Max) []
        rw [nil_append, zipIdx_map_fst, zipIdx_cons, foldl_cons] at hdropping
        rw [zipIdx_cons, foldl_cons, visit_refused htyped hadmitted]
        dsimp only
        have hzero : (⟨0, 0, 0⟩ : PruneReport) = ⟨min ([] : List Candidate).length u32Max,
          min (totalTurns []) u32Max, min (total []) u64Max⟩ := rfl
        have hnone : ([] : List ConversationId) = ([] : List Candidate).map (·.id) := rfl
        rw [hzero, hnone, hdropping]
        exact ⟨rfl, rfl⟩

/-! ## Where the walk keeps the longest prefix -/

/-- Behind a prefix within the bounds, a conversation that has only empty ones in front of it, or
that is weighed against the greatest bound there is, keeps the sum within the bound. -/
def Weighed (policy : RetentionPolicy) (cutoff : Option Int) (candidates : List Candidate) :
    Prop :=
  ∀ before candidate after, candidates = before ++ candidate :: after → before ≠ [] →
    Within policy cutoff before → Admissible policy cutoff (before ++ [candidate]) →
    total before = 0 ∨ policy.maxBytes = u64Max →
      total before + candidate.bytes ≤ policy.maxBytes

variable {kept : List Candidate}

theorem Admissible.concat :
    Admissible policy cutoff (kept ++ [candidate]) ↔
      Admissible policy cutoff kept ∧ kept.length < policy.maxConversations ∧
        ∀ date, cutoff = some date → date ≤ candidate.updatedAt := by
  constructor
  · intro h
    have hcount := h.count
    rw [length_append, length_singleton] at hcount
    exact ⟨h.initial, by omega, h.age candidate (mem_append_right _ (mem_singleton_self _))⟩
  · rintro ⟨h, hcount, hage⟩
    refine ⟨?_, fun other hmem => ?_⟩
    · rw [length_append, length_singleton]
      omega
    · rcases mem_append.mp hmem with hmem | hmem
      · exact h.age other hmem
      · cases mem_singleton.mp hmem
        exact hage

theorem admits_of_within (h : Within policy cutoff (kept ++ [candidate])) :
    admits policy cutoff kept.length (total kept) candidate := by
  obtain ⟨-, hcount, hage⟩ := Admissible.concat.mp h.toAdmissible
  refine ⟨hcount, hage, ?_⟩
  have hbytes := h.bytes
  rw [total_concat, length_append, length_singleton] at hbytes
  rcases hbytes with hbytes | hone
  · exact .inr (.inr hbytes)
  · have hnil : kept = [] := eq_nil_of_length_eq_zero (by omega)
    exact .inl (by rw [hnil]; rfl)

theorem within_of_admits {kept after : List Candidate}
    (hweighed : Weighed policy cutoff (kept ++ candidate :: after))
    (hkept : Within policy cutoff kept)
    (h : admits policy cutoff kept.length (total kept) candidate) :
    Within policy cutoff (kept ++ [candidate]) := by
  obtain ⟨hcount, hage, hroom⟩ := h
  have hadmissible : Admissible policy cutoff (kept ++ [candidate]) :=
    Admissible.concat.mpr ⟨hkept.toAdmissible, hcount, hage⟩
  refine ⟨hadmissible, ?_⟩
  rw [total_concat, length_append, length_singleton]
  by_cases hnil : kept = []
  · rw [hnil]
    exact .inr (Nat.le_refl 1)
  · have hsum := hweighed kept candidate after rfl hnil hkept hadmissible
    rcases hroom with hzero | hgreatest | hroom
    · exact .inl (hsum (.inl hzero))
    · exact .inl (hsum (.inr hgreatest))
    · exact .inl hroom

theorem admitsAll_of_within (h : Within policy cutoff kept) :
    AdmitsAll policy cutoff kept := by
  induction kept using List.reverseRecOn with
  | nil => exact .nil
  | append_singleton kept candidate ih => exact .snoc (ih h.initial) (admits_of_within h)

theorem within_of_admitsAll {kept dropped : List Candidate}
    (hweighed : Weighed policy cutoff (kept ++ dropped)) (h : AdmitsAll policy cutoff kept) :
    Within policy cutoff kept := by
  induction h generalizing dropped with
  | nil => exact .nil
  | @snoc kept candidate _ hadmits ih =>
    rw [append_assoc, singleton_append] at hweighed
    exact within_of_admits hweighed (ih hweighed) hadmits

theorem AdmitsAll.last (h : AdmitsAll policy cutoff (kept ++ [candidate])) :
    admits policy cutoff kept.length (total kept) candidate := by
  generalize hall : kept ++ [candidate] = all at h
  cases h with
  | nil => exact absurd (congrArg List.length hall) (by simp)
  | snoc _ hadmits =>
    obtain ⟨rfl, hlast⟩ := append_inj' hall rfl
    cases hlast
    exact hadmits

theorem AdmitsAll.initial {kept more : List Candidate} (h : AdmitsAll policy cutoff (kept ++ more)) :
    AdmitsAll policy cutoff kept := by
  induction more using List.reverseRecOn with
  | nil => exact (append_nil kept) ▸ h
  | append_singleton more candidate ih =>
    rw [← append_assoc] at h
    generalize hall : kept ++ more ++ [candidate] = all at h
    cases h with
    | nil => exact absurd (congrArg List.length hall) (by simp)
    | snoc hkept _ =>
      obtain ⟨hsame, -⟩ := append_inj' hall rfl
      exact ih (hsame ▸ hkept)

end

/-! ## The tables behind a pruning -/

section

/-- `PRIMARY KEY (id)`. -/
def Tables.Distinct (tables : Tables) : Prop := (tables.conversations.map (·.id)).Nodup

/-- A conversation as the walk weighs it. -/
def Tables.candidate (tables : Tables) (row : Conversation) : Candidate :=
  ⟨row.id, row.updatedAt, (tables.turns row.id).length,
    ((tables.turns row.id).map (·.bytes)).sum + ((tables.nodes row.id).map (size ·.question)).sum⟩

/-- The conversations of a workspace, the most recently active first. -/
def Tables.ordered (tables : Tables) (workspace : Nat) : List Conversation :=
  (tables.conversations.filter (·.workspace = workspace)).mergeSort Conversation.before

theorem weigh_eq (tables : Tables) (workspace : Nat) :
    tables.weigh workspace = (tables.ordered workspace).map tables.candidate := rfl

theorem before_trans (a b c : Conversation) (hab : a.before b = true) (hbc : b.before c = true) :
    a.before c = true := by
  simp only [Conversation.before, Bool.or_eq_true, Bool.and_eq_true, beq_iff_eq,
    decide_eq_true_iff] at hab hbc ⊢
  grind

theorem before_total (a b : Conversation) : (a.before b || b.before a) = true := by
  simp only [Conversation.before, Bool.or_eq_true, Bool.and_eq_true, beq_iff_eq,
    decide_eq_true_iff]
  grind

theorem before_antisymm {a b : Conversation} (hab : a.before b = true) (hba : b.before a = true) :
    a.id = b.id := by
  simp only [Conversation.before, Bool.or_eq_true, Bool.and_eq_true, beq_iff_eq,
    decide_eq_true_iff] at hab hba
  grind

variable {tables : Tables} {workspace : Nat}

theorem ordered_perm : (tables.ordered workspace).Perm
    (tables.conversations.filter (·.workspace = workspace)) := mergeSort_perm _ _

theorem ordered_sorted : (tables.ordered workspace).Pairwise (fun a b => a.before b = true) :=
  pairwise_mergeSort before_trans before_total _

theorem ordered_distinct (h : tables.Distinct) : ((tables.ordered workspace).map (·.id)).Nodup :=
  (ordered_perm.map _).nodup_iff.mpr (h.sublist (filter_sublist.map _))

theorem conversations_deleteAll (keys : List ConversationId) (tables : Tables) :
    (keys.foldl Tables.deleteHeader tables).conversations =
      tables.conversations.filter (·.id ∉ keys) := by
  induction keys generalizing tables with
  | nil => exact (filter_eq_self.mpr fun row _ => by simp).symm
  | cons key keys ih =>
    rw [foldl_cons, ih]
    show (tables.conversations.filter (·.id ≠ key)).filter (·.id ∉ keys) = _
    rw [filter_filter]
    refine filter_congr fun row _ => ?_
    simp only [mem_cons, not_or, decide_not, Bool.decide_and, Bool.and_comm]

theorem ordered_deleteAll (h : tables.Distinct) {kept dropped : List Conversation}
    (hsplit : tables.ordered workspace = kept ++ dropped) :
    ((dropped.map (·.id)).foldl Tables.deleteHeader tables).ordered workspace = kept := by
  have hdistinct := @ordered_distinct tables workspace h
  rw [hsplit, map_append, List.nodup_append] at hdistinct
  obtain ⟨hkept, -, hapart⟩ := hdistinct
  have hsorted := @ordered_sorted tables workspace
  rw [hsplit] at hsorted
  have hfilter : (kept ++ dropped).filter (·.id ∉ dropped.map (·.id)) = kept := by
    rw [filter_append, filter_eq_self.mpr, filter_eq_nil_iff.mpr, append_nil]
    · intro row hrow
      simpa using ⟨row, hrow, rfl⟩
    · intro row hrow
      refine decide_eq_true fun hmem => ?_
      exact hapart _ (mem_map_of_mem hrow) _ hmem rfl
  have hperm : (((dropped.map (·.id)).foldl Tables.deleteHeader tables).ordered workspace).Perm
      kept := by
    refine ordered_perm.trans ?_
    rw [conversations_deleteAll, filter_comm]
    have hsame := (@ordered_perm tables workspace).filter
      (·.id ∉ dropped.map (·.id))
    rw [hsplit, hfilter] at hsame
    exact hsame.symm
  refine hperm.eq_of_pairwise (fun a b ha hb hab hba => ?_) ordered_sorted
    (pairwise_append.mp hsorted).1
  have hid := before_antisymm hab hba
  exact inj_on_of_nodup_map hkept (hperm.mem_iff.mp ha) hb hid

theorem weigh_deleteAll (h : tables.Distinct) {kept dropped : List Candidate}
    (hsplit : tables.weigh workspace = kept ++ dropped) :
    ((dropped.map (·.id)).foldl Tables.deleteHeader tables).weigh workspace = kept := by
  rw [weigh_eq] at hsplit ⊢
  obtain ⟨rows, others, hrows, rfl, rfl⟩ := map_eq_append_iff.mp hsplit
  have hids : (others.map tables.candidate).map (·.id) = others.map (·.id) := by
    rw [map_map]
    rfl
  have hdistinct := @ordered_distinct tables workspace h
  rw [hrows, map_append, List.nodup_append] at hdistinct
  rw [hids, ordered_deleteAll h hrows]
  refine map_congr_left fun row hrow => ?_
  have hstays : row.id ∉ others.map (·.id) :=
    fun hmem => hdistinct.2.2 _ (mem_map_of_mem hrow) _ hmem rfl
  have hthread : ((others.map (·.id)).foldl Tables.deleteHeader tables).thread row.id =
      tables.thread row.id := (thread_deleteAll _).trans (if_neg hstays)
  have hnodes := congrArg Thread.nodes hthread
  have hturns := congrArg Thread.turns hthread
  unfold Tables.candidate
  change Tables.turns _ row.id = _ at hturns
  change Tables.nodes _ row.id = _ at hnodes
  rw [hturns, hnodes]
  rfl

end

/-! ## A pruning -/

section

variable {policy : RetentionPolicy} {cutoff : Option Int} {ago : Nat → Option Int}
  {tables pruned : Tables} {workspace : Nat} {report : PruneReport} {faults : Faults}

theorem prune_eq_ok (h : pruneWorkspace faults ago workspace policy tables = (.ok report, pruned)) :
    report = ((tables.weigh workspace).zipIdx.foldl
        (Walk.visit policy (policy.maxAgeDays.bind ago)) .new).report ∧
      pruned = ((tables.weigh workspace).zipIdx.foldl
        (Walk.visit policy (policy.maxAgeDays.bind ago)) .new).removals.foldl
          Tables.deleteHeader tables := by
  have hbody := transaction_eq_ok.mp h
  simp only [pruneIn, bind_eq_ok, pure_eq_ok] at hbody
  obtain ⟨-, -, -, -, left, hremoved, -, -, hbody⟩ := hbody
  obtain ⟨rfl, rfl⟩ := Prod.mk.inj hbody
  exact ⟨rfl, removeAll_eq_ok _ hremoved⟩

theorem pruned_of_ok (htyped : policy.Typed)
    (h : pruneWorkspace faults ago workspace policy tables = (.ok report, pruned)) :
    ∃ kept dropped, tables.weigh workspace = kept ++ dropped ∧
      AdmitsAll policy (policy.maxAgeDays.bind ago) kept ∧
      (∀ candidate rest, dropped = candidate :: rest →
        ¬ admits policy (policy.maxAgeDays.bind ago) kept.length (total kept) candidate) ∧
      pruned = (dropped.map (·.id)).foldl Tables.deleteHeader tables ∧
      report = ⟨min dropped.length u32Max, min (totalTurns dropped) u32Max,
        min (total dropped) u64Max⟩ := by
  obtain ⟨hreport, hpruned⟩ := prune_eq_ok h
  obtain ⟨kept, dropped, hsplit, hall, hnext, hwalk⟩ :=
    @walk_spec policy (policy.maxAgeDays.bind ago) htyped [] (tables.weigh workspace) .nil
  obtain ⟨hremovals, hcounted⟩ := hwalk
  have hnew : Walk.new = ⟨min (total []) u64Max, false, ⟨0, 0, 0⟩, []⟩ := rfl
  rw [hnew] at hreport hpruned
  exact ⟨kept, dropped, hsplit, hall, hnext, hpruned.trans (congrArg _ hremovals),
    hreport.trans hcounted⟩

/-- What a pruning should have done. -/
structure PrunedWell (policy : RetentionPolicy) (ago : Nat → Option Int) (workspace : Nat)
    (tables : Tables) (report : PruneReport) (pruned : Tables) (kept dropped : List Candidate) :
    Prop where
  /-- What is kept is a prefix of the list, and is what is left of it. -/
  split : tables.weigh workspace = kept ++ dropped
  left : pruned.weigh workspace = kept
  within : Within policy (policy.maxAgeDays.bind ago) kept
  /-- A conversation goes whole, or stays as it is. -/
  whole : ∀ key, pruned.thread key =
    if key ∈ dropped.map (·.id) then ⟨none, [], []⟩ else tables.thread key
  counted : report = reportOf dropped
  again : ∀ faults report' pruned',
    pruneWorkspace faults ago workspace policy pruned = (.ok report', pruned') →
      report' = ⟨0, 0, 0⟩ ∧ pruned' = pruned

/-- What a workspace must be like for a pruning to keep what it should. -/
structure Prunable (policy : RetentionPolicy) (cutoff : Option Int) (candidates : List Candidate) :
    Prop where
  weighed : Weighed policy cutoff candidates
  countable : ∀ kept dropped, Longest policy cutoff candidates kept dropped → Countable dropped

theorem prune_again (htyped : policy.Typed) {kept : List Candidate}
    (hleft : pruned.weigh workspace = kept)
    (hall : AdmitsAll policy (policy.maxAgeDays.bind ago) kept) {report' : PruneReport}
    {pruned' : Tables}
    (h : pruneWorkspace faults ago workspace policy pruned = (.ok report', pruned')) :
    report' = ⟨0, 0, 0⟩ ∧ pruned' = pruned := by
  obtain ⟨kept', dropped', hsplit, hall', hnext', hpruned, hreport⟩ := pruned_of_ok htyped h
  cases dropped' with
  | nil => exact ⟨hreport, hpruned⟩
  | cons candidate rest =>
    rw [hleft] at hsplit
    rw [hsplit, ← singleton_append, ← append_assoc] at hall
    exact absurd hall.initial.last (hnext' candidate rest rfl)

theorem longest_of_admitsAll {candidates kept dropped : List Candidate}
    (hsplit : candidates = kept ++ dropped) (hweighed : Weighed policy cutoff candidates)
    (hall : AdmitsAll policy cutoff kept)
    (hnext : ∀ candidate rest, dropped = candidate :: rest →
      ¬ admits policy cutoff kept.length (total kept) candidate) :
    Longest policy cutoff candidates kept dropped where
  split := hsplit
  within := within_of_admitsAll (hsplit ▸ hweighed) hall
  next candidate rest heq hwithin := hnext candidate rest heq (admits_of_within hwithin)

theorem prunedWell_of_prunable (htyped : policy.Typed) (hkeys : tables.Distinct)
    (h : pruneWorkspace faults ago workspace policy tables = (.ok report, pruned))
    (hprunable : Prunable policy (policy.maxAgeDays.bind ago) (tables.weigh workspace)) :
    ∃ kept dropped, PrunedWell policy ago workspace tables report pruned kept dropped := by
  obtain ⟨kept, dropped, hsplit, hall, hnext, hpruned, hreport⟩ := pruned_of_ok htyped h
  have hlongest := longest_of_admitsAll hsplit hprunable.weighed hall hnext
  have hcount := hprunable.countable kept dropped hlongest
  have hleft : pruned.weigh workspace = kept := hpruned ▸ weigh_deleteAll hkeys hsplit
  refine ⟨kept, dropped, hsplit, hleft, hlongest.within, fun key => ?_, ?_,
    fun _ _ _ hagain => prune_again htyped hleft hall hagain⟩
  · rw [hpruned]
    exact thread_deleteAll _
  · rw [hreport, Nat.min_eq_left hcount.conversations, Nat.min_eq_left hcount.turns,
      Nat.min_eq_left hcount.bytes]
    rfl

theorem prunable_of_prunedWell (htyped : policy.Typed) (hkeys : tables.Distinct)
    (h : pruneWorkspace faults ago workspace policy tables = (.ok report, pruned))
    {kept dropped : List Candidate}
    (hwell : PrunedWell policy ago workspace tables report pruned kept dropped) :
    Prunable policy (policy.maxAgeDays.bind ago) (tables.weigh workspace) := by
  obtain ⟨kept', dropped', hsplit, hall, hnext, hpruned, hreport⟩ := pruned_of_ok htyped h
  -- what was kept is what the walk admitted
  have hleft : pruned.weigh workspace = kept' := hpruned ▸ weigh_deleteAll hkeys hsplit
  obtain rfl : kept = kept' := hwell.left.symm.trans hleft
  obtain rfl : dropped = dropped' := append_cancel_left (hwell.split.symm.trans hsplit)
  have hcounted := hreport.symm.trans hwell.counted
  rw [reportOf, PruneReport.mk.injEq] at hcounted
  have hweighed : Weighed policy (policy.maxAgeDays.bind ago) (tables.weigh workspace) := by
    intro before candidate after heq hne hbefore hadmissible hroom
    obtain ⟨-, hcount, hage⟩ := Admissible.concat.mp hadmissible
    have hadmits : admits policy (policy.maxAgeDays.bind ago) before.length (total before)
        candidate := ⟨hcount, hage, hroom.imp_right .inl⟩
    -- so it was kept, behind others
    have hkept : ∃ more, kept = (before ++ [candidate]) ++ more := by
      rcases prefix_or (hsplit.symm.trans heq) with ⟨more, hmore, hdropped⟩ | hlonger
      · have hprefix : AdmitsAll policy (policy.maxAgeDays.bind ago) (before ++ [candidate]) :=
          .snoc (admitsAll_of_within hbefore) hadmits
        cases more with
        | nil =>
          rw [append_nil] at hmore
          rw [hmore] at hadmits
          exact absurd hadmits (hnext candidate after hdropped)
        | cons next rest =>
          rw [hmore, append_assoc, ← singleton_append, append_assoc,
            ← append_assoc] at hprefix
          exact absurd hprefix.initial.last (hnext next _ hdropped)
      · obtain ⟨next, rest, hmore, hafter⟩ := hlonger
        cases hafter
        exact ⟨rest, by rw [hmore, append_assoc, singleton_append]⟩
    obtain ⟨more, hmore⟩ := hkept
    have hpos : 0 < before.length := length_pos_iff.mpr hne
    have hbytes := hwell.within.bytes
    rw [hmore, total_append, total_concat, length_append, length_append,
      length_singleton] at hbytes
    omega
  refine ⟨hweighed, fun kept' dropped' hlongest => ?_⟩
  obtain ⟨rfl, rfl⟩ := (longest_of_admitsAll hsplit hweighed hall hnext).unique hlongest
  obtain ⟨hconversations, hturns, hbytes⟩ := hcounted
  exact ⟨by omega, by omega, by omega⟩

end

/-! ## An empty conversation in front of a heavy one -/

def aPolicy : RetentionPolicy := ⟨200, none, 1⟩

theorem aPolicy_typed : aPolicy.Typed := ⟨by decide, by decide⟩

/-- Nothing was said in it yet. -/
def opened : Tables := Tables.empty.after (.save { aConversation with updatedAt := 2 }) noFaults

/-- A question of two bytes. -/
def aQuestion : ExchangeRecord := ⟨none, 1, ['a', 'b'], someDestination, .ok none⟩

/-- A question was asked in another one, before. -/
def questioned : Tables :=
  (opened.after (.save { aConversation with id := 1 }) noFaults).after
    (.appendExchange 1 aQuestion) noFaults

theorem removeAll_noFaults (rank : Nat) (keys : List ConversationId) (tables : Tables) :
    removeAll noFaults rank keys tables = .ok (keys.foldl Tables.deleteHeader tables) := by
  induction keys generalizing rank tables with
  | nil => rfl
  | cons key keys ih => exact ih (rank + 1) (tables.deleteHeader key)

theorem prune_noFaults (ago : Nat → Option Int) (workspace : Nat) (policy : RetentionPolicy)
    (tables : Tables) :
    pruneWorkspace noFaults ago workspace policy tables =
      (.ok ((tables.weigh workspace).zipIdx.foldl
          (Walk.visit policy (policy.maxAgeDays.bind ago)) .new).report,
        ((tables.weigh workspace).zipIdx.foldl
          (Walk.visit policy (policy.maxAgeDays.bind ago)) .new).removals.foldl
            Tables.deleteHeader tables) := by
  refine transaction_eq_ok.mpr ?_
  show (removeAll noFaults 0 _ tables >>= fun pruned => _) = _
  rw [removeAll_noFaults]
  rfl

theorem questioned_weigh : questioned.weigh 0 = [⟨0, 2, 0, 0⟩, ⟨1, 1, 0, 2⟩] := by
  rw [weigh_eq, Tables.ordered, mergeSort_of_pairwise]
  · rfl
  · decide

/-- And then one in the first. -/
def bothQuestioned : Tables :=
  questioned.after (.appendExchange 0 { aQuestion with createdAt := 3 }) noFaults

theorem bothQuestioned_weigh : bothQuestioned.weigh 0 = [⟨0, 3, 0, 2⟩, ⟨1, 1, 0, 2⟩] := by
  rw [weigh_eq, Tables.ordered, mergeSort_of_pairwise]
  · rfl
  · decide

theorem bothQuestioned_prunable : Prunable aPolicy none (bothQuestioned.weigh 0) := by
  rw [bothQuestioned_weigh]
  constructor
  · intro before candidate after heq hne _ _ hroom
    cases before with
    | nil => exact absurd rfl hne
    | cons first rest =>
      obtain ⟨rfl, -⟩ := List.cons.inj heq
      rcases hroom with hempty | hgreatest
      · exact absurd (Nat.add_eq_zero_iff.mp hempty).1 (by decide)
      · exact absurd hgreatest (by decide)
  · intro kept dropped hlongest
    have hsplit := hlongest.split
    match kept with
    | [] =>
      obtain rfl : _ = dropped := hsplit
      exact ⟨by decide, by decide, by decide⟩
    | [_] =>
      obtain rfl : _ = dropped := (List.cons.inj hsplit).2
      exact ⟨by decide, by decide, by decide⟩
    | _ :: _ :: rest =>
      obtain ⟨-, rfl⟩ := append_eq_nil_iff.mp (List.cons.inj (List.cons.inj hsplit).2).2.symm
      exact ⟨by decide, by decide, by decide⟩

section

variable {policy : RetentionPolicy} {ago : Nat → Option Int} {tables pruned : Tables}
  {workspace : Nat} {report : PruneReport} {faults : Faults}

/-- A pruning keeps the longest prefix within the bounds, and reports what went, exactly if no
conversation is admitted for having empty ones only in front of it, and the counts fit. -/
theorem pruning_keeps_the_latest (htyped : policy.Typed) (hkeys : tables.Distinct)
    (h : pruneWorkspace faults ago workspace policy tables = (.ok report, pruned)) :
    (∃ kept dropped, PrunedWell policy ago workspace tables report pruned kept dropped) ↔
      Prunable policy (policy.maxAgeDays.bind ago) (tables.weigh workspace) :=
  ⟨fun ⟨_, _, hwell⟩ => prunable_of_prunedWell htyped hkeys h hwell,
    prunedWell_of_prunable htyped hkeys h⟩

end

/-- The conversation that was active last is kept, although it is heavier than the bound, and the
other one goes. -/
theorem older_conversation_goes : ∃ pruned,
    pruneWorkspace noFaults (fun _ => none) 0 aPolicy bothQuestioned = (.ok ⟨1, 0, 2⟩, pruned) ∧
      ∃ kept dropped,
        PrunedWell aPolicy (fun _ => none) 0 bothQuestioned ⟨1, 0, 2⟩ pruned kept dropped := by
  have hkeys : bothQuestioned.Distinct := by
    show ([0, 1] : List Nat).Nodup
    decide
  have hrun := prune_noFaults (fun _ => none) 0 aPolicy bothQuestioned
  rw [bothQuestioned_weigh] at hrun
  exact ⟨_, hrun, (pruning_keeps_the_latest aPolicy_typed hkeys hrun).mpr bothQuestioned_prunable⟩

/-- A conversation heavier than the bound is kept behind an empty one. -/
theorem heavy_conversation_is_kept : ∃ report pruned,
    pruneWorkspace noFaults (fun _ => none) 0 aPolicy questioned = (.ok report, pruned) ∧
      ¬ ∃ kept dropped, PrunedWell aPolicy (fun _ => none) 0 questioned report pruned kept dropped := by
  have hkeys : questioned.Distinct := by
    show ([0, 1] : List Nat).Nodup
    decide
  have hrun := prune_noFaults (fun _ => none) 0 aPolicy questioned
  refine ⟨_, _, hrun, fun ⟨_, _, hwell⟩ => ?_⟩
  have hprunable := prunable_of_prunedWell aPolicy_typed hkeys hrun hwell
  have hadmissible : ∀ n, Admissible aPolicy none ((questioned.weigh 0).take n) := fun n =>
    ⟨Nat.le_trans (length_take_le' ..) (by rw [questioned_weigh]; decide), nofun⟩
  have hsum := hprunable.weighed [⟨0, 2, 0, 0⟩] ⟨1, 1, 0, 2⟩ [] questioned_weigh nofun
    ⟨by have h := hadmissible 1; rwa [questioned_weigh] at h, .inl (by decide)⟩
    (by have h := hadmissible 2; rwa [questioned_weigh] at h) (.inl rfl)
  exact absurd hsum (by decide)

end Oxyn.Store
