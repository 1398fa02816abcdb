/-
# `Oxyn.Ai.Accounting` — what the context leaves out, it says

The gate describes what the budget lets in (`described_eq`), and counts the rest of what it
selected; a mention that is not described is named besides.
-/
import Oxyn.Ai.Context
import Oxyn.Lib.Admission

namespace Oxyn.Ai

open Text Catalog KeyPatterns Admission List

/-! ## Mentions -/

namespace Resolved

variable {r : Resolved}

@[simp] theorem relations_say (line : Str) : (r.say line).relations = r.relations := by
  unfold say
  split
  next => rfl
  next => rfl

@[simp] theorem relations_ignore : r.ignore.relations = r.relations := rfl

theorem mem_lines_say {line new : Str} (h : line ∈ (r.say new).lines) :
    line ∈ r.lines ∨ line = new := by
  unfold say at h
  split at h
  next => exact .inl h
  next => exact (mem_append.mp h).imp_right mem_singleton.mp

theorem lines_add (path : CatalogPath) : (r.add path).lines = r.lines := by
  unfold add
  split
  next => rfl
  next => rfl

theorem mem_relations_add {path p : CatalogPath} :
    p ∈ (r.add path).relations ↔ p = path ∨ p ∈ r.relations := by
  unfold add
  split
  next hin =>
    constructor
    · exact .inr
    · rintro (rfl | h)
      · exact contains_iff_mem.mp hin
      · exact h
  next => simp [or_comm]

theorem nodup_relations_add (h : r.relations.Nodup) (path : CatalogPath) :
    (r.add path).relations.Nodup := by
  unfold add
  split
  next => exact h
  next hnew => exact List.nodup_append.mpr ⟨h, nodup_singleton _, by
    rintro p hp q hq rfl
    exact hnew (contains_iff_mem.mpr (mem_singleton.mp hq ▸ hp))⟩

end Resolved

section Mentions

variable {cache : CatalogCache} {tier : PrivacyTier} {naming : Naming}

/-- A mention the gate keeps: the relation is known, its name is let out, and its description lists
the column, if one is named. -/
def Kept (cache : CatalogCache) (tier : PrivacyTier) (path : CatalogPath) (field : Option Str) :
    Prop :=
  (∃ kind, kindOf cache path = some kind ∧ withholdsName tier kind = false) ∧
    ∀ name ∈ field, listsField cache path name = true

def Names (naming : Naming) (path : CatalogPath) (line : Str) : Prop :=
  ∃ kind, line = relationLine naming kind path ∨ ∃ name, line = fieldLine naming kind path name

/-- A mention of a relation is dropped, or a line says that its name is withheld, or it is kept, and
a line names it. -/
theorem resolveMention_cases (naming : Naming) (r : Resolved) (path : CatalogPath) (field : Option Str) :
    (¬ Kept cache tier path field ∧
        (resolveMention cache tier naming r (.relation path field) = r.ignore ∨
          ∃ kind, resolveMention cache tier naming r (.relation path field) =
            r.say (withheldLine tier kind))) ∨
      (Kept cache tier path field ∧ ∃ line, Names naming path line ∧
        resolveMention cache tier naming r (.relation path field) = (r.say line).add path) := by
  simp only [resolveMention]
  cases hkind : kindOf cache path with
  | none =>
    refine .inl ⟨?_, .inl rfl⟩
    rintro ⟨⟨kind, hsome, -⟩, -⟩
    rw [hkind] at hsome
    exact absurd hsome nofun
  | some kind =>
    simp only
    by_cases hwithheld : withholdsName tier kind = true
    · rw [if_pos hwithheld]
      refine .inl ⟨?_, .inr ⟨kind, rfl⟩⟩
      rintro ⟨⟨kind', hsome, hlets⟩, -⟩
      obtain rfl := Option.some.inj (hkind.symm.trans hsome)
      exact absurd hwithheld (by rw [hlets]; decide)
    · rw [if_neg hwithheld]
      have hlets : ∃ kind, kindOf cache path = some kind ∧ withholdsName tier kind = false :=
        ⟨kind, hkind, Bool.eq_false_iff.mpr hwithheld⟩
      cases field with
      | none => exact .inr ⟨⟨hlets, nofun⟩, _, ⟨kind, .inl rfl⟩, rfl⟩
      | some name =>
        by_cases hlists : listsField cache path name = true
        · rw [mentionLine, if_pos hlists]
          refine .inr ⟨⟨hlets, ?_⟩, _, ⟨kind, .inr ⟨name, rfl⟩⟩, rfl⟩
          rintro other ⟨⟩
          exact hlists
        · rw [mentionLine, if_neg hlists]
          exact .inl ⟨fun hkept => hlists (hkept.2 name rfl), .inl rfl⟩

theorem mem_resolveMention {r : Resolved} {mention : Mention} {p : CatalogPath} :
    p ∈ (resolveMention cache tier naming r mention).relations ↔
      p ∈ r.relations ∨ ∃ field, mention = .relation p field ∧ Kept cache tier p field := by
  cases mention with
  | savedQuery title text => simp [resolveMention]
  | relation path field =>
    rcases resolveMention_cases naming r path field with
      ⟨hdropped, hstep⟩ | ⟨hkept, line, -, hstep⟩
    · have hsame : (resolveMention cache tier naming r (.relation path field)).relations =
          r.relations := by
        rcases hstep with hstep | ⟨kind, hstep⟩
        · rw [hstep, Resolved.relations_ignore]
        · rw [hstep, Resolved.relations_say]
      rw [hsame]
      refine ⟨.inl, ?_⟩
      rintro (h | ⟨other, heq, hother⟩)
      · exact h
      · obtain ⟨rfl, rfl⟩ := Mention.relation.inj heq
        exact absurd hother hdropped
    · rw [hstep, Resolved.mem_relations_add, Resolved.relations_say]
      constructor
      · rintro (rfl | h)
        · exact .inr ⟨field, rfl, hkept⟩
        · exact .inl h
      · rintro (h | ⟨other, heq, -⟩)
        · exact .inr h
        · exact .inl (Mention.relation.inj heq).1.symm

theorem nodup_resolveMention {r : Resolved} (h : r.relations.Nodup) (mention : Mention) :
    (resolveMention cache tier naming r mention).relations.Nodup := by
  cases mention with
  | savedQuery title text => exact h
  | relation path field =>
    rcases resolveMention_cases naming r path field with
      ⟨-, hstep | ⟨kind, hstep⟩⟩ | ⟨-, line, -, hstep⟩
    · rwa [hstep, Resolved.relations_ignore]
    · rwa [hstep, Resolved.relations_say]
    · rw [hstep]
      exact Resolved.nodup_relations_add (by rwa [Resolved.relations_say]) path

/-- The lines say that a name is withheld, or name a relation that is mentioned. -/
def Announces (tier : PrivacyTier) (naming : Naming) (r : Resolved) : Prop :=
  ∀ line ∈ r.lines, (∃ kind, line = withheldLine tier kind) ∨
    ∃ path ∈ r.relations, Names naming path line

theorem announces_resolveMention {r : Resolved} (h : Announces tier naming r) (mention : Mention) :
    Announces tier naming (resolveMention cache tier naming r mention) := by
  intro line hline
  have hold : line ∈ r.lines → (∃ kind, line = withheldLine tier kind) ∨
      ∃ path ∈ (resolveMention cache tier naming r mention).relations, Names naming path line := by
    intro hin
    rcases h line hin with hwithheld | ⟨path, hp, hnames⟩
    · exact .inl hwithheld
    · exact .inr ⟨path, mem_resolveMention.mpr (.inl hp), hnames⟩
  cases mention with
  | savedQuery title text => exact hold hline
  | relation path field =>
    rcases resolveMention_cases naming r path field with
      ⟨-, hstep | ⟨kind, hstep⟩⟩ | ⟨-, new, hnames, hstep⟩
    · rw [hstep] at hline
      exact hold hline
    · rw [hstep] at hline
      exact (Resolved.mem_lines_say hline).elim hold fun heq => .inl ⟨kind, heq⟩
    · rw [hstep, Resolved.lines_add] at hline
      refine (Resolved.mem_lines_say hline).elim hold fun heq => .inr ⟨path, ?_, heq ▸ hnames⟩
      rw [hstep]
      exact Resolved.mem_relations_add.mpr (.inl rfl)

theorem mem_resolveMentions {mentions : List Mention} {p : CatalogPath} :
    p ∈ (resolveMentions cache tier naming mentions).relations ↔
      ∃ field, .relation p field ∈ mentions.take maxMentions ∧ Kept cache tier p field := by
  have hfold : ∀ (taken : List Mention) (r : Resolved),
      p ∈ (taken.foldl (resolveMention cache tier naming) r).relations ↔
        p ∈ r.relations ∨ ∃ field, .relation p field ∈ taken ∧ Kept cache tier p field := by
    intro taken
    induction taken with
    | nil => simp
    | cons mention rest ih =>
      intro r
      rw [foldl_cons, ih, mem_resolveMention]
      constructor
      · rintro ((h | ⟨field, rfl, hkept⟩) | ⟨field, hin, hkept⟩)
        · exact .inl h
        · exact .inr ⟨field, mem_cons_self, hkept⟩
        · exact .inr ⟨field, mem_cons_of_mem _ hin, hkept⟩
      · rintro (h | ⟨field, hin, hkept⟩)
        · exact .inl (.inl h)
        · rcases mem_cons.mp hin with heq | hrest
          · exact .inl (.inr ⟨field, heq.symm, hkept⟩)
          · exact .inr ⟨field, hrest, hkept⟩
  rw [resolveMentions, hfold]
  simp [Resolved.start]

theorem resolveMentions_of_step {P : Resolved → Prop} {mentions : List Mention}
    (hstart : P (.start mentions))
    (hstep : ∀ r mention, P r → P (resolveMention cache tier naming r mention)) :
    P (resolveMentions cache tier naming mentions) := by
  have hfold : ∀ (taken : List Mention) (r : Resolved), P r →
      P (taken.foldl (resolveMention cache tier naming) r) := by
    intro taken
    induction taken with
    | nil => exact fun _ h => h
    | cons mention rest ih => exact fun r h => ih _ (hstep r mention h)
  exact hfold _ _ hstart

theorem nodup_resolveMentions (mentions : List Mention) :
    (resolveMentions cache tier naming mentions).relations.Nodup :=
  resolveMentions_of_step (P := fun r => r.relations.Nodup) nodup_nil
    fun _ mention h => nodup_resolveMention h mention

theorem announces_resolveMentions (mentions : List Mention) :
    Announces tier naming (resolveMentions cache tier naming mentions) :=
  resolveMentions_of_step (fun _ h => absurd h not_mem_nil)
    fun _ mention h => announces_resolveMention h mention

end Mentions

/-! ## The selection -/

theorem nodup_complete {limit : Nat} {chosen : List CatalogPath} (h : chosen.Nodup)
    (candidates : List CatalogPath) : (complete limit chosen candidates).Nodup := by
  induction candidates generalizing chosen with
  | nil => exact h
  | cons path rest ih =>
    unfold complete
    split
    next => exact h
    next =>
      split
      next => exact ih h
      next hnew =>
        refine ih (List.nodup_append.mpr ⟨h, nodup_singleton _, ?_⟩)
        rintro p hp q hq rfl
        exact hnew (contains_iff_mem.mpr (mem_singleton.mp hq ▸ hp))

theorem nodup_select {outside : Outside} {cache : CatalogCache} {focus : Str} {limit : Nat}
    {mentioned : List CatalogPath} (h : mentioned.Nodup) (fill : Bool) (semantic : SemanticScores) :
    (select outside cache focus limit mentioned fill semantic).Nodup := by
  have htake := h.sublist (take_sublist limit mentioned)
  simp only [select]
  by_cases hdone : (!fill || decide (limit ≤ (mentioned.take limit).length)) = true
  · rw [if_pos hdone]
    exact htake
  · rw [if_neg hdone]
    exact nodup_complete htake _

/-! ## What is let in -/

namespace ContextBuilder

variable {outside : Outside} (b : ContextBuilder outside)

def relationCost (path : CatalogPath) : Nat := estimateTokens (b.relationChunk path)

def candidates : List CatalogPath := b.selectRelations.filter fun path => !b.withholdsName path

def fitting : List CatalogPath :=
  admitted b.relationCost b.policy.maxContextTokens b.headerCost b.candidates

def letIn (f : Filling) (paths : List CatalogPath) (passed : Nat) : Filling :=
  { f with
    body := f.body ++ paths.flatMap b.relationChunk
    used := f.used + (paths.map b.relationCost).sum
    kept := f.kept ++ paths
    omitted := f.omitted + passed }

theorem letIn_nil (f : Filling) : b.letIn f [] 0 = f := by
  simp [letIn]

theorem letIn_letIn (f : Filling) (paths more : List CatalogPath) (passed later : Nat) :
    b.letIn (b.letIn f paths passed) more later =
      b.letIn f (paths ++ more) (passed + later) := by
  simp [letIn, Nat.add_assoc]

variable {path : CatalogPath}

theorem addRelation_of_withheld (h : b.withholdsName path = true)
    (f : Filling) : b.addRelation f path = f :=
  if_pos h

theorem addRelation_of_fits {f : Filling} (h : b.withholdsName path = false)
    (hfits : f.used + b.relationCost path ≤ b.policy.maxContextTokens) :
    b.addRelation f path = b.letIn f [path] 0 := by
  have hroom : b.fits f (b.relationChunk path) = true := decide_eq_true hfits
  refine (if_neg (by rw [h]; decide)).trans ((if_pos hroom).trans ?_)
  simp [letIn, Filling.admit, relationCost]

theorem addRelation_of_not {f : Filling} (h : b.withholdsName path = false)
    (hfits : ¬ f.used + b.relationCost path ≤ b.policy.maxContextTokens) :
    b.addRelation f path = b.letIn f [] 1 := by
  have hroom : ¬ b.fits f (b.relationChunk path) = true := fun hroom =>
    hfits (of_decide_eq_true hroom)
  refine (if_neg (by rw [h]; decide)).trans ((if_neg hroom).trans ?_)
  simp [letIn]

theorem foldl_addRelation (paths : List CatalogPath) (f : Filling) :
    paths.foldl b.addRelation f =
      b.letIn f
        (admitted b.relationCost b.policy.maxContextTokens f.used
          (paths.filter fun path => !b.withholdsName path))
        ((paths.filter fun path => !b.withholdsName path).length -
          (admitted b.relationCost b.policy.maxContextTokens f.used
            (paths.filter fun path => !b.withholdsName path)).length) := by
  induction paths generalizing f with
  | nil => exact (b.letIn_nil f).symm
  | cons path rest ih =>
    rw [foldl_cons, ih]
    by_cases hwithheld : b.withholdsName path = true
    · rw [addRelation_of_withheld b hwithheld,
        filter_cons_of_neg (by rw [hwithheld]; decide)]
    · rw [Bool.not_eq_true] at hwithheld
      rw [filter_cons_of_pos (by rw [hwithheld]; rfl)]
      by_cases hfits : f.used + b.relationCost path ≤ b.policy.maxContextTokens
      · rw [addRelation_of_fits b hwithheld hfits, letIn_letIn, admitted_cons_of_fits hfits]
        simp [letIn]
      · have hlength := (admitted_sublist b.relationCost b.policy.maxContextTokens f.used
          (rest.filter fun path => !b.withholdsName path)).length_le
        rw [addRelation_of_not b hwithheld hfits, letIn_letIn, admitted_cons_of_not hfits,
          length_cons]
        congr 1
        show 1 + (_ - _) = _ + 1 - _
        simp only [letIn, map_nil, sum_nil, Nat.add_zero]
        omega

theorem described_eq :
    b.described = b.letIn b.start b.fitting (b.candidates.length - b.fitting.length) :=
  b.foldl_addRelation b.selectRelations b.start

/-! ## What is named -/

def missing : List CatalogPath := b.mentioned.relations.filter fun path => path ∉ b.fitting

theorem foldl_nameMention (paths : List CatalogPath) (f : Filling) :
    let missing := paths.filter fun path => path ∉ f.kept
    paths.foldl b.nameMention f =
      { f with
        omitted := f.omitted + (missing.filter fun path => path ∉ b.selectRelations).length
        leftOut := f.leftOut ++ missing.map fun path => renderOmittedRelation path b.naming } := by
  induction paths generalizing f with
  | nil => simp
  | cons path rest ih =>
    rw [foldl_cons]
    by_cases hkept : path ∈ f.kept
    · have hstep : b.nameMention f path = f := if_pos (contains_iff_mem.mpr hkept)
      rw [hstep, ih, filter_cons_of_neg (by simpa using hkept)]
    · by_cases hselected : path ∈ b.selectRelations
      · have hstep : b.nameMention f path =
            { f with leftOut := f.leftOut ++ [renderOmittedRelation path b.naming] } := by
          simp [nameMention, hkept, hselected]
        rw [hstep, ih]
        simp [hkept, hselected]
      · have hstep : b.nameMention f path =
            { f with
              omitted := f.omitted + 1
              leftOut := f.leftOut ++ [renderOmittedRelation path b.naming] } := by
          simp [nameMention, hkept, hselected]
        rw [hstep, ih]
        simp [hkept, hselected, Nat.add_assoc, Nat.add_comm 1]

/-- What the queries and the samples leave as it was. -/
structure Extends (f g : Filling) : Prop where
  kept : g.kept = f.kept
  omitted : g.omitted = f.omitted
  body : f.body <+: g.body
  leftOut : f.leftOut <+: g.leftOut

theorem Extends.refl (f : Filling) : Extends f f :=
  ⟨rfl, rfl, prefix_refl _, prefix_refl _⟩

theorem Extends.trans {f g h : Filling} (hfg : Extends f g) (hgh : Extends g h) : Extends f h :=
  ⟨hgh.kept.trans hfg.kept, hgh.omitted.trans hfg.omitted, hfg.body.trans hgh.body,
    hfg.leftOut.trans hgh.leftOut⟩

theorem extends_foldl {α : Type} {step : Filling → α → Filling} (h : ∀ f x, Extends f (step f x))
    (items : List α) (f : Filling) : Extends f (items.foldl step f) := by
  induction items generalizing f with
  | nil => exact Extends.refl f
  | cons x rest ih => exact (h f x).trans (ih (step f x))

theorem extends_addQuery (f : Filling) (query : Str × Str) : Extends f (b.addQuery f query) := by
  simp only [addQuery]
  split
  next => exact ⟨rfl, rfl, prefix_append _ _, prefix_refl _⟩
  next => exact ⟨rfl, rfl, prefix_refl _, prefix_append _ _⟩

theorem extends_addSample (f : Filling) (sample : RowSample outside.Value) :
    Extends f (b.addSample f sample) := by
  simp only [addSample]
  split
  next => exact ⟨rfl, rfl, prefix_append _ _, prefix_refl _⟩
  next => exact ⟨rfl, rfl, prefix_refl _, prefix_refl _⟩

theorem extends_explained : Extends b.named b.explained :=
  (extends_foldl b.extends_addQuery _ _).trans
    ⟨rfl, rfl, prefix_append _ _, prefix_refl _⟩

theorem extends_filled : Extends b.explained b.filled := by
  unfold filled
  split
  next => exact extends_foldl b.extends_addSample _ _
  next => exact ⟨rfl, rfl, prefix_refl _, prefix_refl _⟩

/-! ## The account -/

theorem relations_build : b.build.relations = b.fitting := by
  show b.filled.kept = _
  rw [b.extends_filled.kept, b.extends_explained.kept, named, foldl_nameMention, described_eq]
  rfl

/-- What the omitted total counts: the candidates that are not described, and the mentions that
were not selected. -/
def overflow : List CatalogPath :=
  (b.candidates.filter fun path => path ∉ b.fitting) ++
    b.mentioned.relations.filter fun path => path ∉ b.selectRelations

theorem fitting_sublist : b.fitting.Sublist b.candidates := admitted_sublist _ _ _ _

theorem nodup_candidates : b.candidates.Nodup :=
  (nodup_select (nodup_resolveMentions _) _ _).filter _

theorem mem_candidates :
    path ∈ b.candidates ↔ path ∈ b.selectRelations ∧ b.withholdsName path = false := by
  rw [candidates, mem_filter, Bool.not_eq_true']

theorem mem_selected_of_fitting (h : path ∈ b.fitting) :
    path ∈ b.selectRelations :=
  (b.mem_candidates.mp (b.fitting_sublist.subset h)).1

theorem omittedRelations_build : b.build.omittedRelations = b.overflow.length := by
  have hcandidates := length_admitted_add b.relationCost b.policy.maxContextTokens b.headerCost
    b.nodup_candidates
  -- a mention that was not selected is not described
  have hmentions : ((b.mentioned.relations.filter fun path => path ∉ b.fitting).filter fun path =>
      path ∉ b.selectRelations) = b.mentioned.relations.filter fun path =>
        path ∉ b.selectRelations := by
    rw [filter_filter]
    refine filter_congr fun path _ => ?_
    by_cases hselected : path ∈ b.selectRelations
    · simp [hselected]
    · have hout : path ∉ b.fitting := fun hin => hselected (b.mem_selected_of_fitting hin)
      simp [hselected, hout]
  show b.filled.omitted = _
  rw [b.extends_filled.omitted, b.extends_explained.omitted, named, foldl_nameMention, described_eq,
    overflow, length_append]
  show 0 + (b.candidates.length - b.fitting.length) +
    ((b.mentioned.relations.filter fun path => path ∉ b.fitting).filter fun path =>
      path ∉ b.selectRelations).length = _
  rw [hmentions]
  change b.fitting.length + (b.candidates.filter fun path => path ∉ b.fitting).length =
    b.candidates.length at hcandidates
  omega

theorem nodup_overflow : (b.build.relations ++ b.overflow).Nodup := by
  rw [relations_build, overflow]
  refine List.nodup_append.mpr ⟨b.nodup_candidates.sublist b.fitting_sublist, ?_, ?_⟩
  · refine List.nodup_append.mpr
      ⟨b.nodup_candidates.filter _, (nodup_resolveMentions _).filter _, ?_⟩
    rintro path hleft other hright rfl
    exact of_decide_eq_true (mem_filter.mp hright).2
      (b.mem_candidates.mp (mem_filter.mp hleft).1).1
  · rintro path hfitting other hover rfl
    rcases mem_append.mp hover with hleft | hright
    · exact of_decide_eq_true (mem_filter.mp hleft).2 hfitting
    · exact of_decide_eq_true (mem_filter.mp hright).2 (b.mem_selected_of_fitting hfitting)

theorem mem_overflow :
    path ∈ b.build.relations ++ b.overflow ↔
      (path ∈ b.selectRelations ∧ b.withholdsName path = false) ∨
        (path ∈ b.mentioned.relations ∧ path ∉ b.selectRelations) := by
  rw [relations_build, overflow, mem_append, mem_append, mem_filter, mem_filter,
    decide_eq_true_eq, decide_eq_true_eq, ← b.mem_candidates]
  constructor
  · rintro (hfitting | hcandidate | hmention)
    · exact .inl (b.fitting_sublist.subset hfitting)
    · exact .inl hcandidate.1
    · exact .inr hmention
  · rintro (hcandidate | hmention)
    · by_cases hfitting : path ∈ b.fitting
      · exact .inl hfitting
      · exact .inr (.inl ⟨hcandidate, hfitting⟩)
    · exact .inr (.inr hmention)

theorem prefix_body : b.header ++ b.fitting.flatMap b.relationChunk <+: b.filled.body := by
  have hnamed : b.named.body = b.header ++ b.fitting.flatMap b.relationChunk := by
    rw [named, foldl_nameMention, described_eq]
    rfl
  rw [← hnamed]
  exact b.extends_explained.body.trans b.extends_filled.body

theorem prefix_leftOut :
    (b.missing.map fun path => renderOmittedRelation path b.naming) <+: b.filled.leftOut := by
  have hnamed : b.named.leftOut =
      b.missing.map fun path => renderOmittedRelation path b.naming := by
    rw [named, foldl_nameMention, described_eq]
    rfl
  rw [← hnamed]
  exact b.extends_explained.leftOut.trans b.extends_filled.leftOut

theorem leftOut_filled : b.filled.leftOut = b.explained.leftOut := by
  have hsample : ∀ (samples : List (RowSample outside.Value)) (f : Filling),
      (samples.foldl b.addSample f).leftOut = f.leftOut := by
    intro samples
    induction samples with
    | nil => exact fun _ => rfl
    | cons sample rest ih =>
      intro f
      rw [foldl_cons, ih]
      simp only [addSample]
      split
      next => rfl
      next => rfl
  unfold filled
  split
  next => exact hsample _ _
  next => rfl

theorem infix_leftOut : b.filled.leftOut.flatten <:+: b.filled.body := by
  have hexplained : b.explained.leftOut.flatten <:+ b.explained.body := suffix_append _ _
  rw [leftOut_filled]
  exact hexplained.isInfix.trans b.extends_filled.body.isInfix

theorem estimateTokens_append (s t : Str) :
    estimateTokens (s ++ t) ≤ estimateTokens s + estimateTokens t := by
  simp only [estimateTokens, size_append, charsPerToken]
  omega

theorem estimateTokens_flatMap (paths : List CatalogPath) :
    estimateTokens (paths.flatMap b.relationChunk) ≤ (paths.map b.relationCost).sum := by
  induction paths with
  | nil => exact Nat.le_refl (estimateTokens [])
  | cons path rest ih =>
    rw [flatMap_cons, map_cons, sum_cons]
    exact (estimateTokens_append _ _).trans (Nat.add_le_add_left ih _)

/-- The description of a relation, if it was read, is of a kind the tier withholds as well. -/
def Agrees (path : CatalogPath) : Prop :=
  ∀ relation, b.cache.relation path = some relation →
    KeyPatterns.withholdsName b.tier relation.kind = true

theorem withheld_of_agrees (h : b.withholdsName path = true)
    (hagrees : b.Agrees path) {kind : RelationKind} (hkind : kindOf b.cache path = some kind) :
    KeyPatterns.withholdsName b.tier kind = true := by
  unfold kindOf at hkind
  cases hrelation : b.cache.relation path with
  | some relation =>
    rw [hrelation] at hkind
    obtain rfl := Option.some.inj hkind
    exact hagrees relation hrelation
  | none =>
    unfold withholdsName at h
    rw [hrelation] at hkind
    cases hlisted : b.cache.relationSummary path with
    | none => rw [hlisted] at h; exact absurd h Bool.false_ne_true
    | some listed =>
      rw [hlisted] at h hkind
      obtain rfl := Option.some.inj hkind
      exact h

/-- What the context describes and what its omitted total counts are the selected relations whose
names the tier lets out, and the mentioned ones, each once; a mention that is kept is described, or
named among what was left out, and never both; no withheld relation is described, nor named by a
mention unless its description denies its listing; and the descriptions cost no more than the header
leaves. -/
theorem context_accounts :
    (∃ counted : List CatalogPath,
      b.build.omittedRelations = counted.length ∧ (b.build.relations ++ counted).Nodup ∧
        ∀ path, path ∈ b.build.relations ++ counted ↔
          (path ∈ b.selectRelations ∧ b.withholdsName path = false) ∨
            (path ∈ b.mentioned.relations ∧ path ∉ b.selectRelations)) ∧
      (∀ path, path ∈ b.mentioned.relations ↔
        ∃ field, .relation path field ∈ b.mentions.take maxMentions ∧
          Kept b.cache b.tier path field) ∧
      (b.header ++ b.build.relations.flatMap b.relationChunk <+: b.filled.body ∧
        b.filled.leftOut.flatten <:+: b.filled.body ∧
        ((b.mentioned.relations.filter fun path => path ∉ b.build.relations).map fun path =>
          renderOmittedRelation path b.naming) <+: b.filled.leftOut) ∧
      (∀ path, b.withholdsName path = true →
        path ∉ b.build.relations ∧ (b.Agrees path → path ∉ b.mentioned.relations)) ∧
      Announces b.tier b.naming b.mentioned ∧
      (b.build.relations.map b.relationCost).sum ≤ b.policy.maxContextTokens - b.headerCost ∧
      estimateTokens (b.build.relations.flatMap b.relationChunk) ≤
        b.policy.maxContextTokens - b.headerCost := by
  have hcost : (b.build.relations.map b.relationCost).sum ≤
      b.policy.maxContextTokens - b.headerCost := by
    rw [relations_build]
    exact sum_admitted_le _ _
  refine ⟨⟨b.overflow, b.omittedRelations_build, b.nodup_overflow, fun _ => b.mem_overflow⟩,
    fun _ => mem_resolveMentions, ⟨?_, b.infix_leftOut, ?_⟩, ?_, announces_resolveMentions _, hcost,
    (b.estimateTokens_flatMap _).trans hcost⟩
  · rw [relations_build]
    exact b.prefix_body
  · rw [relations_build]
    exact b.prefix_leftOut
  · intro path hwithheld
    constructor
    · intro hdescribed
      rw [relations_build] at hdescribed
      have hlets := (b.mem_candidates.mp (b.fitting_sublist.subset hdescribed)).2
      exact absurd hwithheld (by rw [hlets]; decide)
    · intro hagrees hmentioned
      obtain ⟨-, -, ⟨kind, hkind, hlets⟩, -⟩ := mem_resolveMentions.mp hmentioned
      exact absurd (b.withheld_of_agrees hwithheld hagrees hkind) (by rw [hlets]; decide)

end ContextBuilder

/-! ## Two tables, of which one is described -/

def mainSpace : CatalogPath := ⟨none, some ⟨"main".toList, rfl⟩, none⟩

def tableA : RelationRef := ⟨mainSpace, ⟨"a".toList, rfl⟩, .table, none⟩

def tableB : RelationRef := ⟨mainSpace, ⟨"b".toList, rfl⟩, .table, none⟩

def twoTables : CatalogCache :=
  match CatalogCache.new.setRelations 0 mainSpace [tableA, tableB] with
  | .ok cache => cache
  | .error _ => .new

/-- Nothing matches, values are text, and texts hold no credentials. -/
def quiet : Outside := ⟨fun _ _ _ _ => none, Str, id, id⟩

def narrow : ContextBuilder quiet :=
  { ContextBuilder.new twoTables .metadata (.withNonce []) with
    policy := { ContextPolicy.default with maxRelations := 1 }
    mentions := [.relation tableA.path none] }

/-- Nothing fits. -/
def broke : ContextBuilder quiet :=
  { narrow with policy := { ContextPolicy.default with maxContextTokens := 0, maxRelations := 1 } }

/-- A follow-up that names a column nobody read. -/
def blind : ContextBuilder quiet :=
  { narrow with mentions := [.relation tableA.path (some "id".toList)], fill := false }

/-- One mention more than are kept, the others of nothing that is known. -/
def crowded : ContextBuilder quiet :=
  { narrow with
    mentions := List.replicate maxMentions (.relation mainSpace none) ++
      [.relation tableA.path none]
    fill := false }

/-- A relation that is listed as a key, and described as a table. -/
def deniedListing : CatalogCache :=
  match CatalogCache.new.setRelations 0 mainSpace [{ tableA with kind := .keyPattern }] with
  | .error _ => .new
  | .ok cache =>
    match cache.setRelation 0 tableA.path ⟨.table, none, none, []⟩ with
    | .ok cache => cache
    | .error _ => .new

def denied : ContextBuilder quiet := { narrow with cache := deniedListing }

open ContextBuilder

theorem header_narrow : narrow.header =
    "query language: sql (dialect: ".toList ++ "ansi".toList ++ ")\n".toList ++ ['\n'] ++
      ("mentioned by the user: ".toList ++ "table".toList ++ [' '] ++
        narrow.naming.path tableA.path ++ ['\n']) ++ ['\n'] := by
  rfl

theorem chunk_narrow : renderRelation narrow.cache narrow.policy tableA.path narrow.naming =
    "table".toList ++ [' '] ++ narrow.naming.path tableA.path ++ ['\n'] ++
      "  fields not read yet\n\n".toList := by
  rfl

theorem headerCost_narrow : narrow.headerCost ≤ 100 ∧ 0 < narrow.headerCost := by
  rewrite [headerCost, header_narrow,
    show "query language: sql (dialect: ".toList = _ from toList_of_eq rfl,
    show "mentioned by the user: ".toList = _ from toList_of_eq rfl]
  decide

theorem chunkCost_narrow : estimateTokens
    (renderRelation narrow.cache narrow.policy tableA.path narrow.naming) ≤ 100 := by
  rewrite [chunk_narrow, show "  fields not read yet\n\n".toList = _ from toList_of_eq rfl]
  decide

theorem fits_narrow : narrow.fits narrow.start (narrow.relationChunk tableA.path) = true := by
  have hheader := headerCost_narrow.1
  have hchunk := chunkCost_narrow
  have hmax : narrow.policy.maxContextTokens = 6000 := rfl
  have hstart : narrow.start.used = narrow.headerCost := rfl
  unfold ContextBuilder.fits relationChunk
  rw [hstart, hmax, if_neg (by omega)]
  exact decide_eq_true (by omega)

theorem selected_narrow : narrow.selectRelations = [tableA.path] ∧
    narrow.withholdsName tableA.path = false := by
  decide

theorem described_narrow : narrow.described =
    { narrow.start.admit (narrow.relationChunk tableA.path) with kept := [tableA.path] } := by
  obtain ⟨hselect, hlets⟩ := selected_narrow
  rw [described, hselect, foldl_cons, foldl_nil, addRelation, hlets,
    if_neg Bool.false_ne_true, if_pos fits_narrow]
  rfl

theorem described_broke : broke.described = { broke.start with omitted := 1 } := by
  have hselect : broke.selectRelations = [tableA.path] := selected_narrow.1
  have hlets : broke.withholdsName tableA.path = false := selected_narrow.2
  have hfull : ¬ broke.fits broke.start (broke.relationChunk tableA.path) = true := by
    have hheader : 0 < broke.headerCost := headerCost_narrow.2
    have hstart : broke.start.used = broke.headerCost := rfl
    have hmax : broke.policy.maxContextTokens = 0 := rfl
    unfold ContextBuilder.fits
    rw [hstart, hmax, decide_eq_true_eq]
    omega
  rw [described, hselect, foldl_cons, foldl_nil, addRelation, hlets,
    if_neg Bool.false_ne_true, if_neg hfull]
  rfl

/-- A withheld table is neither described, nor named, nor counted. A mention that does not fit is
named and counted; one whose column is unknown is neither described nor named, nor is the
seventeenth. A relation listed as a key is named when its description says that it is a table. -/
theorem account_leaves_out :
    (tableB.path ∈ narrow.cache.iterRelations.map (·.1.path) ∧
      narrow.withholdsName tableB.path = false ∧ tableB.path ∉ narrow.build.relations ∧
      narrow.build.omittedMentions = 0 ∧ narrow.build.omittedRelations = 0) ∧
    (broke.build.relations = [] ∧ broke.build.omittedMentions = 1 ∧
      broke.build.omittedRelations = 1) ∧
    (blind.withholdsName tableA.path = false ∧ blind.build.relations = [] ∧
      blind.mentioned.lines = [] ∧ blind.build.omittedMentions = 0) ∧
    (crowded.withholdsName tableA.path = false ∧ crowded.build.relations = [] ∧
      crowded.mentioned.lines = [] ∧ crowded.build.omittedMentions = 0 ∧
      crowded.build.omittedRelations = 0) ∧
    (denied.withholdsName tableA.path = true ∧
      denied.mentioned.lines = [relationLine denied.naming .table tableA.path] ∧
      denied.filled.leftOut = [renderOmittedRelation tableA.path denied.naming]) := by
  refine ⟨⟨by decide, by decide, ?_⟩, ?_, by decide, by decide, by decide, rfl, rfl⟩
  · simp only [build, filled, explained, named, described_narrow]
    decide
  · simp only [build, filled, explained, named, described_broke]
    decide

end Oxyn.Ai
