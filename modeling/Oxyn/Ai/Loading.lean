/-
# `Oxyn.Ai.Loading` — what the host loads, and what the gate describes

The host loads what the selection keeps, the mentions it counts in front; the gate describes what
the same selection keeps, the mentions it keeps in front.
-/
import Oxyn.Ai.Accounting
import Mathlib.Algebra.Order.BigOperators.Group.List
import Mathlib.Algebra.Order.Group.Nat
import Mathlib.Data.List.Induction

namespace Oxyn.Ai

open Text Catalog KeyPatterns Admission List

/-! ## Lists -/

variable {α : Type}

theorem prefix_of_take_sublist {l m : List α}
    (h : ∀ n, (l.take n).Sublist (m.take n)) : l <+: m := by
  induction l generalizing m with
  | nil => exact nil_prefix
  | cons x l ih =>
    cases m with
    | nil => exact absurd (h 1).length_le (by simp)
    | cons y m =>
      obtain rfl : x = y := by simpa using h 1
      refine cons_prefix_cons.mpr ⟨rfl, ih fun n => ?_⟩
      exact cons_sublist_cons.mp (h (n + 1))

theorem sublist_toList {l : List α} {o : Option α} (hnodup : l.Nodup)
    (h : ∀ x ∈ l, o = some x) : l.Sublist o.toList := by
  cases l with
  | nil => exact nil_sublist _
  | cons x rest =>
    cases rest with
    | nil => rw [h x mem_cons_self]; exact List.Sublist.refl _
    | cons y rest =>
      have hxy := (h x mem_cons_self).symm.trans (h y (by simp))
      obtain rfl := Option.some.inj hxy
      exact absurd hnodup (by simp)

theorem eraseDups_concat [DecidableEq α] (l : List α) (x : α) :
    (l ++ [x]).eraseDups = if l.eraseDups.contains x then l.eraseDups else l.eraseDups ++ [x] := by
  rw [eraseDups_append]
  by_cases hin : x ∈ l
  · simp [List.removeAll, hin]
  · simp [List.removeAll, hin, show [x].eraseDups = [x] from rfl]

/-! ## Mentions -/

section Mentions

variable {cache : CatalogCache} {tier : PrivacyTier} {naming : Naming}

instance (path : CatalogPath) (field : Option Str) : Decidable (Kept cache tier path field) :=
  decidable_of_iff
    ((kindOf cache path).any (fun kind => withholdsName tier kind = false) = true ∧
      ∀ name ∈ field, listsField cache path name = true)
    (and_congr_left fun _ => by simp [Option.any_eq_true])

def passing (pass : CatalogPath → Option Str → Bool) : Mention → Option CatalogPath
  | .relation path field => if pass path field then some path else none
  | .savedQuery .. => none

/-- The relations of the mentions that pass, each once, in the order they were typed. -/
def mentionsThat (pass : CatalogPath → Option Str → Bool) (mentions : List Mention) :
    List CatalogPath :=
  ((mentions.take maxMentions).filterMap (passing pass)).eraseDups

theorem relations_resolveMention (r : Resolved) (mention : Mention) :
    (resolveMention cache tier naming r mention).relations =
      match passing (fun path field => Kept cache tier path field) mention with
      | none => r.relations
      | some path => if r.relations.contains path then r.relations else r.relations ++ [path] := by
  cases mention with
  | savedQuery title text => rfl
  | relation path field =>
    rcases resolveMention_cases naming r path field with
      ⟨hdropped, hstep | ⟨kind, hstep⟩⟩ | ⟨hkept, line, -, hstep⟩
    · rw [hstep]
      simp [passing, hdropped]
    · rw [hstep]
      simp [passing, hdropped]
    · rw [hstep]
      simp only [passing, hkept, Resolved.add, decide_true, if_true, Resolved.relations_say]
      split
      next => exact Resolved.relations_say line
      next => rfl

theorem eraseDups_of_step {pass : CatalogPath → Option Str → Bool}
    {step : α → Mention → α} (relations : α → List CatalogPath)
    (hstep : ∀ a mention, relations (step a mention) =
      match passing pass mention with
      | none => relations a
      | some path =>
        if (relations a).contains path then relations a else relations a ++ [path])
    {start : α} (hstart : relations start = []) (mentions : List Mention) :
    relations (mentions.foldl step start) = (mentions.filterMap (passing pass)).eraseDups := by
  induction mentions using List.reverseRecOn with
  | nil => exact hstart
  | append_singleton mentions mention ih =>
    rw [foldl_concat, hstep, ih, filterMap_append]
    cases hpass : passing pass mention with
    | none => simp [hpass]
    | some path => simp [hpass, eraseDups_concat]

theorem relations_resolveMentions (mentions : List Mention) :
    (resolveMentions cache tier naming mentions).relations =
      mentionsThat (fun path field => Kept cache tier path field) mentions :=
  eraseDups_of_step Resolved.relations relations_resolveMention rfl _

theorem mentionedRelations_eq (mentions : List Mention) :
    mentionedRelations cache mentions =
      mentionsThat (fun path _ => (cache.relationSummary path).isSome) mentions := by
  refine eraseDups_of_step id (fun mentioned mention => ?_) rfl _
  cases mention with
  | savedQuery title text => rfl
  | relation path field =>
    by_cases hlisted : (cache.relationSummary path).isSome = true
    · simp [passing, hlisted]
    · simp [passing, hlisted]

end Mentions

/-! ## The selection -/

section Selection

variable {outside : Outside} {cache : CatalogCache}

theorem complete_eq (limit : Nat) (chosen candidates : List CatalogPath) :
    ∃ more, complete limit chosen candidates = chosen ++ more ∧ more ⊆ candidates := by
  induction candidates generalizing chosen with
  | nil => exact ⟨[], (append_nil _).symm, nil_subset _⟩
  | cons path rest ih =>
    unfold complete
    split
    next => exact ⟨[], (append_nil _).symm, nil_subset _⟩
    next =>
      split
      next =>
        obtain ⟨more, heq, hsub⟩ := ih chosen
        exact ⟨more, heq, fun p hp => mem_cons_of_mem _ (hsub hp)⟩
      next =>
        obtain ⟨more, heq, hsub⟩ := ih (chosen ++ [path])
        refine ⟨path :: more, by rw [heq, append_assoc, singleton_append], ?_⟩
        exact cons_subset.mpr
          ⟨mem_cons_self, fun p hp => mem_cons_of_mem _ (hsub hp)⟩

variable {path : CatalogPath}

theorem complete_head {limit : Nat} {chosen : List CatalogPath}
    (hroom : limit = chosen.length + 1) (hnew : path ∉ chosen) (rest : List CatalogPath) :
    complete limit chosen (path :: rest) = chosen ++ [path] := by
  unfold complete
  rw [if_neg (by omega), if_neg (by simpa using hnew)]
  cases rest with
  | nil => rfl
  | cons next rest =>
    unfold complete
    exact if_pos (by simp [hroom])

def listed (cache : CatalogCache) : List CatalogPath := cache.iterRelations.map (·.1.path)

theorem mem_listingOrder :
    path ∈ (listingOrder cache).map (·.path) ↔ path ∈ listed cache := by
  simp [listingOrder, listed]

theorem path_mem_listed {focus : Str} {limit : Nat} {hit : SearchHit}
    (h : hit ∈ hits outside cache focus limit) : hit.path ∈ listed cache := by
  unfold hits at h
  split at h
  next => exact absurd h not_mem_nil
  next =>
    obtain ⟨entry, hentry, hrate⟩ :=
      mem_filterMap.mp (mem_mergeSort.mp (mem_of_mem_take h))
    obtain ⟨score, -, rfl⟩ := Option.map_eq_some_iff.mp hrate
    exact mem_map_of_mem hentry

theorem found_subset (focus : Str) (limit : Nat) :
    found outside cache focus limit ⊆ listed cache := by
  intro path hpath
  unfold found at hpath
  split at hpath
  next =>
    rw [← mem_listingOrder]
    obtain ⟨r, hr, rfl⟩ := mem_map.mp hpath
    exact mem_map_of_mem (mem_of_mem_take hr)
  next =>
    obtain ⟨hit, hhit, rfl⟩ := mem_map.mp hpath
    exact path_mem_listed hhit

theorem rankedHits_subset (outside : Outside) (cache : CatalogCache) (focus : Str)
    (semantic : SemanticScores) :
    rankedHits outside cache focus semantic ⊆ listed cache := by
  intro path hpath
  obtain ⟨hit, hhit, rfl⟩ := mem_map.mp hpath
  exact path_mem_listed (mem_mergeSort.mp hhit)

theorem mem_unmatched {semantic : SemanticScores} {chosen : List CatalogPath} :
    path ∈ unmatched cache semantic chosen ↔
      path ∈ listed cache ∧ path ∉ chosen ∧ (semantic.get path).isSome := by
  simp [unmatched, listed]

theorem ranked_subset (focus : Str) (limit : Nat) (semantic : SemanticScores) :
    ranked outside cache focus limit semantic ⊆ listed cache := by
  have hhits := rankedHits_subset outside cache focus semantic
  have hscored : rankedHits outside cache focus semantic ++
      (unmatched cache semantic (rankedHits outside cache focus semantic)).take
        (limit - (rankedHits outside cache focus semantic).length) ⊆ listed cache := by
    refine append_subset.mpr ⟨hhits, fun path hpath => ?_⟩
    have hpath := mem_of_mem_take hpath
    rw [mem_unmatched] at hpath
    exact hpath.1
  simp only [ranked]
  split
  next => exact List.Subset.trans (take_subset _ _) hhits
  next =>
    split
    next =>
      obtain ⟨more, heq, hmore⟩ := complete_eq limit (rankedHits outside cache focus semantic ++
        (unmatched cache semantic (rankedHits outside cache focus semantic)).take
          (limit - (rankedHits outside cache focus semantic).length))
        ((listingOrder cache).map (·.path))
      rw [heq]
      refine append_subset.mpr ⟨hscored, fun path hp => ?_⟩
      rw [← mem_listingOrder]
      exact hmore hp
    next => exact hscored

theorem select_eq (outside : Outside) (cache : CatalogCache) (focus : Str) (limit : Nat)
    (mentioned : List CatalogPath) (fill : Bool) (semantic : SemanticScores) :
    ∃ more, select outside cache focus limit mentioned fill semantic =
        mentioned.take limit ++ more ∧
      more ⊆ listed cache ∧ (limit ≤ mentioned.length → more = []) := by
  simp only [select]
  split
  next => exact ⟨[], (append_nil _).symm, nil_subset _, fun _ => rfl⟩
  next hroom =>
    obtain ⟨more, heq, hmore⟩ := complete_eq limit (mentioned.take limit)
      (if semantic.isEmpty then found outside cache focus limit
        else ranked outside cache focus limit semantic)
    refine ⟨more, heq, List.Subset.trans hmore ?_, fun hlong => absurd ?_ hroom⟩
    · split
      next => exact found_subset focus limit
      next => exact ranked_subset focus limit semantic
    · simp [Nat.min_eq_left hlong]

theorem ranked_single (outside : Outside) {score : F32}
    (hlisted : path ∈ listed cache) (hfinite : score.isFinite = true) (limit : Nat) :
    ∃ rest, ranked outside cache [] (limit + 1) (SemanticScores.new.insert path score) =
      path :: rest := by
  have hget : ∀ p, ((SemanticScores.new.insert path score).get p).isSome ↔ p = path := by
    intro p
    simp [SemanticScores.insert, hfinite, SemanticScores.get, SemanticScores.new,
      IndexMap.get_insert]
  have hhits : rankedHits outside cache [] (SemanticScores.new.insert path score) = [] := by
    simp [rankedHits, hits, show (trim []).isEmpty = true from rfl]
  have hmem : path ∈ unmatched cache (SemanticScores.new.insert path score) [] := by
    rw [mem_unmatched]
    exact ⟨hlisted, not_mem_nil, (hget path).mpr rfl⟩
  obtain ⟨rest, heq⟩ : ∃ rest,
      unmatched cache (SemanticScores.new.insert path score) [] = path :: rest := by
    cases hlist : unmatched cache (SemanticScores.new.insert path score) [] with
    | nil => exact absurd (hlist ▸ hmem) not_mem_nil
    | cons first rest =>
      have hfirst : first ∈ unmatched cache (SemanticScores.new.insert path score) [] :=
        hlist ▸ mem_cons_self
      rw [mem_unmatched, hget] at hfirst
      rw [hfirst.2.2]
      exact ⟨rest, rfl⟩
  simp only [ranked, hhits, heq]
  obtain ⟨more, hmore, -⟩ := complete_eq (limit + 1) (path :: rest.take limit)
    ((listingOrder cache).map (·.path))
  exact ⟨rest.take limit ++ more, hmore⟩

end Selection

/-! ## What is described, and what is loaded -/

namespace ContextBuilder

variable {outside : Outside} (b : ContextBuilder outside)

/-- The mentions that the gate keeps: those it can check, of names the tier lets out. -/
def kept : List CatalogPath :=
  mentionsThat (fun path field => Kept b.cache b.tier path field) b.mentions

def counted : List CatalogPath :=
  mentionsThat (fun path _ => (b.cache.relationSummary path).isSome) b.mentions

/-- Whatever is asked, the gate describes relations that the host loads, in the same order. -/
def Loads : Prop :=
  ∀ policy focus fill semantic,
    ({ b with policy := policy, focus := focus, fill := fill, semantic := semantic } :
      ContextBuilder outside).build.relations.Sublist
      (wantedRelationsRanked outside b.cache policy focus b.mentions fill semantic)

/-- The gate keeps the mentions that the host counts; or the first of them, and no other listed
relation is let out than the one that is counted next. -/
def InStep : Prop :=
  b.kept = b.counted ∨
    (b.kept <+: b.counted ∧
      ∀ path ∈ listed b.cache, b.withholdsName path = false → path ∉ b.kept →
        b.counted[b.kept.length]? = some path)

theorem relations_mentioned : b.mentioned.relations = b.kept := relations_resolveMentions _

theorem nodup_kept : b.kept.Nodup := b.relations_mentioned ▸ nodup_resolveMentions _

theorem sublist_of_inStep (h : b.InStep) :
    b.build.relations.Sublist
      (wantedRelationsRanked outside b.cache b.policy b.focus b.mentions b.fill b.semantic) := by
  rw [relations_build]
  refine b.fitting_sublist.trans ?_
  unfold candidates selectRelations wantedRelationsRanked
  rw [relations_mentioned, mentionedRelations_eq]
  rcases h with heq | ⟨hbegins, hothers⟩
  · rw [heq]
    exact filter_sublist
  · obtain ⟨more, hmore, hlisted, hfull⟩ := select_eq outside b.cache
      b.focus b.policy.maxRelations b.kept b.fill b.semantic
    obtain ⟨rest, hrest, -⟩ := select_eq outside b.cache
      b.focus b.policy.maxRelations b.counted b.fill b.semantic
    have hnodup : (b.kept.take b.policy.maxRelations ++ more).Nodup :=
      hmore ▸ nodup_select b.nodup_kept b.fill b.semantic
    rw [hmore]
    show List.Sublist _
      (select outside b.cache b.focus b.policy.maxRelations b.counted b.fill b.semantic)
    rw [hrest, filter_append]
    refine List.Sublist.trans ?_ (sublist_append_left _ _)
    by_cases hlong : b.policy.maxRelations ≤ b.kept.length
    · rw [hfull hlong, filter_nil, append_nil]
      exact filter_sublist.trans (hbegins.take _).sublist
    · have hshort : b.kept.length + 1 ≤ b.policy.maxRelations := by omega
      rw [take_of_length_le (by omega)] at hnodup ⊢
      -- nothing but the next mention that is counted comes behind those that are kept
      have hnext : (more.filter fun path => !b.withholdsName path).Sublist
          b.counted[b.kept.length]?.toList := by
        refine sublist_toList ((List.nodup_append.mp hnodup).2.1.filter _) fun path hpath => ?_
        obtain ⟨hin, hlets⟩ := mem_filter.mp hpath
        refine hothers path (hlisted hin) (by simpa using hlets) fun hkept => ?_
        exact (List.nodup_append.mp hnodup).2.2 path hkept path hin rfl
      have htake : b.kept ++ b.counted[b.kept.length]?.toList =
          b.counted.take (b.kept.length + 1) := by
        rw [take_add_one, ← prefix_iff_eq_take.mp hbegins]
      refine (filter_sublist.append hnext).trans ?_
      rw [htake]
      exact (take_prefix_take_left hshort).sublist

theorem exists_room :
    ∃ tokens, ({ b with policy := { b.policy with maxContextTokens := tokens } } :
      ContextBuilder outside).build.relations = b.candidates := by
  let cost := fun path => estimateTokens (renderRelation b.cache b.policy path b.naming)
  obtain ⟨tokens, htokens⟩ : ∃ tokens, b.headerCost + (b.candidates.map cost).sum = tokens :=
    ⟨_, rfl⟩
  refine ⟨tokens, ?_⟩
  rw [relations_build]
  have hcost : ∀ path ∈ b.candidates,
      ({ b with policy := { b.policy with maxContextTokens := tokens } } :
        ContextBuilder outside).relationCost path = cost path := by
    intro path hpath
    have hone := le_sum_of_mem (mem_map_of_mem (f := cost) hpath)
    have hfits : ¬ tokens < b.headerCost + cost path := by omega
    exact congrArg estimateTokens (if_neg hfits)
  refine admitted_eq_self (le_of_eq (Eq.trans ?_ htokens))
  exact congrArg (b.headerCost + List.sum ·) (map_congr_left hcost)


theorem sublist_of_loads (h : b.Loads) (focus : Str) (limit : Nat) (fill : Bool)
    (semantic : SemanticScores) :
    ((select outside b.cache focus limit b.kept fill semantic).filter fun path =>
        !b.withholdsName path).Sublist
      (select outside b.cache focus limit b.counted fill semantic) := by
  obtain ⟨tokens, hroom⟩ := exists_room { b with
    policy := { b.policy with maxRelations := limit }
    focus := focus, fill := fill, semantic := semantic }
  have hwithin := h { b.policy with maxRelations := limit, maxContextTokens := tokens } focus fill
    semantic
  rw [hroom, wantedRelationsRanked, mentionedRelations_eq] at hwithin
  rw [← relations_mentioned]
  exact hwithin

/-- The mentions that are kept begin those that are counted: the follow-ups tell, which describe
their mentions alone. -/
theorem prefix_of_loads (hlets : ∀ path ∈ b.kept, b.withholdsName path = false) (h : b.Loads) :
    b.kept <+: b.counted := by
  refine prefix_of_take_sublist fun n => ?_
  have hwithin := b.sublist_of_loads h [] n false .new
  have hall : (b.kept.take n).filter (fun path => !b.withholdsName path) = b.kept.take n := by
    refine filter_eq_self.mpr fun path hpath => ?_
    rw [hlets path (mem_of_mem_take hpath)]
    rfl
  exact hall ▸ hwithin

/-- A listed relation that is let out and not kept is counted next: a question tells that gives
it the one score, and describes one relation more than its mentions. -/
theorem next_of_loads (hlets : ∀ path ∈ b.kept, b.withholdsName path = false) (h : b.Loads)
    (hmore : b.kept.length < b.counted.length) {path : CatalogPath}
    (hlisted : path ∈ listed b.cache) (hlet : b.withholdsName path = false)
    (hnew : path ∉ b.kept) : b.counted[b.kept.length]? = some path := by
  have hfinite : (⟨0⟩ : F32).isFinite = true := by decide
  obtain ⟨rest, hrest⟩ := ranked_single outside hlisted hfinite b.kept.length
  have hwithin := b.sublist_of_loads h [] (b.kept.length + 1) true
    (SemanticScores.new.insert path ⟨0⟩)
  have hdescribed : select outside b.cache [] (b.kept.length + 1) b.kept true
      (SemanticScores.new.insert path ⟨0⟩) = b.kept ++ [path] := by
    have hscored : (SemanticScores.new.insert path ⟨0⟩).isEmpty = false := rfl
    simp only [select]
    rw [take_of_length_le (by omega), if_neg (by simp), hscored, if_neg (by decide), hrest]
    exact complete_head rfl hnew rest
  have hall : (b.kept ++ [path]).filter (fun p => !b.withholdsName p) = b.kept ++ [path] := by
    refine filter_eq_self.mpr fun p hp => ?_
    rcases mem_append.mp hp with hin | hin
    · rw [hlets p hin]; rfl
    · rw [mem_singleton.mp hin, hlet]; rfl
  obtain ⟨more, heq, -, hfull⟩ := select_eq outside b.cache []
    (b.kept.length + 1) b.counted true (SemanticScores.new.insert path ⟨0⟩)
  rw [hdescribed, hall, heq, hfull hmore, append_nil] at hwithin
  have hlength : (b.kept ++ [path]).length = (b.counted.take (b.kept.length + 1)).length := by
    rw [length_append, length_singleton, length_take, Nat.min_eq_left hmore]
  have hlast : (b.kept ++ [path])[b.kept.length]? = some path := getElem?_concat_length
  rwa [hwithin.eq_of_length hlength, getElem?_take_of_lt (Nat.lt_succ_self _)] at hlast

/-- The gate describes nothing but what the host loads, just where the two keep step: only where the
descriptions of the mentioned relations do not deny that the listing lets their names out. -/
theorem described_is_loaded :
    (b.InStep → b.Loads) ∧
      ((∀ path ∈ b.kept, b.withholdsName path = false) → b.Loads → b.InStep) := by
  constructor
  · intro h policy focus fill semantic
    exact sublist_of_inStep { b with
      policy := policy, focus := focus, fill := fill, semantic := semantic } h
  · intro hlets h
    have hbegins := b.prefix_of_loads hlets h
    rcases hbegins.length_le.eq_or_lt with hlength | hmore
    · exact .inl (hbegins.eq_of_length hlength)
    · exact .inr ⟨hbegins, fun _ hlisted hlet hnew => b.next_of_loads hlets h hmore hlisted hlet hnew⟩

end ContextBuilder

/-! ## A column that is not there -/

/-- A column, as the server describes it. -/
def idColumn : Field := ⟨"id".toList, .scalar, "integer".toList, false, none, none, true, false⟩

def oneRead : CatalogCache :=
  match twoTables.setRelation 0 tableB.path ⟨.table, none, none, [idColumn]⟩ with
  | .ok cache => cache
  | .error _ => .new

/-- A follow-up that names a column the second table does not have, then the first table. -/
def mistaken : ContextBuilder quiet :=
  { ContextBuilder.new oneRead .metadata (.withNonce []) with
    policy := { ContextPolicy.default with maxRelations := 1 }
    mentions := [.relation tableB.path (some "x".toList), .relation tableA.path none]
    fill := false }

/-- The host counts the second table, which it has read already, and loads nothing else; the
gate drops the mention, and describes the first table, which nobody read. -/
theorem mistaken_describes_unread :
    wantedRelationsRanked quiet mistaken.cache mistaken.policy mistaken.focus mistaken.mentions
        mistaken.fill mistaken.semantic = [tableB.path] ∧
      (mistaken.cache.relation tableB.path).isSome ∧
      mistaken.build.relations = [tableA.path] ∧
      (mistaken.cache.relation tableA.path).isNone ∧
      ¬ mistaken.build.relations.Sublist
        (wantedRelationsRanked quiet mistaken.cache mistaken.policy mistaken.focus
          mistaken.mentions mistaken.fill mistaken.semantic) := by
  decide

/-- One builder keeps step with its host, and the other does not. -/
theorem narrow_and_mistaken : narrow.Loads ∧ ¬ mistaken.Loads := by
  have hkept : mistaken.kept = [tableA.path] := by decide
  have hcounted : mistaken.counted = [tableB.path, tableA.path] := by decide
  refine ⟨narrow.described_is_loaded.1 (.inl (by decide)), fun h => ?_⟩
  have hstep : mistaken.InStep := mistaken.described_is_loaded.2 (by decide) h
  unfold ContextBuilder.InStep at hstep
  rw [hkept, hcounted] at hstep
  rcases hstep with heq | ⟨hbegins, -⟩
  · exact absurd heq (by decide)
  · exact absurd hbegins (by decide)

end Oxyn.Ai
