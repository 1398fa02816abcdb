/-
# `Oxyn.Search.Unbounded` — the queries that match everything

What a query matches is read off the server: a clause of its own kind matches some documents and
misses some, and the others combine the clauses inside them.  A query that matches every document
is flagged exactly when that is evident (`flags_iff`): nothing is excluded, and where `should`
clauses are taken to be asked for, or the best of several counts, one of them matches every document
by itself.
-/
import Oxyn.Search.Classify

namespace Oxyn.Search

open Text Json List

variable {F Doc : Type}

/-! ## What a query matches -/

/-- The kinds that combine the clauses inside them. -/
def combining : List String :=
  ["match_all", "bool", "constant_score", "function_score", "script_score", "boosting", "dis_max"]

/-- The kinds that hold a text of the Lucene syntax. -/
def textual : List String := ["query_string", "simple_query_string"]

/-- A clause of its own kind, or a text that is none of the all-matching ones. -/
def IsLeaf (kind : Str) (body : Json.Value F) : Prop :=
  isOneOf combining kind = false ∧
    (isOneOf textual kind = true →
      ∃ text, body.get? "query".toList = some (.string text) ∧ matchesAllText text = false)

structure Leaves (F Doc : Type) where
  holds : Str → Json.Value F → Doc → Prop
  /-- The score of the document reaches the `min_score` of the body, if it has one. -/
  scores : Json.Value F → Doc → Prop
  /-- How many of so many clauses a `minimum_should_match` such as `75%` asks for, whatever the
  server reads in it. -/
  asks : Json.Value F → Nat → Nat
  some_match : ∀ {kind body}, IsLeaf kind body → ∃ d, holds kind body d
  some_miss : ∀ {kind body}, IsLeaf kind body → ∃ d, ¬ holds kind body d
  scores_of_none : ∀ {body} (d : Doc), body.get? "min_score".toList = none → scores body d

def Number.int? : Number F → Option Int
  | .unsigned n => some n
  | .negative n => some n
  | .float _ => none

section Minimum

variable (leaves : Leaves F Doc)

/-- What a `minimum_should_match` asks of so many clauses; a negative integer counts from their
number. -/
def Leaves.minimum (clauses : Nat) : Json.Value F → Nat
  | .number n =>
    match Number.int? n with
    | some n => if n < 0 then (clauses + n).toNat else n.toNat
    | none => leaves.asks (.number n) clauses
  | v => leaves.asks v clauses

/-- How many of the `should` clauses have to match: as many as asked, and one where no `must` or
`filter` is present. -/
def required (fields : List (Str × Json.Value F)) : Nat :=
  let should := clauses (field "should".toList fields)
  let asked :=
    ((field "minimum_should_match".toList fields).map (leaves.minimum should.length)).getD 0
  if clauses (field "must".toList fields) = [] ∧ clauses (field "filter".toList fields) = [] ∧
      should ≠ [] then max asked 1
  else asked

end Minimum

/-- A query is read as the server does, or with caution: what cannot be read restricts nothing, nor
does a score, and one of the required `should` clauses is enough. -/
inductive Reading where
  | server | cautious

mutual

def Matches (leaves : Leaves F Doc) (reading : Reading) (d : Doc) (query : Json.Value F) : Prop :=
  match query with
  | .object [(kind, body)] =>
    if kind = "match_all".toList then True
    else if kind = "bool".toList then
      match body with
      | .object fields => BoolMatches leaves reading d fields
      | _ => reading = .cautious
    else if kind = "constant_score".toList then
      (∀ c, ∀ _ : body.get? "filter".toList = some c, Matches leaves reading d c) ∧
        (reading = .cautious ∨ (body.get? "filter".toList).isSome = true)
    else if kind = "function_score".toList ∨ kind = "script_score".toList then
      (∀ c, ∀ _ : body.get? "query".toList = some c, Matches leaves reading d c) ∧
        (reading = .cautious ∨ leaves.scores body d)
    else if kind = "boosting".toList then
      (∀ c, ∀ _ : body.get? "positive".toList = some c, Matches leaves reading d c) ∧
        (reading = .cautious ∨ (body.get? "positive".toList).isSome = true)
    else if kind = "dis_max".toList then
      ∃ c, ∃ _ : c ∈ clauses (body.get? "queries".toList), Matches leaves reading d c
    else leaves.holds kind body d ∨ isOneOf textual kind = true ∧
      ((∃ text, body.get? "query".toList = some (.string text) ∧
          isOneOf ["*", "*:*"] (trim text) = true) ∨
        reading = .cautious ∧ ∀ text, body.get? "query".toList = some (.string text) →
          matchesAllText text = true)
  | _ => reading = .cautious
termination_by sizeOf query
decreasing_by
  all_goals try have := Json.Value.sizeOf_get? ‹Json.Value.get? _ _ = some _›
  all_goals try have := sizeOf_clause_get? ‹_ ∈ clauses _›
  all_goals simp only [Json.Value.object.sizeOf_spec, List.cons.sizeOf_spec, Prod.mk.sizeOf_spec]
  all_goals omega

/-- Does it match every `must` and `filter`, no `must_not`, and enough of the `should`? -/
def BoolMatches (leaves : Leaves F Doc) (reading : Reading) (d : Doc)
    (fields : List (Str × Json.Value F)) : Prop :=
  (∀ c, ∀ _ : c ∈ clauses (field "must".toList fields), Matches leaves reading d c) ∧
    (∀ c, ∀ _ : c ∈ clauses (field "filter".toList fields), Matches leaves reading d c) ∧
    (∀ c, ∀ _ : c ∈ clauses (field "must_not".toList fields), ¬ Matches leaves .server d c) ∧
    ∃ matching : List (Json.Value F),
      ∃ _ : matching.Sublist (clauses (field "should".toList fields)),
      (match reading with
        | .server => required leaves fields
        | .cautious => min (required leaves fields)
            (min 1 (clauses (field "should".toList fields)).length)) ≤ matching.length ∧
      ∀ c, ∀ _ : c ∈ matching, Matches leaves reading d c
termination_by sizeOf fields
decreasing_by
  all_goals first
    | exact sizeOf_clause ‹_ ∈ clauses _›
    | exact sizeOf_clause (List.Sublist.subset ‹_› ‹_›)

end

def MatchesAll (leaves : Leaves F Doc) (reading : Reading) (query : Json.Value F) : Prop :=
  ∀ d, Matches leaves reading d query

/-! ## Where it is evident -/

/-- The kinds that match what a clause of theirs matches, and the field it stands in. -/
def wrappers : List (Str × Str) :=
  [("constant_score".toList, "filter".toList), ("function_score".toList, "query".toList),
    ("script_score".toList, "query".toList), ("boosting".toList, "positive".toList)]

/-- The `should` clauses are taken to be asked for. -/
def TakenAsAsked (fields : List (Str × Json.Value F)) : Prop :=
  (field "minimum_should_match".toList fields).isSome = true ∨
    clauses (field "must".toList fields) = [] ∧ clauses (field "filter".toList fields) = []

/-- If the query matches every document, each clause it rests on tells alone: nothing is excluded,
and one of several that are enough matches every document. -/
inductive Evident (leaves : Leaves F Doc) : Json.Value F → Prop
  | unread {query : Json.Value F} : (∀ kind body, query ≠ .object [(kind, body)]) →
      Evident leaves query
  | single {kind : Str} {body : Json.Value F} :
      kind = "match_all".toList ∨ isOneOf combining kind = false →
        Evident leaves (.object [(kind, body)])
  | unreadBool {body : Json.Value F} : (∀ fields, body ≠ .object fields) →
      Evident leaves (.object [("bool".toList, body)])
  | unasked {fields : List (Str × Json.Value F)} :
      (∀ c ∈ clauses (field "must".toList fields), Evident leaves c) →
      (∀ c ∈ clauses (field "filter".toList fields), Evident leaves c) →
      clauses (field "must_not".toList fields) = [] →
      (TakenAsAsked fields → clauses (field "should".toList fields) = []) →
        Evident leaves (.object [("bool".toList, .object fields)])
  | asked {fields : List (Str × Json.Value F)} {c : Json.Value F} :
      (∀ c ∈ clauses (field "must".toList fields), Evident leaves c) →
      (∀ c ∈ clauses (field "filter".toList fields), Evident leaves c) →
      clauses (field "must_not".toList fields) = [] →
      c ∈ clauses (field "should".toList fields) → MatchesAll leaves .cautious c →
      Evident leaves c → Evident leaves (.object [("bool".toList, .object fields)])
  | wrapped {kind name : Str} {body : Json.Value F} : (kind, name) ∈ wrappers →
      (∀ c, body.get? name = some c → Evident leaves c) → Evident leaves (.object [(kind, body)])
  | best {body c : Json.Value F} : c ∈ clauses (body.get? "queries".toList) →
      MatchesAll leaves .cautious c → Evident leaves c →
        Evident leaves (.object [("dis_max".toList, body)])

/-! ## One kind at a time -/

theorem any_attach {α : Type} {p : α → Bool} (l : List α) :
    (l.attach.any fun ⟨c, _⟩ => p c) = l.any p := by
  rw [any_subtype fun _ _ => rfl, unattach_attach]

theorem all_attach {α : Type} {p : α → Bool} (l : List α) :
    (l.attach.all fun ⟨c, _⟩ => p c) = l.all p := by
  rw [all_subtype fun _ _ => rfl, unattach_attach]

section Kinds

variable {leaves : Leaves F Doc} {reading : Reading} {d : Doc} {body : Json.Value F}
  {fields : List (Str × Json.Value F)}

theorem matches_bool : Matches leaves reading d (.object [("bool".toList, .object fields)]) ↔
    BoolMatches leaves reading d fields := by
  rw [Matches, if_neg (by decide), if_pos rfl]

theorem matches_dis_max : Matches leaves reading d (.object [("dis_max".toList, body)]) ↔
    ∃ c, ∃ _ : c ∈ clauses (body.get? "queries".toList), Matches leaves reading d c := by
  rw [Matches.eq_def]
  dsimp only
  rw [if_neg (by decide), if_neg (by decide), if_neg (by decide), if_neg (by decide),
    if_neg (by decide), if_pos rfl]

theorem matches_unread {query : Json.Value F} (h : ∀ kind body, query ≠ .object [(kind, body)]) :
    Matches leaves reading d query ↔ reading = .cautious := by
  rw [Matches.eq_def]
  split
  next kind body => exact absurd rfl (h kind body)
  next => rfl

theorem matches_unreadBool (h : ∀ fields, body ≠ .object fields) :
    Matches leaves reading d (.object [("bool".toList, body)]) ↔ reading = .cautious := by
  rw [Matches.eq_def]
  dsimp only
  rw [if_neg (by decide), if_pos rfl]
  split
  next fields => exact absurd rfl (h fields)
  next => rfl

variable {kind : Str}

variable {name : Str}

theorem matches_wrapper (h : (kind, name) ∈ wrappers) :
    ∃ more : Prop, Matches leaves reading d (.object [(kind, body)]) ↔
      (∀ c, ∀ _ : body.get? name = some c, Matches leaves reading d c) ∧
        (reading = .cautious ∨ more) := by
  rw [Matches.eq_def]
  dsimp only
  simp only [wrappers, mem_cons, Prod.mk.injEq, not_mem_nil, or_false] at h
  rcases h with ⟨rfl, rfl⟩ | ⟨rfl, rfl⟩ | ⟨rfl, rfl⟩ | ⟨rfl, rfl⟩
  · rw [if_neg (by decide), if_neg (by decide), if_pos rfl]
    exact ⟨_, Iff.rfl⟩
  · rw [if_neg (by decide), if_neg (by decide), if_neg (by decide), if_pos (.inl rfl)]
    exact ⟨_, Iff.rfl⟩
  · rw [if_neg (by decide), if_neg (by decide), if_neg (by decide), if_pos (.inr rfl)]
    exact ⟨_, Iff.rfl⟩
  · rw [if_neg (by decide), if_neg (by decide), if_neg (by decide), if_neg (by decide), if_pos rfl]
    exact ⟨_, Iff.rfl⟩

theorem matches_cautious_wrapper (h : (kind, name) ∈ wrappers) :
    Matches leaves .cautious d (.object [(kind, body)]) ↔
      ∀ c, ∀ _ : body.get? name = some c, Matches leaves .cautious d c := by
  obtain ⟨more, hmore⟩ := @matches_wrapper _ _ leaves .cautious d body _ _ h
  rw [hmore, and_iff_left (.inl rfl)]

theorem innerMatchesEverything_eq :
    innerMatchesEverything name body = (body.get? name).all matchesEverything := by
  rw [innerMatchesEverything]
  split
  next h => rw [h]; rfl
  next h => rw [h]; rfl

theorem matchesEverything_wrapper {kind name : Str} (h : (kind, name) ∈ wrappers) :
    matchesEverything (.object [(kind, body)]) = (body.get? name).all matchesEverything := by
  rw [← innerMatchesEverything_eq, matchesEverything.eq_def]
  dsimp only
  simp only [wrappers, mem_cons, Prod.mk.injEq, not_mem_nil, or_false] at h
  rcases h with ⟨rfl, rfl⟩ | ⟨rfl, rfl⟩ | ⟨rfl, rfl⟩ | ⟨rfl, rfl⟩
  · rw [if_neg (by decide), if_neg (by decide), if_pos rfl]
  · rw [if_neg (by decide), if_neg (by decide), if_neg (by decide), if_pos (.inl rfl)]
  · rw [if_neg (by decide), if_neg (by decide), if_neg (by decide), if_pos (.inr rfl)]
  · rw [if_neg (by decide), if_neg (by decide), if_neg (by decide), if_neg (by decide), if_pos rfl]

theorem matchesEverything_dis_max :
    matchesEverything (.object [("dis_max".toList, body)]) =
      (clauses (body.get? "queries".toList)).any matchesEverything := by
  rw [matchesEverything.eq_def]
  dsimp only
  rw [if_neg (by decide), if_neg (by decide), if_neg (by decide), if_neg (by decide),
    if_neg (by decide), if_pos rfl]
  exact any_attach _

theorem matchesEverything_bool :
    matchesEverything (.object [("bool".toList, .object fields)]) =
      boolMatchesEverything fields := by
  rw [matchesEverything, if_neg (by decide), if_pos rfl]

theorem boolMatchesEverything_iff :
    boolMatchesEverything fields = true ↔
      (∀ c ∈ clauses (field "must".toList fields), matchesEverything c = true) ∧
        (∀ c ∈ clauses (field "filter".toList fields), matchesEverything c = true) ∧
        clauses (field "must_not".toList fields) = [] ∧
        ¬ (TakenAsAsked fields ∧ clauses (field "should".toList fields) ≠ [] ∧
          ∀ c ∈ clauses (field "should".toList fields), matchesEverything c = false) := by
  have hrestricts : (((field "minimum_should_match".toList fields).isSome ||
      ((clauses (field "must".toList fields)).isEmpty &&
        (clauses (field "filter".toList fields)).isEmpty)) &&
      !(clauses (field "should".toList fields)).isEmpty &&
      !(clauses (field "should".toList fields)).any matchesEverything) = true ↔
        TakenAsAsked fields ∧ clauses (field "should".toList fields) ≠ [] ∧
          ∀ c ∈ clauses (field "should".toList fields), matchesEverything c = false := by
    simp only [TakenAsAsked, Bool.and_eq_true, Bool.or_eq_true, Bool.not_eq_true', List.isEmpty_iff,
      isEmpty_eq_false_iff, any_eq_false, Bool.not_eq_true, and_assoc]
  rw [boolMatchesEverything]
  dsimp only
  rw [all_attach, all_attach, any_attach, ← hrestricts, Bool.and_eq_true, Bool.and_eq_true,
    Bool.and_eq_true, Bool.not_eq_true', Bool.not_eq_true, all_eq_true, all_eq_true,
    List.isEmpty_iff, and_assoc, and_assoc]

theorem isOneOf_iff {names : List String} {s : Str} :
    isOneOf names s = true ↔ ∃ name ∈ names, name.toList = s := by
  simp only [isOneOf, any_eq_true, beq_iff_eq]

theorem ne_of_not_isOneOf {names : List String} {s : Str} (h : isOneOf names s = false)
    {name : String} (hname : name ∈ names) : s ≠ name.toList := fun heq =>
  Bool.false_ne_true (h.symm.trans (isOneOf_iff.mpr ⟨name, hname, heq.symm⟩))

theorem matches_other (h : isOneOf combining kind = false) :
    Matches leaves reading d (.object [(kind, body)]) ↔
      leaves.holds kind body d ∨ isOneOf textual kind = true ∧
        ((∃ text, body.get? "query".toList = some (.string text) ∧
            isOneOf ["*", "*:*"] (trim text) = true) ∨
          reading = .cautious ∧ ∀ text, body.get? "query".toList = some (.string text) →
            matchesAllText text = true) := by
  have hne := fun name => @ne_of_not_isOneOf _ _ h name
  rw [Matches.eq_def]
  dsimp only
  rw [if_neg (hne _ (by decide)), if_neg (hne _ (by decide)), if_neg (hne _ (by decide)),
    if_neg (not_or.mpr ⟨hne _ (by decide), hne _ (by decide)⟩), if_neg (hne _ (by decide)),
    if_neg (hne _ (by decide))]

theorem matchesEverything_other (h : isOneOf combining kind = false) :
    matchesEverything (.object [(kind, body)]) =
      if isOneOf textual kind then
        ((body.get? "query".toList).bind Json.Value.asStr).all matchesAllText
      else false := by
  have hne := fun name => @ne_of_not_isOneOf _ _ h name
  have htextual : (kind = "query_string".toList ∨ kind = "simple_query_string".toList) ↔
      isOneOf textual kind = true := by
    rw [isOneOf_iff]
    simp only [textual, mem_cons, not_mem_nil, or_false, exists_eq_or_imp,
      exists_eq_left, eq_comm]
  rw [matchesEverything.eq_def]
  dsimp only
  rw [if_neg (hne _ (by decide)), if_neg (hne _ (by decide)), if_neg (hne _ (by decide)),
    if_neg (not_or.mpr ⟨hne _ (by decide), hne _ (by decide)⟩), if_neg (hne _ (by decide)),
    if_neg (hne _ (by decide))]
  exact if_congr htextual rfl rfl

theorem isLeaf_of_not_flagged (h : isOneOf combining kind = false)
    (hflag : matchesEverything (.object [(kind, body)]) = false) : IsLeaf kind body := by
  rw [matchesEverything_other h] at hflag
  refine ⟨h, fun htextual => ?_⟩
  rw [if_pos htextual] at hflag
  cases hget : body.get? "query".toList with
  | none => rw [hget] at hflag; cases hflag
  | some v =>
    rw [hget, Option.bind_some] at hflag
    cases v with
    | string text => exact ⟨text, rfl, hflag⟩
    | _ => cases hflag

theorem IsLeaf.not_matchesAll (h : IsLeaf kind body) (leaves : Leaves F Doc) :
    ¬ MatchesAll leaves .cautious (.object [(kind, body)]) := by
  intro hall
  obtain ⟨d, hmiss⟩ := leaves.some_miss h
  rcases (matches_other h.1).mp (hall d) with hholds | ⟨htextual, hread⟩
  · exact hmiss hholds
  · obtain ⟨other, hother, hnot⟩ := h.2 htextual
    refine Bool.false_ne_true (hnot.symm.trans ?_)
    rcases hread with ⟨text, htext, hstar⟩ | ⟨-, hread⟩
    · obtain rfl : text = other :=
        Json.Value.string.inj (Option.some.inj (htext.symm.trans hother))
      obtain ⟨name, hname, heq⟩ := isOneOf_iff.mp hstar
      exact isOneOf_iff.mpr ⟨name, mem_cons_of_mem _ hname, heq⟩
    · exact hread other hother

end Kinds

/-! ## The check against the documents -/

section Check

variable {leaves : Leaves F Doc} {fields : List (Str × Json.Value F)}

theorem takenAsAsked_of_required (h : 0 < required leaves fields) : TakenAsAsked fields := by
  by_cases halone : clauses (field "must".toList fields) = [] ∧
      clauses (field "filter".toList fields) = []
  · exact .inr halone
  · refine .inl ?_
    cases hgiven : field "minimum_should_match".toList fields with
    | some v => rfl
    | none =>
      have hnone : required leaves fields = 0 := by
        rw [required, hgiven]
        exact if_neg fun h => halone ⟨h.1, h.2.1⟩
      omega

variable {query : Json.Value F}

theorem kind_cases (kind : Str) : kind = "match_all".toList ∨ kind = "bool".toList ∨
    (∃ name, (kind, name) ∈ wrappers) ∨ kind = "dis_max".toList ∨
      isOneOf combining kind = false := by
  cases h : isOneOf combining kind with
  | false => exact .inr (.inr (.inr (.inr rfl)))
  | true =>
    obtain ⟨name, hname, rfl⟩ := isOneOf_iff.mp h
    simp only [combining, mem_cons, not_mem_nil, or_false] at hname
    rcases hname with rfl | rfl | rfl | rfl | rfl | rfl | rfl
    · exact .inl rfl
    · exact .inr (.inl rfl)
    · exact .inr (.inr (.inl ⟨"filter".toList, by decide⟩))
    · exact .inr (.inr (.inl ⟨"query".toList, by decide⟩))
    · exact .inr (.inr (.inl ⟨"query".toList, by decide⟩))
    · exact .inr (.inr (.inl ⟨"positive".toList, by decide⟩))
    · exact .inr (.inr (.inr (.inl rfl)))

theorem query_cases (query : Json.Value F) : (∀ kind body, query ≠ .object [(kind, body)]) ∨
    (∃ kind body, query = .object [(kind, body)] ∧
      (kind = "match_all".toList ∨ isOneOf combining kind = false)) ∨
    (∃ body, query = .object [("bool".toList, body)] ∧ ∀ fields, body ≠ .object fields) ∨
    (∃ fields, query = .object [("bool".toList, .object fields)]) ∨
    (∃ kind name body, query = .object [(kind, body)] ∧ (kind, name) ∈ wrappers) ∨
    ∃ body, query = .object [("dis_max".toList, body)] := by
  by_cases hread : ∃ kind body, query = .object [(kind, body)]
  · obtain ⟨kind, body, rfl⟩ := hread
    rcases kind_cases kind with rfl | rfl | ⟨name, hwrapper⟩ | rfl | hother
    · exact .inr (.inl ⟨_, _, rfl, .inl rfl⟩)
    · by_cases hfields : ∃ fields, body = .object fields
      · obtain ⟨fields, rfl⟩ := hfields
        exact .inr (.inr (.inr (.inl ⟨fields, rfl⟩)))
      · exact .inr (.inr (.inl ⟨body, rfl, not_exists.mp hfields⟩))
    · exact .inr (.inr (.inr (.inr (.inl ⟨kind, name, body, rfl, hwrapper⟩))))
    · exact .inr (.inr (.inr (.inr (.inr ⟨body, rfl⟩))))
    · exact .inr (.inl ⟨kind, body, rfl, .inr hother⟩)
  · exact .inl fun kind body h => hread ⟨kind, body, h⟩

theorem sizeOf_entry {kind : Str} {body c : Json.Value F} (h : sizeOf c < sizeOf body) :
    sizeOf c < sizeOf (Json.Value.object [(kind, body)]) := by
  rw [Json.Value.object.sizeOf_spec, List.cons.sizeOf_spec, Prod.mk.sizeOf_spec]
  omega

theorem sizeOf_bool {c : Json.Value F} (h : sizeOf c < sizeOf fields) :
    sizeOf c < sizeOf (Json.Value.object [("bool".toList, .object fields)]) :=
  sizeOf_entry (by rw [Json.Value.object.sizeOf_spec]; omega)

theorem matches_cautious {d : Doc} (h : Matches leaves .server d query) :
    Matches leaves .cautious d query := by
  induction hsize : sizeOf query using Nat.strong_induction_on generalizing query with
  | _ size ih =>
    subst hsize
    rcases query_cases query with hread | ⟨kind, body, rfl, rfl | hother⟩ | ⟨body, rfl, hbody⟩ |
      ⟨fields, rfl⟩ | ⟨kind, name, body, rfl, hwrapper⟩ | ⟨body, rfl⟩
    · exact (matches_unread hread).mpr rfl
    · rw [Matches.eq_def]
      exact trivial
    · rw [matches_other hother] at h ⊢
      exact h.imp_right fun ⟨htextual, hread⟩ => ⟨htextual, .inl (hread.resolve_right nofun)⟩
    · exact (matches_unreadBool hbody).mpr rfl
    · simp only [matches_bool, BoolMatches] at h ⊢
      obtain ⟨hmust, hfilter, hnot, matching, hsub, hrequired, hshould⟩ := h
      refine ⟨fun c hc => ?_, fun c hc => ?_, hnot, matching, hsub,
        (Nat.min_le_left _ _).trans hrequired, fun c hc => ?_⟩
      · exact ih _ (sizeOf_bool (sizeOf_clause hc)) (hmust c hc) rfl
      · exact ih _ (sizeOf_bool (sizeOf_clause hc)) (hfilter c hc) rfl
      · exact ih _ (sizeOf_bool (sizeOf_clause (hsub.subset hc))) (hshould c hc) rfl
    · obtain ⟨more, hmore⟩ := matches_wrapper hwrapper
      refine (matches_cautious_wrapper hwrapper).mpr fun c hc => ?_
      exact ih _ (sizeOf_entry (Json.Value.sizeOf_get? hc)) ((hmore.mp h).1 c hc) rfl
    · obtain ⟨c, hc, hmatches⟩ := matches_dis_max.mp h
      exact matches_dis_max.mpr
        ⟨c, hc, ih _ (sizeOf_entry (sizeOf_clause_get? hc)) hmatches rfl⟩

theorem matchesAll_bool {matching : List (Json.Value F)}
    (hmust : ∀ c ∈ clauses (field "must".toList fields), MatchesAll leaves .cautious c)
    (hfilter : ∀ c ∈ clauses (field "filter".toList fields), MatchesAll leaves .cautious c)
    (hnot : clauses (field "must_not".toList fields) = [])
    (hsub : matching.Sublist (clauses (field "should".toList fields)))
    (henough : min (required leaves fields)
      (min 1 (clauses (field "should".toList fields)).length) ≤ matching.length)
    (hmatching : ∀ c ∈ matching, MatchesAll leaves .cautious c) :
    MatchesAll leaves .cautious (.object [("bool".toList, .object fields)]) := by
  intro d
  rw [matches_bool, BoolMatches]
  refine ⟨fun c hc => hmust c hc d, fun c hc => hfilter c hc d, ?_, matching, hsub, henough,
    fun c hc => hmatching c hc d⟩
  rw [hnot]
  exact fun c hc => absurd hc not_mem_nil

/-- A `bool` that is flagged, its clauses being as this says. -/
theorem evident_of_flagged_bool (hflag : boolMatchesEverything fields = true)
    (ih : ∀ c : Json.Value F, sizeOf c < sizeOf fields → matchesEverything c = true →
      MatchesAll leaves .cautious c ∧ Evident leaves c) :
    MatchesAll leaves .cautious (.object [("bool".toList, .object fields)]) ∧
      Evident leaves (.object [("bool".toList, .object fields)]) := by
  obtain ⟨hmust, hfilter, hnot, hshould⟩ := boolMatchesEverything_iff.mp hflag
  have hmust := fun c hc => ih c (sizeOf_clause hc) (hmust c hc)
  have hfilter := fun c hc => ih c (sizeOf_clause hc) (hfilter c hc)
  have hall {matching : List (Json.Value F)} := @matchesAll_bool _ _ _ _ matching
    (fun c hc => (hmust c hc).1) (fun c hc => (hfilter c hc).1) hnot
  by_cases hasked : TakenAsAsked fields ∧ clauses (field "should".toList fields) ≠ []
  · have hsome : ∃ c ∈ clauses (field "should".toList fields), matchesEverything c = true := by
      by_contra hnone
      refine hshould ⟨hasked.1, hasked.2, fun c hc => ?_⟩
      exact Bool.eq_false_iff.mpr fun hc' => hnone ⟨c, hc, hc'⟩
    obtain ⟨c, hc, hflag⟩ := hsome
    obtain ⟨hmatches, hevident⟩ := ih c (sizeOf_clause hc) hflag
    refine ⟨@hall [c] (singleton_sublist.mpr hc)
        ((Nat.min_le_right _ _).trans (Nat.min_le_left _ _)) fun c' hc' => ?_,
      .asked (fun c hc => (hmust c hc).2) (fun c hc => (hfilter c hc).2) hnot hc hmatches hevident⟩
    exact mem_singleton.mp hc' ▸ hmatches
  · rw [not_and, not_not] at hasked
    refine ⟨hall (nil_sublist _) ?_ fun c hc => absurd hc not_mem_nil,
      .unasked (fun c hc => (hmust c hc).2) (fun c hc => (hfilter c hc).2) hnot hasked⟩
    rcases Nat.eq_zero_or_pos (required leaves fields) with hnone | hrequired
    · rw [hnone, Nat.zero_min]
      exact Nat.zero_le _
    · rw [hasked (takenAsAsked_of_required hrequired)]
      exact Nat.min_le_right _ _

/-- What is flagged matches every document to a cautious reader, and evidently so. -/
theorem evident_of_flagged (hflag : matchesEverything query = true) :
    MatchesAll leaves .cautious query ∧ Evident leaves query := by
  induction hsize : sizeOf query using Nat.strong_induction_on generalizing query with
  | _ size ih =>
    subst hsize
    rcases query_cases query with hread | ⟨kind, body, rfl, hsingle⟩ | ⟨body, rfl, hbody⟩ |
      ⟨fields, rfl⟩ | ⟨kind, name, body, rfl, hwrapper⟩ | ⟨body, rfl⟩
    · exact ⟨fun d => (matches_unread hread).mpr rfl, .unread hread⟩
    · refine ⟨fun d => ?_, .single hsingle⟩
      rcases hsingle with rfl | hother
      · rw [Matches.eq_def]
        exact trivial
      · rw [matchesEverything_other hother] at hflag
        split at hflag
        next htextual =>
          refine (matches_other hother).mpr (.inr ⟨htextual, .inr ⟨rfl, fun text htext => ?_⟩⟩)
          rw [htext] at hflag
          exact hflag
        next => cases hflag
    · exact ⟨fun d => (matches_unreadBool hbody).mpr rfl, .unreadBool hbody⟩
    · exact evident_of_flagged_bool (matchesEverything_bool.symm.trans hflag) fun c hc hflag =>
        ih _ (sizeOf_bool hc) hflag rfl
    · rw [matchesEverything_wrapper hwrapper] at hflag
      have hinner : ∀ c, body.get? name = some c →
          MatchesAll leaves .cautious c ∧ Evident leaves c := by
        intro c hc
        rw [hc] at hflag
        exact ih _ (sizeOf_entry (Json.Value.sizeOf_get? hc)) hflag rfl
      exact ⟨fun d => (matches_cautious_wrapper hwrapper).mpr fun c hc => (hinner c hc).1 d,
        .wrapped hwrapper fun c hc => (hinner c hc).2⟩
    · rw [matchesEverything_dis_max, any_eq_true] at hflag
      obtain ⟨c, hc, hflag⟩ := hflag
      obtain ⟨hmatches, hevident⟩ := ih _ (sizeOf_entry (sizeOf_clause_get? hc)) hflag rfl
      exact ⟨fun d => matches_dis_max.mpr ⟨c, hc, hmatches d⟩, .best hc hmatches hevident⟩

theorem Evident.flagged (h : Evident leaves query) (hall : MatchesAll leaves .cautious query) :
    matchesEverything query = true := by
  induction h with
  | unread hread =>
    rw [matchesEverything.eq_def]
    split
    next kind body => exact absurd rfl (hread kind body)
    next => rfl
  | single hsingle =>
    rcases hsingle with rfl | hother
    · rw [matchesEverything.eq_def]
      rfl
    · by_contra hflag
      exact (isLeaf_of_not_flagged hother (Bool.eq_false_iff.mpr hflag)).not_matchesAll leaves hall
  | unreadBool hbody =>
    rw [matchesEverything.eq_def]
    dsimp only
    rw [if_neg (by decide), if_pos rfl]
    split
    next fields => exact absurd rfl (hbody fields)
    next => rfl
  | @unasked fields hmust hfilter hnot hshould ihmust ihfilter =>
    have hinside := fun d => matches_bool.mp (hall d)
    simp only [BoolMatches] at hinside
    rw [matchesEverything_bool, boolMatchesEverything_iff]
    refine ⟨fun c hc => ihmust c hc fun d => (hinside d).1 c hc,
      fun c hc => ihfilter c hc fun d => (hinside d).2.1 c hc, hnot, ?_⟩
    rintro ⟨hasked, hsome, -⟩
    exact hsome (hshould hasked)
  | @asked fields c hmust hfilter hnot hc hmatches hevident ihmust ihfilter ih =>
    have hinside := fun d => matches_bool.mp (hall d)
    simp only [BoolMatches] at hinside
    rw [matchesEverything_bool, boolMatchesEverything_iff]
    refine ⟨fun c hc => ihmust c hc fun d => (hinside d).1 c hc,
      fun c hc => ihfilter c hc fun d => (hinside d).2.1 c hc, hnot, ?_⟩
    rintro ⟨-, -, hnone⟩
    exact Bool.false_ne_true ((hnone c hc).symm.trans (ih hmatches))
  | @wrapped kind name body hwrapper hevident ih =>
    rw [matchesEverything_wrapper hwrapper]
    cases hget : body.get? name with
    | none => rfl
    | some c => exact ih c hget fun d => (matches_cautious_wrapper hwrapper).mp (hall d) c hget
  | best hc hmatches hevident ih =>
    rw [matchesEverything_dis_max, any_eq_true]
    exact ⟨_, hc, ih hmatches⟩

end Check

/-! ## Requests -/

def RunsOn (api : String) (request : SearchRequest F) (query : Json.Value F) : Prop :=
  ∃ route rest, Route.parse request.path = some route ∧
    route.endpoint = some (api.toList, rest) ∧ route.parameter "q".toList = none ∧
      request.body.bind (Json.Value.get? "query".toList) = some query

def Flagged (query : Json.Value F) : Prop :=
  matchesEverything query = true ∧
    (∀ request, RunsOn "_delete_by_query" request query →
      mutationRisk request = .unboundedDelete) ∧
    ∀ request, RunsOn "_update_by_query" request query → mutationRisk request = .unboundedUpdate

/-- The two APIs that write what a query matches. -/
def byQuery : List String := ["_delete_by_query", "_update_by_query"]

theorem isOneOf_toList {names : List String} {s : String} :
    isOneOf names s.toList = decide (s ∈ names) := by
  rw [Bool.eq_iff_iff, isOneOf_iff, decide_eq_true_iff]
  simp only [String.toList_inj, exists_eq_right]

theorem intentOn_byQuery {request : SearchRequest F} {route : Route} {rest : List Str}
    {api : String} (hapi : api ∈ byQuery) (h : route.endpoint = some (api.toList, rest)) :
    intentOn request route = .write := by
  have hno : ∀ api ∈ byQuery, ∀ names ∈ [["_search", "_pit"], searches, ["_plugins/_sql"],
      monitored, ["_cluster", "_nodes", "_tasks"], ["_cluster"], ["_tasks"],
      ["_disk_usage", "_field_usage_stats"], ["_enrich"], structures, ["_cluster", "_nodes"],
      indexOperations, ["_doc", "_source"]], isOneOf names api.toList = false := by
    simp only [isOneOf_toList]
    decide
  have hwrites : ∀ api ∈ byQuery, isOneOf documentWrites api.toList = true := by
    simp only [isOneOf_toList]
    decide
  have hnot := hno api hapi
  simp only [forall_mem_cons] at hnot
  simp only [intentOn, h, isStructure, hnot, hwrites api hapi, Bool.false_and, Bool.false_eq_true,
    if_false, if_true]

theorem unboundedQuery_of {request : SearchRequest F} {route : Route} {query : Json.Value F}
    (hq : route.parameter "q".toList = none)
    (hquery : request.body.bind (Json.Value.get? "query".toList) = some query) :
    unboundedQuery request route = matchesEverything query := by
  rw [unboundedQuery, hq, hquery]
  rfl

theorem flagged_iff {query : Json.Value F} : Flagged query ↔ matchesEverything query = true := by
  refine ⟨And.left, fun h => ⟨h, ?_, ?_⟩⟩
  · rintro request ⟨route, rest, hroute, hendpoint, hq, hquery⟩
    rw [mutationRisk, hroute]
    dsimp only
    rw [intentOn_byQuery (by decide) hendpoint, hendpoint]
    dsimp only
    rw [unboundedQuery_of hq hquery, h, Bool.and_true, if_pos (by decide)]
  · rintro request ⟨route, rest, hroute, hendpoint, hq, hquery⟩
    rw [mutationRisk, hroute]
    dsimp only
    rw [intentOn_byQuery (by decide) hendpoint, hendpoint]
    dsimp only
    rw [unboundedQuery_of hq hquery, h, Bool.and_true, if_neg (by decide), Bool.and_true,
      if_pos (by decide)]

/-- A query that matches every document is flagged exactly when that is evident. -/
theorem flags_iff (leaves : Leaves F Doc) (query : Json.Value F) :
    (MatchesAll leaves .server query → Flagged query) ↔
      (MatchesAll leaves .server query → Evident leaves query) := by
  rw [flagged_iff]
  constructor
  · intro hflags hall
    exact (evident_of_flagged (hflags hall)).2
  · intro hevident hall
    exact (hevident hall).flagged fun d => matches_cautious (hall d)

/-- Two documents, and leaves that tell them apart. -/
def apart : Leaves Unit Bool where
  holds _ _ d := d = true
  scores _ _ := True
  asks _ _ := 0
  some_match _ := ⟨true, rfl⟩
  some_miss _ := ⟨false, Bool.false_ne_true⟩
  scores_of_none _ _ := trivial

/-- The fields of a query for every document, and for one user where none has to match. -/
def optionalFields : List (Str × Json.Value Unit) :=
  [("must".toList, .object [("match_all".toList, .object [])]),
    ("should".toList, .array [.object [("term".toList,
      .object [("user".toList, .string "ana".toList)])]]),
    ("minimum_should_match".toList, .number (.unsigned 0))]

def optionalQuery : Json.Value Unit := .object [("bool".toList, .object optionalFields)]

/-- A deletion of what it matches. -/
def optionalDelete : SearchRequest Unit :=
  ⟨"POST".toList, "/logs/_delete_by_query".toList, some (.object [("query".toList, optionalQuery)]),
    none, false⟩

/-- It deletes every document, and no risk is reported. -/
theorem optional_should_hides_a_deletion :
    MatchesAll apart .server optionalQuery ∧
      RunsOn "_delete_by_query" optionalDelete optionalQuery ∧ ¬ Flagged optionalQuery ∧
        mutationRisk optionalDelete = .none := by
  have hmust : clauses (field "must".toList optionalFields) =
      [.object [("match_all".toList, .object [])]] := rfl
  have hshould : clauses (field "should".toList optionalFields) =
      [.object [("term".toList, .object [("user".toList, .string "ana".toList)])]] := rfl
  have hmissed : matchesEverything optionalQuery = false := by
    rw [optionalQuery, matchesEverything_bool, Bool.eq_false_iff, ne_eq, boolMatchesEverything_iff]
    refine fun h => h.2.2.2 ⟨.inl rfl, by rw [hshould]; exact cons_ne_nil _ _, fun c hc => ?_⟩
    rw [hshould, mem_singleton] at hc
    rw [hc, matchesEverything_other (by decide), if_neg (by decide)]
  have hroute : Route.parse optionalDelete.path =
      some ⟨["_delete_by_query".toList], none⟩ := by
    rw [show optionalDelete.path = _ from toList_of_eq rfl,
      show "_delete_by_query".toList = _ from toList_of_eq rfl]
    decide
  refine ⟨fun d => ?_, ⟨_, [], hroute, rfl, rfl, rfl⟩, ?_, ?_⟩
  · rw [optionalQuery, matches_bool, BoolMatches]
    refine ⟨fun c hc => ?_, fun c hc => absurd hc not_mem_nil,
      fun c hc => absurd hc not_mem_nil, [], nil_sublist _, Nat.le_refl 0,
      fun c hc => absurd hc not_mem_nil⟩
    rw [hmust, mem_singleton] at hc
    rw [hc, Matches.eq_def]
    exact trivial
  · rw [flagged_iff, hmissed]
    exact Bool.false_ne_true
  · rw [mutationRisk, hroute]
    dsimp only
    rw [@intentOn_byQuery _ _ _ _ "_delete_by_query" (by decide) rfl]
    dsimp only [Route.endpoint]
    rw [unboundedQuery_of rfl rfl, hmissed]
    decide

end Oxyn.Search
