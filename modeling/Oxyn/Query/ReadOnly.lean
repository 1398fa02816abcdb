/-
# `Oxyn.Query.ReadOnly` — what a read-only verdict rests on

Classification fails closed: a batch is read-only only if every statement of it was read, and
nothing the parser answered modifies anything.
-/
import Oxyn.Query.Severity
import Mathlib.Logic.Relation

namespace Oxyn

open Text Aggregate List
open Facts (merge_eq_read)

/-! ## What a statement runs -/

/-- A node of a syntax tree. -/
inductive Node where
  | statement (s : Statement)
  | query (q : Query)
  | body (b : SetExpr)

/-- Running the first node runs the second: a `WITH` clause, the body of a query, a side of a set
operation, a source, or what an executing `EXPLAIN` explains. -/
inductive Runs : Node → Node → Prop
  | query (q : Query) : Runs (.statement (.query q)) (.query q)
  | explain {analyze : Bool} {options : Option (List String)} (s : Statement) :
      explainExecutes analyze options = true →
        Runs (.statement (.explain analyze options s)) (.statement s)
  | insertSource (q : Query) : Runs (.statement (.insert (some q))) (.query q)
  | copySource (q : Query) (isTo : Bool) (target : CopyTarget) :
      Runs (.statement (.copy (.query q) isTo target)) (.query q)
  | cte {ctes : List Query} {body : SetExpr} {q : Query} :
      q ∈ ctes → Runs (.query (.mk ctes body)) (.query q)
  | queryBody (ctes : List Query) (body : SetExpr) : Runs (.query (.mk ctes body)) (.body body)
  | nested (q : Query) : Runs (.body (.query q)) (.query q)
  | left (l r : SetExpr) : Runs (.body (.setOperation l r)) (.body l)
  | right (l r : SetExpr) : Runs (.body (.setOperation l r)) (.body r)
  | insert (s : Statement) : Runs (.body (.insert s)) (.statement s)
  | update (s : Statement) : Runs (.body (.update s)) (.statement s)
  | delete (s : Statement) : Runs (.body (.delete s)) (.statement s)
  | merge (s : Statement) : Runs (.body (.merge s)) (.statement s)

def Reaches : Node → Node → Prop := Relation.ReflTransGen Runs

def ReadForm : Form → Prop
  | .explainTable | .showFunctions | .showVariable | .showStatus | .showVariables | .showCreate
  | .showColumns | .showCatalogs | .showDatabases | .showProcessList | .showSchemas
  | .showCharset | .showObjects | .showTables | .showViews | .showCollation
  | .commit | .rollback | .savepoint | .releaseSavepoint => True
  | _ => False

/-- A node that modifies nothing by itself: a read form without `SELECT … INTO`. The body that wraps
an `INSERT` runs it, and what it wraps does not read. -/
def Node.Reads : Node → Prop
  | .statement (.query _) | .statement (.explain _ _ _) => True
  | .statement (.startTransaction _ _ _) => True
  | .statement (.copy _ isTo target) => isTo = true ∧ target = .stdout
  | .statement (.copyIntoSnowflake kind) => kind = .location
  | .statement (.form form) => ReadForm form
  | .statement _ => False
  | .query _ => True
  | .body (.select into) => into = false
  | .body _ => True

section Statements

variable (floats : Floats) (render : Expr → String)

def Node.facts : Node → Facts
  | .statement s => statementFacts floats render s
  | .query q => queryFacts floats render q
  | .body b => setExprFacts floats render b

variable {floats render}

theorem ctesFacts_le {ctes : List Query} {facts : Facts} :
    facts ≤ ctesFacts floats render facts ctes ∧
      ∀ q ∈ ctes, queryFacts floats render q ≤ ctesFacts floats render facts ctes := by
  induction ctes generalizing facts with
  | nil => simp [ctesFacts]
  | cons c ctes ih =>
    simp only [ctesFacts, Facts.merge_eq_sup, mem_cons, forall_eq_or_imp]
    obtain ⟨hacc, hrest⟩ := @ih (facts ⊔ queryFacts floats render c)
    exact ⟨le_sup_left.trans hacc, le_sup_right.trans hacc, hrest⟩

theorem facts_of_runs {n m : Node} (h : Runs n m) (hn : n.facts floats render = .read) :
    m.facts floats render = .read := by
  cases h with
  | query q => simpa [Node.facts, statementFacts] using hn
  | explain s hex => simpa [Node.facts, statementFacts, hex] using hn
  | insertSource q =>
    simp only [Node.facts, statementFacts, merge_eq_read] at hn
    exact hn.2
  | copySource q isTo target =>
    simp only [Node.facts, statementFacts, copySourceFacts, merge_eq_read] at hn
    exact hn.2
  | cte hq =>
    simp only [Node.facts, queryFacts, merge_eq_read] at hn
    exact le_antisymm (hn.1 ▸ ctesFacts_le.2 _ hq) (Facts.read_le _)
  | queryBody ctes body =>
    simp only [Node.facts, queryFacts, merge_eq_read] at hn
    exact hn.2
  | nested q => simpa [Node.facts, setExprFacts] using hn
  | left l r =>
    simp only [Node.facts, setExprFacts, merge_eq_read] at hn
    exact hn.1
  | right l r =>
    simp only [Node.facts, setExprFacts, merge_eq_read] at hn
    exact hn.2
  | insert s | update s | delete s | merge s => simpa [Node.facts, setExprFacts] using hn

theorem readForm_of_facts {form : Form} (h : formFacts form = .read) : ReadForm form := by
  cases form <;> first | exact trivial | exact absurd h (by decide)

theorem reads_of_facts {n : Node} (hn : n.facts floats render = .read) : n.Reads := by
  cases n with
  | query q => trivial
  | body b =>
    cases b with
    | select into =>
      cases into
      · rfl
      · exact absurd hn (by simp [Node.facts, setExprFacts, Facts.ddl, Facts.read])
    | _ => trivial
  | statement s =>
    cases s with
    | query q => trivial
    | explain analyze options s => trivial
    | startTransaction statements exception hasEnd => trivial
    | insert source =>
      cases source with
      | none => exact absurd hn (by simp [Node.facts, statementFacts, Facts.write, Facts.read])
      | some q =>
        simp only [Node.facts, statementFacts, merge_eq_read] at hn
        exact absurd hn.1 (by decide)
    | update selection | delete selection =>
      exact absurd (congrArg Facts.intent hn) (by simp [Node.facts, statementFacts, Facts.read])
    | copy source isTo target =>
      have hfacts : ∀ f : Facts, copySourceFacts floats render f source = .read → f = .read := by
        intro f hf
        cases source with
        | table => simpa [copySourceFacts] using hf
        | query q =>
          simp only [copySourceFacts, merge_eq_read] at hf
          exact hf.1
      have := hfacts _ hn
      cases isTo <;> cases target <;> first
        | exact ⟨rfl, rfl⟩
        | exact absurd this (by decide)
    | copyIntoSnowflake kind =>
      cases kind
      · exact absurd hn (by simp [Node.facts, statementFacts, Facts.write, Facts.read])
      · rfl
    | drop objectType =>
      cases objectType <;>
        exact absurd (congrArg Facts.intent hn)
          (by simp [Node.facts, statementFacts, Facts.grant, Facts.read])
    | set form =>
      cases form <;>
        exact absurd (congrArg Facts.intent hn)
          (by simp [Node.facts, statementFacts, Facts.grant, Facts.unknown, Facts.read])
    | form form => exact readForm_of_facts (by simpa [Node.facts, statementFacts] using hn)

theorem reads_of_reaches {s : Statement} (hs : statementFacts floats render s = .read) {n : Node}
    (h : Reaches (.statement s) n) : n.Reads := by
  have hfacts : n.facts floats render = .read := by
    induction h with
    | refl => exact hs
    | tail _ hstep ih => exact facts_of_runs hstep ih
  exact reads_of_facts hfacts

end Statements

/-! ## The safety net -/

def NoBareMutation (ws : List Word) : Prop :=
  ∀ index w, ws[index]? = some w → w.call = false →
    mutatingWords.any (isKeyword w.text ·) = true →
      isKeyword w.text "update" = true ∧
        ∃ i v, i < index ∧ index ≤ i + 3 ∧ ws[i]? = some v ∧ isKeyword v.text "for" = true

theorem noBareMutation {text : Str} {d : SqlDialect} (h : hidesAMutation text d = false) :
    NoBareMutation (words text d) := by
  intro index w hw hcall hmut
  unfold hidesAMutation at h
  obtain ⟨-, hall⟩ := Bool.or_eq_false_iff.mp h
  have hmem : (w, index) ∈ (words text d).zipIdx := by
    rw [mem_zipIdx_iff_getElem?]
    exact hw
  have hbetrays := any_eq_false.mp hall _ hmem
  simp only [betrays, hcall, hmut, Bool.not_false, Bool.true_and, Bool.not_eq_true',
    Bool.and_eq_true, Bool.not_eq_false] at hbetrays
  refine ⟨hbetrays.1, ?_⟩
  obtain ⟨v, hv, hfor⟩ := any_eq_true.mp hbetrays.2
  obtain ⟨k, hk⟩ := mem_iff_getElem?.mp hv
  rw [getElem?_drop, getElem?_take] at hk
  split at hk
  next hlt => exact ⟨index - 3 + k, v, hlt, by omega, hk, hfor⟩
  next => simp at hk

/-! ## The verdict -/

section Verdict

variable (parse : Parser) (floats : Floats) (render : Expr → String)

/-- A fragment that was read, and reads: no comment is unreadable, it parses to statements that run
nothing but reads, and holds no bare mutating word unless one only plans it. -/
structure Fragment.OnlyReads (d : SqlDialect) (f : Fragment) : Prop where
  readable : f.unreadableComment = false
  parsed : ∃ statements, parse (parserDialect d) f.text = .ok statements ∧ statements ≠ [] ∧
    (∀ s ∈ statements, ∀ n, Reaches (.statement s) n → n.Reads) ∧
    ((∃ s ∈ statements, sweepable s = false) ∨ NoBareMutation (words f.text d))

variable {parse floats render}

variable {d : SqlDialect}

theorem parsed_of_readFragment {text : Str}
    (h : (readFragment parse floats render text d).1 = .read) :
    ∃ statements, parse (parserDialect d) text = .ok statements ∧ statements ≠ [] ∧
      (∀ s ∈ statements, statementFacts floats render s = .read) ∧
      (statements.all sweepable = true → hidesAMutation text d = false) := by
  unfold readFragment at h
  split at h
  · exact absurd (congrArg Facts.intent h) (by simp [Facts.unknown, Facts.read])
  · exact absurd h (by decide)
  next parsed hne hparse =>
    refine ⟨parsed, hparse, hne, ?_⟩
    dsimp only at h
    split at h
    · exact absurd h (by decide)
    next hsweep =>
      have h : (mergeAll (parsed.map (statementFacts floats render))).getD .unknown = .read := h
      refine ⟨fun s hs => (eq_read_of_mergeAll h).2 _ (mem_map_of_mem hs), fun hall => ?_⟩
      rw [h, hall] at hsweep
      simpa using hsweep

theorem onlyReads_of_facts {f : Fragment}
    (h : (classifyFragment parse floats render f d).facts = .read) :
    Fragment.OnlyReads parse d f := by
  rw [classifyFragment_facts] at h
  split at h
  · exact absurd h (by decide)
  next hreadable =>
    obtain ⟨statements, hparse, hne, hfacts, hsweep⟩ := parsed_of_readFragment h
    refine ⟨by simpa using hreadable, statements, hparse, hne,
      fun s hs n hn => reads_of_reaches (hfacts s hs) hn, ?_⟩
    by_cases hall : statements.all sweepable = true
    · exact .inr (noBareMutation (hsweep hall))
    · obtain ⟨s, hs, hplan⟩ := all_eq_false.mp (Bool.eq_false_iff.mpr hall)
      exact .inl ⟨s, hs, by simpa using hplan⟩

theorem onlyReads_of_classifyText {text : Str}
    (h : (classifyText parse floats render text d).facts = .read) :
    split text d ≠ [] ∧ ∀ f ∈ split text d, Fragment.OnlyReads parse d f := by
  have hfacts : (mergeAll (((split text d).map (classifyFragment parse floats render · d)).map
      StatementInfo.facts)).getD .unknown = .read := h
  obtain ⟨hne, hall⟩ := eq_read_of_mergeAll hfacts
  refine ⟨fun hnil => by simp [hnil] at hne, fun f hf => ?_⟩
  have hmem : classifyFragment parse floats render f d ∈
      (split text d).map (classifyFragment parse floats render · d) := mem_map.mpr ⟨f, hf, rfl⟩
  exact onlyReads_of_facts (hall _ (mem_map_of_mem hmem))

theorem facts_of_isReadOnly {c : Classification} : c.isReadOnly = true ↔ c.facts = .read := by
  obtain ⟨intent, risk, tc, cc, statements⟩ := c
  cases intent <;> cases risk <;>
    simp [Classification.isReadOnly, Classification.facts, Facts.read, StatementIntent.isMutating,
      MutationRisk.isSome]

/-- The fragments of the text as the server runs it, and those of the text as typed where the two
differ. -/
def decidingFragments (sql : Str) (d : SqlDialect) : List Fragment :=
  split (runnableText sql d) d ++
    if (executableView sql d).isSome then split sql d else []

/-- Classification fails closed over whole batches: a read-only verdict rests on a
statement, and on the reading of every fragment. -/
theorem classify_fails_closed {sql : Str} {d : SqlDialect}
    (h : (classify parse floats render sql d).isReadOnly = true) :
    split (runnableText sql d) d ≠ [] ∧
      ∀ f ∈ decidingFragments sql d, Fragment.OnlyReads parse d f := by
  rw [facts_of_isReadOnly] at h
  unfold classify at h
  unfold decidingFragments
  cases hview : executableView sql d with
  | none =>
    simp only [hview] at h
    simpa using onlyReads_of_classifyText h
  | some view =>
    simp only [hview] at h
    -- the reading of the text as typed only ever adds
    have hruns : (classifyText parse floats render (runnableText sql d) d).facts = .read := by
      simp only [Classification.atLeast, Classification.facts] at h
      split at h
      · exact h
      · exact (merge_eq_read.mp h).1
    refine ⟨(onlyReads_of_classifyText hruns).1, fun f hf => ?_⟩
    rcases mem_append.mp hf with hf | hf
    · exact (onlyReads_of_classifyText hruns).2 f hf
    · have htyped : f ∈ split sql d := by simpa using hf
      simp only [Classification.atLeast, Classification.facts] at h
      split at h
      next hempty =>
        have : split sql d = [] := by simpa [classifyText] using hempty
        simp [this] at htyped
      next => exact (onlyReads_of_classifyText (merge_eq_read.mp h).2).2 f htyped

end Verdict

/-- A parser that knows one statement, whatever the grammar. -/
def selectParser : Parser := fun _ text =>
  if text = "SELECT 1".toList then .ok [.query (.mk [] (.select false))]
  else .error "Expected: an SQL statement"

/-- Numbers of which only the integers are read. -/
def integers : Floats := ⟨Int, String.toInt?, Int.neg, fun a b => some (compare a b), (· ≠ 0)⟩

theorem classify_fails_closed_on_a_select :
    split (runnableText "SELECT 1; -- done".toList .postgres) .postgres ≠ [] ∧
      ∀ f ∈ decidingFragments "SELECT 1; -- done".toList .postgres,
        Fragment.OnlyReads selectParser .postgres f :=
  @classify_fails_closed selectParser integers (fun _ => "") _ _ (by decide)

end Oxyn
