/-
# `Oxyn.Query.Batch` — a batch and the batches it is made of

Cutting a batch at a separator cuts its classification: what the whole amounts to is the join of
what its two parts amount to.
-/
import Oxyn.Query.Compose
import Oxyn.Query.Severity

namespace Oxyn

open Text Aggregate List

section Batch

variable (parse : Parser) (floats : Floats) (render : Expr → String)

/-- What each statement of a text does. -/
def batchFacts (sql : Str) (d : SqlDialect) : List Facts :=
  (split sql d).map fun f => (classifyFragment parse floats render f d).facts

variable {parse floats render}
variable {a b : Str} {d : SqlDialect}

theorem classifyFragment_shift (f : Fragment) (n : Nat) :
    (classifyFragment parse floats render (f.shift n) d).facts =
      (classifyFragment parse floats render f d).facts := by
  rw [classifyFragment_facts, classifyFragment_facts]
  rfl

theorem classify_eq (hd : d ≠ .mySql) (sql : Str) :
    classify parse floats render sql d = classifyText parse floats render sql d := by
  have hview : executableView sql d = none := if_neg hd
  unfold classify runnableText
  rw [hview]
  rfl

theorem classify_facts (hd : d ≠ .mySql) (sql : Str) :
    (classify parse floats render sql d).facts =
      (mergeAll (batchFacts parse floats render sql d)).getD .unknown := by
  rw [classify_eq hd]
  simp only [classifyText, Classification.facts, batchFacts, map_map, Function.comp_def]

theorem classify_statements (hd : d ≠ .mySql) (sql : Str) :
    (classify parse floats render sql d).statements = [] ↔
      batchFacts parse floats render sql d = [] := by
  rw [classify_eq hd]
  simp [classifyText, batchFacts]

theorem split_of_separatesAt (hd : d ≠ .mySql) (h : SeparatesAt (.forDialect d) a b) :
    split (a ++ ';' :: b) d =
      split (a ++ [';']) d ++ (split b d).map (Fragment.shift (size a + 1)) := by
  have hsize : size (a ++ [';']) = size a + 1 := by simp
  unfold split
  rw [if_neg hd, if_neg hd, if_neg hd, splitWith_of_separatesAt h, hsize]

theorem batchFacts_of_separatesAt (hd : d ≠ .mySql) (h : SeparatesAt (.forDialect d) a b) :
    batchFacts parse floats render (a ++ ';' :: b) d =
      batchFacts parse floats render (a ++ [';']) d ++ batchFacts parse floats render b d := by
  unfold batchFacts
  rw [split_of_separatesAt hd h, map_append, map_map]
  congr 1
  exact map_congr_left fun f _ => classifyFragment_shift f _

theorem mergeAll_append {l m : List Facts} (hl : l ≠ []) (hm : m ≠ []) :
    (mergeAll (l ++ m)).getD .unknown =
      ((mergeAll l).getD .unknown).merge ((mergeAll m).getD .unknown) := by
  have hsome : ∀ {k : List Facts}, k ≠ [] → ∃ f : Facts, aggregate k = ↑f := fun hk =>
    WithBot.ne_bot_iff_exists.mp (fun hbot => hk (aggregate_eq_bot.mp hbot)) |>.imp
      fun _ => Eq.symm
  obtain ⟨f, hf⟩ := hsome hl
  obtain ⟨g, hg⟩ := hsome hm
  have happend : aggregate (l ++ m) = ((f.merge g : Facts) : WithBot Facts) := by
    rw [aggregate_append, hf, hg]
    rfl
  rw [mergeAll_eq, mergeAll_eq, mergeAll_eq, happend, hf, hg]
  rfl

/-- The statements of the whole are those of the two parts, and it amounts to the join of what they
amount to; so appending a statement to a batch never makes it milder. -/
theorem classify_of_separatesAt (hd : d ≠ .mySql) (h : SeparatesAt (.forDialect d) a b) :
    split (a ++ ';' :: b) d =
        split (a ++ [';']) d ++ (split b d).map (Fragment.shift (size a + 1)) ∧
      ∀ parse floats render,
        let whole := classify parse floats render (a ++ ';' :: b) d
        let first := classify parse floats render (a ++ [';']) d
        let second := classify parse floats render b d
        (first.statements ≠ [] → second.statements ≠ [] →
          whole.facts = first.facts.merge second.facts) ∧
        (second.statements = [] → whole.facts = first.facts) ∧
        (first.statements = [] → whole.facts = second.facts) ∧
        (first.statements ≠ [] → first.facts ≤ whole.facts) := by
  refine ⟨split_of_separatesAt hd h, fun parse floats render => ?_⟩
  simp only [ne_eq, classify_statements hd, classify_facts hd, batchFacts_of_separatesAt hd h]
  generalize batchFacts parse floats render (a ++ [';']) d = l
  generalize batchFacts parse floats render b d = m
  refine ⟨mergeAll_append, fun hm => by simp [hm], fun hl => by simp [hl], fun hl => ?_⟩
  by_cases hm : m = []
  · simp [hm]
  · rw [mergeAll_append hl hm]
    exact le_sup_left

end Batch

theorem classify_of_select_and_drop :
    split "SELECT 1;DROP TABLE t".toList .postgres =
      split "SELECT 1;".toList .postgres ++
        (split "DROP TABLE t".toList .postgres).map (Fragment.shift 9) :=
  (classify_of_separatesAt (a := "SELECT 1".toList) (b := "DROP TABLE t".toList) (d := .postgres)
    (by decide) ⟨⟨.semicolon, 8, 9⟩, by decide, rfl, rfl⟩).1

end Oxyn
