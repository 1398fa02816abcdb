/-
# `Oxyn.Redis.Silent` — what a value says of what was cut

A value that was cut says so (`Value.isTruncated`), by the length its strings were announced with
and by what stands for the aggregates that were left out.
-/
import Oxyn.Redis.Answers
import Mathlib.Data.List.TakeDrop

namespace Oxyn.Resp

open List

/-! ## Values -/

/-- Was part of the string discarded? -/
def Clipped.isTruncated (text : Clipped) : Bool := decide (text.bytes.length < text.fullLen)

section

variable {F : Type}

mutual

/-- Was anything of this value discarded? -/
def Value.isTruncated : Value F → Bool
  | .bulk text => text.isTruncated
  | .verbatim _ text => text.isTruncated
  | .list _ items => Value.anyTruncated items
  | .map pairs => Value.anyPairTruncated pairs
  | .elided _ _ => true
  | _ => false

def Value.anyTruncated : List (Value F) → Bool
  | [] => false
  | v :: vs => v.isTruncated || Value.anyTruncated vs

def Value.anyPairTruncated : List (Value F × Value F) → Bool
  | [] => false
  | (k, v) :: pairs => (k.isTruncated || v.isTruncated) || Value.anyPairTruncated pairs

end

mutual

def Value.kept : Value F → Nat
  | .simple text => text.length
  | .error text => text.length
  | .bigNumber digits => digits.length
  | .bulk text => text.bytes.length
  | .verbatim format text => format.length + text.bytes.length
  | .list _ items => Value.keptOf items
  | .map pairs => Value.keptOfPairs pairs
  | _ => 0

def Value.keptOf : List (Value F) → Nat
  | [] => 0
  | v :: vs => v.kept + Value.keptOf vs

def Value.keptOfPairs : List (Value F × Value F) → Nat
  | [] => 0
  | (k, v) :: pairs => k.kept + v.kept + Value.keptOfPairs pairs

end

mutual

def Value.levels : Value F → Nat
  | .list _ items => Value.levelsOf items + 1
  | .map pairs => Value.levelsOfPairs pairs + 1
  | _ => 1

def Value.levelsOf : List (Value F) → Nat
  | [] => 0
  | v :: vs => max v.levels (Value.levelsOf vs)

def Value.levelsOfPairs : List (Value F × Value F) → Nat
  | [] => 0
  | (k, v) :: pairs => max (max k.levels v.levels) (Value.levelsOfPairs pairs)

end

/-! ## Trees -/

mutual

def Tree.sent : Tree F → Value F
  | .null => .null
  | .simple text => .simple text
  | .error text => .error text
  | .bulkError text => .error text
  | .integer n => .integer n
  | .double x => .double x
  | .boolean b => .boolean b
  | .bigNumber digits => .bigNumber digits
  | .bulk text => .bulk ⟨text, text.length⟩
  | .verbatim format text => .verbatim format ⟨text, text.length⟩
  | .aggregate kind items => ofItems kind (Tree.sentAll items)

def Tree.sentAll : List (Tree F) → List (Value F)
  | [] => []
  | t :: ts => t.sent :: Tree.sentAll ts

end

mutual

/-- The texts of lines, the announced lengths, and the elements of a map, which come in pairs, are
what a server sends. -/
def Tree.Sendable : Tree F → Prop
  | .simple text => text.length ≤ maxLine
  | .error text => text.length ≤ maxLine
  | .bigNumber digits => digits.length ≤ maxLine
  | .verbatim format text => format.length = 3 ∧ text.length + 4 ≤ u64Max
  | .aggregate kind items => items.length % kind.arity = 0 ∧ Tree.AllSendable items
  | _ => True

def Tree.AllSendable : List (Tree F) → Prop
  | [] => True
  | t :: ts => t.Sendable ∧ Tree.AllSendable ts

end

mutual

def Tree.weight (cost : Nat) : Tree F → Nat
  | .simple text => text.length + cost
  | .error text => text.length + cost
  | .bulkError text => min text.length maxLine + cost
  | .bigNumber digits => digits.length + cost
  | .bulk text => text.length + cost
  | .verbatim _ text => text.length + 4 + cost
  | .aggregate _ items => Tree.weights cost items + cost
  | _ => cost

def Tree.weights (cost : Nat) : List (Tree F) → Nat
  | [] => 0
  | t :: ts => t.weight cost + Tree.weights cost ts

end

/-! ## What fits in a budget -/

/-- Does a tree fit, an error as `error` says and an aggregate as `nested` does? -/
def fitted (error : Bytes → Nat → Prop) (nested : Aggregate → List (Tree F) → Nat → Prop)
    (budget : Nat) : Tree F → Prop
  | .bulkError text => error text budget
  | .bulk text => text.length ≤ budget
  | .verbatim _ text => text.length ≤ budget
  | .aggregate kind items => nested kind items budget
  | _ => True

def fittedItems (cost : Nat) (fits : Tree F → Nat → Prop) : List (Tree F) → Nat → Prop
  | [], _ => True
  | t :: ts, budget =>
    0 < budget ∧ fits t budget ∧ fittedItems cost fits ts (budget - t.weight cost)

def fittedPairs (cost : Nat) (fits : Tree F → Nat → Prop) : List (Tree F) → Nat → Prop
  | t :: t' :: ts, budget =>
    0 < budget ∧ (fits t budget ∧ fits t' (budget - t.weight cost)) ∧
      fittedPairs cost fits ts (budget - (t.weight cost + t'.weight cost))
  | _, _ => True

/-- Does all of a tree fit in a budget and in so many levels, where nothing before it was cut? -/
def Fits (cost : Nat) (error : Bytes → Nat → Prop) : Nat → Tree F → Nat → Prop
  | 0, t, budget => fitted error (fun _ _ _ => False) budget t
  | room + 1, t, budget =>
    fitted error (fun kind items budget => 0 < budget ∧
      if kind = .map then fittedPairs cost (Fits cost error room) items budget
      else fittedItems cost (Fits cost error room) items budget) budget t

/-- Everything fits that says when it was cut. -/
def Tree.FitsMarked (cost budget : Nat) (t : Tree F) : Prop :=
  Fits cost (fun _ _ => True) maxDepth t budget

/-- Everything fits, the bulk errors too. -/
def Tree.FitsWhole (cost budget : Nat) (t : Tree F) : Prop :=
  Fits cost (fun text budget => text.length ≤ min budget maxLine) maxDepth t budget

end

/-! ## What a reading says of itself -/

/-- What is read says that something is missing unless it fits, and then takes its weight of the
budget; it is what was sent if the errors fit too. -/
structure Told {α : Type} (truncated : α → Bool) (answer : α × Nat) (sent : α)
    (weight budget : Nat) (fits exact : Prop) : Prop where
  marked : truncated answer.1 = false ↔ fits
  left : fits → answer.2 = budget - weight
  same : fits → (answer.1 = sent ↔ exact)

namespace Told

section

variable {α β γ : Type} {truncated : α → Bool} {truncated' : β → Bool} {answer : α × Nat}
  {answer' : β × Nat} {sent : α} {sent' : β} {weight weight' budget : Nat}
  {fits exact fits' exact' : Prop}

theorem out_of_budget (htruncated : truncated answer.1 = true) (hzero : budget = 0) :
    Told truncated answer sent weight budget (0 < budget ∧ fits) (0 < budget ∧ exact) where
  marked := ⟨fun h => absurd (h.symm.trans htruncated) nofun,
    fun ⟨hpos, _⟩ => absurd (hzero ▸ hpos) (Nat.lt_irrefl 0)⟩
  left := fun ⟨hpos, _⟩ => absurd (hzero ▸ hpos) (Nat.lt_irrefl 0)
  same := fun ⟨hpos, _⟩ => absurd (hzero ▸ hpos) (Nat.lt_irrefl 0)

theorem within_budget (h : Told truncated answer sent weight budget fits exact)
    (hpos : 0 < budget) :
    Told truncated answer sent weight budget (0 < budget ∧ fits) (0 < budget ∧ exact) where
  marked := h.marked.trans ⟨fun hfits => ⟨hpos, hfits⟩, And.right⟩
  left := fun ⟨_, hfits⟩ => h.left hfits
  same := fun ⟨_, hfits⟩ => (h.same hfits).trans ⟨fun hexact => ⟨hpos, hexact⟩, And.right⟩

theorem followed (join : α → β → γ) (all : γ → Bool)
    (h : Told truncated answer sent weight budget fits exact)
    (h' : fits → Told truncated' answer' sent' weight' (budget - weight) fits' exact')
    (hjoin : ∀ a b a' b', join a b = join a' b' → a = a' ∧ b = b')
    (hall : ∀ a b, all (join a b) = (truncated a || truncated' b)) :
    Told all (join answer.1 answer'.1, answer'.2) (join sent sent') (weight + weight') budget
      (fits ∧ fits') (exact ∧ exact') where
  marked := by
    show all (join answer.1 answer'.1) = false ↔ _
    rw [hall, Bool.or_eq_false_iff]
    constructor
    · rintro ⟨hfirst, hsecond⟩
      have hfits := h.marked.mp hfirst
      exact ⟨hfits, (h' hfits).marked.mp hsecond⟩
    · rintro ⟨hfits, hfits'⟩
      exact ⟨h.marked.mpr hfits, (h' hfits).marked.mpr hfits'⟩
  left := by
    rintro ⟨hfits, hfits'⟩
    rw [(h' hfits).left hfits', Nat.sub_sub]
  same := by
    rintro ⟨hfits, hfits'⟩
    rw [← h.same hfits, ← (h' hfits).same hfits']
    constructor
    · exact fun heq => hjoin _ _ _ _ heq
    · rintro ⟨heq, heq'⟩
      show join _ _ = _
      rw [heq, heq']

theorem mapped (h : Told truncated answer sent weight budget fits exact) {make : α → β}
    (hmake : ∀ a a', make a = make a' → a = a')
    (htruncated : ∀ a, truncated' (make a) = truncated a) :
    Told truncated' (make answer.1, answer.2) (make sent) weight budget fits exact where
  marked := by
    show truncated' (make answer.1) = false ↔ _
    rw [htruncated]
    exact h.marked
  left := h.left
  same := fun hfits => by
    rw [← h.same hfits]
    exact ⟨hmake _ _, fun heq => congrArg make heq⟩

theorem charged (h : Told truncated answer sent weight budget fits exact) (cost : Nat) :
    Told truncated (answer.1, answer.2 - cost) sent (weight + cost) budget fits exact where
  marked := h.marked
  left := fun hfits => by rw [h.left hfits, Nat.sub_sub]
  same := h.same

end

variable {F : Type} {read : Tree F → Nat → Value F × Nat} {fits exact : Tree F → Nat → Prop}
  {cost : Nat}

variable {ts : List (Tree F)}

theorem items (hread : ∀ (t : Tree F) budget, t.Sendable →
      Told Value.isTruncated (read t budget) t.sent (t.weight cost) budget (fits t budget)
        (exact t budget))
    (kind : Aggregate) (hts : Tree.AllSendable ts) (budget : Nat) :
    Told Value.anyTruncated (prunedItems read kind ts budget) (Tree.sentAll ts)
      (Tree.weights cost ts) budget (fittedItems cost fits ts budget)
      (fittedItems cost exact ts budget) := by
  induction ts generalizing budget with
  | nil =>
    exact ⟨⟨fun _ => trivial, fun _ => rfl⟩, fun _ => rfl, fun _ => ⟨fun _ => trivial, fun _ => rfl⟩⟩
  | cons t ts ih =>
    obtain ⟨ht, hts⟩ := hts
    rw [prunedItems]
    split
    next hzero => exact out_of_budget rfl hzero
    next hzero =>
      have hone := hread t budget ht
      refine within_budget ?_ (Nat.pos_of_ne_zero hzero)
      refine followed List.cons Value.anyTruncated hone (fun hfits => ?_)
        (fun _ _ _ _ => List.cons.inj) fun _ _ => rfl
      rw [hone.left hfits]
      exact ih hts _

theorem pairs (hread : ∀ (t : Tree F) budget, t.Sendable →
      Told Value.isTruncated (read t budget) t.sent (t.weight cost) budget (fits t budget)
        (exact t budget))
    (hts : Tree.AllSendable ts) (heven : ts.length % 2 = 0) (budget : Nat) :
    Told Value.anyPairTruncated (prunedPairs read ts budget) (pairUp (Tree.sentAll ts))
      (Tree.weights cost ts) budget (fittedPairs cost fits ts budget)
      (fittedPairs cost exact ts budget) := by
  induction ts using pairUp.induct generalizing budget with
  | case1 t t' ts ih =>
    obtain ⟨ht, ht', hts⟩ := hts
    rw [prunedPairs]
    split
    next hzero => exact out_of_budget rfl hzero
    next hzero =>
      have hkey := hread t budget ht
      have hvalue : fits t budget → Told Value.isTruncated (read t' (read t budget).2) t'.sent
          (t'.weight cost) (budget - t.weight cost) (fits t' (budget - t.weight cost))
          (exact t' (budget - t.weight cost)) := by
        intro hfits
        rw [hkey.left hfits]
        exact hread t' _ ht'
      have hpair := followed Prod.mk
        (fun pair : Value F × Value F => pair.1.isTruncated || pair.2.isTruncated) hkey hvalue
        (fun _ _ _ _ => Prod.mk.inj) fun _ _ => rfl
      have hweights : Tree.weights cost (t :: t' :: ts) =
          t.weight cost + t'.weight cost + Tree.weights cost ts :=
        (Nat.add_assoc ..).symm
      rw [hweights]
      refine within_budget ?_ (Nat.pos_of_ne_zero hzero)
      refine followed List.cons Value.anyPairTruncated hpair (fun hfits => ?_)
        (fun _ _ _ _ => List.cons.inj) fun _ _ => rfl
      rw [hpair.left hfits]
      exact ih hts (by simp only [length_cons] at heven; omega) _
  | case2 ts hshort =>
    rcases ts with _ | ⟨t, _ | ⟨t', ts⟩⟩
    · exact ⟨⟨fun _ => trivial, fun _ => rfl⟩, fun _ => rfl, fun _ => ⟨fun _ => trivial, fun _ => rfl⟩⟩
    · cases heven
    · exact absurd rfl (hshort t t' ts)

theorem aggregate (hread : ∀ (t : Tree F) budget, t.Sendable →
      Told Value.isTruncated (read t budget) t.sent (t.weight cost) budget (fits t budget)
        (exact t budget))
    {kind : Aggregate} (hts : (Tree.aggregate kind ts).Sendable) (budget : Nat) :
    Told Value.isTruncated (prunedAggregate read kind ts budget) (Tree.aggregate kind ts).sent
      (Tree.weights cost ts) budget
      (if kind = .map then fittedPairs cost fits ts budget else fittedItems cost fits ts budget)
      (if kind = .map then fittedPairs cost exact ts budget
        else fittedItems cost exact ts budget) := by
  obtain ⟨heven, hall⟩ := hts
  unfold prunedAggregate
  rw [Tree.sent, ofItems]
  by_cases hmap : kind = .map
  · subst hmap
    rw [if_pos rfl, if_pos rfl, if_pos rfl, if_pos rfl]
    exact (pairs hread hall heven budget).mapped (fun _ _ => Value.map.inj) fun _ => rfl
  · rw [if_neg hmap, if_neg hmap, if_neg hmap, if_neg hmap]
    exact (items hread kind hall budget).mapped (fun _ _ heq => (Value.list.inj heq).2) fun _ => rfl

theorem plain (v : Value F) (weight budget : Nat) (hv : v.isTruncated = false) :
    Told Value.isTruncated (v, budget - weight) v weight budget True True :=
  ⟨⟨fun _ => trivial, fun _ => hv⟩, fun _ => rfl, fun _ => ⟨fun _ => trivial, fun _ => rfl⟩⟩

theorem pruned {nested : Aggregate → List (Tree F) → Nat → Value F × Nat}
    {nestedFits nestedExact : Aggregate → List (Tree F) → Nat → Prop} {t : Tree F}
    (ht : t.Sendable) (budget cost : Nat)
    (hnested : ∀ kind ts, (Tree.aggregate kind ts).Sendable →
      Told Value.isTruncated (nested kind ts budget) (Tree.aggregate kind ts).sent
        (Tree.weights cost ts) budget (nestedFits kind ts budget) (nestedExact kind ts budget)) :
    Told Value.isTruncated ((pruned nested budget t).1, (pruned nested budget t).2 - cost) t.sent
      (t.weight cost) budget (fitted (fun _ _ => True) nestedFits budget t)
      (fitted (fun text budget => text.length ≤ min budget maxLine) nestedExact budget t) := by
  cases t with
  | aggregate kind ts => exact (hnested kind ts ht).charged cost
  | null => exact plain .null cost budget rfl
  | integer n => exact plain (.integer n) cost budget rfl
  | double x => exact plain (.double x) cost budget rfl
  | boolean b => exact plain (.boolean b) cost budget rfl
  | simple text => exact (plain (.simple text) text.length budget rfl).charged cost
  | error text => exact (plain (.error text) text.length budget rfl).charged cost
  | bigNumber digits => exact (plain (.bigNumber digits) digits.length budget rfl).charged cost
  | bulkError text =>
    -- the error never says that it was cut
    refine Told.charged ⟨⟨fun _ => trivial, fun _ => rfl⟩, fun _ => ?_, fun _ => ?_⟩ cost
    · show budget - (text.take (min budget maxLine)).length = _
      rw [length_take]
      omega
    · show Value.error (text.take (min budget maxLine)) = .error text ↔ _
      rw [Value.error.injEq, take_eq_self_iff]
      exact Iff.rfl
  | bulk text =>
    have htold : Told Value.isTruncated
        (.bulk ⟨text.take budget, text.length⟩, budget - (text.take budget).length)
        (.bulk ⟨text, text.length⟩ : Value F) text.length budget (text.length ≤ budget)
        (text.length ≤ budget) := by
      refine ⟨?_, fun hfits => ?_, fun hfits => ⟨fun _ => hfits, fun _ => ?_⟩⟩
      · show decide ((text.take _).length < text.length) = false ↔ _
        rw [decide_eq_false_iff_not, length_take]
        omega
      · rw [take_of_length_le hfits]
      · rw [take_of_length_le hfits]
    exact htold.charged cost
  | verbatim format text =>
    obtain ⟨-, hsmall⟩ := ht
    have htold : Told Value.isTruncated
        (.verbatim format ⟨text.take (min (budget + 4) u64Max - 4), text.length⟩,
          budget - ((text.take (min (budget + 4) u64Max - 4)).length + 4))
        (.verbatim format ⟨text, text.length⟩ : Value F) (text.length + 4) budget
        (text.length ≤ budget) (text.length ≤ budget) := by
      have hkept (hfits : text.length ≤ budget) :
          text.take (min (budget + 4) u64Max - 4) = text :=
        take_of_length_le (by omega)
      refine ⟨?_, fun hfits => ?_, fun hfits => ⟨fun _ => hfits, fun _ => ?_⟩⟩
      · show decide ((text.take _).length < text.length) = false ↔ _
        rw [decide_eq_false_iff_not, length_take]
        omega
      · rw [hkept hfits]
      · rw [hkept hfits]
    exact htold.charged cost

theorem prune (cost room : Nat) (t : Tree F) (ht : t.Sendable) (budget : Nat) :
    Told Value.isTruncated (prune cost room t budget) t.sent (t.weight cost) budget
      (Fits cost (fun _ _ => True) room t budget)
      (Fits cost (fun text budget => text.length ≤ min budget maxLine) room t budget) := by
  induction room generalizing t budget with
  | zero =>
    refine pruned ht budget cost fun kind ts _ => ⟨⟨fun h => ?_, fun h => h.elim⟩, fun h => h.elim,
      fun h => h.elim⟩
    cases h
  | succ room ih =>
    refine pruned ht budget cost fun kind ts hts => ?_
    by_cases hzero : budget = 0
    · rw [if_pos hzero]
      exact out_of_budget rfl hzero
    · rw [if_neg hzero]
      exact within_budget (aggregate (fun t budget ht => ih t ht budget) hts budget)
        (Nat.pos_of_ne_zero hzero)

end Told

/-! ## How much is kept -/

/-- So many bytes were kept of a budget and so much is left: all was charged, unless it ran out, and
then at most so many lines were kept beyond it. -/
structure Spent (kept left budget lines : Nat) : Prop where
  charged : 0 < left → kept + left ≤ budget
  bounded : kept ≤ budget + lines * maxLine

namespace Spent

variable {kept left budget lines kept' left' lines' : Nat}

theorem weaken (h : Spent kept left budget lines) {more : Nat} (hle : lines ≤ more) :
    Spent kept left budget more :=
  ⟨h.charged, Nat.le_trans h.bounded (Nat.add_le_add_left (Nat.mul_le_mul_right _ hle) _)⟩

theorem taking (h : Spent kept left budget lines) (cost : Nat) :
    Spent kept (left - cost) budget lines := by
  refine ⟨fun hpos => ?_, h.bounded⟩
  have hcharged := h.charged (by omega)
  omega

theorem left_eq_zero (h : Spent kept left 0 lines) : left = 0 := by
  by_contra hne
  have hcharged := h.charged (Nat.pos_of_ne_zero hne)
  omega

/-- One thing is kept after the other; where the first one left nothing, the second one keeps no
more than the lines given. -/
theorem followed (h : Spent kept left budget lines) (h' : Spent kept' left' left lines')
    (extra : Nat) (hstop : left = 0 → kept' ≤ extra * maxLine) :
    Spent (kept + kept') left' budget (max (lines + extra) lines') := by
  rcases Nat.eq_zero_or_pos left with hzero | hpos
  · have hkept := hstop hzero
    have hnone : left' = 0 := left_eq_zero (hzero ▸ h')
    have hbounded := h.bounded
    refine @weaken _ _ _ (lines + extra) ⟨fun hpos => absurd hpos (by omega), ?_⟩ _
      (Nat.le_max_left _ _)
    rw [Nat.add_mul]
    omega
  · have hcharged := h.charged hpos
    have hbounded := h'.bounded
    refine @weaken _ _ _ lines' ⟨fun hpos' => ?_, by omega⟩ _ (Nat.le_max_right _ _)
    have hcharged' := h'.charged hpos'
    omega

end Spent

section

variable {F : Type} {read : Tree F → Nat → Value F × Nat}

structure Keeps (read : Tree F → Nat → Value F × Nat) : Prop where
  spent : ∀ (t : Tree F) budget, t.Sendable →
    Spent (read t budget).1.kept (read t budget).2 budget (read t budget).1.levels
  shallow : ∀ t, (read t 0).1.levels = 1

theorem keptOf_prunedItems_zero (kind : Aggregate) (ts : List (Tree F)) :
    Value.keptOf (prunedItems read kind ts 0).1 = 0 := by
  cases ts with
  | nil => rfl
  | cons t ts => rfl

theorem keptOf_prunedPairs_zero (ts : List (Tree F)) :
    Value.keptOfPairs (prunedPairs read ts 0).1 = 0 := by
  match ts with
  | [] => rfl
  | [_] => rfl
  | _ :: _ :: _ => rfl

variable {ts : List (Tree F)}

theorem Keeps.items (hread : Keeps read) (kind : Aggregate)
    (hts : Tree.AllSendable ts) (budget : Nat) :
    Spent (Value.keptOf (prunedItems read kind ts budget).1) (prunedItems read kind ts budget).2
      budget (Value.levelsOf (prunedItems read kind ts budget).1) := by
  induction ts generalizing budget with
  | nil => exact ⟨fun _ => Nat.le_of_eq (Nat.zero_add _), Nat.zero_le _⟩
  | cons t ts ih =>
    obtain ⟨ht, hts⟩ := hts
    rw [prunedItems]
    split
    next hzero => exact ⟨fun hpos => absurd hzero (Nat.ne_of_gt hpos), Nat.zero_le _⟩
    next hzero =>
      refine (hread.spent t budget ht).followed (ih hts (read t budget).2) 0 fun hnone => ?_
      rw [hnone, keptOf_prunedItems_zero]
      exact Nat.zero_le _

theorem Keeps.pairs (hread : Keeps read) (hts : Tree.AllSendable ts) (budget : Nat) :
    Spent (Value.keptOfPairs (prunedPairs read ts budget).1) (prunedPairs read ts budget).2
      budget (Value.levelsOfPairs (prunedPairs read ts budget).1 + 1) := by
  induction ts using pairUp.induct generalizing budget with
  | case1 t t' ts ih =>
    obtain ⟨ht, ht', hts⟩ := hts
    rw [prunedPairs]
    split
    next hzero => exact ⟨fun hpos => absurd hzero (Nat.ne_of_gt hpos), Nat.zero_le _⟩
    next hzero =>
      have hkey := hread.spent t budget ht
      have hvalue := hread.spent t' (read t budget).2 ht'
      have hrest := ih hts (read t' (read t budget).2).2
      have hpair := hkey.followed hvalue 1 fun hnone => by
        rw [hnone] at hvalue ⊢
        have hbounded := hvalue.bounded
        rw [hread.shallow t'] at hbounded
        omega
      refine (hpair.followed hrest 0 fun hnone => ?_).weaken ?_
      · rw [hnone, keptOf_prunedPairs_zero]
        exact Nat.zero_le _
      · simp only [Value.levelsOfPairs]
        omega
  | case2 ts hshort =>
    rw [prunedPairs]
    · exact ⟨fun _ => Nat.le_of_eq (Nat.zero_add _), Nat.zero_le _⟩
    · exact hshort

theorem Keeps.aggregate (hread : Keeps read) {kind : Aggregate}
    (hts : (Tree.aggregate kind ts).Sendable) (budget : Nat) :
    Spent (prunedAggregate read kind ts budget).1.kept (prunedAggregate read kind ts budget).2
      budget (prunedAggregate read kind ts budget).1.levels := by
  unfold prunedAggregate
  split
  · exact hread.pairs hts.2 budget
  · exact (hread.items kind hts.2 budget).weaken (Nat.le_succ _)

theorem spent_pruned {nested : Aggregate → List (Tree F) → Nat → Value F × Nat} {t : Tree F}
    (ht : t.Sendable) (budget : Nat)
    (hnested : ∀ kind ts, (Tree.aggregate kind ts).Sendable →
      Spent (nested kind ts budget).1.kept (nested kind ts budget).2 budget
        (nested kind ts budget).1.levels) :
    Spent (pruned nested budget t).1.kept (pruned nested budget t).2 budget
      (pruned nested budget t).1.levels := by
  -- a text that a line bounds is kept whole, whatever is left
  have hline {n : Nat} (hn : n ≤ maxLine) : Spent n (budget - n) budget 1 :=
    ⟨fun hpos => by omega, by omega⟩
  have hcut (text : Bytes) {n : Nat} (hn : n ≤ budget) :
      Spent (text.take n).length (budget - (text.take n).length) budget 1 := by
    rw [length_take]
    exact ⟨fun hpos => by omega, by omega⟩
  have hnone : Spent 0 budget budget 1 := ⟨fun _ => Nat.le_of_eq (Nat.zero_add _), Nat.zero_le _⟩
  cases t with
  | aggregate kind ts => exact hnested kind ts ht
  | null => exact hnone
  | integer n => exact hnone
  | double x => exact hnone
  | boolean b => exact hnone
  | simple text | error text | bigNumber digits => exact hline ht
  | bulkError text => exact hcut text (Nat.min_le_left _ _)
  | bulk text => exact hcut text (Nat.le_refl _)
  | verbatim format text =>
    obtain ⟨hformat, -⟩ := ht
    have hmax : 4 ≤ maxLine := by decide
    show Spent (format.length + (text.take (min (budget + 4) u64Max - 4)).length)
      (budget - ((text.take (min (budget + 4) u64Max - 4)).length + 4)) budget 1
    rw [hformat, length_take]
    exact ⟨fun hpos => by omega, by omega⟩

theorem levels_pruned {nested : Aggregate → List (Tree F) → Nat → Value F × Nat} (budget : Nat)
    (hnested : ∀ kind ts, (nested kind ts budget).1.levels = 1) (t : Tree F) :
    (pruned nested budget t).1.levels = 1 := by
  cases t with
  | aggregate kind ts => exact hnested kind ts
  | null => rfl
  | integer n => rfl
  | double x => rfl
  | boolean b => rfl
  | simple text => rfl
  | error text => rfl
  | bigNumber digits => rfl
  | bulkError text => rfl
  | bulk text => rfl
  | verbatim format text => rfl

theorem spent_prunedWhole (kind : Aggregate) (ts : List (Tree F)) (budget : Nat) :
    Spent (prunedWhole kind ts budget).1.kept (prunedWhole kind ts budget).2 budget
      (prunedWhole kind ts budget).1.levels :=
  ⟨fun _ => Nat.le_of_eq (Nat.zero_add _), Nat.zero_le _⟩

theorem keeps_prune (cost room : Nat) : Keeps (F := F) (prune cost room) := by
  induction room with
  | zero =>
    refine ⟨fun t budget ht => ?_, fun t => levels_pruned 0 (fun _ _ => rfl) t⟩
    exact (spent_pruned ht budget fun kind ts _ => spent_prunedWhole kind ts budget).taking cost
  | succ room ih =>
    refine ⟨fun t budget ht => ?_, fun t => levels_pruned 0 (fun _ _ => ?_) t⟩
    · refine (spent_pruned ht budget fun kind ts hts => ?_).taking cost
      split
      · exact spent_prunedWhole kind ts budget
      · exact ih.aggregate hts budget
    · rw [if_pos rfl]
      rfl

end

/-! ## What a server sends -/

section

variable {F : Type} {floats : Floats F}

theorem sendable_of_scalar {t : Tree F} {line payload : Bytes} (ht : Scalar floats t line payload)
    (hline : Line line) (hsmall : payload.length ≤ u64Max) : t.Sendable := by
  have hlength := hline.2
  cases ht with
  | simple text | error text | bigNumber htext =>
    rw [length_cons] at hlength
    exact Nat.le_of_succ_le (Nat.le_of_lt hlength)
  | verbatim hcounts =>
    simp only [length_append, length_cons, length_nil] at hsmall
    exact ⟨rfl, by omega⟩
  | null => trivial
  | nullBulk => trivial
  | nullArray => trivial
  | integer hn => trivial
  | double hx => trivial
  | boolean b => trivial
  | bulk hcounts => trivial
  | bulkError hcounts => trivial

theorem sendable_of_encodes {ts : List (Tree F)} {bytes : Bytes} (h : Encodes floats ts bytes)
    (hsmall : bytes.length ≤ u64Max) : Tree.AllSendable ts := by
  induction h with
  | nil => trivial
  | scalar ht hline _ ih =>
    simp only [length_append] at hsmall
    exact ⟨sendable_of_scalar ht hline (by omega), ih (by omega)⟩
  | annotated _ _ _ _ _ _ ih =>
    simp only [length_append] at hsmall
    exact ih (by omega)
  | aggregate _ _ hlen _ _ ihitems ihrest =>
    simp only [length_append] at hsmall
    refine ⟨⟨?_, ihitems (by omega)⟩, ihrest (by omega)⟩
    rw [hlen]
    exact Nat.mul_mod_right _ _

/-- What is kept of a value exceeds its budget by a line for each level at most; and a value not
said to be cut is the one that was sent, exactly if its bulk errors fit wherever all else does. -/
theorem cut_errors_are_silent {t : Tree F} {bytes rest : Bytes} (hsent : Encodes floats [t] bytes)
    (hsmall : bytes.length ≤ u64Max) {s : List Bytes} (hs : Cut s)
    (hstream : s.flatten = bytes ++ rest) (ending : Ending) (cost budget : Nat) :
    ∃ v left s', value floats (buffers ending) cost budget s = (.ok (v, left), s') ∧
      (((v.isTruncated = false → v = t.sent) ∧ v.kept ≤ budget + v.levels * maxLine) ↔
        (t.FitsMarked cost budget → t.FitsWhole cost budget)) := by
  obtain ⟨s', hvalue, -, -⟩ :=
    value_cut cost ending (readsOne_of_encodes ending hsent) hsmall budget hs hstream
  have hsendable := (sendable_of_encodes hsent hsmall).1
  have htold := Told.prune cost maxDepth t hsendable budget
  have hspent := (keeps_prune cost maxDepth).spent t budget hsendable
  refine ⟨_, _, s', hvalue, fun ⟨hsame, _⟩ hfits => ?_, fun hexact => ⟨fun hmarked => ?_, ?_⟩⟩
  · exact (htold.same hfits).mp (hsame (htold.marked.mpr hfits))
  · have hfits := htold.marked.mp hmarked
    exact (htold.same hfits).mpr (hexact hfits)
  · exact hspent.bounded

end

/-- An array of one bulk error, `*1 !5 hello`. -/
def errorTree : Tree Unit := .aggregate .array [.bulkError [104, 101, 108, 108, 111]]

def errorReply : Bytes :=
  [42, 49, 13, 10, 33, 53, 13, 10, 104, 101, 108, 108, 111, 13, 10]

theorem encodes_errorReply : Encodes noFloats [errorTree] errorReply := by
  have hline : ∀ line : Bytes, 10 ∉ line → line.length < 3 → Line line :=
    fun line hfeed hlen => ⟨hfeed, Nat.lt_trans hlen (by decide)⟩
  have hfive : Counts (List.length [104, 101, 108, 108, 111]) [53] := ⟨by decide, by decide⟩
  have hone : Counts 1 [49] := ⟨by decide, by decide⟩
  have hitem : Encodes noFloats [.bulkError [104, 101, 108, 108, 111]]
      [33, 53, 13, 10, 104, 101, 108, 108, 111, 13, 10] :=
    .scalar (.bulkError hfive) (hline [33, 53] (by decide) (by decide)) .nil
  refine .aggregate hone ?_ rfl hitem .nil
  exact hline [42, 49] (by decide) (by decide)

theorem cut_errorReply : Cut [errorReply] := by
  intro b hb
  rw [mem_singleton.mp hb]
  exact cons_ne_nil _ _

/-- Within a hundred bytes the error is whole. -/
theorem error_is_whole :
    ∃ v left s', value noFloats (buffers .closed) 32 100 [errorReply] = (.ok (v, left), s') ∧
      (v.isTruncated = false → v = errorTree.sent) ∧ v.kept ≤ 100 + v.levels * maxLine := by
  obtain ⟨v, left, s', hvalue, hiff⟩ := cut_errors_are_silent encodes_errorReply (by decide)
    cut_errorReply (append_nil _).symm .closed 32 100
  refine ⟨v, left, s', hvalue, hiff.mpr fun _ => ⟨by decide, ?_⟩⟩
  rw [if_neg nofun]
  have hfits : List.length [104, 101, 108, 108, 111] ≤ min 100 maxLine := by decide
  exact ⟨by decide, hfits, trivial⟩

/-- Within two bytes it is cut, and does not say so. -/
theorem error_is_cut_in_silence :
    ∃ v left s', value noFloats (buffers .closed) 32 2 [errorReply] = (.ok (v, left), s') ∧
      v.isTruncated = false ∧ v ≠ errorTree.sent := by
  have hone := readsOne_of_encodes .closed encodes_errorReply
  obtain ⟨s', hvalue, -, -⟩ :=
    value_cut 32 .closed hone (by decide) 2 cut_errorReply (append_nil _).symm
  have hprune : prune 32 maxDepth errorTree 2 = (.list .array [.error [104, 101]], 0) := by rfl
  rw [hprune] at hvalue
  refine ⟨_, _, s', hvalue, rfl, fun heq => ?_⟩
  have hitems : [Value.error [104, 101]] = [.error [104, 101, 108, 108, 111]] :=
    (Value.list.inj heq).2
  cases hitems

end Oxyn.Resp
