/-
# `Oxyn.Redis.Answers` — the reader in step with the server

Over any cut of a stream of encoded values: the `k`-th call reads the `k`-th value and leaves the
bytes of those behind it, `skip` leaves out as many as it is asked to, and what a budget and a
depth leave of a tree is the tree itself or the tree trimmed.
-/
import Oxyn.Redis.Cuts
import Oxyn.Redis.Framing

namespace Oxyn.Resp

open List

section

variable {F : Type} {read : Tree F → Nat → Value F × Nat}

/-! ## A budget that is not used up -/

theorem prunedItems_le (hread : ∀ t budget, (read t budget).2 ≤ budget) (kind : Aggregate)
    (ts : List (Tree F)) (budget : Nat) : (prunedItems read kind ts budget).2 ≤ budget := by
  induction ts generalizing budget with
  | nil => exact Nat.le_refl _
  | cons t ts ih =>
    rw [prunedItems]
    split
    · exact Nat.le_refl _
    · exact Nat.le_trans (ih _) (hread t budget)

theorem prunedPairs_le (hread : ∀ t budget, (read t budget).2 ≤ budget) (ts : List (Tree F))
    (budget : Nat) : (prunedPairs read ts budget).2 ≤ budget := by
  induction ts using pairUp.induct generalizing budget with
  | case1 t t' ts ih =>
    rw [prunedPairs]
    split
    · exact Nat.le_refl _
    · exact Nat.le_trans (ih _) (Nat.le_trans (hread t' _) (hread t budget))
  | case2 ts hshort =>
    rw [prunedPairs]
    exact hshort

theorem prunedAggregate_le (hread : ∀ t budget, (read t budget).2 ≤ budget) (kind : Aggregate)
    (ts : List (Tree F)) (budget : Nat) : (prunedAggregate read kind ts budget).2 ≤ budget := by
  unfold prunedAggregate
  split
  · exact prunedPairs_le hread ts budget
  · exact prunedItems_le hread kind ts budget

variable {nested : Aggregate → List (Tree F) → Nat → Value F × Nat}

theorem pruned_le
    (hnested : ∀ kind ts budget, (nested kind ts budget).2 ≤ budget) (budget : Nat) (t : Tree F) :
    (pruned nested budget t).2 ≤ budget := by
  cases t with
  | aggregate kind ts => exact hnested kind ts budget
  | simple | error | bulkError | bigNumber | bulk | verbatim => exact Nat.sub_le _ _
  | null | integer | double | boolean => exact Nat.le_refl _

theorem prune_le (cost room : Nat) (t : Tree F) (budget : Nat) :
    (prune cost room t budget).2 ≤ budget := by
  induction room generalizing t budget with
  | zero =>
    exact Nat.le_trans (Nat.sub_le _ _) (pruned_le (fun _ _ _ => Nat.le_refl _) budget t)
  | succ room ih =>
    refine Nat.le_trans (Nat.sub_le _ _) (pruned_le (fun kind ts budget => ?_) budget t)
    split
    · exact Nat.le_refl _
    · exact prunedAggregate_le ih kind ts budget

theorem prunedItems_whole {room : Nat} (hle : ∀ t budget, (read t budget).2 ≤ budget)
    (hread : ∀ t budget, budget ≤ u64Max → t.nesting ≤ room → 0 < (read t budget).2 →
      (read t budget).1 = t.value)
    (kind : Aggregate) (ts : List (Tree F)) (budget : Nat) (hsize : budget ≤ u64Max)
    (hroom : Tree.nestings ts ≤ room) (hleft : 0 < (prunedItems read kind ts budget).2) :
    (prunedItems read kind ts budget).1 = Tree.values ts := by
  induction ts generalizing budget with
  | nil => rfl
  | cons t ts ih =>
    rw [Tree.nestings, Nat.max_le] at hroom
    rw [prunedItems] at hleft ⊢
    split at hleft
    next hzero => exact absurd (hzero ▸ hleft) (Nat.lt_irrefl 0)
    next hzero =>
      have hspent := prunedItems_le hle kind ts (read t budget).2
      rw [if_neg hzero, Tree.values]
      simp only
      rw [hread t budget hsize hroom.1 (Nat.lt_of_lt_of_le hleft hspent),
        ih _ (Nat.le_trans (hle t budget) hsize) hroom.2 hleft]

theorem prunedPairs_whole {room : Nat} (hle : ∀ t budget, (read t budget).2 ≤ budget)
    (hread : ∀ t budget, budget ≤ u64Max → t.nesting ≤ room → 0 < (read t budget).2 →
      (read t budget).1 = t.value)
    (ts : List (Tree F)) (budget : Nat) (hsize : budget ≤ u64Max)
    (hroom : Tree.nestings ts ≤ room) (hleft : 0 < (prunedPairs read ts budget).2) :
    (prunedPairs read ts budget).1 = pairUp (Tree.values ts) := by
  induction ts using pairUp.induct generalizing budget with
  | case1 t t' ts ih =>
    simp only [Tree.nestings, Nat.max_le] at hroom
    rw [prunedPairs] at hleft ⊢
    split at hleft
    next hzero => exact absurd (hzero ▸ hleft) (Nat.lt_irrefl 0)
    next hzero =>
      have hspent := prunedPairs_le hle ts (read t' (read t budget).2).2
      have hvalue := Nat.lt_of_lt_of_le hleft hspent
      have hkey := Nat.lt_of_lt_of_le hvalue (hle t' (read t budget).2)
      rw [if_neg hzero, Tree.values, Tree.values, pairUp]
      simp only
      have hsize' := Nat.le_trans (hle t budget) hsize
      rw [hread t budget hsize hroom.1 hkey, hread t' _ hsize' hroom.2.1 hvalue,
        ih _ (Nat.le_trans (hle t' _) hsize') hroom.2.2 hleft]
  | case2 ts hshort =>
    rcases ts with _ | ⟨t, _ | ⟨t', ts⟩⟩
    · rfl
    · rfl
    · exact absurd rfl (hshort t t' ts)

theorem length_lt_of_left {text : Bytes} {budget : Nat}
    (h : 0 < budget - (text.take budget).length) : text.length < budget := by
  rw [length_take] at h
  omega

theorem pruned_whole {budget : Nat}
    (hsize : budget ≤ u64Max) {t : Tree F} (hscalar : ∀ kind ts, t ≠ .aggregate kind ts)
    (hleft : 0 < (pruned nested budget t).2) : (pruned nested budget t).1 = t.value := by
  cases t with
  | aggregate kind ts => exact absurd rfl (hscalar kind ts)
  | bulk text =>
    rw [pruned, Tree.value, take_of_length_le (Nat.le_of_lt (length_lt_of_left hleft))]
  | bulkError text =>
    have hcut : text.take (min budget maxLine) = text.take maxLine := by
      rcases Nat.le_total maxLine budget with hle | hle
      · rw [Nat.min_eq_right hle]
      · rw [pruned, Nat.min_eq_left hle] at hleft
        have hlt := length_lt_of_left hleft
        rw [Nat.min_eq_left hle, take_of_length_le (by omega),
          take_of_length_le (by omega)]
    rw [pruned, Tree.value, hcut]
  | verbatim format text =>
    have hlt : text.length ≤ min (budget + 4) u64Max - 4 := by
      simp only [pruned, length_take] at hleft
      omega
    rw [pruned, Tree.value, take_of_length_le hlt]
  | simple => rfl
  | error => rfl
  | bigNumber => rfl
  | null => rfl
  | integer => rfl
  | double => rfl
  | boolean => rfl

theorem prune_whole (cost room : Nat) (t : Tree F) (budget : Nat) (hsize : budget ≤ u64Max)
    (hroom : t.nesting ≤ room) (hleft : 0 < (prune cost room t budget).2) :
    (prune cost room t budget).1 = t.value := by
  induction room generalizing t budget with
  | zero =>
    have hkept : 0 < (pruned prunedWhole budget t).2 := Nat.lt_of_lt_of_le hleft (Nat.sub_le _ _)
    refine pruned_whole hsize (fun kind ts heq => ?_) hkept
    rw [heq, Tree.nesting] at hroom
    cases hroom
  | succ room ih =>
    have hkept := Nat.lt_of_lt_of_le hleft (Nat.sub_le _ _)
    by_cases hscalar : ∀ kind ts, t ≠ .aggregate kind ts
    · exact pruned_whole hsize hscalar hkept
    · obtain ⟨kind, ts, rfl⟩ : ∃ kind ts, t = .aggregate kind ts := by
        simpa only [not_forall, not_not] using hscalar
      rw [Tree.nesting] at hroom
      have hbelow : Tree.nestings ts ≤ room := Nat.le_of_succ_le_succ hroom
      rw [pruned] at hkept
      rw [prune, pruned]
      simp only at hkept ⊢
      split at hkept
      next hzero => exact absurd (hzero ▸ hkept) (Nat.lt_irrefl 0)
      next hzero =>
        rw [if_neg hzero, Tree.value, ofItems]
        unfold prunedAggregate at hkept ⊢
        split at hkept
        next hmap =>
          rw [if_pos hmap, if_pos hmap]
          simp only
          rw [prunedPairs_whole (prune_le cost room) (fun t b hb => ih t b hb) ts budget hsize
            hbelow hkept]
        next hmap =>
          rw [if_neg hmap, if_neg hmap]
          simp only
          rw [prunedItems_whole (prune_le cost room) (fun t b hb => ih t b hb) kind ts budget
            hsize hbelow hkept]

/-! ## What is kept otherwise -/

theorem prunedItems_trimmed (hread : ∀ t budget, Trimmed t (read t budget).1) (kind : Aggregate)
    (ts : List (Tree F)) (budget : Nat) :
    TrimmedItems kind ts (prunedItems read kind ts budget).1 := by
  induction ts generalizing budget with
  | nil => exact .nil
  | cons t ts ih =>
    rw [prunedItems]
    split
    · exact .rest t ts
    · exact .cons (hread t budget) (ih _)

theorem prunedPairs_trimmed (hread : ∀ t budget, Trimmed t (read t budget).1)
    (ts : List (Tree F)) (budget : Nat) : TrimmedPairs ts (prunedPairs read ts budget).1 := by
  induction ts using pairUp.induct generalizing budget with
  | case1 t t' ts ih =>
    rw [prunedPairs]
    split
    · exact .rest t t' ts
    · exact .cons (hread t budget) (hread t' _) (ih _)
  | case2 ts hshort =>
    rcases ts with _ | ⟨t, _ | ⟨t', ts⟩⟩
    · exact .nil Nat.zero_lt_two
    · exact .nil (Nat.lt_succ_self 1)
    · exact absurd rfl (hshort t t' ts)

theorem prunedAggregate_trimmed (hread : ∀ t budget, Trimmed t (read t budget).1)
    (kind : Aggregate) (ts : List (Tree F)) (budget : Nat) :
    Trimmed (.aggregate kind ts) (prunedAggregate read kind ts budget).1 := by
  unfold prunedAggregate
  split
  next hmap =>
    subst hmap
    exact .map (prunedPairs_trimmed hread ts budget)
  next hmap => exact .list hmap (prunedItems_trimmed hread kind ts budget)

theorem pruned_trimmed
    (hnested : ∀ kind ts budget, Trimmed (.aggregate kind ts) (nested kind ts budget).1)
    (budget : Nat) (t : Tree F) : Trimmed t (pruned nested budget t).1 := by
  cases t with
  | aggregate kind ts => exact hnested kind ts budget
  | bulkError text => exact .bulkError text _
  | bulk text => exact .bulk text _
  | verbatim format text => exact .verbatim format text _
  | null => exact .whole .null
  | simple text => exact .whole (.simple text)
  | error text => exact .whole (.error text)
  | integer n => exact .whole (.integer n)
  | double x => exact .whole (.double x)
  | boolean b => exact .whole (.boolean b)
  | bigNumber digits => exact .whole (.bigNumber digits)

/-- Whatever the budget and the depth, what is kept of a tree is the tree trimmed. -/
theorem prune_trimmed (cost room : Nat) (t : Tree F) (budget : Nat) :
    Trimmed t (prune cost room t budget).1 := by
  induction room generalizing t budget with
  | zero => exact pruned_trimmed (fun kind ts _ => .elided kind ts) budget t
  | succ room ih =>
    refine pruned_trimmed (fun kind ts budget => ?_) budget t
    split
    · exact .elided kind ts
    · exact prunedAggregate_trimmed ih kind ts budget

end

/-! ## What is sent, as a value -/

variable {n : Nat}

theorem toNat_digit (h : n < 10) : (UInt8.ofNat (48 + n)).toNat = 48 + n := by
  rw [UInt8.toNat_ofNat']
  omega

theorem isDigit_ofNat (h : n < 10) : isDigit (UInt8.ofNat (48 + n)) = true := by
  simp only [isDigit, Bool.and_eq_true, decide_eq_true_eq, UInt8.le_iff_toNat_le, toNat_digit h]
  exact ⟨Nat.le_add_right 48 n, by change 48 + n ≤ 57; omega⟩

theorem isDigits_concat {digits : Bytes} {b : UInt8} (h : ∀ d ∈ digits, isDigit d = true)
    (hb : isDigit b = true) : isDigits (digits ++ [b]) = true := by
  have hall : (digits ++ [b]).all isDigit = true := by
    simpa [hb] using h
  simp [isDigits, hall]

theorem decimal_append (digits : Bytes) (h : n < 10) :
    decimal (digits ++ [UInt8.ofNat (48 + n)]) = 10 * decimal digits + n := by
  unfold decimal
  rw [foldl_append, foldl_cons, foldl_nil, toNat_digit h, Nat.add_sub_cancel_left]

theorem counts_decimalText (n : Nat) : Counts n (decimalText n) := by
  induction n using decimalText.induct with
  | case1 n h =>
    rw [decimalText, if_pos h]
    refine ⟨isDigits_concat (fun _ hmem => absurd hmem not_mem_nil) (isDigit_ofNat h), ?_⟩
    have happend := decimal_append [] h
    simpa [decimal] using happend
  | case2 n h ih =>
    have hlast : n % 10 < 10 := Nat.mod_lt _ (by decide)
    obtain ⟨hdigits, hdecimal⟩ := ih
    rw [decimalText, if_neg h]
    constructor
    · simp only [isDigits, Bool.and_eq_true, all_eq_true] at hdigits
      exact isDigits_concat hdigits.2 (isDigit_ofNat hlast)
    · rw [decimal_append _ hlast, hdecimal]
      omega

theorem length_decimalText {n k : Nat} (h : n < 10 ^ (k + 1)) :
    (decimalText n).length ≤ k + 1 := by
  induction k generalizing n with
  | zero =>
    rw [decimalText, if_pos (by simpa using h)]
    exact Nat.le_refl 1
  | succ k ih =>
    rw [decimalText]
    split
    · exact Nat.le_add_left 1 (k + 1)
    · have hdiv : n / 10 < 10 ^ (k + 1) := by
        rw [Nat.pow_succ] at h
        omega
      rw [length_append]
      exact Nat.succ_le_succ (ih hdiv)

theorem line_decimalText {marker : UInt8} (hmarker : marker ≠ 10) (hn : n ≤ u64Max) :
    Line (marker :: decimalText n) := by
  constructor
  · intro hmem
    rcases mem_cons.mp hmem with heq | hmem
    · exact hmarker heq.symm
    · have hdigits := (counts_decimalText n).1
      simp only [isDigits, Bool.and_eq_true, all_eq_true] at hdigits
      exact absurd (hdigits.2 10 hmem) (by decide)
  · have hlen := length_decimalText (n := n) (k := 19)
      (Nat.lt_of_le_of_lt hn (by decide))
    rw [length_cons]
    exact Nat.lt_of_le_of_lt (Nat.succ_le_succ hlen) (by decide)

section

variable {F : Type} (floats : Floats F)

theorem encodes_args (argv : List Bytes) (hsmall : ∀ arg ∈ argv, arg.length ≤ u64Max) :
    Encodes floats (argv.map Tree.bulk)
      (argv.flatMap fun arg => [36] ++ decimalText arg.length ++ [13, 10] ++ arg ++ [13, 10]) := by
  induction argv with
  | nil => exact .nil
  | cons arg argv ih =>
    have hone := hsmall arg mem_cons_self
    have hrest := ih fun a ha => hsmall a (mem_cons_of_mem _ ha)
    have hcons := Encodes.scalar (.bulk (counts_decimalText arg.length))
      (line_decimalText (by decide) hone) hrest
    simpa using hcons

theorem length_encode (argv : List Bytes) :
    argv.length ≤ (encode argv).length ∧ ∀ arg ∈ argv, arg.length ≤ (encode argv).length := by
  have hbody : ∀ argv : List Bytes,
      argv.length ≤ (argv.flatMap fun arg => [36] ++ decimalText arg.length ++ [13, 10] ++ arg ++
        [13, 10]).length ∧ ∀ arg ∈ argv, arg.length ≤ (argv.flatMap fun arg =>
          [36] ++ decimalText arg.length ++ [13, 10] ++ arg ++ [13, 10]).length := by
    intro argv
    induction argv with
    | nil => exact ⟨Nat.le_refl 0, fun _ hmem => absurd hmem not_mem_nil⟩
    | cons first argv ih =>
      simp only [flatMap_cons, length_append, length_cons, length_nil]
      refine ⟨by omega, fun arg harg => ?_⟩
      rcases mem_cons.mp harg with rfl | harg
      · omega
      · have hle := ih.2 arg harg
        omega
  obtain ⟨hcount, hargs⟩ := hbody argv
  unfold encode
  rw [length_append]
  exact ⟨by omega, fun arg harg => Nat.le_trans (hargs arg harg) (Nat.le_add_left _ _)⟩

theorem encodes_encode (argv : List Bytes) (hsmall : (encode argv).length ≤ u64Max) :
    Encodes floats [.aggregate .array (argv.map Tree.bulk)] (encode argv) := by
  obtain ⟨hcount, hargs⟩ := length_encode argv
  have hlen : (argv.map (Tree.bulk (F := F))).length = Aggregate.array.arity * argv.length := by
    rw [length_map]
    exact (Nat.one_mul _).symm
  have hline : Line (Aggregate.array.marker :: decimalText argv.length) :=
    line_decimalText (by decide) (by omega)
  have hencodes := Encodes.aggregate (counts_decimalText argv.length) hline hlen
    (encodes_args floats argv fun arg harg => Nat.le_trans (hargs arg harg) hsmall) .nil
  rw [append_nil] at hencodes
  exact hencodes

end

/-! ## Over any cut -/

section

variable {F : Type} (floats : Floats F) (cost : Nat) (ending : Ending)

/-- What succeeds on the stream as a whole, without its longest line, succeeds on every cut. -/
theorem follow {α : Type} {p : Scan (List Bytes) WireError α} {q : Scan Flat WireError α}
    (h : Scan.Shadows (watch Cut (fun _ => True) IsMalformed (· = true)) p q) {s : List Bytes}
    (hs : Cut s) {a : α} {rest : Bytes} (hrun : q (behind s.flatten) = (.ok a, behind rest)) :
    ∃ s', p s = (.ok a, s') ∧ s'.flatten = rest ∧ Cut s' := by
  rcases h.follows s (behind s.flatten) ⟨rfl, hs, trivial⟩ with ⟨hsame, hrelated, -⟩ | ⟨-, hnoted⟩
  · rw [hrun] at hsame hrelated
    obtain ⟨hrest, hcut, -⟩ := hrelated a hsame
    exact ⟨(p s).2, Prod.ext hsame rfl, hrest, hcut⟩
  · rw [hrun] at hnoted
    cases hnoted

/-- One call after the other. -/
def values {σ : Type} (src : Source σ) : List Nat → Scan σ WireError (List (Value F × Nat))
  | [] => pure []
  | budget :: budgets => do
      let answer ← value floats src cost budget
      let answers ← values src budgets
      pure (answer :: answers)

/-- What a call answers for a tree: the tree, within the depth and some of the budget left; and the
tree trimmed in any case. -/
def Answered (t : Tree F) (answer : Value F × Nat) : Prop :=
  Trimmed t answer.1 ∧ (t.nesting ≤ maxDepth → 0 < answer.2 → answer.1 = t.value)

theorem answered_prune (t : Tree F) {budget : Nat} (hsize : budget ≤ u64Max) :
    Answered t (prune cost maxDepth t budget) :=
  ⟨prune_trimmed cost maxDepth t budget,
    fun hroom hleft => prune_whole cost maxDepth t budget hsize hroom hleft⟩

variable {floats}

theorem readsOne_of_encodes {t : Tree F} {bytes : Bytes} (h : Encodes floats [t] bytes) :
    ReadsOne ending floats t bytes := by
  obtain ⟨one, others, rfl, hone, hothers⟩ := readAll_of_encodes ending h
  rw [ReadAll] at hothers
  rwa [hothers, append_nil]

/-- The bytes of values written one after the other. -/
def streamOf (parts : List (Tree F × Bytes)) : Bytes := parts.flatMap (·.2)

theorem value_cut {t : Tree F} {bytes rest : Bytes} (hone : ReadsOne ending floats t bytes)
    (hsmall : bytes.length ≤ u64Max) (budget : Nat) {s : List Bytes} (hs : Cut s)
    (hstream : s.flatten = bytes ++ rest) :
    ∃ s', value floats (buffers ending) cost budget s =
      (.ok (prune cost maxDepth t budget), s') ∧ s'.flatten = rest ∧ Cut s' := by
  refine follow ((cut_mirrors ending).value cost budget) hs ?_
  rw [hstream]
  exact hone.read hsmall cost maxDepth budget rest

theorem values_cut (parts : List (Tree F × Bytes))
    (hparts : ∀ p ∈ parts, Encodes floats [p.1] p.2) (budgets : List Nat)
    (hcalls : budgets.length ≤ parts.length) (hsizes : ∀ b ∈ budgets, b ≤ u64Max)
    (s : List Bytes) (hs : Cut s) (hstream : s.flatten = streamOf parts)
    (hsmall : s.flatten.length ≤ u64Max) :
    ∃ answers s', values floats cost (buffers ending) budgets s = (.ok answers, s') ∧
      s'.flatten = streamOf (parts.drop budgets.length) ∧
      List.Forall₂ (fun p answer => Answered p.1 answer) (parts.take budgets.length) answers := by
  induction budgets generalizing parts s with
  | nil => exact ⟨[], s, rfl, hstream, .nil⟩
  | cons budget budgets ih =>
    match parts, hcalls with
    | p :: parts, hcalls =>
      have hone := readsOne_of_encodes ending (hparts p mem_cons_self)
      rw [streamOf, flatMap_cons] at hstream
      rw [hstream, length_append] at hsmall
      obtain ⟨mid, hvalue, hrest, hmid⟩ :=
        value_cut cost ending hone (by omega) budget hs hstream
      obtain ⟨answers, s', hvalues, hleft, hanswers⟩ :=
        ih parts (fun q hq => hparts q (mem_cons_of_mem _ hq))
          (Nat.le_of_succ_le_succ hcalls) (fun b hb => hsizes b (mem_cons_of_mem _ hb))
          mid hmid hrest (by rw [hrest]; omega)
      refine ⟨prune cost maxDepth p.1 budget :: answers, s', ?_, hleft,
        .cons (answered_prune cost p.1 (hsizes budget mem_cons_self)) hanswers⟩
      rw [values, Scan.bind_ok hvalue, Scan.bind_ok hvalues]
      rfl

theorem skip_cut (parts : List (Tree F × Bytes))
    (hparts : ∀ p ∈ parts, Encodes floats [p.1] p.2) (hn : n ≤ parts.length)
    (s : List Bytes) (hs : Cut s) (hstream : s.flatten = streamOf parts)
    (hsmall : s.flatten.length ≤ u64Max) :
    ∃ s', skip floats (buffers ending) n s = (.ok (), s') ∧
      s'.flatten = streamOf (parts.drop n) := by
  have hall : ∀ taken : List (Tree F × Bytes), (∀ p ∈ taken, Encodes floats [p.1] p.2) →
      ReadAll ending floats (taken.map (·.1)) (streamOf taken) := by
    intro taken htaken
    induction taken with
    | nil => rfl
    | cons p taken ih =>
      exact ⟨p.2, streamOf taken, rfl, readsOne_of_encodes ending (htaken p mem_cons_self),
        ih fun q hq => htaken q (mem_cons_of_mem _ hq)⟩
  have hsplit : streamOf parts = streamOf (parts.take n) ++ streamOf (parts.drop n) := by
    unfold streamOf
    rw [← flatMap_append, take_append_drop]
  have hskip : skip floats (flat ending) n (behind s.flatten) =
      (.ok (), behind (streamOf (parts.drop n))) := by
    have htaken := hall (parts.take n) fun p hp => hparts p (mem_of_mem_take hp)
    have hlen : ((parts.take n).map (·.1)).length = n := by
      rw [length_map, length_take, Nat.min_eq_left hn]
    rw [hstream, hsplit, length_append] at hsmall
    have hrun := htaken.skip_all ending (streamOf (parts.drop n)) (by omega)
    rw [hlen] at hrun
    rw [hstream, hsplit, hrun]
  obtain ⟨s', hrun, hrest, -⟩ := follow ((cut_mirrors ending).skip n) hs hskip
  exact ⟨s', hrun, hrest⟩

theorem values_bulk (argv : List Bytes) :
    Tree.values (argv.map (Tree.bulk (F := F))) = argv.map fun arg => .bulk ⟨arg, arg.length⟩ := by
  induction argv with
  | nil => rfl
  | cons arg argv ih => rw [map_cons, Tree.values, ih, Tree.value, map_cons]

theorem nesting_bulk (argv : List Bytes) :
    Tree.nestings (argv.map (Tree.bulk (F := F))) = 0 := by
  induction argv with
  | nil => rfl
  | cons arg argv ih =>
    rw [map_cons, Tree.nestings, ih]
    rfl

/-- On every cut of a stream of values, so many calls have read so many values, each answered by its
tree; `skip` leaves out so many; and a command read back is the array of its arguments. -/
theorem reader_in_step (parts : List (Tree F × Bytes))
    (hparts : ∀ p ∈ parts, Encodes floats [p.1] p.2) (s : List Bytes) (hs : Cut s)
    (hstream : s.flatten = streamOf parts) (hsmall : s.flatten.length < 2 ^ 64) :
    (∀ budgets : List Nat, budgets.length ≤ parts.length → (∀ b ∈ budgets, b < 2 ^ 64) →
      ∃ answers s', values floats cost (buffers ending) budgets s = (.ok answers, s') ∧
        s'.flatten = streamOf (parts.drop budgets.length) ∧
        List.Forall₂ (fun p answer => Answered p.1 answer) (parts.take budgets.length) answers) ∧
    (∀ n ≤ parts.length, ∃ s', skip floats (buffers ending) n s = (.ok (), s') ∧
      s'.flatten = streamOf (parts.drop n)) ∧
    (∀ (argv : List Bytes) (budget : Nat), s.flatten = encode argv → budget < 2 ^ 64 →
      ∃ v left s', value floats (buffers ending) cost budget s = (.ok (v, left), s') ∧
        s'.flatten = [] ∧
        (0 < left → v = .list .array (argv.map fun arg => .bulk ⟨arg, arg.length⟩))) := by
  have hmax : ∀ {n : Nat}, n < 2 ^ 64 → n ≤ u64Max := fun h => Nat.le_sub_one_of_lt h
  refine ⟨fun budgets hcalls hsizes => ?_, fun n hn => ?_, fun argv budget hbytes hsize => ?_⟩
  · exact values_cut cost ending parts hparts budgets hcalls (fun b hb => hmax (hsizes b hb)) s hs
      hstream (hmax hsmall)
  · exact skip_cut ending parts hparts hn s hs hstream (hmax hsmall)
  · have hencodes := encodes_encode floats argv (hbytes ▸ hmax hsmall)
    obtain ⟨s', hvalue, hrest, -⟩ := value_cut cost ending (readsOne_of_encodes ending hencodes)
      (hbytes ▸ hmax hsmall) budget hs (hbytes.trans (append_nil _).symm)
    have hroom : (Tree.aggregate .array (argv.map (Tree.bulk (F := F)))).nesting ≤ maxDepth := by
      rw [Tree.nesting, nesting_bulk]
      decide
    have hwhole := prune_whole cost maxDepth _ budget (hmax hsize) hroom
    rw [Tree.value, ofItems, if_neg nofun, values_bulk] at hwhole
    exact ⟨_, _, s', hvalue, hrest, hwhole⟩

end

/-- An array behind an attribute, `|1 +k +v *2 :7 $2 hi`, and a null. -/
def greeting : List (Tree Unit × Bytes) :=
  [(.aggregate .array [.integer 7, .bulk [104, 105]],
    [124, 49, 13, 10, 43, 107, 13, 10, 43, 118, 13, 10,
      42, 50, 13, 10, 58, 55, 13, 10, 36, 50, 13, 10, 104, 105, 13, 10]),
    (.null, [95, 13, 10])]

/-- Cut inside a line and inside a payload. -/
def greetingCut : List Bytes :=
  [[124, 49, 13], [10, 43, 107, 13, 10, 43, 118, 13, 10, 42, 50, 13, 10, 58, 55, 13, 10, 36, 50, 13,
    10, 104], [105, 13, 10, 95, 13, 10]]

def noFloats : Floats Unit := ⟨fun _ => none, (), (), ()⟩

theorem encodes_greeting : ∀ p ∈ greeting, Encodes noFloats [p.1] p.2 := by
  intro p hp
  have hline : ∀ line : Bytes, 10 ∉ line → line.length < 3 → Line line :=
    fun line hfeed hlen => ⟨hfeed, Nat.lt_trans hlen (by decide)⟩
  rcases mem_cons.mp hp with rfl | hp
  · have hpair : Encodes noFloats [.simple [107], .simple [118]]
        [43, 107, 13, 10, 43, 118, 13, 10] :=
      .scalar (.simple [107]) (hline _ (by decide) (by decide))
        (.scalar (.simple [118]) (hline _ (by decide) (by decide)) .nil)
    have hseven : IntegerText (decimal [55]) [55] := .plain (by decide) (by decide)
    have hhi : Counts (List.length [104, 105]) [50] := ⟨by decide, by decide⟩
    have htwo : Counts 2 [50] := ⟨by decide, by decide⟩
    have hitems : Encodes noFloats [.integer 7, .bulk [104, 105]]
        [58, 55, 13, 10, 36, 50, 13, 10, 104, 105, 13, 10] :=
      .scalar (.integer hseven) (hline _ (by decide) (by decide))
        (.scalar (.bulk hhi) (hline [36, 50] (by decide) (by decide)) .nil)
    have harray : Encodes noFloats [.aggregate .array [.integer 7, .bulk [104, 105]]]
        [42, 50, 13, 10, 58, 55, 13, 10, 36, 50, 13, 10, 104, 105, 13, 10] := by
      refine .aggregate htwo ?_ rfl hitems .nil
      exact hline [42, 50] (by decide) (by decide)
    have hone : Counts 1 [49] := ⟨by decide, by decide⟩
    exact .annotated hone (hline [124, 49] (by decide) (by decide)) rfl hpair harray
  · cases mem_singleton.mp hp
    exact .scalar .null (hline _ (by decide) (by decide)) .nil

theorem greeting_read_in_step :
    ∃ answers s', values noFloats 32 (buffers .closed) [1000, 1000] greetingCut =
        (.ok answers, s') ∧ s'.flatten = [] ∧
      List.Forall₂ (fun p answer => Answered p.1 answer) greeting answers :=
  (reader_in_step 32 .closed greeting encodes_greeting greetingCut (by simp [Cut, greetingCut]) rfl
    (by decide)).1 [1000, 1000] (by decide) (by decide)

theorem skip_error {σ F : Type} {floats : Floats F} {src : Source σ} {pending : Nat}
    {raw : RawHead F} {s s' s'' : σ} {e : WireError}
    (hraw : rawHead floats src s = (.ok raw, s'))
    (hskip : skipHead src pending raw s' = (.error e, s'')) :
    skip floats src (pending + 1) s = (.error e, s'') := by
  refine Scan.loop_error ?_
  show (rawHead floats src >>= fun raw => skipHead src pending raw >>= _) s = _
  rw [Scan.bind_ok hraw, Scan.bind_error hskip]

theorem long_error_encoded {text : Bytes} (hlen : text.length = maxLine + 1) :
    ∃ bytes, Encodes noFloats [.bulkError text] bytes ∧ bytes.length ≤ u64Max := by
  have hsize : maxLine + 100 ≤ u64Max := by decide
  have hline : Line (33 :: decimalText text.length) := line_decimalText (by decide) (by omega)
  refine ⟨_, .scalar (.bulkError (counts_decimalText text.length)) hline .nil, ?_⟩
  have hbig : maxLine + 1 < 10 ^ (19 + 1) := by decide
  have hdigits := length_decimalText (hlen ▸ hbig)
  simp only [length_append, length_cons, length_nil]
  omega

theorem long_error_cut {text : Bytes} (hlen : text.length = maxLine + 1) :
    ∃ bytes left, Encodes noFloats [.bulkError text] bytes ∧ 0 < left ∧
      value noFloats (buffers .closed) 32 (2 * maxLine) [bytes] =
        (.ok (.error (text.take maxLine), left), []) := by
  have hmin : min (2 * maxLine) maxLine = maxLine := by omega
  have hpos : 32 < maxLine := by decide
  obtain ⟨bytes, hencodes, hsmall⟩ := long_error_encoded hlen
  have hone := readsOne_of_encodes .closed hencodes
  have hbytes : Cut [bytes] := by
    intro b hb
    rw [mem_singleton.mp hb]
    exact length_pos_iff.mp hone.pos
  have hstream : [bytes].flatten = bytes ++ [] := by simp
  obtain ⟨s', hvalue, hrest, hcut⟩ := value_cut 32 .closed hone hsmall (2 * maxLine) hbytes hstream
  have hnil : s' = [] := by
    match s' with
    | [] => rfl
    | b :: rest => exact absurd (append_eq_nil_iff.mp hrest).1 (hcut b mem_cons_self)
  have hprune : prune 32 maxDepth (.bulkError text : Tree Unit) (2 * maxLine) =
      (.error (text.take (min (2 * maxLine) maxLine)),
        2 * maxLine - (text.take (min (2 * maxLine) maxLine)).length - 32) := rfl
  rw [hprune, hnil, hmin] at hvalue
  refine ⟨bytes, _, hencodes, ?_, hvalue⟩
  rw [length_take]
  omega

/-- With so many elements pending, an array of two makes them too many to count. -/
theorem count_overflows (rest : Bytes) :
    (skip noFloats (buffers .closed) u64Max [[42, 50] ++ [13, 10] ++ rest]).1 =
      .error (.malformed "an aggregate length overflows") := by
  have hrelated : (watch Whole (fun _ => True) (fun _ => False) (fun _ => False)).related
      [[42, 50] ++ [13, 10] ++ rest] (behind ([42, 50] ++ [13, 10] ++ rest)) :=
    ⟨by simp [behind], ⟨by simp [Cut], Nat.le_refl 1⟩, trivial⟩
  have hraw : rawHead noFloats (flat .closed) (behind ([42, 50] ++ [13, 10] ++ rest)) =
      (.ok (.head (.aggregate .array 2)), behind rest) :=
    rawHead_of_line (flat_line .closed ⟨by decide, by decide⟩ rest) rfl
  have hcount : u64Max = u64Max - 1 + 1 := by
    have hpos : 0 < u64Max := by decide
    omega
  have hskip : skipHead (F := Unit) (flat .closed) (u64Max - 1) (.head (.aggregate .array 2))
      (behind rest) = (.error (.malformed "an aggregate length overflows"), behind rest) := by
    have hover : behindAggregate (u64Max - 1) .array 2 =
        .error (.malformed "an aggregate length overflows") := by
      show (if u64Max < u64Max - 1 + 2 then
        Except.error (WireError.malformed "an aggregate length overflows") else .ok (u64Max - 1 + 2)) = _
      rw [if_pos (by omega)]
    show (behindAggregate (u64Max - 1) .array 2, behind rest) = _
    rw [hover]
  have hflat := skip_error hraw hskip
  rw [← hcount] at hflat
  rcases ((whole_mirrors .closed).skip u64Max).follows _ _ hrelated with ⟨hsame, -⟩ | ⟨-, hnoted⟩
  · rw [hsame]
    exact congrArg Prod.fst hflat
  · exact absurd hnoted id

/-- An error text longer than `MAX_LINE` loses its end though the budget is not used up; and a
count beyond 64 bits refuses to skip what is there, an array of two and so many integers
behind it. -/
theorem long_error_cut_and_count_overflows :
    (∃ text bytes left, Encodes noFloats [.bulkError text] bytes ∧ 0 < left ∧
      value noFloats (buffers .closed) 32 (2 * maxLine) [bytes] =
        (.ok (.error (text.take maxLine), left), []) ∧ text.take maxLine ≠ text) ∧
    ∃ parts : List (Tree Unit × Bytes), (∀ p ∈ parts, Encodes noFloats [p.1] p.2) ∧
      parts.length = u64Max ∧
      (skip noFloats (buffers .closed) u64Max [streamOf parts]).1 =
        .error (.malformed "an aggregate length overflows") := by
  constructor
  · have hlen : (List.replicate (maxLine + 1) (97 : UInt8)).length = maxLine + 1 :=
      length_replicate
    generalize List.replicate (maxLine + 1) (97 : UInt8) = text at hlen
    obtain ⟨bytes, left, hencodes, hleft, hvalue⟩ := long_error_cut hlen
    refine ⟨text, bytes, left, hencodes, hleft, hvalue, fun hall => ?_⟩
    have hcut := congrArg List.length hall
    rw [length_take] at hcut
    omega
  · have hone : Encodes noFloats [.integer 1] [58, 49, 13, 10] := by
      have htext : IntegerText (decimal [49]) [49] := .plain (by decide) (by decide)
      exact .scalar (.integer htext) ⟨by decide, by decide⟩ .nil
    have htwo : Counts 2 [50] := ⟨by decide, by decide⟩
    have harray : Encodes noFloats [.aggregate .array [.integer 1, .integer 1]]
        [42, 50, 13, 10, 58, 49, 13, 10, 58, 49, 13, 10] := by
      have hpair : Encodes noFloats [.integer 1, .integer 1] [58, 49, 13, 10, 58, 49, 13, 10] := by
        have htext : IntegerText (decimal [49]) [49] := .plain (by decide) (by decide)
        exact .scalar (.integer htext) ⟨by decide, by decide⟩ hone
      refine .aggregate htwo ?_ rfl hpair .nil
      exact ⟨by decide, by decide⟩
    obtain ⟨others, hothers, hlen⟩ : ∃ others : List (Tree Unit × Bytes),
        (∀ p ∈ others, p = (.integer 1, [58, 49, 13, 10])) ∧ others.length = u64Max - 1 :=
      ⟨List.replicate (u64Max - 1) _, fun p hp => eq_of_mem_replicate hp,
        length_replicate⟩
    refine ⟨(.aggregate .array [.integer 1, .integer 1],
      [42, 50, 13, 10, 58, 49, 13, 10, 58, 49, 13, 10]) :: others, ?_, ?_, ?_⟩
    · intro p hp
      rcases mem_cons.mp hp with rfl | hp
      · exact harray
      · rw [hothers p hp]
        exact hone
    · have hpos : 0 < u64Max := by decide
      rw [length_cons, hlen]
      omega
    · exact count_overflows ([58, 49, 13, 10, 58, 49, 13, 10] ++ streamOf others)

end Oxyn.Resp
