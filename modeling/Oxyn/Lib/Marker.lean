/-
# `Oxyn.Lib.Marker` — a marker recognised on a view of a text, and replaced in the text

A view passes some symbols over and folds the others.
-/
import Mathlib.Algebra.Order.Ring.Int
import Mathlib.Data.List.Infix
import Mathlib.Data.Nat.Count

namespace Marker

open List

variable {α β : Type}

/-- How a text is read: some symbols are passed over, the others folded. -/
structure View (α β : Type) where
  skips : α → Bool
  fold : α → β

namespace View

variable (v : View α β)

def read (s : List α) : List β := (s.filter fun c => !v.skips c).map v.fold

def Holds (marker : List β) (s : List α) : Prop := ∃ part, part <:+: s ∧ v.read part = marker

variable [DecidableEq β]

/-- How many symbols of a text read as the marker, from its beginning up to the marker's last. -/
def matched : List β → List α → Option Nat
  | [], _ => some 0
  | _ :: _, [] => none
  | m :: ms, c :: s =>
    if v.skips c then (matched (m :: ms) s).map (· + 1)
    else if v.fold c = m then (matched ms s).map (· + 1)
    else none

/-- The text with the substitute where the marker was, the symbols still to step over being
counted down. -/
def replaceFrom (marker : List β) (sub : List α) : List α → Nat → List α
  | [], _ => []
  | _ :: s, n + 1 => replaceFrom marker sub s n
  | c :: s, 0 =>
    match v.matched marker (c :: s) with
    | some n => sub ++ replaceFrom marker sub s (n - 1)
    | none => c :: replaceFrom marker sub s 0

def replace (marker : List β) (sub : List α) (s : List α) : List α :=
  v.replaceFrom marker sub s 0

end View

/-- No end of the one lies over a beginning of the other, and neither holds the other. -/
def Clear [DecidableEq β] (marker sub : List β) : Prop :=
  (∀ a ∈ marker.tails, a ≠ [] → ¬ a <+: sub ∧ ¬ sub <+: a) ∧
    ∀ b ∈ sub.tails, b ≠ [] → ¬ marker <+: b ∧ ¬ b <+: marker

instance [DecidableEq β] (marker sub : List β) : Decidable (Clear marker sub) :=
  inferInstanceAs (Decidable (_ ∧ _))

/-! ## What is matched -/

variable {v : View α β} {marker : List β} {sub s t : List α}

variable {c : α}

theorem read_cons_of_skips (h : v.skips c = true) (s : List α) :
    v.read (c :: s) = v.read s := by
  unfold View.read
  rw [filter_cons_of_neg (by simp [h])]

theorem read_cons (h : v.skips c = false) (s : List α) :
    v.read (c :: s) = v.fold c :: v.read s := by
  unfold View.read
  rw [filter_cons_of_pos (by simp [h]), map_cons]

variable [DecidableEq β]

theorem matched_of_read {part : List α} (h : v.read part = marker) (t : List α) :
    (v.matched marker (part ++ t)).isSome := by
  induction part generalizing marker with
  | nil =>
    obtain rfl : [] = marker := h
    rw [View.matched]
    rfl
  | cons c part ih =>
    cases marker with
    | nil =>
      rw [View.matched]
      rfl
    | cons m ms =>
      rw [cons_append, View.matched]
      cases hc : v.skips c with
      | true =>
        rw [read_cons_of_skips hc] at h
        simpa using ih h
      | false =>
        rw [read_cons hc] at h
        obtain ⟨hm, hms⟩ := List.cons.inj h
        rw [if_neg Bool.false_ne_true, if_pos hm, Option.isSome_map]
        exact ih hms

theorem exists_read_of_matched (h : (v.matched marker s).isSome) :
    ∃ part, part <+: s ∧ v.read part = marker := by
  induction s generalizing marker with
  | nil =>
    cases marker with
    | nil => exact ⟨[], nil_prefix, rfl⟩
    | cons m ms => cases h
  | cons c s ih =>
    cases marker with
    | nil => exact ⟨[], nil_prefix, rfl⟩
    | cons m ms =>
      rw [View.matched] at h
      cases hc : v.skips c with
      | true =>
        rw [if_pos hc, Option.isSome_map] at h
        obtain ⟨part, hpart, hread⟩ := ih h
        exact ⟨c :: part, (prefix_cons_inj c).mpr hpart,
          (read_cons_of_skips hc part).trans hread⟩
      | false =>
        rw [if_neg (hc ▸ Bool.false_ne_true)] at h
        split at h
        next hm =>
          rw [Option.isSome_map] at h
          obtain ⟨part, hpart, hread⟩ := ih h
          refine ⟨c :: part, (prefix_cons_inj c).mpr hpart, ?_⟩
          rw [read_cons hc, hread, hm]
        next => cases h

/-- The marker is held exactly if it is matched at the beginning of an end of the text. -/
theorem holds_iff : v.Holds marker s ↔ ∃ t, t <:+ s ∧ (v.matched marker t).isSome := by
  constructor
  · rintro ⟨part, hpart, hread⟩
    obtain ⟨t, ⟨behind, rfl⟩, hsuffix⟩ := infix_iff_prefix_suffix.mp hpart
    exact ⟨part ++ behind, hsuffix, matched_of_read hread behind⟩
  · rintro ⟨t, hsuffix, hmatched⟩
    obtain ⟨part, hprefix, hread⟩ := exists_read_of_matched hmatched
    exact ⟨part, hprefix.isInfix.trans hsuffix.isInfix, hread⟩

theorem prefix_of_matched (hsub : ∀ c ∈ sub, v.skips c = false)
    (h : (v.matched marker (sub ++ t)).isSome) :
    marker <+: sub.map v.fold ∨ sub.map v.fold <+: marker := by
  induction sub generalizing marker with
  | nil => exact .inr nil_prefix
  | cons c sub ih =>
    cases marker with
    | nil => exact .inl nil_prefix
    | cons m ms =>
      have hc := hsub c mem_cons_self
      rw [cons_append, View.matched, if_neg (hc ▸ Bool.false_ne_true)] at h
      split at h
      next hm =>
        rw [Option.isSome_map] at h
        rw [map_cons, hm, prefix_cons_inj, prefix_cons_inj]
        exact ih (fun d hd => hsub d (mem_cons_of_mem c hd)) h
      next => cases h

/-! ## What is replaced -/

theorem replaceFrom_eq (marker : List β) (sub s : List α) (n : Nat) :
    v.replaceFrom marker sub s n = v.replace marker sub (s.drop n) := by
  induction s generalizing n with
  | nil => rw [drop_nil, View.replace, View.replaceFrom, View.replaceFrom]
  | cons c s ih =>
    cases n with
    | zero => rfl
    | succ n => rw [View.replaceFrom, ih, drop_succ_cons]

theorem replace_of_none (h : v.matched marker (c :: s) = none) :
    v.replace marker sub (c :: s) = c :: v.replace marker sub s := by
  rw [View.replace, View.replaceFrom, h]
  rfl

theorem replace_of_matched {n : Nat} (h : v.matched marker (c :: s) = some n) :
    v.replace marker sub (c :: s) = sub ++ v.replace marker sub (s.drop (n - 1)) := by
  rw [View.replace, View.replaceFrom, h]
  exact congrArg (sub ++ ·) (replaceFrom_eq marker sub s (n - 1))

theorem replace_eq_self (h : ¬ v.Holds marker s) : v.replace marker sub s = s := by
  induction s with
  | nil => rfl
  | cons c s ih =>
    have hnone : v.matched marker (c :: s) = none := by
      rw [← Option.not_isSome_iff_eq_none]
      exact fun hsome => h (holds_iff.mpr ⟨c :: s, suffix_rfl, hsome⟩)
    have hrest : ¬ v.Holds marker s := fun ⟨part, hpart, hread⟩ =>
      h ⟨part, hpart.trans (suffix_cons c s).isInfix, hread⟩
    rw [replace_of_none hnone, ih hrest]

theorem matched_of_replace (hsub : ∀ c ∈ sub, v.skips c = false)
    (hclear : Clear marker (sub.map v.fold)) {a : List β} (ha : a <:+ marker) (hne : a ≠ [])
    (h : (v.matched a (v.replace marker sub s)).isSome) : (v.matched a s).isSome := by
  induction s generalizing a with
  | nil => exact h
  | cons c s ih =>
    cases hmatched : v.matched marker (c :: s) with
    | some n =>
      -- it would lie over the substitute
      rw [replace_of_matched hmatched] at h
      obtain ⟨hover, hunder⟩ := hclear.1 a ((mem_tails _ _).mpr ha) hne
      exact ((prefix_of_matched hsub h).elim hover hunder).elim
    | none =>
      rw [replace_of_none hmatched] at h
      cases a with
      | nil => exact absurd rfl hne
      | cons m ms =>
        rw [View.matched] at h ⊢
        split at h
        next hskips =>
          rw [if_pos hskips, Option.isSome_map]
          rw [Option.isSome_map] at h
          exact ih ha hne h
        next hskips =>
          rw [if_neg hskips]
          split at h
          next hm =>
            rw [if_pos hm, Option.isSome_map]
            rw [Option.isSome_map] at h
            cases ms with
            | nil =>
              rw [View.matched]
              rfl
            | cons m' ms =>
              exact ih ((suffix_cons m (m' :: ms)).trans ha) (cons_ne_nil _ _) h
          next => cases h

theorem not_holds_replace (hsub : ∀ c ∈ sub, v.skips c = false) (hmarker : marker ≠ [])
    (hclear : Clear marker (sub.map v.fold)) (s : List α) :
    ¬ v.Holds marker (v.replace marker sub s) := by
  rw [holds_iff]
  rintro ⟨t, hsuffix, hsome⟩
  induction hn : s.length using Nat.strongRecOn generalizing s t with
  | _ n ih =>
    cases s with
    | nil =>
      obtain rfl := suffix_nil.mp hsuffix
      cases marker with
      | nil => exact hmarker rfl
      | cons m ms => cases hsome
    | cons c s =>
      rw [length_cons] at hn
      cases hmatched : v.matched marker (c :: s) with
      | none =>
        have hkept : v.replace marker sub (c :: s) = c :: v.replace marker sub s :=
          replace_of_none hmatched
        rw [hkept] at hsuffix
        rcases suffix_cons_iff.mp hsuffix with rfl | hlater
        · rw [← hkept] at hsome
          have hthere := matched_of_replace hsub hclear suffix_rfl hmarker hsome
          rw [hmatched] at hthere
          cases hthere
        · exact ih s.length (by omega) s t hlater hsome rfl
      | some k =>
        rw [replace_of_matched hmatched] at hsuffix
        have hlt : (s.drop (k - 1)).length < n := by
          rw [length_drop]
          omega
        rcases suffix_or_suffix_of_suffix hsuffix (suffix_append _ _) with
          hlater | ⟨b, rfl⟩
        · exact ih _ hlt _ t hlater hsome rfl
        · -- it begins in the substitute, or behind it
          have hb : b <:+ sub := suffix_append_self_iff.mp hsuffix
          cases b with
          | nil => exact ih _ hlt _ _ suffix_rfl hsome rfl
          | cons d b =>
            have hskips : ∀ c ∈ d :: b, v.skips c = false := fun c hc =>
              hsub c (hb.subset hc)
            obtain ⟨hover, hunder⟩ := hclear.2 ((d :: b).map v.fold)
              ((mem_tails _ _).mpr (hb.map v.fold)) (cons_ne_nil _ _)
            exact (prefix_of_matched hskips hsome).elim hover hunder

theorem mem_replace (h : c ∈ v.replace marker sub s) : c ∈ sub ∨ c ∈ s := by
  induction hn : s.length using Nat.strongRecOn generalizing s with
  | _ n ih =>
    cases s with
    | nil => exact .inr h
    | cons d s =>
      rw [length_cons] at hn
      cases hmatched : v.matched marker (d :: s) with
      | none =>
        rw [replace_of_none hmatched] at h
        rcases mem_cons.mp h with rfl | h
        · exact .inr mem_cons_self
        · exact (ih s.length (by omega) h rfl).imp_right (mem_cons_of_mem d)
      | some k =>
        rw [replace_of_matched hmatched] at h
        rcases mem_append.mp h with h | h
        · exact .inl h
        · have hlt : (s.drop (k - 1)).length < n := by
            rw [length_drop]
            omega
          exact (ih _ hlt h rfl).imp_right fun hmem =>
            mem_cons_of_mem d (mem_of_mem_drop hmem)

/-! ## Where a word stands -/

omit [DecidableEq β]

variable {p a b : List α}

theorem prefix_of_prefix_append {x : α} (hx : x ∉ p) (h : p <+: a ++ x :: b) :
    p <+: a := by
  induction a generalizing p with
  | nil =>
    cases p with
    | nil => exact prefix_rfl
    | cons y p =>
      rw [nil_append, cons_prefix_cons] at h
      exact absurd (h.1 ▸ mem_cons_self) hx
  | cons c a ih =>
    cases p with
    | nil => exact nil_prefix
    | cons y p =>
      rw [cons_append, cons_prefix_cons] at h
      exact cons_prefix_cons.mpr
        ⟨h.1, ih (fun hmem => hx (mem_cons_of_mem y hmem)) h.2⟩

/-- A word without the symbol stands wholly before the symbol or wholly behind it. -/
theorem prefix_drop_append {x : α} {i : Nat} (hp : p ≠ []) (hx : x ∉ p)
    (h : p <+: (a ++ x :: b).drop i) :
    (i < a.length ∧ p <+: a.drop i) ∨ (a.length < i ∧ p <+: b.drop (i - (a.length + 1))) := by
  rcases Nat.lt_or_ge a.length i with hi | hi
  · refine .inr ⟨hi, ?_⟩
    have hsplit : (a ++ x :: b).drop i = b.drop (i - (a.length + 1)) := by
      rw [drop_append, drop_eq_nil_of_le hi.le, nil_append,
        drop_cons (Nat.sub_pos_of_lt hi), Nat.sub_sub]
    rwa [hsplit] at h
  · rw [drop_append_of_le_length hi] at h
    have hbefore := prefix_of_prefix_append hx h
    refine .inl ⟨lt_of_le_of_ne hi fun hlast => hp ?_, hbefore⟩
    rw [hlast, drop_length] at hbefore
    exact prefix_nil.mp hbefore

/-- A word does not begin before the first place of its first symbol. -/
theorem infix_of_infix_append {x : α} (hx : x ∉ a) (h : x :: p <:+: a ++ b) :
    x :: p <:+: b := by
  induction a with
  | nil => exact h
  | cons c a ih =>
    rw [cons_append, infix_cons_iff, cons_prefix_cons] at h
    rcases h with ⟨rfl, -⟩ | hlater
    · exact absurd mem_cons_self hx
    · exact ih (fun hmem => hx (mem_cons_of_mem c hmem)) hlater

/-- A pattern of places cannot come again a little later, when all that follows it is a copy of
its own places but the first: there would be a place too few. -/
theorem false_of_shift {P Q : Nat → Prop} [DecidablePred P] [DecidablePred Q] {n k s : Nat}
    (hk : 0 < k) (hkn : k ≤ n) (hfirst : Q 0) (hsame : ∀ i < n, P i ↔ Q i)
    (hshift : ∀ i < n, Q i → P (k + i))
    (hlater : ∀ j < k, P (n + j) → s ≤ j ∧ 0 < j - s ∧ Q (j - s)) :
    False := by
  have hcopy : Nat.count (fun j => P (n + j)) k ≤ Nat.count (fun i => 0 < i ∧ Q i) k := by
    calc Nat.count (fun j => P (n + j)) k
        ≤ Nat.count (fun j => s ≤ j ∧ 0 < j - s ∧ Q (j - s)) k := Nat.count_mono_left hlater
      _ ≤ Nat.count (fun j => s ≤ j ∧ 0 < j - s ∧ Q (j - s)) (s + k) :=
          Nat.count_monotone _ (Nat.le_add_left k s)
      _ ≤ Nat.count (fun i => 0 < i ∧ Q i) k := by
          rw [Nat.count_add, Nat.count_iff_forall_not.mpr fun j hj h => absurd h.1 (by omega),
            Nat.zero_add]
          exact Nat.count_mono_left fun j _ h => (Nat.add_sub_cancel_left s j) ▸ h.2
  have hless : Nat.count (fun i => 0 < i ∧ Q i) k < Nat.count Q k := by
    obtain ⟨k, rfl⟩ : ∃ k', k = k' + 1 := ⟨k - 1, by omega⟩
    rw [Nat.count_succ', Nat.count_succ', if_neg fun h => absurd h.1 (Nat.lt_irrefl 0),
      if_pos hfirst, Nat.add_zero, Nat.lt_succ_iff]
    exact Nat.count_mono_left fun j _ h => h.2
  have hbefore : Nat.count P k = Nat.count Q k :=
    le_antisymm (Nat.count_mono_left fun i hi => (hsame i (hi.trans_le hkn)).mp)
      (Nat.count_mono_left fun i hi => (hsame i (hi.trans_le hkn)).mpr)
  have hcalc : Nat.count Q k + Nat.count Q n ≤
      Nat.count Q n + Nat.count (fun i => 0 < i ∧ Q i) k := by
    calc Nat.count Q k + Nat.count Q n
        ≤ Nat.count P k + Nat.count (fun i => P (k + i)) n := by
          rw [hbefore]
          exact Nat.add_le_add_left (Nat.count_mono_left hshift) _
      _ = Nat.count P n + Nat.count (fun j => P (n + j)) k := by
          rw [← Nat.count_add, ← Nat.count_add, Nat.add_comm]
      _ ≤ Nat.count Q n + Nat.count (fun i => 0 < i ∧ Q i) k :=
          Nat.add_le_add (Nat.count_mono_left fun i hi => (hsame i hi).mp) hcopy
  omega

end Marker
