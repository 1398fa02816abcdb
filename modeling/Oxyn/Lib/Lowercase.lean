/-
# `Oxyn.Lib.Lowercase` — lower case, and the one letter that depends on what is around it

A text is lowered character by character by a table, but for the capital sigma, which is written
in another way at the end of a word.
-/
import Oxyn.Lib.Text

namespace Text

open List

/-- The Unicode tables that lowering reads; the two letters are ordinary ones. -/
structure CaseTables where
  lower : Char → Str
  ignorable : Char → Bool
  cased : Char → Bool
  ordinary : ∀ c ∈ ['a', 'b'], lower c = [c] ∧ ignorable c = false ∧ cased c = true

section

variable (tables : CaseTables)

/-- Behind characters that are ignored, is there one that has a case? -/
def ignorableThenCased (s : Str) : Bool :=
  match s.dropWhile tables.ignorable with
  | [] => false
  | c :: _ => tables.cased c

/-- The sigma between a text, read backwards, and another one. -/
def lowerSigma (before after : Str) : Char :=
  if ignorableThenCased tables before && !ignorableThenCased tables after then 'ς' else 'σ'

/-- A text lowered between a text, read backwards, and another one. -/
def lowerBetween (before : Str) : Str → Str → Str
  | [], _ => []
  | c :: rest, after =>
    (if c = 'Σ' then [lowerSigma tables before (rest ++ after)] else tables.lower c) ++
      lowerBetween (c :: before) rest after

/-- `str::to_lowercase`. -/
def toLowercase (s : Str) : Str := lowerBetween tables [] s []

end

/-- A capital sigma between two texts may be written in both ways, depending on what is around them.
-/
def Wavers (tables : CaseTables) (before after : Str) : Prop :=
  ((∀ c ∈ before, tables.ignorable c = true) ∧ ignorableThenCased tables after = false) ∨
    (ignorableThenCased tables before = true ∧ ∀ c ∈ after, tables.ignorable c = true)

/-- No capital sigma of a text may be written in both ways. -/
def Settled (tables : CaseTables) (s : Str) : Prop :=
  ∀ u v, s = u ++ 'Σ' :: v → ¬ Wavers tables u.reverse v

section

variable {tables : CaseTables} {s t u v w : Str}

/-! ## What is around a text -/

theorem ignorableThenCased_of_all (h : ∀ c ∈ s, tables.ignorable c = true) :
    ignorableThenCased tables (s ++ t) = ignorableThenCased tables t := by
  unfold ignorableThenCased
  rw [dropWhile_append_of_pos h]

theorem ignorableThenCased_of_not_all (h : ¬ ∀ c ∈ s, tables.ignorable c = true) :
    ignorableThenCased tables (s ++ t) = ignorableThenCased tables s := by
  unfold ignorableThenCased
  have hne : (s.dropWhile tables.ignorable).isEmpty = false := by
    rw [Bool.eq_false_iff]
    intro hnil
    exact h (dropWhile_eq_nil_iff.mp (List.isEmpty_iff.mp hnil))
  rw [dropWhile_append, hne, if_neg nofun]
  cases hdrop : s.dropWhile tables.ignorable with
  | nil => rw [hdrop] at hne; cases hne
  | cons c rest => rfl

theorem ignorableThenCased_of_ignorable (h : ∀ c ∈ s, tables.ignorable c = true) :
    ignorableThenCased tables s = false := by
  have heq := ignorableThenCased_of_all (t := []) h
  rw [append_nil] at heq
  exact heq

theorem lowerSigma_of_settled (h : ¬ Wavers tables s t) (front back : Str) :
    lowerSigma tables (s ++ front) (t ++ back) = lowerSigma tables s t := by
  unfold Wavers at h
  unfold lowerSigma
  by_cases hs : ∀ c ∈ s, tables.ignorable c = true
  · -- behind characters that are ignored, what is behind decides
    have hafter : ignorableThenCased tables t = true := by
      by_contra hfalse
      exact h (.inl ⟨hs, by simpa using hfalse⟩)
    have hnot : ¬ ∀ c ∈ t, tables.ignorable c = true := fun hall =>
      absurd (hafter.symm.trans (ignorableThenCased_of_ignorable hall)) nofun
    rw [ignorableThenCased_of_not_all hnot, hafter]
    simp
  · rw [ignorableThenCased_of_not_all hs]
    by_cases ht : ∀ c ∈ t, tables.ignorable c = true
    · have hbefore : ignorableThenCased tables s = false := by
        by_contra htrue
        exact h (.inr ⟨by simpa using htrue, ht⟩)
      rw [hbefore]
      simp
    · rw [ignorableThenCased_of_not_all ht]

/-! ## A text in another one -/

theorem lowerBetween_append (before after : Str) :
    lowerBetween tables before (u ++ v) after =
      lowerBetween tables before u (v ++ after) ++
        lowerBetween tables (u.reverse ++ before) v after := by
  induction u generalizing before with
  | nil => rfl
  | cons c u ih =>
    rw [cons_append, lowerBetween, lowerBetween, ih, append_assoc, append_assoc,
      reverse_cons, append_assoc, singleton_append]

theorem lowerBetween_settled (h : Settled tables (u ++ v)) (front back : Str) :
    lowerBetween tables (u.reverse ++ front) v back = lowerBetween tables u.reverse v [] := by
  induction v generalizing u with
  | nil => rfl
  | cons c v ih =>
    have hsame : u ++ c :: v = (u ++ [c]) ++ v := by rw [append_assoc]; rfl
    have hrest := ih (hsame ▸ h)
    rw [reverse_append, reverse_singleton, singleton_append,
      cons_append] at hrest
    rw [lowerBetween, lowerBetween, hrest, append_nil]
    by_cases hsigma : c = 'Σ'
    · rw [if_pos hsigma, if_pos hsigma, lowerSigma_of_settled (h u v (hsigma ▸ rfl))]
    · rw [if_neg hsigma, if_neg hsigma]

theorem toLowercase_holds (h : Settled tables s) (hst : s <:+: t) :
    toLowercase tables s <:+: toLowercase tables t := by
  obtain ⟨front, back, rfl⟩ := hst
  have hsettled := lowerBetween_settled (u := []) h front.reverse back
  unfold toLowercase
  rw [append_assoc, lowerBetween_append, lowerBetween_append, append_nil,
    append_nil, append_nil]
  refine ⟨lowerBetween tables [] front (s ++ back),
    lowerBetween tables (s.reverse ++ front.reverse) back [], ?_⟩
  rw [append_assoc]
  exact congrArg (_ ++ ·) (congrArg (· ++ _) hsettled.symm)

/-! ## A text in which the sigma is written in the other way -/

theorem length_lowerBetween (before before' after after' s : Str) :
    (lowerBetween tables before s after).length =
      (lowerBetween tables before' s after').length := by
  induction s generalizing before before' with
  | nil => rfl
  | cons c s ih =>
    rw [lowerBetween, lowerBetween, length_append, length_append,
      ih (c :: before) (c :: before')]
    split
    · rfl
    · rfl

theorem lowerBetween_ne {before before' after after' : Str}
    (h : lowerSigma tables (u.reverse ++ before) (v ++ after) ≠
      lowerSigma tables (u.reverse ++ before') (v ++ after')) :
    lowerBetween tables before (u ++ 'Σ' :: v) after ≠
      lowerBetween tables before' (u ++ 'Σ' :: v) after' := by
  intro heq
  rw [lowerBetween_append, lowerBetween_append] at heq
  obtain ⟨-, hrest⟩ := append_inj heq (length_lowerBetween ..)
  rw [lowerBetween, lowerBetween, if_pos rfl, if_pos rfl] at hrest
  exact h (List.cons.inj hrest).1

theorem eq_of_infix_concat {l : Str} {c : Char} (hlength : s.length = l.length)
    (h : s <:+: l ++ [c]) : s = l ∨ ∃ front, s = front ++ [c] := by
  obtain ⟨front, back, heq⟩ := h
  have hlen := congrArg List.length heq
  rw [length_append, length_append, length_append, length_singleton] at hlen
  rcases eq_nil_or_concat back with rfl | ⟨others, d, rfl⟩
  · rw [append_nil] at heq
    rcases eq_nil_or_concat s with rfl | ⟨init, d, rfl⟩
    · exact .inl (eq_nil_of_length_eq_zero hlength.symm).symm
    · rw [concat_eq_append] at heq ⊢
      rw [← append_assoc] at heq
      obtain ⟨-, hlast⟩ := append_inj' heq rfl
      exact .inr ⟨init, by rw [hlast]⟩
  · rw [concat_eq_append, length_append, length_singleton] at hlen
    rw [concat_eq_append, ← append_assoc] at heq
    obtain ⟨hfront, -⟩ := append_inj' heq rfl
    have hfront0 : front = [] := eq_nil_of_length_eq_zero (by omega)
    have hothers : others = [] := eq_nil_of_length_eq_zero (by omega)
    rw [hfront0, hothers, nil_append, append_nil] at hfront
    exact .inl hfront

theorem eq_of_infix_cons {l : Str} {c : Char} (hlength : s.length = l.length)
    (h : s <:+: c :: l) : s = l ∨ ∃ back, s = c :: back := by
  obtain ⟨front, back, heq⟩ := h
  have hlen := congrArg List.length heq
  rw [length_append, length_append, length_cons] at hlen
  cases front with
  | nil =>
    cases s with
    | nil => exact .inl (eq_nil_of_length_eq_zero hlength.symm).symm
    | cons d rest =>
      obtain ⟨rfl, -⟩ := List.cons.inj heq
      exact .inr ⟨rest, rfl⟩
  | cons d front =>
    rw [length_cons] at hlen
    obtain ⟨-, hrest⟩ := List.cons.inj heq
    have hfront : front = [] := eq_nil_of_length_eq_zero (by omega)
    have hback : back = [] := eq_nil_of_length_eq_zero (by omega)
    rw [hfront, hback] at hrest
    exact .inl ((append_nil s).symm.trans hrest)

theorem exists_ordinary (tables : CaseTables) (c : Char) :
    ∃ d, d ≠ c ∧ d ≠ 'Σ' ∧ tables.lower d = [d] ∧ tables.ignorable d = false ∧
      tables.cased d = true := by
  by_cases h : c = 'a'
  · exact ⟨'b', by rw [h]; decide, by decide, tables.ordinary 'b' (by decide)⟩
  · exact ⟨'a', Ne.symm h, by decide, tables.ordinary 'a' (by decide)⟩

theorem lowerBetween_ordinary {d : Char} (hne : d ≠ 'Σ') (h : tables.lower d = [d])
    (before after rest : Str) :
    lowerBetween tables before (d :: rest) after =
      d :: lowerBetween tables (d :: before) rest after := by
  rw [lowerBetween, if_neg hne, h]
  rfl

theorem ignorableThenCased_ordinary {d : Char} (hignorable : tables.ignorable d = false)
    (hcased : tables.cased d = true) (rest : Str) : ignorableThenCased tables (d :: rest) = true := by
  unfold ignorableThenCased
  rw [dropWhile_cons_of_neg (by rw [hignorable]; nofun)]
  exact hcased

/-- A text with a capital sigma that may be written in both ways is held by one whose lower case
does not hold its own. -/
theorem exists_not_held (h : ¬ Settled tables s) :
    ∃ t, s <:+: t ∧ ¬ toLowercase tables s <:+: toLowercase tables t := by
  unfold Settled at h
  simp only [not_forall, not_not] at h
  obtain ⟨u, v, hs, hwavers⟩ := h
  rcases hwavers with ⟨hall, hafter⟩ | ⟨hbefore, hall⟩
  · -- nothing with a case is in front of the sigma: put a letter there
    obtain ⟨d, hd, hsigma, hlower, hignorable, hcased⟩ :=
      exists_ordinary tables ((toLowercase tables s).headD 'c')
    refine ⟨d :: s, ⟨[d], [], by rw [append_nil]; rfl⟩, fun hheld => ?_⟩
    unfold toLowercase at hheld hd
    rw [lowerBetween_ordinary hsigma hlower] at hheld
    rcases eq_of_infix_cons (length_lowerBetween ..) hheld with heq | ⟨back, heq⟩
    · rw [hs] at heq
      refine lowerBetween_ne ?_ heq
      have hfront := ignorableThenCased_of_all (t := [d]) hall
      have hnone := ignorableThenCased_of_ignorable hall
      unfold lowerSigma
      rw [append_nil, append_nil, hnone, hfront, hafter,
        ignorableThenCased_ordinary hignorable hcased]
      decide
    · rw [heq] at hd
      exact hd rfl
  · -- a word ends with the sigma: put a letter behind it
    obtain ⟨d, hd, hsigma, hlower, hignorable, hcased⟩ :=
      exists_ordinary tables ((toLowercase tables s).getLastD 'c')
    refine ⟨s ++ [d], ⟨[], [d], rfl⟩, fun hheld => ?_⟩
    unfold toLowercase at hheld hd
    rw [lowerBetween_append, lowerBetween_ordinary hsigma hlower] at hheld
    rcases eq_of_infix_concat (length_lowerBetween ..) hheld with heq | ⟨front, heq⟩
    · rw [hs] at heq
      refine lowerBetween_ne ?_ heq
      have hback := ignorableThenCased_of_all (t := [d]) hall
      have hnone := ignorableThenCased_of_ignorable hall
      unfold lowerSigma
      rw [append_nil, append_nil, hbefore, hnone]
      have hsame : v ++ ([d] ++ []) = v ++ [d] := rfl
      rw [hsame, hback, ignorableThenCased_ordinary hignorable hcased]
      decide
    · rw [heq] at hd
      exact hd (by simp)

end

end Text
