/-
# `Oxyn.Lib.Brackets` — lists cut at separators outside brackets

A list is cut in one pass: a counter says how deep in brackets the pass is, and an element that
separates ends a piece where the counter is zero (`pieces`).
-/
import Mathlib.Data.List.Basic

namespace Brackets

open List

/-- What tells the elements apart: none of them is two of these. -/
structure Marks (α : Type) where
  opens : α → Bool
  closes : α → Bool
  separates : α → Bool
  closes_of_opens : ∀ x, opens x = true → closes x = false
  separates_of_opens : ∀ x, opens x = true → separates x = false
  separates_of_closes : ∀ x, closes x = true → separates x = false

variable {α : Type}

/-! ## Cutting -/

/-- The counter behind an element. -/
def Marks.after (m : Marks α) (depth : Nat) (x : α) : Nat :=
  if m.opens x then depth + 1 else if m.closes x then depth - 1 else depth

/-- An element more in front of the first piece. -/
def push (x : α) : List (List α) → List (List α)
  | [] => [[x]]
  | piece :: rest => (x :: piece) :: rest

def pieces (m : Marks α) : Nat → List α → List (List α)
  | _, [] => [[]]
  | depth, x :: xs =>
    if m.after depth x = 0 ∧ m.separates x then [] :: pieces m (m.after depth x) xs
    else push x (pieces m (m.after depth x) xs)

def attach (front : List α) (ps : List (List α)) : List (List α) := front.foldr push ps

theorem attach_cons_piece (front piece : List α) (rest : List (List α)) :
    attach front (piece :: rest) = (front ++ piece) :: rest := by
  induction front with
  | nil => rfl
  | cons x front ih =>
    show push x (attach front (piece :: rest)) = _
    rw [ih]
    rfl

/-! ## Lists whose brackets are closed -/

/-- Each bracket has its partner, and the elements outside brackets are plain: `top` at the top, any
inside. -/
inductive Balanced (m : Marks α) (top : α → Prop) : Bool → List α → Prop
  | nil (inside : Bool) : Balanced m top inside []
  | plain {inside : Bool} {x : α} {xs : List α} : m.opens x = false → m.closes x = false →
      (inside = false → top x) → Balanced m top inside xs → Balanced m top inside (x :: xs)
  | group {inside : Bool} {x y : α} {xs ys : List α} : m.opens x = true →
      Balanced m top true xs → m.closes y = true → Balanced m top inside ys →
        Balanced m top inside (x :: (xs ++ y :: ys))

inductive Listed (m : Marks α) (top : α → Prop) : List (List α) → List α → Prop
  | one {item : List α} : Balanced m top false item → Listed m top [item] item
  | cons {item l : List α} {comma : α} {items : List (List α)} : Balanced m top false item →
      m.separates comma = true → Listed m top items l →
        Listed m top (item :: items) (item ++ comma :: l)

variable {m : Marks α} {top : α → Prop}

theorem Marks.opens_of_separates {x : α} (h : m.separates x = true) : m.opens x = false := by
  cases hopen : m.opens x with
  | false => rfl
  | true => exact absurd (m.separates_of_opens x hopen) (by rw [h]; exact Bool.noConfusion)

theorem Marks.closes_of_separates {x : α} (h : m.separates x = true) : m.closes x = false := by
  cases hclose : m.closes x with
  | false => rfl
  | true => exact absurd (m.separates_of_closes x hclose) (by rw [h]; exact Bool.noConfusion)

variable {inside : Bool} {xs : List α}

theorem Balanced.pieces_append (h : Balanced m top inside xs)
    (htop : ∀ x, top x → m.separates x = false) (rest : List α) {depth : Nat}
    (hdepth : inside = true → 0 < depth) :
    pieces m depth (xs ++ rest) = attach xs (pieces m depth rest) := by
  induction h generalizing rest depth with
  | nil => rfl
  | @plain inside x xs hopen hclose hplain _ ih =>
    have hafter : m.after depth x = depth := by
      rw [Marks.after, hopen, hclose, if_neg Bool.false_ne_true, if_neg Bool.false_ne_true]
    have hkeep : ¬ (m.after depth x = 0 ∧ m.separates x = true) := by
      rintro ⟨hzero, hsep⟩
      cases inside with
      | true => exact absurd hzero (by rw [hafter]; exact Nat.ne_of_gt (hdepth rfl))
      | false => exact Bool.false_ne_true ((htop x (hplain rfl)).symm.trans hsep)
    rw [cons_append, pieces, if_neg hkeep, hafter, ih rest hdepth]
    rfl
  | @group inside x y xs ys hopen _ hclose _ ihin ihout =>
    have hdown : m.after (depth + 1) y = depth := by
      have hnot : m.opens y = false := by
        cases hy : m.opens y with
        | false => rfl
        | true =>
          exact absurd (m.closes_of_opens y hy) (by rw [hclose]; exact Bool.noConfusion)
      rw [Marks.after, hnot, hclose, if_neg Bool.false_ne_true, if_pos rfl, Nat.add_sub_cancel]
    have hup : m.after depth x = depth + 1 := by
      rw [Marks.after, hopen, if_pos rfl]
    have hx : ¬ (m.after depth x = 0 ∧ m.separates x = true) := fun h =>
      absurd h.1 (by rw [hup]; exact Nat.succ_ne_zero depth)
    have hy : ¬ (m.after (depth + 1) y = 0 ∧ m.separates y = true) := fun h =>
      absurd (m.separates_of_closes y hclose) (by rw [h.2]; exact Bool.noConfusion)
    rw [cons_append, append_assoc, cons_append, pieces, if_neg hx, hup,
      ihin (y :: (ys ++ rest)) fun _ => Nat.succ_pos depth, pieces, if_neg hy, hdown,
      ihout rest hdepth]
    simp only [attach, foldr_cons, foldr_append]

variable {items : List (List α)}

theorem pieces_of_listed {l : List α} (h : Listed m top items l)
    (htop : ∀ x, top x → m.separates x = false) : pieces m 0 l = items := by
  induction h with
  | @one item hitem =>
    have hcut : pieces m 0 (item ++ []) = _ :=
      hitem.pieces_append htop [] fun h => Bool.noConfusion h
    rw [append_nil] at hcut
    rw [hcut, pieces, attach_cons_piece, append_nil]
  | @cons item l comma items hitem hcomma _ ih =>
    have hafter : m.after 0 comma = 0 := by
      rw [Marks.after, m.opens_of_separates hcomma, m.closes_of_separates hcomma,
        if_neg Bool.false_ne_true, if_neg Bool.false_ne_true]
    rw [hitem.pieces_append htop _ fun h => Bool.noConfusion h, pieces,
      if_pos ⟨hafter, hcomma⟩, hafter, ih, attach_cons_piece, append_nil]

/-- What is neither a bracket nor a separator needs no partner. -/
theorem balanced_of_forall
    (h : ∀ x ∈ xs, m.opens x = false ∧ m.closes x = false ∧ top x) : Balanced m top inside xs := by
  induction xs with
  | nil => exact .nil inside
  | cons x xs ih =>
    obtain ⟨hopen, hclose, hx⟩ := h x mem_cons_self
    exact .plain hopen hclose (fun _ => hx) (ih fun y hy => h y (mem_cons_of_mem _ hy))

variable {item l : List α}

/-- The elements before some item: they are cut into the items before it, whatever follows. -/
theorem Listed.front {items before after : List (List α)}
    (h : Listed m top items l) (htop : ∀ x, top x → m.separates x = false)
    (hitems : items = before ++ item :: after) :
    ∃ front back, l = front ++ (item ++ back) ∧
      (∀ z, pieces m 0 (front ++ z) = before ++ pieces m 0 z) ∧
      ∀ x ∈ front, (∃ other ∈ before, x ∈ other) ∨ m.separates x = true := by
  induction h generalizing before with
  | @one only honly =>
    cases before with
    | nil =>
      obtain ⟨rfl, -⟩ := List.cons.inj hitems
      exact ⟨[], [], (append_nil _).symm, fun _ => rfl, fun _ h => nomatch h⟩
    | cons first before => cases before <;> cases hitems
  | @cons first l comma items hfirst hcomma _ ih =>
    cases before with
    | nil =>
      obtain ⟨rfl, -⟩ := List.cons.inj hitems
      exact ⟨[], comma :: l, rfl, fun _ => rfl, fun _ h => nomatch h⟩
    | cons other before =>
      obtain ⟨rfl, hothers⟩ := List.cons.inj hitems
      obtain ⟨front, back, rfl, hcut, hfront⟩ := ih hothers
      have hafter : m.after 0 comma = 0 := by
        rw [Marks.after, m.opens_of_separates hcomma, m.closes_of_separates hcomma,
          if_neg Bool.false_ne_true, if_neg Bool.false_ne_true]
      refine ⟨first ++ comma :: front, back, by simp, fun z => ?_, fun x hx => ?_⟩
      · rw [append_assoc, cons_append,
          hfirst.pieces_append htop _ fun h => Bool.noConfusion h, pieces,
          if_pos ⟨hafter, hcomma⟩, hafter, hcut, attach_cons_piece, append_nil]
        rfl
      · rcases mem_append.mp hx with hx | hx
        · exact .inl ⟨first, mem_cons_self, hx⟩
        · rcases mem_cons.mp hx with rfl | hx
          · exact .inr hcomma
          · exact (hfront x hx).imp_left fun ⟨other, hmem, hx⟩ =>
              ⟨other, mem_cons_of_mem _ hmem, hx⟩

theorem Balanced.cons_inv {x : α} (h : Balanced m top inside (x :: xs)) (hx : m.opens x = false) :
    (inside = false → top x) ∧ Balanced m top inside xs := by
  cases h with
  | plain _ _ hplain hrest => exact ⟨hplain, hrest⟩
  | group hopen => exact absurd (hx.symm.trans hopen) Bool.false_ne_true

theorem Balanced.top_of_plain {xs ys : List α} (h : Balanced m top false (xs ++ ys))
    (hxs : ∀ x ∈ xs, m.opens x = false) : ∀ x ∈ xs, top x := by
  induction xs with
  | nil => exact fun _ h => nomatch h
  | cons x xs ih =>
    obtain ⟨hx, hrest⟩ := Balanced.cons_inv h (hxs x mem_cons_self)
    intro y hy
    rcases mem_cons.mp hy with rfl | hy
    · exact hx rfl
    · exact ih hrest (fun z hz => hxs z (mem_cons_of_mem _ hz)) y hy

/-- The first item stands first. -/
theorem Listed.head (h : Listed m top (item :: items) l) : ∃ back, l = item ++ back := by
  cases h with
  | one => exact ⟨[], (append_nil _).symm⟩
  | cons _ _ _ => exact ⟨_, rfl⟩

theorem Listed.balanced
    (h : Listed m top items l) (hitem : item ∈ items) : Balanced m top false item := by
  induction h with
  | one hone => exact mem_singleton.mp hitem ▸ hone
  | cons hfirst _ _ ih =>
    rcases mem_cons.mp hitem with rfl | hitem
    · exact hfirst
    · exact ih hitem

theorem pieces_ne_nil (depth : Nat) (l : List α) : pieces m depth l ≠ [] := by
  cases l with
  | nil => exact cons_ne_nil _ _
  | cons x l =>
    rw [pieces]
    split
    next => exact cons_ne_nil _ _
    next =>
      cases pieces m (m.after depth x) l with
      | nil | cons first rest => exact cons_ne_nil _ _

theorem pieces_append_cases (depth : Nat) (l r : List α) :
    ∃ p ps q qs, pieces m depth l = p :: ps ∧ pieces m depth (l ++ r) = q :: qs ∧ p <+: q ∧
      ∀ piece ∈ ps, ∃ longer ∈ qs, piece <+: longer := by
  induction l generalizing depth with
  | nil =>
    cases hr : pieces m depth r with
    | nil => exact absurd hr (pieces_ne_nil depth r)
    | cons q qs => exact ⟨[], [], q, qs, rfl, hr, nil_prefix, fun _ h => nomatch h⟩
  | cons x l ih =>
    obtain ⟨p, ps, q, qs, hp, hq, hpq, hrest⟩ := ih (m.after depth x)
    rw [cons_append, pieces, pieces, hp, hq]
    split
    next =>
      refine ⟨[], p :: ps, [], q :: qs, rfl, rfl, nil_prefix, fun piece hpiece => ?_⟩
      rcases mem_cons.mp hpiece with rfl | hpiece
      · exact ⟨q, mem_cons_self, hpq⟩
      · obtain ⟨longer, hmem, hpre⟩ := hrest piece hpiece
        exact ⟨longer, mem_cons_of_mem _ hmem, hpre⟩
    next => exact ⟨x :: p, ps, x :: q, qs, rfl, rfl, cons_prefix_cons.mpr ⟨rfl, hpq⟩, hrest⟩

theorem prefix_of_mem_pieces {depth : Nat} {l r piece : List α}
    (h : piece ∈ pieces m depth l) : ∃ longer ∈ pieces m depth (l ++ r), piece <+: longer := by
  obtain ⟨p, ps, q, qs, hp, hq, hpq, hrest⟩ := pieces_append_cases (m := m) depth l r
  rw [hp] at h
  rw [hq]
  rcases mem_cons.mp h with rfl | h
  · exact ⟨q, mem_cons_self, hpq⟩
  · obtain ⟨longer, hmem, hpre⟩ := hrest piece h
    exact ⟨longer, mem_cons_of_mem _ hmem, hpre⟩

end Brackets
