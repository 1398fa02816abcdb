/-
# `Oxyn.Lib.Reading` — readers that only move forward

A scanner, seen from outside, answers one question: standing at a position, what is the next item
and where does it end?
-/
import Mathlib.Data.List.Basic

structure Item (τ : Type) where
  kind : τ
  start : Nat
  stop : Nat
deriving DecidableEq, Repr

/-- The item `n` positions further on. -/
def Item.shift {τ : Type} (n : Nat) (x : Item τ) : Item τ :=
  ⟨x.kind, x.start + n, x.stop + n⟩

/-- The position `i` is in the item. -/
def Item.Covers {τ : Type} (x : Item τ) (i : Nat) : Prop := x.start ≤ i ∧ i < x.stop

instance {τ : Type} (x : Item τ) (i : Nat) : Decidable (x.Covers i) :=
  inferInstanceAs (Decidable (_ ∧ _))

theorem eq_or_apart {α : Type} {R : α → α → Prop} {l : List α} (h : l.Pairwise R) {a b : α}
    (ha : a ∈ l) (hb : b ∈ l) : a = b ∨ R a b ∨ R b a := by
  induction l with
  | nil => simp at ha
  | cons c l ih =>
    obtain ⟨hc, hl⟩ := List.pairwise_cons.mp h
    rcases List.mem_cons.mp ha with hac | ha <;> rcases List.mem_cons.mp hb with hbc | hb
    · exact .inl (hac.trans hbc.symm)
    · exact .inr (.inl (hac ▸ hc b hb))
    · exact .inr (.inr (hbc ▸ hc a ha))
    · exact ih hl ha hb

/-- A reader of a text of `size` positions: each item is ahead of the position, not empty, and ends
inside the text. -/
structure Reader (τ : Type) where
  size : Nat
  next : Nat → Option (Item τ)
  forward : ∀ {i x}, next i = some x → i ≤ x.start ∧ x.start < x.stop ∧ x.stop ≤ size

namespace Reader

open List

variable {τ : Type} (r q : Reader τ)

/-- At most `fuel` items from `i` on. -/
def itemsFrom : Nat → Nat → List (Item τ)
  | 0, _ => []
  | fuel + 1, i =>
    match r.next i with
    | none => []
    | some x => x :: itemsFrom fuel x.stop

/-- Every item from `i` on.  Each one covers a position of its own, so there are
no more of them than positions left. -/
def items (i : Nat) : List (Item τ) := r.itemsFrom (r.size - i) i

/-- The positions the reader stands at when it starts from `i`. -/
inductive Reach (i : Nat) : Nat → Prop
  | refl : Reach i i
  | step {j : Nat} {x : Item τ} : Reach i j → r.next j = some x → Reach i x.stop

variable {r q}

theorem itemsFrom_eq_of_le {n m i : Nat} (hn : r.size - i ≤ n) (hm : r.size - i ≤ m) :
    r.itemsFrom n i = r.itemsFrom m i := by
  induction n generalizing m i with
  | zero =>
    cases m with
    | zero => rfl
    | succ m =>
      cases hx : r.next i with
      | none => simp [itemsFrom, hx]
      | some x => have := r.forward hx; omega
  | succ n ih =>
    cases hx : r.next i with
    | none => cases m <;> simp [itemsFrom, hx]
    | some x =>
      have hf := r.forward hx
      cases m with
      | zero => omega
      | succ m =>
        simp only [itemsFrom, hx]
        rw [ih (m := m) (by omega) (by omega)]

variable {i : Nat}

/-- The loop, one turn at a time. -/
theorem items_of_none (h : r.next i = none) : r.items i = [] := by
  unfold items
  cases r.size - i <;> simp [itemsFrom, h]

variable {x : Item τ}

theorem items_of_some (h : r.next i = some x) :
    r.items i = x :: r.items x.stop := by
  have hf := r.forward h
  obtain ⟨n, hn⟩ : ∃ n, r.size - i = n + 1 := ⟨r.size - i - 1, by omega⟩
  unfold items
  rw [hn]
  simp only [itemsFrom, h]
  rw [itemsFrom_eq_of_le (m := r.size - x.stop) (by omega) (Nat.le_refl _)]

/-- Induction along the reading: a property of a position may assume it of the
end of the item read there. -/
theorem reading_induction {motive : Nat → Prop}
    (h : ∀ i, (∀ x, r.next i = some x → motive x.stop) → motive i) (i : Nat) : motive i := by
  suffices ∀ n i, r.size - i ≤ n → motive i from this _ i (Nat.le_refl _)
  intro n
  induction n with
  | zero =>
    intro i hi
    exact h i fun x hx => by have := r.forward hx; omega
  | succ n ih =>
    intro i hi
    exact h i fun x hx => ih _ (by have := r.forward hx; omega)

namespace Reach

theorem le {i j : Nat} (h : r.Reach i j) : i ≤ j := by
  induction h with
  | refl => exact Nat.le_refl _
  | step _ hx ih => have := r.forward hx; omega

theorem trans {i j k : Nat} (hij : r.Reach i j) (hjk : r.Reach j k) : r.Reach i k := by
  induction hjk with
  | refl => exact hij
  | step _ hx ih => exact .step ih hx

theorem cases_head {i j : Nat} (h : r.Reach i j) :
    i = j ∨ ∃ x, r.next i = some x ∧ r.Reach x.stop j := by
  induction h with
  | refl => exact .inl rfl
  | step _ hx ih =>
    rcases ih with rfl | ⟨y, hy, hr⟩
    · exact .inr ⟨_, hx, .refl⟩
    · exact .inr ⟨y, hy, .step hr hx⟩

theorem cases_last {i j : Nat} (h : r.Reach i j) :
    i = j ∨ ∃ k x, r.Reach i k ∧ r.next k = some x ∧ j = x.stop := by
  cases h with
  | refl => exact .inl rfl
  | step hk hx => exact .inr ⟨_, _, hk, hx, rfl⟩

theorem head {i j : Nat} (hx : r.next i = some x) (h : r.Reach x.stop j) :
    r.Reach i j := trans (.step .refl hx) h

theorem linear {i j k : Nat} (hj : r.Reach i j) (hk : r.Reach i k) :
    r.Reach j k ∨ r.Reach k j := by
  induction hj with
  | refl => exact .inl hk
  | step _ hx ih =>
    rcases ih with h | h
    · rcases h.cases_head with rfl | ⟨y, hy, hr⟩
      · exact .inr (.step .refl hx)
      · obtain rfl := Option.some.inj (hx.symm.trans hy)
        exact .inl hr
    · exact .inr (.step h hx)

/-- No position where the reading stands is strictly inside an item it reads. -/
theorem not_inside {i j k : Nat} (hj : r.Reach i j) (hx : r.next j = some x)
    (hk : r.Reach i k) : k ≤ j ∨ x.stop ≤ k := by
  rcases linear hj hk with h | h
  · rcases h.cases_head with rfl | ⟨y, hy, hr⟩
    · exact .inl (Nat.le_refl _)
    · obtain rfl := Option.some.inj (hx.symm.trans hy)
      exact .inr hr.le
  · exact .inl h.le

end Reach

/-! ## The items and the positions -/

theorem mem_items :
    x ∈ r.items i ↔ ∃ j, r.Reach i j ∧ r.next j = some x := by
  constructor
  · induction i using reading_induction (r := r) with
    | h i ih =>
      intro hx
      cases hn : r.next i with
      | none => simp [items_of_none hn] at hx
      | some y =>
        rw [items_of_some hn, mem_cons] at hx
        rcases hx with rfl | hx
        · exact ⟨i, .refl, hn⟩
        · obtain ⟨j, hr, hj⟩ := ih y hn hx
          exact ⟨j, .head hn hr, hj⟩
  · rintro ⟨j, hr, hx⟩
    induction i using reading_induction (r := r) with
    | h i ih =>
      rcases hr.cases_head with rfl | ⟨y, hy, hr⟩
      · simp [items_of_some hx]
      · rw [items_of_some hy]
        exact mem_cons_of_mem _ (ih y hy hr)

theorem bounds_of_mem_items (h : x ∈ r.items i) :
    i ≤ x.start ∧ x.start < x.stop ∧ x.stop ≤ r.size := by
  obtain ⟨j, hr, hx⟩ := mem_items.mp h
  have := r.forward hx
  have := hr.le
  omega

theorem pairwise_items (i : Nat) :
    (r.items i).Pairwise (fun x y => x.stop ≤ y.start) := by
  induction i using reading_induction (r := r) with
  | h i ih =>
    cases hn : r.next i with
    | none => simp [items_of_none hn]
    | some x =>
      rw [items_of_some hn]
      exact pairwise_cons.mpr ⟨fun y hy => (bounds_of_mem_items hy).1, ih x hn⟩

/-- Up to a position where it stands, a reading is cut in two. -/
theorem items_of_reach {i j : Nat} (h : r.Reach i j) :
    ∃ front, r.items i = front ++ r.items j ∧ ∀ x ∈ front, i ≤ x.start ∧ x.stop ≤ j := by
  induction h with
  | refl => exact ⟨[], rfl, by simp⟩
  | @step j x hr hx ih =>
    obtain ⟨front, hfront, hle⟩ := ih
    have hf := r.forward hx
    have hij := hr.le
    refine ⟨front ++ [x], by rw [hfront, items_of_some hx]; simp, fun y hy => ?_⟩
    rcases mem_append.mp hy with hy | hy
    · have := hle y hy; omega
    · obtain rfl := mem_singleton.mp hy
      omega

theorem covered_or_between {P : Nat → Prop}
    (hsome : ∀ i x, r.next i = some x → ∀ k, i ≤ k → k < x.start → P k)
    (hnone : ∀ i, r.next i = none → ∀ k, i ≤ k → k < r.size → P k) (i : Nat) :
    ∀ k, i ≤ k → k < r.size → (∃ x ∈ r.items i, x.Covers k) ∨ P k := by
  induction i using reading_induction (r := r) with
  | h i ih =>
    intro k hik hk
    cases hx : r.next i with
    | none => exact .inr (hnone i hx k hik hk)
    | some x =>
      rw [items_of_some hx]
      by_cases hstart : k < x.start
      · exact .inr (hsome i x hx k hik hstart)
      · by_cases hstop : k < x.stop
        · exact .inl ⟨x, by simp, by omega, hstop⟩
        · refine (ih x hx k (by omega) hk).imp_left ?_
          rintro ⟨y, hy, hcov⟩
          exact ⟨y, by simp [hy], hcov⟩

theorem next_of_items {rest : List (Item τ)}
    (h : r.items i = x :: rest) : r.next i = some x ∧ rest = r.items x.stop := by
  cases hn : r.next i with
  | none => simp [items_of_none hn] at h
  | some y =>
    rw [items_of_some hn] at h
    obtain ⟨rfl, hrest⟩ := List.cons.inj h
    exact ⟨rfl, hrest.symm⟩

theorem reach_of_items {front rest : List (Item τ)} (h : r.items i = front ++ x :: rest) :
    ∃ j, r.Reach i j ∧ r.next j = some x ∧ rest = r.items x.stop := by
  induction front generalizing i with
  | nil => exact ⟨i, .refl, next_of_items h⟩
  | cons z front ih =>
    obtain ⟨hn, hrest⟩ := next_of_items h
    obtain ⟨j, hj, hx, hr⟩ := ih hrest.symm
    exact ⟨j, .head hn hj, hx, hr⟩

theorem exists_end (i : Nat) : ∃ k, r.Reach i k ∧ r.next k = none := by
  induction i using reading_induction (r := r) with
  | h i ih =>
    cases hx : r.next i with
    | none => exact ⟨i, .refl, hx⟩
    | some x =>
      obtain ⟨k, hk, hnone⟩ := ih x hx
      exact ⟨k, .head hx hk, hnone⟩

theorem items_of_next_eq {i j : Nat} (h : r.next i = r.next j) : r.items i = r.items j := by
  cases hj : r.next j with
  | none => rw [items_of_none hj, items_of_none (h.trans hj)]
  | some x => rw [items_of_some hj, items_of_some (h.trans hj)]

/-! ## Comparing readers -/

/-- Two readers that answer alike up to a position the first one stands at read the same items up to
there. -/
theorem items_congr_until {i k : Nat} (hk : r.Reach i k)
    (h : ∀ j x, r.Reach i j → r.next j = some x → x.stop ≤ k → q.next j = some x) :
    ∃ front, r.items i = front ++ r.items k ∧ q.items i = front ++ q.items k ∧
      q.Reach i k := by
  induction i using reading_induction (r := r) with
  | h i ih =>
    rcases hk.cases_head with rfl | ⟨x, hx, hr⟩
    · exact ⟨[], rfl, rfl, .refl⟩
    · have hx' := h i x .refl hx hr.le
      obtain ⟨front, h1, h2, h3⟩ := ih x hx hr
        (fun j y hj hy hle => h j y (.head hx hj) hy hle)
      exact ⟨x :: front, by simp [items_of_some hx, h1], by simp [items_of_some hx', h2],
        .head hx' h3⟩

/-- A reader of the same text moved by `n` reads the same items moved by `n`. -/
theorem items_shift {n k : Nat}
    (h : ∀ j, k ≤ j → q.next (j + n) = (r.next j).map (Item.shift n)) (hi : k ≤ i) :
    q.items (i + n) = (r.items i).map (Item.shift n) := by
  induction i using reading_induction (r := r) with
  | h i ih =>
    have hnext := h i hi
    cases hx : r.next i with
    | none =>
      rw [hx] at hnext
      rw [items_of_none hx, items_of_none hnext]
      rfl
    | some x =>
      have hf := r.forward hx
      rw [hx] at hnext
      rw [items_of_some hx, items_of_some hnext, map_cons]
      exact congrArg _ (ih x hx (by omega))

end Reader
