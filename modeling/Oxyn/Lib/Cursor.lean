/-
# `Oxyn.Lib.Cursor` — loops that walk a buffer with one symbol of look-ahead

Hand-written scanners are made of one kind of loop: read the symbol at the index, perhaps the next
one, then step over one or two symbols or leave.
-/
import Mathlib.Data.List.Infix

namespace Cursor

open List

/-- What one turn decides: step over one symbol, over two, or leave the loop
`k` symbols past the current one with a result. -/
inductive Turn (σ ρ : Type) where
  | one (s : σ)
  | two (s : σ)
  | leave (k : Nat) (r : ρ)

/-- How a loop ends: left at an index, or off the end of the buffer. -/
inductive Exit (σ ρ : Type) where
  | left (i : Nat) (r : ρ)
  | off (s : σ)
deriving DecidableEq, Repr

/-- The index counted from another origin. -/
def Exit.shift {σ ρ : Type} (n : Nat) : Exit σ ρ → Exit σ ρ
  | .left i r => .left (i + n) r
  | .off s => .off s

/-- The index a loop stops at, `stop` when it runs off the end. -/
def Exit.index {σ ρ : Type} (stop : Nat) : Exit σ ρ → Nat
  | .left i _ => i
  | .off _ => stop

theorem of_cons_eq_drop {α : Type} {b l : List α} {c : α} {i : Nat} (h : c :: l = b.drop i) :
    b[i]? = some c ∧ l = b.drop (i + 1) := by
  have h0 := congrArg (·[0]?) h
  have ht := congrArg List.tail h
  exact ⟨by simpa using h0.symm, by simpa using ht⟩

section Loop

variable {α σ ρ : Type} (turn : σ → α → Option α → Turn σ ρ)

/-- `while let Some(c) = buffer.get(i)`: the buffer from `i` on, the index and
the loop's own state. -/
def loop : List α → Nat → σ → Exit σ ρ
  | [], _, s => .off s
  | c :: rest, i, s =>
    match turn s c rest.head? with
    | .leave k r => .left (i + k) r
    | .one s' => loop rest (i + 1) s'
    | .two s' =>
      match rest with
      | [] => .off s'
      | _ :: rest' => loop rest' (i + 2) s'

/-- Some turns do not look ahead. -/
def Blind : Prop := ∀ s c n n', turn s c n = turn s c n'

/-- Some turns always take a symbol when they leave. -/
def Sighted : Prop := ∀ s c n r, turn s c n ≠ .leave 0 r

variable {turn}

theorem loop_shift (l : List α) (i n : Nat) (s : σ) :
    loop turn l (i + n) s = (loop turn l i s).shift n := by
  fun_induction loop turn l i s with
  | case1 => simp [loop, Exit.shift]
  | case2 c rest i s k r h => simp [loop, h, Exit.shift]; omega
  | case3 c rest i s s' h ih =>
    rw [loop, h]
    simpa [Nat.add_right_comm] using ih
  | case4 c i s s' h =>
    have h' : turn s c none = .two s' := h
    simp [loop, h', Exit.shift]
  | case5 c i s s' d rest' h ih =>
    rw [loop, h]
    simpa [Nat.add_right_comm] using ih

variable {l : List α} {s : σ}

variable {r : ρ}

theorem exists_turn_of_left {i j : Nat} (h : loop turn l i s = .left j r) :
    ∃ m s' c k, l[m]? = some c ∧ turn s' c l[m + 1]? = .leave k r ∧ j = i + m + k := by
  fun_induction loop turn l i s with
  | case1 => simp at h
  | case2 c rest i s k r' hturn =>
    obtain ⟨rfl, rfl⟩ := by simpa using h
    exact ⟨0, s, c, k, rfl, by simpa [head?_eq_getElem?] using hturn, rfl⟩
  | case3 c rest i s s' hturn ih =>
    obtain ⟨m, s'', d, k, hd, hk, hj⟩ := ih h
    exact ⟨m + 1, s'', d, k, by simpa using hd, by simpa using hk, by omega⟩
  | case4 => simp at h
  | case5 c i s s' d rest' hturn ih =>
    obtain ⟨m, s'', e, k, he, hk, hj⟩ := ih h
    exact ⟨m + 2, s'', e, k, by simpa using he, by simpa using hk, by omega⟩

theorem le_of_left {i j : Nat} (h : loop turn l i s = .left j r) : i ≤ j := by
  obtain ⟨m, -, -, k, -, -, rfl⟩ := exists_turn_of_left h
  omega

/-- A turn that looks one symbol ahead can step over that symbol and no further. -/
theorem left_le_length {i j : Nat}
    (hk : ∀ s c n k r, turn s c n = .leave k r → k ≤ 1 + n.toList.length)
    (h : loop turn l i s = .left j r) : j ≤ i + l.length := by
  obtain ⟨m, s', c, k, hc, hturn, rfl⟩ := exists_turn_of_left h
  have hm : m < l.length := (List.getElem?_eq_some_iff.mp hc).1
  have hk := hk _ _ _ _ _ hturn
  cases hn : l[m + 1]? with
  | none => simp [hn] at hk; omega
  | some d =>
    have := (List.getElem?_eq_some_iff.mp hn).1
    simp [hn] at hk
    omega

/-- A loop that does not look ahead leaves at the same place in a buffer that
agrees with the first one before that place, and holds there a symbol the loop
leaves on as well. -/
theorem loop_congr_blind (hb : Blind turn) {l l' : List α} {i j : Nat}
    (h : loop turn l i s = .left j r)
    (hag : ∀ m, i + m < j → l[m]? = l'[m]?)
    (hat : ∀ m c, i + m = j → l[m]? = some c → ∃ c', l'[m]? = some c' ∧
      ∀ s n, turn s c n = .leave 0 r → turn s c' n = .leave 0 r) :
    loop turn l' i s = .left j r := by
  fun_induction loop turn l i s generalizing l' with
  | case1 => simp at h
  | case2 c rest i s k r' hturn =>
    obtain ⟨rfl, rfl⟩ := by simpa using h
    cases k with
    | zero =>
      obtain ⟨c', hc', hleave⟩ := hat 0 c (by omega) rfl
      cases l' with
      | nil => simp at hc'
      | cons d l' =>
        obtain rfl : d = c' := by simpa using hc'
        have := hleave s none (by rw [hb s c none]; exact hturn)
        rw [loop, hb s d _ none, this]
    | succ k =>
      have h0 := hag 0 (by omega)
      cases l' with
      | nil => simp at h0
      | cons d l' =>
        obtain rfl : c = d := by simpa using h0
        rw [loop, hb s c _ rest.head?, hturn]
  | case3 c rest i s s' hturn ih =>
    have hlt := le_of_left h
    have h0 := hag 0 (by omega)
    cases l' with
    | nil => simp at h0
    | cons d l' =>
      obtain rfl : c = d := by simpa using h0
      rw [loop, hb s c _ rest.head?, hturn]
      exact ih h (fun m hm => by simpa using hag (m + 1) (by omega))
        (fun m e hm he => by simpa using hat (m + 1) e (by omega) (by simpa using he))
  | case4 => simp at h
  | case5 c i s s' d rest' hturn ih =>
    have hlt := le_of_left h
    have h0 := hag 0 (by omega)
    have h1 := hag 1 (by omega)
    match l', h0, h1 with
    | [], h0, _ => simp at h0
    | [_], _, h1 => simp at h1
    | c' :: d' :: l', h0, h1 =>
      obtain rfl : c = c' := by simpa using h0
      rw [loop, hb s c _ (d :: rest').head?, hturn]
      exact ih h (fun m hm => by simpa using hag (m + 2) (by omega))
        (fun m e hm he => by simpa using hat (m + 2) e (by omega) (by simpa using he))

/-- A buffer cut short before a symbol the turn does not look for shows it what the whole one does.
-/
theorem turn_take {n : Nat} (hnext : ∀ s c, turn s c l[n]? = turn s c none) (s : σ)
    (c : α) : turn s c (l.take n).head? = turn s c l.head? := by
  cases n with
  | zero =>
    rw [take_zero, head?_nil, head?_eq_getElem?, hnext]
  | succ n => rw [head?_take, if_neg (Nat.succ_ne_zero n)]

/-- A loop that ends before its buffer is cut short ends at the same place, when no turn looks for
the symbol cut off. -/
theorem index_take {i n stop : Nat} (hnext : ∀ s c, turn s c l[n]? = turn s c none)
    (hle : (loop turn l i s).index stop ≤ i + n) (hstop : i + n < stop) :
    (loop turn (l.take n) i s).index (i + n) = (loop turn l i s).index stop := by
  have hpast : ∀ {l : List α} {i m : Nat} {s : σ}, (loop turn l i s).index stop ≤ m →
      m < stop → i ≤ m := by
    intro l i m s hle hm
    cases hl : loop turn l i s with
    | left j r =>
      rw [hl] at hle
      exact Nat.le_trans (le_of_left hl) hle
    | off s =>
      rw [hl] at hle
      simp only [Exit.index] at hle
      omega
  fun_induction loop turn l i s generalizing n with
  | case1 => simp only [Exit.index] at hle; omega
  | case2 c rest i s k r hturn =>
    cases n with
    | zero =>
      simp only [Exit.index] at hle
      simp only [take_zero, loop, Exit.index]
      omega
    | succ n =>
      rw [take_succ_cons, loop, turn_take (l := rest) hnext, hturn]
      rfl
  | case3 c rest i s s' hturn ih =>
    cases n with
    | zero => have := hpast hle hstop; omega
    | succ n =>
      rw [take_succ_cons, loop, turn_take (l := rest) hnext, hturn]
      rw [show i + (n + 1) = i + 1 + n by omega] at hle hstop ⊢
      exact ih (fun s c => hnext s c) hle hstop
  | case4 c i s s' hturn => simp only [Exit.index] at hle; omega
  | case5 c i s s' d rest' hturn ih =>
    match n with
    | 0 => have := hpast hle hstop; omega
    | 1 => have := hpast hle hstop; omega
    | n + 2 =>
      have hturn' : turn s c (List.take (n + 1) (d :: rest')).head? = .two s' := by
        rw [turn_take (l := d :: rest') hnext, hturn]
      rw [take_succ_cons, loop, hturn', take_succ_cons]
      rw [show i + (n + 2) = i + 2 + n by omega] at hle hstop ⊢
      exact ih (fun s c => hnext s c) hle hstop

/-- A loop that leaves past the cut runs off the end of the buffer cut short. -/
theorem off_take (hb : Blind turn) (h0 : ∀ s c n k r, turn s c n = .leave k r → k = 0)
    {i n stop : Nat} (hn : n ≤ l.length)
    (hlt : i + n < (loop turn l i s).index stop) : ∃ s', loop turn (l.take n) i s = .off s' := by
  cases hl : loop turn (l.take n) i s with
  | off s' => exact ⟨s', rfl⟩
  | left j r =>
    exfalso
    obtain ⟨m, _, c, k, hc, hturn, hj⟩ := exists_turn_of_left hl
    obtain rfl := h0 _ _ _ _ _ hturn
    have hm := (List.getElem?_eq_some_iff.mp hc).1
    rw [length_take] at hm
    -- then it leaves there in the whole buffer too
    have hsame : loop turn l i s = .left j r := by
      refine loop_congr_blind hb hl (fun m' hm' => ?_) fun m' c' hm' hc' => ?_
      · rw [getElem?_take, if_pos (by omega)]
      · rw [getElem?_take, if_pos (by omega)] at hc'
        exact ⟨c', hc', fun _ _ => id⟩
    rw [hsame] at hlt
    simp only [Exit.index] at hlt
    omega

theorem index_le_of_leaves {i m stop : Nat} {c : α} (hc : l[m]? = some c)
    (hleave : ∀ s n, ∃ r, turn s c n = .leave 0 r)
    (hone : ∀ s c n k r, turn s c n = .leave k r → k ≤ 1)
    (htwo : ∀ s c n s', turn s c n ≠ .two s') : (loop turn l i s).index stop ≤ i + m := by
  fun_induction loop turn l i s generalizing m with
  | case1 => simp at hc
  | case2 d rest i s k r hturn =>
    simp only [Exit.index]
    cases m with
    | zero =>
      obtain rfl : d = c := by simpa using hc
      obtain ⟨r', hr⟩ := hleave s rest.head?
      obtain ⟨rfl, -⟩ := Turn.leave.inj (hturn.symm.trans hr)
      exact Nat.le_refl i
    | succ m => have := hone _ _ _ _ _ hturn; omega
  | case3 d rest i s s' hturn ih =>
    cases m with
    | zero =>
      obtain rfl : d = c := by simpa using hc
      obtain ⟨r', hr⟩ := hleave s rest.head?
      rw [hturn] at hr
      simp at hr
    | succ m =>
      have := ih (m := m) (by simpa using hc)
      omega
  | case4 d i s s' hturn | case5 d i s s' e rest hturn => exact absurd hturn (htwo _ _ _ _)

/-- A loop that takes a symbol when it leaves does so at the same place in a
buffer that agrees with the first one before that place, and shows there
something the leaving turn accepts as well. -/
theorem loop_congr_sighted (hs : Sighted turn) {l l' : List α} {i j : Nat}
    (h : loop turn l i s = .left j r)
    (hag : ∀ m, i + m < j → l[m]? = l'[m]?)
    (hat : ∀ m s c, i + m = j → turn s c l[m]? = .leave 1 r → turn s c l'[m]? = .leave 1 r) :
    loop turn l' i s = .left j r := by
  fun_induction loop turn l i s generalizing l' with
  | case1 => simp at h
  | case2 c rest i s k r' hturn =>
    obtain ⟨rfl, rfl⟩ := by simpa using h
    match k, hturn with
    | 0, hturn => exact absurd hturn (hs _ _ _ _)
    | 1, hturn =>
      have h0 := hag 0 (by omega)
      cases l' with
      | nil => simp at h0
      | cons d l' =>
        obtain rfl : c = d := by simpa using h0
        have := hat 1 s c rfl (by simpa [head?_eq_getElem?] using hturn)
        rw [loop, head?_eq_getElem?]
        simp only [getElem?_cons_succ] at this
        rw [this]
    | k + 2, hturn =>
      have h0 := hag 0 (by omega)
      have h1 := hag 1 (by omega)
      cases l' with
      | nil => simp at h0
      | cons d l' =>
        obtain rfl : c = d := by simpa using h0
        have hhead : l'.head? = rest.head? := by
          simpa [head?_eq_getElem?] using h1.symm
        rw [loop, hhead, hturn]
  | case3 c rest i s s' hturn ih =>
    obtain ⟨m, s'', e, k, he, hk, hj⟩ := exists_turn_of_left h
    have hk0 : k ≠ 0 := by rintro rfl; exact hs _ _ _ _ hk
    have h0 := hag 0 (by omega)
    have h1 := hag 1 (by omega)
    cases l' with
    | nil => simp at h0
    | cons d l' =>
      obtain rfl : c = d := by simpa using h0
      have hhead : l'.head? = rest.head? := by
        simpa [head?_eq_getElem?] using h1.symm
      rw [loop, hhead, hturn]
      exact ih h (fun m hm => by simpa using hag (m + 1) (by omega))
        (fun m s e hm he => by simpa using hat (m + 1) s e (by omega) (by simpa using he))
  | case4 => simp at h
  | case5 c i s s' d rest' hturn ih =>
    have hlt := le_of_left h
    have h0 := hag 0 (by omega)
    have h1 := hag 1 (by omega)
    match l', h0, h1 with
    | [], h0, _ => simp at h0
    | [_], _, h1 => simp at h1
    | c' :: d' :: l', h0, h1 =>
      obtain rfl : c = c' := by simpa using h0
      obtain rfl : d = d' := by simpa using h1
      have hturn' : turn s c (d :: l').head? = .two s' := hturn
      rw [loop, hturn']
      exact ih h (fun m hm => by simpa using hag (m + 2) (by omega))
        (fun m s e hm he => by simpa using hat (m + 2) s e (by omega) (by simpa using he))

end Loop

section Passes

variable {α σ ρ : Type} {turn : σ → α → Option α → Turn σ ρ}

/-- The loop steps over `w` whatever follows it, and goes on in another state. -/
def Passes (turn : σ → α → Option α → Turn σ ρ) (s : σ) (w : List α) (s' : σ) : Prop :=
  ∀ rest i, loop turn (w ++ rest) i s = loop turn rest (i + w.length) s'

theorem Passes.nil (s : σ) : Passes turn s [] s := fun _ _ => rfl

theorem Passes.append {s s' s'' : σ} {v w : List α} (hv : Passes turn s v s')
    (hw : Passes turn s' w s'') : Passes turn s (v ++ w) s'' := by
  intro rest i
  rw [append_assoc, hv, hw, length_append, Nat.add_assoc]

theorem passes_one {s s' : σ} {c : α} (h : ∀ n, turn s c n = .one s') :
    Passes turn s [c] s' := by
  intro rest i
  show loop turn (c :: rest) i s = _
  rw [loop, h]
  rfl

theorem passes_two {s s' : σ} {c d : α} (h : turn s c (some d) = .two s') :
    Passes turn s [c, d] s' := by
  intro rest i
  show loop turn (c :: d :: rest) i s = _
  rw [loop, head?_cons, h]
  rfl

theorem Passes.flatMap {β : Type} {s : σ} {f : β → List α} {l : List β}
    (h : ∀ c ∈ l, Passes turn s (f c) s) : Passes turn s (l.flatMap f) s := by
  induction l with
  | nil => exact .nil s
  | cons c l ih =>
    rw [flatMap_cons]
    exact (h c (by simp)).append (ih fun d hd => h d (by simp [hd]))

end Passes

section Find

variable {α : Type} [BEq α] (needle : List α)

/-- The index just past the first occurrence of `needle`. -/
def find : List α → Nat → Option Nat
  | [], i => if needle.isPrefixOf [] then some (i + needle.length) else none
  | c :: rest, i =>
    if needle.isPrefixOf (c :: rest) then some (i + needle.length) else find rest (i + 1)

variable {needle}

theorem find_shift (l : List α) (i n : Nat) :
    find needle l (i + n) = (find needle l i).map (· + n) := by
  induction l generalizing i with
  | nil => simp only [find]; split <;> simp; omega
  | cons c rest ih =>
    simp only [find]
    split
    · simp; omega
    · rw [Nat.add_right_comm, ih]

variable [LawfulBEq α]

theorem find_bounds {l : List α} {i j : Nat} (h : find needle l i = some j) :
    i + needle.length ≤ j ∧ j ≤ i + l.length := by
  induction l generalizing i with
  | nil =>
    simp only [find] at h
    split at h
    next hp =>
      have hlen := (List.isPrefixOf_iff_prefix.mp hp).length_le
      simp only [Option.some.injEq] at h
      omega
    · simp at h
  | cons c rest ih =>
    simp only [find] at h
    split at h
    next hp =>
      have hlen := (List.isPrefixOf_iff_prefix.mp hp).length_le
      simp only [Option.some.injEq] at h
      omega
    · have := ih h
      simp
      omega

theorem prefix_of_find {l : List α} {i j : Nat} (h : find needle l i = some j) :
    needle <+: l.drop (j - needle.length - i) := by
  induction l generalizing i with
  | nil =>
    simp only [find] at h
    split at h
    next hp => simpa using List.isPrefixOf_iff_prefix.mp hp
    · simp at h
  | cons c rest ih =>
    simp only [find] at h
    split at h
    next hp =>
      obtain rfl := Option.some.inj h
      simpa using List.isPrefixOf_iff_prefix.mp hp
    next hp =>
      have hb := find_bounds h
      have hdrop : j - needle.length - i = j - needle.length - (i + 1) + 1 := by omega
      rw [hdrop, drop_succ_cons]
      exact ih h

theorem isPrefixOf_congr (needle : List α) {l l' : List α} {n : Nat} (hn : needle.length ≤ n)
    (hag : ∀ m, m < n → l[m]? = l'[m]?) : needle.isPrefixOf l = needle.isPrefixOf l' := by
  have htake : l.take needle.length = l'.take needle.length := by
    refine ext_getElem? fun m => ?_
    simp only [getElem?_take]
    split
    · exact hag m (by omega)
    · rfl
  rw [Bool.eq_iff_iff, List.isPrefixOf_iff_prefix, List.isPrefixOf_iff_prefix,
    prefix_iff_eq_take, prefix_iff_eq_take, htake]

/-- A search ends at the same place in a buffer that agrees before that place. -/
theorem find_congr {l l' : List α} {i j : Nat} (h : find needle l i = some j)
    (hag : ∀ m, i + m < j → l[m]? = l'[m]?) : find needle l' i = some j := by
  induction l generalizing i l' with
  | nil =>
    have hb := find_bounds h
    simp only [find] at h
    split at h
    next hp =>
      obtain rfl := prefix_nil.mp (List.isPrefixOf_iff_prefix.mp hp)
      cases l' <;> simpa [find] using h
    · simp at h
  | cons c rest ih =>
    have hb := find_bounds h
    have hpre := isPrefixOf_congr needle (n := j - i) (by omega)
      (fun m hm => hag m (by omega))
    simp only [find] at h
    split at h
    next hp => cases l' <;> simpa [find, ← hpre, hp] using h
    next hp =>
      have hb' := find_bounds h
      have h0 := hag 0 (by omega)
      cases l' with
      | nil => simp at h0
      | cons d l' =>
        simp only [find, ← hpre, if_neg hp]
        exact ih h (fun m hm => by simpa using hag (m + 1) (by omega))

end Find

section Run

variable {α σ ρ : Type}

/-- The end of the run of symbols that starts at `i`. -/
def runEnd (p : α → Bool) (b : List α) (i : Nat) : Nat := i + ((b.drop i).takeWhile p).length

variable {p : α → Bool} {b : List α} {i k : Nat}

theorem le_runEnd : i ≤ runEnd p b i := Nat.le_add_right _ _

theorem runEnd_le (hi : i ≤ b.length) : runEnd p b i ≤ b.length := by
  have hle := (List.takeWhile_prefix (l := b.drop i) p).length_le
  rw [length_drop] at hle
  unfold runEnd
  omega

theorem of_lt_runEnd (hik : i ≤ k) (hk : k < runEnd p b i) :
    ∃ c, b[k]? = some c ∧ p c = true := by
  have hlt : k - i < ((b.drop i).takeWhile p).length := by
    unfold runEnd at hk
    omega
  have hget := (List.takeWhile_prefix (l := b.drop i) p).getElem hlt
  refine ⟨((b.drop i).takeWhile p)[k - i], ?_, all_eq_true.mp all_takeWhile _ (getElem_mem hlt)⟩
  rw [hget, getElem_drop]
  have heq : i + (k - i) = k := by omega
  rw [← getElem?_eq_getElem, heq]

theorem at_runEnd {c : α} (hc : b[runEnd p b i]? = some c) : p c = false := by
  unfold runEnd at hc
  rw [← getElem?_drop] at hc
  generalize b.drop i = l at hc
  induction l with
  | nil => simp at hc
  | cons d l ih =>
    cases hd : p d with
    | true => exact ih (by simpa [takeWhile_cons, hd] using hc)
    | false =>
      obtain rfl : d = c := by simpa [takeWhile_cons, hd] using hc
      exact hd

theorem runEnd_succ {c : α} (hc : b[i]? = some c) (hp : p c = true) :
    runEnd p b i = runEnd p b (i + 1) := by
  obtain ⟨hlt, hget⟩ := List.getElem?_eq_some_iff.mp hc
  unfold runEnd
  rw [drop_eq_getElem_cons hlt, hget, takeWhile_cons, if_pos hp, length_cons]
  omega

theorem loop_run {turn : σ → α → Option α → Turn σ ρ} {s : σ} {r : ρ}
    (hone : ∀ c n, p c = true → turn s c n = .one s)
    (hleave : ∀ c n, p c = false → turn s c n = .leave 0 r) (b : List α) (i : Nat) :
    loop turn (b.drop i) i s =
      if runEnd p b i < b.length then .left (runEnd p b i) r else .off s := by
  suffices ∀ (l : List α) (i : Nat), loop turn l i s =
      if (l.takeWhile p).length < l.length then .left (i + (l.takeWhile p).length) r
      else .off s by
    rw [this, length_drop]
    unfold runEnd
    split
    · rw [if_pos (by omega)]
    next h =>
      have hle := (List.takeWhile_prefix (l := b.drop i) p).length_le
      rw [length_drop] at hle
      rw [if_neg (by omega)]
  intro l
  induction l with
  | nil =>
    intro i
    rfl
  | cons c l ih =>
    intro i
    cases hp : p c with
    | true =>
      simp only [loop, hone c _ hp, ih, takeWhile_cons, hp, if_true, length_cons,
        Nat.add_lt_add_iff_right]
      split
      · congr 1
        omega
      · rfl
    | false =>
      simp [loop, hleave c _ hp, hp]

theorem find_singleton [BEq α] [LawfulBEq α] (d : α) (b : List α) (i : Nat) :
    find [d] (b.drop i) i =
      if runEnd (· != d) b i < b.length then some (runEnd (· != d) b i + 1) else none := by
  suffices ∀ (l : List α) (i : Nat), find [d] l i =
      if (l.takeWhile (· != d)).length < l.length then some (i + (l.takeWhile (· != d)).length + 1)
      else none by
    rw [this, length_drop]
    unfold runEnd
    split
    · rw [if_pos (by omega)]
    next h =>
      have hle := (List.takeWhile_prefix (l := b.drop i) (· != d)).length_le
      rw [length_drop] at hle
      rw [if_neg (by omega)]
  intro l
  induction l with
  | nil =>
    intro i
    rfl
  | cons c l ih =>
    intro i
    by_cases hc : c = d
    · subst hc
      simp [find, List.isPrefixOf]
    · have hd : (d == c) = false := by simpa using Ne.symm hc
      simp only [find, List.isPrefixOf, hd, Bool.false_and, Bool.false_eq_true, if_false, ih,
        takeWhile_cons, bne_iff_ne, ne_eq, hc, not_false_eq_true, if_true,
        length_cons, Nat.add_lt_add_iff_right]
      split
      · congr 1
        omega
      · rfl

end Run

end Cursor
