/-
# `Oxyn.Lib.Table` — a row of a Markdown table

A line is read into marks: a pipe separates, unless a backslash that is not itself escaped stands
before it.  Which other characters a backslash escapes is left open (`Escapes`): blanks are not
among them.
-/
import Oxyn.Lib.Text

namespace Oxyn.Table

open Text List

structure Escapes where
  escapable : Char → Bool
  backslash : escapable '\\' = true
  pipe : escapable '|' = true
  blank : escapable ' ' = false

/-- Is a character ASCII punctuation, all of which a backslash escapes in CommonMark? -/
def isPunctuation (c : Char) : Bool :=
  (0x21 ≤ c.toNat && c.toNat ≤ 0x2f) || (0x3a ≤ c.toNat && c.toNat ≤ 0x40) ||
    (0x5b ≤ c.toNat && c.toNat ≤ 0x60) || (0x7b ≤ c.toNat && c.toNat ≤ 0x7e)

def punctuation : Escapes := ⟨isPunctuation, rfl, rfl, rfl⟩

inductive Mark where
  | separator
  | plain (c : Char)
  | escaped (c : Char)
deriving DecidableEq, Repr

def markOf (c : Char) : Mark := if c = '|' then .separator else .plain c

def marks (esc : Escapes) : Str → List Mark
  | [] => []
  | [c] => [markOf c]
  | c :: d :: s =>
    if c = '\\' ∧ esc.escapable d then .escaped d :: marks esc s
    else markOf c :: marks esc (d :: s)

def cells : List Mark → List Str
  | [] => [[]]
  | .separator :: rest => [] :: cells rest
  | .plain c :: rest => (cells rest).modifyHead (c :: ·)
  | .escaped c :: rest => (cells rest).modifyHead (c :: ·)

/-- A cell between its two blanks. -/
def pad (t : Str) : Str := ' ' :: t ++ [' ']

def unpad : Str → Option Str
  | ' ' :: t => if t.getLast? = some ' ' then some t.dropLast else none
  | _ => none

def readRow (esc : Escapes) (line : Str) : Option (List Str) :=
  match cells (marks esc line) with
  | [] :: rest => if rest.getLast? = some [] then rest.dropLast.mapM unpad else none
  | _ => none

/-! ## What is written -/

def escapePipes (t : Str) : Str := t.flatMap fun c => if c = '|' then ['\\', c] else [c]

def row (texts : List Str) : Str := '|' :: texts.flatMap fun t => pad (escapePipes t) ++ ['|']

/-- No backslash stands before a character that may be escaped. -/
def Clear (esc : Escapes) (t : Str) : Prop :=
  ∀ u c v, t = u ++ '\\' :: c :: v → esc.escapable c = false

variable {esc : Escapes}

variable {c : Char}

variable {t : Str}

theorem Clear.tail (h : Clear esc (c :: t)) : Clear esc t := by
  rintro u d v rfl
  exact h (c :: u) d v rfl

theorem Clear.of_not_mem (h : '\\' ∉ t) : Clear esc t := by
  rintro u d v rfl
  exact absurd (mem_append_right u mem_cons_self) h

theorem marks_cons_of_ne (h : c ≠ '\\') (s : Str) :
    marks esc (c :: s) = markOf c :: marks esc s := by
  cases s with
  | nil => rfl
  | cons d s => exact if_neg fun hand => h hand.1

theorem marks_backslash {d : Char} (h : esc.escapable d = false) (s : Str) :
    marks esc ('\\' :: d :: s) = .plain '\\' :: marks esc (d :: s) :=
  if_neg fun hand => Bool.false_ne_true (h.symm.trans hand.2)

theorem marks_escape {d : Char} (h : esc.escapable d = true) (s : Str) :
    marks esc ('\\' :: d :: s) = .escaped d :: marks esc s := if_pos ⟨rfl, h⟩

theorem unpad_eq_some {s t : Str} : unpad s = some t ↔ s = pad t := by
  constructor
  · intro h
    unfold unpad at h
    split at h
    next t' =>
      split_ifs at h with hlast
      cases h
      have hne : t' ≠ [] := by
        rintro rfl
        cases hlast
      rw [getLast?_eq_getLast_of_ne_nil hne] at hlast
      have hsplit := dropLast_append_getLast hne
      rw [Option.some.inj hlast] at hsplit
      rw [pad, cons_append, hsplit]
    · cases h
  · rintro rfl
    simp [unpad, pad]

/-! ## Reading back -/

/-- How a character of a cell is written. -/
def tokenOf (c : Char) : Mark := if c = '|' then .escaped c else .plain c

/-- A clear cell is read as it was written, before a character that may not be escaped. -/
theorem marks_clear (h : Clear esc t) (hc : esc.escapable c = false)
    (s : Str) : marks esc (escapePipes t ++ c :: s) = t.map tokenOf ++ marks esc (c :: s) := by
  induction t with
  | nil => rfl
  | cons d t ih =>
    have hrest := ih h.tail
    by_cases hpipe : d = '|'
    · subst hpipe
      exact (marks_escape esc.pipe _).trans (congrArg _ hrest)
    · have hwhole : escapePipes (d :: t) ++ c :: s = d :: (escapePipes t ++ c :: s) := by
        rw [escapePipes, flatMap_cons, if_neg hpipe]
        rfl
      have htoken : tokenOf d = .plain d := if_neg hpipe
      rw [hwhole, map_cons, htoken, cons_append, ← hrest]
      by_cases hslash : d = '\\'
      · subst hslash
        -- the next character is the one behind the cell, or one of the cell
        cases t with
        | nil => exact marks_backslash hc s
        | cons e t =>
          have he := h [] e t rfl
          have hne : e ≠ '|' := by
            rintro rfl
            exact Bool.false_ne_true (he.symm.trans esc.pipe)
          have hnext : escapePipes (e :: t) ++ c :: s = e :: (escapePipes t ++ c :: s) := by
            rw [escapePipes, flatMap_cons, if_neg hne]
            rfl
          rw [hnext]
          exact marks_backslash he _
      · rw [marks_cons_of_ne hslash, markOf, if_neg hpipe]

theorem cells_tokens (t : Str) (rest : List Mark) :
    cells (t.map tokenOf ++ rest) = (cells rest).modifyHead (t ++ ·) := by
  induction t with
  | nil =>
    cases h : cells rest with
    | nil | cons first others => rw [map_nil, nil_append, h]; rfl
  | cons c t ih =>
    have hcell : cells (tokenOf c :: (t.map tokenOf ++ rest)) =
        (cells (t.map tokenOf ++ rest)).modifyHead (c :: ·) := by
      unfold tokenOf
      split <;> rfl
    rw [map_cons, cons_append, hcell, ih, modifyHead_modifyHead]
    rfl

variable {texts : List Str}

theorem cells_row (h : ∀ t ∈ texts, Clear esc t) :
    cells (marks esc (row texts)) = [] :: (texts.map pad ++ [[]]) := by
  rw [row, marks_cons_of_ne (by decide)]
  refine congrArg ([] :: ·) ?_
  induction texts with
  | nil => rfl
  | cons t texts ih =>
    have hrest := ih fun t ht => h t (mem_cons_of_mem _ ht)
    have hcell : marks esc (pad (escapePipes t) ++ ['|'] ++
        texts.flatMap fun t => pad (escapePipes t) ++ ['|']) =
          .plain ' ' :: (t.map tokenOf ++ .plain ' ' :: .separator ::
            marks esc (texts.flatMap fun t => pad (escapePipes t) ++ ['|'])) := by
      simp only [pad, cons_append, append_assoc, nil_append]
      rw [marks_cons_of_ne (by decide), marks_clear (h t mem_cons_self) esc.blank,
        marks_cons_of_ne (by decide), marks_cons_of_ne (by decide)]
      rfl
    rw [flatMap_cons, hcell, cells, cells_tokens, cells, cells, hrest]
    rfl

theorem mapM_unpad {l texts : List Str} : l.mapM unpad = some texts ↔ l = texts.map pad := by
  induction l generalizing texts with
  | nil =>
    rw [mapM_nil, eq_comm (a := []), map_eq_nil_iff, eq_comm]
    exact Option.some_inj
  | cons s l ih =>
    rw [mapM_cons]
    constructor
    · intro h
      obtain ⟨t, ht, h⟩ := Option.bind_eq_some_iff.mp h
      obtain ⟨rest, hrest, h⟩ := Option.bind_eq_some_iff.mp h
      obtain rfl := Option.some.inj h
      rw [map_cons, ← unpad_eq_some.mp ht, ← ih.mp hrest]
    · intro h
      cases texts with
      | nil => cases h
      | cons t texts =>
        obtain ⟨hs, hl⟩ := List.cons.inj h
        rw [unpad_eq_some.mpr hs, ih.mpr hl]
        rfl

theorem readRow_eq_some {line : Str} :
    readRow esc line = some texts ↔ cells (marks esc line) = [] :: (texts.map pad ++ [[]]) := by
  unfold readRow
  constructor
  · intro h
    split at h
    next rest hcells =>
      split_ifs at h with hlast
      have hne : rest ≠ [] := by
        rintro rfl
        cases hlast
      rw [getLast?_eq_getLast_of_ne_nil hne] at hlast
      have hsplit := dropLast_append_getLast hne
      rw [Option.some.inj hlast, mapM_unpad.mp h] at hsplit
      rw [hcells, hsplit]
    · cases h
  · intro h
    rw [h]
    dsimp only
    rw [getLast?_concat, if_pos rfl, dropLast_concat, mapM_unpad]

/-! ## Counting -/

/-- Does a mark separate, and is it an escape, or the escape of a pipe? -/
def Mark.separates : Mark → Bool
  | .separator => true
  | _ => false

def Mark.isEscape : Mark → Bool
  | .escaped _ => true
  | _ => false

def Mark.isPipe (m : Mark) : Bool := m = .escaped '|'

theorem length_marks (esc : Escapes) (s : Str) :
    s.length = (marks esc s).length + (marks esc s).countP Mark.isEscape := by
  fun_induction marks esc s with
  | case1 => rfl
  | case2 c =>
    unfold markOf
    split <;> rfl
  | case3 c d s h ih =>
    rw [countP_cons_of_pos rfl]
    simp only [length_cons]
    omega
  | case4 c d s h ih =>
    have hmark : (markOf c).isEscape = false := by
      unfold markOf
      split <;> rfl
    rw [countP_cons_of_neg (by rw [hmark]; exact Bool.false_ne_true), length_cons,
      length_cons (a := markOf c), ih]
    omega

theorem plain_pipe_not_mem (esc : Escapes) (s : Str) : .plain '|' ∉ marks esc s := by
  fun_induction marks esc s with
  | case1 => exact not_mem_nil
  | case2 c =>
    unfold markOf
    split_ifs with h <;> simp [eq_comm]
    exact h
  | case3 c d s h ih => simp [ih]
  | case4 c d s h ih =>
    unfold markOf
    split_ifs with hc <;> simp [ih, eq_comm]
    exact hc

structure Counts (l : List Mark) (texts : List Str) : Prop where
  separators : texts.length = l.countP Mark.separates + 1
  characters : l.length = l.countP Mark.separates + (texts.map List.length).sum
  pipes : .plain '|' ∉ l → (texts.map (List.count '|')).sum = l.countP Mark.isPipe

theorem sum_modifyHead (weight : Str → Nat) (n : Nat) {f : Str → Str}
    (hf : ∀ t, weight (f t) = n + weight t) (hne : texts ≠ []) :
    ((texts.modifyHead f).map weight).sum = n + (texts.map weight).sum := by
  cases texts with
  | nil => exact absurd rfl hne
  | cons t texts =>
    rw [modifyHead_cons, map_cons, sum_cons, hf, map_cons, sum_cons,
      Nat.add_assoc]

theorem counts_cells (l : List Mark) : Counts l (cells l) := by
  induction l with
  | nil => exact ⟨rfl, rfl, fun _ => rfl⟩
  | cons m l ih =>
    have hne : cells l ≠ [] := by
      intro hnil
      have := ih.separators
      rw [hnil] at this
      cases this
    cases m with
    | separator =>
      refine ⟨?_, ?_, fun h => ?_⟩
      · rw [cells, length_cons, ih.separators, countP_cons_of_pos rfl]
      · rw [cells, length_cons, ih.characters, countP_cons_of_pos rfl]
        simp only [map_cons, length_nil, sum_cons]
        omega
      · have hrest := ih.pipes fun hmem => h (mem_cons_of_mem _ hmem)
        rw [cells, map_cons, sum_cons, hrest, countP_cons_of_neg (by decide)]
        exact Nat.zero_add _
    | plain c =>
      refine ⟨?_, ?_, fun h => ?_⟩
      · rw [cells, length_modifyHead, ih.separators,
          countP_cons_of_neg Bool.false_ne_true]
      · rw [cells, sum_modifyHead List.length 1 (fun t => Nat.add_comm _ _) hne,
          length_cons, ih.characters, countP_cons_of_neg Bool.false_ne_true]
        omega
      · have hc : c ≠ '|' := by
          rintro rfl
          exact h mem_cons_self
        have hrest := ih.pipes fun hmem => h (mem_cons_of_mem _ hmem)
        have hpipe : ¬ (Mark.plain c).isPipe = true := by simp [Mark.isPipe]
        rw [cells, sum_modifyHead (List.count '|') 0
          (fun t => by rw [count_cons_of_ne hc, Nat.zero_add]) hne,
          hrest, countP_cons_of_neg hpipe, Nat.zero_add]
    | escaped c =>
      refine ⟨?_, ?_, fun h => ?_⟩
      · rw [cells, length_modifyHead, ih.separators,
          countP_cons_of_neg Bool.false_ne_true]
      · rw [cells, sum_modifyHead List.length 1 (fun t => Nat.add_comm _ _) hne,
          length_cons, ih.characters, countP_cons_of_neg Bool.false_ne_true]
        omega
      · have hrest := ih.pipes fun hmem => h (mem_cons_of_mem _ hmem)
        by_cases hc : c = '|'
        · subst hc
          rw [cells, sum_modifyHead (List.count '|') 1
            (fun t => by rw [count_cons_self, Nat.add_comm]) hne,
            hrest, countP_cons_of_pos (by decide), Nat.add_comm]
        · have hpipe : ¬ (Mark.escaped c).isPipe = true := by simp [Mark.isPipe, hc]
          rw [cells, sum_modifyHead (List.count '|') 0
            (fun t => by rw [count_cons_of_ne hc, Nat.zero_add]) hne,
            hrest, countP_cons_of_neg hpipe, Nat.zero_add]

theorem of_countP_eq {p q : Mark → Bool} (hqp : ∀ m, q m = true → p m = true) {l : List Mark}
    (h : l.countP p = l.countP q) : ∀ m ∈ l, p m = true → q m = true := by
  induction l with
  | nil => nofun
  | cons m l ih =>
    have hle : l.countP q ≤ l.countP p := countP_mono_left fun m _ => hqp m
    rw [countP_cons, countP_cons] at h
    have hm : p m = true → q m = true := by
      intro hp
      by_contra hq
      rw [if_pos hp, if_neg hq] at h
      omega
    have hrest : l.countP p = l.countP q := by
      by_cases hp : p m = true
      · rw [if_pos hp, if_pos (hm hp)] at h
        omega
      · rw [if_neg hp, if_neg fun hq => hp (hqp m hq)] at h
        exact h
    rintro other (_ | ⟨_, hother⟩)
    · exact hm
    · exact ih hrest other hother

theorem escapes_pipes {s : Str} (h : ∀ c, .escaped c ∈ marks esc s → c = '|') :
    ∀ u c v, s = u ++ '\\' :: c :: v → esc.escapable c = true → c = '|' := by
  fun_induction marks esc s with
  | case1 =>
    intro u c v hs
    cases u <;> cases hs
  | case2 c =>
    intro u d v hs
    cases u with
    | nil => cases hs
    | cons e u => cases u <;> cases hs
  | case3 c d s hand ih =>
    have hd : d = '|' := h d mem_cons_self
    intro u e v hs he
    cases u with
    | nil =>
      obtain rfl := (List.cons.inj (List.cons.inj hs).2).1
      exact hd
    | cons a u =>
      cases u with
      | nil =>
        have := (List.cons.inj (List.cons.inj hs).2).1
        rw [hd] at this
        exact absurd this (by decide)
      | cons b u =>
        exact ih (fun c hc => h c (mem_cons_of_mem _ hc)) u e v
          (List.cons.inj (List.cons.inj hs).2).2 he
  | case4 c d s hand ih =>
    intro u e v hs he
    cases u with
    | nil =>
      obtain ⟨hc, hs⟩ := List.cons.inj hs
      obtain ⟨hd, -⟩ := List.cons.inj hs
      exact absurd ⟨hc, hd ▸ he⟩ hand
    | cons a u =>
      exact ih (fun c hc => h c (mem_cons_of_mem _ hc)) u e v (List.cons.inj hs).2 he

theorem length_escapePipes (t : Str) : (escapePipes t).length = t.length + t.count '|' := by
  induction t with
  | nil => rfl
  | cons c t ih =>
    have hcons : escapePipes (c :: t) = (if c = '|' then ['\\', c] else [c]) ++ escapePipes t :=
      flatMap_cons
    rw [hcons, length_append, ih]
    by_cases hc : c = '|'
    · subst hc
      rw [if_pos rfl, count_cons_self]
      simp only [length_cons, length_nil]
      omega
    · rw [if_neg hc, count_cons_of_ne hc]
      simp only [length_cons, length_nil]
      omega

theorem length_row (texts : List Str) :
    (row texts).length =
      1 + ((texts.map List.length).sum + (texts.map (List.count '|')).sum + 3 * texts.length) := by
  rw [row, length_cons, Nat.add_comm]
  congr 1
  induction texts with
  | nil => rfl
  | cons t texts ih =>
    rw [flatMap_cons, length_append, ih]
    simp only [map_cons, sum_cons, pad, length_append, length_cons,
      length_nil, length_escapePipes]
    omega

theorem sum_length_pad (texts : List Str) :
    ((texts.map pad).map List.length).sum = (texts.map List.length).sum + 2 * texts.length := by
  induction texts with
  | nil => rfl
  | cons t texts ih =>
    rw [map_cons, map_cons, sum_cons, ih]
    simp only [map_cons, sum_cons, pad, length_append, length_cons,
      length_nil]
    omega

theorem map_count_pad (texts : List Str) :
    (texts.map pad).map (List.count '|') = texts.map (List.count '|') := by
  rw [map_map]
  refine map_congr_left fun t _ => ?_
  simp [pad]

/-- Each character of a row that is read back is accounted for: the escapes are those of its
pipes. -/
theorem escapes_of_cells (h : cells (marks esc (row texts)) = [] :: (texts.map pad ++ [[]])) :
    ∀ m ∈ marks esc (row texts), m.isEscape = true → m.isPipe = true := by
  have hcounts := counts_cells (marks esc (row texts))
  rw [h] at hcounts
  have hlength := length_marks esc (row texts)
  have hseparators := hcounts.separators
  have hcharacters := hcounts.characters
  have hpipes := hcounts.pipes (plain_pipe_not_mem esc _)
  have hrow := length_row texts
  have hpad := sum_length_pad texts
  have hcount := congrArg List.sum (map_count_pad texts)
  refine of_countP_eq (fun m hm => ?_) ?_
  · rw [Mark.isPipe, decide_eq_true_eq] at hm
    rw [hm]
    rfl
  · simp only [length_cons, length_append, length_map, map_cons,
      map_append, sum_cons, sum_append, length_nil, map_nil,
      sum_nil, count_nil, hpad, hcount] at *
    omega

theorem escapePipes_append (s t : Str) : escapePipes (s ++ t) = escapePipes s ++ escapePipes t :=
  flatMap_append

theorem clear_of_cells (h : cells (marks esc (row texts)) = [] :: (texts.map pad ++ [[]])) :
    ∀ t ∈ texts, Clear esc t := by
  have hall := escapes_of_cells h
  have hpipe : ∀ u c v, row texts = u ++ '\\' :: c :: v → esc.escapable c = true → c = '|' := by
    refine escapes_pipes fun c hc => ?_
    have := hall _ hc rfl
    rw [Mark.isPipe, decide_eq_true_eq] at this
    exact Mark.escaped.inj this
  rintro _ ht u c v rfl
  obtain ⟨before, after, rfl⟩ := append_of_mem ht
  by_contra hc
  rw [Bool.not_eq_false] at hc
  have hrow : ∃ front back, row (before ++ (u ++ '\\' :: c :: v) :: after) =
      front ++ '\\' :: (escapePipes [c] ++ back) := by
    refine ⟨'|' :: (before.flatMap fun t => pad (escapePipes t) ++ ['|']) ++ ' ' :: escapePipes u,
      escapePipes v ++ ' ' :: '|' :: (after.flatMap fun t => pad (escapePipes t) ++ ['|']), ?_⟩
    have hslash : escapePipes ('\\' :: c :: v) = '\\' :: (escapePipes [c] ++ escapePipes v) := by
      rw [← singleton_append (l := c :: v), escapePipes_append,
        ← singleton_append (l := v), escapePipes_append]
      rfl
    rw [row, flatMap_append, flatMap_cons, escapePipes_append, hslash]
    simp [pad]
  obtain ⟨front, back, hrow⟩ := hrow
  by_cases hc' : c = '|'
  · subst hc'
    exact absurd (hpipe front '\\' ('|' :: back) hrow esc.backslash) (by decide)
  · refine hc' (hpipe front c back ?_ hc)
    rw [hrow, escapePipes, flatMap_cons, if_neg hc']
    rfl

theorem readRow_row (texts : List Str) :
    readRow esc (row texts) = some texts ↔ ∀ t ∈ texts, Clear esc t := by
  rw [readRow_eq_some]
  exact ⟨clear_of_cells, cells_row⟩

end Oxyn.Table
