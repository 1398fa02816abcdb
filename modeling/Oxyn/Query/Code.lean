/-
# `Oxyn.Query.Code` — what lies outside strings and comments

A region is a string, a quoted name or a comment, as the scanner tells them.
-/
import Oxyn.Query.Scan

namespace Oxyn

open Text Cursor List

def IsRegion (x : Item Tok) : Prop :=
  x.kind = .quoted ∨ x.kind = .singleQuoted ∨ x.kind.isComment = true

instance (x : Item Tok) : Decidable (IsRegion x) := inferInstanceAs (Decidable (_ ∨ _))

/-- The byte at `i` is in no quoted region and in no comment. -/
def Outside (p : SplitProfile) (sql : Str) (i : Nat) : Prop :=
  ∀ x ∈ scan sql p, IsRegion x → ¬ x.Covers i

instance (p : SplitProfile) (sql : Str) (i : Nat) : Decidable (Outside p sql i) :=
  inferInstanceAs (Decidable (∀ x ∈ scan sql p, _))

/-- No region goes on at `i`; one may begin there. -/
def InCode (p : SplitProfile) (sql : Str) (i : Nat) : Prop :=
  ∀ x ∈ scan sql p, IsRegion x → ¬ (x.start < i ∧ i < x.stop)

instance (p : SplitProfile) (sql : Str) (i : Nat) : Decidable (InCode p sql i) :=
  inferInstanceAs (Decidable (∀ x ∈ scan sql p, _))

section Lex

variable {b : List UInt8} {i stop : Nat} {c : UInt8} {p : SplitProfile}

theorem lex_symbol (h : lex b i c p = (.symbol, stop)) : stop = i + 1 := by
  unfold lex skipLineComment LineComment.tok at h
  repeat' split at h
  all_goals simp_all

theorem lex_word (h : lex b i c p = (.word, stop)) :
    isWordStart c = true ∧ stop = skipWord b i := by
  unfold lex skipLineComment LineComment.tok at h
  repeat' split at h
  all_goals simp_all

theorem skipWord_eq_run (b : List UInt8) (i : Nat) (hi : i < b.length) :
    skipWord b i = runEnd isWordByte b (i + 1) := by
  have hloop : loop wordTurn (b.drop (i + 1)) (i + 1) () =
      if runEnd isWordByte b (i + 1) < b.length then .left (runEnd isWordByte b (i + 1)) ()
      else .off () :=
    loop_run (fun c n h => by rw [wordTurn, if_pos h])
      (fun c n h => by rw [wordTurn, h]; rfl) b (i + 1)
  have hle := runEnd_le (p := isWordByte) (b := b) (i := i + 1) hi
  unfold skipWord
  rw [hloop]
  split
  · rfl
  · simp only [Exit.index]
    omega

theorem lex_wordByte (h : isWordByte c = true) (p : SplitProfile) :
    lex b i c p = if isWordStart c then (.word, skipWord b i) else (.symbol, i + 1) := by
  have hne : ∀ d : UInt8, isWordByte d = false → (c == d) = false := by
    intro d hd
    refine beq_eq_false_iff_ne.mpr fun heq => ?_
    rw [heq, hd] at h
    cases h
  unfold lex
  simp only [hne Byte.dash (by decide), hne Byte.hash (by decide), hne Byte.slash (by decide),
    hne Byte.apostrophe (by decide), hne Byte.doubleQuote (by decide),
    hne Byte.backtick (by decide), hne Byte.openBracket (by decide),
    hne Byte.dollar (by decide), Bool.false_and, Bool.false_eq_true, if_false]

end Lex

variable {p : SplitProfile} {sql : Str} {i : Nat} {c : UInt8} {x : Item Tok}

theorem lex_of_mem (h : x ∈ scan sql p) :
    ∃ c, (bytes sql)[x.start]? = some c ∧
      (c = Byte.semicolon ∧ x.kind = .semicolon ∧ x.stop = x.start + 1 ∨
        lex (bytes sql) x.start c p = (x.kind, x.stop)) := by
  obtain ⟨j, -, hread⟩ := Reader.mem_items.mp h
  obtain ⟨c, -, -, hc, -, hx⟩ := readAt_eq_some.mp hread
  refine ⟨c, hc, hx.imp (fun hx => ?_) fun hx => hx.2⟩
  have hbyte := byte_of_separator h hx.2.1
  rw [hc] at hbyte
  exact ⟨Option.some.inj hbyte, hx.2.1, separator_stop h hx.2.1⟩

theorem lex_of_region (h : x ∈ scan sql p) (hx : IsRegion x)
    (hc : (bytes sql)[x.start]? = some c) : lex (bytes sql) x.start c p = (x.kind, x.stop) := by
  obtain ⟨d, hd, hsemi | hlex⟩ := lex_of_mem h
  · rcases hx with hx | hx | hx <;> simp [hsemi.2.1, Tok.isComment] at hx
  · rwa [Option.some.inj (hc.symm.trans hd)]

theorem not_wordByte_of_region (h : x ∈ scan sql p) (hx : IsRegion x)
    (hc : (bytes sql)[x.start]? = some c) : isWordByte c = false := by
  refine Bool.eq_false_iff.mpr fun hword => ?_
  have hlex := (lex_wordByte hword p).symm.trans (lex_of_region h hx hc)
  have hkind : x.kind = .word ∨ x.kind = .symbol := by
    split at hlex
    · exact .inl (Prod.mk.inj hlex).1.symm
    · exact .inr (Prod.mk.inj hlex).1.symm
  unfold IsRegion at hx
  rcases hkind with hk | hk <;>
    · rw [hk] at hx
      revert hx
      decide

theorem exists_element (hi : InCode p sql i) (hc : (bytes sql)[i]? = some c)
    (hblank : isAsciiWhitespace c = false) (hword : isWordByte c = false) :
    ∃ x ∈ scan sql p, x.start = i := by
  have hlt := (List.getElem?_eq_some_iff.mp hc).1
  have hcover := Reader.covered_or_between (r := scanner sql p)
    (P := fun k => ∃ x, (bytes sql)[k]? = some x ∧ isAsciiWhitespace x = true)
    (fun j x hx k hjk hk => by
      obtain ⟨_, -, hrange, -⟩ := readAt_eq_some.mp hx
      exact hrange k hjk hk)
    (fun j hx k hjk hk => readAt_eq_none.mp hx k hjk hk) 0 i (Nat.zero_le i) hlt
  rcases hcover with ⟨x, hx, hstart, hstop⟩ | ⟨d, hd, hw⟩
  · refine ⟨x, hx, ?_⟩
    by_contra hne
    have hbefore : x.start < i := by omega
    obtain ⟨d, hd, ⟨-, -, hsemi⟩ | hlex⟩ := lex_of_mem hx
    · omega
    cases hk : x.kind with
    | quoted => exact hi x hx (.inl hk) ⟨hbefore, hstop⟩
    | singleQuoted => exact hi x hx (.inr (.inl hk)) ⟨hbefore, hstop⟩
    | comment | unreadableComment => exact hi x hx (.inr (.inr (by rw [hk]; rfl))) ⟨hbefore, hstop⟩
    | semicolon =>
      have := separator_stop hx hk
      omega
    | symbol =>
      rw [hk] at hlex
      have := lex_symbol hlex
      omega
    | word =>
      rw [hk] at hlex
      have hrun := (lex_word hlex).2
      rw [skipWord_eq_run _ _ (by omega)] at hrun
      obtain ⟨e, he, hp⟩ := of_lt_runEnd (p := isWordByte) (b := bytes sql) (i := x.start + 1)
        (k := i) hbefore (by omega)
      rw [Option.some.inj (he.symm.trans hc), hword] at hp
      cases hp
  · rw [Option.some.inj (hd.symm.trans hc), hblank] at hw
    cases hw

theorem InCode.zero : InCode p sql 0 := fun _ _ _ hinside =>
  absurd hinside.1 (Nat.not_lt_zero _)

theorem InCode.stop (h : x ∈ scan sql p) : InCode p sql x.stop := by
  intro y hy _ hinside
  obtain ⟨-, hx, -⟩ := Reader.bounds_of_mem_items h
  rcases eq_or_apart (Reader.pairwise_items (r := scanner sql p) 0) h hy with rfl | hxy | hyx
  · omega
  · omega
  · omega

theorem InCode.succ (hi : InCode p sql i) (h : ∀ x ∈ scan sql p, IsRegion x → x.start ≠ i) :
    InCode p sql (i + 1) := by
  intro x hx hregion hinside
  have hne := h x hx hregion
  exact hi x hx hregion ⟨by omega, by omega⟩

theorem InCode.outside (hi : InCode p sql i)
    (h : ∀ x ∈ scan sql p, IsRegion x → x.start ≠ i) : Outside p sql i := by
  intro x hx hregion hcovers
  have hne := h x hx hregion
  exact hi x hx hregion ⟨Nat.lt_of_le_of_ne hcovers.1 hne, hcovers.2⟩

theorem InCode.blank {j : Nat} (hi : InCode p sql i) (hij : i ≤ j)
    (hblank : BlankRange (bytes sql) i j) : InCode p sql j := by
  intro x hx hregion hinside
  by_cases hlt : x.start < i
  · exact hi x hx hregion ⟨hlt, Nat.lt_of_le_of_lt hij hinside.2⟩
  · obtain ⟨_, -, hread⟩ := Reader.mem_items.mp hx
    obtain ⟨c, -, -, hc, hvisible, -⟩ := readAt_eq_some.mp hread
    obtain ⟨d, hd, hw⟩ := hblank x.start (Nat.not_lt.mp hlt) hinside.1
    rw [Option.some.inj (hc.symm.trans hd), hw] at hvisible
    cases hvisible

end Oxyn
