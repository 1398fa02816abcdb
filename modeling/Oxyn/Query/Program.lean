/-
# `Oxyn.Query.Program` — a fragment and its stored program

Two loops drive the same block depth: `split` over the batch, and `program_is_complete` over the
text of a fragment.
-/
import Oxyn.Query.Coverage
import Oxyn.Query.Current
import Oxyn.Query.Slice

namespace Oxyn

open Text Cursor List

namespace Mysql

/-! ## The fragment in its batch -/

/-- The scanner of a batch without directives. -/
def scannerAt (sql : Str) (i : Nat) : Scanner := ⟨sql, i, .mySql, [';']⟩

/-- A slice of the text, white space of the scanner in front of it from `start` on and behind it up
to the separator at `e`. -/
structure Excerpt (sql text : Str) (start lo e : Nat) : Prop where
  around : SliceAt (bytes sql) start lo (size text) e
  slice : get? sql lo (lo + size text) = some text

namespace Excerpt

variable {sql text : Str} {start lo e : Nat} (w : Excerpt sql text start lo e)

include w

theorem bytes_eq : bytes text = ((bytes sql).drop lo).take (size text) := by
  refine ext_getElem? fun k => ?_
  rw [bytes_of_get? w.slice, getElem?_take, getElem?_drop]
  split <;> split <;> first | rfl | omega

theorem get?_eq {i j : Nat} (hj : j ≤ size text) :
    get? sql (i + lo) (j + lo) = get? text i j := by
  obtain ⟨u, v, hsql, rfl, -⟩ := get?_eq_some.mp w.slice
  rw [hsql, append_assoc, get?_append_right, get?_append_left hj]

theorem byte_eq {i : Nat} (hi : i < size text) : (bytes sql)[i + lo]? = (bytes text)[i]? := by
  rw [w.bytes_eq, SliceAt.getElem?_slice hi, Nat.add_comm]

end Excerpt

/-- From `i` on, the reading of the batch comes to the separator at `e`. -/
def ComesTo (sql : Str) (e i : Nat) : Prop :=
  ∃ k x, (reader (bytes sql) semicolonBytes .mySql).Reach i k ∧
    readAt (bytes sql) semicolonBytes .mySql k = some x ∧ x.kind = .semicolon ∧ x.start = e

theorem ComesTo.cases {sql : Str} {e i : Nat} (h : ComesTo sql e i) :
    ∃ x, readAt (bytes sql) semicolonBytes .mySql i = some x ∧
      ((x.kind = .semicolon ∧ x.start = e) ∨ (x.stop ≤ e ∧ ComesTo sql e x.stop)) := by
  obtain ⟨k, z, hreach, hz, hkind, hstart⟩ := h
  rcases hreach.cases_head with rfl | ⟨x, hx, hreach⟩
  · exact ⟨z, hz, .inl ⟨hkind, hstart⟩⟩
  · have := hreach.le
    have := (reader_forward hz).1
    exact ⟨x, hx, .inr ⟨by omega, k, z, hreach, hz, hkind, hstart⟩⟩

/-! ## The word ahead -/

def wordNext (s : Scanner) : Option (Option Str × Scanner) :=
  match s.next with
  | some (⟨.word, start, stop⟩, ahead) => some (get? s.sql start stop, ahead)
  | _ => none

theorem expect_eq (s : Scanner) (keyword : String) : expect s keyword =
    (wordNext s).bind fun a => if a.1.any (isKeyword · keyword) then some a.2 else none := by
  unfold expect wordNext
  split <;> simp_all

theorem qualifier_eq (s : Scanner) : Body.qualifier s = (wordNext s).bind fun a =>
    ((a.1.bind Keyword.ofWord).filter Keyword.isQualifier).map (·, a.2) := by
  unfold Body.qualifier wordNext
  split <;> simp_all

variable {x : Item Tok}

theorem wordNext_eq_none {s t : Scanner} (hx : s.next = some (x, t))
    (h : x.kind ≠ .word) : wordNext s = none := by
  obtain ⟨kind, start, stop⟩ := x
  unfold wordNext
  rw [hx]
  cases kind <;> first | rfl | exact absurd rfl h

theorem wordNext_eq_some {s t : Scanner} (hx : s.next = some (x, t))
    (h : x.kind = .word) : wordNext s = some (get? s.sql x.start x.stop, t) := by
  obtain ⟨kind, start, stop⟩ := x
  unfold wordNext
  rw [hx]
  subst h
  rfl

theorem programStep_ahead {s t : Scanner × Body × Bool} (h : programStep s = some t) :
    ∃ x ahead, s.1.next = some (x, ahead) ∧ ahead.Ahead t.1 := by
  obtain ⟨⟨x, ahead⟩, hnext, rfl⟩ := Option.map_eq_some_iff.mp h
  refine ⟨x, ahead, hnext, ?_⟩
  cases hk : x.kind with
  | word => simp only [hk]; exact s.2.1.word_ahead x.start x.stop ahead
  | semicolon => simp only [hk]; split <;> exact .refl ahead
  | comment | unreadableComment | quoted | singleQuoted | symbol =>
    simp only [hk]
    exact .refl ahead

theorem programStep_pos {s t : Scanner × Body × Bool} (h : programStep s = some t) :
    ∃ x ahead, s.1.next = some (x, ahead) ∧ s.1.pos ≤ x.start ∧ x.start < x.stop ∧
      x.stop ≤ t.1.pos := by
  obtain ⟨x, ahead, hnext, hahead⟩ := programStep_ahead h
  obtain ⟨hread, rfl⟩ := Scanner.next_eq_some.mp hnext
  have hf := reader_forward hread
  exact ⟨x, _, hnext, hf.1, hf.2.1, hahead.pos_le⟩

theorem ahead_of_run {s t : Scanner × Body × Bool} (h : programLoop.Reach s t) :
    s.1.Ahead t.1 := by
  induction h with
  | refl => exact .refl _
  | step _ hstep ih =>
    obtain ⟨x, ahead, hnext, hahead⟩ := programStep_ahead hstep
    exact (ih.next hnext).trans hahead

/-! ## Side by side -/

section Alongside

variable {sql text : Str} {start lo e : Nat}

variable (sql text start lo e) in
/-- A scanner of the batch and one of the slice that stand at the same place, or both
in the white space behind the slice. -/
inductive Alongside : Scanner → Scanner → Prop
  | mk {i : Nat} : start ≤ i → ComesTo sql e i →
      Alongside (scannerAt sql i) (scannerAt text (min (i - lo) (size text)))

variable (sql text) in
/-- One element, in the batch and in the slice. -/
def SameElement (x y : Item Tok) : Prop :=
  (x.kind.isComment = true ∧ y.kind.isComment = true) ∨
    (x.kind = y.kind ∧ get? sql x.start x.stop = get? text y.start y.stop ∧
      (bytes sql)[x.start]? = (bytes text)[y.start]?)

variable (w : Excerpt sql text start lo e)

include w

theorem Alongside.next {s s' : Scanner} (h : Alongside sql text start lo e s s') :
    (∃ x t, s.next = some (x, t) ∧ x.kind = .semicolon ∧ x.start = e ∧ s'.next = none) ∨
      ∃ x y t t', s.next = some (x, t) ∧ s'.next = some (y, t') ∧ SameElement sql text x y ∧
        Alongside sql text start lo e t t' := by
  obtain ⟨hi, hcomes⟩ := h
  rename_i i
  obtain ⟨x, hx, hcase⟩ := hcomes.cases
  have hnext : (scannerAt sql i).next = some (x, scannerAt sql x.stop) :=
    Scanner.next_eq_some.mpr ⟨hx, rfl⟩
  rcases hcase with ⟨hkind, hstart⟩ | ⟨hstop, hcomes⟩
  · refine .inl ⟨x, _, hnext, hkind, hstart, ?_⟩
    have := w.around.readAt_none hx hstart
    rw [← w.bytes_eq] at this
    simp only [Scanner.next, scannerAt, Option.map_eq_none_iff]
    exact this
  · obtain ⟨y, hy, hystop, hlike⟩ := w.around.readAt rfl rfl hi hx hstop
    rw [← w.bytes_eq] at hy
    have hf := reader_forward hx
    refine .inr ⟨x, y, scannerAt sql x.stop, scannerAt text (min (x.stop - lo) (size text)),
      hnext, Scanner.next_eq_some.mpr ⟨hy, ?_⟩, ?_, .mk (by omega) hcomes⟩
    · rw [← hystop]
      rfl
    · refine hlike.imp id fun hshown => ?_
      obtain ⟨hshift, hle⟩ := hshown
      have hyf := reader_forward hy
      rw [hshift]
      exact ⟨rfl, w.get?_eq hle, w.byte_eq (by omega)⟩

/-! ### What a body looks ahead for -/

theorem wordNext_alongside {s s' : Scanner} (h : Alongside sql text start lo e s s') :
    (wordNext s).Rel (fun a a' => a.1 = a'.1 ∧ Alongside sql text start lo e a.2 a'.2)
      (wordNext s') := by
  have hsql : s.sql = sql ∧ s'.sql = text := by cases h; exact ⟨rfl, rfl⟩
  have hcomment : ∀ {x : Item Tok}, x.kind.isComment = true → x.kind ≠ .word := by
    intro x hx hk
    rw [hk] at hx
    simp [Tok.isComment] at hx
  rcases h.next w with ⟨x, t, hx, hk, -, hnone⟩ | ⟨x, y, t, t', hx, hy, hsame, ht⟩
  · rw [wordNext_eq_none hx (by simp [hk]), wordNext, hnone]
    exact .none
  · rcases hsame with ⟨hxk, hyk⟩ | ⟨hkind, hget, -⟩
    · rw [wordNext_eq_none hx (hcomment hxk), wordNext_eq_none hy (hcomment hyk)]
      exact .none
    · by_cases hword : x.kind = .word
      · rw [wordNext_eq_some hx hword, wordNext_eq_some hy (hkind ▸ hword), hsql.1, hsql.2]
        exact .some ⟨hget, ht⟩
      · rw [wordNext_eq_none hx hword, wordNext_eq_none hy (hkind ▸ hword)]
        exact .none

theorem expect_alongside {s s' : Scanner} (h : Alongside sql text start lo e s s')
    (keyword : String) :
    (expect s keyword).Rel (Alongside sql text start lo e) (expect s' keyword) := by
  have hnext := wordNext_alongside w h
  rw [expect_eq, expect_eq]
  generalize wordNext s = q at hnext ⊢
  generalize wordNext s' = q' at hnext ⊢
  cases hnext with
  | none => exact .none
  | some hboth =>
    obtain ⟨heq, ht⟩ := hboth
    simp only [Option.bind_some, heq]
    split
    · exact .some ht
    · exact .none

theorem skipNotAtomic_alongside {s s' : Scanner} (h : Alongside sql text start lo e s s') :
    (skipNotAtomic s).Rel (Alongside sql text start lo e) (skipNotAtomic s') := by
  have hnot := expect_alongside w h "not"
  unfold skipNotAtomic
  generalize expect s "not" = q at hnot ⊢
  generalize expect s' "not" = q' at hnot ⊢
  cases hnot with
  | none => exact .none
  | some ht => exact expect_alongside w ht "atomic"

theorem qualifier_alongside {s s' : Scanner} (h : Alongside sql text start lo e s s') :
    (Body.qualifier s).Rel (fun a a' => a.1 = a'.1 ∧ Alongside sql text start lo e a.2 a'.2)
      (Body.qualifier s') := by
  have hnext := wordNext_alongside w h
  rw [qualifier_eq, qualifier_eq]
  generalize wordNext s = q at hnext ⊢
  generalize wordNext s' = q' at hnext ⊢
  cases hnext with
  | none => exact .none
  | some hboth =>
    obtain ⟨heq, ht⟩ := hboth
    rename_i a a'
    simp only [Option.bind_some, heq]
    cases (a'.1.bind Keyword.ofWord).filter Keyword.isQualifier with
    | none => exact .none
    | some keyword => exact .some ⟨rfl, ht⟩

theorem opensBlock_alongside {s s' : Scanner} (h : Alongside sql text start lo e s s')
    (atStart existsClause : Bool) :
    opensBlock atStart s existsClause = opensBlock atStart s' existsClause := by
  have hsql : s.sql = sql ∧ s'.sql = text := by cases h; exact ⟨rfl, rfl⟩
  unfold opensBlock
  split
  · rfl
  · rcases h.next w with ⟨x, t, hx, hk, -, hnone⟩ | ⟨x, y, t, t', hx, hy, hsame, -⟩
    · rw [hx, hnone]
      obtain ⟨kind, a, b⟩ := x
      obtain rfl : kind = .semicolon := hk
      rfl
    · rw [hx, hy, hsql.1, hsql.2]
      obtain ⟨kind, a, b⟩ := x
      obtain ⟨kind', a', b'⟩ := y
      rcases hsame with ⟨hxk, hyk⟩ | ⟨hkind, hget, hbyte⟩
      · cases kind <;> simp [Tok.isComment] at hxk <;> cases kind' <;>
          simp [Tok.isComment] at hyk <;> rfl
      · obtain rfl : kind = kind' := hkind
        simp only at hget hbyte
        cases kind <;> simp only [hget, hbyte]

/-! ### What a body reads -/

variable (sql text start lo e) in
def Paired (p p' : Body × Scanner) : Prop :=
  p.1 = p'.1 ∧ Alongside sql text start lo e p.2 p'.2

theorem close_paired {s s' : Scanner} (h : Alongside sql text start lo e s s') (b : Body)
    (atStart : Bool) : Paired sql text start lo e (b.close atStart s) (b.close atStart s') := by
  have hq := qualifier_alongside w h
  unfold Body.close
  generalize Body.qualifier s = q at hq ⊢
  generalize Body.qualifier s' = q' at hq ⊢
  cases hq with
  | some hboth =>
    obtain ⟨heq, ht⟩ := hboth
    exact ⟨by simp only [heq], ht⟩
  | none =>
    dsimp only
    split
    · exact ⟨rfl, h⟩
    · split <;> exact ⟨rfl, h⟩

theorem bodyWord_paired {s s' : Scanner} (h : Alongside sql text start lo e s s') (b : Body)
    (word : Str) : Paired sql text start lo e (b.bodyWord word s) (b.bodyWord word s') := by
  unfold Body.bodyWord
  dsimp only
  split
  case h_9 => exact close_paired w h _ _
  all_goals exact ⟨by simp only [opensBlock_alongside w h], h⟩

theorem firstWord_paired {s s' : Scanner} (h : Alongside sql text start lo e s s') (b : Body)
    (word : Str) : Paired sql text start lo e (b.firstWord word s) (b.firstWord word s') := by
  have hskip := skipNotAtomic_alongside w h
  unfold Body.firstWord
  split
  · exact ⟨rfl, h⟩
  · split
    · generalize skipNotAtomic s = q at hskip ⊢
      generalize skipNotAtomic s' = q' at hskip ⊢
      cases hskip with
      | none => exact ⟨rfl, h⟩
      | some ht => exact ⟨rfl, ht⟩
    · exact ⟨rfl, h⟩

theorem word_paired {s s' : Scanner} (h : Alongside sql text start lo e s s') (b : Body)
    {x y : Item Tok} (hget : get? sql x.start x.stop = get? text y.start y.stop) :
    Paired sql text start lo e (b.word x.start x.stop s) (b.word y.start y.stop s') := by
  have hsql : s.sql = sql ∧ s'.sql = text := by cases h; exact ⟨rfl, rfl⟩
  unfold Body.word
  rw [hsql.1, hsql.2, hget]
  cases get? text y.start y.stop with
  | none => exact ⟨rfl, h⟩
  | some word =>
    dsimp only
    cases b.header with
    | start => exact firstWord_paired w h b word
    | create => dsimp only; split <;> exact ⟨rfl, h⟩
    | program => exact bodyWord_paired w h b word
    | other => exact ⟨rfl, h⟩

/-! ### The loop of `program_is_complete`, over the batch and over the slice -/

variable (sql text start lo e) in
/-- The same body, nothing but one statement read, and scanners side by side. -/
structure InStep (s s' : Scanner × Body × Bool) : Prop where
  scanners : Alongside sql text start lo e s.1 s'.1
  same : s.2 = s'.2

/-- One turn of the loop over the batch is one turn over the slice, or the separator
that ends the slice. -/
theorem InStep.step {s t s' : Scanner × Body × Bool} (h : InStep sql text start lo e s s')
    (hstep : programStep s = some t) :
    (∃ x u, s.1.next = some (x, u) ∧ x.kind = .semicolon ∧ x.start = e ∧
        programStep s' = none) ∨
      ∃ t', programStep s' = some t' ∧ InStep sql text start lo e t t' := by
  obtain ⟨scanner, body, single⟩ := s
  obtain ⟨scanner', body', single'⟩ := s'
  obtain ⟨hscan, hsame⟩ := h
  simp only [Prod.mk.injEq] at hsame
  obtain ⟨rfl, rfl⟩ := hsame
  have hsql : scanner.sql = sql ∧ scanner'.sql = text := by cases hscan; exact ⟨rfl, rfl⟩
  rcases hscan.next w with ⟨x, u, hx, hk, hstart, hnone⟩ | ⟨x, y, u, u', hx, hy, hlike, hu⟩
  · exact .inl ⟨x, u, hx, hk, hstart, by simp only [programStep, hnone, Option.map_none]⟩
  · refine .inr ⟨_, by simp only [programStep, hy, Option.map_some]; rfl, ?_⟩
    simp only [programStep, hx, Option.map_some, Option.some.injEq] at hstep
    subst hstep
    rcases hlike with ⟨hxk, hyk⟩ | ⟨hkind, hget, hbyte⟩
    · have hcomment : ∀ {k : Tok}, k.isComment = true → k = .comment ∨ k = .unreadableComment := by
        intro k hk
        cases k <;> simp_all [Tok.isComment]
      rcases hcomment hxk with hxk | hxk <;> rcases hcomment hyk with hyk | hyk <;>
        simp only [hxk, hyk] <;> exact ⟨hu, rfl⟩
    · rw [hkind]
      cases hk : y.kind with
      | comment | unreadableComment => exact ⟨hu, rfl⟩
      | semicolon => dsimp only; split <;> exact ⟨hu, rfl⟩
      | word =>
        obtain ⟨hbody, hahead⟩ := word_paired w hu body hget
        exact ⟨hahead, by simp only [hbody]⟩
      | quoted | singleQuoted | symbol =>
        have hcolon : isColon scanner.sql x = isColon scanner'.sql y := by
          unfold isColon
          rw [hkind, hsql.1, hsql.2, hbyte]
        exact ⟨hu, by simp only [hcolon]⟩

/-- The run of the loop over the batch, up to the separator that ends the slice, is its
run over the slice. -/
theorem InStep.run {s t s' : Scanner × Body × Bool} (h : InStep sql text start lo e s s')
    (hrun : programLoop.Reach s t) (hpos : t.1.pos ≤ e) :
    ∃ t', programLoop.Reach s' t' ∧ InStep sql text start lo e t t' := by
  induction hrun with
  | refl => exact ⟨s', .refl, h⟩
  | @step t u _ hstep ih =>
    obtain ⟨x, ahead, hx, hstart, hlt, hstop⟩ := programStep_pos hstep
    obtain ⟨t', hreach, hin⟩ := ih (by omega)
    rcases hin.step w hstep with ⟨y, _, hy, -, hy', -⟩ | ⟨u', hstep', hin'⟩
    · -- the separator is not behind the end of the run
      obtain ⟨rfl, -⟩ := Prod.mk.inj (Option.some.inj (hx.symm.trans hy))
      omega
    · exact ⟨u', .step hreach hstep', hin'⟩

theorem Alongside.next_eq_none {s s' t : Scanner}
    (h : Alongside sql text start lo e s s') (hx : s.next = some (x, t)) (hstart : x.start = e) :
    s'.next = none := by
  obtain ⟨-, -⟩ := h
  have hread := w.around.readAt_none (Scanner.next_eq_some.mp hx).1 hstart
  rw [← w.bytes_eq] at hread
  simp only [Scanner.next, scannerAt, Option.map_eq_none_iff]
  exact hread

end Alongside

/-- A slice read to its end with no body open is no stored program cut short. -/
theorem Excerpt.complete {sql text : Str} {start lo : Nat} {scanner ahead : Scanner}
    {body : Body} (w : Excerpt sql text start lo x.start)
    (hrun : programLoop.Reach (scannerAt sql start, .empty, true) (scanner, body, true))
    (hx : scanner.next = some (x, ahead)) (hkind : x.kind = .semicolon)
    (hclosed : body.isOpen = false) : programIsComplete text ≠ some false := by
  obtain ⟨hsql, hprofile, hterminator, hreach⟩ := ahead_of_run hrun
  have hread := (Scanner.next_eq_some.mp hx).1
  rw [hsql, hprofile, hterminator] at hread
  -- both loops start at the slice, and come to the separator in step
  have hin : InStep sql text start lo x.start (scannerAt sql start, .empty, true)
      (scannerAt text (min (start - lo) (size text)), .empty, true) :=
    ⟨.mk (Nat.le_refl start) ⟨scanner.pos, x, hreach, hread, hkind, rfl⟩, rfl⟩
  obtain ⟨t', hrun', hin'⟩ := hin.run w hrun (reader_forward hread).1
  obtain ⟨scanner', body', single'⟩ := t'
  obtain ⟨hscan, hsame⟩ := hin'
  simp only [Prod.mk.injEq] at hsame
  obtain ⟨rfl, rfl⟩ := hsame
  have hnone : programLoop.step (scanner', body, true) = none := by
    simp only [programLoop, programStep, hscan.next_eq_none w hx rfl, Option.map_none]
  have hzero : min (start - lo) (size text) = 0 := by
    have := w.around.start_le
    omega
  have hfinal : programLoop.final (.start text .mySql, .empty, true) = (scanner', body, true) := by
    rw [hzero] at hrun'
    exact hrun'.final_eq hnone
  unfold programIsComplete
  rw [hfinal]
  simp only [hclosed]
  split <;> simp

/-! ## What was trimmed off -/

/-- The white space around the fragment is the scanner's: no vertical tab, and none of what Unicode
has beyond ASCII. -/
def AsciiBordered (sql : Str) (f : Fragment) : Prop :=
  (∀ c ∈ ((get? sql 0 f.start).getD []).rtakeWhile isWhitespace, isAsciiBlank c = true) ∧
    ∀ c ∈ ((get? sql f.stop (size sql)).getD []).takeWhile isWhitespace, isAsciiBlank c = true

instance (sql : Str) (f : Fragment) : Decidable (AsciiBordered sql f) :=
  inferInstanceAs (Decidable (_ ∧ _))

theorem blank_of_bytes {t : Str} (h : ∀ c ∈ t, isAsciiBlank c = true) :
    ∀ x ∈ bytes t, isAsciiWhitespace x = true := by
  have hchar : ∀ c, isAsciiBlank c = true →
      ∀ x ∈ String.utf8EncodeChar c, isAsciiWhitespace x = true := by
    intro c hblank
    simp only [isAsciiBlank, Bool.or_eq_true, beq_iff_eq] at hblank
    rcases hblank with (((rfl | rfl) | rfl) | rfl) | rfl <;> decide
  intro x hx
  obtain ⟨c, hc, hxc⟩ := mem_flatMap.mp hx
  exact hchar c (h c hc) x hxc

theorem blankRange_of_blanks {u t v : Str} (h : ∀ c ∈ t, isAsciiBlank c = true) :
    BlankRange (bytes (u ++ t ++ v)) (size u) (size u + size t) := by
  intro k hk hlt
  have hin : k - size u < (bytes t).length := by
    rw [length_bytes]
    omega
  refine ⟨(bytes t)[k - size u], ?_, blank_of_bytes h _ (getElem_mem hin)⟩
  rw [bytes_append, getElem?_append_left (by simp; omega), bytes_append,
    getElem?_append_right hk, length_bytes, getElem?_eq_getElem hin]

theorem excerpt_of_fragment? {sql : Str} {start e : Nat} {flags : Flags} {f : Fragment}
    (h : fragment? sql start e flags = some f) (hborder : AsciiBordered sql f)
    (hsep : (bytes sql)[e]? = some Byte.semicolon) : Excerpt sql f.text start f.start e := by
  obtain ⟨raw, hraw, -, rfl⟩ := fragment?_eq_some.mp h
  obtain ⟨hfront, hback⟩ := hborder
  obtain ⟨u, v, hsql, rfl, rfl⟩ := get?_eq_some.mp hraw
  have hcut := leading_trim_trailing raw
  have hsize := congrArg size hcut
  simp only [size_append] at hsize
  have hsql' : sql = u ++ leading raw ++ trim raw ++ (trailing raw ++ v) := by
    rw [hsql]
    conv_lhs => rw [hcut]
    simp
  have hlead : get? sql 0 (size u + size (leading raw)) = some (u ++ leading raw) :=
    get?_eq_some.mpr ⟨[], trim raw ++ (trailing raw ++ v), by rw [hsql']; simp, rfl, by simp⟩
  have htrail : get? sql (size u + size (leading raw) + size (trim raw)) (size sql) =
      some (trailing raw ++ v) :=
    get?_eq_some.mpr ⟨u ++ leading raw ++ trim raw, [], by rw [hsql']; simp,
      by simp [Nat.add_assoc], by rw [hsql']; simp; omega⟩
  simp only at hfront hback
  rw [hlead, Option.getD_some] at hfront
  rw [htrail, Option.getD_some] at hback
  have hblank₁ : ∀ c ∈ leading raw, isAsciiBlank c = true := by
    intro c hc
    refine hfront c ?_
    rw [List.rtakeWhile, reverse_append, takeWhile_append_of_pos fun d hd =>
      isWhitespace_of_mem_leading (mem_reverse.mp hd)]
    simp [hc]
  have hblank₂ : ∀ c ∈ trailing raw, isAsciiBlank c = true := by
    intro c hc
    refine hback c ?_
    rw [takeWhile_append_of_pos fun d hd => isWhitespace_of_mem_trailing hd]
    exact mem_append_left _ hc
  refine ⟨⟨Nat.le_add_right .., ?_, ⟨?_, ?_, hsep⟩⟩, ?_⟩
  · have := blankRange_of_blanks (u := u) (v := trim raw ++ (trailing raw ++ v)) hblank₁
    rwa [← append_assoc, ← hsql'] at this
  · simp only
    omega
  · have := blankRange_of_blanks (u := u ++ leading raw ++ trim raw) (v := v) hblank₂
    rw [append_assoc, ← hsql'] at this
    simpa [hsize, Nat.add_assoc] using this
  · exact (get?_trim hraw).1

/-! ## The run of the batch -/

/-- No word of the text is a `DELIMITER` directive. -/
def HoldsNoDirective (sql : Str) : Prop :=
  ∀ x ∈ scan sql .mySql, x.kind = .word → directiveAt sql x.start x.stop = none

instance (sql : Str) : Decidable (HoldsNoDirective sql) :=
  inferInstanceAs (Decidable (∀ x ∈ scan sql .mySql, _ → _))

/-- Without directives the loop has done, since the end of the last statement, what the loop of
`program_is_complete` does. -/
structure State.Reads (sql : Str) (s : State) : Prop where
  scanner : s.scanner = scannerAt sql s.scanner.pos
  reach : (Oxyn.scanner sql .mySql).Reach 0 s.scanner.pos
  body : programLoop.Reach (scannerAt sql s.pending.start, .empty, true)
    (s.scanner, s.body, true)

/-- The fragment was cut at a separator the loop read with no body open. -/
def CutAt (sql : Str) (f : Fragment) : Prop :=
  ∃ (s : State) (x : Item Tok) (ahead : Scanner) (flags : Flags),
    s.Reads sql ∧ s.scanner.next = some (x, ahead) ∧ x.kind = .semicolon ∧
      s.body.isOpen = false ∧ fragment? sql s.pending.start x.start flags = some f

def CutsAt (sql : Str) (l : List Fragment) : Prop := ∀ f ∈ l, f.terminated = true → CutAt sql f

theorem cutsAt_flush {sql : Str} {p : Pending} {stop : Nat} {terminated : Bool}
    {l : List Fragment} (h : CutsAt sql l)
    (hcut : terminated = true → ∀ flags f, fragment? sql p.start stop flags = some f → CutAt sql f) :
    CutsAt sql (p.flush sql stop terminated l) := by
  intro f hf hterm
  unfold Pending.flush pushFragment at hf
  split at hf
  · rcases mem_append.mp hf with hf | hf
    · exact h f hf hterm
    · have hf := Option.mem_toList.mp hf
      obtain ⟨raw, -, -, rfl⟩ := fragment?_eq_some.mp hf
      exact hcut hterm _ _ hf
  · exact h f hf hterm

theorem State.Reads.step {sql : Str} (hnone : HoldsNoDirective sql) {s t : State}
    (h : s.Reads sql) (hcuts : CutsAt sql s.fragments) (hstep : s.step = some t) :
    t.Reads sql ∧ CutsAt sql t.fragments := by
  obtain ⟨x, ahead, hnext, rfl⟩ := State.step_cases hstep
  have hreads := h
  obtain ⟨hscanner, hreach, hbody⟩ := h
  obtain ⟨i, hi⟩ : ∃ i, s.scanner = scannerAt sql i := ⟨_, hscanner⟩
  obtain ⟨scanner, pending, body, fragments⟩ := s
  simp only at hi hnext hreach hbody hcuts ⊢
  subst hi
  obtain ⟨hread, rfl⟩ := Scanner.next_eq_some.mp hnext
  have hread : (Oxyn.scanner sql .mySql).next i = some x := hread
  have hreach' := Reader.Reach.step hreach hread
  -- what the loop of `program_is_complete` does on this element
  have hturn : ∀ {u : Scanner} {b : Body}, programStep (scannerAt sql i, body, true) =
      some (u, b, true) →
      programLoop.Reach (scannerAt sql pending.start, .empty, true) (u, b, true) :=
    fun hu => .step hbody hu
  simp only [programStep, hnext, Option.map_some] at hturn
  unfold State.read
  cases hk : x.kind with
  | comment | unreadableComment | quoted | singleQuoted | symbol =>
    simp only [hk] at hturn
    exact ⟨⟨rfl, hreach', hturn rfl⟩, hcuts⟩
  | semicolon =>
    simp only [hk] at hturn
    cases hopen : body.isOpen with
    | true =>
      simp only [hopen, if_true] at hturn ⊢
      exact ⟨⟨rfl, hreach', hturn rfl⟩, hcuts⟩
    | false =>
      simp only [Bool.false_eq_true, if_false]
      refine ⟨⟨rfl, hreach', .refl⟩, cutsAt_flush hcuts fun _ flags f hf => ?_⟩
      exact ⟨_, x, _, flags, hreads, hnext, hk, hopen, hf⟩
  | word =>
    simp only [hk] at hturn
    have hword := hnone x (Reader.mem_items.mpr ⟨_, hreach, hread⟩) hk
    have hahead := body.word_ahead x.start x.stop (scannerAt sql x.stop)
    have hnew : (body.word x.start x.stop (scannerAt sql x.stop)).2 =
        scannerAt sql (body.word x.start x.stop (scannerAt sql x.stop)).2.pos := by
      obtain ⟨hsql, hprofile, hterminator, -⟩ := hahead
      generalize (body.word x.start x.stop (scannerAt sql x.stop)).2 = u at *
      obtain ⟨a, b, c, d⟩ := u
      simp only at hsql hprofile hterminator
      subst hsql hprofile hterminator
      rfl
    have hread' : State.readWord ⟨scannerAt sql x.stop, pending, body, fragments⟩ x =
        ⟨(body.word x.start x.stop (scannerAt sql x.stop)).2, pending.withCode,
          (body.word x.start x.stop (scannerAt sql x.stop)).1, fragments⟩ := by
      simp [State.readWord, scannerAt, hword]
    have hgoal : State.Reads sql ⟨(body.word x.start x.stop (scannerAt sql x.stop)).2,
        pending.withCode, (body.word x.start x.stop (scannerAt sql x.stop)).1, fragments⟩ :=
      ⟨hnew, hreach'.trans hahead.reach, hturn rfl⟩
    simp only [scannerAt] at hread' hgoal ⊢
    rw [hread']
    exact ⟨hgoal, hcuts⟩

theorem State.reads_of_reach {sql : Str} (hnone : HoldsNoDirective sql) {s : State}
    (h : batch.Reach (.initial sql) s) : s.Reads sql ∧ CutsAt sql s.fragments := by
  induction h with
  | refl => exact ⟨⟨rfl, .refl, .refl⟩, fun f hf => by simp [State.initial] at hf⟩
  | step _ hstep ih => exact ih.1.step hnone ih.2 hstep

theorem cutsAt_split {sql : Str} (hnone : HoldsNoDirective sql) : CutsAt sql (split sql) := by
  obtain ⟨hreads, hcuts⟩ := State.reads_of_reach hnone (Loop.reach_final (State.initial sql))
  unfold split State.finish
  rw [hreads.scanner]
  exact cutsAt_flush hcuts fun h => absurd h Bool.false_ne_true

/-- A fragment ended by a separator, and trimmed of white space of the scanner only, is
no stored program with a body that is open or a statement behind it. -/
theorem fragment_holds_no_open_body {sql : Str} (hnone : HoldsNoDirective sql) {f : Fragment}
    (hf : f ∈ split sql) (hterminated : f.terminated = true) (hborder : AsciiBordered sql f) :
    programIsComplete f.text ≠ some false := by
  obtain ⟨s, x, ahead, flags, ⟨hscanner, hreach, hbody⟩, hnext, hkind, hclosed, hcut⟩ :=
    cutsAt_split hnone f hf hterminated
  have hsep : (bytes sql)[x.start]? = some Byte.semicolon := by
    have hread := (Scanner.next_eq_some.mp hnext).1
    rw [hscanner] at hread
    exact byte_of_separator (Reader.mem_items.mpr ⟨_, hreach, hread⟩) hkind
  exact (excerpt_of_fragment? hcut hborder hsep).complete hbody hnext hkind hclosed

/-- A procedure, its body closed, in a batch of two statements. -/
theorem fragment_of_a_closed_body :
    programIsComplete "CREATE PROCEDURE p() BEGIN SELECT 1; END".toList ≠ some false :=
  @fragment_holds_no_open_body
    "CREATE PROCEDURE p() BEGIN SELECT 1; END ;\nSELECT 2".toList
    (by rw [String.toList_ofList]; decide)
    ⟨"CREATE PROCEDURE p() BEGIN SELECT 1; END".toList, 0, 40, false, true, false⟩
    (by rw [String.toList_ofList, String.toList_ofList]; decide) rfl
    (by rw [String.toList_ofList]; decide)

/-- A no-break space in front of `CREATE`: the body is cut at its first separator. -/
theorem fragment_of_a_body_cut_short :
    ¬ ∀ sql, HoldsNoDirective sql → ∀ f ∈ split sql, f.terminated = true →
      programIsComplete f.text ≠ some false := by
  intro h
  exact h "\u00a0CREATE PROCEDURE p() BEGIN SELECT 1; END".toList
    (by rw [String.toList_ofList]; decide)
    ⟨"CREATE PROCEDURE p() BEGIN SELECT 1".toList, 2, 37, false, true, false⟩
    (by rw [String.toList_ofList, String.toList_ofList]; decide) rfl
    (by rw [String.toList_ofList]; decide)

end Mysql

end Oxyn
