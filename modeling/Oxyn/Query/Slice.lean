/-
# `Oxyn.Query.Slice` — a slice read alone

What the scanner reads in a text and in a slice of it, when white space of the scanner stands in
front of the slice and behind it, up to a separator.
-/
import Oxyn.Query.Locality

namespace Oxyn

open Text Cursor List

/-! ## The byte behind the slice -/

structure Clear (d : UInt8) : Prop where
  dash : d ≠ Byte.dash
  star : d ≠ Byte.star
  slash : d ≠ Byte.slash
  apostrophe : d ≠ Byte.apostrophe
  doubleQuote : d ≠ Byte.doubleQuote
  backtick : d ≠ Byte.backtick
  closeBracket : d ≠ Byte.closeBracket
  word : isWordByte d = false

theorem clear_semicolon : Clear Byte.semicolon := by
  constructor <;> decide

theorem clear_of_blank {d : UInt8} (h : isAsciiWhitespace d = true) : Clear d := by
  simp only [isAsciiWhitespace, Bool.or_eq_true, beq_iff_eq] at h
  rcases h with (((rfl | rfl) | rfl) | rfl) | rfl <;> constructor <;> decide

/-- Bytes of the text up to a separator at `e`, white space from `n` on. -/
structure EndsAt (b : List UInt8) (n e : Nat) : Prop where
  le : n ≤ e
  blank : BlankRange b n e
  separator : b[e]? = some Byte.semicolon

namespace EndsAt

variable {b : List UInt8} {n e : Nat} (h : EndsAt b n e)

include h

theorem lt_length : e < b.length := (List.getElem?_eq_some_iff.mp h.separator).1

theorem clear : ∃ d, b[n]? = some d ∧ Clear d := by
  rcases Nat.eq_or_lt_of_le h.le with rfl | hlt
  · exact ⟨Byte.semicolon, h.separator, clear_semicolon⟩
  · obtain ⟨d, hd, hw⟩ := h.blank n (Nat.le_refl n) hlt
    exact ⟨d, hd, clear_of_blank hw⟩

/-- What ends before the separator with a byte that is not white space ends by `n`. -/
theorem le_of_last {k : Nat} {c : UInt8} (hk : k < e) (hc : b[k]? = some c)
    (hw : isAsciiWhitespace c = false) : k < n := by
  by_contra hn
  obtain ⟨x, hx, hxw⟩ := h.blank k (by omega) hk
  obtain rfl := Option.some.inj (hc.symm.trans hx)
  rw [hxw] at hw
  simp at hw

/-! ## The elements, the text cut short -/

variable {i : Nat}

theorem skipWord_le (hi : i < n) : skipWord b i ≤ n := by
  obtain ⟨d, hd, hclear⟩ := h.clear
  have := @index_le_of_leaves _ _ _ wordTurn (b.drop (i + 1)) () (i + 1) (n - (i + 1)) b.length d
    (by rw [getElem?_drop, ← hd]; congr 1; omega)
    (fun _ _ => ⟨(), by simp [wordTurn, hclear.word]⟩)
    (fun _ _ _ _ _ hturn => by rw [(wordTurn_leave hturn).1]; omega)
    (fun _ c _ _ hturn => by unfold wordTurn at hturn; split at hturn <;> simp at hturn)
  unfold skipWord
  omega

/-- A loop that ends by `n` in the text ends there in what is left of it, when it does not look for
a clear byte. -/
theorem index_eq {σ ρ : Type} {turn : σ → UInt8 → Option UInt8 → Turn σ ρ}
    (hturn : ∀ d, Clear d → ∀ s c, turn s c (some d) = turn s c none) {k : Nat} {s : σ}
    (hk : k ≤ n) (hle : (loop turn (b.drop k) k s).index b.length ≤ n) :
    (loop turn ((b.take n).drop k) k s).index (b.take n).length =
      (loop turn (b.drop k) k s).index b.length := by
  obtain ⟨d, hd, hclear⟩ := h.clear
  have hn := h.lt_length
  have hne := h.le
  have hcut := @index_take _ _ _ turn (b.drop k) s k (n - k) b.length
    (by rw [getElem?_drop, Nat.add_sub_cancel' hk, hd]; exact hturn d hclear)
    (by omega) (by omega)
  rw [← hcut, drop_take, length_take]
  congr 1
  omega

theorem skipWord_take (hi : i < n) : skipWord (b.take n) i = skipWord b i :=
  @index_eq _ _ _ h _ _ wordTurn (fun _ _ _ _ => rfl) _ _ hi (h.skipWord_le hi)

theorem skipQuoted_le {quote : UInt8} {backslash : Bool}
    (hquote : isAsciiWhitespace quote = false) (hle : skipQuoted b i quote backslash ≤ e) :
    skipQuoted b i quote backslash ≤ n := by
  have hn := h.lt_length
  obtain ⟨r, hl⟩ := AgreeUntil.index_eq
    (e := loop (quotedTurn quote backslash) (b.drop (i + 1)) (i + 1) ()) rfl
    (Nat.lt_of_le_of_lt hle hn)
  obtain ⟨m, _, c, k, hc, hturn, hj⟩ := exists_turn_of_left hl
  obtain ⟨rfl, rfl, -⟩ := quotedTurn_leave hturn
  have hend : skipQuoted b i c backslash = i + 1 + m + 1 := hj
  rw [getElem?_drop] at hc
  have := h.le_of_last (by omega) hc hquote
  omega

theorem skipQuoted_take {quote : UInt8} {backslash : Bool} (hi : i < n)
    (hquote : ∀ d, Clear d → d ≠ quote) (hle : skipQuoted b i quote backslash ≤ n) :
    skipQuoted (b.take n) i quote backslash = skipQuoted b i quote backslash :=
  h.index_eq (fun d hd s c => by simp [quotedTurn, hquote d hd]) hi hle

theorem skipBlockComment_le {nested : Bool} (hle : skipBlockComment b i nested ≤ e) :
    skipBlockComment b i nested ≤ n := by
  have hn := h.lt_length
  obtain ⟨r, hl⟩ := AgreeUntil.index_eq
    (e := loop (blockTurn nested) (b.drop (i + 2)) (i + 2) 1) rfl (Nat.lt_of_le_of_lt hle hn)
  obtain ⟨m, _, c, k, hc, hturn, hj⟩ := exists_turn_of_left hl
  obtain ⟨rfl, -, hnext⟩ := blockTurn_leave hturn
  have hend : skipBlockComment b i nested = i + 2 + m + 2 := hj
  rw [getElem?_drop] at hnext
  have := h.le_of_last (by omega) hnext (by decide)
  omega

theorem skipBlockComment_take {nested : Bool} (hi : i + 2 ≤ n)
    (hle : skipBlockComment b i nested ≤ n) :
    skipBlockComment (b.take n) i nested = skipBlockComment b i nested :=
  h.index_eq (fun d hd s c => by simp [blockTurn, hd.star, hd.slash]) hi hle

theorem skipLineComment_take {stop : LineCommentEnd} (hi : i ≤ n) :
    (skipLineComment (b.take n) i stop).2 = min (skipLineComment b i stop).2 n := by
  have hn := h.lt_length
  have hne := h.le
  have hindex : ∀ b : List UInt8, (skipLineComment b i stop).2 =
      (loop (lineTurn stop) (b.drop i) i ⟨false, false⟩).index b.length := fun b => by
    unfold skipLineComment
    cases loop (lineTurn stop) (b.drop i) i ⟨false, false⟩ <;> rfl
  rw [hindex, hindex]
  rcases Nat.lt_or_ge n ((loop (lineTurn stop) (b.drop i) i ⟨false, false⟩).index b.length) with
    hlt | hle
  · obtain ⟨s, hs⟩ := off_take (blind_lineTurn stop)
      (fun _ _ _ _ _ hturn => (lineTurn_leave hturn).1) (l := b.drop i) (n := n - i)
      (by rw [length_drop]; omega) (by rwa [Nat.add_sub_cancel' hi])
    rw [drop_take, hs, Nat.min_eq_right (Nat.le_of_lt hlt)]
    simp only [Exit.index, length_take]
    omega
  · rw [h.index_eq (fun _ _ _ _ => rfl) hi hle, Nat.min_eq_left hle]

omit h in
theorem isComment_skipLineComment (b : List UInt8) (i : Nat) (stop : LineCommentEnd) :
    (skipLineComment b i stop).1.isComment = true := by
  have htok : ∀ s : LineComment, s.tok.isComment = true := fun s => by
    unfold LineComment.tok
    split <;> rfl
  unfold skipLineComment
  split <;> exact htok _

/-- An element that ends before the separator is read in the slice as in the text, or
is a comment in both. -/
theorem lex_take {c : UInt8} {p : SplitProfile} (hp : p.dollarQuotes = false)
    (hi : i < n) (hle : (lex b i c p).2 ≤ e) :
    (lex (b.take n) i c p = lex b i c p ∧ (lex b i c p).2 ≤ n) ∨
      ((lex b i c p).1.isComment = true ∧ (lex (b.take n) i c p).1.isComment = true ∧
        (lex (b.take n) i c p).2 = min (lex b i c p).2 n) := by
  obtain ⟨d, hd, hclear⟩ := h.clear
  -- the byte after the first one is seen in the slice when it opens a comment
  have hnext : ∀ o : UInt8, (o = Byte.dash ∨ o = Byte.star) →
      ((b.take n)[i + 1]? == some o) = (b[i + 1]? == some o) := by
    intro o ho
    rw [getElem?_take]
    split
    · rfl
    · obtain rfl : i + 1 = n := by omega
      rw [hd]
      rcases ho with rfl | rfl
      · simp [hclear.dash]
      · simp [hclear.star]
  have hsecond : ∀ o : UInt8, (o = Byte.dash ∨ o = Byte.star) → b[i + 1]? = some o →
      i + 2 ≤ n := by
    intro o ho hb
    by_contra hlt
    obtain rfl : i + 1 = n := by omega
    obtain rfl := Option.some.inj (hd.symm.trans hb)
    rcases ho with rfl | rfl
    · exact hclear.dash rfl
    · exact hclear.star rfl
  have hback : hasEscapePrefix (b.take n) i = hasEscapePrefix b i :=
    hasEscapePrefix_congr fun m hm => by rw [getElem?_take, if_pos (by omega)]
  unfold lex at hle ⊢
  rw [hnext _ (.inl rfl), hnext _ (.inr rfl), hback]
  split at hle
  next h1 =>
    rw [if_pos h1, if_pos h1]
    simp only [Bool.and_eq_true, beq_iff_eq] at h1
    exact .inr ⟨isComment_skipLineComment .., isComment_skipLineComment ..,
      h.skipLineComment_take (hsecond _ (.inl rfl) h1.2)⟩
  next h1 =>
  rw [if_neg h1, if_neg h1]
  split at hle
  next h2 =>
    rw [if_pos h2, if_pos h2]
    exact .inr ⟨isComment_skipLineComment .., isComment_skipLineComment ..,
      h.skipLineComment_take hi⟩
  next h2 =>
  rw [if_neg h2, if_neg h2]
  split at hle
  next h3 =>
    rw [if_pos h3, if_pos h3]
    simp only [Bool.and_eq_true, beq_iff_eq] at h3
    have hin := h.skipBlockComment_le hle
    rw [h.skipBlockComment_take (hsecond _ (.inr rfl) h3.2) hin]
    exact .inl ⟨rfl, hin⟩
  next h3 =>
  rw [if_neg h3, if_neg h3]
  split at hle
  next h4 =>
    have hin := h.skipQuoted_le (by decide) hle
    rw [if_pos h4, if_pos h4]
    simp only
    rw [h.skipQuoted_take hi (fun d hd => hd.apostrophe) hin]
    exact .inl ⟨rfl, hin⟩
  next h4 =>
  rw [if_neg h4, if_neg h4]
  split at hle
  next h5 =>
    have hin := h.skipQuoted_le (by decide) hle
    rw [if_pos h5, if_pos h5, h.skipQuoted_take hi (fun d hd => hd.doubleQuote) hin]
    exact .inl ⟨rfl, hin⟩
  next h5 =>
  rw [if_neg h5, if_neg h5]
  split at hle
  next h6 =>
    have hin := h.skipQuoted_le (by decide) hle
    rw [if_pos h6, if_pos h6, h.skipQuoted_take hi (fun d hd => hd.backtick) hin]
    exact .inl ⟨rfl, hin⟩
  next h6 =>
  rw [if_neg h6, if_neg h6]
  split at hle
  next h7 =>
    have hin := h.skipQuoted_le (by decide) hle
    rw [if_pos h7, if_pos h7, skipBracket, skipBracket,
      h.skipQuoted_take hi (fun d hd => hd.closeBracket) hin]
    exact .inl ⟨rfl, hin⟩
  next h7 =>
  rw [if_neg h7, if_neg h7]
  split at hle
  next h8 => simp [hp] at h8
  next h8 =>
  rw [if_neg h8, if_neg h8]
  split at hle
  next h9 =>
    rw [if_pos h9, if_pos h9, h.skipWord_take hi]
    exact .inl ⟨rfl, h.skipWord_le hi⟩
  next h9 =>
    rw [if_neg h9, if_neg h9]
    exact .inl ⟨rfl, hi⟩

end EndsAt

/-! ## Reading the slice -/

theorem atTerminator_semicolon (b : List UInt8) (i : Nat) :
    atTerminator b semicolonBytes i = (b[i]? == some Byte.semicolon) := by
  rw [← head?_drop]
  unfold atTerminator semicolonBytes
  cases b.drop i with
  | nil => rfl
  | cons c l => simp [List.isPrefixOf, eq_comm]

/-- The `n` bytes from `lo` on, with white space in front of them from `start` on, and
behind them up to a separator at `e`. -/
structure SliceAt (b : List UInt8) (start lo n e : Nat) : Prop where
  start_le : start ≤ lo
  front : BlankRange b start lo
  ends : EndsAt b (lo + n) e

namespace SliceAt

variable {b : List UInt8} {start lo n e : Nat} (h : SliceAt b start lo n e)

include h

theorem rest : EndsAt (b.drop lo) n (e - lo) where
  le := by have := h.ends.le; omega
  blank k hk hke := by
    rw [getElem?_drop]
    exact h.ends.blank (lo + k) (by omega) (by omega)
  separator := by
    have := h.ends.le
    rw [getElem?_drop, Nat.add_sub_cancel' (by omega)]
    exact h.ends.separator

theorem start_of_read {j k : Nat} {c : UInt8} (hj : start ≤ j) (hjk : j ≤ k) (hke : k < e)
    (hc : b[k]? = some c) (hw : isAsciiWhitespace c = false) : lo ≤ k ∧ k < lo + n := by
  refine ⟨?_, h.ends.le_of_last hke hc hw⟩
  by_contra hlt
  obtain ⟨x, hx, hxw⟩ := h.front k (by omega) (by omega)
  obtain rfl := Option.some.inj (hc.symm.trans hx)
  rw [hxw] at hw
  simp at hw

omit h in
theorem getElem?_slice {k : Nat} (hk : k < n) : ((b.drop lo).take n)[k]? = b[lo + k]? := by
  rw [getElem?_take, if_pos hk, getElem?_drop]

theorem readAt {p : SplitProfile} (hescape : p.escapeStringPrefix = false)
    (hdollar : p.dollarQuotes = false) {j : Nat} {x : Item Tok} (hj : start ≤ j)
    (hx : readAt b semicolonBytes p j = some x) (hxe : x.stop ≤ e) :
    ∃ y, Oxyn.readAt ((b.drop lo).take n) semicolonBytes p (min (j - lo) n) = some y ∧
      y.stop = min (x.stop - lo) n ∧
      ((x.kind.isComment = true ∧ y.kind.isComment = true) ∨ (x = y.shift lo ∧ y.stop ≤ n)) := by
  have hf := reader_forward hx
  obtain ⟨c, hjx, hblank, hc, hw, hread⟩ := readAt_eq_some.mp hx
  obtain ⟨hlo, hhi⟩ := h.start_of_read hj hjx (by omega) hc hw
  obtain ⟨i, hi⟩ : ∃ i, x.start = lo + i := ⟨x.start - lo, by omega⟩
  rw [hi] at hc hread hblank hf
  have hin : i < n := by omega
  have hslice : ((b.drop lo).take n)[i]? = some c := by rw [getElem?_slice hin, hc]
  have hfront : BlankRange ((b.drop lo).take n) (min (j - lo) n) i := by
    intro k hk hki
    rw [getElem?_slice (by omega)]
    exact hblank (lo + k) (by omega) (by omega)
  have hterm : atTerminator ((b.drop lo).take n) semicolonBytes i =
      atTerminator b semicolonBytes (lo + i) := by
    rw [atTerminator_semicolon, atTerminator_semicolon, hslice, hc]
  have hsome : ∀ y : Item Tok, y.start = i → (atTerminator b semicolonBytes (lo + i) = true ∧
        y.kind = .semicolon ∧ y.stop = i + 1 ∨ atTerminator b semicolonBytes (lo + i) = false ∧
        lex ((b.drop lo).take n) i c p = (y.kind, y.stop)) →
      Oxyn.readAt ((b.drop lo).take n) semicolonBytes p (min (j - lo) n) = some y := by
    rintro y hy hread
    refine readAt_eq_some.mpr ⟨c, ?_⟩
    rw [hy, hterm]
    exact ⟨by omega, hfront, hslice, hw, hread⟩
  rcases hread with ⟨hat, hkind, hstop⟩ | ⟨hat, hlex⟩
  · have hstop' : x.stop = lo + i + 1 := hstop
    refine ⟨⟨.semicolon, i, i + 1⟩, hsome _ rfl (.inl ⟨hat, rfl, rfl⟩), ?_, .inr ⟨?_, hin⟩⟩
    · simp only
      omega
    · rw [Item.shift, ← hkind]
      cases x
      simp only [Item.mk.injEq, true_and] at *
      omega
  · -- the lexer, on the rest of the text, then on the slice
    have hshift := lex_shift (b.take lo) (b.drop lo) (.inl hescape) i c
    have hlen : (b.take lo).length = lo := by
      rw [length_take]
      omega
    rw [take_append_drop, hlen, Nat.add_comm i lo, hlex] at hshift
    obtain ⟨hkind, hstop⟩ := Prod.mk.inj hshift
    rcases h.rest.lex_take hdollar hin (c := c) (by omega) with ⟨hsame, hle⟩ | ⟨hk, hk', hle⟩
    · refine ⟨⟨x.kind, i, (lex (b.drop lo) i c p).2⟩, hsome _ rfl (.inr ⟨hat, ?_⟩), ?_,
        .inr ⟨?_, hle⟩⟩
      · rw [hsame, hkind]
      · simp only
        omega
      · cases x
        simp only [Item.shift, Item.mk.injEq, true_and] at *
        omega
    · refine ⟨⟨(lex ((b.drop lo).take n) i c p).1, i, (lex ((b.drop lo).take n) i c p).2⟩,
        hsome _ rfl (.inr ⟨hat, rfl⟩), ?_, .inl ⟨hkind ▸ hk, hk'⟩⟩
      simp only
      omega

theorem readAt_none {p : SplitProfile} {j : Nat} {x : Item Tok}
    (hx : Oxyn.readAt b semicolonBytes p j = some x) (hxe : x.start = e) :
    Oxyn.readAt ((b.drop lo).take n) semicolonBytes p (min (j - lo) n) = none := by
  obtain ⟨c, hjx, hblank, -⟩ := readAt_eq_some.mp hx
  refine readAt_eq_none.mpr fun k hk hkn => ?_
  have hle := h.ends.le
  rw [length_take] at hkn
  rw [getElem?_slice (by omega)]
  exact hblank (lo + k) (by omega) (by omega)

end SliceAt

end Oxyn
