/-
# `Oxyn.Query.Locality` — how far the scanner looks

Composition rests on two facts about one element.
-/
import Oxyn.Query.Scan

namespace Oxyn

open Text Cursor List

/-! ## The byte after the element -/

structure Inert (d : UInt8) : Prop where
  tag : ∀ first next, tagTurn first d next = .leave 0 false
  word : isWordByte d = false
  plain : d ≠ 0x65 ∧ d ≠ 0x45
  opening : d ≠ Byte.dash ∧ d ≠ Byte.star
  quote : d ≠ Byte.apostrophe ∧ d ≠ Byte.doubleQuote ∧ d ≠ Byte.backtick ∧ d ≠ Byte.closeBracket
  line : d ≠ Byte.lineFeed ∧ d ≠ Byte.carriageReturn

theorem inert_semicolon : Inert Byte.semicolon :=
  ⟨fun first _ => by cases first <;> rfl, by decide, by decide, by decide, by decide, by decide⟩

theorem inert_slash : Inert Byte.slash :=
  ⟨fun first _ => by cases first <;> rfl, by decide, by decide, by decide, by decide, by decide⟩

theorem inert_space : Inert 0x20 :=
  ⟨fun first _ => by cases first <;> rfl, by decide, by decide, by decide, by decide, by decide⟩

/-- Two bytes after an element that cannot be told apart from inside it. -/
def Alike (d d' : UInt8) : Prop := d = d' ∨ Inert d ∧ Inert d'

theorem blind_wordTurn : Blind wordTurn := fun _ _ _ _ => rfl

theorem blind_lineTurn (stop : LineCommentEnd) : Blind (lineTurn stop) := fun _ _ _ _ => rfl

theorem blind_tagTurn : Blind tagTurn := fun _ _ _ _ => rfl

theorem sighted_blockTurn (nested : Bool) : Sighted (blockTurn nested) := fun _ _ _ _ h => by
  have := (blockTurn_leave h).1
  omega

theorem sighted_quotedTurn (quote : UInt8) (backslash : Bool) :
    Sighted (quotedTurn quote backslash) := fun _ _ _ _ h => by
  have := (quotedTurn_leave h).1
  omega

/-- Two buffers that agree from `lo` up to `n`, and hold bytes alike at `n`. -/
structure AgreeUntil (b b' : List UInt8) (lo n : Nat) (d d' : UInt8) : Prop where
  agree : ∀ m, lo ≤ m → m < n → b[m]? = b'[m]?
  left : b[n]? = some d
  right : b'[n]? = some d'
  alike : Alike d d'

namespace AgreeUntil

variable {b b' : List UInt8} {lo n : Nat} {d d' : UInt8} (h : AgreeUntil b b' lo n d d')

include h

theorem lt_length : n < b.length := (List.getElem?_eq_some_iff.mp h.left).1

theorem drop {i m : Nat} (hi : lo ≤ i) (hm : i + m < n) :
    (b.drop i)[m]? = (b'.drop i)[m]? := by
  simp only [getElem?_drop]
  exact h.agree _ (by omega) hm

variable {σ ρ : Type}

theorem loop_blind {turn : σ → UInt8 → Option UInt8 → Turn σ ρ} (hturn : Blind turn)
    (hd : Inert d → Inert d' → ∀ s next r, turn s d next = .leave 0 r →
      turn s d' next = .leave 0 r)
    {i j : Nat} {s : σ} {r : ρ} (hi : lo ≤ i)
    (hl : loop turn (b.drop i) i s = .left j r) (hj : j ≤ n) :
    loop turn (b'.drop i) i s = .left j r := by
  refine loop_congr_blind hturn hl (fun m hm => h.drop hi (by omega)) fun m c hm hc => ?_
  rw [getElem?_drop] at hc
  by_cases hlt : i + m < n
  · exact ⟨c, by rw [getElem?_drop, ← h.agree _ (by omega) hlt, hc], fun _ _ hleave => hleave⟩
  · obtain rfl : i + m = n := by omega
    obtain rfl := Option.some.inj (h.left.symm.trans hc)
    refine ⟨d', by rw [getElem?_drop, h.right], fun s next hleave => ?_⟩
    rcases h.alike with rfl | ⟨hin, hin'⟩
    · exact hleave
    · exact hd hin hin' s next r hleave

/-- So does a loop that looks one byte ahead. -/
theorem loop_sighted {turn : σ → UInt8 → Option UInt8 → Turn σ ρ} (hturn : Sighted turn)
    (hd : Inert d → Inert d' → ∀ s c r, turn s c (some d) = .leave 1 r →
      turn s c (some d') = .leave 1 r)
    {i j : Nat} {s : σ} {r : ρ} (hi : lo ≤ i)
    (hl : loop turn (b.drop i) i s = .left j r) (hj : j ≤ n) :
    loop turn (b'.drop i) i s = .left j r := by
  refine loop_congr_sighted hturn hl (fun m hm => h.drop hi (by omega)) fun m s c hm hleave => ?_
  by_cases hlt : i + m < n
  · rwa [← h.drop hi hlt]
  · obtain rfl : i + m = n := by omega
    rw [getElem?_drop, h.left] at hleave
    rw [getElem?_drop, h.right]
    rcases h.alike with rfl | ⟨hin, hin'⟩
    · exact hleave
    · exact hd hin hin' s c r hleave

omit h in
theorem index_eq {e : Exit σ ρ} {stop j : Nat} (he : e.index stop = j)
    (hj : j < stop) : ∃ r, e = .left j r := by
  cases e with
  | left i r => exact ⟨r, by rw [← he]; rfl⟩
  | off s => simp only [Exit.index] at he; omega

variable {i : Nat}

theorem skipWord (hi : lo ≤ i) (hj : skipWord b i ≤ n) :
    skipWord b' i = skipWord b i := by
  obtain ⟨r, hl⟩ := index_eq (e := loop wordTurn (b.drop (i + 1)) (i + 1) ()) rfl
    (Nat.lt_of_le_of_lt hj h.lt_length)
  have := h.loop_blind blind_wordTurn (fun _ hin' s next r _ => by
    simp only [wordTurn, hin'.word, Bool.false_eq_true, if_false]) (Nat.le_succ_of_le hi) hl hj
  unfold Oxyn.skipWord
  rw [this]
  rfl

theorem skipQuoted {quote : UInt8} {backslash : Bool} (hi : lo ≤ i)
    (hq : Inert d' → d' ≠ quote) (hj : skipQuoted b i quote backslash ≤ n) :
    skipQuoted b' i quote backslash = skipQuoted b i quote backslash := by
  obtain ⟨r, hl⟩ := index_eq
    (e := loop (quotedTurn quote backslash) (b.drop (i + 1)) (i + 1) ()) rfl
    (Nat.lt_of_le_of_lt hj h.lt_length)
  have := h.loop_sighted (sighted_quotedTurn quote backslash) (fun _ hin' s c r hleave => by
    obtain ⟨-, rfl, -, hb⟩ := quotedTurn_leave hleave
    simp [quotedTurn, hb, hq hin']) (Nat.le_succ_of_le hi) hl hj
  unfold Oxyn.skipQuoted
  rw [this]
  rfl

theorem skipBlockComment {nested : Bool} (hi : lo ≤ i) (hj : skipBlockComment b i nested ≤ n) :
    skipBlockComment b' i nested = skipBlockComment b i nested := by
  obtain ⟨r, hl⟩ := index_eq
    (e := loop (blockTurn nested) (b.drop (i + 2)) (i + 2) 1) rfl
    (Nat.lt_of_le_of_lt hj h.lt_length)
  have := h.loop_sighted (sighted_blockTurn nested) (fun _ _ s c r hleave => by
    have := (blockTurn_leave hleave).1
    omega) (by omega) hl hj
  unfold Oxyn.skipBlockComment
  rw [this]
  rfl

theorem skipLineComment {stop : LineCommentEnd} (hi : lo ≤ i)
    (hj : (skipLineComment b i stop).2 ≤ n) :
    skipLineComment b' i stop = skipLineComment b i stop := by
  have hlt := h.lt_length
  unfold Oxyn.skipLineComment at hj ⊢
  cases hl : loop (lineTurn stop) (b.drop i) i ⟨false, false⟩ with
  | off s => simp only [hl] at hj; omega
  | left j s =>
    simp only [hl] at hj
    rw [h.loop_blind (blind_lineTurn stop) (fun hin _ s next r hleave => by
      obtain ⟨-, hc, -⟩ := lineTurn_leave hleave
      rcases hc with hc | hc
      · exact absurd hc hin.line.1
      · exact absurd hc hin.line.2) hi hl hj]

theorem dollarTagEnd (hin : Inert d) (hi : lo ≤ i) (hlt : i < n) :
    dollarTagEnd b' i = dollarTagEnd b i := by
  have hleft : ∃ j r, loop tagTurn (b.drop (i + 1)) (i + 1) true = .left j r ∧ j ≤ n := by
    suffices ∀ (l : List UInt8) (k : Nat) (first : Bool), l = b.drop k → k ≤ n →
        ∃ j r, loop tagTurn l k first = .left j r ∧ j ≤ n from this _ _ _ rfl hlt
    intro l
    induction l with
    | nil =>
      intro k _ hl hk
      have := drop_eq_nil_iff.mp hl.symm
      have := h.lt_length
      omega
    | cons c l ih =>
      intro k first hl hk
      obtain ⟨hc, htail⟩ := of_cons_eq_drop hl
      simp only [loop]
      cases hturn : tagTurn first c l.head? with
      | leave m r =>
        rcases Nat.eq_or_lt_of_le hk with rfl | hlt
        · obtain rfl := Option.some.inj (h.left.symm.trans hc)
          rw [hin.tag] at hturn
          obtain ⟨rfl, rfl⟩ := Turn.leave.inj hturn
          exact ⟨k, false, rfl, Nat.le_refl k⟩
        · refine ⟨k + m, r, rfl, ?_⟩
          rcases tagTurn_leave hturn with ⟨rfl, -⟩ | ⟨rfl, -⟩ <;> omega
      | one s =>
        have hlt : k < n := by
          rcases Nat.eq_or_lt_of_le hk with rfl | hlt
          · obtain rfl := Option.some.inj (h.left.symm.trans hc)
            simp [hin.tag] at hturn
          · exact hlt
        exact ih (k + 1) s htail hlt
      | two s =>
        exfalso
        unfold tagTurn at hturn
        repeat' split at hturn
        all_goals simp at hturn
  obtain ⟨j, r, hl, hj⟩ := hleft
  unfold Oxyn.dollarTagEnd
  rw [hl, h.loop_blind blind_tagTurn (fun _ hin' s next r hleave => by
    rw [hin.tag] at hleave
    rw [hin'.tag]
    exact hleave) (Nat.le_succ_of_le hi) hl hj]

theorem skipDollarQuoted (hin : Inert d) (hi : lo ≤ i) (hlt : i < n)
    (hj : ∀ j, skipDollarQuoted b i = some j → j ≤ n) :
    skipDollarQuoted b' i = skipDollarQuoted b i := by
  have htag := h.dollarTagEnd hin hi hlt
  have hlen := h.lt_length
  unfold Oxyn.skipDollarQuoted at hj ⊢
  rw [htag]
  cases hte : Oxyn.dollarTagEnd b i with
  | none => rfl
  | some stop =>
    simp only [hte] at hj ⊢
    have hle := hj _ rfl
    cases hf : find ((b.drop i).take (stop - i)) (b.drop stop) stop with
    | none => simp only [hf, Option.getD_none] at hle; omega
    | some e =>
      simp only [hf, Option.getD_some] at hle
      have hb := find_bounds hf
      have hte' := dollarTagEnd_bounds hte
      simp only [length_take, length_drop] at hb
      have htake : (b'.drop i).take (stop - i) = (b.drop i).take (stop - i) := by
        refine ext_getElem? fun m => ?_
        simp only [getElem?_take]
        split
        · exact (h.drop hi (by omega)).symm
        · rfl
      rw [htake, find_congr hf fun m hm => h.drop (by omega) (by omega)]
      rfl

/-- An element that ends by `n` is read the same in both buffers, when looking back
shows the same in both. -/
theorem lex {c : UInt8} (hi : lo ≤ i) (hc : b[i]? = some c) {p : SplitProfile}
    (hback : (p.escapeStringPrefix && hasEscapePrefix b' i) =
      (p.escapeStringPrefix && hasEscapePrefix b i))
    (hdollar : p.dollarQuotes = false ∨ Inert d) (hj : (lex b i c p).2 ≤ n) :
    lex b' i c p = lex b i c p := by
  have hlt : i < n := Nat.lt_of_lt_of_le (lex_bounds p hc).1 hj
  -- the byte after the first one is the same, or both are inert
  have hnext : ∀ o : UInt8, (o = Byte.dash ∨ o = Byte.star) →
      (b'[i + 1]? == some o) = (b[i + 1]? == some o) := by
    intro o ho
    by_cases hlt' : i + 1 < n
    · rw [h.agree _ (by omega) hlt']
    · obtain rfl : i + 1 = n := by omega
      rw [h.left, h.right]
      rcases h.alike with rfl | ⟨hin, hin'⟩
      · rfl
      · rcases ho with rfl | rfl
        · simp [hin.opening.1, hin'.opening.1]
        · simp [hin.opening.2, hin'.opening.2]
  unfold Oxyn.lex at hj ⊢
  rw [hnext _ (.inl rfl), hnext _ (.inr rfl), hback]
  split at hj
  next h1 => rw [if_pos h1, if_pos h1]; exact h.skipLineComment (by omega) hj
  next h1 =>
  rw [if_neg h1, if_neg h1]
  split at hj
  next h2 => rw [if_pos h2, if_pos h2]; exact h.skipLineComment (by omega) hj
  next h2 =>
  rw [if_neg h2, if_neg h2]
  split at hj
  next h3 => rw [if_pos h3, if_pos h3, h.skipBlockComment hi hj]
  next h3 =>
  rw [if_neg h3, if_neg h3]
  split at hj
  next h4 =>
    rw [if_pos h4, if_pos h4]
    simp only at hj ⊢
    rw [h.skipQuoted hi (fun hin => hin.quote.1) hj]
  next h4 =>
  rw [if_neg h4, if_neg h4]
  split at hj
  next h5 => rw [if_pos h5, if_pos h5, h.skipQuoted hi (fun hin => hin.quote.2.1) hj]
  next h5 =>
  rw [if_neg h5, if_neg h5]
  split at hj
  next h6 => rw [if_pos h6, if_pos h6, h.skipQuoted hi (fun hin => hin.quote.2.2.1) hj]
  next h6 =>
  rw [if_neg h6, if_neg h6]
  split at hj
  next h7 =>
    rw [if_pos h7, if_pos h7]
    simp only [skipBracket] at hj ⊢
    rw [h.skipQuoted hi (fun hin => hin.quote.2.2.2) hj]
  next h7 =>
  rw [if_neg h7, if_neg h7]
  split at hj
  next h8 =>
    have hin : Inert d := hdollar.resolve_left fun hp => by simp [hp] at h8
    rw [if_pos h8, if_pos h8]
    rw [h.skipDollarQuoted hin hi hlt fun j hj' => by simpa [hj'] using hj]
  next h8 =>
  rw [if_neg h8, if_neg h8]
  split at hj
  next h9 => rw [if_pos h9, if_pos h9, h.skipWord hi hj]
  next h9 => rw [if_neg h9, if_neg h9]

end AgreeUntil

/-! ## Where the text begins -/

section Shift

variable (a : List UInt8) (b : List UInt8)

theorem drop_append_shift {α : Type} (a b : List α) (i : Nat) :
    (a ++ b).drop (i + a.length) = b.drop i := by
  rw [Nat.add_comm, drop_append]
  simp

theorem index_shift {σ ρ : Type} {turn : σ → UInt8 → Option UInt8 → Turn σ ρ} (i : Nat)
    (s : σ) :
    (loop turn ((a ++ b).drop (i + a.length)) (i + a.length) s).index (a ++ b).length =
      (loop turn (b.drop i) i s).index b.length + a.length := by
  rw [drop_append_shift, loop_shift]
  cases loop turn (b.drop i) i s with
  | left j r => rfl
  | off s => simp [Exit.shift, Exit.index, Nat.add_comm]

theorem skipWord_shift (i : Nat) : skipWord (a ++ b) (i + a.length) = skipWord b i + a.length := by
  unfold skipWord
  rw [Nat.add_right_comm]
  exact index_shift a b (i + 1) ()

theorem skipQuoted_shift (i : Nat) (quote : UInt8) (backslash : Bool) :
    skipQuoted (a ++ b) (i + a.length) quote backslash =
      skipQuoted b i quote backslash + a.length := by
  unfold skipQuoted
  rw [Nat.add_right_comm]
  exact index_shift a b (i + 1) ()

theorem skipBlockComment_shift (i : Nat) (nested : Bool) :
    skipBlockComment (a ++ b) (i + a.length) nested = skipBlockComment b i nested + a.length := by
  unfold skipBlockComment
  rw [Nat.add_right_comm]
  exact index_shift a b (i + 2) 1

theorem skipLineComment_shift (i : Nat) (stop : LineCommentEnd) :
    skipLineComment (a ++ b) (i + a.length) stop =
      ((skipLineComment b i stop).1, (skipLineComment b i stop).2 + a.length) := by
  unfold skipLineComment
  rw [drop_append_shift, loop_shift]
  cases loop (lineTurn stop) (b.drop i) i ⟨false, false⟩ with
  | left j s => rfl
  | off s => simp [Exit.shift, Nat.add_comm]

theorem dollarTagEnd_shift (i : Nat) :
    dollarTagEnd (a ++ b) (i + a.length) = (dollarTagEnd b i).map (· + a.length) := by
  unfold dollarTagEnd
  rw [Nat.add_right_comm, drop_append_shift, loop_shift]
  cases loop tagTurn (b.drop (i + 1)) (i + 1) true with
  | left j r => cases r <;> rfl
  | off s => rfl

theorem skipDollarQuoted_shift (i : Nat) :
    skipDollarQuoted (a ++ b) (i + a.length) = (skipDollarQuoted b i).map (· + a.length) := by
  unfold skipDollarQuoted
  rw [dollarTagEnd_shift]
  cases dollarTagEnd b i with
  | none => rfl
  | some stop =>
    simp only [Option.map_some, drop_append_shift, find_shift, Nat.add_sub_add_right]
    cases find ((b.drop i).take (stop - i)) (b.drop stop) stop with
    | none => simp [Nat.add_comm]
    | some e => simp

/-- Looking back stops at the byte before the text, when it is in no word. -/
theorem hasEscapePrefix_shift {d : UInt8} (ha : a.getLast? = some d) (hd : Inert d)
    (i : Nat) : hasEscapePrefix (a ++ b) (i + a.length) = hasEscapePrefix b i := by
  have hlast : ∀ k, k + 1 = a.length → (a ++ b)[k]? = some d := by
    intro k hk
    rw [getElem?_append_left (by omega), ← ha, getLast?_eq_getElem?]
    congr 1
    omega
  have hpos : 0 < a.length := by
    cases a with
    | nil => simp at ha
    | cons => simp
  have hback : ∀ k, k ≤ i → before? (a ++ b) (i + a.length) k = before? b i k := by
    intro k hk
    unfold before?
    rw [if_pos (by omega), if_pos hk, show i + a.length - k = a.length + (i - k) from by omega,
      getElem?_append_right (by omega)]
    congr 1
    omega
  unfold hasEscapePrefix
  match i with
  | 0 =>
    -- the byte before the text is no `E`
    have h1 : before? (a ++ b) (0 + a.length) 1 = some d := by
      unfold before?
      rw [if_pos (by omega), hlast _ (by omega)]
    have h0 : before? b 0 1 = none := rfl
    rw [h1, h0]
    simp [hd.plain.1, hd.plain.2]
  | 1 =>
    -- what precedes the `E` is the byte before the text
    rw [hback 1 (Nat.le_refl 1)]
    have h2 : before? (a ++ b) (1 + a.length) 2 = some d := by
      unfold before?
      rw [if_pos (by omega), hlast _ (by omega)]
    have h0 : before? b 1 2 = none := rfl
    rw [h2, h0]
    simp [hd.word]
  | i + 2 => rw [hback 1 (by omega), hback 2 (by omega)]

/-- An element does not depend on what the text comes after, when the byte before
it is in no word or no quote looks back. -/
theorem lex_shift {p : SplitProfile}
    (hback : p.escapeStringPrefix = false ∨ ∃ d, a.getLast? = some d ∧ Inert d) (i : Nat)
    (c : UInt8) :
    lex (a ++ b) (i + a.length) c p = ((lex b i c p).1, (lex b i c p).2 + a.length) := by
  have hnext : (a ++ b)[i + a.length + 1]? = b[i + 1]? := by
    rw [getElem?_append_right (by omega)]
    congr 1
    omega
  have hescape : (p.escapeStringPrefix && hasEscapePrefix (a ++ b) (i + a.length)) =
      (p.escapeStringPrefix && hasEscapePrefix b i) := by
    rcases hback with h | ⟨d, ha, hd⟩
    · rw [h]
      rfl
    · rw [hasEscapePrefix_shift a b ha hd]
  have hone : ∀ k, i + a.length + k = i + k + a.length := fun k => by omega
  unfold lex
  rw [hnext]
  by_cases h1 : (c == Byte.dash && b[i + 1]? == some Byte.dash) = true
  · rw [if_pos h1, if_pos h1, hone, skipLineComment_shift]
  rw [if_neg h1, if_neg h1]
  by_cases h2 : (c == Byte.hash && p.hashLineComments) = true
  · rw [if_pos h2, if_pos h2, hone, skipLineComment_shift]
  rw [if_neg h2, if_neg h2]
  by_cases h3 : (c == Byte.slash && b[i + 1]? == some Byte.star) = true
  · rw [if_pos h3, if_pos h3, skipBlockComment_shift]
  rw [if_neg h3, if_neg h3]
  by_cases h4 : (c == Byte.apostrophe) = true
  · rw [if_pos h4, if_pos h4, hescape]
    simp only [skipQuoted_shift]
  rw [if_neg h4, if_neg h4]
  by_cases h5 : (c == Byte.doubleQuote) = true
  · rw [if_pos h5, if_pos h5, skipQuoted_shift]
  rw [if_neg h5, if_neg h5]
  by_cases h6 : (c == Byte.backtick && p.backtickQuotes) = true
  · rw [if_pos h6, if_pos h6, skipQuoted_shift]
  rw [if_neg h6, if_neg h6]
  by_cases h7 : (c == Byte.openBracket && p.bracketQuotes) = true
  · rw [if_pos h7, if_pos h7, skipBracket, skipQuoted_shift, skipBracket]
  rw [if_neg h7, if_neg h7]
  by_cases h8 : (c == Byte.dollar && p.dollarQuotes) = true
  · rw [if_pos h8, if_pos h8, skipDollarQuoted_shift, hone]
    cases skipDollarQuoted b i <;> rfl
  rw [if_neg h8, if_neg h8]
  by_cases h9 : isWordStart c = true
  · rw [if_pos h9, if_pos h9, skipWord_shift]
  · rw [if_neg h9, if_neg h9, hone]

end Shift

/-! ## The next element -/

theorem blankRange_congr {b b' : List UInt8} {i j : Nat}
    (hag : ∀ m, i ≤ m → m < j → b[m]? = b'[m]?) (h : BlankRange b i j) : BlankRange b' i j := by
  intro k hik hkj
  obtain ⟨x, hx, hw⟩ := h k hik hkj
  exact ⟨x, by rw [← hag k hik hkj, hx], hw⟩

theorem AgreeUntil.readAt {b b' : List UInt8} {i n : Nat} {d d' : UInt8}
    (h : AgreeUntil b b' i n d d') {p : SplitProfile}
    (hback : ∀ j, i ≤ j → j < n → (p.escapeStringPrefix && hasEscapePrefix b' j) =
      (p.escapeStringPrefix && hasEscapePrefix b j))
    (hdollar : p.dollarQuotes = false ∨ Inert d) {x : Item Tok}
    (hx : readAt b semicolonBytes p i = some x) (hn : x.stop ≤ n) :
    readAt b' semicolonBytes p i = some x := by
  have hf := reader_forward hx
  obtain ⟨c, hi, hblank, hc, hw, hread⟩ := readAt_eq_some.mp hx
  have hterm : atTerminator b' semicolonBytes x.start = atTerminator b semicolonBytes x.start := by
    unfold atTerminator
    congr 1
    refine (isPrefixOf_congr semicolonBytes (n := 1) (by decide) fun m hm => ?_).symm
    exact h.drop hi (by omega)
  refine readAt_eq_some.mpr ⟨c, hi,
    blankRange_congr (fun m hm hlt => h.agree m hm (by omega)) hblank,
    by rw [← h.agree _ hi (by omega), hc], hw, ?_⟩
  rw [hterm]
  refine hread.imp id fun ⟨ht, hlex⟩ => ⟨ht, ?_⟩
  rw [h.lex hi hc (hback _ hi (by omega)) hdollar (by rw [hlex]; exact hn), hlex]

theorem hasEscapePrefix_congr {b b' : List UInt8} {i : Nat}
    (hag : ∀ m, m < i → b[m]? = b'[m]?) : hasEscapePrefix b' i = hasEscapePrefix b i := by
  have : ∀ k, 0 < k → before? b' i k = before? b i k := by
    intro k hk
    unfold before?
    split
    · exact (hag _ (by omega)).symm
    · rfl
  simp only [hasEscapePrefix, this 1 (by decide), this 2 (by decide)]

theorem readAt_shift (a b t : List UInt8) {p : SplitProfile}
    (hback : p.escapeStringPrefix = false ∨ ∃ d, a.getLast? = some d ∧ Inert d) (i : Nat) :
    readAt (a ++ b) t p (i + a.length) = (readAt b t p i).map (Item.shift a.length) := by
  unfold readAt
  rw [drop_append_shift, loop_shift]
  cases loop blankTurn (b.drop i) i () with
  | off s => rfl
  | left start c =>
    have hterm : atTerminator (a ++ b) t (start + a.length) = atTerminator b t start := by
      unfold atTerminator
      rw [drop_append_shift]
    simp only [Exit.shift, hterm, lex_shift a b hback]
    split
    · simp [Item.shift, Nat.add_right_comm]
    · rfl

end Oxyn
