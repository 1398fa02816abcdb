/-
# `Oxyn.Query.Boundary` — the scanner never cuts a character

An escape steps over two bytes and may step into a character, but no element ends there: what ends
an element is an ASCII byte, or the end of the text (`lex_edge`).
-/
import Oxyn.Query.Scan

namespace Oxyn

open Text Cursor List

/-- A position that the bytes around it show to be a boundary. -/
def AsciiEdge (b : List UInt8) (j : Nat) : Prop :=
  j = b.length ∨ (∃ c, b[j]? = some c ∧ c.toNat < 0x80) ∨
    ∃ k c, j = k + 1 ∧ b[k]? = some c ∧ c.toNat < 0x80

variable {sql : Str}

theorem isCharBoundary_of_edge {j : Nat} (h : AsciiEdge (bytes sql) j) :
    isCharBoundary sql j = true := by
  rcases h with rfl | ⟨c, hc, hlt⟩ | ⟨k, c, rfl, hc, hlt⟩
  · exact isCharBoundary_size sql
  · exact (isCharBoundary_of_ascii hc hlt).1
  · exact (isCharBoundary_of_ascii hc hlt).2

/-! ## Where an element ends -/

theorem index_edge {σ ρ : Type} (turn : σ → UInt8 → Option UInt8 → Turn σ ρ)
    (hk : ∀ s c n k r, turn s c n = .leave k r →
      (k ≤ 1 ∧ c.toNat < 0x80) ∨ (k = 2 ∧ ∃ d, n = some d ∧ d.toNat < 0x80))
    (b : List UInt8) (i : Nat) (s : σ) :
    AsciiEdge b ((loop turn (b.drop i) i s).index b.length) := by
  cases h : loop turn (b.drop i) i s with
  | off => exact .inl rfl
  | left j r =>
    obtain ⟨m, s', c, k, hc, hturn, rfl⟩ := exists_turn_of_left h
    rw [getElem?_drop] at hc
    simp only [Exit.index]
    rcases hk _ _ _ _ _ hturn with ⟨hk1, hlt⟩ | ⟨rfl, d, hd, hlt⟩
    · rcases Nat.le_one_iff_eq_zero_or_eq_one.mp hk1 with rfl | rfl
      · exact .inr (.inl ⟨c, hc, hlt⟩)
      · exact .inr (.inr ⟨i + m, c, rfl, hc, hlt⟩)
    · rw [getElem?_drop] at hd
      exact .inr (.inr ⟨i + (m + 1), d, rfl, hd, hlt⟩)

theorem skipWord_edge (b : List UInt8) (i : Nat) : AsciiEdge b (skipWord b i) :=
  index_edge _ (fun _ _ _ _ _ h => by
    obtain ⟨rfl, hc⟩ := wordTurn_leave h
    exact .inl ⟨Nat.zero_le _, toNat_lt_of_not_wordByte hc⟩) b (i + 1) ()

theorem skipQuoted_edge (b : List UInt8) (i : Nat) {quote : UInt8} (hq : quote.toNat < 0x80)
    (backslash : Bool) : AsciiEdge b (skipQuoted b i quote backslash) :=
  index_edge _ (fun _ _ _ _ _ h => by
    obtain ⟨rfl, rfl, -⟩ := quotedTurn_leave h
    exact .inl ⟨Nat.le_refl _, hq⟩) b (i + 1) ()

theorem skipBlockComment_edge (b : List UInt8) (i : Nat) (nested : Bool) :
    AsciiEdge b (skipBlockComment b i nested) :=
  index_edge _ (fun _ _ _ _ _ h => by
    obtain ⟨rfl, -, rfl⟩ := blockTurn_leave h
    exact .inr ⟨rfl, _, rfl, by decide⟩) b (i + 2) 1

theorem skipLineComment_edge (b : List UInt8) (i : Nat) (stop : LineCommentEnd) :
    AsciiEdge b (skipLineComment b i stop).2 := by
  have h := index_edge (lineTurn stop) (fun _ _ _ _ _ h => by
    obtain ⟨rfl, hc, -⟩ := lineTurn_leave h
    exact .inl ⟨Nat.zero_le _, by rcases hc with rfl | rfl <;> decide⟩) b i ⟨false, false⟩
  unfold skipLineComment
  cases hl : loop (lineTurn stop) (b.drop i) i ⟨false, false⟩ <;>
    simpa [hl, Exit.index] using h

variable {b : List UInt8} {i j : Nat}

theorem dollarTagEnd_dollar (h : dollarTagEnd b i = some j) :
    b[j - 1]? = some Byte.dollar := by
  unfold dollarTagEnd at h
  split at h
  next j' hl =>
    obtain rfl := Option.some.inj h
    obtain ⟨m, s', c, k, hc, hturn, rfl⟩ := exists_turn_of_left hl
    rcases tagTurn_leave hturn with ⟨rfl, rfl, -⟩ | ⟨-, hr⟩
    · simpa [getElem?_drop] using hc
    · simp at hr
  · simp at h
  · simp at h

theorem skipDollarQuoted_edge (h : skipDollarQuoted b i = some j) :
    AsciiEdge b j := by
  unfold skipDollarQuoted at h
  split at h
  · simp at h
  next stop hstop =>
    have hb := dollarTagEnd_bounds hstop
    have hd := dollarTagEnd_dollar hstop
    obtain rfl := Option.some.inj h
    cases hf : find ((b.drop i).take (stop - i)) (b.drop stop) stop with
    | none => exact .inl rfl
    | some e =>
      -- the closing tag is the opening one, so its last byte is the same dollar
      have hbound := find_bounds hf
      have hpre := prefix_of_find hf
      have hlen : ((b.drop i).take (stop - i)).length = stop - i := by simp; omega
      rw [hlen] at hpre hbound
      obtain ⟨rest, hrest⟩ := hpre
      have hlast := congrArg (·[stop - i - 1]?) hrest
      simp only [getElem?_append_left (show stop - i - 1 < _ by rw [hlen]; omega),
        getElem?_take, getElem?_drop] at hlast
      rw [if_pos (by omega), show i + (stop - i - 1) = stop - 1 from by omega, hd] at hlast
      refine .inr (.inr ⟨e - 1, Byte.dollar, by simp only [Option.getD_some]; omega, ?_,
        by decide⟩)
      rw [hlast]
      congr 1
      omega

theorem lex_edge {c : UInt8} (p : SplitProfile)
    (hc : b[i]? = some c) : AsciiEdge b (lex b i c p).2 := by
  unfold lex
  split
  · exact skipLineComment_edge ..
  split
  · exact skipLineComment_edge ..
  split
  · exact skipBlockComment_edge ..
  split
  · exact skipQuoted_edge b i (by decide) _
  split
  · exact skipQuoted_edge b i (by decide) _
  split
  · exact skipQuoted_edge b i (by decide) _
  split
  · exact skipQuoted_edge b i (by decide) _
  split
  next h =>
    split
    · refine .inr (.inr ⟨i, c, rfl, hc, ?_⟩)
      simp only [Bool.and_eq_true, beq_iff_eq] at h
      rw [h.1]
      decide
    next stop hstop => exact skipDollarQuoted_edge hstop
  split
  · exact skipWord_edge b i
  next h =>
    exact .inr (.inr ⟨i, c, rfl, hc, toNat_lt_of_not_wordStart (by simpa using h)⟩)

/-! ## The reading stands on boundaries -/

theorem boundary_of_blankRange (hi : isCharBoundary sql i = true)
    (hij : i ≤ j) (h : BlankRange (bytes sql) i j) : isCharBoundary sql j = true := by
  rcases Nat.eq_or_lt_of_le hij with rfl | hlt
  · exact hi
  · obtain ⟨x, hx, hw⟩ := h (j - 1) (by omega) (by omega)
    have := (isCharBoundary_of_ascii hx (toNat_lt_of_isAsciiWhitespace hw)).2
    rwa [Nat.sub_add_cancel (by omega)] at this

variable {p : SplitProfile}

theorem boundary_of_read {sql t : Str} {x : Item Tok}
    (hi : isCharBoundary sql i = true) (h : readAt (bytes sql) (bytes t) p i = some x) :
    isCharBoundary sql x.start = true ∧ isCharBoundary sql x.stop = true := by
  obtain ⟨c, hle, hblank, hc, -, hx⟩ := readAt_eq_some.mp h
  have hstart := boundary_of_blankRange hi hle hblank
  refine ⟨hstart, ?_⟩
  rcases hx with ⟨ht, -, hstop⟩ | ⟨-, hlex⟩
  · rw [hstop]
    exact isCharBoundary_of_prefix hstart (atTerminator_eq_true.mp ht).2
  · have := lex_edge p hc
    rw [hlex] at this
    exact isCharBoundary_of_edge this

theorem boundary_of_reach {sql t : Str}
    (hi : isCharBoundary sql i = true) (h : (reader (bytes sql) (bytes t) p).Reach i j) :
    isCharBoundary sql j = true := by
  induction h with
  | refl => exact hi
  | step _ hx ih => exact (boundary_of_read ih hx).2

theorem boundary_of_scan {x : Item Tok} (h : x ∈ scan sql p) :
    isCharBoundary sql x.start = true ∧ isCharBoundary sql x.stop = true := by
  obtain ⟨j, hj, hx⟩ := Reader.mem_items.mp h
  have hreader : scanner sql p = reader (bytes sql) (bytes [';']) p := rfl
  rw [hreader] at hj hx
  exact boundary_of_read (boundary_of_reach (isCharBoundary_zero sql) hj) hx

end Oxyn
