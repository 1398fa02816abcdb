/-
# `Oxyn.ClickHouse.Lexers` — two lexers of one dialect

`bind` reads a text with functions of its own; the gate and the splitter read it with the scanner.
The two are compared where both stand outside strings, quoted names and comments (`InCode`).
-/
import Oxyn.ClickHouse.Placeholder
import Oxyn.Query.Code

namespace Oxyn.ClickHouse.Params

open Text Cursor List
open Byte (apostrophe backtick dash dollar doubleQuote hash lineFeed slash)

/-! ## What the scanner reads -/

/-- The reading classification and splitting use. -/
abbrev scanned (text : Str) : List (Item Tok) := scan text (.forDialect .clickHouse)

abbrev Outside (text : Str) (i : Nat) : Prop := Oxyn.Outside (.forDialect .clickHouse) text i

abbrev InCode (text : Str) (i : Nat) : Prop := Oxyn.InCode (.forDialect .clickHouse) text i

/-! ## Where the two lexers agree -/

section Skips

variable {b : List UInt8} {i : Nat} {c : UInt8}

theorem skipLineComment_eq_run (hi : i ≤ b.length) :
    skipLineComment b i .lineFeed = (.comment, runEnd (· != lineFeed) b i) := by
  have hloop : loop (lineTurn .lineFeed) (b.drop i) i ⟨false, false⟩ =
      if runEnd (· != lineFeed) b i < b.length then
        .left (runEnd (· != lineFeed) b i) ⟨false, false⟩
      else .off ⟨false, false⟩ := by
    refine loop_run (fun c n h => ?_) (fun c n h => ?_) b i
    · have hne : (c == lineFeed) = false := by simpa using h
      simp [lineTurn, hne]
    · have heq : (c == lineFeed) = true := by simpa using h
      simp [lineTurn, heq]
  have hle := runEnd_le (p := (· != lineFeed)) hi
  unfold skipLineComment
  rw [hloop]
  split
  next j s h =>
    split at h
    · obtain ⟨rfl, rfl⟩ := Exit.left.inj h
      rfl
    · cases h
  next s h =>
    split at h
    · cases h
    · obtain rfl := Exit.off.inj h
      have heq : b.length = runEnd (· != lineFeed) b i := by omega
      rw [← heq]
      rfl

theorem skipLine_eq (b : List UInt8) (i : Nat) :
    skipLine b i =
      if runEnd (· != lineFeed) b i < b.length then runEnd (· != lineFeed) b i + 1
      else b.length := by
  unfold skipLine
  rw [find_singleton]
  split <;> rfl

theorem loop_tag (l : List UInt8) (i : Nat) :
    loop tagTurn l i false =
      match l[(l.takeWhile isNameByte).length]? with
      | none => .off false
      | some c =>
        if c == dollar then .left (i + (l.takeWhile isNameByte).length + 1) true
        else .left (i + (l.takeWhile isNameByte).length) false := by
  induction l generalizing i with
  | nil => rfl
  | cons c l ih =>
    cases hname : isNameByte c with
    | true =>
      have hne : (c == dollar) = false := by
        by_contra h
        rw [Bool.not_eq_false, beq_iff_eq] at h
        subst h
        exact absurd hname (by decide)
      have hturn : tagTurn false c l.head? = .one false := by
        simp only [tagTurn, hne, Bool.false_eq_true, if_false]
        exact if_pos hname
      rw [loop, hturn]
      simp only [ih, takeWhile_cons, hname, if_true, length_cons,
        getElem?_cons_succ]
      cases l[(l.takeWhile isNameByte).length]? with
      | none => rfl
      | some d =>
        simp only
        congr 2 <;> omega
    | false =>
      simp only [loop, takeWhile_cons, hname, Bool.false_eq_true, if_false,
        length_nil, getElem?_cons_zero, Nat.add_zero]
      unfold tagTurn
      by_cases hc : (c == dollar) = true
      · rw [if_pos hc, if_pos hc]
      · rw [if_neg hc, if_neg hc]
        have hacc : (isAsciiAlphabetic c || isAsciiDigit c || c == 0x5f) = false := hname
        simp only [Bool.false_eq_true, if_false, hacc, Nat.add_zero]

theorem dollarTagEnd_eq (h : ∀ c, b[i + 1]? = some c → isAsciiDigit c = false) :
    dollarTagEnd b i =
      if b[runEnd isNameByte b (i + 1)]? == some dollar then
        some (runEnd isNameByte b (i + 1) + 1)
      else none := by
  unfold dollarTagEnd
  cases hl : b.drop (i + 1) with
  | nil =>
    have hlen : b.length ≤ i + 1 := drop_eq_nil_iff.mp hl
    have hrun := le_runEnd (p := isNameByte) (b := b) (i := i + 1)
    rw [getElem?_eq_none (by omega)]
    rfl
  | cons c l =>
    obtain ⟨hc, htail⟩ := of_cons_eq_drop hl.symm
    have hdigit := h c hc
    by_cases hdollar : (c == dollar) = true
    · -- `$$`: the tag is empty
      have hname : isNameByte c = false := by
        rw [beq_iff_eq.mp hdollar]
        decide
      have hrun : runEnd isNameByte b (i + 1) = i + 1 := by
        rw [runEnd, hl, takeWhile_cons, hname]
        rfl
      have hturn : tagTurn true c l.head? = .leave 1 true := by
        rw [tagTurn, if_pos hdollar]
      rw [loop, hturn, hrun, hc, beq_iff_eq.mp hdollar]
      rfl
    by_cases hfirst : (isAsciiAlphabetic c || c == 0x5f) = true
    · have hname : isNameByte c = true := by
        simp only [isNameByte, Bool.or_eq_true] at hfirst ⊢
        exact hfirst.elim (fun h => .inl (.inl h)) .inr
      have hturn : tagTurn true c l.head? = .one false := by
        rw [tagTurn, if_neg hdollar]
        exact if_pos hfirst
      rw [loop, hturn]
      simp only [loop_tag]
      have hrun : runEnd isNameByte b (i + 1) =
          i + 1 + 1 + (l.takeWhile isNameByte).length := by
        rw [runEnd_succ hc hname, runEnd, ← htail]
      have hget : b[runEnd isNameByte b (i + 1)]? = l[(l.takeWhile isNameByte).length]? := by
        rw [hrun, htail, getElem?_drop]
      rw [hget, hrun]
      cases l[(l.takeWhile isNameByte).length]? with
      | none => rfl
      | some d =>
        by_cases hd : d = dollar
        · simp [hd]
        · simp [hd]
    · have hname : isNameByte c = false := by
        rw [Bool.not_eq_true, Bool.or_eq_false_iff] at hfirst
        simp only [isNameByte, hfirst.1, hfirst.2, hdigit, Bool.or_self]
      have hrun : runEnd isNameByte b (i + 1) = i + 1 := by
        rw [runEnd, hl, takeWhile_cons, hname]
        rfl
      have hturn : tagTurn true c l.head? = .leave 0 false := by
        rw [tagTurn, if_neg hdollar]
        exact if_neg hfirst
      rw [loop, hturn, hrun, hc]
      have hne : (some c == some dollar) = false := by simpa using hdollar
      rw [hne]
      rfl

theorem dollarTagEnd_digit (hc : b[i + 1]? = some c) (hdigit : isAsciiDigit c = true) :
    dollarTagEnd b i = none := by
  obtain ⟨hlt, hget⟩ := List.getElem?_eq_some_iff.mp hc
  have hdollar : ¬ (c == dollar) = true := by
    intro h
    rw [beq_iff_eq.mp h] at hdigit
    exact absurd hdigit (by decide)
  have hfirst : ¬ (isAsciiAlphabetic c || c == 0x5f) = true := by
    simp only [isAsciiDigit, isAsciiAlphabetic, Bool.or_eq_true, Bool.and_eq_true,
      decide_eq_true_eq, beq_iff_eq] at hdigit ⊢
    rintro (h | rfl)
    · omega
    · exact absurd hdigit (by decide)
  have hturn : ∀ next, tagTurn true c next = .leave 0 false := by
    intro next
    rw [tagTurn, if_neg hdollar]
    exact if_neg hfirst
  unfold dollarTagEnd
  rw [drop_eq_getElem_cons hlt, hget, loop, hturn]

theorem skipHeredoc_eq (h : ∀ c, b[i + 1]? = some c → isAsciiDigit c = false) :
    skipHeredoc b i = (skipDollarQuoted b i).getD (i + 1) := by
  unfold skipHeredoc skipDollarQuoted
  rw [dollarTagEnd_eq h]
  simp only
  split <;> rfl

end Skips

/-! ## The leaps -/

/-- A `$tag$` whose tag begins with a digit. -/
def DigitTag (b : List UInt8) (i : Nat) : Prop :=
  ∃ digit tag rest, b.drop i = dollar :: digit :: (tag ++ dollar :: rest) ∧
    isAsciiDigit digit = true ∧ ∀ c ∈ tag, isNameByte c = true

/-- Where `bind` goes on past what the scanner reads on in: a placeholder, or a string whose tag
begins with a digit. -/
inductive Leap (b : List UInt8) (i : Nat) : Prop
  | placeholder (name : Str) (stop : Nat) : b[i]? = some openBrace →
      placeholder b i = some (name, stop) → Leap b i
  | digitTag : DigitTag b i → Leap b i

/-- The name of the placeholder that begins at `i`. -/
def nameAt (b : List UInt8) (i : Nat) : Option Str :=
  if b[i]? = some openBrace then (placeholder b i).map Prod.fst else none

theorem nameAt_eq_some {b : List UInt8} {i : Nat} {name : Str} :
    nameAt b i = some name ↔ ∃ stop, IsPlaceholder b i name stop := by
  unfold nameAt
  split
  next hbrace =>
    rw [Option.map_eq_some_iff]
    constructor
    · rintro ⟨⟨_, stop⟩, hplace, rfl⟩
      exact ⟨stop, (placeholder_iff hbrace).mp hplace⟩
    · rintro ⟨stop, hplace⟩
      exact ⟨(name, stop), (placeholder_iff hbrace).mpr hplace, rfl⟩
  next hbrace =>
    constructor
    · intro h
      cases h
    · rintro ⟨stop, _, _, _, hdrop, -⟩
      exact absurd (drop_succ_of_drop hdrop).1 hbrace

/-- The placeholder at `i`, when the scanner reads code there. -/
def placeAt (text : Str) (i : Nat) : Option (Nat × Str) :=
  if Outside text i then (nameAt (bytes text) i).map fun name => (i, name) else none

theorem placeAt_eq_some {text : Str} {i : Nat} {place : Nat × Str} :
    placeAt text i = some place ↔
      Outside text i ∧ nameAt (bytes text) i = some place.2 ∧ place.1 = i := by
  obtain ⟨j, name⟩ := place
  unfold placeAt
  split
  next h =>
    rw [Option.map_eq_some_iff]
    simp only [Prod.mk.injEq, h, true_and]
    constructor
    · rintro ⟨_, hname, rfl, rfl⟩
      exact ⟨hname, rfl⟩
    · rintro ⟨hname, rfl⟩
      exact ⟨name, hname, rfl, rfl⟩
  next h => simp [h]

/-- From `i` to `stop` no placeholder lies in code, and the scanner stands in code at the end. -/
structure Clear (text : Str) (i stop : Nat) : Prop where
  code : InCode text stop
  empty : ∀ j, i ≤ j → j < stop → placeAt text j = none

section Turn

variable {text : Str} {i : Nat} {c : UInt8}

theorem clear_region {x : Item Tok} (h : x ∈ scanned text) (hx : IsRegion x) :
    Clear text x.start x.stop where
  code := InCode.stop h
  empty := by
    intro j hj hstop
    exact if_neg fun houtside => houtside x h hx ⟨hj, hstop⟩

theorem clear_byte (hi : InCode text i) (hno : ∀ x ∈ scanned text, IsRegion x → x.start ≠ i)
    (hname : nameAt (bytes text) i = none) : Clear text i (i + 1) where
  code := hi.succ hno
  empty := by
    intro j hj hstop
    obtain rfl : j = i := by omega
    unfold placeAt
    rw [hname]
    split <;> rfl

theorem clear_of_lex (hi : InCode text i) (hc : (bytes text)[i]? = some c)
    (hblank : isAsciiWhitespace c = false) (hword : isWordByte c = false)
    (hsemi : c ≠ Byte.semicolon) {kind : Tok} {stop : Nat}
    (hlex : lex (bytes text) i c .clickHouse = (kind, stop))
    (hkind : kind = .quoted ∨ kind = .singleQuoted ∨ kind.isComment = true) :
    Clear text i stop := by
  obtain ⟨x, hx, rfl⟩ := exists_element hi hc hblank hword
  obtain ⟨d, hd, ⟨hd', -⟩ | hread⟩ := lex_of_mem hx
  · exact absurd (Option.some.inj (hc.symm.trans hd) |>.trans hd') hsemi
  · obtain rfl := Option.some.inj (hc.symm.trans hd)
    obtain ⟨rfl, rfl⟩ := Prod.mk.inj (hlex.symm.trans hread)
    exact clear_region hx hkind

theorem no_region_of_lex (hc : (bytes text)[i]? = some c)
    (hlex : ∀ kind stop, lex (bytes text) i c .clickHouse = (kind, stop) →
      kind = .symbol ∨ kind = .word) : ∀ x ∈ scanned text, IsRegion x → x.start ≠ i := by
  intro x hx hregion hstart
  subst hstart
  rcases hlex _ _ (lex_of_region hx hregion hc) with hk | hk <;>
    · unfold IsRegion at hregion
      rw [hk] at hregion
      revert hregion
      decide

theorem clear_of_symbol (hi : InCode text i) (hc : (bytes text)[i]? = some c)
    (hlex : ∀ kind stop, lex (bytes text) i c .clickHouse = (kind, stop) →
      kind = .symbol ∨ kind = .word)
    (hname : nameAt (bytes text) i = none) : Clear text i (i + 1) :=
  clear_byte hi (no_region_of_lex hc hlex) hname

theorem lex_code {b : List UInt8} (hdash : ¬ (c == dash && b[i + 1]? == some dash) = true)
    (hhash : ¬ (c == hash) = true)
    (hslash : ¬ (c == slash && b[i + 1]? == some Byte.star) = true)
    (hquote : ¬ (c == apostrophe || c == doubleQuote || c == backtick) = true)
    (hdollar : ¬ (c == dollar) = true) (kind : Tok) (stop : Nat)
    (h : lex b i c .clickHouse = (kind, stop)) : kind = .symbol ∨ kind = .word := by
  simp only [Bool.or_eq_true, not_or] at hquote
  unfold lex at h
  rw [if_neg hdash, if_neg fun h => hhash (Bool.and_eq_true_iff.mp h).1, if_neg hslash,
    if_neg hquote.1.1, if_neg hquote.1.2,
    if_neg fun h => hquote.2 (Bool.and_eq_true_iff.mp h).1,
    if_neg (by simp [SplitProfile.clickHouse]),
    if_neg fun h => hdollar (Bool.and_eq_true_iff.mp h).1] at h
  split at h
  · exact .inr (Prod.mk.inj h).1.symm
  · exact .inl (Prod.mk.inj h).1.symm

/-- A byte that may begin a region. -/
def isOpener (c : UInt8) : Bool :=
  c == dash || c == hash || c == slash || c == apostrophe ||
    c == doubleQuote || c == backtick || c == dollar

theorem no_region_at (hc : (bytes text)[i]? = some c) (hopener : isOpener c = false) :
    ∀ x ∈ scanned text, IsRegion x → x.start ≠ i := by
  simp only [isOpener, Bool.or_eq_false_iff] at hopener
  obtain ⟨⟨⟨⟨⟨⟨hdash, hhash⟩, hslash⟩, hapostrophe⟩, hdouble⟩, hbacktick⟩, hdollar⟩ := hopener
  exact no_region_of_lex hc (lex_code (by simp [hdash]) (by simp [hhash]) (by simp [hslash])
    (by simp [hapostrophe, hdouble, hbacktick]) (by simp [hdollar]))

theorem nameAt_eq_none (hc : (bytes text)[i]? = some c) (hne : c ≠ openBrace) :
    nameAt (bytes text) i = none :=
  if_neg fun h => hne (Option.some.inj (hc.symm.trans h))

theorem clear_line (hi : InCode text i) (hc : (bytes text)[i]? = some c)
    (hblank : isAsciiWhitespace c = false) (hword : isWordByte c = false)
    (hsemi : c ≠ Byte.semicolon)
    (hlex : lex (bytes text) i c .clickHouse =
      (.comment, runEnd (· != lineFeed) (bytes text) i)) :
    Clear text i (skipLine (bytes text) i) := by
  have hclear := clear_of_lex hi hc hblank hword hsemi hlex (.inr (.inr rfl))
  have hle := runEnd_le (p := (· != lineFeed))
    (Nat.le_of_lt (List.getElem?_eq_some_iff.mp hc).1)
  rw [skipLine_eq]
  split
  next hlt =>
    -- the line feed is white space to the scanner
    have hfeed : (bytes text)[runEnd (· != lineFeed) (bytes text) i]? =
        some lineFeed := by
      have hget := getElem?_eq_getElem hlt
      have hp := at_runEnd hget
      rw [hget]
      simpa using hp
    have hfeeds := clear_of_symbol hclear.code hfeed
      (fun kind stop h => .inl (by
        have hsym : lex (bytes text) (runEnd (· != lineFeed) (bytes text) i)
            lineFeed .clickHouse =
              (.symbol, runEnd (· != lineFeed) (bytes text) i + 1) := rfl
        rw [hsym] at h
        exact (Prod.mk.inj h).1.symm))
      (nameAt_eq_none hfeed (by decide))
    refine ⟨hfeeds.code, fun j hj hstop => ?_⟩
    by_cases hbefore : j < runEnd (· != lineFeed) (bytes text) i
    · exact hclear.empty j hj hbefore
    · exact hfeeds.empty j (by omega) hstop
  next hlt =>
    have heq : (bytes text).length = runEnd (· != lineFeed) (bytes text) i := by omega
    rw [heq]
    exact hclear

theorem clear_quoted (hi : InCode text i) (hc : (bytes text)[i]? = some c)
    (hquote : c = apostrophe ∨ c = doubleQuote ∨ c = backtick) :
    Clear text i (skipQuoted (bytes text) i c) := by
  rw [skipQuoted_eq]
  rcases hquote with rfl | rfl | rfl
  · exact clear_of_lex hi hc (by decide) (by decide) (by decide) rfl (.inr (.inl rfl))
  · exact clear_of_lex hi hc (by decide) (by decide) (by decide) rfl (.inl rfl)
  · exact clear_of_lex hi hc (by decide) (by decide) (by decide) rfl (.inl rfl)

theorem lex_dollar_none {b : List UInt8} (h : skipDollarQuoted b i = none) :
    lex b i dollar .clickHouse = (.symbol, i + 1) := by
  unfold lex
  rw [h]
  rfl

theorem lex_dollar_some {b : List UInt8} {i stop : Nat} (h : skipDollarQuoted b i = some stop) :
    lex b i dollar .clickHouse = (.quoted, stop) := by
  unfold lex
  rw [h]
  rfl

theorem digitTag_of_run {b : List UInt8} (hc : b[i]? = some dollar) (hd : b[i + 1]? = some c)
    (hdigit : isAsciiDigit c = true) (hstop : b[runEnd isNameByte b (i + 1)]? = some dollar) :
    DigitTag b i := by
  obtain ⟨hlt, hget⟩ := List.getElem?_eq_some_iff.mp hc
  obtain ⟨hlt', hget'⟩ := List.getElem?_eq_some_iff.mp hd
  have hname : isNameByte c = true := isNameByte_iff.mpr (.inr (.inl hdigit))
  rw [runEnd_succ hd hname] at hstop
  obtain ⟨hstoplt, hstopget⟩ := List.getElem?_eq_some_iff.mp hstop
  refine ⟨c, (b.drop (i + 2)).takeWhile isNameByte,
    b.drop (runEnd isNameByte b (i + 1 + 1) + 1), ?_, hdigit, fun c hc => mem_takeWhile_imp hc⟩
  rw [drop_eq_getElem_cons hlt, hget, drop_eq_getElem_cons hlt', hget']
  have hrun := drop_eq_run isNameByte b (i + 1 + 1)
  rw [drop_eq_getElem_cons hstoplt, hstopget] at hrun
  rw [← hrun]

theorem clear_heredoc (hi : InCode text i) (hc : (bytes text)[i]? = some dollar)
    (hleap : ¬ Leap (bytes text) i) :
    Clear text i (skipHeredoc (bytes text) i) := by
  have hname := nameAt_eq_none hc (by decide : dollar ≠ openBrace)
  have hlex : lex (bytes text) i dollar .clickHouse =
      (skipDollarQuoted (bytes text) i).elim (.symbol, i + 1) fun stop => (.quoted, stop) := by
    cases hskip : skipDollarQuoted (bytes text) i with
    | none => exact lex_dollar_none hskip
    | some stop => exact lex_dollar_some hskip
  by_cases hdigit : ∃ d, (bytes text)[i + 1]? = some d ∧ isAsciiDigit d = true
  · obtain ⟨d, hd, hdigit⟩ := hdigit
    have hnone : skipDollarQuoted (bytes text) i = none := by
      unfold skipDollarQuoted
      rw [dollarTagEnd_digit hd hdigit]
    have hone : skipHeredoc (bytes text) i = i + 1 := by
      unfold skipHeredoc
      refine if_neg fun hdollar => ?_
      exact hleap (.digitTag (digitTag_of_run hc hd hdigit (beq_iff_eq.mp hdollar)))
    rw [hnone] at hlex
    rw [hone]
    exact clear_of_symbol hi hc
      (fun kind stop h => .inl (Prod.mk.inj (h.symm.trans hlex)).1) hname
  · have hplain : ∀ d, (bytes text)[i + 1]? = some d → isAsciiDigit d = false := by
      intro d hd
      exact Bool.eq_false_iff.mpr fun h => hdigit ⟨d, hd, h⟩
    rw [skipHeredoc_eq hplain]
    cases hskip : skipDollarQuoted (bytes text) i with
    | none =>
      rw [hskip] at hlex
      exact clear_of_symbol hi hc
        (fun kind stop h => .inl (Prod.mk.inj (h.symm.trans hlex)).1) hname
    | some stop =>
      rw [hskip] at hlex
      exact clear_of_lex hi hc (by decide) (by decide) (by decide) hlex (.inl rfl)

theorem no_region_of_digitTag (h : DigitTag (bytes text) i) :
    ∀ x ∈ scanned text, IsRegion x → x.start ≠ i := by
  obtain ⟨digit, tag, rest, hdrop, hdigit, -⟩ := h
  obtain ⟨hdollar, hbehind⟩ := drop_succ_of_drop hdrop
  have hnone : skipDollarQuoted (bytes text) i = none := by
    unfold skipDollarQuoted
    rw [dollarTagEnd_digit (drop_succ_of_drop hbehind).1 hdigit]
  refine no_region_of_lex hdollar fun kind stop hlex => .inl ?_
  exact (Prod.mk.inj (hlex.symm.trans (lex_dollar_none hnone))).1

/-- The step lemma: from code, a turn of `bind` that is no leap takes nothing, passes over no
placeholder and ends in code. -/
theorem turn_sound (hi : InCode text i) (hc : (bytes text)[i]? = some c)
    (hleap : ¬ Leap (bytes text) i) :
    (turn (bytes text) i c).1 = none ∧ Clear text i (turn (bytes text) i c).2 := by
  unfold turn
  split
  next h =>
    simp only [Bool.or_eq_true, beq_iff_eq, or_assoc] at h
    exact ⟨rfl, clear_quoted hi hc h⟩
  next hquote =>
  split
  next h =>
    simp only [Bool.and_eq_true, beq_iff_eq] at h
    obtain ⟨rfl, hnext⟩ := h
    refine ⟨rfl, clear_line hi hc (by decide) (by decide) (by decide) ?_⟩
    have hlt := (List.getElem?_eq_some_iff.mp hnext).1
    rw [runEnd_succ (p := (· != lineFeed)) hc (by decide),
      runEnd_succ (p := (· != lineFeed)) hnext (by decide),
      ← skipLineComment_eq_run (by omega)]
    unfold lex
    rw [if_pos (by simp [hnext])]
    rfl
  next hdash =>
  split
  next h =>
    obtain rfl := beq_iff_eq.mp h
    refine ⟨rfl, clear_line hi hc (by decide) (by decide) (by decide) ?_⟩
    have hlt := (List.getElem?_eq_some_iff.mp hc).1
    rw [runEnd_succ (p := (· != lineFeed)) hc (by decide),
      ← skipLineComment_eq_run (by omega)]
    rfl
  next hhash =>
  split
  next h =>
    simp only [Bool.and_eq_true, beq_iff_eq] at h
    obtain ⟨rfl, hnext⟩ := h
    have hlex : lex (bytes text) i slash .clickHouse =
        (.comment, skipBlockComment (bytes text) i true) := by
      unfold lex
      rw [if_neg hdash, if_neg (by decide), if_pos (by simp [hnext])]
      rfl
    rw [skipBlock_eq hc hnext]
    exact ⟨rfl, clear_of_lex hi hc (by decide) (by decide) (by decide) hlex (.inr (.inr rfl))⟩
  next hslash =>
  split
  next h =>
    obtain rfl := beq_iff_eq.mp h
    exact ⟨rfl, clear_heredoc hi hc hleap⟩
  next hdollar =>
    -- no region begins at any other byte
    have hlex := lex_code hdash hhash hslash hquote hdollar
    split
    next h =>
      obtain rfl := beq_iff_eq.mp h
      have hnone : placeholder (bytes text) i = none := by
        cases hplace : placeholder (bytes text) i with
        | none => rfl
        | some place => exact absurd (.placeholder place.1 place.2 hc hplace) hleap
      rw [hnone]
      refine ⟨rfl, clear_of_symbol hi hc hlex ?_⟩
      unfold nameAt
      rw [if_pos hc, hnone]
      rfl
    next h => exact ⟨rfl, clear_of_symbol hi hc hlex (nameAt_eq_none hc (by simpa using h))⟩

end Turn

end Oxyn.ClickHouse.Params
