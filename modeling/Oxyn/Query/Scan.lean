/-
# `Oxyn.Query.Scan` — the scanner

The one scanner that serves splitting, comment detection and word reading.
-/
import Oxyn.Lib.Cursor
import Oxyn.Lib.Reading
import Oxyn.Core.Query

namespace Oxyn

open Text Cursor List

/-! ## Bytes -/

namespace Byte

abbrev lineFeed : UInt8 := 0x0a
abbrev carriageReturn : UInt8 := 0x0d
abbrev exclamation : UInt8 := 0x21
abbrev doubleQuote : UInt8 := 0x22
abbrev hash : UInt8 := 0x23
abbrev dollar : UInt8 := 0x24
abbrev apostrophe : UInt8 := 0x27
abbrev openParenthesis : UInt8 := 0x28
abbrev star : UInt8 := 0x2a
abbrev dash : UInt8 := 0x2d
abbrev slash : UInt8 := 0x2f
abbrev colon : UInt8 := 0x3a
abbrev semicolon : UInt8 := 0x3b
abbrev openBracket : UInt8 := 0x5b
abbrev backslash : UInt8 := 0x5c
abbrev closeBracket : UInt8 := 0x5d
abbrev backtick : UInt8 := 0x60

end Byte

def isAsciiAlphabetic (c : UInt8) : Bool :=
  (0x41 ≤ c.toNat && c.toNat ≤ 0x5a) || (0x61 ≤ c.toNat && c.toNat ≤ 0x7a)

def isAsciiDigit (c : UInt8) : Bool := 0x30 ≤ c.toNat && c.toNat ≤ 0x39

/-- First byte of a bare word.  Bytes from `0x80` on belong to it. -/
def isWordStart (c : UInt8) : Bool :=
  isAsciiAlphabetic c || c == 0x5f || 0x80 ≤ c.toNat

/-- `$` is left out on purpose: `AS$$body$$` opens a dollar body. -/
def isWordByte (c : UInt8) : Bool :=
  isAsciiAlphabetic c || isAsciiDigit c || c == 0x5f || 0x80 ≤ c.toNat

variable {c : UInt8}

theorem toNat_lt_of_not_wordByte (h : isWordByte c = false) : c.toNat < 0x80 := by
  simp only [isWordByte, Bool.or_eq_false_iff, decide_eq_false_iff_not] at h
  omega

theorem toNat_lt_of_not_wordStart (h : isWordStart c = false) : c.toNat < 0x80 := by
  simp only [isWordStart, Bool.or_eq_false_iff, decide_eq_false_iff_not] at h
  omega

/-! ## Profiles -/

/-- Which bytes end a `--` (or `#`) comment. -/
inductive LineCommentEnd where
  | lineFeed | lineFeedOrCarriageReturn
  /-- Not checked against the server: a lone `\r` followed by text is unreadable. -/
  | unverified
deriving DecidableEq, Repr

/-- The lexical particularities of a dialect. -/
structure SplitProfile where
  backslashEscapes : Bool
  escapeStringPrefix : Bool
  backtickQuotes : Bool
  bracketQuotes : Bool
  dollarQuotes : Bool
  hashLineComments : Bool
  nestedBlockComments : Bool
  lineCommentEnd : LineCommentEnd
  backtickBackslashEscapes : Bool
deriving DecidableEq, Repr

namespace SplitProfile

def permissive : SplitProfile where
  backslashEscapes := false
  escapeStringPrefix := true
  backtickQuotes := true
  bracketQuotes := true
  dollarQuotes := true
  hashLineComments := false
  nestedBlockComments := true
  lineCommentEnd := .unverified
  backtickBackslashEscapes := false

def postgresFamily (lineCommentEnd : LineCommentEnd) : SplitProfile where
  backslashEscapes := false
  escapeStringPrefix := true
  backtickQuotes := false
  bracketQuotes := false
  dollarQuotes := true
  hashLineComments := false
  nestedBlockComments := true
  lineCommentEnd := lineCommentEnd
  backtickBackslashEscapes := false

def mySql : SplitProfile where
  backslashEscapes := true
  escapeStringPrefix := false
  backtickQuotes := true
  bracketQuotes := false
  dollarQuotes := false
  hashLineComments := true
  nestedBlockComments := false
  lineCommentEnd := .unverified
  backtickBackslashEscapes := false

def sqlite : SplitProfile where
  backslashEscapes := false
  escapeStringPrefix := false
  backtickQuotes := true
  bracketQuotes := true
  dollarQuotes := false
  hashLineComments := false
  nestedBlockComments := false
  lineCommentEnd := .lineFeed
  backtickBackslashEscapes := false

def sqlServer : SplitProfile where
  backslashEscapes := false
  escapeStringPrefix := false
  backtickQuotes := false
  bracketQuotes := true
  dollarQuotes := false
  hashLineComments := false
  nestedBlockComments := true
  lineCommentEnd := .unverified
  backtickBackslashEscapes := false

def clickHouse : SplitProfile where
  backslashEscapes := true
  escapeStringPrefix := false
  backtickQuotes := true
  bracketQuotes := false
  dollarQuotes := true
  hashLineComments := true
  nestedBlockComments := true
  lineCommentEnd := .lineFeed
  backtickBackslashEscapes := true

def duckDb : SplitProfile where
  backslashEscapes := false
  escapeStringPrefix := true
  backtickQuotes := true
  bracketQuotes := false
  dollarQuotes := true
  hashLineComments := false
  nestedBlockComments := true
  lineCommentEnd := .unverified
  backtickBackslashEscapes := false

/-- Snowflake and BigQuery differ in dollar quotes only. -/
def warehouse (dollarQuotes : Bool) : SplitProfile where
  backslashEscapes := true
  escapeStringPrefix := false
  backtickQuotes := true
  bracketQuotes := false
  dollarQuotes := dollarQuotes
  hashLineComments := false
  nestedBlockComments := false
  lineCommentEnd := .unverified
  backtickBackslashEscapes := false

/-- The profile of a dialect; an unknown one gets every form of quoting. -/
def forDialect : SqlDialect → SplitProfile
  | .postgres => postgresFamily .lineFeedOrCarriageReturn
  | .redshift => postgresFamily .unverified
  | .mySql => mySql
  | .sqlite => sqlite
  | .sqlServer => sqlServer
  | .clickHouse => clickHouse
  | .duckDb => duckDb
  | .snowflake => warehouse true
  | .bigQuery => warehouse false
  | .ansi | .oracle => permissive

end SplitProfile

/-! ## The loops -/

/-- What the scanner can tell apart. -/
inductive Tok where
  | word | quoted | singleQuoted | comment | unreadableComment | semicolon | symbol
deriving DecidableEq, Repr

def Tok.isComment : Tok → Bool
  | .comment | .unreadableComment => true
  | _ => false

/-- The body of `skip_word`. -/
def wordTurn (_ : Unit) (c : UInt8) (_ : Option UInt8) : Turn Unit Unit :=
  if isWordByte c then .one () else .leave 0 ()

def skipWord (b : List UInt8) (i : Nat) : Nat :=
  (loop wordTurn (b.drop (i + 1)) (i + 1) ()).index b.length

/-- What `skip_line_comment` keeps while it goes through the comment. -/
structure LineComment where
  loneCarriageReturn : Bool
  unreadable : Bool
deriving DecidableEq, Repr

/-- The body of `skip_line_comment`. -/
def lineTurn (stop : LineCommentEnd) (s : LineComment) (c : UInt8) (_ : Option UInt8) :
    Turn LineComment LineComment :=
  if c == Byte.lineFeed || (c == Byte.carriageReturn && stop == .lineFeedOrCarriageReturn) then
    .leave 0 s
  else if c == Byte.carriageReturn && stop == .unverified then
    .one { s with loneCarriageReturn := true }
  else if stop == .unverified && s.loneCarriageReturn && !isAsciiWhitespace c then
    .one { s with unreadable := true }
  else
    .one s

def LineComment.tok (s : LineComment) : Tok :=
  if s.unreadable then .unreadableComment else .comment

/-- The end of a line comment starting at `i`, and how it reads. -/
def skipLineComment (b : List UInt8) (i : Nat) (stop : LineCommentEnd) : Tok × Nat :=
  match loop (lineTurn stop) (b.drop i) i ⟨false, false⟩ with
  | .left j s => (s.tok, j)
  | .off s => (s.tok, b.length)

/-- The body of `skip_block_comment`; the state is the depth. -/
def blockTurn (nested : Bool) (depth : Nat) (c : UInt8) (next : Option UInt8) :
    Turn Nat Unit :=
  if nested && c == Byte.slash && next == some Byte.star then
    .two (depth + 1)
  else if c == Byte.star && next == some Byte.slash then
    if depth - 1 = 0 then .leave 2 () else .two (depth - 1)
  else
    .one depth

/-- An unclosed block comment swallows the end of the text. -/
def skipBlockComment (b : List UInt8) (start : Nat) (nested : Bool) : Nat :=
  (loop (blockTurn nested) (b.drop (start + 2)) (start + 2) 1).index b.length

/-- The body of `skip_quoted`. -/
def quotedTurn (quote : UInt8) (backslash : Bool) (_ : Unit) (c : UInt8)
    (next : Option UInt8) : Turn Unit Unit :=
  if backslash && c == Byte.backslash then .two ()
  else if c == quote then
    if next == some quote then .two () else .leave 1 ()
  else .one ()

/-- Goes through a quoted region; a doubled delimiter is always literal. -/
def skipQuoted (b : List UInt8) (start : Nat) (quote : UInt8) (backslash : Bool) : Nat :=
  (loop (quotedTurn quote backslash) (b.drop (start + 1)) (start + 1) ()).index b.length

/-- `[identifier]`: the closing bracket is doubled to be literal. -/
def skipBracket (b : List UInt8) (start : Nat) : Nat :=
  skipQuoted b start Byte.closeBracket false

/-- The body of `dollar_tag_end`; the state says whether the byte is the first of
the tag, which is no digit. -/
def tagTurn (first : Bool) (c : UInt8) (_ : Option UInt8) : Turn Bool Bool :=
  if c == Byte.dollar then .leave 1 true
  else if (if first then isAsciiAlphabetic c || c == 0x5f
      else isAsciiAlphabetic c || isAsciiDigit c || c == 0x5f) then
    .one false
  else .leave 0 false

/-- The end of the opening `$tag$`, when this `$` opens one. -/
def dollarTagEnd (b : List UInt8) (start : Nat) : Option Nat :=
  match loop tagTurn (b.drop (start + 1)) (start + 1) true with
  | .left j true => some j
  | .left _ false => none
  | .off _ => none

/-- An unclosed body swallows the end. -/
def skipDollarQuoted (b : List UInt8) (start : Nat) : Option Nat :=
  match dollarTagEnd b start with
  | none => none
  | some tagEnd =>
    let tag := (b.drop start).take (tagEnd - start)
    some ((find tag (b.drop tagEnd) tagEnd).getD b.length)

/-- The byte `k` places before `i`, when there is one. -/
def before? (b : List UInt8) (i k : Nat) : Option UInt8 := if k ≤ i then b[i - k]? else none

/-- Is the apostrophe at `start` preceded by an isolated `E` prefix? -/
def hasEscapePrefix (b : List UInt8) (start : Nat) : Bool :=
  match before? b start 1 with
  | none => false
  | some previous =>
    (previous == 0x65 || previous == 0x45) &&
      match before? b start 2 with
      | some before => !isWordByte before
      | none => true

/-! ## The scanner -/

/-- The element that starts at `i`, whose first byte is `c`, and where it ends. -/
def lex (b : List UInt8) (i : Nat) (c : UInt8) (p : SplitProfile) : Tok × Nat :=
  if c == Byte.dash && b[i + 1]? == some Byte.dash then
    skipLineComment b (i + 2) p.lineCommentEnd
  else if c == Byte.hash && p.hashLineComments then
    skipLineComment b (i + 1) p.lineCommentEnd
  else if c == Byte.slash && b[i + 1]? == some Byte.star then
    (.comment, skipBlockComment b i p.nestedBlockComments)
  else if c == Byte.apostrophe then
    let escapes := p.backslashEscapes || (p.escapeStringPrefix && hasEscapePrefix b i)
    (.singleQuoted, skipQuoted b i Byte.apostrophe escapes)
  else if c == Byte.doubleQuote then
    (.quoted, skipQuoted b i Byte.doubleQuote p.backslashEscapes)
  else if c == Byte.backtick && p.backtickQuotes then
    (.quoted, skipQuoted b i Byte.backtick p.backtickBackslashEscapes)
  else if c == Byte.openBracket && p.bracketQuotes then
    (.quoted, skipBracket b i)
  else if c == Byte.dollar && p.dollarQuotes then
    -- a lone `$` is a parameter placeholder, or an operator
    match skipDollarQuoted b i with
    | none => (.symbol, i + 1)
    | some stop => (.quoted, stop)
  else if isWordStart c then
    (.word, skipWord b i)
  else
    (.symbol, i + 1)

/-- Stepping over white space. -/
def blankTurn (_ : Unit) (c : UInt8) (_ : Option UInt8) : Turn Unit UInt8 :=
  if isAsciiWhitespace c then .one () else .leave 0 c

def atTerminator (b terminator : List UInt8) (i : Nat) : Bool :=
  !terminator.isEmpty && terminator.isPrefixOf (b.drop i)

/-- `Scanner::next`, standing at `i`: the terminator is looked for before anything else. -/
def readAt (b terminator : List UInt8) (p : SplitProfile) (i : Nat) : Option (Item Tok) :=
  match loop blankTurn (b.drop i) i () with
  | .off _ => none
  | .left start c =>
    if atTerminator b terminator start then
      some ⟨.semicolon, start, start + terminator.length⟩
    else
      let (token, stop) := lex b start c p
      some ⟨token, start, stop⟩

/-- The terminator in force unless a `DELIMITER` line chose otherwise. -/
def semicolonBytes : List UInt8 := [Byte.semicolon]

@[simp] theorem utf8EncodeChar_semicolon :
    String.utf8EncodeChar ';' = [Byte.semicolon] := by decide

@[simp] theorem utf8Size_semicolon : (';' : Char).utf8Size = 1 := by decide

/-! ### Where the loops end -/

variable {i : Nat}

theorem index_le {σ ρ : Type} (turn : σ → UInt8 → Option UInt8 → Turn σ ρ)
    (hk : ∀ s c n k r, turn s c n = .leave k r → k ≤ 1 + n.toList.length)
    (b : List UInt8) (hi : i ≤ b.length) (s : σ) :
    i ≤ (loop turn (b.drop i) i s).index b.length ∧
      (loop turn (b.drop i) i s).index b.length ≤ b.length := by
  cases h : loop turn (b.drop i) i s with
  | left j r =>
    have hle := le_of_left h
    have hlen := left_le_length hk h
    simp only [length_drop] at hlen
    simp only [Exit.index]
    omega
  | off s' => simpa [Exit.index] using hi

theorem wordTurn_leave {s c n k r} (h : wordTurn s c n = .leave k r) :
    k = 0 ∧ isWordByte c = false := by
  unfold wordTurn at h
  split at h
  · simp at h
  next hc => exact ⟨by simpa using h.symm, by simpa using hc⟩

theorem lineTurn_leave {stop s c n k r} (h : lineTurn stop s c n = .leave k r) :
    k = 0 ∧ (c = Byte.lineFeed ∨ c = Byte.carriageReturn) ∧ r = s := by
  unfold lineTurn at h
  split at h
  next hc =>
    simp only [Turn.leave.injEq] at h
    refine ⟨h.1.symm, ?_, h.2.symm⟩
    simp only [Bool.or_eq_true, Bool.and_eq_true, beq_iff_eq] at hc
    exact hc.imp id And.left
  · split at h
    · simp at h
    · split at h <;> simp at h

theorem blockTurn_leave {nested d c n k r} (h : blockTurn nested d c n = .leave k r) :
    k = 2 ∧ c = Byte.star ∧ n = some Byte.slash := by
  unfold blockTurn at h
  split at h
  · simp at h
  · split at h
    next hc =>
      simp only [Bool.and_eq_true, beq_iff_eq] at hc
      split at h
      · exact ⟨by simpa using h.symm, hc⟩
      · simp at h
    · simp at h

theorem quotedTurn_leave {quote backslash s c n k r}
    (h : quotedTurn quote backslash s c n = .leave k r) :
    k = 1 ∧ c = quote ∧ n ≠ some quote ∧ (backslash && c == Byte.backslash) = false := by
  unfold quotedTurn at h
  split at h
  · simp at h
  next hb =>
    split at h
    next hc =>
      split at h
      · simp at h
      next hn => exact ⟨by simpa using h.symm, by simpa using hc, by simpa using hn, by simpa using hb⟩
    · simp at h

theorem tagTurn_leave {first c n k r} (h : tagTurn first c n = .leave k r) :
    (k = 1 ∧ c = Byte.dollar ∧ r = true) ∨ (k = 0 ∧ r = false) := by
  unfold tagTurn at h
  by_cases hc : (c == Byte.dollar) = true
  · rw [if_pos hc] at h
    obtain ⟨rfl, rfl⟩ := Turn.leave.inj h
    exact .inl ⟨rfl, by simpa using hc, rfl⟩
  · rw [if_neg hc] at h
    generalize (if first = true then _ else _ : Bool) = acceptable at h
    cases acceptable with
    | true => simp at h
    | false =>
      obtain ⟨rfl, rfl⟩ := Turn.leave.inj h
      exact .inr ⟨rfl, rfl⟩

variable {b : List UInt8}

theorem skipWord_bounds (hi : i < b.length) :
    i + 1 ≤ skipWord b i ∧ skipWord b i ≤ b.length :=
  index_le _ (fun _ _ _ _ _ h => by have := (wordTurn_leave h).1; omega) b hi ()

theorem skipQuoted_bounds {q : UInt8} {e : Bool} (hi : i < b.length) :
    i + 1 ≤ skipQuoted b i q e ∧ skipQuoted b i q e ≤ b.length :=
  index_le _ (fun _ _ _ _ _ h => by have := (quotedTurn_leave h).1; omega) b hi ()

theorem skipBlockComment_bounds (nested : Bool) (hi : i + 1 < b.length) :
    i + 2 ≤ skipBlockComment b i nested ∧ skipBlockComment b i nested ≤ b.length :=
  index_le _ (fun _ _ _ _ _ h => by
    obtain ⟨rfl, -, rfl⟩ := blockTurn_leave h
    simp) b hi 1

theorem skipLineComment_bounds (stop : LineCommentEnd) (hi : i ≤ b.length) :
    i ≤ (skipLineComment b i stop).2 ∧ (skipLineComment b i stop).2 ≤ b.length := by
  have h := index_le (lineTurn stop)
    (fun _ _ _ _ _ h => by have := (lineTurn_leave h).1; omega) b hi ⟨false, false⟩
  unfold skipLineComment
  cases hl : loop (lineTurn stop) (b.drop i) i ⟨false, false⟩ <;>
    simpa [hl, Exit.index] using h

theorem dollarTagEnd_bounds {i j : Nat} (h : dollarTagEnd b i = some j) :
    i + 2 ≤ j ∧ j ≤ b.length := by
  unfold dollarTagEnd at h
  split at h
  next j' hl =>
    obtain rfl := Option.some.inj h
    obtain ⟨m, s', c, k, hc, hturn, rfl⟩ := exists_turn_of_left hl
    have hm := (List.getElem?_eq_some_iff.mp hc).1
    simp only [length_drop] at hm
    rcases tagTurn_leave hturn with ⟨rfl, -, -⟩ | ⟨-, hr⟩
    · omega
    · simp at hr
  · simp at h
  · simp at h

theorem skipDollarQuoted_bounds {i j : Nat}
    (h : skipDollarQuoted b i = some j) : i + 1 ≤ j ∧ j ≤ b.length := by
  unfold skipDollarQuoted at h
  split at h
  · simp at h
  next te hte =>
    have hb := dollarTagEnd_bounds hte
    simp only [Option.some.injEq] at h
    cases hf : find ((b.drop i).take (te - i)) (b.drop te) te with
    | none => simp only [hf, Option.getD_none] at h; omega
    | some e =>
      have := find_bounds hf
      simp only [hf, Option.getD_some] at h
      simp only [length_drop] at this
      omega

theorem lex_bounds (p : SplitProfile)
    (hc : b[i]? = some c) : i < (lex b i c p).2 ∧ (lex b i c p).2 ≤ b.length := by
  have hi : i < b.length := (List.getElem?_eq_some_iff.mp hc).1
  unfold lex
  split
  next h =>
    have h2 : i + 1 < b.length := by
      simp only [Bool.and_eq_true, beq_iff_eq] at h
      exact (List.getElem?_eq_some_iff.mp h.2).1
    have := skipLineComment_bounds p.lineCommentEnd (i := i + 2) h2
    omega
  split
  · have := skipLineComment_bounds p.lineCommentEnd (i := i + 1) hi
    omega
  split
  next h =>
    have h2 : i + 1 < b.length := by
      simp only [Bool.and_eq_true, beq_iff_eq] at h
      exact (List.getElem?_eq_some_iff.mp h.2).1
    have := skipBlockComment_bounds p.nestedBlockComments h2
    simp only
    omega
  split
  · exact skipQuoted_bounds hi
  split
  · exact skipQuoted_bounds hi
  split
  · exact skipQuoted_bounds hi
  split
  · exact skipQuoted_bounds hi
  split
  · split
    · exact ⟨Nat.lt_succ_self i, hi⟩
    next stop h => exact skipDollarQuoted_bounds h
  split
  · exact skipWord_bounds hi
  · exact ⟨Nat.lt_succ_self i, hi⟩

/-! ### Stepping over white space -/

/-- The bytes from `i` up to `j` are white space. -/
def BlankRange (b : List UInt8) (i j : Nat) : Prop :=
  ∀ k, i ≤ k → k < j → ∃ x, b[k]? = some x ∧ isAsciiWhitespace x = true

theorem loop_blank_left {i j : Nat} :
    loop blankTurn (b.drop i) i () = .left j c ↔
      i ≤ j ∧ b[j]? = some c ∧ isAsciiWhitespace c = false ∧ BlankRange b i j := by
  suffices ∀ (l : List UInt8) (i : Nat), l = b.drop i →
      (loop blankTurn l i () = .left j c ↔
        i ≤ j ∧ b[j]? = some c ∧ isAsciiWhitespace c = false ∧ BlankRange b i j) from
    this _ _ rfl
  intro l
  induction l with
  | nil =>
    intro i hl
    have hlen : b.length ≤ i := drop_eq_nil_iff.mp hl.symm
    simp only [loop, reduceCtorEq, false_iff]
    rintro ⟨hij, hc, -⟩
    have := (List.getElem?_eq_some_iff.mp hc).1
    omega
  | cons d l ih =>
    intro i hl
    obtain ⟨hd, htail⟩ := of_cons_eq_drop hl
    simp only [loop, blankTurn]
    by_cases hw : isAsciiWhitespace d = true
    · rw [if_pos hw]
      simp only
      rw [ih (i + 1) htail]
      constructor
      · rintro ⟨hij, hc, hcw, hr⟩
        refine ⟨by omega, hc, hcw, fun k hk hkj => ?_⟩
        rcases Nat.eq_or_lt_of_le hk with rfl | hk
        · exact ⟨d, hd, hw⟩
        · exact hr k hk hkj
      · rintro ⟨hij, hc, hcw, hr⟩
        rcases Nat.eq_or_lt_of_le hij with rfl | hij
        · rw [hd] at hc
          obtain rfl := Option.some.inj hc
          simp [hw] at hcw
        · exact ⟨hij, hc, hcw, fun k hk hkj => hr k (by omega) hkj⟩
    · rw [if_neg hw]
      simp only [Exit.left.injEq, Nat.add_zero]
      constructor
      · rintro ⟨rfl, rfl⟩
        exact ⟨Nat.le_refl _, hd, by simpa using hw, fun k hk hkj => by omega⟩
      · rintro ⟨hij, hc, -, hr⟩
        rcases Nat.eq_or_lt_of_le hij with rfl | hij
        · rw [hd] at hc
          exact ⟨rfl, Option.some.inj hc⟩
        · obtain ⟨x, hx, hxw⟩ := hr i (Nat.le_refl _) hij
          rw [hd] at hx
          obtain rfl := Option.some.inj hx
          exact absurd hxw hw

theorem loop_blank_off {s : Unit} :
    loop blankTurn (b.drop i) i () = .off s ↔ BlankRange b i b.length := by
  constructor
  · intro h
    suffices ∀ (l : List UInt8) (i : Nat), l = b.drop i → loop blankTurn l i () = .off s →
        BlankRange b i b.length from this _ _ rfl h
    intro l
    induction l with
    | nil =>
      intro i hl _ k hk hkb
      have := drop_eq_nil_iff.mp hl.symm
      omega
    | cons d l ih =>
      intro i hl h k hk hkb
      obtain ⟨hd, htail⟩ := of_cons_eq_drop hl
      simp only [loop, blankTurn] at h
      split at h
      next hleave => simp at h
      next hone =>
        rcases Nat.eq_or_lt_of_le hk with rfl | hk
        · refine ⟨d, hd, ?_⟩
          by_contra hw
          simp [hw] at hone
        · exact ih (i + 1) htail h k hk hkb
      next htwo => split at htwo <;> simp at htwo
  · intro h
    cases hl : loop blankTurn (b.drop i) i () with
    | off => rfl
    | left j c =>
      rw [loop_blank_left] at hl
      obtain ⟨hij, hc, hcw, -⟩ := hl
      obtain ⟨x, hx, hxw⟩ := h j hij (List.getElem?_eq_some_iff.mp hc).1
      obtain rfl := Option.some.inj (hc.symm.trans hx)
      simp [hcw] at hxw

/-! ### What is read -/

variable {p : SplitProfile} {x : Item Tok}

theorem readAt_eq_some {b terminator : List UInt8} :
    readAt b terminator p i = some x ↔
      ∃ c, i ≤ x.start ∧ BlankRange b i x.start ∧ b[x.start]? = some c ∧
        isAsciiWhitespace c = false ∧
        (atTerminator b terminator x.start = true ∧ x.kind = .semicolon ∧
            x.stop = x.start + terminator.length ∨
          atTerminator b terminator x.start = false ∧ lex b x.start c p = (x.kind, x.stop)) := by
  obtain ⟨kind, start, stop⟩ := x
  unfold readAt
  constructor
  · intro h
    cases hl : loop blankTurn (b.drop i) i () with
    | off => simp [hl] at h
    | left j c =>
      simp only [hl] at h
      rw [loop_blank_left] at hl
      obtain ⟨hij, hc, hcw, hr⟩ := hl
      split at h
      next ht =>
        simp only [Option.some.injEq, Item.mk.injEq] at h
        obtain ⟨rfl, rfl, rfl⟩ := h
        exact ⟨c, hij, hr, hc, hcw, .inl ⟨ht, rfl, rfl⟩⟩
      next ht =>
        simp only [Option.some.injEq, Item.mk.injEq] at h
        obtain ⟨rfl, rfl, rfl⟩ := h
        exact ⟨c, hij, hr, hc, hcw, .inr ⟨by simpa using ht, rfl⟩⟩
  · rintro ⟨c, hij, hr, hc, hcw, h⟩
    have hl : loop blankTurn (b.drop i) i () = .left start c := by
      rw [loop_blank_left]
      exact ⟨hij, hc, hcw, hr⟩
    rcases h with ⟨ht, hkind, hstop⟩ | ⟨ht, hlex⟩
    · simp only at ht hkind hstop
      simp [hl, ht, hkind, hstop]
    · simp only at ht hlex
      simp [hl, ht, hlex]

theorem readAt_eq_none {b terminator : List UInt8} :
    readAt b terminator p i = none ↔ BlankRange b i b.length := by
  rw [← loop_blank_off (s := ())]
  unfold readAt
  cases loop blankTurn (b.drop i) i () with
  | off => simp
  | left j c =>
    simp only [reduceCtorEq, iff_false]
    split <;> simp

theorem atTerminator_eq_true {b terminator : List UInt8} :
    atTerminator b terminator i = true ↔ terminator ≠ [] ∧ terminator <+: b.drop i := by
  simp [atTerminator, List.isPrefixOf_iff_prefix]

theorem terminator_of_read {b t : List UInt8}
    (h : readAt b t p i = some x) (hk : x.kind = .semicolon) :
    t <+: b.drop x.start ∧ x.stop = x.start + t.length := by
  rw [readAt_eq_some] at h
  obtain ⟨c, -, -, hc, -, hx⟩ := h
  rcases hx with ⟨ht, -, hstop⟩ | ⟨-, hlex⟩
  · exact ⟨(atTerminator_eq_true.mp ht).2, hstop⟩
  · -- the lexer itself never answers a separator
    exfalso
    rw [hk] at hlex
    unfold lex skipLineComment LineComment.tok at hlex
    repeat' split at hlex
    all_goals simp at hlex

theorem reader_forward {b terminator : List UInt8} (h : readAt b terminator p i = some x) :
    i ≤ x.start ∧ x.start < x.stop ∧ x.stop ≤ b.length := by
  rw [readAt_eq_some] at h
  obtain ⟨c, hi, -, hc, -, hx⟩ := h
  rcases hx with ⟨ht, -, hstop⟩ | ⟨-, hlex⟩
  · obtain ⟨hne, hpre⟩ := atTerminator_eq_true.mp ht
    have hpos := length_pos_iff.mpr hne
    have hlen := hpre.length_le
    simp only [length_drop] at hlen
    omega
  · have := lex_bounds p hc
    rw [hlex] at this
    exact ⟨hi, this⟩

/-- The scanner of a text. -/
def reader (b terminator : List UInt8) (p : SplitProfile) : Reader Tok where
  size := b.length
  next := readAt b terminator p
  forward := reader_forward

/-- The reader behind `scan`: `;` ends a statement. -/
def scanner (sql : Str) (p : SplitProfile) : Reader Tok := reader (bytes sql) semicolonBytes p

/-- Goes through the text once and reports each significant element. -/
def scan (sql : Str) (p : SplitProfile) : List (Item Tok) := (scanner sql p).items 0

/-! ### Separators -/

variable {sql : Str}

theorem separator_stop (h : x ∈ scan sql p) (hk : x.kind = .semicolon) : x.stop = x.start + 1 := by
  obtain ⟨i, -, hx⟩ := Reader.mem_items.mp h
  exact (terminator_of_read hx hk).2

theorem byte_of_separator (h : x ∈ scan sql p)
    (hk : x.kind = .semicolon) : (bytes sql)[x.start]? = some Byte.semicolon := by
  obtain ⟨i, -, hx⟩ := Reader.mem_items.mp h
  obtain ⟨rest, hrest⟩ := (terminator_of_read hx hk).1
  have := congrArg (·[0]?) hrest
  simpa [semicolonBytes] using this.symm

theorem separator_of_byte (h : x ∈ scan sql p)
    (hc : (bytes sql)[x.start]? = some Byte.semicolon) : x.kind = .semicolon := by
  obtain ⟨i, -, hx⟩ := Reader.mem_items.mp h
  obtain ⟨c, -, -, -, -, hread⟩ := readAt_eq_some.mp hx
  rcases hread with ⟨-, hk, -⟩ | ⟨hterm, -⟩
  · exact hk
  · obtain ⟨hlt, hget⟩ := List.getElem?_eq_some_iff.mp hc
    have : atTerminator (bytes sql) semicolonBytes x.start = true := by
      refine atTerminator_eq_true.mpr ⟨by decide, (bytes sql).drop (x.start + 1), ?_⟩
      rw [drop_eq_getElem_cons hlt, hget]
      rfl
    simp [hterm] at this

end Oxyn
