/-
# `Oxyn.ClickHouse.Placeholder` — what a placeholder is

`{name:Type}` as a text: an identifier, white space, a colon and a type that ends at the first
closing brace outside its parentheses and its quotes.
-/
import Oxyn.ClickHouse.Params
import Oxyn.Query.Spelled

namespace Oxyn.ClickHouse.Params

open Text Cursor List

/-! ## The text of a placeholder -/

def IsQuote (c : UInt8) : Prop := c = Byte.apostrophe ∨ c = Byte.doubleQuote ∨ c = Byte.backtick

instance (c : UInt8) : Decidable (IsQuote c) := inferInstanceAs (Decidable (_ ∨ _ ∨ _))

/-- What stands between two quotes: a backslash escapes what follows it, a doubled quote is one. -/
inductive QuotedBody (quote : UInt8) : List UInt8 → Prop
  | nil : QuotedBody quote []
  | escaped (c : UInt8) {rest : List UInt8} : QuotedBody quote rest →
      QuotedBody quote (Byte.backslash :: c :: rest)
  | doubled {rest : List UInt8} : QuotedBody quote rest → QuotedBody quote (quote :: quote :: rest)
  | plain {c : UInt8} {rest : List UInt8} : c ≠ Byte.backslash → c ≠ quote →
      QuotedBody quote rest → QuotedBody quote (c :: rest)

/-- A type and the brace that ends it, from within so many parentheses. -/
inductive TypeText : Nat → List UInt8 → Prop
  | brace : TypeText 0 [closeBrace]
  | opens {depth : Nat} {rest : List UInt8} : TypeText (depth + 1) rest →
      TypeText depth (Byte.openParenthesis :: rest)
  | closes {depth : Nat} {rest : List UInt8} : TypeText (depth - 1) rest →
      TypeText depth (closeParenthesis :: rest)
  | quoted {depth : Nat} {quote : UInt8} {body rest : List UInt8} : IsQuote quote →
      QuotedBody quote body → rest.head? ≠ some quote → TypeText depth rest →
      TypeText depth (quote :: (body ++ quote :: rest))
  | plain {depth : Nat} {c : UInt8} {rest : List UInt8} : ¬ IsQuote c →
      c ≠ Byte.openParenthesis → c ≠ closeParenthesis → (c = closeBrace → 0 < depth) →
      TypeText depth rest → TypeText depth (c :: rest)

/-- Letters, digits and underscores, the first no digit. -/
structure IsName (name : Str) : Prop where
  nonempty : name ≠ []
  letters : ∀ c ∈ bytes name, isAsciiAlphabetic c = true ∨ isAsciiDigit c = true ∨ c = 0x5f
  first : ∀ c ∈ name.head?, c.isDigit = false

/-- A `{name:Type}` begins at `i` and ends before `stop`. -/
def IsPlaceholder (b : List UInt8) (i : Nat) (name : Str) (stop : Nat) : Prop :=
  ∃ blanks type rest, b.drop i =
      openBrace :: (bytes name ++ (blanks ++ Byte.colon :: (type ++ rest))) ∧ IsName name ∧
    (∀ c ∈ blanks, isAsciiWhitespace c = true) ∧ TypeText 0 type ∧
    stop = i + 1 + size name + blanks.length + 1 + type.length

/-! ## Quotes -/

variable {b : List UInt8} {i k stop : Nat} {c quote : UInt8}

theorem QuotedBody.passes {body : List UInt8} (h : QuotedBody quote body)
    (hquote : quote ≠ Byte.backslash) : Passes (Oxyn.quotedTurn quote true) () body () := by
  induction h with
  | nil => exact .nil ()
  | escaped c _ ih => exact (passes_two (by simp [Oxyn.quotedTurn])).append ih
  | doubled _ ih => exact (passes_doubled hquote).append ih
  | @plain c rest hc hne _ ih =>
    exact (passes_unmarked (w := [c]) (by simp [Marked, hc, hne])).append ih

theorem quotedBody_of_left {l : List UInt8} {j : Nat}
    (h : loop (quotedTurn quote) l i () = .left j ()) :
    ∃ body rest, l = body ++ quote :: rest ∧ QuotedBody quote body ∧ rest.head? ≠ some quote ∧
      j = i + body.length + 1 := by
  fun_induction loop (quotedTurn quote) l i () with
  | case1 => cases h
  | case2 c rest i s k r hturn =>
    obtain ⟨rfl, -⟩ := Exit.left.inj h
    rw [quotedTurn_eq] at hturn
    obtain ⟨rfl, rfl, hnext, -⟩ := quotedTurn_leave hturn
    exact ⟨[], rest, rfl, .nil, hnext, rfl⟩
  | case3 c rest i s s' hturn ih =>
    obtain ⟨body, tail, rfl, hbody, hnext, rfl⟩ := ih h
    have hplain : c ≠ Byte.backslash ∧ c ≠ quote := by
      unfold quotedTurn at hturn
      split at hturn
      · cases hturn
      next hback =>
        split at hturn
        · split at hturn <;> cases hturn
        next hquote => exact ⟨by simpa using hback, by simpa using hquote⟩
    refine ⟨c :: body, tail, rfl, .plain hplain.1 hplain.2 hbody, hnext, ?_⟩
    rw [length_cons]
    omega
  | case4 => cases h
  | case5 c i s s' d rest hturn ih =>
    obtain ⟨body, tail, rfl, hbody, hnext, rfl⟩ := ih h
    have hpair : QuotedBody quote (c :: d :: body) := by
      unfold quotedTurn at hturn
      split at hturn
      next hback =>
        obtain rfl := beq_iff_eq.mp hback
        exact .escaped d hbody
      next =>
        split at hturn
        next hquote =>
          split at hturn
          next hdoubled =>
            obtain rfl := beq_iff_eq.mp hquote
            obtain rfl := Option.some.inj (beq_iff_eq.mp hdoubled)
            exact .doubled hbody
          next => cases hturn
        next => cases hturn
    refine ⟨c :: d :: body, tail, rfl, hpair, hnext, ?_⟩
    rw [length_cons, length_cons]
    omega

theorem skipQuoted_cases (b : List UInt8) (i : Nat) (quote : UInt8) :
    skipQuoted b i quote = b.length ∨ ∃ body rest, b.drop (i + 1) = body ++ quote :: rest ∧
      QuotedBody quote body ∧ rest.head? ≠ some quote ∧
        skipQuoted b i quote = i + body.length + 2 := by
  unfold skipQuoted
  cases hloop : loop (quotedTurn quote) (b.drop (i + 1)) (i + 1) () with
  | off => exact .inl rfl
  | left j =>
    obtain ⟨body, rest, hdrop, hbody, hnext, rfl⟩ := quotedBody_of_left hloop
    refine .inr ⟨body, rest, hdrop, hbody, hnext, ?_⟩
    simp only [Exit.index]
    omega

/-! ## Types -/

/-- Where the type that is read on from `k` ends. -/
def typeEndAt (b : List UInt8) (depth k : Nat) : Option Nat :=
  typeEnd depth ((typeParts b).items k)

theorem isQuote_iff :
    (c == Byte.apostrophe || c == Byte.doubleQuote || c == Byte.backtick) = true ↔ IsQuote c := by
  simp only [Bool.or_eq_true, beq_iff_eq, or_assoc, IsQuote]

variable {depth : Nat}

theorem typeEndAt_of_none (hc : b[k]? = none) : typeEndAt b depth k = none := by
  have hnext : (typeParts b).next k = none := by
    show typePart b k = none
    rw [typePart, hc]
    rfl
  rw [typeEndAt, Reader.items_of_none hnext]
  rfl

theorem typeEndAt_quote (hc : b[k]? = some c) (hquote : IsQuote c) :
    typeEndAt b depth k = typeEndAt b depth (skipQuoted b k c) := by
  have hnext : (typeParts b).next k = some ⟨c, k, skipQuoted b k c⟩ := by
    show typePart b k = _
    rw [typePart, hc, Option.map_some, if_pos (isQuote_iff.mpr hquote)]
  rw [typeEndAt, Reader.items_of_some hnext, typeEnd]
  have hno : ∀ d : UInt8, ¬ IsQuote d → (c == d) = false := fun d hd =>
    beq_eq_false_iff_ne.mpr fun heq => hd (heq ▸ hquote)
  simp only [hno Byte.openParenthesis (by decide), hno closeParenthesis (by decide),
    hno closeBrace (by decide), Bool.false_and, Bool.false_eq_true, if_false]
  rfl

theorem typeEndAt_byte (hc : b[k]? = some c) (hquote : ¬ IsQuote c) :
    typeEndAt b depth k =
      if c = Byte.openParenthesis then typeEndAt b (depth + 1) (k + 1)
      else if c = closeParenthesis then typeEndAt b (depth - 1) (k + 1)
      else if c = closeBrace ∧ depth = 0 then some (k + 1)
      else typeEndAt b depth (k + 1) := by
  have hnext : (typeParts b).next k = some ⟨c, k, k + 1⟩ := by
    show typePart b k = _
    rw [typePart, hc, Option.map_some, if_neg fun h => hquote (isQuote_iff.mp h)]
  rw [typeEndAt, Reader.items_of_some hnext, typeEnd]
  simp only [beq_iff_eq, Bool.and_eq_true]
  rfl

theorem drop_succ_of_drop {rest : List UInt8} (h : b.drop k = c :: rest) :
    b[k]? = some c ∧ b.drop (k + 1) = rest := by
  obtain ⟨hc, hrest⟩ := of_cons_eq_drop h.symm
  exact ⟨hc, hrest.symm⟩

theorem typeEndAt_of_typeText {type rest : List UInt8} (h : TypeText depth type)
    (hdrop : b.drop k = type ++ rest) : typeEndAt b depth k = some (k + type.length) := by
  induction h generalizing k with
  | brace =>
    obtain ⟨hc, -⟩ := drop_succ_of_drop hdrop
    rw [typeEndAt_byte hc (by decide)]
    rfl
  | opens _ ih =>
    obtain ⟨hc, hrest⟩ := drop_succ_of_drop hdrop
    rw [typeEndAt_byte hc (by decide), if_pos rfl, ih hrest, length_cons]
    congr 1
    omega
  | closes _ ih =>
    obtain ⟨hc, hrest⟩ := drop_succ_of_drop hdrop
    rw [typeEndAt_byte hc (by decide), if_neg (by decide), if_pos rfl, ih hrest, length_cons]
    congr 1
    omega
  | @quoted depth quote body tail hquote hbody hnext htype ih =>
    obtain ⟨hc, hrest⟩ := drop_succ_of_drop hdrop
    have hne : quote ≠ Byte.backslash := by
      obtain rfl | rfl | rfl := hquote <;> decide
    have hhead : (tail ++ rest).head? ≠ some quote := by
      cases tail with
      | nil => cases htype
      | cons c tail => exact hnext
    replace hrest : b.drop (k + 1) = body ++ quote :: (tail ++ rest) :=
      hrest.trans (append_assoc body (quote :: tail) rest)
    have hskip := skipQuoted_of_passes hrest (hbody.passes hne) hne hhead
    rw [← skipQuoted_eq] at hskip
    have hafter : b.drop (k + body.length + 2) = tail ++ rest := by
      have hsum : k + body.length + 2 = k + 1 + (body.length + 1) := by omega
      rw [hsum, ← drop_drop, hrest, append_cons, drop_append_of_le_length (by simp),
        drop_of_length_le (by simp), nil_append]
    rw [typeEndAt_quote hc hquote, hskip, ih hafter]
    simp only [length_cons, length_append]
    congr 1
    omega
  | @plain depth c tail hquote hopen hclose hbrace _ ih =>
    obtain ⟨hc, hrest⟩ := drop_succ_of_drop hdrop
    rw [typeEndAt_byte hc hquote, if_neg hopen, if_neg hclose, if_neg, ih hrest, length_cons]
    · congr 1
      omega
    · rintro ⟨rfl, hzero⟩
      have := hbrace rfl
      omega

theorem typeText_of_typeEndAt (h : typeEndAt b depth k = some stop) :
    ∃ type rest, b.drop k = type ++ rest ∧ TypeText depth type ∧ stop = k + type.length := by
  induction k using Reader.reading_induction (r := typeParts b) generalizing depth with
  | h k ih =>
    cases hc : b[k]? with
    | none =>
      rw [typeEndAt_of_none hc] at h
      cases h
    | some c =>
      have hdrop : b.drop k = c :: b.drop (k + 1) := by
        obtain ⟨hlt, hget⟩ := List.getElem?_eq_some_iff.mp hc
        rw [drop_eq_getElem_cons hlt, hget]
      by_cases hquote : IsQuote c
      · have hnext : (typeParts b).next k = some ⟨c, k, skipQuoted b k c⟩ := by
          show typePart b k = _
          rw [typePart, hc, Option.map_some, if_pos (isQuote_iff.mpr hquote)]
        rw [typeEndAt_quote hc hquote] at h
        rcases skipQuoted_cases b k c with hend | ⟨body, rest, hbody, hquoted, hhead, hskip⟩
        · rw [typeEndAt_of_none (by rw [hend]; exact getElem?_eq_none (Nat.le_refl _))] at h
          cases h
        obtain ⟨type, tail, htail, htype, rfl⟩ := ih _ hnext h
        simp only [hskip] at htail ⊢
        have hafter : b.drop (k + body.length + 2) = rest := by
          have hsum : k + body.length + 2 = k + 1 + (body.length + 1) := by omega
          rw [hsum, ← drop_drop, hbody, append_cons, drop_append_of_le_length (by simp),
            drop_of_length_le (by simp), nil_append]
        rw [hafter] at htail
        refine ⟨c :: (body ++ c :: type), tail, ?_, .quoted hquote hquoted ?_ htype, ?_⟩
        · rw [hdrop, hbody, htail]
          simp
        · cases type with
          | nil => cases htype
          | cons d type =>
            rw [htail] at hhead
            exact hhead
        · simp only [length_cons, length_append]
          omega
      · have hnext : (typeParts b).next k = some ⟨c, k, k + 1⟩ := by
          show typePart b k = _
          rw [typePart, hc, Option.map_some, if_neg fun h => hquote (isQuote_iff.mp h)]
        have hlater : ∀ depth', typeEndAt b depth' (k + 1) = some stop →
            (∀ type, TypeText depth' type → TypeText depth (c :: type)) →
              ∃ type rest, b.drop k = type ++ rest ∧ TypeText depth type ∧
                stop = k + type.length := by
          intro depth' h' hcons
          obtain ⟨type, rest, hrest, htype, rfl⟩ := ih _ hnext h'
          simp only at hrest ⊢
          refine ⟨c :: type, rest, by rw [hdrop, hrest]; rfl, hcons type htype, ?_⟩
          rw [length_cons]
          omega
        rw [typeEndAt_byte hc hquote] at h
        split at h
        next hopen => exact hlater _ h fun type htype => hopen ▸ .opens htype
        split at h
        next hclose => exact hlater _ h fun type htype => hclose ▸ .closes htype
        split at h
        next hbrace =>
          obtain ⟨rfl, rfl⟩ := hbrace
          obtain rfl := Option.some.inj h
          exact ⟨[closeBrace], b.drop (k + 1), hdrop, .brace, rfl⟩
        next hopen hclose hbrace =>
          refine hlater _ h fun type htype => .plain hquote hopen hclose (fun heq => ?_) htype
          exact Nat.pos_of_ne_zero fun hzero => hbrace ⟨heq, hzero⟩

/-! ## Names -/

section Runs

variable {p : UInt8 → Bool}

theorem drop_eq_run (p : UInt8 → Bool) (b : List UInt8) (i : Nat) :
    b.drop i = (b.drop i).takeWhile p ++ b.drop (runEnd p b i) := by
  rw [runEnd, ← drop_drop]
  exact prefix_append_drop (List.takeWhile_prefix p)

theorem runEnd_of_drop {w rest : List UInt8} (h : b.drop i = w ++ rest)
    (hw : ∀ c ∈ w, p c = true) (hrest : ∀ c ∈ rest.head?, p c = false) :
    runEnd p b i = i + w.length ∧ b.drop (i + w.length) = rest := by
  have hstop : rest.takeWhile p = [] := by
    cases rest with
    | nil => rfl
    | cons c rest => rw [takeWhile_cons, hrest c rfl]; rfl
  rw [runEnd, h, takeWhile_append_of_pos hw, hstop, append_nil, ← drop_drop, h, drop_left]
  exact ⟨rfl, rfl⟩

end Runs

variable {name : Str}

theorem isNameByte_iff : isNameByte c = true ↔
    isAsciiAlphabetic c = true ∨ isAsciiDigit c = true ∨ c = 0x5f := by
  simp only [isNameByte, Bool.or_eq_true, beq_iff_eq, or_assoc]

theorem not_refused_iff : (name.isEmpty || name.head?.any Char.isDigit) = false ↔
    name ≠ [] ∧ ∀ c ∈ name.head?, c.isDigit = false := by
  rw [Bool.or_eq_false_iff, isEmpty_eq_false_iff, Option.any_eq_false]
  simp only [Option.mem_def]

/-- What `placeholder` finds at a brace is a placeholder, and it finds each. -/
theorem placeholder_iff (hbrace : b[i]? = some openBrace) :
    placeholder b i = some (name, stop) ↔ IsPlaceholder b i name stop := by
  have hslice : (b.drop (i + 1)).take (runEnd isNameByte b (i + 1) - (i + 1)) =
      (b.drop (i + 1)).takeWhile isNameByte := by
    rw [runEnd, Nat.add_sub_cancel_left]
    exact (prefix_iff_eq_take.mp (List.takeWhile_prefix _)).symm
  have hopen : b.drop i = openBrace :: b.drop (i + 1) := by
    obtain ⟨hlt, hget⟩ := List.getElem?_eq_some_iff.mp hbrace
    rw [drop_eq_getElem_cons hlt, hget]
  unfold placeholder
  simp only [hslice]
  constructor
  · intro h
    split at h
    · cases h
    next found hfound =>
    rw [fromUtf8_eq_some] at hfound
    split at h
    · cases h
    next hname =>
    split at h
    next hcolon =>
      obtain ⟨_, hend, heq⟩ := Option.map_eq_some_iff.mp h
      obtain ⟨rfl, rfl⟩ := Prod.mk.inj heq
      obtain ⟨hne, hfirst⟩ := not_refused_iff.mp (Bool.eq_false_iff.mpr hname)
      obtain ⟨type, rest, htype, htext, rfl⟩ := typeText_of_typeEndAt hend
      obtain ⟨hlt, hget⟩ := List.getElem?_eq_some_iff.mp (beq_iff_eq.mp hcolon)
      have hblank := drop_eq_run isAsciiWhitespace b (runEnd isNameByte b (i + 1))
      rw [drop_eq_getElem_cons hlt, hget, htype] at hblank
      have hrun := drop_eq_run isNameByte b (i + 1)
      rw [← hfound, hblank] at hrun
      refine ⟨_, type, rest, by rw [hopen, hrun], ⟨hne, ?_, hfirst⟩, ?_, htext, ?_⟩
      · intro c hc
        rw [hfound] at hc
        exact isNameByte_iff.mp (mem_takeWhile_imp hc)
      · exact fun c hc => mem_takeWhile_imp hc
      · have hlength : ((b.drop (i + 1)).takeWhile isNameByte).length = size found := by
          rw [← hfound, length_bytes]
        simp only [runEnd, hlength]
    · cases h
  · rintro ⟨blanks, type, rest, hdrop, hname, hblanks, htype, rfl⟩
    have hbehind : b.drop (i + 1) =
        bytes name ++ (blanks ++ Byte.colon :: (type ++ rest)) :=
      (List.cons.inj (hopen.symm.trans hdrop)).2
    have hnotName : ∀ c ∈ (blanks ++ Byte.colon :: (type ++ rest)).head?,
        isNameByte c = false := by
      intro c hc
      cases blanks with
      | nil =>
        obtain rfl := Option.some.inj hc
        decide
      | cons d blanks =>
        obtain rfl := Option.some.inj hc
        have hw := hblanks d mem_cons_self
        simp only [isAsciiWhitespace, Bool.or_eq_true, beq_iff_eq] at hw
        rcases hw with (((rfl | rfl) | rfl) | rfl) | rfl <;> decide
    obtain ⟨hrun, hafter⟩ := runEnd_of_drop hbehind
      (fun c hc => isNameByte_iff.mpr (hname.letters c hc)) hnotName
    obtain ⟨hcolon, htail⟩ := runEnd_of_drop (p := isAsciiWhitespace) hafter hblanks (by
      intro c hc
      obtain rfl := Option.some.inj hc
      decide)
    obtain ⟨hbyte, hrest⟩ := drop_succ_of_drop htail
    have htake : (b.drop (i + 1)).takeWhile isNameByte = bytes name := by
      rw [← hslice, hrun, Nat.add_sub_cancel_left, hbehind, take_left]
    rw [htake, fromUtf8_eq_some.mpr rfl]
    have hkeep := not_refused_iff.mpr ⟨hname.nonempty, hname.first⟩
    simp only [hkeep, Bool.false_eq_true, if_false]
    rw [hrun, hcolon, hbyte, if_pos (beq_self_eq_true (some Byte.colon))]
    have hend := typeEndAt_of_typeText htype hrest
    rw [typeEndAt] at hend
    rw [hend, Option.map_some, length_bytes]

end Oxyn.ClickHouse.Params
