/-
# `Oxyn.Mongo.Request` — where one command ends in a console holding several

A console holds JSON objects one after another, each a command.  The boundary is lexical: a brace
at the top opens a command, the bracket that closes it ends it, and brackets inside strings do not
count.
-/
import Oxyn.Query.Scan

namespace Oxyn.Mongo

open Text List

/-! ## The cut -/

/-- What is behind the string whose content begins here. -/
def skipString : List UInt8 → List UInt8
  | [] => []
  | c :: rest =>
    if c = Byte.backslash then skipString (rest.drop 1)
    else if c = Byte.doubleQuote then rest
    else skipString rest
termination_by b => b.length
decreasing_by all_goals simp only [length_drop, length_cons]; omega

theorem length_skipString (b : List UInt8) : (skipString b).length ≤ b.length := by
  induction b using skipString.induct with
  | case1 => simp [skipString]
  | case2 rest ih =>
    rw [skipString, if_pos rfl, length_cons]
    simp only [length_drop] at ih
    omega
  | case3 rest hslash => simp [skipString, hslash]
  | case4 c rest hslash hquote ih =>
    rw [skipString, if_neg hslash, if_neg hquote, length_cons]
    omega

def isOpening (c : UInt8) : Bool := c == 0x7b || c == Byte.openBracket

def isClosing (c : UInt8) : Bool := c == 0x7d || c == Byte.closeBracket

/-- What is behind the bracket that brings the depth back to nothing. -/
def closeObject (depth : Nat) : List UInt8 → Option (List UInt8)
  | [] => none
  | c :: rest =>
    if c = Byte.doubleQuote then closeObject depth (skipString rest)
    else if isOpening c then closeObject (depth + 1) rest
    else if isClosing c then
      if depth - 1 = 0 then some rest else closeObject (depth - 1) rest
    else closeObject depth rest
termination_by b => b.length
decreasing_by
  · have := length_skipString rest
    simp only [length_cons]
    omega
  all_goals simp

theorem length_closeObject {depth : Nat} {b behind : List UInt8}
    (h : closeObject depth b = some behind) : behind.length < b.length := by
  induction depth, b using closeObject.induct with
  | case1 => simp [closeObject] at h
  | case2 depth rest ih =>
    rw [closeObject, if_pos rfl] at h
    have := ih h
    have := length_skipString rest
    simp only [length_cons]
    omega
  | case3 depth c rest hquote hopen ih =>
    rw [closeObject, if_neg hquote, if_pos hopen] at h
    exact Nat.lt_succ_of_lt (ih h)
  | case4 depth c rest hquote hopen hclose hdepth =>
    rw [closeObject, if_neg hquote, if_neg hopen, if_pos hclose, if_pos hdepth] at h
    simp [Option.some.inj h]
  | case5 depth c rest hquote hopen hclose hdepth ih =>
    rw [closeObject, if_neg hquote, if_neg hopen, if_pos hclose, if_neg hdepth] at h
    exact Nat.lt_succ_of_lt (ih h)
  | case6 depth c rest hquote hopen hclose ih =>
    rw [closeObject, if_neg hquote, if_neg hopen, if_neg hclose] at h
    exact Nat.lt_succ_of_lt (ih h)

/-- The spans of the top-level objects of what is left of a text from `index` on. -/
def commandSpans (index : Nat) (b : List UInt8) : List (Nat × Nat) :=
  match _hb : b.dropWhile (· != 0x7b) with
  | [] => []
  | c :: rest =>
    let start := index + (b.length - (c :: rest).length)
    match _hclose : closeObject 0 (c :: rest) with
    | some behind =>
      let stop := index + (b.length - behind.length)
      (start, stop) :: commandSpans stop behind
    | none => [(start, index + b.length)]
termination_by b.length
decreasing_by
  have := (dropWhile_suffix (l := b) (· != 0x7b)).length_le
  rw [_hb] at this
  exact Nat.lt_of_lt_of_le (length_closeObject _hclose) this

def commandAt (text : Str) (cursor : Nat) : Option Str :=
  ((commandSpans 0 (bytes text)).find? fun span => span.1 ≤ cursor && cursor ≤ span.2).bind
    fun span => get? text span.1 span.2

/-! ## Texts whose brackets pair up -/

/-- The bytes of a string between its quotes: an escape takes the byte behind it along. -/
inductive StringBody : List UInt8 → Prop
  | nil : StringBody []
  | escape {s : List UInt8} (c : UInt8) : StringBody s → StringBody (Byte.backslash :: c :: s)
  | plain {s : List UInt8} {c : UInt8} : c ≠ Byte.backslash → c ≠ Byte.doubleQuote →
      StringBody s → StringBody (c :: s)

/-- Strings, brackets that pair up, and bytes that are neither: what stands between the braces of a
JSON object. -/
inductive Closed : List UInt8 → Prop
  | nil : Closed []
  | plain {s : List UInt8} {c : UInt8} : c ≠ Byte.doubleQuote → isOpening c = false →
      isClosing c = false → Closed s → Closed (c :: s)
  | string {body s : List UInt8} : StringBody body → Closed s →
      Closed (Byte.doubleQuote :: (body ++ Byte.doubleQuote :: s))
  | nested {opening closing : UInt8} {inner s : List UInt8} : isOpening opening = true →
      isClosing closing = true → Closed inner → Closed s →
      Closed (opening :: (inner ++ closing :: s))

def ObjectText (s : Str) : Prop := ∃ inner, Closed inner ∧ bytes s = 0x7b :: (inner ++ [0x7d])

def LeftOpen (s : Str) : Prop := s ≠ [] ∧ ∃ missing, missing ≠ [] ∧ ObjectText (s ++ missing)

/-- What separates two commands. -/
def Separates (s : Str) : Prop := '{' ∉ s

theorem skipString_body {body : List UInt8} (h : StringBody body) (rest : List UInt8) :
    skipString (body ++ Byte.doubleQuote :: rest) = rest := by
  induction h with
  | nil => rw [nil_append, skipString, if_neg (by decide), if_pos rfl]
  | escape c _ ih => rw [cons_append, skipString, if_pos rfl, cons_append, drop_one,
      tail_cons, ih]
  | plain hslash hquote _ ih => rw [cons_append, skipString, if_neg hslash, if_neg hquote, ih]

theorem ne_quote_of_isOpening {c : UInt8} (h : isOpening c = true) : c ≠ Byte.doubleQuote := by
  rintro rfl
  cases h

theorem closing_facts {c : UInt8} (h : isClosing c = true) :
    c ≠ Byte.doubleQuote ∧ isOpening c = false := by
  rcases (Bool.or_eq_true ..).mp h with h | h <;> rw [beq_iff_eq.mp h] <;> decide

theorem closeObject_closed {s : List UInt8} (h : Closed s) (depth : Nat) (rest : List UInt8) :
    closeObject (depth + 1) (s ++ rest) = closeObject (depth + 1) rest := by
  induction h generalizing depth rest with
  | nil => rfl
  | plain hquote hopen hclose _ ih =>
    rw [cons_append, closeObject, if_neg hquote, hopen, hclose]
    exact ih depth rest
  | @string body s hbody _ ih =>
    rw [cons_append, closeObject, if_pos rfl, append_assoc, cons_append,
      skipString_body hbody]
    exact ih depth rest
  | @nested opening closing inner s hopening hclosing _ _ ihinner ih =>
    obtain ⟨hquote, hopen⟩ := closing_facts hclosing
    rw [cons_append, closeObject, if_neg (ne_quote_of_isOpening hopening), if_pos hopening,
      append_assoc, cons_append, ihinner, closeObject, if_neg hquote, hopen, hclosing]
    exact ih depth rest

theorem closeObject_object {inner : List UInt8} (h : Closed inner) (rest : List UInt8) :
    closeObject 0 (0x7b :: (inner ++ [0x7d]) ++ rest) = some rest := by
  rw [cons_append, closeObject, if_neg (by decide), if_pos (by decide), append_assoc,
    closeObject_closed h, cons_append, closeObject, if_neg (by decide), if_neg (by decide),
    if_pos (by decide), if_pos rfl, nil_append]

theorem skipString_append (p rest : List UInt8) :
    skipString p = [] ∨ skipString (p ++ rest) = skipString p ++ rest := by
  induction p using skipString.induct with
  | case1 => exact .inl (by simp [skipString])
  | case2 p ih =>
    cases p with
    | nil => exact .inl (by simp [skipString])
    | cons d p =>
      have hescape (l : List UInt8) : skipString (Byte.backslash :: l) = skipString (l.drop 1) := by
        rw [skipString, if_pos rfl]
      rw [cons_append, hescape, hescape]
      exact ih
  | case3 p hslash =>
    rw [cons_append, skipString, skipString, if_neg hslash, if_neg hslash, if_pos rfl,
      if_pos rfl]
    exact .inr rfl
  | case4 c p hslash hquote ih =>
    rw [cons_append, skipString, skipString, if_neg hslash, if_neg hslash, if_neg hquote,
      if_neg hquote]
    exact ih

theorem closeObject_append {depth : Nat} {p behind : List UInt8} (rest : List UInt8)
    (h : closeObject depth p = some behind) :
    closeObject depth (p ++ rest) = some (behind ++ rest) := by
  induction depth, p using closeObject.induct with
  | case1 => simp [closeObject] at h
  | case2 depth p ih =>
    rw [closeObject, if_pos rfl] at h
    rw [cons_append, closeObject, if_pos rfl]
    rcases skipString_append p rest with hnil | happend
    · rw [hnil] at h
      simp [closeObject] at h
    · rw [happend]
      exact ih h
  | case3 depth c p hquote hopen ih =>
    rw [closeObject, if_neg hquote, if_pos hopen] at h
    rw [cons_append, closeObject, if_neg hquote, if_pos hopen]
    exact ih h
  | case4 depth c p hquote hopen hclose hdepth =>
    rw [closeObject, if_neg hquote, if_neg hopen, if_pos hclose, if_pos hdepth] at h
    rw [cons_append, closeObject, if_neg hquote, if_neg hopen, if_pos hclose, if_pos hdepth,
      Option.some.inj h]
  | case5 depth c p hquote hopen hclose hdepth ih =>
    rw [closeObject, if_neg hquote, if_neg hopen, if_pos hclose, if_neg hdepth] at h
    rw [cons_append, closeObject, if_neg hquote, if_neg hopen, if_pos hclose, if_neg hdepth]
    exact ih h
  | case6 depth c p hquote hopen hclose ih =>
    rw [closeObject, if_neg hquote, if_neg hopen, if_neg hclose] at h
    rw [cons_append, closeObject, if_neg hquote, if_neg hopen, if_neg hclose]
    exact ih h

/-! ## A console of commands -/

/-- The commands with where they start, each behind what separates it from the one before. -/
def placed (start : Nat) : List (Str × Str) → List (Nat × Str)
  | [] => []
  | (between, command) :: rest =>
    (start + size between, command) :: placed (start + size between + size command) rest

/-- The cursor is on the command or just behind it. -/
def holds (cursor : Nat) (p : Nat × Str) : Bool := p.1 ≤ cursor && cursor ≤ p.1 + size p.2

def joined (blocks : List (Str × Str)) : Str := blocks.flatMap fun block => block.1 ++ block.2

def spanOf (p : Nat × Str) : Nat × Nat := (p.1, p.1 + size p.2)

theorem not_brace {s : Str} (h : Separates s) : ∀ c ∈ bytes s, (c != 0x7b) = true := by
  intro c hc
  rw [bne_iff_ne]
  rintro rfl
  obtain ⟨i, hi⟩ := getElem?_of_mem hc
  obtain ⟨u, d, v, rfl, -, -, hd⟩ := exists_char_of_ascii hi (by decide)
  have hbrace : d = '{' := Char.toNat_inj.mp hd
  exact h (by simp [hbrace])

theorem commandSpans_separator {s : Str} (h : Separates s) (index : Nat) :
    commandSpans index (bytes s) = [] := by
  rw [commandSpans]
  split
  · rfl
  · next c rest hb =>
    rw [dropWhile_eq_nil_iff.mpr (not_brace h)] at hb
    cases hb

theorem commandSpans_brace {between : Str} (hsep : Separates between) (b : List UInt8)
    (index : Nat) : commandSpans index (bytes between ++ 0x7b :: b) =
      match closeObject 0 (0x7b :: b) with
      | some behind =>
        (index + size between, index + size between + (b.length + 1 - behind.length)) ::
          commandSpans (index + size between + (b.length + 1 - behind.length)) behind
      | none => [(index + size between, index + size between + (b.length + 1))] := by
  have hdrop : (bytes between ++ 0x7b :: b).dropWhile (· != 0x7b) = 0x7b :: b := by
    rw [dropWhile_append_of_pos (not_brace hsep), dropWhile_cons_of_neg (by decide)]
  have hstart : size between + (b.length + 1) - (b.length + 1) = size between := by omega
  rw [commandSpans]
  split
  · next hb => rw [hdrop] at hb; cases hb
  · next c rest hb =>
    obtain ⟨rfl, rfl⟩ := List.cons.inj (hdrop.symm.trans hb)
    split
    · next behind hclose =>
      have hlt := length_closeObject hclose
      simp only [length_append, length_bytes, length_cons] at hlt ⊢
      rw [hclose, hstart, show index + (size between + (b.length + 1) - behind.length) =
        index + size between + (b.length + 1 - behind.length) by omega]
    · next hclose =>
      simp only [length_append, length_bytes, length_cons]
      rw [hclose, hstart, Nat.add_assoc]

variable {blocks : List (Str × Str)}

theorem commandSpans_joined
    (h : ∀ block ∈ blocks, Separates block.1 ∧ ObjectText block.2) (index : Nat)
    (rest : List UInt8) : commandSpans index (bytes (joined blocks) ++ rest) =
      (placed index blocks).map spanOf ++ commandSpans (index + size (joined blocks)) rest := by
  induction blocks generalizing index with
  | nil => rfl
  | cons block blocks ih =>
    obtain ⟨hsep, inner, hinner, hbytes⟩ := h block mem_cons_self
    have hsize : size block.2 = inner.length + 1 + 1 := by
      rw [← length_bytes, hbytes, length_cons, length_append, length_singleton]
    have hclose := closeObject_object hinner (bytes (joined blocks) ++ rest)
    rw [cons_append] at hclose
    have htext : bytes (joined (block :: blocks)) ++ rest =
        bytes block.1 ++ 0x7b :: (inner ++ [0x7d] ++ (bytes (joined blocks) ++ rest)) := by
      simp [joined, hbytes]
    have hlen : (inner ++ [0x7d] ++ (bytes (joined blocks) ++ rest)).length + 1 -
        (bytes (joined blocks) ++ rest).length = size block.2 := by
      rw [hsize, length_append, length_append, length_singleton]
      omega
    rw [htext, commandSpans_brace hsep, hclose]
    simp only [hlen]
    rw [ih fun b hb => h b (mem_cons_of_mem _ hb)]
    simp [placed, spanOf, joined, Nat.add_assoc]

theorem get?_placed (u v : Str) {p : Nat × Str} (h : p ∈ placed (size u) blocks) :
    get? (u ++ joined blocks ++ v) p.1 (p.1 + size p.2) = some p.2 := by
  induction blocks generalizing u with
  | nil => cases h
  | cons block blocks ih =>
    rcases mem_cons.mp h with rfl | h
    · exact get?_eq_some.mpr
        ⟨u ++ block.1, joined blocks ++ v, by simp [joined], by simp, rfl⟩
    · have := ih (u ++ block.1 ++ block.2) (by simpa [Nat.add_assoc] using h)
      simpa [joined] using this

theorem placed_snoc (start : Nat) (blocks : List (Str × Str)) (tail s : Str) :
    placed start (blocks ++ [(tail, s)]) =
      placed start blocks ++ [(start + size (joined blocks) + size tail, s)] := by
  induction blocks generalizing start with
  | nil => simp [placed, joined]
  | cons block blocks ih => simp [placed, ih, joined, Nat.add_assoc]

theorem commandAt_of_spans {v : Str}
    (h : commandSpans 0 (bytes (joined blocks ++ v)) = (placed 0 blocks).map spanOf)
    (cursor : Nat) : commandAt (joined blocks ++ v) cursor =
      ((placed 0 blocks).find? (holds cursor)).map Prod.snd := by
  rw [commandAt, h, find?_map]
  cases hfind : (placed 0 blocks).find? (holds cursor) with
  | none =>
    rw [show (placed 0 blocks).find? ((fun span : Nat × Nat =>
      decide (span.1 ≤ cursor) && decide (cursor ≤ span.2)) ∘ spanOf) = none from hfind]
    rfl
  | some p =>
    rw [show (placed 0 blocks).find? ((fun span : Nat × Nat =>
      decide (span.1 ≤ cursor) && decide (cursor ≤ span.2)) ∘ spanOf) = some p from hfind]
    exact get?_placed [] v (mem_of_find?_eq_some hfind)

/-- In a console of objects, the last of which may be left open, the command at the cursor is the
first that holds it, and there is none elsewhere. -/
theorem commandAt_joined {blocks : List (Str × Str)} {tail : Str} {opened : Option Str}
    (hblocks : ∀ block ∈ blocks, Separates block.1 ∧ ObjectText block.2)
    (htail : Separates tail) (hopened : ∀ s ∈ opened, LeftOpen s) (cursor : Nat) :
    commandAt (joined blocks ++ tail ++ opened.getD []) cursor =
      ((placed 0 (blocks ++ (opened.map (Prod.mk tail)).toList)).find? (holds cursor)).map
        Prod.snd := by
  cases opened with
  | none =>
    simp only [Option.getD_none, append_nil, Option.map_none, Option.toList_none]
    apply commandAt_of_spans
    rw [bytes_append, commandSpans_joined hblocks, commandSpans_separator htail, append_nil]
  | some s =>
    obtain ⟨hne, missing, hmissing, inner, hinner, hbytes⟩ := hopened s rfl
    obtain ⟨b, hb⟩ : ∃ b, bytes s = 0x7b :: b := by
      rw [bytes_append] at hbytes
      cases hs : bytes s with
      | nil => exact absurd (bytes_injective hs) hne
      | cons c b =>
        rw [hs] at hbytes
        exact ⟨b, by rw [(List.cons.inj hbytes).1]⟩
    -- closed in its own text, it would be closed before its object ends
    have hopen : closeObject 0 (0x7b :: b) = none := by
      by_contra hsome
      obtain ⟨behind, hbehind⟩ := Option.ne_none_iff_exists'.mp hsome
      have happend := closeObject_append (bytes missing) hbehind
      have hwhole := closeObject_object hinner []
      rw [append_nil, ← hbytes, bytes_append, hb, happend, Option.some.injEq] at hwhole
      exact hmissing (bytes_injective (append_eq_nil_iff.mp hwhole).2)
    have hsize : size s = b.length + 1 := by rw [← length_bytes, hb, length_cons]
    have hjoined : joined (blocks ++ [(tail, s)]) = joined blocks ++ tail ++ s := by simp [joined]
    have hspans := @commandAt_of_spans (blocks ++ [(tail, s)]) [] (by
      rw [append_nil, hjoined, append_assoc, bytes_append, bytes_append,
        commandSpans_joined hblocks, hb, commandSpans_brace htail, hopen, placed_snoc,
        map_append]
      simp [spanOf, hsize]) cursor
    rw [append_nil, hjoined] at hspans
    exact hspans

/-- The second of two commands, left open in a string that holds a brace. -/
theorem commandAt_second :
    commandAt (joined [([], "\x7b\x7d".toList)] ++ " ".toList ++ "\x7b\"a\x7d".toList) 3 =
      some "\x7b\"a\x7d".toList :=
  (@commandAt_joined [([], "\x7b\x7d".toList)] " ".toList (some "\x7b\"a\x7d".toList)
    (by simpa [Separates] using ⟨[], .nil, by decide⟩) (by unfold Separates; decide)
    (by
      rintro s ⟨⟩
      have hbody : StringBody [0x61, 0x7d] :=
        .plain (by decide) (by decide) (.plain (by decide) (by decide) .nil)
      exact ⟨by decide, "\"\x7d".toList, by decide, _, .string hbody .nil, by decide⟩) 3).trans
    (by decide)

end Oxyn.Mongo
