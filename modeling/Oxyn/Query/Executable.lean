/-
# `Oxyn.Query.Executable` — the text as a MySQL server runs it

`executable_sql` blanks the opening marker, the version digits and the closing `*/` of each
executable comment, and leaves every other byte alone, so that the body is read as code.
-/
import Oxyn.Query.Boundary
import Oxyn.Query.Locality
import Oxyn.Query.Split

namespace Oxyn

open Text Cursor List

/-! ## The view -/

/-- What is no code in an executable comment: the opening marker, the version's digits, and `*/`
where it is closed. -/
structure Markers where
  opening : Nat
  closed : Bool
deriving DecidableEq, Repr

def prefixLen (comment : Str) : Option Nat :=
  if List.isPrefixOf ['/', '*', '!'] comment then some 3
  else if List.isPrefixOf ['/', '*', 'M', '!'] comment then some 4
  else none

def markers? (comment : Str) : Option Markers :=
  (prefixLen comment).map fun n =>
    let gateLen := ((comment.drop n).takeWhile Char.isDigit).length
    ⟨n + gateLen, List.isSuffixOf ['*', '/'] comment⟩

def markersAt (sql : Str) (x : Item Tok) : Option Markers :=
  if x.kind = .comment then (get? sql x.start x.stop).bind markers? else none

/-- Is the byte at `i` one of a marker of this element? -/
def inMarker (sql : Str) (x : Item Tok) (i : Nat) : Bool :=
  match markersAt sql x with
  | none => false
  | some m =>
    (x.start ≤ i && i < x.start + m.opening) || (m.closed && x.stop - 2 ≤ i && i < x.stop)

/-- Is the byte at `i` blanked in the view? -/
def blanked (sql : Str) (p : SplitProfile) (i : Nat) : Bool :=
  (scan sql p).any (inMarker sql · i)

/-- Fills the bytes at these positions with spaces. -/
def blankOut (covered : Nat → Bool) : Nat → Str → Str
  | _, [] => []
  | i, c :: s => (if covered i then ' ' else c) :: blankOut covered (i + c.utf8Size) s

/-- The view, when the text holds an executable comment. -/
def executableSql (sql : Str) (p : SplitProfile) : Option Str :=
  if (scan sql p).any fun x => (markersAt sql x).isSome then
    some (blankOut (blanked sql p) 0 sql)
  else none

/-! ### Its bytes -/

variable {s : Str}

theorem getElem?_blankOut (covered : Nat → Bool) {n : Nat}
    (h : ∀ i c, (bytes s)[i]? = some c → covered (n + i) = true → c.toNat < 0x80) (i : Nat) :
    (bytes (blankOut covered n s))[i]? =
      if covered (n + i) then (bytes s)[i]?.map fun _ => 0x20 else (bytes s)[i]? := by
  induction s generalizing n i with
  | nil => simp [blankOut]
  | cons c s ih =>
    have hlen := String.length_utf8EncodeChar c
    -- the character put in its place is as long, and the same unless it is blanked
    obtain ⟨d, hd, hsize, hsame⟩ : ∃ d, (if covered n then ' ' else c) = d ∧
        d.utf8Size = c.utf8Size ∧ ∀ j, j < c.utf8Size →
          (String.utf8EncodeChar d)[j]? = if covered (n + j) then
            (String.utf8EncodeChar c)[j]?.map fun _ => 0x20
            else (String.utf8EncodeChar c)[j]? := by
      rcases ascii_or_high c with hc | hc
      · have henc := utf8EncodeChar_ascii hc
        have hone : c.utf8Size = 1 := by rw [← hlen, henc]; rfl
        refine ⟨_, rfl, ?_, fun j hj => ?_⟩
        · split
          · rw [hone]; decide
          · rfl
        · obtain rfl : j = 0 := by omega
          have hspace : String.utf8EncodeChar ' ' = [0x20] := by decide
          cases covered n <;> simp [henc, hspace]
      · -- no byte of the character is covered
        have hfree : ∀ j, j < c.utf8Size → covered (n + j) = false := by
          intro j hj
          rw [Bool.eq_false_iff]
          intro hcov
          have hget : (bytes (c :: s))[j]? = some (String.utf8EncodeChar c)[j] := by
            rw [bytes_cons, getElem?_append_left (by omega), getElem?_eq_getElem]
          have hlow := h j _ hget hcov
          have hhigh := hc _ (getElem_mem (by omega : j < _))
          omega
        have h0 := hfree 0 c.utf8Size_pos
        refine ⟨c, by simp only [Nat.add_zero] at h0; simp [h0], rfl, fun j hj => ?_⟩
        simp [hfree j hj]
    simp only [blankOut, hd, bytes_cons]
    by_cases hi : i < c.utf8Size
    · rw [getElem?_append_left (by rw [String.length_utf8EncodeChar]; omega),
        getElem?_append_left (by omega), hsame i hi]
    · have hdlen := String.length_utf8EncodeChar d
      rw [getElem?_append_right (by omega), getElem?_append_right (by omega), hdlen,
        hlen, hsize, ih fun j e hj hcov => ?_, Nat.add_assoc, Nat.add_sub_cancel' (by omega)]
      refine h (c.utf8Size + j) e ?_ (by rw [← Nat.add_assoc]; exact hcov)
      rw [bytes_cons, getElem?_append_right (by omega), hlen, Nat.add_sub_cancel_left]
      exact hj

/-! ### Its comments -/

/-- What closes an executable comment. -/
def closing (m : Markers) : Str := if m.closed then ['*', '/'] else []

theorem prefixLen_eq_some {comment : Str} {n : Nat} (h : prefixLen comment = some n) :
    ∃ front rest, comment = front ++ rest ∧ front.length = n ∧
      (front = ['/', '*', '!'] ∨ front = ['/', '*', 'M', '!']) := by
  unfold prefixLen at h
  split at h
  next hp =>
    obtain ⟨rest, rfl⟩ := List.isPrefixOf_iff_prefix.mp hp
    exact ⟨_, rest, rfl, by simpa using h, .inl rfl⟩
  · split at h
    next hp =>
      obtain ⟨rest, rfl⟩ := List.isPrefixOf_iff_prefix.mp hp
      exact ⟨_, rest, rfl, by simpa using h, .inr rfl⟩
    · simp at h

theorem size_eq_length (h : ∀ c ∈ s, c.toNat < 0x80) : size s = s.length := by
  induction s with
  | nil => rfl
  | cons c s ih =>
    have hc := congrArg List.length (utf8EncodeChar_ascii (h c (by simp)))
    rw [String.length_utf8EncodeChar] at hc
    rw [size_cons, ih fun d hd => h d (by simp [hd]), hc, length_cons, length_cons,
      length_nil]
    omega

theorem toNat_lt_of_isDigit {c : Char} (h : c.isDigit = true) : c.toNat < 0x80 := by
  simp only [Char.isDigit, Bool.and_eq_true, decide_eq_true_eq] at h
  have h2 : c.val.toNat ≤ 0x39 := UInt32.le_iff_toNat_le.mp h.2
  simp only [Char.toNat]
  omega

theorem ascii_of_all (h : s.all (fun c => c.toNat < 0x80) = true) :
    ∀ c ∈ s, c.toNat < 0x80 := fun c hc => of_decide_eq_true (all_eq_true.mp h c hc)

theorem markers?_eq_some {comment : Str} {m : Markers} (h : markers? comment = some m) :
    ∃ front inner, comment = front ++ inner ++ closing m ∧ size front = m.opening ∧
      (∀ c ∈ front, c.toNat < 0x80) ∧
      (['/', '*', '!'] <+: front ∨ ['/', '*', 'M', '!'] <+: front) := by
  obtain ⟨n, hn, rfl⟩ := Option.map_eq_some_iff.mp h
  obtain ⟨pre, rest, rfl, rfl, hpre⟩ := prefixLen_eq_some hn
  rw [drop_left]
  have hascii : ∀ c ∈ pre ++ rest.takeWhile Char.isDigit, c.toNat < 0x80 := by
    intro c hc
    rcases mem_append.mp hc with hc | hc
    · rcases hpre with rfl | rfl
      · exact ascii_of_all rfl c hc
      · exact ascii_of_all rfl c hc
    · exact toNat_lt_of_isDigit (mem_takeWhile_imp hc)
  have hsize : size (pre ++ rest.takeWhile Char.isDigit) =
      pre.length + (rest.takeWhile Char.isDigit).length := by
    rw [size_eq_length hascii, length_append]
  have hopen : ['/', '*', '!'] <+: pre ++ rest.takeWhile Char.isDigit ∨
      ['/', '*', 'M', '!'] <+: pre ++ rest.takeWhile Char.isDigit := by
    rcases hpre with rfl | rfl
    · exact .inl ⟨_, rfl⟩
    · exact .inr ⟨_, rfl⟩
  have hrest : rest.takeWhile Char.isDigit ++ rest.dropWhile Char.isDigit = rest :=
    takeWhile_append_dropWhile
  cases hclosed : List.isSuffixOf ['*', '/'] (pre ++ rest) with
  | false =>
    exact ⟨_, rest.dropWhile Char.isDigit, by simp [closing, hrest], hsize, hascii, hopen⟩
  | true =>
    -- the opening ends with `!` or a digit, so `*/` is behind it
    obtain ⟨w, hw⟩ := isSuffixOf_iff_suffix.mp hclosed
    have hlast : ∀ c ∈ (pre ++ rest.takeWhile Char.isDigit).getLast?,
        c = '!' ∨ c.isDigit = true := by
      intro c hc
      rw [getLast?_append] at hc
      cases hg : (rest.takeWhile Char.isDigit).getLast? with
      | some d =>
        obtain rfl : d = c := by simpa [hg] using hc
        exact .inr (mem_takeWhile_imp (mem_of_getLast? hg))
      | none =>
        rw [hg] at hc
        rcases hpre with rfl | rfl <;> exact .inl (by simpa using hc.symm)
    have hcut : w ++ ['*', '/'] =
        (pre ++ rest.takeWhile Char.isDigit) ++ rest.dropWhile Char.isDigit := by
      rw [hw, append_assoc, hrest]
    suffices ∃ inner, pre ++ rest =
        pre ++ rest.takeWhile Char.isDigit ++ inner ++ ['*', '/'] by
      obtain ⟨inner, hinner⟩ := this
      exact ⟨_, inner, hinner, hsize, hascii, hopen⟩
    rw [← hw]
    rcases append_eq_append_iff.mp hcut with ⟨z, hz, hdrop⟩ | ⟨z, rfl, -⟩
    · cases z with
      | nil => exact ⟨[], by rw [hz]; simp⟩
      | cons c z =>
        exfalso
        obtain ⟨rfl, hz'⟩ := List.cons.inj hdrop
        cases z with
        | nil =>
          have := hlast '*' (by rw [hz]; simp)
          revert this
          decide
        | cons d z =>
          obtain ⟨rfl, hz''⟩ := List.cons.inj hz'
          obtain ⟨rfl, -⟩ := append_eq_nil_iff.mp hz''.symm
          have := hlast '/' (by rw [hz]; simp)
          revert this
          decide
    · exact ⟨z, by simp⟩

/-- The body of an executable comment as it is read: a blank stands where the
comment is closed. -/
def bodyOf (sql : Str) (x : Item Tok) (m : Markers) : Str :=
  (get? sql (x.start + m.opening) (x.stop - size (closing m))).getD [] ++
    if m.closed then [' '] else []

theorem markersAt_eq_some {sql : Str} {x : Item Tok} {m : Markers} (h : markersAt sql x = some m) :
    x.kind = .comment ∧ ∃ u front inner v, sql = u ++ (front ++ (inner ++ (closing m ++ v))) ∧
      size u = x.start ∧ size front = m.opening ∧
      x.start + m.opening + size inner + size (closing m) = x.stop ∧
      (∀ c ∈ front, c.toNat < 0x80) ∧
      (['/', '*', '!'] <+: front ∨ ['/', '*', 'M', '!'] <+: front) ∧
      bodyOf sql x m = inner ++ if m.closed then [' '] else [] := by
  unfold markersAt at h
  split at h
  next hk =>
    obtain ⟨comment, hcomment, hm⟩ := Option.bind_eq_some_iff.mp h
    obtain ⟨front, inner, rfl, hfront, hascii, hopen⟩ := markers?_eq_some hm
    obtain ⟨u, v, rfl, hu, hsize⟩ := get?_eq_some.mp hcomment
    simp only [size_append] at hsize
    have hinner : get? (u ++ (front ++ inner ++ closing m) ++ v) (x.start + m.opening)
        (x.stop - size (closing m)) = some inner :=
      get?_eq_some.mpr ⟨u ++ front, closing m ++ v, by simp, by simp; omega, by omega⟩
    refine ⟨hk, u, front, inner, v, by simp, hu, hfront, by omega, hascii, hopen, ?_⟩
    rw [bodyOf, hinner]
    rfl
  · simp at h

theorem size_closing (m : Markers) : size (closing m) = if m.closed then 2 else 0 := by
  unfold closing
  split <;> decide

theorem closing_ascii (m : Markers) : ∀ c ∈ closing m, c.toNat < 0x80 := by
  unfold closing
  split
  · exact ascii_of_all rfl
  · exact ascii_of_all rfl

theorem bytes_ascii (h : ∀ c ∈ s, c.toNat < 0x80) : ∀ x ∈ bytes s, x.toNat < 0x80 := by
  intro x hx
  obtain ⟨c, hc, hxc⟩ := mem_flatMap.mp hx
  have hlt := h c hc
  rw [utf8EncodeChar_ascii hlt] at hxc
  obtain rfl := mem_singleton.mp hxc
  rw [UInt8.toNat_ofNat']
  omega

variable {i : Nat}

theorem getElem?_part {u t v : Str} (hlo : size u ≤ i) (hhi : i < size u + size t) :
    (bytes (u ++ (t ++ v)))[i]? = (bytes t)[i - size u]? := by
  rw [bytes_append, getElem?_append_right (by simpa using hlo), bytes_append,
    getElem?_append_left (by simp; omega)]
  rfl

def openingMarks : List (List UInt8) :=
  [[Byte.slash, Byte.star, Byte.exclamation], [Byte.slash, Byte.star, 0x4d, Byte.exclamation]]

/-- An executable comment is opened at `i`. -/
def Opens (b : List UInt8) (i : Nat) : Prop := ∃ w ∈ openingMarks, w <+: b.drop i

/-- What every marker has: it is long enough to be one, opens a comment and holds
no blank. -/
theorem mark_facts {w : List UInt8} (h : w ∈ openingMarks) :
    3 ≤ w.length ∧ w.length ≤ 4 ∧ w[0]? = some Byte.slash ∧ w[1]? = some Byte.star ∧
      ∀ c ∈ w, isAsciiWhitespace c = false := by
  simp only [openingMarks, mem_cons, not_mem_nil, or_false] at h
  have hblank (hw : w.all (fun c => !isAsciiWhitespace c) = true) :
      ∀ c ∈ w, isAsciiWhitespace c = false := by simpa using hw
  rcases h with rfl | rfl
  · exact ⟨by decide, by decide, rfl, rfl, hblank rfl⟩
  · exact ⟨by decide, by decide, rfl, rfl, hblank rfl⟩

theorem Opens.transfer {b b' : List UInt8} {i i' : Nat} (h : Opens b i)
    (hag : ∀ k c, k < 4 → isAsciiWhitespace c = false → (∀ j ≤ k, ∃ e, b[i + j]? = some e ∧
      isAsciiWhitespace e = false) → b[i + k]? = some c → b'[i' + k]? = some c) :
    Opens b' i' := by
  obtain ⟨w, hw, hpre⟩ := h
  obtain ⟨-, hlen, -, -, hvis⟩ := mark_facts hw
  rw [prefix_iff_getElem?] at hpre
  simp only [getElem?_drop] at hpre
  refine ⟨w, hw, prefix_iff_getElem?.mpr fun k hk => ?_⟩
  rw [getElem?_drop]
  exact hag k _ (by omega) (hvis _ (getElem_mem hk))
    (fun j hj => ⟨_, hpre j (by omega), hvis _ (getElem_mem _)⟩) (hpre k hk)

theorem Opens.slash {b : List UInt8} (h : Opens b i) :
    b[i]? = some Byte.slash ∧ b[i + 1]? = some Byte.star ∧ ∃ c, b[i + 2]? = some c := by
  obtain ⟨w, hw, hpre⟩ := h
  obtain ⟨hlen, -, h0, h1, -⟩ := mark_facts hw
  rw [prefix_iff_getElem?] at hpre
  simp only [getElem?_drop] at hpre
  have e0 := hpre 0 (by omega)
  have e1 := hpre 1 (by omega)
  rw [getElem?_eq_getElem (by omega)] at h0 h1
  exact ⟨by rw [← h0]; exact e0, by rw [← h1]; exact e1, _, hpre 2 (by omega)⟩

theorem opens_of_markersAt {sql : Str} {x : Item Tok} {m : Markers}
    (h : markersAt sql x = some m) : Opens (bytes sql) x.start := by
  obtain ⟨-, u, front, inner, v, rfl, hu, -, -, -, hopen, -⟩ := markersAt_eq_some h
  rw [← hu, Opens, drop_bytes_size_append]
  rcases hopen with ⟨rest, rfl⟩ | ⟨rest, rfl⟩
  · exact ⟨[Byte.slash, Byte.star, Byte.exclamation], by simp [openingMarks],
      bytes (rest ++ (inner ++ (closing m ++ v))), by simp only [bytes_append]; rfl⟩
  · exact ⟨[Byte.slash, Byte.star, 0x4d, Byte.exclamation], by simp [openingMarks],
      bytes (rest ++ (inner ++ (closing m ++ v))), by simp only [bytes_append]; rfl⟩

theorem lex_slash_star {b : List UInt8} (p : SplitProfile) (h1 : b[i + 1]? = some Byte.star) :
    lex b i Byte.slash p = (.comment, skipBlockComment b i p.nestedBlockComments) := by
  unfold lex
  rw [h1]
  rfl

theorem skipBlockComment_closed (b : List UInt8) (i : Nat) (nested : Bool) :
    skipBlockComment b i nested = b.length ∨
      ∃ k, i + 2 ≤ k ∧ skipBlockComment b i nested = k + 2 ∧ b[k]? = some Byte.star ∧
        b[k + 1]? = some Byte.slash := by
  unfold skipBlockComment
  cases h : loop (blockTurn nested) (b.drop (i + 2)) (i + 2) 1 with
  | off => exact .inl rfl
  | left j r =>
    obtain ⟨n, s, c, k, hc, hturn, rfl⟩ := exists_turn_of_left h
    obtain ⟨rfl, rfl, hnext⟩ := blockTurn_leave hturn
    rw [getElem?_drop] at hc hnext
    exact .inr ⟨i + 2 + n, by omega, rfl, hc, hnext⟩

theorem lex_of_opens {sql : Str} {p : SplitProfile} {x : Item Tok} (hx : x ∈ scan sql p)
    (h1 : (bytes sql)[x.start]? = some Byte.slash)
    (h2 : (bytes sql)[x.start + 1]? = some Byte.star) :
    x.kind = .comment ∧ x.stop = skipBlockComment (bytes sql) x.start p.nestedBlockComments := by
  obtain ⟨i, -, hread⟩ := Reader.mem_items.mp hx
  obtain ⟨c, -, -, hc, -, hterm | ⟨-, hlex⟩⟩ := readAt_eq_some.mp hread
  · -- a separator starts with its semicolon
    have := byte_of_separator hx hterm.2.1
    rw [h1] at this
    exact absurd this (by decide)
  · obtain rfl := Option.some.inj (h1.symm.trans hc)
    rw [lex_slash_star p h2, Prod.mk.injEq] at hlex
    exact ⟨hlex.1.symm, hlex.2.symm⟩

/-- An element is an executable comment exactly when one is opened where it starts. -/
theorem markersAt_isSome_iff {sql : Str} {p : SplitProfile} {x : Item Tok}
    (hx : x ∈ scan sql p) : (markersAt sql x).isSome = true ↔ Opens (bytes sql) x.start := by
  constructor
  · intro h
    obtain ⟨m, hm⟩ := Option.isSome_iff_exists.mp h
    exact opens_of_markersAt hm
  · intro h
    obtain ⟨h1, h2, c, h3⟩ := h.slash
    obtain ⟨hk, hstop⟩ := lex_of_opens hx h1 h2
    obtain ⟨i, hi, hread⟩ := Reader.mem_items.mp hx
    have hb := boundary_of_read (t := [';'])
      (boundary_of_reach (t := [';']) (isCharBoundary_zero sql) hi) hread
    have hf := reader_forward hread
    obtain ⟨comment, hcomment⟩ := get?_of_boundaries hb.1 hb.2 (Nat.le_of_lt hf.2.1)
    obtain ⟨w, hw, hpre⟩ := h
    obtain ⟨-, hlen, -⟩ := mark_facts hw
    -- the marker is inside the comment
    have hwlen : x.start + w.length ≤ (bytes sql).length := by
      have := hpre.length_le
      simp only [length_drop] at this
      have := mark_facts hw
      omega
    have hinside : x.start + w.length ≤ x.stop := by
      rcases skipBlockComment_closed (bytes sql) x.start p.nestedBlockComments with h | ⟨k, _, h, -⟩ <;>
        omega
    have hwpre : w <+: bytes comment := by
      rw [prefix_iff_getElem?] at hpre ⊢
      intro k hk
      rw [bytes_of_get? hcomment, if_pos (by omega), ← hpre k hk, getElem?_drop]
    have hpre : ∃ n, prefixLen comment = some n := by
      unfold prefixLen
      simp only [openingMarks, mem_cons, not_mem_nil, or_false] at hw
      rcases hw with rfl | rfl
      · have := prefix_of_bytes_prefix (t := ['/', '*', '!']) (s := comment) hwpre
        exact ⟨3, by rw [if_pos (List.isPrefixOf_iff_prefix.mpr this)]⟩
      · have := prefix_of_bytes_prefix (t := ['/', '*', 'M', '!']) (s := comment) hwpre
        split
        · exact ⟨3, rfl⟩
        · exact ⟨4, by rw [if_pos (List.isPrefixOf_iff_prefix.mpr this)]⟩
    obtain ⟨n, hn⟩ := hpre
    unfold markersAt
    rw [if_pos hk, hcomment]
    simp [markers?, hn]

section View

variable {sql : Str} {x : Item Tok} {m : Markers}

variable {i : Nat}

theorem inMarker_bounds (h : inMarker sql x i = true) : x.start ≤ i ∧ i < x.stop := by
  unfold inMarker at h
  split at h
  · simp at h
  next m hm =>
    obtain ⟨-, _, _, _, _, -, -, -, hsize, -⟩ := markersAt_eq_some hm
    rw [size_closing] at hsize
    simp only [Bool.or_eq_true, Bool.and_eq_true, decide_eq_true_eq] at h
    rcases h with h | ⟨⟨hc, h1⟩, h2⟩
    · omega
    · simp only [hc, if_true] at hsize
      omega

theorem inMarker_ascii {c : UInt8} (h : inMarker sql x i = true)
    (hc : (bytes sql)[i]? = some c) : c.toNat < 0x80 := by
  unfold inMarker at h
  split at h
  · simp at h
  next m hm =>
    obtain ⟨-, u, front, inner, v, rfl, hu, hfront, hsize, hascii, -, -⟩ := markersAt_eq_some hm
    rw [size_closing] at hsize
    simp only [Bool.or_eq_true, Bool.and_eq_true, decide_eq_true_eq] at h
    rcases h with h | ⟨⟨hclosed, h1⟩, h2⟩
    · rw [getElem?_part (by omega) (by omega)] at hc
      exact bytes_ascii hascii _ (mem_of_getElem? hc)
    · simp only [hclosed, if_true] at hsize
      have hcl : size (closing m) = 2 := by rw [size_closing, if_pos hclosed]
      rw [show u ++ (front ++ (inner ++ (closing m ++ v))) =
        (u ++ front ++ inner) ++ (closing m ++ v) by simp,
        getElem?_part (by simp; omega) (by simp; omega)] at hc
      exact bytes_ascii (closing_ascii m) _ (mem_of_getElem? hc)

variable {p : SplitProfile}

theorem blanked_of_mem (hx : x ∈ scan sql p) (hlo : x.start ≤ i) (hhi : i < x.stop) :
    blanked sql p i = inMarker sql x i := by
  unfold blanked
  rw [Bool.eq_iff_iff, any_eq_true]
  constructor
  · rintro ⟨y, hy, hi⟩
    have hb := inMarker_bounds hi
    rcases eq_or_apart (Reader.pairwise_items 0) hx hy with rfl | hlt | hlt
    · exact hi
    all_goals omega
  · exact fun hi => ⟨x, hx, hi⟩

theorem blanked_ascii {c : UInt8} (hc : (bytes sql)[i]? = some c)
    (h : blanked sql p i = true) : c.toNat < 0x80 := by
  obtain ⟨x, -, hi⟩ := any_eq_true.mp h
  exact inMarker_ascii hi hc

/-- The view, whether or not there is anything to blank. -/
def viewOf (sql : Str) (p : SplitProfile) : Str := (executableSql sql p).getD sql

theorem blankOut_eq_self {covered : Nat → Bool} (h : ∀ i, covered i = false) (n : Nat)
    (s : Str) : blankOut covered n s = s := by
  induction s generalizing n with
  | nil => rfl
  | cons c s ih => simp [blankOut, h, ih]

theorem viewOf_eq (sql : Str) (p : SplitProfile) :
    viewOf sql p = blankOut (blanked sql p) 0 sql := by
  unfold viewOf executableSql
  split
  · rfl
  next h =>
    refine (blankOut_eq_self (fun i => ?_) 0 sql).symm
    rw [Bool.eq_false_iff]
    intro hb
    obtain ⟨x, hx, hi⟩ := any_eq_true.mp hb
    refine h (any_eq_true.mpr ⟨x, hx, ?_⟩)
    unfold inMarker at hi
    split at hi
    · simp at hi
    next hm => simp [hm]

theorem getElem?_view (sql : Str) (p : SplitProfile) (i : Nat) :
    (bytes (viewOf sql p))[i]? =
      if blanked sql p i then (bytes sql)[i]?.map fun _ => 0x20 else (bytes sql)[i]? := by
  have := getElem?_blankOut (blanked sql p) (s := sql) (n := 0)
    (fun i c hc hcov => blanked_ascii hc (by simpa using hcov)) i
  rw [Nat.zero_add] at this
  rw [viewOf_eq, this]

theorem size_view (sql : Str) (p : SplitProfile) : size (viewOf sql p) = size sql := by
  have hnone : ∀ i : Nat, (bytes (viewOf sql p))[i]? = none ↔ (bytes sql)[i]? = none := by
    intro i
    rw [getElem?_view]
    split <;> simp
  simp only [List.getElem?_eq_none_iff, length_bytes] at hnone
  exact Nat.le_antisymm ((hnone _).mpr (Nat.le_refl _)) ((hnone _).mp (Nat.le_refl _))

end View

/-! ## Reading the view -/

theorem readAt_of_blankRange {b t : List UInt8} {p : SplitProfile} {i j : Nat} (hij : i ≤ j)
    (h : BlankRange b i j) : readAt b t p i = readAt b t p j := by
  refine Option.ext fun x => ?_
  rw [readAt_eq_some, readAt_eq_some]
  constructor
  · rintro ⟨c, hi, hblank, hc, hw, hread⟩
    have hjx : j ≤ x.start := by
      by_contra hlt
      obtain ⟨d, hd, hdw⟩ := h x.start hi (by omega)
      obtain rfl := Option.some.inj (hc.symm.trans hd)
      simp [hw] at hdw
    exact ⟨c, hjx, fun k hk hkx => hblank k (by omega) hkx, hc, hw, hread⟩
  · rintro ⟨c, hj, hblank, hc, hw, hread⟩
    refine ⟨c, by omega, fun k hk hkx => ?_, hc, hw, hread⟩
    by_cases hkj : k < j
    · exact h k hk hkj
    · exact hblank k (by omega) hkx

/-- The lexical facts the view rests on: no quote looks back, and no `$` looks ahead. -/
structure Plain (p : SplitProfile) : Prop where
  escape : p.escapeStringPrefix = false
  dollar : p.dollarQuotes = false

theorem plain_mySql : Plain .mySql := ⟨rfl, rfl⟩

section Reading

variable {sql : Str} {p : SplitProfile} (hp : Plain p)

theorem getElem?_view_of_plain {x : Item Tok} (hx : x ∈ scan sql p) (hm : markersAt sql x = none)
    (hlo : x.start ≤ i) (hhi : i < x.stop) :
    (bytes (viewOf sql p))[i]? = (bytes sql)[i]? := by
  have : inMarker sql x i = false := by simp [inMarker, hm]
  rw [getElem?_view, blanked_of_mem hx hlo hhi, this]
  rfl

theorem blankRange_view {i j : Nat} (h : BlankRange (bytes sql) i j) :
    BlankRange (bytes (viewOf sql p)) i j := by
  intro k hk hkj
  obtain ⟨c, hc, hw⟩ := h k hk hkj
  rw [getElem?_view, hc]
  split
  · exact ⟨0x20, rfl, by decide⟩
  · exact ⟨c, rfl, hw⟩

theorem alike_view {x : Item Tok} (hx : x ∈ scan sql p) {d : UInt8}
    (hd : (bytes sql)[x.stop]? = some d) :
    ∃ d', (bytes (viewOf sql p))[x.stop]? = some d' ∧ Alike d d' := by
  rw [getElem?_view, hd]
  cases hb : blanked sql p x.stop with
  | false => exact ⟨d, rfl, .inl rfl⟩
  | true =>
    refine ⟨0x20, rfl, .inr ⟨?_, inert_space⟩⟩
    obtain ⟨y, hy, hi⟩ := any_eq_true.mp hb
    have hbounds := inMarker_bounds hi
    have hstart : y.start = x.stop := by
      have := Reader.bounds_of_mem_items hx
      rcases eq_or_apart (Reader.pairwise_items 0) hx hy with rfl | hlt | hlt <;> omega
    unfold inMarker at hi
    split at hi
    · simp at hi
    next m hm =>
      have hslash := (opens_of_markersAt hm).slash.1
      rw [hstart, hd] at hslash
      obtain rfl := Option.some.inj hslash
      exact inert_slash

include hp

theorem next_view_of_plain {x : Item Tok} (hi : (scanner sql p).Reach 0 i)
    (hx : (scanner sql p).next i = some x) (hm : markersAt sql x = none) :
    (scanner (viewOf sql p) p).next i = some x := by
  have hmem : x ∈ scan sql p := Reader.mem_items.mpr ⟨i, hi, hx⟩
  have hf := reader_forward hx
  obtain ⟨c, hix, hblank, hc, hw, hread⟩ := readAt_eq_some.mp hx
  have hblank' := blankRange_view (p := p) hblank
  -- past the blanks, the element is read the same
  have hsame : readAt (bytes (viewOf sql p)) semicolonBytes p x.start = some x := by
    have hx' : readAt (bytes sql) semicolonBytes p x.start = some x := by
      rw [← readAt_of_blankRange hix hblank]
      exact hx
    have hback : ∀ b b' : List UInt8, ∀ j, (p.escapeStringPrefix && hasEscapePrefix b j) =
        (p.escapeStringPrefix && hasEscapePrefix b' j) := by simp [hp.escape]
    rcases Nat.eq_or_lt_of_le hf.2.2 with hend | hlt
    · -- the element runs to the end: what is left of both texts is the same
      have hsize := size_view sql p
      have hdrop : (bytes (viewOf sql p)).drop x.start = (bytes sql).drop x.start := by
        refine ext_getElem? fun k => ?_
        simp only [getElem?_drop]
        by_cases hk : x.start + k < x.stop
        · exact getElem?_view_of_plain hmem hm (by omega) hk
        · rw [getElem?_eq_none (by simp only [length_bytes] at hend ⊢; omega),
            getElem?_eq_none (by omega)]
      have hshift : ∀ s : Str, x.start ≤ size s →
          readAt (bytes s) semicolonBytes p x.start =
            (readAt ((bytes s).drop x.start) semicolonBytes p 0).map (Item.shift x.start) := by
        intro s hs
        have hlen : ((bytes s).take x.start).length = x.start := by simp; omega
        have := readAt_shift ((bytes s).take x.start) ((bytes s).drop x.start) semicolonBytes
          (p := p) (.inl hp.escape) 0
        rwa [take_append_drop, hlen, Nat.zero_add] at this
      simp only [length_bytes] at hf
      rw [hshift _ (by omega), hdrop, ← hshift _ (by omega), hx']
    · obtain ⟨d, hd⟩ : ∃ d, (bytes sql)[x.stop]? = some d :=
        ⟨_, getElem?_eq_getElem hlt⟩
      obtain ⟨d', hd', halike⟩ := alike_view hmem hd
      have hag : AgreeUntil (bytes sql) (bytes (viewOf sql p)) x.start x.stop d d' :=
        ⟨fun k hlo hhi => (getElem?_view_of_plain hmem hm hlo hhi).symm, hd, hd', halike⟩
      exact hag.readAt (fun j _ _ => hback _ _ j) (.inl hp.dollar) hx' (Nat.le_refl _)
  change readAt (bytes (viewOf sql p)) semicolonBytes p i = some x
  rw [readAt_of_blankRange hix hblank', hsame]

end Reading

end Oxyn
