/-
# `Oxyn.Lib.Text` — texts as characters, positions as bytes

A UTF-8 text is kept as the list of its characters, so that it is valid by construction; its bytes
are computed, and every position is a byte position.
-/
import Mathlib.Algebra.Order.Ring.Int
import Mathlib.Data.List.Infix
import Mathlib.Data.List.DropRight

namespace Text

open List

/-- A statement about the elements of a list is decided over the list, also where their
type is finite and could be enumerated. -/
instance (priority := high) decidableForallMem {α : Type} (p : α → Prop) [DecidablePred p]
    (l : List α) : Decidable (∀ x ∈ l, p x) :=
  List.decidableBAll p l

/-- A text: its characters, in order. -/
abbrev Str := List Char

/-- Equality of texts, as one name. -/
instance (priority := high) lawfulBEqStr : LawfulBEq Str := inferInstanceAs (LawfulBEq (List Char))

theorem toList_of_eq {s : String} {l : List Char} (h : s = String.ofList l) : s.toList = l :=
  h ▸ String.toList_ofList

theorem toList_append_of_eq {s t : String} {l m : List Char} (hs : s = String.ofList l)
    (ht : t = String.ofList m) : (s ++ t).toList = l ++ m := by
  rw [hs, ht, String.toList_append, String.toList_ofList, String.toList_ofList]

def bytes (s : Str) : List UInt8 := s.flatMap String.utf8EncodeChar

def size (s : Str) : Nat := (bytes s).length

@[simp] theorem bytes_nil : bytes [] = [] := rfl

@[simp] theorem bytes_cons (c : Char) (s : Str) :
    bytes (c :: s) = String.utf8EncodeChar c ++ bytes s := by
  simp [bytes]

@[simp] theorem bytes_append (s t : Str) : bytes (s ++ t) = bytes s ++ bytes t := by
  simp [bytes]

@[simp] theorem size_nil : size [] = 0 := rfl

@[simp] theorem size_cons (c : Char) (s : Str) : size (c :: s) = c.utf8Size + size s := by
  simp [size]

@[simp] theorem size_append (s t : Str) : size (s ++ t) = size s + size t := by
  simp [size]

@[simp] theorem length_bytes (s : Str) : (bytes s).length = size s := rfl

variable {s : Str}

theorem size_eq_zero : size s = 0 ↔ s = [] := by
  cases s with
  | nil => simp
  | cons c s => have := c.utf8Size_pos; simp; omega

/-! ## Cutting at a byte position -/

/-- What is left after `n` bytes, when `n` is a character boundary. -/
def dropBytes? : Str → Nat → Option Str
  | s, 0 => some s
  | [], _ + 1 => none
  | c :: s, n + 1 =>
    if c.utf8Size ≤ n + 1 then dropBytes? s (n + 1 - c.utf8Size) else none

/-- The first `n` bytes, when `n` is a character boundary. -/
def takeBytes? : Str → Nat → Option Str
  | _, 0 => some []
  | [], _ + 1 => none
  | c :: s, n + 1 =>
    if c.utf8Size ≤ n + 1 then (takeBytes? s (n + 1 - c.utf8Size)).map (c :: ·) else none

def isCharBoundary (s : Str) (i : Nat) : Bool := (dropBytes? s i).isSome

def get? (s : Str) (i j : Nat) : Option Str :=
  if i ≤ j then (dropBytes? s i).bind (takeBytes? · (j - i)) else none

theorem size_succ (c : Char) (s : Str) : ∃ n, size (c :: s) = n + 1 := by
  have := c.utf8Size_pos
  exact ⟨size (c :: s) - 1, by rw [size_cons]; omega⟩

theorem dropBytes?_eq_some {s v : Str} {n : Nat} :
    dropBytes? s n = some v ↔ ∃ u, s = u ++ v ∧ size u = n := by
  constructor
  · intro h
    fun_induction dropBytes? s n with
    | case1 s => exact ⟨[], Option.some.inj h, rfl⟩
    | case2 n => cases h
    | case3 c s n hc ih =>
      obtain ⟨u, rfl, hn⟩ := ih h
      exact ⟨c :: u, rfl, by rw [size_cons]; omega⟩
    | case4 => cases h
  · rintro ⟨u, rfl, rfl⟩
    induction u with
    | nil => rw [size_nil, nil_append, dropBytes?]
    | cons c u ih =>
      obtain ⟨n, hn⟩ := size_succ c u
      rw [cons_append, hn, dropBytes?, if_pos (by rw [size_cons] at hn; omega)]
      rwa [← hn, size_cons, Nat.add_sub_cancel_left]

theorem takeBytes?_eq_some {s t : Str} {n : Nat} :
    takeBytes? s n = some t ↔ ∃ v, s = t ++ v ∧ size t = n := by
  constructor
  · intro h
    fun_induction takeBytes? s n generalizing t with
    | case1 s => exact Option.some.inj h ▸ ⟨s, rfl, rfl⟩
    | case2 n => cases h
    | case3 c s n hc ih =>
      obtain ⟨t, ht, rfl⟩ := Option.map_eq_some_iff.mp h
      obtain ⟨v, rfl, hn⟩ := ih ht
      exact ⟨v, rfl, by rw [size_cons]; omega⟩
    | case4 => cases h
  · rintro ⟨v, rfl, rfl⟩
    induction t with
    | nil => rw [size_nil, takeBytes?]
    | cons c t ih =>
      obtain ⟨n, hn⟩ := size_succ c t
      rw [cons_append, hn, takeBytes?, if_pos (by rw [size_cons] at hn; omega)]
      rw [← hn, size_cons, Nat.add_sub_cancel_left, ih]
      rfl

theorem isCharBoundary_iff {i : Nat} :
    isCharBoundary s i = true ↔ ∃ u v, s = u ++ v ∧ size u = i := by
  rw [isCharBoundary, Option.isSome_iff_exists, exists_comm]
  exact exists_congr fun v => dropBytes?_eq_some

variable {i j : Nat}

theorem get?_eq_some {s t : Str} :
    get? s i j = some t ↔ ∃ u v, s = u ++ t ++ v ∧ size u = i ∧ i + size t = j := by
  unfold get?
  split
  next hij =>
    rw [Option.bind_eq_some_iff]
    constructor
    · rintro ⟨w, hw, ht⟩
      rw [dropBytes?_eq_some] at hw
      rw [takeBytes?_eq_some] at ht
      obtain ⟨u, rfl, hu⟩ := hw
      obtain ⟨v, rfl, ht⟩ := ht
      exact ⟨u, v, by simp, hu, by omega⟩
    · rintro ⟨u, v, rfl, hu, ht⟩
      refine ⟨t ++ v, ?_, ?_⟩
      · rw [dropBytes?_eq_some]
        exact ⟨u, by simp, hu⟩
      · rw [takeBytes?_eq_some]
        exact ⟨v, rfl, by omega⟩
  next hij =>
    simp only [reduceCtorEq, false_iff]
    rintro ⟨u, v, -, -, h⟩
    omega

theorem isCharBoundary_zero (s : Str) : isCharBoundary s 0 = true :=
  isCharBoundary_iff.mpr ⟨[], s, rfl, rfl⟩

theorem isCharBoundary_size (s : Str) : isCharBoundary s (size s) = true :=
  isCharBoundary_iff.mpr ⟨s, [], by simp, rfl⟩

theorem get?_of_boundaries (hi : isCharBoundary s i = true)
    (hj : isCharBoundary s j = true) (hij : i ≤ j) : ∃ t, get? s i j = some t := by
  obtain ⟨u, v, rfl, rfl⟩ := isCharBoundary_iff.mp hi
  obtain ⟨u', v', h, rfl⟩ := isCharBoundary_iff.mp hj
  rcases append_eq_append_iff.mp h with ⟨w, rfl, rfl⟩ | ⟨w, rfl, rfl⟩
  · exact ⟨w, get?_eq_some.mpr ⟨u, v', by simp, rfl, by simp⟩⟩
  · -- the second cut is before the first: both are the same cut
    have hw : size w = 0 := by simp at hij; omega
    exact ⟨[], get?_eq_some.mpr ⟨u' ++ w, v, by simp, rfl, by simp [hw]⟩⟩

theorem boundaries_of_get? {s t : Str} (h : get? s i j = some t) :
    isCharBoundary s i = true ∧ isCharBoundary s j = true := by
  obtain ⟨u, v, rfl, rfl, rfl⟩ := get?_eq_some.mp h
  exact ⟨isCharBoundary_iff.mpr ⟨u, t ++ v, by simp, rfl⟩,
    isCharBoundary_iff.mpr ⟨u ++ t, v, rfl, by simp⟩⟩

theorem append_inj_of_size {u v u' v' : Str} (h : u ++ v = u' ++ v') (hs : size u = size u') :
    u = u' ∧ v = v' := by
  rcases append_eq_append_iff.mp h with ⟨w, rfl, rfl⟩ | ⟨w, rfl, rfl⟩
  · have hw : w = [] := size_eq_zero.mp (by simp at hs; omega)
    simp [hw]
  · have hw : w = [] := size_eq_zero.mp (by simp at hs; omega)
    simp [hw]

theorem get?_append_left {u v : Str} (hj : j ≤ size u) :
    get? (u ++ v) i j = get? u i j := by
  refine Option.ext fun t => ?_
  simp only [get?_eq_some]
  constructor
  · rintro ⟨u', v', h, hi, hj'⟩
    have hsize : size (u' ++ t) ≤ size u := by simp; omega
    rcases append_eq_append_iff.mp h with ⟨w, hw, -⟩ | ⟨w, rfl, -⟩
    · -- the slice ends past the front by nothing
      have hsz := congrArg size hw
      rw [size_append u] at hsz
      obtain rfl : w = [] := size_eq_zero.mp (by omega)
      exact ⟨u', [], by simpa using hw.symm, hi, hj'⟩
    · exact ⟨u', w, rfl, hi, hj'⟩
  · rintro ⟨u', v', rfl, hi, hj'⟩
    exact ⟨u', v' ++ v, by simp, hi, hj'⟩

theorem get?_append_right (u v : Str) (i j : Nat) :
    get? (u ++ v) (i + size u) (j + size u) = get? v i j := by
  refine Option.ext fun t => ?_
  simp only [get?_eq_some]
  constructor
  · rintro ⟨u', v', h, hi, hj⟩
    rw [append_assoc] at h
    rcases append_eq_append_iff.mp h with ⟨w, rfl, rfl⟩ | ⟨w, rfl, hw⟩
    · exact ⟨w, v', by simp, by simp at hi; omega, by omega⟩
    · obtain rfl : w = [] := size_eq_zero.mp (by simp at hi; omega)
      exact ⟨[], v', by simpa using hw.symm, by simp at hi ⊢; omega, by omega⟩
  · rintro ⟨u', v', rfl, hi, hj⟩
    exact ⟨u ++ u', v', by simp, by simp; omega, by omega⟩

theorem isCharBoundary_le (h : isCharBoundary s i = true) : i ≤ size s := by
  obtain ⟨u, v, rfl, rfl⟩ := isCharBoundary_iff.mp h
  simp

/-! ## Boundaries seen from the bytes -/

variable {c : Char}

theorem utf8EncodeChar_ascii (h : c.toNat < 0x80) :
    String.utf8EncodeChar c = [UInt8.ofNat c.toNat] := by
  have h' : c.val.toNat ≤ 0x7f := by simp only [Char.toNat] at h; omega
  simp only [String.utf8EncodeChar, Char.toNat, if_pos h']

theorem ascii_or_high (c : Char) :
    c.toNat < 0x80 ∨ ∀ x ∈ String.utf8EncodeChar c, 0x80 ≤ x.toNat := by
  by_cases h : c.toNat < 0x80
  · exact .inl h
  · refine .inr fun x hx => ?_
    simp only [Char.toNat] at h
    simp only [String.utf8EncodeChar] at hx
    rw [if_neg (by omega)] at hx
    split at hx
    · simp only [mem_cons, not_mem_nil, or_false] at hx
      rcases hx with rfl | rfl <;> simp only [UInt8.toNat_ofNat'] <;> omega
    · split at hx
      · simp only [mem_cons, not_mem_nil, or_false] at hx
        rcases hx with rfl | rfl | rfl <;> simp only [UInt8.toNat_ofNat'] <;> omega
      · simp only [mem_cons, not_mem_nil, or_false] at hx
        rcases hx with rfl | rfl | rfl | rfl <;> simp only [UInt8.toNat_ofNat'] <;> omega

variable {x : UInt8}

theorem exists_char_of_ascii (hx : (bytes s)[i]? = some x) (hlt : x.toNat < 0x80) :
    ∃ u c v, s = u ++ c :: v ∧ size u = i ∧ c.utf8Size = 1 ∧ c.toNat = x.toNat := by
  induction s generalizing i with
  | nil => simp at hx
  | cons c s ih =>
    rw [bytes_cons] at hx
    by_cases hi : i < (String.utf8EncodeChar c).length
    · rw [getElem?_append_left hi] at hx
      rcases ascii_or_high c with hc | hc
      · have henc := utf8EncodeChar_ascii hc
        have hsz : c.utf8Size = 1 := by
          have := String.length_utf8EncodeChar c
          simpa [henc] using this.symm
        have hi0 : i = 0 := by simp [henc] at hi; exact hi
        subst hi0
        refine ⟨[], c, s, rfl, rfl, hsz, ?_⟩
        simp only [henc, getElem?_cons_zero, Option.some.injEq] at hx
        rw [← hx, UInt8.toNat_ofNat']
        omega
      · exact absurd hlt (Nat.not_lt.mpr (hc x (mem_of_getElem? hx)))
    · rw [getElem?_append_right (by omega)] at hx
      obtain ⟨u, d, v, rfl, hu, hd⟩ := ih hx
      refine ⟨c :: u, d, v, rfl, ?_, hd⟩
      simp only [String.length_utf8EncodeChar] at hi hu
      simp only [size_cons]
      omega

theorem isCharBoundary_of_ascii (hx : (bytes s)[i]? = some x)
    (hlt : x.toNat < 0x80) : isCharBoundary s i = true ∧ isCharBoundary s (i + 1) = true := by
  obtain ⟨u, c, v, rfl, rfl, hc, -⟩ := exists_char_of_ascii hx hlt
  exact ⟨isCharBoundary_iff.mpr ⟨u, c :: v, rfl, rfl⟩,
    isCharBoundary_iff.mpr ⟨u ++ [c], v, by simp, by simp [hc]⟩⟩

/-! ## The encoding synchronises itself -/

theorem utf8EncodeChar_append_inj {c d : Char} {x y : List UInt8}
    (h : String.utf8EncodeChar c ++ x = String.utf8EncodeChar d ++ y) : c = d := by
  have hc := @ByteArray.utf8DecodeChar?_utf8EncodeChar_append x.toByteArray c
  have hd := @ByteArray.utf8DecodeChar?_utf8EncodeChar_append y.toByteArray d
  rw [← toByteArray_append, h, toByteArray_append, hd] at hc
  exact (Option.some.inj hc).symm

theorem prefix_of_bytes_prefix {s t : Str} (h : bytes t <+: bytes s) : t <+: s := by
  induction t generalizing s with
  | nil => exact nil_prefix
  | cons c t ih =>
    obtain ⟨w, hw⟩ := h
    cases s with
    | nil => simp [String.utf8EncodeChar_ne_nil] at hw
    | cons d s =>
      simp only [bytes_cons, append_assoc] at hw
      obtain rfl := utf8EncodeChar_append_inj hw
      obtain ⟨v, rfl⟩ := ih ⟨w, append_cancel_left hw⟩
      exact ⟨v, rfl⟩

theorem bytes_injective : Function.Injective bytes := by
  intro s t h
  obtain ⟨w, rfl⟩ := prefix_of_bytes_prefix (s := s) (t := t) (h ▸ prefix_rfl)
  have : size w = 0 := by
    have := congrArg List.length h
    simp only [length_bytes, size_append] at this
    omega
  simp [size_eq_zero.mp this]

theorem bytes_of_get? {s t : Str} (h : get? s i j = some t) (k : Nat) :
    (bytes t)[k]? = if i + k < j then (bytes s)[i + k]? else none := by
  obtain ⟨u, v, rfl, rfl, rfl⟩ := get?_eq_some.mp h
  rw [bytes_append, bytes_append, append_assoc]
  split
  next hk =>
    rw [getElem?_append_right (by simp), length_bytes, Nat.add_sub_cancel_left,
      getElem?_append_left (by rw [length_bytes]; omega)]
  next hk => exact getElem?_eq_none (by rw [length_bytes]; omega)

theorem drop_bytes_size_append (u v : Str) : (bytes (u ++ v)).drop (size u) = bytes v := by
  rw [bytes_append]
  exact drop_left' rfl

theorem isCharBoundary_of_prefix {s t : Str} (hi : isCharBoundary s i = true)
    (ht : bytes t <+: (bytes s).drop i) : isCharBoundary s (i + size t) = true := by
  obtain ⟨u, v, rfl, rfl⟩ := isCharBoundary_iff.mp hi
  rw [drop_bytes_size_append] at ht
  obtain ⟨w, rfl⟩ := prefix_of_bytes_prefix ht
  exact isCharBoundary_iff.mpr ⟨u ++ t, w, by simp, by simp⟩

/-! ## White space -/

/-- `char::is_whitespace`: the Unicode `White_Space` property. -/
def isWhitespace (c : Char) : Bool :=
  let v := c.toNat
  (0x09 ≤ v && v ≤ 0x0d) || v == 0x20 || v == 0x85 || v == 0xa0 || v == 0x1680 ||
    (0x2000 ≤ v && v ≤ 0x200a) || v == 0x2028 || v == 0x2029 || v == 0x202f || v == 0x205f ||
    v == 0x3000

/-- `u8::is_ascii_whitespace`: the vertical tab is not in it. -/
def isAsciiWhitespace (x : UInt8) : Bool :=
  x == 0x20 || x == 0x09 || x == 0x0a || x == 0x0c || x == 0x0d

/-- `str::trim_start`. -/
def trimStart (s : Str) : Str := s.dropWhile isWhitespace

/-- `str::trim_end`. -/
def trimEnd (s : Str) : Str := s.rdropWhile isWhitespace

/-- `str::trim`. -/
def trim (s : Str) : Str := trimEnd (trimStart s)

/-- `str::eq_ignore_ascii_case`. -/
def eqIgnoreAsciiCase (s t : Str) : Bool := s.map Char.toLower == t.map Char.toLower

/-- The byte at `i` belongs to a white-space character. -/
def BlankAt (s : Str) (i : Nat) : Prop :=
  ∃ u c v, s = u ++ c :: v ∧ isWhitespace c = true ∧ size u ≤ i ∧ i < size u + c.utf8Size

theorem toNat_lt_of_isAsciiWhitespace (h : isAsciiWhitespace x = true) :
    x.toNat < 0x80 := by
  simp only [isAsciiWhitespace, Bool.or_eq_true, beq_iff_eq] at h
  rcases h with (((rfl | rfl) | rfl) | rfl) | rfl <;> decide

theorem isWhitespace_of_ascii (hc : c.toNat = x.toNat)
    (hx : isAsciiWhitespace x = true) : isWhitespace c = true := by
  simp only [isAsciiWhitespace, Bool.or_eq_true, beq_iff_eq] at hx
  simp only [isWhitespace, hc]
  rcases hx with (((rfl | rfl) | rfl) | rfl) | rfl <;> decide

theorem blankAt_of_byte (hx : (bytes s)[i]? = some x)
    (hw : isAsciiWhitespace x = true) : BlankAt s i := by
  obtain ⟨u, c, v, rfl, rfl, hsz, hc⟩ :=
    exists_char_of_ascii hx (toNat_lt_of_isAsciiWhitespace hw)
  exact ⟨u, c, v, rfl, isWhitespace_of_ascii hc hw, Nat.le_refl _, by omega⟩

theorem blankAt_of_all {u w v : Str} (hw : ∀ c ∈ w, isWhitespace c = true)
    (hlo : size u ≤ i) (hhi : i < size u + size w) : BlankAt (u ++ w ++ v) i := by
  induction w generalizing u with
  | nil => simp at hhi; omega
  | cons c w ih =>
    by_cases hi : i < size u + c.utf8Size
    · exact ⟨u, c, w ++ v, by simp, hw c (by simp), hlo, hi⟩
    · have := ih (u := u ++ [c]) (fun d hd => hw d (by simp [hd]))
        (by simp; omega) (by simp at hhi ⊢; omega)
      simpa using this

/-! ## Trimming -/

/-- What `trimStart` takes off. -/
def leading (s : Str) : Str := s.takeWhile isWhitespace

/-- What `trim` takes off at the end. -/
def trailing (s : Str) : Str := (trimStart s).rtakeWhile isWhitespace

theorem leading_append_trimStart (s : Str) : leading s ++ trimStart s = s :=
  takeWhile_append_dropWhile

theorem leading_trim_trailing (s : Str) : s = leading s ++ trim s ++ trailing s := by
  have h : trim s ++ trailing s = trimStart s := rdropWhile_append_rtakeWhile
  rw [append_assoc, h, leading_append_trimStart]

theorem isWhitespace_of_mem_leading (h : c ∈ leading s) :
    isWhitespace c = true :=
  mem_takeWhile_imp h

theorem isWhitespace_of_mem_trailing (h : c ∈ trailing s) :
    isWhitespace c = true :=
  mem_rtakeWhile_imp h

theorem trim_append_blank {s t : Str} (h : ∀ c ∈ t, isWhitespace c = true) :
    trim (s ++ t) = trim s := by
  have hend : ∀ u : Str, trimEnd (u ++ t) = trimEnd u := by
    intro u
    rw [trimEnd, List.rdropWhile, reverse_append,
      dropWhile_append_of_pos fun c hc => h c (mem_reverse.mp hc)]
    rfl
  rw [trim, trimStart, dropWhile_append]
  split
  next hempty =>
    have hnone : t.dropWhile isWhitespace = [] := dropWhile_eq_nil_iff.mpr h
    rw [hnone, trim, trimStart, List.isEmpty_iff.mp hempty]
  next => exact hend _

theorem trim_append_iff {s t : Str} :
    trim (s ++ t) = trim s ↔ ∀ c ∈ t, isWhitespace c = true := by
  refine ⟨fun heq => ?_, trim_append_blank⟩
  -- what is not white space is all there still, so there is none of it in `t`
  have hvisible : ∀ u : Str, (trim u).filter (! isWhitespace ·) = u.filter (! isWhitespace ·) := by
    intro u
    conv_rhs => rw [leading_trim_trailing u]
    have hleading : (leading u).filter (! isWhitespace ·) = [] := by
      rw [filter_eq_nil_iff]
      intro c hc
      rw [isWhitespace_of_mem_leading hc]
      decide
    have htrailing : (trailing u).filter (! isWhitespace ·) = [] := by
      rw [filter_eq_nil_iff]
      intro c hc
      rw [isWhitespace_of_mem_trailing hc]
      decide
    rw [filter_append, filter_append, hleading, htrailing, nil_append,
      append_nil]
  have hsame := (hvisible (s ++ t)).symm.trans ((congrArg _ heq).trans (hvisible s))
  rw [filter_append, append_right_eq_self, filter_eq_nil_iff] at hsame
  intro c hc
  simpa using hsame c hc

theorem size_leading (s : Str) : size s - size (trimStart s) = size (leading s) := by
  have h := congrArg size (leading_append_trimStart s)
  rw [size_append] at h
  omega

theorem trimStart_eq_self (h : ∀ c ∈ s.head?, isWhitespace c = false) :
    trimStart s = s := by
  cases s with
  | nil => rfl
  | cons c s => simp [trimStart, h c (by simp)]

theorem head?_trimStart : ∀ c ∈ (trimStart s).head?, isWhitespace c = false := by
  intro c hc
  induction s with
  | nil => simp [trimStart] at hc
  | cons d s ih =>
    simp only [trimStart, dropWhile_cons] at hc
    split at hc
    · exact ih hc
    next hd => simp_all

theorem head?_trim : ∀ c ∈ (trim s).head?, isWhitespace c = false := by
  intro c hc
  -- what `trimEnd` leaves is a prefix, so it begins as `trimStart` left it
  obtain ⟨w, hw⟩ : trim s <+: trimStart s := rdropWhile_prefix _ _
  refine head?_trimStart (s := s) c ?_
  rw [← hw]
  cases htrim : trim s with
  | nil => simp [htrim] at hc
  | cons d t => simpa [htrim] using hc

theorem getLast?_trim : ∀ c ∈ (trim s).getLast?, isWhitespace c = false := by
  intro c hc
  obtain ⟨hne, rfl⟩ := mem_getLast?_eq_getLast hc
  exact Bool.eq_false_iff.mpr (rdropWhile_last_not isWhitespace (trimStart s) hne)

theorem trim_trim (s : Str) : trim (trim s) = trim s := by
  have hstart : trimStart (trim s) = trim s := trimStart_eq_self head?_trim
  calc trim (trim s) = trimEnd (trimStart (trim s)) := rfl
    _ = trimEnd (trim s) := by rw [hstart]
    _ = trim s := rdropWhile_idempotent _ _

theorem isWhitespace_of_blankAt {u v : Str} (h : BlankAt (u ++ c :: v) i)
    (hlo : size u ≤ i) (hhi : i < size u + c.utf8Size) : isWhitespace c = true := by
  obtain ⟨u', d, v', heq, hd, hlo', hhi'⟩ := h
  rcases append_eq_append_iff.mp heq with ⟨w, rfl, hw⟩ | ⟨w, rfl, hw⟩
  · cases w with
    | nil => exact (List.cons.inj hw).1 ▸ hd
    | cons e w =>
      obtain ⟨rfl, -⟩ := List.cons.inj hw
      simp at hlo'
      omega
  · cases w with
    | nil => exact (List.cons.inj hw).1 ▸ hd
    | cons e w =>
      obtain ⟨rfl, -⟩ := List.cons.inj hw
      simp at hlo
      omega

theorem not_blankAt_of_trim {s t : Str} (h : get? s i j = some (trim t))
    (hne : trim t ≠ []) : i < j ∧ ¬ BlankAt s i ∧ ¬ BlankAt s (j - 1) := by
  obtain ⟨u, v, rfl, rfl, rfl⟩ := get?_eq_some.mp h
  have hpos : 0 < size (trim t) :=
    Nat.pos_of_ne_zero fun h0 => hne (size_eq_zero.mp h0)
  refine ⟨by omega, fun hb => ?_, fun hb => ?_⟩
  · obtain ⟨c, w, hw⟩ := exists_cons_of_ne_nil hne
    have hc := c.utf8Size_pos
    have := head?_trim (s := t) c (by simp [hw])
    rw [hw, append_assoc, cons_append] at hb
    simp [isWhitespace_of_blankAt hb (Nat.le_refl _) (by omega)] at this
  · have hlast := dropLast_append_getLast hne
    have hc := ((trim t).getLast hne).utf8Size_pos
    have hws := getLast?_trim (s := t) _ (getLast?_eq_getLast_of_ne_nil hne)
    have hsize := congrArg size hlast
    simp only [size_append, size_cons, size_nil] at hsize
    have hb' : BlankAt ((u ++ (trim t).dropLast) ++ (trim t).getLast hne :: v)
        (size u + size (trim t) - 1) := by
      have heq : u ++ trim t ++ v =
          (u ++ (trim t).dropLast) ++ (trim t).getLast hne :: v := by
        conv_lhs => rw [← hlast]
        simp
      rwa [← heq]
    simp [isWhitespace_of_blankAt hb' (by simp; omega) (by simp; omega)] at hws

/-! ## Letters whatever their case -/

theorem toNat_of_toLower {c d : Char} (h : c.toLower = d) :
    c = d ∨ (0x41 ≤ c.toNat ∧ c.toNat ≤ 0x5a) ∧ d.toNat = c.toNat + 0x20 := by
  unfold Char.toLower at h
  split at h
  next hc =>
    obtain ⟨hlo, hhi⟩ := hc
    have hlo' : (0x41 : Nat) ≤ c.val.toNat := hlo
    have hhi' : c.val.toNat ≤ 0x5a := hhi
    refine .inr ⟨⟨hlo', hhi'⟩, ?_⟩
    rw [← h]
    simp only [Char.toNat, UInt32.toNat_add]
    rw [show ('a'.val - 'A'.val).toNat = 0x20 from by decide]
    omega
  next => exact .inl h

theorem isWhitespace_toLower (c : Char) : isWhitespace c.toLower = isWhitespace c := by
  rcases toNat_of_toLower (c := c) rfl with h | ⟨⟨hlo, hhi⟩, h⟩
  · rw [← h]
  · simp only [isWhitespace, h]
    grind

theorem not_isWhitespace_of_eqIgnoreAsciiCase {s t : Str} (h : eqIgnoreAsciiCase s t = true)
    (ht : ∀ d ∈ t, isWhitespace d = false) : ∀ c ∈ s, isWhitespace c = false := by
  intro c hc
  have hmap : s.map Char.toLower = t.map Char.toLower := by simpa [eqIgnoreAsciiCase] using h
  have : c.toLower ∈ t.map Char.toLower := hmap ▸ mem_map_of_mem hc
  obtain ⟨d, hd, hdc⟩ := mem_map.mp this
  rw [← isWhitespace_toLower, ← hdc, isWhitespace_toLower, ht d hd]

theorem trim_eq_self (h : ∀ c ∈ s, isWhitespace c = false) : trim s = s := by
  unfold trim
  rw [trimStart_eq_self fun c hc => h c (mem_of_mem_head? hc)]
  refine rdropWhile_eq_self_iff.mpr fun hne => ?_
  simp [h _ (getLast_mem hne)]

theorem byte_of_eqIgnoreAsciiCase {s w t : Str} {d : Char}
    (hget : get? s i j = some w) (h : eqIgnoreAsciiCase w (d :: t) = true)
    (hd : 0x61 ≤ d.toNat ∧ d.toNat ≤ 0x7a) :
    ∃ x, (bytes s)[i]? = some x ∧ (x.toNat = d.toNat ∨ x.toNat + 0x20 = d.toNat) := by
  have hmap : w.map Char.toLower = d.toLower :: t.map Char.toLower := by
    simpa [eqIgnoreAsciiCase] using h
  have hlow : d.toLower = d := by
    rcases toNat_of_toLower (c := d) rfl with h | ⟨⟨hlo, hhi⟩, -⟩
    · exact h.symm
    · omega
  obtain ⟨c, w', rfl, hc, -⟩ := map_eq_cons_iff.mp hmap
  rw [hlow] at hc
  obtain ⟨u, v, rfl, rfl, -⟩ := get?_eq_some.mp hget
  have hcase : c.toNat = d.toNat ∨ c.toNat + 0x20 = d.toNat := by
    rcases toNat_of_toLower hc with rfl | ⟨-, h⟩
    · exact .inl rfl
    · exact .inr h.symm
  refine ⟨UInt8.ofNat c.toNat, ?_, ?_⟩
  · rw [append_assoc, bytes_append, getElem?_append_right (by simp), length_bytes,
      Nat.sub_self, cons_append, bytes_cons, utf8EncodeChar_ascii (by omega)]
    rfl
  · rw [UInt8.toNat_ofNat']
    omega

/-! ## Texts joined -/

theorem intercalate_cons {sep first : Str} (rest : List Str) :
    sep.intercalate (first :: rest) = first ++ rest.flatMap (sep ++ ·) := by
  induction rest generalizing first with
  | nil => rw [intercalate_singleton, flatMap_nil, append_nil]
  | cons second rest ih =>
    rw [intercalate_cons_cons, ih, flatMap_cons, append_assoc, append_assoc]

end Text
