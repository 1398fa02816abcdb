/-
# `Oxyn.Lib.Percent` — percent encoding

A text is written in ASCII alone: every byte of its encoding that a set holds becomes `%` and two
hexadecimal digits, and the others stand as they are.
-/
import Oxyn.Lib.Lossy

namespace Percent

open Text List

/-- The bytes an encoder writes as `%XX`; those from `0x80` on are always among them. -/
structure AsciiSet where
  holds : UInt8 → Bool
  high : ∀ b : UInt8, 0x80 ≤ b.toNat → holds b = true

theorem high_controls (l : List UInt8) (b : UInt8) (h : 0x80 ≤ b.toNat) :
    (b.toNat ≤ 0x20 || 0x7f ≤ b.toNat || l.contains b) = true := by
  rw [Bool.or_eq_true, Bool.or_eq_true]
  exact .inl (.inr (decide_eq_true (by omega)))

/-- The byte of `%`. -/
def sign : UInt8 := 0x25

def hexDigit (n : Nat) : UInt8 := UInt8.ofNat (if n < 10 then 0x30 + n else 0x37 + n)

/-- The value of an ASCII hexadecimal digit. -/
def hexValue (byte : UInt8) : Option Nat :=
  let v := byte.toNat
  if 0x30 ≤ v ∧ v ≤ 0x39 then some (v - 0x30)
  else if 0x61 ≤ v ∧ v ≤ 0x66 then some (v - 0x61 + 10)
  else if 0x41 ≤ v ∧ v ≤ 0x46 then some (v - 0x41 + 10)
  else none

def encodeByte (set : AsciiSet) (b : UInt8) : List UInt8 :=
  if set.holds b then [sign, hexDigit (b.toNat / 16), hexDigit (b.toNat % 16)] else [b]

def encodeBytes (set : AsciiSet) (l : List UInt8) : List UInt8 := l.flatMap (encodeByte set)

/-- The bytes a sequence of bytes stands for, if each `%` in it has its two digits. -/
def decodeBytes : List UInt8 → Option (List UInt8)
  | [] => some []
  | byte :: remaining =>
    if byte ≠ sign then (decodeBytes remaining).map (byte :: ·)
    else match remaining with
      | h :: l :: remaining =>
        match hexValue h, hexValue l with
        | some high, some low =>
          (decodeBytes remaining).map (UInt8.ofNat (high * 16 + low) :: ·)
        | _, _ => none
      | _ => none

/-- The text percent encoding writes for a text. -/
def encode (set : AsciiSet) (s : Str) : Str :=
  (encodeBytes set (bytes s)).map fun b => Char.ofNat b.toNat

variable {set : AsciiSet} {b : UInt8} {l t : List UInt8} {s : Str}

/-! ## Bytes -/

variable {n : Nat}

theorem toNat_hexDigit (h : n < 16) :
    (hexDigit n).toNat = if n < 10 then 0x30 + n else 0x37 + n := by
  rw [hexDigit, UInt8.toNat_ofNat']
  split <;> omega

theorem hexValue_hexDigit (h : n < 16) : hexValue (hexDigit n) = some n := by
  simp only [hexValue, toNat_hexDigit h]
  split_ifs <;> first | omega | (congr 1; omega)

theorem hexValue_sign : hexValue sign = none := rfl

theorem decodeBytes_plain (hb : b ≠ sign) (l : List UInt8) :
    decodeBytes (b :: l) = (decodeBytes l).map (b :: ·) := by
  rw [decodeBytes.eq_def]
  exact if_pos hb

theorem decodeBytes_sign (high low : UInt8) (l : List UInt8) :
    decodeBytes (sign :: high :: low :: l) =
      match hexValue high, hexValue low with
      | some high, some low => (decodeBytes l).map (UInt8.ofNat (high * 16 + low) :: ·)
      | _, _ => none := by
  rw [decodeBytes, if_neg (not_not.mpr rfl)]

theorem decodeBytes_encodeByte (hb : set.holds b = true ∨ b ≠ sign) (l : List UInt8) :
    decodeBytes (encodeByte set b ++ l) = (decodeBytes l).map (b :: ·) := by
  have hlt : b.toNat < 256 := b.toNat_lt
  unfold encodeByte
  split
  next =>
    have hbyte : UInt8.ofNat (b.toNat / 16 * 16 + b.toNat % 16) = b := by
      rw [Nat.div_add_mod', UInt8.ofNat_toNat]
    simp only [cons_append, nil_append]
    rw [decodeBytes_sign, hexValue_hexDigit (by omega), hexValue_hexDigit (by omega)]
    simp only [hbyte]
  next h => exact decodeBytes_plain (hb.resolve_left h) l

theorem decodeBytes_encodeBytes (h : ∀ b ∈ l, set.holds b = true ∨ b ≠ sign) :
    decodeBytes (encodeBytes set l) = some l := by
  induction l with
  | nil => rfl
  | cons b l ih =>
    rw [encodeBytes, flatMap_cons, decodeBytes_encodeByte (h b mem_cons_self)]
    have hrest := ih fun x hx => h x (mem_cons_of_mem _ hx)
    rw [encodeBytes] at hrest
    rw [hrest, Option.map_some]

theorem encodeBytes_of_digit {x : UInt8} {rest : List UInt8}
    (h : encodeBytes set l = x :: rest) (hx : hexValue x ≠ none) :
    ∃ l', l = x :: l' ∧ rest = encodeBytes set l' := by
  cases l with
  | nil => cases h
  | cons b l =>
    rw [encodeBytes, flatMap_cons, encodeByte] at h
    split at h
    next =>
      simp only [cons_append, List.cons.injEq] at h
      exact absurd (h.1 ▸ hexValue_sign) hx
    next =>
      simp only [cons_append, nil_append, List.cons.injEq] at h
      exact ⟨l, by rw [h.1], h.2.symm⟩

theorem decodeBytes_bare_sign (h : decodeBytes (sign :: encodeBytes set l) = some t) :
    ∃ x y l' t', l = x :: y :: l' ∧ decodeBytes (encodeBytes set l') = some t' ∧
      t.length = t'.length + 1 := by
  generalize hl : encodeBytes set l = written at h
  rcases written with - | ⟨x, - | ⟨y, rest⟩⟩
  · cases h
  · cases h
  · rw [decodeBytes_sign] at h
    cases hx : hexValue x with
    | none => rw [hx] at h; cases h
    | some high =>
      cases hy : hexValue y with
      | none => rw [hx, hy] at h; cases h
      | some low =>
        rw [hx, hy] at h
        obtain ⟨l₁, rfl, hrest⟩ :=
          encodeBytes_of_digit hl (by rw [hx]; exact Option.some_ne_none _)
        obtain ⟨l₂, rfl, rfl⟩ :=
          encodeBytes_of_digit hrest.symm (by rw [hy]; exact Option.some_ne_none _)
        obtain ⟨t', ht', rfl⟩ := Option.map_eq_some_iff.mp h
        exact ⟨x, y, l₂, t', rfl, ht', rfl⟩

theorem length_decodeBytes_encodeBytes (hn : l.length ≤ n)
    (h : decodeBytes (encodeBytes set l) = some t) :
    t.length ≤ l.length ∧ (set.holds sign = false → sign ∈ l → t.length < l.length) := by
  induction n generalizing l t with
  | zero =>
    obtain rfl := length_eq_zero_iff.mp (Nat.le_zero.mp hn)
    cases h
    exact ⟨Nat.le_refl _, fun _ hmem => nomatch hmem⟩
  | succ n ih =>
    cases l with
    | nil =>
      cases h
      exact ⟨Nat.le_refl _, fun _ hmem => nomatch hmem⟩
    | cons b l =>
      rw [length_cons] at hn
      rw [encodeBytes, flatMap_cons] at h
      by_cases hb : set.holds b = true ∨ b ≠ sign
      · rw [decodeBytes_encodeByte hb] at h
        obtain ⟨t', ht', rfl⟩ := Option.map_eq_some_iff.mp h
        obtain ⟨hle, hlt⟩ := ih (by omega) ht'
        refine ⟨Nat.succ_le_succ hle, fun hset hmem => Nat.succ_lt_succ (hlt hset ?_)⟩
        rcases mem_cons.mp hmem with rfl | hmem
        · rcases hb with hb | hb
          · exact absurd (hset ▸ hb) Bool.false_ne_true
          · exact absurd rfl hb
        · exact hmem
      · obtain ⟨hset, rfl⟩ := not_or.mp hb |>.imp_right not_not.mp
        rw [encodeByte, if_neg hset] at h
        obtain ⟨x, y, l', t', rfl, ht', hlength⟩ := decodeBytes_bare_sign h
        simp only [length_cons] at hn ⊢
        have hle := (ih (by omega) ht').1
        omega

theorem decodeBytes_append (hn : l.length ≤ n) (h : decodeBytes l = some t)
    (more : List UInt8) : decodeBytes (l ++ more) = (decodeBytes more).map (t ++ ·) := by
  induction n generalizing l t with
  | zero =>
    obtain rfl := length_eq_zero_iff.mp (Nat.le_zero.mp hn)
    cases h
    exact Option.map_id'.symm
  | succ n ih =>
    cases l with
    | nil =>
      cases h
      exact Option.map_id'.symm
    | cons b l =>
      rw [length_cons] at hn
      by_cases hb : b = sign
      · subst hb
        rcases l with - | ⟨x, - | ⟨y, l⟩⟩
        · cases h
        · cases h
        · rw [decodeBytes_sign] at h
          rw [cons_append, cons_append, cons_append, decodeBytes_sign]
          split at h
          next hx hy =>
            obtain ⟨t', ht', rfl⟩ := Option.map_eq_some_iff.mp h
            rw [length_cons, length_cons] at hn
            rw [ih (by omega) ht', Option.map_map]
            rfl
          next => cases h
      · rw [decodeBytes_plain hb] at h
        obtain ⟨t', ht', rfl⟩ := Option.map_eq_some_iff.mp h
        rw [cons_append, decodeBytes_plain hb, ih (by omega) ht', Option.map_map]
        rfl

theorem digits_of_sign (h : decodeBytes (sign :: l) ≠ none) :
    ∃ x y l', l = x :: y :: l' ∧ hexValue x ≠ none ∧ hexValue y ≠ none := by
  rcases l with - | ⟨x, - | ⟨y, l⟩⟩
  · exact absurd rfl h
  · exact absurd rfl h
  · rw [decodeBytes_sign] at h
    refine ⟨x, y, l, rfl, fun hx => ?_, fun hy => ?_⟩
    · rw [hx] at h
      exact h rfl
    · rw [hy] at h
      exact h (by cases hexValue x <;> rfl)

theorem decodeBytes_encodeBytes_of_keeps (hsign : set.holds sign = false)
    (hdigits : ∀ b, hexValue b ≠ none → set.holds b = false) (hn : l.length ≤ n) :
    decodeBytes (encodeBytes set l) = decodeBytes l := by
  induction n generalizing l with
  | zero =>
    obtain rfl := length_eq_zero_iff.mp (Nat.le_zero.mp hn)
    rfl
  | succ n ih =>
    cases l with
    | nil => rfl
    | cons b l =>
      rw [length_cons] at hn
      rw [encodeBytes, flatMap_cons]
      by_cases hb : b = sign
      · subst hb
        have hkept : ∀ {x : UInt8} {l : List UInt8}, hexValue x ≠ none →
            encodeBytes set (x :: l) = x :: encodeBytes set l := by
          intro x l hx
          rw [encodeBytes, flatMap_cons, encodeByte, hdigits x hx,
            if_neg Bool.false_ne_true]
          rfl
        rw [encodeByte, hsign, if_neg Bool.false_ne_true, singleton_append]
        change decodeBytes (sign :: encodeBytes set l) = _
        by_cases hpair : ∃ x y l', l = x :: y :: l' ∧ hexValue x ≠ none ∧ hexValue y ≠ none
        · obtain ⟨x, y, l', rfl, hx, hy⟩ := hpair
          rw [length_cons, length_cons] at hn
          rw [hkept hx, hkept hy, decodeBytes_sign, decodeBytes_sign, ih (by omega)]
        · have hnone : decodeBytes (sign :: l) = none := by
            by_contra h
            obtain ⟨x, y, l', hl, hx, hy⟩ := digits_of_sign h
            exact hpair ⟨x, y, l', hl, hx, hy⟩
          rw [hnone]
          by_contra h
          obtain ⟨x, y, written, hl, hx, hy⟩ := digits_of_sign h
          obtain ⟨l₁, rfl, hrest⟩ := encodeBytes_of_digit hl hx
          obtain ⟨l₂, rfl, -⟩ := encodeBytes_of_digit hrest.symm hy
          exact hpair ⟨x, y, l₂, rfl, hx, hy⟩
      · rw [decodeBytes_encodeByte (.inr hb), decodeBytes_plain hb]
        exact congrArg _ (ih (by omega))

/-! ## Texts -/

theorem encodeBytes_ascii (x : UInt8) (hx : x ∈ encodeBytes set l) : x.toNat < 0x80 := by
  obtain ⟨b, -, hb⟩ := mem_flatMap.mp hx
  unfold encodeByte at hb
  have hlt : b.toNat < 256 := b.toNat_lt
  split at hb
  next =>
    simp only [mem_cons, not_mem_nil, or_false] at hb
    rcases hb with rfl | rfl | rfl
    · decide
    · rw [toNat_hexDigit (by omega)]
      split <;> omega
    · rw [toNat_hexDigit (by omega)]
      split <;> omega
  next h =>
    rw [mem_singleton.mp hb]
    by_contra hhigh
    exact h (set.high b (Nat.le_of_not_lt hhigh))

theorem not_mem_encodeBytes_of_holds (h : set.holds b = true)
    (hb : b ≠ sign ∧ hexValue b = none) : b ∉ encodeBytes set l := by
  intro hmem
  obtain ⟨x, -, hx⟩ := mem_flatMap.mp hmem
  have hlt : x.toNat < 256 := x.toNat_lt
  unfold encodeByte at hx
  split at hx
  next =>
    simp only [mem_cons, not_mem_nil, or_false] at hx
    rcases hx with rfl | rfl | rfl
    · exact hb.1 rfl
    · rw [hexValue_hexDigit (by omega)] at hb
      cases hb.2
    · rw [hexValue_hexDigit (by omega)] at hb
      cases hb.2
  next hnot => exact hnot (mem_singleton.mp hx ▸ h)

theorem bytes_of_ascii (h : ∀ x ∈ l, x.toNat < 0x80) :
    bytes (l.map fun b => Char.ofNat b.toNat) = l := by
  induction l with
  | nil => rfl
  | cons x l ih =>
    have hx := h x mem_cons_self
    have hchar : (Char.ofNat x.toNat).toNat = x.toNat := toNat_ofNat_of_range (.inl (by omega))
    rw [map_cons, bytes_cons, utf8EncodeChar_ascii (by omega), hchar, UInt8.ofNat_toNat,
      ih fun y hy => h y (mem_cons_of_mem _ hy)]
    rfl

@[simp] theorem bytes_encode : bytes (encode set s) = encodeBytes set (bytes s) :=
  bytes_of_ascii encodeBytes_ascii

theorem byte_of_mem_encode {c : Char} (h : c ∈ encode set s) :
    UInt8.ofNat c.toNat ∈ encodeBytes set (bytes s) ∧ c.toNat < 0x80 := by
  obtain ⟨b, hb, rfl⟩ := mem_map.mp h
  have hlt := encodeBytes_ascii b hb
  have hchar : (Char.ofNat b.toNat).toNat = b.toNat := toNat_ofNat_of_range (.inl (by omega))
  rw [hchar, UInt8.ofNat_toNat]
  exact ⟨hb, hlt⟩

theorem not_mem_encode {c : Char} (h : set.holds (UInt8.ofNat c.toNat) = true)
    (hc : UInt8.ofNat c.toNat ≠ sign ∧ hexValue (UInt8.ofNat c.toNat) = none) :
    c ∉ encode set s :=
  fun hmem => not_mem_encodeBytes_of_holds h hc (byte_of_mem_encode hmem).1

theorem encode_eq_nil : encode set s = [] ↔ s = [] := by
  constructor
  · intro h
    have hbytes : encodeBytes set (bytes s) = [] := by rw [← bytes_encode, h]; rfl
    by_contra hs
    cases hl : bytes s with
    | nil => exact hs (size_eq_zero.mp (congrArg List.length hl))
    | cons b l =>
      rw [hl, encodeBytes, flatMap_cons, encodeByte] at hbytes
      split at hbytes
      · cases hbytes
      · cases hbytes
  · rintro rfl
    rfl

theorem sign_mem_bytes : sign ∈ bytes s ↔ '%' ∈ s := by
  constructor
  · intro h
    obtain ⟨c, hc, hmem⟩ := mem_flatMap.mp h
    rcases ascii_or_high c with hlow | hhigh
    · rw [utf8EncodeChar_ascii hlow, mem_singleton] at hmem
      have hnat : c.toNat = 0x25 := by
        have := congrArg UInt8.toNat hmem
        rw [UInt8.toNat_ofNat', Nat.mod_eq_of_lt (by omega)] at this
        exact this.symm
      have hchar : c = '%' := Char.toNat_inj.mp hnat
      exact hchar ▸ hc
    · exact absurd (hhigh _ hmem) (by decide)
  · intro h
    exact mem_flatMap.mpr ⟨'%', h, by decide⟩

/-- The text that percent decoding gives back, if it is one. -/
def decode (s : Str) : Option Str := (decodeBytes (bytes s)).bind fromUtf8

/-- A text is read back exactly when none of its percent signs is left as it is. -/
theorem decode_encode_iff : decode (encode set s) = some s ↔ set.holds sign = true ∨ '%' ∉ s := by
  rw [decode, bytes_encode]
  constructor
  · intro h
    by_contra hnot
    obtain ⟨hset, hmem⟩ := not_or.mp hnot
    obtain ⟨t, ht, hs⟩ := Option.bind_eq_some_iff.mp h
    obtain rfl := fromUtf8_eq_some.mp hs
    have hlt := (length_decodeBytes_encodeBytes (Nat.le_refl _) ht).2 (by simpa using hset)
      (sign_mem_bytes.mpr (not_not.mp hmem))
    exact absurd hlt (Nat.lt_irrefl _)
  · intro h
    have hbytes : ∀ b ∈ bytes s, set.holds b = true ∨ b ≠ sign := by
      intro b hb
      by_cases hsign : b = sign
      · subst hsign
        exact .inl (h.resolve_right (not_not.mpr (sign_mem_bytes.mp hb)))
      · exact .inr hsign
    rw [decodeBytes_encodeBytes hbytes, Option.bind_some, fromUtf8_eq_some]

theorem decode_ne_nil {t : Str} (h : decode s = some t) (hs : s ≠ []) : t ≠ [] := by
  rintro rfl
  obtain ⟨l, hl, ht⟩ := Option.bind_eq_some_iff.mp h
  obtain rfl := fromUtf8_eq_some.mp ht
  cases hbytes : bytes s with
  | nil => exact hs (size_eq_zero.mp (congrArg List.length hbytes))
  | cons b rest =>
    rw [hbytes] at hl
    by_cases hb : b = sign
    · rcases rest with - | ⟨x, - | ⟨y, rest⟩⟩
      · rw [hb] at hl; cases hl
      · rw [hb] at hl; cases hl
      · rw [hb, decodeBytes_sign] at hl
        split at hl
        · obtain ⟨_, -, hcons⟩ := Option.map_eq_some_iff.mp hl
          cases hcons
        · cases hl
    · rw [decodeBytes_plain hb] at hl
      obtain ⟨_, -, hcons⟩ := Option.map_eq_some_iff.mp hl
      cases hcons

theorem decode_of_no_sign (h : '%' ∉ s) : decode s = some s := by
  have hbytes : ∀ l : List UInt8, sign ∉ l → decodeBytes l = some l := by
    intro l
    induction l with
    | nil => exact fun _ => rfl
    | cons b l ih =>
      intro hl
      obtain ⟨hb, hl⟩ := not_or.mp (mt mem_cons.mpr hl)
      rw [decodeBytes_plain (Ne.symm hb), ih hl, Option.map_some]
  rw [decode, hbytes _ (mt sign_mem_bytes.mp h), Option.bind_some, fromUtf8_eq_some]

theorem decode_encode_of_keeps (hsign : set.holds sign = false)
    (hdigits : ∀ b, hexValue b ≠ none → set.holds b = false) (s : Str) :
    decode (encode set s) = decode s := by
  rw [decode, bytes_encode, decodeBytes_encodeBytes_of_keeps hsign hdigits (Nat.le_refl _), decode]

theorem decode_append_ne {more t : Str} (h : decode s = some t) (hmore : more ≠ []) :
    decode (s ++ more) ≠ some t := by
  intro hsame
  obtain ⟨l, hl, ht⟩ := Option.bind_eq_some_iff.mp h
  obtain ⟨m, hm, ht'⟩ := Option.bind_eq_some_iff.mp hsame
  obtain rfl := fromUtf8_eq_some.mp ht
  obtain rfl := fromUtf8_eq_some.mp ht'
  rw [bytes_append, decodeBytes_append (Nat.le_refl _) hl] at hm
  obtain ⟨rest, hrest, heq⟩ := Option.map_eq_some_iff.mp hm
  obtain rfl := append_right_eq_self.mp heq
  exact decode_ne_nil (t := []) (by rw [decode, hrest]; rfl) hmore rfl

end Percent
