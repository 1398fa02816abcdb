/-
# `Oxyn.ClickHouse.Decode` — an unsigned 256-bit integer as a decimal text

The digits come from a long division by ten over four limbs, the last digit first, into a buffer
that is written from its end.
-/
import Mathlib.Data.Nat.Digits.Lemmas
import Oxyn.Lib.Decimal
import Oxyn.Lib.Lossy

namespace Oxyn.ClickHouse

open Text Decimal List

/-- The response ended in the middle of a row. -/
inductive DecodeError where
  | truncated
deriving DecidableEq, Repr

/-- `u64::try_from`. -/
def tryU64 (n : Nat) : Except DecodeError Nat := if n < 2 ^ 64 then .ok n else .error .truncated

/-- `u8::try_from`. -/
def tryU8 (n : Nat) : Except DecodeError UInt8 :=
  if n < 2 ^ 8 then .ok (UInt8.ofNat n) else .error .truncated

/-- `u64::from_le_bytes`, of any number of bytes. -/
def fromLeBytes (b : List UInt8) : Nat := Nat.ofDigits 256 (b.map UInt8.toNat)

/-- So many limbs of eight bytes, the least one first. -/
def limbsOf : Nat → List UInt8 → List Nat
  | 0, _ => []
  | n + 1, b => fromLeBytes (b.take 8) :: limbsOf n (b.drop 8)

def divideLimbs : List Nat → Except DecodeError (List Nat × Nat)
  | [] => .ok ([], 0)
  | limb :: above => do
    let (above, remainder) ← divideLimbs above
    let current := remainder <<< 64 ||| limb
    let limb ← tryU64 (current / 10)
    let remainder ← tryU64 (current % 10)
    .ok (limb :: above, remainder)

/-- The turns of the loop, down from a start: the start they leave, and the digits. -/
def digitsFrom : Nat → List Nat → List UInt8 → Except DecodeError (Nat × List UInt8)
  | 0, limbs, _ => do
    let _ ← divideLimbs limbs
    .error .truncated
  | start + 1, limbs, digits => do
    let (limbs, remainder) ← divideLimbs limbs
    let digit ← tryU8 remainder
    if start < digits.length then
      let digits := digits.set start (48 + digit)
      if limbs.all (· == 0) then .ok (start, digits) else digitsFrom start limbs digits
    else .error .truncated

/-- `2^256` has 78 decimal digits. -/
def maxDigits : Nat := 78

abbrev Raw256 := { raw : List UInt8 // raw.length = 32 }

def writeUnsigned256 (raw : Raw256) : Except DecodeError (Str × Nat) := do
  let (start, digits) ← digitsFrom maxDigits (limbsOf 4 raw.val) (replicate maxDigits 0)
  match fromUtf8 (digits.drop start) with
  | some text => .ok (text, size text + 4)
  | none => .error .truncated

/-- What `skip_value` adds for a 256-bit integer: the longest text, and its offset. -/
def measured256 : Nat := 78 + 4

/-! ## The limbs -/

/-- The number that limbs hold. -/
def limbsValue (limbs : List Nat) : Nat := Nat.ofDigits (2 ^ 64) limbs

theorem fromLeBytes_lt (b : List UInt8) : fromLeBytes b < 256 ^ b.length := by
  have h := Nat.ofDigits_lt_base_pow_length (b := 256) (l := b.map UInt8.toNat) (by decide) (by
    intro d hd
    obtain ⟨byte, -, rfl⟩ := mem_map.mp hd
    exact byte.toNat_lt)
  rwa [length_map] at h

theorem limbsOf_spec (n : Nat) {b : List UInt8} (hb : b.length = 8 * n) :
    limbsValue (limbsOf n b) = fromLeBytes b ∧ ∀ limb ∈ limbsOf n b, limb < 2 ^ 64 := by
  induction n generalizing b with
  | zero =>
    obtain rfl := length_eq_zero_iff.mp hb
    exact ⟨rfl, nofun⟩
  | succ n ih =>
    obtain ⟨hvalue, hlimbs⟩ := ih (b := b.drop 8) (by rw [length_drop]; omega)
    have hlength : (b.take 8).length = 8 := by
      rw [length_take]
      omega
    rw [limbsOf]
    constructor
    · have hsplit : fromLeBytes b = fromLeBytes (b.take 8) + 256 ^ 8 * fromLeBytes (b.drop 8) := by
        conv_lhs => rw [fromLeBytes, ← take_append_drop 8 b, map_append, Nat.ofDigits_append,
          length_map, hlength]
        rfl
      rw [hsplit, ← hvalue, limbsValue, Nat.ofDigits_cons]
      rfl
    · refine forall_mem_cons.mpr ⟨?_, hlimbs⟩
      have hlimb := fromLeBytes_lt (b.take 8)
      rwa [hlength] at hlimb

variable {limbs : List Nat}

theorem divideLimbs_eq (h : ∀ limb ∈ limbs, limb < 2 ^ 64) :
    ∃ quotient, divideLimbs limbs = .ok (quotient, limbsValue limbs % 10) ∧
      limbsValue quotient = limbsValue limbs / 10 ∧ ∀ limb ∈ quotient, limb < 2 ^ 64 := by
  induction limbs with
  | nil => exact ⟨[], rfl, rfl, nofun⟩
  | cons limb limbs ih =>
    obtain ⟨hlimb, hlimbs⟩ := forall_mem_cons.mp h
    obtain ⟨above, hdivide, hvalue, habove⟩ := ih hlimbs
    have hcurrent : (limbsValue limbs % 10) <<< 64 ||| limb =
        limbsValue limbs % 10 * 2 ^ 64 + limb := by
      rw [← Nat.shiftLeft_add_eq_or_of_lt hlimb, Nat.shiftLeft_eq]
    have hcons (limb : Nat) (limbs : List Nat) :
        limbsValue (limb :: limbs) = limb + 2 ^ 64 * limbsValue limbs :=
      Nat.ofDigits_cons
    -- the remainder is a digit, so the quotient is a limb
    have hquotient : (limbsValue limbs % 10 * 2 ^ 64 + limb) / 10 < 2 ^ 64 := by omega
    have hremainder : (limbsValue limbs % 10 * 2 ^ 64 + limb) % 10 < 2 ^ 64 := by omega
    refine ⟨(limbsValue limbs % 10 * 2 ^ 64 + limb) / 10 :: above, ?_, ?_, ?_⟩
    · simp only [divideLimbs, hdivide, hcurrent, tryU64, if_pos hquotient, if_pos hremainder, hcons,
        bind, Except.bind]
      congr 2
      omega
    · rw [hcons, hcons, hvalue]
      omega
    · exact forall_mem_cons.mpr ⟨hquotient, habove⟩

theorem all_limbs_zero :
    limbs.all (· == 0) = true ↔ limbsValue limbs = 0 := by
  induction limbs with
  | nil => exact iff_of_true rfl rfl
  | cons limb limbs ih =>
    have hcons : limbsValue (limb :: limbs) = limb + 2 ^ 64 * limbsValue limbs := Nat.ofDigits_cons
    rw [all_cons, Bool.and_eq_true, ih, beq_iff_eq, hcons]
    omega

/-! ## The digits -/

theorem bytes_digitChar : ∀ n < 10, bytes [Nat.digitChar n] = [48 + UInt8.ofNat n] := by decide

theorem digitsFrom_eq (start : Nat) {digits : List UInt8}
    (hlimbs : ∀ limb ∈ limbs, limb < 2 ^ 64) (hvalue : limbsValue limbs < 10 ^ start)
    (hpos : 0 < start) (hlength : start ≤ digits.length) :
    ∃ first written, digitsFrom start limbs digits = .ok (first, written) ∧
      written.drop first = bytes (numeral (limbsValue limbs)) ++ digits.drop start := by
  induction start generalizing limbs digits with
  | zero => cases hpos
  | succ start ih =>
    obtain ⟨quotient, hdivide, hquotient, hq⟩ := divideLimbs_eq hlimbs
    have hdigit : limbsValue limbs % 10 < 10 := Nat.mod_lt _ (by decide)
    have hbyte := bytes_digitChar _ hdigit
    have hset (d : UInt8) : (digits.set start d).drop start = d :: digits.drop (start + 1) := by
      rw [drop_eq_getElem_cons (by rw [length_set]; omega), getElem_set_self,
        drop_set_of_lt (Nat.lt_succ_self _)]
    have hturn : digitsFrom (start + 1) limbs digits =
        if quotient.all (· == 0) then
          .ok (start, digits.set start (48 + UInt8.ofNat (limbsValue limbs % 10)))
        else digitsFrom start quotient
          (digits.set start (48 + UInt8.ofNat (limbsValue limbs % 10))) := by
      have hbyte : limbsValue limbs % 10 < 2 ^ 8 := by omega
      simp only [digitsFrom, hdivide, tryU8, if_pos hbyte, if_pos (show start < digits.length by omega),
        bind, Except.bind]
    rw [hturn, numeral, Nat.toDigits_eq_if (by decide)]
    by_cases hzero : quotient.all (· == 0) = true
    · have hsmall : limbsValue limbs < 10 := by
        rw [all_limbs_zero, hquotient] at hzero
        omega
      rw [if_pos hzero, if_pos hsmall]
      refine ⟨_, _, rfl, ?_⟩
      rw [hset, ← Nat.mod_eq_of_lt hsmall, Nat.mod_mod, hbyte]
      rfl
    · have hlarge : ¬ limbsValue limbs < 10 := by
        rw [all_limbs_zero, hquotient] at hzero
        omega
      have hless : limbsValue quotient < 10 ^ start := by
        rw [hquotient]
        exact Nat.div_lt_of_lt_mul (by rwa [pow_succ'] at hvalue)
      have hstart : 0 < start := by
        rcases Nat.eq_zero_or_pos start with rfl | hstart
        · exact absurd hvalue (by omega)
        · exact hstart
      rw [if_neg hzero, if_neg hlarge]
      have hroom : start ≤
          (digits.set start (48 + UInt8.ofNat (limbsValue limbs % 10))).length := by
        rw [length_set]
        omega
      obtain ⟨first, written, hdigits, hdrop⟩ := ih hq hless hstart hroom
      refine ⟨first, written, hdigits, ?_⟩
      rw [hdrop, hset, hquotient, bytes_append, hbyte, numeral, append_assoc, singleton_append]

theorem size_of_digits {s : Str} (h : Digits s) : size s = s.length := by
  induction s with
  | nil => rfl
  | cons c s ih =>
    have hc := h c mem_cons_self
    have hsize : c.utf8Size = 1 := by
      simp only [Char.isDigit, Bool.and_eq_true, decide_eq_true_eq] at hc
      exact if_pos (UInt32.le_trans hc.2 (by decide))
    rw [size_cons, hsize, ih fun d hd => h d (mem_cons_of_mem c hd), length_cons, Nat.add_comm]

/-- The digits of the integer the bytes hold are written, 78 at most, and the size answered is
theirs and that of an offset, which is no more than was measured. -/
theorem writeUnsigned256_eq (raw : Raw256) :
    writeUnsigned256 raw = .ok (numeral (fromLeBytes raw.val),
        (numeral (fromLeBytes raw.val)).length + 4) ∧
      (numeral (fromLeBytes raw.val)).length ≤ maxDigits ∧
      (numeral (fromLeBytes raw.val)).length + 4 ≤ measured256 := by
  obtain ⟨hvalue, hlimbs⟩ := limbsOf_spec 4 (b := raw.val) raw.property
  have hless : limbsValue (limbsOf 4 raw.val) < 10 ^ maxDigits := by
    have h := fromLeBytes_lt raw.val
    rw [raw.property] at h
    rw [hvalue]
    exact h.trans (by norm_num [maxDigits])
  obtain ⟨first, written, hdigits, hdrop⟩ :=
    digitsFrom_eq maxDigits hlimbs hless (by decide) (Nat.le_of_eq (length_replicate (a := 0)).symm)
  have hlength : (numeral (fromLeBytes raw.val)).length ≤ maxDigits := by
    rw [← hvalue]
    exact (length_numeral_le (by decide)).mpr hless
  refine ⟨?_, hlength, Nat.add_le_add_right hlength 4⟩
  rw [drop_eq_nil_of_le (Nat.le_of_eq length_replicate), append_nil, hvalue] at hdrop
  simp only [writeUnsigned256, hdigits, bind, Except.bind, fromUtf8_eq_some.mpr hdrop.symm,
    size_of_digits (digits_numeral _)]

end Oxyn.ClickHouse
