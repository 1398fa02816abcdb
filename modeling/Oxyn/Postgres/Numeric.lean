/-
# `Oxyn.Postgres.Numeric` — the exact decoding of a `NUMERIC`

The server sends a `NUMERIC` as a header of four 16-bit words and groups of four decimal digits,
the first standing for `10000 ^ weight`.
-/
import Mathlib.Algebra.Order.Floor.Semifield
import Mathlib.Data.Rat.Floor
import Mathlib.Tactic.NormNum
import Mathlib.Tactic.Positivity
import Mathlib.Tactic.FieldSimp
import Mathlib.Tactic.Ring
import Oxyn.Lib.Text
import Oxyn.Lib.Decimal

namespace Oxyn.Postgres.Numeric

open Text Decimal List

/-- Beyond this many groups, the value is refused. -/
def maxGroups : Nat := 4096

/-- Bound on the display scale. -/
def maxDscale : Nat := 16384

/-- Groups of four decimal digits. -/
def base : Nat := 10000

def i32Max : Int := 2147483647

/-! ## The reader -/

/-- The signed value of a 16-bit word. -/
def signed16 (n : Nat) : Int := if n < 32768 then n else n - 65536

/-- An unsigned 16-bit integer, big-endian, and the bytes not read yet. -/
def Reader.u16 : List UInt8 → Option (Nat × List UInt8)
  | high :: low :: rest => some (256 * high.toNat + low.toNat, rest)
  | _ => none

/-- A signed 16-bit integer, big-endian. -/
def Reader.i16 (rest : List UInt8) : Option (Int × List UInt8) :=
  (Reader.u16 rest).map fun (n, rest) => (signed16 n, rest)

/-- The groups announced, each in `0..BASE`. -/
def readGroups : Nat → List UInt8 → Option (List Nat)
  | 0, _ => some []
  | count + 1, rest =>
    match Reader.i16 rest with
    | none => none
    | some (group, rest) =>
      if 0 ≤ group ∧ group < base then (readGroups count rest).map (group.toNat :: ·)
      else none

/-! ## The text -/

/-- The group of rank `rank`, or zero: the groups missing before and after
those the server sends are worth zero. -/
def groupAt (groups : List Nat) (rank : Int) : Nat :=
  if rank < 0 then 0 else groups.getD rank.toNat 0

/-- The first group is written without padding, the next ones on four digits. -/
def integerPart (groups : List Nat) (weight : Int) : Str :=
  if weight < 0 then ['0']
  else (List.range (weight.toNat + 1)).flatMap fun (rank : Nat) =>
    if rank = 0 then numeral (groupAt groups rank) else padded 4 (groupAt groups rank)

/-- `while fraction.len() < dscale`, from `rank` on. -/
def fillFraction (groups : List Nat) (dscale : Nat) (rank : Int) (fraction : Str) : Option Str :=
  if fraction.length < dscale then
    if rank + 1 ≤ i32Max then
      fillFraction groups dscale (rank + 1) (fraction ++ padded 4 (groupAt groups rank))
    else none
  else some fraction
termination_by dscale - fraction.length
decreasing_by
  have := length_pos_iff.mpr (padded_ne_nil 4 (groupAt groups rank))
  rw [length_append]
  omega

/-- The text of a finite value whose header was accepted. -/
def renderFinite (negative : Bool) (weight : Int) (dscale : Nat) (groups : List Nat) :
    Option Str :=
  let out := (if negative then ['-'] else []) ++ integerPart groups weight
  if 0 < dscale then
    if weight + 1 ≤ i32Max then
      match fillFraction groups dscale (weight + 1) [] with
      | none => none
      | some fraction => some (out ++ '.' :: fraction.take dscale)
    else none
  else some out

/-- What follows the header of a value whose sign is finite. -/
def renderGroups (ndigits weight : Int) (negative : Bool) (dscale : Nat) (rest : List UInt8) :
    Option Str :=
  if ndigits < 0 ∨ maxGroups < ndigits then none
  else if maxDscale < dscale then none
  else
    match readGroups ndigits.toNat rest with
    | none => none
    | some groups =>
      if maxGroups < weight then none else renderFinite negative weight dscale groups

/-- Decodes a binary `NUMERIC` into its exact decimal text; nothing if the
bytes do not form a readable one. -/
def renderBinary (bytes : List UInt8) : Option Str :=
  match Reader.i16 bytes with
  | none => none
  | some (ndigits, rest) =>
    match Reader.i16 rest with
    | none => none
    | some (weight, rest) =>
      match Reader.u16 rest with
      | none => none
      | some (sign, rest) =>
        match Reader.u16 rest with
        | none => none
        | some (dscale, rest) =>
          if sign = 0xC000 then some "NaN".toList
          else if sign = 0xD000 then some "Infinity".toList
          else if sign = 0xF000 then some "-Infinity".toList
          else if sign = 0x0000 ∨ sign = 0x4000 then
            renderGroups ndigits weight (sign = 0x4000) dscale rest
          else none

/-! ## A finite value, as the server sends it -/

/-- A 16-bit word, big-endian. -/
def be16 (n : Nat) : List UInt8 := [UInt8.ofNat (n / 256), UInt8.ofNat n]

/-- A finite `NUMERIC` that fits the words of its format. -/
structure Encoding where
  negative : Bool
  weight : Int
  dscale : Nat
  groups : List Nat
  weight_ge : -32768 ≤ weight
  weight_le : weight ≤ 32767
  dscale_lt : dscale < 65536
  groups_le : groups.length ≤ 32767
  groups_lt : ∀ g ∈ groups, g < base

/-- The sum of the groups times their powers of 10,000, the first standing for
`10000 ^ weight`. -/
def magnitude (weight : Int) : List Nat → ℚ
  | [] => 0
  | g :: groups => g * 10000 ^ weight + magnitude (weight - 1) groups

namespace Encoding

variable (e : Encoding)

/-- As `numeric_send` writes it. -/
def bytes : List UInt8 :=
  be16 e.groups.length ++ be16 (e.weight % 65536).toNat ++
    be16 (if e.negative then 0x4000 else 0x0000) ++ be16 e.dscale ++ e.groups.flatMap be16

def value : ℚ := if e.negative then -magnitude e.weight e.groups else magnitude e.weight e.groups

/-- No digit other than zero lies past the display scale. -/
def Shown : Prop := ∃ n : Nat, magnitude e.weight e.groups * 10 ^ e.dscale = n

/-- The digits to show, as one number: those past the display scale are cut. -/
def shownDigits : Nat := ⌊magnitude e.weight e.groups * 10 ^ e.dscale⌋₊

def Normalized : Prop := (∀ g ∈ e.groups.head?, g ≠ 0) ∧ ∀ g ∈ e.groups.getLast?, g ≠ 0

/-- The text is the decimal text of the value, cut to `dscale` digits after the point. -/
def Prints (text : Str) : Prop :=
  (∃ whole decimals, whole ≠ [] ∧ Digits whole ∧ Digits decimals ∧
      decimals.length = e.dscale ∧ text = Decimal.text e.negative whole decimals) ∧
    Decimal.read text = some ⟨signed e.negative e.shownDigits, e.dscale⟩

def longest : Nat := 1 + max 1 (4 * (e.weight + 1).toNat) + (1 + e.dscale)

end Encoding

/-! ## The part of a value above the point -/

/-- The groups at the powers `p`, `p - 1`, … down to zero, as one number. -/
def cut (p : Int) : List Nat → Nat
  | [] => 0
  | g :: groups => if p < 0 then 0 else g * base ^ p.toNat + cut (p - 1) groups

theorem cut_of_neg {p : Int} (h : p < 0) (groups : List Nat) : cut p groups = 0 := by
  cases groups with
  | nil => rfl
  | cons g groups => exact if_pos h

variable {rank : Int}

theorem groupAt_of_neg (h : rank < 0) (groups : List Nat) :
    groupAt groups rank = 0 := if_pos h

theorem groupAt_nil (rank : Int) : groupAt [] rank = 0 := by
  unfold groupAt
  split
  · rfl
  · rfl

theorem groupAt_cons_zero (g : Nat) (groups : List Nat) : groupAt (g :: groups) 0 = g := rfl

theorem groupAt_cons_of_pos (h : 0 < rank) (g : Nat) (groups : List Nat) :
    groupAt (g :: groups) rank = groupAt groups (rank - 1) := by
  have hrank : rank.toNat = (rank - 1).toNat + 1 := by omega
  unfold groupAt
  rw [if_neg (by omega), if_neg (by omega), hrank, getD_cons_succ]

variable {groups : List Nat}

theorem groupAt_lt (h : ∀ g ∈ groups, g < base) (rank : Int) :
    groupAt groups rank < base := by
  have hbase : 0 < base := by
    unfold base
    omega
  unfold groupAt
  split
  · exact hbase
  · rw [getD_eq_getElem?_getD]
    cases hget : groups[rank.toNat]? with
    | none => exact hbase
    | some g => exact h g (mem_of_getElem? hget)

theorem cut_succ (p : Int) (groups : List Nat) :
    cut (p + 1) groups = cut p groups * base + groupAt groups (p + 1) := by
  induction groups generalizing p with
  | nil => rw [groupAt_nil, cut, cut, Nat.zero_mul]
  | cons g groups ih =>
    rcases lt_trichotomy (p + 1) 0 with hneg | hzero | hpos
    · rw [cut_of_neg hneg, cut_of_neg (by omega), groupAt_of_neg hneg, Nat.zero_mul]
    · have hrest : cut (0 - 1) groups = 0 := cut_of_neg (by decide) groups
      rw [hzero, cut_of_neg (by omega : p < 0), groupAt_cons_zero, cut, if_neg (by omega), hrest,
        Int.toNat_zero, Nat.pow_zero, Nat.mul_one, Nat.zero_mul, Nat.zero_add, Nat.add_zero]
    · have hp : (p + 1).toNat = p.toNat + 1 := by omega
      have hprev : p + 1 - 1 = p - 1 + 1 := by omega
      rw [groupAt_cons_of_pos hpos, cut, if_neg (by omega), cut, if_neg (by omega), hprev, ih,
        hp, Nat.pow_succ, Nat.add_mul, Nat.mul_assoc, Nat.add_assoc]

theorem magnitude_nonneg (p : Int) (groups : List Nat) : 0 ≤ magnitude p groups := by
  induction groups generalizing p with
  | nil => exact le_rfl
  | cons g groups ih =>
    have hpow : (0 : ℚ) ≤ 10000 ^ p := zpow_nonneg (by norm_num) _
    exact add_nonneg (mul_nonneg (Nat.cast_nonneg g) hpow) (ih _)

theorem magnitude_lt (h : ∀ g ∈ groups, g < base) (p : Int) :
    magnitude p groups < 10000 ^ (p + 1) := by
  induction groups generalizing p with
  | nil => exact zpow_pos (by norm_num) _
  | cons g groups ih =>
    have hg : (g : ℚ) + 1 ≤ 10000 := by
      have := h g (mem_cons_self ..)
      exact_mod_cast this
    have hrest := ih (fun x hx => h x (mem_cons_of_mem g hx)) (p - 1)
    rw [Int.sub_add_cancel] at hrest
    have hpos : (0 : ℚ) < 10000 ^ p := zpow_pos (by norm_num) _
    calc magnitude p (g :: groups)
        = g * 10000 ^ p + magnitude (p - 1) groups := rfl
      _ < g * 10000 ^ p + 10000 ^ p := by linarith
      _ = (g + 1) * 10000 ^ p := by ring
      _ ≤ 10000 * 10000 ^ p := mul_le_mul_of_nonneg_right hg hpos.le
      _ = 10000 ^ (p + 1) := by rw [zpow_add_one₀ (by norm_num), mul_comm]

theorem floor_magnitude (h : ∀ g ∈ groups, g < base) (p : Int) :
    ⌊magnitude p groups⌋₊ = cut p groups := by
  induction groups generalizing p with
  | nil => exact Nat.floor_zero
  | cons g groups ih =>
    by_cases hp : p < 0
    · have hone : (10000 : ℚ) ^ (p + 1) ≤ 1 := zpow_le_one_of_nonpos₀ (by norm_num) (by omega)
      rw [cut_of_neg hp, Nat.floor_eq_zero]
      exact (magnitude_lt h p).trans_le hone
    · have hpow : (10000 : ℚ) ^ p = ((base ^ p.toNat : Nat) : ℚ) := by
        rw [Nat.cast_pow, ← zpow_natCast, Int.toNat_of_nonneg (by omega)]
        rfl
      have hrest := ih (fun x hx => h x (mem_cons_of_mem g hx)) (p - 1)
      rw [cut, if_neg hp, magnitude, hpow, ← Nat.cast_mul, add_comm,
        Nat.floor_add_natCast (magnitude_nonneg _ _), hrest, Nat.add_comm]

theorem magnitude_shift (p : Int) (k : Nat) (groups : List Nat) :
    magnitude p groups * 10000 ^ k = magnitude (p + k) groups := by
  induction groups generalizing p with
  | nil => exact zero_mul _
  | cons g groups ih =>
    have hpow : (10000 : ℚ) ^ (p + k) = 10000 ^ p * 10000 ^ k := by
      rw [zpow_add₀ (by norm_num), zpow_natCast]
    have hnext : p + k - 1 = p - 1 + k := by omega
    rw [magnitude, magnitude, add_mul, ih, hpow, hnext, mul_assoc]

/-! ## The text's number -/

theorem length_group (h : ∀ g ∈ groups, g < base) (rank : Int) :
    (padded 4 (groupAt groups rank)).length = 4 :=
  length_padded (by decide) (groupAt_lt h rank)

theorem value_group (h : ∀ g ∈ groups, g < base) {s : Str} (hs : value s = cut (rank - 1) groups) :
    value (s ++ padded 4 (groupAt groups rank)) = cut rank groups := by
  have hstep := cut_succ (rank - 1) groups
  rw [Int.sub_add_cancel] at hstep
  rw [value_append, length_group h, value_padded, hs, hstep]
  rfl

theorem integerPart_succ (groups : List Nat) (n : Nat) :
    integerPart groups ((n : Int) + 1) =
      integerPart groups n ++ padded 4 (groupAt groups ((n : Int) + 1)) := by
  have hn : ((n : Int) + 1).toNat = n + 1 := by omega
  have hn' : (n : Int).toNat = n := Int.toNat_natCast n
  unfold integerPart
  rw [if_neg (by omega), if_neg (by omega), hn, hn', range_succ (n := n + 1),
    flatMap_append, flatMap_singleton, if_neg (Nat.succ_ne_zero n)]
  rfl

theorem integerPart_zero (groups : List Nat) :
    integerPart groups 0 = numeral (groupAt groups 0) := by
  unfold integerPart
  rw [if_neg (lt_irrefl 0)]
  exact append_nil _

theorem integerPart_of_neg {weight : Int} (h : weight < 0) (groups : List Nat) :
    integerPart groups weight = ['0'] := if_pos h

theorem value_integerPart (h : ∀ g ∈ groups, g < base) (weight : Int) :
    value (integerPart groups weight) = cut weight groups := by
  by_cases hneg : weight < 0
  · rw [integerPart_of_neg hneg, cut_of_neg hneg]
    rfl
  · obtain ⟨n, rfl⟩ := Int.eq_ofNat_of_zero_le (Int.not_lt.mp hneg)
    induction n with
    | zero =>
      have hfirst := cut_succ (-1) groups
      rw [neg_add_cancel, cut_of_neg (by decide : (-1 : Int) < 0), Nat.zero_mul,
        Nat.zero_add] at hfirst
      exact (congrArg value (integerPart_zero groups)).trans
        ((value_numeral _).trans hfirst.symm)
    | succ n ih =>
      rw [Int.natCast_succ, integerPart_succ]
      refine value_group h ?_
      rw [Int.add_sub_cancel]
      exact ih (by omega)

theorem integerPart_digits (groups : List Nat) (weight : Int) :
    integerPart groups weight ≠ [] ∧ Digits (integerPart groups weight) := by
  by_cases hneg : weight < 0
  · rw [integerPart_of_neg hneg]
    exact ⟨cons_ne_nil _ _, by decide⟩
  · obtain ⟨n, rfl⟩ := Int.eq_ofNat_of_zero_le (Int.not_lt.mp hneg)
    induction n with
    | zero =>
      rw [Int.ofNat_zero, integerPart_zero]
      exact ⟨numeral_ne_nil _, digits_numeral _⟩
    | succ n ih =>
      obtain ⟨hne, hdigits⟩ := ih (by omega)
      rw [Int.natCast_succ, integerPart_succ]
      exact ⟨append_ne_nil_of_left_ne_nil hne _, hdigits.append (digits_padded _ _)⟩

theorem length_integerPart (h : ∀ g ∈ groups, g < base) (weight : Int) :
    (integerPart groups weight).length ≤ max 1 (4 * (weight + 1).toNat) := by
  by_cases hneg : weight < 0
  · rw [integerPart_of_neg hneg]
    exact le_max_left ..
  · obtain ⟨n, rfl⟩ := Int.eq_ofNat_of_zero_le (Int.not_lt.mp hneg)
    refine le_trans ?_ (le_max_right ..)
    induction n with
    | zero =>
      rw [Int.ofNat_zero, integerPart_zero]
      exact (length_numeral_le (by decide)).mpr (groupAt_lt h 0)
    | succ n ih =>
      have := ih (by omega)
      rw [Int.natCast_succ, integerPart_succ, length_append, length_group h]
      omega

/-- The fraction written so far: whole ranks, down to the one before `rank`. -/
structure Filled (groups : List Nat) (weight rank : Int) (fraction : Str) : Prop where
  digits : Digits fraction
  length : (fraction.length : Int) = 4 * (rank - (weight + 1))
  number : value (integerPart groups weight ++ fraction) = cut (rank - 1) groups

theorem fillFraction_filled (h : ∀ g ∈ groups, g < base) {weight rank : Int}
    {dscale : Nat} {fraction : Str} (hf : Filled groups weight rank fraction)
    (hrank : rank + (dscale - fraction.length : Nat) ≤ i32Max) :
    ∃ rank' filled, fillFraction groups dscale rank fraction = some filled ∧
      Filled groups weight rank' filled ∧ dscale ≤ filled.length := by
  fun_induction fillFraction groups dscale rank fraction with
  | case1 rank fraction hlt hfits ih =>
    refine ih ⟨hf.digits.append (digits_padded _ _), ?_, ?_⟩ ?_
    · rw [length_append, length_group h, Nat.cast_add, hf.length]
      push_cast
      ring
    · rw [← append_assoc, Int.add_sub_cancel]
      exact value_group h hf.number
    · rw [length_append, length_group h]
      omega
  | case2 rank fraction hlt hfits => omega
  | case3 rank fraction hlt => exact ⟨rank, fraction, rfl, hf, Nat.not_lt.mp hlt⟩

theorem Filled.shown {e : Encoding} {filled : Str}
    (h : Filled e.groups e.weight rank filled) (henough : e.dscale ≤ filled.length) :
    value (integerPart e.groups e.weight ++ filled.take e.dscale) = e.shownDigits := by
  obtain ⟨hne, hdigits⟩ := integerPart_digits e.groups e.weight
  obtain ⟨k, hk⟩ : ∃ k : Nat, rank = e.weight + 1 + k :=
    ⟨(rank - (e.weight + 1)).toNat, by have := h.length; omega⟩
  have hlen : filled.length = 4 * k := by
    have := h.length
    omega
  have hpow : (10000 : ℚ) ^ k = 10 ^ e.dscale * ((10 ^ (filled.length - e.dscale) : Nat) : ℚ) := by
    rw [Nat.cast_pow, Nat.cast_ofNat, ← pow_add, Nat.add_sub_cancel' henough, hlen, pow_mul]
    norm_num
  have hten : ((10 ^ (filled.length - e.dscale) : Nat) : ℚ) ≠ 0 := by positivity
  have hshift : magnitude e.weight e.groups * 10 ^ e.dscale =
      magnitude (rank - 1) e.groups / ((10 ^ (filled.length - e.dscale) : Nat) : ℚ) := by
    have hrank : rank - 1 = e.weight + k := by omega
    rw [eq_div_iff hten, mul_assoc, ← hpow, magnitude_shift, hrank]
  have htake : integerPart e.groups e.weight ++ filled.take e.dscale =
      (integerPart e.groups e.weight ++ filled).take
        ((integerPart e.groups e.weight).length + e.dscale) := by
    rw [take_length_add_append]
  rw [Encoding.shownDigits, hshift, Nat.floor_div_natCast, floor_magnitude e.groups_lt, htake,
    value_take (hdigits.append h.digits), h.number, length_append, Nat.add_sub_add_left]

theorem renderFinite_prints (e : Encoding) (hw : e.weight ≤ maxGroups)
    (hd : e.dscale ≤ maxDscale) :
    ∃ text, renderFinite e.negative e.weight e.dscale e.groups = some text ∧ e.Prints text ∧
      text.length ≤ e.longest := by
  obtain ⟨hne, hdigits⟩ := integerPart_digits e.groups e.weight
  have hfloor := floor_magnitude e.groups_lt e.weight
  have hvalue := value_integerPart e.groups_lt e.weight
  have hlength := length_integerPart e.groups_lt e.weight
  have hsign : (if e.negative then ['-'] else []).length ≤ 1 := by
    cases e.negative <;> decide
  unfold renderFinite
  dsimp only
  by_cases hzero : 0 < e.dscale
  · have hweight := e.weight_ge
    have hmax : (maxGroups : Int) = 4096 := rfl
    have hscale : maxDscale = 16384 := rfl
    have hi32 : i32Max = 2147483647 := rfl
    have hstart : Filled e.groups e.weight (e.weight + 1) [] := by
      refine ⟨Digits.nil, ?_, ?_⟩
      · rw [Int.sub_self]
        rfl
      · rw [append_nil, Int.add_sub_cancel]
        exact hvalue
    have hfar : e.weight + 1 + (e.dscale - ([] : Str).length : Nat) ≤ i32Max := by
      rw [length_nil, hi32]
      omega
    obtain ⟨rank, filled, hfill, hf, henough⟩ := fillFraction_filled e.groups_lt hstart hfar
    have hcut : (filled.take e.dscale).length = e.dscale := by
      rw [length_take]
      exact Nat.min_eq_left henough
    have hdecimals : Digits (filled.take e.dscale) := hf.digits.sublist (take_sublist ..)
    have hnil : filled.take e.dscale ≠ [] := by
      intro h
      rw [h] at hcut
      exact absurd hcut hzero.ne
    have htext : (if e.negative then ['-'] else []) ++ integerPart e.groups e.weight ++
        '.' :: filled.take e.dscale =
        Decimal.text e.negative (integerPart e.groups e.weight) (filled.take e.dscale) := by
      rw [Decimal.text, if_neg hnil]
    rw [if_pos hzero, if_pos (by rw [hi32]; omega), hfill]
    refine ⟨_, rfl, ⟨⟨_, _, hne, hdigits, hdecimals, hcut, htext⟩, ?_⟩, ?_⟩
    · rw [htext, read_text hne hdigits hdecimals, hcut, hf.shown henough]
    · rw [length_append, length_append, length_cons, hcut, Encoding.longest]
      omega
  · have hscale : e.dscale = 0 := Nat.eq_zero_of_not_pos hzero
    have htext : (if e.negative then ['-'] else []) ++ integerPart e.groups e.weight =
        Decimal.text e.negative (integerPart e.groups e.weight) [] := by
      rw [Decimal.text, if_pos rfl, append_nil]
    rw [if_neg hzero]
    refine ⟨_, rfl, ⟨⟨_, [], hne, hdigits, Digits.nil, hscale.symm, htext⟩, ?_⟩, ?_⟩
    · rw [htext, read_text hne hdigits Digits.nil, append_nil, hvalue, hscale,
        Encoding.shownDigits, hscale, pow_zero, mul_one, hfloor]
      rfl
    · rw [length_append, Encoding.longest]
      omega

variable {text : Str}

theorem Encoding.Prints.exact {e : Encoding} (h : e.Prints text) (hshown : e.Shown) :
    ∃ r, Decimal.read text = some r ∧ (r.mantissa : ℚ) / 10 ^ r.scale = e.value ∧
      r.scale = e.dscale := by
  obtain ⟨n, hn⟩ := hshown
  have hten : (10 : ℚ) ^ e.dscale ≠ 0 := by positivity
  have hdigits : e.shownDigits = n := by
    rw [Encoding.shownDigits, hn, Nat.floor_natCast]
  have hmagnitude : (n : ℚ) / 10 ^ e.dscale = magnitude e.weight e.groups := by
    rw [← hn, mul_div_cancel_right₀ _ hten]
  refine ⟨_, h.2, ?_, rfl⟩
  rw [hdigits, Encoding.value, ← hmagnitude]
  cases e.negative with
  | true => simp [signed, neg_div]
  | false => simp [signed]

theorem Encoding.Prints.inj {e e' : Encoding} (h : e.Prints text)
    (h' : e'.Prints text) (hshown : e.Shown) (hshown' : e'.Shown) :
    e.value = e'.value ∧ e.dscale = e'.dscale := by
  obtain ⟨r, hread, hvalue, hscale⟩ := h.exact hshown
  obtain ⟨r', hread', hvalue', hscale'⟩ := h'.exact hshown'
  obtain rfl : r = r' := Option.some.inj (hread.symm.trans hread')
  exact ⟨hvalue.symm.trans hvalue', hscale.symm.trans hscale'⟩

/-! ## The bytes -/

variable {n : Nat}

theorem u16_be16 (h : n < 65536) (rest : List UInt8) :
    Reader.u16 (be16 n ++ rest) = some (n, rest) := by
  change some (256 * (UInt8.ofNat (n / 256)).toNat + (UInt8.ofNat n).toNat, rest) = _
  rw [UInt8.toNat_ofNat', UInt8.toNat_ofNat']
  congr 2
  omega

theorem u16_eq_some {bytes rest : List UInt8} (h : Reader.u16 bytes = some (n, rest)) :
    bytes = be16 n ++ rest ∧ n < 65536 := by
  unfold Reader.u16 at h
  split at h
  next high low rest' =>
    obtain ⟨rfl, rfl⟩ := Prod.mk.inj (Option.some.inj h)
    have hhigh := high.toNat_lt
    have hlow := low.toNat_lt
    refine ⟨?_, by omega⟩
    have h₁ : UInt8.ofNat ((256 * high.toNat + low.toNat) / 256) = high := by
      rw [← UInt8.toNat_inj, UInt8.toNat_ofNat']
      omega
    have h₂ : UInt8.ofNat (256 * high.toNat + low.toNat) = low := by
      rw [← UInt8.toNat_inj, UInt8.toNat_ofNat']
      omega
    rw [be16, h₁, h₂]
    rfl
  next => cases h

theorem i16_be16 (h : n < 65536) (rest : List UInt8) :
    Reader.i16 (be16 n ++ rest) = some (signed16 n, rest) := by
  rw [Reader.i16, u16_be16 h]
  rfl

theorem i16_eq_some {bytes rest : List UInt8} {z : Int} (h : Reader.i16 bytes = some (z, rest)) :
    ∃ n, z = signed16 n ∧ n < 65536 ∧ bytes = be16 n ++ rest := by
  obtain ⟨⟨n, rest'⟩, hread, heq⟩ := Option.map_eq_some_iff.mp h
  obtain ⟨rfl, rfl⟩ := Prod.mk.inj heq
  obtain ⟨hbytes, hn⟩ := u16_eq_some hread
  exact ⟨n, rfl, hn, hbytes⟩

theorem signed16_of_lt (h : n < 32768) : signed16 n = n := if_pos h

theorem signed16_emod {z : Int} (hlow : -32768 ≤ z) (hhigh : z ≤ 32767) :
    signed16 (z % 65536).toNat = z := by
  unfold signed16
  split
  · omega
  · omega

theorem signed16_bounds (h : n < 65536) :
    -32768 ≤ signed16 n ∧ signed16 n ≤ 32767 ∧ (signed16 n % 65536).toNat = n := by
  unfold signed16
  split
  · omega
  · omega

theorem readGroups_flatMap (h : ∀ g ∈ groups, g < base) (rest : List UInt8) :
    readGroups groups.length (groups.flatMap be16 ++ rest) = some groups := by
  induction groups with
  | nil => rfl
  | cons g groups ih =>
    have hbase : base = 10000 := rfl
    have hg := h g (mem_cons_self ..)
    have hrest := ih fun x hx => h x (mem_cons_of_mem g hx)
    rw [length_cons, flatMap_cons, append_assoc, readGroups,
      i16_be16 (by omega), signed16_of_lt (by omega)]
    dsimp only
    rw [if_pos ⟨by omega, by omega⟩, hrest]
    rfl

theorem readGroups_eq_some {count : Nat} {bytes : List UInt8}
    (h : readGroups count bytes = some groups) :
    groups.length = count ∧ (∀ g ∈ groups, g < base) ∧
      ∃ rest, bytes = groups.flatMap be16 ++ rest := by
  induction count generalizing bytes groups with
  | zero =>
    obtain rfl : [] = groups := Option.some.inj h
    exact ⟨rfl, fun g hg => absurd hg not_mem_nil, bytes, rfl⟩
  | succ count ih =>
    unfold readGroups at h
    split at h
    next => cases h
    next group rest hread =>
      split at h
      next hgroup =>
        obtain ⟨groups', hgroups, rfl⟩ := Option.map_eq_some_iff.mp h
        obtain ⟨n, rfl, hn, rfl⟩ := i16_eq_some hread
        obtain ⟨hlen, hlt, rest', rfl⟩ := ih hgroups
        have hbase : base = 10000 := rfl
        have hword : (signed16 n).toNat = n := by
          have hfits := hgroup
          unfold signed16 at hfits ⊢
          split
          · omega
          · omega
        refine ⟨congrArg Nat.succ hlen, ?_, rest', ?_⟩
        · intro g hg
          rcases mem_cons.mp hg with rfl | hg
          · omega
          · exact hlt g hg
        · rw [hword, flatMap_cons, append_assoc]
      next => cases h

theorem renderBinary_bytes (e : Encoding) (rest : List UInt8) :
    renderBinary (e.bytes ++ rest) =
      if e.groups.length ≤ maxGroups ∧ e.dscale ≤ maxDscale ∧ e.weight ≤ maxGroups then
        renderFinite e.negative e.weight e.dscale e.groups
      else none := by
  have hcount := e.groups_le
  have hlow := e.weight_ge
  have hhigh := e.weight_le
  have hsign : (if e.negative then 0x4000 else 0x0000) < 65536 := by
    cases e.negative <;> decide
  have hgroups := readGroups_flatMap e.groups_lt rest
  unfold renderBinary Encoding.bytes
  simp only [append_assoc]
  rw [i16_be16 (by omega), signed16_of_lt (by omega)]
  dsimp only
  rw [i16_be16 (by omega), signed16_emod hlow hhigh]
  dsimp only
  rw [u16_be16 hsign]
  dsimp only
  rw [u16_be16 e.dscale_lt]
  dsimp only
  have hfinite : renderGroups e.groups.length e.weight e.negative e.dscale
      (e.groups.flatMap be16 ++ rest) =
      if e.groups.length ≤ maxGroups ∧ e.dscale ≤ maxDscale ∧ e.weight ≤ maxGroups then
        renderFinite e.negative e.weight e.dscale e.groups
      else none := by
    unfold renderGroups
    rw [Int.toNat_natCast, hgroups]
    by_cases h₁ : e.groups.length ≤ maxGroups
    · by_cases h₂ : e.dscale ≤ maxDscale
      · by_cases h₃ : e.weight ≤ maxGroups
        · rw [if_neg (by omega), if_neg (by omega), if_pos ⟨h₁, h₂, h₃⟩]
          exact if_neg (by omega)
        · rw [if_neg (by omega), if_neg (by omega), if_neg (fun h => h₃ h.2.2)]
          exact if_pos (by omega)
      · rw [if_neg (by omega), if_pos (by omega), if_neg (fun h => h₂ h.2.1)]
    · rw [if_pos (by omega), if_neg (fun h => h₁ h.1)]
  rw [← hfinite]
  cases e.negative <;> rfl

/-- The sign words of the values that are no number, and their texts. -/
def Special (sign : Nat) (text : Str) : Prop :=
  (sign = 0xC000 ∧ text = "NaN".toList) ∨ (sign = 0xD000 ∧ text = "Infinity".toList) ∨
    (sign = 0xF000 ∧ text = "-Infinity".toList)

theorem renderBinary_eq_some {bytes : List UInt8} (h : renderBinary bytes = some text) :
    (∃ ndigits weight sign dscale rest,
      bytes = be16 ndigits ++ be16 weight ++ be16 sign ++ be16 dscale ++ rest ∧
        Special sign text) ∨
      ∃ (e : Encoding) (rest : List UInt8), bytes = e.bytes ++ rest := by
  unfold renderBinary at h
  split at h
  next => cases h
  next ndigits rest₁ h₁ =>
  split at h
  next => cases h
  next weight rest₂ h₂ =>
  split at h
  next => cases h
  next sign rest₃ h₃ =>
  split at h
  next => cases h
  next dscale rest₄ h₄ =>
  obtain ⟨n, rfl, hn, rfl⟩ := i16_eq_some h₁
  obtain ⟨w, rfl, hw, rfl⟩ := i16_eq_some h₂
  obtain ⟨rfl, hsign⟩ := u16_eq_some h₃
  obtain ⟨rfl, hdscale⟩ := u16_eq_some h₄
  have hspecial (hs : Special sign text) :
      ∃ ndigits weight sign' dscale' rest,
        be16 n ++ (be16 w ++ (be16 sign ++ (be16 dscale ++ rest₄))) =
          be16 ndigits ++ be16 weight ++ be16 sign' ++ be16 dscale' ++ rest ∧
        Special sign' text :=
    ⟨n, w, sign, dscale, rest₄, by simp only [append_assoc], hs⟩
  split at h
  next hs => exact .inl (hspecial (.inl ⟨hs, (Option.some.inj h).symm⟩))
  split at h
  next hs => exact .inl (hspecial (.inr (.inl ⟨hs, (Option.some.inj h).symm⟩)))
  split at h
  next hs => exact .inl (hspecial (.inr (.inr ⟨hs, (Option.some.inj h).symm⟩)))
  split at h
  next hs =>
    right
    unfold renderGroups at h
    split at h
    next => cases h
    next hbounds =>
    split at h
    next => cases h
    next =>
    split at h
    next => cases h
    next groups hgroups =>
    obtain ⟨hlen, hlt, rest, rfl⟩ := readGroups_eq_some hgroups
    obtain ⟨hlow, hhigh, hword⟩ := signed16_bounds hw
    obtain ⟨-, hcount, hcountWord⟩ := signed16_bounds hn
    have hcountNat : groups.length = n := by omega
    have hsignWord : (if decide (sign = 0x4000) then 0x4000 else 0x0000) = sign := by
      rcases hs with rfl | rfl <;> rfl
    refine ⟨⟨decide (sign = 0x4000), signed16 w, dscale, groups, hlow, hhigh, hdscale,
      by omega, hlt⟩, rest, ?_⟩
    simp only [Encoding.bytes, hcountNat, hword, hsignWord, append_assoc]
  next => cases h

theorem Encoding.longest_le {e : Encoding} (hw : e.weight ≤ maxGroups)
    (hd : e.dscale ≤ maxDscale) : e.longest ≤ 32774 := by
  have hgroups : maxGroups = 4096 := rfl
  have hscale : maxDscale = 16384 := rfl
  unfold Encoding.longest
  omega

theorem renderBinary_of_bounded (e : Encoding) (rest : List UInt8)
    (h : e.groups.length ≤ maxGroups ∧ e.dscale ≤ maxDscale ∧ e.weight ≤ maxGroups) :
    ∃ text, renderBinary (e.bytes ++ rest) = some text ∧ e.Prints text ∧
      text.length ≤ e.longest := by
  obtain ⟨text, hrender, hprints, hlength⟩ := renderFinite_prints e h.2.2 h.2.1
  rw [renderBinary_bytes, if_pos h]
  exact ⟨text, hrender, hprints, hlength⟩

theorem bounded_of_renderBinary {e : Encoding} {rest : List UInt8}
    (h : renderBinary (e.bytes ++ rest) = some text) :
    (e.groups.length ≤ maxGroups ∧ e.dscale ≤ maxDscale ∧ e.weight ≤ maxGroups) ∧
      e.Prints text ∧ text.length ≤ e.longest := by
  rw [renderBinary_bytes] at h
  split at h
  next hbounded =>
    obtain ⟨text', hrender, hprints, hlength⟩ := renderFinite_prints e hbounded.2.2 hbounded.2.1
    obtain rfl : text' = text := Option.some.inj (hrender.symm.trans h)
    exact ⟨hbounded, hprints, hlength⟩
  next => cases h

/-- A first group worth 10,000 to the power 4097. -/
def tooHeavy : Encoding :=
  ⟨false, 4097, 0, [1], by decide, by decide, by decide, by decide, by decide⟩

/-- A value whose only group is below the point, under a scale of zero. -/
def hidden (g : Nat) (h : g < base) : Encoding :=
  ⟨false, -1, 0, [g], by decide, by decide, by decide, by simp,
    fun _ hmem => mem_singleton.mp hmem ▸ h⟩

/-- A normalized value of weight 4097 is refused, and two normalized values whose only digits lie
past their scale print one text. -/
theorem normalized_not_enough :
    (¬ ∀ e : Encoding, e.Normalized → e.dscale ≤ 16383 →
        ∃ text, renderBinary e.bytes = some text) ∧
      ¬ ∀ e e' : Encoding, e.Normalized → e'.Normalized → ∀ text,
        renderBinary e.bytes = some text → renderBinary e'.bytes = some text →
          e.value = e'.value ∧ e.dscale = e'.dscale := by
  constructor
  · intro h
    obtain ⟨text, htext⟩ := h tooHeavy ⟨by decide, by decide⟩ (by decide)
    have hnone : renderBinary tooHeavy.bytes = none := by decide
    rw [hnone] at htext
    cases htext
  · intro h
    have hvalues := (h (hidden 1 (by decide)) (hidden 2 (by decide)) ⟨by decide, by decide⟩
      ⟨by decide, by decide⟩ ['0'] (by decide) (by decide)).1
    norm_num [Encoding.value, hidden, magnitude] at hvalues

/-- For every byte string: nothing, one of the special texts, or the decimal text of the finite
value the bytes begin with, no longer than its weight and scale allow. A text that hides no digit
reads back as the value, and two values print one text only if they and their scales are the same.
-/
theorem render_binary_exact :
    (∀ bytes text, renderBinary bytes = some text →
      (∃ ndigits weight sign dscale rest,
        bytes = be16 ndigits ++ be16 weight ++ be16 sign ++ be16 dscale ++ rest ∧
          Special sign text) ∨
        ∃ (e : Encoding) (rest : List UInt8), bytes = e.bytes ++ rest ∧ e.Prints text ∧
          text.length ≤ e.longest ∧ text.length ≤ 32774 ∧
          (e.Shown → ∃ r, Decimal.read text = some r ∧ (r.mantissa : ℚ) / 10 ^ r.scale = e.value)) ∧
      (∀ (e : Encoding) (rest : List UInt8),
        (∃ text, renderBinary (e.bytes ++ rest) = some text) ↔
          e.groups.length ≤ 4096 ∧ e.dscale ≤ 16384 ∧ e.weight ≤ 4096) ∧
      ∀ (e e' : Encoding) (text : Str), renderBinary e.bytes = some text →
        renderBinary e'.bytes = some text → e.Shown → e'.Shown →
          e.value = e'.value ∧ e.dscale = e'.dscale := by
  refine ⟨?_, ?_, ?_⟩
  · intro bytes text h
    rcases renderBinary_eq_some h with hspecial | ⟨e, rest, rfl⟩
    · exact .inl hspecial
    · obtain ⟨⟨-, hdscale, hweight⟩, hprints, hlength⟩ := bounded_of_renderBinary h
      refine .inr ⟨e, rest, rfl, hprints, hlength,
        hlength.trans (Encoding.longest_le hweight hdscale), fun hshown => ?_⟩
      obtain ⟨r, hread, hvalue, -⟩ := hprints.exact hshown
      exact ⟨r, hread, hvalue⟩
  · intro e rest
    constructor
    · rintro ⟨text, h⟩
      obtain ⟨⟨hcount, hdscale, hweight⟩, -⟩ := bounded_of_renderBinary h
      exact ⟨hcount, hdscale, hweight⟩
    · rintro ⟨hcount, hdscale, hweight⟩
      obtain ⟨text, h, -⟩ := renderBinary_of_bounded e rest ⟨hcount, hdscale, hweight⟩
      exact ⟨text, h⟩
  · intro e e' text h h' hshown hshown'
    rw [← append_nil e.bytes] at h
    rw [← append_nil e'.bytes] at h'
    obtain ⟨-, hprints, -⟩ := bounded_of_renderBinary h
    obtain ⟨-, hprints', -⟩ := bounded_of_renderBinary h'
    exact hprints.inj hprints' hshown hshown'

end Oxyn.Postgres.Numeric
