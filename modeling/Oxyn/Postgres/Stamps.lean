/-
# `Oxyn.Postgres.Stamps` — dates and timestamps, read back from their texts

The readers know nothing of the driver: a date is three numbers with hyphens, its era at the end;
a clock is hours, minutes, seconds and a fraction of a second.
-/
import Oxyn.Postgres.Julian

namespace Oxyn.Postgres.Datetime

open Text Decimal Gregorian List

/-! ## The readers -/

/-- The rest of a text that begins with `c`. -/
def expect (c : Char) (s : Str) : Option Str := if s.head? = some c then some s.tail else none

@[simp] theorem expect_cons (c : Char) (s : Str) : expect c (c :: s) = some s := if_pos rfl

/-- `Y-M-D`, and the rest. -/
def readDate (s : Str) : Option ((Nat × Nat × Nat) × Str) := do
  let (year, s) ← readDigits s
  let s ← expect '-' s
  let (month, s) ← readDigits s
  let s ← expect '-' s
  let (day, s) ← readDigits s
  some ((year, month, day), s)

/-- The microseconds of a fraction of a second, and the rest. -/
def readFraction (s : Str) : Nat × Str :=
  if s.head? = some '.' then
    (value (s.tail.takeWhile Char.isDigit) *
      10 ^ (fractionDigits - (s.tail.takeWhile Char.isDigit).length),
      s.tail.dropWhile Char.isDigit)
  else (0, s)

/-- `H:M:S[.f]` as microseconds, and the rest. -/
def readClock (s : Str) : Option (Nat × Str) := do
  let (hours, s) ← readDigits s
  let s ← expect ':' s
  let (minutes, s) ← readDigits s
  let s ← expect ':' s
  let (seconds, s) ← readDigits s
  some (hours * 3600000000 + minutes * 60000000 + seconds * 1000000 + (readFraction s).1,
    (readFraction s).2)

/-- What ends a text: nothing, or the mark of the years before 1. -/
def readEra (s : Str) : Option Bool :=
  if s = [] then some false else if s = " BC".toList then some true else none

def ofEra (bc : Bool) (ymd : Nat × Nat × Nat) : Ymd :=
  ⟨if bc then 1 - ymd.1 else ymd.1, ymd.2.1, ymd.2.2⟩

def readDateText (s : Str) : Option Ymd := do
  let (ymd, s) ← readDate s
  let bc ← readEra s
  some (ofEra bc ymd)

/-- A timestamp's text, in UTC or without a zone: the date, and the microseconds since its
midnight. -/
def readStampText (s : Str) : Option (Ymd × Nat) := do
  let (ymd, s) ← readDate s
  let s ← expect ' ' s
  let (micros, s) ← readClock s
  let bc ← readEra (if "+00".toList.isPrefixOf s then s.drop 3 else s)
  some (ofEra bc ymd, micros)

/-! ## What is printed is read -/

theorem signedPadded_natCast (width n : Nat) : signedPadded width n = padded width n := by
  unfold signedPadded
  rw [if_neg (by omega), Int.natAbs_natCast]

/-- The year a date is printed under. -/
def eraYear (ymd : Ymd) : Nat := if 0 < ymd.year then ymd.year.toNat else (1 - ymd.year).toNat

theorem pushDate_eq {ymd : Ymd} (h : -9223372036854775806 ≤ ymd.year) :
    pushDate ymd =
      some (padded 4 (eraYear ymd) ++ '-' :: padded 2 ymd.month ++ '-' :: padded 2 ymd.day) := by
  unfold pushDate eraYear
  by_cases hyear : 0 < ymd.year
  · rw [if_pos hyear, if_pos hyear, Option.map_some]
    have hcast : ymd.year = (ymd.year.toNat : Int) := by omega
    rw [hcast, signedPadded_natCast, Int.toNat_natCast]
  · rw [if_neg hyear, if_neg hyear, i64_of (by omega), Option.map_some]
    have hcast : 1 - ymd.year = ((1 - ymd.year).toNat : Int) := by omega
    rw [hcast, signedPadded_natCast, Int.toNat_natCast]

theorem ofEra_eraYear (ymd : Ymd) :
    ofEra (decide (ymd.year ≤ 0)) (eraYear ymd, ymd.month, ymd.day) = ymd := by
  unfold ofEra eraYear
  by_cases hyear : 0 < ymd.year
  · have hbc : decide (ymd.year ≤ 0) = false := decide_eq_false (by omega)
    have hcast : ((ymd.year.toNat : Nat) : Int) = ymd.year := by omega
    rw [hbc, if_pos hyear, if_neg Bool.false_ne_true]
    dsimp only
    rw [hcast]
  · have hbc : decide (ymd.year ≤ 0) = true := decide_eq_true (by omega)
    have hcast : (1 : Int) - ((1 - ymd.year).toNat : Nat) = ymd.year := by omega
    rw [hbc, if_neg hyear, if_pos rfl]
    dsimp only
    rw [hcast]

theorem readEra_pushEra (ymd : Ymd) : readEra (pushEra ymd) = some (decide (ymd.year ≤ 0)) := by
  unfold pushEra
  by_cases hyear : ymd.year ≤ 0
  · rw [if_pos hyear, decide_eq_true hyear]
    rfl
  · rw [if_neg hyear, decide_eq_false hyear]
    rfl

theorem pushEra_head {ymd : Ymd} : ∀ c ∈ (pushEra ymd).head?, c = ' ' := by
  unfold pushEra
  split
  · rintro c ⟨⟩
    rfl
  · intro c h
    cases h

theorem stops_pushEra (ymd : Ymd) : Stops (pushEra ymd) := by
  intro c hc
  rw [pushEra_head c hc]
  rfl

variable {rest : Str}

theorem readDate_printed (year month day : Nat) (hrest : Stops rest) :
    readDate (padded 4 year ++ '-' :: padded 2 month ++ '-' :: padded 2 day ++ rest) =
      some ((year, month, day), rest) := by
  have hyphen (s : Str) : Stops ('-' :: s) := stops_cons rfl s
  unfold readDate
  simp only [append_assoc, cons_append]
  rw [bind_of_eq (readDigits_padded 4 year (hyphen _)), bind_of_eq (expect_cons ..),
    bind_of_eq (readDigits_padded 2 month (hyphen _)), bind_of_eq (expect_cons ..),
    bind_of_eq (readDigits_padded 2 day hrest)]

/-! ## The clock -/

theorem dropZeros_spec {fraction width : Nat} (h : fraction < 10 ^ width) :
    (dropZeros fraction width).2 ≤ width ∧
      (0 < width → 0 < (dropZeros fraction width).2) ∧
      (dropZeros fraction width).1 < 10 ^ (dropZeros fraction width).2 ∧
      (dropZeros fraction width).1 * 10 ^ (width - (dropZeros fraction width).2) = fraction := by
  induction width generalizing fraction with
  | zero =>
    refine ⟨le_rfl, id, h, ?_⟩
    exact Nat.mul_one fraction
  | succ width ih =>
    unfold dropZeros
    split
    next hzero =>
      have hpow : 10 ^ (width + 1) = 10 ^ width * 10 := Nat.pow_succ ..
      have htenth : fraction / 10 < 10 ^ width := by omega
      obtain ⟨hle, hpos, hlt, hvalue⟩ := ih htenth
      refine ⟨by omega, fun _ => hpos (by omega), hlt, ?_⟩
      have hwidth : width + 1 - (dropZeros (fraction / 10) width).2 =
          width - (dropZeros (fraction / 10) width).2 + 1 := by omega
      rw [hwidth, Nat.pow_succ, ← Nat.mul_assoc, hvalue]
      omega
    next => exact ⟨le_rfl, id, h, by rw [Nat.sub_self, Nat.pow_zero, Nat.mul_one]⟩

/-- What may follow a clock: no digit, and no point. -/
def AfterClock (rest : Str) : Prop := Stops rest ∧ rest.head? ≠ some '.'

variable {fraction : Nat}

theorem readFraction_printed (h : fraction < 1000000) (hrest : AfterClock rest) :
    readFraction ((if fraction ≠ 0 then
      '.' :: padded (dropZeros fraction fractionDigits).2 (dropZeros fraction fractionDigits).1
      else []) ++ rest) = (fraction, rest) := by
  unfold readFraction
  by_cases hzero : fraction = 0
  · rw [if_neg (not_not_intro hzero), nil_append, if_neg hrest.2, hzero]
  · have hfits : fraction < 10 ^ fractionDigits := h
    obtain ⟨-, hpos, hlt, hvalue⟩ := dropZeros_spec hfits
    obtain ⟨htake, hdrop⟩ := takeWhile_digits_append (digits_padded
      (dropZeros fraction fractionDigits).2 (dropZeros fraction fractionDigits).1) hrest.1
    have hlength := length_padded (hpos (by decide)) hlt
    rw [if_pos hzero]
    change (value ((_ ++ rest).takeWhile Char.isDigit) *
      10 ^ (fractionDigits - ((_ ++ rest).takeWhile Char.isDigit).length),
        (_ ++ rest).dropWhile Char.isDigit) = _
    rw [htake, hdrop, value_padded, hlength, hvalue]

/-- `HH:MM:SS[.ffffff]`. -/
def clockText (hours minutes seconds fraction : Nat) : Str :=
  padded 2 hours ++ ':' :: padded 2 minutes ++ ':' :: pushSeconds seconds fraction

theorem stops_seconds (hrest : Stops rest) (s : Str) :
    Stops ((if fraction ≠ 0 then '.' :: s else []) ++ rest) := by
  split
  · exact stops_cons rfl _
  · exact hrest

theorem readClock_clockText (hours minutes seconds : Nat)
    (h : fraction < 1000000) (hrest : AfterClock rest) :
    readClock (clockText hours minutes seconds fraction ++ rest) =
      some (hours * 3600000000 + minutes * 60000000 + seconds * 1000000 + fraction, rest) := by
  have hcolon (s : Str) : Stops (':' :: s) := stops_cons rfl s
  unfold readClock clockText pushSeconds
  simp only [append_assoc, cons_append]
  rw [bind_of_eq (readDigits_padded 2 hours (hcolon _)), bind_of_eq (expect_cons ..),
    bind_of_eq (readDigits_padded 2 minutes (hcolon _)), bind_of_eq (expect_cons ..),
    bind_of_eq (readDigits_padded 2 seconds (stops_seconds hrest.1 _))]
  dsimp only
  rw [readFraction_printed h hrest]

theorem pushClock_natCast (micros : Nat) :
    pushClock micros = clockText (micros / 3600000000) (micros % 3600000000 / 60000000)
      (micros % 60000000 / 1000000) (micros % 1000000) := by
  have hdiv (a b : Nat) : (a : Int).tdiv b = ((a / b : Nat) : Int) := rfl
  have hmod (a b : Nat) : (a : Int).tmod b = ((a % b : Nat) : Int) := rfl
  unfold pushClock clockText
  have hh : usecsPerHour = ((3600000000 : Nat) : Int) := rfl
  have hm : usecsPerMinute = ((60000000 : Nat) : Int) := rfl
  have hs : usecsPerSec = ((1000000 : Nat) : Int) := rfl
  dsimp only
  rw [hh, hm, hs, hdiv, hmod, hmod, hmod, hdiv, hdiv, signedPadded_natCast, signedPadded_natCast,
    Int.natAbs_natCast, Int.natAbs_natCast]

/-! ## Dates and timestamps -/

theorem julian_year (n : Nat) : -4800 ≤ (julian n).year := by
  have hvalid := julian_valid n
  have hnumber := dayNumber_julian n
  obtain ⟨-, hlast⟩ := dayOfYear_bounds hvalid
  have hyear := yearStart_succ (julian n).year
  by_contra hlow
  have hbefore : yearStart ((julian n).year + 1) ≤ yearStart (-4799) := by
    unfold yearStart
    omega
  have hstart : yearStart (-4799) = -1752798 := by decide
  unfold dayNumber at hnumber
  omega

theorem pushDate_julian (n : Nat) :
    pushDate (julian n) = some (padded 4 (eraYear (julian n)) ++ '-' ::
      padded 2 (julian n).month ++ '-' :: padded 2 (julian n).day) := by
  refine pushDate_eq ?_
  have := julian_year n
  omega

/-- The text of a special value; that of a value whose Julian day is in range; an error beyond it.
-/
def Renders (outcome : Outcome) (special : Option Str) (julianDay : Int) (Reads : Str → Prop)
    (error : Str) : Prop :=
  match special with
  | some text => outcome = some (.ok text)
  | none =>
    if 0 ≤ julianDay ∧ julianDay ≤ i32Max then
      ∃ text, outcome = some (.ok text) ∧ Reads text
    else outcome = some (.error error)

theorem date_renders (days : Int32) :
    Renders (date days) (specialI32 days) (days.toInt + postgresEpochJdate)
      (fun text => readDateText text =
        some (julian (days.toInt + postgresEpochJdate).toNat))
      "date out of range".toList := by
  have hlow := days.le_toInt
  have hhigh := days.toInt_lt
  have hepoch : postgresEpochJdate = 2451545 := rfl
  unfold Renders date
  cases hspecial : specialI32 days with
  | some text => rfl
  | none =>
    dsimp only
    rw [i64_bind (by omega), bind_of_eq (julianToDate_eq _)]
    by_cases hrange : 0 ≤ days.toInt + postgresEpochJdate ∧
        days.toInt + postgresEpochJdate ≤ i32Max
    · rw [if_pos hrange, if_pos hrange]
      dsimp only
      rw [bind_of_eq (pushDate_julian _)]
      refine ⟨_, rfl, ?_⟩
      unfold readDateText
      rw [bind_of_eq (readDate_printed _ _ _ (stops_pushEra _))]
      dsimp only
      rw [bind_of_eq (readEra_pushEra _), ofEra_eraYear]
    · rw [if_neg hrange, if_neg hrange]

theorem readClock_pushClock (micros : Nat) (hrest : AfterClock rest) :
    readClock (pushClock micros ++ rest) = some (micros, rest) := by
  have hfraction : micros % 1000000 < 1000000 := Nat.mod_lt _ (by decide)
  rw [pushClock_natCast, readClock_clockText _ _ _ hfraction hrest]
  congr 2
  omega

theorem afterClock_mark (utcSuffix : Bool) (ymd : Ymd) :
    AfterClock ((if utcSuffix then "+00".toList else []) ++ pushEra ymd) := by
  cases utcSuffix with
  | true => exact ⟨stops_cons rfl _, by rintro ⟨⟩⟩
  | false =>
    refine ⟨stops_pushEra ymd, fun h => ?_⟩
    exact absurd (pushEra_head _ h) (by decide)

theorem drop_mark (utcSuffix : Bool) (ymd : Ymd) :
    (if "+00".toList.isPrefixOf ((if utcSuffix then "+00".toList else []) ++ pushEra ymd) then
      ((if utcSuffix then "+00".toList else []) ++ pushEra ymd).drop 3
      else (if utcSuffix then "+00".toList else []) ++ pushEra ymd) = pushEra ymd := by
  cases utcSuffix with
  | true => rfl
  | false =>
    have hera : pushEra ymd = " BC".toList ∨ pushEra ymd = [] := by
      unfold pushEra
      split
      · exact .inl rfl
      · exact .inr rfl
    rw [if_neg Bool.false_ne_true, nil_append]
    rcases hera with hera | hera
    · rw [hera]
      rfl
    · rw [hera]
      rfl

theorem stamp_append (text clock mark era : Str) :
    text ++ ' ' :: clock ++ mark ++ era = text ++ ' ' :: (clock ++ (mark ++ era)) := by
  simp only [append_assoc, cons_append]

theorem timestampWith_renders (micros : Int64) (utcSuffix : Bool) :
    Renders (timestampWith micros utcSuffix) (specialI64 micros)
      (micros.toInt / usecsPerDay + postgresEpochJdate)
      (fun text => readStampText text =
        some (julian (micros.toInt / usecsPerDay + postgresEpochJdate).toNat,
          (micros.toInt % usecsPerDay).toNat))
      "timestamp out of range".toList := by
  have hlow := micros.le_toInt
  have hhigh := micros.toInt_lt
  have hepoch : postgresEpochJdate = 2451545 := rfl
  have hday : usecsPerDay = 86400000000 := rfl
  unfold Renders timestampWith
  cases hspecial : specialI64 micros with
  | some text => rfl
  | none =>
    dsimp only
    rw [i64_of (by rw [hday, hepoch]; omega)]
    dsimp only
    rw [bind_of_eq (julianToDate_eq _)]
    by_cases hrange : 0 ≤ micros.toInt / usecsPerDay + postgresEpochJdate ∧
        micros.toInt / usecsPerDay + postgresEpochJdate ≤ i32Max
    · have hclock : micros.toInt % usecsPerDay = ((micros.toInt % usecsPerDay).toNat : Int) := by
        rw [hday]
        omega
      rw [if_pos hrange, if_pos hrange]
      dsimp only
      rw [bind_of_eq (pushDate_julian _)]
      refine ⟨_, rfl, ?_⟩
      unfold readStampText
      rw [stamp_append, hclock, bind_of_eq (readDate_printed _ _ _ (stops_cons rfl _))]
      dsimp only
      rw [bind_of_eq (expect_cons ..),
        bind_of_eq (readClock_pushClock _ (afterClock_mark utcSuffix _))]
      dsimp only
      rw [drop_mark, bind_of_eq (readEra_pushEra _), ofEra_eraYear, Int.toNat_natCast]
    · rw [if_neg hrange, if_neg hrange]

end Oxyn.Postgres.Datetime
