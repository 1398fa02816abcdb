/-
# `Oxyn.Postgres.Datetime` — dates, timestamps and intervals as text

The server sends a `date` as days and a `timestamp` as microseconds since 2000-01-01, and an
`interval` as three fields.
-/
import Oxyn.Lib.Text
import Oxyn.Lib.Decimal
import Oxyn.Lib.Gregorian

namespace Oxyn.Postgres.Datetime

open Text Decimal

/-! ## Machine arithmetic -/

/-- A result that fits its type; `none` is an overflow. -/
def within (low high z : Int) : Option Int := if low ≤ z ∧ z ≤ high then some z else none

def i32Max : Int := 2147483647

def u64 (z : Int) : Option Int := within 0 18446744073709551615 z

def i64 (z : Int) : Option Int := within (-9223372036854775808) 9223372036854775807 z

def i32 (z : Int) : Option Int := within (-2147483648) 2147483647 z

/-! ## The source's constants -/

/-- Julian day of 2000-01-01. -/
def postgresEpochJdate : Int := 2451545

def usecsPerDay : Int := 86400000000

def usecsPerHour : Int := 3600000000

def usecsPerMinute : Int := 60000000

def usecsPerSec : Int := 1000000

def monthsPerYear : Int := 12

def fractionDigits : Nat := 6

/-- A calendar date, with PostgreSQL's convention: year 0 is 1 BC. -/
abbrev Ymd := Gregorian.Date

/-! ## The date of a Julian day -/

/-- The days since March of a day of a year, the first of four years being leap. -/
def shifted (y julian : Int) : Option Int :=
  if y = 0 then (u64 (julian + 306)).map (· % 366) else (u64 (julian + 305)).map (· % 365)

/-- `j2date`, over the whole Julian range. -/
def julianToDate (julianDay : Int) : Option (Option Ymd) :=
  if 0 ≤ julianDay ∧ julianDay ≤ i32Max then do
    let julian ← u64 (julianDay + 32044)
    let quad ← u64 (julian / 146097)
    let centuries ← u64 (quad * 146097)
    let extra ← u64 (julian - centuries)
    let extra ← u64 (extra * 4)
    let extra ← u64 (extra + 3)
    let skipped ← u64 (quad * 3)
    let skipped ← u64 (60 + skipped)
    let skipped ← u64 (skipped + extra / 146097)
    let julian ← u64 (julian + skipped)
    let quad ← u64 (julian / 1461)
    let cycles ← u64 (quad * 1461)
    let julian ← u64 (julian - cycles)
    let y ← u64 (julian * 4)
    let y ← u64 (y / 1461)
    let julian ← shifted y julian
    let julian ← u64 (julian + 123)
    let years ← u64 (quad * 4)
    let years ← u64 (y + years)
    let year ← i64 years
    let year ← i64 (year - 4800)
    let quad ← u64 (julian * 2141)
    let quad ← u64 (quad / 65536)
    let day ← u64 (7834 * quad)
    let day ← u64 (julian - day / 256)
    let month ← u64 (quad + 10)
    let month ← u64 (month % 12 + 1)
    some (some ⟨year, month.toNat, day.toNat⟩)
  else some none

/-! ## Texts -/

/-- `{z}`. -/
def signedNumeral (z : Int) : Str := if z < 0 then '-' :: numeral z.natAbs else numeral z.natAbs

/-- `{z:0width}`: the sign counts in the width. -/
def signedPadded (width : Nat) (z : Int) : Str :=
  if z < 0 then '-' :: padded (width - 1) z.natAbs else padded width z.natAbs

/-- `YYYY-MM-DD`: a year before 1 is printed as its BC number, the era comes last. -/
def pushDate (ymd : Ymd) : Option Str :=
  (if 0 < ymd.year then some ymd.year else i64 (1 - ymd.year)).map fun printedYear =>
    signedPadded 4 printedYear ++ '-' :: padded 2 ymd.month ++ '-' :: padded 2 ymd.day

def pushEra (ymd : Ymd) : Str := if ymd.year ≤ 0 then " BC".toList else []

/-- `while fraction % 10 == 0 && width > 1`. -/
def dropZeros (fraction : Nat) : Nat → Nat × Nat
  | 0 => (fraction, 0)
  | width + 1 =>
    if fraction % 10 = 0 ∧ 1 < width + 1 then dropZeros (fraction / 10) width
    else (fraction, width + 1)

def pushSeconds (seconds fraction : Nat) : Str :=
  padded 2 seconds ++
    if fraction ≠ 0 then
      '.' :: padded (dropZeros fraction fractionDigits).2 (dropZeros fraction fractionDigits).1
    else []

/-- `HH:MM:SS[.ffffff]` from microseconds since midnight. -/
def pushClock (micros : Int) : Str :=
  let hours := micros.tdiv usecsPerHour
  let minutes := (micros.tmod usecsPerHour).tdiv usecsPerMinute
  let seconds := (micros.tmod usecsPerMinute).tdiv usecsPerSec
  let fraction := micros.tmod usecsPerSec
  signedPadded 2 hours ++ ':' :: signedPadded 2 minutes ++ ':' ::
    pushSeconds seconds.natAbs fraction.natAbs

def specialI32 (value : Int32) : Option Str :=
  if value = Int32.minValue then some "-infinity".toList
  else if value = Int32.maxValue then some "infinity".toList
  else none

def specialI64 (value : Int64) : Option Str :=
  if value = Int64.minValue then some "-infinity".toList
  else if value = Int64.maxValue then some "infinity".toList
  else none

/-- What a rendering gives: the text pushed, or an error; `none` is an overflow. -/
abbrev Outcome := Option (Except Str Str)

def date (daysSince2000 : Int32) : Outcome :=
  match specialI32 daysSince2000 with
  | some special => some (.ok special)
  | none => do
      let julianDay ← i64 (daysSince2000.toInt + postgresEpochJdate)
      match ← julianToDate julianDay with
      | none => some (.error "date out of range".toList)
      | some ymd => do
          let text ← pushDate ymd
          some (.ok (text ++ pushEra ymd))

def timestampWith (micros : Int64) (utcSuffix : Bool) : Outcome :=
  match specialI64 micros with
  | some special => some (.ok special)
  | none =>
    let days := micros.toInt / usecsPerDay
    let clock := micros.toInt % usecsPerDay
    -- `checked_add`: an overflow is an error here, not a panic
    match i64 (days + postgresEpochJdate) with
    | none => some (.error "timestamp out of range".toList)
    | some julian => do
        match ← julianToDate julian with
        | none => some (.error "timestamp out of range".toList)
        | some ymd => do
            let text ← pushDate ymd
            some (.ok (text ++ ' ' :: pushClock clock ++
              (if utcSuffix then "+00".toList else []) ++ pushEra ymd))

/-- `timestamp`: microseconds since 2000-01-01, no time zone. -/
def timestamp (microsSince2000 : Int64) : Outcome := timestampWith microsSince2000 false

/-- `timestamptz`: microseconds since 2000-01-01 UTC. -/
def timestamptz (microsSince2000 : Int64) : Outcome := timestampWith microsSince2000 true

/-! ## Intervals -/

/-- The interval printed so far. -/
structure Line where
  out : Str
  isZero : Bool
  isBefore : Bool
deriving DecidableEq, Repr

/-- One turn of the loop over the years, the months and the days. -/
def pushField (line : Line) (field : Int × Str) : Line :=
  if field.1 = 0 then line
  else
    { out := line.out ++ (if line.isZero then [] else [' ']) ++
        (if line.isBefore ∧ 0 < field.1 then ['+'] else []) ++ signedNumeral field.1 ++
        ' ' :: field.2 ++ (if field.1 = 1 then [] else ['s'])
      isZero := false
      isBefore := field.1 < 0 }

def interval (micros : Int64) (days months : Int32) : Option Str :=
  if micros = Int64.minValue ∧ days = Int32.minValue ∧ months = Int32.minValue then
    some "-infinity".toList
  else if micros = Int64.maxValue ∧ days = Int32.maxValue ∧ months = Int32.maxValue then
    some "infinity".toList
  else do
    let years ← i32 (months.toInt.tdiv monthsPerYear)
    let months ← i32 (months.toInt.tmod monthsPerYear)
    let hours ← i64 (micros.toInt.tdiv usecsPerHour)
    let rest ← i64 (micros.toInt.tmod usecsPerHour)
    let minutes ← i64 (rest.tdiv usecsPerMinute)
    let rest ← i64 (rest.tmod usecsPerMinute)
    let seconds ← i64 (rest.tdiv usecsPerSec)
    let fraction ← i64 (rest.tmod usecsPerSec)
    let line := [(years, "year".toList), (months, "mon".toList), (days.toInt, "day".toList)].foldl
      pushField ⟨[], true, false⟩
    if line.isZero ∨ hours ≠ 0 ∨ minutes ≠ 0 ∨ seconds ≠ 0 ∨ fraction ≠ 0 then
      some (line.out ++ (if line.isZero then [] else [' ']) ++
        (if hours < 0 ∨ minutes < 0 ∨ seconds < 0 ∨ fraction < 0 then ['-']
          else if line.isBefore then ['+'] else []) ++
        padded 2 hours.natAbs ++ ':' :: padded 2 minutes.natAbs ++ ':' ::
        pushSeconds seconds.natAbs fraction.natAbs)
    else some line.out

end Oxyn.Postgres.Datetime
