/-
# `Oxyn.Postgres.Julian` — the conversion of a Julian day is the calendar

The chain of divisions is read in three parts.
-/
import Mathlib.Tactic.IntervalCases
import Oxyn.Postgres.Datetime

namespace Oxyn.Postgres.Datetime

open Text Decimal Gregorian

variable {z : Int}

theorem u64_of (h : 0 ≤ z ∧ z ≤ 18446744073709551615) : u64 z = some z := if_pos h

theorem bind_of_eq {α β : Type} {x : Option α} {a : α} (h : x = some a) (f : α → Option β) :
    (x >>= f) = f a := by
  rw [h]
  rfl

theorem u64_bind {α : Type} (h : 0 ≤ z ∧ z ≤ 18446744073709551615)
    (f : Int → Option α) : (u64 z >>= f) = f z :=
  bind_of_eq (u64_of h) f

theorem i64_bind {α : Type}
    (h : -9223372036854775808 ≤ z ∧ z ≤ 9223372036854775807) (f : Int → Option α) :
    (i64 z >>= f) = f z :=
  bind_of_eq (if_pos h) f

theorem i64_of (h : -9223372036854775808 ≤ z ∧ z ≤ 9223372036854775807) :
    i64 z = some z := if_pos h

theorem i32_of (h : -2147483648 ≤ z ∧ z ≤ 2147483647) : i32 z = some z := if_pos h

/-! ## The Julian day's date -/

/-- Days counted from the first of March of a year, `march` years after it, `rest` days into the
year that begins then. -/
structure FromMarch (days march rest : Int) : Prop where
  days_eq : days = 365 * march + march / 4 - march / 100 + march / 400 + rest
  rest_nonneg : 0 ≤ rest
  rest_le : rest ≤ 365
  -- the last day is there in leap years only
  leap : rest = 365 → Leap (march + 1)

/-- The centuries' part of the conversion: with the leap days that three centuries of four lack
put back, the years are those of a calendar where every fourth year is leap. -/
theorem fromMarch_of_days {days century cycle : Int} (hcycle : cycle = days / 146097)
    (hcentury : century = ((days - cycle * 146097) * 4 + 3) / 146097) :
    ∃ march rest, FromMarch days march rest ∧
      days + (cycle * 3 + century) = 365 * march + march / 4 + rest ∧
      (rest = 365 → march % 4 = 3) := by
  obtain ⟨r, hr⟩ : ∃ r, r = days - cycle * 146097 := ⟨_, rfl⟩
  obtain ⟨s, hs⟩ : ∃ s, s = r - 36524 * century := ⟨_, rfl⟩
  obtain ⟨m, hm⟩ : ∃ m, m = (4 * s + 3) / 1461 := ⟨_, rfl⟩
  rw [← hr] at hcentury
  have hr0 : 0 ≤ r ∧ r < 146097 := by omega
  have hc : 0 ≤ century ∧ century ≤ 3 := by omega
  have hs0 : 0 ≤ s ∧ s ≤ 36524 ∧ (s = 36524 → century = 3) := by omega
  have hm0 : 0 ≤ m ∧ m < 100 := by omega
  obtain ⟨march, hmarch⟩ : ∃ march, march = 400 * cycle + 100 * century + m := ⟨_, rfl⟩
  obtain ⟨rest, hrest⟩ : ∃ rest, rest = s - (365 * m + m / 4) := ⟨_, rfl⟩
  have h4 : march / 4 = 100 * cycle + 25 * century + m / 4 := by omega
  have h100 : march / 100 = 4 * cycle + century := by omega
  have h400 : march / 400 = cycle := by omega
  have hrest0 : 0 ≤ rest ∧ rest ≤ 365 ∧ (rest = 365 → m % 4 = 3 ∧ (m = 99 → century = 3)) := by
    omega
  refine ⟨march, rest, ⟨?_, hrest0.1, hrest0.2.1, ?_⟩, ?_, ?_⟩
  · omega
  · intro hlast
    obtain ⟨hthree, hend⟩ := hrest0.2.2 hlast
    unfold Leap
    omega
  · omega
  · intro hlast
    obtain ⟨hthree, -⟩ := hrest0.2.2 hlast
    omega

/-- The years' part: in that calendar the conversion finds the year that begins in January, and
keeps the days since March. -/
theorem year_of_march {n march rest quad t y : Int} (hn : n = 365 * march + march / 4 + rest)
    (hrest : 0 ≤ rest ∧ rest ≤ 365) (hlast : rest = 365 → march % 4 = 3)
    (hquad : quad = (n + 60) / 1461) (ht : t = n + 60 - quad * 1461) (hy : y = t * 4 / 1461) :
    (0 ≤ t ∧ t ≤ 1460) ∧ (0 ≤ y ∧ y ≤ 3) ∧
      (if y = 0 then (t + 306) % 366 else (t + 305) % 365) = rest ∧
      y + quad * 4 = if rest < 306 then march else march + 1 := by
  obtain ⟨a, ha⟩ : ∃ a, a = march / 4 := ⟨_, rfl⟩
  obtain ⟨b, hb⟩ : ∃ b, b = march % 4 := ⟨_, rfl⟩
  have hb4 : 0 ≤ b ∧ b ≤ 3 := by omega
  have hn' : n = 1461 * a + 365 * b + rest := by omega
  by_cases hjanuary : rest < 306
  · -- the year that began in March is the year that began in January
    have hq : quad = a := by omega
    have htime : t = 365 * b + rest + 60 := by omega
    have hyear : y = b := by omega
    rw [if_pos hjanuary]
    split <;> omega
  · -- January and February are of the year after
    have hb3 : b < 3 ∨ b = 3 := by omega
    rw [if_neg hjanuary]
    rcases hb3 with hb3 | hb3
    · have hq : quad = a := by omega
      have htime : t = 365 * b + rest + 60 := by omega
      have hyear : y = b + 1 := by omega
      split <;> omega
    · have hq : quad = a + 1 := by omega
      have htime : t = rest - 306 := by omega
      have hyear : y = 0 := by omega
      split <;> omega

/-- The days before a month, in a year that is not leap. -/
def commonStart (month : Nat) : Nat :=
  [0, 0, 31, 59, 90, 120, 151, 181, 212, 243, 273, 304, 334].getD month 0

/-- The days of a month, in a year that is not leap. -/
def commonLength (month : Nat) : Nat :=
  [0, 31, 28, 31, 30, 31, 30, 31, 31, 30, 31, 30, 31].getD month 0

def monthOf (rest : Nat) : Nat := ((rest + 123) * 2141 / 65536 + 10) % 12 + 1

def dayOf (rest : Nat) : Nat := rest + 123 - 7834 * ((rest + 123) * 2141 / 65536) / 256

theorem month_table : ∀ rest < 366, 1 ≤ monthOf rest ∧ monthOf rest ≤ 12 ∧ 1 ≤ dayOf rest ∧
    7834 * ((rest + 123) * 2141 / 65536) / 256 ≤ rest + 123 ∧
    (rest < 306 → 3 ≤ monthOf rest ∧ commonStart (monthOf rest) + dayOf rest = rest + 60 ∧
      dayOf rest ≤ commonLength (monthOf rest)) ∧
    (306 ≤ rest → monthOf rest ≤ 2 ∧ commonStart (monthOf rest) + dayOf rest + 305 = rest ∧
      (rest < 365 → dayOf rest ≤ commonLength (monthOf rest)) ∧
      (rest = 365 → monthOf rest = 2 ∧ dayOf rest = 29)) := by
  decide +kernel

theorem monthStart_common (year : Int) {month : Nat} (hpos : 1 ≤ month) (hle : month ≤ 12) :
    monthStart year month = commonStart month + if 3 ≤ month ∧ Leap year then 1 else 0 := by
  by_cases hleap : Leap year
  · interval_cases month <;> simp [monthStart, commonStart, hleap]
  · interval_cases month <;> simp [monthStart, commonStart, hleap]

theorem commonLength_le (year : Int) {month : Nat} (hpos : 1 ≤ month) (hle : month ≤ 12) :
    commonLength month ≤ monthLength year month := by
  by_cases hleap : Leap year
  · interval_cases month <;> simp [monthLength, commonLength, hleap]
  · interval_cases month <;> simp [monthLength, commonLength, hleap]

theorem date_of_march {days march rest : Int} (h : FromMarch days march rest) {year : Int}
    (hyear : year = (if rest < 306 then march else march + 1) - 4800) :
    (⟨year, monthOf rest.toNat, dayOf rest.toNat⟩ : Ymd).Valid ∧
      dayNumber ⟨year, monthOf rest.toNat, dayOf rest.toNat⟩ = days - 32044 := by
  obtain ⟨hdays, hrest0, hrest1, hleap⟩ := h
  obtain ⟨r, rfl⟩ := Int.eq_ofNat_of_zero_le hrest0
  rw [Int.toNat_natCast]
  obtain ⟨hm1, hm12, hd1, -, hspring, hwinter⟩ := month_table r (by omega)
  have hstart := monthStart_common year hm1 hm12
  have hlength := commonLength_le year hm1 hm12
  by_cases hjanuary : r < 306
  · obtain ⟨hm3, hday, hdayLe⟩ := hspring hjanuary
    rw [if_pos (by omega)] at hyear
    refine ⟨⟨hm1, hm12, hd1, hdayLe.trans hlength⟩, ?_⟩
    have hleapIff : Leap year ↔ (march % 4 = 0 ∧ (march % 100 ≠ 0 ∨ march % 400 = 0)) := by
      unfold Leap
      omega
    unfold dayNumber
    dsimp only
    rw [hstart]
    unfold yearStart
    by_cases hl : Leap year
    · have := hleapIff.mp hl
      rw [if_pos ⟨hm3, hl⟩]
      omega
    · have : ¬ (march % 4 = 0 ∧ (march % 100 ≠ 0 ∨ march % 400 = 0)) := fun h => hl (hleapIff.mpr h)
      rw [if_neg (fun h => hl h.2)]
      omega
  · obtain ⟨hm2, hday, hdayLe, hlastDay⟩ := hwinter (by omega)
    rw [if_neg (by omega)] at hyear
    refine ⟨⟨hm1, hm12, hd1, ?_⟩, ?_⟩
    · by_cases hlast : r = 365
      · obtain ⟨hmonth, hday29⟩ := hlastDay hlast
        have hl := hleap (by omega)
        have hl' : Leap year := by
          unfold Leap at hl ⊢
          omega
        dsimp only
        rw [hmonth, hday29, monthLength, if_pos rfl, if_pos hl']
      · exact (hdayLe (by omega)).trans hlength
    · unfold dayNumber
      dsimp only
      rw [hstart, if_neg (by omega)]
      unfold yearStart
      omega

/-- `julian_to_date` is the calendar on its whole range, and no step of it overflows. -/
theorem julianToDate_eq (julianDay : Int) :
    julianToDate julianDay = some (if 0 ≤ julianDay ∧ julianDay ≤ i32Max then
      some (julian julianDay.toNat) else none) := by
  have hi32 : i32Max = 2147483647 := rfl
  by_cases hrange : 0 ≤ julianDay ∧ julianDay ≤ i32Max
  · unfold julianToDate
    rw [if_pos hrange, if_pos hrange]
    obtain ⟨days, hdays⟩ : ∃ days, days = julianDay + 32044 := ⟨_, rfl⟩
    obtain ⟨cycle, hcycle⟩ : ∃ cycle, cycle = days / 146097 := ⟨_, rfl⟩
    obtain ⟨century, hcentury⟩ :
        ∃ century, century = ((days - cycle * 146097) * 4 + 3) / 146097 := ⟨_, rfl⟩
    obtain ⟨march, rest, hmarch, hcommon, hlast⟩ := fromMarch_of_days hcycle hcentury
    obtain ⟨n, hn⟩ : ∃ n, n = days + (cycle * 3 + century) := ⟨_, rfl⟩
    obtain ⟨quad, hquad⟩ : ∃ quad, quad = (n + 60) / 1461 := ⟨_, rfl⟩
    obtain ⟨t, ht⟩ : ∃ t, t = n + 60 - quad * 1461 := ⟨_, rfl⟩
    obtain ⟨y, hy⟩ : ∃ y, y = t * 4 / 1461 := ⟨_, rfl⟩
    obtain ⟨htime, hyear, hshift, hstart⟩ := year_of_march (hn.trans hcommon)
      ⟨hmarch.rest_nonneg, hmarch.rest_le⟩ hlast hquad ht hy
    have hsum : days + (60 + cycle * 3 + century) = n + 60 := by omega
    rw [u64_bind (by omega), ← hdays, u64_bind (by omega), ← hcycle, u64_bind (by omega),
      u64_bind (by omega), u64_bind (by omega), u64_bind (by omega), u64_bind (by omega),
      u64_bind (by omega), ← hcentury, u64_bind (by omega), u64_bind (by omega), hsum,
      u64_bind (by omega), ← hquad, u64_bind (by omega), u64_bind (by omega), ← ht,
      u64_bind (by omega), u64_bind (by omega), ← hy]
    have hrest : shifted y t = some rest := by
      unfold shifted
      rw [← hshift, u64_of (by omega), u64_of (by omega)]
      split <;> rfl
    rw [bind_of_eq hrest]
    obtain ⟨r, hr⟩ : ∃ r : Nat, rest = r := Int.eq_ofNat_of_zero_le hmarch.rest_nonneg
    obtain ⟨hm1, hm12, hd1, hdle, -, -⟩ := month_table r (by have := hmarch.rest_le; omega)
    have hjanuary : y + quad * 4 - 4800 = (if rest < 306 then march else march + 1) - 4800 := by
      rw [hstart]
    obtain ⟨hvalid, hnumber⟩ := date_of_march hmarch hjanuary
    obtain ⟨q, hq⟩ : ∃ q, q = (r + 123) * 2141 / 65536 := ⟨_, rfl⟩
    have hqInt : ((r : Int) + 123) * 2141 / 65536 = q := by omega
    rw [← hq] at hdle
    have hday : ((r : Int) + 123 - 7834 * (q : Int) / 256).toNat = dayOf r := by
      unfold dayOf
      rw [← hq]
      omega
    have hmonth : (((q : Int) + 10) % 12 + 1).toNat = monthOf r := by
      unfold monthOf
      rw [← hq]
      omega
    have hr365 : r ≤ 365 := by
      have := hmarch.rest_le
      omega
    rw [hr, Int.toNat_natCast] at hvalid hnumber
    rw [hr, u64_bind (by omega), u64_bind (by omega), u64_bind (by omega), i64_bind (by omega),
      i64_bind (by omega), u64_bind (by omega), u64_bind (by omega), hqInt, u64_bind (by omega),
      u64_bind (by omega), u64_bind (by omega), u64_bind (by omega), hday, hmonth]
    refine congrArg (fun d => some (some d)) (eq_julian hvalid ?_)
    omega
  · unfold julianToDate
    rw [if_neg hrange, if_neg hrange]

end Oxyn.Postgres.Datetime
