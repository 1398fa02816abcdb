/-
# `Oxyn.Lib.Gregorian` — the proleptic Gregorian calendar

A date is followed by the next one: `tomorrow` is the calendar's only rule, and `julian n` is what
it gives after `n` days from the day the Julian day count starts on.
-/
import Mathlib.Algebra.Order.Ring.Int
import Mathlib.Logic.Function.Iterate
import Mathlib.Tactic.IntervalCases
import Mathlib.Tactic.Ring

namespace Gregorian

structure Date where
  year : Int
  month : Nat
  day : Nat
deriving DecidableEq, Repr

def Leap (year : Int) : Prop := year % 4 = 0 ∧ (year % 100 ≠ 0 ∨ year % 400 = 0)

instance (year : Int) : Decidable (Leap year) := inferInstanceAs (Decidable (_ ∧ _))

/-- How many days a month has. -/
def monthLength (year : Int) (month : Nat) : Nat :=
  if month = 2 then if Leap year then 29 else 28
  else if month = 4 ∨ month = 6 ∨ month = 9 ∨ month = 11 then 30
  else 31

structure Date.Valid (d : Date) : Prop where
  month_pos : 1 ≤ d.month
  month_le : d.month ≤ 12
  day_pos : 1 ≤ d.day
  day_le : d.day ≤ monthLength d.year d.month

def tomorrow (d : Date) : Date :=
  if d.day < monthLength d.year d.month then { d with day := d.day + 1 }
  else if d.month < 12 then ⟨d.year, d.month + 1, 1⟩
  else ⟨d.year + 1, 1, 1⟩

def firstDay : Date := ⟨-4713, 11, 24⟩

def julian (n : Nat) : Date := tomorrow^[n] firstDay

@[simp] theorem julian_zero : julian 0 = firstDay := rfl

theorem julian_succ (n : Nat) : julian (n + 1) = tomorrow (julian n) :=
  Function.iterate_succ_apply' tomorrow n firstDay

/-! ## The closed form -/

/-- The days from the first of January of year 0 to that of a year. -/
def yearStart (year : Int) : Int :=
  365 * year + (year + 3) / 4 - (year + 99) / 100 + (year + 399) / 400

def monthStart (year : Int) : Nat → Int
  | 1 => 0
  | 2 => 31
  | 3 => if Leap year then 60 else 59
  | 4 => if Leap year then 91 else 90
  | 5 => if Leap year then 121 else 120
  | 6 => if Leap year then 152 else 151
  | 7 => if Leap year then 182 else 181
  | 8 => if Leap year then 213 else 212
  | 9 => if Leap year then 244 else 243
  | 10 => if Leap year then 274 else 273
  | 11 => if Leap year then 305 else 304
  | 12 => if Leap year then 335 else 334
  | _ => 0

def dayNumber (d : Date) : Int := yearStart d.year + monthStart d.year d.month + d.day + 1721059

theorem dayNumber_firstDay : dayNumber firstDay = 0 := by decide

theorem yearStart_succ (year : Int) :
    yearStart (year + 1) = yearStart year + if Leap year then 366 else 365 := by
  unfold yearStart
  by_cases hleap : Leap year
  · rw [if_pos hleap]
    unfold Leap at hleap
    omega
  · rw [if_neg hleap]
    unfold Leap at hleap
    omega

theorem monthStart_succ (year : Int) {month : Nat} (hpos : 1 ≤ month) (hlt : month < 12) :
    monthStart year (month + 1) = monthStart year month + monthLength year month := by
  by_cases hleap : Leap year
  · interval_cases month <;> simp [monthStart, monthLength, hleap]
  · interval_cases month <;> simp [monthStart, monthLength, hleap]

theorem monthStart_december (year : Int) :
    monthStart year 12 + 31 = if Leap year then 366 else 365 := by
  change (if Leap year then (335 : Int) else 334) + 31 = _
  by_cases hleap : Leap year
  · rw [if_pos hleap, if_pos hleap]
    rfl
  · rw [if_neg hleap, if_neg hleap]
    rfl

theorem monthStart_nonneg (year : Int) (month : Nat) : 0 ≤ monthStart year month := by
  unfold monthStart
  split <;> (try split_ifs) <;> decide

theorem monthLength_pos (year : Int) (month : Nat) : 1 ≤ monthLength year month := by
  unfold monthLength
  split_ifs <;> decide

theorem Date.Valid.firstDay : firstDay.Valid := ⟨by decide, by decide, by decide, by decide⟩

variable {d : Date}

theorem Date.Valid.tomorrow (h : d.Valid) : (tomorrow d).Valid := by
  unfold Gregorian.tomorrow
  split
  next hday => exact ⟨h.month_pos, h.month_le, Nat.succ_pos _, hday⟩
  next =>
    split
    next hmonth => exact ⟨Nat.succ_pos _, hmonth, le_rfl, monthLength_pos ..⟩
    next => exact ⟨le_rfl, Nat.le_add_left 1 11, le_rfl, monthLength_pos ..⟩

/-- The closed form counts the days. -/
theorem dayNumber_tomorrow (h : d.Valid) :
    dayNumber (tomorrow d) = dayNumber d + 1 := by
  unfold tomorrow
  split
  next =>
    unfold dayNumber
    push_cast
    ring
  next hday =>
    have hlast : d.day = monthLength d.year d.month := le_antisymm h.day_le (Nat.not_lt.mp hday)
    split
    next hmonth =>
      have hstart := monthStart_succ d.year h.month_pos hmonth
      simp only [dayNumber, hstart, hlast]
      push_cast
      ring
    next hmonth =>
      have hdecember : d.month = 12 := le_antisymm h.month_le (Nat.not_lt.mp hmonth)
      have hlength : monthLength d.year 12 = 31 := rfl
      have hend := monthStart_december d.year
      have hyear := yearStart_succ d.year
      have hjanuary : monthStart (d.year + 1) 1 = 0 := rfl
      simp only [dayNumber, hlast, hdecember, hlength, hjanuary]
      push_cast
      omega

theorem julian_valid (n : Nat) : (julian n).Valid := by
  induction n with
  | zero => exact Date.Valid.firstDay
  | succ n ih => exact julian_succ n ▸ ih.tomorrow

theorem dayNumber_julian (n : Nat) : dayNumber (julian n) = n := by
  induction n with
  | zero => exact dayNumber_firstDay
  | succ n ih =>
    rw [julian_succ, dayNumber_tomorrow (julian_valid n), ih]
    rfl

/-! ## One date a day number -/

theorem monthStart_le (year : Int) {m m' : Nat} (hpos : 1 ≤ m) (hlt : m < m') (hle : m' ≤ 12) :
    monthStart year m + monthLength year m ≤ monthStart year m' := by
  induction m', hlt using Nat.le_induction with
  | base => exact (monthStart_succ year hpos (by omega)).ge
  | succ m' hm ih =>
    have hm' : 1 ≤ m' := by omega
    have hstep := monthStart_succ year hm' (by omega)
    have hrest := ih (by omega)
    omega

theorem yearStart_mono {y y' : Int} (h : y < y') : yearStart (y + 1) ≤ yearStart y' := by
  unfold yearStart
  omega

theorem dayOfYear_bounds (h : d.Valid) :
    1 ≤ monthStart d.year d.month + d.day ∧
      monthStart d.year d.month + d.day ≤ if Leap d.year then 366 else 365 := by
  have hday := h.day_pos
  have hlast := h.day_le
  have hend := monthStart_december d.year
  have hlength : monthLength d.year 12 = 31 := rfl
  have hstart := monthStart_nonneg d.year d.month
  refine ⟨by omega, ?_⟩
  rcases h.month_le.lt_or_eq with hlt | heq
  · have := monthStart_le d.year h.month_pos hlt le_rfl
    omega
  · rw [heq] at hlast ⊢
    omega

theorem dayNumber_injective {d d' : Date} (h : d.Valid) (h' : d'.Valid)
    (heq : dayNumber d = dayNumber d') : d = d' := by
  obtain ⟨hlow, hhigh⟩ := dayOfYear_bounds h
  obtain ⟨hlow', hhigh'⟩ := dayOfYear_bounds h'
  have hyear := yearStart_succ d.year
  have hyear' := yearStart_succ d'.year
  unfold dayNumber at heq
  obtain ⟨y, m, k⟩ := d
  obtain ⟨y', m', k'⟩ := d'
  dsimp only at *
  obtain rfl : y = y' := by
    rcases lt_trichotomy y y' with hlt | rfl | hgt
    · have := yearStart_mono hlt
      omega
    · rfl
    · have := yearStart_mono hgt
      omega
  have hday := h.day_pos
  have hday' := h'.day_pos
  have hlast := h.day_le
  have hlast' := h'.day_le
  obtain rfl : m = m' := by
    rcases lt_trichotomy m m' with hlt | rfl | hgt
    · have := monthStart_le y h.month_pos hlt h'.month_le
      dsimp only at *
      omega
    · rfl
    · have := monthStart_le y h'.month_pos hgt h.month_le
      dsimp only at *
      omega
  obtain rfl : k = k' := by omega
  rfl

theorem eq_julian {n : Nat} (h : d.Valid) (hn : dayNumber d = n) : d = julian n :=
  dayNumber_injective h (julian_valid n) (hn.trans (dayNumber_julian n).symm)

theorem julian_injective : Function.Injective julian := by
  intro m n h
  have hday := congrArg dayNumber h
  rw [dayNumber_julian, dayNumber_julian] at hday
  exact Int.ofNat.inj hday

end Gregorian
