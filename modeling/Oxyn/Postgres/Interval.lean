/-
# `Oxyn.Postgres.Interval` — an interval's text determines its three fields

An interval prints its years, months and days when they are not zero, each with its sign, and its
clock when that is not zero or nothing else was printed.
-/
import Oxyn.Postgres.Stamps

namespace Oxyn.Postgres.Datetime

open Text Decimal List

/-! ## The reader -/

def readSign (s : Str) : Bool × Str :=
  if s.head? = some '-' then (true, s.tail)
  else if s.head? = some '+' then (false, s.tail)
  else (false, s)

/-- The text without `c` at its front. -/
def optional (c : Char) (s : Str) : Str := if s.head? = some c then s.tail else s

/-- A number of a unit, singular or plural, and the blank after it; zero if the text does not begin
with one. -/
def readField (unit : Str) (s : Str) : Int × Str :=
  match readDigits (readSign s).2 with
  | none => (0, s)
  | some (n, rest) =>
    if (' ' :: unit).isPrefixOf rest then
      (signed (readSign s).1 n, optional ' ' (optional 's' (rest.drop (unit.length + 1))))
    else (0, s)

/-- The least and the greatest of the three fields. -/
def infinite (negative : Bool) : Int × Int × Int :=
  if negative then (Int64.minValue.toInt, Int32.minValue.toInt, Int32.minValue.toInt)
  else (Int64.maxValue.toInt, Int32.maxValue.toInt, Int32.maxValue.toInt)

def readInterval (text : Str) : Option (Int × Int × Int) :=
  let years := readField "year".toList (text ++ [' '])
  let months := readField "mon".toList years.2
  let days := readField "day".toList months.2
  if days.2 = [] then some (0, days.1, 12 * years.1 + months.1)
  else
    match readClock (readSign days.2).2 with
    | some (micros, rest) =>
      if rest = [' '] then
        some (signed (readSign days.2).1 micros, days.1, 12 * years.1 + months.1)
      else none
    | none =>
      if text = "infinity".toList then some (infinite false)
      else if text = "-infinity".toList then some (infinite true)
      else none

/-! ## The fields -/

/-- What a turn of the loop prints, with a blank after it. -/
def fieldText (isBefore : Bool) (field : Int × Str) : Str :=
  if field.1 = 0 then []
  else (if isBefore ∧ 0 < field.1 then ['+'] else []) ++ signedNumeral field.1 ++
    ' ' :: field.2 ++ (if field.1 = 1 then [] else ['s']) ++ [' ']

/-- What is printed so far, with a blank after it. -/
def Line.closed (line : Line) : Str := if line.isZero then line.out else line.out ++ [' ']

theorem closed_pushField (line : Line) (field : Int × Str) :
    (pushField line field).closed = line.closed ++ fieldText line.isBefore field := by
  unfold pushField fieldText
  by_cases hzero : field.1 = 0
  · rw [if_pos hzero, if_pos hzero, append_nil]
  · rw [if_neg hzero, if_neg hzero]
    unfold Line.closed
    rw [if_neg Bool.false_ne_true]
    cases line.isZero with
    | true => simp only [if_true, append_nil, append_assoc]
    | false => simp only [Bool.false_eq_true, if_false, append_assoc]

/-- A text does not begin with a number of the unit. -/
def NotField (unit s : Str) : Prop := readField unit s = (0, s)

theorem stops_blank (s : Str) : Stops (' ' :: s) := stops_cons rfl s

theorem readSign_digits {d : Str} (hd : Digits d) (hne : d ≠ []) (rest : Str) :
    readSign (d ++ rest) = (false, d ++ rest) ∧ readSign ('-' :: d ++ rest) = (true, d ++ rest) ∧
      readSign ('+' :: d ++ rest) = (false, d ++ rest) := by
  have hhead (c : Char) (hc : c.isDigit = false) : (d ++ rest).head? ≠ some c := by
    intro h
    rw [head?_append_of_ne_nil _ hne] at h
    rw [hd c (mem_of_mem_head? h)] at hc
    cases hc
  refine ⟨?_, rfl, rfl⟩
  unfold readSign
  rw [if_neg (hhead '-' rfl), if_neg (hhead '+' rfl)]

theorem readSign_field (isBefore : Bool) (z : Int) (rest : Str) :
    readSign ((if isBefore ∧ 0 < z then ['+'] else []) ++ signedNumeral z ++ rest) =
      (decide (z < 0), numeral z.natAbs ++ rest) := by
  obtain ⟨hplain, hminus, hplus⟩ :=
    readSign_digits (digits_numeral z.natAbs) (numeral_ne_nil z.natAbs) rest
  unfold signedNumeral
  by_cases hneg : z < 0
  · have hpos : ¬ (isBefore ∧ 0 < z) := fun h => by omega
    rw [if_neg hpos, if_pos hneg, decide_eq_true hneg]
    exact hminus
  · rw [if_neg hneg, decide_eq_false hneg]
    split
    · exact hplus
    · exact hplain

theorem signed_natAbs (z : Int) : signed (decide (z < 0)) z.natAbs = z := by
  unfold signed
  by_cases hneg : z < 0
  · rw [if_pos (decide_eq_true hneg)]
    omega
  · rw [if_neg (by rwa [decide_eq_true_eq])]
    omega

theorem fieldText_of_ne {z : Int} (hz : z ≠ 0) (isBefore : Bool) (unit rest : Str) :
    fieldText isBefore (z, unit) ++ rest =
      (if isBefore ∧ 0 < z then ['+'] else []) ++ signedNumeral z ++
        (' ' :: (unit ++ ((if z = 1 then [] else ['s']) ++ ' ' :: rest))) := by
  unfold fieldText
  rw [if_neg hz]
  simp only [append_assoc, cons_append, nil_append]

theorem readField_fieldText {unit rest : Str} (hrest : NotField unit rest) (isBefore : Bool)
    (z : Int) : readField unit (fieldText isBefore (z, unit) ++ rest) = (z, rest) := by
  by_cases hz : z = 0
  · rw [fieldText, if_pos hz, nil_append, hz]
    exact hrest
  · have hunit (s : Str) : (' ' :: unit).isPrefixOf (' ' :: (unit ++ s)) = true :=
      List.isPrefixOf_iff_prefix.mpr (prefix_append (' ' :: unit) s)
    have hdrop (s : Str) : (' ' :: (unit ++ s)).drop (unit.length + 1) = s := by
      rw [drop_succ_cons, drop_left]
    unfold readField
    rw [fieldText_of_ne hz, readSign_field, readDigits_numeral _ (stops_blank _)]
    dsimp only
    rw [if_pos (hunit _), hdrop, signed_natAbs]
    split <;> rfl

theorem notField_fieldText {unit unit' rest : Str} (hunit : unit ≠ [])
    (hne : unit.head? ≠ unit'.head?) (hne' : unit' ≠ []) (hrest : NotField unit rest)
    (isBefore : Bool) (z : Int) : NotField unit (fieldText isBefore (z, unit') ++ rest) := by
  by_cases hz : z = 0
  · rw [fieldText, if_pos hz, nil_append]
    exact hrest
  · obtain ⟨c, unit, rfl⟩ := exists_cons_of_ne_nil hunit
    obtain ⟨d, unit', rfl⟩ := exists_cons_of_ne_nil hne'
    have hcd : c ≠ d := fun h => hne (by rw [h]; rfl)
    unfold NotField readField
    rw [fieldText_of_ne hz, readSign_field, readDigits_numeral _ (stops_blank _)]
    dsimp only
    refine if_neg fun hprefix => hcd ?_
    have hcons := List.isPrefixOf_iff_prefix.mp hprefix
    exact (cons_prefix_cons.mp (cons_prefix_cons.mp hcons).2).1

theorem notField_nil (unit : Str) : NotField unit [] := rfl

/-- The sign printed before an interval's clock, as the flags ask. -/
def clockSign (negative plus : Bool) : Str :=
  if negative then ['-'] else if plus then ['+'] else []

theorem readSign_clock (negative plus : Bool) (hours minutes seconds fraction : Nat) (rest : Str) :
    readSign (clockSign negative plus ++ clockText hours minutes seconds fraction ++ rest) =
      (negative, clockText hours minutes seconds fraction ++ rest) := by
  unfold clockText
  simp only [append_assoc]
  obtain ⟨hplain, hminus, hplus⟩ := readSign_digits (digits_padded 2 hours) (padded_ne_nil 2 hours)
    (':' :: padded 2 minutes ++ (':' :: pushSeconds seconds fraction ++ rest))
  cases negative with
  | true => exact hminus
  | false =>
    cases plus with
    | true => exact hplus
    | false => exact hplain

theorem notField_clock (unit : Str) (negative plus : Bool) (hours minutes seconds fraction : Nat)
    (rest : Str) : NotField unit
      (clockSign negative plus ++ clockText hours minutes seconds fraction ++ rest) := by
  have hdigits : readDigits (clockText hours minutes seconds fraction ++ rest) =
      some (hours, ':' :: (padded 2 minutes ++ ':' :: (pushSeconds seconds fraction ++ rest))) := by
    unfold clockText
    simp only [append_assoc, cons_append]
    exact readDigits_padded 2 hours (stops_cons rfl _)
  unfold NotField readField
  rw [readSign_clock, hdigits]
  dsimp only
  refine if_neg fun hprefix => ?_
  have hcons := List.isPrefixOf_iff_prefix.mp hprefix
  exact absurd (cons_prefix_cons.mp hcons).1 (by decide)

/-! ## The whole text -/

/-- The three fields printed one after the other are taken off one after the other. -/
theorem readInterval_of_fields {text clock : Str} {isBefore₁ isBefore₂ isBefore₃ : Bool}
    {years months days : Int} (hclock : ∀ unit, NotField unit clock)
    (htext : text ++ [' '] = fieldText isBefore₁ (years, "year".toList) ++
      (fieldText isBefore₂ (months, "mon".toList) ++
        (fieldText isBefore₃ (days, "day".toList) ++ clock))) :
    readInterval text =
      if clock = [] then some (0, days, 12 * years + months)
      else
        match readClock (readSign clock).2 with
        | some (micros, rest) =>
          if rest = [' '] then some (signed (readSign clock).1 micros, days, 12 * years + months)
          else none
        | none =>
          if text = "infinity".toList then some (infinite false)
          else if text = "-infinity".toList then some (infinite true)
          else none := by
  have hdays : readField "day".toList (fieldText isBefore₃ (days, "day".toList) ++ clock) =
      (days, clock) := readField_fieldText (hclock _) ..
  have hmonths : readField "mon".toList (fieldText isBefore₂ (months, "mon".toList) ++
      (fieldText isBefore₃ (days, "day".toList) ++ clock)) =
      (months, fieldText isBefore₃ (days, "day".toList) ++ clock) :=
    readField_fieldText (notField_fieldText (by decide) (by decide) (by decide) (hclock _) ..) ..
  have hyears : readField "year".toList (fieldText isBefore₁ (years, "year".toList) ++
      (fieldText isBefore₂ (months, "mon".toList) ++
        (fieldText isBefore₃ (days, "day".toList) ++ clock))) =
      (years, fieldText isBefore₂ (months, "mon".toList) ++
        (fieldText isBefore₃ (days, "day".toList) ++ clock)) :=
    readField_fieldText (notField_fieldText (by decide) (by decide) (by decide)
      (notField_fieldText (by decide) (by decide) (by decide) (hclock _) ..) ..) ..
  unfold readInterval
  rw [htext]
  simp only [hyears, hmonths, hdays]

theorem clock_parts (micros : Int) :
    ∃ h m s f : Int, h = micros.tdiv usecsPerHour ∧
      m = (micros.tmod usecsPerHour).tdiv usecsPerMinute ∧
      s = ((micros.tmod usecsPerHour).tmod usecsPerMinute).tdiv usecsPerSec ∧
      f = ((micros.tmod usecsPerHour).tmod usecsPerMinute).tmod usecsPerSec ∧
      h.natAbs * 3600000000 + m.natAbs * 60000000 + s.natAbs * 1000000 + f.natAbs =
        micros.natAbs ∧
      f.natAbs < 1000000 ∧ ((h < 0 ∨ m < 0 ∨ s < 0 ∨ f < 0) ↔ micros < 0) := by
  have hdiv (a b : Nat) : (a : Int).tdiv b = ((a / b : Nat) : Int) := rfl
  have hmod (a b : Nat) : (a : Int).tmod b = ((a % b : Nat) : Int) := rfl
  have hh : usecsPerHour = ((3600000000 : Nat) : Int) := rfl
  have hm : usecsPerMinute = ((60000000 : Nat) : Int) := rfl
  have hs : usecsPerSec = ((1000000 : Nat) : Int) := rfl
  refine ⟨_, _, _, _, rfl, rfl, rfl, rfl, ?_⟩
  rw [hh, hm, hs]
  obtain ⟨n, rfl | rfl⟩ := Int.eq_nat_or_neg micros
  · rw [hdiv, hmod, hdiv, hmod, hdiv, hmod]
    refine ⟨?_, ?_, ?_⟩ <;> omega
  · simp only [Int.neg_tdiv, Int.neg_tmod, hdiv, hmod]
    refine ⟨?_, ?_, ?_⟩ <;> omega

theorem month_parts (months : Int32) :
    ∃ y m : Int, y = months.toInt.tdiv monthsPerYear ∧ m = months.toInt.tmod monthsPerYear ∧
      12 * y + m = months.toInt ∧ i32 y = some y ∧ i32 m = some m := by
  have hdiv (a b : Nat) : (a : Int).tdiv b = ((a / b : Nat) : Int) := rfl
  have hmod (a b : Nat) : (a : Int).tmod b = ((a % b : Nat) : Int) := rfl
  have htwelve : monthsPerYear = ((12 : Nat) : Int) := rfl
  have hlow := months.le_toInt
  have hhigh := months.toInt_lt
  refine ⟨_, _, rfl, rfl, ?_⟩
  rw [htwelve]
  obtain ⟨n, hn | hn⟩ := Int.eq_nat_or_neg months.toInt
  · rw [hn, hdiv, hmod]
    exact ⟨by omega, i32_of (by omega), i32_of (by omega)⟩
  · rw [hn, Int.neg_tdiv, Int.neg_tmod, hdiv, hmod]
    exact ⟨by omega, i32_of (by omega), i32_of (by omega)⟩

theorem interval_eq (micros : Int64) (days months : Int32)
    (hleast : ¬ (micros = Int64.minValue ∧ days = Int32.minValue ∧ months = Int32.minValue))
    (hgreatest : ¬ (micros = Int64.maxValue ∧ days = Int32.maxValue ∧ months = Int32.maxValue)) :
    ∃ text, interval micros days months = some text ∧
      readInterval text = some (micros.toInt, days.toInt, months.toInt) := by
  obtain ⟨y, mo, hy, hmo, hmonths, hyFits, hmoFits⟩ := month_parts months
  obtain ⟨h, m, s, f, hh, hm, hs, hf, hsum, hfraction, hsign⟩ := clock_parts micros.toInt
  have hlow := micros.le_toInt
  have hhigh := micros.toInt_lt
  have hrest₁ : i64 (micros.toInt.tmod usecsPerHour) = some (micros.toInt.tmod usecsPerHour) := by
    have := Int.natAbs_tmod micros.toInt usecsPerHour
    have hhour : usecsPerHour.natAbs = 3600000000 := rfl
    rw [hhour] at this
    exact i64_of (by omega)
  have hrest₂ : i64 ((micros.toInt.tmod usecsPerHour).tmod usecsPerMinute) =
      some ((micros.toInt.tmod usecsPerHour).tmod usecsPerMinute) := by
    have := Int.natAbs_tmod (micros.toInt.tmod usecsPerHour) usecsPerMinute
    have hminute : usecsPerMinute.natAbs = 60000000 := rfl
    rw [hminute] at this
    exact i64_of (by omega)
  obtain ⟨line, hline⟩ : ∃ line, line = [(y, "year".toList), (mo, "mon".toList),
      (days.toInt, "day".toList)].foldl pushField ⟨[], true, false⟩ := ⟨_, rfl⟩
  obtain ⟨b₁, b₂, b₃, hclosed⟩ : ∃ b₁ b₂ b₃, line.closed = fieldText b₁ (y, "year".toList) ++
      (fieldText b₂ (mo, "mon".toList) ++ fieldText b₃ (days.toInt, "day".toList)) := by
    obtain ⟨line₁, hline₁⟩ : ∃ l, l = pushField ⟨[], true, false⟩ (y, "year".toList) := ⟨_, rfl⟩
    obtain ⟨line₂, hline₂⟩ : ∃ l, l = pushField line₁ (mo, "mon".toList) := ⟨_, rfl⟩
    have hlast : line = pushField line₂ (days.toInt, "day".toList) := by
      rw [hline, hline₂, hline₁]
      rfl
    refine ⟨false, line₁.isBefore, line₂.isBefore, ?_⟩
    rw [hlast, closed_pushField, hline₂, closed_pushField, ← hline₂, hline₁, closed_pushField,
      ← hline₁, append_assoc, append_assoc]
    rfl
  unfold interval
  rw [if_neg hleast, if_neg hgreatest, ← hy, bind_of_eq hyFits, ← hmo, bind_of_eq hmoFits, ← hh,
    i64_bind (by omega), bind_of_eq hrest₁, ← hm, i64_bind (by omega), bind_of_eq hrest₂, ← hs,
    i64_bind (by omega), ← hf, i64_bind (by omega), ← hline]
  dsimp only
  by_cases hprinted : line.isZero = true ∨ h ≠ 0 ∨ m ≠ 0 ∨ s ≠ 0 ∨ f ≠ 0
  · rw [if_pos hprinted]
    refine ⟨_, rfl, ?_⟩
    obtain ⟨clock, hclock⟩ : ∃ clock, clock = clockSign (decide (h < 0 ∨ m < 0 ∨ s < 0 ∨ f < 0))
        line.isBefore ++ clockText h.natAbs m.natAbs s.natAbs f.natAbs ++ [' '] := ⟨_, rfl⟩
    have hnot (unit : Str) : NotField unit clock := by
      rw [hclock]
      exact notField_clock ..
    have hne : clock ≠ [] := by
      rw [hclock]
      exact append_ne_nil_of_right_ne_nil _ (cons_ne_nil _ _)
    have hafter : AfterClock [' '] := ⟨stops_blank [], by decide⟩
    have hsigned : signed (decide (h < 0 ∨ m < 0 ∨ s < 0 ∨ f < 0)) micros.toInt.natAbs =
        micros.toInt := by
      rw [decide_eq_decide.mpr hsign, signed_natAbs]
    have hout : line.out ++ (if line.isZero then [] else [' ']) = line.closed := by
      unfold Line.closed
      cases line.isZero with
      | true => exact append_nil _
      | false => rfl
    have hsignText : (if h < 0 ∨ m < 0 ∨ s < 0 ∨ f < 0 then ['-']
        else if line.isBefore then ['+'] else []) =
        clockSign (decide (h < 0 ∨ m < 0 ∨ s < 0 ∨ f < 0)) line.isBefore := by
      unfold clockSign
      simp only [decide_eq_true_eq]
    have htext : line.out ++ (if line.isZero then [] else [' ']) ++
        (if h < 0 ∨ m < 0 ∨ s < 0 ∨ f < 0 then ['-'] else if line.isBefore then ['+'] else []) ++
        padded 2 h.natAbs ++ ':' :: padded 2 m.natAbs ++ ':' :: pushSeconds s.natAbs f.natAbs ++
        [' '] = fieldText b₁ (y, "year".toList) ++ (fieldText b₂ (mo, "mon".toList) ++
          (fieldText b₃ (days.toInt, "day".toList) ++ clock)) := by
      rw [hout, hsignText, hclosed, hclock, clockText]
      simp only [append_assoc, cons_append]
    rw [readInterval_of_fields hnot htext, if_neg hne, hclock, readSign_clock]
    dsimp only
    rw [readClock_clockText _ _ _ hfraction hafter]
    dsimp only
    rw [if_pos rfl, hsum, hsigned, hmonths]
  · -- nothing of the clock is printed: every part of it is zero
    rw [if_neg hprinted]
    refine ⟨_, rfl, ?_⟩
    have hzero : line.isZero = false := Bool.eq_false_iff.mpr fun h => hprinted (.inl h)
    have hmicros : micros.toInt = 0 := by omega
    have htext : line.out ++ [' '] = fieldText b₁ (y, "year".toList) ++
        (fieldText b₂ (mo, "mon".toList) ++ (fieldText b₃ (days.toInt, "day".toList) ++ [])) := by
      rw [append_nil, ← hclosed, Line.closed, hzero, if_neg Bool.false_ne_true]
    rw [readInterval_of_fields (fun unit => notField_nil unit) htext, if_pos rfl, hmonths, hmicros]

theorem interval_reads (micros : Int64) (days months : Int32) :
    ∃ text, interval micros days months = some text ∧
      readInterval text = some (micros.toInt, days.toInt, months.toInt) := by
  by_cases hleast : micros = Int64.minValue ∧ days = Int32.minValue ∧ months = Int32.minValue
  · obtain ⟨rfl, rfl, rfl⟩ := hleast
    exact ⟨"-infinity".toList, rfl, by decide⟩
  · by_cases hgreatest : micros = Int64.maxValue ∧ days = Int32.maxValue ∧ months = Int32.maxValue
    · obtain ⟨rfl, rfl, rfl⟩ := hgreatest
      exact ⟨"infinity".toList, by decide, by decide⟩
    · exact interval_eq micros days months hleast hgreatest

theorem interval_inj {micros micros' : Int64} {days days' months months' : Int32} {text : Str}
    (h : interval micros days months = some text)
    (h' : interval micros' days' months' = some text) :
    micros = micros' ∧ days = days' ∧ months = months' := by
  obtain ⟨text₁, htext₁, hread₁⟩ := interval_reads micros days months
  obtain ⟨text₂, htext₂, hread₂⟩ := interval_reads micros' days' months'
  obtain rfl : text₁ = text := Option.some.inj (htext₁.symm.trans h)
  obtain rfl : text₂ = text₁ := Option.some.inj (htext₂.symm.trans h')
  obtain ⟨hmicros, hrest⟩ := Prod.mk.inj (Option.some.inj (hread₁.symm.trans hread₂))
  obtain ⟨hdays, hmonths⟩ := Prod.mk.inj hrest
  exact ⟨Int64.toInt_inj.mp hmicros, Int32.toInt_inj.mp hdays, Int32.toInt_inj.mp hmonths⟩

/-! ## One text a value -/

section Apart

variable {β : Type} {outcome outcome' : Outcome} {special special' : Option Str}
  {julianDay julianDay' : Int} {read : Str → Option β} {v v' : β} {error error' text : Str}

/-- Two values that render as one text are both special, with that text, or both in range and read
as one. -/
theorem Renders.same (h : Renders outcome special julianDay (read · = some v) error)
    (h' : Renders outcome' special' julianDay' (read · = some v') error')
    (htext : outcome = some (.ok text)) (htext' : outcome' = some (.ok text))
    (hread : ∀ s ∈ special, read s = none) (hread' : ∀ s ∈ special', read s = none) :
    (special = some text ∧ special' = some text) ∨
      (special = none ∧ special' = none ∧ v = v' ∧ 0 ≤ julianDay ∧ 0 ≤ julianDay') := by
  subst htext htext'
  have hplain {special : Option Str} {julianDay : Int} {v : β} {error : Str}
      (h : Renders (some (.ok text)) special julianDay (read · = some v) error) :
      special = some text ∨ (special = none ∧ read text = some v ∧ 0 ≤ julianDay) := by
    unfold Renders at h
    split at h
    next s => exact .inl (congrArg some (Except.ok.inj (Option.some.inj h)).symm)
    next =>
      split at h
      next hrange =>
        obtain ⟨s, hs, hv⟩ := h
        obtain rfl : text = s := Except.ok.inj (Option.some.inj hs)
        exact .inr ⟨rfl, hv, hrange.1⟩
      next => cases h
  rcases hplain h with hs | ⟨hs, hv, hday⟩
  · rcases hplain h' with hs' | ⟨-, hv', -⟩
    · exact .inl ⟨hs, hs'⟩
    · rw [hread text hs] at hv'
      cases hv'
  · rcases hplain h' with hs' | ⟨hs', hv', hday'⟩
    · rw [hread' text hs'] at hv
      cases hv
    · exact .inr ⟨hs, hs', Option.some.inj (hv.symm.trans hv'), hday, hday'⟩

end Apart

section Special

variable {α : Type} [DecidableEq α] {low high a b : α} {minus plus text : Str}

theorem special_eq_some
    (h : (if a = low then some minus else if a = high then some plus else none) = some text) :
    (a = low ∧ text = minus) ∨ (a = high ∧ text = plus) := by
  split at h
  next ha => exact .inl ⟨ha, (Option.some.inj h).symm⟩
  next =>
    split at h
    next ha => exact .inr ⟨ha, (Option.some.inj h).symm⟩
    next => cases h

theorem special_inj (hne : minus ≠ plus)
    (ha : (if a = low then some minus else if a = high then some plus else none) = some text)
    (hb : (if b = low then some minus else if b = high then some plus else none) = some text) :
    a = b := by
  rcases special_eq_some ha with ⟨rfl, rfl⟩ | ⟨rfl, rfl⟩
  · rcases special_eq_some hb with ⟨rfl, -⟩ | ⟨-, h⟩
    · rfl
    · exact absurd h hne
  · rcases special_eq_some hb with ⟨-, h⟩ | ⟨rfl, -⟩
    · exact absurd h.symm hne
    · rfl

end Special

theorem readDateText_special {a : Int32} : ∀ s ∈ specialI32 a, readDateText s = none := by
  intro s hs
  rcases special_eq_some hs with ⟨-, rfl⟩ | ⟨-, rfl⟩
  · rfl
  · rfl

theorem readStampText_special {a : Int64} : ∀ s ∈ specialI64 a, readStampText s = none := by
  intro s hs
  rcases special_eq_some hs with ⟨-, rfl⟩ | ⟨-, rfl⟩
  · rfl
  · rfl

theorem date_inj {a b : Int32} {text : Str} (ha : date a = some (.ok text))
    (hb : date b = some (.ok text)) : a = b := by
  rcases (date_renders a).same (date_renders b) ha hb readDateText_special readDateText_special with
    ⟨hs, hs'⟩ | ⟨-, -, hday, hlow, hlow'⟩
  · exact special_inj (by decide) hs hs'
  · have hdays := Gregorian.julian_injective hday
    exact Int32.toInt_inj.mp (by omega)

theorem timestampWith_inj {utcSuffix : Bool} {a b : Int64} {text : Str}
    (ha : timestampWith a utcSuffix = some (.ok text))
    (hb : timestampWith b utcSuffix = some (.ok text)) : a = b := by
  rcases (timestampWith_renders a utcSuffix).same (timestampWith_renders b utcSuffix) ha hb
    readStampText_special readStampText_special with ⟨hs, hs'⟩ | ⟨-, -, hstamp, hlow, hlow'⟩
  · exact special_inj (by decide) hs hs'
  · obtain ⟨hday, hclock⟩ := Prod.mk.inj hstamp
    have hdays := Gregorian.julian_injective hday
    have husecs : usecsPerDay = 86400000000 := rfl
    rw [husecs] at hdays hclock hlow hlow'
    exact Int64.toInt_inj.mp (by omega)

/-- For every day count and every microsecond count: an infinity, the text of the proleptic
Gregorian date (and time) where its Julian day is in range, an error beyond it; two values never
print one text. The text of an interval determines its fields. Nothing overflows. -/
theorem datetime_exact :
    (∀ days : Int32, Renders (date days) (specialI32 days) (days.toInt + postgresEpochJdate)
      (fun text => readDateText text =
        some (Gregorian.julian (days.toInt + postgresEpochJdate).toNat))
      "date out of range".toList) ∧
    (∀ (micros : Int64) (utcSuffix : Bool),
      Renders (timestampWith micros utcSuffix) (specialI64 micros)
        (micros.toInt / usecsPerDay + postgresEpochJdate)
        (fun text => readStampText text =
          some (Gregorian.julian (micros.toInt / usecsPerDay + postgresEpochJdate).toNat,
            (micros.toInt % usecsPerDay).toNat))
        "timestamp out of range".toList) ∧
    (∀ (a b : Int32) (text : Str), date a = some (.ok text) → date b = some (.ok text) → a = b) ∧
    (∀ (utcSuffix : Bool) (a b : Int64) (text : Str), timestampWith a utcSuffix = some (.ok text) →
      timestampWith b utcSuffix = some (.ok text) → a = b) ∧
    (∀ (micros : Int64) (days months : Int32), ∃ text, interval micros days months = some text ∧
      readInterval text = some (micros.toInt, days.toInt, months.toInt)) ∧
    ∀ (micros micros' : Int64) (days days' months months' : Int32) (text : Str),
      interval micros days months = some text → interval micros' days' months' = some text →
        micros = micros' ∧ days = days' ∧ months = months' :=
  ⟨date_renders, timestampWith_renders, fun _ _ _ ha hb => date_inj ha hb,
    fun _ _ _ _ ha hb => timestampWith_inj ha hb, interval_reads,
    fun _ _ _ _ _ _ _ h h' => interval_inj h h'⟩

end Oxyn.Postgres.Datetime
