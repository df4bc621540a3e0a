import Mathlib.Algebra.BigOperators.Group.Finset.Basic
import Mathlib.Algebra.Order.BigOperators.Group.Finset
import Mathlib.Tactic.IntervalCases
import Mathlib.Tactic.Ring

/-!
# The calendar

The proleptic Gregorian calendar by its rules: a date is a day of a month of a year, and the day
behind the last one of a month or of a year is the first one of the next. The days since the
beginning of a year are those of the years and of the months in between, and the date before.

The months of a year and the days of a month are counted from zero.

## Main results

* `lt_blockStart` — of two positions in consecutive blocks
* `next_iterate_daysSince` — a date is reached by as many steps as there are days up to it
* `daysSince_lt`, `secondsSince_lt` — the counts increase with the date and the time of day
* `blockStart_daysInYear` — the days of a row of years, by a difference of quotients
-/

namespace TQLib

open Finset

/-! ## Consecutive blocks -/

section Blocks

variable {len : ℕ → ℕ} {i j r : ℕ}

/-- Where the `i`-th of consecutive blocks begins. -/
def blockStart (len : ℕ → ℕ) (i : ℕ) : ℕ := ∑ k ∈ range i, len k

@[simp] theorem blockStart_zero : blockStart len 0 = 0 := rfl

theorem blockStart_succ : blockStart len (i + 1) = blockStart len i + len i := sum_range_succ len i

theorem blockStart_mono (h : i ≤ j) : blockStart len i ≤ blockStart len j :=
  sum_le_sum_of_subset (range_mono h)

/-- A position in a block is in front of the later ones. -/
theorem lt_blockStart (h : i < j) (hr : r < len i) : blockStart len i + r < blockStart len j := by
  have hend : blockStart len (i + 1) ≤ blockStart len j := blockStart_mono h
  rw [blockStart_succ] at hend
  omega

end Blocks

/-! ## The rules -/

/-- Every fourth year is a leap year, but of the hundredth years only every fourth. -/
def IsLeap (y : ℕ) : Prop := 4 ∣ y ∧ (¬ 100 ∣ y ∨ 400 ∣ y)

instance (y : ℕ) : Decidable (IsLeap y) := inferInstanceAs (Decidable (_ ∧ (_ ∨ _)))

/-- The days of a year. -/
def daysInYear (y : ℕ) : ℕ := if IsLeap y then 366 else 365

/-- The days of a month. -/
def daysInMonth (y : ℕ) : ℕ → ℕ
  | 1 => if IsLeap y then 29 else 28
  | 3 | 5 | 8 | 10 => 30
  | _ => 31

theorem daysInMonth_pos (y m : ℕ) : 0 < daysInMonth y m := by
  unfold daysInMonth
  split <;> (try split) <;> omega

/-- The months make up the year. -/
theorem blockStart_daysInMonth (y : ℕ) : blockStart (daysInMonth y) 12 = daysInYear y := by
  simp only [blockStart_succ, blockStart_zero, daysInMonth, daysInYear]
  split <;> rfl

/-- A day of the calendar. -/
@[ext] structure Date where
  year : ℕ
  /-- From 0 to 11. -/
  month : ℕ
  /-- From 0. -/
  day : ℕ
  month_lt : month < 12
  day_lt : day < daysInMonth year month
  deriving DecidableEq

namespace Date

variable {base : ℕ} {a b : Date}

/-- The first day of a year. -/
def newYear (y : ℕ) : Date := ⟨y, 0, 0, by decide, daysInMonth_pos y 0⟩

/-- The next day. -/
def next (d : Date) : Date :=
  if h : d.day + 1 < daysInMonth d.year d.month then ⟨d.year, d.month, d.day + 1, d.month_lt, h⟩
  else if h : d.month + 1 < 12 then ⟨d.year, d.month + 1, 0, h, daysInMonth_pos _ _⟩
  else newYear (d.year + 1)

/-- The order of the calendar. -/
def Before (a b : Date) : Prop :=
  a.year < b.year ∨ a.year = b.year ∧
    (a.month < b.month ∨ a.month = b.month ∧ a.day < b.day)

/-- Of two days one is before the other. -/
theorem before_trichotomy (a b : Date) : a.Before b ∨ a = b ∨ b.Before a := by
  obtain hyear | hyear | hyear := lt_trichotomy a.year b.year
  · exact .inl (.inl hyear)
  · obtain hmonth | hmonth | hmonth := lt_trichotomy a.month b.month
    · exact .inl (.inr ⟨hyear, .inl hmonth⟩)
    · obtain hday | hday | hday := lt_trichotomy a.day b.day
      · exact .inl (.inr ⟨hyear, .inr ⟨hmonth, hday⟩⟩)
      · exact .inr (.inl (Date.ext hyear hmonth hday))
      · exact .inr (.inr (.inr ⟨hyear.symm, .inr ⟨hmonth.symm, hday⟩⟩))
    · exact .inr (.inr (.inr ⟨hyear.symm, .inl hmonth⟩))
  · exact .inr (.inr (.inl hyear))

/-- The days of the year that are over. -/
def dayOfYear (d : Date) : ℕ := blockStart (daysInMonth d.year) d.month + d.day

theorem dayOfYear_lt (d : Date) : d.dayOfYear < daysInYear d.year := by
  rw [← blockStart_daysInMonth]
  exact lt_blockStart d.month_lt d.day_lt

/-- The days since the beginning of the year `base`. -/
def daysSince (base : ℕ) (d : Date) : ℕ :=
  blockStart (fun i => daysInYear (base + i)) (d.year - base) + d.dayOfYear

@[simp] theorem daysSince_newYear : (newYear base).daysSince base = 0 := by
  simp [daysSince, dayOfYear, newYear]

theorem year_le_next (d : Date) : d.year ≤ d.next.year := by
  unfold next
  split
  · exact le_rfl
  · split
    · exact le_rfl
    · exact Nat.le_succ _

/-- The next day is one day later. -/
theorem daysSince_next {d : Date} (h : base ≤ d.year) :
    d.next.daysSince base = d.daysSince base + 1 := by
  have hday := d.day_lt
  unfold next
  split
  · rfl
  next hlast =>
    have hlen : daysInMonth d.year d.month = d.day + 1 := by omega
    have hmonth : blockStart (daysInMonth d.year) (d.month + 1) = d.dayOfYear + 1 := by
      rw [blockStart_succ, hlen]
      rfl
    split
    · rw [daysSince, dayOfYear, hmonth]
      rfl
    next hyear =>
      -- the last day of December
      have hdec : d.month + 1 = 12 := by have := d.month_lt; omega
      rw [hdec, blockStart_daysInMonth] at hmonth
      have hsub : d.year + 1 - base = (d.year - base) + 1 := by omega
      have hback : base + (d.year - base) = d.year := by omega
      simp only [daysSince, newYear, dayOfYear, hsub, blockStart_succ, hback, blockStart_zero,
        hmonth]
      rfl

theorem year_le_iterate (n : ℕ) : base ≤ (next^[n] (newYear base)).year := by
  induction n with
  | zero => exact le_rfl
  | succ n ih =>
    rw [Function.iterate_succ_apply']
    exact ih.trans (year_le_next _)

theorem daysSince_iterate (n : ℕ) : (next^[n] (newYear base)).daysSince base = n := by
  induction n with
  | zero => exact daysSince_newYear
  | succ n ih => rw [Function.iterate_succ_apply', daysSince_next (year_le_iterate n), ih]

/-- A later date has more days behind it. -/
theorem daysSince_lt (ha : base ≤ a.year) (h : a.Before b) :
    a.daysSince base < b.daysSince base := by
  obtain hyear | ⟨hyear, hmonth⟩ := h
  · have hback : base + (a.year - base) = a.year := by omega
    have hlt : a.dayOfYear < daysInYear (base + (a.year - base)) := hback.symm ▸ a.dayOfYear_lt
    have hstart : blockStart (fun i => daysInYear (base + i)) (a.year - base) + a.dayOfYear <
        blockStart (fun i => daysInYear (base + i)) (b.year - base) :=
      lt_blockStart (Nat.sub_lt_sub_right ha hyear) hlt
    unfold daysSince
    omega
  · unfold daysSince dayOfYear
    rw [← hyear]
    obtain hmonth | ⟨hmonth, hday⟩ := hmonth
    · have := lt_blockStart hmonth a.day_lt
      omega
    · rw [← hmonth]
      omega

theorem daysSince_injective (ha : base ≤ a.year) (hb : base ≤ b.year)
    (h : a.daysSince base = b.daysSince base) : a = b := by
  obtain hlt | heq | hlt := before_trichotomy a b
  · exact absurd h (daysSince_lt ha hlt).ne
  · exact heq
  · exact absurd h (daysSince_lt hb hlt).ne'

/-- From the beginning of the year a date is reached by one step for every day. -/
theorem next_iterate_daysSince (ha : base ≤ a.year) :
    next^[a.daysSince base] (newYear base) = a :=
  daysSince_injective (year_le_iterate _) ha (daysSince_iterate _)

end Date

/-! ## Counting leap years -/

/-- The leap years up to the year `y`, by quotients. -/
def leapQuotients (y : ℕ) : ℤ := y / 4 - y / 100 + y / 400

theorem leapQuotients_succ (y : ℕ) :
    leapQuotients (y + 1) = leapQuotients y + if IsLeap (y + 1) then 1 else 0 := by
  unfold leapQuotients
  by_cases hleap : IsLeap (y + 1)
  · rw [if_pos hleap]
    unfold IsLeap at hleap
    omega
  · rw [if_neg hleap]
    unfold IsLeap at hleap
    omega

/-- The days of a row of years, by the leap years up to their last and up to their first. -/
theorem blockStart_daysInYear (base n : ℕ) :
    (blockStart (fun i => daysInYear (base + i)) n : ℤ) =
      365 * n + (leapQuotients (base + n) - if IsLeap (base + n) then 1 else 0) -
        (leapQuotients base - if IsLeap base then 1 else 0) := by
  induction n with
  | zero => simp
  | succ n ih =>
    have hlen : (daysInYear (base + n) : ℤ) = 365 + if IsLeap (base + n) then 1 else 0 := by
      unfold daysInYear
      split <;> rfl
    rw [blockStart_succ, Nat.cast_add, ih, hlen, ← Nat.add_assoc, leapQuotients_succ]
    push_cast
    ring

/-! ## The time of day -/

/-- A date and a time of day. -/
structure DateTime where
  date : Date
  hour : ℕ
  minute : ℕ
  second : ℕ
  hour_lt : hour < 24
  minute_lt : minute < 60
  second_lt : second < 60
  deriving DecidableEq

namespace DateTime

variable {base : ℕ} {a b : DateTime}

/-- The seconds of the day that are over. -/
def secondOfDay (t : DateTime) : ℕ := 3600 * t.hour + 60 * t.minute + t.second

/-- The order of dates and times. -/
def Before (a b : DateTime) : Prop :=
  a.date.Before b.date ∨ a.date = b.date ∧
    (a.hour < b.hour ∨ a.hour = b.hour ∧
      (a.minute < b.minute ∨ a.minute = b.minute ∧ a.second < b.second))

/-- The seconds since the beginning of the year `base`. -/
def secondsSince (base : ℕ) (t : DateTime) : ℕ := 86400 * t.date.daysSince base + t.secondOfDay

theorem secondOfDay_lt (t : DateTime) : t.secondOfDay < 86400 := by
  have := t.hour_lt
  have := t.minute_lt
  have := t.second_lt
  unfold secondOfDay
  omega

/-- A later time has more seconds behind it. -/
theorem secondsSince_lt (ha : base ≤ a.date.year) (h : a.Before b) :
    a.secondsSince base < b.secondsSince base := by
  unfold secondsSince
  obtain hdate | ⟨hdate, htime⟩ := h
  · have hdays := Date.daysSince_lt ha hdate
    have := a.secondOfDay_lt
    omega
  · have := a.minute_lt
    have := a.second_lt
    rw [hdate]
    unfold secondOfDay
    omega

end DateTime

end TQLib
