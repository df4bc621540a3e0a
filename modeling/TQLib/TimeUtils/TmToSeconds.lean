import TQLib.Foundations.Calendar
import TQLib.Foundations.Signed

/-!
# `rtc::TmToSeconds`

The fields are of type `int`. The year and the day of the month are counted from zero before any
field is checked, and a sum that leaves `int` is undefined. What comes behind the checks is in
range: the days of a date are the days of its years by 365 each, the leap days by quotients, and
the days of the year by a table for a common year.

## Main results

* `accumulatedDay_eq` — the table, the quotients and their correction give the days of the calendar
* `tmToSeconds_of_valid`, `tmToSeconds_of_not_valid` — the value
* `converts_iff` — when the conversion is right
-/

namespace TQLib

namespace TmToSeconds

/-! ## The function -/

/-- `tm`, by the fields that are read. -/
structure Tm where
  tmSec : Int32
  tmMin : Int32
  tmHour : Int32
  tmMday : Int32
  tmMon : Int32
  tmYear : Int32
  deriving DecidableEq, Repr

/-- `mdays`. -/
def mdays : List ℤ := [31, 28, 31, 30, 31, 30, 31, 31, 30, 31, 30, 31]

/-- `cumul_mdays`. -/
def cumulMdays : List ℤ := [0, 31, 59, 90, 120, 151, 181, 212, 243, 273, 304, 334]

/-- `expiry_in_leap_year`. -/
def expiryInLeapYear (year : ℤ) : Bool :=
  year.tmod 4 == 0 && (year.tmod 100 != 0 || year.tmod 400 == 0)

/-- The number of leap days between 1970 and the expiration year, inclusive. -/
def leapDays (year : ℤ) : Option ℤ := do
  let fourths ← signed 32 (year.tdiv 4 - Int.tdiv 1970 4)
  let hundredths ← signed 32 (year.tdiv 100 - Int.tdiv 1970 100)
  let difference ← signed 32 (fourths - hundredths)
  let fourHundredths ← signed 32 (year.tdiv 400 - Int.tdiv 1970 400)
  signed 32 (difference + fourHundredths)

/-- What is made of `day`, from the day of the month. -/
def accumulatedDay (year month day : ℤ) : Option ℤ := do
  let day ← signed 32 (day + cumulMdays.getD month.toNat 0)
  let leap ← leapDays year
  let day ← signed 32 (day + leap)
  if expiryInLeapYear year ∧ month ≤ 2 - 1 then signed 32 (day - 1) else some day

/-- All variables combined into seconds. -/
def combined (year day hour min sec : ℤ) : Option ℤ := do
  let years ← signed 32 (year - 1970)
  let yearDays ← signed 64 (years * 365)
  let days ← signed 64 (yearDays + day)
  let dayHours ← signed 64 (days * 24)
  let hours ← signed 64 (dayHours + hour)
  let hourMinutes ← signed 64 (hours * 60)
  let minutes ← signed 64 (hourMinutes + min)
  let minuteSeconds ← signed 64 (minutes * 60)
  signed 64 (minuteSeconds + sec)

/-- `TmToSeconds`. -/
def tmToSeconds (tm : Tm) : Option ℤ := do
  let year ← signed 32 (tm.tmYear.toInt + 1900)
  let month := tm.tmMon.toInt
  let day ← signed 32 (tm.tmMday.toInt - 1)
  let hour := tm.tmHour.toInt
  let min := tm.tmMin.toInt
  let sec := tm.tmSec.toInt
  if year < 1970 then some (-1)
  else if month < 0 ∨ month > 11 then some (-1)
  else if day < 0 ∨ day ≥ mdays.getD month.toNat 0 +
      (if expiryInLeapYear year ∧ month = 2 - 1 then 1 else 0) then some (-1)
  else if hour < 0 ∨ hour > 23 then some (-1)
  else if min < 0 ∨ min > 59 then some (-1)
  else if sec < 0 ∨ sec > 59 then some (-1)
  else do
    let day ← accumulatedDay year month day
    combined year day hour min sec

/-! ## What it is about -/

/-- The fields are those of a date and time from 1970 on, of a year that is an `int`. -/
structure Tm.Valid (tm : Tm) : Prop where
  year : 1970 ≤ tm.tmYear.toInt + 1900 ∧ InSigned 32 (tm.tmYear.toInt + 1900)
  month : 0 ≤ tm.tmMon.toInt ∧ tm.tmMon.toInt < 12
  day : 1 ≤ tm.tmMday.toInt ∧
    tm.tmMday.toInt ≤ daysInMonth (tm.tmYear.toInt + 1900).toNat tm.tmMon.toInt.toNat
  hour : 0 ≤ tm.tmHour.toInt ∧ tm.tmHour.toInt < 24
  minute : 0 ≤ tm.tmMin.toInt ∧ tm.tmMin.toInt < 60
  second : 0 ≤ tm.tmSec.toInt ∧ tm.tmSec.toInt < 60

/-- The date. -/
def Tm.Valid.date {tm : Tm} (h : tm.Valid) : Date where
  year := (tm.tmYear.toInt + 1900).toNat
  month := tm.tmMon.toInt.toNat
  day := (tm.tmMday.toInt - 1).toNat
  month_lt := by have := h.month; omega
  day_lt := by have := h.day; omega

/-- The date and time. -/
def Tm.Valid.dateTime {tm : Tm} (h : tm.Valid) : DateTime where
  date := h.date
  hour := tm.tmHour.toInt.toNat
  minute := tm.tmMin.toInt.toNat
  second := tm.tmSec.toInt.toNat
  hour_lt := by have := h.hour; omega
  minute_lt := by have := h.minute; omega
  second_lt := by have := h.second; omega

/-! ## The count -/

/-- A year that is a natural number is a leap year by the expression if it is one by the rule. -/
theorem expiryInLeapYear_iff (y : ℕ) : expiryInLeapYear y = true ↔ IsLeap y := by
  have hnonneg : (0 : ℤ) ≤ y := Int.natCast_nonneg y
  simp only [expiryInLeapYear, IsLeap, Bool.and_eq_true, Bool.or_eq_true, beq_iff_eq, bne_iff_ne,
    Int.tmod_eq_emod_of_nonneg hnonneg]
  omega

/-- The length of a month, from the table. -/
theorem mdays_eq {year month : ℤ} (hyear : 0 ≤ year) (hlow : 0 ≤ month) (hhigh : month < 12) :
    mdays.getD month.toNat 0 + (if expiryInLeapYear year ∧ month = 2 - 1 then 1 else 0) =
      daysInMonth year.toNat month.toNat := by
  obtain ⟨y, rfl⟩ := Int.eq_ofNat_of_zero_le hyear
  obtain ⟨m, rfl⟩ := Int.eq_ofNat_of_zero_le hlow
  have hm : m < 12 := by omega
  simp only [expiryInLeapYear_iff, Int.toNat_natCast]
  by_cases hleap : IsLeap y <;> interval_cases m <;> simp [mdays, daysInMonth, hleap]

/-- The days of the year in front of a month, from the table. -/
theorem cumulMdays_eq (y : ℕ) {m : ℕ} (hm : m < 12) :
    (blockStart (daysInMonth y) m : ℤ) =
      cumulMdays.getD m 0 + if IsLeap y ∧ 2 ≤ m then 1 else 0 := by
  by_cases hleap : IsLeap y <;> interval_cases m <;>
    simp [cumulMdays, daysInMonth, blockStart_succ, hleap]

theorem cumulMdays_nonneg {m : ℕ} (hm : m < 12) : 0 ≤ cumulMdays.getD m 0 := by
  interval_cases m <;> decide

/-- **The inclusive difference of quotients** is the number of leap years up to the year. -/
theorem leapDays_eq {y : ℕ} (hfrom : 1970 ≤ y) (hto : InSigned 32 y) :
    leapDays y = some (leapQuotients y - leapQuotients 1970) := by
  have hnonneg : (0 : ℤ) ≤ y := Int.natCast_nonneg y
  unfold InSigned at hto
  simp only [leapDays, leapQuotients, Int.tdiv_eq_ediv_of_nonneg hnonneg,
    Int.tdiv_eq_ediv_of_nonneg (show (0 : ℤ) ≤ 1970 by decide), Option.bind_eq_bind]
  simp (disch := (unfold InSigned; omega)) only [signed_of, Option.bind_some]
  refine congrArg some ?_
  omega

/-- The days since 1970, by quotients. -/
theorem daysSince_eq {d : Date} (hfrom : 1970 ≤ d.year) :
    (d.daysSince 1970 : ℤ) = 365 * ((d.year : ℤ) - 1970) +
      (leapQuotients d.year - leapQuotients 1970 - if IsLeap d.year then 1 else 0) +
        d.dayOfYear := by
  have hyears := blockStart_daysInYear 1970 (d.year - 1970)
  have hback : 1970 + (d.year - 1970) = d.year := by omega
  rw [hback, if_neg (show ¬ IsLeap 1970 by decide)] at hyears
  rw [Date.daysSince, Nat.cast_add, hyears]
  omega

theorem leapQuotients_bounds {y : ℕ} (hfrom : 1970 ≤ y) :
    0 ≤ leapQuotients y - leapQuotients 1970 ∧ leapQuotients y - leapQuotients 1970 ≤ y / 2 := by
  unfold leapQuotients
  omega

theorem dayOfYear_le (d : Date) : d.dayOfYear ≤ 365 := by
  have hday := d.dayOfYear_lt
  unfold daysInYear at hday
  split at hday <;> omega

/-- What the years have too little with 365 days each, and the days of the last, is an `int`. -/
theorem inSigned_accumulated {d : Date} (hfrom : 1970 ≤ d.year) (hto : InSigned 32 d.year) :
    InSigned 32 (d.daysSince 1970 - 365 * ((d.year : ℤ) - 1970)) := by
  have hquotients := leapQuotients_bounds hfrom
  have hday := dayOfYear_le d
  rw [daysSince_eq hfrom]
  unfold InSigned at hto ⊢
  split <;> omega

/-- **The day that is accumulated.** The table has one day too few behind February of a leap year,
and the quotients one too many in front of it. -/
theorem accumulatedDay_eq {d : Date} (hfrom : 1970 ≤ d.year) (hto : InSigned 32 d.year) :
    accumulatedDay d.year d.month d.day =
      some (d.daysSince 1970 - 365 * ((d.year : ℤ) - 1970)) := by
  have hquotients := leapQuotients_bounds hfrom
  have hmonths := cumulMdays_eq d.year d.month_lt
  have htable := cumulMdays_nonneg d.month_lt
  have hday := dayOfYear_le d
  rw [daysSince_eq hfrom]
  unfold Date.dayOfYear at hday ⊢
  unfold InSigned at hto
  simp only [accumulatedDay, leapDays_eq hfrom hto, Int.toNat_natCast, expiryInLeapYear_iff,
    Option.bind_eq_bind]
  simp (disch := (unfold InSigned; omega)) only [signed_of, Option.bind_some]
  by_cases hleap : IsLeap d.year
  · simp only [hleap, true_and, if_true] at hmonths ⊢
    split <;> refine congrArg some ?_ <;> omega
  · simp only [hleap, false_and, if_false] at hmonths ⊢
    refine congrArg some ?_
    omega

/-- **The combination** of what is in range. -/
theorem combined_eq {year day hour min sec : ℤ} (hyear : 1970 ≤ year ∧ InSigned 32 year)
    (hday : InSigned 32 day) (hhour : 0 ≤ hour ∧ hour < 24) (hmin : 0 ≤ min ∧ min < 60)
    (hsec : 0 ≤ sec ∧ sec < 60) :
    combined year day hour min sec =
      some (86400 * ((year - 1970) * 365 + day) + (3600 * hour + 60 * min + sec)) := by
  unfold InSigned at hyear hday
  simp only [combined, Option.bind_eq_bind]
  simp (disch := (unfold InSigned; omega)) only [signed_of, Option.bind_some]
  refine congrArg some ?_
  ring

/-! ## The checks -/

variable {tm : Tm}

/-- Valid fields pass the checks. -/
theorem tmToSeconds_eq (h : tm.Valid) :
    tmToSeconds tm = (accumulatedDay h.date.year h.date.month h.date.day).bind fun day =>
      combined h.date.year day tm.tmHour.toInt tm.tmMin.toInt tm.tmSec.toInt := by
  obtain ⟨hfrom, hto⟩ := h.year
  obtain ⟨hmonth, hmonth'⟩ := h.month
  obtain ⟨hday, hday'⟩ := h.day
  obtain ⟨hhour, hhour'⟩ := h.hour
  obtain ⟨hmin, hmin'⟩ := h.minute
  obtain ⟨hsec, hsec'⟩ := h.second
  have hyearCast : ((tm.tmYear.toInt + 1900).toNat : ℤ) = tm.tmYear.toInt + 1900 := by omega
  have hmonthCast : (tm.tmMon.toInt.toNat : ℤ) = tm.tmMon.toInt := by omega
  have hdayCast : ((tm.tmMday.toInt - 1).toNat : ℤ) = tm.tmMday.toInt - 1 := by omega
  have hlength := mdays_eq (show 0 ≤ tm.tmYear.toInt + 1900 by omega) hmonth hmonth'
  have hdayRange : InSigned 32 (tm.tmMday.toInt - 1) := by
    have := tm.tmMday.toInt_lt
    unfold InSigned
    omega
  simp only [tmToSeconds, signed_of hto, signed_of hdayRange, hlength, Option.bind_eq_bind,
    Option.bind_some, Tm.Valid.date, hyearCast, hmonthCast, hdayCast]
  rw [if_neg (by omega), if_neg (by omega), if_neg (by omega), if_neg (by omega),
    if_neg (by omega), if_neg (by omega)]

/-- **The value for valid fields.** -/
theorem tmToSeconds_of_valid (h : tm.Valid) :
    tmToSeconds tm = some (h.dateTime.secondsSince 1970 : ℤ) := by
  obtain ⟨hfrom, hto⟩ := h.year
  have hyear : (h.date.year : ℤ) = tm.tmYear.toInt + 1900 := Int.toNat_of_nonneg (by omega)
  have hhour : (h.dateTime.hour : ℤ) = tm.tmHour.toInt := Int.toNat_of_nonneg h.hour.1
  have hmin : (h.dateTime.minute : ℤ) = tm.tmMin.toInt := Int.toNat_of_nonneg h.minute.1
  have hsec : (h.dateTime.second : ℤ) = tm.tmSec.toInt := Int.toNat_of_nonneg h.second.1
  have hfrom' : 1970 ≤ h.date.year := by omega
  rw [← hyear] at hfrom hto
  rw [tmToSeconds_eq h, accumulatedDay_eq hfrom' hto, Option.bind_some,
    combined_eq ⟨hfrom, hto⟩ (inSigned_accumulated hfrom' hto) h.hour h.minute h.second]
  refine congrArg some ?_
  have hdate : h.dateTime.date = h.date := rfl
  rw [DateTime.secondsSince, DateTime.secondOfDay, hdate]
  push_cast
  rw [hhour, hmin, hsec]
  ring

/-- **The value for fields one of which is invalid**, if the first two sums are defined. -/
theorem tmToSeconds_of_not_valid (hyear : InSigned 32 (tm.tmYear.toInt + 1900))
    (hday : InSigned 32 (tm.tmMday.toInt - 1)) (h : ¬ tm.Valid) : tmToSeconds tm = some (-1) := by
  simp only [tmToSeconds, signed_of hyear, signed_of hday, Option.bind_eq_bind, Option.bind_some]
  split
  · rfl
  next hfrom =>
  split
  · rfl
  next hmonth =>
  rw [mdays_eq (by omega) (by omega) (by omega)]
  split
  · rfl
  next hmday =>
  split
  · rfl
  next hhour =>
  split
  · rfl
  next hmin =>
  split
  · rfl
  next hsec =>
  exact absurd ⟨⟨by omega, hyear⟩, by omega, by omega, by omega, by omega, by omega⟩ h

/-- The sums of the first lines. -/
theorem tmToSeconds_of_undefined
    (h : ¬ (InSigned 32 (tm.tmYear.toInt + 1900) ∧ InSigned 32 (tm.tmMday.toInt - 1))) :
    tmToSeconds tm = none := by
  unfold tmToSeconds
  by_cases hyear : InSigned 32 (tm.tmYear.toInt + 1900)
  · have hday : ¬ InSigned 32 (tm.tmMday.toInt - 1) := fun hday => h ⟨hyear, hday⟩
    rw [signed_of hyear, signed_of_not hday]
    rfl
  · rw [signed_of_not hyear]
    rfl

/-! ## The conversion -/

/-- **What the conversion is for.** -/
structure Converts (tm : Tm) : Prop where
  /-- Valid fields give the seconds of the days since 1970-01-01, each the day after the one
  before, and of the time of day. -/
  value : ∀ h : tm.Valid, ∃ days : ℕ, Date.next^[days] (Date.newYear 1970) = h.date ∧
    tmToSeconds tm = some (86400 * (days : ℤ) + h.dateTime.secondOfDay)
  /-- A later date or time has a greater value. -/
  increasing : ∀ (h : tm.Valid) {later : Tm} (g : later.Valid), h.dateTime.Before g.dateTime →
    ∃ x y, tmToSeconds tm = some x ∧ tmToSeconds later = some y ∧ x < y
  /-- The value -1 is for invalid fields. -/
  invalid : tmToSeconds tm = some (-1) ↔ ¬ tm.Valid

/-- Both sums of the first lines are defined. -/
theorem inSigned_iff : InSigned 32 (tm.tmYear.toInt + 1900) ∧ InSigned 32 (tm.tmMday.toInt - 1) ↔
    tm.tmYear.toInt ≤ 2 ^ 31 - 1 - 1900 ∧ -2 ^ 31 < tm.tmMday.toInt := by
  have := tm.tmYear.le_toInt
  have := tm.tmMday.toInt_lt
  unfold InSigned
  omega

theorem Tm.Valid.year_le (h : tm.Valid) : 1970 ≤ h.date.year := by
  have hyear : (h.date.year : ℤ) = tm.tmYear.toInt + 1900 :=
    Int.toNat_of_nonneg (by have := h.year.1; omega)
  have := h.year.1
  omega

/-- Without the sums there is no value, not even for invalid fields. -/
theorem Converts.inSigned (h : Converts tm) :
    InSigned 32 (tm.tmYear.toInt + 1900) ∧ InSigned 32 (tm.tmMday.toInt - 1) := by
  by_contra hout
  have hnone := tmToSeconds_of_undefined hout
  by_cases hvalid : tm.Valid
  · rw [tmToSeconds_of_valid hvalid] at hnone
    cases hnone
  · rw [h.invalid.mpr hvalid] at hnone
    cases hnone

/-- **A conversion is right if and only if** the year and the day in front of the day of the month
are an `int`. -/
theorem converts_iff (tm : Tm) :
    Converts tm ↔ tm.tmYear.toInt ≤ 2 ^ 31 - 1 - 1900 ∧ -2 ^ 31 < tm.tmMday.toInt := by
  rw [← inSigned_iff]
  refine ⟨Converts.inSigned, ?_⟩
  rintro ⟨hyear, hday⟩
  refine ⟨fun h => ?_, fun h later g hbefore => ?_, fun hvalue h => ?_, fun h => ?_⟩
  · refine ⟨h.date.daysSince 1970, Date.next_iterate_daysSince h.year_le, ?_⟩
    rw [tmToSeconds_of_valid h, DateTime.secondsSince, Nat.cast_add, Nat.cast_mul]
    rfl
  · refine ⟨_, _, tmToSeconds_of_valid h, tmToSeconds_of_valid g, ?_⟩
    exact Int.ofNat_lt.mpr (DateTime.secondsSince_lt h.year_le hbefore)
  · rw [tmToSeconds_of_valid h, Option.some_inj] at hvalue
    omega
  · exact tmToSeconds_of_not_valid hyear hday h

/-- A day of the month with nothing in front of it. -/
theorem not_converts_minMday : ¬ Converts ⟨0, 0, 0, -2147483648, 0, 70⟩ := by
  intro h
  exact absurd h.inSigned.2 (by decide)

end TmToSeconds

end TQLib
