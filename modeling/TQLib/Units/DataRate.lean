import TQLib.Units.UnitBase

/-!
# Arithmetic across units

The operators of `api/units/data_rate.h`: a size by a duration, a rate or a frequency, a rate by
the others. Each scales what it divides, or what it multiplies gives, to a unit that is fine enough,
in `int64_t`. A quotient is truncated, a product rounded to the next value of the class it is in.

The scaling is checked, and so is the product of a size and a frequency. The divisor of a quotient
is not, and neither is the product of a rate and a duration, nor what is added to round a product.

## Main results

* `gives_divided` — a quotient, for the four operators that have one
* `exact_iff` — where each operator gives the exact result, up to its rounding
-/

namespace TQLib

namespace DataRate

open RelativeUnit Checked

variable {c d : UnitClass} {onCheck : Prop}

/-! ## The operators -/

/-- `std::numeric_limits<int64_t>::max()`. -/
def int64Max : ℤ := 2 ^ 63 - 1

/-- A value in a unit that is finer by `factor`. -/
def scaled (factor : ℤ) (u : RelativeUnit c) : Except Failure ℤ := do
  let value ← u.toValue
  check (value ≤ int64Max.tdiv factor)
  arith 64 (value * factor)

/-- `Microbits`. -/
def microbits (size : RelativeUnit .dataSize) : Except Failure ℤ := scaled 8000000 size

/-- `MillibytePerSec`. -/
def millibytePerSec (rate : RelativeUnit .dataRate) : Except Failure ℤ := scaled (1000 / 8) rate

/-- What has been scaled, divided. -/
def divided (dividend : Except Failure ℤ) (divisor : RelativeUnit c) (d : UnitClass) :
    Except Failure (RelativeUnit d) := do
  let dividend ← dividend
  let divisor ← divisor.toValue
  let result ← quotient 64 dividend divisor
  fromValue d result

/-- `operator/`, of a `DataSize` and a `TimeDelta`. -/
def sizeDivDuration (size : RelativeUnit .dataSize) (duration : RelativeUnit .timeDelta) :
    Except Failure (RelativeUnit .dataRate) := divided (microbits size) duration .dataRate

/-- `operator/`, of a `DataSize` and a `DataRate`. -/
def sizeDivRate (size : RelativeUnit .dataSize) (rate : RelativeUnit .dataRate) :
    Except Failure (RelativeUnit .timeDelta) := divided (microbits size) rate .timeDelta

/-- `operator/`, of a `DataRate` and a `Frequency`. -/
def rateDivFrequency (rate : RelativeUnit .dataRate) (frequency : RelativeUnit .frequency) :
    Except Failure (RelativeUnit .dataSize) := divided (millibytePerSec rate) frequency .dataSize

/-- `operator/`, of a `DataRate` and a `DataSize`. -/
def rateDivSize (rate : RelativeUnit .dataRate) (size : RelativeUnit .dataSize) :
    Except Failure (RelativeUnit .frequency) := divided (millibytePerSec rate) size .frequency

/-- `operator*`, of a `DataRate` and a `TimeDelta`. -/
def rateMulDuration (rate : RelativeUnit .dataRate) (duration : RelativeUnit .timeDelta) :
    Except Failure (RelativeUnit .dataSize) := do
  let bps ← rate.toValue
  let us ← duration.toValue
  let microbits ← arith 64 (bps * us)
  let sum ← arith 64 (microbits + 4000000)
  let result ← quotient 64 sum 8000000
  fromValue .dataSize result

/-- The check of `operator*`. -/
def checkProduct (size : RelativeUnit .dataSize) (frequency : RelativeUnit .frequency) :
    Except Failure Unit :=
  if frequency.value = 0 then pure ()
  else do
    let bytes ← size.toValue
    let millihertz ← frequency.toValue
    let limit ← quotient 64 (int64Max.tdiv 8) millihertz
    check (bytes ≤ limit)

/-- `operator*`, of a `DataSize` and a `Frequency`. -/
def sizeMulFrequency (size : RelativeUnit .dataSize) (frequency : RelativeUnit .frequency) :
    Except Failure (RelativeUnit .dataRate) := do
  checkProduct size frequency
  let bytes ← size.toValue
  let bits ← arith 64 (bytes * 8)
  let millihertz ← frequency.toValue
  let millibitsPerSecond ← arith 64 (bits * millihertz)
  let sum ← arith 64 (millibitsPerSecond + 500)
  let result ← quotient 64 sum 1000
  fromValue .dataRate result

/-! ## The quantities -/

/-- A size in bits. -/
def bits (size : FiniteUnit .dataSize) : ℚ := 8 * size.value

/-- A duration in seconds. -/
def seconds (duration : FiniteUnit .timeDelta) : ℚ := duration.value / 1000000

/-- A rate in bits per second. -/
def bitsPerSecond (rate : FiniteUnit .dataRate) : ℚ := rate.value

/-- A frequency in hertz. -/
def hertz (frequency : FiniteUnit .frequency) : ℚ := frequency.value / 1000

/-- An operator and its operands. -/
inductive Operation
  | sizeDivDuration (size : FiniteUnit .dataSize) (duration : FiniteUnit .timeDelta)
  | sizeDivRate (size : FiniteUnit .dataSize) (rate : FiniteUnit .dataRate)
  | rateMulDuration (rate : FiniteUnit .dataRate) (duration : FiniteUnit .timeDelta)
  | rateDivFrequency (rate : FiniteUnit .dataRate) (frequency : FiniteUnit .frequency)
  | rateDivSize (rate : FiniteUnit .dataRate) (size : FiniteUnit .dataSize)
  | sizeMulFrequency (size : FiniteUnit .dataSize) (frequency : FiniteUnit .frequency)

/-- What the operators are for: where every check passes, everything is defined, and the result is
the quantity, truncated or rounded in the unit of its class. -/
def Operation.Exact : Operation → Prop
  | sizeDivDuration size duration =>
    Gives True (DataRate.sizeDivDuration size.toRelativeUnit duration.toRelativeUnit) fun rate =>
      rate.value = truncated (bits size / seconds duration)
  | sizeDivRate size rate =>
    Gives True (DataRate.sizeDivRate size.toRelativeUnit rate.toRelativeUnit) fun duration =>
      duration.value = truncated (1000000 * (bits size / bitsPerSecond rate))
  | rateMulDuration rate duration =>
    Gives True (DataRate.rateMulDuration rate.toRelativeUnit duration.toRelativeUnit) fun size =>
      IsRounded (bitsPerSecond rate * seconds duration / 8) size.value
  | rateDivFrequency rate frequency =>
    Gives True (DataRate.rateDivFrequency rate.toRelativeUnit frequency.toRelativeUnit) fun size =>
      size.value = truncated (bitsPerSecond rate / hertz frequency / 8)
  | rateDivSize rate size =>
    Gives True (DataRate.rateDivSize rate.toRelativeUnit size.toRelativeUnit) fun frequency =>
      frequency.value = truncated (1000 * (bitsPerSecond rate / bits size))
  | sizeMulFrequency size frequency =>
    Gives True (DataRate.sizeMulFrequency size.toRelativeUnit frequency.toRelativeUnit) fun rate =>
      IsRounded (bits size * hertz frequency) rate.value

/-- The operands that each operator is right for. -/
def Operation.Safe : Operation → Prop
  | sizeDivDuration size duration => duration.value ≠ 0 ∨ int64Max.tdiv 8000000 < size.value
  | sizeDivRate size rate => rate.value ≠ 0 ∨ int64Max.tdiv 8000000 < size.value
  | rateMulDuration rate duration =>
    -2 ^ 63 ≤ rate.value * duration.value ∧ rate.value * duration.value + 4000000 < 2 ^ 63 ∧
      ¬ (-12000000 < rate.value * duration.value ∧ rate.value * duration.value < -4000000)
  | rateDivFrequency rate frequency => frequency.value ≠ 0 ∨ int64Max.tdiv 125 < rate.value
  | rateDivSize rate size => size.value ≠ 0 ∨ int64Max.tdiv 125 < rate.value
  | sizeMulFrequency size frequency =>
    frequency.value ≠ 0 ∧ (int64Max.tdiv 8).tdiv frequency.value < size.value ∨
      size.value * 8 < 2 ^ 63 ∧ size.value * 8 * frequency.value + 500 < 2 ^ 63

/-! ## Quotients -/

variable {size : FiniteUnit .dataSize} {rate : FiniteUnit .dataRate}
  {duration : FiniteUnit .timeDelta} {frequency : FiniteUnit .frequency}

theorem size_nonneg (size : FiniteUnit .dataSize) : 0 ≤ size.value := size.nonneg rfl

theorem rate_nonneg (rate : FiniteUnit .dataRate) : 0 ≤ rate.value := rate.nonneg rfl

theorem frequency_nonneg (frequency : FiniteUnit .frequency) : 0 ≤ frequency.value :=
  frequency.nonneg rfl

theorem gives_toValue_finite (u : FiniteUnit c) {P : ℤ → Prop} :
    Gives onCheck u.toRelativeUnit.toValue P ↔ P u.value := by
  simp [gives_toValue, isFinite_of_fits (fits u)]

/-- What passes the check can be scaled. -/
theorem inSigned_scaled {factor v : ℤ} (hfactor : 0 < factor) (hv : 0 ≤ v)
    (h : v ≤ int64Max.tdiv factor) : InSigned 64 (v * factor) := by
  have hmax : (0 : ℤ) ≤ int64Max := by decide
  rw [Int.tdiv_eq_ediv_of_nonneg hmax, Int.le_ediv_iff_mul_le hfactor] at h
  have hnonneg := mul_nonneg hv hfactor.le
  unfold int64Max at h
  constructor <;> omega

/-- **A quotient.** Nothing but its divisor can make it undefined. -/
theorem gives_divided {factor : ℤ} (hfactor : 0 < factor) {u : FiniteUnit c} (hu : 0 ≤ u.value)
    {v : FiniteUnit d} {e : UnitClass} {P : RelativeUnit e → Prop}
    (hP : P ⟨(u.value * factor).tdiv v.value⟩) :
    Gives True (divided (scaled factor u.toRelativeUnit) v.toRelativeUnit e) P ↔
      v.value ≠ 0 ∨ int64Max.tdiv factor < u.value := by
  simp only [divided, scaled, gives_bind, gives_toValue_finite, gives_check, gives_arith,
    gives_quotient, gives_fromValue, hP, implies_true, and_true]
  constructor
  · intro h
    by_contra hout
    obtain ⟨hzero, hle⟩ := not_or.mp hout
    exact hzero (h (not_lt.mp hle)).2.1
  · intro h hle
    have hrange := inSigned_scaled hfactor hu hle
    exact ⟨hrange, h.resolve_right hle.not_gt,
      inSigned_tdiv (.inl (mul_nonneg hu hfactor.le)) hrange⟩

/-- **A size by a duration.** -/
theorem sizeDivDuration_iff :
    (Operation.sizeDivDuration size duration).Exact ↔
      (Operation.sizeDivDuration size duration).Safe := by
  have hquot : bits size / seconds duration =
      ((size.value * 8000000 : ℤ) : ℚ) / (duration.value : ℤ) := by
    rw [bits, seconds, div_div_eq_mul_div]
    push_cast
    ring
  refine gives_divided (by decide) (size_nonneg size) ?_
  rw [hquot, truncated_div]

/-- **A size by a rate.** -/
theorem sizeDivRate_iff :
    (Operation.sizeDivRate size rate).Exact ↔ (Operation.sizeDivRate size rate).Safe := by
  have hquot : 1000000 * (bits size / bitsPerSecond rate) =
      ((size.value * 8000000 : ℤ) : ℚ) / (rate.value : ℤ) := by
    rw [bits, bitsPerSecond]
    push_cast
    ring
  refine gives_divided (by decide) (size_nonneg size) ?_
  rw [hquot, truncated_div]

/-- **A rate by a frequency.** -/
theorem rateDivFrequency_iff :
    (Operation.rateDivFrequency rate frequency).Exact ↔
      (Operation.rateDivFrequency rate frequency).Safe := by
  have hquot : bitsPerSecond rate / hertz frequency / 8 =
      ((rate.value * (1000 / 8) : ℤ) : ℚ) / (frequency.value : ℤ) := by
    rw [bitsPerSecond, hertz, div_div_eq_mul_div]
    push_cast
    ring
  refine gives_divided (by decide) (rate_nonneg rate) ?_
  rw [hquot, truncated_div]

/-- **A rate by a size.** -/
theorem rateDivSize_iff :
    (Operation.rateDivSize rate size).Exact ↔ (Operation.rateDivSize rate size).Safe := by
  have hquot : 1000 * (bitsPerSecond rate / bits size) =
      ((rate.value * (1000 / 8) : ℤ) : ℚ) / (size.value : ℤ) := by
    rw [bits, bitsPerSecond]
    push_cast
    ring
  refine gives_divided (by decide) (rate_nonneg rate) ?_
  rw [hquot, truncated_div]

/-! ## Products -/

/-- **A rate by a duration.** Between one and a half and half a byte below zero, the sum is divided
to zero, which is no size below zero that the check could find. -/
theorem rateMulDuration_iff :
    (Operation.rateMulDuration rate duration).Exact ↔
      (Operation.rateMulDuration rate duration).Safe := by
  have hquot : bitsPerSecond rate * seconds duration / 8 =
      ((rate.value * duration.value : ℤ) : ℚ) / (8000000 : ℤ) := by
    rw [bitsPerSecond, seconds]
    push_cast
    ring
  simp only [Operation.Exact, Operation.Safe, rateMulDuration, gives_bind, gives_toValue_finite,
    gives_arith, gives_quotient, gives_fromValue, hquot,
    isRounded_div_iff (show (0 : ℤ) < 8000000 by decide), implies_true, and_true]
  generalize rate.value * duration.value = m
  have hnear : IsNearest m 8000000 ((m + 4000000).tdiv 8000000 * 8000000) ↔
      0 ≤ m + 4000000 ∨ 8000000 ∣ m + 4000000 := isNearest_tdiv_iff (by decide)
  have hdiv : (m + 4000000).tdiv 8000000 = (m + 4000000) / 8000000 +
      if 0 ≤ m + 4000000 ∨ 8000000 ∣ m + 4000000 then 0 else 1 := Int.tdiv_eq_ediv
  have hfits : UnitClass.dataSize.oneSided = true := rfl
  rw [hnear, hdiv, fits_iff_of_oneSided hfits]
  unfold InSigned plusInfinityVal
  by_cases hside : 0 ≤ m + 4000000 ∨ 8000000 ∣ m + 4000000
  · simp only [hside, if_true, implies_true, and_true]
    omega
  · simp only [hside, if_false, imp_false]
    omega

theorem gives_checkProduct {P : Unit → Prop} :
    Gives True (checkProduct size.toRelativeUnit frequency.toRelativeUnit) P ↔
      (frequency.value ≠ 0 ∧ (int64Max.tdiv 8).tdiv frequency.value < size.value) ∨ P () := by
  have hlimit : InSigned 64 ((int64Max.tdiv 8).tdiv frequency.value) :=
    inSigned_tdiv (.inl (by decide)) (by decide)
  unfold checkProduct
  split
  next hzero => simp [hzero, gives_pure]
  next hzero =>
    simp only [gives_bind, gives_toValue_finite, gives_quotient, gives_check, hlimit, hzero, ne_eq,
      not_false_eq_true, true_and, implies_true, and_true]
    rw [← not_le]
    tauto

/-- **A size by a frequency.** -/
theorem sizeMulFrequency_iff :
    (Operation.sizeMulFrequency size frequency).Exact ↔
      (Operation.sizeMulFrequency size frequency).Safe := by
  have hquot : bits size * hertz frequency =
      ((size.value * 8 * frequency.value : ℤ) : ℚ) / (1000 : ℤ) := by
    rw [bits, hertz]
    push_cast
    ring
  have hbits := mul_nonneg (size_nonneg size) (show (0 : ℤ) ≤ 8 by decide)
  have hproduct := mul_nonneg hbits (frequency_nonneg frequency)
  have hnear : IsNearest (size.value * 8 * frequency.value) 1000
      ((size.value * 8 * frequency.value + 500).tdiv 1000 * 1000) :=
    (isNearest_tdiv_iff (by decide)).mpr (.inl (by omega))
  simp only [Operation.Exact, Operation.Safe, sizeMulFrequency, gives_bind, gives_checkProduct,
    gives_toValue_finite, gives_arith, gives_quotient, gives_fromValue, hquot,
    isRounded_div_iff (show (0 : ℤ) < 1000 by decide), hnear, implies_true, and_true]
  refine or_congr_right ?_
  generalize size.value * 8 * frequency.value = m at *
  rw [Int.tdiv_eq_ediv_of_nonneg (by omega)]
  unfold InSigned
  omega

/-- **An operator is exact if and only if** its divisor is not zero, or its product has room for
what is added and is not between one and a half and half a byte below zero; or a check fails. -/
theorem exact_iff (op : Operation) : op.Exact ↔ op.Safe := by
  cases op with
  | sizeDivDuration size duration => exact sizeDivDuration_iff
  | sizeDivRate size rate => exact sizeDivRate_iff
  | rateMulDuration rate duration => exact rateMulDuration_iff
  | rateDivFrequency rate frequency => exact rateDivFrequency_iff
  | rateDivSize rate size => exact rateDivSize_iff
  | sizeMulFrequency size frequency => exact sizeMulFrequency_iff

/-- One byte, in no time. -/
theorem not_exact_div_zero : ¬ (Operation.sizeDivDuration (ofFits .dataSize 1 (by decide))
    (ofFits .timeDelta 0 (by decide))).Exact := by
  intro h
  have hcompute : sizeDivDuration (ofFits .dataSize 1 (by decide)).toRelativeUnit
      (ofFits .timeDelta 0 (by decide)).toRelativeUnit = .error .undefined := by decide
  rw [Operation.Exact, hcompute] at h
  exact h

end DataRate

end TQLib
