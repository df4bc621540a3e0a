import Mathlib.Data.Int.Basic
import Mathlib.Tactic.Linarith

/-!
# Durations and points in time

`TimeDelta` and `Timestamp` of `api/units`, with the part of `rtc_base/units/unit_base.h` and of
`rtc_base/numerics/divide_round.h` that the task queues compute with. Both are an `int64_t` count of
microseconds whose largest and smallest values stand for infinity. Sums and products are exact:
where they would leave `int64_t` the behaviour of the source is undefined, and nothing is claimed
there. Narrowing casts are kept, since in a release build `dchecked_cast` is a `static_cast`.

`/` and `%` of the source round towards zero, so they are `Int.tdiv` and `Int.tmod`.
-/

namespace TQLib

/-- `static_cast` to a signed integer type of the given width. -/
def staticCastSigned (width : ℕ) (v : ℤ) : ℤ := Int.bmod v (2 ^ width)

/-- `static_cast` to an unsigned integer type of the given width. -/
def staticCastUnsigned (width : ℕ) (v : ℤ) : ℤ := v % 2 ^ width

/-- `DivideRoundUp`. -/
def divideRoundUp (dividend divisor : ℤ) : ℤ :=
  let quotient := dividend.tdiv divisor
  let remainder := dividend.tmod divisor
  quotient + (if remainder > 0 then 1 else 0)

/-- `DivideRoundUp` brackets its dividend. -/
theorem divideRoundUp_bounds {a d : ℤ} (ha : 0 ≤ a) (hd : 0 < d) :
    a ≤ divideRoundUp a d * d ∧ divideRoundUp a d * d < a + d := by
  have hsum : d * a.tdiv d + a.tmod d = a := Int.mul_tdiv_add_tmod a d
  have hnonneg : 0 ≤ a.tmod d := Int.tmod_nonneg d ha
  have hlt : a.tmod d < d := Int.tmod_lt_of_pos a hd
  simp only [divideRoundUp]
  split
  · constructor <;> linarith [mul_comm d (a.tdiv d), add_mul (a.tdiv d) 1 d]
  · constructor <;> linarith [mul_comm d (a.tdiv d), add_mul (a.tdiv d) 0 d]

/-- A duration in microseconds. -/
structure TimeDelta where
  /-- The stored count. -/
  us : ℤ
  deriving DecidableEq, Repr

namespace TimeDelta

/-- `PlusInfinityVal()`. -/
def plusInfinityVal : ℤ := 2 ^ 63 - 1

/-- `TimeDelta::PlusInfinity()`, which is also `rtc::Event::kForever`. -/
def plusInfinity : TimeDelta := ⟨plusInfinityVal⟩

/-- `MinusInfinityVal()`. -/
def minusInfinityVal : ℤ := -2 ^ 63

/-- `TimeDelta::MinusInfinity()`. -/
def minusInfinity : TimeDelta := ⟨minusInfinityVal⟩

/-- `TimeDelta::Zero()`. -/
def zero : TimeDelta := ⟨0⟩

/-- `IsPlusInfinity()`. -/
def isPlusInfinity (d : TimeDelta) : Bool := d.us == plusInfinityVal

/-- `IsMinusInfinity()`. -/
def isMinusInfinity (d : TimeDelta) : Bool := d.us == minusInfinityVal

/-- `operator-`. -/
def sub (d other : TimeDelta) : TimeDelta :=
  if d.isPlusInfinity || other.isMinusInfinity then plusInfinity
  else if d.isMinusInfinity || other.isPlusInfinity then minusInfinity
  else ⟨d.us - other.us⟩

/-- `std::max`. -/
def max (d other : TimeDelta) : TimeDelta := if d.us < other.us then other else d

/-- `TimeDelta::Millis`. -/
def millis (value : ℤ) : TimeDelta := ⟨value * 1000⟩

/-- `RoundUpTo`. -/
def roundUpTo (d resolution : TimeDelta) : TimeDelta :=
  ⟨(d.us + resolution.us - 1).tdiv resolution.us * resolution.us⟩

/-- `DivRoundToNearest`. -/
def divRoundToNearest (n d : ℤ) : ℤ :=
  (n + (if n ≥ 0 then d.tdiv 2 else (-d).tdiv 2)).tdiv d

/-- `ms<T>()` before its cast to `T`. -/
def ms (d : TimeDelta) : ℤ := divRoundToNearest d.us 1000

@[simp] theorem us_millis (v : ℤ) : (millis v).us = v * 1000 := rfl

/-- A whole number of milliseconds is not mistaken for infinity. -/
@[simp] theorem isPlusInfinity_millis (v : ℤ) : (millis v).isPlusInfinity = false := by
  simp only [isPlusInfinity, millis, plusInfinityVal, beq_eq_false_iff_ne, ne_eq]
  omega

@[simp] theorem isPlusInfinity_plusInfinity : plusInfinity.isPlusInfinity = true := rfl

theorem us_max (d other : TimeDelta) : (d.max other).us = Max.max d.us other.us := by
  unfold TimeDelta.max
  split <;> omega

/-- Between finite durations `operator-` is a difference. -/
theorem us_sub {d other : TimeDelta} (hd : minusInfinityVal < d.us ∧ d.us < plusInfinityVal)
    (ho : minusInfinityVal < other.us ∧ other.us < plusInfinityVal) :
    (d.sub other).us = d.us - other.us := by
  unfold TimeDelta.sub isPlusInfinity isMinusInfinity
  simp [hd.1.ne', hd.2.ne, ho.1.ne', ho.2.ne]

theorem ms_roundUpTo {d : TimeDelta} (hd : 0 ≤ d.us) :
    (d.roundUpTo (millis 1)).ms = (d.us + 999) / 1000 := by
  have hround : (d.roundUpTo (millis 1)).us = (d.us + 999) / 1000 * 1000 := by
    show (d.us + 1000 - 1).tdiv 1000 * 1000 = _
    rw [Int.tdiv_eq_ediv_of_nonneg (by omega), Int.add_sub_assoc]
    rfl
  show divRoundToNearest (d.roundUpTo (millis 1)).us 1000 = _
  have hnonneg : (d.us + 999) / 1000 * 1000 ≥ 0 := by omega
  have hhalf : (1000 : ℤ).tdiv 2 = 500 := rfl
  rw [hround, divRoundToNearest, if_pos hnonneg, hhalf, Int.tdiv_eq_ediv_of_nonneg (by omega)]
  omega

/-- Rounding up to milliseconds brackets the duration. -/
theorem ms_roundUpTo_bounds {d : TimeDelta} (hd : 0 ≤ d.us) :
    d.us ≤ (d.roundUpTo (millis 1)).ms * 1000 ∧
      (d.roundUpTo (millis 1)).ms * 1000 < d.us + 1000 := by
  rw [ms_roundUpTo hd]
  omega

end TimeDelta

/-- A point in time in microseconds. -/
structure Timestamp where
  /-- The stored count. -/
  us : ℤ
  deriving DecidableEq, Repr

namespace Timestamp

/-- `IsPlusInfinity()`. -/
def isPlusInfinity (t : Timestamp) : Bool := t.us == TimeDelta.plusInfinityVal

/-- `IsMinusInfinity()`. -/
def isMinusInfinity (t : Timestamp) : Bool := t.us == TimeDelta.minusInfinityVal

/-- `Timestamp::PlusInfinity()`. -/
def plusInfinity : Timestamp := ⟨TimeDelta.plusInfinityVal⟩

/-- `Timestamp::MinusInfinity()`. -/
def minusInfinity : Timestamp := ⟨TimeDelta.minusInfinityVal⟩

/-- `IsInfinite()`. -/
def isInfinite (t : Timestamp) : Bool := t.isPlusInfinity || t.isMinusInfinity

/-- `std::min`. -/
def min (t other : Timestamp) : Timestamp := if other.us < t.us then other else t

/-- `std::max`. -/
def max (t other : Timestamp) : Timestamp := if t.us < other.us then other else t

/-- `operator+`. -/
def add (t : Timestamp) (delta : TimeDelta) : Timestamp :=
  if t.isPlusInfinity || delta.isPlusInfinity then ⟨TimeDelta.plusInfinityVal⟩
  else if t.isMinusInfinity || delta.isMinusInfinity then
    ⟨TimeDelta.minusInfinityVal⟩
  else ⟨t.us + delta.us⟩

/-- `operator-`. -/
def sub (t other : Timestamp) : TimeDelta :=
  if t.isPlusInfinity || other.isMinusInfinity then TimeDelta.plusInfinity
  else if t.isMinusInfinity || other.isPlusInfinity then TimeDelta.minusInfinity
  else ⟨t.us - other.us⟩

/-- Neither before the epoch nor infinite. -/
def InRange (t : Timestamp) : Prop := 0 ≤ t.us ∧ t.us < TimeDelta.plusInfinityVal

/-- What a point in time can be: one that is in range, or an infinite one. -/
def IsValue (t : Timestamp) : Prop := t.InRange ∨ t = plusInfinity ∨ t = minusInfinity

theorem IsValue.bounds {t : Timestamp} (ht : t.IsValue) :
    minusInfinity.us ≤ t.us ∧ t.us ≤ plusInfinity.us := by
  have hle : minusInfinity.us ≤ plusInfinity.us := by decide
  obtain ⟨hnonneg, hlt⟩ | rfl | rfl := ht
  · have hneg : minusInfinity.us < 0 := by decide
    exact ⟨(hneg.trans_le hnonneg).le, hlt.le⟩
  · exact ⟨hle, le_rfl⟩
  · exact ⟨le_rfl, hle⟩

theorem us_min (t other : Timestamp) : (t.min other).us = Min.min t.us other.us := by
  unfold Timestamp.min
  split <;> omega

theorem us_max (t other : Timestamp) : (t.max other).us = Max.max t.us other.us := by
  unfold Timestamp.max
  split <;> omega

theorem eq_of_us_eq {t other : Timestamp} (h : t.us = other.us) : t = other := by
  cases t
  cases other
  exact congrArg _ h

theorem min_comm (t other : Timestamp) : t.min other = other.min t :=
  eq_of_us_eq (by simp only [us_min, Int.min_comm])

theorem max_comm (t other : Timestamp) : t.max other = other.max t :=
  eq_of_us_eq (by simp only [us_max, Int.max_comm])

theorem min_eq_or (t other : Timestamp) : t.min other = t ∨ t.min other = other := by
  unfold Timestamp.min
  split
  · exact .inr rfl
  · exact .inl rfl

theorem max_eq_or (t other : Timestamp) : t.max other = t ∨ t.max other = other := by
  unfold Timestamp.max
  split
  · exact .inr rfl
  · exact .inl rfl

theorem InRange.finite {t : Timestamp} (ht : t.InRange) :
    t.isPlusInfinity = false ∧ t.isMinusInfinity = false := by
  obtain ⟨hnonneg, hlt⟩ := ht
  have hne : t.us ≠ TimeDelta.minusInfinityVal := by
    unfold TimeDelta.minusInfinityVal
    omega
  exact ⟨beq_false_of_ne hlt.ne, beq_false_of_ne hne⟩

/-- `operator+` is a sum as long as this is in range. -/
theorem us_add {t : Timestamp} {delta : TimeDelta} (ht : t.InRange)
    (hnonneg : 0 ≤ t.us + delta.us) (hlt : t.us + delta.us < TimeDelta.plusInfinityVal) :
    (t.add delta).us = t.us + delta.us := by
  obtain ⟨hplus, hminus⟩ := ht.finite
  obtain ⟨ht₀, ht₁⟩ := ht
  have hdelta : delta.isPlusInfinity = false := beq_false_of_ne (by omega)
  have hdelta' : delta.isMinusInfinity = false := by
    refine beq_false_of_ne ?_
    unfold TimeDelta.plusInfinityVal at ht₁
    unfold TimeDelta.minusInfinityVal
    omega
  simp [Timestamp.add, hplus, hminus, hdelta, hdelta']

/-- `operator-` is a difference. -/
theorem us_sub {t other : Timestamp} (ht : t.InRange) (ho : other.InRange) :
    (t.sub other).us = t.us - other.us := by
  obtain ⟨hplus, hminus⟩ := ht.finite
  obtain ⟨hplus', hminus'⟩ := ho.finite
  simp [Timestamp.sub, hplus, hminus, hplus', hminus']

end Timestamp

end TQLib
