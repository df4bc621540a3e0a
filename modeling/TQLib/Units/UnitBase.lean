import TQLib.Foundations.Checked
import TQLib.Foundations.Rounding
import TQLib.Units.Time

/-!
# Units, and their rounding

`UnitBase` and `RelativeUnit` of `rtc_base/units/unit_base.h`, for the four classes of `api/units`
whose values can be added and multiplied. A value is an `int64_t`, of which the largest and the
smallest stand for infinity; a class that is one-sided has no others below zero. The operations are
as they are where `RTC_DCHECK` is on.

A value is rounded to a multiple by a division, which rounds towards zero, after something has been
added: nothing, one less than the resolution, or half of it.

## Main results

* `gives_fromValue`, `gives_mul` — how a value is made, and multiplied
* `gives_roundWith` — how it is rounded, whatever is added
* `roundDownTo_iff`, `roundUpTo_iff`, `roundTo_iff` — where each gives the right multiple
* `rounds_iff` — where all do, and stay with it
-/

namespace TQLib

/-- The classes that are relative units. -/
inductive UnitClass
  | timeDelta
  | dataRate
  | dataSize
  | frequency
  deriving DecidableEq, Repr

/-- `one_sided`. -/
def UnitClass.oneSided : UnitClass → Bool
  | timeDelta => false
  | dataRate => true
  | dataSize => true
  | frequency => true

/-- `RelativeUnit<Unit_T>`, by `value_`. -/
@[ext] structure RelativeUnit (c : UnitClass) where
  value : ℤ
  deriving DecidableEq, Repr

namespace RelativeUnit

open Checked

variable {c : UnitClass}

/-! ## Values -/

/-- `PlusInfinityVal()`. -/
def plusInfinityVal : ℤ := 2 ^ 63 - 1

/-- `MinusInfinityVal()`. -/
def minusInfinityVal : ℤ := -2 ^ 63

/-- `IsInfinite()`. -/
def isInfinite (u : RelativeUnit c) : Bool :=
  u.value == plusInfinityVal || u.value == minusInfinityVal

/-- `IsFinite()`. -/
def isFinite (u : RelativeUnit c) : Bool := !u.isInfinite

/-- `FromValue`. -/
def fromValue (c : UnitClass) (value : ℤ) : Except Failure (RelativeUnit c) := do
  if c.oneSided then check (value ≥ 0)
  check (value > minusInfinityVal)
  check (value < plusInfinityVal)
  return ⟨value⟩

/-- `ToValue()`. -/
def toValue (u : RelativeUnit c) : Except Failure ℤ := do
  check u.isFinite
  return u.value

/-- `operator*`, by an `int64_t`. -/
def mul (u : RelativeUnit c) (scalar : ℤ) : Except Failure (RelativeUnit c) := do
  let value ← u.toValue
  let product ← arith 64 (value * scalar)
  fromValue c product

/-! ## Rounding -/

/-- What the three have in common. -/
def roundWith (biased : ℤ → ℤ → Except Failure ℤ) (u resolution : RelativeUnit c) :
    Except Failure (RelativeUnit c) := do
  check u.isFinite
  check resolution.isFinite
  check (resolution.value > 0)
  let sum ← biased u.value resolution.value
  let multiple ← quotient 64 sum resolution.value
  mul ⟨multiple⟩ resolution.value

/-- `RoundTo`. -/
def roundTo (u resolution : RelativeUnit c) : Except Failure (RelativeUnit c) :=
  roundWith (fun value resolution => do
    let half ← quotient 64 resolution 2
    arith 64 (value + half)) u resolution

/-- `RoundUpTo`. -/
def roundUpTo (u resolution : RelativeUnit c) : Except Failure (RelativeUnit c) :=
  roundWith (fun value resolution => do
    let sum ← arith 64 (value + resolution)
    arith 64 (sum - 1)) u resolution

/-- `RoundDownTo`. -/
def roundDownTo (u resolution : RelativeUnit c) : Except Failure (RelativeUnit c) :=
  roundWith (fun value _ => pure value) u resolution

end RelativeUnit

/-- The finite values of a class. -/
structure FiniteUnit (c : UnitClass) extends RelativeUnit c where
  nonneg : c.oneSided = true → 0 ≤ value
  minus_lt : RelativeUnit.minusInfinityVal < value
  lt_plus : value < RelativeUnit.plusInfinityVal

namespace RelativeUnit

open Checked

variable {c : UnitClass} {onCheck : Prop}

/-- A number that is a finite value of a class. -/
def Fits (c : UnitClass) (value : ℤ) : Prop :=
  (c.oneSided = true → 0 ≤ value) ∧ minusInfinityVal < value ∧ value < plusInfinityVal

instance (c : UnitClass) (v : ℤ) : Decidable (Fits c v) :=
  inferInstanceAs (Decidable ((_ → _) ∧ _ ∧ _))

/-- The value of a class that a number is. -/
def ofFits (c : UnitClass) (v : ℤ) (h : Fits c v) : FiniteUnit c := ⟨⟨v⟩, h.1, h.2.1, h.2.2⟩

theorem fits (u : FiniteUnit c) : Fits c u.value := ⟨u.nonneg, u.minus_lt, u.lt_plus⟩

theorem fits_iff_of_oneSided (hc : c.oneSided = true) {v : ℤ} :
    Fits c v ↔ 0 ≤ v ∧ v < plusInfinityVal := by
  have hmin : minusInfinityVal < 0 := by decide
  exact ⟨fun h => ⟨h.1 hc, h.2.2⟩, fun h => ⟨fun _ => h.1, by omega, h.2⟩⟩

theorem Fits.inSigned {v : ℤ} (h : Fits c v) : InSigned 64 v := by
  obtain ⟨-, hlow, hhigh⟩ := h
  unfold minusInfinityVal at hlow
  unfold plusInfinityVal at hhigh
  constructor <;> omega

theorem isFinite_iff {u : RelativeUnit c} :
    u.isFinite = true ↔ u.value ≠ plusInfinityVal ∧ u.value ≠ minusInfinityVal := by
  simp [isFinite, isInfinite]

theorem isFinite_of_fits {v : ℤ} (h : Fits c v) : (⟨v⟩ : RelativeUnit c).isFinite = true :=
  isFinite_iff.mpr ⟨h.2.2.ne, h.2.1.ne'⟩

/-- **How a value is made.** -/
theorem gives_fromValue {v : ℤ} {P : RelativeUnit c → Prop} :
    Gives onCheck (fromValue c v) P ↔ (Fits c v → P ⟨v⟩) ∧ (¬ Fits c v → onCheck) := by
  unfold fromValue Fits
  cases hside : c.oneSided
  · simp only [gives_bind, gives_check, gives_pure, Bool.false_eq_true, if_false]
    tauto
  · simp only [gives_bind, gives_check, gives_pure, if_true]
    tauto

theorem gives_toValue {u : RelativeUnit c} {P : ℤ → Prop} :
    Gives onCheck u.toValue P ↔ (u.isFinite → P u.value) ∧ (¬ u.isFinite → onCheck) := by
  simp only [toValue, gives_bind, gives_check, gives_pure]

/-- **How a value is multiplied.** -/
theorem gives_mul {u : RelativeUnit c} {s : ℤ} {P : RelativeUnit c → Prop} :
    Gives False (u.mul s) P ↔
      u.isFinite ∧ InSigned 64 (u.value * s) ∧ Fits c (u.value * s) ∧ P ⟨u.value * s⟩ := by
  simp only [mul, gives_bind, gives_toValue, gives_arith, gives_fromValue]
  tauto

variable {v r : FiniteUnit c} {biased : ℤ → ℤ → Except Failure ℤ}

/-- A number one of whose multiples is a finite value of the class is finite itself. -/
theorem bounds_of_mul {q s : ℤ} (hs : 0 < s) (h : Fits c (q * s)) :
    minusInfinityVal < q ∧ q < plusInfinityVal := by
  obtain ⟨-, hlow, hhigh⟩ := h
  constructor
  · by_contra hle
    have : q * s ≤ q := mul_le_of_one_le_right ((not_lt.mp hle).trans (by decide)) hs
    omega
  · by_contra hle
    have hmax : 0 ≤ plusInfinityVal := by decide
    have : q ≤ q * s := le_mul_of_one_le_right (hmax.trans (not_lt.mp hle)) hs
    omega

/-- **How a value is rounded**, whatever is added. -/
theorem gives_roundWith (hr : 0 < r.value) {P : RelativeUnit c → Prop} :
    Gives False (roundWith biased v.toRelativeUnit r.toRelativeUnit) P ↔
      Gives False (biased v.value r.value) fun sum =>
        Fits c (sum.tdiv r.value * r.value) ∧ P ⟨sum.tdiv r.value * r.value⟩ := by
  have hv := isFinite_of_fits (fits v)
  have hr' := isFinite_of_fits (fits r)
  simp only [roundWith, gives_bind, gives_check, gives_quotient, gives_mul, hv, hr', gt_iff_lt, hr,
    hr.ne', ne_eq, not_false_eq_true, not_true_eq_false, true_and, forall_const, IsEmpty.forall_iff,
    and_true]
  refine gives_congr fun sum _ => ?_
  constructor
  · rintro ⟨-, -, -, h⟩
    exact h
  · rintro ⟨hfits, h⟩
    have hq := bounds_of_mul hr hfits
    refine ⟨?_, isFinite_iff.mpr ⟨hq.2.ne, hq.1.ne'⟩, hfits.inSigned, hfits, h⟩
    unfold minusInfinityVal plusInfinityVal at hq
    constructor <;> omega

/-- The multiple that is given. -/
theorem roundWith_iff (hr : 0 < r.value) {m : FiniteUnit c} :
    roundWith biased v.toRelativeUnit r.toRelativeUnit = .ok m.toRelativeUnit ↔
      Gives False (biased v.value r.value) fun sum => sum.tdiv r.value * r.value = m.value := by
  rw [eq_ok_iff, gives_roundWith hr]
  refine gives_congr fun sum _ => ?_
  rw [RelativeUnit.ext_iff]
  refine and_iff_right_of_imp fun heq => ?_
  have heq' : sum.tdiv r.value * r.value = m.value := heq
  rw [heq']
  exact fits m

/-- **Where `RoundDownTo` gives the next multiple below.** -/
theorem roundDownTo_iff (hr : 0 < r.value) {m : FiniteUnit c}
    (hm : IsFloor v.value r.value m.value) :
    roundDownTo v.toRelativeUnit r.toRelativeUnit = .ok m.toRelativeUnit ↔
      0 ≤ v.value ∨ r.value ∣ v.value := by
  rw [roundDownTo, roundWith_iff hr, gives_pure, (isFloor_iff hr).mp hm, tdiv_mul_eq_iff hr]

/-- **Where `RoundUpTo` gives the next multiple above.** -/
theorem roundUpTo_iff (hr : 0 < r.value) {m : FiniteUnit c}
    (hm : IsCeil v.value r.value m.value) :
    roundUpTo v.toRelativeUnit r.toRelativeUnit = .ok m.toRelativeUnit ↔
      v.value + r.value < 2 ^ 63 ∧
        (0 ≤ v.value + r.value - 1 ∨ r.value ∣ v.value + r.value - 1) := by
  have hrange := (fits v).inSigned
  rw [roundUpTo, roundWith_iff hr]
  simp only [gives_bind, gives_arith, (isCeil_iff hr).mp hm, tdiv_mul_eq_iff hr, ← and_assoc]
  refine and_congr_left fun _ => ?_
  unfold InSigned at hrange ⊢
  omega

/-- **Where `RoundTo` gives a nearest multiple.** -/
theorem roundTo_iff (hr : 0 < r.value) {m : FiniteUnit c}
    (hm : m.value = (v.value + r.value / 2).tdiv r.value * r.value) :
    roundTo v.toRelativeUnit r.toRelativeUnit = .ok m.toRelativeUnit ↔
      v.value + r.value / 2 < 2 ^ 63 := by
  have hrange := (fits v).inSigned
  have hhalf : InSigned 64 (r.value.tdiv 2) := inSigned_tdiv (.inr (by decide)) (fits r).inSigned
  have htwo : (2 : ℤ) ≠ 0 := by decide
  rw [Int.tdiv_eq_ediv_of_nonneg hr.le] at hhalf
  rw [roundTo, roundWith_iff hr]
  simp only [gives_bind, gives_quotient, gives_arith, hhalf, htwo, ne_eq, not_false_eq_true,
    true_and, Int.tdiv_eq_ediv_of_nonneg hr.le, hm, and_true]
  unfold InSigned at hrange ⊢
  omega

/-- What the task queues round with is `RoundUpTo`, where this gives a value. -/
theorem roundUpTo_timeDelta {v r m : FiniteUnit .timeDelta} (hr : 0 < r.value)
    (h : roundUpTo v.toRelativeUnit r.toRelativeUnit = .ok m.toRelativeUnit) :
    TimeDelta.roundUpTo ⟨v.value⟩ ⟨r.value⟩ = ⟨m.value⟩ := by
  rw [roundUpTo, roundWith_iff hr] at h
  simp only [gives_bind, gives_arith] at h
  exact congrArg TimeDelta.mk h.2.2

/-! ## What rounding is for -/

/-- Every rounding gives the multiple that it is to give, and leaves it as it is. -/
structure Rounds (v r : FiniteUnit c) : Prop where
  down : ∃ m : FiniteUnit c, IsFloor v.value r.value m.value ∧
    roundDownTo v.toRelativeUnit r.toRelativeUnit = .ok m.toRelativeUnit ∧
      roundDownTo m.toRelativeUnit r.toRelativeUnit = .ok m.toRelativeUnit
  up : ∃ m : FiniteUnit c, IsCeil v.value r.value m.value ∧
    roundUpTo v.toRelativeUnit r.toRelativeUnit = .ok m.toRelativeUnit ∧
      roundUpTo m.toRelativeUnit r.toRelativeUnit = .ok m.toRelativeUnit
  near : ∃ m : FiniteUnit c, IsNearest v.value r.value m.value ∧
    roundTo v.toRelativeUnit r.toRelativeUnit = .ok m.toRelativeUnit ∧
      roundTo m.toRelativeUnit r.toRelativeUnit = .ok m.toRelativeUnit

/-- The values that are not negative, and that have a multiple above them with one more behind it;
or a resolution that divides everything. -/
def Roundable (v r : ℤ) : Prop :=
  r = 1 ∨ 0 ≤ v ∧ ∃ m, r ∣ m ∧ v ≤ m ∧ m + r < 2 ^ 63

/-- Below zero, and at the end of the range, no rounding but by 1 is right. -/
theorem Rounds.roundable (hr : 0 < r.value) (h : Rounds v r) : Roundable v.value r.value := by
  obtain ⟨low, hlow, hdown, -⟩ := h.down
  obtain ⟨high, hhigh, hup, hstay⟩ := h.up
  rw [roundDownTo_iff hr hlow] at hdown
  rw [roundUpTo_iff hr hhigh] at hup
  rw [roundUpTo_iff hr (isCeil_self hhigh.1.1)] at hstay
  obtain hnonneg | hdvd := hdown
  · exact .inr ⟨hnonneg, high.value, hhigh.1.1, hhigh.1.2, hstay.1⟩
  · obtain hsum | hsum := hup.2
    · -- a multiple above `-r` is not negative
      obtain ⟨k, hk⟩ := hdvd
      have hk' : -1 < k := by
        by_contra hle
        have : r.value * k ≤ r.value * (-1) := Int.mul_le_mul_of_nonneg_left (by omega) hr.le
        omega
      have hnonneg : 0 ≤ v.value := hk ▸ mul_nonneg hr.le (by omega)
      exact .inr ⟨hnonneg, high.value, hhigh.1.1, hhigh.1.2, hstay.1⟩
    · have hone : r.value ∣ 1 := by
        have := dvd_sub (dvd_add hdvd dvd_rfl) hsum
        rwa [sub_sub_cancel] at this
      exact .inl (Int.eq_one_of_dvd_one hr.le hone)

/-- Elsewhere every rounding is right whose result is a value of the class. -/
theorem Roundable.rounds (hr : 0 < r.value) {low high : FiniteUnit c}
    (hlow : IsFloor v.value r.value low.value) (hhigh : IsCeil v.value r.value high.value)
    (h : Roundable v.value r.value) : Rounds v r := by
  have hbelow : low.value ≤ v.value := hlow.1.2
  have habove : v.value ≤ high.value := hhigh.1.2
  have hroom : high.value + r.value < 2 ^ 63 := by
    obtain hone | ⟨-, m, hdvd, hle, hlt⟩ := h
    · have := (fits high).2.2
      unfold plusInfinityVal at this
      omega
    · have : high.value ≤ m := hhigh.2 ⟨hdvd, hle⟩
      omega
  have hsign (x : ℤ) (hx : low.value ≤ x) : 0 ≤ x ∨ r.value ∣ x := by
    obtain hone | ⟨hnonneg, -⟩ := h
    · exact .inr (hone ▸ one_dvd x)
    · have : 0 ≤ low.value := hlow.2 ⟨dvd_zero _, hnonneg⟩
      exact .inl (by omega)
  refine ⟨⟨low, hlow, ?_, ?_⟩, ⟨high, hhigh, ?_, ?_⟩, ?_⟩
  · exact (roundDownTo_iff hr hlow).mpr (hsign _ hbelow)
  · exact (roundDownTo_iff hr (isFloor_self hlow.1.1)).mpr (hsign _ le_rfl)
  · exact (roundUpTo_iff hr hhigh).mpr ⟨by omega, hsign _ (by omega)⟩
  · exact (roundUpTo_iff hr (isCeil_self hhigh.1.1)).mpr ⟨hroom, hsign _ (by omega)⟩
  · have hnear := (isNearest_tdiv_iff hr).mpr (hsign (v.value + r.value / 2) (by omega))
    -- it is one of the neighbours, so a value of the class
    obtain ⟨m, hm, hrange⟩ : ∃ m : FiniteUnit c,
        m.value = (v.value + r.value / 2).tdiv r.value * r.value ∧
          low.value ≤ m.value ∧ m.value ≤ high.value := by
      obtain hfloor | hceil := hnear.floor_or_ceil hr
      · exact ⟨low, hlow.unique hfloor, le_rfl, hbelow.trans habove⟩
      · exact ⟨high, hhigh.unique hceil, hbelow.trans habove, le_rfl⟩
    have hself : m.value = (m.value + r.value / 2).tdiv r.value * r.value := by
      have hstay := (isNearest_tdiv_iff hr).mpr (hsign (m.value + r.value / 2) (by omega))
      exact (hstay.eq_of_dvd (hm ▸ dvd_mul_left _ _)).symm
    exact ⟨m, hm ▸ hnear, (roundTo_iff hr hm).mpr (by omega),
      (roundTo_iff hr hself).mpr (by omega)⟩

/-- **Rounding is right if and only if** the resolution is 1, or the value is not negative and the
multiple above it leaves room for one more in `int64_t`. -/
theorem rounds_iff (hr : 0 < r.value) {low high : FiniteUnit c}
    (hlow : IsFloor v.value r.value low.value) (hhigh : IsCeil v.value r.value high.value) :
    Rounds v r ↔ Roundable v.value r.value :=
  ⟨Rounds.roundable hr, Roundable.rounds hr hlow hhigh⟩

theorem rounds_iff_millis :
    Rounds (ofFits .timeDelta 1500 (by decide)) (ofFits .timeDelta 1000 (by decide)) ↔
      Roundable 1500 1000 := by
  have hlow : IsFloor 1500 1000 (ofFits .timeDelta 1000 (by decide)).value :=
    (isFloor_iff (by decide)).mpr (by decide)
  have hhigh : IsCeil 1500 1000 (ofFits .timeDelta 2000 (by decide)).value :=
    (isCeil_iff (by decide)).mpr (by decide)
  exact rounds_iff (by decide) hlow hhigh

/-- A duration below zero. -/
theorem not_rounds_neg :
    ¬ Rounds (ofFits .timeDelta (-5) (by decide)) (ofFits .timeDelta 10 (by decide)) := by
  intro h
  obtain hone | ⟨hnonneg, -⟩ := h.roundable (by decide)
  · exact absurd hone (by decide)
  · exact absurd hnonneg (by decide)

end RelativeUnit

end TQLib
