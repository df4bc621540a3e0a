import TQLib.Foundations.IntegerTypes

/-!
# `RangeCheck` and `saturated_cast`

The casts of `rtc_base/numerics/safe_conversions.h` and what they rest on in
`safe_conversions_impl.h`, between integers. Whether the destination has all values of the source
is known from their sizes; where it has not, the value is compared with the limits of the
destination, which are converted to the source first.

The sizes are counted in bits, eight for a byte. That is what there are of any type but `bool`,
whose range is smaller than its size: what is in one byte is taken for a `bool` without being looked
at. A saturated cast gives the right value even then, since everything but zero is converted to one.

## Main results

* `SafeConversions.rangeCheck_eq` — where a value is
* `SafeConversions.saturatedCast_eq` — a saturated cast is a clamp
* `SafeConversions.rangeCheck_exact_iff` — both, and when they hold
-/

namespace TQLib

namespace SafeConversions

open IntType

/-- `DstRange`. -/
inductive DstRange
  | overlapsRange
  | containsRange
  deriving DecidableEq

/-- `RangeCheckResult`. -/
inductive RangeCheckResult
  | typeValid
  | typeUnderflow
  | typeOverflow
  | typeInvalid
  deriving DecidableEq

/-- `StaticRangeCheck`. -/
def staticRangeCheck (Dst Src : IntType) : DstRange :=
  match Dst.isSigned, Src.isSigned with
  | true, true => if Dst.size * 8 - 1 ≥ Src.size * 8 - 1 then .containsRange else .overlapsRange
  | false, false => if Dst.size ≥ Src.size then .containsRange else .overlapsRange
  | true, false => if Dst.size * 8 - 1 ≥ Src.size * 8 then .containsRange else .overlapsRange
  | false, true => .overlapsRange

/-- `BASE_NUMERIC_RANGE_CHECK_RESULT`. The numbers of underflow and overflow make the one of a value
that is invalid. -/
def rangeCheckResult (isInUpperBound isInLowerBound : Bool) : RangeCheckResult :=
  match isInUpperBound, isInLowerBound with
  | true, true => .typeValid
  | true, false => .typeUnderflow
  | false, true => .typeOverflow
  | false, false => .typeInvalid

/-- `value <= static_cast<Src>(limit)`. -/
def inUpperBound (Src : IntType) (value limit : ℤ) : Bool :=
  native .le Src Src value (Src.convert limit)

/-- `value >= static_cast<Src>(limit)`. -/
def inLowerBound (Src : IntType) (value limit : ℤ) : Bool :=
  native .ge Src Src value (Src.convert limit)

/-- `RangeCheck`, with the cases of `RangeCheckImpl`. -/
def rangeCheck (Dst Src : IntType) (value : ℤ) : RangeCheckResult :=
  match staticRangeCheck Dst Src, Dst.isSigned, Src.isSigned with
  | .containsRange, _, _ => .typeValid
  | .overlapsRange, true, true =>
    rangeCheckResult (inUpperBound Src value Dst.max) (inLowerBound Src value Dst.lowest)
  | .overlapsRange, false, false => rangeCheckResult (inUpperBound Src value Dst.max) true
  | .overlapsRange, true, false =>
    if Dst.size > Src.size then .typeValid
    else rangeCheckResult (inUpperBound Src value Dst.max) true
  | .overlapsRange, false, true =>
    if Dst.size * 8 ≥ Src.size * 8 - 1 then rangeCheckResult true (inLowerBound Src value 0)
    else rangeCheckResult (inUpperBound Src value Dst.max) (inLowerBound Src value 0)

/-- `IsValueInRangeForNumericType`. -/
def isValueInRangeForNumericType (Dst Src : IntType) (value : ℤ) : Bool :=
  rangeCheck Dst Src value = .typeValid

/-- `checked_cast`. -/
def checkedCast (Dst Src : IntType) (value : ℤ) : Option ℤ :=
  if isValueInRangeForNumericType Dst Src value then some (Dst.convert value) else none

/-- `saturated_cast`. -/
def saturatedCast (Dst Src : IntType) (value : ℤ) : Option ℤ :=
  match rangeCheck Dst Src value with
  | .typeValid => some (Dst.convert value)
  | .typeUnderflow => some Dst.lowest
  | .typeOverflow => some Dst.max
  | .typeInvalid => none

variable {Dst Src : IntType} {v : ℤ}

/-! ## Where a value is -/

/-- Where a value is, seen from a type. -/
def place (Dst : IntType) (v : ℤ) : RangeCheckResult :=
  if v < Dst.lowest then .typeUnderflow else if Dst.max < v then .typeOverflow else .typeValid

theorem place_of_mem (hv : Dst.Mem v) : place Dst v = .typeValid := by
  rw [place, if_neg (not_lt.mpr hv.1), if_neg (not_lt.mpr hv.2)]

theorem place_eq_valid_iff : place Dst v = .typeValid ↔ Dst.Mem v := by
  refine ⟨fun h => ?_, place_of_mem⟩
  unfold place at h
  split at h
  · cases h
  · split at h
    · cases h
    · exact ⟨not_lt.mp ‹_›, not_lt.mp ‹_›⟩

theorem place_eq_underflow_iff : place Dst v = .typeUnderflow ↔ v < Dst.lowest := by
  unfold place
  split
  · rename_i hlow
    exact iff_of_true rfl hlow
  · rename_i hlow
    refine iff_of_false ?_ hlow
    split <;> exact fun h => nomatch h

theorem place_eq_overflow_iff : place Dst v = .typeOverflow ↔ Dst.max < v := by
  have hle := lowest_le_max Dst
  unfold place
  split
  · rename_i hlow
    exact iff_of_false (fun h => nomatch h) (by omega)
  · split
    · rename_i hhigh
      exact iff_of_true rfl hhigh
    · rename_i hhigh
      exact iff_of_false (fun h => nomatch h) hhigh

/-- The two bounds say where a value is. -/
theorem rangeCheckResult_eq (Dst : IntType) (v : ℤ) :
    rangeCheckResult (decide (v ≤ Dst.max)) (decide (Dst.lowest ≤ v)) = place Dst v := by
  have hle := lowest_le_max Dst
  rw [place]
  split
  · rename_i hlow
    rw [decide_eq_true (by omega : v ≤ Dst.max), decide_eq_false (not_le.mpr hlow)]
    rfl
  · rename_i hlow
    rw [decide_eq_true (not_lt.mp hlow)]
    split
    · rename_i hhigh
      rw [decide_eq_false (not_le.mpr hhigh)]
      rfl
    · rename_i hhigh
      rw [decide_eq_true (not_lt.mp hhigh)]
      rfl

/-- A limit that is a value of the source is not changed by its conversion. -/
theorem inUpperBound_eq (hv : Src.Mem v) {limit : ℤ} (hl : Src.Mem limit) :
    inUpperBound Src v limit = decide (v ≤ limit) := by
  rw [inUpperBound, convert_of_mem hl]
  exact native_of_isSigned_eq .le rfl hv hl

theorem inLowerBound_eq (hv : Src.Mem v) {limit : ℤ} (hl : Src.Mem limit) :
    inLowerBound Src v limit = decide (limit ≤ v) := by
  rw [inLowerBound, convert_of_mem hl]
  exact native_of_isSigned_eq .ge rfl hv hl

/-- To `bool` a limit is converted to `true`, and no `bool` is above that. -/
theorem inUpperBound_bool (hv : bool.Mem v) {limit : ℤ} (hl : bool.Mem 1) (hle : 1 ≤ limit) :
    inUpperBound bool v limit = decide (v ≤ limit) := by
  have hconvert : bool.convert limit = 1 := if_neg (by omega)
  have hv1 : v ≤ 1 := hv.2
  rw [inUpperBound, hconvert, native_of_isSigned_eq .le rfl hv hl]
  exact decide_eq_decide.mpr (iff_of_true hv1 (hv1.trans hle))

/-- The largest value of a type with no more digits is a value of the source. -/
theorem mem_max_of_digits_le (h : Dst.digits ≤ Src.digits) : Src.Mem Dst.max :=
  mem_of_digits_le (mem_max Dst) h (.inl (mem_zero Dst).2)

/-- From a signed type to another. -/
theorem rangeCheck_of_signed (hd : Dst.isSigned = true) (hs : Src.isSigned = true)
    (hv : Src.Mem v) : rangeCheck Dst Src v = place Dst v := by
  have hdd := digits_of_isSigned hd
  have hds := digits_of_isSigned hs
  simp only [rangeCheck, staticRangeCheck, hd, hs]
  by_cases hsize : Dst.size * 8 - 1 ≥ Src.size * 8 - 1
  · simp only [hsize, if_true]
    exact (place_of_mem (mem_of_digits_le hv (by omega) (.inr hd))).symm
  · simp only [hsize, if_false]
    have hle : Dst.digits ≤ Src.digits := by omega
    have hlowest : Src.Mem Dst.lowest := mem_of_digits_le (mem_lowest Dst) hle (.inr hs)
    rw [inUpperBound_eq hv (mem_max_of_digits_le hle), inLowerBound_eq hv hlowest,
      rangeCheckResult_eq]

/-- From a type without a sign to another. -/
theorem rangeCheck_of_unsigned (hd : Dst.isSigned = false) (hs : Src.isSigned = false)
    (hv : Src.Mem v) (hbool : ¬ (Dst = bool ∧ Src.size = 1 ∧ 1 < v)) :
    rangeCheck Dst Src v = place Dst v := by
  have hsrc := digits_le Src
  have hdst := digits_le Dst
  have hpos := size_pos Dst
  have h0 := nonneg_of_mem hv hs
  simp only [rangeCheck, staticRangeCheck, hd, hs]
  by_cases hsize : Dst.size ≥ Src.size
  · simp only [hsize, if_true]
    refine (place_of_mem ?_).symm
    by_cases hDst : Dst = bool
    · subst hDst
      have hSrc : Src.size = 1 := le_antisymm hsize (size_pos Src)
      exact ⟨h0, not_lt.mp fun hlt => hbool ⟨rfl, hSrc, hlt⟩⟩
    · have hdig := digits_of_not_isSigned hDst hd
      exact mem_of_digits_le hv (by omega) (.inl h0)
  · simp only [hsize, if_false]
    have hSrc : Src ≠ bool := fun h => hsize (h ▸ hpos)
    have hdig := digits_of_not_isSigned hSrc hs
    have hle : Dst.digits ≤ Src.digits := by omega
    have hlow : Dst.lowest ≤ v := (lowest_le_zero Dst).trans h0
    rw [inUpperBound_eq hv (mem_max_of_digits_le hle), ← rangeCheckResult_eq, decide_eq_true hlow]

/-- From a type without a sign to one with a sign. -/
theorem rangeCheck_of_unsigned_signed (hd : Dst.isSigned = true) (hs : Src.isSigned = false)
    (hv : Src.Mem v) : rangeCheck Dst Src v = place Dst v := by
  have hdst := digits_of_isSigned hd
  have hsrc := digits_le Src
  have hpos := size_pos Dst
  have h0 := nonneg_of_mem hv hs
  simp only [rangeCheck, staticRangeCheck, hd, hs]
  by_cases hsize : Dst.size * 8 - 1 ≥ Src.size * 8
  · simp only [hsize, if_true]
    exact (place_of_mem (mem_of_digits_le hv (by omega) (.inr hd))).symm
  · have hnot : ¬ Dst.size > Src.size := by omega
    simp only [hsize, hnot, if_false]
    have hlow : Dst.lowest ≤ v := (lowest_le_zero Dst).trans h0
    have hupper : inUpperBound Src v Dst.max = decide (v ≤ Dst.max) := by
      by_cases hSrc : Src = bool
      · subst hSrc
        have hone : bool.digits ≤ Dst.digits := by
          rw [hdst, digits]
          omega
        exact inUpperBound_bool hv (mem_max bool) (mem_max_of_digits_le hone).2
      · have hsrc' := digits_of_not_isSigned hSrc hs
        exact inUpperBound_eq hv (mem_max_of_digits_le (by omega))
    rw [hupper, ← rangeCheckResult_eq, decide_eq_true hlow]

/-- From a type with a sign to one without. -/
theorem rangeCheck_of_signed_unsigned (hd : Dst.isSigned = false) (hs : Src.isSigned = true)
    (hv : Src.Mem v) (hbool : ¬ (Dst = bool ∧ Src.size = 1 ∧ 1 < v)) :
    rangeCheck Dst Src v = place Dst v := by
  have hdst := digits_le Dst
  have hsrc := digits_of_isSigned hs
  have hlowest : Dst.lowest = 0 := by rw [lowest, hd]; rfl
  simp only [rangeCheck, staticRangeCheck, hd, hs]
  rw [inLowerBound_eq hv (mem_zero Src), ← rangeCheckResult_eq, hlowest]
  by_cases hsize : Dst.size * 8 ≥ Src.size * 8 - 1
  · have hhigh : v ≤ Dst.max := by
      by_cases hDst : Dst = bool
      · subst hDst
        have hSrc : Src.size = 1 := by
          have hone : bool.size = 1 := rfl
          have hpos := size_pos Src
          omega
        exact not_lt.mp fun hlt => hbool ⟨rfl, hSrc, hlt⟩
      · have hdst' := digits_of_not_isSigned hDst hd
        exact hv.2.trans (mem_max_of_digits_le (by omega)).2
    rw [if_pos hsize, decide_eq_true hhigh]
  · rw [if_neg hsize, inUpperBound_eq hv (mem_max_of_digits_le (by omega))]

/-- **Where a value is**, if what is in one byte is not taken for a `bool`. -/
theorem rangeCheck_eq (hv : Src.Mem v) (hbool : ¬ (Dst = bool ∧ Src.size = 1 ∧ 1 < v)) :
    rangeCheck Dst Src v = place Dst v := by
  cases hd : Dst.isSigned <;> cases hs : Src.isSigned
  · exact rangeCheck_of_unsigned hd hs hv hbool
  · exact rangeCheck_of_signed_unsigned hd hs hv hbool
  · exact rangeCheck_of_unsigned_signed hd hs hv
  · exact rangeCheck_of_signed hd hs hv

/-- What is in one byte is taken for a `bool`. -/
theorem rangeCheck_bool (hv : Src.Mem v) (hSrc : Src.size = 1) (h1 : 1 < v) :
    rangeCheck bool Src v = .typeValid := by
  have hone : bool.size = 1 := rfl
  have hd : bool.isSigned = false := rfl
  cases hs : Src.isSigned
  · simp only [rangeCheck, staticRangeCheck, hd, hs, hone, hSrc, ge_iff_le, le_refl, if_true]
  · simp only [rangeCheck, staticRangeCheck, hd, hs, hone, hSrc]
    rw [inLowerBound_eq hv (mem_zero Src), decide_eq_true (by omega : 0 ≤ v)]
    rfl

/-! ## A saturated cast -/

/-- **A saturated cast is a clamp.** -/
theorem saturatedCast_eq (hv : Src.Mem v) :
    saturatedCast Dst Src v = some (Max.max Dst.lowest (min v Dst.max)) := by
  have hle := lowest_le_max Dst
  rw [saturatedCast]
  by_cases hbool : Dst = bool ∧ Src.size = 1 ∧ 1 < v
  · obtain ⟨rfl, hSrc, h1⟩ := hbool
    rw [rangeCheck_bool hv hSrc h1]
    have hconvert : bool.convert v = 1 := if_neg (by omega)
    have hmax : bool.max = 1 := rfl
    rw [hconvert, hmax, min_eq_right h1.le]
    rfl
  · rw [rangeCheck_eq hv hbool, place]
    rcases lt_or_ge v Dst.lowest with hlow | hlow
    · rw [if_pos hlow, max_eq_left ((min_le_left _ _).trans hlow.le)]
    · rw [if_neg (not_lt.mpr hlow)]
      rcases lt_or_ge Dst.max v with hhigh | hhigh
      · rw [if_pos hhigh, min_eq_right hhigh.le, max_eq_right hle]
      · rw [if_neg (not_lt.mpr hhigh), min_eq_left hhigh, max_eq_right hlow,
          convert_of_mem ⟨hlow, hhigh⟩]

/-- A checked cast keeps the value, or fails. -/
theorem checkedCast_eq (hv : Src.Mem v) (hbool : ¬ (Dst = bool ∧ Src.size = 1 ∧ 1 < v)) :
    checkedCast Dst Src v = if Dst.Mem v then some v else none := by
  rw [checkedCast, isValueInRangeForNumericType, rangeCheck_eq hv hbool]
  by_cases hmem : Dst.Mem v
  · rw [place_of_mem hmem, if_pos hmem, convert_of_mem hmem]
    rfl
  · have hplace : place Dst v ≠ .typeValid := fun h => hmem (place_eq_valid_iff.mp h)
    rw [if_neg hmem, decide_eq_false hplace]
    rfl

/-- **Range checks and saturated casts are exact** where what is in one byte is not taken for a
`bool`, and only there. -/
theorem rangeCheck_exact_iff (Dst Src : IntType) (v : Src.Value) :
    ((rangeCheck Dst Src v = .typeValid ↔ Dst.Mem v) ∧
      (rangeCheck Dst Src v = .typeUnderflow ↔ (v : ℤ) < Dst.lowest) ∧
      (rangeCheck Dst Src v = .typeOverflow ↔ Dst.max < (v : ℤ)) ∧
      saturatedCast Dst Src v = some (Max.max Dst.lowest (min (v : ℤ) Dst.max))) ↔
    ¬ (Dst = .bool ∧ Src.size = 1 ∧ 1 < (v : ℤ)) := by
  constructor
  · rintro ⟨hvalid, -⟩ ⟨rfl, hSrc, h1⟩
    have hmem := hvalid.mp (rangeCheck_bool v.2 hSrc h1)
    exact absurd hmem.2 (not_le.mpr h1)
  · intro hbool
    rw [rangeCheck_eq v.2 hbool]
    exact ⟨place_eq_valid_iff, place_eq_underflow_iff, place_eq_overflow_iff, saturatedCast_eq v.2⟩

/-- Two is in one byte, and no value of `bool`. -/
theorem not_rangeCheck_exact : ¬ ((rangeCheck .bool (.unsigned 1) 2 = .typeValid ↔
      IntType.bool.Mem 2) ∧
    (rangeCheck .bool (.unsigned 1) 2 = .typeUnderflow ↔ (2 : ℤ) < IntType.bool.lowest) ∧
    (rangeCheck .bool (.unsigned 1) 2 = .typeOverflow ↔ IntType.bool.max < (2 : ℤ)) ∧
    saturatedCast .bool (.unsigned 1) 2 =
      some (Max.max IntType.bool.lowest (min (2 : ℤ) IntType.bool.max))) := by
  decide

end SafeConversions

end TQLib
