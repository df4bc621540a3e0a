import TQLib.Numerics.SafeCompare

/-!
# `SafeMin`, `SafeMax` and `SafeClamp`

The functions of `rtc_base/numerics/safe_minmax.h`, of integers. What is returned is an argument
that is converted to a type; the type is found from those of the arguments, or is asked for, and
then has to have all the values of the one that would be found. An assertion at compile time that
does not hold is `none`.

## Main results

* `SafeMinMax.safeMin_exact`, `SafeMinMax.safeMax_exact` — the smaller and the larger argument
* `SafeMinMax.isSome_clampType` — a type is found
* `SafeMinMax.safeMinMax_exact` — all three functions
-/

namespace TQLib

namespace SafeMinMax

open IntType SafeCompare

/-! ## The types -/

/-- `min_t` of `MType`. -/
def minT (sizeOfPointer : ℕ) (T1 T2 : IntType) : IntType :=
  if safeLt sizeOfPointer T1 T2 T1.lowest T2.lowest then T1
  else if safeGt sizeOfPointer T1 T2 T1.lowest T2.lowest then T2
  else if safeLe sizeOfPointer T1 T2 T1.max T2.max then T1
  else T2

/-- `max_t` of `MType`. -/
def maxT (sizeOfPointer : ℕ) (T1 T2 : IntType) : IntType :=
  if safeGe sizeOfPointer T1 T2 T1.max T2.max then T1 else T2

/-- What is asserted in `MType`. -/
def mTypeAsserts (sizeOfPointer : ℕ) (T1 T2 : IntType) : Bool :=
  (minT sizeOfPointer T1 T2 = T1 ∨ minT sizeOfPointer T1 T2 = T2) ∧
    (safeNe sizeOfPointer T1 T2 T1.max T2.max ∨ safeEq sizeOfPointer T1 T2 T1.lowest T2.lowest) ∧
      (maxT sizeOfPointer T1 T2 = T1 ∨ maxT sizeOfPointer T1 T2 = T2)

/-- `TypeOr`, where `none` is `DefaultType`. -/
def typeOr (sizeOfPointer : ℕ) (A : Option IntType) (B : IntType) : Option IntType :=
  let type := A.getD B
  if safeLe sizeOfPointer type B type.lowest B.lowest ∧
      safeGe sizeOfPointer type B type.max B.max then some type
  else none

/-- `R2` of `SafeMin`. -/
def safeMinType (sizeOfPointer : ℕ) (R : Option IntType) (T1 T2 : IntType) : Option IntType :=
  if mTypeAsserts sizeOfPointer T1 T2 then typeOr sizeOfPointer R (minT sizeOfPointer T1 T2)
  else none

/-- `SafeMin`, to the type `R2`. -/
def safeMin (sizeOfPointer : ℕ) (R2 T1 T2 : IntType) (a b : ℤ) : ℤ :=
  if safeLt sizeOfPointer T1 T2 a b then R2.convert a else R2.convert b

/-- `R2` of `SafeMax`. -/
def safeMaxType (sizeOfPointer : ℕ) (R : Option IntType) (T1 T2 : IntType) : Option IntType :=
  if mTypeAsserts sizeOfPointer T1 T2 then typeOr sizeOfPointer R (maxT sizeOfPointer T1 T2)
  else none

/-- `SafeMax`, to the type `R2`. -/
def safeMax (sizeOfPointer : ℕ) (R2 T1 T2 : IntType) (a b : ℤ) : ℤ :=
  if safeGt sizeOfPointer T1 T2 a b then R2.convert a else R2.convert b

/-- A constant whose type is found by the compiler. -/
structure Constant where
  type : IntType
  value : ℤ

/-- `r_min` of `ClampType`. -/
def rMin (sizeOfPointer : ℕ) (T L H : IntType) : Option Constant := do
  let M ← safeMinType sizeOfPointer none H T
  let R ← safeMaxType sizeOfPointer none L M
  let inner := safeMin sizeOfPointer M H T H.lowest T.lowest
  return ⟨R, safeMax sizeOfPointer R L M L.lowest inner⟩

/-- `r_max` of `ClampType`. -/
def rMax (sizeOfPointer : ℕ) (T L H : IntType) : Option Constant := do
  let M ← safeMaxType sizeOfPointer none L T
  let R ← safeMinType sizeOfPointer none H M
  let inner := safeMax sizeOfPointer M L T L.max T.max
  return ⟨R, safeMin sizeOfPointer R H M H.max inner⟩

/-- `AcceptableType`. -/
def acceptableType (sizeOfPointer : ℕ) (T L H : IntType) (rMin rMax : Constant) (A : IntType) :
    Bool :=
  let notTooLarge := A.size ≤ L.size ∨ A.size ≤ H.size ∨ A.size ≤ T.size
  let rangeContained := safeLe sizeOfPointer A rMin.type A.lowest rMin.value ∧
    safeLe sizeOfPointer rMax.type A rMax.value A.max
  notTooLarge ∧ rangeContained

/-- `best_signed_type` and `best_unsigned_type`, by how a type is made from a size. -/
def bestType (acceptable : IntType → Bool) (type : ℕ → IntType) : IntType :=
  if acceptable (type 1) then type 1
  else if acceptable (type 2) then type 2
  else if acceptable (type 4) then type 4
  else type 8

/-- `ClampType`. -/
def clampType (sizeOfPointer : ℕ) (T L H : IntType) : Option IntType := do
  let rMin ← rMin sizeOfPointer T L H
  let rMax ← rMax sizeOfPointer T L H
  let acceptable := acceptableType sizeOfPointer T L H rMin rMax
  let bestSignedType := bestType acceptable signedOfSize
  let bestUnsignedType := bestType acceptable unsignedOfSize
  let type :=
    if T.isSigned then
      if acceptable bestSignedType then bestSignedType else bestUnsignedType
    else
      if acceptable bestUnsignedType then bestUnsignedType else bestSignedType
  if acceptable type then some type else none

/-- `R2` of `SafeClamp`. -/
def safeClampType (sizeOfPointer : ℕ) (R : Option IntType) (T L H : IntType) : Option IntType := do
  let type ← clampType sizeOfPointer T L H
  typeOr sizeOfPointer R type

/-- `SafeClamp`, to the type `R2`. -/
def safeClamp (sizeOfPointer : ℕ) (R2 T L H : IntType) (x min max : ℤ) : Option ℤ :=
  if safeLe sizeOfPointer L H min max then
    some (if safeLe sizeOfPointer T L x min then R2.convert min
      else if safeGe sizeOfPointer T H x max then R2.convert max
      else R2.convert x)
  else none

variable {sizeOfPointer : ℕ} {T1 T2 T L H A B R2 : IntType} {R : Option IntType}
variable {a b x v : ℤ}

/-! ## The smaller and the larger argument -/

/-- The type of the smaller value is one of the two, and none begins lower. -/
theorem minT_spec (sizeOfPointer : ℕ) (T1 T2 : IntType) :
    (minT sizeOfPointer T1 T2 = T1 ∨ minT sizeOfPointer T1 T2 = T2) ∧
      (minT sizeOfPointer T1 T2).lowest ≤ T1.lowest ∧
        (minT sizeOfPointer T1 T2).lowest ≤ T2.lowest := by
  have hlow1 := mem_lowest T1
  have hlow2 := mem_lowest T2
  unfold minT
  simp (disch := assumption) only [safeLt, safeGt, safe_eq, Comparison.holds, decide_eq_true_eq]
  split
  · exact ⟨.inl rfl, le_rfl, by omega⟩
  · split
    · exact ⟨.inr rfl, by omega, le_rfl⟩
    · split
      · exact ⟨.inl rfl, le_rfl, by omega⟩
      · exact ⟨.inr rfl, by omega, le_rfl⟩

/-- The type of the larger value is one of the two, and none ends higher. -/
theorem maxT_spec (sizeOfPointer : ℕ) (T1 T2 : IntType) :
    (maxT sizeOfPointer T1 T2 = T1 ∨ maxT sizeOfPointer T1 T2 = T2) ∧
      T1.max ≤ (maxT sizeOfPointer T1 T2).max ∧ T2.max ≤ (maxT sizeOfPointer T1 T2).max := by
  have hmax1 := mem_max T1
  have hmax2 := mem_max T2
  unfold maxT
  simp (disch := assumption) only [safeGe, safe_eq, Comparison.holds, decide_eq_true_eq]
  split
  · exact ⟨.inl rfl, le_rfl, by omega⟩
  · exact ⟨.inr rfl, by omega, le_rfl⟩

/-- What is asserted holds of any two types. -/
theorem mTypeAsserts_eq (sizeOfPointer : ℕ) (T1 T2 : IntType) :
    mTypeAsserts sizeOfPointer T1 T2 = true := by
  refine decide_eq_true ⟨(minT_spec sizeOfPointer T1 T2).1, ?_, (maxT_spec sizeOfPointer T1 T2).1⟩
  have hsame := lowest_eq_of_max_eq (S := T1) (T := T2)
  simp only [safeNe, safeEq, safe_eq (mem_max T1) (mem_max T2),
    safe_eq (mem_lowest T1) (mem_lowest T2), Comparison.holds, decide_eq_true_eq]
  exact or_iff_not_imp_left.mpr fun h => hsame (not_not.mp h)

/-- The smaller value is one of that type. -/
theorem mem_min (ha : T1.Mem a) (hb : T2.Mem b) : (minT sizeOfPointer T1 T2).Mem (min a b) := by
  obtain ⟨heq, hleft, hright⟩ := minT_spec sizeOfPointer T1 T2
  obtain ⟨ha1, ha2⟩ := ha
  obtain ⟨hb1, hb2⟩ := hb
  refine ⟨by omega, ?_⟩
  rcases heq with h | h <;> rw [h] <;> omega

/-- And the larger. -/
theorem mem_max_of_mem (ha : T1.Mem a) (hb : T2.Mem b) :
    (maxT sizeOfPointer T1 T2).Mem (max a b) := by
  obtain ⟨heq, hleft, hright⟩ := maxT_spec sizeOfPointer T1 T2
  obtain ⟨ha1, ha2⟩ := ha
  obtain ⟨hb1, hb2⟩ := hb
  refine ⟨?_, by omega⟩
  rcases heq with h | h <;> rw [h] <;> omega

/-- The type that would be found is always large enough. -/
theorem typeOr_none (sizeOfPointer : ℕ) (B : IntType) : typeOr sizeOfPointer none B = some B := by
  simp [typeOr, safeLe, safeGe, safe_eq (mem_lowest B) (mem_lowest B),
    safe_eq (mem_max B) (mem_max B), Comparison.holds]

/-- A type that is accepted has the values of the one that would be found. -/
theorem typeOr_spec (h : typeOr sizeOfPointer R B = some R2) (hv : B.Mem v) : R2.Mem v := by
  simp only [typeOr] at h
  split at h
  · rename_i hfits
    obtain rfl := Option.some.inj h
    simp only [safeLe, safeGe, safe_eq (mem_lowest _) (mem_lowest _),
      safe_eq (mem_max _) (mem_max _), Comparison.holds, decide_eq_true_eq] at hfits
    obtain ⟨hlow, hhigh⟩ := hv
    exact ⟨hfits.1.trans hlow, hhigh.trans hfits.2⟩
  · cases h

/-- **`SafeMin`** is the smaller argument, whatever type is asked for. -/
theorem safeMin_exact (h : safeMinType sizeOfPointer R T1 T2 = some R2) (ha : T1.Mem a)
    (hb : T2.Mem b) :
    R2.Mem (min a b) ∧ safeMin sizeOfPointer R2 T1 T2 a b = min a b := by
  rw [safeMinType, if_pos (mTypeAsserts_eq ..)] at h
  have hmem : R2.Mem (min a b) := typeOr_spec h (mem_min ha hb)
  refine ⟨hmem, ?_⟩
  simp only [safeMin, safeLt, safe_eq ha hb, Comparison.holds, decide_eq_true_eq]
  split
  · rename_i hlt
    rw [min_eq_left hlt.le] at hmem ⊢
    exact convert_of_mem hmem
  · rename_i hlt
    rw [min_eq_right (not_lt.mp hlt)] at hmem ⊢
    exact convert_of_mem hmem

/-- **`SafeMax`** is the larger. -/
theorem safeMax_exact (h : safeMaxType sizeOfPointer R T1 T2 = some R2) (ha : T1.Mem a)
    (hb : T2.Mem b) :
    R2.Mem (max a b) ∧ safeMax sizeOfPointer R2 T1 T2 a b = max a b := by
  rw [safeMaxType, if_pos (mTypeAsserts_eq ..)] at h
  have hmem : R2.Mem (max a b) := typeOr_spec h (mem_max_of_mem ha hb)
  refine ⟨hmem, ?_⟩
  simp only [safeMax, safeGt, safe_eq ha hb, Comparison.holds, decide_eq_true_eq]
  split
  · rename_i hlt
    rw [max_eq_left hlt.le] at hmem ⊢
    exact convert_of_mem hmem
  · rename_i hlt
    rw [max_eq_right (not_lt.mp hlt)] at hmem ⊢
    exact convert_of_mem hmem

/-- Where none is asked for, one is found. -/
theorem safeMinType_none (sizeOfPointer : ℕ) (T1 T2 : IntType) :
    safeMinType sizeOfPointer none T1 T2 = some (minT sizeOfPointer T1 T2) := by
  rw [safeMinType, if_pos (mTypeAsserts_eq ..), typeOr_none]

theorem safeMaxType_none (sizeOfPointer : ℕ) (T1 T2 : IntType) :
    safeMaxType sizeOfPointer none T1 T2 = some (maxT sizeOfPointer T1 T2) := by
  rw [safeMaxType, if_pos (mTypeAsserts_eq ..), typeOr_none]

/-! ## The range of a clamped value -/

/-- The range of the result is in the range of one of the three. -/
theorem range_subset {α : Type*} [LinearOrder α] (lowT maxT lowL maxL lowH maxH : α) :
    (lowT ≤ max lowL (min lowH lowT) ∧ min maxH (max maxL maxT) ≤ maxT) ∨
      (lowL ≤ max lowL (min lowH lowT) ∧ min maxH (max maxL maxT) ≤ maxL) ∨
      (lowH ≤ max lowL (min lowH lowT) ∧ min maxH (max maxL maxT) ≤ maxH) := by
  rcases le_total lowH lowT with h | h
  · refine .inr (.inr ⟨le_max_of_le_right (le_min le_rfl h), min_le_left _ _⟩)
  · have hT : lowT ≤ max lowL (min lowH lowT) := le_max_of_le_right (le_min h le_rfl)
    rcases le_total maxL maxT with h' | h'
    · exact .inl ⟨hT, min_le_of_right_le (max_le h' le_rfl)⟩
    · exact .inr (.inl ⟨le_max_left _ _, min_le_of_right_le (max_le le_rfl h')⟩)

/-- What is clamped is in it. -/
theorem clamp_mem_range {α : Type*} [LinearOrder α]
    {lowT maxT lowL maxL lowH maxH x low high : α} (hx : lowT ≤ x ∧ x ≤ maxT)
    (hlow : lowL ≤ low ∧ low ≤ maxL) (hhigh : lowH ≤ high ∧ high ≤ maxH) (hle : low ≤ high) :
    max lowL (min lowH lowT) ≤ max low (min x high) ∧
      max low (min x high) ≤ min maxH (max maxL maxT) := by
  constructor
  · refine max_le_max hlow.1 (le_min ?_ ?_)
    · exact (min_le_right _ _).trans hx.1
    · exact (min_le_left _ _).trans hhigh.1
  · refine max_le (le_min ?_ ?_) (le_min ?_ ?_)
    · exact hle.trans hhigh.2
    · exact le_max_of_le_left hlow.2
    · exact min_le_of_right_le hhigh.2
    · exact min_le_of_left_le (le_max_of_le_right hx.2)

/-! ## The clamped argument -/

/-- A constant is what it should be. -/
def Constant.Is (c : Constant) (v : ℤ) : Prop := c.value = v ∧ c.type.Mem v

theorem rMin_spec (sizeOfPointer : ℕ) (T L H : IntType) : ∃ c, rMin sizeOfPointer T L H = some c ∧
    c.Is (max L.lowest (min H.lowest T.lowest)) := by
  obtain ⟨hmem, hmin⟩ := safeMin_exact (safeMinType_none sizeOfPointer H T) (mem_lowest H)
    (mem_lowest T)
  obtain ⟨hmem', hmax⟩ := safeMax_exact (safeMaxType_none sizeOfPointer L _) (mem_lowest L) hmem
  refine ⟨⟨maxT sizeOfPointer L (minT sizeOfPointer H T), _⟩, ?_, rfl, hmem'⟩
  simp only [rMin, safeMinType_none, safeMaxType_none, Option.bind_eq_bind, Option.bind_some, pure,
    hmin, hmax]

theorem rMax_spec (sizeOfPointer : ℕ) (T L H : IntType) : ∃ c, rMax sizeOfPointer T L H = some c ∧
    c.Is (min H.max (max L.max T.max)) := by
  obtain ⟨hmem, hmax⟩ := safeMax_exact (safeMaxType_none sizeOfPointer L T) (mem_max L) (mem_max T)
  obtain ⟨hmem', hmin⟩ := safeMin_exact (safeMinType_none sizeOfPointer H _) (mem_max H) hmem
  refine ⟨⟨minT sizeOfPointer H (maxT sizeOfPointer L T), _⟩, ?_, rfl, hmem'⟩
  simp only [rMax, safeMinType_none, safeMaxType_none, Option.bind_eq_bind, Option.bind_some, pure,
    hmax, hmin]

/-- What makes a type acceptable. -/
structure Acceptable (T L H A : IntType) : Prop where
  size_le : A.size ≤ L.size ∨ A.size ≤ H.size ∨ A.size ≤ T.size
  lowest_le : A.lowest ≤ max L.lowest (min H.lowest T.lowest)
  le_max : min H.max (max L.max T.max) ≤ A.max

theorem acceptableType_iff {low high : Constant}
    (hlow : low.Is (max L.lowest (min H.lowest T.lowest)))
    (hhigh : high.Is (min H.max (max L.max T.max))) :
    acceptableType sizeOfPointer T L H low high A = true ↔ Acceptable T L H A := by
  obtain ⟨heq, hmem⟩ := hlow
  obtain ⟨heq', hmem'⟩ := hhigh
  simp only [acceptableType, safeLe, heq, heq', safe_eq (mem_lowest A) hmem,
    safe_eq hmem' (mem_max A), Comparison.holds, decide_eq_true_eq]
  exact ⟨fun h => ⟨h.1, h.2.1, h.2.2⟩, fun h => ⟨h.1, h.2, h.3⟩⟩

/-- The best type of a kind is acceptable if one is. -/
theorem bestType_spec {acceptable : IntType → Bool} {type : ℕ → IntType} {n : ℕ}
    (hn : n = 1 ∨ n = 2 ∨ n = 4 ∨ n = 8) (h : acceptable (type n) = true) :
    acceptable (bestType acceptable type) = true := by
  unfold bestType
  split
  · assumption
  · split
    · assumption
    · split
      · assumption
      · rcases hn with rfl | rfl | rfl | rfl
        · contradiction
        · contradiction
        · contradiction
        · exact h

/-- A type whose size is one of those that the types of the language have. -/
def IsStandard (T : IntType) : Prop := T.size = 1 ∨ T.size = 2 ∨ T.size = 4 ∨ T.size = 8

instance (T : IntType) : Decidable (IsStandard T) := inferInstanceAs (Decidable (_ ∨ _))

/-- Its values are among those of a type that is tried. -/
theorem IsStandard.exists_type (hA : IsStandard A) : ∃ n : ℕ,
    (n = 1 ∨ n = 2 ∨ n = 4 ∨ n = 8) ∧ ∃ B : IntType, (B = signedOfSize n ∨ B = unsignedOfSize n) ∧
      B.size = A.size ∧ B.lowest ≤ A.lowest ∧ A.max ≤ B.max := by
  refine ⟨A.size, hA, ?_⟩
  cases A with
  | bool => exact ⟨_, .inr rfl, rfl, by decide, by decide⟩
  | signed n => exact ⟨.signed n, .inl (signedOfSize_coe n).symm, rfl, le_rfl, le_rfl⟩
  | unsigned n => exact ⟨.unsigned n, .inr (unsignedOfSize_coe n).symm, rfl, le_rfl, le_rfl⟩

theorem Acceptable.mono (h : Acceptable T L H A) (hsize : B.size = A.size)
    (hlow : B.lowest ≤ A.lowest) (hmax : A.max ≤ B.max) : Acceptable T L H B :=
  ⟨hsize ▸ h.size_le, hlow.trans h.lowest_le, h.le_max.trans hmax⟩

/-- One of the three types is acceptable. -/
theorem exists_acceptable (T L H : IntType) :
    ∃ A, (A = T ∨ A = L ∨ A = H) ∧ Acceptable T L H A := by
  rcases range_subset T.lowest T.max L.lowest L.max H.lowest H.max with h | h | h
  · exact ⟨T, .inl rfl, .inr (.inr le_rfl), h.1, h.2⟩
  · exact ⟨L, .inr (.inl rfl), .inl le_rfl, h.1, h.2⟩
  · exact ⟨H, .inr (.inr rfl), .inr (.inl le_rfl), h.1, h.2⟩

/-- A type that is found is acceptable. -/
theorem clampType_acceptable (h : clampType sizeOfPointer T L H = some A) :
    Acceptable T L H A := by
  obtain ⟨low, hlow, hlow'⟩ := rMin_spec sizeOfPointer T L H
  obtain ⟨high, hhigh, hhigh'⟩ := rMax_spec sizeOfPointer T L H
  simp only [clampType, hlow, hhigh, Option.bind_eq_bind, Option.bind_some] at h
  obtain ⟨hacc, hA⟩ := Option.ite_none_right_eq_some.mp h
  rw [← Option.some.inj hA]
  exact (acceptableType_iff hlow' hhigh').mp hacc

/-- **A type is found.** -/
theorem isSome_clampType (sizeOfPointer : ℕ) (hT : IsStandard T) (hL : IsStandard L)
    (hH : IsStandard H) : (clampType sizeOfPointer T L H).isSome = true := by
  obtain ⟨low, hlow, hlow'⟩ := rMin_spec sizeOfPointer T L H
  obtain ⟨high, hhigh, hhigh'⟩ := rMax_spec sizeOfPointer T L H
  obtain ⟨A, hA, hacc⟩ := exists_acceptable T L H
  have hstd : IsStandard A := by
    rcases hA with rfl | rfl | rfl <;> assumption
  obtain ⟨n, hn, B, hB, hsize, hlowest, hmax⟩ := hstd.exists_type
  have hBacc : acceptableType sizeOfPointer T L H low high B = true :=
    (acceptableType_iff hlow' hhigh').mpr (hacc.mono hsize hlowest hmax)
  simp only [clampType, hlow, hhigh, Option.bind_eq_bind, Option.bind_some]
  generalize acceptableType sizeOfPointer T L H low high = acceptable at hBacc ⊢
  have hbest : acceptable (bestType acceptable signedOfSize) = true ∨
      acceptable (bestType acceptable unsignedOfSize) = true := by
    rcases hB with rfl | rfl
    · exact .inl (bestType_spec hn hBacc)
    · exact .inr (bestType_spec hn hBacc)
  rw [if_pos]
  · rfl
  · split <;> split <;> simp_all

/-- **`SafeClamp`** is the argument clamped to the interval. -/
theorem safeClamp_exact {low high : ℤ} (h : safeClampType sizeOfPointer R T L H = some R2)
    (hx : T.Mem x) (hlow : L.Mem low) (hhigh : H.Mem high) (hle : low ≤ high) :
    R2.Mem (max low (min x high)) ∧
      safeClamp sizeOfPointer R2 T L H x low high = some (max low (min x high)) := by
  obtain ⟨A, hA, h⟩ := Option.bind_eq_some_iff.mp h
  have hacc := clampType_acceptable hA
  obtain ⟨hrange, hrange'⟩ := clamp_mem_range hx hlow hhigh hle
  have hmem : R2.Mem (max low (min x high)) :=
    typeOr_spec h ⟨hacc.lowest_le.trans hrange, hrange'.trans hacc.le_max⟩
  refine ⟨hmem, ?_⟩
  simp only [safeClamp, safeLe, safeGe, safe_eq hlow hhigh, safe_eq hx hlow, safe_eq hx hhigh,
    Comparison.holds, decide_eq_true_eq]
  rw [if_pos hle]
  refine congrArg some ?_
  split
  · rename_i hxlow
    rw [max_eq_left ((min_le_left _ _).trans hxlow)] at hmem ⊢
    exact convert_of_mem hmem
  · rename_i hxlow
    split
    · rename_i hxhigh
      rw [min_eq_right hxhigh, max_eq_right hle] at hmem ⊢
      exact convert_of_mem hmem
    · rename_i hxhigh
      rw [min_eq_left (not_le.mp hxhigh).le, max_eq_right (not_le.mp hxlow).le] at hmem ⊢
      exact convert_of_mem hmem

theorem isSome_safeClampType (hT : IsStandard T) (hL : IsStandard L) (hH : IsStandard H) :
    (safeClampType sizeOfPointer none T L H).isSome = true := by
  obtain ⟨A, hA⟩ := Option.isSome_iff_exists.mp (isSome_clampType sizeOfPointer hT hL hH)
  simp only [safeClampType, hA, Option.bind_eq_bind, Option.bind_some, typeOr_none,
    Option.isSome_some]

/-- **All three functions** return what they should, and the types are found that have it: for two
arguments whatever their types are, and for three of the types of the language. -/
theorem safeMinMax_exact (sizeOfPointer : ℕ) (R : Option IntType) (T L H : IntType) :
    ((safeMinType sizeOfPointer none T L).isSome = true ∧
      ∀ R2, safeMinType sizeOfPointer R T L = some R2 → ∀ (a : T.Value) (b : L.Value),
        R2.Mem (min (a : ℤ) b) ∧ safeMin sizeOfPointer R2 T L a b = min (a : ℤ) b) ∧
    ((safeMaxType sizeOfPointer none T L).isSome = true ∧
      ∀ R2, safeMaxType sizeOfPointer R T L = some R2 → ∀ (a : T.Value) (b : L.Value),
        R2.Mem (max (a : ℤ) b) ∧ safeMax sizeOfPointer R2 T L a b = max (a : ℤ) b) ∧
    (IsStandard T ∧ IsStandard L ∧ IsStandard H →
      (safeClampType sizeOfPointer none T L H).isSome = true) ∧
    ∀ R2, safeClampType sizeOfPointer R T L H = some R2 →
      ∀ (x : T.Value) (low : L.Value) (high : H.Value), (low : ℤ) ≤ high →
        let clamped := max (low : ℤ) (min (x : ℤ) high)
        R2.Mem clamped ∧ safeClamp sizeOfPointer R2 T L H x low high = some clamped := by
  refine ⟨⟨?_, fun R2 h a b => safeMin_exact h a.2 b.2⟩,
    ⟨?_, fun R2 h a b => safeMax_exact h a.2 b.2⟩,
    fun ⟨hT, hL, hH⟩ => isSome_safeClampType hT hL hH,
    fun R2 h x low high hle => safeClamp_exact h x.2 low.2 high.2 hle⟩
  · rw [safeMinType_none, Option.isSome_some]
  · rw [safeMaxType_none, Option.isSome_some]

/-- `SafeClamp` of an `uint64_t`, between an `int64_t` and an `int32_t`. -/
theorem safeMinMax_exact_clamp :
    (safeClampType 8 none (.unsigned 8) (.signed 8) (.signed 4)).isSome = true ∧
      safeClamp 8 (.signed 4) (.unsigned 8) (.signed 8) (.signed 4) (2 ^ 64 - 1) (-2 ^ 63) (-1) =
        some (-1) :=
  have h := (safeMinMax_exact 8 none (.unsigned 8) (.signed 8) (.signed 4)).2.2
  ⟨h.1 (by decide), (h.2 (.signed 4) (by decide) ⟨2 ^ 64 - 1, by decide⟩ ⟨-2 ^ 63, by decide⟩
    ⟨-1, by decide⟩ (by decide)).2⟩

end SafeMinMax

end TQLib
