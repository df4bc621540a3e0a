import TQLib.Foundations.IntegerTypes

/-!
# `SafeEq` and its family

The comparisons of `rtc_base/numerics/safe_compare.h`. Operands of one signedness are compared as
they are. Elsewhere the one without a sign is converted to a larger type with one, if there is such
a type that is not larger than the other operand or a pointer; if there is none, the sign of the
other is looked at first.

The size of a pointer is a parameter, and no size of the operands is left out.

## Main results

* `SafeCompare.cmp_eq` — each of the overloads compares the integers
* `SafeCompare.safe_exact` — and so do all six functions
-/

namespace TQLib

namespace SafeCompare

open IntType

/-- `LargerIntImpl`. -/
def largerIntImpl : ℕ → Option IntType
  | 1 => some (signedOfSize 2)
  | 2 => some (signedOfSize 4)
  | 4 => some (signedOfSize 8)
  | _ => none

/-- `LargerInt`. -/
def largerInt (sizeOfPointer : ℕ) (T1 T2 : IntType) : Option IntType :=
  largerIntImpl (if T1.size < T2.size ∨ T1.size < sizeOfPointer then T1.size else 0)

/-- `std::make_unsigned`, of a type with a sign. -/
def makeUnsignedType : IntType → IntType
  | .signed n => .unsigned n
  | T => T

/-- `Cmp`, with its five overloads. -/
def cmp (sizeOfPointer : ℕ) (op : Comparison) (T1 T2 : IntType) (a b : ℤ) : Bool :=
  if T1.isSigned = T2.isSigned then native op T1 T2 a b
  else if T1.isSigned then
    match largerInt sizeOfPointer T2 T1 with
    | some larger => native op T1 larger a (larger.convert b)
    | none =>
      if native .lt T1 int a 0 then native op int int (-1) 0
      else native op (makeUnsignedType T1) T2 ((makeUnsignedType T1).convert a) b
  else
    match largerInt sizeOfPointer T1 T2 with
    | some larger => native op larger T2 (larger.convert a) b
    | none =>
      if native .lt T2 int b 0 then native op int int 0 (-1)
      else native op T1 (makeUnsignedType T2) a ((makeUnsignedType T2).convert b)

/-- What the functions have in common. The plus promotes the operands. -/
def safe (sizeOfPointer : ℕ) (op : Comparison) (T1 T2 : IntType) (a b : ℤ) : Bool :=
  cmp sizeOfPointer op T1.promote T2.promote (T1.promote.convert a) (T2.promote.convert b)

variable (sizeOfPointer : ℕ) (T1 T2 : IntType) (a b : ℤ)

/-- `SafeEq`. -/
def safeEq : Bool := safe sizeOfPointer .eq T1 T2 a b

/-- `SafeNe`. -/
def safeNe : Bool := safe sizeOfPointer .ne T1 T2 a b

/-- `SafeLt`. -/
def safeLt : Bool := safe sizeOfPointer .lt T1 T2 a b

/-- `SafeLe`. -/
def safeLe : Bool := safe sizeOfPointer .le T1 T2 a b

/-- `SafeGt`. -/
def safeGt : Bool := safe sizeOfPointer .gt T1 T2 a b

/-- `SafeGe`. -/
def safeGe : Bool := safe sizeOfPointer .ge T1 T2 a b

variable {sizeOfPointer T1 T2 a b} {larger : IntType} {op : Comparison}

/-! ## A larger type -/

theorem largerIntImpl_eq {n : ℕ} (h : largerIntImpl n = some larger) :
    larger.isSigned = true ∧ larger.digits = 16 * n - 1 := by
  unfold largerIntImpl at h
  split at h
  · obtain rfl := Option.some.inj h
    decide
  · obtain rfl := Option.some.inj h
    decide
  · obtain rfl := Option.some.inj h
    decide
  · cases h

/-- The larger type has a sign, and every value of what it is larger than. -/
theorem largerInt_spec (h : largerInt sizeOfPointer T1 T2 = some larger) (ha : T1.Mem a) :
    larger.isSigned = true ∧ larger.Mem a := by
  rw [largerInt] at h
  split at h
  · obtain ⟨hs, hd⟩ := largerIntImpl_eq h
    have hpos := size_pos T1
    have hle := digits_le T1
    exact ⟨hs, mem_of_digits_le ha (by omega) (.inr hs)⟩
  · cases h

/-! ## A sign that is looked at -/

/-- What is not negative is a value of the type without the sign. -/
theorem mem_makeUnsignedType (ha : T1.Mem a) (h0 : 0 ≤ a) : (makeUnsignedType T1).Mem a := by
  cases T1 with
  | bool => exact ha
  | signed n => exact mem_of_digits_le ha (Nat.sub_le ..) (.inl h0)
  | unsigned n => exact ha

theorem native_lt_zero (hs : T1.isSigned = true) (ha : T1.Mem a) :
    native .lt T1 int a 0 = decide (a < 0) :=
  native_of_isSigned .lt hs rfl ha (mem_zero int)

/-- A negative operand is as good as any other. -/
theorem holds_neg_left (op : Comparison) (ha : a < 0) (hb : 0 ≤ b) :
    op.holds (-1) 0 = op.holds a b := by
  cases op <;> simp only [Comparison.holds, decide_eq_decide] <;> omega

theorem holds_neg_right (op : Comparison) (ha : 0 ≤ a) (hb : b < 0) :
    op.holds 0 (-1) = op.holds a b := by
  cases op <;> simp only [Comparison.holds, decide_eq_decide] <;> omega

/-- **A sign that is looked at**, of the left operand. -/
theorem guarded_left (hs : T1.isSigned = true) (ha : T1.Mem a) (hb : T2.Mem b) (hb0 : 0 ≤ b) :
    (if native .lt T1 int a 0 then native op int int (-1) 0
      else native op (makeUnsignedType T1) T2 ((makeUnsignedType T1).convert a) b) =
        op.holds a b := by
  rw [native_lt_zero hs ha]
  split
  · rename_i hneg
    rw [native_of_isSigned op rfl rfl (by decide) (mem_zero int)]
    exact holds_neg_left op (of_decide_eq_true hneg) hb0
  · rename_i hneg
    have ha0 : 0 ≤ a := by simpa using hneg
    have hmem := mem_makeUnsignedType ha ha0
    rw [convert_of_mem hmem]
    exact native_eq op hmem hb (.inl ⟨ha0, hb0⟩)

/-- And of the right one. -/
theorem guarded_right (hs : T2.isSigned = true) (ha : T1.Mem a) (ha0 : 0 ≤ a) (hb : T2.Mem b) :
    (if native .lt T2 int b 0 then native op int int 0 (-1)
      else native op T1 (makeUnsignedType T2) a ((makeUnsignedType T2).convert b)) =
        op.holds a b := by
  rw [native_lt_zero hs hb]
  split
  · rename_i hneg
    rw [native_of_isSigned op rfl rfl (mem_zero int) (by decide)]
    exact holds_neg_right op ha0 (of_decide_eq_true hneg)
  · rename_i hneg
    have hb0 : 0 ≤ b := by simpa using hneg
    have hmem := mem_makeUnsignedType hb hb0
    rw [convert_of_mem hmem]
    exact native_eq op ha hmem (.inl ⟨ha0, hb0⟩)

/-! ## The overloads -/

/-- **Each of the overloads** compares the integers. -/
theorem cmp_eq (ha : T1.Mem a) (hb : T2.Mem b) :
    cmp sizeOfPointer op T1 T2 a b = op.holds a b := by
  unfold cmp
  split
  · rename_i h
    exact native_of_isSigned_eq op h ha hb
  · rename_i h
    split
    · rename_i hs1
      have hs2 : T2.isSigned = false := by simpa [hs1] using Ne.symm h
      split
      · rename_i larger hlarger
        obtain ⟨hs, hmem⟩ := largerInt_spec hlarger hb
        rw [convert_of_mem hmem]
        exact native_of_isSigned op hs1 hs ha hmem
      · exact guarded_left hs1 ha hb (nonneg_of_mem hb hs2)
    · rename_i hs1
      have hs1' : T1.isSigned = false := by simpa using hs1
      have hs2 : T2.isSigned = true := by simpa [hs1'] using Ne.symm h
      split
      · rename_i larger hlarger
        obtain ⟨hs, hmem⟩ := largerInt_spec hlarger ha
        rw [convert_of_mem hmem]
        exact native_of_isSigned op hs hs2 hmem hb
      · exact guarded_right hs2 ha (nonneg_of_mem ha hs1') hb

/-- What the functions have in common is the comparison of the integers. -/
theorem safe_eq (ha : T1.Mem a) (hb : T2.Mem b) :
    safe sizeOfPointer op T1 T2 a b = op.holds a b := by
  have ha' := mem_promote ha
  have hb' := mem_promote hb
  rw [safe, convert_of_mem ha', convert_of_mem hb', cmp_eq ha' hb']

/-- **All six functions compare the integers**, whatever the types of the operands are. -/
theorem safe_exact (sizeOfPointer : ℕ) (T1 T2 : IntType) (a : T1.Value) (b : T2.Value) :
    safeEq sizeOfPointer T1 T2 a b = decide ((a : ℤ) = b) ∧
    safeNe sizeOfPointer T1 T2 a b = decide ((a : ℤ) ≠ b) ∧
    safeLt sizeOfPointer T1 T2 a b = decide ((a : ℤ) < b) ∧
    safeLe sizeOfPointer T1 T2 a b = decide ((a : ℤ) ≤ b) ∧
    safeGt sizeOfPointer T1 T2 a b = decide ((a : ℤ) > b) ∧
    safeGe sizeOfPointer T1 T2 a b = decide ((a : ℤ) ≥ b) :=
  ⟨safe_eq a.2 b.2, safe_eq a.2 b.2, safe_eq a.2 b.2, safe_eq a.2 b.2, safe_eq a.2 b.2,
    safe_eq a.2 b.2⟩

end SafeCompare

end TQLib
