import TQLib.Foundations.Signed
import Mathlib.Data.PNat.Basic

/-!
# The integer types of C++

A type is `bool`, or has a size in bytes with or without a sign. A conversion keeps what is a value
of the other type, and takes what is not modulo its range; to `bool` everything but zero is one.

Before two operands are compared, each is promoted, and both are converted to one type. That type
has room for the digits of both, but may be without a sign. So the comparison is the one of the
integers wherever no operand is negative or the type has a sign, and elsewhere it may not be.

## Main results

* `IntType.mem_of_digits_le` — when a value of one type is one of another
* `IntType.convert_of_mem` — a conversion keeps the values of the type
* `IntType.native_eq` — when a comparison is the one of the integers
-/

namespace TQLib

/-- An integer type, by its size in bytes. -/
inductive IntType
  | bool
  | signed (size : ℕ+)
  | unsigned (size : ℕ+)
  deriving DecidableEq

namespace IntType

/-- `std::is_signed`. -/
def isSigned : IntType → Bool
  | signed _ => true
  | _ => false

/-- `sizeof`. -/
def size : IntType → ℕ
  | bool => 1
  | signed n => n
  | unsigned n => n

/-- `std::numeric_limits<T>::digits`: the bits, without the one of the sign. -/
def digits : IntType → ℕ
  | bool => 1
  | signed n => 8 * n - 1
  | unsigned n => 8 * n

/-- `std::numeric_limits<T>::lowest()`. -/
def lowest (T : IntType) : ℤ := if T.isSigned then -2 ^ T.digits else 0

/-- `std::numeric_limits<T>::max()`. -/
def max (T : IntType) : ℤ := 2 ^ T.digits - 1

/-- The values of a type. -/
def Mem (T : IntType) (v : ℤ) : Prop := T.lowest ≤ v ∧ v ≤ T.max

instance (T : IntType) (v : ℤ) : Decidable (T.Mem v) := inferInstanceAs (Decidable (_ ∧ _))

/-- A value of a type. -/
abbrev Value (T : IntType) := { v : ℤ // T.Mem v }

/-- A conversion. -/
def convert : IntType → ℤ → ℤ
  | bool, v => if v = 0 then 0 else 1
  | signed n, v => Int.bmod v (2 ^ (8 * (n : ℕ)))
  | unsigned n, v => v % 2 ^ (8 * (n : ℕ))

/-- `int8_t`, `int16_t` and so on, by their bytes. -/
def signedOfSize (size : ℕ) : IntType := signed size.toPNat'

/-- `uint8_t`, `uint16_t` and so on. -/
def unsignedOfSize (size : ℕ) : IntType := unsigned size.toPNat'

/-- `int`. -/
def int : IntType := signedOfSize 4

/-- The type of an operand after the integral promotions. -/
def promote (T : IntType) : IntType := if T.size < int.size then int else T

/-- The type of both operands after the usual arithmetic conversions. -/
def common (S T : IntType) : IntType :=
  let S := S.promote
  let T := T.promote
  if S.isSigned = T.isSigned then
    if S.size < T.size then T else S
  -- A type without a sign gives way to one that has all of its values.
  else if S.isSigned then
    if T.size < S.size then S else T
  else
    if S.size < T.size then T else S

/-- A comparison. -/
inductive Comparison
  | eq
  | ne
  | lt
  | le
  | gt
  | ge
  deriving DecidableEq

/-- The comparison of two integers. -/
def Comparison.holds : Comparison → ℤ → ℤ → Bool
  | eq, a, b => a = b
  | ne, a, b => a ≠ b
  | lt, a, b => a < b
  | le, a, b => a ≤ b
  | gt, a, b => b < a
  | ge, a, b => b ≤ a

/-- The comparison that the language makes of operands of the types `S` and `T`. -/
def native (op : Comparison) (S T : IntType) (a b : ℤ) : Bool :=
  op.holds ((common S T).convert a) ((common S T).convert b)

variable {S T : IntType} {a b v : ℤ}

/-! ## Values -/

theorem size_pos (T : IntType) : 0 < T.size := by
  cases T with
  | bool => exact Nat.one_pos
  | signed n => exact n.pos
  | unsigned n => exact n.pos

theorem signedOfSize_coe (n : ℕ+) : signedOfSize n = signed n :=
  congrArg signed (PNat.coe_toPNat' n)

theorem unsignedOfSize_coe (n : ℕ+) : unsignedOfSize n = unsigned n :=
  congrArg unsigned (PNat.coe_toPNat' n)

theorem mem_iff : T.Mem v ↔ (0 ≤ v ∨ T.isSigned = true ∧ -2 ^ T.digits ≤ v) ∧ v < 2 ^ T.digits := by
  have hpos : (0 : ℤ) < 2 ^ T.digits := by positivity
  rw [Mem, lowest, max]
  split
  · rename_i hs
    simp only [hs, true_and]
    omega
  · rename_i hs
    simp only [hs, false_and, or_false, Bool.false_eq_true]
    omega

theorem two_pow_digits_mono (h : S.digits ≤ T.digits) : (2 : ℤ) ^ S.digits ≤ 2 ^ T.digits :=
  pow_le_pow_right₀ (by decide) h

/-- **When a value of one type is one of another**: where that has as many digits, and a sign for
what is negative. -/
theorem mem_of_digits_le (hv : S.Mem v) (hd : S.digits ≤ T.digits)
    (hs : 0 ≤ v ∨ T.isSigned = true) : T.Mem v := by
  have hpow := two_pow_digits_mono hd
  rw [mem_iff] at hv ⊢
  refine ⟨?_, by omega⟩
  rcases hs with h0 | hs
  · exact .inl h0
  · exact hv.1.imp_right fun h => ⟨hs, by omega⟩

theorem mem_zero (T : IntType) : T.Mem 0 := mem_iff.mpr ⟨.inl le_rfl, by positivity⟩

theorem lowest_le_zero (T : IntType) : T.lowest ≤ 0 := (mem_zero T).1

theorem lowest_le_max (T : IntType) : T.lowest ≤ T.max := (mem_zero T).1.trans (mem_zero T).2

theorem mem_lowest (T : IntType) : T.Mem T.lowest := ⟨le_rfl, lowest_le_max T⟩

theorem mem_max (T : IntType) : T.Mem T.max := ⟨lowest_le_max T, le_rfl⟩

/-- Without a sign nothing is negative. -/
theorem nonneg_of_mem (hv : T.Mem v) (hs : T.isSigned = false) : 0 ≤ v := by
  rw [mem_iff, hs] at hv
  simpa using hv.1

/-- **A conversion keeps the values of the type.** -/
theorem convert_of_mem (hv : T.Mem v) : T.convert v = v := by
  rw [mem_iff] at hv
  cases T with
  | bool =>
    have hv' : v = 0 ∨ v = 1 := by
      simp only [isSigned, digits, pow_one, Bool.false_eq_true, false_and, or_false] at hv
      omega
    obtain rfl | rfl := hv' <;> rfl
  | signed n =>
    have hn := n.pos
    refine bmod_of_inSigned (by omega) ?_
    simp only [isSigned, digits, true_and] at hv
    constructor <;> omega
  | unsigned n =>
    simp only [isSigned, digits, Bool.false_eq_true, false_and, or_false] at hv
    exact Int.emod_eq_of_lt hv.1 hv.2

/-- Types that end at the same value begin at the same value. -/
theorem lowest_eq_of_max_eq (h : S.max = T.max) : S.lowest = T.lowest := by
  have hpow : (2 : ℕ) ^ S.digits = 2 ^ T.digits := by
    have h' : (2 : ℤ) ^ S.digits = 2 ^ T.digits := sub_left_injective h
    exact_mod_cast h'
  have hd : S.digits = T.digits := Nat.pow_right_injective le_rfl hpow
  have hs : S.isSigned = T.isSigned := by
    have hS := size_pos S
    have hT := size_pos T
    cases S <;> cases T <;> simp only [digits, isSigned, size] at hd hS hT ⊢ <;> omega
  rw [lowest, lowest, hs, hd]

/-! ## Promotions -/

/-- The size says how many digits there are, except of `bool`. -/
theorem digits_le (T : IntType) : T.digits ≤ 8 * T.size := by
  cases T <;> simp only [digits, size] <;> omega

theorem digits_eq (hT : T ≠ bool) : T.digits = 8 * T.size - if T.isSigned then 1 else 0 := by
  cases T with
  | bool => exact absurd rfl hT
  | signed n => rfl
  | unsigned n => rfl

theorem digits_of_isSigned (hs : T.isSigned = true) : T.digits = 8 * T.size - 1 := by
  have hT : T ≠ bool := fun h => by
    rw [h] at hs
    cases hs
  rw [digits_eq hT, if_pos hs]

theorem digits_of_not_isSigned (hT : T ≠ bool) (hs : T.isSigned = false) :
    T.digits = 8 * T.size := by
  rw [digits_eq hT, hs]
  rfl

theorem le_size_promote (T : IntType) : 4 ≤ T.promote.size := by
  rw [promote]
  split
  · exact le_rfl
  · rename_i h
    exact not_lt.mp h

theorem promote_ne_bool (T : IntType) : T.promote ≠ bool := fun h => by
  have := le_size_promote T
  rw [h] at this
  exact absurd this (by decide)

/-- A promotion loses no digit. -/
theorem digits_le_promote (T : IntType) : T.digits ≤ T.promote.digits := by
  have hd := digits_le T
  rw [promote]
  split
  · rename_i h
    have h' : T.size < 4 := h
    have hint : int.digits = 31 := rfl
    omega
  · exact le_rfl

/-- And no sign. -/
theorem isSigned_promote (hT : T.isSigned = true) : T.promote.isSigned = true := by
  rw [promote]
  split
  · rfl
  · exact hT

/-- **What is promoted** is a value of the type that it is promoted to. -/
theorem mem_promote (hv : T.Mem v) : T.promote.Mem v := by
  refine mem_of_digits_le hv (digits_le_promote T) ?_
  cases hs : T.isSigned
  · exact .inl (nonneg_of_mem hv hs)
  · exact .inr (isSigned_promote hs)

/-- The type of both operands has room for the digits of each. -/
theorem digits_le_common (S T : IntType) :
    S.digits ≤ (common S T).digits ∧ T.digits ≤ (common S T).digits := by
  have hS := digits_le_promote S
  have hT := digits_le_promote T
  have hS' := digits_eq (promote_ne_bool S)
  have hT' := digits_eq (promote_ne_bool T)
  have hpos := size_pos S.promote
  have hpos' := size_pos T.promote
  rw [common]
  cases hs : S.promote.isSigned <;> cases ht : T.promote.isSigned <;>
    simp only [hs, ht, if_true, if_false, Bool.false_eq_true, reduceCtorEq] at hS' hT' ⊢ <;>
    split <;> constructor <;> omega

/-- It has a sign if both have one after they are promoted. -/
theorem isSigned_common (hS : S.promote.isSigned = true) (hT : T.promote.isSigned = true) :
    (common S T).isSigned = true := by
  rw [common, if_pos (hS.trans hT.symm)]
  split
  · exact hT
  · exact hS

/-! ## Comparisons -/

/-- **When a comparison is the one of the integers.** -/
theorem native_eq (op : Comparison) (ha : S.Mem a) (hb : T.Mem b)
    (hs : 0 ≤ a ∧ 0 ≤ b ∨ (common S T).isSigned = true) : native op S T a b = op.holds a b := by
  obtain ⟨hS, hT⟩ := digits_le_common S T
  have ha' : (common S T).Mem a := mem_of_digits_le ha hS (hs.imp_left And.left)
  have hb' : (common S T).Mem b := mem_of_digits_le hb hT (hs.imp_left And.right)
  rw [native, convert_of_mem ha', convert_of_mem hb']

/-- Of operands with signs. -/
theorem native_of_isSigned (op : Comparison) (hS : S.isSigned = true) (hT : T.isSigned = true)
    (ha : S.Mem a) (hb : T.Mem b) : native op S T a b = op.holds a b :=
  native_eq op ha hb (.inr (isSigned_common (isSigned_promote hS) (isSigned_promote hT)))

/-- Of operands that both have a sign, or both have none. -/
theorem native_of_isSigned_eq (op : Comparison) (h : S.isSigned = T.isSigned) (ha : S.Mem a)
    (hb : T.Mem b) : native op S T a b = op.holds a b := by
  cases hS : S.isSigned
  · have hT : T.isSigned = false := h.symm.trans hS
    exact native_eq op ha hb (.inl ⟨nonneg_of_mem ha hS, nonneg_of_mem hb hT⟩)
  · exact native_of_isSigned op hS (h.symm.trans hS) ha hb

end IntType

end TQLib
