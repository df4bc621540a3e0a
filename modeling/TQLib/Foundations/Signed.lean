import Mathlib.Algebra.Order.Ring.Int
import Mathlib.Data.Int.ModEq
import Mathlib.Tactic.Linarith

/-!
# Signed integers of a machine

Arithmetic on a signed integer type is the arithmetic of the integers as long as the result is a
value of the type. Where it is not, the behaviour is undefined, written `none`. A conversion to the
type is another matter: it takes the value that is the same modulo the range of the type.

## Main results

* `signed_of`, `signed_of_not` — when an operation is defined
* `inSigned_bmod`, `bmod_of_inSigned`, `bmod_of_le` — what a conversion does inside the range and
  above it
-/

namespace TQLib

variable {w : ℕ} {x y : ℤ}

/-- The values of a signed integer type of the given width. -/
def InSigned (w : ℕ) (x : ℤ) : Prop := -2 ^ (w - 1) ≤ x ∧ x < 2 ^ (w - 1)

instance (w : ℕ) (x : ℤ) : Decidable (InSigned w x) := inferInstanceAs (Decidable (_ ∧ _))

/-- What an operation on the type gives whose result is `x` in the integers. -/
def signed (w : ℕ) (x : ℤ) : Option ℤ := if InSigned w x then some x else none

theorem signed_of (h : InSigned w x) : signed w x = some x := if_pos h

theorem signed_of_not (h : ¬ InSigned w x) : signed w x = none := if_neg h

/-- The range of the type, of which one half is above zero. -/
theorem two_pow_eq (hw : 0 < w) : ((2 ^ w : ℕ) : ℤ) = 2 * 2 ^ (w - 1) := by
  obtain ⟨n, rfl⟩ := Nat.exists_eq_add_of_lt hw
  rw [Nat.zero_add, Nat.add_sub_cancel]
  push_cast
  rw [pow_succ, mul_comm]

/-- A conversion keeps the values of the type. -/
theorem bmod_of_inSigned (hw : 0 < w) (h : InSigned w x) : Int.bmod x (2 ^ w) = x := by
  have hpow := two_pow_eq hw
  obtain ⟨hlow, hhigh⟩ := h
  apply Int.bmod_eq_of_le <;> rw [hpow] <;> omega

/-- A conversion gives a value of the type. -/
theorem inSigned_bmod (hw : 0 < w) (x : ℤ) : InSigned w (Int.bmod x (2 ^ w)) := by
  have hpow := two_pow_eq hw
  have hle : -(((2 ^ w : ℕ) : ℤ) / 2) ≤ Int.bmod x (2 ^ w) := Int.le_bmod (by positivity)
  have hlt : Int.bmod x (2 ^ w) < (((2 ^ w : ℕ) : ℤ) + 1) / 2 := Int.bmod_lt (by positivity)
  constructor <;> omega

/-- What is above the range comes out at least one range lower. -/
theorem bmod_of_le (hw : 0 < w) (h : 2 ^ (w - 1) ≤ x) : Int.bmod x (2 ^ w) ≤ x - 2 ^ w := by
  have hpow := two_pow_eq hw
  have hlt : Int.bmod x (2 ^ w) < (((2 ^ w : ℕ) : ℤ) + 1) / 2 := Int.bmod_lt (by positivity)
  have hsub := Int.bmod_eq_self_sub_mul_bdiv x (2 ^ w)
  have hpos : 0 < ((2 ^ w : ℕ) : ℤ) := by positivity
  have hquot : 1 ≤ Int.bdiv x (2 ^ w) := by
    by_contra hle
    have : ((2 ^ w : ℕ) : ℤ) * Int.bdiv x (2 ^ w) ≤ 0 :=
      mul_nonpos_of_nonneg_of_nonpos hpos.le (by omega)
    omega
  have hmul : ((2 ^ w : ℕ) : ℤ) ≤ ((2 ^ w : ℕ) : ℤ) * Int.bdiv x (2 ^ w) := by nlinarith
  push_cast at hmul hsub ⊢
  omega

end TQLib
