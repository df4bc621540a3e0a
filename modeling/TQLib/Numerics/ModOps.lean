import TQLib.Numerics.SequenceNumber

/-!
# Modular arithmetic

The rest of `rtc_base/numerics/mod_ops.h`: `Add` and `Subtract`, of an `unsigned long` whose width
is a parameter, and what the differences come to. The modulus may be as large as there are values,
so a sum of two residues may be more than fits. It is not formed: what is missing from the second
number to the modulus is taken off the first, and where that goes below zero, the modulus is added
again.

The differences are those of `Numerics/SequenceNumber`.

## Main results

* `ModOps.add_eq`, `ModOps.subtract_eq` — the sum and the difference of the residues
* `SeqNumType.minDiff_triangle` — the triangle inequality
* `ModOps.modOps_exact` — all of it
-/

namespace TQLib

namespace ModOps

/-- A conversion to `unsigned long`. -/
def toULong (w : ℕ) (x : ℤ) : ℤ := x % 2 ^ w

/-- `Add<M>`, where `RTC_DCHECK` is on. -/
def add (w : ℕ) (M a b : ℤ) : Option ℤ :=
  if a < M then
    let t := toULong w (M - b % M)
    let res := toULong w (a - t)
    some (if t > a then toULong w (res + M) else res)
  else none

/-- `Subtract<M>`, where `RTC_DCHECK` is on. -/
def subtract (w : ℕ) (M a b : ℤ) : Option ℤ :=
  if a < M then
    let sub := b % M
    some (if a < sub then toULong w (M - toULong w (sub - a)) else toULong w (a - sub))
  else none

variable {w : ℕ} {M a b x : ℤ}

theorem toULong_eq (h : 0 ≤ x ∧ x < 2 ^ w) : toULong w x = x := Int.emod_eq_of_lt h.1 h.2

/-- What wrapped is right again when the rest is added. -/
theorem toULong_add (w : ℕ) (x y : ℤ) : toULong w (toULong w x + y) = toULong w (x + y) :=
  Int.emod_add_emod x (2 ^ w) y

/-- **The sum of the residues.** -/
theorem add_eq (hM : 0 < M ∧ M < 2 ^ w) (ha : 0 ≤ a ∧ a < M) (b : ℤ) :
    add w M a b = some ((a + b) % M) := by
  have hr := Int.emod_nonneg b hM.1.ne'
  have hr' := Int.emod_lt_of_pos b hM.1
  have hsum : (a + b) % M = (a + b % M) % M := by rw [Int.add_emod_emod]
  have ht : toULong w (M - b % M) = M - b % M := toULong_eq (by omega)
  rw [add, if_pos ha.2, hsum]
  refine congrArg some ?_
  rw [ht]
  split
  · have hsmall : (a + b % M) % M = a + b % M := Int.emod_eq_of_lt (by omega) (by omega)
    rw [toULong_add, toULong_eq (by omega), hsmall]
    omega
  · have hback : a + b % M = a - (M - b % M) + M := by omega
    have hsmall : (a - (M - b % M)) % M = a - (M - b % M) :=
      Int.emod_eq_of_lt (by omega) (by omega)
    rw [toULong_eq (by omega), hback, Int.add_emod_right, hsmall]

/-- **The difference of the residues.** -/
theorem subtract_eq (hM : 0 < M ∧ M < 2 ^ w) (ha : 0 ≤ a ∧ a < M) (b : ℤ) :
    subtract w M a b = some ((a - b) % M) := by
  have hr := Int.emod_nonneg b hM.1.ne'
  have hr' := Int.emod_lt_of_pos b hM.1
  have hdiff : (a - b) % M = (a - b % M) % M := by rw [Int.sub_emod_emod]
  rw [subtract, if_pos ha.2, hdiff]
  refine congrArg some ?_
  split
  · have hforth : a - b % M = M - (b % M - a) - M := by omega
    have hsmall : (M - (b % M - a)) % M = M - (b % M - a) :=
      Int.emod_eq_of_lt (by omega) (by omega)
    rw [toULong_eq (x := b % M - a) (by omega), toULong_eq (by omega), hforth, Int.sub_emod_right,
      hsmall]
  · have hsmall : (a - b % M) % M = a - b % M := Int.emod_eq_of_lt (by omega) (by omega)
    rw [toULong_eq (by omega), hsmall]

end ModOps

namespace SeqNumType

variable {T : SeqNumType} {a b c : ℤ}

/-- `a + b` for two values of `T`, as one. -/
def plus (T : SeqNumType) (a b : ℤ) : ℤ :=
  T.toT (if T.width < 32 then a + b else T.toT (a + b))

/-- The width of `int` is not seen in a sum either. -/
theorem plus_eq (a b : ℤ) : T.plus a b = T.toT (a + b) := by
  rw [plus]
  split
  · rfl
  · exact Int.emod_emod _ _

theorem reverseDiff_eq_forward (ha : T.Below a) (hb : T.Below b) :
    T.reverseDiff a b = Residues.forward T.modulus b a :=
  forwardDiff_eq hb ha

/-- `MinDiff` is the shorter way. -/
theorem minDiff_eq (ha : T.Below a) (hb : T.Below b) :
    T.minDiff a b = Residues.distance T.modulus a b := by
  rw [minDiff, forwardDiff_eq ha hb, reverseDiff_eq_forward ha hb, Residues.distance]

theorem minDiff_comm (a b : ℤ) : T.minDiff a b = T.minDiff b a := by
  rw [minDiff, minDiff, reverseDiff_eq, reverseDiff_eq, min_comm]

/-- **The triangle inequality.** -/
theorem minDiff_triangle (ha : T.Below a) (hb : T.Below b) (hc : T.Below c) :
    T.minDiff a c ≤ T.minDiff a b + T.minDiff b c := by
  rw [minDiff_eq ha hc, minDiff_eq ha hb, minDiff_eq hb hc]
  exact Residues.distance_triangle modulus_pos a b c

/-- A number is as far forward as it should be. -/
theorem add_forwardDiff (ha : T.Below a) (hb : T.Below b) :
    (a + T.forwardDiff a b) % T.modulus = b := by
  have hmod := Residues.add_forward_modEq (u := a) (b := a) (Int.ModEq.refl a) b
    (m := T.modulus)
  rw [forwardDiff_eq ha hb, hmod, Int.emod_eq_of_lt hb.1 hb.2]

/-- And so it is in the arithmetic of `T`, where this wraps at the modulus. -/
theorem plus_forwardDiff (hM : T.M = 0) (ha : T.Below a) (hb : T.Below b) :
    T.plus a (T.forwardDiff a b) = b := by
  have h := add_forwardDiff ha hb
  rw [modulus_of_zero hM] at h
  rw [plus_eq, toT, h]

end SeqNumType

namespace ModOps

/-- **Modular arithmetic is exact.** The sum with a difference is `Add` where `Add` has the modulus,
and the sum of `T` where the modulus is the range of `T`. -/
theorem modOps_exact {w : ℕ} {M x y : ℤ} (hM : 0 < M ∧ M < 2 ^ w) (hx : 0 ≤ x ∧ x < M)
    {T : SeqNumType} {a b c : ℤ} (ha : T.Below a) (hb : T.Below b)
    (hc : T.Below c) :
    (add w M x y = some ((x + y) % M) ∧ subtract w M x y = some ((x - y) % M)) ∧
    (T.forwardDiff a b = (b - a) % T.modulus ∧ T.reverseDiff a b = (a - b) % T.modulus ∧
      T.reverseDiff a b = T.forwardDiff b a ∧
      (T.forwardDiff a b + T.reverseDiff a b) % T.modulus = 0) ∧
    ((T.modulus < 2 ^ w → add w T.modulus a (T.forwardDiff a b) = some b) ∧
      (T.M = 0 → T.plus a (T.forwardDiff a b) = b)) ∧
    T.minDiff a b = T.minDiff b a ∧ T.minDiff a c ≤ T.minDiff a b + T.minDiff b c := by
  refine ⟨⟨add_eq hM hx y, subtract_eq hM hx y⟩,
    ⟨SeqNumType.forwardDiff_eq ha hb, SeqNumType.reverseDiff_eq_forward ha hb,
      SeqNumType.reverseDiff_eq a b, ?_⟩, ⟨fun hw => ?_, fun hM => ?_⟩,
    SeqNumType.minDiff_comm a b, SeqNumType.minDiff_triangle ha hb hc⟩
  · rw [SeqNumType.forwardDiff_eq ha hb, SeqNumType.reverseDiff_eq_forward ha hb]
    exact Residues.forward_add_forward T.modulus a b
  · rw [add_eq ⟨SeqNumType.modulus_pos, hw⟩ ha, SeqNumType.add_forwardDiff ha hb]
  · exact SeqNumType.plus_forwardDiff hM ha hb

/-- Two residues whose sum is above a byte. -/
theorem modOps_exact_byte : add 8 255 254 5 = some 4 ∧ subtract 8 255 254 5 = some 249 :=
  (modOps_exact (M := 255) (by decide) (by decide) (T := ⟨8, 0, by decide, by decide, by decide⟩)
    (a := 253) (b := 2) (c := 7) ⟨by decide, by decide⟩ ⟨by decide, by decide⟩
    ⟨by decide, by decide⟩).1

end ModOps

end TQLib
