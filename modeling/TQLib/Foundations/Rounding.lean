import Mathlib.Algebra.Order.Floor.Ring
import Mathlib.Data.Rat.Floor
import Mathlib.Order.Bounds.Basic
import Mathlib.Tactic.FieldSimp
import Mathlib.Tactic.Linarith

/-!
# Rounding to multiples

A number lies between two neighbouring multiples of a positive number, of which one is nearest.
Division rounds towards zero, so that it finds the lower one above zero and the upper one below it.
What is added before dividing moves the number to where division is to find the right one; it does
so only if the sum is not negative, or is a multiple itself.

## Main results

* `isGreatest_multiple`, `isLeast_multiple` — the neighbouring multiples
* `isNearest_iff` — a nearest multiple
* `tdiv_mul_eq_iff` — where division finds the lower one
* `isNearest_tdiv_iff` — where it finds a nearest one
* `truncated_div`, `isRounded_div_iff` — the same about a quotient of rational numbers
-/

namespace TQLib

variable {v r m : ℤ}

/-- The multiples of `r` next to `v` from below. -/
def IsFloor (v r m : ℤ) : Prop := IsGreatest {k | r ∣ k ∧ k ≤ v} m

/-- The multiples of `r` next to `v` from above. -/
def IsCeil (v r m : ℤ) : Prop := IsLeast {k | r ∣ k ∧ v ≤ k} m

/-- The multiples of `r` that are nearest to `v`. -/
def IsNearest (v r m : ℤ) : Prop := r ∣ m ∧ ∀ k, r ∣ k → |v - m| ≤ |v - k|

theorem isFloor_ediv (hr : 0 < r) : IsFloor v r (v / r * r) := by
  refine ⟨⟨dvd_mul_left r _, Int.ediv_mul_le v hr.ne'⟩, ?_⟩
  rintro k ⟨⟨j, rfl⟩, hle⟩
  have hj : j ≤ v / r := (Int.le_ediv_iff_mul_le hr).mpr (by linarith [mul_comm r j])
  nlinarith

theorem isFloor_iff (hr : 0 < r) : IsFloor v r m ↔ m = v / r * r :=
  ⟨fun h => h.unique (isFloor_ediv hr), fun h => h ▸ isFloor_ediv hr⟩

theorem isCeil_ediv (hr : 0 < r) : IsCeil v r ((v + r - 1) / r * r) := by
  have hsum : (v + r - 1) % r + r * ((v + r - 1) / r) = v + r - 1 := Int.emod_add_mul_ediv _ _
  have hlt := Int.emod_lt_of_pos (v + r - 1) hr
  refine ⟨⟨dvd_mul_left r _, by linarith [mul_comm r ((v + r - 1) / r)]⟩, ?_⟩
  rintro k ⟨⟨j, rfl⟩, hle⟩
  have hj : (v + r - 1) / r < j + 1 := Int.ediv_lt_of_lt_mul hr (by linarith [mul_comm r j])
  nlinarith

theorem isCeil_iff (hr : 0 < r) : IsCeil v r m ↔ m = (v + r - 1) / r * r :=
  ⟨fun h => h.unique (isCeil_ediv hr), fun h => h ▸ isCeil_ediv hr⟩

/-- A multiple is nearest if it is at most one half away. -/
theorem isNearest_iff (hr : 0 < r) (hm : r ∣ m) : IsNearest v r m ↔ 2 * |v - m| ≤ r := by
  constructor
  · rintro ⟨-, hleast⟩
    -- the next multiple on the side of `v`
    have hup := hleast (m + r) (dvd_add hm dvd_rfl)
    have hdown := hleast (m - r) (dvd_sub hm dvd_rfl)
    obtain hle | hlt := le_or_gt m v
    · rw [abs_of_nonneg (sub_nonneg.mpr hle)] at hup ⊢
      obtain hover | hover := abs_cases (v - (m + r)) <;> omega
    · rw [abs_of_neg (sub_neg.mpr hlt)] at hdown ⊢
      obtain hover | hover := abs_cases (v - (m - r)) <;> omega
  · refine fun hhalf => ⟨hm, fun k hk => ?_⟩
    by_cases heq : k = m
    · rw [heq]
    have hapart : r ≤ |k - m| :=
      Int.le_of_dvd (abs_pos.mpr (sub_ne_zero.mpr heq)) ((dvd_abs r _).mpr (dvd_sub hk hm))
    have htriangle := abs_sub_abs_le_abs_sub (k - m) (v - m)
    have hdiff : k - m - (v - m) = -(v - k) := by ring
    rw [hdiff, abs_neg] at htriangle
    omega

/-- A multiple is its own neighbour, from below. -/
theorem isFloor_self (hm : r ∣ m) : IsFloor m r m := ⟨⟨hm, le_rfl⟩, fun _ hk => hk.2⟩

/-- A multiple is its own neighbour, from above. -/
theorem isCeil_self (hm : r ∣ m) : IsCeil m r m := ⟨⟨hm, le_rfl⟩, fun _ hk => hk.2⟩

/-- Nothing is as near to a multiple as it is itself. -/
theorem IsNearest.eq_of_dvd (h : IsNearest v r m) (hv : r ∣ v) : m = v := by
  have hle := h.2 v hv
  rw [sub_self, abs_zero] at hle
  exact (sub_eq_zero.mp (abs_nonpos_iff.mp hle)).symm

/-- A nearest multiple is one of the neighbours. -/
theorem IsNearest.floor_or_ceil (h : IsNearest v r m) (hr : 0 < r) :
    IsFloor v r m ∨ IsCeil v r m := by
  obtain ⟨hm, hleast⟩ := h
  obtain hle | hle := le_total m v
  · have hfloor := isFloor_ediv (v := v) hr
    have hnear := hleast _ hfloor.1.1
    have hmax : m ≤ v / r * r := hfloor.2 ⟨hm, hle⟩
    have hbelow : v / r * r ≤ v := hfloor.1.2
    rw [abs_of_nonneg (by omega), abs_of_nonneg (by omega)] at hnear
    exact .inl ((isFloor_iff hr).mpr (by omega))
  · have hceil := isCeil_ediv (v := v) hr
    have hnear := hleast _ hceil.1.1
    have hmin : (v + r - 1) / r * r ≤ m := hceil.2 ⟨hm, hle⟩
    have habove : v ≤ (v + r - 1) / r * r := hceil.1.2
    rw [abs_of_nonpos (by omega), abs_of_nonpos (by omega)] at hnear
    exact .inr ((isCeil_iff hr).mpr (by omega))

/-- **Where division finds the lower neighbour.** -/
theorem tdiv_mul_eq_iff (hr : 0 < r) : v.tdiv r * r = v / r * r ↔ 0 ≤ v ∨ r ∣ v := by
  rw [mul_left_inj' hr.ne', Int.tdiv_eq_ediv, Int.sign_eq_one_of_pos hr]
  by_cases h : 0 ≤ v ∨ r ∣ v <;> simp [h]

/-- **Where division finds a nearest multiple**, when half of the other number is added before. -/
theorem isNearest_tdiv_iff (hr : 0 < r) :
    IsNearest v r ((v + r / 2).tdiv r * r) ↔ 0 ≤ v + r / 2 ∨ r ∣ v + r / 2 := by
  rw [isNearest_iff hr (dvd_mul_left r _)]
  have hsum : (v + r / 2) % r + r * ((v + r / 2) / r) = v + r / 2 := Int.emod_add_mul_ediv _ _
  have hnonneg := Int.emod_nonneg (v + r / 2) hr.ne'
  have hlt := Int.emod_lt_of_pos (v + r / 2) hr
  rw [Int.tdiv_eq_ediv, Int.sign_eq_one_of_pos hr]
  by_cases h : 0 ≤ v + r / 2 ∨ r ∣ v + r / 2
  · simp only [h, if_true, add_zero, iff_true, mul_comm _ r]
    obtain hside | hside := abs_cases (v - r * ((v + r / 2) / r)) <;> omega
  · have hpos : 0 < (v + r / 2) % r := by
      refine lt_of_le_of_ne hnonneg fun hzero => h (.inr ?_)
      exact Int.dvd_of_emod_eq_zero hzero.symm
    have hnext : ((v + r / 2) / r + 1) * r = r * ((v + r / 2) / r) + r := by ring
    simp only [h, if_false, iff_false, not_le, hnext]
    obtain hside | hside := abs_cases (v - (r * ((v + r / 2) / r) + r)) <;> omega

/-! ## Quotients -/

section Quotients

variable {a b n : ℤ}

/-- A rational number without its fraction. -/
def truncated (q : ℚ) : ℤ := if 0 ≤ q then ⌊q⌋ else ⌈q⌉

/-- The integers nearest to a rational number. -/
def IsRounded (q : ℚ) (n : ℤ) : Prop := |q - n| ≤ 1 / 2

theorem truncated_div_of_pos (hb : 0 < b) : truncated (a / b : ℚ) = a.tdiv b := by
  have hb' : (0 : ℚ) < b := Int.cast_pos.mpr hb
  have hfloor (c : ℤ) : ⌊(c / b : ℚ)⌋ = c / b := by
    lift b to ℕ using hb.le
    exact Rat.floor_intCast_div_natCast c b
  unfold truncated
  obtain ha | ha := le_or_gt 0 a
  · rw [if_pos (div_nonneg (Int.cast_nonneg ha) hb'.le), hfloor, Int.tdiv_eq_ediv_of_nonneg ha]
  · have hneg : ¬ (0 : ℚ) ≤ a / b := (div_neg_of_neg_of_pos (Int.cast_lt_zero.mpr ha) hb').not_ge
    have hflip : ⌈(a / b : ℚ)⌉ = -⌊((-a : ℤ) / b : ℚ)⌋ := by
      rw [Int.cast_neg, neg_div, Int.floor_neg, neg_neg]
    rw [if_neg hneg, hflip, hfloor, ← Int.tdiv_eq_ediv_of_nonneg (by omega), Int.neg_tdiv, neg_neg]

/-- **Division is exact up to the fraction.** -/
theorem truncated_div (a b : ℤ) : truncated (a / b : ℚ) = a.tdiv b := by
  obtain hb | rfl | hb := lt_trichotomy b 0
  · have h := truncated_div_of_pos (a := -a) (b := -b) (by omega)
    rwa [Int.cast_neg, Int.cast_neg, neg_div_neg_eq, Int.neg_tdiv_neg] at h
  · simp [truncated]
  · exact truncated_div_of_pos hb

/-- An integer is nearest to a quotient if its multiple is nearest to what is divided. -/
theorem isRounded_div_iff (hb : 0 < b) : IsRounded (a / b) n ↔ IsNearest a b (n * b) := by
  have hb' : (0 : ℚ) < b := Int.cast_pos.mpr hb
  rw [isNearest_iff hb (dvd_mul_left b n), IsRounded]
  have hscale : (a / b - n : ℚ) = ((a - n * b : ℤ) : ℚ) / b := by
    push_cast
    field_simp
  rw [hscale, abs_div, abs_of_pos hb', div_le_iff₀ hb', ← Int.cast_abs]
  constructor
  · intro h
    have h' : ((2 * |a - n * b| : ℤ) : ℚ) ≤ (b : ℤ) := by
      push_cast at h ⊢
      linarith
    exact Int.cast_le.mp h'
  · intro h
    have h' : ((2 * |a - n * b| : ℤ) : ℚ) ≤ (b : ℤ) := Int.cast_le.mpr h
    push_cast at h' ⊢
    linarith

end Quotients

end TQLib
