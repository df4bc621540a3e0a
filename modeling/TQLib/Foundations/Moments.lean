import Mathlib.Algebra.BigOperators.Group.Multiset.Basic
import Mathlib.Algebra.Field.Basic
import Mathlib.Algebra.CharZero.Defs
import Mathlib.Algebra.Order.BigOperators.Group.Multiset
import Mathlib.Algebra.Order.Field.Basic
import Mathlib.Tactic.FieldSimp
import Mathlib.Tactic.Ring

/-!
# Mean and deviation

The mean of some numbers, and the sum of their squared deviations from it, which divided by how many
they are is their variance. Both can be kept up when a number comes or goes, and when two lots of
numbers become one.

Of no numbers, the mean is zero, as a quotient by zero is.

## Main results

* `deviations_eq` — the sum of the squares less the square of the sum, over how many there are
* `mean_cons`, `deviations_cons` — one more number
* `mean_add`, `deviations_add` — two lots of numbers
-/

namespace TQLib

variable {K : Type*} [Field K]

/-- The mean. -/
def mean (m : Multiset K) : K := m.sum / m.card

/-- The sum of the squared deviations from the mean. -/
def deviations (m : Multiset K) : K := (m.map fun x => (x - mean m) ^ 2).sum

@[simp] theorem mean_zero : mean (0 : Multiset K) = 0 := by simp [mean]

@[simp] theorem deviations_zero : deviations (0 : Multiset K) = 0 := by simp [deviations]

/-- The squared deviations from any number. -/
theorem sum_sq_sub (m : Multiset K) (a : K) : (m.map fun x => (x - a) ^ 2).sum =
    (m.map fun x => x ^ 2).sum - 2 * a * m.sum + m.card * a ^ 2 := by
  induction m using Multiset.induction with
  | empty => simp
  | cons x m ih =>
    rw [Multiset.map_cons, Multiset.sum_cons, ih, Multiset.map_cons, Multiset.sum_cons,
      Multiset.sum_cons, Multiset.card_cons]
    push_cast
    ring

section CharZero

variable [CharZero K]

theorem mean_mul_card (m : Multiset K) : mean m * m.card = m.sum := by
  by_cases h : m = 0
  · simp [h]
  · have hcard : (m.card : K) ≠ 0 := by simpa using h
    exact div_mul_cancel₀ _ hcard

/-- The squares, and the square of the sum. -/
theorem deviations_eq (m : Multiset K) :
    deviations m = (m.map fun x => x ^ 2).sum - m.sum ^ 2 / m.card := by
  by_cases h : m = 0
  · simp [h]
  · have hcard : (m.card : K) ≠ 0 := by simpa using h
    rw [deviations, sum_sq_sub, mean]
    field_simp
    ring

/-- The deviations from another number than the mean. -/
theorem sum_sq_sub_eq (m : Multiset K) (a : K) : (m.map fun x => (x - a) ^ 2).sum =
    deviations m + m.card * (a * (a - 2 * mean m) + mean m ^ 2) := by
  rw [deviations, sum_sq_sub, sum_sq_sub, ← mean_mul_card m]
  ring

/-- **The mean** with one more number. -/
theorem mean_cons (x : K) (m : Multiset K) :
    mean (x ::ₘ m) = mean m + (x - mean m) / (m.card + 1) := by
  have hcard : (m.card : K) + 1 ≠ 0 := Nat.cast_add_one_ne_zero _
  have hmean : mean (x ::ₘ m) = (x + mean m * m.card) / (m.card + 1) := by
    rw [mean_mul_card, mean, Multiset.sum_cons, Multiset.card_cons, Nat.cast_succ]
  rw [hmean]
  field_simp
  ring

/-- **The deviations** with one more number. -/
theorem deviations_cons (x : K) (m : Multiset K) : deviations (x ::ₘ m) =
    deviations m + (x - mean m) * (x - mean (x ::ₘ m)) := by
  have hcard : (m.card : K) + 1 ≠ 0 := Nat.cast_add_one_ne_zero _
  rw [deviations, Multiset.map_cons, Multiset.sum_cons, sum_sq_sub_eq, mean_cons]
  field_simp
  ring

/-- The mean with one number less, of which there is another. -/
theorem mean_of_cons (x : K) {m : Multiset K} (h : m ≠ 0) :
    mean m = mean (x ::ₘ m) - (x - mean (x ::ₘ m)) / m.card := by
  have hcard : (m.card : K) ≠ 0 := by simpa using h
  have hcard' : (m.card : K) + 1 ≠ 0 := Nat.cast_add_one_ne_zero _
  rw [mean_cons]
  field_simp
  ring

/-- **The mean** of two lots of numbers. -/
theorem mean_add (m m' : Multiset K) :
    mean (m + m') = (mean m * m.card + mean m' * m'.card) / (m.card + m'.card) := by
  rw [mean_mul_card, mean_mul_card, mean, Multiset.sum_add, Multiset.card_add, Nat.cast_add]

/-- **The deviations** of two lots of numbers. -/
theorem deviations_add (m m' : Multiset K) : deviations (m + m') =
    deviations m + m.card * (mean (m + m') * (mean (m + m') - 2 * mean m) + mean m ^ 2) +
      (deviations m' +
        m'.card * (mean (m + m') * (mean (m + m') - 2 * mean m') + mean m' ^ 2)) := by
  rw [← sum_sq_sub_eq, ← sum_sq_sub_eq, deviations, Multiset.map_add, Multiset.sum_add]

end CharZero

section Order

variable [LinearOrder K] [IsStrictOrderedRing K]

theorem deviations_nonneg (m : Multiset K) : 0 ≤ deviations m := by
  refine Multiset.sum_nonneg fun y hy => ?_
  obtain ⟨x, -, rfl⟩ := Multiset.mem_map.mp hy
  exact sq_nonneg _

/-- The square of the sum is at most the squares, as often as there are numbers. -/
theorem sq_sum_div_card_le (m : Multiset K) : m.sum ^ 2 / m.card ≤ (m.map fun x => x ^ 2).sum := by
  have hnonneg := deviations_nonneg m
  rw [deviations_eq] at hnonneg
  exact sub_nonneg.mp hnonneg

end Order

end TQLib
