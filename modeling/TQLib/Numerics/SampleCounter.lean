import TQLib.Foundations.Moments
import TQLib.Foundations.Signed
import Mathlib.Algebra.Order.Ring.Rat
import Mathlib.Data.Rat.Cast.Order

/-!
# Counters of samples

`rtc::SampleCounter` and `rtc::SampleCounterWithVariance` of `rtc_base/numerics/sample_counter.cc`,
as they are where `RTC_DCHECK` is on. All members are `int64_t`. The checks are there so that
nothing overflows, and they compute in `int64_t` themselves.

A sum of `int`s is never further from zero than the sum of their squares, so what bounds the squares
bounds every sum on the way. The number of samples is bounded by a check where counters are added to
one another; where a sample is added, it is not.

## Main results

* `SampleCounter.addSum_eq`, `SampleCounter.addBelow_eq` — what the checks are for
* `SampleCounterWithVariance.add_eq`, `SampleCounterWithVariance.addOther_eq` — both kinds of `Add`
* `SampleCounterWithVariance.variance_bounds` — the variance
* `SampleCounterWithVariance.merge_iff` — when two counters make one
-/

namespace TQLib

/-- The class without the variance. -/
structure SampleCounter where
  /-- `sum_`. -/
  sum : ℤ
  /-- `num_samples_`. -/
  numSamples : ℤ
  /-- `max_`. -/
  max : Option ℤ

namespace SampleCounter

/-- Why there is no result. -/
inductive Failure
  /-- An `RTC_DCHECK`. -/
  | check
  /-- An operation on `int64_t` that is undefined. -/
  | overflow

/-- A result in `int64_t`. -/
def int64 (x : ℤ) : Except Failure ℤ := if InSigned 64 x then .ok x else .error .overflow

/-- `RTC_DCHECK`. -/
def check (p : Prop) [Decidable p] : Except Failure Unit := if p then .ok () else .error .check

/-- A quotient in `int64_t`. -/
def quotient (x y : ℤ) : Except Failure ℤ :=
  if y = 0 then .error .overflow else int64 (x.tdiv y)

/-- The greatest value of `int64_t`. -/
def maxInt64 : ℤ := 2 ^ 63 - 1

/-- The least value of `int64_t`. -/
def minInt64 : ℤ := -2 ^ 63

/-- The check of the sum, and the sum. -/
def addSum (sum x : ℤ) : Except Failure ℤ := do
  if 0 < sum then
    let room ← int64 (maxInt64 - sum)
    check (x ≤ room)
  else
    let room ← int64 (minInt64 - sum)
    check (room ≤ x)
  int64 (sum + x)

/-- The check of a number that is only added to, and what is added. -/
def addBelow (n x : ℤ) : Except Failure ℤ := do
  let room ← int64 (maxInt64 - n)
  check (x ≤ room)
  int64 (n + x)

/-- `Add` of a sample. -/
def add (c : SampleCounter) (sample : Int32) : Except Failure SampleCounter := do
  let sum ← addSum c.sum sample.toInt
  let numSamples ← int64 (c.numSamples + 1)
  let max := if c.max.all (· < sample.toInt) then some sample.toInt else c.max
  return { sum, numSamples, max }

/-- `Add` of another counter. -/
def addOther (c other : SampleCounter) : Except Failure SampleCounter := do
  let sum ← addSum c.sum other.sum
  let numSamples ← addBelow c.numSamples other.numSamples
  let max := if other.max.any fun x => c.max.all (· < x) then other.max else c.max
  return { sum, numSamples, max }

/-- `Avg`. -/
def avg (c : SampleCounter) (minRequiredSamples : ℤ) : Except Failure (Option ℤ) := do
  check (0 < minRequiredSamples)
  if c.numSamples < minRequiredSamples then return none
  let mean ← quotient c.sum c.numSamples
  -- `dchecked_cast`
  check (InSigned 32 mean)
  return some mean

/-! ## Checks -/

theorem int64_of {x : ℤ} (h : InSigned 64 x) : int64 x = .ok x := if_pos h

theorem inSigned_iff {x : ℤ} : InSigned 64 x ↔ minInt64 ≤ x ∧ x ≤ maxInt64 := by
  rw [InSigned, minInt64, maxInt64, Int.le_sub_one_iff]

/-- A check, and what comes after it. -/
theorem check_bind {α : Type} (p : Prop) [Decidable p] (f : Unit → Except Failure α) :
    (check p >>= f) = if p then f () else .error .check := by
  rw [check]
  split <;> rfl

/-- What comes after a result. -/
theorem ok_bind {α β : Type} (a : α) (f : α → Except Failure β) :
    ((.ok a : Except Failure α) >>= f) = f a := rfl

/-- What comes after a result in `int64_t`. -/
theorem int64_bind {α : Type} {x : ℤ} (h : InSigned 64 x) (f : ℤ → Except Failure α) :
    (int64 x >>= f) = f x := by
  rw [int64_of h]
  rfl

/-- A check that says whether a result is in range, and the result. -/
theorem check_int64 {p : Prop} [Decidable p] {x : ℤ} (h : p ↔ InSigned 64 x) :
    (check p >>= fun _ => int64 x) = if InSigned 64 x then .ok x else .error .check := by
  rw [check_bind]
  simp only [h]
  split
  · rename_i hx
    exact int64_of hx
  · rfl

/-- **The check of the sum** fails if and only if the sum is out of range. -/
theorem addSum_eq {sum x : ℤ} (hsum : InSigned 64 sum) (hx : InSigned 64 x) :
    addSum sum x = if InSigned 64 (sum + x) then .ok (sum + x) else .error .check := by
  have hiff := inSigned_iff (x := sum + x)
  rw [inSigned_iff] at hsum hx
  rw [addSum]
  split
  · rename_i hpos
    have hroom : InSigned 64 (maxInt64 - sum) := by
      rw [inSigned_iff, minInt64, maxInt64] at *
      omega
    rw [int64_bind hroom]
    refine check_int64 ?_
    rw [hiff]
    rw [minInt64, maxInt64] at *
    omega
  · rename_i hle
    have hroom : InSigned 64 (minInt64 - sum) := by
      rw [inSigned_iff, minInt64, maxInt64] at *
      omega
    rw [int64_bind hroom]
    refine check_int64 ?_
    rw [hiff]
    rw [minInt64, maxInt64] at *
    omega

/-- **The other check** fails if and only if the result is out of range. -/
theorem addBelow_eq {n x : ℤ} (hn : 0 ≤ n) (hmax : n ≤ maxInt64) (hx : 0 ≤ x) :
    addBelow n x = if n + x ≤ maxInt64 then .ok (n + x) else .error .check := by
  have hroom : InSigned 64 (maxInt64 - n) := by
    rw [inSigned_iff, minInt64, maxInt64] at *
    omega
  have hfits : x ≤ maxInt64 - n ↔ n + x ≤ maxInt64 := by omega
  rw [addBelow, int64_bind hroom, check_bind]
  simp only [hfits]
  split
  · rename_i h
    refine int64_of ?_
    rw [inSigned_iff, minInt64]
    omega
  · rfl

/-- What comes after a check that has been made, in `int64_t`. -/
theorem ite_ok_bind {α : Type} {p : Prop} [Decidable p] {x : ℤ} (f : ℤ → Except Failure α) :
    ((if p then .ok x else .error .check) >>= f) = if p then f x else .error .check := by
  split <;> rfl

end SampleCounter

/-- The class with the variance. -/
structure SampleCounterWithVariance extends SampleCounter where
  /-- `sum_squared_`. -/
  sumSquared : ℤ

namespace SampleCounterWithVariance

open SampleCounter (Failure int64 check quotient addSum addBelow maxInt64 minInt64)

/-- The constructor. -/
def construct : SampleCounterWithVariance := ⟨⟨0, 0, none⟩, 0⟩

/-- `Add` of a sample. -/
def add (c : SampleCounterWithVariance) (sample : Int32) :
    Except Failure SampleCounterWithVariance := do
  let base ← c.toSampleCounter.add sample
  check (-2 ^ 31 < sample.toInt)
  let square ← int64 (sample.toInt * sample.toInt)
  let sumSquared ← addBelow c.sumSquared square
  return { base with sumSquared }

/-- `Add` of another counter. -/
def addOther (c other : SampleCounterWithVariance) :
    Except Failure SampleCounterWithVariance := do
  let base ← c.toSampleCounter.addOther other.toSampleCounter
  let sumSquared ← addBelow c.sumSquared other.sumSquared
  return { base with sumSquared }

/-- `Variance`. -/
def variance (c : SampleCounterWithVariance) (minRequiredSamples : ℤ) :
    Except Failure (Option ℤ) := do
  check (0 < minRequiredSamples)
  if c.numSamples < minRequiredSamples then return none
  let mean ← quotient c.sum c.numSamples
  let meanSquared ← quotient c.sumSquared c.numSamples
  let squaredMean ← int64 (mean * mean)
  let variance ← int64 (meanSquared - squaredMean)
  return some variance

/-- The counter that has received some samples. -/
def receive (samples : List Int32) : Except Failure SampleCounterWithVariance :=
  samples.foldlM add construct

/-! ## Samples -/

/-- The sum of some samples. -/
def total (l : List Int32) : ℤ := (l.map Int32.toInt).sum

/-- The sum of their squares. -/
def squares (l : List Int32) : ℤ := (l.map fun x => x.toInt * x.toInt).sum

/-- The counter of some samples. -/
def counterOf (l : List Int32) : SampleCounterWithVariance where
  sum := total l
  numSamples := l.length
  max := (l.map Int32.toInt).max?
  sumSquared := squares l

/-- Samples that fit into a counter. -/
structure Fits (l : List Int32) : Prop where
  /-- The samples have squares. -/
  lt : ∀ x ∈ l, -2 ^ 31 < x.toInt
  /-- How many they are. -/
  length : (l.length : ℤ) ≤ maxInt64
  /-- The squares. -/
  squares : squares l ≤ maxInt64

variable {l l' s t : List Int32} {x : Int32}

@[simp] theorem total_nil : total [] = 0 := rfl

@[simp] theorem squares_nil : squares [] = 0 := rfl

@[simp] theorem total_append (l l' : List Int32) : total (l ++ l') = total l + total l' := by
  rw [total, List.map_append, List.sum_append]
  rfl

@[simp] theorem squares_append (l l' : List Int32) :
    squares (l ++ l') = squares l + squares l' := by
  rw [squares, List.map_append, List.sum_append]
  rfl

@[simp] theorem total_singleton (x : Int32) : total [x] = x.toInt := by simp [total]

@[simp] theorem squares_singleton (x : Int32) : squares [x] = x.toInt * x.toInt := by
  simp [squares]

theorem abs_le_mul_self (x : ℤ) : |x| ≤ x * x := by
  rw [← abs_mul_abs_self]
  rcases (abs_nonneg x).eq_or_lt with h | h
  · rw [← h, mul_zero]
  · exact le_mul_of_one_le_left h.le h

/-- A sum of integers is no further from zero than the sum of their squares. -/
theorem abs_total_le (l : List Int32) : |total l| ≤ squares l := by
  induction l with
  | nil => rfl
  | cons x l ih =>
    have htotal : total (x :: l) = x.toInt + total l := rfl
    have hsquares : squares (x :: l) = x.toInt * x.toInt + squares l := rfl
    rw [htotal, hsquares]
    exact (abs_add_le _ _).trans (add_le_add (abs_le_mul_self _) ih)

theorem squares_nonneg (l : List Int32) : 0 ≤ squares l := (abs_nonneg _).trans (abs_total_le l)

theorem inSigned_total (h : squares l ≤ maxInt64) : InSigned 64 (total l) := by
  have habs := abs_le.mp ((abs_total_le l).trans h)
  rw [SampleCounter.inSigned_iff]
  rw [minInt64, maxInt64] at *
  omega

theorem max?_append (l l' : List ℤ) :
    (l ++ l').max? = Option.merge max l.max? l'.max? := by
  induction l with
  | nil => simp
  | cons x l ih =>
    rw [List.cons_append, List.max?_cons, List.max?_cons, ih]
    cases l.max? <;> cases l'.max? <;> simp [max_assoc]

theorem Fits.inSigned_total (h : Fits l) : InSigned 64 (total l) :=
  SampleCounterWithVariance.inSigned_total h.squares

theorem inSigned_toInt (x : Int32) : InSigned 64 x.toInt := by
  have hlow := x.le_toInt
  have hhigh := x.toInt_lt
  rw [SampleCounter.inSigned_iff, minInt64, maxInt64]
  omega

theorem mul_self_le (x : Int32) : x.toInt * x.toInt ≤ 2 ^ 62 := by
  have hlow := x.le_toInt
  have hhigh := x.toInt_lt
  nlinarith

/-- The counter of two lots of samples. -/
theorem counterOf_append (l l' : List Int32) : counterOf (l ++ l') =
    ⟨⟨total l + total l', l.length + l'.length,
      if (l'.map Int32.toInt).max?.any fun x => (l.map Int32.toInt).max?.all (· < x) then
        (l'.map Int32.toInt).max?
      else (l.map Int32.toInt).max?⟩, squares l + squares l'⟩ := by
  have hmax : ((l ++ l').map Int32.toInt).max? =
      if (l'.map Int32.toInt).max?.any fun x => (l.map Int32.toInt).max?.all (· < x) then
        (l'.map Int32.toInt).max?
      else (l.map Int32.toInt).max? := by
    rw [List.map_append, max?_append]
    cases (l'.map Int32.toInt).max? with
    | none => cases (l.map Int32.toInt).max? <;> rfl
    | some x =>
      rw [Option.any_some]
      cases (l.map Int32.toInt).max? with
      | none => rfl
      | some m =>
        rw [Option.all_some, Option.merge_some_some]
        by_cases h : m < x
        · rw [if_pos (decide_eq_true h), max_eq_right h.le]
        · rw [if_neg (by simpa using h), max_eq_left (not_lt.mp h)]
  rw [counterOf, hmax, total_append, squares_append, List.length_append]
  push_cast
  rfl

/-- The counter of one more sample. -/
theorem counterOf_concat (l : List Int32) (x : Int32) : counterOf (l ++ [x]) =
    ⟨⟨total l + x.toInt, l.length + 1,
      if (l.map Int32.toInt).max?.all (· < x.toInt) then some x.toInt
      else (l.map Int32.toInt).max?⟩, squares l + x.toInt * x.toInt⟩ := by
  have happend := counterOf_append l [x]
  rw [List.map_singleton, List.max?_singleton, Option.any_some, total_singleton,
    squares_singleton, List.length_singleton] at happend
  exact_mod_cast happend

/-- **`Add` of a sample** to the counter of those that fit. -/
theorem add_eq (h : Fits l) (x : Int32) : (counterOf l).add x =
    if ¬ InSigned 64 (total l + x.toInt) then .error .check
    else if ¬ (l.length : ℤ) + 1 ≤ maxInt64 then .error .overflow
    else if ¬ -2 ^ 31 < x.toInt then .error .check
    else if ¬ squares l + x.toInt * x.toInt ≤ maxInt64 then .error .check
    else .ok (counterOf (l ++ [x])) := by
  have hsquare : InSigned 64 (x.toInt * x.toInt) := by
    have hle := mul_self_le x
    have hnonneg := mul_self_nonneg x.toInt
    rw [SampleCounter.inSigned_iff, minInt64, maxInt64]
    omega
  rw [counterOf_concat, counterOf, add, SampleCounter.add]
  simp only [bind_assoc, pure_bind]
  rw [SampleCounter.addSum_eq h.inSigned_total (inSigned_toInt x), SampleCounter.ite_ok_bind]
  by_cases hsum : InSigned 64 (total l + x.toInt)
  swap
  · rw [if_neg hsum, if_pos hsum]
  rw [if_pos hsum, if_neg (not_not.mpr hsum)]
  by_cases hnum : (l.length : ℤ) + 1 ≤ maxInt64
  swap
  · have hout : ¬ InSigned 64 ((l.length : ℤ) + 1) := by
      rw [SampleCounter.inSigned_iff]
      exact fun hin => hnum hin.2
    rw [if_pos hnum, int64, if_neg hout]
    rfl
  have hin : InSigned 64 ((l.length : ℤ) + 1) := by
    rw [SampleCounter.inSigned_iff, minInt64]
    exact ⟨by omega, hnum⟩
  rw [if_neg (not_not.mpr hnum), SampleCounter.int64_bind hin, SampleCounter.check_bind,
    SampleCounter.int64_bind hsquare,
    SampleCounter.addBelow_eq (squares_nonneg l) h.squares (mul_self_nonneg _),
    SampleCounter.ite_ok_bind]
  by_cases hmin : -2 ^ 31 < x.toInt
  swap
  · rw [if_neg hmin, if_pos hmin]
  rw [if_pos hmin, if_neg (not_not.mpr hmin)]
  by_cases hsq : squares l + x.toInt * x.toInt ≤ maxInt64
  · rw [if_pos hsq, if_neg (not_not.mpr hsq)]
    rfl
  · rw [if_neg hsq, if_pos hsq]

/-- **`Add` of another counter** to the counter of samples that fit. -/
theorem addOther_eq (h : Fits l) (h' : Fits l') : (counterOf l).addOther (counterOf l') =
    if ¬ InSigned 64 (total l + total l') then .error .check
    else if ¬ (l.length : ℤ) + l'.length ≤ maxInt64 then .error .check
    else if ¬ squares l + squares l' ≤ maxInt64 then .error .check
    else .ok (counterOf (l ++ l')) := by
  rw [counterOf_append, counterOf, counterOf, addOther, SampleCounter.addOther]
  simp only [bind_assoc, pure_bind]
  rw [SampleCounter.addSum_eq h.inSigned_total h'.inSigned_total, SampleCounter.ite_ok_bind,
    SampleCounter.addBelow_eq (Int.natCast_nonneg _) h.length (Int.natCast_nonneg _),
    SampleCounter.ite_ok_bind,
    SampleCounter.addBelow_eq (squares_nonneg l) h.squares (squares_nonneg l'),
    SampleCounter.ite_ok_bind]
  by_cases hsum : InSigned 64 (total l + total l')
  swap
  · rw [if_neg hsum, if_pos hsum]
  rw [if_pos hsum, if_neg (not_not.mpr hsum)]
  by_cases hnum : (l.length : ℤ) + l'.length ≤ maxInt64
  swap
  · rw [if_neg hnum, if_pos hnum]
  rw [if_pos hnum, if_neg (not_not.mpr hnum)]
  by_cases hsq : squares l + squares l' ≤ maxInt64
  · rw [if_pos hsq, if_neg (not_not.mpr hsq)]
    rfl
  · rw [if_neg hsq, if_pos hsq]

theorem Fits.nil : Fits [] where
  lt x hx := by cases hx
  length := by decide
  squares := by decide

theorem fits_append : Fits (l ++ l') ↔ Fits l ∧ Fits l' ∧
    (l.length : ℤ) + l'.length ≤ maxInt64 ∧ squares l + squares l' ≤ maxInt64 := by
  have hl := squares_nonneg l
  have hl' := squares_nonneg l'
  constructor
  · rintro ⟨hlt, hlength, hsquares⟩
    rw [List.length_append] at hlength
    rw [squares_append] at hsquares
    push_cast at hlength
    exact ⟨⟨fun x hx => hlt x (List.mem_append_left _ hx), by omega, by omega⟩,
      ⟨fun x hx => hlt x (List.mem_append_right _ hx), by omega, by omega⟩, hlength, hsquares⟩
  · rintro ⟨h, h', hlength, hsquares⟩
    refine ⟨fun x hx => ?_, ?_, by rwa [squares_append]⟩
    · rcases List.mem_append.mp hx with hx | hx
      · exact h.lt x hx
      · exact h'.lt x hx
    · rw [List.length_append]
      exact_mod_cast hlength

theorem receive_concat (l : List Int32) (x : Int32) :
    receive (l ++ [x]) = receive l >>= fun c => c.add x := by
  rw [receive, List.foldlM_append]
  refine congrArg _ (funext fun c => ?_)
  simp

/-- **One sample more**: the samples still fit, or a check fails as they do not, or there is an
overflow as there are too many. -/
theorem add_spec (h : Fits l) (x : Int32) :
    ((counterOf l).add x = .ok (counterOf (l ++ [x])) ∧ Fits (l ++ [x])) ∨
      ((counterOf l).add x = .error .check ∧ ¬ Fits (l ++ [x])) ∨
      ((counterOf l).add x = .error .overflow ∧ maxInt64 < (l ++ [x]).length) := by
  rw [add_eq h]
  by_cases hsum : InSigned 64 (total l + x.toInt)
  swap
  · refine .inr (.inl ⟨if_pos hsum, fun hfits => hsum ?_⟩)
    have htotal := hfits.inSigned_total
    rwa [total_append, total_singleton] at htotal
  rw [if_neg (not_not.mpr hsum)]
  by_cases hnum : (l.length : ℤ) + 1 ≤ maxInt64
  swap
  · refine .inr (.inr ⟨if_pos hnum, ?_⟩)
    rw [List.length_append, List.length_singleton]
    push_cast
    exact not_le.mp hnum
  rw [if_neg (not_not.mpr hnum)]
  by_cases hmin : -2 ^ 31 < x.toInt
  swap
  · exact .inr (.inl ⟨if_pos hmin, fun hfits => hmin (hfits.lt x (by simp))⟩)
  rw [if_neg (not_not.mpr hmin)]
  by_cases hsq : squares l + x.toInt * x.toInt ≤ maxInt64
  swap
  · refine .inr (.inl ⟨if_pos hsq, fun hfits => hsq ?_⟩)
    have hsquares := hfits.squares
    rwa [squares_append, squares_singleton] at hsquares
  refine .inl ⟨if_neg (not_not.mpr hsq), fits_append.mpr ⟨h, ⟨?_, ?_, ?_⟩, ?_, ?_⟩⟩
  · intro y hy
    rwa [List.mem_singleton.mp hy]
  · rw [List.length_singleton]
    decide
  · rw [squares_singleton]
    exact (mul_self_le x).trans (by decide)
  · exact_mod_cast hnum
  · rwa [squares_singleton]

/-- **What is received**: the samples that fit. Where a check fails they do not, and where there is
an overflow, there are too many. -/
theorem receive_spec (l : List Int32) :
    (receive l = .ok (counterOf l) ∧ Fits l) ∨ (receive l = .error .check ∧ ¬ Fits l) ∨
      (receive l = .error .overflow ∧ maxInt64 < l.length) := by
  induction l using List.reverseRecOn with
  | nil => exact .inl ⟨rfl, .nil⟩
  | append_singleton l x ih =>
    rw [receive_concat]
    rcases ih with ⟨hl, hfits⟩ | ⟨hl, hfits⟩ | ⟨hl, hlen⟩
    · rw [hl]
      exact add_spec hfits x
    · rw [hl]
      exact .inr (.inl ⟨rfl, fun h => hfits (fits_append.mp h).1⟩)
    · rw [hl]
      refine .inr (.inr ⟨rfl, ?_⟩)
      rw [List.length_append]
      push_cast
      omega

theorem receive_of_fits (h : Fits l) : receive l = .ok (counterOf l) := by
  rcases receive_spec l with ⟨hl, -⟩ | ⟨-, hnot⟩ | ⟨-, hlen⟩
  · exact hl
  · exact absurd h hnot
  · exact absurd h.length (not_le.mpr hlen)

theorem fits_of_receive {c : SampleCounterWithVariance} (h : receive l = .ok c) :
    Fits l ∧ c = counterOf l := by
  rcases receive_spec l with ⟨hl, hfits⟩ | ⟨hl, -⟩ | ⟨hl, -⟩
  · rw [h] at hl
    exact ⟨hfits, Except.ok.inj hl⟩
  · rw [h] at hl
    cases hl
  · rw [h] at hl
    cases hl

/-- Where no check fails, the samples fit unless there are too many. -/
theorem fits_of_ne_check (h : receive l ≠ .error .check) (hlen : (l.length : ℤ) ≤ maxInt64) :
    Fits l := by
  rcases receive_spec l with ⟨-, hfits⟩ | ⟨hl, -⟩ | ⟨-, hlt⟩
  · exact hfits
  · exact absurd hl h
  · exact absurd hlen (not_le.mpr hlt)

/-! ## Measures -/

/-- The mean of some samples, truncated. -/
def truncatedMean (l : List Int32) : ℤ := (total l).tdiv l.length

/-- The samples as rational numbers. -/
def rationals (l : List Int32) : Multiset ℚ := (l.map fun x => (x.toInt : ℚ) : List ℚ)

/-- The variance of some samples. -/
def populationVariance (l : List Int32) : ℚ := deviations (rationals l) / l.length

theorem card_rationals (l : List Int32) : (rationals l).card = l.length := by
  rw [rationals, Multiset.coe_card, List.length_map]

theorem sum_rationals (l : List Int32) : (rationals l).sum = total l := by
  induction l with
  | nil => simp [rationals]
  | cons x l ih =>
    have htotal : total (x :: l) = x.toInt + total l := rfl
    have hcons : rationals (x :: l) = (x.toInt : ℚ) ::ₘ rationals l := rfl
    rw [hcons, Multiset.sum_cons, ih, htotal, Int.cast_add]

theorem sum_sq_rationals (l : List Int32) :
    ((rationals l).map fun x : ℚ => x ^ 2).sum = (squares l : ℚ) := by
  induction l with
  | nil => simp [rationals]
  | cons x l ih =>
    have hsquares : squares (x :: l) = x.toInt * x.toInt + squares l := rfl
    have hcons : rationals (x :: l) = (x.toInt : ℚ) ::ₘ rationals l := rfl
    rw [hcons, Multiset.map_cons, Multiset.sum_cons, ih, hsquares, Int.cast_add, Int.cast_mul, sq]

theorem populationVariance_eq (l : List Int32) : populationVariance l =
    ((squares l : ℚ) - (total l : ℚ) ^ 2 / l.length) / l.length := by
  rw [populationVariance, deviations_eq, sum_sq_rationals, sum_rationals, card_rationals]

/-- The square of the sum is at most the sum of the squares, as often as there are samples. -/
theorem total_sq_le (h : l ≠ []) : total l ^ 2 ≤ squares l * l.length := by
  have hpos : (0 : ℚ) < l.length := by exact_mod_cast List.length_pos_iff.mpr h
  have hle := sq_sum_div_card_le (rationals l)
  rw [sum_sq_rationals, sum_rationals, card_rationals, div_le_iff₀ hpos] at hle
  exact_mod_cast hle

theorem abs_truncatedMean (l : List Int32) : |truncatedMean l| = |total l| / l.length := by
  rw [truncatedMean]
  rcases le_total 0 (total l) with h | h
  · rw [Int.tdiv_eq_ediv_of_nonneg h, abs_of_nonneg h,
      abs_of_nonneg (Int.ediv_nonneg h (Int.natCast_nonneg _))]
  · have hneg : 0 ≤ -total l := by omega
    rw [← neg_neg (total l), Int.neg_tdiv, Int.tdiv_eq_ediv_of_nonneg hneg, abs_neg, abs_neg,
      abs_of_nonneg hneg, abs_of_nonneg (Int.ediv_nonneg hneg (Int.natCast_nonneg _))]

/-- The truncated mean is the mean without what is behind the point. -/
theorem abs_truncatedMean_mul_le (h : l ≠ []) : |truncatedMean l| * l.length ≤ |total l| ∧
    |total l| < (|truncatedMean l| + 1) * l.length := by
  have hpos : (0 : ℤ) < l.length := by exact_mod_cast List.length_pos_iff.mpr h
  rw [abs_truncatedMean]
  exact ⟨Int.ediv_mul_le _ hpos.ne', Int.lt_ediv_add_one_mul_self _ hpos⟩

/-- The square of the truncated mean is at most the mean of the squares. -/
theorem truncatedMean_sq_le (h : l ≠ []) :
    truncatedMean l * truncatedMean l ≤ squares l / l.length := by
  have hpos : (0 : ℤ) < l.length := by exact_mod_cast List.length_pos_iff.mpr h
  obtain ⟨hlow, -⟩ := abs_truncatedMean_mul_le h
  rw [Int.le_ediv_iff_mul_le hpos]
  have hsq : (|truncatedMean l| * l.length) ^ 2 ≤ squares l * l.length := by
    refine le_trans ?_ (total_sq_le h)
    rw [← sq_abs (total l)]
    exact pow_le_pow_left₀ (mul_nonneg (abs_nonneg _) hpos.le) hlow 2
  refine le_of_mul_le_mul_right ?_ hpos
  calc truncatedMean l * truncatedMean l * l.length * l.length
      = (|truncatedMean l| * l.length) ^ 2 := by rw [mul_pow, sq_abs]; ring
    _ ≤ squares l * l.length := hsq

/-- **The variance** of samples, as it is computed, is not below zero and not far from their
variance. -/
theorem variance_bounds (h : l ≠ []) :
    0 ≤ squares l / l.length - truncatedMean l * truncatedMean l ∧
    -1 < ((squares l / l.length - truncatedMean l * truncatedMean l : ℤ) : ℚ) -
      populationVariance l ∧
    ((squares l / l.length - truncatedMean l * truncatedMean l : ℤ) : ℚ) - populationVariance l <
      2 * |truncatedMean l| + 1 := by
  have hpos : (0 : ℤ) < l.length := by exact_mod_cast List.length_pos_iff.mpr h
  have hposq : (0 : ℚ) < l.length := by exact_mod_cast hpos
  obtain ⟨hlow, hhigh⟩ := abs_truncatedMean_mul_le h
  -- the mean of the squares is rounded down
  have hquot : ((squares l / l.length : ℤ) : ℚ) ≤ squares l / l.length := by
    rw [le_div_iff₀ hposq]
    exact_mod_cast Int.ediv_mul_le (squares l) hpos.ne'
  have hquot' : (squares l : ℚ) / l.length < ((squares l / l.length : ℤ) : ℚ) + 1 := by
    rw [div_lt_iff₀ hposq]
    exact_mod_cast Int.lt_ediv_add_one_mul_self (squares l) hpos
  -- and so is the distance of the mean from zero
  have hmean : |(truncatedMean l : ℚ)| ≤ |(total l : ℚ)| / l.length := by
    rw [le_div_iff₀ hposq]
    exact_mod_cast hlow
  have hmean' : |(total l : ℚ)| / l.length < |(truncatedMean l : ℚ)| + 1 := by
    rw [div_lt_iff₀ hposq]
    exact_mod_cast hhigh
  have hsq := pow_le_pow_left₀ (abs_nonneg (truncatedMean l : ℚ)) hmean 2
  have hsq' := pow_lt_pow_left₀ hmean' ((abs_nonneg _).trans hmean) two_ne_zero
  have hexact : populationVariance l =
      squares l / l.length - (|(total l : ℚ)| / l.length) ^ 2 := by
    rw [populationVariance_eq, div_pow, sq_abs, sub_div, div_div, sq (l.length : ℚ)]
  rw [sq_abs] at hsq
  rw [hexact]
  refine ⟨sub_nonneg.mpr (truncatedMean_sq_le h), ?_, ?_⟩
  · push_cast
    linarith
  · push_cast
    rw [add_sq, sq_abs] at hsq'
    linarith

/-- What is computed about the samples that a counter has received. -/
structure Measures (l : List Int32) (c : SampleCounterWithVariance) : Prop where
  /-- `Avg`. -/
  avg : ∀ n : ℤ, 0 < n → c.toSampleCounter.avg n =
    .ok (if (l.length : ℤ) < n then none else some (truncatedMean l))
  /-- `Variance`, without enough samples. -/
  variance_none : ∀ n : ℤ, 0 < n → l.length < n → c.variance n = .ok none
  /-- `Variance`. -/
  variance : ∀ n : ℤ, 0 < n → n ≤ l.length → ∃ v, c.variance n = .ok (some v) ∧ 0 ≤ v ∧
    -1 < (v : ℚ) - populationVariance l ∧
    (v : ℚ) - populationVariance l < 2 * |truncatedMean l| + 1

theorem abs_total_le_mul (h : Fits l) : |total l| ≤ (2 ^ 31 - 1) * l.length := by
  have hlt := h.lt
  clear h
  induction l with
  | nil => simp
  | cons x l ih =>
    have htotal : total (x :: l) = x.toInt + total l := rfl
    have hx : |x.toInt| ≤ 2 ^ 31 - 1 := by
      have hhigh := x.toInt_lt
      have hlow := hlt x List.mem_cons_self
      rw [abs_le]
      omega
    have hl := ih fun y hy => hlt y (List.mem_cons_of_mem _ hy)
    rw [htotal, List.length_cons]
    refine (abs_add_le _ _).trans ?_
    push_cast
    linarith

theorem inSigned_of_nonneg {x : ℤ} (h : 0 ≤ x) (hmax : x ≤ maxInt64) : InSigned 64 x := by
  rw [SampleCounter.inSigned_iff, minInt64]
  omega

/-- The quotients by the number of samples. -/
theorem quotient_total (h : Fits l) (hne : l ≠ []) :
    quotient (total l) l.length = .ok (truncatedMean l) ∧ InSigned 32 (truncatedMean l) := by
  have hpos : (0 : ℤ) < l.length := by exact_mod_cast List.length_pos_iff.mpr hne
  have hbound : |truncatedMean l| ≤ 2 ^ 31 - 1 := by
    refine le_of_mul_le_mul_right ?_ hpos
    exact (abs_truncatedMean_mul_le hne).1.trans (abs_total_le_mul h)
  rw [abs_le] at hbound
  refine ⟨?_, by norm_num [InSigned]; omega⟩
  rw [quotient, if_neg hpos.ne']
  refine SampleCounter.int64_of ?_
  rw [SampleCounter.inSigned_iff, minInt64, maxInt64]
  rw [truncatedMean] at hbound
  omega

theorem quotient_squares (h : Fits l) (hne : l ≠ []) :
    quotient (squares l) l.length = .ok (squares l / l.length) ∧
      squares l / l.length ≤ maxInt64 := by
  have hpos : (0 : ℤ) < l.length := by exact_mod_cast List.length_pos_iff.mpr hne
  have hle : squares l / l.length ≤ maxInt64 :=
    (Int.ediv_le_self _ (squares_nonneg l)).trans h.squares
  refine ⟨?_, hle⟩
  rw [quotient, if_neg hpos.ne', Int.tdiv_eq_ediv_of_nonneg (squares_nonneg l)]
  exact SampleCounter.int64_of
    (inSigned_of_nonneg (Int.ediv_nonneg (squares_nonneg l) hpos.le) hle)

theorem ne_nil_of_le {n : ℤ} (hn : 0 < n) (hle : n ≤ l.length) : l ≠ [] := by
  rintro rfl
  exact absurd (hn.trans_le hle) (lt_irrefl 0)

/-- **The measures** of samples that fit. -/
theorem measures_counterOf (h : Fits l) : Measures l (counterOf l) where
  avg n hn := by
    rw [counterOf, SampleCounter.avg, SampleCounter.check_bind, if_pos hn]
    dsimp only
    by_cases hlt : (l.length : ℤ) < n
    · rw [if_pos hlt, if_pos hlt]
      rfl
    · obtain ⟨hquotient, hint⟩ := quotient_total h (ne_nil_of_le hn (not_lt.mp hlt))
      rw [if_neg hlt, if_neg hlt, hquotient, SampleCounter.ok_bind, SampleCounter.check_bind,
        if_pos hint]
      rfl
  variance_none n hn hlt := by
    rw [counterOf, SampleCounterWithVariance.variance, SampleCounter.check_bind, if_pos hn,
      if_pos hlt]
    rfl
  variance n hn hle := by
    have hne := ne_nil_of_le hn hle
    have hbounds := variance_bounds hne
    have hsq := truncatedMean_sq_le hne
    have hnonneg := mul_self_nonneg (truncatedMean l)
    obtain ⟨hsquares, hmax⟩ := quotient_squares h hne
    refine ⟨_, ?_, hbounds⟩
    rw [counterOf, SampleCounterWithVariance.variance, SampleCounter.check_bind, if_pos hn]
    dsimp only
    rw [if_neg (not_lt.mpr hle), (quotient_total h hne).1, SampleCounter.ok_bind, hsquares,
      SampleCounter.ok_bind,
      SampleCounter.int64_bind (inSigned_of_nonneg hnonneg (hsq.trans hmax)),
      SampleCounter.int64_bind (inSigned_of_nonneg hbounds.1 (by omega))]
    rfl

/-! ## Merges -/

/-- No check fails when two counters receive samples and one is added to the other. -/
structure ChecksPass (s t : List Int32) : Prop where
  /-- The first counter. -/
  left : receive s ≠ .error .check
  /-- The second counter. -/
  right : receive t ≠ .error .check
  /-- The addition. -/
  addOther : ∀ c d, receive s = .ok c → receive t = .ok d → c.addOther d ≠ .error .check

/-- Two counters become the one that has received both, nothing overflows on the way, and the
measures are right. -/
def Merges (s t : List Int32) : Prop := ∃ c d e, receive s = .ok c ∧ receive t = .ok d ∧
  c.addOther d = .ok e ∧ receive (s ++ t) = .ok e ∧ Measures (s ++ t) e

theorem addOther_of_checksPass (h : ChecksPass s t) (hs : Fits s) (ht : Fits t) :
    (counterOf s).addOther (counterOf t) = .ok (counterOf (s ++ t)) ∧ Fits (s ++ t) := by
  have hne := h.addOther _ _ (receive_of_fits hs) (receive_of_fits ht)
  rw [addOther_eq hs ht] at hne ⊢
  by_cases hsum : InSigned 64 (total s + total t)
  swap
  · exact absurd (if_pos hsum) hne
  rw [if_neg (not_not.mpr hsum)] at hne ⊢
  by_cases hnum : (s.length : ℤ) + t.length ≤ maxInt64
  swap
  · exact absurd (if_pos hnum) hne
  rw [if_neg (not_not.mpr hnum)] at hne ⊢
  by_cases hsq : squares s + squares t ≤ maxInt64
  swap
  · exact absurd (if_pos hsq) hne
  exact ⟨if_neg (not_not.mpr hsq), fits_append.mpr ⟨hs, ht, hnum, hsq⟩⟩

/-- The checks of samples that fit all together pass. -/
theorem checksPass_of_fits (h : Fits (s ++ t)) : ChecksPass s t := by
  obtain ⟨hs, ht, hnum, hsq⟩ := fits_append.mp h
  have hsum := h.inSigned_total
  rw [total_append] at hsum
  refine ⟨?_, ?_, fun c d hc hd => ?_⟩
  · rw [receive_of_fits hs]
    exact fun heq => by cases heq
  · rw [receive_of_fits ht]
    exact fun heq => by cases heq
  · rw [(fits_of_receive hc).2, (fits_of_receive hd).2, addOther_eq hs ht,
      if_neg (not_not.mpr hsum), if_neg (not_not.mpr hnum), if_neg (not_not.mpr hsq)]
    exact fun heq => by cases heq

/-- Zeros pass all checks until they cannot be numbered. -/
theorem receive_zeros {n : ℕ} (hn : (n : ℤ) = maxInt64) :
    receive (List.replicate (n + 1) 0) = .error .overflow := by
  have hsquares : squares (List.replicate n 0) = 0 := by
    rw [squares, List.map_replicate, List.sum_replicate]
    exact nsmul_zero n
  have hfits : Fits (List.replicate n 0) := by
    refine ⟨fun x hx => ?_, ?_, ?_⟩
    · rw [List.eq_of_mem_replicate hx]
      decide
    · rw [List.length_replicate]
      exact hn.le
    · rw [hsquares]
      decide
  have hsum : InSigned 64 (total (List.replicate n 0) + (0 : Int32).toInt) := by
    rw [Int32.toInt_zero, add_zero]
    exact hfits.inSigned_total
  have hnum : ¬ ((List.replicate n (0 : Int32)).length : ℤ) + 1 ≤ maxInt64 := by
    rw [List.length_replicate, hn]
    omega
  rw [List.replicate_succ', receive_concat, receive_of_fits hfits, SampleCounter.ok_bind,
    add_eq hfits, if_neg (not_not.mpr hsum), if_pos hnum]

theorem le_maxInt64_iff {n : ℕ} : (n : ℤ) ≤ maxInt64 ↔ n < 2 ^ 63 := by
  rw [maxInt64]
  omega

/-- **Two counters become one**, where the checks pass, if and only if neither has received more
samples than can be numbered. -/
theorem merge_iff (h : ChecksPass s t) :
    Merges s t ↔ s.length < 2 ^ 63 ∧ t.length < 2 ^ 63 := by
  constructor
  · rintro ⟨c, d, e, hc, hd, -⟩
    exact ⟨le_maxInt64_iff.mp (fits_of_receive hc).1.length,
      le_maxInt64_iff.mp (fits_of_receive hd).1.length⟩
  · rintro ⟨hs, ht⟩
    have hs := fits_of_ne_check h.left (le_maxInt64_iff.mpr hs)
    have ht := fits_of_ne_check h.right (le_maxInt64_iff.mpr ht)
    obtain ⟨hadd, hfits⟩ := addOther_of_checksPass h hs ht
    exact ⟨_, _, _, receive_of_fits hs, receive_of_fits ht, hadd, receive_of_fits hfits,
      measures_counterOf hfits⟩

/-- Samples on both sides of zero. -/
theorem merge_iff_three : Merges [-7, 5] [3] :=
  (merge_iff (checksPass_of_fits ⟨by simp, by decide, by decide⟩)).mpr ⟨by decide, by decide⟩

/-- Two to the sixty-third zeros pass all checks, and their number overflows. -/
theorem not_merges_of_zeros : ¬ ∀ s t : List Int32, ChecksPass s t → Merges s t := by
  intro h
  obtain ⟨n, hn⟩ : ∃ n : ℕ, (n : ℤ) = maxInt64 := ⟨2 ^ 63 - 1, by norm_num [maxInt64]⟩
  have hzeros := receive_zeros hn
  have hpass : ChecksPass (List.replicate (n + 1) 0) [] := by
    refine ⟨?_, ?_, fun c d hc => ?_⟩
    · rw [hzeros]
      exact fun heq => by cases heq
    · rw [receive_of_fits .nil]
      exact fun heq => by cases heq
    · rw [hzeros] at hc
      cases hc
  obtain ⟨c, -, -, hc, -⟩ := h _ _ hpass
  rw [hzeros] at hc
  cases hc

end SampleCounterWithVariance

end TQLib
