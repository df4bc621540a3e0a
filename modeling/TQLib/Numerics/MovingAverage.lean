import TQLib.Foundations.Calls
import TQLib.Foundations.Signed
import TQLib.Foundations.Window
import Mathlib.Algebra.Order.Floor.Ring
import Mathlib.Algebra.Order.Ring.Abs
import Mathlib.Data.Rat.Floor
import Mathlib.Data.Nat.Prime.Basic
import Mathlib.Tactic.FieldSimp

/-!
# The average of a moving window

`rtc::MovingAverage` of `rtc_base/numerics/moving_average.cc`, where `size_t` has 64 bits. The
samples are in a ring, and `sum_` is their sum, in `int64_t`.

The sum is divided by `Size()`, which is a `size_t`, so it is converted to one: a sum below zero
becomes greater by `2 ^ 64`. What that adds to the quotient goes away in the conversion to `int`
where `Size()` divides `2 ^ 32`, and nowhere else.

## Main results

* `MovingAverage.exists_inv` — the ring and the sum, after any calls
* `MovingAverage.toInt_average_eq`, `MovingAverage.dvd_of_toInt_average` — when a quotient is right
* `MovingAverage.average_iff` — when the averages are
-/

namespace TQLib

/-- The class. -/
structure MovingAverage where
  /-- `count_`. -/
  count : ℕ
  /-- `sum_`. -/
  sum : ℤ
  /-- `history_`. -/
  history : List Int32

namespace MovingAverage

/-- The constructor. -/
def construct (windowSize : ℕ) : MovingAverage := ⟨0, 0, List.replicate windowSize 0⟩

/-- `Size`. -/
def size (c : MovingAverage) : ℕ := min c.count c.history.length

/-- `AddSample`. -/
def addSample (c : MovingAverage) (sample : Int32) : MovingAverage :=
  let count := c.count + 1
  let index := count % c.history.length
  let sum := if c.history.length < count then c.sum - (c.history.getD index 0).toInt else c.sum
  { count, sum := sum + sample.toInt, history := c.history.set index sample }

/-- `Reset`. -/
def reset (c : MovingAverage) : MovingAverage := { c with count := 0, sum := 0 }

/-- A conversion to `size_t`. -/
def toSizeT (x : ℤ) : ℤ := x % 2 ^ 64

/-- `GetAverageRoundedDown`. -/
def getAverageRoundedDown (c : MovingAverage) : Option Int32 :=
  if c.count = 0 then none else some (.ofInt (toSizeT c.sum / c.size))

/-- `GetAverageRoundedToClosest`. -/
def getAverageRoundedToClosest (c : MovingAverage) : Option Int32 :=
  if c.count = 0 then none
  else some (.ofInt (toSizeT (toSizeT c.sum + (c.size / 2 : ℕ)) / c.size))

/-! ## Calls -/

/-- A call that changes the state. -/
inductive Call
  /-- `AddSample`. -/
  | addSample (sample : Int32)
  /-- `Reset`. -/
  | reset

namespace Call

/-- The sample that is added. -/
def sample? : Call → Option Int32
  | addSample x => some x
  | reset => none

/-- Whether the call is a `Reset`. -/
def isReset : Call → Bool
  | addSample _ => false
  | reset => true

end Call

/-- What a call does. -/
def step (c : MovingAverage) : Call → Option MovingAverage
  | .addSample x => some (c.addSample x)
  | .reset => some c.reset

/-- What has been added since the last `Reset`. -/
def added (calls : List Call) : List Int32 := Calls.since Call.isReset Call.sample? calls

/-- The sum of some samples. -/
def total (samples : List Int32) : ℤ := (samples.map Int32.toInt).sum

/-! ## The invariant -/

/-- The ring and the sum, after some calls. -/
structure Inv (w : ℕ) (calls : List Call) (c : MovingAverage) : Prop where
  /-- `count_`. -/
  count : c.count = (added calls).length
  /-- `history_`. -/
  ring : Ring 1 w (added calls) c.history
  /-- `sum_`. -/
  sum : c.sum = total ((added calls).rtake w)

variable {w : ℕ} {calls : List Call} {c : MovingAverage} {x : Int32}

theorem added_concat (calls : List Call) (call : Call) : added (calls ++ [call]) =
    if call.isReset then [] else added calls ++ call.sample?.toList :=
  Calls.since_concat calls call

theorem inv_construct (w : ℕ) : Inv w [] (construct w) where
  count := rfl
  ring := by
    have hr := Ring.nil 1 (List.replicate w (0 : Int32))
    rwa [List.length_replicate] at hr
  sum := by
    change 0 = total ([].rtake w)
    rw [List.rtake_nil]
    rfl

@[simp] theorem total_append (l l' : List Int32) : total (l ++ l') = total l + total l' := by
  rw [total, List.map_append, List.sum_append]
  rfl

@[simp] theorem total_cons (x : Int32) (l : List Int32) : total (x :: l) = x.toInt + total l := by
  rw [total, List.map_cons, List.sum_cons]
  rfl

/-- `AddSample` takes the oldest sample of a full window out of the sum. -/
theorem Inv.addSample (hinv : Inv w calls c) (hw : 0 < w) (x : Int32) :
    Inv w (calls ++ [.addSample x]) (c.addSample x) := by
  have hadded : added (calls ++ [.addSample x]) = added calls ++ [x] := added_concat calls _
  refine ⟨?_, ?_, ?_⟩
  · rw [hadded, List.length_append, ← hinv.count]
    rfl
  · rw [hadded]
    change Ring 1 w _ (c.history.set ((c.count + 1) % c.history.length) x)
    rw [hinv.ring.length, hinv.count]
    exact hinv.ring.concat hw x
  · rw [hadded]
    change (if c.history.length < c.count + 1 then _ else _) + x.toInt = _
    rw [hinv.ring.length, hinv.count]
    split
    · rename_i hfull
      have hfull : w ≤ (added calls).length := Nat.lt_succ_iff.mp hfull
      obtain ⟨y, rest, hy, hold, hnew⟩ := rtake_concat_of_le hw hfull x
      have hslot := hinv.ring.oldest hw hfull
      rw [List.getD_eq_getElem?_getD, hslot, hy, hinv.sum, hold, hnew]
      simp [total]
    · rename_i hroom
      rw [rtake_concat_of_lt (by omega), hinv.sum, total_append]
      simp [total]

/-- **The invariant**, after any calls. -/
theorem exists_inv (hw : 0 < w) (calls : List Call) :
    ∃ c, Calls.run step (construct w) calls = some c ∧ Inv w calls c := by
  refine Calls.run_spec (fun _ => True) (Inv w) (inv_construct w) (fun _ _ _ => trivial) ?_ trivial
  intro calls call c _ hinv
  cases call with
  | addSample x => exact ⟨c.addSample x, rfl, hinv.addSample hw x⟩
  | reset =>
    have hadded : added (calls ++ [.reset]) = [] := added_concat calls .reset
    refine ⟨c.reset, rfl, ?_, ?_, ?_⟩
    · rw [hadded]
      rfl
    · rw [hadded]
      exact hinv.ring.length ▸ Ring.nil 1 c.history
    · rw [hadded, List.rtake_nil]
      rfl

/-! ## Quotients -/

/-- `x` is an integer that is as near as any. -/
def IsNearest (q : ℚ) (x : ℤ) : Prop := ∀ m : ℤ, |q - x| ≤ |q - m|

/-- An integer is nearest when it is not more than one half away. -/
theorem isNearest_iff {s x n : ℤ} (hn : 0 < n) :
    IsNearest ((s : ℚ) / n) x ↔ 2 * |s - n * x| ≤ n := by
  have hn' : (0 : ℚ) < n := by exact_mod_cast hn
  have hdist (m : ℤ) : |(s : ℚ) / n - m| = (|s - n * m| : ℤ) / n := by
    have heq : (s : ℚ) / n - m = ((s - n * m : ℤ) : ℚ) / n := by
      push_cast
      field_simp
    rw [heq, abs_div, abs_of_pos hn', Int.cast_abs]
  have hle (m : ℤ) : |(s : ℚ) / n - x| ≤ |(s : ℚ) / n - m| ↔ |s - n * x| ≤ |s - n * m| := by
    rw [hdist, hdist, div_le_div_iff_of_pos_right hn', Int.cast_le]
  constructor
  · intro h
    have hup := (hle _).mp (h (x + 1))
    have hdown := (hle _).mp (h (x - 1))
    rw [mul_add, mul_one] at hup
    rw [mul_sub, mul_one] at hdown
    rcases abs_cases (s - n * x) with hx | hx <;>
      rcases abs_cases (s - (n * x + n)) with hp | hp <;>
      rcases abs_cases (s - (n * x - n)) with hm | hm <;> omega
  · intro h m
    rw [hle]
    rcases eq_or_ne m x with rfl | hne
    · exact le_rfl
    · -- another integer is at least `n` away from this one
      have hfar : n ≤ |n * (m - x)| := by
        rw [abs_mul, abs_of_pos hn]
        exact le_mul_of_one_le_right hn.le (Int.one_le_abs (sub_ne_zero.mpr hne))
      have hsub : |n * (m - x)| ≤ |s - n * x| + |s - n * m| := by
        have heq : n * (m - x) = s - n * x - (s - n * m) := by ring
        rw [heq]
        exact abs_sub _ _
      omega

/-- The quotient that is rounded is nearest. -/
theorem isNearest_ediv {s n : ℤ} (hn : 0 < n) : IsNearest ((s : ℚ) / n) ((s + n / 2) / n) := by
  rw [isNearest_iff hn]
  have hlow := Int.mul_ediv_self_le (x := s + n / 2) hn.ne'
  have hhigh := Int.lt_mul_ediv_self_add (x := s + n / 2) hn
  rcases abs_cases (s - n * ((s + n / 2) / n)) with h | h <;> omega

/-- What is added to a number below zero adds nothing to the quotient, as far as `int` shows it,
where the divisor divides `2 ^ 32`. -/
theorem ediv_add_modEq {s n : ℤ} (hn : 0 < n) (hdvd : n ∣ 2 ^ 32) :
    (s + 2 ^ 64) / n ≡ s / n [ZMOD 2 ^ 32] := by
  obtain ⟨c, hc⟩ := hdvd
  have heq : s + 2 ^ 64 = s + n * (2 ^ 32 * c) := by
    calc s + 2 ^ 64 = s + 2 ^ 32 * 2 ^ 32 := by norm_num
      _ = s + 2 ^ 32 * (n * c) := by rw [← hc]
      _ = s + n * (2 ^ 32 * c) := by ring
  rw [heq, Int.add_mul_ediv_left _ _ hn.ne']
  exact Int.modEq_add_fac_self

/-- Where the divisor does not, `int` shows nothing that is near to the quotient. -/
theorem dvd_of_ediv_modEq {s n y : ℤ} (hn : 0 < n) (hlt : n < 2 ^ 31) (hy : |s - n * y| ≤ n)
    (h : (s + 2 ^ 64) / n ≡ y [ZMOD 2 ^ 32]) : n ∣ 2 ^ 32 := by
  obtain ⟨c, hc⟩ := h.symm.dvd
  refine ⟨c, ?_⟩
  have hlow := Int.mul_ediv_self_le (x := s + 2 ^ 64) hn.ne'
  have hhigh := Int.lt_mul_ediv_self_add (x := s + 2 ^ 64) hn
  have hquot : (s + 2 ^ 64) / n = y + 2 ^ 32 * c := by omega
  have hmul : n * (y + 2 ^ 32 * c) = n * y + 2 ^ 32 * (n * c) := by ring
  rw [hquot, hmul] at hlow hhigh
  -- `2 ^ 32 * (2 ^ 32 - n * c)` is less than `2 ^ 32`
  rcases abs_cases (s - n * y) with hs | hs <;> omega

theorem toSizeT_of_nonneg {s : ℤ} (h : 0 ≤ s) (hlt : s < 2 ^ 64) : toSizeT s = s :=
  Int.emod_eq_of_lt h hlt

theorem toSizeT_of_neg {s : ℤ} (h : s < 0) (hle : -2 ^ 64 ≤ s) : toSizeT s = s + 2 ^ 64 := by
  rw [toSizeT, ← Int.add_emod_right]
  exact Int.emod_eq_of_lt (by omega) (by omega)

theorem toSizeT_add (s t : ℤ) : toSizeT (toSizeT s + t) = toSizeT (s + t) :=
  Int.emod_add_emod ..

theorem bmod_eq_of_modEq {a b : ℤ} {m : ℕ} (h : a ≡ b [ZMOD m]) : a.bmod m = b.bmod m := by
  rw [← Int.emod_bmod, h, Int.emod_bmod]

/-- A quotient that is right, of a sum of `n` values of `int`. -/
theorem toInt_average_eq {s n : ℤ} (hn : 0 < n) (hlt : n < 2 ^ 31) (hlow : -2 ^ 31 * n ≤ s)
    (hhigh : s < 2 ^ 31 * n) (h : 0 ≤ s ∨ n ∣ 2 ^ 32) :
    (Int32.ofInt (toSizeT s / n)).toInt = s / n := by
  have hge : -2 ^ 31 ≤ s / n := Int.le_ediv_of_mul_le hn hlow
  have hle : s / n < 2 ^ 31 := Int.ediv_lt_of_lt_mul hn hhigh
  have hrange : Int.bmod (s / n) (2 ^ 32) = s / n := bmod_of_inSigned (by norm_num) ⟨hge, hle⟩
  rw [Int32.toInt_ofInt]
  by_cases hs : 0 ≤ s
  · rw [toSizeT_of_nonneg hs (by omega)]
    exact hrange
  · rw [toSizeT_of_neg (by omega) (by omega)]
    exact (bmod_eq_of_modEq (ediv_add_modEq hn (h.resolve_left hs))).trans hrange

/-- A quotient of a sum below zero is not even near, unless `n` divides `2 ^ 32`. -/
theorem dvd_of_toInt_average {s n y : ℤ} (hn : 0 < n) (hlt : n < 2 ^ 31) (hlow : -2 ^ 31 * n ≤ s)
    (hs : s < 0) (hy : |s - n * y| ≤ n) (h : (Int32.ofInt (toSizeT s / n)).toInt = y) :
    n ∣ 2 ^ 32 := by
  rw [Int32.toInt_ofInt, toSizeT_of_neg hs (by omega)] at h
  refine dvd_of_ediv_modEq hn hlt hy ?_
  rw [← h]
  exact (Int.bmod_emod ..).symm

theorem dvd_two_pow_iff {n : ℕ} : (n : ℤ) ∣ 2 ^ 32 ↔ ∃ k ≤ 32, n = 2 ^ k := by
  rw [show (2 ^ 32 : ℤ) = ((2 ^ 32 : ℕ) : ℤ) by norm_num, Int.natCast_dvd_natCast]
  exact Nat.dvd_prime_pow Nat.prime_two

/-! ## The averages -/

theorem total_le (l : List Int32) : total l ≤ (2 ^ 31 - 1) * l.length := by
  induction l with
  | nil => simp [total]
  | cons x l ih =>
    have hx := x.toInt_lt
    rw [total_cons, List.length_cons]
    push_cast
    omega

theorem le_total (l : List Int32) : -2 ^ 31 * l.length ≤ total l := by
  induction l with
  | nil => simp [total]
  | cons x l ih =>
    have hx := x.le_toInt
    rw [total_cons, List.length_cons]
    push_cast
    omega

theorem size_eq (hinv : Inv w calls c) : c.size = ((added calls).rtake w).length := by
  rw [size, hinv.count, hinv.ring.length, length_rtake]

/-- The sum never leaves the range of `int64_t`. -/
theorem inSigned_sum (hinv : Inv w calls c) (hlt : (added calls).length < 2 ^ 31) :
    InSigned 64 c.sum := by
  have hlen : ((added calls).rtake w).length ≤ (added calls).length := by
    rw [length_rtake]
    exact min_le_left _ _
  have hlow := le_total ((added calls).rtake w)
  have hhigh := total_le ((added calls).rtake w)
  rw [hinv.sum]
  constructor <;> norm_num <;> omega

/-- What the averages are to be, of the samples in the window. -/
structure Right (samples : List Int32) (c : MovingAverage) : Prop where
  /-- `Size`. -/
  size : c.size = samples.length
  /-- `sum_`. -/
  sum : c.sum = total samples
  /-- `GetAverageRoundedDown`. -/
  down : c.getAverageRoundedDown.map Int32.toInt =
    if samples = [] then none else some ⌊(total samples : ℚ) / samples.length⌋
  /-- `GetAverageRoundedToClosest`. -/
  closest : c.getAverageRoundedToClosest = none ∧ samples = [] ∨
    ∃ x, c.getAverageRoundedToClosest = some x ∧ samples ≠ [] ∧
      IsNearest ((total samples : ℚ) / samples.length) x.toInt

theorem floor_div (s : ℤ) (n : ℕ) : ⌊(s : ℚ) / n⌋ = s / n :=
  Rat.floor_intCast_div_natCast s n

theorem count_eq_zero_iff (hinv : Inv w calls c) (hw : 0 < w) :
    c.count = 0 ↔ (added calls).rtake w = [] := by
  rw [hinv.count, ← List.length_eq_zero_iff, length_rtake]
  omega

/-- What the averages are, of the samples in the window. -/
theorem averages_eq (hinv : Inv w calls c) (hw : 0 < w) {samples : List Int32}
    (hsamples : (added calls).rtake w = samples) (hne : samples ≠ []) :
    c.getAverageRoundedDown = some (.ofInt (toSizeT (total samples) / samples.length)) ∧
      c.getAverageRoundedToClosest = some (.ofInt
        (toSizeT (total samples + (samples.length : ℤ) / 2) / samples.length)) := by
  subst hsamples
  have hcount : ¬ c.count = 0 := mt (count_eq_zero_iff hinv hw).mp hne
  have hhalf : ((((added calls).rtake w).length / 2 : ℕ) : ℤ) =
      (((added calls).rtake w).length : ℤ) / 2 := Int.natCast_ediv ..
  rw [getAverageRoundedDown, getAverageRoundedToClosest, if_neg hcount, if_neg hcount, hinv.sum,
    size_eq hinv, toSizeT_add, hhalf]
  exact ⟨rfl, rfl⟩

/-- Rounding down is right for a sum below zero only where the number is a power of two. -/
theorem power_of_down {samples : List Int32} (hne : samples ≠ []) (hlen : samples.length < 2 ^ 31)
    (hneg : total samples < 0)
    (h : (Int32.ofInt (toSizeT (total samples) / samples.length)).toInt =
      total samples / samples.length) : ∃ k, samples.length = 2 ^ k := by
  have hpos : (0 : ℤ) < samples.length := by exact_mod_cast List.length_pos_iff.mpr hne
  have hrest := Int.mul_ediv_self_le (x := total samples) hpos.ne'
  have hrest' := Int.lt_mul_ediv_self_add (x := total samples) hpos
  have hnear : |total samples - samples.length * (total samples / samples.length)| ≤
      samples.length := by
    rw [abs_of_nonneg (by omega)]
    omega
  have hdvd := dvd_of_toInt_average hpos (by exact_mod_cast hlen) (le_total samples) hneg hnear h
  obtain ⟨k, -, hk⟩ := dvd_two_pow_iff.mp hdvd
  exact ⟨k, hk⟩

/-- Both ways of rounding are right where the number is one, or the sum not below zero. -/
theorem rounded_of {samples : List Int32} (hne : samples ≠ []) (hlen : samples.length < 2 ^ 31)
    (h : 0 ≤ total samples ∨ ∃ k, samples.length = 2 ^ k) :
    (Int32.ofInt (toSizeT (total samples) / samples.length)).toInt =
        total samples / samples.length ∧
      (Int32.ofInt (toSizeT (total samples + (samples.length : ℤ) / 2) / samples.length)).toInt =
        (total samples + (samples.length : ℤ) / 2) / samples.length := by
  have hlow := le_total samples
  have hhigh := total_le samples
  have hpos : (0 : ℤ) < samples.length := by exact_mod_cast List.length_pos_iff.mpr hne
  have hlen' : (samples.length : ℤ) < 2 ^ 31 := by exact_mod_cast hlen
  have hcond : 0 ≤ total samples ∨ (samples.length : ℤ) ∣ 2 ^ 32 := by
    refine h.imp_right fun ⟨k, hk⟩ => dvd_two_pow_iff.mpr ⟨k, ?_, hk⟩
    rw [hk] at hlen
    have hk' := (Nat.pow_lt_pow_iff_right (by norm_num)).mp hlen
    omega
  exact ⟨toInt_average_eq hpos hlen' hlow (by omega) hcond,
    toInt_average_eq hpos hlen' (by omega) (by omega) (hcond.imp_left (by omega))⟩

/-- **The averages** are right when the sum is not below zero, and else when `Size()` is a power of
two. -/
theorem right_iff (hinv : Inv w calls c) (hw : 0 < w) (hlt : (added calls).length < 2 ^ 31) :
    Right ((added calls).rtake w) c ↔
      0 ≤ total ((added calls).rtake w) ∨ ∃ k, ((added calls).rtake w).length = 2 ^ k := by
  have hsize := size_eq hinv
  have hsum := hinv.sum
  have hcount := count_eq_zero_iff hinv hw
  have hlen : ((added calls).rtake w).length < 2 ^ 31 := by
    rw [length_rtake]
    omega
  generalize hsamples : (added calls).rtake w = samples at *
  by_cases hnil : samples = []
  · subst hnil
    refine iff_of_true ⟨hsize, hsum, ?_, .inl ⟨if_pos (hcount.mpr rfl), rfl⟩⟩ (.inl le_rfl)
    rw [getAverageRoundedDown, if_pos (hcount.mpr rfl), if_pos rfl]
    rfl
  · obtain ⟨hdown, hclosest⟩ := averages_eq hinv hw hsamples hnil
    constructor
    · intro hright
      have hfloor := hright.down
      rw [hdown, if_neg hnil, floor_div] at hfloor
      exact (le_or_gt 0 (total samples)).imp_right fun hneg =>
        power_of_down hnil hlen hneg (Option.some.inj hfloor)
    · intro h
      obtain ⟨hfloor, hnearest⟩ := rounded_of hnil hlen h
      refine ⟨hsize, hsum, ?_, .inr ⟨_, hclosest, hnil, ?_⟩⟩
      · rw [hdown, if_neg hnil, floor_div, Option.map_some, hfloor]
      · rw [hnearest]
        have hpos : (0 : ℤ) < samples.length := by exact_mod_cast List.length_pos_iff.mpr hnil
        exact_mod_cast isNearest_ediv (s := total samples) hpos

/-- **The moving average**, for every window and after any calls with fewer than `2 ^ 31`
samples. -/
theorem average_iff (hw : 0 < w) (calls : List Call)
    (hlt : (calls.filterMap Call.sample?).length < 2 ^ 31) :
    ∃ c, Calls.run step (construct w) calls = some c ∧ InSigned 64 c.sum ∧
      (Right ((added calls).rtake w) c ↔
        0 ≤ total ((added calls).rtake w) ∨ ∃ k, ((added calls).rtake w).length = 2 ^ k) := by
  obtain ⟨c, hc, hinv⟩ := exists_inv hw calls
  have hlen : (added calls).length < 2 ^ 31 := (Calls.length_since_le calls).trans_lt hlt
  exact ⟨c, hc, inSigned_sum hinv hlen, right_iff hinv hw hlen⟩

/-- A window of two samples, of which the first has gone and the sum is below zero. -/
theorem average_iff_two : ∃ c, Calls.run step (construct 2)
    [.addSample 7, .addSample (-5), .addSample (-4)] = some c ∧ Right [-5, -4] c := by
  obtain ⟨c, hc, -, hiff⟩ := average_iff (w := 2) (by norm_num)
    [.addSample 7, .addSample (-5), .addSample (-4)] (by decide)
  exact ⟨c, hc, hiff.mpr (.inr ⟨1, by decide⟩)⟩

/-- Three samples of minus one have no average of minus one. -/
theorem not_right_of_neg : ¬ ∀ (w : ℕ) (calls : List Call), 0 < w →
    (calls.filterMap Call.sample?).length < 2 ^ 31 →
    ∃ c, Calls.run step (construct w) calls = some c ∧ Right ((added calls).rtake w) c := by
  intro h
  obtain ⟨c, hc, hright⟩ :=
    h 3 [.addSample (-1), .addSample (-1), .addSample (-1)] (by norm_num) (by decide)
  obtain ⟨c', hc', hinv⟩ := exists_inv (w := 3) (by norm_num)
    [.addSample (-1), .addSample (-1), .addSample (-1)]
  obtain rfl := Option.some.inj (hc.symm.trans hc')
  rcases (right_iff hinv (by norm_num) (by decide)).mp hright with hsum | ⟨k, hk⟩
  · exact absurd hsum (by decide)
  · have hk : 3 = 2 ^ k := hk
    rcases k with _ | _ | k
    · cases hk
    · cases hk
    · rw [pow_succ, pow_succ] at hk
      omega

end MovingAverage

end TQLib
