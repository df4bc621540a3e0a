import TQLib.Foundations.Calls
import TQLib.Foundations.Moments
import TQLib.Foundations.Signed
import Mathlib.Algebra.Order.Ring.Rat

/-!
# Running statistics

`webrtc_impl::RunningStatistics` of `rtc_base/numerics/running_statistics.h`, with rational numbers
in place of `double`. A quotient by zero is undefined. The size is an `int64_t`.

`AddSample` is Welford's update, `RemoveSample` undoes it, and `MergeStatistics` corrects both lots
of deviations for the new mean. `RemoveSample` divides by the size it leaves, so it is undefined for
the last sample.

## Main results

* `RunningStatistics.Right.addSample`, `RunningStatistics.Right.removeSample`,
  `RunningStatistics.Right.mergeStatistics` — the three updates
* `RunningStatistics.statistics_iff` — when the statistics are those of the samples, in any run
-/

namespace TQLib

/-- The class. -/
structure RunningStatistics (T : Type) where
  /-- `size_`. -/
  size : ℤ
  /-- `min_`. -/
  min : T
  /-- `max_`. -/
  max : T
  /-- `mean_`. -/
  mean : ℚ
  /-- `cumul_`. -/
  cumul : ℚ

namespace RunningStatistics

variable {T : Type} (toDouble : T → ℚ)

/-- The constructor, with `infinity_or_max` and `minus_infinity_or_min`. -/
def construct (infinityOrMax minusInfinityOrMin : T) : RunningStatistics T :=
  ⟨0, infinityOrMax, minusInfinityOrMin, 0, 0⟩

/-- A quotient by a size. -/
def divide (x : ℚ) (n : ℤ) : Option ℚ := if n = 0 then none else some (x / n)

/-- `AddSample`. -/
def addSample [LinearOrder T] (s : RunningStatistics T) (sample : T) :
    Option (RunningStatistics T) := do
  let size ← signed 64 (s.size + 1)
  let delta := toDouble sample - s.mean
  let step ← divide delta size
  let mean := s.mean + step
  let delta2 := toDouble sample - mean
  return ⟨size, Min.min s.min sample, Max.max s.max sample, mean, s.cumul + delta * delta2⟩

/-- `RemoveSample`, as it is in production. -/
def removeSample (s : RunningStatistics T) (sample : T) : Option (RunningStatistics T) :=
  if s.size = 0 then some s
  else do
    let size ← signed 64 (s.size - 1)
    let delta := toDouble sample - s.mean
    let step ← divide delta size
    let mean := s.mean - step
    let delta2 := toDouble sample - mean
    return { s with size, mean, cumul := s.cumul - delta * delta2 }

/-- `MergeStatistics`. -/
def mergeStatistics [LinearOrder T] (s other : RunningStatistics T) :
    Option (RunningStatistics T) :=
  if other.size = 0 then some s
  else do
    let newSize ← signed 64 (s.size + other.size)
    let newMean ← divide (s.mean * s.size + other.mean * other.size) newSize
    let delta (stats : RunningStatistics T) : ℚ :=
      stats.size * (newMean * (newMean - 2 * stats.mean) + stats.mean * stats.mean)
    return ⟨newSize, Min.min s.min other.min, Max.max s.max other.max, newMean,
      s.cumul + delta s + other.cumul + delta other⟩

/-- `GetMin`. -/
def getMin (s : RunningStatistics T) : Option T := if s.size = 0 then none else some s.min

/-- `GetMax`. -/
def getMax (s : RunningStatistics T) : Option T := if s.size = 0 then none else some s.max

/-- `GetMean`. -/
def getMean (s : RunningStatistics T) : Option ℚ := if s.size = 0 then none else some s.mean

/-- `GetVariance`. -/
def getVariance (s : RunningStatistics T) : Option ℚ :=
  if s.size = 0 then none else some (s.cumul / s.size)

/-! ## Updates -/

/-- The statistics of some samples. -/
structure Right (m : Multiset T) (s : RunningStatistics T) : Prop where
  /-- `size_`. -/
  size : s.size = m.card
  /-- `mean_`. -/
  mean : s.mean = TQLib.mean (m.map toDouble)
  /-- `cumul_`. -/
  cumul : s.cumul = deviations (m.map toDouble)
  /-- The samples can be numbered. -/
  card_lt : m.card < 2 ^ 63

variable {toDouble} {m m' : Multiset T} {s s' : RunningStatistics T} {x : T}

theorem inSigned_natCast {n : ℕ} : InSigned 64 n ↔ n < 2 ^ 63 := by
  norm_num [InSigned]

theorem signed_natCast {n : ℕ} (h : n < 2 ^ 63) : signed 64 (n : ℤ) = some (n : ℤ) :=
  signed_of (inSigned_natCast.mpr h)

theorem divide_natCast {n : ℕ} (h : n ≠ 0) (y : ℚ) : divide y n = some (y / n) := by
  rw [divide, if_neg (by exact_mod_cast h), Int.cast_natCast]

variable [LinearOrder T]

/-- **`AddSample`** is right where there is one more number. -/
theorem Right.addSample (h : Right toDouble m s) (hlt : m.card + 1 < 2 ^ 63) (x : T) :
    ∃ s', s.addSample toDouble x = some s' ∧ Right toDouble (x ::ₘ m) s' := by
  have hsize : s.size + 1 = ((m.card + 1 : ℕ) : ℤ) := by
    rw [h.size]
    rfl
  have hmean := mean_cons (toDouble x) (m.map toDouble)
  have hcumul := deviations_cons (toDouble x) (m.map toDouble)
  rw [Multiset.card_map] at hmean
  rw [RunningStatistics.addSample, hsize, signed_natCast hlt]
  simp only [Option.bind_eq_bind, Option.bind_some, divide_natCast (Nat.succ_ne_zero _)]
  refine ⟨_, rfl, ?_, ?_, ?_, ?_⟩
  · rw [Multiset.card_cons]
  · rw [Multiset.map_cons, hmean, h.mean]
    push_cast
    rfl
  · rw [Multiset.map_cons, hcumul, hmean, h.cumul, h.mean]
    push_cast
    rfl
  · rwa [Multiset.card_cons]

/-- There is no size for one sample too many. -/
theorem Right.addSample_eq_none (h : Right toDouble m s) (hlt : ¬ m.card + 1 < 2 ^ 63) (x : T) :
    s.addSample toDouble x = none := by
  have hsize : s.size + 1 = ((m.card + 1 : ℕ) : ℤ) := by
    rw [h.size]
    rfl
  rw [RunningStatistics.addSample, hsize, signed_of_not (mt inSigned_natCast.mp hlt)]
  rfl

/-- **`RemoveSample`** is right where there is one number less, and others are left. -/
theorem Right.removeSample (h : Right toDouble m s) (hx : x ∈ m) (hne : m.card ≠ 1) :
    ∃ s', s.removeSample toDouble x = some s' ∧ Right toDouble (m.erase x) s' := by
  obtain ⟨rest, rfl⟩ := Multiset.exists_cons_of_mem hx
  rw [Multiset.card_cons] at hne
  have hrest : rest ≠ 0 := by
    rintro rfl
    exact hne rfl
  have hcard : rest.card ≠ 0 := mt Multiset.card_eq_zero.mp hrest
  have hsize := h.size
  rw [Multiset.card_cons] at hsize
  have hsub : s.size - 1 = (rest.card : ℤ) := by
    rw [hsize]
    push_cast
    ring
  have hlt := h.card_lt
  rw [Multiset.card_cons] at hlt
  have hmean := mean_of_cons (toDouble x) (m := rest.map toDouble) (by simpa using hrest)
  have hcumul := deviations_cons (toDouble x) (rest.map toDouble)
  rw [Multiset.card_map, ← Multiset.map_cons, ← h.mean] at hmean
  rw [← Multiset.map_cons, ← h.cumul, ← h.mean] at hcumul
  rw [RunningStatistics.removeSample, if_neg (by omega), hsub, signed_natCast (by omega),
    Multiset.erase_cons_head]
  simp only [Option.bind_eq_bind, Option.bind_some, divide_natCast hcard]
  refine ⟨_, rfl, rfl, hmean.symm, ?_, by omega⟩
  change s.cumul - (toDouble x - s.mean) * (toDouble x - (s.mean - _)) = _
  rw [hcumul, ← hmean]
  ring

omit [LinearOrder T] in
/-- Without the last sample, the mean would be a quotient by zero. -/
theorem Right.removeSample_eq_none (h : Right toDouble m s) (hone : m.card = 1) (x : T) :
    s.removeSample toDouble x = none := by
  have hsize := h.size
  rw [hone] at hsize
  rw [RunningStatistics.removeSample, hsize]
  rfl

/-- **`MergeStatistics`** is right for the samples of both. -/
theorem Right.mergeStatistics (h : Right toDouble m s) (h' : Right toDouble m' s')
    (hlt : m.card + m'.card < 2 ^ 63) :
    ∃ s'', s.mergeStatistics s' = some s'' ∧ Right toDouble (m + m') s'' := by
  rw [RunningStatistics.mergeStatistics]
  split
  · rename_i hzero
    rw [h'.size] at hzero
    have hnil : m' = 0 := Multiset.card_eq_zero.mp (by exact_mod_cast hzero)
    exact ⟨s, rfl, by rwa [hnil, add_zero]⟩
  · rename_i hne
    rw [h'.size] at hne
    have hcard : m.card + m'.card ≠ 0 := by
      intro hzero
      exact hne (by exact_mod_cast Nat.eq_zero_of_add_eq_zero_left hzero)
    have hsize : s.size + s'.size = ((m.card + m'.card : ℕ) : ℤ) := by
      rw [h.size, h'.size, Nat.cast_add]
    have hmean := mean_add (m.map toDouble) (m'.map toDouble)
    have hcumul := deviations_add (m.map toDouble) (m'.map toDouble)
    rw [← Multiset.map_add, Multiset.card_map, Multiset.card_map, ← h.mean, ← h'.mean] at hmean
    rw [← Multiset.map_add, Multiset.card_map, Multiset.card_map, ← h.mean, ← h'.mean,
      ← h.cumul, ← h'.cumul] at hcumul
    have hquotient : (s.mean * s.size + s'.mean * s'.size) / ((m.card + m'.card : ℕ) : ℚ) =
        TQLib.mean ((m + m').map toDouble) := by
      rw [hmean, h.size, h'.size]
      push_cast
      rfl
    rw [hsize, signed_natCast hlt]
    simp only [Option.bind_eq_bind, Option.bind_some, divide_natCast hcard, hquotient]
    refine ⟨_, rfl, by rw [Multiset.card_add], rfl, ?_, by rwa [Multiset.card_add]⟩
    rw [hcumul, h.size, h'.size]
    push_cast
    ring

/-- There is no size for too many samples. -/
theorem Right.mergeStatistics_eq_none (h : Right toDouble m s) (h' : Right toDouble m' s')
    (hlt : ¬ m.card + m'.card < 2 ^ 63) : s.mergeStatistics s' = none := by
  have hm := h.card_lt
  have hsize : s.size + s'.size = ((m.card + m'.card : ℕ) : ℤ) := by
    rw [h.size, h'.size, Nat.cast_add]
  have hne : s'.size ≠ 0 := by
    rw [h'.size]
    intro hzero
    omega
  rw [RunningStatistics.mergeStatistics, if_neg hne, hsize,
    signed_of_not (mt inSigned_natCast.mp hlt)]
  rfl

/-! ## Runs -/

/-- A call of one of some objects. -/
inductive Call (ι T : Type)
  /-- `AddSample`. -/
  | addSample (i : ι) (sample : T)
  /-- `RemoveSample`. -/
  | removeSample (i : ι) (sample : T)
  /-- `MergeStatistics` of the second object into the first, which may be the same. -/
  | mergeStatistics (i j : ι)

variable {ι : Type} [DecidableEq ι]

/-- What a call does. -/
def step (toDouble : T → ℚ) (objects : ι → RunningStatistics T) :
    Call ι T → Option (ι → RunningStatistics T)
  | .addSample i x => ((objects i).addSample toDouble x).map (Function.update objects i)
  | .removeSample i x => ((objects i).removeSample toDouble x).map (Function.update objects i)
  | .mergeStatistics i j =>
    ((objects i).mergeStatistics (objects j)).map (Function.update objects i)

/-- What a call does to the samples that are present. -/
def present (samples : ι → Multiset T) : Call ι T → ι → Multiset T
  | .addSample i x => Function.update samples i (x ::ₘ samples i)
  | .removeSample i x => Function.update samples i ((samples i).erase x)
  | .mergeStatistics i j => Function.update samples i (samples i + samples j)

/-- The samples that are present after some calls. -/
def samples (calls : List (Call ι T)) : ι → Multiset T := calls.foldl present fun _ => 0

/-- A call that may be made: what is removed is present. -/
def Call.Legal (samples : ι → Multiset T) : Call ι T → Prop
  | .addSample _ _ => True
  | .removeSample i x => x ∈ samples i
  | .mergeStatistics _ _ => True

/-- A call that does not remove the last sample, and after which the samples can be numbered. -/
def Call.Meets (samples : ι → Multiset T) : Call ι T → Prop
  | .addSample i _ => (samples i).card + 1 < 2 ^ 63
  | .removeSample i _ => (samples i).card ≠ 1
  | .mergeStatistics i j => (samples i).card + (samples j).card < 2 ^ 63

instance (samples : ι → Multiset T) : (call : Call ι T) → Decidable (call.Meets samples)
  | .addSample _ _ => inferInstanceAs (Decidable (_ < _))
  | .removeSample _ _ => inferInstanceAs (Decidable (_ ≠ _))
  | .mergeStatistics _ _ => inferInstanceAs (Decidable (_ < _))

/-- All calls have a property, each where it is made. -/
def AllCalls (P : (ι → Multiset T) → Call ι T → Prop) (calls : List (Call ι T)) : Prop :=
  ∀ before call, before ++ [call] <+: calls → P (samples before) call

variable {calls : List (Call ι T)} {call : Call ι T} {objects : ι → RunningStatistics T}
  {P : (ι → Multiset T) → Call ι T → Prop}

theorem samples_concat (calls : List (Call ι T)) (call : Call ι T) :
    samples (calls ++ [call]) = present (samples calls) call := by
  rw [samples, List.foldl_append]
  rfl

theorem allCalls_nil : AllCalls P ([] : List (Call ι T)) := by
  intro before call h
  rw [List.prefix_nil] at h
  exact absurd h (List.append_ne_nil_of_right_ne_nil _ (List.cons_ne_nil _ _))

theorem allCalls_concat :
    AllCalls P (calls ++ [call]) ↔ AllCalls P calls ∧ P (samples calls) call := by
  constructor
  · intro h
    exact ⟨fun before call' hfront => h before call' (hfront.trans (List.prefix_append _ _)),
      h calls call (List.prefix_refl _)⟩
  · rintro ⟨h, hcall⟩ before call' hfront
    rcases List.prefix_concat_iff.mp hfront with heq | hfront
    · obtain ⟨rfl, hlast⟩ := List.append_inj' heq rfl
      rwa [List.head_eq_of_cons_eq hlast]
    · exact h before call' hfront

omit [LinearOrder T] in
/-- An update of an object and of its samples. -/
theorem right_update {samples : ι → Multiset T} (h : ∀ k, Right toDouble (samples k) (objects k))
    {i : ι} (hr : Right toDouble m s) (k : ι) :
    Right toDouble (Function.update samples i m k) (Function.update objects i s k) := by
  by_cases hk : k = i
  · subst hk
    rwa [Function.update_self, Function.update_self]
  · rw [Function.update_of_ne hk, Function.update_of_ne hk]
    exact h k

/-- **One call**: it is right if and only if it meets the condition, and else undefined. -/
theorem step_spec {samples : ι → Multiset T} (h : ∀ k, Right toDouble (samples k) (objects k))
    (hlegal : call.Legal samples) :
    (call.Meets samples → ∃ objects', step toDouble objects call = some objects' ∧
      ∀ k, Right toDouble (present samples call k) (objects' k)) ∧
    (¬ call.Meets samples → step toDouble objects call = none) := by
  cases call with
  | addSample i x =>
    refine ⟨fun hmeets => ?_, fun hnot => ?_⟩
    · obtain ⟨s', hs', hright⟩ := (h i).addSample hmeets x
      exact ⟨_, by rw [step, hs', Option.map_some], right_update h hright⟩
    · rw [step, (h i).addSample_eq_none hnot x, Option.map_none]
  | removeSample i x =>
    refine ⟨fun hmeets => ?_, fun hnot => ?_⟩
    · obtain ⟨s', hs', hright⟩ := (h i).removeSample hlegal hmeets
      exact ⟨_, by rw [step, hs', Option.map_some], right_update h hright⟩
    · rw [step, (h i).removeSample_eq_none (not_not.mp hnot) x, Option.map_none]
  | mergeStatistics i j =>
    refine ⟨fun hmeets => ?_, fun hnot => ?_⟩
    · obtain ⟨s', hs', hright⟩ := (h i).mergeStatistics (h j) hmeets
      exact ⟨_, by rw [step, hs', Option.map_some], right_update h hright⟩
    · rw [step, (h i).mergeStatistics_eq_none (h j) hnot, Option.map_none]

omit [LinearOrder T] in
theorem right_construct (infinityOrMax minusInfinityOrMin : T) :
    Right toDouble (0 : Multiset T) (construct infinityOrMax minusInfinityOrMin) := by
  refine ⟨rfl, ?_, ?_, by norm_num⟩ <;> simp [construct]

/-- Calls that meet the condition are right. -/
theorem exists_right (high low : T) (hlegal : AllCalls Call.Legal calls)
    (hmeets : AllCalls Call.Meets calls) :
    ∃ objects : ι → RunningStatistics T,
      Calls.run (step toDouble) (fun _ => construct high low) calls = some objects ∧
      ∀ k, Right toDouble (samples calls k) (objects k) := by
  refine Calls.run_spec (fun calls => AllCalls Call.Legal calls ∧ AllCalls Call.Meets calls)
    (fun calls (objects : ι → RunningStatistics T) =>
      ∀ k, Right toDouble (samples calls k) (objects k))
    (fun k => right_construct high low) (fun calls call h => ?_)
    (fun calls call objects h hinv => ?_) ⟨hlegal, hmeets⟩
  · exact ⟨(allCalls_concat.mp h.1).1, (allCalls_concat.mp h.2).1⟩
  · rw [samples_concat]
    exact (step_spec hinv (allCalls_concat.mp h.1).2).1 (allCalls_concat.mp h.2).2

/-- Calls that are defined meet the condition. -/
theorem meets_of_run {high low : T} (hlegal : AllCalls Call.Legal calls)
    (h : Calls.run (step toDouble) (fun _ : ι => construct high low) calls = some objects) :
    AllCalls Call.Meets calls := by
  induction calls using List.reverseRecOn generalizing objects with
  | nil => exact allCalls_nil
  | append_singleton calls call ih =>
    obtain ⟨hbefore, hcall⟩ := allCalls_concat.mp hlegal
    rw [Calls.run_concat] at h
    obtain ⟨objects', hrun, hstep⟩ := Option.bind_eq_some_iff.mp h
    have hmeets := ih hbefore hrun
    obtain ⟨objects'', hrun', hright⟩ := exists_right high low hbefore hmeets
    obtain rfl := Option.some.inj (hrun.symm.trans hrun')
    refine allCalls_concat.mpr ⟨hmeets, ?_⟩
    by_contra hnot
    rw [(step_spec hright hcall).2 hnot] at hstep
    cases hstep

/-- The statistics of some samples, as they are returned. -/
structure Correct (toDouble : T → ℚ) (m : Multiset T) (s : RunningStatistics T) : Prop
    extends Right toDouble m s where
  /-- `GetMean`. -/
  getMean : s.getMean = if m = 0 then none else some (TQLib.mean (m.map toDouble))
  /-- `GetVariance`. -/
  getVariance : s.getVariance =
    if m = 0 then none else some (deviations (m.map toDouble) / m.card)

theorem Right.correct (h : Right toDouble m s) : Correct toDouble m s := by
  have hzero : s.size = 0 ↔ m = 0 := by
    rw [h.size, Nat.cast_eq_zero, Multiset.card_eq_zero]
  refine ⟨h, ?_, ?_⟩
  · simp only [RunningStatistics.getMean, hzero, h.mean]
  · simp only [RunningStatistics.getVariance, hzero, h.cumul]
    rw [h.size, Int.cast_natCast]

/-- **Running statistics** are those of the samples present, in each object and after any calls, if
and only if no call removes the last sample and the samples can be numbered. -/
theorem statistics_iff (high low : T) (calls : List (Call ι T))
    (hlegal : AllCalls Call.Legal calls) :
    (∃ objects : ι → RunningStatistics T,
      Calls.run (step toDouble) (fun _ => construct high low) calls = some objects ∧
      ∀ k, Correct toDouble (samples calls k) (objects k)) ↔ AllCalls Call.Meets calls := by
  constructor
  · rintro ⟨objects, hrun, -⟩
    exact meets_of_run hlegal hrun
  · intro hmeets
    obtain ⟨objects, hrun, hright⟩ := exists_right high low hlegal hmeets
    exact ⟨objects, hrun, fun k => (hright k).correct⟩

/-- A sample is added to each of two objects, one is merged into the other, and a sample removed. -/
theorem statistics_iff_two : ∃ objects : Bool → RunningStatistics ℚ,
    Calls.run (step id) (fun _ => construct 0 0) [.addSample true 1, .addSample false 2,
      .mergeStatistics true false, .removeSample true 1] = some objects ∧
    ∀ k, Correct id (samples [.addSample true 1, .addSample false 2,
      .mergeStatistics true false, .removeSample true 1] k) (objects k) := by
  have hall {P : (Bool → Multiset ℚ) → Call Bool ℚ → Prop}
      (h₁ : P (samples []) (.addSample true 1))
      (h₂ : P (samples [.addSample true 1]) (.addSample false 2))
      (h₃ : P (samples [.addSample true 1, .addSample false 2]) (.mergeStatistics true false))
      (h₄ : P (samples [.addSample true 1, .addSample false 2, .mergeStatistics true false])
        (.removeSample true 1)) :
      AllCalls P ([] ++ [.addSample true 1] ++ [.addSample false 2] ++
        [.mergeStatistics true false] ++ [.removeSample true 1]) := by
    simp only [allCalls_concat]
    exact ⟨⟨⟨⟨allCalls_nil, h₁⟩, h₂⟩, h₃⟩, h₄⟩
  refine (statistics_iff 0 0 _ (hall trivial trivial trivial ?_)).mpr (hall ?_ ?_ ?_ ?_)
  · exact Multiset.mem_cons_self 1 {2}
  all_goals decide

/-- Adding a sample and removing it divides by zero. -/
theorem not_right_of_last : ¬ ∀ calls : List (Call Unit ℚ), AllCalls Call.Legal calls →
    ∃ objects : Unit → RunningStatistics ℚ,
      Calls.run (step id) (fun _ => construct 0 0) calls = some objects ∧
      ∀ k, Correct id (samples calls k) (objects k) := by
  intro h
  have hadd : AllCalls Call.Legal ([] ++ [.addSample () (1 : ℚ)]) :=
    allCalls_concat.mpr ⟨allCalls_nil, trivial⟩
  have hlegal : AllCalls Call.Legal ([.addSample () (1 : ℚ)] ++ [.removeSample () 1]) :=
    allCalls_concat.mpr ⟨hadd, Multiset.mem_cons_self 1 0⟩
  obtain ⟨objects, hrun, -⟩ := h _ hlegal
  have hmeets := meets_of_run hlegal hrun
  exact hmeets [.addSample () 1] _ (List.prefix_refl _) rfl

end RunningStatistics

end TQLib
