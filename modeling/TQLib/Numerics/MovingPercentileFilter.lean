import TQLib.Foundations.Window
import TQLib.Numerics.PercentileFilter

/-!
# The percentile of a moving window

`webrtc::MovingPercentileFilter` of `rtc_base/numerics/moving_percentile_filter.h`. The samples are
in a `std::list` in the order they came, and all of them are in a `PercentileFilter`. A sample that
leaves the list is erased there, which may take out another one that is equal.

## Main results

* `MovingPercentileFilter.Inv.insert` — the list and the percentile filter, in step
* `MovingPercentileFilter.window_law` — the samples of the window, after any calls
-/

namespace TQLib

/-- The class. -/
structure MovingPercentileFilter (T : Type*) [LinearOrder T] where
  /-- `percentile_filter_`. -/
  percentileFilter : PercentileFilter T
  /-- `samples_`. -/
  samples : List T
  /-- `samples_stored_`. -/
  samplesStored : ℕ
  /-- `window_size_`. -/
  windowSize : ℕ

namespace MovingPercentileFilter

variable {T : Type*} [LinearOrder T]

/-- The constructor: `none` when an `RTC_CHECK` fails. -/
def construct (percentile : ℚ) (windowSize : ℕ) : Option (MovingPercentileFilter T) :=
  (PercentileFilter.construct percentile).bind fun percentileFilter =>
    if 0 < windowSize then some ⟨percentileFilter, [], 0, windowSize⟩ else none

/-- What is done about a sample that is one too many. What `Erase` returns is ignored. -/
def trim (f : MovingPercentileFilter T) : Option (MovingPercentileFilter T) :=
  if f.windowSize < f.samplesStored then
    match f.samples with
    | [] => none
    | front :: samples =>
      (f.percentileFilter.erase front).map fun (percentileFilter, _) =>
        { f with percentileFilter, samples, samplesStored := f.samplesStored - 1 }
  else some f

/-- `Insert`. -/
def insert (f : MovingPercentileFilter T) (value : T) : Option (MovingPercentileFilter T) :=
  (f.percentileFilter.insert value).bind fun percentileFilter =>
    trim { f with
      percentileFilter
      samples := f.samples ++ [value]
      samplesStored := f.samplesStored + 1 }

/-- `GetFilteredValue`. -/
def getFilteredValue [Zero T] (f : MovingPercentileFilter T) : Option T :=
  f.percentileFilter.getPercentileValue

/-- `Reset`. -/
def reset (f : MovingPercentileFilter T) : MovingPercentileFilter T :=
  { f with percentileFilter := f.percentileFilter.reset, samples := [], samplesStored := 0 }

/-- `GetNumberOfSamplesStored`. -/
def getNumberOfSamplesStored (f : MovingPercentileFilter T) : ℕ := f.samplesStored

/-! ## Calls -/

/-- A call that changes the state. -/
inductive Call (T : Type*)
  /-- `Insert`. -/
  | insert (value : T)
  /-- `Reset`. -/
  | reset

namespace Call

/-- The sample that is inserted. -/
def sample? : Call T → Option T
  | insert v => some v
  | reset => none

/-- Whether the call is a `Reset`. -/
def isReset : Call T → Bool
  | insert _ => false
  | reset => true

end Call

/-- What a call does. -/
def step (f : MovingPercentileFilter T) : Call T → Option (MovingPercentileFilter T)
  | .insert v => f.insert v
  | .reset => some f.reset

/-- What has been inserted since the last `Reset`. -/
def inserted (calls : List (Call T)) : List T := Calls.since Call.isReset Call.sample? calls

/-! ## The invariant -/

/-- The filter of a window of `w` samples, of all those that have been inserted. -/
structure Inv (p : ℚ) (w : ℕ) (all : List T) (f : MovingPercentileFilter T) : Prop where
  /-- `window_size_`. -/
  windowSize : f.windowSize = w
  /-- `samples_`. -/
  samples : f.samples = all.rtake w
  /-- `samples_stored_`. -/
  samplesStored : f.samplesStored = f.samples.length
  /-- `percentile_filter_`. -/
  percentileFilter : PercentileFilter.Inv p f.samples f.percentileFilter

variable {p : ℚ} {w : ℕ} {all : List T} {f : MovingPercentileFilter T}

theorem insert_eq {v : T} {g : PercentileFilter T} (h : f.percentileFilter.insert v = some g) :
    f.insert v = trim ⟨g, f.samples ++ [v], f.samplesStored + 1, f.windowSize⟩ := by
  rw [insert, h]
  rfl

theorem trim_of_le (h : f.samplesStored ≤ f.windowSize) : f.trim = some f :=
  if_neg (not_lt.mpr h)

theorem trim_of_lt {front : T} {rest : List T} {g : PercentileFilter T} {b : Bool}
    (h : f.windowSize < f.samplesStored) (hs : f.samples = front :: rest)
    (he : f.percentileFilter.erase front = some (g, b)) :
    f.trim = some ⟨g, rest, f.samplesStored - 1, f.windowSize⟩ := by
  rw [trim, if_pos h]
  simp only [hs, he, Option.map_some]

omit [LinearOrder T] in
theorem coe_concat (l : List T) (v : T) : ((l ++ [v] : List T) : Multiset T) = v ::ₘ l :=
  Multiset.coe_eq_coe.mpr (List.perm_append_singleton v l)

/-- `Insert`. The oldest sample of a full window is among the observations, so `Erase` finds it. -/
theorem Inv.insert (hinv : Inv p w all f) (hp : 0 ≤ p ∧ p ≤ 1) (hw : 0 < w) (v : T) :
    ∃ g f', f.percentileFilter.insert v = some g ∧ f.insert v = some f' ∧
      Inv p w (all ++ [v]) f' ∧ (f.windowSize < f.samplesStored + 1 →
        ∃ oldest rest, f.samples ++ [v] = oldest :: rest ∧
          g.erase oldest = some (f'.percentileFilter, true)) := by
  obtain ⟨g, hg, hginv⟩ := hinv.percentileFilter.insert hp v
  rw [insert_eq hg]
  have hlen := hinv.samplesStored
  rw [hinv.samples, length_rtake] at hlen
  have hwindow := hinv.windowSize
  rw [← coe_concat] at hginv
  refine ⟨g, ?_⟩
  by_cases hlt : f.windowSize < f.samplesStored + 1
  · obtain ⟨oldest, rest, -, hold, hnew⟩ := rtake_concat_of_le (l := all) hw (by omega) v
    rw [← hinv.samples] at hold
    have hcons : f.samples ++ [v] = oldest :: (rest ++ [v]) := by
      rw [hold]
      rfl
    have hmem : oldest ∈ ((f.samples ++ [v] : List T) : Multiset T) := by
      rw [hcons]
      exact List.mem_cons_self
    obtain ⟨g', hg', hginv'⟩ := hginv.erase hp oldest
    rw [decide_eq_true hmem] at hg'
    rw [hcons, ← Multiset.cons_coe, Multiset.erase_cons_head] at hginv'
    refine ⟨_, hg, trim_of_lt hlt hcons hg', ⟨hwindow, hnew.symm, ?_, hginv'⟩,
      fun _ => ⟨oldest, _, hcons, hg'⟩⟩
    have hlen' := congrArg List.length hold
    rw [← hinv.samplesStored, List.length_cons] at hlen'
    simp [hlen']
  · refine ⟨_, hg, trim_of_le (not_lt.mp hlt), ⟨hwindow, ?_, ?_, hginv⟩, fun h => absurd h hlt⟩
    · rw [rtake_concat_of_lt (by omega), ← hinv.samples]
    · simp [hinv.samplesStored]

theorem Inv.reset (hinv : Inv p w all f) : Inv p w [] f.reset where
  windowSize := hinv.windowSize
  samples := (List.rtake_nil w).symm
  samplesStored := rfl
  percentileFilter := hinv.percentileFilter.reset

omit [LinearOrder T] in
theorem inserted_concat (calls : List (Call T)) (call : Call T) : inserted (calls ++ [call]) =
    if call.isReset then [] else inserted calls ++ call.sample?.toList :=
  Calls.since_concat calls call

/-- The filter after any calls. -/
theorem exists_inv (hp : 0 ≤ p ∧ p ≤ 1) (hw : 0 < w) (calls : List (Call T)) : ∃ f₀ f,
    construct p w = some f₀ ∧ Calls.run step f₀ calls = some f ∧ Inv p w (inserted calls) f := by
  obtain ⟨g₀, g, hg₀, hg, hginv⟩ := PercentileFilter.exists_inv (T := T) hp []
  obtain rfl := Option.some.inj hg
  have hstart : Inv p w ([] : List T) ⟨g₀, [], 0, w⟩ :=
    ⟨rfl, (List.rtake_nil w).symm, rfl, hginv⟩
  have hrun : ∃ f, Calls.run step ⟨g₀, [], 0, w⟩ calls = some f ∧ Inv p w (inserted calls) f := by
    refine Calls.run_spec (fun _ => True) (fun calls f => Inv p w (inserted calls) f) hstart
      (fun _ _ _ => trivial) (fun calls call f _ hinv => ?_) trivial
    rw [inserted_concat]
    cases call with
    | insert v =>
      obtain ⟨-, f', -, hf', hinv', -⟩ := hinv.insert hp hw v
      exact ⟨f', hf', hinv'⟩
    | reset => exact ⟨_, rfl, hinv.reset⟩
  obtain ⟨f, hf, hinv⟩ := hrun
  exact ⟨_, f, by rw [construct, hg₀, Option.bind_some, if_pos hw], hf, hinv⟩

/-- **The moving percentile filter**, for every percentile and window and after any calls: its
samples are the last ones, and so are those its percentile is of. The next `Insert` erases the
oldest where there is one too many, and that is there. -/
theorem window_law [Zero T] (hp : 0 ≤ p ∧ p ≤ 1) (hw : 0 < w) (calls : List (Call T)) :
    ∃ f₀ f, construct p w = some f₀ ∧ Calls.run step f₀ calls = some f ∧
      f.samples = (inserted calls).rtake w ∧
      f.getNumberOfSamplesStored = min (inserted calls).length w ∧
      (f.percentileFilter.set.values : Multiset T) = f.samples ∧
      f.getFilteredValue = some (PercentileFilter.percentileOf p f.samples) ∧
      ∀ v, ∃ g f', f.percentileFilter.insert v = some g ∧ f.insert v = some f' ∧
        (w ≤ f.samplesStored → ∃ oldest rest, f.samples ++ [v] = oldest :: rest ∧
          g.erase oldest = some (f'.percentileFilter, true)) := by
  obtain ⟨f₀, f, hf₀, hf, hinv⟩ := exists_inv hp hw calls
  refine ⟨f₀, f, hf₀, hf, hinv.samples, ?_, hinv.percentileFilter.values,
    hinv.percentileFilter.getPercentileValue, fun v => ?_⟩
  · rw [getNumberOfSamplesStored, hinv.samplesStored, hinv.samples, length_rtake]
  · obtain ⟨g, f', hg, hf', -, herase⟩ := hinv.insert hp hw v
    rw [hinv.windowSize] at herase
    exact ⟨g, f', hg, hf', fun hle => herase (Nat.lt_succ_of_le hle)⟩

/-- A window of two, in which equal samples come and go. -/
theorem window_law_two : ∃ f₀ f : MovingPercentileFilter ℤ, construct (1 / 2) 2 = some f₀ ∧
    Calls.run step f₀ [.insert 1, .reset, .insert 7, .insert 3, .insert 7] = some f ∧
    f.samples = [3, 7] := by
  obtain ⟨f₀, f, hf₀, hf, hsamples, -⟩ := window_law (T := ℤ) (p := 1 / 2) (w := 2) (by norm_num)
    (by norm_num) [.insert 1, .reset, .insert 7, .insert 3, .insert 7]
  exact ⟨f₀, f, hf₀, hf, hsamples⟩

end MovingPercentileFilter

end TQLib
