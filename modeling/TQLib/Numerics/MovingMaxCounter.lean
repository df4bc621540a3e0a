import TQLib.Foundations.Calls
import TQLib.Foundations.Signed
import TQLib.Foundations.Staircase

/-!
# The maximum of a moving window

`rtc::MovingMaxCounter` of `rtc_base/numerics/moving_max_counter.h`, as it is where `RTC_DCHECK` is
on: the member `last_call_time_ms_` is there, and a time that goes back ends the program.

The deque is a staircase. `Add` takes from its end what the new sample is as great as, and
`RollWindow` takes from its front what is too old, so what is gone can never be a maximum again.

The beginning of the window is a difference in `int64_t`. Before the year the clock counts from, it
may be out of range for a long window.

## Main results

* `MovingMaxCounter.Inv.rollWindow` — what `RollWindow` does
* `MovingMaxCounter.movingMax_law` — the maximum, after any calls
-/

namespace TQLib

/-- The class. -/
structure MovingMaxCounter (T : Type*) where
  /-- `window_length_ms_`. -/
  windowLengthMs : ℤ
  /-- `samples_`. -/
  samples : List (ℤ × T)
  /-- `last_call_time_ms_`. -/
  lastCallTimeMs : ℤ

namespace MovingMaxCounter

variable {T : Type*} [LinearOrder T]

/-- The constructor. -/
def construct (windowLengthMs : ℤ) : MovingMaxCounter T := ⟨windowLengthMs, [], -2 ^ 63⟩

/-- `RollWindow`. -/
def rollWindow (c : MovingMaxCounter T) (newTimeMs : ℤ) : Option (MovingMaxCounter T) :=
  -- the `RTC_DCHECK_GE`
  if newTimeMs < c.lastCallTimeMs then none
  else (signed 64 (newTimeMs - c.windowLengthMs)).map fun windowBeginMs =>
    { c with
      lastCallTimeMs := newTimeMs
      samples := c.samples.dropWhile fun p => p.1 < windowBeginMs }

/-- `Add`. -/
def add (c : MovingMaxCounter T) (sample : T) (currentTimeMs : ℤ) : Option (MovingMaxCounter T) :=
  (c.rollWindow currentTimeMs).map fun c =>
    let samples := c.samples.rdropWhile fun p => p.2 ≤ sample
    -- empty, or the last of them is older
    { c with
      samples := if samples.getLast?.all fun p => p.1 < currentTimeMs then
          samples ++ [(currentTimeMs, sample)]
        else samples }

/-- `Max`. -/
def max (c : MovingMaxCounter T) (currentTimeMs : ℤ) : Option (MovingMaxCounter T × Option T) :=
  (c.rollWindow currentTimeMs).map fun c => (c, c.samples.head?.map Prod.snd)

/-- `Reset`. -/
def reset (c : MovingMaxCounter T) : MovingMaxCounter T := { c with samples := [] }

/-! ## Calls -/

/-- A call of a member function. -/
inductive Call (T : Type*)
  /-- `Add`. -/
  | add (sample : T) (currentTimeMs : ℤ)
  /-- `Max`. -/
  | max (currentTimeMs : ℤ)
  /-- `Reset`. -/
  | reset

namespace Call

/-- The current time, for the calls that have one. -/
def time? : Call T → Option ℤ
  | add _ t => some t
  | max t => some t
  | reset => none

/-- The sample that is added, with its time. -/
def sample? : Call T → Option (ℤ × T)
  | add x t => some (t, x)
  | _ => none

/-- Whether the call is a `Reset`. -/
def isReset : Call T → Bool
  | reset => true
  | _ => false

end Call

/-- What a call does. -/
def step (c : MovingMaxCounter T) : Call T → Option (MovingMaxCounter T)
  | .add x t => c.add x t
  | .max t => (c.max t).map Prod.fst
  | .reset => some c.reset

/-- The times of some calls. -/
def times (calls : List (Call T)) : List ℤ := calls.filterMap Call.time?

/-- What has been added since the last `Reset`. -/
def added (calls : List (Call T)) : List (ℤ × T) := Calls.since Call.isReset Call.sample? calls

/-- The times are values of `int64_t` and never go back. -/
def Timed (calls : List (Call T)) : Prop :=
  (times calls).Pairwise (· ≤ ·) ∧ ∀ t ∈ times calls, InSigned 64 t

/-- The beginning of each window is a value of `int64_t`. -/
def Begins (w : ℤ) (calls : List (Call T)) : Prop :=
  ∀ t ∈ times calls, InSigned 64 (t - w)

/-- The greatest of the samples that are in the window at a time. -/
def greatest (w t : ℤ) (samples : List (ℤ × T)) : Option T :=
  ((samples.filter fun p => t - w ≤ p.1).map Prod.snd).max?

/-! ## The invariant -/

/-- The deque, after some calls. -/
structure Inv (w : ℤ) (calls : List (Call T)) (c : MovingMaxCounter T) : Prop where
  /-- `window_length_ms_`. -/
  windowLengthMs : c.windowLengthMs = w
  /-- `last_call_time_ms_`. -/
  lastCallTimeMs : c.lastCallTimeMs = (times calls).getLast?.getD (-2 ^ 63)
  /-- No sample is newer. -/
  latest : ∀ p ∈ added calls, p.1 ≤ c.lastCallTimeMs
  /-- `samples_`. -/
  staircase : Staircase (c.lastCallTimeMs - w) (added calls) c.samples

variable {w t : ℤ} {calls : List (Call T)} {c : MovingMaxCounter T} {x : T}
  {call : Call T}

omit [LinearOrder T] in
@[simp] theorem times_concat (calls : List (Call T)) (call : Call T) :
    times (calls ++ [call]) = times calls ++ call.time?.toList := by
  rw [times, List.filterMap_append]
  cases h : call.time? <;> simp [times, h]

omit [LinearOrder T] in
theorem Timed.of_concat (h : Timed (calls ++ [call])) : Timed calls := by
  rw [Timed, times_concat] at h
  exact ⟨(List.pairwise_append.mp h.1).1, fun t ht => h.2 t (List.mem_append_left _ ht)⟩

omit [LinearOrder T] in
theorem Begins.of_concat (h : Begins w (calls ++ [call])) :
    Begins w calls := by
  rw [Begins, times_concat] at h
  exact fun t ht => h t (List.mem_append_left _ ht)

theorem inv_construct (w : ℤ) :
    Inv w [] (construct w : MovingMaxCounter T) where
  windowLengthMs := rfl
  lastCallTimeMs := rfl
  latest p hp := by cases hp
  staircase := .nil _

/-- The time of a call is none that has been before. -/
theorem Inv.le_time (hinv : Inv w calls c) (ht : Timed (calls ++ [call]))
    (htime : call.time? = some t) : c.lastCallTimeMs ≤ t := by
  rw [Timed, times_concat, htime] at ht
  obtain ⟨hpair, hrange⟩ := ht
  rw [hinv.lastCallTimeMs]
  cases hlast : (times calls).getLast? with
  | none => exact (hrange t (by simp)).1
  | some t' =>
    have hmem := List.mem_of_getLast? hlast
    exact (List.pairwise_append.mp hpair).2.2 t' hmem t (List.mem_singleton_self t)

omit [LinearOrder T] in
theorem rollWindow_eq (hle : c.lastCallTimeMs ≤ t) (hb : InSigned 64 (t - c.windowLengthMs)) :
    c.rollWindow t = some { c with
      lastCallTimeMs := t
      samples := dropBefore (t - c.windowLengthMs) c.samples } := by
  rw [rollWindow, if_neg hle.not_gt, signed_of hb]
  rfl

theorem add_eq {c' : MovingMaxCounter T} (hc : c.rollWindow t = some c') (x : T) :
    c.add x t = some { c' with samples := put t x c'.samples } := by
  rw [add, hc]
  rfl

/-- `RollWindow` moves the window on. -/
theorem Inv.rollWindow (hinv : Inv w calls c) (ht : Timed (calls ++ [call]))
    (hb : Begins w (calls ++ [call])) (htime : call.time? = some t) :
    ∃ c', c.rollWindow t = some c' ∧ c'.windowLengthMs = w ∧ c'.lastCallTimeMs = t ∧
      (∀ p ∈ added calls, p.1 ≤ t) ∧ Staircase (t - w) (added calls) c'.samples := by
  have hle := hinv.le_time ht htime
  have hbegin : InSigned 64 (t - w) :=
    hb t (by rw [times_concat, htime]; simp)
  have heq := rollWindow_eq hle (hinv.windowLengthMs ▸ hbegin)
  rw [hinv.windowLengthMs] at heq
  refine ⟨_, heq, rfl, rfl, fun p hp => (hinv.latest p hp).trans hle, ?_⟩
  exact hinv.staircase.dropBefore (by omega)

omit [LinearOrder T] in
theorem added_concat (calls : List (Call T)) (call : Call T) : added (calls ++ [call]) =
    if call.isReset then [] else added calls ++ call.sample?.toList :=
  Calls.since_concat calls call

/-- **One call** keeps the invariant. -/
theorem Inv.step (hw : 0 ≤ w) (hinv : Inv w calls c)
    (ht : Timed (calls ++ [call])) (hb : Begins w (calls ++ [call])) :
    ∃ c', c.step call = some c' ∧ Inv w (calls ++ [call]) c' := by
  cases call with
  | add x t =>
    obtain ⟨c', hc', hwindow, hlast, hlatest, hs⟩ := hinv.rollWindow ht hb rfl
    have hput := hs.put (by omega) hlatest x
    refine ⟨_, add_eq hc' x, hwindow, ?_, ?_, ?_⟩
    · rw [times_concat, Call.time?, Option.toList_some, List.getLast?_concat]
      exact hlast
    · intro p hp
      rw [added_concat] at hp
      change p.1 ≤ c'.lastCallTimeMs
      rw [hlast]
      rcases List.mem_append.mp hp with hp | hp
      · exact hlatest p hp
      · rw [List.mem_singleton.mp hp]
    · rw [added_concat]
      change Staircase (c'.lastCallTimeMs - _) _ _
      rw [hlast]
      exact hput
  | max t =>
    obtain ⟨c', hc', hwindow, hlast, hlatest, hs⟩ := hinv.rollWindow ht hb rfl
    have hadded : added (calls ++ [.max t]) = added calls := by
      rw [added_concat]
      exact List.append_nil _
    refine ⟨c', by rw [MovingMaxCounter.step, max, hc']; rfl, hwindow, ?_, ?_, ?_⟩
    · rw [times_concat, Call.time?, Option.toList_some, List.getLast?_concat]
      exact hlast
    · rw [hadded, hlast]
      exact hlatest
    · rw [hadded, hlast]
      exact hs
  | reset =>
    have hadded : added (calls ++ [.reset]) = [] := added_concat calls .reset
    refine ⟨c.reset, rfl, hinv.windowLengthMs, ?_, ?_, ?_⟩
    · rw [times_concat, Call.time?, Option.toList_none, List.append_nil]
      exact hinv.lastCallTimeMs
    · rw [hadded]
      intro p hp
      cases hp
    · rw [hadded]
      exact .nil _

theorem exists_inv (hw : 0 ≤ w) (ht : Timed calls) (hb : Begins w calls) :
    ∃ c, Calls.run step (construct w) calls = some c ∧ Inv w calls c :=
  Calls.run_spec (fun calls => Timed calls ∧ Begins w calls) (Inv w)
    (inv_construct w) (fun _ _ h => ⟨h.1.of_concat, h.2.of_concat⟩)
    (fun _ _ _ h hinv => hinv.step hw h.1 h.2) ⟨ht, hb⟩

theorem Inv.max (hinv : Inv w calls c) (ht : Timed (calls ++ [.max t]))
    (hb : Begins w (calls ++ [.max t])) :
    ∃ c', c.max t = some (c', greatest w t (added calls)) := by
  obtain ⟨c', hc', -, -, -, hs⟩ := hinv.rollWindow ht hb rfl
  refine ⟨c', ?_⟩
  rw [MovingMaxCounter.max, hc', Option.map_some, hs.head?_eq_max?, greatest]

/-! ## The maximum -/

/-- Each window begins in the range of `int64_t`, and the maximum is that of the window. -/
theorem movingMax_law (hw : 0 ≤ w) (calls : List (Call T)) (ht : Timed calls)
    (hb : Begins w calls) :
    ∃ c, Calls.run step (construct w) calls = some c ∧
      (c.samples.map Prod.fst).Pairwise (· < ·) ∧ (c.samples.map Prod.snd).Pairwise (· > ·) ∧
      ∀ t, Timed (calls ++ [.max t]) → Begins w (calls ++ [.max t]) →
        ∃ c', c.max t = some (c', greatest w t (added calls)) := by
  obtain ⟨c, hc, hinv⟩ := exists_inv hw ht hb
  refine ⟨c, hc, ?_, ?_, fun t ht hb => hinv.max ht hb⟩
  · exact List.pairwise_map.mpr (hinv.staircase.descends.imp And.left)
  · exact List.pairwise_map.mpr (hinv.staircase.descends.imp And.right)

/-- Three samples, of which the second is the greatest in each window it is in. -/
theorem movingMax_law_three :
    ∃ c, Calls.run step (construct 10) [.add (3 : ℤ) 0, .add 5 4, .add 2 9] = some c ∧
      ∃ c', c.max 12 = some (c', some 5) := by
  obtain ⟨c, hc, -, -, hmax⟩ := movingMax_law (w := 10) (by norm_num)
    [.add (3 : ℤ) 0, .add 5 4, .add 2 9] (by simp [Timed, times, Call.time?, InSigned])
    (by simp [Begins, times, Call.time?, InSigned])
  exact ⟨c, hc, hmax 12 (by simp [Timed, times, Call.time?, InSigned])
    (by simp [Begins, times, Call.time?, InSigned])⟩

/-- Where the window is to begin before all times, `Max` is undefined, and has no maximum. -/
theorem not_movingMax_of_timed : ¬ ∀ (w : ℤ), 0 ≤ w → InSigned 64 w → ∀ (calls : List (Call ℤ)) t,
    Timed (calls ++ [.max t]) → ∃ c c', Calls.run step (construct w) calls = some c ∧
      c.max t = some (c', greatest w t (added calls)) := by
  intro h
  obtain ⟨c, c', hc, hmax⟩ := h (2 ^ 63 - 1) (by norm_num) (by norm_num [InSigned]) [] (-2)
    (by simp [Timed, times, Call.time?, InSigned])
  obtain rfl := Option.some.inj hc
  have hbegin : ¬ InSigned 64 (-2 - (2 ^ 63 - 1)) := by norm_num [InSigned]
  have hle : ¬ -2 < (construct (2 ^ 63 - 1) : MovingMaxCounter ℤ).lastCallTimeMs := by
    norm_num [construct]
  rw [max, rollWindow, if_neg hle, construct, signed_of_not hbegin] at hmax
  cases hmax

end MovingMaxCounter

end TQLib
