import Mathlib.Data.Rat.Floor
import TQLib.Thread.MessageQueue

/-!
# Posted delays on `rtc::Thread`

`PostDelayedTask` passes its delay on to `PostDelayedHighPrecisionTask`, which rounds it up to whole
milliseconds and then takes it through `ms<int>()`. In a release build that is a `static_cast` from
`int64_t` to `int`, although `delay_ms` is an `int64_t` again: a delay of `2 ^ 31` milliseconds or
more, which is less than 25 days, is shortened.

What is said of a delay is said of the rest of the call, from the reading of the clock on: whatever
the other parties do before the push, and whatever the message queue holds by then.

## Main results

* `staticCastSigned_eq_iff` — when a narrowing cast keeps its value
* `posted_delay` — a delay is kept if and only if it fits into an `int` of milliseconds
* `delay_shortened` — one that does not
-/

namespace TQLib

/-- A narrowing cast keeps the values of its type, and no others. -/
theorem staticCastSigned_eq_iff {width : ℕ} (hw : 0 < width) {v : ℤ} :
    staticCastSigned width v = v ↔ -2 ^ (width - 1) ≤ v ∧ v < 2 ^ (width - 1) := by
  obtain ⟨n, rfl⟩ : ∃ n, width = n + 1 := ⟨width - 1, by omega⟩
  have hpow : ((2 ^ (n + 1) : ℕ) : ℤ) = 2 * 2 ^ n := by push_cast; ring
  have hpos : (0 : ℤ) < 2 ^ n := by positivity
  rw [staticCastSigned, Nat.add_sub_cancel]
  constructor
  · intro heq
    have hle := Int.le_bmod (x := v) (m := 2 ^ (n + 1)) (by positivity)
    have hlt := Int.bmod_lt (x := v) (m := 2 ^ (n + 1)) (by positivity)
    rw [heq, hpow] at hle hlt
    omega
  · rintro ⟨hle, hlt⟩
    exact Int.bmod_eq_of_le (by omega) (by omega)

namespace Thread

variable {θ ι α : Type*}

/-- The delay in milliseconds, rounded up. -/
def ceilMs (delay : TimeDelta) : ℤ := ⌈(delay.us : ℚ) / 1000⌉

theorem ceilMs_bounds (delay : TimeDelta) :
    delay.us ≤ ceilMs delay * 1000 ∧ ceilMs delay * 1000 < delay.us + 1000 := by
  have hle : (delay.us : ℚ) / 1000 ≤ ceilMs delay := Int.le_ceil _
  have hlt : (ceilMs delay : ℚ) < (delay.us : ℚ) / 1000 + 1 := Int.ceil_lt_add_one _
  rw [div_le_iff₀ (by norm_num)] at hle
  have hlt' : (ceilMs delay : ℚ) * 1000 < delay.us + 1000 := by linarith
  exact ⟨by exact_mod_cast hle, by exact_mod_cast hlt'⟩

/-- What the source computes is the rounded delay, up to the cast. -/
theorem ms_roundUpTo_eq_ceilMs {delay : TimeDelta} (hd : 0 ≤ delay.us) :
    (delay.roundUpTo (TimeDelta.millis 1)).ms = ceilMs delay := by
  have hms := TimeDelta.ms_roundUpTo_bounds hd
  have hceil := ceilMs_bounds delay
  omega

variable [DecidableEq θ] [DecidableEq ι]

/-- The push of a delayed task, wherever it finds the queue. -/
theorem delayedPush_step {p : Party θ ι} {t : θ} {task : α} {delayMs runTimeMs : ℤ}
    {s : State θ ι α} (hp : s.clients p = .delayedPush t task delayMs runTimeMs) :
    ∃ s', s.step (.client p) = some (s', [.queue t (.delay
        ((s.queues t).nextMessage delayMs runTimeMs task))]) ∧
      s'.queues t = ((s.queues t).postDelayedTask delayMs runTimeMs task).1 := by
  refine ⟨(s.setQueue t ((s.queues t).postDelayedTask delayMs runTimeMs task).1).setClient p
    (.postWakeUp t false), ?_, ?_⟩
  · simp only [State.step, State.client, hp]
    rfl
  · simp [State.setClient, State.setQueue]

/-- The party `p` has read `clock` for a delayed task it posts to the thread `t`, and stands in `s`.
Whenever it goes on from there, in whatever state, the message it enqueues is due at the end of the
delay, and no `Get` of any run moves that message before. -/
def DelayKept (p : Party θ ι) (t : θ) (task : α) (delay : TimeDelta) (clock : ℤ)
    (s : State θ ι α) : Prop :=
  ∀ s₁ : State θ ι α, s₁.clients p = s.clients p → ∃ message s₂,
    s₁.step (.client p) = some (s₂, [.queue t (.delay message)]) ∧
    (s₂.queues t).delayedMessages.toMultiset =
      message ::ₘ (s₁.queues t).delayedMessages.toMultiset ∧
    message.functor = task ∧ message.runTimeMs = clock + ceilMs delay ∧
    ∀ h s' now, (machine θ ι α).Reaches h s' → .promote message now ∈ events t h →
      clock * 1000 + delay.us ≤ now * 1000

/-- What the party that has read the clock is to push. -/
theorem delayedClock_step {p : Party θ ι} {t : θ} {task : α} {delay : TimeDelta}
    (hnonneg : 0 ≤ delay.us) {s s' : State θ ι α} {out : List (Observation θ ι α)}
    (hp : s.clients p = .delayedClock t task delay) (hst : s.step (.client p) = some (s', out)) :
    s'.clients p = .delayedPush t task (staticCastSigned 32 (ceilMs delay))
      (s.clock + staticCastSigned 32 (ceilMs delay)) := by
  simp only [State.step, State.client, hp, ms_roundUpTo_eq_ceilMs hnonneg, Option.some.injEq,
    Prod.mk.injEq] at hst
  rw [← hst.1]
  exact Function.update_self ..

/-- A delay that is kept has survived the cast. -/
theorem DelayKept.fits {p : Party θ ι} {t : θ} {task : α} {delay : TimeDelta}
    (hnonneg : 0 ≤ delay.us) {s s' : State θ ι α} {out : List (Observation θ ι α)}
    (hp : s.clients p = .delayedClock t task delay) (hst : s.step (.client p) = some (s', out))
    (hkept : DelayKept p t task delay s.clock s') : ceilMs delay ≤ 2 ^ 31 - 1 := by
  obtain ⟨message, s₂, hst₂, -, -, hrun, -⟩ := hkept s' rfl
  obtain ⟨s₂', hst₂', -⟩ := delayedPush_step (delayedClock_step hnonneg hp hst)
  rw [hst₂'] at hst₂
  simp only [Option.some.injEq, Prod.mk.injEq, List.cons.injEq, Observation.queue.injEq,
    TimedEvent.delay.injEq, and_true, true_and] at hst₂
  rw [← hst₂.2] at hrun
  have hcast : staticCastSigned 32 (ceilMs delay) = ceilMs delay := by
    simpa [Queue.nextMessage] using hrun
  have hrange := (staticCastSigned_eq_iff (by norm_num)).mp hcast
  omega

/-- **Posted delays.** What the party that has just read the clock goes on to enqueue is due at the
end of the delay if and only if the delay, in milliseconds and rounded up, fits into an `int`. -/
theorem posted_delay {p : Party θ ι} {t : θ} {task : α} {delay : TimeDelta}
    (hnonneg : 0 ≤ delay.us) {s s' : State θ ι α} {out : List (Observation θ ι α)}
    (hp : s.clients p = .delayedClock t task delay) (hst : s.step (.client p) = some (s', out)) :
    DelayKept p t task delay s.clock s' ↔ ceilMs delay ≤ 2 ^ 31 - 1 := by
  refine ⟨DelayKept.fits hnonneg hp hst, ?_⟩
  intro hfits s₁ h₁
  have hceil := ceilMs_bounds delay
  have hcast : staticCastSigned 32 (ceilMs delay) = ceilMs delay :=
    (staticCastSigned_eq_iff (by norm_num)).mpr (by omega)
  have hp' := delayedClock_step hnonneg hp hst
  rw [hcast] at hp'
  obtain ⟨s₂, hst₂, hqueue⟩ := delayedPush_step (h₁.trans hp')
  refine ⟨_, s₂, hst₂, ?_, rfl, rfl, ?_⟩
  · rw [hqueue]
    exact PriorityQueue.push_toMultiset ..
  · intro h s₃ now hr hmem
    have hearly : s.clock + ceilMs delay ≤ now :=
      Discipline.accepts_due (accepts hr t) (List.mem_filterMap.mpr ⟨_, hmem, rfl⟩)
    omega

/-- A delay of four and a half milliseconds is kept. -/
theorem posted_delay_run : ∃ s s' : State Unit Unit ℕ, (machine Unit Unit ℕ).Reachable s ∧
    s.step (.client (.other ())) = some (s', []) ∧
    DelayKept (.other ()) () 7 ⟨4500⟩ s.clock s' := by
  obtain ⟨s, s', hex, hp, hst⟩ : ∃ s s', (machine Unit Unit ℕ).exec (State.initial 0)
        [.call (.other ()) (.postDelayedTask () 7 ⟨4500⟩), .client (.other ())] = some (s, []) ∧
      s.clients (.other ()) = .delayedClock () 7 ⟨4500⟩ ∧
      s.step (.client (.other ())) = some (s', []) := ⟨_, _, rfl, rfl, rfl⟩
  have hceil := ceilMs_bounds ⟨4500⟩
  exact ⟨s, s', ⟨[], .of_exec ⟨0, rfl⟩ hex⟩, hst,
    (posted_delay (by decide) hp hst).mpr (by simp only at hceil; omega)⟩

/-- **A delay of `2 ^ 31` milliseconds is shortened**, although the end of it fits into an
`int64_t`. -/
theorem delay_shortened : ¬ ∀ (delay : TimeDelta) (s s' : State Unit Unit ℕ), 0 ≤ delay.us →
    delay.us < TimeDelta.plusInfinityVal → s.clock + ceilMs delay < 2 ^ 63 →
    (machine Unit Unit ℕ).Reachable s → s.clients (.other ()) = .delayedClock () 7 delay →
    s.step (.client (.other ())) = some (s', []) →
    DelayKept (.other ()) () 7 delay s.clock s' := by
  intro hall
  obtain ⟨s, s', hex, hp, hst, hclock⟩ : ∃ s s', (machine Unit Unit ℕ).exec (State.initial 0)
        [.call (.other ()) (.postDelayedTask () 7 ⟨2147483648000⟩), .client (.other ())] =
        some (s, []) ∧
      s.clients (.other ()) = .delayedClock () 7 ⟨2147483648000⟩ ∧
      s.step (.client (.other ())) = some (s', []) ∧ s.clock = 0 := ⟨_, _, rfl, rfl, rfl, rfl⟩
  have hceil := ceilMs_bounds ⟨2147483648000⟩
  simp only at hceil
  have hkept := hall _ s s' (by decide) (by decide) (by omega) ⟨[], .of_exec ⟨0, rfl⟩ hex⟩ hp hst
  have hfits := hkept.fits (by decide) hp hst
  omega

end Thread

end TQLib
