import TQLib.TaskQueueStdlib.Model

/-!
# `TaskQueueStdlib` loses no wake-up

The event is signalled after the lock has been released, and the worker computes how long to sleep
from what it saw under the lock. Between the two anything may be pushed. The worker may therefore
sleep on a snapshot that is out of date, but only while somebody is still on the way to wake it.

The invariant is about a worker that is about to wait or waiting. Either the event is signalled, or
some caller has pushed and not yet notified, or the snapshot is the present. A request to quit is
tracked separately, because only `Delete` makes one and only `Delete` announces it.

## Main results

* `SleepsWell` — what a sleeping worker relies on
* `asleep_of_reachable` — the invariant
* `no_lost_wake_up` — a worker that sleeps with nobody on the way to wake it has nothing to do
* `quit_unannounced` — `Delete` between its unlock and its `NotifyWake` is a caller on the way
-/

namespace TQLib

namespace TaskQueueStdlib

variable {ι α : Type*} [DecidableEq ι]

/-- The wait fits the delayed queue: unbounded if the queue is empty, and otherwise over no earlier
than the first entry is due and less than a millisecond after, counted from the tick the wait was
computed from. -/
def SleepsWell (tickUs : ℤ) (sleepTime : TimeDelta)
    (delayedQueue : OrderedMap DelayedEntryTimeout α) : Prop :=
  (delayedQueue.begin? = none ∧ sleepTime.isPlusInfinity = true) ∨
    ∃ entry, delayedQueue.begin? = some entry ∧ sleepTime.isPlusInfinity = false ∧
      entry.1.nextFireAtUs ≤ tickUs + sleepTime.us ∧
      tickUs + sleepTime.us < entry.1.nextFireAtUs + 1000

/-- Rounding up to milliseconds never sleeps short, and oversleeps by less than one. -/
theorem sleepsWell_millis {tickUs : ℤ} {delayedQueue : OrderedMap DelayedEntryTimeout α}
    {entry : DelayedEntryTimeout × α} (hd : delayedQueue.begin? = some entry)
    (hlt : tickUs < entry.1.nextFireAtUs) :
    SleepsWell tickUs (TimeDelta.millis (divideRoundUp (entry.1.nextFireAtUs - tickUs) 1000))
      delayedQueue := by
  have hle : 0 ≤ entry.1.nextFireAtUs - tickUs := by omega
  obtain ⟨hlow, hhigh⟩ := divideRoundUp_bounds hle (by decide : (0 : ℤ) < 1000)
  refine .inr ⟨entry, hd, TimeDelta.isPlusInfinity_millis _, ?_, ?_⟩ <;>
    · rw [TimeDelta.us_millis]
      omega

/-- The tick and the duration of the wait a worker is about to enter or in. -/
def Worker.sleep? : Worker α → Option (ℤ × TimeDelta)
  | .enterWait tickUs sleepTime => some (tickUs, sleepTime)
  | .waiting tickUs sleepTime _ => some (tickUs, sleepTime)
  | _ => none

/-- The event is signalled, or a caller at the step `c` is about to signal it. -/
def State.WakeComing (s : State ι α) (c : Caller α) : Prop :=
  s.flagNotify = true ∨ ∃ i, s.callers i = c

/-- What holds of a worker that sleeps or is about to. -/
def Asleep (s : State ι α) : Prop :=
  ∀ tickUs sleepTime, s.worker.sleep? = some (tickUs, sleepTime) →
    (s.WakeComing .notifyWake ∨ s.pending.pendingQueue = [] ∧
      SleepsWell tickUs sleepTime s.pending.delayedQueue) ∧
    (s.WakeComing .deleteNotifyWake ∨ s.pending.threadShouldQuit = false)

theorem wakeComing_setCaller (s : State ι α) (i : ι) (c : Caller α) :
    (s.setCaller i c).WakeComing c :=
  .inr ⟨i, s.setCaller_self i c⟩

/-- A caller at another step can move, and whoever was about to signal still is. -/
theorem State.WakeComing.setCaller {s : State ι α} {c : Caller α} (h : s.WakeComing c) {i : ι}
    (c' : Caller α) (hi : s.callers i ≠ c) : (s.setCaller i c').WakeComing c := by
  refine h.imp_right fun ⟨j, hj⟩ => ⟨j, ?_⟩
  have hne : j ≠ i := by
    rintro rfl
    exact hi hj
  rw [s.setCaller_of_ne c' hne, hj]

/-- A worker that comes out of `GetNextTask` to sleep has seen an empty queue, no request to quit,
and the delayed entry it sleeps for. -/
theorem Pending.GotNext.sleepsWell {p : Pending α} {tickUs : ℤ}
    {r : NextTask α × Pending α × List (Observation α)} (hr : Pending.GotNext p tickUs r)
    {tick : ℤ} {sleepTime : TimeDelta}
    (hs : (State.processTask tickUs r.1).sleep? = some (tick, sleepTime)) :
    r.2.1.pendingQueue = [] ∧ SleepsWell tick sleepTime r.2.1.delayedQueue ∧
      r.2.1.threadShouldQuit = false := by
  cases hr with
  | quit result _ hfinal => simp [State.processTask, hfinal, Worker.sleep?] at hs
  | immediate result order task rest _ _ hfinal hrun =>
    simp [State.processTask, hfinal, hrun, Worker.sleep?] at hs
  | delayed result entry _ _ _ hfinal hrun =>
    simp [State.processTask, hfinal, hrun, Worker.sleep?] at hs
  | sleepForever result hquit hp hd hfinal hrun hsleep =>
    obtain ⟨rfl, rfl⟩ : tickUs = tick ∧ result.sleepTime = sleepTime := by
      simpa [State.processTask, hfinal, hrun, Worker.sleep?] using hs
    exact ⟨hp, .inl ⟨hd, by simp [hsleep]⟩, hquit⟩
  | sleep result entry hquit hp hd hlt hfinal hrun hsleep =>
    obtain ⟨rfl, rfl⟩ : tickUs = tick ∧ result.sleepTime = sleepTime := by
      simpa [State.processTask, hfinal, hrun, Worker.sleep?] using hs
    exact ⟨hp, hsleep ▸ sleepsWell_millis hd hlt, hquit⟩

/-- **One step.** Only a critical section changes what the worker saw, and whoever leaves one is
about to notify. -/
theorem Asleep.step {s s' : State ι α} {a : Action ι α} {out : List (Observation α)}
    (hs : Asleep s) (h : s.step a = some (s', out)) : Asleep s' := by
  intro tick sleepTime hw'
  cases step_cases h with
  | tick dt => exact hs tick sleepTime hw'
  | postTask task hi =>
    obtain ⟨-, hq⟩ := hs tick sleepTime hw'
    refine ⟨.inl (wakeComing_setCaller _ _ _), hq.imp_left fun hq => ?_⟩
    exact State.WakeComing.setCaller (s := { s with pending := _ }) hq _ (by simp [hi])
  | readClock task delay hi =>
    obtain ⟨hn, hq⟩ := hs tick sleepTime hw'
    exact ⟨hn.imp_left fun hn => hn.setCaller _ (by simp [hi]),
      hq.imp_left fun hq => hq.setCaller _ (by simp [hi])⟩
  | delete hi =>
    obtain ⟨hn, -⟩ := hs tick sleepTime hw'
    refine ⟨hn.imp_left fun hn => ?_, .inl (wakeComing_setCaller _ _ _)⟩
    exact State.WakeComing.setCaller (s := { s with pending := _ }) hn _ (by simp [hi])
  | pushDelayed hi =>
    obtain ⟨-, hq⟩ := hs tick sleepTime hw'
    refine ⟨.inl (wakeComing_setCaller _ _ _), hq.imp_left fun hq => ?_⟩
    exact State.WakeComing.setCaller (s := { s with pending := _ }) hq _ (by simp [hi])
  | notify hi => exact ⟨.inl (.inl rfl), .inl (.inl rfl)⟩
  | readTick hw => simp [Worker.sleep?] at hw'
  | takeLock r hw hr =>
    obtain ⟨hp, hsw, hquit⟩ := hr.sleepsWell hw'
    exact ⟨.inr ⟨hp, hsw⟩, .inr hquit⟩
  | ran hw => simp [Worker.sleep?] at hw'
  | enterWait hw => exact hs tick sleepTime (by simpa [hw, Worker.sleep?] using hw')
  | woken hw hf => simp [Worker.sleep?] at hw'
  | timeout hw => simp [Worker.sleep?] at hw'

theorem asleep_of_reachable {s : State ι α} (hr : (machine ι α).Reachable s) : Asleep s := by
  refine hr.invariant Asleep ?_ fun s a s' out hs h => hs.step h
  rintro _ ⟨clock, rfl⟩ tickUs sleepTime hw
  simp [State.initial, Worker.sleep?] at hw

/-- **No lost wake-up.** In every reachable state in which the worker is blocked in
`flag_notify_.Wait`, the event is not signalled and no poster is between its unlock and its
`NotifyWake`: nothing is pending, the wait fits the delayed queue, and a request to quit exists only
while the `Delete` that made it is itself between its unlock and its `NotifyWake`. -/
theorem no_lost_wake_up {s : State ι α} (hr : (machine ι α).Reachable s) {tickUs startUs : ℤ}
    {sleepTime : TimeDelta} (hw : s.worker = .waiting tickUs sleepTime startUs)
    (hflag : s.flagNotify = false) (hposters : ∀ i, s.callers i ≠ .notifyWake) :
    s.pending.pendingQueue = [] ∧ SleepsWell tickUs sleepTime s.pending.delayedQueue ∧
      ((∀ i, s.callers i ≠ .deleteNotifyWake) → s.pending.threadShouldQuit = false) := by
  obtain ⟨hn, hq⟩ := asleep_of_reachable hr tickUs sleepTime (by rw [hw]; rfl)
  obtain ⟨hp, hsw⟩ := hn.resolve_left fun hn => hn.elim (by simp [hflag]) fun ⟨i, hi⟩ =>
    hposters i hi
  refine ⟨hp, hsw, fun hdelete => hq.resolve_left fun hq => ?_⟩
  exact hq.elim (by simp [hflag]) fun ⟨i, hi⟩ => hdelete i hi

/-- A worker that has nothing to do sleeps until it is woken, and one that has a task due in 1500
microseconds sleeps for two milliseconds. -/
theorem no_lost_wake_up_run : ∃ s : State Unit ℕ, (machine Unit ℕ).Reachable s ∧
    s.worker = .waiting 0 ⟨2000⟩ 0 ∧ s.pending.pendingQueue = [] ∧
    SleepsWell 0 ⟨2000⟩ s.pending.delayedQueue ∧
    ((∀ i, s.callers i ≠ .deleteNotifyWake) → s.pending.threadShouldQuit = false) := by
  obtain ⟨s, h, hex, hw, hflag, hcaller⟩ : ∃ s h, (machine Unit ℕ).exec (State.initial 0)
      [.call () (.postDelayedTask 7 ⟨1500⟩), .resume (), .resume (), .work, .work, .work, .work,
        .work, .work, .work] = some (s, h) ∧ s.worker = .waiting 0 ⟨2000⟩ 0 ∧
      s.flagNotify = false ∧ s.callers () = .idle := ⟨_, _, rfl, rfl, rfl, rfl⟩
  have hr : (machine Unit ℕ).Reachable s := ⟨h, .of_exec ⟨0, rfl⟩ hex⟩
  exact ⟨s, hr, hw, no_lost_wake_up hr hw hflag fun i => by simp [hcaller]⟩

/-- **A request to quit can be set and not yet announced.** The worker sleeps, the event is not
signalled, no poster is between its unlock and its `NotifyWake`, and `thread_should_quit_` is set:
`Delete` has released the lock and is about to notify. -/
theorem quit_unannounced : ¬ ∀ (s : State Unit ℕ) (tickUs startUs : ℤ) (sleepTime : TimeDelta),
    (machine Unit ℕ).Reachable s → s.worker = .waiting tickUs sleepTime startUs →
    s.flagNotify = false → (∀ i, s.callers i ≠ .notifyWake) →
    s.pending.pendingQueue = [] ∧ s.pending.threadShouldQuit = false ∧
      SleepsWell tickUs sleepTime s.pending.delayedQueue := by
  intro hall
  obtain ⟨s, h, hex, hw, hflag, hcaller, hquit⟩ : ∃ s h, (machine Unit ℕ).exec (State.initial 0)
      [.work, .work, .work, .call () .delete] = some (s, h) ∧
      s.worker = .waiting 0 TimeDelta.plusInfinity 0 ∧ s.flagNotify = false ∧
      s.callers () = .deleteNotifyWake ∧ s.pending.threadShouldQuit = true :=
    ⟨_, _, rfl, rfl, rfl, rfl, rfl⟩
  have hfalse := (hall s _ _ _ ⟨h, .of_exec ⟨0, rfl⟩ hex⟩ hw hflag fun i => by simp [hcaller]).2.1
  simp [hquit] at hfalse

end TaskQueueStdlib

end TQLib
