import TQLib.TaskQueueWin.Model

/-!
# The timers of `TaskQueueWin`

At most one timer is set at a time, and outside `RunDueTasks` and `ScheduleNextTimer` it is set for
the first entry of `timer_tasks_`. What this rests on is that a timer that has been killed says
nothing more. A multimedia timer is killed before its event is reset, so it does not. A timer set
with `SetTimer` does if its `WM_TIMER` is in the queue already: the worker takes it for the message
of the timer it has set since, and in the end runs the due tasks of an empty queue.

The condition under which this does not happen is one on each step of a run, and the invariant is
proved for the runs whose steps meet it. It names the two other ways of ending up without the right
timer as well: a delay that does not fit into the 32 bits it is cast to, and a system that refuses
to set either timer.

## Main results

* `Undisturbed` — the condition on a step
* `Fits.step`, `fits_of_reaches` — what the timers are at each place of the worker
* `ids_checked` — the checks of the source on the ids of the timers hold
* `timer_law` — in every run whose steps meet the condition, the timers are right
* `stale_timer` — a `WM_TIMER` that outlives its timer makes `RunDueTasks` start on an empty queue
-/

namespace TQLib

namespace TaskQueueWin

variable {ι α : Type*}

/-! ## The condition on a step -/

/-- The timers a step passes to `KillTimer`. -/
def State.killed (s : State ι α) : Action ι α → List ℕ
  | .work =>
    match s.worker with
    | .queueDelayedTask _ info =>
      if needToScheduleTimers s.timerTasks info = true ∧ s.timers.timerId ≠ 0 then
        [s.timers.timerId]
      else []
    | .timer _ id => [id]
    | _ => []
  | _ => []

/-- The delays a step asks for, before they are cast. -/
def State.asked (s : State ι α) : Action ι α → List ℤ
  | .start _ _ => s.timerTasks.top?.toList.map fun nextTask =>
    ((timerDelay nextTask.dueTime s.clock).roundUpTo (TimeDelta.millis 1)).ms
  | _ => []

/-- Whether both `timeSetEvent` and `SetTimer` fail. -/
def Action.refused : Action ι α → Bool
  | .start 0 0 => true
  | _ => false

/-- No `WM_TIMER` of a timer is in the queue when the timer is killed, every delay fits into 32
bits, and a timer can be set. -/
def Undisturbed (s : State ι α) (a : Action ι α) : Prop :=
  (∀ id ∈ s.killed a, id ∉ s.timers.wmTimers) ∧ (∀ ms ∈ s.asked a, ms < 2 ^ 32) ∧
    a.refused = false

instance (s : State ι α) (a : Action ι α) : Decidable (Undisturbed s a) :=
  inferInstanceAs (Decidable (_ ∧ _ ∧ _))

/-! ## Timers that are set -/

/-- The timer is due at the due time of a task, or when it was set if that is later, rounded up to
whole milliseconds from when it was set. -/
def Timer.RoundsUp (timer : Timer) (dueTime : Timestamp) : Prop :=
  max timer.start.us dueTime.us ≤ timer.dueUs ∧
    timer.dueUs < max timer.start.us dueTime.us + 1000

/-- `timer` is the only timer, and the queue knows it. -/
inductive Timers.Sets (timer : Timer) : Timers → Prop
  | multimedia : timer.id ≠ 0 → Sets timer ⟨timer.id, timer.expired, 0, [timer], [], []⟩
  | window {wmTimers : List ℕ} : timer.id ≠ 0 → (∀ id ∈ wmTimers, id = timer.id) →
      Sets timer ⟨0, false, timer.id, [], [timer], wmTimers⟩

namespace Timers

variable {timer : Timer} {t t' : Timers}

/-- The system's own steps: a timer goes off. -/
def Expires (t : Timers) (clock : Timestamp) (t' : Timers) : Prop :=
  ∃ k, t.expireMultimedia k clock = some t' ∨ t.expireWindow k clock = some t'

/-- Without timers nothing goes off. -/
theorem not_expires_initial {clock : Timestamp} : ¬ initial.Expires clock t' := by
  rintro ⟨k, h | h⟩
  · simp [expireMultimedia, initial] at h
  · simp [expireWindow, initial] at h

/-- A timer that goes off stays the only one, due when it was. -/
theorem Sets.expires {clock : Timestamp} (ht : t.Sets timer) (h : t.Expires clock t') :
    ∃ timer', t'.Sets timer' ∧ timer'.start = timer.start ∧ timer'.dueUs = timer.dueUs ∧
      t'.timerId = t.timerId ∧ (t.event = true → t'.event = true) := by
  obtain ⟨k, h | h⟩ := h
  · cases ht with
    | multimedia hid =>
      cases k with
      | zero =>
        simp only [expireMultimedia, List.getElem?_cons_zero, List.set_cons_zero] at h
        split at h
        · cases h
          exact ⟨{ timer with expired := true }, .multimedia hid, rfl, rfl, rfl, fun _ => rfl⟩
        · cases h
      | succ k => simp [expireMultimedia] at h
    | window hid hwm => simp [expireMultimedia] at h
  · cases ht with
    | multimedia hid => simp [expireWindow] at h
    | window hid hwm =>
      cases k with
      | zero =>
        simp only [expireWindow, List.getElem?_cons_zero] at h
        split at h
        · cases h
          refine ⟨timer, .window hid fun id hmem => ?_, rfl, rfl, rfl, id⟩
          rcases List.mem_append.mp hmem with hmem | hmem
          · exact hwm id hmem
          · exact List.mem_singleton.mp hmem
        · cases h
      | succ k => simp [expireWindow] at h

/-- A timer whose event is signalled is cancelled without a trace. -/
theorem Sets.cancel (ht : t.Sets timer) (hevent : t.event = true) : t.cancel = initial := by
  cases ht with
  | multimedia hid => simp [Timers.cancel, initial, hid]
  | window => simp at hevent

/-- A timer is killed without a trace if no message of it is in the queue. -/
theorem Sets.killTimer (ht : t.Sets timer) (hid : t.timerId ≠ 0) (hwm : t.timerId ∉ t.wmTimers) :
    t.killTimer t.timerId = initial := by
  cases ht with
  | multimedia => exact absurd rfl hid
  | @window wmTimers _ hall =>
    have hnil : wmTimers = [] := by
      refine List.eq_nil_iff_forall_not_mem.mpr fun id hmem => hwm ?_
      rw [hall id hmem] at hmem
      exact hmem
    simp [Timers.killTimer, initial, hnil]

theorem Sets.cancelTimers (ht : t.Sets timer) (hwm : t.timerId ≠ 0 → t.timerId ∉ t.wmTimers) :
    t.cancelTimers = initial := by
  cases ht with
  | multimedia hid => simp [Timers.cancelTimers, Timers.cancel, initial, hid]
  | window hid hall =>
    have hkill := Sets.killTimer (.window hid hall) hid (hwm hid)
    simpa [Timers.cancelTimers, Timers.cancel, hid] using hkill

/-- A message that is handed out is one of the timer that is set. -/
theorem Sets.peekTimer (ht : t.Sets timer) {k id : ℕ} (hk : t.wmTimers[k]? = some id) :
    { t with wmTimers := t.wmTimers.eraseIdx k }.Sets timer ∧ t.timerId = id ∧ id ≠ 0 := by
  cases ht with
  | multimedia => simp at hk
  | window hid hall =>
    obtain rfl := hall id (List.mem_of_getElem? hk)
    exact ⟨.window hid fun id hmem => hall id (List.mem_of_mem_eraseIdx hmem), rfl, hid⟩

/-- At most one of the multimedia timer and `timer_id_` is armed, by the ids and by the timers the
system knows. -/
def Exclusive (t : Timers) : Prop :=
  (t.multimediaId = 0 ∧ t.multimedia = []) ∨ (t.timerId = 0 ∧ t.window = [])

theorem Sets.exclusive (ht : t.Sets timer) : t.Exclusive := by
  cases ht with
  | multimedia => exact .inr ⟨rfl, rfl⟩
  | window => exact .inl ⟨rfl, rfl⟩

end Timers

/-! ## What is asked for -/

/-- Between finite points in time the delay is the time that is left. -/
theorem timerDelay_us {dueTime now : Timestamp} (hlow : TimeDelta.minusInfinityVal < now.us)
    (hhigh : now.us < TimeDelta.plusInfinityVal)
    (hms : ((timerDelay dueTime now).roundUpTo (TimeDelta.millis 1)).ms < 2 ^ 32) :
    (timerDelay dueTime now).us = max 0 (dueTime.us - now.us) := by
  have hminus : now.isMinusInfinity = false := by simp [Timestamp.isMinusInfinity]; omega
  have hplus : now.isPlusInfinity = false := by simp [Timestamp.isPlusInfinity]; omega
  cases hinf : dueTime.isPlusInfinity with
  | true =>
    -- an infinite delay does not fit
    have hdelay : timerDelay dueTime now = TimeDelta.plusInfinity := by
      simp only [timerDelay, Timestamp.sub, hinf, Bool.true_or, if_true]
      rfl
    rw [hdelay] at hms
    exact absurd hms (by decide)
  | false =>
    rw [timerDelay, TimeDelta.us_max, TimeDelta.zero]
    cases hneg : dueTime.isMinusInfinity with
    | true =>
      have hdue : dueTime.us = TimeDelta.minusInfinityVal := by
        simpa [Timestamp.isMinusInfinity] using hneg
      simp only [Timestamp.sub, hinf, hneg, hminus, Bool.or_false, Bool.true_or, if_true,
        Bool.false_eq_true, if_false, TimeDelta.minusInfinity, hdue]
      have hval : TimeDelta.minusInfinityVal < 0 := by decide
      omega
    | false =>
      simp only [Timestamp.sub, hinf, hneg, hminus, hplus, Bool.or_false, Bool.false_eq_true,
        if_false]

/-- A timer set by `ScheduleNextTimer` is due at the due time of the task, rounded up. -/
theorem roundsUp_milliseconds {dueTime now : Timestamp} (id : ℕ)
    (hlow : TimeDelta.minusInfinityVal < now.us) (hhigh : now.us < TimeDelta.plusInfinityVal)
    (hms : ((timerDelay dueTime now).roundUpTo (TimeDelta.millis 1)).ms < 2 ^ 32) :
    (⟨id, now, milliseconds dueTime now, false⟩ : Timer).RoundsUp dueTime := by
  have hdelay := timerDelay_us hlow hhigh hms
  have hnonneg : 0 ≤ (timerDelay dueTime now).us := by omega
  obtain ⟨hle, hlt⟩ := TimeDelta.ms_roundUpTo_bounds hnonneg
  -- the cast changes nothing
  have hcast : milliseconds dueTime now =
      ((timerDelay dueTime now).roundUpTo (TimeDelta.millis 1)).ms := by
    rw [milliseconds, staticCastUnsigned]
    exact Int.emod_eq_of_lt (by omega) hms
  simp only [Timer.RoundsUp, Timer.dueUs, hcast]
  omega

/-! ## The invariant -/

/-- A timer is set for the first task, and none if there is no task. -/
def Scheduled (timers : Timers) (timerTasks : TimerTasks α) : Prop :=
  (timerTasks.top? = none ∧ timers = .initial) ∨
    ∃ top timer, timerTasks.top? = some top ∧ timers.Sets timer ∧ timer.RoundsUp top.dueTime

/-- What the timers are while the worker stands at a place. -/
def Worker.Fits (timers : Timers) (timerTasks : TimerTasks α) : Worker α → Prop
  | .runDueTasks _ _ => timers = .initial ∧ timerTasks.top? ≠ none
  | .scheduleNextTimer _ => timers = .initial
  | .undefined => False
  | .checkTimer result => Scheduled timers timerTasks ∧ (result = .timer → timers.event = true)
  | .timer _ id => Scheduled timers timerTasks ∧ timers.timerId = id ∧ id ≠ 0
  | _ => Scheduled timers timerTasks

theorem fits_resume {timers : Timers} {timerTasks : TimerTasks α} (caller : Caller)
    (h : Scheduled timers timerTasks) : (caller.resume : Worker α).Fits timers timerTasks := by
  cases caller <;> exact h

/-- The invariant: the clock is finite and the timers fit the place of the worker. -/
structure Fits (s : State ι α) : Prop where
  low : TimeDelta.minusInfinityVal < s.clock.us
  high : s.clock.us < TimeDelta.plusInfinityVal
  fits : s.worker.Fits s.timers s.timerTasks

theorem Scheduled.expires {timers timers' : Timers} {timerTasks : TimerTasks α} {clock : Timestamp}
    (hs : Scheduled timers timerTasks) (h : timers.Expires clock timers') :
    Scheduled timers' timerTasks ∧ timers'.timerId = timers.timerId ∧
      (timers.event = true → timers'.event = true) := by
  rcases hs with ⟨-, rfl⟩ | ⟨top, timer, htop, ht, hround⟩
  · exact absurd h Timers.not_expires_initial
  · obtain ⟨timer', ht', hstart, hdue, hid, hevent⟩ := ht.expires h
    refine ⟨.inr ⟨top, timer', htop, ht', ?_⟩, hid, hevent⟩
    rwa [Timer.RoundsUp, hstart, hdue]

/-- Timers may go off wherever the worker stands. -/
theorem Worker.Fits.expires {timers timers' : Timers} {timerTasks : TimerTasks α} {w : Worker α}
    {clock : Timestamp} (hw : w.Fits timers timerTasks) (h : timers.Expires clock timers') :
    w.Fits timers' timerTasks := by
  cases w with
  | runDueTasks now caller => exact absurd (hw.1 ▸ h) Timers.not_expires_initial
  | scheduleNextTimer caller =>
    have hinit : timers = .initial := hw
    exact absurd (hinit ▸ h) Timers.not_expires_initial
  | undefined => exact hw
  | checkTimer result =>
    obtain ⟨hs, -, hevent⟩ := Scheduled.expires hw.1 h
    exact ⟨hs, fun hr => hevent (hw.2 hr)⟩
  | timer start id =>
    obtain ⟨hs, hid, -⟩ := Scheduled.expires hw.1 h
    exact ⟨hs, hid.trans hw.2.1, hw.2.2⟩
  | _ => exact (Scheduled.expires hw h).1

/-- A task that is not due before the first leaves the first due time as it is. -/
theorem Scheduled.push {timers : Timers} {timerTasks : TimerTasks α} {info : DelayedTaskInfo α}
    (hs : Scheduled timers timerTasks)
    (hneed : State.needToScheduleTimers timerTasks info = false) :
    Scheduled timers (timerTasks.push info) := by
  rcases hs with ⟨htop, -⟩ | ⟨top, timer, htop, ht, hround⟩
  · simp [State.needToScheduleTimers, htop] at hneed
  have hle : top.dueTime.us ≤ info.dueTime.us := by
    simpa [State.needToScheduleTimers, htop] using hneed
  have hmem : top ∈ timerTasks.toMultiset := by simp [PriorityQueue.toMultiset_of_top? htop]
  cases htop' : (timerTasks.push info).top? with
  | none => simp [PriorityQueue.top?_eq_none] at htop'
  | some top' =>
    -- the new first entry is due when the old one is
    have hle' : top'.dueTime.us ≤ top.dueTime.us := by
      simpa [greater] using PriorityQueue.lt_of_top? htop' (y := top) (by simp [hmem])
    have hge : top.dueTime.us ≤ top'.dueTime.us := by
      have hmem' : top' ∈ (timerTasks.push info).toMultiset := by
        simp [PriorityQueue.toMultiset_of_top? htop']
      rw [PriorityQueue.push_toMultiset, Multiset.mem_cons] at hmem'
      rcases hmem' with rfl | hmem'
      · exact hle
      · simpa [greater] using PriorityQueue.lt_of_top? htop hmem'
    refine .inr ⟨top', timer, htop', ht, ?_⟩
    rw [Timer.RoundsUp, show top'.dueTime.us = top.dueTime.us by omega]
    exact hround

/-- A worker that goes on to another place finds the timers as they should be there. -/
theorem Walks.fits {s : State ι α} {w w' : Worker α} (h : Walks s w w')
    (hfits : w.Fits s.timers s.timerTasks) : w'.Fits s.timers s.timerTasks := by
  cases h with
  | waitTimer hevent => exact ⟨hfits, fun _ => hevent⟩
  | waitInQueue hin => exact ⟨hfits, nofun⟩
  | waitMessages hnew => exact hfits
  | overLimit hlt => exact ⟨hfits, nofun⟩
  | underLimit => exact hfits
  | timerNotSignalled hresult => exact hfits.1
  | again hresult => exact hfits
  | drained hl hp => exact hfits
  | topOfEmpty htop => exact absurd htop hfits.2
  | notDue htop hlt => exact hfits.1
  | noNextTask htop => exact fits_resume _ (.inl ⟨htop, hfits⟩)

/-- **One step.** Whoever takes tasks out of `timer_tasks_` or puts a first one in has killed the
timer before, and sets one afterwards. -/
theorem Fits.step [DecidableEq ι] {s s' : State ι α} {a : Action ι α} {out : List (Observation α)}
    (hs : Fits s) (hg : Undisturbed s a) (h : s.step a = some (s', out)) : Fits s' := by
  obtain ⟨hlow, hhigh, hfits⟩ := hs
  cases step_cases h with
  | tick clock hle hlt => exact ⟨hlow.trans_le hle, hlt, hfits⟩
  | move i p => exact ⟨hlow, hhigh, hfits⟩
  | message m hm => exact ⟨hlow, hhigh, hfits⟩
  | push hi hl => exact ⟨hlow, hhigh, hfits⟩
  | setEvent hi => exact ⟨hlow, hhigh, hfits⟩
  | postMessage hi => exact ⟨hlow, hhigh, hfits⟩
  | @expireMultimedia k timers ht => exact ⟨hlow, hhigh, hfits.expires ⟨k, .inl ht⟩⟩
  | @expireWindow k timers ht => exact ⟨hlow, hhigh, hfits.expires ⟨k, .inr ht⟩⟩
  | walk hw hwalk => exact ⟨hlow, hhigh, hwalk.fits (hw ▸ hfits)⟩
  | peekDelayedTask hw hm =>
    rw [hw] at hfits
    exact ⟨hlow, hhigh, hfits⟩
  | peekQuit hw hm =>
    rw [hw] at hfits
    exact ⟨hlow, hhigh, hfits⟩
  | peekOther hw hm =>
    rw [hw] at hfits
    exact ⟨hlow, hhigh, hfits⟩
  | peekNothing hw hm hwm =>
    rw [hw] at hfits
    exact ⟨hlow, hhigh, hfits, nofun⟩
  | peekTimer hw hk =>
    rw [hw] at hfits
    rcases hfits with ⟨-, hinit⟩ | ⟨top, timer, htop, ht, hround⟩
    · simp [hinit, Timers.initial] at hk
    · obtain ⟨ht', hid, hne⟩ := ht.peekTimer hk
      exact ⟨hlow, hhigh, .inr ⟨top, timer, htop, ht', hround⟩, hid, hne⟩
  | queueFirst hw hneed =>
    rw [hw] at hfits
    refine ⟨hlow, hhigh, ?_⟩
    rcases hfits with ⟨-, hinit⟩ | ⟨top, timer, htop, ht, hround⟩
    · show s.timers.cancelTimers = .initial
      rw [hinit]
      rfl
    · refine ht.cancelTimers fun hid => hg.1 _ ?_
      simp [State.killed, hw, hneed, hid]
  | queueLater hw hneed =>
    rw [hw] at hfits
    exact ⟨hlow, hhigh, Scheduled.push hfits hneed⟩
  | timer hw =>
    rw [hw] at hfits
    obtain ⟨hsched, rfl, hid⟩ := hfits
    rcases hsched with ⟨-, hinit⟩ | ⟨top, timer, htop, ht, -⟩
    · exact absurd (by rw [hinit]; rfl) hid
    · have hwm : s.timers.timerId ∉ s.timers.wmTimers := hg.1 _ (by simp [State.killed, hw])
      exact ⟨hlow, hhigh, ht.killTimer hid hwm, by simp [htop]⟩
  | timerSignalled hw hsig =>
    rw [hw] at hfits
    obtain ⟨hsched, hresult⟩ := hfits
    have hevent : s.timers.event = true := hsig.elim hresult And.right
    rcases hsched with ⟨-, hinit⟩ | ⟨top, timer, htop, ht, -⟩
    · simp [hinit, Timers.initial] at hevent
    · exact ⟨hlow, hhigh, ht.cancel hevent, by simp [htop]⟩
  | resetEvent hw =>
    rw [hw] at hfits
    exact ⟨hlow, hhigh, hfits⟩
  | popPending hw hl hp =>
    rw [hw] at hfits
    exact ⟨hlow, hhigh, hfits⟩
  | runTask hw =>
    rw [hw] at hfits
    exact ⟨hlow, hhigh, hfits⟩
  | due hw htop hle =>
    rw [hw] at hfits
    refine ⟨hlow, hhigh, ?_⟩
    simp only
    split
    · rename_i hsome
      exact ⟨hfits.1, fun hnone => by simp [hnone] at hsome⟩
    · exact hfits.1
  | @start caller nextTask multimediaId timerId hw htop hans hans' =>
    rw [hw] at hfits
    have hms : ((timerDelay nextTask.dueTime s.clock).roundUpTo (TimeDelta.millis 1)).ms < 2 ^ 32 :=
      hg.2.1 _ (by simp [State.asked, htop])
    have hinit : s.timers = .initial := hfits
    refine ⟨hlow, hhigh, fits_resume _ (.inr ⟨nextTask, ?_⟩)⟩
    simp only [hinit, Timers.start]
    by_cases hid : multimediaId = 0
    · have hid' : timerId ≠ 0 := by
        rintro rfl
        simpa [Action.refused, hid] using hg.2.2
      rw [if_neg (not_not.mpr hid), if_pos hid']
      exact ⟨_, htop, .window hid' (by simp [Timers.initial]),
        roundsUp_milliseconds timerId hlow hhigh hms⟩
    · rw [if_pos hid]
      exact ⟨_, htop, .multimedia hid, roundsUp_milliseconds multimediaId hlow hhigh hms⟩

theorem fits_of_reaches [DecidableEq ι] {h : List (Observation α)} {s : State ι α}
    (hr : (machine ι α).ReachesVia Undisturbed h s) : Fits s := by
  refine hr.invariant Fits ?_ fun s a s' out hs hg hst => hs.step hg hst
  rintro _ ⟨clock, hlow, hhigh, rfl⟩
  exact ⟨hlow, hhigh, .inl ⟨rfl, rfl⟩⟩

/-- In an undisturbed run the checks on the ids hold: a `WM_TIMER` that is handled carries
`timer_id_`, and `ScheduleNextTimer` finds both ids `0`. -/
theorem ids_checked [DecidableEq ι] {h : List (Observation α)} {s : State ι α}
    (hr : (machine ι α).ReachesVia Undisturbed h s) :
    (∀ start id, s.worker = .timer start id → s.timers.timerId = id) ∧
      ∀ caller, s.worker = .scheduleNextTimer caller →
        s.timers.timerId = 0 ∧ s.timers.multimediaId = 0 := by
  have hfits := (fits_of_reaches hr).fits
  constructor
  · intro start id hw
    rw [hw] at hfits
    exact hfits.2.1
  · intro caller hw
    rw [hw] at hfits
    rw [show s.timers = .initial from hfits]
    exact ⟨rfl, rfl⟩

/-! ## The law -/

/-- The timer is set and known to the queue, or it has gone off and its event is signalled. -/
def Timers.ArmedOrSignalled (t : Timers) (timer : Timer) : Prop :=
  (timer ∈ t.multimedia ∧ timer.id = t.multimediaId ∧ (timer.expired = true → t.event = true)) ∨
    (timer ∈ t.window ∧ timer.id = t.timerId)

/-- What the timers have to satisfy in a state. -/
structure TimerLaw (s : State ι α) : Prop where
  /-- `RunDueTasks` is entered, and goes round its loop, only while there are tasks. -/
  notEmpty : ∀ now caller, s.worker = .runDueTasks now caller → s.timerTasks.top? ≠ none
  /-- `top()` is never taken of an empty queue. -/
  defined : s.worker ≠ .undefined
  /-- At most one of the multimedia timer and `timer_id_` is armed. -/
  exclusive : s.timers.Exclusive
  /-- While the worker waits and there are tasks, a timer is armed or signalled that is due at the
  due time of the first, rounded up. -/
  scheduled : s.worker = .wait → ∀ top, s.timerTasks.top? = some top →
    ∃ timer, s.timers.ArmedOrSignalled timer ∧ timer.RoundsUp top.dueTime

theorem Timers.Sets.armedOrSignalled {timer : Timer} {t : Timers} (ht : t.Sets timer) :
    t.ArmedOrSignalled timer := by
  cases ht with
  | multimedia => exact .inl ⟨List.mem_singleton_self _, rfl, id⟩
  | window => exact .inr ⟨List.mem_singleton_self _, rfl⟩

theorem Scheduled.exclusive {timers : Timers} {timerTasks : TimerTasks α}
    (hs : Scheduled timers timerTasks) : timers.Exclusive := by
  rcases hs with ⟨-, rfl⟩ | ⟨_, _, -, ht, -⟩
  · exact .inl ⟨rfl, rfl⟩
  · exact ht.exclusive

/-- **The timer law of `TaskQueueWin`**, in every run whose steps are undisturbed. -/
theorem timer_law [DecidableEq ι] {h : List (Observation α)} {s : State ι α}
    (hr : (machine ι α).ReachesVia Undisturbed h s) : TimerLaw s := by
  obtain ⟨-, -, hfits⟩ := fits_of_reaches hr
  refine ⟨?_, ?_, ?_, ?_⟩
  · intro now caller hw
    rw [hw] at hfits
    exact hfits.2
  · intro hw
    rw [hw] at hfits
    exact hfits
  · cases hw : s.worker with
    | runDueTasks now caller =>
      rw [hw] at hfits
      rw [hfits.1]
      exact .inl ⟨rfl, rfl⟩
    | scheduleNextTimer caller =>
      rw [hw] at hfits
      rw [show s.timers = .initial from hfits]
      exact .inl ⟨rfl, rfl⟩
    | undefined =>
      rw [hw] at hfits
      exact hfits.elim
    | checkTimer result =>
      rw [hw] at hfits
      exact hfits.1.exclusive
    | timer start id =>
      rw [hw] at hfits
      exact hfits.1.exclusive
    | _ =>
      rw [hw] at hfits
      exact Scheduled.exclusive hfits
  · intro hw top htop
    rw [hw] at hfits
    rcases hfits with ⟨hnone, -⟩ | ⟨top', timer, htop', ht, hround⟩
    · simp [hnone] at htop
    · obtain rfl : top' = top := by simpa [htop'] using htop
      exact ⟨timer, ht.armedOrSignalled, hround⟩

/-- The law at work: for a task that is due in 1500 microseconds the worker waits with a multimedia
timer of two milliseconds. -/
theorem timer_law_run : ∃ s : State Unit ℕ,
    (machine Unit ℕ).execVia Undisturbed (State.initial ⟨0⟩)
      [.call () (.postDelayedTask 7 ⟨1500⟩), .resume (), .work, .work, .work, .start 1 0, .work,
        .work, .work, .work] = some (s, [.delay ⟨⟨1500⟩, 7⟩]) ∧
    s.worker = .wait ∧ s.timers.multimedia = [⟨1, ⟨0⟩, 2, false⟩] ∧ TimerLaw s := by
  obtain ⟨s, hex, hw, ht⟩ : ∃ s, (machine Unit ℕ).execVia Undisturbed (State.initial ⟨0⟩)
      [.call () (.postDelayedTask 7 ⟨1500⟩), .resume (), .work, .work, .work, .start 1 0, .work,
        .work, .work, .work] = some (s, [.delay ⟨⟨1500⟩, 7⟩]) ∧
      s.worker = .wait ∧ s.timers.multimedia = [⟨1, ⟨0⟩, 2, false⟩] := ⟨_, rfl, rfl, rfl⟩
  exact ⟨s, hex, hw, ht, timer_law (.of_execVia ⟨⟨0⟩, by decide, by decide, rfl⟩ hex)⟩

/-- **A `WM_TIMER` can outlive its timer.** `timeSetEvent` fails once, so the first task gets a
timer set with `SetTimer`. Its message arrives while the message of a task that is due earlier is in
the queue. That task kills the timer and sets a multimedia timer; the stale message then runs both
tasks and leaves the multimedia timer set, which makes `RunDueTasks` start on an empty queue. -/
theorem stale_timer : ¬ ∀ s : State Unit ℕ, (machine Unit ℕ).Reachable s → TimerLaw s := by
  intro hall
  obtain ⟨s, h, hex, now, caller, hw, htop⟩ : ∃ s h, (machine Unit ℕ).exec (State.initial ⟨0⟩)
      [.call () (.postDelayedTask 7 ⟨10000⟩), .resume (), .work, .work, .work, .start 0 1, .work,
        .work, .work, .work,
        .tick 5000, .call () (.postDelayedTask 8 ⟨1000⟩), .resume (), .tick 5000, .expireWindow 0,
        .work, .work, .work, .start 2 0, .work, .peekTimer 0, .work, .work, .work, .work, .work,
        .work, .work, .work, .expireMultimedia 0, .work, .work] = some (s, h) ∧
      ∃ now caller, s.worker = .runDueTasks now caller ∧ s.timerTasks.top? = none :=
    ⟨_, _, rfl, _, _, rfl, rfl⟩
  exact (hall s ⟨h, .of_exec ⟨⟨0⟩, by decide, by decide, rfl⟩ hex⟩).notEmpty now caller hw htop

end TaskQueueWin

end TQLib
