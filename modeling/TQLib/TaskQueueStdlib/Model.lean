import Mathlib.Data.Prod.Lex
import TQLib.Foundations.OrderedMap
import TQLib.Foundations.TimedQueue
import TQLib.Units.Time

/-!
# `TaskQueueStdlib`

The queue of `rtc_base/task_queue_stdlib.cc`: one worker thread, any number of calling threads, a
mutex, an auto-reset event and two containers.

The unit of interleaving is what other threads can tell apart: a critical section of
`pending_lock_` is one step, and so is each reading of the clock and each operation on
`flag_notify_`. Posting is therefore at least two steps, the push and the later `NotifyWake`, with
every other thread free to move in between. Callers are indexed by an arbitrary type `ι`, and each
makes one call after another. Tasks are values of an arbitrary type `α`; they are never empty, as
an empty `run_task` is how `GetNextTask` says that it found none.

The clock is `rtc::TimeMicros()`, moved by the environment and never back. `thread_posting_order_`
is a `uint64_t` and wraps.

What a run shows is the history of a timed task queue (`TimedEvent`): pushes, starts and the
worker's sight of `thread_should_quit_`. A task counts as started by the `GetNextTask` that hands
it to `ProcessTasks`.
-/

namespace TQLib

namespace TaskQueueStdlib

/-! ## Keys of the delayed queue -/

/-- `DelayedEntryTimeout`. -/
structure DelayedEntryTimeout where
  /-- `next_fire_at_us`. -/
  nextFireAtUs : ℤ
  /-- `order`. -/
  order : ℕ
  deriving DecidableEq

/-- The pair `std::tie` compares. -/
def DelayedEntryTimeout.tie (e : DelayedEntryTimeout) : ℤ ×ₗ ℕ := toLex (e.nextFireAtUs, e.order)

theorem DelayedEntryTimeout.tie_injective : Function.Injective DelayedEntryTimeout.tie := by
  rintro ⟨f, o⟩ ⟨f', o'⟩ h
  simpa [DelayedEntryTimeout.tie] using h

instance : LinearOrder DelayedEntryTimeout :=
  LinearOrder.lift' DelayedEntryTimeout.tie DelayedEntryTimeout.tie_injective

/-- `operator<` is lexicographic. -/
theorem DelayedEntryTimeout.lt_iff {e e' : DelayedEntryTimeout} :
    e < e' ↔ e.nextFireAtUs < e'.nextFireAtUs ∨
      e.nextFireAtUs = e'.nextFireAtUs ∧ e.order < e'.order :=
  Prod.Lex.toLex_lt_toLex

/-! ## What `pending_lock_` guards -/

/-- The members guarded by `pending_lock_`. -/
structure Pending (α : Type*) where
  /-- `thread_should_quit_`. -/
  threadShouldQuit : Bool
  /-- `thread_posting_order_`. -/
  threadPostingOrder : ℕ
  /-- `pending_queue_`, front first. -/
  pendingQueue : List (ℕ × α)
  /-- `delayed_queue_`. -/
  delayedQueue : OrderedMap DelayedEntryTimeout α

/-- What a run shows. -/
abbrev Observation (α : Type*) := TimedEvent α (DelayedEntryTimeout × α) ℤ

/-- `NextTask`. -/
structure NextTask (α : Type*) where
  /-- `final_task`. -/
  finalTask : Bool := false
  /-- `run_task`. -/
  runTask : Option α := none
  /-- `sleep_time`. -/
  sleepTime : TimeDelta := TimeDelta.plusInfinity

variable {ι α : Type*}

namespace Pending

/-- The queue as it is constructed. -/
def initial : Pending α := ⟨false, 0, [], OrderedMap.empty⟩

/-- `++thread_posting_order_`, on 64 bits. -/
def nextOrder (p : Pending α) : ℕ := (p.threadPostingOrder + 1) % 2 ^ 64

/-- The critical section of `PostTask`. -/
def postTask (p : Pending α) (task : α) : Pending α × List (Observation α) :=
  ({ p with
      threadPostingOrder := p.nextOrder
      pendingQueue := p.pendingQueue ++ [(p.nextOrder, task)] },
    [.post task])

/-- The critical section of `PostDelayedTask`. The assignment through `operator[]` replaces the
entry that has the same key, if there is one. -/
def postDelayedTask (p : Pending α) (nextFireAtUs : ℤ) (task : α) :
    Pending α × List (Observation α) :=
  let delayedEntry : DelayedEntryTimeout := ⟨nextFireAtUs, p.nextOrder⟩
  ({ p with
      threadPostingOrder := p.nextOrder
      delayedQueue := p.delayedQueue.insert delayedEntry task },
    ((p.delayedQueue.find? delayedEntry).toList.map fun old => .drop (delayedEntry, old)) ++
      [.delay (delayedEntry, task)])

/-- The end of `GetNextTask`: take the front of `pending_queue_` if it has one. -/
def takePending (p : Pending α) (result : NextTask α) :
    NextTask α × Pending α × List (Observation α) :=
  match p.pendingQueue with
  | (_, entryRun) :: rest =>
    ({ result with runTask := some entryRun }, { p with pendingQueue := rest }, [.take entryRun])
  | [] => (result, p, [])

/-- Start the first delayed task. -/
def takeDelayed (p : Pending α) (entry : DelayedEntryTimeout × α) (tickUs : ℤ) :
    NextTask α × Pending α × List (Observation α) :=
  ({ runTask := some entry.2 }, { p with delayedQueue := p.delayedQueue.eraseBegin },
    [.expire entry tickUs])

/-- The critical section of `GetNextTask`, with the tick read before the lock was taken. -/
def getNextTask (p : Pending α) (tickUs : ℤ) : NextTask α × Pending α × List (Observation α) :=
  if p.threadShouldQuit then ({ finalTask := true }, p, [.stop])
  else
    match p.delayedQueue.begin? with
    | some (delayInfo, delayRun) =>
      if tickUs ≥ delayInfo.nextFireAtUs then
        match p.pendingQueue with
        | (entryOrder, entryRun) :: rest =>
          if entryOrder < delayInfo.order then
            ({ runTask := some entryRun }, { p with pendingQueue := rest }, [.take entryRun])
          else p.takeDelayed (delayInfo, delayRun) tickUs
        | [] => p.takeDelayed (delayInfo, delayRun) tickUs
      else
        p.takePending
          { sleepTime := TimeDelta.millis (divideRoundUp (delayInfo.nextFireAtUs - tickUs) 1000) }
    | none => p.takePending {}

/-- Everything `GetNextTask` can do. -/
inductive GotNext (p : Pending α) (tickUs : ℤ) :
    NextTask α × Pending α × List (Observation α) → Prop
  /-- The request to quit is seen. -/
  | quit (result : NextTask α) : p.threadShouldQuit = true → result.finalTask = true →
      GotNext p tickUs (result, p, [.stop])
  /-- The front immediate task is taken. -/
  | immediate (result : NextTask α) (order : ℕ) (task : α) (rest : List (ℕ × α)) :
      p.threadShouldQuit = false → p.pendingQueue = (order, task) :: rest →
      result.finalTask = false → result.runTask = some task →
      GotNext p tickUs (result, { p with pendingQueue := rest }, [.take task])
  /-- The first delayed task is taken, and it is due. -/
  | delayed (result : NextTask α) (entry : DelayedEntryTimeout × α) :
      p.threadShouldQuit = false → p.delayedQueue.begin? = some entry →
      entry.1.nextFireAtUs ≤ tickUs → result.finalTask = false →
      result.runTask = some entry.2 →
      GotNext p tickUs
        (result, { p with delayedQueue := p.delayedQueue.eraseBegin }, [.expire entry tickUs])
  /-- Nothing is ready and nothing is held: sleep until woken. -/
  | sleepForever (result : NextTask α) : p.threadShouldQuit = false → p.pendingQueue = [] →
      p.delayedQueue.begin? = none → result.finalTask = false → result.runTask = none →
      result.sleepTime = TimeDelta.plusInfinity → GotNext p tickUs (result, p, [])
  /-- Nothing is ready: sleep until the first delayed task is due. -/
  | sleep (result : NextTask α) (entry : DelayedEntryTimeout × α) : p.threadShouldQuit = false →
      p.pendingQueue = [] → p.delayedQueue.begin? = some entry →
      tickUs < entry.1.nextFireAtUs → result.finalTask = false → result.runTask = none →
      result.sleepTime = TimeDelta.millis (divideRoundUp (entry.1.nextFireAtUs - tickUs) 1000) →
      GotNext p tickUs (result, p, [])

theorem getNextTask_cases (p : Pending α) (tickUs : ℤ) :
    GotNext p tickUs (p.getNextTask tickUs) := by
  rw [getNextTask]
  by_cases hquit : p.threadShouldQuit = true
  · rw [if_pos hquit]
    exact .quit _ hquit rfl
  have hq : p.threadShouldQuit = false := by simpa using hquit
  rw [if_neg hquit]
  cases hd : p.delayedQueue.begin? with
  | none =>
    cases hp : p.pendingQueue with
    | nil =>
      simp only [takePending, hp]
      exact .sleepForever _ hq hp hd rfl rfl rfl
    | cons entry rest =>
      simp only [takePending, hp]
      exact .immediate _ entry.1 entry.2 rest hq hp rfl rfl
  | some delayed =>
    dsimp only
    by_cases hdue : tickUs ≥ delayed.1.nextFireAtUs
    · rw [if_pos hdue]
      cases hp : p.pendingQueue with
      | nil => exact .delayed _ delayed hq hd hdue rfl rfl
      | cons entry rest =>
        dsimp only
        split
        · exact .immediate _ entry.1 entry.2 rest hq hp rfl rfl
        · exact .delayed _ delayed hq hd hdue rfl rfl
    · rw [if_neg hdue]
      cases hp : p.pendingQueue with
      | nil =>
        simp only [takePending, hp]
        exact .sleep _ delayed hq hp hd (not_le.mp hdue) rfl rfl rfl
      | cons entry rest =>
        simp only [takePending, hp]
        exact .immediate _ entry.1 entry.2 rest hq hp rfl rfl

end Pending

/-! ## Threads -/

/-- Where the worker stands in `ProcessTasks` and the `GetNextTask` and `Wait` it calls. -/
inductive Worker (α : Type*)
  /-- At the head of the loop, about to read the clock. -/
  | readTick
  /-- In `GetNextTask`, about to take `pending_lock_`. -/
  | takeLock (tickUs : ℤ)
  /-- Running a task. -/
  | running (task : α)
  /-- About to call `flag_notify_.Wait`. -/
  | enterWait (tickUs : ℤ) (sleepTime : TimeDelta)
  /-- In `flag_notify_.Wait`, which it entered at `startUs`. -/
  | waiting (tickUs : ℤ) (sleepTime : TimeDelta) (startUs : ℤ)
  /-- Out of the loop. -/
  | finished

/-- Where a calling thread stands. -/
inductive Caller (α : Type*)
  /-- Not in a call. -/
  | idle
  /-- In `PostDelayedTask`, with `next_fire_at_us` computed. -/
  | pushDelayed (nextFireAtUs : ℤ) (task : α)
  /-- In `PostTask` or `PostDelayedTask`, with the lock released and `NotifyWake` to come. -/
  | notifyWake
  /-- In `Delete`, with the lock released and `NotifyWake` to come. -/
  | deleteNotifyWake

/-- The calls a thread can make. -/
inductive Call (α : Type*)
  | postTask (task : α)
  | postDelayedTask (task : α) (delay : TimeDelta)
  | delete

/-- Which party moves. -/
inductive Action (ι α : Type*)
  /-- Time passes. -/
  | tick (dt : ℕ)
  /-- A caller starts a call. -/
  | call (i : ι) (c : Call α)
  /-- A caller takes the next step of its call. -/
  | resume (i : ι)
  /-- The worker takes its next step. -/
  | work
  /-- The worker's wait gives up. -/
  | timeout

/-- The queue, its threads and the clock. -/
structure State (ι α : Type*) where
  /-- The members guarded by `pending_lock_`. -/
  pending : Pending α
  /-- Whether `flag_notify_` is signalled. -/
  flagNotify : Bool
  /-- `rtc::TimeMicros()`. -/
  clock : ℤ
  /-- The worker. -/
  worker : Worker α
  /-- The calling threads. -/
  callers : ι → Caller α

namespace State

/-- What `ProcessTasks` does with the task it got. -/
def processTask (tickUs : ℤ) (task : NextTask α) : Worker α :=
  if task.finalTask then .finished
  else
    match task.runTask with
    | some run => .running run
    | none => .enterWait tickUs task.sleepTime

variable [DecidableEq ι]

/-- Move one caller. -/
def setCaller (s : State ι α) (i : ι) (c : Caller α) : State ι α :=
  { s with callers := Function.update s.callers i c }

@[simp] theorem setCaller_self (s : State ι α) (i : ι) (c : Caller α) :
    (s.setCaller i c).callers i = c :=
  Function.update_self ..

theorem setCaller_of_ne (s : State ι α) {i j : ι} (c : Caller α) (h : j ≠ i) :
    (s.setCaller i c).callers j = s.callers j :=
  Function.update_of_ne h ..

/-- The first step of a call, by a thread that is in none. -/
def call (s : State ι α) (i : ι) : Call α → State ι α × List (Observation α)
  | .postTask task =>
    let (pending, out) := s.pending.postTask task
    ({ s with pending := pending }.setCaller i .notifyWake, out)
  | .postDelayedTask task delay =>
    (s.setCaller i (.pushDelayed (s.clock + delay.us) task), [])
  | .delete =>
    ({ s with pending := { s.pending with threadShouldQuit := true } }.setCaller i
      .deleteNotifyWake, [])

/-- The next step of the call a thread is in. -/
def resume (s : State ι α) (i : ι) : Option (State ι α × List (Observation α)) :=
  match s.callers i with
  | .idle => none
  | .pushDelayed nextFireAtUs task =>
    let (pending, out) := s.pending.postDelayedTask nextFireAtUs task
    some ({ s with pending := pending }.setCaller i .notifyWake, out)
  | .notifyWake => some ({ s with flagNotify := true }.setCaller i .idle, [])
  | .deleteNotifyWake => some ({ s with flagNotify := true }.setCaller i .idle, [])

omit [DecidableEq ι] in
/-- The next step of the worker. A wait returns when the event is signalled, and resets it. -/
def work (s : State ι α) : Option (State ι α × List (Observation α)) :=
  match s.worker with
  | .readTick => some ({ s with worker := .takeLock s.clock }, [])
  | .takeLock tickUs =>
    let (task, pending, out) := s.pending.getNextTask tickUs
    some ({ s with pending := pending, worker := processTask tickUs task }, out)
  | .running _ => some ({ s with worker := .readTick }, [])
  | .enterWait tickUs sleepTime =>
    some ({ s with worker := .waiting tickUs sleepTime s.clock }, [])
  | .waiting _ _ _ =>
    if s.flagNotify then some ({ s with flagNotify := false, worker := .readTick }, []) else none
  | .finished => none

omit [DecidableEq ι] in
/-- A bounded wait gives up once its time has passed, and leaves the event as it is. -/
def timeout (s : State ι α) : Option (State ι α × List (Observation α)) :=
  match s.worker with
  | .waiting _ sleepTime startUs =>
    if sleepTime.isPlusInfinity = false ∧ startUs + sleepTime.us ≤ s.clock then
      some ({ s with worker := .readTick }, [])
    else none
  | _ => none

/-- One step of the queue. -/
def step (s : State ι α) : Action ι α → Option (State ι α × List (Observation α))
  | .tick dt => some ({ s with clock := s.clock + dt }, [])
  | .call i c =>
    match s.callers i with
    | .idle => some (s.call i c)
    | _ => none
  | .resume i => s.resume i
  | .work => s.work
  | .timeout => s.timeout

end State

/-- The queue just constructed, with the clock anywhere. -/
def State.initial (clock : ℤ) : State ι α :=
  ⟨Pending.initial, false, clock, .readTick, fun _ => .idle⟩

/-- `TaskQueueStdlib` as a machine. -/
def machine (ι α : Type*) [DecidableEq ι] : Machine (State ι α) (Action ι α) (Observation α) where
  start s := ∃ clock, s = State.initial clock
  step := State.step

/-! ## What a step can do -/

/-- Every step of the queue, with what enabled it. -/
inductive Moved [DecidableEq ι] (s : State ι α) : State ι α × List (Observation α) → Prop
  | tick (dt : ℕ) : Moved s ({ s with clock := s.clock + dt }, [])
  | postTask {i : ι} (task : α) : s.callers i = .idle →
      Moved s ({ s with pending := (s.pending.postTask task).1 }.setCaller i .notifyWake,
        (s.pending.postTask task).2)
  | readClock {i : ι} (task : α) (delay : TimeDelta) : s.callers i = .idle →
      Moved s (s.setCaller i (.pushDelayed (s.clock + delay.us) task), [])
  | delete {i : ι} : s.callers i = .idle →
      Moved s ({ s with pending := { s.pending with threadShouldQuit := true } }.setCaller i
        .deleteNotifyWake, [])
  | pushDelayed {i : ι} {fire : ℤ} {task : α} : s.callers i = .pushDelayed fire task →
      Moved s ({ s with pending := (s.pending.postDelayedTask fire task).1 }.setCaller i
        .notifyWake, (s.pending.postDelayedTask fire task).2)
  | notify {i : ι} : s.callers i = .notifyWake ∨ s.callers i = .deleteNotifyWake →
      Moved s ({ s with flagNotify := true }.setCaller i .idle, [])
  | readTick : s.worker = .readTick → Moved s ({ s with worker := .takeLock s.clock }, [])
  | takeLock {tickUs : ℤ} (r : NextTask α × Pending α × List (Observation α)) :
      s.worker = .takeLock tickUs → Pending.GotNext s.pending tickUs r →
      Moved s ({ s with pending := r.2.1, worker := State.processTask tickUs r.1 }, r.2.2)
  | ran {task : α} : s.worker = .running task → Moved s ({ s with worker := .readTick }, [])
  | enterWait {tickUs : ℤ} {sleepTime : TimeDelta} : s.worker = .enterWait tickUs sleepTime →
      Moved s ({ s with worker := .waiting tickUs sleepTime s.clock }, [])
  | woken {tickUs : ℤ} {sleepTime : TimeDelta} {startUs : ℤ} :
      s.worker = .waiting tickUs sleepTime startUs → s.flagNotify = true →
      Moved s ({ s with flagNotify := false, worker := .readTick }, [])
  | timeout {tickUs : ℤ} {sleepTime : TimeDelta} {startUs : ℤ} :
      s.worker = .waiting tickUs sleepTime startUs → Moved s ({ s with worker := .readTick }, [])

theorem step_cases [DecidableEq ι] {s : State ι α} {a : Action ι α}
    {r : State ι α × List (Observation α)} (h : s.step a = some r) : Moved s r := by
  cases a with
  | tick dt => cases h; exact .tick dt
  | call i c =>
    simp only [State.step] at h
    split at h
    · rename_i hi
      cases h
      cases c with
      | postTask task => exact .postTask task hi
      | postDelayedTask task delay => exact .readClock task delay hi
      | delete => exact .delete hi
    · cases h
  | resume i =>
    simp only [State.step, State.resume] at h
    split at h
    · cases h
    · rename_i hi; cases h; exact .pushDelayed hi
    · rename_i hi; cases h; exact .notify (.inl hi)
    · rename_i hi; cases h; exact .notify (.inr hi)
  | work =>
    simp only [State.step, State.work] at h
    split at h
    · rename_i hw; cases h; exact .readTick hw
    · rename_i tickUs hw; cases h; exact .takeLock _ hw (s.pending.getNextTask_cases tickUs)
    · rename_i hw; cases h; exact .ran hw
    · rename_i hw; cases h; exact .enterWait hw
    · rename_i hw
      split at h
      · rename_i hf; cases h; exact .woken hw hf
      · cases h
    · cases h
  | timeout =>
    simp only [State.step, State.timeout] at h
    split at h
    · rename_i hw
      split at h
      · cases h; exact .timeout hw
      · cases h
    · cases h

end TaskQueueStdlib

end TQLib
