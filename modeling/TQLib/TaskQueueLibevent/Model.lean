import TQLib.Foundations.TimedQueue
import TQLib.Units.Time

/-!
# `TaskQueueLibevent`

The queue of `rtc_base/task_queue_libevent.cc`: one worker thread that runs an event loop, any
number of posting threads, a mutex, a pipe and the timers of the event loop.

Pushing a task and writing to the pipe are two steps: the byte is written after `pending_lock_` has
been released, by the poster that found `pending_` empty. The worker reads one byte at a time, swaps
`pending_` out in a step of its own and then runs the tasks one by one. The pipe is a FIFO of bytes,
and the timers are a list from which the event loop picks any that is due.

A delayed task that is posted from another thread is an immediate task that starts a timer; one that
is posted by a task of the queue starts its timer at once.
-/

namespace TQLib

namespace TaskQueueLibevent

variable {ι α : Type*}

/-- What is written to the pipe. -/
inductive Message
  /-- `kQuit`. -/
  | quit
  /-- `kRunTasks`. -/
  | runTasks
  deriving DecidableEq

/-- What `pending_` holds. -/
inductive Task (α : Type*)
  /-- A task that was posted. -/
  | run (task : α)
  /-- The lambda `PostDelayedTask` posts from another thread. -/
  | delay (task : α) (delay : TimeDelta) (postedUs : ℤ)

/-- `TimerEvent`. -/
structure TimerEvent (α : Type*) where
  /-- When the event loop may run it. -/
  dueUs : ℤ
  /-- `task`. -/
  task : α

/-- What a run shows. -/
abbrev Observation (α : Type*) := TimedEvent (Task α) (TimerEvent α) ℤ

/-- The duration `event_add` is given: seconds and microseconds, each cast to an `int`. -/
def timeval (delay : TimeDelta) : ℤ :=
  staticCastSigned 32 (delay.us.tdiv 1000000) * 1000000 +
    staticCastSigned 32 (delay.us.tmod 1000000)

/-- The timer `PostDelayedTaskOnTaskQueue` starts. -/
def timerEvent (clock : ℤ) (task : α) (delay : TimeDelta) : TimerEvent α :=
  ⟨clock + timeval delay, task⟩

/-- The timer a task starts when it is run: its delay, less the time since it was posted. -/
def Task.timerEvent? (clock : ℤ) : Task α → Option (TimerEvent α)
  | .run _ => none
  | .delay task d postedUs =>
    let postTime : TimeDelta := ⟨clock - postedUs⟩
    some (timerEvent clock task ((d.sub postTime).max TimeDelta.zero))

/-- Where a posting thread stands. -/
inductive Poster (α : Type*)
  /-- In no call. -/
  | idle
  /-- In `PostTask`, about to take `pending_lock_`. -/
  | push (task : Task α)
  /-- In `PostTask`, with the lock released, about to write `kRunTasks`. -/
  | write

/-- Where the worker stands. -/
inductive Worker (α : Type*)
  /-- In `event_base_loop`. -/
  | loop
  /-- In `OnWakeup`, having read `kRunTasks`, about to take `pending_lock_`. -/
  | swap
  /-- In `OnWakeup`, with these tasks still to run. -/
  | runTasks (tasks : List (Task α))
  /-- In `RunTimer`. -/
  | runTimer (task : α)
  /-- Out of the event loop, with the timers still to be deleted. -/
  | exiting
  /-- Finished. -/
  | finished

/-- The calls a thread can make. -/
inductive Call (α : Type*)
  | postTask (task : α)
  | postDelayedTask (task : α) (delay : TimeDelta)
  | delete

/-- Which party moves. -/
inductive Action (ι α : Type*)
  /-- Time passes. -/
  | tick (dt : ℕ)
  /-- A thread starts a call. -/
  | call (i : ι) (c : Call α)
  /-- A thread takes the next step of its call. -/
  | resume (i : ι)
  /-- The worker takes its next step, or reads the pipe. -/
  | work
  /-- The event loop runs a timer. -/
  | timer (k : ℕ)
  /-- A task that the worker runs calls `PostDelayedTask`. -/
  | postDelayedOnTaskQueue (task : α) (delay : TimeDelta)

/-- The queue, its threads and the clock. -/
structure State (ι α : Type*) where
  /-- `pending_`. -/
  pending : List (Task α)
  /-- The bytes in the pipe, first in front. -/
  pipe : List Message
  /-- `is_active_`. -/
  isActive : Bool
  /-- `pending_timers_`. -/
  pendingTimers : List (TimerEvent α)
  /-- `rtc::TimeMicros()`. -/
  clock : ℤ
  /-- The worker. -/
  worker : Worker α
  /-- The posting threads. -/
  posters : ι → Poster α

/-- The queue just constructed, with the clock anywhere. -/
def State.initial (clock : ℤ) : State ι α := ⟨[], [], true, [], clock, .loop, fun _ => .idle⟩

namespace State

variable [DecidableEq ι]

/-- Move one poster. -/
def setPoster (s : State ι α) (i : ι) (p : Poster α) : State ι α :=
  { s with posters := Function.update s.posters i p }

/-- The first step of a call, by a thread that is in none. -/
def call (s : State ι α) (i : ι) : Call α → State ι α
  | .postTask task => s.setPoster i (.push (.run task))
  | .postDelayedTask task delay => s.setPoster i (.push (.delay task delay s.clock))
  | .delete => { s with pipe := s.pipe ++ [Message.quit] }

/-- The next step of the call a thread is in. -/
def resume (s : State ι α) (i : ι) : Option (State ι α × List (Observation α)) :=
  match s.posters i with
  | .idle => none
  | .push task =>
    let hadPendingTasks := !s.pending.isEmpty
    some ({ s with pending := s.pending ++ [task] }.setPoster i
      (if hadPendingTasks then .idle else .write), [.post task])
  | .write => some ({ s with pipe := s.pipe ++ [Message.runTasks] }.setPoster i .idle, [])

omit [DecidableEq ι] in
/-- `OnWakeup` as far as the read. -/
def read (s : State ι α) : Option (State ι α × List (Observation α)) :=
  match s.pipe with
  | [] => none
  | .quit :: rest => some ({ s with pipe := rest, isActive := false, worker := .exiting }, [.stop])
  | .runTasks :: rest => some ({ s with pipe := rest, worker := .swap }, [])

omit [DecidableEq ι] in
/-- The next step of the worker. -/
def work (s : State ι α) : Option (State ι α × List (Observation α)) :=
  match s.worker with
  | .loop => s.read
  | .swap => some ({ s with pending := [], worker := .runTasks s.pending }, [])
  | .runTasks [] => some ({ s with worker := .loop }, [])
  | .runTasks (task :: tasks) =>
    let started := (task.timerEvent? s.clock).toList
    some ({ s with pendingTimers := s.pendingTimers ++ started, worker := .runTasks tasks },
      .take task :: started.map .delay)
  | .runTimer _ => some ({ s with worker := .loop }, [])
  | .exiting =>
    some ({ s with pendingTimers := [], worker := .finished }, s.pendingTimers.map .drop)
  | .finished => none

omit [DecidableEq ι] in
/-- The event loop runs a timer that is due. It is taken off `pending_timers_` when its task starts:
nobody looks at the list before the task is over. -/
def timer (s : State ι α) (k : ℕ) : Option (State ι α × List (Observation α)) :=
  match s.worker, s.pendingTimers[k]? with
  | .loop, some timer =>
    if timer.dueUs ≤ s.clock then
      some ({ s with pendingTimers := s.pendingTimers.eraseIdx k, worker := .runTimer timer.task },
        [.expire timer s.clock])
    else none
  | _, _ => none

omit [DecidableEq ι] in
/-- Whether the worker runs a task. -/
def runsTask (s : State ι α) : Bool :=
  match s.worker with
  | .runTasks _ => true
  | .runTimer _ => true
  | _ => false

/-- One step of the queue. -/
def step (s : State ι α) : Action ι α → Option (State ι α × List (Observation α))
  | .tick dt => some ({ s with clock := s.clock + dt }, [])
  | .call i c =>
    match s.posters i with
    | .idle => some (s.call i c, [])
    | _ => none
  | .resume i => s.resume i
  | .work => s.work
  | .timer k => s.timer k
  | .postDelayedOnTaskQueue task delay =>
    if s.runsTask then
      some ({ s with pendingTimers := s.pendingTimers ++ [timerEvent s.clock task delay] },
        [.delay (timerEvent s.clock task delay)])
    else none

end State

/-- `TaskQueueLibevent` as a machine. -/
def machine (ι α : Type*) [DecidableEq ι] : Machine (State ι α) (Action ι α) (Observation α) where
  start s := ∃ clock, s = State.initial clock
  step := State.step

/-! ## What a step can do -/

/-- Every step of the queue, with what enabled it. -/
inductive Moved [DecidableEq ι] (s : State ι α) : State ι α × List (Observation α) → Prop
  | tick (dt : ℕ) : Moved s ({ s with clock := s.clock + dt }, [])
  | post {i : ι} (task : Task α) : s.posters i = .idle → Moved s (s.setPoster i (.push task), [])
  | delete : Moved s ({ s with pipe := s.pipe ++ [Message.quit] }, [])
  | pushFirst {i : ι} {task : Task α} : s.posters i = .push task → s.pending = [] →
      Moved s ({ s with pending := [task] }.setPoster i .write, [.post task])
  | push {i : ι} {task : Task α} : s.posters i = .push task → s.pending ≠ [] →
      Moved s ({ s with pending := s.pending ++ [task] }.setPoster i .idle, [.post task])
  | write {i : ι} : s.posters i = .write →
      Moved s ({ s with pipe := s.pipe ++ [Message.runTasks] }.setPoster i .idle, [])
  | readQuit {rest : List Message} : s.worker = .loop → s.pipe = .quit :: rest →
      Moved s ({ s with pipe := rest, isActive := false, worker := .exiting }, [.stop])
  | readRunTasks {rest : List Message} : s.worker = .loop → s.pipe = .runTasks :: rest →
      Moved s ({ s with pipe := rest, worker := .swap }, [])
  | swap : s.worker = .swap → Moved s ({ s with pending := [], worker := .runTasks s.pending }, [])
  | ranTasks : s.worker = .runTasks [] → Moved s ({ s with worker := .loop }, [])
  | runTask {task : Task α} {tasks : List (Task α)} (started : List (TimerEvent α)) :
      s.worker = .runTasks (task :: tasks) →
      Moved s ({ s with pendingTimers := s.pendingTimers ++ started, worker := .runTasks tasks },
        .take task :: started.map .delay)
  | ranTimer {task : α} : s.worker = .runTimer task → Moved s ({ s with worker := .loop }, [])
  | exit : s.worker = .exiting →
      Moved s ({ s with pendingTimers := [], worker := .finished }, s.pendingTimers.map .drop)
  | runTimer {k : ℕ} {timer : TimerEvent α} : s.worker = .loop →
      s.pendingTimers[k]? = some timer → timer.dueUs ≤ s.clock →
      Moved s ({ s with
        pendingTimers := s.pendingTimers.eraseIdx k, worker := .runTimer timer.task },
        [.expire timer s.clock])
  | startTimer (timer : TimerEvent α) : s.runsTask = true →
      Moved s ({ s with pendingTimers := s.pendingTimers ++ [timer] }, [.delay timer])

theorem step_cases [DecidableEq ι] {s : State ι α} {a : Action ι α}
    {r : State ι α × List (Observation α)} (h : s.step a = some r) : Moved s r := by
  cases a with
  | tick dt => cases h; exact .tick dt
  | call i c =>
    simp only [State.step] at h
    split at h
    · rename_i hi
      cases h
      cases c with
      | postTask task => exact .post _ hi
      | postDelayedTask task delay => exact .post _ hi
      | delete => exact .delete
    · cases h
  | resume i =>
    simp only [State.step, State.resume] at h
    split at h
    · cases h
    · rename_i task hi
      rcases hp : s.pending with _ | ⟨first, rest⟩
      · simp only [hp] at h
        cases h
        exact .pushFirst hi hp
      · simp only [hp] at h
        cases h
        have hne : s.pending ≠ [] := by simp [hp]
        have hpush := Moved.push hi hne
        rw [hp] at hpush
        exact hpush
    · rename_i hi; cases h; exact .write hi
  | work =>
    simp only [State.step, State.work] at h
    split at h
    · rename_i hw
      simp only [State.read] at h
      split at h
      · cases h
      · rename_i hp; cases h; exact .readQuit hw hp
      · rename_i hp; cases h; exact .readRunTasks hw hp
    · rename_i hw; cases h; exact .swap hw
    · rename_i hw; cases h; exact .ranTasks hw
    · rename_i hw; cases h; exact .runTask _ hw
    · rename_i hw; cases h; exact .ranTimer hw
    · rename_i hw; cases h; exact .exit hw
    · cases h
  | timer k =>
    simp only [State.step, State.timer] at h
    split at h
    · rename_i hw hk
      split at h
      · rename_i hdue; cases h; exact .runTimer hw hk hdue
      · cases h
    · cases h
  | postDelayedOnTaskQueue task delay =>
    simp only [State.step] at h
    split at h
    · rename_i hruns; cases h; exact .startTimer _ hruns
    · cases h

end TaskQueueLibevent

end TQLib
