import TQLib.Foundations.BinaryHeap
import TQLib.Foundations.TimedQueue
import TQLib.Units.Time

/-!
# `TaskQueueWin`

The queue of `rtc_base/task_queue_win.cc`: one worker thread, any number of posting threads, a
mutex, a manual-reset event, the message queue of the worker's thread and two kinds of timers.

Immediate tasks go through `pending_` and `in_queue_`. The lock is modelled, because a poster pushes
and signals in two steps while it holds it; the worker's critical section has one access and is one
step. Delayed tasks are posted as messages and end up in `timer_tasks_`, which only the worker
touches. What the worker does between two accesses to shared state is one step: running a due task
and popping it, reading the clock and starting a timer.

The system answers as it is documented to. `timeSetEvent` and `SetTimer` return `0` when they fail
and otherwise an id that is not in use; a timer goes off at any time after it is due; a `WM_TIMER`
is handed out at any time after it has been posted, and `KillTimer` does not take it back. The wait
returns for the first handle that is signalled, and for messages only if one has arrived since the
last call of `PeekMessage`. The clock reads a finite `Timestamp`.

Left out are the start of the thread, before which nobody can post, and the messages of windows that
tasks may have created, except that they arrive and are dispatched.
-/

namespace TQLib

namespace TaskQueueWin

variable {ι α : Type*}

/-! ## Delayed tasks -/

/-- `DelayedTaskInfo`. -/
structure DelayedTaskInfo (α : Type*) where
  /-- `due_time_`. -/
  dueTime : Timestamp
  /-- `task_`. -/
  task : α
  deriving DecidableEq

/-- `std::greater<DelayedTaskInfo>`, which makes the top the entry that is due first. -/
def greater (α : Type*) : WeakOrder (DelayedTaskInfo α) where
  lt a b := decide (a.dueTime.us > b.dueTime.us)
  asymm a b h := by
    simp only [gt_iff_lt, decide_eq_true_eq, decide_eq_false_iff_not] at h ⊢
    omega
  negTrans a b c h h' := by
    simp only [gt_iff_lt, decide_eq_false_iff_not] at h h' ⊢
    omega

/-- `timer_tasks_`. -/
abbrev TimerTasks (α : Type*) := PriorityQueue (greater α)

/-- What a run shows. -/
abbrev Observation (α : Type*) := TimedEvent α (DelayedTaskInfo α) ℤ

/-! ## Timers -/

/-- A timer of the system, from the moment it is set until it is killed. -/
structure Timer where
  /-- Its id, which is not `0`. -/
  id : ℕ
  /-- When it was set. -/
  start : Timestamp
  /-- How many milliseconds later it is due. -/
  delayMs : ℤ
  /-- Whether it has gone off. Only a multimedia timer remembers. -/
  expired : Bool
  deriving DecidableEq

/-- When the timer is due. -/
def Timer.dueUs (t : Timer) : ℤ := t.start.us + t.delayMs * 1000

/-- The timers of a queue, and what the queue knows of them. -/
structure Timers where
  /-- `timer_id_` of `timer_`. -/
  multimediaId : ℕ
  /-- `event_` of `timer_`. -/
  event : Bool
  /-- `timer_id_`. -/
  timerId : ℕ
  /-- The multimedia timers that are set. -/
  multimedia : List Timer
  /-- The timers that are set with `SetTimer`. -/
  window : List Timer
  /-- The `WM_TIMER` messages in the queue, each with the id of its timer. -/
  wmTimers : List ℕ

namespace Timers

/-- No timers. -/
def initial : Timers := ⟨0, false, 0, [], [], []⟩

/-- `MultimediaTimer::Cancel`. -/
def cancel (t : Timers) : Timers :=
  if t.multimediaId ≠ 0 then
    { t with
      multimedia := t.multimedia.filter fun timer => timer.id ≠ t.multimediaId
      multimediaId := 0
      event := false }
  else { t with event := false }

/-- `::KillTimer` followed by `timer_id_ = 0`. -/
def killTimer (t : Timers) (id : ℕ) : Timers :=
  { t with window := t.window.filter fun timer => timer.id ≠ id, timerId := 0 }

/-- `CancelTimers`. -/
def cancelTimers (t : Timers) : Timers :=
  let t := t.cancel
  if t.timerId ≠ 0 then t.killTimer t.timerId else t

/-- What `timeSetEvent` and `SetTimer` can return. -/
def IsAnswer (timers : List Timer) (id : ℕ) : Prop := id = 0 ∨ ∀ timer ∈ timers, timer.id ≠ id

instance (timers : List Timer) (id : ℕ) : Decidable (IsAnswer timers id) :=
  inferInstanceAs (Decidable (_ ∨ _))

/-- The end of `ScheduleNextTimer`: `StartOneShotTimer`, for which `timeSetEvent` returns
`multimediaId`, and if it fails `SetTimer`, which returns `timerId`. -/
def start (t : Timers) (now : Timestamp) (milliseconds : ℤ) (multimediaId timerId : ℕ) : Timers :=
  if multimediaId ≠ 0 then
    { t with
      multimediaId := multimediaId
      multimedia := t.multimedia ++ [⟨multimediaId, now, milliseconds, false⟩] }
  else if timerId ≠ 0 then
    { t with
      multimediaId := 0
      timerId := timerId
      window := t.window ++ [⟨timerId, now, milliseconds, false⟩] }
  else { t with multimediaId := 0, timerId := 0 }

/-- A multimedia timer that is due goes off, once. -/
def expireMultimedia (t : Timers) (k : ℕ) (clock : Timestamp) : Option Timers :=
  match t.multimedia[k]? with
  | none => none
  | some timer =>
    if timer.expired = false ∧ timer.dueUs ≤ clock.us then
      some { t with
        event := true
        multimedia := t.multimedia.set k { timer with expired := true } }
    else none

/-- A timer set with `SetTimer` that is due posts a message. -/
def expireWindow (t : Timers) (k : ℕ) (clock : Timestamp) : Option Timers :=
  match t.window[k]? with
  | none => none
  | some timer =>
    if timer.dueUs ≤ clock.us then some { t with wmTimers := t.wmTimers ++ [timer.id] } else none

end Timers

/-- The delay `ScheduleNextTimer` asks for, before it is rounded. -/
def timerDelay (dueTime now : Timestamp) : TimeDelta := TimeDelta.zero.max (dueTime.sub now)

/-- The delay `ScheduleNextTimer` asks for. -/
def milliseconds (dueTime now : Timestamp) : ℤ :=
  staticCastUnsigned 32 ((timerDelay dueTime now).roundUpTo (TimeDelta.millis 1)).ms

/-! ## The parties -/

/-- A message in the queue of the worker's thread, `WM_TIMER` apart. -/
inductive Message (α : Type*)
  /-- `WM_QUEUE_DELAYED_TASK`. -/
  | queueDelayedTask (info : DelayedTaskInfo α)
  /-- `WM_QUIT`. -/
  | quit
  /-- Any other message. -/
  | other

/-- What `MsgWaitForMultipleObjectsEx` returns: `WAIT_OBJECT_0` and so on. -/
inductive WaitResult
  | timer
  | inQueue
  | messages
  deriving DecidableEq

/-- Where `RunDueTasks` and `ScheduleNextTimer` are called from. -/
inductive Caller
  /-- `ProcessQueuedMessages`, which took its `start`. -/
  | processQueuedMessages (start : Timestamp)
  /-- `RunThreadMain`, after a wait. -/
  | runThreadMain (result : WaitResult)

/-- Where the worker stands. -/
inductive Worker (α : Type*)
  /-- In `MsgWaitForMultipleObjectsEx`. -/
  | wait
  /-- In `ProcessQueuedMessages`, about to call `PeekMessage`. -/
  | peek (start : Timestamp)
  /-- In `ProcessQueuedMessages`, with a `WM_QUEUE_DELAYED_TASK`. -/
  | queueDelayedTask (start : Timestamp) (info : DelayedTaskInfo α)
  /-- In `ProcessQueuedMessages`, with a `WM_TIMER`. -/
  | timer (start : Timestamp) (id : ℕ)
  /-- In `ProcessQueuedMessages`, about to compare the time with the limit. -/
  | limit (start : Timestamp)
  /-- In `RunThreadMain`, before the look at the multimedia timer. -/
  | checkTimer (result : WaitResult)
  /-- In `RunThreadMain`, after the look at the multimedia timer. -/
  | checkInQueue (result : WaitResult)
  /-- In `RunPendingTasks`, about to take the lock. -/
  | runPendingTasks
  /-- In `RunPendingTasks`, about to run a task. -/
  | runTask (task : α)
  /-- At the top of the loop of `RunDueTasks`, which took its `now`. -/
  | runDueTasks (now : Timestamp) (caller : Caller)
  /-- In `ScheduleNextTimer`. -/
  | scheduleNextTimer (caller : Caller)
  /-- Beyond `top()` of an empty `timer_tasks_`, which has no defined behaviour. -/
  | undefined
  /-- Finished. -/
  | finished

/-- Where the worker goes on when a call returns. -/
def Caller.resume : Caller → Worker α
  | .processQueuedMessages start => .limit start
  | .runThreadMain result => .checkInQueue result

/-- Where a posting thread stands. -/
inductive Poster (α : Type*)
  /-- In no call. -/
  | idle
  /-- In `PostTask`, about to take `pending_lock_`. -/
  | push (task : α)
  /-- In `PostTask`, holding the lock, about to signal. -/
  | setEvent
  /-- In `PostDelayedTask`, about to post its message. -/
  | postMessage (info : DelayedTaskInfo α)

/-- The calls a thread can make. -/
inductive Call (α : Type*)
  | postTask (task : α)
  | postDelayedTask (task : α) (delay : TimeDelta)
  | delete

/-- Which party moves, and what the system answers. -/
inductive Action (ι α : Type*)
  /-- Time passes. -/
  | tick (dt : ℕ)
  /-- A thread starts a call. -/
  | call (i : ι) (c : Call α)
  /-- A thread takes the next step of its call. -/
  | resume (i : ι)
  /-- The `PostThreadMessage` of a thread fails. -/
  | noQuota (i : ι)
  /-- A message that is not the queue's own arrives. -/
  | message
  /-- A multimedia timer goes off. -/
  | expireMultimedia (k : ℕ)
  /-- A timer set with `SetTimer` goes off. -/
  | expireWindow (k : ℕ)
  /-- The worker takes its next step. -/
  | work
  /-- The worker's `PeekMessage` hands out a `WM_TIMER`. -/
  | peekTimer (k : ℕ)
  /-- The worker sets a timer, and the system returns these ids. -/
  | start (multimediaId timerId : ℕ)

/-- The queue, its threads, its timers and the clock. -/
structure State (ι α : Type*) where
  /-- `pending_`. -/
  pending : List α
  /-- The poster that holds `pending_lock_`. -/
  pendingLock : Option ι
  /-- `in_queue_`. -/
  inQueue : Bool
  /-- The messages in the worker's queue, first in front. -/
  messages : List (Message α)
  /-- Whether a message has arrived since the last call of `PeekMessage`. -/
  newInput : Bool
  /-- `timer_tasks_`. -/
  timerTasks : TimerTasks α
  /-- The timers. -/
  timers : Timers
  /-- `CurrentTime()`. -/
  clock : Timestamp
  /-- The worker. -/
  worker : Worker α
  /-- The posting threads. -/
  posters : ι → Poster α

/-- The queue just constructed. -/
def State.initial (clock : Timestamp) : State ι α :=
  ⟨[], none, false, [], false, .empty, .initial, clock, .wait, fun _ => .idle⟩

/-! ## The steps -/

namespace State

section Posters

variable [DecidableEq ι]

/-- Move one poster. -/
def setPoster (s : State ι α) (i : ι) (p : Poster α) : State ι α :=
  { s with posters := Function.update s.posters i p }

/-- The first step of a call, by a thread that is in none. -/
def call (s : State ι α) (i : ι) : Call α → State ι α
  | .postTask task => s.setPoster i (.push task)
  | .postDelayedTask task delay =>
    if delay.us ≤ TimeDelta.zero.us then s.setPoster i (.push task)
    else s.setPoster i (.postMessage ⟨s.clock.add delay, task⟩)
  | .delete => { s with messages := s.messages ++ [Message.quit], newInput := true }

/-- The next step of the call a thread is in. -/
def resume (s : State ι α) (i : ι) : Option (State ι α × List (Observation α)) :=
  match s.posters i with
  | .idle => none
  | .push task =>
    match s.pendingLock with
    | some _ => none
    | none => some ({ s with pending := s.pending ++ [task], pendingLock := some i }.setPoster i
        .setEvent, [.post task])
  | .setEvent => some ({ s with inQueue := true, pendingLock := none }.setPoster i .idle, [])
  | .postMessage info =>
    some ({ s with
      messages := s.messages ++ [Message.queueDelayedTask info]
      newInput := true }.setPoster i .idle, [.delay info])

end Posters

/-- `MsgWaitForMultipleObjectsEx`, as far as `start` of `ProcessQueuedMessages` if it returns for
messages. -/
def wait (s : State ι α) : Option (Worker α) :=
  if s.timers.event then some (.checkTimer .timer)
  else if s.inQueue then some (.checkTimer .inQueue)
  else if s.newInput then some (.peek s.clock)
  else none

/-- `PeekMessage` with no `WM_TIMER` to hand out. -/
def peek (s : State ι α) (start : Timestamp) : Option (State ι α × List (Observation α)) :=
  match s.messages with
  | .queueDelayedTask info :: rest =>
    some ({ s with
      messages := rest, newInput := false, worker := .queueDelayedTask start info }, [])
  | .quit :: rest =>
    some ({ s with messages := rest, newInput := false, worker := .finished }, [.stop])
  | .other :: rest =>
    some ({ s with messages := rest, newInput := false, worker := .limit start }, [])
  | [] =>
    if s.timers.wmTimers.isEmpty then
      some ({ s with newInput := false, worker := .checkTimer .messages }, [])
    else none

/-- `PeekMessage` hands out a `WM_TIMER`. -/
def peekTimer (s : State ι α) (k : ℕ) : Option (State ι α × List (Observation α)) :=
  match s.worker, s.timers.wmTimers[k]? with
  | .peek start, some id =>
    some ({ s with
      timers := { s.timers with wmTimers := s.timers.wmTimers.eraseIdx k }
      newInput := false
      worker := .timer start id }, [])
  | _, _ => none

/-- `need_to_schedule_timers`. -/
def needToScheduleTimers (timerTasks : TimerTasks α) (info : DelayedTaskInfo α) : Bool :=
  match timerTasks.top? with
  | none => true
  | some top => decide (top.dueTime.us > info.dueTime.us)

/-- What `ProcessQueuedMessages` does with a `WM_QUEUE_DELAYED_TASK`. -/
def queueDelayedTask (s : State ι α) (start : Timestamp) (info : DelayedTaskInfo α) : State ι α :=
  if needToScheduleTimers s.timerTasks info then
    { s with
      timerTasks := s.timerTasks.push info
      timers := s.timers.cancelTimers
      worker := .scheduleNextTimer (.processQueuedMessages start) }
  else { s with timerTasks := s.timerTasks.push info, worker := .limit start }

/-- `kMaxTaskProcessingTime`. -/
def kMaxTaskProcessingTime : TimeDelta := TimeDelta.millis 500

/-- Once round the loop of `RunDueTasks`. -/
def runDueTasks (s : State ι α) (now : Timestamp) (caller : Caller) :
    State ι α × List (Observation α) :=
  match s.timerTasks.top? with
  | none => ({ s with worker := .undefined }, [])
  | some top =>
    if top.dueTime.us > now.us then ({ s with worker := .scheduleNextTimer caller }, [])
    else
      let timerTasks := s.timerTasks.pop
      ({ s with
        timerTasks := timerTasks
        worker := if timerTasks.top?.isSome then .runDueTasks now caller
          else .scheduleNextTimer caller }, [.expire top now.us])

/-- `RunPendingTasks`, once round the loop as far as the unlock. -/
def popPending (s : State ι α) : Option (State ι α) :=
  match s.pendingLock, s.pending with
  | some _, _ => none
  | none, [] => some { s with worker := .wait }
  | none, task :: rest => some { s with pending := rest, worker := .runTask task }

/-- The next step of the worker. -/
def work (s : State ι α) : Option (State ι α × List (Observation α)) :=
  match s.worker with
  | .wait => s.wait.map fun worker => ({ s with worker := worker }, [])
  | .peek start => s.peek start
  | .queueDelayedTask start info => some (s.queueDelayedTask start info, [])
  | .timer start id =>
    some ({ s with
      timers := s.timers.killTimer id
      worker := .runDueTasks s.clock (.processQueuedMessages start) }, [])
  | .limit start =>
    if s.clock.us > (start.add kMaxTaskProcessingTime).us then
      some ({ s with worker := .checkTimer .messages }, [])
    else some ({ s with worker := .peek start }, [])
  | .checkTimer result =>
    if result = .timer ∨ (s.timerTasks.top?.isSome ∧ s.timers.event) then
      some ({ s with
        timers := s.timers.cancel
        worker := .runDueTasks s.clock (.runThreadMain result) }, [])
    else some ({ s with worker := .checkInQueue result }, [])
  | .checkInQueue result =>
    if result = .inQueue then some ({ s with inQueue := false, worker := .runPendingTasks }, [])
    else some ({ s with worker := .wait }, [])
  | .runPendingTasks => s.popPending.map fun s' => (s', [])
  | .runTask task => some ({ s with worker := .runPendingTasks }, [.take task])
  | .runDueTasks now caller => some (s.runDueTasks now caller)
  | .scheduleNextTimer caller =>
    match s.timerTasks.top? with
    | none => some ({ s with worker := caller.resume }, [])
    | some _ => none
  | .undefined => none
  | .finished => none

/-- `ScheduleNextTimer` with a task to schedule for. -/
def start (s : State ι α) (multimediaId timerId : ℕ) : Option (State ι α × List (Observation α)) :=
  match s.worker, s.timerTasks.top? with
  | .scheduleNextTimer caller, some nextTask =>
    if Timers.IsAnswer s.timers.multimedia multimediaId ∧
        Timers.IsAnswer s.timers.window timerId then
      some ({ s with
        timers := s.timers.start s.clock (milliseconds nextTask.dueTime s.clock) multimediaId
          timerId
        worker := caller.resume }, [])
    else none
  | _, _ => none

/-- One step of the queue. -/
def step [DecidableEq ι] (s : State ι α) : Action ι α → Option (State ι α × List (Observation α))
  | .tick dt =>
    let clock : Timestamp := ⟨s.clock.us + dt⟩
    if clock.us < TimeDelta.plusInfinityVal then some ({ s with clock := clock }, []) else none
  | .call i c =>
    match s.posters i with
    | .idle => some (s.call i c, [])
    | _ => none
  | .resume i => s.resume i
  | .noQuota i =>
    match s.posters i with
    | .postMessage _ => some (s.setPoster i .idle, [])
    | _ => none
  | .message => some ({ s with messages := s.messages ++ [Message.other], newInput := true }, [])
  | .expireMultimedia k =>
    (s.timers.expireMultimedia k s.clock).map fun timers => ({ s with timers := timers }, [])
  | .expireWindow k =>
    (s.timers.expireWindow k s.clock).map fun timers =>
      ({ s with timers := timers, newInput := true }, [])
  | .work => s.work
  | .peekTimer k => s.peekTimer k
  | .start multimediaId timerId => s.start multimediaId timerId

end State

/-- `TaskQueueWin` as a machine. -/
def machine (ι α : Type*) [DecidableEq ι] : Machine (State ι α) (Action ι α) (Observation α) where
  start s := ∃ clock : Timestamp, TimeDelta.minusInfinityVal < clock.us ∧
    clock.us < TimeDelta.plusInfinityVal ∧ s = State.initial clock
  step := State.step

/-! ## What a step can do -/

/-- The steps by which the worker only goes on to another place, with what lets it. -/
inductive Walks (s : State ι α) : Worker α → Worker α → Prop
  | waitTimer : s.timers.event = true → Walks s .wait (.checkTimer .timer)
  | waitInQueue : s.inQueue = true → Walks s .wait (.checkTimer .inQueue)
  | waitMessages : s.newInput = true → Walks s .wait (.peek s.clock)
  | overLimit {start : Timestamp} : (start.add State.kMaxTaskProcessingTime).us < s.clock.us →
      Walks s (.limit start) (.checkTimer .messages)
  | underLimit {start : Timestamp} : Walks s (.limit start) (.peek start)
  | timerNotSignalled {result : WaitResult} : result ≠ .timer →
      Walks s (.checkTimer result) (.checkInQueue result)
  | again {result : WaitResult} : result ≠ .inQueue → Walks s (.checkInQueue result) .wait
  | drained : s.pendingLock = none → s.pending = [] → Walks s .runPendingTasks .wait
  | topOfEmpty {now : Timestamp} {caller : Caller} : s.timerTasks.top? = none →
      Walks s (.runDueTasks now caller) .undefined
  | notDue {now : Timestamp} {caller : Caller} {top : DelayedTaskInfo α} :
      s.timerTasks.top? = some top → now.us < top.dueTime.us →
      Walks s (.runDueTasks now caller) (.scheduleNextTimer caller)
  | noNextTask {caller : Caller} : s.timerTasks.top? = none →
      Walks s (.scheduleNextTimer caller) caller.resume

/-- Every step of the queue, with what enabled it. -/
inductive Moved [DecidableEq ι] (s : State ι α) :
    Action ι α → State ι α × List (Observation α) → Prop
  | tick {dt : ℕ} (clock : Timestamp) : s.clock.us ≤ clock.us →
      clock.us < TimeDelta.plusInfinityVal →
      Moved s (.tick dt) ({ s with clock := clock }, [])
  | move {a : Action ι α} (i : ι) (p : Poster α) : Moved s a (s.setPoster i p, [])
  | message {a : Action ι α} (m : Message α) : (∀ info, m ≠ .queueDelayedTask info) →
      Moved s a ({ s with messages := s.messages ++ [m], newInput := true }, [])
  | push {i : ι} {task : α} : s.posters i = .push task → s.pendingLock = none →
      Moved s (.resume i) ({ s with
        pending := s.pending ++ [task]
        pendingLock := some i }.setPoster i .setEvent, [.post task])
  | setEvent {i : ι} : s.posters i = .setEvent →
      Moved s (.resume i) ({ s with inQueue := true, pendingLock := none }.setPoster i .idle, [])
  | postMessage {i : ι} {info : DelayedTaskInfo α} : s.posters i = .postMessage info →
      Moved s (.resume i) ({ s with
        messages := s.messages ++ [Message.queueDelayedTask info]
        newInput := true }.setPoster i .idle, [.delay info])
  | expireMultimedia {k : ℕ} {timers : Timers} :
      s.timers.expireMultimedia k s.clock = some timers →
      Moved s (.expireMultimedia k) ({ s with timers := timers }, [])
  | expireWindow {k : ℕ} {timers : Timers} : s.timers.expireWindow k s.clock = some timers →
      Moved s (.expireWindow k) ({ s with timers := timers, newInput := true }, [])
  | walk {w w' : Worker α} : s.worker = w → Walks s w w' →
      Moved s .work ({ s with worker := w' }, [])
  | peekDelayedTask {start : Timestamp} {info : DelayedTaskInfo α} {rest : List (Message α)} :
      s.worker = .peek start → s.messages = .queueDelayedTask info :: rest →
      Moved s .work ({ s with
        messages := rest, newInput := false, worker := .queueDelayedTask start info }, [])
  | peekQuit {start : Timestamp} {rest : List (Message α)} :
      s.worker = .peek start → s.messages = .quit :: rest →
      Moved s .work ({ s with messages := rest, newInput := false, worker := .finished }, [.stop])
  | peekOther {start : Timestamp} {rest : List (Message α)} :
      s.worker = .peek start → s.messages = .other :: rest →
      Moved s .work ({ s with messages := rest, newInput := false, worker := .limit start }, [])
  | peekNothing {start : Timestamp} : s.worker = .peek start → s.messages = [] →
      s.timers.wmTimers = [] →
      Moved s .work ({ s with newInput := false, worker := .checkTimer .messages }, [])
  | peekTimer {start : Timestamp} {k id : ℕ} : s.worker = .peek start →
      s.timers.wmTimers[k]? = some id →
      Moved s (.peekTimer k) ({ s with
        timers := { s.timers with wmTimers := s.timers.wmTimers.eraseIdx k }
        newInput := false
        worker := .timer start id }, [])
  | queueFirst {start : Timestamp} {info : DelayedTaskInfo α} :
      s.worker = .queueDelayedTask start info →
      State.needToScheduleTimers s.timerTasks info = true →
      Moved s .work ({ s with
        timerTasks := s.timerTasks.push info
        timers := s.timers.cancelTimers
        worker := .scheduleNextTimer (.processQueuedMessages start) }, [])
  | queueLater {start : Timestamp} {info : DelayedTaskInfo α} :
      s.worker = .queueDelayedTask start info →
      State.needToScheduleTimers s.timerTasks info = false →
      Moved s .work ({ s with timerTasks := s.timerTasks.push info, worker := .limit start }, [])
  | timer {start : Timestamp} {id : ℕ} : s.worker = .timer start id →
      Moved s .work ({ s with
        timers := s.timers.killTimer id
        worker := .runDueTasks s.clock (.processQueuedMessages start) }, [])
  | timerSignalled {result : WaitResult} : s.worker = .checkTimer result →
      (result = .timer ∨ (s.timerTasks.top?.isSome = true ∧ s.timers.event = true)) →
      Moved s .work ({ s with
        timers := s.timers.cancel
        worker := .runDueTasks s.clock (.runThreadMain result) }, [])
  | resetEvent : s.worker = .checkInQueue .inQueue →
      Moved s .work ({ s with inQueue := false, worker := .runPendingTasks }, [])
  | popPending {task : α} {rest : List α} : s.worker = .runPendingTasks → s.pendingLock = none →
      s.pending = task :: rest →
      Moved s .work ({ s with pending := rest, worker := .runTask task }, [])
  | runTask {task : α} : s.worker = .runTask task →
      Moved s .work ({ s with worker := .runPendingTasks }, [.take task])
  | due {now : Timestamp} {caller : Caller} {top : DelayedTaskInfo α} :
      s.worker = .runDueTasks now caller → s.timerTasks.top? = some top →
      top.dueTime.us ≤ now.us →
      Moved s .work ({ s with
        timerTasks := s.timerTasks.pop
        worker := if s.timerTasks.pop.top?.isSome then .runDueTasks now caller
          else .scheduleNextTimer caller }, [.expire top now.us])
  | start {caller : Caller} {nextTask : DelayedTaskInfo α} {multimediaId timerId : ℕ} :
      s.worker = .scheduleNextTimer caller → s.timerTasks.top? = some nextTask →
      Timers.IsAnswer s.timers.multimedia multimediaId →
      Timers.IsAnswer s.timers.window timerId →
      Moved s (.start multimediaId timerId) ({ s with
        timers := s.timers.start s.clock (milliseconds nextTask.dueTime s.clock) multimediaId
          timerId
        worker := caller.resume }, [])

theorem State.wait_cases [DecidableEq ι] {s : State ι α} {worker : Worker α}
    (hw : s.worker = .wait) (h : s.wait = some worker) :
    Moved s .work ({ s with worker := worker }, []) := by
  simp only [State.wait] at h
  split at h
  · rename_i hevent; cases h; exact .walk hw (.waitTimer hevent)
  · split at h
    · rename_i hin; cases h; exact .walk hw (.waitInQueue hin)
    · split at h
      · rename_i hnew; cases h; exact .walk hw (.waitMessages hnew)
      · cases h

theorem State.peek_cases [DecidableEq ι] {s : State ι α} {start : Timestamp}
    {r : State ι α × List (Observation α)} (hw : s.worker = .peek start)
    (h : s.peek start = some r) : Moved s .work r := by
  simp only [State.peek] at h
  split at h
  · rename_i hm; cases h; exact .peekDelayedTask hw hm
  · rename_i hm; cases h; exact .peekQuit hw hm
  · rename_i hm; cases h; exact .peekOther hw hm
  · rename_i hm
    split at h
    · rename_i hempty; cases h; exact .peekNothing hw hm (List.isEmpty_iff.mp hempty)
    · cases h

theorem State.runDueTasks_cases [DecidableEq ι] {s : State ι α} {now : Timestamp}
    {caller : Caller} (hw : s.worker = .runDueTasks now caller) :
    Moved s .work (s.runDueTasks now caller) := by
  simp only [State.runDueTasks]
  split
  · rename_i htop; exact .walk hw (.topOfEmpty htop)
  · rename_i top htop
    split
    · rename_i hlt; exact .walk hw (.notDue htop hlt)
    · rename_i hle; exact .due hw htop (not_lt.mp hle)

theorem State.work_cases [DecidableEq ι] {s : State ι α} {r : State ι α × List (Observation α)}
    (h : s.work = some r) : Moved s .work r := by
  simp only [State.work] at h
  split at h
  · rename_i hw
    obtain ⟨worker, hwait, rfl⟩ := Option.map_eq_some_iff.mp h
    exact wait_cases hw hwait
  · rename_i hw; exact peek_cases hw h
  · rename_i hw
    cases h
    simp only [State.queueDelayedTask]
    split
    · rename_i hneed; exact .queueFirst hw hneed
    · rename_i hneed; exact .queueLater hw (Bool.not_eq_true _ ▸ hneed)
  · rename_i hw; cases h; exact .timer hw
  · rename_i hw
    split at h
    · rename_i hlimit; cases h; exact .walk hw (.overLimit hlimit)
    · cases h; exact .walk hw .underLimit
  · rename_i hw
    split at h
    · rename_i hsig; cases h; exact .timerSignalled hw hsig
    · rename_i hsig; cases h; exact .walk hw (.timerNotSignalled fun hr => hsig (.inl hr))
  · rename_i hw
    split at h
    · rename_i hr; cases h; exact .resetEvent (hr ▸ hw)
    · rename_i hr; cases h; exact .walk hw (.again hr)
  · rename_i hw
    obtain ⟨s', hpop, rfl⟩ := Option.map_eq_some_iff.mp h
    simp only [State.popPending] at hpop
    split at hpop
    · cases hpop
    · rename_i hl hp; cases hpop; exact .walk hw (.drained hl hp)
    · rename_i hl hp; cases hpop; exact .popPending hw hl hp
  · rename_i hw; cases h; exact .runTask hw
  · rename_i hw; cases h; exact runDueTasks_cases hw
  · rename_i hw
    split at h
    · rename_i htop; cases h; exact .walk hw (.noNextTask htop)
    · cases h
  · cases h
  · cases h

theorem step_cases [DecidableEq ι] {s : State ι α} {a : Action ι α}
    {r : State ι α × List (Observation α)} (h : s.step a = some r) : Moved s a r := by
  cases a with
  | tick dt =>
    simp only [State.step] at h
    split at h
    · rename_i hlt; cases h; exact .tick _ (by simp) hlt
    · cases h
  | call i c =>
    simp only [State.step] at h
    split at h
    · cases h
      cases c with
      | postTask task => exact .move _ _
      | postDelayedTask task delay =>
        simp only [State.call]
        split <;> exact .move _ _
      | delete => exact .message .quit (by simp)
    · cases h
  | resume i =>
    simp only [State.step, State.resume] at h
    split at h
    · cases h
    · rename_i hi
      split at h
      · cases h
      · rename_i hl; cases h; exact .push hi hl
    · rename_i hi; cases h; exact .setEvent hi
    · rename_i hi; cases h; exact .postMessage hi
  | noQuota i =>
    simp only [State.step] at h
    split at h
    · cases h; exact .move _ _
    · cases h
  | message => cases h; exact .message .other (by simp)
  | expireMultimedia k =>
    obtain ⟨timers, ht, rfl⟩ := Option.map_eq_some_iff.mp h
    exact .expireMultimedia ht
  | expireWindow k =>
    obtain ⟨timers, ht, rfl⟩ := Option.map_eq_some_iff.mp h
    exact .expireWindow ht
  | work => exact State.work_cases h
  | peekTimer k =>
    simp only [State.step, State.peekTimer] at h
    split at h
    · rename_i hw hk; cases h; exact .peekTimer hw hk
    · cases h
  | start multimediaId timerId =>
    simp only [State.step, State.start] at h
    split at h
    · rename_i hw htop
      split at h
      · rename_i hans; cases h; exact .start hw htop hans.1 hans.2
      · cases h
    · cases h

end TaskQueueWin

end TQLib
