import TQLib.Foundations.BinaryHeap
import TQLib.Foundations.TimedQueue
import TQLib.Units.Time

/-!
# `rtc::Thread`

The message queues of `rtc_base/thread.cc`, as a system of any number of `rtc::Thread`s (indexed by
`θ`) and of threads that have no `rtc::Thread` (indexed by `ι`). Every one of them is a `Party`
that may post to, quit or call any `rtc::Thread`.

The unit of interleaving is what other threads can tell apart: a critical section of `mutex_`, a
load or store of `stop_`, a reading of the clock, and an operation on the socket server or on
`done_event` are one step each.

An `rtc::Thread` is driven by its owner, which runs `ProcessMessages` and the `Get` and `Dispatch`
inside it. The owner makes calls of its own from the tasks it dispatches, from outside the loop, and
from the socket callbacks that `ss_->Wait` runs when it processes I/O. The socket server is sticky:
a `WakeUp` that finds nobody waiting ends the next `Wait`. `BlockingCall` waits on the socket server
of the calling thread, which is also the one its own `Get` waits on.

The clock is `rtc::TimeMillis()`, moved by the environment and never back. `stop_` is not reset:
a run is one life of the thread, from its construction to its destruction.

What a run shows is, for each thread, the history of a timed task queue (`TimedEvent`), the stores
of `stop_` and the returns of `Get` they cause, and for each party what becomes of its blocking
calls.
-/

namespace TQLib

namespace Thread

/-- `kForever`. -/
def kForever : ℤ := -1

/-! ## Tasks and messages -/

/-- Who runs code: the owner of an `rtc::Thread`, or a thread that has none. -/
inductive Party (θ ι : Type*)
  | thread (t : θ)
  | other (i : ι)
  deriving DecidableEq

/-- What `messages_` holds. -/
inductive Task (θ ι α : Type*)
  /-- A task that was posted. -/
  | run (functor : α)
  /-- The lambda `BlockingCall` posts: the functor and the cleanup of the call `caller` is in. -/
  | call (caller : Party θ ι)

/-- `DelayedMessage`. -/
structure DelayedMessage (α : Type*) where
  /-- `delay_ms`. -/
  delayMs : ℤ
  /-- `run_time_ms`. -/
  runTimeMs : ℤ
  /-- `message_number`. -/
  messageNumber : ℕ
  /-- `functor`. -/
  functor : α

variable {θ ι α : Type*}

/-- `operator<`: the message that is to run later is the smaller one. -/
def DelayedMessage.lt (m dmsg : DelayedMessage α) : Bool :=
  decide (dmsg.runTimeMs < m.runTimeMs) ||
    (decide (dmsg.runTimeMs = m.runTimeMs) && decide (dmsg.messageNumber < m.messageNumber))

theorem DelayedMessage.lt_iff {m m' : DelayedMessage α} :
    m.lt m' = true ↔ m'.runTimeMs < m.runTimeMs ∨
      m'.runTimeMs = m.runTimeMs ∧ m'.messageNumber < m.messageNumber := by
  simp [lt]

theorem DelayedMessage.lt_eq_false {m m' : DelayedMessage α} :
    m.lt m' = false ↔ ¬ (m'.runTimeMs < m.runTimeMs ∨
      m'.runTimeMs = m.runTimeMs ∧ m'.messageNumber < m.messageNumber) := by
  rw [← DelayedMessage.lt_iff, Bool.not_eq_true]

/-- The order of `delayed_messages_`. -/
def DelayedMessage.order (α : Type*) : WeakOrder (DelayedMessage α) where
  lt := DelayedMessage.lt
  asymm a b h := by
    rw [DelayedMessage.lt_iff] at h
    rw [DelayedMessage.lt_eq_false]
    omega
  negTrans a b c h h' := by
    rw [DelayedMessage.lt_eq_false] at h h' ⊢
    omega

/-! ## What `mutex_` guards -/

/-- What is seen of one message queue. -/
abbrev Event (θ ι α : Type*) := TimedEvent (Task θ ι α) (DelayedMessage α) ℤ

/-- The members guarded by `mutex_`. -/
structure Queue (θ ι α : Type*) where
  /-- `messages_`, front first. -/
  messages : List (Task θ ι α)
  /-- `delayed_messages_`. -/
  delayedMessages : PriorityQueue (DelayedMessage.order α)
  /-- `delayed_next_num_`. -/
  delayedNextNum : ℕ

namespace Queue

/-- The queue as it is constructed. -/
def initial : Queue θ ι α := ⟨[], PriorityQueue.empty, 0⟩

/-- The critical section of `PostTask`. -/
def postTask (q : Queue θ ι α) (task : Task θ ι α) : Queue θ ι α × List (Event θ ι α) :=
  ({ q with messages := q.messages ++ [task] }, [.post task])

/-- The message `PostDelayedHighPrecisionTask` builds. -/
def nextMessage (q : Queue θ ι α) (delayMs runTimeMs : ℤ) (task : α) : DelayedMessage α :=
  { delayMs, runTimeMs, messageNumber := q.delayedNextNum, functor := task }

/-- The critical section of `PostDelayedHighPrecisionTask`. `delayed_next_num_` is a `uint32_t`. -/
def postDelayedTask (q : Queue θ ι α) (delayMs runTimeMs : ℤ) (task : α) :
    Queue θ ι α × List (Event θ ι α) :=
  ({ q with
      delayedMessages := q.delayedMessages.push (q.nextMessage delayMs runTimeMs task)
      delayedNextNum := (q.delayedNextNum + 1) % 2 ^ 32 },
    [.delay (q.nextMessage delayMs runTimeMs task)])

/-- The loop of `Get` over the delayed messages that have been triggered, with `cmsDelayNext`. It
goes round at most once for each of them. -/
def getDelayed (msCurrent : ℤ) : ℕ → Queue θ ι α → ℤ × Queue θ ι α × List (Event θ ι α)
  | 0, q => (kForever, q, [])
  | fuel + 1, q =>
    match q.delayedMessages.top? with
    | none => (kForever, q, [])
    | some top =>
      if msCurrent < top.runTimeMs then (top.runTimeMs - msCurrent, q, [])
      else
        let (cmsDelayNext, q', out) := getDelayed msCurrent fuel
          { q with
            messages := q.messages ++ [.run top.functor]
            delayedMessages := q.delayedMessages.pop }
        (cmsDelayNext, q', .promote top msCurrent :: out)

/-- The critical section of `Get`: the delayed messages that are due join `messages_`, and its front
is taken if it has one. -/
def get (q : Queue θ ι α) (msCurrent : ℤ) :
    (ℤ × Option (Task θ ι α)) × Queue θ ι α × List (Event θ ι α) :=
  let (cmsDelayNext, q', out) := getDelayed msCurrent (q.delayedMessages.items.length + 1) q
  match q'.messages with
  | task :: rest => ((cmsDelayNext, some task), { q' with messages := rest }, out ++ [.take task])
  | [] => ((cmsDelayNext, none), q', out)

/-- One element of `messages_` is destroyed by `DoDestroy`, or `delayed_messages_` is once
`messages_` is empty. -/
def destroyNext (q : Queue θ ι α) : Option (Task θ ι α) × Queue θ ι α × List (Event θ ι α) :=
  match q.messages with
  | task :: rest => (some task, { q with messages := rest }, [.discard task])
  | [] =>
    (none, { q with delayedMessages := PriorityQueue.empty },
      q.delayedMessages.items.map fun message => .drop message)

end Queue

/-! ## Parties -/

/-- What is seen of the blocking calls of one party. -/
inductive CallEvent (θ : Type*)
  /-- `BlockingCall` on the thread `t` is entered. -/
  | enter (t : θ)
  /-- `BlockingCall` returns because it has found the thread `t` quitting. -/
  | giveUp (t : θ)
  /-- The task is pushed to the thread `t`. -/
  | post (t : θ)
  /-- The functor starts to run on the thread `t`. -/
  | run (t : θ)
  /-- The functor has finished. -/
  | finish
  /-- The task posted to the thread `t` starts to be destroyed without having been run. -/
  | destroyed (t : θ)
  /-- `ready` or `done_event` is set. -/
  | signal
  /-- `BlockingCall` returns in the end. -/
  | exit
  deriving DecidableEq

/-- What a run shows. -/
inductive Observation (θ ι α : Type*)
  /-- The message queue of a thread. -/
  | queue (t : θ) (e : Event θ ι α)
  /-- `stop_` of a thread is stored. -/
  | stop (t : θ)
  /-- `Get` returns no task because of `IsQuitting()`. -/
  | quitting (t : θ)
  /-- A blocking call of a party. -/
  | call (p : Party θ ι) (e : CallEvent θ)

/-- What is seen of blocking calls when a task starts to run on the thread `t`. -/
def Task.starts (t : θ) : Task θ ι α → List (Observation θ ι α)
  | .run _ => []
  | .call p => [.call p (.run t)]

/-- What is left of the destructor of the cleanup object of a blocking call. -/
inductive Cleanup (θ ι : Type*)
  /-- About to set `ready`, or the `done_event` of a party that has no `rtc::Thread`. -/
  | complete (caller : Party θ ι)
  /-- About to wake the socket server of the caller. -/
  | wakeUp (t : θ)

/-- What follows a step of the cleanup. -/
def Cleanup.next : Cleanup θ ι → Option (Cleanup θ ι)
  | .complete (.thread t) => some (.wakeUp t)
  | .complete (.other _) => none
  | .wakeUp _ => none

/-- What a party passes to `PostTask`. -/
inductive Post (α : Type*)
  /-- A task of its own. -/
  | task (task : α)
  /-- The lambda of the `BlockingCall` it is in. -/
  | blockingCall

/-- Whether the party goes on with a `BlockingCall` after `PostTask`. -/
def Post.isBlockingCall : Post α → Bool
  | .task _ => false
  | .blockingCall => true

/-- What a party pushes. -/
def Post.toTask (p : Party θ ι) : Post α → Task θ ι α
  | .task functor => .run functor
  | .blockingCall => .call p

/-- What is seen of blocking calls when a party has pushed to the thread `t`. -/
def Post.seen (p : Party θ ι) (t : θ) : Post α → List (Observation θ ι α)
  | .task _ => []
  | .blockingCall => [.call p (.post t)]

/-- Where a party stands in a call to an `rtc::Thread`. -/
inductive Client (θ α : Type*)
  /-- In no call. -/
  | idle
  /-- In `PostTask`, about to test `IsQuitting()`. -/
  | postTest (t : θ) (post : Post α)
  /-- In `PostTask`, about to take `mutex_`. -/
  | postPush (t : θ) (post : Post α)
  /-- In `PostDelayedHighPrecisionTask`, about to test `IsQuitting()`. -/
  | delayedTest (t : θ) (task : α) (delay : TimeDelta)
  /-- In `PostDelayedHighPrecisionTask`, about to read the clock. -/
  | delayedClock (t : θ) (task : α) (delay : TimeDelta)
  /-- In `PostDelayedHighPrecisionTask`, about to take `mutex_`. -/
  | delayedPush (t : θ) (task : α) (delayMs runTimeMs : ℤ)
  /-- In one of the two, with `mutex_` released and `WakeUpSocketServer` to come. -/
  | postWakeUp (t : θ) (blockingCall : Bool)
  /-- In `Quit`, with `stop_` stored and `WakeUpSocketServer` to come. -/
  | quitWakeUp (t : θ)
  /-- In `BlockingCall`, about to test `IsQuitting()`. -/
  | callTest (t : θ)
  /-- In the `PostTask` of a `BlockingCall`, destroying the task it refused. -/
  | refused (t : θ)
  /-- The same, with `ready` set and the socket server of the party to be woken. -/
  | refusedWakeUp (t : θ)
  /-- In `BlockingCall`, about to take `mutex_` and look at `ready`. -/
  | callCheck (t : θ) (waited : Bool)
  /-- In `BlockingCall`, in the `Wait` of its own socket server. -/
  | callWait (t : θ)
  /-- In `BlockingCall`, about to wake its own socket server. -/
  | callWakeUp (t : θ)
  /-- In `BlockingCall`, in the `Wait` of `done_event`. -/
  | doneWait (t : θ)

/-- How a party waits for the completion of its call. -/
def Client.await : Party θ ι → θ → Client θ α
  | .thread _, t => .callCheck t false
  | .other _, t => .doneWait t

/-- What follows the completion of a call by the party that makes it. -/
def Client.afterRefused : Party θ ι → θ → Client θ α
  | .thread _, t => .refusedWakeUp t
  | .other _, t => .doneWait t

/-- The locals of `ProcessMessages`. -/
structure Loop where
  /-- `cmsLoop`. -/
  cmsLoop : ℤ
  /-- `msEnd`. -/
  msEnd : ℤ

/-- The locals of `Get`. -/
structure GetFrame where
  /-- `cmsWait`, which is also `cmsTotal`. -/
  cmsWait : ℤ
  /-- `msStart`. -/
  msStart : ℤ
  /-- `msCurrent`. -/
  msCurrent : ℤ
  /-- `cmsElapsed`. -/
  cmsElapsed : ℤ

/-- `cmsNext`: which is shorter, the delay wait or the asked wait. -/
def GetFrame.cmsNext (g : GetFrame) (cmsDelayNext : ℤ) : ℤ :=
  if g.cmsWait = kForever then cmsDelayNext
  else
    let cmsNext := max 0 (g.cmsWait - g.cmsElapsed)
    if cmsDelayNext ≠ kForever ∧ cmsDelayNext < cmsNext then cmsDelayNext else cmsNext

/-- Where the owner of an `rtc::Thread` stands. -/
inductive Owner (θ ι α : Type*)
  /-- Outside `ProcessMessages`. -/
  | outside
  /-- About to call `Get`. -/
  | enterGet (loop : Loop) (cmsNext : ℤ)
  /-- In `Get`, about to take `mutex_`. -/
  | takeLock (loop : Loop) (g : GetFrame)
  /-- In `Get`, with `mutex_` released and no task taken, about to test `IsQuitting()`. -/
  | testQuit (loop : Loop) (g : GetFrame) (cmsDelayNext : ℤ)
  /-- In `Get`, about to call `ss_->Wait`. -/
  | enterWait (loop : Loop) (g : GetFrame) (cmsNext : ℤ)
  /-- In `ss_->Wait`, which it entered at `startMs`. -/
  | waiting (loop : Loop) (g : GetFrame) (cmsNext startMs : ℤ)
  /-- In `Get`, about to read the clock again. -/
  | readClock (loop : Loop) (g : GetFrame)
  /-- In `Dispatch`, running a task. -/
  | dispatching (loop : Loop) (task : Task θ ι α)
  /-- Destroying the task it has run. -/
  | cleaning (loop : Loop) (c : Cleanup θ ι)
  /-- In `ProcessMessages`, after `Dispatch`. -/
  | nextGet (loop : Loop)

/-- What `ProcessMessages` does after `Dispatch`: it calls `Get` again unless its time is over. -/
def Loop.next (loop : Loop) (clock : ℤ) : Owner θ ι α :=
  if loop.cmsLoop ≠ kForever then
    let cmsNext := staticCastSigned 32 (loop.msEnd - clock)
    if cmsNext < 0 then .outside else .enterGet loop cmsNext
  else .enterGet loop loop.cmsLoop

/-- Whether the owner runs code that may call an `rtc::Thread`. -/
def Owner.runsClient : Owner θ ι α → Bool
  | .outside => true
  | .waiting _ _ _ _ => true
  | .dispatching _ _ => true
  | _ => false

/-- Where the destruction of an `rtc::Thread` stands. -/
inductive Destroyer (θ ι : Type*)
  /-- Not begun. -/
  | absent
  /-- In `DoDestroy`. -/
  | destroying
  /-- In `DoDestroy`, destroying a task that was not run. -/
  | cleaning (c : Cleanup θ ι)

/-- The calls a party can make. -/
inductive Call (θ α : Type*)
  | postTask (t : θ) (task : α)
  | postDelayedTask (t : θ) (task : α) (delay : TimeDelta)
  | quit (t : θ)
  | blockingCall (t : θ)

/-- Which party moves. -/
inductive Action (θ ι α : Type*)
  /-- Time passes. -/
  | tick (dt : ℕ)
  /-- A party starts a call. -/
  | call (p : Party θ ι) (c : Call θ α)
  /-- A party takes the next step of its call. -/
  | client (p : Party θ ι)
  /-- An owner calls `ProcessMessages`. -/
  | processMessages (t : θ) (cmsLoop : ℤ)
  /-- An owner takes the next step of its loop. -/
  | owner (t : θ)
  /-- The `Wait` of a `Get` times out. -/
  | timeout (t : θ)
  /-- The `Wait` of a socket server fails. -/
  | fail (t : θ)
  /-- The destruction of an `rtc::Thread` begins. -/
  | destroy (t : θ)
  /-- The destruction of an `rtc::Thread` goes on. -/
  | destroyer (t : θ)

/-- All threads, their queues and the clock. -/
structure State (θ ι α : Type*) where
  /-- The members guarded by each `mutex_`. -/
  queues : θ → Queue θ ι α
  /-- Each `stop_`. -/
  stop : θ → Bool
  /-- Whether each socket server has a `WakeUp` that no `Wait` has consumed. -/
  signal : θ → Bool
  /-- `ready`, or whether `done_event` is signalled, of the blocking call each party is in. -/
  completion : Party θ ι → Bool
  /-- `rtc::TimeMillis()`. -/
  clock : ℤ
  /-- The calls the parties are in. -/
  clients : Party θ ι → Client θ α
  /-- The owners of the threads. -/
  owners : θ → Owner θ ι α
  /-- The destruction of the threads. -/
  destroyers : θ → Destroyer θ ι

/-- All threads just constructed, with the clock anywhere. -/
def State.initial (clock : ℤ) : State θ ι α where
  queues _ := Queue.initial
  stop _ := false
  signal _ := false
  completion _ := false
  clock := clock
  clients _ := .idle
  owners _ := .outside
  destroyers _ := .absent

namespace State

variable [DecidableEq θ] [DecidableEq ι]

/-! ## Writing to the state -/

def setQueue (s : State θ ι α) (t : θ) (q : Queue θ ι α) : State θ ι α :=
  { s with queues := Function.update s.queues t q }

def setStop (s : State θ ι α) (t : θ) : State θ ι α :=
  { s with stop := Function.update s.stop t true }

def setSignal (s : State θ ι α) (t : θ) (b : Bool) : State θ ι α :=
  { s with signal := Function.update s.signal t b }

def setCompletion (s : State θ ι α) (p : Party θ ι) (b : Bool) : State θ ι α :=
  { s with completion := Function.update s.completion p b }

def setClient (s : State θ ι α) (p : Party θ ι) (c : Client θ α) : State θ ι α :=
  { s with clients := Function.update s.clients p c }

def setOwner (s : State θ ι α) (t : θ) (o : Owner θ ι α) : State θ ι α :=
  { s with owners := Function.update s.owners t o }

def setDestroyer (s : State θ ι α) (t : θ) (d : Destroyer θ ι) : State θ ι α :=
  { s with destroyers := Function.update s.destroyers t d }

/-! ## Steps -/

/-- One step of the cleanup of a blocking call. -/
def cleanup (s : State θ ι α) : Cleanup θ ι → State θ ι α × List (Observation θ ι α)
  | .complete p => (s.setCompletion p true, [.call p .signal])
  | .wakeUp t => (s.setSignal t true, [])

/-- The first step of a call, by a party that is in none. -/
def call (s : State θ ι α) (p : Party θ ι) : Call θ α → State θ ι α × List (Observation θ ι α)
  | .postTask t task => (s.setClient p (.postTest t (.task task)), [])
  | .postDelayedTask t task delay => (s.setClient p (.delayedTest t task delay), [])
  | .quit t => ((s.setStop t).setClient p (.quitWakeUp t), [.stop t])
  | .blockingCall t => (s.setClient p (.callTest t), [.call p (.enter t)])

/-- What `PostTask` goes on with when it has found the thread quitting and destroys its task. -/
def refuse (s : State θ ι α) (p : Party θ ι) (t : θ) :
    Post α → State θ ι α × List (Observation θ ι α)
  | .task _ => (s.setClient p .idle, [])
  | .blockingCall => (s.setClient p (.refused t), [.call p (.destroyed t)])

/-- The next step of the call a party is in. -/
def client (s : State θ ι α) (p : Party θ ι) : Option (State θ ι α × List (Observation θ ι α)) :=
  match s.clients p with
  | .idle => none
  | .postTest t post =>
    some (if s.stop t then s.refuse p t post else (s.setClient p (.postPush t post), []))
  | .postPush t post =>
    let (q, out) := (s.queues t).postTask (post.toTask p)
    some ((s.setQueue t q).setClient p (.postWakeUp t post.isBlockingCall),
      out.map (.queue t) ++ post.seen p t)
  | .delayedTest t task delay =>
    some (s.setClient p (if s.stop t then .idle else .delayedClock t task delay), [])
  | .delayedClock t task delay =>
    let delayMs := staticCastSigned 32 (delay.roundUpTo (TimeDelta.millis 1)).ms
    some (s.setClient p (.delayedPush t task delayMs (s.clock + delayMs)), [])
  | .delayedPush t task delayMs runTimeMs =>
    let (q, out) := (s.queues t).postDelayedTask delayMs runTimeMs task
    some ((s.setQueue t q).setClient p (.postWakeUp t false), out.map (.queue t))
  | .postWakeUp t blockingCall =>
    some ((s.setSignal t true).setClient p (if blockingCall then .await p t else .idle), [])
  | .quitWakeUp t => some ((s.setSignal t true).setClient p .idle, [])
  | .callTest t =>
    if s.stop t then some (s.setClient p .idle, [.call p (.giveUp t)])
    -- on its own thread the functor is run in place
    else if p = .thread t then
      some (s.setClient p .idle, [.call p (.run t), .call p .finish, .call p .exit])
    else some ((s.setCompletion p false).setClient p (.postTest t .blockingCall), [])
  | .refused t =>
    let (s', out) := s.cleanup (.complete p)
    some (s'.setClient p (.afterRefused p t), out)
  | .refusedWakeUp t =>
    match p with
    | .thread currentThread =>
      some ((s.setSignal currentThread true).setClient p (.callCheck t false), [])
    | .other _ => none
  | .callCheck t waited =>
    if s.completion p then
      if waited then some (s.setClient p (.callWakeUp t), [])
      else some (s.setClient p .idle, [.call p .exit])
    else some (s.setClient p (.callWait t), [])
  | .callWait t =>
    match p with
    | .thread currentThread =>
      if s.signal currentThread then
        some ((s.setSignal currentThread false).setClient p (.callCheck t true), [])
      else none
    | .other _ => none
  | .callWakeUp _ =>
    match p with
    | .thread currentThread =>
      some ((s.setSignal currentThread true).setClient p .idle, [.call p .exit])
    | .other _ => none
  | .doneWait _ =>
    if s.completion p then
      some ((s.setCompletion p false).setClient p .idle, [.call p .exit])
    else none

/-- The next step of an owner that is in no call. -/
def owner (s : State θ ι α) (t : θ) : Option (State θ ι α × List (Observation θ ι α)) :=
  match s.owners t with
  | .outside => none
  | .enterGet loop cmsNext =>
    some (s.setOwner t (.takeLock loop ⟨cmsNext, s.clock, s.clock, 0⟩), [])
  | .takeLock loop g =>
    let ((cmsDelayNext, task), q, out) := (s.queues t).get g.msCurrent
    match task with
    | some task =>
      some ((s.setQueue t q).setOwner t (.dispatching loop task),
        out.map (.queue t) ++ task.starts t)
    | none =>
      some ((s.setQueue t q).setOwner t (.testQuit loop g cmsDelayNext), out.map (.queue t))
  | .testQuit loop g cmsDelayNext =>
    if s.stop t then some (s.setOwner t .outside, [.quitting t])
    else some (s.setOwner t (.enterWait loop g (g.cmsNext cmsDelayNext)), [])
  | .enterWait loop g cmsNext => some (s.setOwner t (.waiting loop g cmsNext s.clock), [])
  | .waiting loop g _ _ =>
    if s.signal t then some ((s.setSignal t false).setOwner t (.readClock loop g), []) else none
  | .readClock loop g =>
    let cmsElapsed := s.clock - g.msStart
    some (s.setOwner t (if g.cmsWait ≠ kForever ∧ cmsElapsed ≥ g.cmsWait then .outside
      else .takeLock loop { g with msCurrent := s.clock, cmsElapsed }), [])
  | .dispatching loop task =>
    match task with
    | .run _ => some (s.setOwner t (.nextGet loop), [])
    | .call p => some (s.setOwner t (.cleaning loop (.complete p)), [.call p .finish])
  | .cleaning loop c =>
    let (s', out) := s.cleanup c
    some (s'.setOwner t (c.next.elim (.nextGet loop) (.cleaning loop)), out)
  | .nextGet loop => some (s.setOwner t (loop.next s.clock), [])

/-- The `Wait` of a `Get` times out. -/
def timeout (s : State θ ι α) (t : θ) : Option (State θ ι α × List (Observation θ ι α)) :=
  match s.owners t with
  | .waiting loop g cmsNext startMs =>
    if cmsNext ≠ kForever ∧ startMs + cmsNext ≤ s.clock then
      some (s.setOwner t (.readClock loop g), [])
    else none
  | _ => none

/-- The `Wait` of a socket server fails: `Get` returns no task, and `BlockingCall` goes on. -/
def fail (s : State θ ι α) (t : θ) : Option (State θ ι α × List (Observation θ ι α)) :=
  match s.clients (.thread t), s.owners t with
  | .callWait t', _ => some (s.setClient (.thread t) (.callCheck t' true), [])
  | .idle, .waiting _ _ _ _ => some (s.setOwner t .outside, [])
  | _, _ => none

/-- The next step of `DoDestroy`. -/
def destroyer (s : State θ ι α) (t : θ) : Option (State θ ι α × List (Observation θ ι α)) :=
  match s.destroyers t with
  | .absent => none
  | .destroying =>
    let (task, q, out) := (s.queues t).destroyNext
    match task with
    | some (.call p) =>
      some ((s.setQueue t q).setDestroyer t (.cleaning (.complete p)),
        out.map (.queue t) ++ [.call p (.destroyed t)])
    | _ => some (s.setQueue t q, out.map (.queue t))
  | .cleaning c =>
    let (s', out) := s.cleanup c
    some (s'.setDestroyer t (c.next.elim .destroying .cleaning), out)

/-- Whether a party runs code that may call an `rtc::Thread`. -/
def runsClient (s : State θ ι α) : Party θ ι → Bool
  | .thread t => (s.owners t).runsClient
  | .other _ => true

/-- One step of the system. -/
def step (s : State θ ι α) : Action θ ι α → Option (State θ ι α × List (Observation θ ι α))
  | .tick dt => some ({ s with clock := s.clock + dt }, [])
  | .call p c =>
    match s.clients p with
    | .idle => if s.runsClient p then some (s.call p c) else none
    | _ => none
  | .client p => s.client p
  | .processMessages t cmsLoop =>
    match s.clients (.thread t), s.owners t, s.destroyers t with
    | .idle, .outside, .absent =>
      let msEnd := if cmsLoop = kForever then 0 else s.clock + cmsLoop
      some (s.setOwner t (.enterGet ⟨cmsLoop, msEnd⟩ cmsLoop), [])
    | _, _, _ => none
  | .owner t =>
    match s.clients (.thread t) with
    | .idle => s.owner t
    | _ => none
  | .timeout t =>
    match s.clients (.thread t) with
    | .idle => s.timeout t
    | _ => none
  | .fail t => s.fail t
  | .destroy t =>
    match s.clients (.thread t), s.owners t, s.destroyers t with
    | .idle, .outside, .absent =>
      if s.stop t then some (s.setDestroyer t .destroying, []) else none
    | _, _, _ => none
  | .destroyer t => s.destroyer t

end State

/-- The system of threads as a machine. -/
def machine (θ ι α : Type*) [DecidableEq θ] [DecidableEq ι] :
    Machine (State θ ι α) (Action θ ι α) (Observation θ ι α) where
  start s := ∃ clock, s = State.initial clock
  step := State.step

/-! ## What a step can do -/

section Moved

variable [DecidableEq θ] [DecidableEq ι]

/-- Every step of the system, by the action that takes it, with what enabled it. -/
inductive Moved (s : State θ ι α) :
    Action θ ι α → State θ ι α × List (Observation θ ι α) → Prop
  | tick (dt : ℕ) : Moved s (.tick dt) ({ s with clock := s.clock + dt }, [])
  -- the parties
  | startCall {p : Party θ ι} (c : Call θ α) : s.clients p = .idle → s.runsClient p = true →
      Moved s (.call p c) ((s.call p c).1, (s.call p c).2)
  | refuse {p : Party θ ι} {t : θ} {post : Post α} : s.clients p = .postTest t post →
      s.stop t = true → Moved s (.client p) ((s.refuse p t post).1, (s.refuse p t post).2)
  | accept {p : Party θ ι} {t : θ} {post : Post α} : s.clients p = .postTest t post →
      s.stop t = false → Moved s (.client p) (s.setClient p (.postPush t post), [])
  | postTask {p : Party θ ι} {t : θ} {post : Post α} : s.clients p = .postPush t post →
      Moved s (.client p)
        ((s.setQueue t ((s.queues t).postTask (post.toTask p)).1).setClient p
          (.postWakeUp t post.isBlockingCall), .queue t (.post (post.toTask p)) :: post.seen p t)
  | delayedTest {p : Party θ ι} {t : θ} {task : α} {delay : TimeDelta} (c : Client θ α) :
      s.clients p = .delayedTest t task delay → c = .idle ∨ c = .delayedClock t task delay →
      Moved s (.client p) (s.setClient p c, [])
  | delayedClock {p : Party θ ι} {t : θ} {task : α} {delay : TimeDelta} (delayMs runTimeMs : ℤ) :
      s.clients p = .delayedClock t task delay →
      Moved s (.client p) (s.setClient p (.delayedPush t task delayMs runTimeMs), [])
  | postDelayedTask {p : Party θ ι} {t : θ} {task : α} {delayMs runTimeMs : ℤ} :
      s.clients p = .delayedPush t task delayMs runTimeMs →
      Moved s (.client p)
        ((s.setQueue t ((s.queues t).postDelayedTask delayMs runTimeMs task).1).setClient p
          (.postWakeUp t false),
          [.queue t (.delay ((s.queues t).nextMessage delayMs runTimeMs task))])
  | posted {p : Party θ ι} {t : θ} : s.clients p = .postWakeUp t false →
      Moved s (.client p) ((s.setSignal t true).setClient p .idle, [])
  | postedCall {p : Party θ ι} {t : θ} : s.clients p = .postWakeUp t true →
      Moved s (.client p) ((s.setSignal t true).setClient p (.await p t), [])
  | quit {p : Party θ ι} {t : θ} : s.clients p = .quitWakeUp t →
      Moved s (.client p) ((s.setSignal t true).setClient p .idle, [])
  | callQuitting {p : Party θ ι} {t : θ} : s.clients p = .callTest t → s.stop t = true →
      Moved s (.client p) (s.setClient p .idle, [.call p (.giveUp t)])
  | callInPlace {p : Party θ ι} {t : θ} : s.clients p = .callTest t → s.stop t = false →
      p = .thread t →
      Moved s (.client p)
        (s.setClient p .idle, [.call p (.run t), .call p .finish, .call p .exit])
  | callPost {p : Party θ ι} {t : θ} : s.clients p = .callTest t → s.stop t = false →
      p ≠ .thread t →
      Moved s (.client p) ((s.setCompletion p false).setClient p (.postTest t .blockingCall), [])
  | refused {p : Party θ ι} {t : θ} : s.clients p = .refused t →
      Moved s (.client p)
        ((s.setCompletion p true).setClient p (.afterRefused p t), [.call p .signal])
  | refusedWakeUp {own t : θ} : s.clients (.thread own) = .refusedWakeUp t →
      Moved s (.client (.thread own))
        ((s.setSignal own true).setClient (.thread own) (.callCheck t false), [])
  | ready {p : Party θ ι} {t : θ} : s.clients p = .callCheck t false → s.completion p = true →
      Moved s (.client p) (s.setClient p .idle, [.call p .exit])
  | readyWaited {p : Party θ ι} {t : θ} : s.clients p = .callCheck t true →
      s.completion p = true → Moved s (.client p) (s.setClient p (.callWakeUp t), [])
  | notReady {p : Party θ ι} {t : θ} {waited : Bool} : s.clients p = .callCheck t waited →
      s.completion p = false → Moved s (.client p) (s.setClient p (.callWait t), [])
  | callWoken {own t : θ} : s.clients (.thread own) = .callWait t → s.signal own = true →
      Moved s (.client (.thread own))
        ((s.setSignal own false).setClient (.thread own) (.callCheck t true), [])
  | callWakeUp {own t : θ} : s.clients (.thread own) = .callWakeUp t →
      Moved s (.client (.thread own))
        ((s.setSignal own true).setClient (.thread own) .idle, [.call (.thread own) .exit])
  | done {p : Party θ ι} {t : θ} : s.clients p = .doneWait t → s.completion p = true →
      Moved s (.client p) ((s.setCompletion p false).setClient p .idle, [.call p .exit])
  | callFail {own t : θ} : s.clients (.thread own) = .callWait t →
      Moved s (.fail own) (s.setClient (.thread own) (.callCheck t true), [])
  -- the owners
  | processMessages {t : θ} (loop : Loop) (cmsNext : ℤ) : s.clients (.thread t) = .idle →
      s.owners t = .outside → s.destroyers t = .absent →
      Moved s (.processMessages t loop.cmsLoop) (s.setOwner t (.enterGet loop cmsNext), [])
  | enterGet {t : θ} {loop : Loop} {cmsNext : ℤ} : s.clients (.thread t) = .idle →
      s.owners t = .enterGet loop cmsNext →
      Moved s (.owner t) (s.setOwner t (.takeLock loop ⟨cmsNext, s.clock, s.clock, 0⟩), [])
  | take {t : θ} {loop : Loop} {g : GetFrame} {cmsDelayNext : ℤ} {task : Task θ ι α}
      {q : Queue θ ι α} {out : List (Event θ ι α)} : s.clients (.thread t) = .idle →
      s.owners t = .takeLock loop g →
      (s.queues t).get g.msCurrent = ((cmsDelayNext, some task), q, out) →
      Moved s (.owner t) ((s.setQueue t q).setOwner t (.dispatching loop task),
        out.map (.queue t) ++ task.starts t)
  | empty {t : θ} {loop : Loop} {g : GetFrame} {cmsDelayNext : ℤ} {q : Queue θ ι α}
      {out : List (Event θ ι α)} : s.clients (.thread t) = .idle →
      s.owners t = .takeLock loop g →
      (s.queues t).get g.msCurrent = ((cmsDelayNext, none), q, out) →
      Moved s (.owner t) ((s.setQueue t q).setOwner t (.testQuit loop g cmsDelayNext),
        out.map (.queue t))
  | quitting {t : θ} {loop : Loop} {g : GetFrame} {cmsDelayNext : ℤ} :
      s.clients (.thread t) = .idle → s.owners t = .testQuit loop g cmsDelayNext →
      s.stop t = true → Moved s (.owner t) (s.setOwner t .outside, [.quitting t])
  | notQuitting {t : θ} {loop : Loop} {g : GetFrame} {cmsDelayNext : ℤ} :
      s.clients (.thread t) = .idle → s.owners t = .testQuit loop g cmsDelayNext →
      s.stop t = false →
      Moved s (.owner t) (s.setOwner t (.enterWait loop g (g.cmsNext cmsDelayNext)), [])
  | enterWait {t : θ} {loop : Loop} {g : GetFrame} {cmsNext : ℤ} :
      s.clients (.thread t) = .idle → s.owners t = .enterWait loop g cmsNext →
      Moved s (.owner t) (s.setOwner t (.waiting loop g cmsNext s.clock), [])
  | woken {t : θ} {loop : Loop} {g : GetFrame} {cmsNext startMs : ℤ} :
      s.clients (.thread t) = .idle → s.owners t = .waiting loop g cmsNext startMs →
      s.signal t = true →
      Moved s (.owner t) ((s.setSignal t false).setOwner t (.readClock loop g), [])
  | timeout {t : θ} {loop : Loop} {g : GetFrame} {cmsNext startMs : ℤ} :
      s.clients (.thread t) = .idle → s.owners t = .waiting loop g cmsNext startMs →
      Moved s (.timeout t) (s.setOwner t (.readClock loop g), [])
  | fail {t : θ} {loop : Loop} {g : GetFrame} {cmsNext startMs : ℤ} :
      s.clients (.thread t) = .idle → s.owners t = .waiting loop g cmsNext startMs →
      Moved s (.fail t) (s.setOwner t .outside, [])
  | readClock {t : θ} {loop : Loop} {g : GetFrame} (o : Owner θ ι α) :
      s.clients (.thread t) = .idle → s.owners t = .readClock loop g →
      o = .outside ∨ o = .takeLock loop { g with
        msCurrent := s.clock, cmsElapsed := s.clock - g.msStart } →
      Moved s (.owner t) (s.setOwner t o, [])
  | dispatched {t : θ} {loop : Loop} {task : α} : s.clients (.thread t) = .idle →
      s.owners t = .dispatching loop (.run task) →
      Moved s (.owner t) (s.setOwner t (.nextGet loop), [])
  | dispatchedCall {t : θ} {loop : Loop} {p : Party θ ι} : s.clients (.thread t) = .idle →
      s.owners t = .dispatching loop (.call p) →
      Moved s (.owner t) (s.setOwner t (.cleaning loop (.complete p)), [.call p .finish])
  | cleaning {t : θ} {loop : Loop} {c : Cleanup θ ι} : s.clients (.thread t) = .idle →
      s.owners t = .cleaning loop c →
      Moved s (.owner t)
        ((s.cleanup c).1.setOwner t (c.next.elim (.nextGet loop) (.cleaning loop)),
          (s.cleanup c).2)
  | nextGet {t : θ} {loop : Loop} (o : Owner θ ι α) : s.clients (.thread t) = .idle →
      s.owners t = .nextGet loop → o = .outside ∨ (∃ cmsNext, o = .enterGet loop cmsNext) →
      Moved s (.owner t) (s.setOwner t o, [])
  -- the destruction
  | destroy {t : θ} : s.clients (.thread t) = .idle → s.owners t = .outside →
      s.destroyers t = .absent → s.stop t = true →
      Moved s (.destroy t) (s.setDestroyer t .destroying, [])
  | discard {t : θ} {task : α} {rest : List (Task θ ι α)} : s.destroyers t = .destroying →
      (s.queues t).messages = .run task :: rest →
      Moved s (.destroyer t) (s.setQueue t { s.queues t with messages := rest },
        [.queue t (.discard (.run task))])
  | discardCall {t : θ} {p : Party θ ι} {rest : List (Task θ ι α)} :
      s.destroyers t = .destroying → (s.queues t).messages = .call p :: rest →
      Moved s (.destroyer t)
        ((s.setQueue t { s.queues t with messages := rest }).setDestroyer t
          (.cleaning (.complete p)),
          [.queue t (.discard (.call p)), .call p (.destroyed t)])
  | dropDelayed {t : θ} : s.destroyers t = .destroying → (s.queues t).messages = [] →
      Moved s (.destroyer t)
        (s.setQueue t { s.queues t with messages := [], delayedMessages := PriorityQueue.empty },
          (s.queues t).delayedMessages.items.map fun message => .queue t (.drop message))
  | destroyerCleaning {t : θ} {c : Cleanup θ ι} : s.destroyers t = .cleaning c →
      Moved s (.destroyer t)
        ((s.cleanup c).1.setDestroyer t (c.next.elim .destroying .cleaning), (s.cleanup c).2)

theorem client_cases {s : State θ ι α} {p : Party θ ι} {r : State θ ι α × List (Observation θ ι α)}
    (h : s.client p = some r) : Moved s (.client p) r := by
  simp only [State.client] at h
  split at h
  · cases h
  · rename_i t task hc
    cases hstop : s.stop t with
    | true => simp only [hstop, if_true] at h; cases h; exact .refuse hc hstop
    | false => simp only [hstop] at h; cases h; exact .accept hc hstop
  · rename_i hc; cases h; exact .postTask hc
  · rename_i t task delay hc
    cases h
    refine .delayedTest _ hc ?_
    split
    · exact .inl rfl
    · exact .inr rfl
  · rename_i hc; cases h; exact .delayedClock _ _ hc
  · rename_i hc; cases h; exact .postDelayedTask hc
  · rename_i t blockingCall hc
    cases blockingCall with
    | true => cases h; exact .postedCall hc
    | false => cases h; exact .posted hc
  · rename_i hc; cases h; exact .quit hc
  · rename_i t hc
    cases hstop : s.stop t with
    | true => simp only [hstop, if_true] at h; cases h; exact .callQuitting hc hstop
    | false =>
      simp only [hstop] at h
      by_cases hp : p = .thread t
      · rw [if_pos hp] at h; cases h; exact .callInPlace hc hstop hp
      · rw [if_neg hp] at h; cases h; exact .callPost hc hstop hp
  · rename_i hc; cases h; exact .refused hc
  · rename_i hc
    split at h
    · cases h; exact .refusedWakeUp hc
    · cases h
  · rename_i t waited hc
    cases hready : s.completion p with
    | true =>
      simp only [hready, if_true] at h
      cases waited with
      | true => cases h; exact .readyWaited hc hready
      | false => cases h; exact .ready hc hready
    | false => simp only [hready] at h; cases h; exact .notReady hc hready
  · rename_i hc
    split at h
    · split at h
      · rename_i hsignal; cases h; exact .callWoken hc hsignal
      · cases h
    · cases h
  · rename_i hc
    split at h
    · cases h; exact .callWakeUp hc
    · cases h
  · rename_i hc
    split at h
    · rename_i hready; cases h; exact .done hc hready
    · cases h

theorem owner_cases {s : State θ ι α} {t : θ} {r : State θ ι α × List (Observation θ ι α)}
    (hidle : s.clients (.thread t) = .idle) (h : s.owner t = some r) : Moved s (.owner t) r := by
  rw [State.owner] at h
  split at h
  · cases h
  · rename_i ho; cases h; exact .enterGet hidle ho
  · rename_i loop g ho
    rcases hg : (s.queues t).get g.msCurrent with ⟨⟨cmsDelayNext, task⟩, q, out⟩
    cases task with
    | some task => simp only [hg] at h; cases h; exact .take hidle ho hg
    | none => simp only [hg] at h; cases h; exact .empty hidle ho hg
  · rename_i loop g cmsDelayNext ho
    cases hstop : s.stop t with
    | true => simp only [hstop, if_true] at h; cases h; exact .quitting hidle ho hstop
    | false => simp only [hstop] at h; cases h; exact .notQuitting hidle ho hstop
  · rename_i ho; cases h; exact .enterWait hidle ho
  · rename_i ho
    split at h
    · rename_i hsignal; cases h; exact .woken hidle ho hsignal
    · cases h
  · rename_i loop g ho
    cases h
    refine .readClock _ hidle ho ?_
    split
    · exact .inl rfl
    · exact .inr rfl
  · rename_i loop task ho
    cases task with
    | run task => cases h; exact .dispatched hidle ho
    | call p => cases h; exact .dispatchedCall hidle ho
  · rename_i ho; cases h; exact .cleaning hidle ho
  · rename_i loop ho
    cases h
    refine .nextGet _ hidle ho ?_
    rw [Loop.next]
    split
    · dsimp only
      split
      · exact .inl rfl
      · exact .inr ⟨_, rfl⟩
    · exact .inr ⟨_, rfl⟩

theorem destroyer_cases {s : State θ ι α} {t : θ} {r : State θ ι α × List (Observation θ ι α)}
    (h : s.destroyer t = some r) : Moved s (.destroyer t) r := by
  rw [State.destroyer] at h
  split at h
  · cases h
  · rename_i hd
    rcases hq : (s.queues t).messages with _ | ⟨task, rest⟩
    · simp only [Queue.destroyNext, hq] at h
      cases h
      rw [List.map_map]
      exact .dropDelayed hd hq
    · simp only [Queue.destroyNext, hq] at h
      cases task with
      | run task => cases h; exact .discard hd hq
      | call p => cases h; exact .discardCall hd hq
  · rename_i hd; cases h; exact .destroyerCleaning hd

theorem step_cases {s : State θ ι α} {a : Action θ ι α}
    {r : State θ ι α × List (Observation θ ι α)} (h : s.step a = some r) : Moved s a r := by
  cases a with
  | tick dt => cases h; exact .tick dt
  | call p c =>
    simp only [State.step] at h
    split at h
    · rename_i hi
      split at h
      · rename_i hruns; cases h; exact .startCall c hi hruns
      · cases h
    · cases h
  | client p => exact client_cases h
  | processMessages t cmsLoop =>
    simp only [State.step] at h
    split at h
    · rename_i hi ho hd; cases h; exact .processMessages ⟨cmsLoop, _⟩ cmsLoop hi ho hd
    · cases h
  | owner t =>
    simp only [State.step] at h
    split at h
    · rename_i hi; exact owner_cases hi h
    · cases h
  | timeout t =>
    simp only [State.step, State.timeout] at h
    split at h
    · rename_i hi
      split at h
      · rename_i ho
        split at h
        · cases h; exact .timeout hi ho
        · cases h
      · cases h
    · cases h
  | fail t =>
    simp only [State.step, State.fail] at h
    split at h
    · rename_i hc; cases h; exact .callFail hc
    · rename_i hi ho; cases h; exact .fail hi ho
    · cases h
  | destroy t =>
    simp only [State.step] at h
    split at h
    · rename_i hi ho hd
      split at h
      · rename_i hstop; cases h; exact .destroy hi ho hd hstop
      · cases h
    · cases h
  | destroyer t => exact destroyer_cases h

end Moved

end Thread

end TQLib
