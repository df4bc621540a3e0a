import TQLib.Foundations.Machine
import TQLib.Foundations.Stacks
import TQLib.Sigslot2.Model

/-!
# Threads that use `sigslot2`

Any number of threads call `connect`, `disconnect`, `disconnectAll` and `emit` on signals, and
`disconnectAll` and `buildConnections4` on receivers, whose destructors run as well. A slot is user
code: it may make any of these calls before it returns, and so may a task or the code of a thread
that is in none of them.

Each thread has a stack of what it still has to do, next first. A `LockBlock` is a scope: the thread
asks for the lock, waits for it if another thread owns it, runs the body, and gives the lock back.
The locks are those of `MultiThreadedLocal` on Windows, which a thread that owns one may enter
again. A posted task waits until the thread it is posted to takes it, in any order, which is more
than the message queue of `rtc::Thread` allows.

The destructor of a receiver begins when no shared pointer to it is left. Those that the operations
hold are counted here. The last one may also be one of those that others hold, or one that is made
for a moment by `receiver()`, so the destructor may begin at any moment when none is counted, and on
any thread that is not blocked.
-/

namespace TQLib

namespace Sigslot2

/-! ## What threads have to do -/

/-- A `MultiThreadedLocal`: that of a signal or that of a receiver. -/
inductive Lock (ς ρ : Type*)
  | signal (g : ς)
  | receiver (r : ρ)
  deriving DecidableEq

/-- How a slot comes to be called. -/
inductive Delivery
  | direct
  | queued
  | blocking
  deriving DecidableEq

/-- The scopes of a `LockBlock`. -/
inductive Block (θ ς ρ : Type*)
  | connectFunc (g : ς) (type : UInt32) (thread : Option θ)
  | connect (g : ς) (r : ρ) (type : UInt32) (thread : Option θ)
  /-- `HasSlots::doConnect`. -/
  | addSender (r : ρ) (g : ς)
  | disconnect (g : ς) (r : ρ)
  | disconnectConnection (g : ς) (n : ℕ)
  | disconnectAll (g : ς)
  /-- `HasSlots::doDisconnect`. -/
  | removeSender (r : ρ) (g : ς)
  /-- `SignalBase::doDisconnect`. -/
  | slotDisconnect (g : ς) (r : ρ)
  /-- `SignalBase::doClone`. -/
  | slotClone (g : ς) (oldReceiver newReceiver : ρ)
  | emit (g : ς)
  /-- `HasSlots::doDisconnectAll`. -/
  | detach (r : ρ)
  | buildConnections4 (r newReceiver : ρ)
  deriving DecidableEq

/-- What a thread does next. -/
inductive Instr (θ ς ρ : Type*)
  /-- The constructor of `LockBlock`. -/
  | enter (b : Block θ ς ρ)
  /-- The same, after another thread was found to own the lock. -/
  | blocked (b : Block θ ς ρ)
  /-- What the scope begins with. -/
  | body (b : Block θ ς ρ)
  /-- The destructor of `LockBlock`. -/
  | leave (l : Lock ς ρ)
  /-- The test of the loop of `emit`, and what follows up to the slot. -/
  | emitLoop (g : ς)
  /-- `emitter` is called for an emission by `e`. -/
  | emitter (d : Delivery) (e : θ) (g : ς) (n : ℕ)
  /-- User code: the slot of a connection. -/
  | slot (g : ς) (n : ℕ)
  /-- `setFired`. -/
  | setFired (g : ς) (n : ℕ)
  /-- What the loop of `emit` does after the slot. -/
  | setEmitted (g : ς) (n : ℕ)
  /-- A queued delivery, after `wself.lock()`. -/
  | delivered (e : θ) (g : ς) (n : ℕ)
  /-- A `BlockingCall` waits for its functor. -/
  | waitCall
  /-- The functor of a `BlockingCall` by `e` is over. -/
  | callDone (e : θ)
  /-- The test of the loop of `disconnectAll`. -/
  | disconnectLoop (g : ς)
  /-- `m_connectionList.pop_front`. -/
  | popFront (g : ς)
  /-- The test of the loop of `_doDisconnectAll`. -/
  | detachLoop (r : ρ)
  /-- `newReceiver->m_senderList.push_back`, which is not under the lock of that receiver. -/
  | pushSender (r : ρ) (g : ς)
  /-- A shared pointer goes out of scope. -/
  | drop (r : ρ)
  /-- The end of `~HasSlots`. -/
  | destroyed (r : ρ)
  deriving DecidableEq

/-- What is posted to a thread. -/
inductive Task (θ ς : Type*)
  /-- The lambda of a `PostTask` by `e`. -/
  | deliver (e : θ) (g : ς) (n : ℕ)
  /-- The functor of a `BlockingCall` by `e`. -/
  | call (e : θ) (g : ς) (n : ℕ)
  deriving DecidableEq

/-- What an observer sees. -/
inductive Observation (θ ς : Type*)
  /-- `connect` has made a connection. -/
  | connected (g : ς) (n : ℕ) (type : UInt32) (thread : Option θ)
  /-- An emission by `e` has come to the connection and not found it expired. -/
  | reached (e : θ) (g : ς) (n : ℕ)
  /-- The slot is called on the thread `a`, for an emission by `e`. -/
  | started (d : Delivery) (e a : θ) (g : ς) (n : ℕ)
  deriving DecidableEq

/-- The calls of user code. -/
inductive Call (θ ς ρ : Type*)
  | connectFunc (g : ς) (type : UInt32) (thread : Option θ)
  | connect (g : ς) (r : ρ) (type : UInt32) (thread : Option θ)
  | disconnect (g : ς) (r : ρ)
  | disconnectConnection (g : ς) (n : ℕ)
  | disconnectAll (g : ς)
  | emit (g : ς)
  /-- `HasSlots::disconnectAll`, which a derived class may call. -/
  | detach (r : ρ)
  | buildConnections4 (r newReceiver : ρ)

/-- Who moves. -/
inductive Action (θ ς ρ : Type*)
  /-- User code on the thread `a` makes a call. -/
  | call (a : θ) (c : Call θ ς ρ)
  /-- The slot on top of the stack of `a` returns. -/
  | ret (a : θ)
  /-- The thread `a` does what is next. -/
  | step (a : θ)
  /-- The task number `i` is taken by the thread it was posted to. -/
  | run (i : ℕ)
  /-- The task number `i` is dropped, or finds its connection deleted. -/
  | discard (i : ℕ)
  /-- The destructor of `r` begins on the thread `a`. -/
  | destroy (a : θ) (r : ρ)
  /-- `Quit` of the thread `t`. -/
  | quit (t : θ)

variable {θ ς ρ : Type*}

/-- The lock of the object the scope is in. -/
def Block.lock : Block θ ς ρ → Lock ς ρ
  | .connectFunc g _ _ => .signal g
  | .connect g _ _ _ => .signal g
  | .addSender r _ => .receiver r
  | .disconnect g _ => .signal g
  | .disconnectConnection g _ => .signal g
  | .disconnectAll g => .signal g
  | .removeSender r _ => .receiver r
  | .slotDisconnect g _ => .signal g
  | .slotClone g _ _ => .signal g
  | .emit g => .signal g
  | .detach r => .receiver r
  | .buildConnections4 r _ => .receiver r

/-- What a call pushes. Its arguments that are shared pointers are dropped when it returns. -/
def Call.code : Call θ ς ρ → List (Instr θ ς ρ)
  | .connectFunc g type thread => [.enter (.connectFunc g type thread)]
  | .connect g r type thread => [.enter (.connect g r type thread), .drop r]
  | .disconnect g r => [.enter (.disconnect g r), .drop r]
  | .disconnectConnection g n => [.enter (.disconnectConnection g n)]
  | .disconnectAll g => [.enter (.disconnectAll g)]
  | .emit g => [.enter (.emit g)]
  | .detach r => [.enter (.detach r), .drop r]
  | .buildConnections4 r newReceiver =>
    [.enter (.buildConnections4 r newReceiver), .drop r, .drop newReceiver]

/-- What the thread that takes a task pushes. -/
def Task.code : Task θ ς → List (Instr θ ς ρ)
  | .deliver e g n => [.delivered e g n]
  | .call e g n => [.emitter .blocking e g n, .callDone e]

/-- The receivers a call is made with. -/
def Call.receivers : Call θ ς ρ → List ρ
  | .connect _ r _ _ => [r]
  | .disconnect _ r => [r]
  | .detach r => [r]
  | .buildConnections4 r newReceiver => [r, newReceiver]
  | _ => []

/-- The body of a scope: what it does to the objects, and what is left to do. -/
def Block.body [DecidableEq ς] [DecidableEq ρ] (o : Objects θ ς ρ) :
    Block θ ς ρ → Objects θ ς ρ × List (Instr θ ς ρ) × List (Observation θ ς)
  | .connectFunc g type thread =>
    match (o.signals g).connectFunc type thread with
    | (s, none) => (o.setSignal g s, [], [])
    | (s, some n) => (o.setSignal g s, [], [.connected g n type thread])
  | .connect g r type thread =>
    match (o.signals g).connect r type thread with
    | (s, none) => (o.setSignal g s, [], [])
    | (s, some n) =>
      (o.setSignal g s, [.enter (.addSender r g)], [.connected g n type thread])
  | .addSender r g => (o.addSender r g, [], [])
  | .disconnect g r =>
    match o.findReceiver g r with
    | none => (o, [], [])
    | some n => (o.setSignal g ((o.signals g).erase n), [.enter (.removeSender r g)], [])
  | .disconnectConnection g n =>
    if n ∈ (o.signals g).connectionList then (o.setSignal g ((o.signals g).erase n), [], [])
    else (o, [], [])
  | .disconnectAll g => (o, [.disconnectLoop g], [])
  | .removeSender r g => (o.removeSender r g, [], [])
  | .slotDisconnect g r => (o.slotDisconnect g r, [], [])
  | .slotClone g oldReceiver newReceiver => (o.slotClone g oldReceiver newReceiver, [], [])
  | .emit g => (o.setSignal g (o.signals g).setBegin, [.emitLoop g], [])
  | .detach r => (o, [.detachLoop r], [])
  | .buildConnections4 r newReceiver =>
    (o, (o.senderList r).flatMap fun g =>
      [.enter (.slotClone g r newReceiver), .pushSender newReceiver g], [])

/-! ## States -/

/-- The threads and the objects they work on. -/
structure State (θ ς ρ : Type*) where
  /-- The signals and the receivers. -/
  objects : Objects θ ς ρ
  /-- What each thread has to do, next first. -/
  stack : θ → List (Instr θ ς ρ)
  /-- The owner of each lock, once for each time it has entered. -/
  locks : Lock ς ρ → List θ
  /-- The threads that hold a shared pointer to a receiver, once for each pointer. -/
  refs : ρ → List θ
  /-- The tasks that have been posted and not been taken. -/
  posted : List (θ × Task θ ς)
  /-- Which threads are quitting. -/
  stop : θ → Bool
  /-- Whether the functor of the `BlockingCall` of a thread is over. -/
  completed : θ → Bool

namespace State

variable [DecidableEq θ] [DecidableEq ς] [DecidableEq ρ]

/-- Threads that have nothing to do and objects just constructed. -/
def initial : State θ ς ρ where
  objects := Objects.initial
  stack _ := []
  locks _ := []
  refs _ := []
  posted := []
  stop _ := false
  completed _ := false

def setStack (s : State θ ς ρ) (a : θ) (is : List (Instr θ ς ρ)) : State θ ς ρ :=
  { s with stack := Function.update s.stack a is }

omit [DecidableEq ς] [DecidableEq ρ] in
theorem stack_setStack_self (s : State θ ς ρ) (a : θ) (is : List (Instr θ ς ρ)) :
    (s.setStack a is).stack a = is := Function.update_self ..

omit [DecidableEq ς] [DecidableEq ρ] in
theorem stack_setStack_of_ne (s : State θ ς ρ) {a b : θ} (is : List (Instr θ ς ρ)) (h : b ≠ a) :
    (s.setStack a is).stack b = s.stack b := Function.update_of_ne h ..

def setObjects (s : State θ ς ρ) (o : Objects θ ς ρ) : State θ ς ρ := { s with objects := o }

def setLock (s : State θ ς ρ) (l : Lock ς ρ) (owners : List θ) : State θ ς ρ :=
  { s with locks := Function.update s.locks l owners }

/-- The thread `a` gets a shared pointer to `r`. -/
def retain (s : State θ ς ρ) (a : θ) (r : ρ) : State θ ς ρ :=
  { s with refs := Function.update s.refs r (a :: s.refs r) }

/-- The thread `a` drops a shared pointer to `r`. -/
def release (s : State θ ς ρ) (a : θ) (r : ρ) : State θ ς ρ :=
  { s with refs := Function.update s.refs r ((s.refs r).erase a) }

def post (s : State θ ς ρ) (t : θ) (task : Task θ ς) : State θ ς ρ :=
  { s with posted := s.posted ++ [(t, task)] }

def setCompleted (s : State θ ς ρ) (e : θ) (b : Bool) : State θ ς ρ :=
  { s with completed := Function.update s.completed e b }

/-- The members of the connection number `n` of `g`. -/
def connection (s : State θ ς ρ) (g : ς) (n : ℕ) : Connection θ ρ :=
  (s.objects.signals g).connections n

/-- A member of a connection is written. -/
def modify (s : State θ ς ρ) (g : ς) (n : ℕ) (f : Connection θ ρ → Connection θ ρ) :
    State θ ς ρ :=
  s.setObjects (s.objects.setSignal g ((s.objects.signals g).modify n f))

/-- `m_currentIterator` is moved on. -/
def past (s : State θ ς ρ) (g : ς) : State θ ς ρ :=
  s.setObjects (s.objects.setSignal g (s.objects.signals g).advance)

/-- No thread but `a` owns the lock. -/
def available (s : State θ ς ρ) (a : θ) (l : Lock ς ρ) : Bool := (s.locks l).all (· = a)

/-- User code runs on the thread `a`. -/
def userCode (s : State θ ς ρ) (a : θ) : Bool :=
  match s.stack a with
  | [] => true
  | .slot _ _ :: _ => true
  | _ => false

/-! ## Steps -/

/-- What `Connection::emit` does on the thread `a` once `m_type` is settled. -/
def deliver (s : State θ ς ρ) (a : θ) (g : ς) (n : ℕ) (c : Connection θ ρ) :
    State θ ς ρ × List (Instr θ ς ρ) :=
  if c.type = DirectConnection then (s, [.emitter .direct a g n, .setFired g n])
  else if c.type = QueuedConnection then
    match c.thread with
    | none => (s, [])
    | some t => if s.stop t then (s, []) else (s.post t (.deliver a g n), [])
  else if c.type = BlockingQueuedConnection then
    match c.thread with
    | none => (s, [])
    | some t =>
      if s.stop t then (s, [.setFired g n])
      else if t = a then (s, [.emitter .blocking a g n, .setFired g n])
      else (s.post t (.call a g n), [.waitCall, .setFired g n])
  else (s, [])

/-- One turn of the loop of `emit`. -/
def emitLoop (s : State θ ς ρ) (a : θ) (g : ς) :
    State θ ς ρ × List (Instr θ ς ρ) × List (Observation θ ς) :=
  match (s.objects.signals g).currentIterator with
  | none => (s, [], [])
  | some n =>
    let s := s.past g
    let c := s.connection g n
    if c.isSingleShot && c.hasEmitted then (s, [.emitLoop g], [])
    else if s.objects.expired c then (s, [.setEmitted g n, .emitLoop g], [])
    else
      let s := s.modify g n fun c => c.settle a
      let r := s.deliver a g n (s.connection g n)
      (r.1, r.2 ++ [.setEmitted g n, .emitLoop g], [.reached a g n])

/-- What `a` does next: the state after it but for the stack of `a`, what is pushed there, and what
is seen of it. -/
def exec (s : State θ ς ρ) (a : θ) :
    Instr θ ς ρ → Option (State θ ς ρ × List (Instr θ ς ρ) × List (Observation θ ς))
  | .enter b =>
    if s.available a b.lock then
      some (s.setLock b.lock (a :: s.locks b.lock), [.body b, .leave b.lock], [])
    else some (s, [.blocked b], [])
  | .blocked b =>
    if s.available a b.lock then
      some (s.setLock b.lock (a :: s.locks b.lock), [.body b, .leave b.lock], [])
    else none
  | .body b =>
    let (o, code, out) := b.body s.objects
    some (s.setObjects o, code, out)
  | .leave l => some (s.setLock l ((s.locks l).erase a), [], [])
  | .emitLoop g => some (s.emitLoop a g)
  | .emitter d e g n =>
    match (s.connection g n).target with
    | none => some (s, [.slot g n], [.started d e a g n])
    | some r =>
      if s.objects.alive r then some (s.retain a r, [.slot g n, .drop r], [.started d e a g n])
      else some (s, [], [])
  | .slot _ _ => none
  | .setFired g n => some (s.modify g n Connection.setFired, [], [])
  | .setEmitted g n =>
    let c := s.connection g n
    if c.isSingleShot && !c.hasEmitted then some (s.modify g n Connection.setEmitted, [], [])
    else some (s, [], [])
  | .delivered e g n =>
    if s.objects.expired (s.connection g n) then some (s, [], [])
    else some (s, [.emitter .queued e g n, .setFired g n], [])
  | .waitCall => if s.completed a then some (s.setCompleted a false, [], []) else none
  | .callDone e => some (s.setCompleted e true, [], [])
  | .disconnectLoop g =>
    match (s.objects.signals g).connectionList with
    | [] => some (s.setObjects (s.objects.setSignal g (s.objects.signals g).setEnd), [], [])
    | n :: _ =>
      match s.objects.receiver (s.connection g n) with
      | none => some (s, [.popFront g, .disconnectLoop g], [])
      | some r =>
        some (s.retain a r,
          [.enter (.removeSender r g), .drop r, .popFront g, .disconnectLoop g], [])
  | .popFront g =>
    some (s.setObjects (s.objects.setSignal g (s.objects.signals g).popFront), [], [])
  | .detachLoop r =>
    match s.objects.senderList r with
    | [] => some (s, [], [])
    | gs => some (s.setObjects (s.objects.setSenderList r []),
        gs.map (fun g => .enter (.slotDisconnect g r)) ++ [.detachLoop r], [])
  | .pushSender r g => some (s.setObjects (s.objects.addSender r g), [], [])
  | .drop r => some (s.release a r, [], [])
  | .destroyed _ => some (s, [], [])

/-- A thread that waits, for a lock or for a functor, does nothing else. -/
def waits (s : State θ ς ρ) (a : θ) : Bool :=
  match s.stack a with
  | .blocked _ :: _ => true
  | .waitCall :: _ => true
  | _ => false

/-- One step. -/
def step (s : State θ ς ρ) : Action θ ς ρ → Option (State θ ς ρ × List (Observation θ ς))
  | .call a c =>
    if s.userCode a ∧ c.receivers.Nodup ∧ ∀ r ∈ c.receivers, s.objects.alive r then
      some ((c.receivers.foldl (fun s r => s.retain a r) s).setStack a (c.code ++ s.stack a), [])
    else none
  | .ret a =>
    match s.stack a with
    | .slot _ _ :: is => some (s.setStack a is, [])
    | _ => none
  | .step a =>
    match s.stack a with
    | [] => none
    | i :: is => (s.exec a i).map fun (s', code, out) => (s'.setStack a (code ++ is), out)
  | .run i =>
    match s.posted[i]? with
    | none => none
    | some (t, task) =>
      if s.userCode t then
        some ({ s with posted := s.posted.eraseIdx i }.setStack t (Task.code task ++ s.stack t), [])
      else none
  | .discard i =>
    match s.posted[i]? with
    | none => none
    | some (_, .deliver _ _ _) => some ({ s with posted := s.posted.eraseIdx i }, [])
    | some (_, .call e _ _) =>
      some ({ s with posted := s.posted.eraseIdx i }.setCompleted e true, [])
  | .destroy a r =>
    if s.objects.alive r ∧ s.refs r = [] ∧ ¬ s.waits a then
      some ((s.setObjects (s.objects.kill r)).setStack a
        ([.enter (.detach r), .destroyed r] ++ s.stack a), [])
    else none
  | .quit t => some ({ s with stop := Function.update s.stop t true }, [])

end State

/-- Threads that use `sigslot2`. -/
def machine (θ ς ρ : Type*) [DecidableEq θ] [DecidableEq ς] [DecidableEq ρ] :
    Machine (State θ ς ρ) (Action θ ς ρ) (Observation θ ς) where
  start s := s = State.initial
  step s a := s.step a

/-! ## What a step can do -/

section Inversion

variable [DecidableEq θ]

/-- What `Connection::emit` can do on the thread `a` once `m_type` is settled. -/
inductive Delivers (s : State θ ς ρ) (a : θ) (g : ς) (n : ℕ) (c : Connection θ ρ) :
    State θ ς ρ → List (Instr θ ς ρ) → Prop
  | direct : c.type = DirectConnection →
      Delivers s a g n c s [.emitter .direct a g n, .setFired g n]
  | queued {t : θ} : c.type = QueuedConnection → c.thread = some t →
      Delivers s a g n c (s.post t (.deliver a g n)) []
  | call {t : θ} : c.type = BlockingQueuedConnection → c.thread = some t →
      Delivers s a g n c (s.post t (.call a g n)) [.waitCall, .setFired g n]
  | callHere : c.type = BlockingQueuedConnection → c.thread = some a →
      Delivers s a g n c s [.emitter .blocking a g n, .setFired g n]
  | refused : c.type = BlockingQueuedConnection → Delivers s a g n c s [.setFired g n]
  | lost : c.type ≠ DirectConnection → Delivers s a g n c s []

theorem deliver_cases (s : State θ ς ρ) (a : θ) (g : ς) (n : ℕ) (c : Connection θ ρ) :
    Delivers s a g n c (s.deliver a g n c).1 (s.deliver a g n c).2 := by
  unfold State.deliver
  split
  · exact .direct ‹_›
  · rename_i hdirect
    split
    · split
      · exact .lost hdirect
      · split
        · exact .lost hdirect
        · exact .queued ‹_› ‹_›
    · split
      · split
        · exact .lost hdirect
        · split
          · exact .refused ‹_›
          · split
            · subst_vars
              exact .callHere ‹_› ‹_›
            · exact .call ‹_› ‹_›
      · exact .lost hdirect

variable [DecidableEq ς]

omit [DecidableEq θ] in
@[simp] theorem connection_past (s : State θ ς ρ) (g : ς) (n : ℕ) :
    (s.past g).connection g n = s.connection g n := by
  simp [State.past, State.connection, State.setObjects, Objects.setSignal, Signal.advance]

omit [DecidableEq θ] in
@[simp] theorem connection_modify_self (s : State θ ς ρ) (g : ς) (n : ℕ)
    (f : Connection θ ρ → Connection θ ρ) :
    (s.modify g n f).connection g n = f (s.connection g n) := by
  simp [State.modify, State.connection, State.setObjects, Objects.setSignal, Signal.modify]

variable [DecidableEq ρ]

/-- What `a` can do next. -/
inductive Executes (s : State θ ς ρ) (a : θ) :
    Instr θ ς ρ → State θ ς ρ → List (Instr θ ς ρ) → List (Observation θ ς) → Prop
  | enter (b : Block θ ς ρ) : s.available a b.lock = true →
      Executes s a (.enter b) (s.setLock b.lock (a :: s.locks b.lock))
        [.body b, .leave b.lock] []
  | block (b : Block θ ς ρ) : s.available a b.lock = false →
      Executes s a (.enter b) s [.blocked b] []
  | wake (b : Block θ ς ρ) : s.available a b.lock = true →
      Executes s a (.blocked b) (s.setLock b.lock (a :: s.locks b.lock))
        [.body b, .leave b.lock] []
  | body (b : Block θ ς ρ) : Executes s a (.body b) (s.setObjects (b.body s.objects).1)
      (b.body s.objects).2.1 (b.body s.objects).2.2
  | leave (l : Lock ς ρ) : Executes s a (.leave l) (s.setLock l ((s.locks l).erase a)) [] []
  | emitEnd (g : ς) : (s.objects.signals g).currentIterator = none →
      Executes s a (.emitLoop g) s [] []
  | emitSkip (g : ς) {n : ℕ} : (s.objects.signals g).currentIterator = some n →
      (s.connection g n).isSingleShot = true → (s.connection g n).hasEmitted = true →
      Executes s a (.emitLoop g) (s.past g) [.emitLoop g] []
  | emitExpired (g : ς) {n : ℕ} : (s.objects.signals g).currentIterator = some n →
      Executes s a (.emitLoop g) (s.past g) [.setEmitted g n, .emitLoop g] []
  | emitReach (g : ς) {n : ℕ} {s' : State θ ς ρ} {code : List (Instr θ ς ρ)} :
      (s.objects.signals g).currentIterator = some n →
      ((s.connection g n).isSingleShot = true → (s.connection g n).hasEmitted = false) →
      Delivers ((s.past g).modify g n fun c => c.settle a) a g n ((s.connection g n).settle a)
        s' code →
      Executes s a (.emitLoop g) s' (code ++ [.setEmitted g n, .emitLoop g]) [.reached a g n]
  | callFunc (d : Delivery) (e : θ) (g : ς) (n : ℕ) :
      Executes s a (.emitter d e g n) s [.slot g n] [.started d e a g n]
  | callMethod (d : Delivery) (e : θ) (g : ς) (n : ℕ) {r : ρ} : s.objects.alive r = true →
      Executes s a (.emitter d e g n) (s.retain a r) [.slot g n, .drop r] [.started d e a g n]
  | callNothing (d : Delivery) (e : θ) (g : ς) (n : ℕ) : Executes s a (.emitter d e g n) s [] []
  | setFired (g : ς) (n : ℕ) :
      Executes s a (.setFired g n) (s.modify g n Connection.setFired) [] []
  | setEmitted (g : ς) (n : ℕ) :
      Executes s a (.setEmitted g n) (s.modify g n Connection.setEmitted) [] []
  | keepEmitted (g : ς) (n : ℕ) :
      ((s.connection g n).isSingleShot = true → (s.connection g n).hasEmitted = true) →
      Executes s a (.setEmitted g n) s [] []
  | notDelivered (e : θ) (g : ς) (n : ℕ) : Executes s a (.delivered e g n) s [] []
  | delivered (e : θ) (g : ς) (n : ℕ) :
      Executes s a (.delivered e g n) s [.emitter .queued e g n, .setFired g n] []
  | waitCall : s.completed a = true → Executes s a .waitCall (s.setCompleted a false) [] []
  | callDone (e : θ) : Executes s a (.callDone e) (s.setCompleted e true) [] []
  | disconnectEnd (g : ς) :
      Executes s a (.disconnectLoop g)
        (s.setObjects (s.objects.setSignal g (s.objects.signals g).setEnd)) [] []
  | disconnectFunc (g : ς) :
      Executes s a (.disconnectLoop g) s [.popFront g, .disconnectLoop g] []
  | disconnectMethod (g : ς) {r : ρ} : s.objects.alive r = true →
      Executes s a (.disconnectLoop g) (s.retain a r)
        [.enter (.removeSender r g), .drop r, .popFront g, .disconnectLoop g] []
  | popFront (g : ς) : Executes s a (.popFront g)
      (s.setObjects (s.objects.setSignal g (s.objects.signals g).popFront)) [] []
  | detachEnd (r : ρ) : Executes s a (.detachLoop r) s [] []
  | detach (r : ρ) (gs : List ς) :
      Executes s a (.detachLoop r) (s.setObjects (s.objects.setSenderList r []))
        (gs.map (fun g => .enter (.slotDisconnect g r)) ++ [.detachLoop r]) []
  | pushSender (r : ρ) (g : ς) :
      Executes s a (.pushSender r g) (s.setObjects (s.objects.addSender r g)) [] []
  | drop (r : ρ) : Executes s a (.drop r) (s.release a r) [] []
  | destroyed (r : ρ) : Executes s a (.destroyed r) s [] []

theorem emitLoop_cases (s : State θ ς ρ) (a : θ) (g : ς) :
    Executes s a (.emitLoop g) (s.emitLoop a g).1 (s.emitLoop a g).2.1 (s.emitLoop a g).2.2 := by
  unfold State.emitLoop
  cases hn : (s.objects.signals g).currentIterator with
  | none => exact .emitEnd g hn
  | some n =>
    simp only [connection_past, connection_modify_self]
    split
    · rename_i hc
      rw [Bool.and_eq_true] at hc
      exact .emitSkip g hn hc.1 hc.2
    · rename_i hc
      rw [Bool.and_eq_true, not_and, Bool.not_eq_true] at hc
      split
      · exact .emitExpired g hn
      · exact .emitReach g hn hc (deliver_cases ..)

/-- **What is next.** -/
theorem exec_cases {s s' : State θ ς ρ} {a : θ} {i : Instr θ ς ρ} {code : List (Instr θ ς ρ)}
    {out : List (Observation θ ς)} (h : s.exec a i = some (s', code, out)) :
    Executes s a i s' code out := by
  cases i with
  | enter b =>
    simp only [State.exec] at h
    split at h
    · cases h
      exact .enter b ‹_›
    · rename_i hb
      cases h
      exact .block b (Bool.eq_false_iff.mpr hb)
  | blocked b =>
    obtain ⟨hb, ⟨⟩⟩ := Option.ite_none_right_eq_some.mp h
    exact .wake b hb
  | body b =>
    cases h
    exact .body b
  | leave l =>
    cases h
    exact .leave l
  | emitLoop g =>
    obtain ⟨rfl, rfl, rfl⟩ : (s.emitLoop a g).1 = s' ∧ (s.emitLoop a g).2.1 = code ∧
        (s.emitLoop a g).2.2 = out := by
      simpa [State.exec, Prod.ext_iff] using h
    exact emitLoop_cases s a g
  | emitter d e g n =>
    simp only [State.exec] at h
    split at h
    · cases h
      exact .callFunc d e g n
    · split at h
      · cases h
        exact .callMethod d e g n ‹_›
      · cases h
        exact .callNothing d e g n
  | slot g n => cases h
  | setFired g n =>
    cases h
    exact .setFired g n
  | setEmitted g n =>
    simp only [State.exec] at h
    split at h
    · cases h
      exact .setEmitted g n
    · rename_i hc
      cases h
      refine .keepEmitted g n ?_
      simpa using hc
  | delivered e g n =>
    simp only [State.exec] at h
    split at h
    · cases h
      exact .notDelivered e g n
    · cases h
      exact .delivered e g n
  | waitCall =>
    obtain ⟨hc, ⟨⟩⟩ := Option.ite_none_right_eq_some.mp h
    exact .waitCall hc
  | callDone e =>
    cases h
    exact .callDone e
  | disconnectLoop g =>
    simp only [State.exec] at h
    split at h
    · cases h
      exact .disconnectEnd g
    · split at h
      · cases h
        exact .disconnectFunc g
      · rename_i r hr
        cases h
        exact .disconnectMethod g (Option.filter_eq_some_iff.mp hr).2
  | popFront g =>
    cases h
    exact .popFront g
  | detachLoop r =>
    simp only [State.exec] at h
    split at h
    · cases h
      exact .detachEnd r
    · cases h
      exact .detach r _
  | pushSender r g =>
    cases h
    exact .pushSender r g
  | drop r =>
    cases h
    exact .drop r
  | destroyed r =>
    cases h
    exact .destroyed r

/-- What one step can be. -/
inductive Steps (s : State θ ς ρ) :
    Action θ ς ρ → State θ ς ρ → List (Observation θ ς) → Prop
  | call {a : θ} {c : Call θ ς ρ} : s.userCode a = true → c.receivers.Nodup →
      (∀ r ∈ c.receivers, s.objects.alive r = true) →
      Steps s (.call a c)
        ((c.receivers.foldl (fun s r => s.retain a r) s).setStack a (c.code ++ s.stack a)) []
  | ret {a : θ} {g : ς} {n : ℕ} {is : List (Instr θ ς ρ)} : s.stack a = .slot g n :: is →
      Steps s (.ret a) (s.setStack a is) []
  | step {a : θ} {i : Instr θ ς ρ} {is code : List (Instr θ ς ρ)} {s' : State θ ς ρ}
      {out : List (Observation θ ς)} : s.stack a = i :: is → Executes s a i s' code out →
      Steps s (.step a) (s'.setStack a (code ++ is)) out
  | run {i : ℕ} {t : θ} {task : Task θ ς} : s.posted[i]? = some (t, task) →
      s.userCode t = true →
      Steps s (.run i) ({ s with posted := s.posted.eraseIdx i }.setStack t
        (Task.code task ++ s.stack t)) []
  | discard {i : ℕ} {t : θ} {task : Task θ ς} (completed : θ → Bool) :
      s.posted[i]? = some (t, task) →
      Steps s (.discard i) { s with posted := s.posted.eraseIdx i, completed } []
  | destroy {a : θ} {r : ρ} : s.objects.alive r = true → s.refs r = [] → s.waits a = false →
      Steps s (.destroy a r) ((s.setObjects (s.objects.kill r)).setStack a
        ([.enter (.detach r), .destroyed r] ++ s.stack a)) []
  | quit (t : θ) : Steps s (.quit t) { s with stop := Function.update s.stop t true } []

/-- **One step.** -/
theorem step_cases {s s' : State θ ς ρ} {act : Action θ ς ρ} {out : List (Observation θ ς)}
    (h : s.step act = some (s', out)) : Steps s act s' out := by
  cases act with
  | call a c =>
    obtain ⟨⟨huser, hnodup, halive⟩, ⟨⟩⟩ := Option.ite_none_right_eq_some.mp h
    exact .call huser hnodup halive
  | ret a =>
    simp only [State.step] at h
    split at h
    · cases h
      exact .ret ‹_›
    · cases h
  | step a =>
    simp only [State.step] at h
    split at h
    · cases h
    · obtain ⟨⟨s₁, code, out₁⟩, hex, heq⟩ := Option.map_eq_some_iff.mp h
      cases heq
      exact .step ‹_› (exec_cases hex)
  | run i =>
    simp only [State.step] at h
    split at h
    · cases h
    · obtain ⟨huser, ⟨⟩⟩ := Option.ite_none_right_eq_some.mp h
      exact .run ‹_› huser
  | discard i =>
    simp only [State.step] at h
    split at h
    · cases h
    · cases h
      exact .discard _ ‹_›
    · cases h
      exact .discard _ ‹_›
  | destroy a r =>
    obtain ⟨⟨halive, hrefs, hwaits⟩, ⟨⟩⟩ := Option.ite_none_right_eq_some.mp h
    exact .destroy halive hrefs (by simpa using hwaits)
  | quit t =>
    cases h
    exact .quit t

end Inversion

end Sigslot2

end TQLib
