import Mathlib.Data.List.Basic
import Mathlib.Logic.Function.Basic

/-!
# Signals, receivers and connections of `sigslot2`

The objects of `rtc_base/third_party/sigslot/sigslot2.hpp` and what one critical section does to
them. A `Signal` holds a list of connections, a receiver (a `HasSlots`) holds a list of the signals
it is connected to, and a `Connection` knows its receiver only weakly. The two lists record the same
relation from both sides, each under the lock of its owner.

Nothing here says who runs the sections or in which order. `θ` are the threads, `ς` the signals and
`ρ` the receivers. A connection is created by one signal and never leaves it for another, so it is
known by the number it has among the connections of that signal.

Signals are held by shared pointers that outlive what is done here, so `sender.lock()` succeeds. A
receiver is alive until its destructor begins, and `m_receiver.lock()` succeeds as long.
-/

namespace TQLib

namespace Sigslot2

/-! ## Connections -/

/-- The values of the enumeration `ConnectionType`. -/
def AutoConnection : UInt32 := 0

@[inherit_doc AutoConnection] def DirectConnection : UInt32 := 1

@[inherit_doc AutoConnection] def QueuedConnection : UInt32 := 2

@[inherit_doc AutoConnection] def BlockingQueuedConnection : UInt32 := 3

@[inherit_doc AutoConnection] def UniqueConnection : UInt32 := 0x80

@[inherit_doc AutoConnection] def SingleShotConnection : UInt32 := 0x100

/-- A `Connection`, either a `ConnectionF` or a `ConnectionMF`. -/
structure Connection (θ ρ : Type*) where
  /-- `m_isFunc`. -/
  isFunc : Bool
  /-- What `m_receiver` points to. -/
  receiver : Option ρ
  /-- What the receiver captured in `m_method` is, which `clone` does not change. -/
  target : Option ρ
  /-- `m_type`. -/
  type : UInt32
  /-- `m_thread`. -/
  thread : Option θ
  /-- `m_isSingleShot`. -/
  isSingleShot : Bool
  /-- `m_hasEmitted`. -/
  hasEmitted : Bool
  /-- `m_hasFired`. -/
  hasFired : Bool
  deriving DecidableEq

variable {θ ς ρ : Type*}

namespace Connection

/-- The constructors of `ConnectionF`, which has no receiver, and of `ConnectionMF`. -/
def make (receiver : Option ρ) (type : UInt32) (thread : Option θ) : Connection θ ρ where
  isFunc := receiver.isNone
  receiver := receiver
  target := receiver
  type := type &&& ~~~SingleShotConnection
  thread := thread
  isSingleShot := type &&& SingleShotConnection != 0
  hasEmitted := false
  hasFired := false

/-- `setEmitted`. -/
def setEmitted (c : Connection θ ρ) : Connection θ ρ := { c with hasEmitted := true }

/-- `setFired`. -/
def setFired (c : Connection θ ρ) : Connection θ ρ :=
  { c with hasFired := if c.isSingleShot && !c.hasFired then true else c.hasFired }

/-- `clone`. -/
def clone (c : Connection θ ρ) (receiver : ρ) : Connection θ ρ := { c with receiver := receiver }

/-- What `emit` makes of `m_type` on the thread `current`: an `AutoConnection` is settled for good
by the first emission that reaches it. -/
def settle [DecidableEq θ] (c : Connection θ ρ) (current : θ) : Connection θ ρ :=
  { c with type :=
    if c.type = AutoConnection then
      match c.thread with
      | none => DirectConnection
      | some t => if t = current then DirectConnection else QueuedConnection
    else c.type }

@[simp] theorem setEmitted_isSingleShot (c : Connection θ ρ) :
    c.setEmitted.isSingleShot = c.isSingleShot := rfl

@[simp] theorem setFired_isSingleShot (c : Connection θ ρ) :
    c.setFired.isSingleShot = c.isSingleShot := rfl

@[simp] theorem setFired_hasEmitted (c : Connection θ ρ) :
    c.setFired.hasEmitted = c.hasEmitted := rfl

@[simp] theorem setFired_type (c : Connection θ ρ) : c.setFired.type = c.type := rfl

@[simp] theorem setFired_thread (c : Connection θ ρ) : c.setFired.thread = c.thread := rfl

@[simp] theorem setFired_receiver (c : Connection θ ρ) : c.setFired.receiver = c.receiver := rfl

@[simp] theorem setFired_isFunc (c : Connection θ ρ) : c.setFired.isFunc = c.isFunc := rfl

@[simp] theorem settle_isFunc [DecidableEq θ] (c : Connection θ ρ) (current : θ) :
    (c.settle current).isFunc = c.isFunc := rfl

@[simp] theorem settle_isSingleShot [DecidableEq θ] (c : Connection θ ρ) (current : θ) :
    (c.settle current).isSingleShot = c.isSingleShot := rfl

@[simp] theorem settle_hasEmitted [DecidableEq θ] (c : Connection θ ρ) (current : θ) :
    (c.settle current).hasEmitted = c.hasEmitted := rfl

@[simp] theorem settle_thread [DecidableEq θ] (c : Connection θ ρ) (current : θ) :
    (c.settle current).thread = c.thread := rfl

@[simp] theorem settle_receiver [DecidableEq θ] (c : Connection θ ρ) (current : θ) :
    (c.settle current).receiver = c.receiver := rfl

end Connection

/-! ## Signals -/

/-- A `Signal`. -/
structure Signal (θ ρ : Type*) where
  /-- The connections it has created, by number. -/
  connections : ℕ → Connection θ ρ
  /-- How many there are. -/
  created : ℕ
  /-- `m_connectionList`, front first. -/
  connectionList : List ℕ
  /-- `m_currentIterator`, where `none` is `end()`. -/
  currentIterator : Option ℕ
  /-- `m_unique`. -/
  unique : Bool

namespace Signal

/-- A signal as it is constructed. -/
def initial : Signal θ ρ where
  connections _ := .make none 0 none
  created := 0
  connectionList := []
  currentIterator := none
  unique := false

/-- The element after `n`. -/
def next (s : Signal θ ρ) (n : ℕ) : Option ℕ :=
  (s.connectionList.dropWhile fun m => m != n).tail.head?

/-- `m_connectionList.push_back` of a new connection. -/
def pushBack (s : Signal θ ρ) (c : Connection θ ρ) : Signal θ ρ :=
  { s with
    connections := Function.update s.connections s.created c
    created := s.created + 1
    connectionList := s.connectionList ++ [s.created] }

/-- `m_connectionList.erase`, with `m_currentIterator` moved on if it stands there. -/
def erase (s : Signal θ ρ) (n : ℕ) : Signal θ ρ :=
  { s with
    connectionList := s.connectionList.erase n
    currentIterator := if s.currentIterator = some n then s.next n else s.currentIterator }

/-- `m_connectionList.pop_front`. -/
def popFront (s : Signal θ ρ) : Signal θ ρ :=
  { s with connectionList := s.connectionList.tail }

/-- What `disconnectAll` ends with. -/
def setEnd (s : Signal θ ρ) : Signal θ ρ := { s with currentIterator := none }

/-- What `emit` begins with. -/
def setBegin (s : Signal θ ρ) : Signal θ ρ :=
  { s with currentIterator := s.connectionList.head? }

/-- `++m_currentIterator`. -/
def advance (s : Signal θ ρ) : Signal θ ρ :=
  { s with currentIterator := s.currentIterator.bind s.next }

/-- A member of a connection is written. -/
def modify (s : Signal θ ρ) (n : ℕ) (f : Connection θ ρ → Connection θ ρ) : Signal θ ρ :=
  { s with connections := Function.update s.connections n (f (s.connections n)) }

/-- `isValid`. -/
def isValid (type : UInt32) (thread : Option θ) : Bool :=
  let type := type &&& ~~~UniqueConnection &&& ~~~SingleShotConnection
  let async := type == QueuedConnection || type == BlockingQueuedConnection
  !(async && thread.isNone)

/-- The section of `connect` of a function: the connection it returns, if any. -/
def connectFunc (s : Signal θ ρ) (type : UInt32) (thread : Option θ) :
    Signal θ ρ × Option ℕ :=
  let unique := type &&& UniqueConnection != 0 || s.unique
  if unique then (s, none)
  else
    let s := { s with unique }
    if !isValid type thread then (s, none)
    else (s.pushBack (.make none (type &&& ~~~UniqueConnection) thread), some s.created)

/-- The section of `connect` of a member function, up to `receiver->connect`. -/
def connect (s : Signal θ ρ) (receiver : ρ) (type : UInt32) (thread : Option θ) :
    Signal θ ρ × Option ℕ :=
  let unique := type &&& UniqueConnection != 0 || s.unique
  if unique && s.connectionList.length > 0 then (s, none)
  else
    let s := { s with unique }
    if !isValid type thread then (s, none)
    else (s.pushBack (.make (some receiver) (type &&& ~~~UniqueConnection) thread), some s.created)

end Signal

/-! ## All objects -/

/-- The signals and the receivers. -/
structure Objects (θ ς ρ : Type*) where
  /-- The signals. -/
  signals : ς → Signal θ ρ
  /-- Each `m_senderList`, front first. -/
  senderList : ρ → List ς
  /-- Whether the destructor of a receiver has not begun. -/
  alive : ρ → Bool

namespace Objects

/-- Signals and receivers just constructed. -/
def initial : Objects θ ς ρ where
  signals _ := Signal.initial
  senderList _ := []
  alive _ := true

/-- `receiver()`: the receiver of a connection, if it is alive. -/
def receiver (o : Objects θ ς ρ) (c : Connection θ ρ) : Option ρ := c.receiver.filter o.alive

/-- `expired()`. -/
def expired (o : Objects θ ς ρ) (c : Connection θ ρ) : Bool :=
  if !c.isFunc then
    if !c.isSingleShot then (o.receiver c).isNone else (o.receiver c).isNone || c.hasFired
  else false

variable [DecidableEq ς] [DecidableEq ρ]

def setSignal (o : Objects θ ς ρ) (g : ς) (s : Signal θ ρ) : Objects θ ς ρ :=
  { o with signals := Function.update o.signals g s }

def setSenderList (o : Objects θ ς ρ) (r : ρ) (senders : List ς) : Objects θ ς ρ :=
  { o with senderList := Function.update o.senderList r senders }

/-- The destructor of a receiver begins. -/
def kill (o : Objects θ ς ρ) (r : ρ) : Objects θ ς ρ :=
  { o with alive := Function.update o.alive r false }

/-- The section of `HasSlots::doConnect`. -/
def addSender (o : Objects θ ς ρ) (r : ρ) (g : ς) : Objects θ ς ρ :=
  o.setSenderList r (o.senderList r ++ [g])

/-- The section of `HasSlots::doDisconnect`: every entry for the signal is erased. -/
def removeSender (o : Objects θ ς ρ) (r : ρ) (g : ς) : Objects θ ς ρ :=
  o.setSenderList r ((o.senderList r).filter (· ≠ g))

/-- The first connection to a receiver, which `SignalBase::disconnect(receiver)` looks for. -/
def findReceiver (o : Objects θ ς ρ) (g : ς) (r : ρ) : Option ℕ :=
  (o.signals g).connectionList.find? fun n =>
    o.receiver ((o.signals g).connections n) = some r

/-- The connections `SignalBase::doDisconnect` erases. -/
def disconnected (o : Objects θ ς ρ) (g : ς) (r : ρ) : List ℕ :=
  (o.signals g).connectionList.filter fun n =>
    o.expired ((o.signals g).connections n) || o.receiver ((o.signals g).connections n) = some r

/-- The section of `SignalBase::doDisconnect`. -/
def slotDisconnect (o : Objects θ ς ρ) (g : ς) (r : ρ) : Objects θ ς ρ :=
  o.setSignal g ((o.disconnected g r).foldl Signal.erase (o.signals g))

/-- The connections `SignalBase::doClone` clones. -/
def cloned (o : Objects θ ς ρ) (g : ς) (oldReceiver : ρ) : List ℕ :=
  (o.signals g).connectionList.filter fun n =>
    o.receiver ((o.signals g).connections n) = some oldReceiver

/-- The section of `SignalBase::doClone`. -/
def slotClone (o : Objects θ ς ρ) (g : ς) (oldReceiver newReceiver : ρ) : Objects θ ς ρ :=
  o.setSignal g ((o.cloned g oldReceiver).foldl
    (fun s n => s.pushBack (((o.signals g).connections n).clone newReceiver)) (o.signals g))

end Objects

end Sigslot2

end TQLib
