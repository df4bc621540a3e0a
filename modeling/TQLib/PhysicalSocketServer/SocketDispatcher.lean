import TQLib.PhysicalSocketServer.Model

/-!
# `SocketDispatcher`

The sockets of a server that uses epoll. A socket has a descriptor while it is open, and the events
it wants to hear of. `OnEvent` holds the updates of the interest list back until it is done: the
mask it started from is put aside, and compared with the one it ends with.

`OnEvent` is taken in parts, one for each event it has been told of, and each ends with a signal.
What the handlers of the signal do are the actions that come before the next part: any calls, on any
socket.
-/

namespace TQLib

namespace PhysicalSocketServer

variable {δ : Type*}

/-- `ConnState`, as far as it is written here. -/
inductive ConnState
  /-- `CS_CLOSED`. -/
  | closed
  /-- `CS_CONNECTED`. -/
  | connected
  deriving DecidableEq

/-- `SocketDispatcher`, with what it has of `PhysicalSocket`. -/
structure SocketDispatcher where
  /-- `s_`, or none where it is `INVALID_SOCKET`. -/
  s : Option ℕ
  /-- `udp_`. -/
  udp : Bool
  /-- `state_`. -/
  state : ConnState
  /-- `enabled_events_`. -/
  enabledEvents : UInt8
  /-- `saved_enabled_events_`, or none where it is -1. -/
  savedEnabledEvents : Option UInt8
  deriving DecidableEq

namespace SocketDispatcher

/-- `SocketDispatcher(ss)`. -/
def initial : SocketDispatcher := ⟨none, false, .closed, 0, none⟩

/-- `GetRequestedEvents`. -/
def requestedEvents (k : SocketDispatcher) : UInt32 := k.enabledEvents.toUInt32

/-- What a socket should be registered for. -/
def epollEvents (k : SocketDispatcher) : UInt32 := getEpollEvents k.requestedEvents

end SocketDispatcher

/-- A part of `OnEvent`. -/
inductive Part
  /-- `DE_CONNECT`. -/
  | connect
  /-- `DE_ACCEPT`. -/
  | accept
  /-- `DE_READ`. -/
  | read
  /-- `DE_WRITE`. -/
  | write
  /-- `DE_CLOSE`. -/
  | close
  deriving DecidableEq

/-- The parts of `OnEvent` for the events `ff`, in their order. -/
def parts (ff : UInt32) : List Part :=
  [(DE_CONNECT, Part.connect), (DE_ACCEPT, .accept), (DE_READ, .read), (DE_WRITE, .write),
    (DE_CLOSE, .close)].filterMap fun p => if ff &&& p.1 ≠ 0 then some p.2 else none

/-- The sockets of a server, the server and the descriptors of the process. -/
structure System (δ : Type*) where
  /-- The server. -/
  server : Server (Dispatcher δ)
  /-- The descriptors that are open. -/
  openFds : Finset ℕ
  /-- The sockets, by address. -/
  sockets : δ → SocketDispatcher
  /-- What the `OnEvent` of a socket still has to do. -/
  active : δ → Option (List Part)

/-- What a run shows. -/
inductive Observation (δ : Type*)
  /-- `StartBatchedEventUpdates`. -/
  | started (d : δ)
  /-- `Close`, of a socket that was open. -/
  | closed (d : δ)
  /-- A socket with a new descriptor is handed to the server, wanting these events. -/
  | opened (d : δ) (events : UInt32)
  /-- `FinishBatchedEventUpdates`, with the events that were put aside and those wanted now. -/
  | finished (d : δ) (old new : UInt32)
  deriving DecidableEq

/-- One step. -/
inductive Action (δ : Type*)
  /-- `Create`, of a UDP socket or not; `socket` returns this descriptor or fails. -/
  | create (d : δ) (udp : Bool) (fd : Option ℕ)
  /-- `WrapSocket`: a new socket for a descriptor that `accept` has returned. -/
  | wrapSocket (d : δ) (udp : Bool) (fd : ℕ)
  /-- `Close`. -/
  | close (d : δ)
  /-- `~SocketDispatcher`; another socket may get the address. -/
  | delete (d : δ)
  /-- `SetEnabledEvents`. -/
  | setEnabledEvents (d : δ) (events : UInt8)
  /-- `EnableEvents`. -/
  | enableEvents (d : δ) (events : UInt8)
  /-- `DisableEvents`. -/
  | disableEvents (d : δ) (events : UInt8)
  /-- `StartBatchedEventUpdates`, by nobody but `OnEvent` in the source. -/
  | startBatchedEventUpdates (d : δ)
  /-- `FinishBatchedEventUpdates`. -/
  | finishBatchedEventUpdates (d : δ)
  /-- `OnEvent` is entered. -/
  | onEvent (d : δ) (ff : UInt32)
  /-- `OnEvent` goes on. -/
  | resume (d : δ)

namespace System

variable [DecidableEq δ]

/-- The sockets of a server before any is open. -/
def initial (fd : ℕ) (openFds : Finset ℕ) : System δ where
  server := (Server.empty true).add .signalWakeup (some fd) DE_READ
  openFds := openFds
  sockets _ := .initial
  active _ := none

/-- Write to one socket. -/
def modify (x : System δ) (d : δ) (f : SocketDispatcher → SocketDispatcher) : System δ :=
  { x with sockets := Function.update x.sockets d (f (x.sockets d)) }

/-- `ss_->Add(this)`. -/
def add (x : System δ) (d : δ) : System δ :=
  { x with server := x.server.add (.socket d) (x.sockets d).s (x.sockets d).requestedEvents }

/-- `ss_->Remove(this)`. -/
def remove (x : System δ) (d : δ) : System δ :=
  { x with server := x.server.remove (.socket d) (x.sockets d).s }

/-- `ss_->Update(this)`. -/
def update (x : System δ) (d : δ) : System δ :=
  { x with server := x.server.update (.socket d) (x.sockets d).s (x.sockets d).requestedEvents }

/-- `MaybeUpdateDispatcher`. -/
def maybeUpdateDispatcher (x : System δ) (d : δ) (oldEvents : UInt8) : System δ :=
  if (x.sockets d).epollEvents ≠ getEpollEvents oldEvents.toUInt32 ∧
      (x.sockets d).savedEnabledEvents = none then
    x.update d
  else x

/-- What `SetEnabledEvents`, `EnableEvents` and `DisableEvents` share. -/
def changeEvents (x : System δ) (d : δ) (f : UInt8 → UInt8) : System δ :=
  (x.modify d fun k => { k with enabledEvents := f k.enabledEvents }).maybeUpdateDispatcher d
    (x.sockets d).enabledEvents

/-- `SetEnabledEvents`. -/
def setEnabledEvents (x : System δ) (d : δ) (events : UInt8) : System δ :=
  x.changeEvents d fun _ => events

/-- `EnableEvents`. -/
def enableEvents (x : System δ) (d : δ) (events : UInt8) : System δ :=
  x.changeEvents d fun enabled => enabled ||| events

/-- `DisableEvents`. -/
def disableEvents (x : System δ) (d : δ) (events : UInt8) : System δ :=
  x.changeEvents d fun enabled => enabled &&& ~~~events

/-- `PhysicalSocket::Close`, of a socket that is open. -/
def physicalClose (x : System δ) (d : δ) (fd : ℕ) : System δ :=
  ({ x with server := x.server.closesocket fd, openFds := x.openFds.erase fd }.modify d fun k =>
    { k with s := none, state := .closed }).setEnabledEvents d 0

/-- `Close`. -/
def close (x : System δ) (d : δ) : System δ :=
  match (x.sockets d).s with
  | none => x
  | some fd =>
    -- the socket may be opened again before the batch is over
    ((x.modify d fun k =>
      { k with savedEnabledEvents := k.savedEnabledEvents.map fun _ => 0 }).remove d).physicalClose
      d fd

/-- `PhysicalSocket::Create`. -/
def physicalCreate (x : System δ) (d : δ) (udp : Bool) (fd : Option ℕ) : System δ :=
  let x := (x.close d).modify d fun k => { k with s := fd, udp }
  let x := { x with openFds := fd.elim x.openFds fun fd => insert fd x.openFds }
  if udp then x.setEnabledEvents d (DE_READ ||| DE_WRITE).toUInt8 else x

/-- `Create`: `Initialize` hands the socket to the server. -/
def create (x : System δ) (d : δ) (udp : Bool) (fd : Option ℕ) : System δ :=
  let x := x.physicalCreate d udp fd
  if (x.sockets d).s = none then x else x.add d

/-- `SocketDispatcher(s, ss)` and `Initialize`. -/
def wrapSocket (x : System δ) (d : δ) (udp : Bool) (fd : ℕ) : System δ :=
  { x.modify d fun _ => ⟨some fd, udp, .connected, (DE_READ ||| DE_WRITE).toUInt8, none⟩ with
    openFds := insert fd x.openFds }.add d

/-- `StartBatchedEventUpdates`. -/
def startBatchedEventUpdates (x : System δ) (d : δ) : System δ :=
  x.modify d fun k => { k with savedEnabledEvents := some k.enabledEvents }

/-- `FinishBatchedEventUpdates`, for a batch that started with the mask `oldEvents`. -/
def finishBatchedEventUpdates (x : System δ) (d : δ) (oldEvents : UInt8) : System δ :=
  (x.modify d fun k => { k with savedEnabledEvents := none }).maybeUpdateDispatcher d oldEvents

/-- What a part of `OnEvent` does before its signal. -/
def part (x : System δ) (d : δ) : Part → System δ
  | .connect => x.disableEvents d DE_CONNECT.toUInt8
  | .accept => x.disableEvents d DE_ACCEPT.toUInt8
  | .read => x.disableEvents d DE_READ.toUInt8
  | .write => x.disableEvents d DE_WRITE.toUInt8
  | .close => x.setEnabledEvents d 0

/-- What `OnEvent` does with `state_`. -/
def setState (x : System δ) (d : δ) (ff : UInt32) : System δ :=
  x.modify d fun k =>
    { k with
      state := if ff &&& DE_CLOSE ≠ 0 then .closed
        else if ff &&& DE_CONNECT ≠ 0 then .connected else k.state }

/-- How far `OnEvent` has come. -/
def setActive (x : System δ) (d : δ) (ps : Option (List Part)) : System δ :=
  { x with active := Function.update x.active d ps }

/-- What is shown of the socket a call of `Close` finds. -/
def showClosed (x : System δ) (d : δ) : List (Observation δ) :=
  if (x.sockets d).s = none then [] else [.closed d]

/-- What is shown of the socket a call of `Initialize` leaves. -/
def showOpened (x : System δ) (d : δ) : List (Observation δ) :=
  if (x.sockets d).s = none then [] else [.opened d (x.sockets d).epollEvents]

/-- One step. The descriptor that `socket` or `accept` returns was not open. -/
def step (x : System δ) : Action δ → Option (System δ × List (Observation δ))
  | .create d udp fd =>
    if ∀ f ∈ fd, f ∉ (x.close d).openFds then
      some (x.create d udp fd, x.showClosed d ++ (x.create d udp fd).showOpened d)
    else none
  | .wrapSocket d udp fd =>
    if x.sockets d = .initial ∧ x.active d = none ∧ fd ∉ x.openFds then
      some (x.wrapSocket d udp fd, (x.wrapSocket d udp fd).showOpened d)
    else none
  | .close d => some (x.close d, x.showClosed d)
  | .delete d =>
    if x.active d = none then some ((x.close d).modify d fun _ => .initial, x.showClosed d)
    else none
  | .setEnabledEvents d events => some (x.setEnabledEvents d events, [])
  | .enableEvents d events => some (x.enableEvents d events, [])
  | .disableEvents d events => some (x.disableEvents d events, [])
  | .startBatchedEventUpdates d =>
    if (x.sockets d).savedEnabledEvents = none then
      some (x.startBatchedEventUpdates d, [.started d])
    else none
  | .finishBatchedEventUpdates d =>
    match (x.sockets d).savedEnabledEvents, x.active d with
    | some oldEvents, none =>
      some (x.finishBatchedEventUpdates d oldEvents,
        [.finished d (getEpollEvents oldEvents.toUInt32) (x.sockets d).epollEvents])
    | _, _ => none
  | .onEvent d ff =>
    if (x.sockets d).savedEnabledEvents = none ∧ x.active d = none then
      some (((x.setState d ff).startBatchedEventUpdates d).setActive d (some (parts ff)),
        [.started d])
    else none
  | .resume d =>
    match x.active d with
    | some (p :: ps) => some ((x.part d p).setActive d (some ps), [])
    | some [] =>
      (x.sockets d).savedEnabledEvents.map fun oldEvents =>
        ((x.finishBatchedEventUpdates d oldEvents).setActive d none,
          [.finished d (getEpollEvents oldEvents.toUInt32) (x.sockets d).epollEvents])
    | none => none

end System

/-- The sockets of a server as a machine. -/
def sockets (δ : Type*) [DecidableEq δ] : Machine (System δ) (Action δ) (Observation δ) where
  start x := ∃ fd fds, fd ∈ fds ∧ x = System.initial fd fds
  step := System.step

end PhysicalSocketServer

end TQLib
