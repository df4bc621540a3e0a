import TQLib.PhysicalSocketServer.SocketDispatcher

/-!
# Connecting and closing a socket

`PhysicalSocket`, with what `SocketDispatcher` adds to `Create`, `Close` and `OnEvent`, as built for
POSIX and for Windows. A socket may be without a descriptor, and may have a resolver at work whose
result makes it connect later. What the system calls return is chosen by the environment, and so is
what the handlers of the signals do: any calls on the same socket.

Waiting is not reentrant, so that one `OnEvent` or `OnResolveResult` is over before the next begins,
and its handlers run inside it. `OnEvent` is called by the server while the socket is registered
with it, which it is from `Initialize` to `Close`, and that is as long as it has a descriptor.

`id_`, `signal_close_` and `signal_err_` are members on Windows only. `next_id_` is common to all
sockets. It counts in an `int`, and is taken to come round after the largest, as the loop around its
increment expects.
-/

namespace TQLib

namespace PhysicalSocketServer

namespace PhysicalSocket

/-- What the library is built for. -/
inductive Platform
  /-- `WEBRTC_POSIX`, and there Linux. -/
  | posix
  /-- `WEBRTC_WIN`. -/
  | windows
  deriving DecidableEq

/-- `EALREADY`. -/
def EALREADY : Platform → ℤ
  | .posix => 114
  | .windows => 10037

/-- `IsBlockingError`: `EWOULDBLOCK`, `EAGAIN`, which is the same on Linux, or `EINPROGRESS`. -/
def isBlockingError : Platform → ℤ → Bool
  | .posix, e => e = 11 ∨ e = 115
  | .windows, e => e = 10035 ∨ e = 11 ∨ e = 10036

/-- `SOCKET_ERROR`. -/
def SOCKET_ERROR : ℤ := -1

/-- `ConnState`. -/
inductive ConnState
  /-- `CS_CLOSED`. -/
  | closed
  /-- `CS_CONNECTING`. -/
  | connecting
  /-- `CS_CONNECTED`. -/
  | connected
  deriving DecidableEq

/-- What a system call gives. -/
structure Syscall where
  /-- Whether it succeeds. -/
  ok : Bool
  /-- `LAST_SYSTEM_ERROR` after it. -/
  lastError : ℤ
  deriving DecidableEq

/-- What the system calls of `DoConnect` give. -/
structure Attempt where
  /-- `::socket`, where it is called. -/
  socket : Syscall
  /-- `::connect`. -/
  connect : Syscall
  deriving DecidableEq

end PhysicalSocket

/-- The members of a socket. -/
structure PhysicalSocket where
  /-- Whether `s_` is a descriptor. -/
  s : Bool
  /-- `state_`. -/
  state : PhysicalSocket.ConnState
  /-- `resolver_`, as a number. -/
  resolver : Option ℕ
  /-- `error_`. -/
  error : ℤ
  /-- `enabled_events_`. -/
  enabledEvents : UInt8
  /-- `id_`. -/
  id : UInt32
  /-- `signal_close_`. -/
  signalClose : Bool
  /-- `signal_err_`. -/
  signalErr : ℤ
  /-- `next_id_`. -/
  nextId : UInt32
  /-- The number the next `new AsyncResolver` gets. -/
  nextResolver : ℕ
  deriving DecidableEq

namespace PhysicalSocket

/-! ## Calls on a socket -/

/-- `SetEnabledEvents`. -/
def setEnabledEvents (x : PhysicalSocket) (events : UInt32) : PhysicalSocket :=
  { x with enabledEvents := events.toUInt8 }

/-- `EnableEvents`. -/
def enableEvents (x : PhysicalSocket) (events : UInt32) : PhysicalSocket :=
  { x with enabledEvents := x.enabledEvents ||| events.toUInt8 }

/-- `DisableEvents`. -/
def disableEvents (x : PhysicalSocket) (events : UInt32) : PhysicalSocket :=
  { x with enabledEvents := x.enabledEvents &&& ~~~events.toUInt8 }

/-- `PhysicalSocket(ss)`, or `PhysicalSocket(ss, s)` for a descriptor. -/
def constructed (s : Bool) (nextId : UInt32) (nextResolver : ℕ) : PhysicalSocket where
  s := s
  state := if s then .connected else .closed
  resolver := none
  error := 0
  enabledEvents := if s then (DE_READ ||| DE_WRITE).toUInt8 else 0
  id := 0
  signalClose := false
  signalErr := 0
  nextId := nextId
  nextResolver := nextResolver

/-- `PhysicalSocket::Close`. -/
def physicalClose (x : PhysicalSocket) (lastError : ℤ) : PhysicalSocket :=
  if x.s then
    { x with error := lastError, s := false, state := .closed, resolver := none }.setEnabledEvents 0
  else x

/-- `SocketDispatcher::Close`. -/
def close (x : PhysicalSocket) (lastError : ℤ) : PhysicalSocket :=
  if x.s then { x with id := 0, signalClose := false }.physicalClose lastError else x

/-- `PhysicalSocket::Create`. -/
def physicalCreate (x : PhysicalSocket) (udp : Bool) (closeError : ℤ) (socket : Syscall) :
    PhysicalSocket :=
  let x := { x.close closeError with s := socket.ok, error := socket.lastError }
  if udp then x.setEnabledEvents (DE_READ ||| DE_WRITE) else x

/-- `do { id_ = ++next_id_; } while (id_ == 0);` -/
def renewId (x : PhysicalSocket) : PhysicalSocket :=
  let next := x.nextId + 1
  let next := if next = 0 then next + 1 else next
  { x with id := next, nextId := next }

/-- `SocketDispatcher::Create`. -/
def create (x : PhysicalSocket) (udp : Bool) (closeError : ℤ) (socket : Syscall) :
    PhysicalSocket :=
  let x := x.physicalCreate udp closeError socket
  if x.s then x.renewId else x

/-- `DoConnect`, and what it returns. -/
def doConnect (p : Platform) (x : PhysicalSocket) (a : Attempt) : PhysicalSocket × ℤ :=
  let x := if x.s then x else x.create false 0 a.socket
  if !x.s then (x, SOCKET_ERROR)
  else
    let x := { x with error := a.connect.lastError }
    if a.connect.ok then
      ({ x with state := .connected }.enableEvents (DE_READ ||| DE_WRITE), 0)
    else if isBlockingError p x.error then
      ({ x with state := .connecting }.enableEvents (DE_READ ||| DE_WRITE ||| DE_CONNECT), 0)
    else (x, SOCKET_ERROR)

/-- `Connect`, to an address that is resolved or not, and what it returns. -/
def connect (p : Platform) (x : PhysicalSocket) (unresolved : Bool) (a : Attempt) :
    PhysicalSocket × ℤ :=
  if x.state ≠ .closed then ({ x with error := EALREADY p }, SOCKET_ERROR)
  else if unresolved then
    ({ x with
      resolver := some x.nextResolver
      nextResolver := x.nextResolver + 1
      state := .connecting }, 0)
  else x.doConnect p a

/-- `Listen`. -/
def listen (x : PhysicalSocket) (listen : Syscall) : PhysicalSocket :=
  let x := { x with error := listen.lastError }
  if x.s && listen.ok then { x with state := .connecting }.enableEvents DE_ACCEPT else x

/-! ## Signals and handlers -/

/-- The signals of a socket. -/
inductive Signal
  /-- `SignalConnectEvent`. -/
  | connect
  /-- `SignalReadEvent`. -/
  | read
  /-- `SignalWriteEvent`. -/
  | write
  /-- `SignalCloseEvent`. -/
  | close
  deriving DecidableEq

/-- A call that is made on a socket. -/
inductive Call
  /-- `Connect`. -/
  | connect (unresolved : Bool) (a : Attempt)
  /-- `Close`, where `::closesocket` leaves this error. -/
  | close (lastError : ℤ)
  /-- `Create`. -/
  | create (udp : Bool) (closeError : ℤ) (socket : Syscall)
  /-- `Listen`. -/
  | listen (result : Syscall)
  /-- `Send`, `Recv` or `Accept`, as far as they enable events. -/
  | enableEvents (events : UInt32)
  /-- Other sockets are created, and `next_id_` is moved. -/
  | others (nextId : UInt32)
  deriving DecidableEq

/-- What a run shows. -/
inductive Entry
  /-- `Close` has returned, and leaves this state and this resolver. -/
  | closed (state : ConnState) (resolver : Option ℕ)
  /-- `Connect` is called. -/
  | connect
  /-- `Create` is called. -/
  | create
  /-- A signal is emitted in this state; `failed` says that it is because resolving or connecting
  has failed. -/
  | signal (signal : Signal) (failed : Bool) (state : ConnState)
  /-- `signal_close_` is set, for `CheckSignalClose` to emit the signal. -/
  | signalClose
  deriving DecidableEq

/-- A call is made. -/
def perform (p : Platform) (x : PhysicalSocket) : Call → PhysicalSocket × List Entry
  | .connect unresolved a => ((x.connect p unresolved a).1, [.connect])
  | .close lastError =>
    let x := x.close lastError
    (x, [.closed x.state x.resolver])
  | .create udp closeError socket => (x.create udp closeError socket, [.create])
  | .listen result => (x.listen result, [])
  | .enableEvents events => (x.enableEvents events, [])
  | .others nextId => ({ x with nextId }, [])

/-- Calls are made, one after another. -/
def performAll (p : Platform) : PhysicalSocket → List Call → PhysicalSocket × List Entry
  | x, [] => (x, [])
  | x, c :: cs =>
    let (y, log) := x.perform p c
    let (z, log') := performAll p y cs
    (z, log ++ log')

/-- A signal is emitted, and its handlers make these calls. -/
def emit (p : Platform) (x : PhysicalSocket) (signal : Signal) (failed : Bool) (cs : List Call) :
    PhysicalSocket × List Entry :=
  let (y, log) := x.performAll p cs
  (y, .signal signal failed x.state :: log)

/-! ## `OnEvent` -/

/-- Whether a part of `OnEvent` is entered: on Windows all but one compare `id_` with `cache_id`. -/
def enters (p : Platform) (cacheId : UInt32) (x : PhysicalSocket) (q : Part) : Bool :=
  match p, q with
  | .posix, _ => true
  | .windows, .read => true
  | .windows, _ => x.id = cacheId

/-- What a part does before its signal. -/
def prepare (p : Platform) (err : ℤ) (q : Part) (x : PhysicalSocket) : PhysicalSocket :=
  match p, q with
  | _, .connect => x.disableEvents DE_CONNECT
  | _, .accept => x.disableEvents DE_ACCEPT
  | _, .read => x.disableEvents DE_READ
  | _, .write => x.disableEvents DE_WRITE
  | .posix, .close => x.setEnabledEvents 0
  | .windows, .close => { x with signalClose := true, signalErr := err }

/-- The signal of a part, if it emits one. -/
def signal (p : Platform) (q : Part) : Option Signal :=
  match p, q with
  | _, .connect => some .connect
  | _, .accept => some .read
  | _, .read => some .read
  | _, .write => some .write
  | .posix, .close => some .close
  | .windows, .close => none

/-- A part, once it is entered. -/
def part (p : Platform) (err : ℤ) (failed : Bool) (h : Part → List Call) (x : PhysicalSocket)
    (q : Part) : PhysicalSocket × List Entry :=
  match signal p q with
  | some sig => (x.prepare p err q).emit p sig (failed && sig = .close) (h q)
  | none => (x.prepare p err q, [.signalClose])

/-- The parts of `OnEvent` for the events it has been told of. -/
def onParts (p : Platform) (cacheId : UInt32) (err : ℤ) (failed : Bool) (h : Part → List Call) :
    PhysicalSocket → List Part → PhysicalSocket × List Entry
  | x, [] => (x, [])
  | x, q :: qs =>
    if x.enters p cacheId q then
      let (y, log) := x.part p err failed h q
      let (z, log') := onParts p cacheId err failed h y qs
      (z, log ++ log')
    else onParts p cacheId err failed h x qs

/-- What `OnEvent` does with `state_`. -/
def setState (p : Platform) (ff : UInt32) (x : PhysicalSocket) : PhysicalSocket :=
  let x := if ff &&& DE_CONNECT ≠ 0 then { x with state := .connected } else x
  if p = .posix ∧ ff &&& DE_CLOSE ≠ 0 then { x with state := .closed } else x

/-- `OnEvent`, where the handlers of each part make these calls. A failure to connect is reported by
`DE_CLOSE` alone. -/
def onEvent (p : Platform) (x : PhysicalSocket) (ff : UInt32) (err : ℤ) (h : Part → List Call) :
    PhysicalSocket × List Entry :=
  (x.setState p ff).onParts p x.id err (x.state = .connecting && ff = DE_CLOSE) h (parts ff)

/-- `CheckSignalClose`, on Windows; `peeked` is whether there still is something to read. -/
def checkSignalClose (x : PhysicalSocket) (peeked : Bool) (cs : List Call) :
    PhysicalSocket × List Entry :=
  if !x.signalClose || peeked then (x, [])
  else { x with state := .closed, signalClose := false }.emit .windows .close true cs

/-- `OnResolveResult`, of the resolver with this number, whose `GetError` is `error`. -/
def onResolveResult (p : Platform) (x : PhysicalSocket) (resolver : ℕ) (error : ℤ) (a : Attempt)
    (closeError : ℤ) (cs : List Call) : PhysicalSocket × List Entry :=
  if some resolver ≠ x.resolver then (x, [])
  else
    let (x, error) := if error = 0 then x.doConnect p a else (x.close closeError, error)
    if error ≠ 0 then { x with error }.emit p .close true cs else (x, [])

/-! ## Runs -/

/-- What happens to a socket. -/
inductive Action
  /-- A call is made on it. -/
  | call (c : Call)
  /-- A resolver has a result. -/
  | resolved (resolver : ℕ) (error : ℤ) (a : Attempt) (closeError : ℤ) (cs : List Call)
  /-- The server has an event for it. -/
  | onEvent (ff : UInt32) (err : ℤ) (h : Part → List Call)
  /-- The server asks whether it has been closed. -/
  | checkSignalClose (peeked : Bool) (cs : List Call)

/-- A socket as a machine. -/
def sockets (p : Platform) : Machine PhysicalSocket Action Entry where
  start x := ∃ s nextId nextResolver, x = constructed s nextId nextResolver
  step x
    | .call c => some (x.perform p c)
    | .resolved resolver error a closeError cs =>
      some (x.onResolveResult p resolver error a closeError cs)
    | .onEvent ff err h => if x.s then some (x.onEvent p ff err h) else none
    | .checkSignalClose peeked cs =>
      if p = .windows ∧ x.s then some (x.checkSignalClose peeked cs) else none

/-! ## What the calls leave -/

variable {x : PhysicalSocket} {p : Platform}

theorem close_of_open (hs : x.s = true) (lastError : ℤ) : x.close lastError =
    { x with
      error := lastError, s := false, state := .closed, resolver := none, enabledEvents := 0
      id := 0, signalClose := false } := by
  rw [close, if_pos hs, physicalClose, if_pos hs]
  rfl

theorem close_of_not_open (hs : x.s = false) (lastError : ℤ) : x.close lastError = x := by
  rw [close, hs]
  rfl

theorem physicalCreate_keeps (x : PhysicalSocket) (udp : Bool) (closeError : ℤ)
    (socket : Syscall) :
    (x.physicalCreate udp closeError socket).s = socket.ok ∧
      (x.physicalCreate udp closeError socket).id = (x.close closeError).id ∧
      (x.physicalCreate udp closeError socket).resolver = (x.close closeError).resolver ∧
      (x.physicalCreate udp closeError socket).state = (x.close closeError).state := by
  cases udp <;> exact ⟨rfl, rfl, rfl, rfl⟩

theorem create_of_ok {socket : Syscall} (h : socket.ok = true) (x : PhysicalSocket) (udp : Bool)
    (closeError : ℤ) : (x.create udp closeError socket).s = true := by
  obtain ⟨hs, -⟩ := physicalCreate_keeps x udp closeError socket
  rw [h] at hs
  rw [create, if_pos hs]
  exact hs

theorem create_of_not_ok {socket : Syscall} (h : socket.ok = false) (x : PhysicalSocket)
    (udp : Bool) (closeError : ℤ) :
    x.create udp closeError socket = x.physicalCreate udp closeError socket := by
  obtain ⟨hs, -⟩ := physicalCreate_keeps x udp closeError socket
  rw [create, hs, h]
  rfl

/-- A socket without a descriptor keeps its state when it is created. -/
theorem state_create (hs : x.s = false) (udp : Bool) (closeError : ℤ) (socket : Syscall) :
    (x.create udp closeError socket).state = x.state := by
  obtain ⟨-, -, -, hstate⟩ := physicalCreate_keeps x udp closeError socket
  rw [close_of_not_open hs] at hstate
  rw [create]
  split
  · exact hstate
  · exact hstate

/-- `DoConnect` on a socket that has a descriptor goes straight to `::connect`. -/
theorem doConnect_of_open (hs : x.s = true) (a : Attempt) : x.doConnect p a =
    if a.connect.ok then
      ({ x with error := a.connect.lastError, state := .connected }.enableEvents
        (DE_READ ||| DE_WRITE), 0)
    else if isBlockingError p a.connect.lastError then
      ({ x with error := a.connect.lastError, state := .connecting }.enableEvents
        (DE_READ ||| DE_WRITE ||| DE_CONNECT), 0)
    else ({ x with error := a.connect.lastError }, SOCKET_ERROR) := by
  rw [doConnect, if_pos hs, hs]
  rfl

theorem doConnect_of_not_open (hs : x.s = false) (a : Attempt) : x.doConnect p a =
    if a.socket.ok then (x.create false 0 a.socket).doConnect p a
    else (x.create false 0 a.socket, SOCKET_ERROR) := by
  by_cases hok : a.socket.ok = true
  · have hopen := create_of_ok hok x false 0
    rw [if_pos hok, doConnect, hs, doConnect, if_pos hopen]
    rfl
  · have hok' := Bool.eq_false_of_not_eq_true hok
    have hnot : (x.create false 0 a.socket).s = false := by
      rw [create_of_not_ok hok', (physicalCreate_keeps _ _ _ _).1, hok']
    rw [if_neg hok, doConnect, hs, if_neg Bool.false_ne_true, hnot]
    rfl

/-- It keeps the descriptor and `id_`. -/
theorem doConnect_keeps (hs : x.s = true) (a : Attempt) :
    (x.doConnect p a).1.s = true ∧ (x.doConnect p a).1.id = x.id ∧
      (x.doConnect p a).1.resolver = x.resolver := by
  rw [doConnect_of_open hs]
  split
  · exact ⟨hs, rfl, rfl⟩
  · split
    · exact ⟨hs, rfl, rfl⟩
    · exact ⟨hs, rfl, rfl⟩

/-- `OnResolveResult`, of an address. -/
theorem onResolveResult_of_eq_zero {resolver : ℕ} (hr : some resolver = x.resolver) (a : Attempt)
    (closeError : ℤ) (cs : List Call) : x.onResolveResult p resolver 0 a closeError cs =
      if (x.doConnect p a).2 ≠ 0 then
        { (x.doConnect p a).1 with error := (x.doConnect p a).2 }.emit p .close true cs
      else ((x.doConnect p a).1, []) := by
  rw [onResolveResult, if_neg (not_not.mpr hr), if_pos rfl]

/-- `OnResolveResult`, of an error. -/
theorem onResolveResult_of_ne_zero {resolver : ℕ} {error : ℤ} (hr : some resolver = x.resolver)
    (herror : error ≠ 0) (a : Attempt) (closeError : ℤ) (cs : List Call) :
    x.onResolveResult p resolver error a closeError cs =
      { x.close closeError with error }.emit p .close true cs := by
  rw [onResolveResult, if_neg (not_not.mpr hr), if_neg herror]
  exact if_pos herror

end PhysicalSocket

end PhysicalSocketServer

end TQLib
