import TQLib.Foundations.Registry
import TQLib.PhysicalSocketServer.Model

/-!
# `Wait`

The thread that waits for the dispatchers, on any of the three ways it can: `select`, `epoll_wait`,
and `poll` on `signal_wakeup_` alone. What the kernel reports is gone through one entry at a time.
Between two entries the handlers of the first run, and they may do anything with other dispatchers,
or with this one: have it removed, give it another descriptor, add it again, or add another one at
the address it had. So may other threads while this one is in the kernel, and here at any time.

A dispatcher changes its descriptor only while the server does not know it: `SocketDispatcher`
removes itself before it closes the old one, and adds itself after it has the new one. How long to
wait is left to the environment.
-/

namespace TQLib

namespace PhysicalSocketServer

variable {δ : Type*}

/-! ## `ProcessEvents` -/

/-- What the kernel answers about a descriptor while `ProcessEvents` looks at it. -/
structure Probe where
  /-- The pending error, `SO_ERROR`, or none where `getsockopt` fails. -/
  error : Option ℤ
  /-- Whether it fails with `ENOTSOCK`. -/
  notSocket : Bool
  /-- `IsDescriptorClosed`. -/
  closed : Bool

/-- `EBADF`. -/
def EBADF : ℤ := 9

/-- `errcode`. -/
def errcode (errorEvent checkError : Bool) (q : Probe) : ℤ :=
  if checkError then
    match q.error with
    | some errcode => errcode
    | none => if errorEvent || !q.notSocket then EBADF else 0
  else 0

/-- `ProcessEvents`: the events `OnEvent` is told of, where there are any. -/
def processEvents (requestedEvents : UInt32) (readable writable errorEvent checkError : Bool)
    (q : Probe) : UInt32 :=
  let errcode := errcode errorEvent checkError q
  (if readable then
    if errcode ≠ 0 ∨ q.closed then DE_CLOSE
    else if requestedEvents &&& DE_ACCEPT ≠ 0 then DE_ACCEPT
    else DE_READ
  else 0) |||
  (if writable then
    if requestedEvents &&& DE_CONNECT ≠ 0 then if errcode = 0 then DE_CONNECT else 0
    else DE_WRITE
  else 0) |||
  if errcode ≠ 0 then DE_CLOSE else 0

/-! ## The state -/

/-- What `Wait` waits with. -/
inductive Backend
  /-- `WaitSelect`. -/
  | select (processIo : Bool)
  /-- `WaitEpoll`. -/
  | epoll
  /-- `WaitPoll(cmsWait, signal_wakeup_)`. -/
  | poll
  deriving DecidableEq

/-- Where the thread that waits is. -/
inductive Waiting
  /-- Not in `Wait`. -/
  | idle
  /-- About to test `fWait_`. -/
  | head (backend : Backend)
  /-- In `select`, for `current_dispatcher_keys_` and two sets of descriptors. -/
  | select (processIo : Bool) (keys : List UInt64) (fdsRead fdsWrite : Finset ℕ)
  /-- Going through the keys, with what `select` has left of the sets. -/
  | selected (processIo : Bool) (keys : List UInt64) (fdsRead fdsWrite : Finset ℕ)
  /-- Going through `epoll_events_`. -/
  | epolled (events : List EpollEvent)
  /-- With what `poll` has returned, until it is dealt with. -/
  | polled (revents : Option UInt32)

/-- How a system call returns. -/
inductive Returned (α : Type*)
  /-- With an error other than `EINTR`. -/
  | error
  /-- With `EINTR`. -/
  | interrupted
  /-- With 0. -/
  | timeout
  /-- With something. -/
  | ready (a : α)

/-- A server, its dispatchers and the thread that waits. -/
structure Loop (δ : Type*) where
  /-- The server. -/
  server : Server (Dispatcher δ)
  /-- `WEBRTC_USE_EPOLL`. -/
  useEpoll : Bool
  /-- What `GetDescriptor` returns. -/
  descriptor : Dispatcher δ → Option ℕ
  /-- What `GetRequestedEvents` returns. -/
  requestedEvents : Dispatcher δ → UInt32
  /-- `fWait_`. -/
  fWait : Bool
  /-- The thread that waits. -/
  waiting : Waiting

/-- What a run shows. Under `select`, something is collected for a key when a descriptor of it is
reported. -/
abbrev Notice (δ : Type*) := RegistryEvent UInt64 (Dispatcher δ)

/-- One step. -/
inductive Step (δ : Type*)
  /-- `Add`. -/
  | add (d : δ)
  /-- `Remove`. -/
  | remove (d : δ)
  /-- `Update`. -/
  | update (d : δ)
  /-- A dispatcher changes what it requests. -/
  | request (d : δ) (events : UInt32)
  /-- A dispatcher opens a descriptor. -/
  | openDescriptor (d : δ) (fd : ℕ)
  /-- A dispatcher closes its descriptor, or is deleted. -/
  | closeDescriptor (d : δ)
  /-- `Wait` is called. -/
  | wait (processIo : Bool)
  /-- The loop is left because `fWait_` is false. -/
  | leave
  /-- `WaitSelect` goes through `dispatcher_by_key_`, which it finds in this order. -/
  | collect (keys : List UInt64)
  /-- `select` returns. -/
  | select (result : Returned (Finset ℕ × Finset ℕ))
  /-- `epoll_wait` returns descriptors, with what has happened to them. -/
  | epollWait (result : Returned (List (ℕ × UInt32)))
  /-- `poll` returns. -/
  | poll (result : Returned UInt32)
  /-- The next entry is dealt with. -/
  | process (q : Probe)
  /-- There are no more entries; the time may be over. -/
  | again (expired : Bool)

namespace Loop

/-- How `Wait` waits. -/
def backend (x : Loop δ) (processIo : Bool) : Backend :=
  if x.useEpoll then
    if !processIo then .poll
    else if x.server.epoll then .epoll
    else .select processIo
  else .select processIo

/-- `OnEvent` is called, unless there is nothing to tell. That of the `Signaler` clears `fWait_`. -/
def onEvent [DecidableEq δ] (x : Loop δ) (key : UInt64) (p : Dispatcher δ) (ff : UInt32) :
    Loop δ × List (Notice δ) :=
  if ff = 0 then (x, [])
  else ({ x with fWait := x.fWait && p ≠ .signalWakeup }, [.delivered key p])

variable [DecidableEq δ]

/-- The dispatcher registered under a key. -/
def dispatcher (x : Loop δ) (key : UInt64) : Option (Dispatcher δ) :=
  x.server.dispatcherByKey.lookup key

/-- The keys `WaitSelect` collects. -/
def selectable (x : Loop δ) (processIo : Bool) : Finset UInt64 :=
  x.server.dispatcherByKey.keys.filter fun key =>
    processIo ∨ x.dispatcher key = some .signalWakeup

/-- The descriptors of the dispatchers under some keys that request some events. -/
def fds (x : Loop δ) (keys : List UInt64) (events : UInt32) : Finset ℕ :=
  (keys.filterMap fun key => (x.dispatcher key).bind fun p =>
    if x.requestedEvents p &&& events ≠ 0 then x.descriptor p else none).toFinset

/-- What `select` reports of the dispatcher under a key. -/
def reported (x : Loop δ) (fds : Finset ℕ) (key : UInt64) : Bool :=
  (x.dispatcher key).any fun p => (x.descriptor p).any fun fd => fd ∈ fds

/-- The part of `WaitSelect` that deals with one key. -/
def processSelected (x : Loop δ) (processIo : Bool) (key : UInt64) (keys : List UInt64)
    (fdsRead fdsWrite : Finset ℕ) (q : Probe) : Loop δ × List (Notice δ) :=
  match x.dispatcher key with
  | none => ({ x with waiting := .selected processIo keys fdsRead fdsWrite }, [])
  | some p =>
    match x.descriptor p with
    | none => ({ x with waiting := .selected processIo keys fdsRead fdsWrite }, [])
    | some fd =>
      { x with waiting := .selected processIo keys (fdsRead.erase fd) (fdsWrite.erase fd) }.onEvent
        key p (processEvents (x.requestedEvents p) (fd ∈ fdsRead) (fd ∈ fdsWrite) false
          (fd ∈ fdsRead || fd ∈ fdsWrite) q)

/-- The part of `WaitEpoll` that deals with one event. -/
def processEpolled (x : Loop δ) (event : EpollEvent) (events : List EpollEvent) (q : Probe) :
    Loop δ × List (Notice δ) :=
  match x.dispatcher event.key with
  | none => ({ x with waiting := .epolled events }, [])
  | some p =>
    let error : Bool := event.events &&& (EPOLLRDHUP ||| EPOLLERR ||| EPOLLHUP) ≠ 0
    { x with waiting := .epolled events }.onEvent event.key p
      (processEvents (x.requestedEvents p) (event.events &&& (EPOLLIN ||| EPOLLPRI) ≠ 0)
        (event.events &&& EPOLLOUT ≠ 0) error error q)

/-- The part of `WaitPoll` that deals with what has happened to `signal_wakeup_`. The bits are those
of `epoll_wait`. -/
def processPolled (x : Loop δ) (revents : UInt32) (q : Probe) : Loop δ × List (Notice δ) :=
  let error : Bool := revents &&& (EPOLLRDHUP ||| EPOLLERR ||| EPOLLHUP) ≠ 0
  { x with waiting := .polled none }.onEvent 0 .signalWakeup
    (processEvents (x.requestedEvents .signalWakeup) (revents &&& (EPOLLIN ||| EPOLLPRI) ≠ 0)
      (revents &&& EPOLLOUT ≠ 0) error error q)

/-- `epoll_wait` reports descriptors that are registered, with their keys. -/
def epollEvents (x : Loop δ) (ready : List (ℕ × UInt32)) : List EpollEvent :=
  ready.filterMap fun r => (x.server.interest r.1).map fun event => ⟨r.2, event.key⟩

/-- One step. -/
def step (x : Loop δ) : Step δ → Option (Loop δ × List (Notice δ))
  | .add d =>
    some ({ x with
        server := x.server.add (.socket d) (x.descriptor (.socket d))
          (x.requestedEvents (.socket d)) },
      if .socket d ∈ x.server.keyByDispatcher then []
      else [.added x.server.nextDispatcherKey (.socket d)])
  | .remove d =>
    some ({ x with server := x.server.remove (.socket d) (x.descriptor (.socket d)) },
      (x.server.keyByDispatcher.lookup (.socket d)).elim [] fun key => [.removed key])
  | .update d =>
    some ({ x with
      server := x.server.update (.socket d) (x.descriptor (.socket d))
        (x.requestedEvents (.socket d)) }, [])
  | .request d events =>
    some ({ x with
      requestedEvents := Function.update x.requestedEvents (.socket d) events }, [])
  | .openDescriptor d fd =>
    if .socket d ∉ x.server.keyByDispatcher ∧ x.descriptor (.socket d) = none then
      some ({ x with descriptor := Function.update x.descriptor (.socket d) (some fd) }, [])
    else none
  | .closeDescriptor d =>
    match x.descriptor (.socket d) with
    | some fd =>
      if .socket d ∉ x.server.keyByDispatcher then
        some ({ x with
          server := x.server.closesocket fd
          descriptor := Function.update x.descriptor (.socket d) none }, [])
      else none
    | none => none
  | .wait processIo =>
    match x.waiting with
    | .idle => some ({ x with fWait := true, waiting := .head (x.backend processIo) }, [])
    | _ => none
  | .leave =>
    match x.waiting with
    | .head _ => if x.fWait then none else some ({ x with waiting := .idle }, [])
    | _ => none
  | .collect keys =>
    match x.waiting with
    | .head (.select processIo) =>
      if x.fWait ∧ keys.Nodup ∧ keys.toFinset = x.selectable processIo then
        some ({ x with
          waiting := .select processIo keys (x.fds keys (DE_READ ||| DE_ACCEPT))
            (x.fds keys (DE_WRITE ||| DE_CONNECT)) }, [])
      else none
    | _ => none
  | .select result =>
    match x.waiting, result with
    | .select _ _ _ _, .error => some ({ x with waiting := .idle }, [])
    | .select processIo _ _ _, .interrupted =>
      some ({ x with waiting := .head (.select processIo) }, [])
    | .select _ _ _ _, .timeout => some ({ x with waiting := .idle }, [])
    | .select processIo keys fdsRead fdsWrite, .ready (readable, writable) =>
      if readable ⊆ fdsRead ∧ writable ⊆ fdsWrite then
        some ({ x with waiting := .selected processIo keys readable writable },
          (keys.filter (x.reported (readable ∪ writable))).map .collected)
      else none
    | _, _ => none
  | .epollWait result =>
    match x.waiting, result with
    | .head .epoll, .error => if x.fWait then some ({ x with waiting := .idle }, []) else none
    | .head .epoll, .interrupted =>
      if x.fWait then some ({ x with waiting := .epolled [] }, []) else none
    | .head .epoll, .timeout => if x.fWait then some ({ x with waiting := .idle }, []) else none
    | .head .epoll, .ready ready =>
      if x.fWait then
        some ({ x with waiting := .epolled (x.epollEvents ready) },
          (x.epollEvents ready).map fun event => .collected event.key)
      else none
    | _, _ => none
  | .poll result =>
    match x.waiting, result with
    | .head .poll, .error => if x.fWait then some ({ x with waiting := .idle }, []) else none
    | .head .poll, .interrupted =>
      if x.fWait then some ({ x with waiting := .polled none }, []) else none
    | .head .poll, .timeout => if x.fWait then some ({ x with waiting := .idle }, []) else none
    | .head .poll, .ready revents =>
      if x.fWait then some ({ x with waiting := .polled (some revents) }, [.collected 0]) else none
    | _, _ => none
  | .process q =>
    match x.waiting with
    | .selected processIo (key :: keys) fdsRead fdsWrite =>
      some (x.processSelected processIo key keys fdsRead fdsWrite q)
    | .epolled (event :: events) => some (x.processEpolled event events q)
    | .polled (some revents) => some (x.processPolled revents q)
    | _ => none
  | .again expired =>
    match x.waiting with
    | .selected processIo [] _ _ => some ({ x with waiting := .head (.select processIo) }, [])
    | .epolled [] => some ({ x with waiting := if expired then .idle else .head .epoll }, [])
    | .polled none => some ({ x with waiting := if expired then .idle else .head .poll }, [])
    | _ => none

end Loop

/-- A server after its construction: `signal_wakeup_`, with this descriptor, has the key 0. -/
def Loop.initial [DecidableEq δ] (useEpoll epoll : Bool) (fd : ℕ) : Loop δ where
  server := (Server.empty epoll).add .signalWakeup (some fd) DE_READ
  useEpoll := useEpoll
  descriptor := Function.update (fun _ => none) .signalWakeup (some fd)
  requestedEvents := Function.update (fun _ => 0) .signalWakeup DE_READ
  fWait := false
  waiting := .idle

/-- A server, its dispatchers and the thread that waits, as a machine. -/
def loop (δ : Type*) [DecidableEq δ] : Machine (Loop δ) (Step δ) (Notice δ) where
  start x := ∃ useEpoll epoll fd, (epoll = true → useEpoll = true) ∧
    x = Loop.initial useEpoll epoll fd
  step := Loop.step

end PhysicalSocketServer

end TQLib
