import TQLib.Foundations.Machine
import TQLib.Foundations.UnorderedMap

/-!
# `PhysicalSocketServer`

The part of `rtc_base/physical_socket_server.cc` that all its components share: the event masks, the
maps between dispatchers and their keys, and the epoll instance, as built for Linux.

A dispatcher is known to the server by its address, and its address may be that of a dispatcher that
is gone. What a dispatcher answers when it is asked for its descriptor or its events is an argument
here. The interest list is the kernel's: which descriptors are registered, for what, and with which
key.
-/

namespace TQLib

namespace PhysicalSocketServer

variable {π : Type*}

/-! ## Events -/

/-- `DE_READ`. -/
def DE_READ : UInt32 := 0x0001

/-- `DE_WRITE`. -/
def DE_WRITE : UInt32 := 0x0002

/-- `DE_CONNECT`. -/
def DE_CONNECT : UInt32 := 0x0004

/-- `DE_CLOSE`. -/
def DE_CLOSE : UInt32 := 0x0008

/-- `DE_ACCEPT`. -/
def DE_ACCEPT : UInt32 := 0x0010

/-- `EPOLLIN`. -/
def EPOLLIN : UInt32 := 0x001

/-- `EPOLLPRI`. -/
def EPOLLPRI : UInt32 := 0x002

/-- `EPOLLOUT`. -/
def EPOLLOUT : UInt32 := 0x004

/-- `EPOLLERR`. -/
def EPOLLERR : UInt32 := 0x008

/-- `EPOLLHUP`. -/
def EPOLLHUP : UInt32 := 0x010

/-- `EPOLLRDHUP`. -/
def EPOLLRDHUP : UInt32 := 0x2000

/-- `GetEpollEvents`. -/
def getEpollEvents (ff : UInt32) : UInt32 :=
  (if ff &&& (DE_READ ||| DE_ACCEPT) ≠ 0 then EPOLLIN else 0) |||
    if ff &&& (DE_WRITE ||| DE_CONNECT) ≠ 0 then EPOLLOUT else 0

/-! ## The kernel's interest list -/

/-- `epoll_event`. -/
structure EpollEvent where
  /-- `events`. -/
  events : UInt32
  /-- `data.u64`. -/
  key : UInt64
  deriving DecidableEq

/-- The interest list of an epoll instance: what each descriptor is registered for. -/
abbrev Interest := ℕ → Option EpollEvent

/-- `EPOLL_CTL_ADD`, which fails with `EEXIST` on a descriptor that is registered. -/
def Interest.ctlAdd (i : Interest) (fd : ℕ) (event : EpollEvent) : Option Interest :=
  if i fd = none then some (Function.update i fd (some event)) else none

/-- `EPOLL_CTL_MOD`, which fails with `ENOENT` on a descriptor that is not registered. -/
def Interest.ctlMod (i : Interest) (fd : ℕ) (event : EpollEvent) : Option Interest :=
  if i fd = none then none else some (Function.update i fd (some event))

/-- `EPOLL_CTL_DEL`, which fails with `ENOENT` on a descriptor that is not registered. -/
def Interest.ctlDel (i : Interest) (fd : ℕ) : Option Interest :=
  if i fd = none then none else some (Function.update i fd none)

/-- The registration of a descriptor for some events: none for no events. -/
def registration (events : UInt32) (key : UInt64) : Option EpollEvent :=
  if events = 0 then none else some ⟨events, key⟩

/-! ## The server -/

/-- What the server hears from, by address. -/
inductive Dispatcher (δ : Type*)
  /-- `signal_wakeup_`. -/
  | signalWakeup
  /-- A socket. -/
  | socket (d : δ)
  deriving DecidableEq

/-- What the dispatchers of a server share. -/
structure Server (π : Type*) where
  /-- `next_dispatcher_key_`. -/
  nextDispatcherKey : UInt64
  /-- `dispatcher_by_key_`. -/
  dispatcherByKey : UnorderedMap UInt64 π
  /-- `key_by_dispatcher_`. -/
  keyByDispatcher : UnorderedMap π UInt64
  /-- `epoll_fd_ != INVALID_SOCKET`. -/
  epoll : Bool
  /-- The interest list of `epoll_fd_`. -/
  interest : Interest

namespace Server

/-- A server that knows no dispatcher. -/
def empty (epoll : Bool) : Server π := ⟨0, ∅, ∅, epoll, fun _ => none⟩

/-- `AddEpoll`, for a dispatcher with the descriptor `fd` that requests `ff`. -/
def addEpoll (s : Server π) (fd : Option ℕ) (ff : UInt32) (key : UInt64) : Server π :=
  match fd with
  | none => s
  | some fd =>
    if getEpollEvents ff = 0 then s
    else { s with interest := (s.interest.ctlAdd fd ⟨getEpollEvents ff, key⟩).getD s.interest }

/-- `RemoveEpoll`. -/
def removeEpoll (s : Server π) (fd : Option ℕ) : Server π :=
  match fd with
  | none => s
  | some fd => { s with interest := (s.interest.ctlDel fd).getD s.interest }

/-- `UpdateEpoll`. -/
def updateEpoll (s : Server π) (fd : Option ℕ) (ff : UInt32) (key : UInt64) : Server π :=
  match fd with
  | none => s
  | some fd =>
    if getEpollEvents ff = 0 then { s with interest := (s.interest.ctlDel fd).getD s.interest }
    else
      match s.interest.ctlMod fd ⟨getEpollEvents ff, key⟩ with
      | some interest => { s with interest }
      | none =>
        { s with interest := (s.interest.ctlAdd fd ⟨getEpollEvents ff, key⟩).getD s.interest }

/-- The kernel drops the registration of a descriptor that is closed. -/
def closesocket (s : Server π) (fd : ℕ) : Server π :=
  { s with interest := Function.update s.interest fd none }

variable [DecidableEq π]

/-- `Add`. -/
def add (s : Server π) (pdispatcher : π) (fd : Option ℕ) (ff : UInt32) : Server π :=
  if pdispatcher ∈ s.keyByDispatcher then s
  else
    let key := s.nextDispatcherKey
    let s := { s with
      nextDispatcherKey := key + 1
      dispatcherByKey := s.dispatcherByKey.emplace key pdispatcher
      keyByDispatcher := s.keyByDispatcher.emplace pdispatcher key }
    if s.epoll then s.addEpoll fd ff key else s

/-- `Remove`. -/
def remove (s : Server π) (pdispatcher : π) (fd : Option ℕ) : Server π :=
  match s.keyByDispatcher.lookup pdispatcher with
  | none => s
  | some key =>
    let s := { s with
      keyByDispatcher := s.keyByDispatcher.erase pdispatcher
      dispatcherByKey := s.dispatcherByKey.erase key }
    if s.epoll then s.removeEpoll fd else s

/-- `Update`. -/
def update (s : Server π) (pdispatcher : π) (fd : Option ℕ) (ff : UInt32) : Server π :=
  if s.epoll then
    match s.keyByDispatcher.lookup pdispatcher with
    | none => s
    | some key => s.updateEpoll fd ff key
  else s

end Server

/-! ## What the operations do -/

section

variable {i : Interest} {fd : ℕ} {events : UInt32} {key : UInt64}

theorem Interest.getD_ctlDel (i : Interest) (fd : ℕ) :
    (i.ctlDel fd).getD i = Function.update i fd none := by
  unfold Interest.ctlDel
  split
  · rename_i hnone
    rw [← hnone, Function.update_eq_self]
    rfl
  · rfl

theorem Interest.getD_ctlAdd (event : EpollEvent) (h : i fd = none) :
    (i.ctlAdd fd event).getD i = Function.update i fd (some event) := by
  rw [Interest.ctlAdd, if_pos h]
  rfl

@[simp] theorem registration_zero (key : UInt64) : registration 0 key = none := rfl

/-- A registration tells what events it is for. -/
theorem registration_inj {events' : UInt32} :
    registration events key = registration events' key ↔ events = events' := by
  unfold registration
  split
  · rename_i hzero
    split
    · rename_i hzero'
      simp [hzero, hzero']
    · rename_i hne
      simp [hzero, Ne.symm hne]
  · rename_i hne
    split
    · rename_i hzero
      simp [hzero, hne]
    · simp

end

namespace Server

variable {s : Server π} {fd : ℕ} {ff : UInt32} {key : UInt64}

/-- A descriptor that is not registered is registered for what the dispatcher requests. -/
theorem addEpoll_of_none (h : s.interest fd = none) (ff : UInt32) (key : UInt64) :
    s.addEpoll (some fd) ff key =
      { s with
        interest := Function.update s.interest fd (registration (getEpollEvents ff) key) } := by
  by_cases hff : getEpollEvents ff = 0
  · simp [addEpoll, hff, ← h]
  · simp [addEpoll, hff, registration, Interest.getD_ctlAdd _ h]

theorem removeEpoll_some (s : Server π) (fd : ℕ) :
    s.removeEpoll (some fd) = { s with interest := Function.update s.interest fd none } := by
  rw [removeEpoll, Interest.getD_ctlDel]

/-- Whatever a descriptor is registered for, it ends up registered for what the dispatcher
requests. -/
theorem updateEpoll_some (s : Server π) (fd : ℕ) (ff : UInt32) (key : UInt64) :
    s.updateEpoll (some fd) ff key =
      { s with
        interest := Function.update s.interest fd (registration (getEpollEvents ff) key) } := by
  by_cases hff : getEpollEvents ff = 0
  · simp [updateEpoll, hff, Interest.getD_ctlDel]
  · by_cases hfd : s.interest fd = none
    · simp [updateEpoll, hff, registration, Interest.ctlMod, hfd, Interest.getD_ctlAdd _ hfd]
    · simp [updateEpoll, hff, registration, Interest.ctlMod, hfd]

variable [DecidableEq π] {p : π}

theorem update_of_notMem (h : p ∉ s.keyByDispatcher) (fd : Option ℕ) (ff : UInt32) :
    s.update p fd ff = s := by
  simp [update, Finmap.lookup_eq_none.mpr h]

end Server

end PhysicalSocketServer

end TQLib
