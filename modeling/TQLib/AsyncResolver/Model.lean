import TQLib.Foundations.Machine

/-!
# `AsyncResolver`

A resolver asks a thread of its own for every host name it is told to `Start` with. The thread posts
what it has found to the queue of the resolver, where `SignalDone` is emitted, and the resolver may
be destroyed by then. What tells is a `State` the resolver shares with the threads and with the
tasks they post. It counts its references, and says under a mutex whether the resolver is there.

The resolver and the `State` are things in memory: once they are gone, any access shows
`useAfterFree`. The queue runs its tasks one after another. `Start` and `Destroy` are called on it,
from tasks of others or from a handler of `SignalDone`, and not any more after `Destroy`.

## Main results

* `step_cases` — what a step can do where everything it accesses is there
-/

namespace TQLib

namespace AsyncResolver

variable {ι : Type*}

/-! ## The data -/

/-- What `ResolveHostname` has found. -/
structure Resolution (ι : Type*) where
  /-- `error`. -/
  error : ℤ
  /-- `addresses`. -/
  addresses : List ι
  deriving DecidableEq

/-- A resolver. -/
structure Resolver (ι : Type*) where
  /-- `addresses_`. -/
  addresses : List ι
  /-- `error_`. -/
  error : ℤ
  /-- `recursion_check_`. -/
  recursionCheck : Bool
  /-- `destroy_called_`. -/
  destroyCalled : Bool

/-- `AsyncResolver::AsyncResolver`. -/
def Resolver.initial : Resolver ι := ⟨[], -1, false, false⟩

/-- `State::Status`. -/
inductive Status
  | kLive
  | kDead
  deriving DecidableEq

/-- Who may have the mutex. -/
inductive Party
  /-- Whoever runs on the queue. -/
  | owner
  /-- The thread of a `Start`. -/
  | thread (n : ℕ)
  deriving DecidableEq

/-- `AsyncResolver::State`. -/
structure Shared where
  /-- The number of references. -/
  refs : ℕ
  /-- `mutex`. -/
  mutex : Option Party
  /-- `status`. -/
  status : Status

/-- `new State`, with the reference of the resolver. -/
def Shared.initial : Shared := ⟨1, none, .kLive⟩

/-- `AddRef`. -/
def Shared.addRef (x : Shared) : Shared := { x with refs := x.refs + 1 }

/-- `Release`, which deletes the `State` with the last reference. -/
def Shared.release (x : Shared) : Option Shared :=
  if x.refs = 1 then none else some { x with refs := x.refs - 1 }

/-- Where the thread of a `Start` is. -/
inductive Thread (ι : Type*)
  /-- Not started. -/
  | fresh
  /-- In `ResolveHostname`. -/
  | resolving
  /-- About to lock the mutex. -/
  | locking (result : Resolution ι)
  /-- About to read `status`. -/
  | testing (result : Resolution ι)
  /-- About to post the task. -/
  | posting (result : Resolution ι)
  /-- About to unlock the mutex. -/
  | unlocking
  /-- About to give its reference to the `State` back. -/
  | releasing
  /-- Over. -/
  | finished
  deriving DecidableEq

/-- Where the queue is. -/
inductive Owner (ι : Type*)
  /-- In no task of a resolver, but maybe in another one. -/
  | idle
  /-- In a task, about to lock the mutex. -/
  | locking (n : ℕ) (result : Resolution ι)
  /-- About to read `status`. -/
  | testing (n : ℕ) (result : Resolution ι)
  /-- About to unlock the mutex, with `live`. -/
  | unlocking (n : ℕ) (result : Resolution ι) (live : Bool)
  /-- About to call `ResolveDone`. -/
  | resolveDone (n : ℕ) (result : Resolution ι)
  /-- In a handler of `SignalDone`. -/
  | handling (n : ℕ)
  /-- About to give the reference of the task to the `State` back. -/
  | releasing
  deriving DecidableEq

/-- Where the destructor is. -/
inductive Deletion
  /-- About to lock the mutex. -/
  | locking
  /-- About to write `kDead`. -/
  | marking
  /-- About to unlock the mutex. -/
  | unlocking
  /-- About to destroy the members, `state_` among them. -/
  | freeing
  deriving DecidableEq

/-- What a run shows. -/
inductive Observation (ι : Type*)
  /-- `Start` is called. -/
  | start (n : ℕ)
  /-- `ResolveHostname` returns. -/
  | resolved (n : ℕ) (result : Resolution ι)
  /-- `SignalDone` is emitted. -/
  | signalDone (n : ℕ) (result : Resolution ι)
  /-- `Destroy` is called, from a handler of `SignalDone` or not. -/
  | destroy (inside : Bool)
  /-- The resolver has been deleted. -/
  | deleted
  /-- Something that is gone has been accessed. -/
  | useAfterFree
  deriving DecidableEq

/-- A resolver, its threads, and the queue it belongs to. -/
structure System (ι : Type*) where
  /-- The resolver, until it is deleted. -/
  resolver : Option (Resolver ι)
  /-- The `State`, until it is deleted. -/
  shared : Option Shared
  /-- How often `Start` has been called. -/
  starts : ℕ
  /-- The thread of each `Start`. -/
  threads : ℕ → Thread ι
  /-- The tasks that have been posted and not yet begun. -/
  queue : List (ℕ × Resolution ι)
  /-- The queue. -/
  owner : Owner ι
  /-- The destructor, which is called where the queue is. -/
  deleting : Option Deletion
  /-- Whether `Destroy` has yet to be called. -/
  held : Bool

/-- One step. -/
inductive Action (ι : Type*)
  /-- `Start` is called. -/
  | start
  /-- `Destroy` is called. -/
  | destroy
  /-- `ResolveHostname` returns in a thread. -/
  | resolve (n : ℕ) (result : Resolution ι)
  /-- A thread goes on. -/
  | thread (n : ℕ)
  /-- The queue goes on. -/
  | goOn

/-- Whether the queue runs the code of somebody else, in a task of its own or in a handler. -/
def Owner.others : Owner ι → Bool
  | .idle => true
  | .handling _ => true
  | _ => false

/-- Whether it is in a handler of `SignalDone`. -/
def Owner.inside : Owner ι → Bool
  | .handling _ => true
  | _ => false

/-! ## The steps -/

/-- The beginning of `ResolveDone`. -/
def Resolver.resolveDone (r : Resolver ι) (result : Resolution ι) : Resolver ι :=
  { r with addresses := result.addresses, error := result.error, recursionCheck := true }

namespace System

/-- The start: a resolver has been constructed. -/
def initial : System ι :=
  ⟨some .initial, some .initial, 0, fun _ => .fresh, [], .idle, none, true⟩

/-- Move the queue. -/
def setOwner (s : System ι) (owner : Owner ι) : System ι := { s with owner }

/-- Move a thread. -/
def setThread (s : System ι) (n : ℕ) (t : Thread ι) : System ι :=
  { s with threads := Function.update s.threads n t }

/-- Access the resolver. -/
def onResolver (s : System ι) (f : Resolver ι → System ι × List (Observation ι)) :
    Option (System ι × List (Observation ι)) :=
  match s.resolver with
  | some r => some (f r)
  | none => some (s, [.useAfterFree])

/-- Access the `State`. -/
def onShared (s : System ι) (f : Shared → Option (System ι × List (Observation ι))) :
    Option (System ι × List (Observation ι)) :=
  match s.shared with
  | some x => f x
  | none => some (s, [.useAfterFree])

/-- Lock the mutex and go on. -/
def lock (s : System ι) (p : Party) (f : System ι → System ι) :
    Option (System ι × List (Observation ι)) :=
  s.onShared fun x =>
    if x.mutex = none then some (f { s with shared := some { x with mutex := some p } }, [])
    else none

/-- Unlock the mutex and go on. -/
def unlock (s : System ι) (f : System ι → System ι) : Option (System ι × List (Observation ι)) :=
  s.onShared fun x => some (f { s with shared := some { x with mutex := none } }, [])

section

variable {s : System ι} {r : Resolver ι} {x : Shared}

theorem onResolver_of_some (hr : s.resolver = some r)
    (f : Resolver ι → System ι × List (Observation ι)) : s.onResolver f = some (f r) := by
  simp only [onResolver, hr]

theorem onShared_of_some (hx : s.shared = some x)
    (f : Shared → Option (System ι × List (Observation ι))) : s.onShared f = f x := by
  simp only [onShared, hx]

theorem lock_of_some (hx : s.shared = some x) (p : Party) (f : System ι → System ι) :
    s.lock p f = if x.mutex = none then
      some (f { s with shared := some { x with mutex := some p } }, []) else none :=
  onShared_of_some hx _

theorem unlock_of_some (hx : s.shared = some x) (f : System ι → System ι) :
    s.unlock f = some (f { s with shared := some { x with mutex := none } }, []) :=
  onShared_of_some hx _

end

/-- `MaybeSelfDestruct`, which calls the destructor or not. -/
def maybeSelfDestruct (s : System ι) (r : Resolver ι) : System ι :=
  if !r.recursionCheck then { s with resolver := some r, deleting := some .locking }
  else { s with resolver := some { r with recursionCheck := false } }

section

variable (s : System ι) (r : Resolver ι)

@[simp] theorem maybeSelfDestruct_shared : (s.maybeSelfDestruct r).shared = s.shared := by
  rw [maybeSelfDestruct]
  split <;> rfl

@[simp] theorem maybeSelfDestruct_starts : (s.maybeSelfDestruct r).starts = s.starts := by
  rw [maybeSelfDestruct]
  split <;> rfl

@[simp] theorem maybeSelfDestruct_threads : (s.maybeSelfDestruct r).threads = s.threads := by
  rw [maybeSelfDestruct]
  split <;> rfl

@[simp] theorem maybeSelfDestruct_queue : (s.maybeSelfDestruct r).queue = s.queue := by
  rw [maybeSelfDestruct]
  split <;> rfl

@[simp] theorem maybeSelfDestruct_owner : (s.maybeSelfDestruct r).owner = s.owner := by
  rw [maybeSelfDestruct]
  split <;> rfl

@[simp] theorem maybeSelfDestruct_held : (s.maybeSelfDestruct r).held = s.held := by
  rw [maybeSelfDestruct]
  split <;> rfl

@[simp] theorem maybeSelfDestruct_isSome :
    (s.maybeSelfDestruct r).resolver.isSome = true := by
  rw [maybeSelfDestruct]
  split <;> rfl

end

/-- `Start`. The thread has a reference to the `State`. -/
def start (s : System ι) : Option (System ι × List (Observation ι)) :=
  s.onShared fun x =>
    s.onResolver fun _ =>
      ({ s with shared := some x.addRef, starts := s.starts + 1 }.setThread s.starts .resolving,
        [.start s.starts])

/-- `Destroy`. -/
def destroy (s : System ι) : Option (System ι × List (Observation ι)) :=
  s.onResolver fun r =>
    ({ s with held := false }.maybeSelfDestruct { r with destroyCalled := true },
      [.destroy s.owner.inside])

/-- A thread goes on. -/
def runThread (s : System ι) (n : ℕ) : Option (System ι × List (Observation ι)) :=
  match s.threads n with
  | .fresh => none
  | .resolving => none
  | .locking result => s.lock (.thread n) (·.setThread n (.testing result))
  | .testing result =>
    s.onShared fun x =>
      some (s.setThread n (if x.status = .kLive then .posting result else .unlocking), [])
  | .posting result =>
    -- the task has a reference of its own
    s.onShared fun x =>
      some ({ s with shared := some x.addRef, queue := s.queue ++ [(n, result)] }.setThread n
        .unlocking, [])
  | .unlocking => s.unlock (·.setThread n .releasing)
  | .releasing =>
    s.onShared fun x => some ({ s with shared := x.release }.setThread n .finished, [])
  | .finished => none

/-- The destructor goes on. -/
def runDeletion (s : System ι) : Deletion → Option (System ι × List (Observation ι))
  | .locking => s.lock .owner ({ · with deleting := some .marking })
  | .marking =>
    s.onShared fun x =>
      some ({ s with shared := some { x with status := .kDead }, deleting := some .unlocking }, [])
  | .unlocking => s.unlock ({ · with deleting := some .freeing })
  | .freeing =>
    s.onShared fun x =>
      s.onResolver fun _ =>
        ({ s with shared := x.release, resolver := none, deleting := none }, [.deleted])

/-- The queue goes on. -/
def runOwner (s : System ι) : Option (System ι × List (Observation ι)) :=
  match s.owner with
  | .idle =>
    match s.queue with
    | [] => none
    | (n, result) :: queue => some ({ s with queue }.setOwner (.locking n result), [])
  | .locking n result => s.lock .owner (·.setOwner (.testing n result))
  | .testing n result =>
    s.onShared fun x => some (s.setOwner (.unlocking n result (x.status = .kLive)), [])
  | .unlocking n result live =>
    s.unlock (·.setOwner (if live then .resolveDone n result else .releasing))
  | .resolveDone n result =>
    s.onResolver fun r =>
      ({ s with resolver := some (r.resolveDone result) }.setOwner (.handling n),
        [.signalDone n result])
  | .handling _ => s.onResolver fun r => ((s.setOwner .releasing).maybeSelfDestruct r, [])
  | .releasing => s.onShared fun x => some ({ s with shared := x.release }.setOwner .idle, [])

/-- One step. -/
def step (s : System ι) : Action ι → Option (System ι × List (Observation ι))
  | .start =>
    if s.deleting = none ∧ s.owner.others = true ∧ s.held = true then s.start else none
  | .destroy =>
    if s.deleting = none ∧ s.owner.others = true ∧ s.held = true then s.destroy else none
  | .resolve n result =>
    match s.threads n with
    | .resolving => some (s.setThread n (.locking result), [.resolved n result])
    | _ => none
  | .thread n => s.runThread n
  | .goOn =>
    match s.deleting with
    | some d => s.runDeletion d
    | none => s.runOwner

end System

/-- The resolver as a machine. -/
def machine (ι : Type*) : Machine (System ι) (Action ι) (Observation ι) where
  start s := s = .initial
  step := System.step

/-! ## References -/

/-- Whether a thread has a reference to the `State`. -/
def Thread.holds : Thread ι → Bool
  | .fresh => false
  | .finished => false
  | _ => true

/-- Whether the queue is in a task, which has a reference to the `State`. -/
def Owner.holds : Owner ι → Bool
  | .idle => false
  | _ => true

/-- Whether the queue is about to access the resolver. -/
def Owner.needs : Owner ι → Bool
  | .unlocking _ _ live => live
  | .resolveDone _ _ => true
  | .handling _ => true
  | _ => false

/-- The threads that have a reference. -/
def running (threads : ℕ → Thread ι) : Set ℕ := {n | (threads n).holds = true}

namespace System

/-- How many have a reference: the resolver, threads, tasks in the queue, and one that runs. -/
noncomputable def holders (s : System ι) : ℕ :=
  s.resolver.isSome.toNat + (running s.threads).ncard + s.queue.length + s.owner.holds.toNat

/-- The number of references. -/
def refs (s : System ι) : ℕ :=
  match s.shared with
  | some x => x.refs
  | none => 0

end System

/-- What there is to access. -/
structure Present (s : System ι) : Prop where
  /-- The `State` is there as long as somebody has a reference. -/
  shared : s.shared = none → s.resolver = none ∧ (∀ n, (s.threads n).holds = false) ∧
    s.queue = [] ∧ s.owner.holds = false
  /-- The resolver is there before `Destroy`, while it is deleted, and for a task that deals with
  it. -/
  resolver : s.resolver = none → s.held = false ∧ s.deleting = none ∧ s.owner.needs = false

/-! ## What a step can do -/

/-- What a step does where everything it accesses is there. -/
inductive Step (s : System ι) : Action ι → System ι → List (Observation ι) → Prop
  | start {x : Shared} {r : Resolver ι} : s.deleting = none → s.owner.others = true →
      s.held = true → s.shared = some x → s.resolver = some r →
      Step s .start ({ s with shared := some x.addRef, starts := s.starts + 1 }.setThread s.starts
        .resolving) [.start s.starts]
  | destroy {r : Resolver ι} : s.deleting = none → s.owner.others = true → s.held = true →
      s.resolver = some r →
      Step s .destroy ({ s with held := false }.maybeSelfDestruct { r with destroyCalled := true })
        [.destroy s.owner.inside]
  | resolve {n : ℕ} {result : Resolution ι} : s.threads n = .resolving →
      Step s (.resolve n result) (s.setThread n (.locking result)) [.resolved n result]
  | lockThread {n : ℕ} {result : Resolution ι} {x : Shared} : s.threads n = .locking result →
      s.shared = some x → x.mutex = none →
      Step s (.thread n) ({ s with shared := some { x with mutex := some (.thread n) } }.setThread n
        (.testing result)) []
  | testThread {n : ℕ} {result : Resolution ι} {x : Shared} : s.threads n = .testing result →
      s.shared = some x →
      Step s (.thread n) (s.setThread n (if x.status = .kLive then .posting result else .unlocking))
        []
  | post {n : ℕ} {result : Resolution ι} {x : Shared} : s.threads n = .posting result →
      s.shared = some x →
      Step s (.thread n) ({ s with
        shared := some x.addRef, queue := s.queue ++ [(n, result)] }.setThread n .unlocking) []
  | unlockThread {n : ℕ} {x : Shared} : s.threads n = .unlocking → s.shared = some x →
      Step s (.thread n) ({ s with shared := some { x with mutex := none } }.setThread n .releasing)
        []
  | releaseThread {n : ℕ} {x : Shared} : s.threads n = .releasing → s.shared = some x →
      Step s (.thread n) ({ s with shared := x.release }.setThread n .finished) []
  | lockDeletion {x : Shared} : s.deleting = some .locking → s.shared = some x → x.mutex = none →
      Step s .goOn { s with
        shared := some { x with mutex := some .owner }, deleting := some .marking } []
  | mark {x : Shared} : s.deleting = some .marking → s.shared = some x →
      Step s .goOn { s with
        shared := some { x with status := .kDead }, deleting := some .unlocking } []
  | unlockDeletion {x : Shared} : s.deleting = some .unlocking → s.shared = some x →
      Step s .goOn { s with
        shared := some { x with mutex := none }, deleting := some .freeing } []
  | free {x : Shared} {r : Resolver ι} : s.deleting = some .freeing → s.shared = some x →
      s.resolver = some r →
      Step s .goOn { s with shared := x.release, resolver := none, deleting := none } [.deleted]
  | take {n : ℕ} {result : Resolution ι} {queue : List (ℕ × Resolution ι)} : s.deleting = none →
      s.owner = .idle → s.queue = (n, result) :: queue →
      Step s .goOn ({ s with queue }.setOwner (.locking n result)) []
  | lock {n : ℕ} {result : Resolution ι} {x : Shared} : s.deleting = none →
      s.owner = .locking n result → s.shared = some x → x.mutex = none →
      Step s .goOn ({ s with shared := some { x with mutex := some .owner } }.setOwner
        (.testing n result)) []
  | test {n : ℕ} {result : Resolution ι} {x : Shared} : s.deleting = none →
      s.owner = .testing n result → s.shared = some x →
      Step s .goOn (s.setOwner (.unlocking n result (x.status = .kLive))) []
  | unlock {n : ℕ} {result : Resolution ι} {live : Bool} {x : Shared} : s.deleting = none →
      s.owner = .unlocking n result live → s.shared = some x →
      Step s .goOn ({ s with shared := some { x with mutex := none } }.setOwner
        (if live then .resolveDone n result else .releasing)) []
  | signalDone {n : ℕ} {result : Resolution ι} {r : Resolver ι} : s.deleting = none →
      s.owner = .resolveDone n result → s.resolver = some r →
      Step s .goOn ({ s with resolver := some (r.resolveDone result) }.setOwner (.handling n))
        [.signalDone n result]
  | handled {n : ℕ} {r : Resolver ι} : s.deleting = none → s.owner = .handling n →
      s.resolver = some r →
      Step s .goOn ((s.setOwner .releasing).maybeSelfDestruct r) []
  | release {x : Shared} : s.deleting = none → s.owner = .releasing → s.shared = some x →
      Step s .goOn ({ s with shared := x.release }.setOwner .idle) []

section

variable {s s' : System ι} {a : Action ι} {out : List (Observation ι)}

/-- The `State` is there for whoever has a reference. -/
theorem Present.shared_of_thread (hp : Present s) {n : ℕ} (hn : (s.threads n).holds = true) :
    ∃ x, s.shared = some x := by
  refine Option.ne_none_iff_exists'.mp fun hnone => ?_
  have hfalse := (hp.shared hnone).2.1 n
  rw [hn] at hfalse
  cases hfalse

theorem Present.shared_of_owner (hp : Present s) (ho : s.owner.holds = true) :
    ∃ x, s.shared = some x := by
  refine Option.ne_none_iff_exists'.mp fun hnone => ?_
  have hfalse := (hp.shared hnone).2.2.2
  rw [ho] at hfalse
  cases hfalse

theorem Present.shared_of_resolver (hp : Present s) {r : Resolver ι} (hr : s.resolver = some r) :
    ∃ x, s.shared = some x := by
  refine Option.ne_none_iff_exists'.mp fun hnone => ?_
  rw [(hp.shared hnone).1] at hr
  cases hr

theorem Present.resolver_of_held (hp : Present s) (hh : s.held = true) :
    ∃ r, s.resolver = some r := by
  refine Option.ne_none_iff_exists'.mp fun hnone => ?_
  rw [(hp.resolver hnone).1] at hh
  cases hh

theorem Present.resolver_of_deleting (hp : Present s) {d : Deletion} (hd : s.deleting = some d) :
    ∃ r, s.resolver = some r := by
  refine Option.ne_none_iff_exists'.mp fun hnone => ?_
  rw [(hp.resolver hnone).2.1] at hd
  cases hd

theorem Present.resolver_of_needs (hp : Present s) (ho : s.owner.needs = true) :
    ∃ r, s.resolver = some r := by
  refine Option.ne_none_iff_exists'.mp fun hnone => ?_
  rw [(hp.resolver hnone).2.2] at ho
  cases ho

theorem step_thread (hp : Present s) {n : ℕ} (h : s.runThread n = some (s', out)) :
    Step s (.thread n) s' out := by
  rw [System.runThread] at h
  cases hn : s.threads n <;> simp only [hn] at h <;> try cases h
  all_goals obtain ⟨x, hx⟩ := hp.shared_of_thread (n := n) (by rw [hn]; rfl)
  case locking result =>
    rw [System.lock_of_some hx] at h
    split at h
    · cases h
      exact .lockThread hn hx ‹_›
    · cases h
  case testing result =>
    rw [System.onShared_of_some hx] at h
    cases h
    exact .testThread hn hx
  case posting result =>
    rw [System.onShared_of_some hx] at h
    cases h
    exact .post hn hx
  case unlocking =>
    rw [System.unlock_of_some hx] at h
    cases h
    exact .unlockThread hn hx
  case releasing =>
    rw [System.onShared_of_some hx] at h
    cases h
    exact .releaseThread hn hx

theorem step_deletion (hp : Present s) {d : Deletion} (hd : s.deleting = some d)
    (h : s.runDeletion d = some (s', out)) : Step s .goOn s' out := by
  obtain ⟨r, hr⟩ := hp.resolver_of_deleting hd
  obtain ⟨x, hx⟩ := hp.shared_of_resolver hr
  cases d with
  | locking =>
    rw [System.runDeletion, System.lock_of_some hx] at h
    split at h
    · cases h
      exact .lockDeletion hd hx ‹_›
    · cases h
  | marking =>
    rw [System.runDeletion, System.onShared_of_some hx] at h
    cases h
    exact .mark hd hx
  | unlocking =>
    rw [System.runDeletion, System.unlock_of_some hx] at h
    cases h
    exact .unlockDeletion hd hx
  | freeing =>
    rw [System.runDeletion, System.onShared_of_some hx, System.onResolver_of_some hr] at h
    cases h
    exact .free hd hx hr

theorem step_owner (hp : Present s) (hd : s.deleting = none) (h : s.runOwner = some (s', out)) :
    Step s .goOn s' out := by
  rw [System.runOwner] at h
  cases ho : s.owner <;> simp only [ho] at h
  case idle =>
    split at h
    · cases h
    · rename_i hq
      cases h
      exact .take hd ho hq
  case locking n result =>
    obtain ⟨x, hx⟩ := hp.shared_of_owner (by rw [ho]; rfl)
    rw [System.lock_of_some hx] at h
    split at h
    · cases h
      exact .lock hd ho hx ‹_›
    · cases h
  case testing n result =>
    obtain ⟨x, hx⟩ := hp.shared_of_owner (by rw [ho]; rfl)
    rw [System.onShared_of_some hx] at h
    cases h
    exact .test hd ho hx
  case unlocking n result live =>
    obtain ⟨x, hx⟩ := hp.shared_of_owner (by rw [ho]; rfl)
    rw [System.unlock_of_some hx] at h
    cases h
    exact .unlock hd ho hx
  case resolveDone n result =>
    obtain ⟨r, hr⟩ := hp.resolver_of_needs (by rw [ho]; rfl)
    rw [System.onResolver_of_some hr] at h
    cases h
    exact .signalDone hd ho hr
  case handling n =>
    obtain ⟨r, hr⟩ := hp.resolver_of_needs (by rw [ho]; rfl)
    rw [System.onResolver_of_some hr] at h
    cases h
    exact .handled hd ho hr
  case releasing =>
    obtain ⟨x, hx⟩ := hp.shared_of_owner (by rw [ho]; rfl)
    rw [System.onShared_of_some hx] at h
    cases h
    exact .release hd ho hx

/-- Where everything is there that a step accesses, it does one of these things. -/
theorem step_cases (hp : Present s) (h : s.step a = some (s', out)) : Step s a s' out := by
  cases a with
  | start =>
    simp only [System.step] at h
    split at h
    · rename_i hc
      obtain ⟨hd, ho, hh⟩ := hc
      obtain ⟨r, hr⟩ := hp.resolver_of_held hh
      obtain ⟨x, hx⟩ := hp.shared_of_resolver hr
      rw [System.start, System.onShared_of_some hx, System.onResolver_of_some hr] at h
      cases h
      exact .start hd ho hh hx hr
    · cases h
  | destroy =>
    simp only [System.step] at h
    split at h
    · rename_i hc
      obtain ⟨hd, ho, hh⟩ := hc
      obtain ⟨r, hr⟩ := hp.resolver_of_held hh
      rw [System.destroy, System.onResolver_of_some hr] at h
      cases h
      exact .destroy hd ho hh hr
    · cases h
  | resolve n result =>
    simp only [System.step] at h
    split at h
    · cases h
      exact .resolve ‹_›
    · cases h
  | thread n => exact step_thread hp h
  | goOn =>
    simp only [System.step] at h
    split at h
    · exact step_deletion hp ‹_› h
    · exact step_owner hp ‹_› h

end

end AsyncResolver

end TQLib
