import TQLib.PhysicalSocketServer.Wait

/-!
# `Signaler`

How a thread that waits is woken up: `WakeUp` writes a byte to a pipe whose other end is among the
descriptors the thread waits for, and `OnEvent` takes it out again. A flag under a mutex says
whether there is a byte, so that there is never more than one.

Testing the flag, the system call and writing the flag are steps of their own, so between them the
pipe and the flag differ. `Content` says by how much, by where the thread that has the mutex is.

The kernel is taken to report a descriptor that is readable whenever it is asked, as `poll`,
`select` and a level-triggered `epoll_wait` do. `epoll_wait` reports at most 128 descriptors at a
time, so it can leave one out in favour of as many others.

## Main results

* `signaler_law` — outside of the critical sections the flag says whether there is one byte in the
  pipe; a signal that no `OnEvent` has followed leaves the pipe readable, so that a wait does not
  block, and a wait that is told returns
-/

namespace TQLib

namespace PhysicalSocketServer

namespace Signaler

variable {ι : Type*}

/-- Who may have the mutex. -/
inductive Party (ι : Type*)
  /-- The thread that waits, in `OnEvent`. -/
  | owner
  /-- A thread in `Signal`. -/
  | signaller (i : ι)
  deriving DecidableEq

/-- Where a thread is in `Signal`. -/
inductive Signalling
  /-- Not in `Signal`. -/
  | idle
  /-- About to lock the mutex. -/
  | locking
  /-- About to test `fSignaled_`. -/
  | testing
  /-- About to write a byte. -/
  | writing
  /-- About to set `fSignaled_`. -/
  | setting
  /-- About to unlock the mutex. -/
  | unlocking
  deriving DecidableEq

/-- Where the thread that waits is. -/
inductive Owner
  /-- Not in `Wait`. -/
  | idle
  /-- About to test `fWait_`, and then in the system call. -/
  | head (backend : Backend)
  /-- Told of some descriptors, that of the signaler or not among them. -/
  | told (backend : Backend) (signaler : Bool)
  /-- In `OnEvent`, about to lock the mutex. -/
  | locking (backend : Backend)
  /-- About to test `fSignaled_`. -/
  | testing (backend : Backend)
  /-- About to read. -/
  | reading (backend : Backend)
  /-- About to clear `fSignaled_`. -/
  | clearing (backend : Backend)
  /-- About to clear the flag of the server. -/
  | flagging (backend : Backend)
  /-- About to unlock the mutex. -/
  | unlocking (backend : Backend)
  /-- Done with what it was told. -/
  | done (backend : Backend)
  deriving DecidableEq

/-- The threads, and what they share. -/
structure State (ι : Type*) where
  /-- `fSignaled_`. -/
  fSignaled : Bool
  /-- How many bytes are in the pipe. -/
  pipe : ℕ
  /-- Who has `mutex_`. -/
  mutex : Option (Party ι)
  /-- `flag_to_clear_`, which is `fWait_`. -/
  fWait : Bool
  /-- The threads that signal. The thread that waits is one of them while it runs a handler. -/
  signallers : ι → Signalling
  /-- The thread that waits. -/
  owner : Owner

/-- What a run shows. -/
inductive Observation (ι : Type*)
  /-- A call of `Signal` is about to return. -/
  | signalled (i : ι)
  /-- The system call has reported some descriptors, that of the signaler or not among them. -/
  | told (signaler : Bool)
  /-- `OnEvent` has the mutex. -/
  | onEvent
  /-- `Wait` has returned. -/
  | returned
  deriving DecidableEq

/-- One step. -/
inductive Action (ι : Type*)
  /-- `WakeUp` is called. -/
  | wakeUp (i : ι)
  /-- A thread in `Signal` goes on. -/
  | signal (i : ι)
  /-- `Wait` is called. -/
  | wait (backend : Backend)
  /-- The system call returns: with how many other descriptors, and with that of the signaler. -/
  | poll (result : Returned (ℕ × Bool))
  /-- The thread that waits goes on. -/
  | goOn
  /-- The loop is gone through again, unless the time is over. -/
  | again (expired : Bool)

/-- The most that `epoll_wait` reports. -/
def kNumEpollEvents : ℕ := 128

/-- What a pipe holds. -/
def capacity : ℕ := 65536

/-- What the system call may report: somebody, nobody but the signaler under `poll`, and the
signaler only if it is readable. If it is readable it is left out only by an `epoll_wait` that
reports as many as it can. -/
def Reports (backend : Backend) (pipe others : ℕ) (signaler : Bool) : Prop :=
  (signaler ∨ 0 < others) ∧ (signaler → 0 < pipe) ∧ (backend = .poll → others = 0) ∧
    (backend = .epoll → others + signaler.toNat ≤ kNumEpollEvents) ∧
    (0 < pipe → ¬ signaler → backend = .epoll ∧ others = kNumEpollEvents)

instance (backend : Backend) (pipe others : ℕ) (signaler : Bool) :
    Decidable (Reports backend pipe others signaler) := by
  unfold Reports
  infer_instance

/-- A signaler whose pipe is readable can be all that is reported. -/
theorem reports_signaler (backend : Backend) : Reports backend 1 0 true :=
  ⟨.inl rfl, fun _ => Nat.one_pos, fun _ => rfl, fun _ => by decide, fun _ h => absurd rfl h⟩

namespace State

/-- The start: nobody has signalled. -/
def initial : State ι := ⟨false, 0, none, false, fun _ => .idle, .idle⟩

/-- Move the thread that waits. -/
def setOwner (s : State ι) (owner : Owner) : State ι := { s with owner }

variable [DecidableEq ι]

/-- Move a thread that signals. -/
def setSignaller (s : State ι) (i : ι) (c : Signalling) : State ι :=
  { s with signallers := Function.update s.signallers i c }

/-- `Signal`. -/
def signal (s : State ι) (i : ι) : Option (State ι × List (Observation ι)) :=
  match s.signallers i with
  | .idle => none
  | .locking =>
    if s.mutex = none then
      some ({ s with mutex := some (.signaller i) }.setSignaller i .testing, [])
    else none
  | .testing => some (s.setSignaller i (if s.fSignaled then .unlocking else .writing), [])
  | .writing =>
    if s.pipe < capacity then some ({ s with pipe := s.pipe + 1 }.setSignaller i .setting, [])
    else none
  | .setting => some ({ s with fSignaled := true }.setSignaller i .unlocking, [])
  | .unlocking => some ({ s with mutex := none }.setSignaller i .idle, [.signalled i])

/-- What `ProcessEvents` tells the signaler, whose descriptor is no socket, when it is readable. -/
def events : Backend → UInt32
  | .select _ => processEvents DE_READ true false false true ⟨none, true, false⟩
  | .epoll => processEvents DE_READ true false false false ⟨none, true, false⟩
  | .poll => processEvents DE_READ true false false false ⟨none, true, false⟩

/-- The thread that waits goes on: in the loop, and in `OnEvent`. -/
def goOn (s : State ι) : Option (State ι × List (Observation ι)) :=
  match s.owner with
  | .idle => none
  | .head _ => if s.fWait then none else some (s.setOwner .idle, [.returned])
  | .told backend signaler =>
    some (s.setOwner (if signaler ∧ events backend ≠ 0 then .locking backend else .done backend),
      [])
  | .locking backend =>
    if s.mutex = none then
      some ({ s with mutex := some .owner }.setOwner (.testing backend), [.onEvent])
    else none
  | .testing backend =>
    some (s.setOwner (if s.fSignaled then .reading backend else .flagging backend), [])
  | .reading backend =>
    -- at most 4 bytes; a `read` of an empty pipe would block
    if 0 < s.pipe then
      some ({ s with pipe := s.pipe - min 4 s.pipe }.setOwner (.clearing backend), [])
    else none
  | .clearing backend => some ({ s with fSignaled := false }.setOwner (.flagging backend), [])
  | .flagging backend => some ({ s with fWait := false }.setOwner (.unlocking backend), [])
  | .unlocking backend => some ({ s with mutex := none }.setOwner (.done backend), [])
  | .done _ => none

/-- One step. -/
def step (s : State ι) : Action ι → Option (State ι × List (Observation ι))
  | .wakeUp i =>
    match s.signallers i with
    | .idle => some (s.setSignaller i .locking, [])
    | _ => none
  | .signal i => s.signal i
  | .wait backend =>
    match s.owner with
    | .idle => some ({ s with fWait := true }.setOwner (.head backend), [])
    | _ => none
  | .poll result =>
    match s.owner with
    | .head backend =>
      if s.fWait then
        match result with
        | .error => some (s.setOwner .idle, [.returned])
        | .interrupted => some (s.setOwner (.done backend), [])
        | .timeout => if s.pipe = 0 then some (s.setOwner .idle, [.returned]) else none
        | .ready (others, signaler) =>
          if Reports backend s.pipe others signaler then
            some (s.setOwner (.told backend signaler), [.told signaler])
          else none
      else none
    | _ => none
  | .goOn => s.goOn
  | .again expired =>
    match s.owner with
    | .done backend =>
      if expired then some (s.setOwner .idle, [.returned])
      else some (s.setOwner (.head backend), [])
    | _ => none

end State

/-- The threads as a machine. -/
def machine (ι : Type*) [DecidableEq ι] : Machine (State ι) (Action ι) (Observation ι) where
  start s := s = .initial
  step := State.step

/-- `OnEvent` is called whenever the pipe is reported as readable. -/
theorem events_ne_zero (backend : Backend) : State.events backend ≠ 0 := by
  cases backend with
  | select _ =>
    show processEvents DE_READ true false false true ⟨none, true, false⟩ ≠ 0
    decide
  | epoll => decide
  | poll => decide

/-! ## Critical sections -/

/-- Whether a thread that signals has the mutex. -/
def Signalling.critical : Signalling → Bool
  | .idle => false
  | .locking => false
  | _ => true

/-- Whether the thread that waits has the mutex. -/
def Owner.critical : Owner → Bool
  | .testing _ => true
  | .reading _ => true
  | .clearing _ => true
  | .flagging _ => true
  | .unlocking _ => true
  | _ => false

/-- What the flag and the pipe hold while a thread that signals has the mutex. -/
def Signalling.Content : Signalling → Bool → ℕ → Prop
  | .writing, fSignaled, pipe => fSignaled = false ∧ pipe = 0
  | .setting, fSignaled, pipe => fSignaled = false ∧ pipe = 1
  | .unlocking, fSignaled, pipe => fSignaled = true ∧ pipe = 1
  | _, fSignaled, pipe => pipe = fSignaled.toNat

/-- What the flag and the pipe hold while the thread that waits has the mutex. -/
def Owner.Content : Owner → Bool → ℕ → Prop
  | .reading _, fSignaled, pipe => fSignaled = true ∧ pipe = 1
  | .clearing _, fSignaled, pipe => fSignaled = true ∧ pipe = 0
  | .flagging _, fSignaled, pipe => fSignaled = false ∧ pipe = 0
  | .unlocking _, fSignaled, pipe => fSignaled = false ∧ pipe = 0
  | _, fSignaled, pipe => pipe = fSignaled.toNat

/-- What the flag and the pipe hold, by who has the mutex. -/
def Content (s : State ι) : Prop :=
  match s.mutex with
  | none => s.pipe = s.fSignaled.toNat
  | some (.signaller i) => (s.signallers i).Content s.fSignaled s.pipe
  | some .owner => s.owner.Content s.fSignaled s.pipe

theorem content_free {s : State ι} (hmutex : s.mutex = none) :
    Content s ↔ s.pipe = s.fSignaled.toNat := by
  rw [Content, hmutex]

theorem content_signaller {s : State ι} {i : ι} (hmutex : s.mutex = some (.signaller i)) :
    Content s ↔ (s.signallers i).Content s.fSignaled s.pipe := by
  rw [Content, hmutex]

theorem content_owner {s : State ι} (hmutex : s.mutex = some .owner) :
    Content s ↔ s.owner.Content s.fSignaled s.pipe := by
  rw [Content, hmutex]

/-- A thread that waits and has no mutex does not change it. -/
theorem content_setOwner {s : State ι} (hmutex : s.mutex ≠ some .owner) {o : Owner} :
    Content (s.setOwner o) ↔ Content s := by
  cases hm : s.mutex with
  | none => exact (content_free (s := s.setOwner o) hm).trans (content_free hm).symm
  | some p =>
    cases p with
    | owner => exact absurd hm hmutex
    | signaller j =>
      exact (content_signaller (s := s.setOwner o) hm).trans (content_signaller hm).symm

/-- Nor does a thread that signals. -/
theorem content_setSignaller [DecidableEq ι] {s : State ι} {i : ι}
    (hmutex : s.mutex ≠ some (.signaller i)) {c : Signalling} :
    Content (s.setSignaller i c) ↔ Content s := by
  cases hm : s.mutex with
  | none => exact (content_free (s := s.setSignaller i c) hm).trans (content_free hm).symm
  | some p =>
    cases p with
    | owner => exact (content_owner (s := s.setSignaller i c) hm).trans (content_owner hm).symm
    | signaller j =>
      have hji : j ≠ i := fun hji => hmutex (hji ▸ hm)
      rw [content_signaller (s := s.setSignaller i c) hm, content_signaller hm]
      simp only [State.setSignaller, Function.update_of_ne hji]

/-! ## Histories -/

/-- Whether a signal is left unanswered, after one more observation. -/
def Observation.unanswered : Bool → Observation ι → Bool
  | _, .signalled _ => true
  | _, .onEvent => false
  | before, _ => before

/-- Whether no `OnEvent` has followed the last signal. -/
def unanswered (h : List (Observation ι)) : Bool := h.foldl Observation.unanswered false

/-- Whether the thread that waits has been told of a signal, after one more observation. -/
def Observation.answering : Bool → Observation ι → Bool
  | before, .told signaler => before || signaler
  | _, .returned => false
  | before, _ => before

/-- Whether the thread that waits has been told of a signal and has not returned since. -/
def answering (h : List (Observation ι)) : Bool := h.foldl Observation.answering false

/-- A thread that has been told of a signal asks for no more before it has returned. -/
def Returns (h : List (Observation ι)) : Prop :=
  Along (fun h₁ o => ∀ signaler, o = .told signaler → answering h₁ = false) h

@[simp] theorem unanswered_snoc (h : List (Observation ι)) (o : Observation ι) :
    unanswered (h ++ [o]) = Observation.unanswered (unanswered h) o := by
  rw [unanswered, List.foldl_append]
  rfl

@[simp] theorem answering_snoc (h : List (Observation ι)) (o : Observation ι) :
    answering (h ++ [o]) = Observation.answering (answering h) o := by
  rw [answering, List.foldl_append]
  rfl

/-! ## The invariant -/

/-- Where the thread that waits can be once it has been told of a signal: on its way to `OnEvent`,
or past it with the flag cleared. -/
def Owner.Answers : Owner → Bool → Prop
  | .told _ signaler, _ => signaler = true
  | .locking _, _ => True
  | .testing _, _ => True
  | .reading _, _ => True
  | .clearing _, _ => True
  | .flagging _, _ => True
  | .unlocking _, fWait => fWait = false
  | .done _, fWait => fWait = false
  | .head _, fWait => fWait = false
  | .idle, _ => False

/-- What holds in every run. -/
structure Inv (h : List (Observation ι)) (s : State ι) : Prop where
  /-- A thread that signals has the mutex in its critical section. -/
  signaller : ∀ i, s.mutex = some (.signaller i) ↔ (s.signallers i).critical
  /-- The thread that waits has the mutex in its critical section. -/
  owner : s.mutex = some .owner ↔ s.owner.critical
  /-- What the flag and the pipe hold. -/
  content : Content s
  /-- A signal that no `OnEvent` has followed is in the flag and in the pipe. -/
  unanswered : unanswered h → s.fSignaled = true ∧ s.pipe = 1 ∧ s.owner.critical = false
  /-- A thread that has been told of a signal goes through `OnEvent` and returns. -/
  answering : answering h → s.owner.Answers s.fWait
  /-- It asks for no more before that. -/
  returns : Returns h

section

variable [DecidableEq ι] {h : List (Observation ι)} {s s' : State ι} {i : ι}

/-- The step of a thread that signals and has the mutex. -/
theorem Inv.signalling (hi : Inv h s) (hc : (s.signallers i).critical) {c : Signalling}
    (hc' : c.critical) {fSignaled : Bool} {pipe : ℕ} (hcontent : c.Content fSignaled pipe)
    (hun : s.fSignaled = true → s.pipe = 1 → fSignaled = true ∧ pipe = 1) :
    Inv h ({ s with fSignaled, pipe }.setSignaller i c) := by
  have hmutex := (hi.signaller i).mpr hc
  constructor
  · intro j
    refine (hi.signaller j).trans ?_
    by_cases hj : j = i
    · subst hj
      simp [State.setSignaller, hc, hc']
    · simp [State.setSignaller, hj]
  · exact hi.owner
  · refine (content_signaller (s := State.setSignaller { s with fSignaled, pipe } i c) hmutex).2 ?_
    simpa only [State.setSignaller, Function.update_self] using hcontent
  · intro h'
    obtain ⟨hf, hp, ho⟩ := hi.unanswered h'
    obtain ⟨hf', hp'⟩ := hun hf hp
    exact ⟨hf', hp', ho⟩
  · exact hi.answering
  · exact hi.returns

/-- The step of a thread that signals. -/
theorem Inv.signal (hi : Inv h s) {out : List (Observation ι)}
    (hst : s.signal i = some (s', out)) : Inv (h ++ out) s' := by
  have hmutex := hi.signaller i
  rw [State.signal] at hst
  cases hc : s.signallers i <;>
    simp only [hc, Signalling.critical, Bool.false_eq_true, iff_false, iff_true] at hst hmutex
  case idle => cases hst
  case locking =>
    split at hst
    · rename_i hfree
      cases hst
      have hcontent := (content_free hfree).1 hi.content
      rw [List.append_nil]
      constructor
      · intro j
        have hj := hi.signaller j
        simp only [hfree, reduceCtorEq, false_iff, Bool.not_eq_true] at hj
        by_cases hji : j = i
        · subst hji
          simp [State.setSignaller, Signalling.critical]
        · simp [State.setSignaller, hji, hj, Ne.symm hji]
      · have ho := hi.owner
        simp only [hfree, reduceCtorEq, false_iff, Bool.not_eq_true] at ho
        simp [State.setSignaller, ho]
      · refine (content_signaller (i := i) rfl).2 ?_
        simpa [State.setSignaller, Signalling.Content] using hcontent
      · exact hi.unanswered
      · exact hi.answering
      · exact hi.returns
    · cases hst
  case testing =>
    cases hst
    have hcontent := (content_signaller hmutex).1 hi.content
    simp only [hc, Signalling.Content] at hcontent
    rw [List.append_nil]
    refine hi.signalling (by simp [hc, Signalling.critical]) ?_ ?_ fun hf hp => ⟨hf, hp⟩
    · split <;> rfl
    · split <;> rename_i hf <;> simp [hf, Signalling.Content, hcontent]
  case writing =>
    split at hst
    · cases hst
      have hcontent := (content_signaller hmutex).1 hi.content
      simp only [hc, Signalling.Content] at hcontent
      rw [List.append_nil]
      refine hi.signalling (by simp [hc, Signalling.critical]) rfl ?_ fun hf => ?_
      · exact ⟨hcontent.1, by rw [hcontent.2]⟩
      · simp [hcontent.1] at hf
    · cases hst
  case setting =>
    cases hst
    have hcontent := (content_signaller hmutex).1 hi.content
    simp only [hc, Signalling.Content] at hcontent
    rw [List.append_nil]
    exact hi.signalling (by simp [hc, Signalling.critical]) rfl ⟨rfl, hcontent.2⟩
      fun _ hp => ⟨rfl, hp⟩
  case unlocking =>
    cases hst
    have hcontent := (content_signaller hmutex).1 hi.content
    simp only [hc, Signalling.Content] at hcontent
    have ho := hi.owner
    simp only [hmutex, Option.some.injEq, reduceCtorEq, false_iff, Bool.not_eq_true] at ho
    constructor
    · intro j
      have hj := hi.signaller j
      simp only [hmutex, Option.some.injEq, Party.signaller.injEq] at hj
      by_cases hji : j = i
      · subst hji
        simp [State.setSignaller, Signalling.critical]
      · simp only [Ne.symm hji, false_iff, Bool.not_eq_true] at hj
        simp [State.setSignaller, hji, hj]
    · simp [State.setSignaller, ho]
    · refine (content_free rfl).2 ?_
      simp [State.setSignaller, hcontent]
    · intro _
      exact ⟨hcontent.1, hcontent.2, ho⟩
    · intro h'
      simp only [answering_snoc, Observation.answering] at h'
      exact hi.answering h'
    · exact hi.returns.snoc fun _ h' => by cases h'

omit [DecidableEq ι] in
/-- A step of the thread that waits outside of its critical section. -/
theorem Inv.moved (hi : Inv h s) (hc : s.owner.critical = false) {o : Owner}
    (ho : o.critical = false) {fWait : Bool} {h' : List (Observation ι)}
    (hun : Signaler.unanswered h' = Signaler.unanswered h)
    (hans : Signaler.answering h' → o.Answers fWait) (hr : Returns h') :
    Inv h' ({ s with fWait }.setOwner o) := by
  have howner := hi.owner
  simp only [hc, Bool.false_eq_true, iff_false] at howner
  constructor
  · exact hi.signaller
  · simp [State.setOwner, ho, howner]
  · exact (content_setOwner (s := { s with fWait }) howner).2 hi.content
  · intro hu
    rw [hun] at hu
    obtain ⟨hf, hp, -⟩ := hi.unanswered hu
    exact ⟨hf, hp, ho⟩
  · exact hans
  · exact hr

omit [DecidableEq ι] in
/-- A step of the thread that waits while it has the mutex. -/
theorem Inv.owning (hi : Inv h s) (hc : s.owner.critical) {o : Owner} (ho : o.critical)
    {fSignaled fWait : Bool} {pipe : ℕ} (hcontent : o.Content fSignaled pipe)
    (hans : s.owner.Answers s.fWait → o.Answers fWait) :
    Inv h ({ s with fSignaled, pipe, fWait }.setOwner o) := by
  have hmutex := hi.owner.mpr hc
  constructor
  · exact hi.signaller
  · simp [State.setOwner, ho, hmutex]
  · exact (content_owner (s := State.setOwner { s with fSignaled, pipe, fWait } o) hmutex).2
      hcontent
  · intro hu
    rw [(hi.unanswered hu).2.2] at hc
    cases hc
  · intro h'
    exact hans (hi.answering h')
  · exact hi.returns

omit [DecidableEq ι] in
/-- The thread that waits goes on. -/
theorem Inv.goOn (hi : Inv h s) {out : List (Observation ι)} (hst : s.goOn = some (s', out)) :
    Inv (h ++ out) s' := by
  have howner := hi.owner
  have hans := hi.answering
  rw [State.goOn] at hst
  cases hc : s.owner <;>
    simp only [hc, Owner.critical, Bool.false_eq_true, iff_false, iff_true] at hst howner
  case idle => cases hst
  case head backend =>
    split at hst
    · cases hst
    · cases hst
      refine hi.moved (by rw [hc]; rfl) rfl (by simp [Observation.unanswered]) ?_
        (hi.returns.snoc fun _ h' => by cases h')
      simp [Observation.answering]
  case told backend signaler =>
    cases hst
    rw [List.append_nil]
    refine hi.moved (by rw [hc]; rfl) ?_ rfl ?_ hi.returns
    · split <;> rfl
    · intro h'
      have hs : signaler = true := by simpa [hc, Owner.Answers] using hans h'
      simp [hs, events_ne_zero, Owner.Answers]
  case locking backend =>
    split at hst
    · rename_i hfree
      cases hst
      have hcontent := (content_free hfree).1 hi.content
      constructor
      · intro i
        have hi' := hi.signaller i
        simp only [hfree, reduceCtorEq, false_iff, Bool.not_eq_true] at hi'
        simp [State.setOwner, hi']
      · simp [State.setOwner, Owner.critical]
      · refine (content_owner rfl).2 ?_
        simpa [State.setOwner, Owner.Content] using hcontent
      · simp [Observation.unanswered]
      · intro _
        trivial
      · exact hi.returns.snoc fun _ h' => by cases h'
    · cases hst
  case testing backend =>
    cases hst
    have hcontent := (content_owner howner).1 hi.content
    simp only [hc, Owner.Content] at hcontent
    rw [List.append_nil]
    refine hi.owning (by rw [hc]; rfl) ?_ ?_ fun _ => ?_
    · split <;> rfl
    · split <;> rename_i hf <;> simp [hf, Owner.Content, hcontent]
    · split <;> trivial
  case reading backend =>
    split at hst
    · cases hst
      have hcontent := (content_owner howner).1 hi.content
      simp only [hc, Owner.Content] at hcontent
      rw [List.append_nil]
      refine hi.owning (by rw [hc]; rfl) rfl ⟨hcontent.1, ?_⟩ fun _ => trivial
      rw [hcontent.2]
      decide
    · cases hst
  case clearing backend =>
    cases hst
    have hcontent := (content_owner howner).1 hi.content
    simp only [hc, Owner.Content] at hcontent
    rw [List.append_nil]
    exact hi.owning (by rw [hc]; rfl) rfl ⟨rfl, hcontent.2⟩ fun _ => trivial
  case flagging backend =>
    cases hst
    have hcontent := (content_owner howner).1 hi.content
    simp only [hc, Owner.Content] at hcontent
    rw [List.append_nil]
    exact hi.owning (by rw [hc]; rfl) rfl hcontent fun _ => rfl
  case unlocking backend =>
    cases hst
    have hcontent := (content_owner howner).1 hi.content
    simp only [hc, Owner.Content] at hcontent
    rw [List.append_nil]
    constructor
    · intro i
      have hi' := hi.signaller i
      simp only [howner, Option.some.injEq, reduceCtorEq, false_iff, Bool.not_eq_true] at hi'
      simp [State.setOwner, hi']
    · simp [State.setOwner, Owner.critical]
    · refine (content_free rfl).2 ?_
      simp [State.setOwner, hcontent]
    · intro hu
      have hf := (hi.unanswered hu).1
      rw [hcontent.1] at hf
      cases hf
    · intro h'
      have ha := hans h'
      rw [hc] at ha
      exact ha
    · exact hi.returns
  case done backend => cases hst

/-- **One step.** -/
theorem Inv.step (hi : Inv h s) {a : Action ι} {out : List (Observation ι)}
    (hst : s.step a = some (s', out)) : Inv (h ++ out) s' := by
  have hans := hi.answering
  unfold State.step at hst
  cases a with
  | wakeUp i =>
    simp only at hst
    split at hst
    · rename_i hc
      cases hst
      rw [List.append_nil]
      have hnot : (s.signallers i).critical = false := by rw [hc]; rfl
      have hmutex : s.mutex ≠ some (.signaller i) := by simpa [hnot] using hi.signaller i
      constructor
      · intro j
        refine (hi.signaller j).trans ?_
        by_cases hji : j = i
        · subst hji
          rw [hnot]
          simp [State.setSignaller, Signalling.critical]
        · simp [State.setSignaller, hji]
      · exact hi.owner
      · exact (content_setSignaller hmutex).2 hi.content
      · exact hi.unanswered
      · exact hi.answering
      · exact hi.returns
    · cases hst
  | signal i => exact hi.signal hst
  | wait backend =>
    simp only at hst
    split at hst
    · rename_i hc
      cases hst
      rw [List.append_nil]
      refine hi.moved (by rw [hc]; rfl) rfl rfl (fun h' => ?_) hi.returns
      simp [hc, Owner.Answers] at hans
      simp [hans] at h'
    · cases hst
  | poll result =>
    simp only at hst
    split at hst
    · rename_i backend hc
      have hcrit : s.owner.critical = false := by rw [hc]; rfl
      split at hst
      · rename_i hwait
        have hanswering : Signaler.answering h = false := by
          simpa [hc, Owner.Answers, hwait] using hans
        cases result with
        | error =>
          cases hst
          exact hi.moved hcrit rfl (by simp [Observation.unanswered])
            (by simp [Observation.answering]) (hi.returns.snoc fun _ h' => by cases h')
        | interrupted =>
          cases hst
          rw [List.append_nil]
          exact hi.moved hcrit rfl rfl (by simp [hanswering]) hi.returns
        | timeout =>
          simp only at hst
          split at hst
          · cases hst
            exact hi.moved hcrit rfl (by simp [Observation.unanswered])
              (by simp [Observation.answering]) (hi.returns.snoc fun _ h' => by cases h')
          · cases hst
        | ready result =>
          obtain ⟨others, signaler⟩ := result
          simp only at hst
          split at hst
          · cases hst
            exact hi.moved hcrit rfl (by simp [Observation.unanswered])
              (by simp [Observation.answering, hanswering, Owner.Answers])
              (hi.returns.snoc fun _ _ => hanswering)
          · cases hst
      · cases hst
    · cases hst
  | goOn => exact hi.goOn hst
  | again expired =>
    simp only at hst
    split at hst
    · rename_i backend hc
      have hcrit : s.owner.critical = false := by rw [hc]; rfl
      split at hst
      · cases hst
        exact hi.moved hcrit rfl (by simp [Observation.unanswered])
          (by simp [Observation.answering]) (hi.returns.snoc fun _ h' => by cases h')
      · cases hst
        rw [List.append_nil]
        refine hi.moved hcrit rfl rfl (fun h' => ?_) hi.returns
        simpa [hc, Owner.Answers] using hans h'
    · cases hst

omit [DecidableEq ι] in
theorem Inv.initial : Inv [] (State.initial : State ι) := by
  constructor
  · simp [State.initial, Signalling.critical]
  · simp [State.initial, Owner.critical]
  · rfl
  · intro h
    cases h
  · intro h
    cases h
  · exact Along.nil

theorem inv_of_reaches (hr : (machine ι).Reaches h s) : Inv h s :=
  hr.induction Inv (fun _ hs => hs ▸ Inv.initial) fun _ _ _ _ _ hi _ hst => hi.step hst

/-! ## Nobody is stuck -/

/-- The step of whoever has the mutex. -/
def Party.goOn : Party ι → Action ι
  | .owner => .goOn
  | .signaller i => .signal i

/-- How many steps a thread that signals is from unlocking the mutex, at most. -/
def Signalling.rank : Signalling → ℕ
  | .testing => 3
  | .writing => 2
  | .setting => 1
  | _ => 0

/-- How many steps the thread that waits is from unlocking the mutex, at most. -/
def Owner.rank : Owner → ℕ
  | .testing _ => 4
  | .reading _ => 3
  | .clearing _ => 2
  | .flagging _ => 1
  | _ => 0

/-- How many steps a thread is from unlocking the mutex, at most. -/
def State.rank (s : State ι) : Party ι → ℕ
  | .owner => s.owner.rank
  | .signaller i => (s.signallers i).rank

/-- Whoever has the mutex can go on. -/
theorem Inv.goesOn (hi : Inv h s) {p : Party ι} (hp : s.mutex = some p) :
    ∃ s' out, s.step p.goOn = some (s', out) ∧
      (s'.mutex = none ∨ s'.mutex = some p ∧ s'.rank p < s.rank p) := by
  cases p with
  | owner =>
    have hc := hi.owner.mp hp
    have hcontent := (content_owner hp).1 hi.content
    simp only [Party.goOn, State.step, State.goOn]
    cases ho : s.owner <;> simp only [ho, Owner.critical, Bool.false_eq_true] at hc
    case testing backend =>
      refine ⟨_, _, rfl, .inr ⟨hp, ?_⟩⟩
      simp only [State.rank, State.setOwner, ho]
      split <;> simp [Owner.rank]
    case reading backend =>
      simp only [ho, Owner.Content] at hcontent
      dsimp only
      rw [if_pos (by omega)]
      exact ⟨_, _, rfl, .inr ⟨hp, by simp [State.rank, State.setOwner, ho, Owner.rank]⟩⟩
    case clearing backend =>
      exact ⟨_, _, rfl, .inr ⟨hp, by simp [State.rank, State.setOwner, ho, Owner.rank]⟩⟩
    case flagging backend =>
      exact ⟨_, _, rfl, .inr ⟨hp, by simp [State.rank, State.setOwner, ho, Owner.rank]⟩⟩
    case unlocking backend => exact ⟨_, _, rfl, .inl rfl⟩
  | signaller i =>
    have hc := (hi.signaller i).mp hp
    have hcontent := (content_signaller hp).1 hi.content
    simp only [Party.goOn, State.step, State.signal]
    cases ho : s.signallers i <;> simp only [ho, Signalling.critical, Bool.false_eq_true] at hc
    case testing =>
      refine ⟨_, _, rfl, .inr ⟨hp, ?_⟩⟩
      simp only [State.rank, State.setSignaller, ho, Function.update_self]
      split <;> decide
    case writing =>
      simp only [ho, Signalling.Content] at hcontent
      dsimp only
      rw [if_pos (by rw [hcontent.2]; decide)]
      exact ⟨_, _, rfl, .inr ⟨hp, by simp [State.rank, State.setSignaller, ho, Signalling.rank]⟩⟩
    case setting =>
      exact ⟨_, _, rfl, .inr ⟨hp, by simp [State.rank, State.setSignaller, ho, Signalling.rank]⟩⟩
    case unlocking => exact ⟨_, _, rfl, .inl rfl⟩

/-- Whoever has the mutex unlocks it, by steps of its own. -/
theorem Inv.releases (hi : Inv h s) {p : Party ι} (hp : s.mutex = some p) :
    ∃ n s' out, (machine ι).exec s (List.replicate n p.goOn) = some (s', out) ∧
      s'.mutex = none := by
  induction hn : s.rank p using Nat.strong_induction_on generalizing h s with
  | h n ih =>
    obtain ⟨s₁, out, hst, hfree | ⟨hp₁, hlt⟩⟩ := hi.goesOn hp
    · refine ⟨1, s₁, out, Machine.exec_cons.mpr ⟨s₁, out, [], hst, rfl, ?_⟩, hfree⟩
      rw [List.append_nil]
    · obtain ⟨n', s', out', hex, hfree⟩ := ih (s₁.rank p) (hn ▸ hlt) (hi.step hst) hp₁ rfl
      exact ⟨n' + 1, s', out ++ out', Machine.exec_cons.mpr ⟨s₁, out, out', hst, hex, rfl⟩, hfree⟩

/-- The steps with which a thread that waits answers a signal. -/
def answer : List (Action ι) :=
  [.poll (.ready (0, true)), .goOn, .goOn, .goOn, .goOn, .goOn, .goOn, .goOn, .again false, .goOn]

/-- A thread that waits answers a signal. -/
theorem exec_answer (hmutex : s.mutex = none) (hf : s.fSignaled = true) (hp : s.pipe = 1)
    {backend : Backend} (ho : s.owner = .head backend) (hw : s.fWait = true) :
    ∃ s', (machine ι).exec s answer = some (s', [.told true, .onEvent, .returned]) ∧
      s'.owner = .idle := by
  obtain ⟨fSignaled, pipe, mutex, fWait, signallers, owner⟩ := s
  subst hmutex hf hp ho hw
  cases backend with
  | select processIo => exact ⟨_, rfl, rfl⟩
  | epoll => exact ⟨_, rfl, rfl⟩
  | poll => exact ⟨_, rfl, rfl⟩

/-! ## The law -/

/-- What is promised of a signaler. -/
structure SignalerLaw (h : List (Observation ι)) (s : State ι) : Prop where
  /-- Outside of the critical sections the flag says whether there is one byte in the pipe. -/
  counted : s.mutex = none → s.pipe = s.fSignaled.toNat
  /-- There is never more than one. -/
  bounded : s.pipe ≤ 1
  /-- A signal that no `OnEvent` has followed leaves the pipe readable. -/
  readable : ∀ h₁ h₂ i, h = h₁ ++ .signalled i :: h₂ → .onEvent ∉ h₂ → s.pipe = 1
  /-- While the pipe is readable the system call does not time out, and may report it. -/
  awake : ∀ backend, s.owner = .head backend → s.fWait = true → s.pipe = 1 →
    s.step (.poll .timeout) = none ∧
      s.step (.poll (.ready (0, true))) = some (s.setOwner (.told backend true), [.told true])
  /-- A thread that has been told returns before it asks for more. -/
  told : ∀ h₁ h₂ h₃ signaler, h = h₁ ++ .told true :: h₂ ++ .told signaler :: h₃ →
    .returned ∈ h₂
  /-- Whoever has the mutex unlocks it, by steps of its own. -/
  unlocked : ∀ p, s.mutex = some p → ∃ n s' out,
    (machine ι).exec s (List.replicate n p.goOn) = some (s', out) ∧ s'.mutex = none
  /-- While the mutex is free and the pipe is readable, the thread that waits has only to go on, and
  it goes through `OnEvent` and returns. -/
  answered : ∀ backend, s.owner = .head backend → s.fWait = true → s.mutex = none → s.pipe = 1 →
    ∃ s', (machine ι).exec s answer = some (s', [.told true, .onEvent, .returned]) ∧
      s'.owner = .idle
  /-- And so it does when it has yet to begin to wait. -/
  next : ∀ backend, s.owner = .idle → s.mutex = none → s.pipe = 1 →
    ∃ s', (machine ι).exec s (.wait backend :: answer) =
      some (s', [.told true, .onEvent, .returned]) ∧ s'.owner = .idle

theorem Signalling.Content.pipe_le {c : Signalling} {fSignaled : Bool} {pipe : ℕ}
    (h : c.Content fSignaled pipe) : pipe ≤ 1 := by
  have htoNat : fSignaled.toNat ≤ 1 := Bool.toNat_le fSignaled
  cases c <;> simp only [Signalling.Content] at h <;> omega

theorem Owner.Content.pipe_le {o : Owner} {fSignaled : Bool} {pipe : ℕ}
    (h : o.Content fSignaled pipe) : pipe ≤ 1 := by
  have htoNat : fSignaled.toNat ≤ 1 := Bool.toNat_le fSignaled
  cases o <;> simp only [Owner.Content] at h <;> omega

omit [DecidableEq ι] in
theorem Inv.pipe_le_one (hi : Inv h s) : s.pipe ≤ 1 := by
  cases hm : s.mutex with
  | none =>
    have hcontent := (content_free hm).1 hi.content
    rw [hcontent]
    exact Bool.toNat_le s.fSignaled
  | some p =>
    cases p with
    | owner => exact ((content_owner hm).1 hi.content).pipe_le
    | signaller i => exact ((content_signaller hm).1 hi.content).pipe_le

omit [DecidableEq ι] in
/-- A byte in the pipe that nobody is about to write or to read is one the flag tells of. -/
theorem Inv.signaled (hi : Inv h s) (hmutex : s.mutex = none) (hp : s.pipe = 1) :
    s.fSignaled = true := by
  have hcontent := (content_free hmutex).1 hi.content
  rwa [hp, eq_comm, Bool.toNat_eq_one] at hcontent

omit [DecidableEq ι] in
/-- What no `OnEvent` has followed is left unanswered. -/
theorem unanswered_append (h₁ h₂ : List (Observation ι)) (hun : Signaler.unanswered h₁ = true)
    (hnot : .onEvent ∉ h₂) : Signaler.unanswered (h₁ ++ h₂) = true := by
  induction h₂ using List.reverseRecOn with
  | nil => simpa using hun
  | append_singleton h₂ o ih =>
    simp only [List.mem_append, List.mem_singleton, not_or] at hnot
    rw [← List.append_assoc, unanswered_snoc, ih hnot.1]
    cases o with
    | onEvent => exact absurd rfl hnot.2
    | _ => rfl

omit [DecidableEq ι] in
/-- A thread that has been told of a signal and has not returned is still answering it. -/
theorem answering_append (h₁ h₂ : List (Observation ι)) (hans : Signaler.answering h₁ = true)
    (hnot : .returned ∉ h₂) : Signaler.answering (h₁ ++ h₂) = true := by
  induction h₂ using List.reverseRecOn with
  | nil => simpa using hans
  | append_singleton h₂ o ih =>
    simp only [List.mem_append, List.mem_singleton, not_or] at hnot
    rw [← List.append_assoc, answering_snoc, ih hnot.1]
    cases o with
    | returned => exact absurd rfl hnot.2
    | _ => rfl

omit [DecidableEq ι] in
theorem Inv.readable (hi : Inv h s) (h₁ h₂ : List (Observation ι)) (i : ι)
    (heq : h = h₁ ++ .signalled i :: h₂) (hnot : .onEvent ∉ h₂) : s.pipe = 1 := by
  have hun : Signaler.unanswered (h₁ ++ [.signalled i]) = true := by simp [Observation.unanswered]
  have happend := unanswered_append _ h₂ hun hnot
  rw [List.append_assoc, List.singleton_append, ← heq] at happend
  exact (hi.unanswered happend).2.1

omit [DecidableEq ι] in
theorem Inv.told (hi : Inv h s) (h₁ h₂ h₃ : List (Observation ι)) (signaler : Bool)
    (heq : h = h₁ ++ .told true :: h₂ ++ .told signaler :: h₃) : .returned ∈ h₂ := by
  by_contra hnot
  have hans : Signaler.answering (h₁ ++ [.told true]) = true := by simp [Observation.answering]
  have happend := answering_append _ h₂ hans hnot
  rw [List.append_assoc, List.singleton_append] at happend
  rw [hi.returns _ _ h₃ heq signaler rfl] at happend
  cases happend

/-- **The signaler law.** In every run the flag and the pipe agree outside of the critical sections,
and no signal is lost: until an `OnEvent` has followed it the pipe is readable, a thread that waits
is told of it, and a thread that has been told returns. -/
theorem signaler_law (hr : (machine ι).Reaches h s) : SignalerLaw h s := by
  have hi := inv_of_reaches hr
  constructor
  case counted =>
    exact fun hmutex => (content_free hmutex).1 hi.content
  case bounded => exact hi.pipe_le_one
  case readable => exact hi.readable
  case awake =>
    intro backend ho hw hp
    simp only [State.step, ho, hw, hp, if_true]
    refine ⟨rfl, if_pos ?_⟩
    exact reports_signaler backend
  case told => exact hi.told
  case unlocked => exact fun p hp => hi.releases hp
  case answered =>
    intro backend ho hw hmutex hp
    exact exec_answer hmutex (hi.signaled hmutex hp) hp ho hw
  case next =>
    intro backend ho hmutex hp
    obtain ⟨s', hex, hidle⟩ := exec_answer (s := { s with fWait := true }.setOwner (.head backend))
      hmutex (hi.signaled hmutex hp) hp rfl rfl
    refine ⟨s', Machine.exec_cons.mpr ⟨_, [], _, ?_, hex, rfl⟩, hidle⟩
    simp only [machine, State.step, ho]

end

/-- The law at work: a signal comes while another is being made and while the thread waits, finds
the flag set, and one `OnEvent` answers both. -/
theorem signaler_law_run : ∃ s : State Bool,
    (machine Bool).exec .initial
      [.wait .epoll, .wakeUp true, .signal true, .signal true, .wakeUp false, .signal true,
        .poll (.ready (0, true)), .goOn, .signal true, .signal true, .signal false, .signal false,
        .signal false, .goOn, .goOn, .goOn, .goOn, .goOn, .goOn, .again false, .goOn] =
      some (s, [.told true, .signalled true, .signalled false, .onEvent, .returned]) ∧
    SignalerLaw [.told true, .signalled true, .signalled false, .onEvent, .returned] s := by
  obtain ⟨s, hex⟩ : ∃ s, (machine Bool).exec .initial
      [.wait .epoll, .wakeUp true, .signal true, .signal true, .wakeUp false, .signal true,
        .poll (.ready (0, true)), .goOn, .signal true, .signal true, .signal false, .signal false,
        .signal false, .goOn, .goOn, .goOn, .goOn, .goOn, .goOn, .again false, .goOn] =
      some (s, [.told true, .signalled true, .signalled false, .onEvent, .returned]) := ⟨_, rfl⟩
  exact ⟨s, hex, signaler_law (.of_exec rfl hex)⟩

end Signaler

end PhysicalSocketServer

end TQLib
