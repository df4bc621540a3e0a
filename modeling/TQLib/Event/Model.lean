import TQLib.Foundations.Machine
import TQLib.Units.Time

/-!
# `rtc::Event`

The events of POSIX: a flag, a mutex and a condition variable. A `Wait` first waits until it is time
to warn, and then until it is time to give up, if there is such a time. In either of the two waits
the condition variable may wake the thread because it has been broadcast to, because the time is
over, for some other error, or for no reason. When it does, the thread has yet to lock the mutex
again.

## Main results

* `step_cases` — what a step can do
-/

namespace TQLib

namespace Event

variable {ι : Type*}

/-- `ETIMEDOUT`. -/
def ETIMEDOUT : ℤ := 110

/-- The two times of a `Wait`, `warn_ts` and `give_up_ts`: whether they are there. -/
structure Timeouts where
  /-- `warn_ts`. -/
  warn : Bool
  /-- `give_up_ts`. -/
  giveUp : Bool
  deriving DecidableEq

/-- The times of `Wait(give_up_after, warn_after)`. -/
def timeouts (giveUpAfter warnAfter : TimeDelta) : Timeouts where
  warn := decide (warnAfter.us < giveUpAfter.us)
  giveUp := !giveUpAfter.isPlusInfinity

/-- Which of its two times a `Wait` waits for. -/
inductive Phase
  /-- `wait(warn_ts)`. -/
  | warn
  /-- `wait(give_up_ts)`. -/
  | giveUp
  deriving DecidableEq

/-- Whether there is such a time. -/
def Timeouts.has (t : Timeouts) : Phase → Bool
  | .warn => t.warn
  | .giveUp => t.giveUp

/-- Where a thread is. -/
inductive Place
  /-- In none of the calls. -/
  | idle
  /-- In `Set`, about to lock `event_mutex_`. -/
  | setLocking
  /-- About to set `event_status_`. -/
  | setting
  /-- About to broadcast. -/
  | broadcasting
  /-- About to unlock. -/
  | setUnlocking
  /-- In `Reset`, about to lock. -/
  | resetLocking
  /-- About to clear `event_status_`. -/
  | resetting
  /-- About to unlock. -/
  | resetUnlocking
  /-- In `Wait`, about to lock. -/
  | waitLocking (t : Timeouts)
  /-- At the head of the loop of `wait`, with `error`. -/
  | looping (t : Timeouts) (phase : Phase) (error : ℤ)
  /-- In `pthread_cond_wait` or `pthread_cond_timedwait`, broadcast to or not. -/
  | sleeping (t : Timeouts) (phase : Phase) (notified : Bool)
  /-- Still in it, about to lock again. -/
  | relocking (t : Timeouts) (phase : Phase) (error : ℤ)
  /-- Past the waits, with the error of the last. -/
  | consuming (error : ℤ)
  /-- About to unlock and to return. -/
  | waitUnlocking (error : ℤ)
  deriving DecidableEq

/-- Whether a thread has the mutex there. -/
def Place.critical : Place → Bool
  | .setting => true
  | .broadcasting => true
  | .setUnlocking => true
  | .resetting => true
  | .resetUnlocking => true
  | .looping _ _ _ => true
  | .consuming _ => true
  | .waitUnlocking _ => true
  | _ => false

/-- What a broadcast does to a thread. -/
def Place.notify : Place → Place
  | .sleeping t phase _ => .sleeping t phase true
  | p => p

/-- An event and the threads. -/
structure State (ι : Type*) where
  /-- `is_manual_reset_`. -/
  isManualReset : Bool
  /-- `event_status_`. -/
  eventStatus : Bool
  /-- Who has `event_mutex_`. -/
  eventMutex : Option ι
  /-- Where the threads are. -/
  threads : ι → Place

/-- What a run shows. -/
inductive Observation (ι : Type*)
  /-- `Set` sets the event. -/
  | set (i : ι)
  /-- `Reset` clears it. -/
  | reset (i : ι)
  /-- A `Wait` warns that the thread is probably deadlocked. -/
  | warned (i : ι)
  /-- A `Wait` returns. -/
  | returned (i : ι) (result : Bool)
  deriving DecidableEq

/-- One step. -/
inductive Action (ι : Type*)
  /-- `Set` is called. -/
  | set (i : ι)
  /-- `Reset` is called. -/
  | reset (i : ι)
  /-- `Wait` is called. -/
  | wait (i : ι) (giveUpAfter warnAfter : TimeDelta)
  /-- The condition variable wakes a thread, with what the call is going to return. -/
  | wake (i : ι) (error : ℤ)
  /-- A thread goes on. -/
  | goOn (i : ι)

namespace State

/-- The start: an event has been constructed. -/
def initial (manualReset initiallySignaled : Bool) : State ι :=
  ⟨manualReset, initiallySignaled, none, fun _ => .idle⟩

variable [DecidableEq ι]

/-- Move a thread. -/
def setThread (s : State ι) (i : ι) (p : Place) : State ι :=
  { s with threads := Function.update s.threads i p }

/-- Lock the mutex and go on. -/
def lock (s : State ι) (i : ι) (p : Place) : Option (State ι × List (Observation ι)) :=
  if s.eventMutex = none then some ({ s with eventMutex := some i }.setThread i p, []) else none

/-- Unlock the mutex and go on. -/
def unlock (s : State ι) (i : ι) (p : Place) : State ι :=
  { s with eventMutex := none }.setThread i p

/-- A thread goes on. -/
def goOn (s : State ι) (i : ι) : Option (State ι × List (Observation ι)) :=
  match s.threads i with
  | .idle => none
  | .setLocking => s.lock i .setting
  | .setting => some ({ s with eventStatus := true }.setThread i .broadcasting, [.set i])
  | .broadcasting =>
    some ({ s with threads := fun j => (s.threads j).notify }.setThread i .setUnlocking, [])
  | .setUnlocking => some (s.unlock i .idle, [])
  | .resetLocking => s.lock i .resetting
  | .resetting => some ({ s with eventStatus := false }.setThread i .resetUnlocking, [.reset i])
  | .resetUnlocking => some (s.unlock i .idle, [])
  | .waitLocking t => s.lock i (.looping t (if t.warn then .warn else .giveUp) 0)
  | .looping t phase error =>
    if !s.eventStatus ∧ error = 0 then some (s.unlock i (.sleeping t phase false), [])
    else if phase = .warn ∧ error = ETIMEDOUT then
      some (s.setThread i (.looping t .giveUp 0), [.warned i])
    else some (s.setThread i (.consuming error), [])
  | .sleeping _ _ _ => none
  | .relocking t phase error => s.lock i (.looping t phase error)
  | .consuming error =>
    some ((if error = 0 ∧ !s.isManualReset then { s with eventStatus := false } else s).setThread i
      (.waitUnlocking error), [])
  | .waitUnlocking error => some (s.unlock i .idle, [.returned i (error = 0)])

/-- One step. -/
def step (s : State ι) : Action ι → Option (State ι × List (Observation ι))
  | .set i => if s.threads i = .idle then some (s.setThread i .setLocking, []) else none
  | .reset i => if s.threads i = .idle then some (s.setThread i .resetLocking, []) else none
  | .wait i giveUpAfter warnAfter =>
    if s.threads i = .idle then
      some (s.setThread i (.waitLocking (timeouts giveUpAfter warnAfter)), [])
    else none
  | .wake i error =>
    match s.threads i with
    | .sleeping t phase _ =>
      -- the time cannot be over where there is none
      if error = ETIMEDOUT ∧ !t.has phase then none
      else some (s.setThread i (.relocking t phase error), [])
    | _ => none
  | .goOn i => s.goOn i

end State

/-- The event as a machine. -/
def machine (ι : Type*) [DecidableEq ι] (manualReset initiallySignaled : Bool) :
    Machine (State ι) (Action ι) (Observation ι) where
  start s := s = .initial manualReset initiallySignaled
  step := State.step

/-! ## What a step can do -/

section

variable [DecidableEq ι]

/-- What a step does. -/
inductive Step (s : State ι) : Action ι → State ι → List (Observation ι) → Prop
  | call {a : Action ι} {i : ι} {p : Place} : s.threads i = .idle → p.critical = false →
      (∀ t phase notified, p ≠ .sleeping t phase notified) → Step s a (s.setThread i p) []
  | lock {i : ι} {p : Place} : (s.threads i).critical = false → s.eventMutex = none →
      p.critical = true → p ≠ .broadcasting → p ≠ .consuming 0 → p ≠ .waitUnlocking 0 →
      Step s (.goOn i) ({ s with eventMutex := some i }.setThread i p) []
  | set {i : ι} : s.threads i = .setting →
      Step s (.goOn i) ({ s with eventStatus := true }.setThread i .broadcasting) [.set i]
  | broadcast {i : ι} : s.threads i = .broadcasting →
      Step s (.goOn i)
        ({ s with threads := fun j => (s.threads j).notify }.setThread i .setUnlocking) []
  | setUnlock {i : ι} : s.threads i = .setUnlocking → Step s (.goOn i) (s.unlock i .idle) []
  | reset {i : ι} : s.threads i = .resetting →
      Step s (.goOn i) ({ s with eventStatus := false }.setThread i .resetUnlocking) [.reset i]
  | resetUnlock {i : ι} : s.threads i = .resetUnlocking → Step s (.goOn i) (s.unlock i .idle) []
  | sleep {i : ι} {t : Timeouts} {phase : Phase} : s.threads i = .looping t phase 0 →
      s.eventStatus = false → Step s (.goOn i) (s.unlock i (.sleeping t phase false)) []
  | warn {i : ι} {t : Timeouts} : s.threads i = .looping t .warn ETIMEDOUT →
      Step s (.goOn i) (s.setThread i (.looping t .giveUp 0)) [.warned i]
  | leave {i : ι} {t : Timeouts} {phase : Phase} {error : ℤ} :
      s.threads i = .looping t phase error → (error = 0 → s.eventStatus = true) →
      Step s (.goOn i) (s.setThread i (.consuming error)) []
  | wake {i : ι} {t : Timeouts} {phase : Phase} {notified : Bool} {error : ℤ} :
      s.threads i = .sleeping t phase notified →
      Step s (.wake i error) (s.setThread i (.relocking t phase error)) []
  | consume {i : ι} : s.threads i = .consuming 0 →
      Step s (.goOn i) ({ s with
        eventStatus := s.isManualReset && s.eventStatus }.setThread i (.waitUnlocking 0)) []
  | fail {i : ι} {error : ℤ} : s.threads i = .consuming error → error ≠ 0 →
      Step s (.goOn i) (s.setThread i (.waitUnlocking error)) []
  | waitUnlock {i : ι} {error : ℤ} : s.threads i = .waitUnlocking error →
      Step s (.goOn i) (s.unlock i .idle) [.returned i (error = 0)]

variable {s s' : State ι} {a : Action ι} {out : List (Observation ι)}

theorem step_lock {i : ι} {p : Place} (hi : (s.threads i).critical = false)
    (hp : p.critical = true) (hbroadcast : p ≠ .broadcasting) (hconsuming : p ≠ .consuming 0)
    (hunlocking : p ≠ .waitUnlocking 0) (h : s.lock i p = some (s', out)) :
    Step s (.goOn i) s' out := by
  rw [State.lock] at h
  split at h
  · cases h
    exact .lock hi ‹_› hp hbroadcast hconsuming hunlocking
  · cases h

theorem step_goOn {i : ι} (h : s.goOn i = some (s', out)) : Step s (.goOn i) s' out := by
  rw [State.goOn] at h
  cases hi : s.threads i <;> simp only [hi] at h
  case idle => cases h
  case setLocking =>
    exact step_lock (by rw [hi]; rfl) rfl (by simp) (by simp) (by simp) h
  case setting =>
    cases h
    exact .set hi
  case broadcasting =>
    cases h
    exact .broadcast hi
  case setUnlocking =>
    cases h
    exact .setUnlock hi
  case resetLocking =>
    exact step_lock (by rw [hi]; rfl) rfl (by simp) (by simp) (by simp) h
  case resetting =>
    cases h
    exact .reset hi
  case resetUnlocking =>
    cases h
    exact .resetUnlock hi
  case waitLocking t =>
    exact step_lock (by rw [hi]; rfl) rfl (by simp) (by simp) (by simp) h
  case looping t phase error =>
    split at h
    · rename_i hc
      obtain ⟨hstatus, rfl⟩ := hc
      cases h
      exact .sleep hi (by simpa using hstatus)
    · rename_i hc
      split at h
      · rename_i hw
        obtain ⟨rfl, rfl⟩ := hw
        cases h
        exact .warn hi
      · cases h
        refine .leave hi fun herror => ?_
        by_contra hne
        exact hc ⟨by simpa using hne, herror⟩
  case sleeping t phase notified => cases h
  case relocking t phase error =>
    exact step_lock (by rw [hi]; rfl) rfl (by simp) (by simp) (by simp) h
  case consuming error =>
    cases h
    by_cases herror : error = 0
    · subst herror
      have hconsumed : (if (0 : ℤ) = 0 ∧ (!s.isManualReset) = true then
          { s with eventStatus := false } else s) =
          { s with eventStatus := s.isManualReset && s.eventStatus } := by
        obtain ⟨manual, status, mutex, threads⟩ := s
        cases manual <;> simp
      rw [hconsumed]
      exact .consume hi
    · rw [if_neg fun hc => herror hc.1]
      exact .fail hi herror
  case waitUnlocking error =>
    cases h
    exact .waitUnlock hi

theorem step_cases (h : s.step a = some (s', out)) : Step s a s' out := by
  cases a with
  | set i =>
    simp only [State.step] at h
    split at h
    · cases h
      exact .call ‹_› rfl (by simp)
    · cases h
  | reset i =>
    simp only [State.step] at h
    split at h
    · cases h
      exact .call ‹_› rfl (by simp)
    · cases h
  | wait i giveUpAfter warnAfter =>
    simp only [State.step] at h
    split at h
    · cases h
      exact .call ‹_› rfl (by simp)
    · cases h
  | wake i error =>
    simp only [State.step] at h
    split at h
    · split at h
      · cases h
      · cases h
        exact .wake ‹_›
    · cases h
  | goOn i => exact step_goOn h

end

end Event

end TQLib
