import TQLib.TaskSafety.SequenceChecker

/-!
# Tasks that may outlive their object

`PendingTaskSafetyFlag`, `ScopedTaskSafety` and `SafeTask` of `api/task_queue/`, over task queues
whose tasks run on threads. Objects have a `ScopedTaskSafety`, and post tasks which call them back:
`q->PostTask(SafeTask(safety.flag(), [this] { ... }))`. What such a task does with its object it
does in any number of steps, between which other threads take theirs.

A thread runs one task at a time, and where it runs none it is outside of any queue.

## Main definitions

* `Flag`, `System` — a flag, and all there is
* `machine` — the steps
* `Careful` — what the users of a flag have to see to
-/

namespace TQLib

namespace TaskSafety

variable {θ κ φ ω : Type*} [DecidableEq θ] [DecidableEq κ] [DecidableEq φ] [DecidableEq ω]

/-! ## Flags -/

/-- `PendingTaskSafetyFlag`. -/
structure Flag (θ κ : Type*) where
  alive : Bool
  mainSequence : SequenceChecker θ κ Empty

/-- The functions that make one. -/
inductive Create
  | create
  | createDetached
  | createDetachedInactive
  deriving DecidableEq

/-- `Create`, `CreateDetached` and `CreateDetachedInactive`. -/
def Create.flag (here : Place θ κ Empty) : Create → Flag θ κ
  | .create => ⟨true, .attach here⟩
  | .createDetached => ⟨true, (SequenceChecker.attach here).detach⟩
  | .createDetachedInactive => ⟨false, (SequenceChecker.attach here).detach⟩

/-- `RTC_DCHECK_RUN_ON(&main_sequence_)`. -/
def Flag.check (g : Flag θ κ) (here : Place θ κ Empty) : Bool × Flag θ κ :=
  let (ok, mainSequence) := g.mainSequence.isCurrent here
  (ok, { g with mainSequence })

/-- What `SetAlive` and `SetNotAlive` do, after the check. -/
def Flag.set (g : Flag θ κ) (here : Place θ κ Empty) (alive : Bool) : Bool × Flag θ κ :=
  let (ok, g') := g.check here
  (ok, { g' with alive })

/-! ## The system -/

/-- The life of an object, with the flag of its `ScopedTaskSafety`. -/
inductive Life (φ : Type*)
  | unborn
  | alive (flag : φ)
  | gone
  deriving DecidableEq

structure System (θ κ φ ω : Type*) where
  /-- The queue whose task a thread runs. -/
  running : θ → Option κ
  /-- The object that the task calls back, if it does. -/
  body : θ → Option ω
  /-- What has been posted to a queue, with the flag and the object. -/
  pending : κ → List (φ × ω)
  flags : φ → Option (Flag θ κ)
  objects : ω → Life φ

inductive Action (θ κ φ ω : Type*)
  | create (t : θ) (f : φ) (by' : Create)
  /-- An object is constructed, with `ScopedTaskSafety(f)`. -/
  | make (t : θ) (o : ω) (f : φ)
  /-- `q->PostTask(SafeTask(o.safety.flag(), ...))`. -/
  | post (t : θ) (q : κ) (o : ω)
  /-- The next task of the queue is run. -/
  | start (t : θ) (q : κ)
  /-- The task does something with its object. -/
  | use (t : θ)
  | finish (t : θ)
  /-- `SetAlive` and `SetNotAlive`. -/
  | set (t : θ) (f : φ) (alive : Bool)
  /-- `o.safety.reset(f)`. -/
  | reset (t : θ) (o : ω) (f : φ)
  /-- The end of an object, and `~ScopedTaskSafety`. -/
  | destroy (t : θ) (o : ω)

inductive Seen (θ κ φ ω : Type*)
  /-- A check, and whether it succeeds. -/
  | checked (t : θ) (f : φ) (ok : Bool)
  | set (f : φ) (alive : Bool)
  | posted (q : κ) (f : φ) (o : ω)
  /-- The turn of a task, and whether it calls its object back. -/
  | turn (q : κ) (f : φ) (o : ω) (ran : Bool)
  | used (o : ω) (alive : Bool)
  deriving DecidableEq

variable (s : System θ κ φ ω)

/-- Where a thread is. -/
def System.here (t : θ) : Place θ κ Empty := ⟨t, s.running t, none⟩

/-- `flag->SetAlive()` or `flag->SetNotAlive()`, if there is the flag. -/
def System.setFlag (t : θ) (f : φ) (alive : Bool) :
    Option (System θ κ φ ω × List (Seen θ κ φ ω)) :=
  (s.flags f).map fun g =>
    let (ok, g') := g.set (s.here t) alive
    ({ s with flags := Function.update s.flags f (some g') }, [.checked t f ok, .set f alive])

/-- A step. -/
def act : Action θ κ φ ω → Option (System θ κ φ ω × List (Seen θ κ φ ω))
  | .create t f by' =>
    match s.flags f with
    | some _ => none
    | none =>
      let g := by'.flag (s.here t)
      some ({ s with flags := Function.update s.flags f (some g) }, [.set f g.alive])
  | .make _ o f =>
    match s.objects o, s.flags f with
    | .unborn, some _ => some ({ s with objects := Function.update s.objects o (.alive f) }, [])
    | _, _ => none
  | .post _ q o =>
    match s.objects o with
    | .alive f =>
      some ({ s with pending := Function.update s.pending q (s.pending q ++ [(f, o)]) },
        [.posted q f o])
    | _ => none
  | .start t q =>
    match s.running t, s.pending q with
    | none, (f, o) :: rest =>
      (s.flags f).map fun g =>
        let (ok, g') := g.check ⟨t, some q, none⟩
        ({ s with
            running := Function.update s.running t (some q)
            body := Function.update s.body t (if g.alive then some o else none)
            pending := Function.update s.pending q rest
            flags := Function.update s.flags f (some g') },
          [.checked t f ok, .turn q f o g.alive])
    | _, _ => none
  | .use t => (s.body t).map fun o => (s, [.used o (s.objects o != .gone)])
  | .finish t =>
    match s.running t with
    | none => none
    | some _ =>
      some ({ s with
        running := Function.update s.running t none
        body := Function.update s.body t none }, [])
  | .set t f alive => s.setFlag t f alive
  | .reset t o f =>
    match s.objects o, s.flags f with
    | .alive f', some _ =>
      (s.setFlag t f' false).map fun (s', out) =>
        ({ s' with objects := Function.update s'.objects o (.alive f) }, out)
    | _, _ => none
  | .destroy t o =>
    match s.objects o with
    | .alive f =>
      (s.setFlag t f false).map fun (s', out) =>
        ({ s' with
          objects := Function.update s'.objects o .gone
          -- a task that destroys its own object does not go on with it
          body := if s'.body t = some o then Function.update s'.body t none else s'.body }, out)
    | _ => none

/-- Tasks, flags and objects. At first there is nothing. -/
def taskMachine (θ κ φ ω : Type*) [DecidableEq θ] [DecidableEq κ] [DecidableEq φ]
    [DecidableEq ω] : Machine (System θ κ φ ω) (Action θ κ φ ω) (Seen θ κ φ ω) where
  start s := (∀ t, s.running t = none) ∧ (∀ t, s.body t = none) ∧ (∀ q, s.pending q = []) ∧
    (∀ f, s.flags f = none) ∧ ∀ o, s.objects o = .unborn
  step := act

/-- The checks of a step succeed, which `RTC_DCHECK_RUN_ON` sees to. -/
def Passes (a : Action θ κ φ ω) : Prop :=
  ∀ e ∈ (act s a).elim [] (·.2), ∀ t f, e ≠ .checked t f false

/-- The flag is attached to the sequence which the thread is on. -/
def System.Attached (t : θ) (f : φ) : Prop :=
  ∃ g, s.flags f = some g ∧ g.mainSequence.attached = true ∧ (g.check (s.here t)).1 = true

/-- What the users of a flag have to see to, where the checks succeed: a queue runs its tasks on one
thread at a time; a flag is set alive only if no task of an object is pending behind it that is
gone or has another flag by now; and the flag that `reset` takes belongs to the same sequence. -/
def Careful (a : Action θ κ φ ω) : Prop :=
  Passes s a ∧
    match a with
    | .start t q => ∀ u, u ≠ t → s.running u ≠ some q
    | .set _ f true => ∀ q o, (f, o) ∈ s.pending q → s.objects o = .alive f
    | .reset t _ f => s.Attached t f
    | _ => True

end TaskSafety

end TQLib
