import Mathlib.Data.List.Nodup
import TQLib.Foundations.Nesting

/-!
# The current thread and the current task queue

Two variables of an OS thread, kept in two ways. `ThreadManager` has the current `Thread` in a key
and writes it directly. The current task queue belongs to `CurrentTaskQueueSetter`, which puts back
what it found when it was made; a `Thread` has such a setter while it is the current one.

Threads become current by scopes: `AutoThread`, which does nothing if there is a current thread,
`AutoSocketServerThread`, which takes the place of a current thread for as long as it lasts, and
`WrapCurrentThread` with `UnwrapCurrentThread`.

## Main results

* `current_simulates` — the pair of the two variables is a variable that every scope puts back
* `current_thread_law` — when there is a current thread it is the current task queue
-/

namespace TQLib

namespace ThreadManager

namespace CurrentThread

/-- What `TaskQueueBase::Current()` may point to: a `Thread` that some scope made, or another task
queue. -/
inductive Queue (ι κ : Type*)
  | thread (i : ι)
  | other (q : κ)

/-- What makes a thread current. Whether a thread can be wrapped is up to `OpenThread`. -/
inductive Kind
  | autoThread
  | autoSocketServerThread
  | wrapped (opened : Bool)

/-- The values of `CurrentThread()` and `TaskQueueBase::Current()`. -/
abbrev Slots (ι κ : Type*) := Option ι × Option (Queue ι κ)

/-- The variables of one OS thread, the members of the threads that scopes made, and the scopes,
innermost first. -/
structure State (ι κ : Type*) where
  /-- What `key_` has. -/
  currentThread : Option ι
  /-- `current`. -/
  current : Option (Queue ι κ)
  /-- `previous_` of `task_queue_registration_`, if there is one. -/
  taskQueueRegistration : ι → Option (Option (Queue ι κ))
  /-- `old_thread_`. -/
  oldThread : ι → Option ι
  /-- `owned_`. -/
  owned : ι → Bool
  scopes : List (Kind × ι)

/-- What happens to the scopes. -/
inductive Action (ι : Type*)
  /-- A scope begins, with a new thread. -/
  | enter (kind : Kind) (i : ι)
  /-- The innermost scope ends. -/
  | leave

variable {ι κ : Type*} [DecidableEq ι]

namespace State

/-- The two variables. -/
def slots (s : State ι κ) : Slots ι κ := (s.currentThread, s.current)

/-- `ClearCurrentTaskQueue`: the setter, if there is one, puts back what it found. -/
def clearCurrentTaskQueue (s : State ι κ) (i : ι) : State ι κ :=
  match s.taskQueueRegistration i with
  | none => s
  | some previous =>
    { s with
      current := previous
      taskQueueRegistration := Function.update s.taskQueueRegistration i none }

/-- `EnsureIsCurrentTaskQueue`. The new setter is made before an old one goes. -/
def ensureIsCurrentTaskQueue (s : State ι κ) (i : ι) : State ι κ :=
  let previous := s.current
  let s := { s with current := some (.thread i) }
  let s := s.clearCurrentTaskQueue i
  { s with taskQueueRegistration := Function.update s.taskQueueRegistration i (some previous) }

/-- `SetCurrentThread`. -/
def setCurrentThread (s : State ι κ) : Option ι → State ι κ
  | some i =>
    let s := s.ensureIsCurrentTaskQueue i
    { s with currentThread := some i }
  | none =>
    let s := match s.currentThread with
      | some current => s.clearCurrentTaskQueue current
      | none => s
    { s with currentThread := none }

/-- `Thread::Thread`. -/
def newThread (s : State ι κ) (i : ι) : State ι κ :=
  { s with
    taskQueueRegistration := Function.update s.taskQueueRegistration i none
    owned := Function.update s.owned i true }

/-- `Thread::~Thread`. `Join` returns at once, because none of these threads runs, and the setter
goes with the members. -/
def deleteThread (s : State ι κ) (i : ι) : State ι κ := s.clearCurrentTaskQueue i

/-- `AutoThread::AutoThread`. -/
def autoThread (s : State ι κ) (i : ι) : State ι κ × List (Nesting (Slots ι κ)) :=
  let s := s.newThread i
  match s.currentThread with
  | none =>
    let s := s.setCurrentThread (some i)
    (s, [.now s.slots])
  | some _ => (s, [])

/-- `AutoThread::~AutoThread`. -/
def endAutoThread (s : State ι κ) (i : ι) : State ι κ × List (Nesting (Slots ι κ)) :=
  if s.currentThread = some i then
    let s := s.setCurrentThread none
    (s.deleteThread i, [.now s.slots])
  else (s.deleteThread i, [])

/-- `AutoSocketServerThread::AutoSocketServerThread`. -/
def autoSocketServerThread (s : State ι κ) (i : ι) : State ι κ × List (Nesting (Slots ι κ)) :=
  let s := s.newThread i
  let s := { s with oldThread := Function.update s.oldThread i s.currentThread }
  let s₁ := s.setCurrentThread none
  let s₂ := s₁.setCurrentThread (some i)
  (s₂, [.now s₁.slots, .now s₂.slots])

/-- `AutoSocketServerThread::~AutoSocketServerThread`: `none` when its `RTC_DCHECK` fails. -/
def endAutoSocketServerThread (s : State ι κ) (i : ι) :
    Option (State ι κ × List (Nesting (Slots ι κ))) :=
  if s.currentThread = some i then
    let s₁ := s.setCurrentThread none
    let s₂ := s₁.setCurrentThread (s₁.oldThread i)
    some (s₂.deleteThread i, [.now s₁.slots, .now s₂.slots])
  else none

/-- `WrapCurrentThread`. When `OpenThread` fails it does not set the thread that it made. -/
def wrapCurrentThread (s : State ι κ) (i : ι) (opened : Bool) :
    State ι κ × List (Nesting (Slots ι κ)) :=
  match s.currentThread with
  | some _ => (s, [])
  | none =>
    let s := s.newThread i
    if opened then
      let s := { s with owned := Function.update s.owned i false }
      let s := s.setCurrentThread (some i)
      (s, [.now s.slots])
    else (s, [])

/-- `UnwrapCurrentThread`. -/
def unwrapCurrentThread (s : State ι κ) : State ι κ × List (Nesting (Slots ι κ)) :=
  match s.currentThread with
  | some t =>
    if s.owned t then (s, [])
    else
      let s := s.setCurrentThread none
      (s.deleteThread t, [.now s.slots])
  | none => (s, [])

/-- How a scope begins. -/
def beginScope (s : State ι κ) (i : ι) : Kind → State ι κ × List (Nesting (Slots ι κ))
  | .autoThread => s.autoThread i
  | .autoSocketServerThread => s.autoSocketServerThread i
  | .wrapped opened => s.wrapCurrentThread i opened

/-- How a scope ends. -/
def endScope (s : State ι κ) (i : ι) : Kind → Option (State ι κ × List (Nesting (Slots ι κ)))
  | .autoThread => some (s.endAutoThread i)
  | .autoSocketServerThread => s.endAutoSocketServerThread i
  | .wrapped _ => some s.unwrapCurrentThread

/-- Whether a scope may begin: no other has its thread, and only a scope without current thread
wraps. -/
def mayEnter (s : State ι κ) (i : ι) : Kind → Bool
  | .wrapped _ => i ∉ s.scopes.map Prod.snd ∧ s.currentThread = none
  | _ => i ∉ s.scopes.map Prod.snd

/-- One scope begins or ends. -/
def step (s : State ι κ) : Action ι → Option (State ι κ × List (Nesting (Slots ι κ)))
  | .enter kind i =>
    if s.mayEnter i kind then
      let (s', out) := s.beginScope i kind
      some ({ s' with scopes := (kind, i) :: s.scopes }, .entered s.slots :: out)
    else none
  | .leave =>
    match s.scopes with
    | [] => none
    | (kind, i) :: scopes =>
      (s.endScope i kind).map fun (s', out) =>
        ({ s' with scopes := scopes }, out ++ [.left s'.slots])

end State

/-- The scopes of one OS thread as a machine. It starts without scopes and without current thread,
on any task queue. -/
def machine (ι κ : Type*) [DecidableEq ι] :
    Machine (State ι κ) (Action ι) (Nesting (Slots ι κ)) where
  start s := s.scopes = [] ∧ s.currentThread = none
  step := State.step

/-! ## Who is current -/

/-- The thread that is current inside these scopes. -/
def top : List (Kind × ι) → Option ι
  | [] => none
  | (.autoThread, i) :: scopes => (top scopes).or (some i)
  | (.autoSocketServerThread, i) :: _ => some i
  | (.wrapped opened, i) :: scopes => if opened then some i else top scopes

/-- The two variables when a thread, or none, is current and they agree. The task queue is the one
that was there before all scopes. -/
def bound (queue : Option (Queue ι κ)) : Option ι → Slots ι κ
  | some i => (some i, some (.thread i))
  | none => (none, queue)

/-- What the innermost scopes will restore. -/
def restores (queue : Option (Queue ι κ)) : List (Kind × ι) → List (Slots ι κ)
  | [] => []
  | _ :: scopes => bound queue (top scopes) :: restores queue scopes

omit [DecidableEq ι] in
theorem top_mem {scopes : List (Kind × ι)} {i : ι} (h : top scopes = some i) :
    i ∈ scopes.map Prod.snd := by
  induction scopes with
  | nil => cases h
  | cons scope scopes ih =>
    obtain ⟨kind, j⟩ := scope
    rw [List.map_cons, List.mem_cons]
    cases kind with
    | autoThread =>
      rcases Option.or_eq_some_iff.mp h with htop | ⟨-, hj⟩
      · exact .inr (ih htop)
      · exact .inl (Option.some.inj hj).symm
    | autoSocketServerThread => exact .inl (Option.some.inj h).symm
    | wrapped opened =>
      cases opened with
      | true => exact .inl (Option.some.inj h).symm
      | false => exact .inr (ih h)

/-- A thread, or none, is current, and only the current one of these threads has a setter, which
will put back the task queue that was there before all scopes. -/
structure Bound (queue : Option (Queue ι κ)) (threads : Set ι) (t : Option ι) (s : State ι κ) :
    Prop where
  slots : s.slots = bound queue t
  mem : ∀ i, t = some i → i ∈ threads
  registration : ∀ i ∈ threads, s.taskQueueRegistration i = if t = some i then some queue else none

namespace Bound

variable {queue : Option (Queue ι κ)} {threads : Set ι} {t : Option ι} {s : State ι κ} {i : ι}

theorem currentThread (hb : Bound queue threads t s) : s.currentThread = t := by
  have hslots := congrArg Prod.fst hb.slots
  cases t <;> exact hslots

theorem mono {threads' : Set ι} (hb : Bound queue threads t s) (hle : threads' ⊆ threads)
    (hmem : ∀ i, t = some i → i ∈ threads') : Bound queue threads' t s where
  slots := hb.slots
  mem := hmem
  registration i hi := hb.registration i (hle hi)

/-- A thread that is made has no setter. -/
theorem newThread (hb : Bound queue threads t s) (hi : i ∉ threads) :
    Bound queue (insert i threads) t (s.newThread i) := by
  constructor
  · exact hb.slots
  · exact fun j hj => .inr (hb.mem j hj)
  · intro j hj
    change Function.update s.taskQueueRegistration i none j = _
    by_cases hji : j = i
    · subst hji
      have hne : t ≠ some j := fun ht => hi (hb.mem j ht)
      rw [Function.update_self, if_neg hne]
    · rw [Function.update_of_ne hji]
      exact hb.registration j (hj.resolve_left hji)

/-- A thread that is not current has no setter to take along. -/
theorem deleteThread (hb : Bound queue threads t s) (hi : i ∈ threads) (ht : t ≠ some i) :
    s.deleteThread i = s := by
  have hnone := hb.registration i hi
  rw [if_neg ht] at hnone
  unfold State.deleteThread State.clearCurrentTaskQueue
  rw [hnone]

/-- `SetCurrentThread(nullptr)` puts back the task queue. -/
theorem clear (hb : Bound queue threads t s) :
    Bound queue threads none (s.setCurrentThread none) := by
  cases t with
  | none =>
    have hs : s.setCurrentThread none = { s with currentThread := none } := by
      unfold State.setCurrentThread
      rw [hb.currentThread]
    have hcurrent : s.current = queue := congrArg Prod.snd hb.slots
    rw [hs]
    exact ⟨congrArg (none, ·) hcurrent, hb.mem, hb.registration⟩
  | some c =>
    have hreg := hb.registration c (hb.mem c rfl)
    rw [if_pos rfl] at hreg
    have hs : s.setCurrentThread none =
        { s with
          currentThread := none
          current := queue
          taskQueueRegistration := Function.update s.taskQueueRegistration c none } := by
      unfold State.setCurrentThread State.clearCurrentTaskQueue
      rw [hb.currentThread]
      simp only [hreg]
    rw [hs]
    constructor
    · rfl
    · intro j hj
      cases hj
    · intro j hj
      change Function.update s.taskQueueRegistration c none j = _
      by_cases hjc : j = c
      · subst hjc
        rw [Function.update_self]
        rfl
      · have hnone := hb.registration j hj
        rw [if_neg fun h => hjc (Option.some.inj h).symm] at hnone
        rw [Function.update_of_ne hjc, hnone]
        rfl

/-- `SetCurrentThread` where no thread is current. -/
theorem set (hb : Bound queue threads none s) (hi : i ∈ threads) :
    Bound queue threads (some i) (s.setCurrentThread (some i)) := by
  have hreg := hb.registration i hi
  rw [if_neg (Option.some_ne_none i).symm] at hreg
  have hcurrent : s.current = queue := congrArg Prod.snd hb.slots
  have hs : s.setCurrentThread (some i) =
      { s with
        currentThread := some i
        current := some (.thread i)
        taskQueueRegistration := Function.update s.taskQueueRegistration i (some queue) } := by
    unfold State.setCurrentThread State.ensureIsCurrentTaskQueue State.clearCurrentTaskQueue
    simp only [hreg, hcurrent]
  rw [hs]
  constructor
  · rfl
  · rintro j hj
    obtain rfl := Option.some.inj hj
    exact hi
  · intro j hj
    change Function.update s.taskQueueRegistration i (some queue) j = _
    by_cases hji : j = i
    · subst hji
      rw [Function.update_self, if_pos rfl]
    · have hnone := hb.registration j hj
      rw [if_neg (Option.some_ne_none j).symm] at hnone
      rw [Function.update_of_ne hji, if_neg fun h => hji (Option.some.inj h).symm, hnone]

/-- `SetCurrentThread` with any argument, where no thread is current. -/
theorem setAny (hb : Bound queue threads none s) (hmem : ∀ i, t = some i → i ∈ threads) :
    Bound queue threads t (s.setCurrentThread t) := by
  cases t with
  | none => exact hb.clear
  | some i => exact hb.set (hmem i rfl)

end Bound

/-! ## What the scopes keep -/

section Frame

variable (s : State ι κ) (i : ι) (t : Option ι)

@[simp] theorem clearCurrentTaskQueue_oldThread :
    (s.clearCurrentTaskQueue i).oldThread = s.oldThread := by
  unfold State.clearCurrentTaskQueue
  split <;> rfl

@[simp] theorem clearCurrentTaskQueue_owned : (s.clearCurrentTaskQueue i).owned = s.owned := by
  unfold State.clearCurrentTaskQueue
  split <;> rfl

@[simp] theorem setCurrentThread_oldThread : (s.setCurrentThread t).oldThread = s.oldThread := by
  cases t with
  | some i => simp [State.setCurrentThread, State.ensureIsCurrentTaskQueue]
  | none =>
    unfold State.setCurrentThread
    cases s.currentThread <;> simp

@[simp] theorem setCurrentThread_owned : (s.setCurrentThread t).owned = s.owned := by
  cases t with
  | some i => simp [State.setCurrentThread, State.ensureIsCurrentTaskQueue]
  | none =>
    unfold State.setCurrentThread
    cases s.currentThread <;> simp

end Frame

/-- What the threads of the scopes remember for their end. -/
def Kept (oldThread : ι → Option ι) (owned : ι → Bool) : List (Kind × ι) → Prop
  | [] => True
  | (.autoThread, _) :: scopes => Kept oldThread owned scopes
  | (.autoSocketServerThread, i) :: scopes => oldThread i = top scopes ∧ Kept oldThread owned scopes
  | (.wrapped opened, i) :: scopes =>
    top scopes = none ∧ (opened = true → owned i = false) ∧ Kept oldThread owned scopes

omit [DecidableEq ι] in
theorem Kept.congr {oldThread oldThread' : ι → Option ι} {owned owned' : ι → Bool}
    {scopes : List (Kind × ι)} (hk : Kept oldThread owned scopes)
    (hsame : ∀ i ∈ scopes.map Prod.snd, oldThread' i = oldThread i ∧ owned' i = owned i) :
    Kept oldThread' owned' scopes := by
  induction scopes with
  | nil => trivial
  | cons scope scopes ih =>
    obtain ⟨kind, i⟩ := scope
    obtain ⟨hold, howned⟩ := hsame i List.mem_cons_self
    have hrest : ∀ j ∈ scopes.map Prod.snd, oldThread' j = oldThread j ∧ owned' j = owned j :=
      fun j hj => hsame j (List.mem_cons_of_mem _ hj)
    cases kind with
    | autoThread => exact ih hk hrest
    | autoSocketServerThread => exact ⟨hold.trans hk.1, ih hk.2 hrest⟩
    | wrapped opened => exact ⟨hk.1, fun h => howned.trans (hk.2.1 h), ih hk.2.2 hrest⟩

/-- What holds between the steps. -/
structure Inv (queue : Option (Queue ι κ)) (s : State ι κ) : Prop where
  /-- The innermost scope that set a thread says which one is current. -/
  bound : Bound queue {i | i ∈ s.scopes.map Prod.snd} (top s.scopes) s
  nodup : (s.scopes.map Prod.snd).Nodup
  kept : Kept s.oldThread s.owned s.scopes

/-- The two variables agree. -/
def Agree (v : Slots ι κ) : Prop := ∀ i, v.1 = some i → v.2 = some (.thread i)

omit [DecidableEq ι] in
theorem agree_bound (queue : Option (Queue ι κ)) (t : Option ι) : Agree (bound queue t) := by
  intro i hi
  cases t with
  | none => cases hi
  | some j =>
    obtain rfl : j = i := Option.some.inj hi
    rfl

/-- What is seen while a scope begins or ends is all good. -/
def Shown (queue : Option (Queue ι κ)) (out : List (Nesting (Slots ι κ))) : Prop :=
  ∀ e ∈ out, ∃ t, e = .now (bound queue t)

section Shown

variable {queue : Option (Queue ι κ)} {threads : Set ι} {t t' : Option ι} {s s' : State ι κ}

omit [DecidableEq ι] in
theorem shown_nil : Shown queue ([] : List (Nesting (Slots ι κ))) := by
  intro e he
  cases he

theorem Bound.shown (hb : Bound queue threads t s) : Shown queue [.now s.slots] := by
  intro e he
  obtain rfl := List.mem_singleton.mp he
  exact ⟨t, by rw [hb.slots]⟩

theorem Bound.shown₂ (hb : Bound queue threads t s) (hb' : Bound queue threads t' s') :
    Shown queue [.now s.slots, .now s'.slots] := by
  intro e he
  rcases List.mem_cons.mp he with rfl | he
  · exact ⟨t, by rw [hb.slots]⟩
  · exact hb'.shown e he

omit [DecidableEq ι] in
theorem Shown.path {out : List (Nesting (Slots ι κ))} (hs : Shown queue out)
    (r : List (Slots ι κ)) : (nesting Agree).Path r out r := by
  refine .nows fun e he => ?_
  obtain ⟨t, rfl⟩ := hs e he
  exact ⟨_, rfl, agree_bound queue t⟩

end Shown

/-! ## Scopes begin and end -/

section Scopes

variable {queue : Option (Queue ι κ)} {s : State ι κ} {kind : Kind} {i : ι}
  {scopes : List (Kind × ι)}

/-- What a scope leaves that has begun. -/
structure Begun (queue : Option (Queue ι κ)) (s : State ι κ) (kind : Kind) (i : ι)
    (r : State ι κ × List (Nesting (Slots ι κ))) : Prop where
  bound : Bound queue (insert i {j | j ∈ s.scopes.map Prod.snd}) (top ((kind, i) :: s.scopes)) r.1
  kept : Kept r.1.oldThread r.1.owned ((kind, i) :: s.scopes)
  shown : Shown queue r.2

/-- What other threads remember is not touched when a scope begins. -/
theorem Inv.kept_update (hinv : Inv queue s) (hi : i ∉ s.scopes.map Prod.snd)
    {oldThread : ι → Option ι} {owned : ι → Bool}
    (hold : ∀ j, j ≠ i → oldThread j = s.oldThread j) (howned : ∀ j, j ≠ i → owned j = s.owned j) :
    Kept oldThread owned s.scopes := by
  refine hinv.kept.congr fun j hj => ?_
  have hne : j ≠ i := fun h => hi (h ▸ hj)
  exact ⟨hold j hne, howned j hne⟩

theorem begun_autoThread (hinv : Inv queue s) (hi : i ∉ s.scopes.map Prod.snd) :
    Begun queue s .autoThread i (s.autoThread i) := by
  have hb := hinv.bound.newThread hi
  have hkept : Kept s.oldThread (Function.update s.owned i true) s.scopes :=
    hinv.kept_update hi (fun _ _ => rfl) fun j hj => Function.update_of_ne hj _ _
  unfold State.autoThread
  cases htop : top s.scopes with
  | none =>
    rw [htop] at hb
    have hset := hb.set (Set.mem_insert i _)
    simp only [hb.currentThread]
    constructor
    · rw [top, htop]
      exact hset
    · rw [setCurrentThread_oldThread, setCurrentThread_owned]
      exact hkept
    · exact hset.shown
  | some t =>
    rw [htop] at hb
    simp only [hb.currentThread]
    constructor
    · rw [top, htop]
      exact hb
    · exact hkept
    · exact shown_nil

theorem begun_autoSocketServerThread (hinv : Inv queue s) (hi : i ∉ s.scopes.map Prod.snd) :
    Begun queue s .autoSocketServerThread i (s.autoSocketServerThread i) := by
  have hb := hinv.bound.newThread hi
  have hkept : Kept (Function.update s.oldThread i s.currentThread)
      (Function.update s.owned i true) s.scopes :=
    hinv.kept_update hi (fun j hj => Function.update_of_ne hj _ _)
      fun j hj => Function.update_of_ne hj _ _
  have hold : Bound queue (insert i {j | j ∈ s.scopes.map Prod.snd}) (top s.scopes)
      { s.newThread i with oldThread := Function.update s.oldThread i s.currentThread } :=
    ⟨hb.slots, hb.mem, hb.registration⟩
  have hclear := hold.clear
  have hset := hclear.set (Set.mem_insert i _)
  constructor
  · exact hset
  · change Kept (State.setCurrentThread _ _).oldThread (State.setCurrentThread _ _).owned _
    simp only [setCurrentThread_oldThread, setCurrentThread_owned]
    refine ⟨?_, hkept⟩
    change Function.update s.oldThread i s.currentThread i = _
    rw [Function.update_self, hinv.bound.currentThread]
  · exact hclear.shown₂ hset

theorem begun_wrapped {opened : Bool} (hinv : Inv queue s) (hi : i ∉ s.scopes.map Prod.snd)
    (hnone : s.currentThread = none) :
    Begun queue s (.wrapped opened) i (s.wrapCurrentThread i opened) := by
  have hb := hinv.bound.newThread hi
  have htop : top s.scopes = none := by rw [← hinv.bound.currentThread, hnone]
  rw [htop] at hb
  unfold State.wrapCurrentThread
  rw [hnone]
  cases opened with
  | true =>
    have howned : Bound queue (insert i {j | j ∈ s.scopes.map Prod.snd}) none
        { s.newThread i with owned := Function.update (s.newThread i).owned i false } :=
      ⟨hb.slots, hb.mem, hb.registration⟩
    have hset := howned.set (Set.mem_insert i _)
    simp only [if_true]
    constructor
    · exact hset
    · rw [setCurrentThread_oldThread, setCurrentThread_owned]
      refine ⟨htop, fun _ => Function.update_self _ _ _, ?_⟩
      refine hinv.kept_update hi (fun _ _ => rfl) fun j hj => ?_
      change Function.update (Function.update s.owned i true) i false j = _
      rw [Function.update_of_ne hj, Function.update_of_ne hj]
    · exact hset.shown
  | false =>
    constructor
    · change Bound queue _ (top s.scopes) (s.newThread i)
      rw [htop]
      exact hb
    · refine ⟨htop, fun h => absurd h Bool.false_ne_true, ?_⟩
      exact hinv.kept_update hi (fun _ _ => rfl) fun j hj => Function.update_of_ne hj _ _
    · exact shown_nil

/-- A scope that begins finds no other with its thread. -/
theorem mayEnter_cases (hm : s.mayEnter i kind = true) :
    i ∉ s.scopes.map Prod.snd ∧ ∀ opened, kind = .wrapped opened → s.currentThread = none := by
  cases kind with
  | autoThread => exact ⟨of_decide_eq_true hm, fun opened h => by cases h⟩
  | autoSocketServerThread => exact ⟨of_decide_eq_true hm, fun opened h => by cases h⟩
  | wrapped opened =>
    obtain ⟨hi, hnone⟩ := of_decide_eq_true hm
    exact ⟨hi, fun _ _ => hnone⟩

theorem begun (hinv : Inv queue s) (hm : s.mayEnter i kind = true) :
    Begun queue s kind i (s.beginScope i kind) := by
  obtain ⟨hi, hnone⟩ := mayEnter_cases hm
  cases kind with
  | autoThread => exact begun_autoThread hinv hi
  | autoSocketServerThread => exact begun_autoSocketServerThread hinv hi
  | wrapped opened => exact begun_wrapped hinv hi (hnone opened rfl)

/-- What a scope leaves that has ended. -/
structure Ended (queue : Option (Queue ι κ)) (s : State ι κ) (scopes : List (Kind × ι))
    (r : State ι κ × List (Nesting (Slots ι κ))) : Prop where
  bound : Bound queue {j | j ∈ scopes.map Prod.snd} (top scopes) r.1
  oldThread : r.1.oldThread = s.oldThread
  owned : r.1.owned = s.owned
  shown : Shown queue r.2

/-- The thread of the innermost scope is not current outside it. -/
theorem Inv.top_ne (hinv : Inv queue s) (hs : s.scopes = (kind, i) :: scopes) :
    top scopes ≠ some i := by
  intro htop
  have hnodup := hinv.nodup
  rw [hs, List.map_cons, List.nodup_cons] at hnodup
  exact hnodup.1 (top_mem htop)

/-- Outside the innermost scope there are the threads of the others. -/
theorem Bound.outside {t : Option ι} {s' : State ι κ}
    (hb : Bound queue {j | j ∈ ((kind, i) :: scopes).map Prod.snd} t s') (ht : top scopes = t) :
    Bound queue {j | j ∈ scopes.map Prod.snd} (top scopes) s' := by
  rw [ht]
  refine hb.mono (fun _ hj => List.mem_cons_of_mem _ hj) fun j hj => ?_
  rw [← ht] at hj
  exact top_mem hj

theorem ended_autoThread (hinv : Inv queue s) (hs : s.scopes = (.autoThread, i) :: scopes) :
    Ended queue s scopes (s.endAutoThread i) := by
  have hb := hinv.bound
  have hne := hinv.top_ne hs
  rw [hs] at hb
  have hi : i ∈ {j | j ∈ ((Kind.autoThread, i) :: scopes).map Prod.snd} := List.mem_cons_self
  unfold State.endAutoThread
  rw [hb.currentThread, top]
  cases htop : top scopes with
  | none =>
    have hclear := hb.clear
    have hdelete := hclear.deleteThread hi (Option.some_ne_none i).symm
    rw [Option.none_or, if_pos rfl]
    simp only [hdelete]
    exact ⟨hclear.outside htop, setCurrentThread_oldThread s none, setCurrentThread_owned s none,
      hclear.shown⟩
  | some t =>
    rw [htop] at hne
    rw [top, htop, Option.some_or] at hb
    have hdelete := hb.deleteThread hi hne
    rw [Option.some_or, if_neg hne, hdelete]
    exact ⟨hb.outside htop, rfl, rfl, shown_nil⟩

theorem ended_autoSocketServerThread (hinv : Inv queue s)
    (hs : s.scopes = (.autoSocketServerThread, i) :: scopes) :
    ∃ r, s.endAutoSocketServerThread i = some r ∧ Ended queue s scopes r := by
  have hb := hinv.bound
  have hne := hinv.top_ne hs
  have hold : s.oldThread i = top scopes := by
    have hkept := hinv.kept
    rw [hs] at hkept
    exact hkept.1
  rw [hs] at hb
  have hi : i ∈ {j | j ∈ ((Kind.autoSocketServerThread, i) :: scopes).map Prod.snd} :=
    List.mem_cons_self
  have hclear := hb.clear
  have hset := hclear.setAny (t := top scopes) fun j hj => List.mem_cons_of_mem _ (top_mem hj)
  have hdelete := hset.deleteThread hi hne
  refine ⟨((s.setCurrentThread none).setCurrentThread (top scopes),
    [.now (s.setCurrentThread none).slots,
      .now ((s.setCurrentThread none).setCurrentThread (top scopes)).slots]), ?_, ?_⟩
  · unfold State.endAutoSocketServerThread
    rw [hb.currentThread, top, if_pos rfl]
    simp only [setCurrentThread_oldThread, hold, hdelete]
  · exact ⟨hset.outside rfl, by simp, by simp, hclear.shown₂ hset⟩

theorem ended_wrapped {opened : Bool} (hinv : Inv queue s)
    (hs : s.scopes = (.wrapped opened, i) :: scopes) :
    Ended queue s scopes s.unwrapCurrentThread := by
  have hb := hinv.bound
  have hkept := hinv.kept
  rw [hs] at hb hkept
  obtain ⟨htop, howned, -⟩ := hkept
  have hi : i ∈ {j | j ∈ ((Kind.wrapped opened, i) :: scopes).map Prod.snd} := List.mem_cons_self
  unfold State.unwrapCurrentThread
  rw [hb.currentThread]
  cases opened with
  | true =>
    have hclear := hb.clear
    have hdelete := hclear.deleteThread hi (Option.some_ne_none i).symm
    simp only [top, if_true, howned rfl, hdelete]
    exact ⟨hclear.outside htop, setCurrentThread_oldThread s none, setCurrentThread_owned s none,
      hclear.shown⟩
  | false =>
    simp only [top, htop]
    exact ⟨hb.outside rfl, rfl, rfl, shown_nil⟩

theorem ended (hinv : Inv queue s) (hs : s.scopes = (kind, i) :: scopes) :
    ∃ r, s.endScope i kind = some r ∧ Ended queue s scopes r := by
  cases kind with
  | autoThread => exact ⟨_, rfl, ended_autoThread hinv hs⟩
  | autoSocketServerThread => exact ended_autoSocketServerThread hinv hs
  | wrapped opened => exact ⟨_, rfl, ended_wrapped hinv hs⟩

omit [DecidableEq ι] in
theorem Kept.tail {oldThread : ι → Option ι} {owned : ι → Bool}
    (hk : Kept oldThread owned ((kind, i) :: scopes)) : Kept oldThread owned scopes := by
  cases kind with
  | autoThread => exact hk
  | autoSocketServerThread => exact hk.2
  | wrapped opened => exact hk.2.2

end Scopes

/-! ## The law -/

variable {h : List (Nesting (Slots ι κ))} {s : State ι κ}

/-- **The two variables are one** that every scope puts back. -/
theorem current_simulates : (machine ι κ).Simulates (nesting Agree)
    fun s r => ∃ queue, Inv queue s ∧ r = restores queue s.scopes := by
  constructor
  · rintro s ⟨hscopes, hnone⟩
    refine ⟨[], ⟨s.current, ?_, ?_⟩, rfl⟩
    · refine ⟨⟨?_, ?_, ?_⟩, ?_, ?_⟩
      · rw [hscopes]
        exact congrArg (·, s.current) hnone
      · rw [hscopes]
        intro i hi
        cases hi
      · rw [hscopes]
        intro i hi
        cases hi
      · rw [hscopes]
        exact List.nodup_nil
      · rw [hscopes]
        trivial
    · rw [hscopes]
      rfl
  · rintro s _ a s' out ⟨queue, hinv, rfl⟩ hst
    cases a with
    | enter kind i =>
      obtain ⟨hm, hs'⟩ := Option.ite_none_right_eq_some.mp hst
      have hb := begun hinv hm
      obtain ⟨hi, -⟩ := mayEnter_cases hm
      cases hs'
      refine ⟨s.slots :: restores queue s.scopes, ⟨queue, ⟨?_, ?_, ?_⟩, ?_⟩,
        .cons rfl (hb.shown.path _)⟩
      · refine Bound.mono ⟨hb.bound.slots, hb.bound.mem, hb.bound.registration⟩ ?_ ?_
        · intro j hj
          exact List.mem_cons.mp hj
        · exact fun j hj => top_mem hj
      · exact List.nodup_cons.mpr ⟨hi, hinv.nodup⟩
      · exact hb.kept
      · rw [hinv.bound.slots]
        rfl
    | leave =>
      change (match s.scopes with
        | [] => none
        | (kind, i) :: scopes => (s.endScope i kind).map fun (s', out) =>
          ({ s' with scopes := scopes }, out ++ [.left s'.slots])) = some (s', out) at hst
      cases hs : s.scopes with
      | nil =>
        rw [hs] at hst
        cases hst
      | cons scope scopes =>
        obtain ⟨kind, i⟩ := scope
        obtain ⟨⟨s₁, out₁⟩, hend, hended⟩ := ended hinv hs
        simp only [hs, hend, Option.map_some, Option.some.injEq, Prod.mk.injEq] at hst
        obtain ⟨rfl, rfl⟩ := hst
        have hnodup := hinv.nodup
        have hkept := hinv.kept
        rw [hs] at hnodup hkept
        have hleft : bound queue (top scopes) :: restores queue scopes =
            s₁.slots :: restores queue scopes := by rw [hended.bound.slots]
        refine ⟨restores queue scopes, ⟨queue, ⟨?_, ?_, ?_⟩, rfl⟩,
          (hended.shown.path _).append (.single hleft)⟩
        · exact ⟨hended.bound.slots, hended.bound.mem, hended.bound.registration⟩
        · exact (List.nodup_cons.mp hnodup).2
        · change Kept s₁.oldThread s₁.owned scopes
          rw [hended.oldThread, hended.owned]
          exact hkept.tail

/-- What holds of the current thread and the current task queue. -/
structure CurrentThreadLaw (h : List (Nesting (Slots ι κ))) (s : State ι κ) : Prop where
  /-- If there is a current thread it is the current task queue. -/
  agree : ∀ i, s.currentThread = some i → s.current = some (.thread i)
  /-- So it is whenever `SetCurrentThread` has returned. -/
  agrees : ∀ v, .now v ∈ h → Agree v
  /-- When a scope has ended both are what they were before it began. -/
  restored : ∀ h₁ w h₂, h = h₁ ++ .left w :: h₂ → ∃ h₀ b, h₁ = h₀ ++ .entered w :: b ∧ Balanced b
  /-- The innermost scope can end. -/
  ends : s.scopes ≠ [] → (s.step .leave).isSome = true

/-- **The law of the current thread.** -/
theorem current_thread_law (hr : (machine ι κ).Reaches h s) : CurrentThreadLaw h s := by
  obtain ⟨r, ⟨queue, hinv, -⟩, ha⟩ := current_simulates.accepts hr
  constructor
  · intro i hi
    have hagree := agree_bound queue (top s.scopes)
    rw [← hinv.bound.slots] at hagree
    exact hagree i hi
  · exact fun v hv => ha.good hv
  · rintro h₁ w h₂ rfl
    exact ha.restored
  · intro hne
    obtain ⟨⟨kind, i⟩, scopes, hs⟩ := List.exists_cons_of_ne_nil hne
    obtain ⟨r', hend, -⟩ := ended hinv hs
    simp [State.step, hs, hend]

/-- The law at work: on another task queue a thread is wrapped, a server thread takes its place for
a while, and in the end the task queue is current again. -/
theorem current_thread_law_run : ∃ (h : List (Nesting (Slots ℕ ℕ))) (s : State ℕ ℕ),
    (machine ℕ ℕ).exec
      { currentThread := none
        current := some (.other 7)
        taskQueueRegistration := fun _ => none
        oldThread := fun _ => none
        owned := fun _ => true
        scopes := [] }
      [.enter (.wrapped true) 0, .enter .autoThread 1, .enter .autoSocketServerThread 2, .leave,
        .leave, .leave] = some (s, h) ∧
    s.slots = (none, some (.other 7)) ∧ CurrentThreadLaw h s := by
  obtain ⟨h, s, hex, hslots⟩ : ∃ (h : List (Nesting (Slots ℕ ℕ))) (s : State ℕ ℕ),
      (machine ℕ ℕ).exec
        { currentThread := none
          current := some (.other 7)
          taskQueueRegistration := fun _ => none
          oldThread := fun _ => none
          owned := fun _ => true
          scopes := [] }
        [.enter (.wrapped true) 0, .enter .autoThread 1, .enter .autoSocketServerThread 2, .leave,
          .leave, .leave] = some (s, h) ∧ s.slots = (none, some (.other 7)) := ⟨_, _, rfl, rfl⟩
  exact ⟨h, s, hex, hslots, current_thread_law (.of_exec ⟨rfl, rfl⟩ hex)⟩

end CurrentThread

end ThreadManager

end TQLib
