import TQLib.TaskQueueLibevent.Model

/-!
# The wake pipe of `TaskQueueLibevent`

`PostTask` writes a byte only if it found `pending_` empty, and it writes it after the lock has been
released. What makes this work is a count. The posters that found `pending_` empty and have yet to
write, the bytes `kRunTasks` in the pipe and the worker between its read and its swap are together
one if there is something in `pending_`, and none if there is not.

The order in which tasks are run is a matter of the queue alone, and is inherited from the timed
task queue that `TaskQueueLibevent` refines.

## Main results

* `Balanced.step`, `balanced_of_reachable` — the count
* `refines` — every step of the queue is a path of the timed task queue
* `wake_pipe_law` — the count, and what follows from it for the pipe, the worker and the tasks
-/

namespace TQLib

namespace TaskQueueLibevent

open TimedEvent

variable {ι α : Type*} [DecidableEq ι]

/-! ## The count -/

/-- Whether a poster is about to write `kRunTasks`. -/
def Poster.writes : Poster α → Bool
  | .write => true
  | _ => false

/-- One if the worker has read `kRunTasks` and not yet swapped. -/
def Worker.swaps : Worker α → ℕ
  | .swap => 1
  | _ => 0

/-- The posters that saw an empty `pending_` and have not yet written. -/
def State.writers (s : State ι α) : Set ι := {i | (s.posters i).writes = true}

/-- The wake-ups that are on their way. -/
noncomputable def State.wakeUps (s : State ι α) : ℕ :=
  s.writers.ncard + s.pipe.count .runTasks + s.worker.swaps

/-- There is one wake-up on its way if something is pending, and none if not. -/
structure Balanced (s : State ι α) : Prop where
  /-- Only finitely many posters are about to write. -/
  finite : s.writers.Finite
  /-- The count. -/
  count : s.wakeUps = if s.pending.isEmpty then 0 else 1

/-- Moving a poster changes the number of writers by that poster. -/
theorem State.writers_setPoster {s : State ι α} (hs : s.writers.Finite) (i : ι) (p : Poster α) :
    (s.setPoster i p).writers.Finite ∧
      (s.setPoster i p).writers.ncard + (if (s.posters i).writes = true then 1 else 0) =
        s.writers.ncard + if p.writes = true then 1 else 0 :=
  ⟨finite_update (P := fun p : Poster α => p.writes = true) hs i p,
    ncard_update (fun p : Poster α => p.writes = true) hs i p⟩

omit [DecidableEq ι] in
/-- A step that moves no poster, writes nothing to the pipe and leaves `pending_` alone. -/
theorem Balanced.frame {s s' : State ι α} (hs : Balanced s) (hposters : s'.posters = s.posters)
    (hpending : s'.pending = s.pending)
    (hpipe : s'.pipe.count .runTasks + s'.worker.swaps = s.pipe.count .runTasks + s.worker.swaps) :
    Balanced s' := by
  have hwriters : s'.writers = s.writers := by rw [State.writers, State.writers, hposters]
  refine ⟨hwriters ▸ hs.finite, ?_⟩
  have hcount := hs.count
  rw [State.wakeUps] at hcount ⊢
  rw [hwriters, hpending]
  omega

/-- **One step.** A poster that finds `pending_` empty owes a byte, and the byte it writes is owed a
swap. -/
theorem Balanced.step {s s' : State ι α} {a : Action ι α} {out : List (Observation α)}
    (hs : Balanced s) (h : s.step a = some (s', out)) : Balanced s' := by
  have hcount := hs.count
  rw [State.wakeUps] at hcount
  cases step_cases h with
  | tick dt => exact hs.frame rfl rfl rfl
  | post task hi =>
    obtain ⟨hfin, hmoved⟩ := State.writers_setPoster hs.finite _ (.push task)
    refine ⟨hfin, ?_⟩
    simp only [hi, Poster.writes, Bool.false_eq_true, if_false, Nat.add_zero] at hmoved
    rw [State.wakeUps, hmoved]
    exact hcount
  | delete => exact hs.frame rfl rfl (by simp)
  | @pushFirst i task hi hp =>
    have hfin : ({ s with pending := [task] } : State ι α).writers.Finite := hs.finite
    obtain ⟨hfin', hmoved⟩ := State.writers_setPoster hfin i .write
    refine ⟨hfin', ?_⟩
    simp only [hi, Poster.writes, Bool.false_eq_true, if_false, if_true, Nat.add_zero] at hmoved
    rw [State.wakeUps, hmoved]
    simp only [hp, List.isEmpty_nil, if_true] at hcount
    show s.writers.ncard + 1 + s.pipe.count .runTasks + s.worker.swaps = 1
    omega
  | @push i task hi hne =>
    have hfin : ({ s with pending := s.pending ++ [task] } : State ι α).writers.Finite := hs.finite
    obtain ⟨hfin', hmoved⟩ := State.writers_setPoster hfin i .idle
    refine ⟨hfin', ?_⟩
    simp only [hi, Poster.writes, Bool.false_eq_true, if_false, Nat.add_zero] at hmoved
    rw [State.wakeUps, hmoved]
    show s.writers.ncard + s.pipe.count .runTasks + s.worker.swaps =
      if (s.pending ++ [task]).isEmpty then 0 else 1
    simpa [hne] using hcount
  | @write i hi =>
    have hfin : ({ s with pipe := s.pipe ++ [Message.runTasks] } : State ι α).writers.Finite :=
      hs.finite
    obtain ⟨hfin', hmoved⟩ := State.writers_setPoster hfin i .idle
    refine ⟨hfin', ?_⟩
    simp only [hi, Poster.writes, Bool.false_eq_true, if_false, if_true, Nat.add_zero] at hmoved
    show _ + (s.pipe ++ [Message.runTasks]).count .runTasks + s.worker.swaps =
      if s.pending.isEmpty then 0 else 1
    rw [List.count_append, List.count_singleton_self, ← hcount]
    change _ + 1 = s.writers.ncard at hmoved
    omega
  | readQuit hw hp => exact hs.frame rfl rfl (by simp [hw, hp, Worker.swaps])
  | readRunTasks hw hp => exact hs.frame rfl rfl (by simp [hw, hp, Worker.swaps])
  | swap hw =>
    refine ⟨hs.finite, ?_⟩
    -- the worker's own swap is one wake-up, so it is the only one
    have hone : s.writers.ncard + s.pipe.count .runTasks + 1 ≤ 1 := by
      rw [hw] at hcount
      change s.writers.ncard + s.pipe.count .runTasks + 1 = _ at hcount
      split at hcount <;> omega
    show s.writers.ncard + s.pipe.count .runTasks + 0 = 0
    omega
  | ranTasks hw => exact hs.frame rfl rfl (by simp [hw, Worker.swaps])
  | runTask started hw => exact hs.frame rfl rfl (by simp [hw, Worker.swaps])
  | ranTimer hw => exact hs.frame rfl rfl (by simp [hw, Worker.swaps])
  | exit hw => exact hs.frame rfl rfl (by simp [hw, Worker.swaps])
  | runTimer hw hk hdue => exact hs.frame rfl rfl (by simp [hw, Worker.swaps])
  | startTimer timer hruns => exact hs.frame rfl rfl rfl

theorem balanced_of_reachable {s : State ι α} (hr : (machine ι α).Reachable s) : Balanced s := by
  refine hr.invariant Balanced ?_ fun s a s' out hs h => hs.step h
  rintro _ ⟨clock, rfl⟩
  have hnone : (State.initial clock : State ι α).writers = ∅ := by
    simp [State.writers, State.initial, Poster.writes]
  refine ⟨by simp [hnone], ?_⟩
  rw [State.wakeUps, hnone, Set.ncard_empty]
  rfl

omit [DecidableEq ι] in
/-- Nobody is on the way to wake the worker only if nothing is pending. -/
theorem Balanced.pending_eq_nil {s : State ι α} (hs : Balanced s)
    (hposters : ∀ i, s.posters i ≠ .write) (hpipe : s.pipe.count .runTasks = 0)
    (hworker : s.worker ≠ .swap) : s.pending = [] := by
  have hnone : s.writers = ∅ := by
    ext i
    have hi := hposters i
    cases hp : s.posters i <;> simp_all [State.writers, Poster.writes]
  have hswaps : s.worker.swaps = 0 := by
    cases hw : s.worker <;> simp_all [Worker.swaps]
  have hcount := hs.count
  rw [State.wakeUps, hnone, Set.ncard_empty, hpipe, hswaps] at hcount
  by_contra hne
  simp [hne] at hcount

/-! ## A timed task queue -/

/-- Timers are started in no particular order, and from where they are held. -/
def discipline (α : Type*) : Discipline (Task α) (TimerEvent α) ℤ where
  due := TimerEvent.dueUs
  task timer := .run timer.task
  earlier _ _ := False
  promotes := False
  discards := False

/-- The tasks the worker has swapped out and not yet started. -/
def Worker.tasks : Worker α → List (Task α)
  | .runTasks tasks => tasks
  | _ => []

/-- Whether the worker has read `kQuit`. -/
def Worker.hasQuit : Worker α → Bool
  | .exiting => true
  | .finished => true
  | _ => false

/-- What the queue amounts to. -/
def State.toTimedQueue (s : State ι α) : TimedQueue (Task α) (TimerEvent α) where
  fifo := s.worker.tasks ++ s.pending
  held := s.pendingTimers
  stopped := s.worker.hasQuit

/-- Timers that are started are held. -/
theorem path_delays (fifo : List (Task α)) (b : Bool) (started timers : List (TimerEvent α)) :
    (discipline α).spec.Path ⟨fifo, timers, b⟩ (started.map .delay)
      ⟨fifo, ((timers ++ started : List _) : Multiset _), b⟩ := by
  induction started generalizing timers with
  | nil =>
    rw [List.append_nil]
    exact .nil _
  | cons timer started ih =>
    refine .cons (.delay _ _ _ _) ?_
    have hpath := ih (timers ++ [timer])
    rw [List.append_assoc, ← Multiset.coe_add, add_comm] at hpath
    exact hpath

/-- Timers that are deleted are dropped. -/
theorem path_drops (fifo : List (Task α)) (b : Bool) (timers : List (TimerEvent α)) :
    (discipline α).spec.Path ⟨fifo, timers, b⟩ (timers.map .drop) ⟨fifo, 0, b⟩ := by
  induction timers with
  | nil => exact .nil _
  | cons timer timers ih =>
    rw [← Multiset.cons_coe]
    exact .cons (.drop _ _ _ _) ih

/-- **Refinement.** Every step of the queue is a path of the timed task queue. -/
theorem refines : (machine ι α).Refines (discipline α).spec (fun _ => True) State.toTimedQueue where
  start := by
    rintro _ ⟨clock, rfl⟩
    exact ⟨trivial, rfl⟩
  step := by
    rintro s a s' out - h
    refine ⟨trivial, ?_⟩
    cases step_cases h with
    | tick dt => exact .nil _
    | post task hi => exact .nil _
    | delete => exact .nil _
    | pushFirst hi hp =>
      simp only [State.toTimedQueue, hp]
      simpa [State.setPoster] using Spec.Path.single (Discipline.Next.post _ _ _ _)
    | push hi hne =>
      simp only [State.toTimedQueue, State.setPoster, ← List.append_assoc]
      exact .single (.post _ _ _ _)
    | write hi => exact .nil _
    | readQuit hw hp =>
      simp only [State.toTimedQueue, hw]
      exact .single (.stop _ _ _)
    | readRunTasks hw hp =>
      simp only [State.toTimedQueue, hw]
      exact .nil _
    | swap hw =>
      simp only [State.toTimedQueue, hw, Worker.tasks, List.append_nil]
      exact .nil _
    | ranTasks hw =>
      simp only [State.toTimedQueue, hw]
      exact .nil _
    | runTask started hw =>
      simp only [State.toTimedQueue, hw]
      exact .cons (.take _ _ _) (path_delays _ _ _ _)
    | ranTimer hw =>
      simp only [State.toTimedQueue, hw]
      exact .nil _
    | exit hw =>
      simp only [State.toTimedQueue, hw]
      exact path_drops _ _ _
    | @runTimer k timer hw hk hdue =>
      obtain ⟨hlt, rfl⟩ := List.getElem?_eq_some_iff.mp hk
      have hheld : (s.pendingTimers : Multiset (TimerEvent α)) =
          s.pendingTimers[k] ::ₘ (s.pendingTimers.eraseIdx k : Multiset _) :=
        Multiset.coe_eq_coe.mpr (List.getElem_cons_eraseIdx_perm hlt).symm
      simp only [State.toTimedQueue, hw]
      rw [hheld]
      exact .single (.expire _ _ id hdue fun _ _ => id)
    | startTimer timer hruns => exact path_delays _ _ [timer] _

/-! ## The law -/

/-- What a history `h` that leads to the state `s` has to satisfy. -/
structure WakePipeLaw (h : List (Observation α)) (s : State ι α) : Prop where
  /-- Only finitely many posters are about to write, so they can be counted. -/
  finite : {i | s.posters i = .write}.Finite
  /-- Posters about to write, bytes in the pipe and the worker about to swap are one together if
  something is pending, and none if not. -/
  balance : {i | s.posters i = .write}.ncard + s.pipe.count .runTasks +
    (match s.worker with | .swap => 1 | _ => 0) = if s.pending = [] then 0 else 1
  /-- The pipe never holds more than one `kRunTasks`. -/
  oneByte : s.pipe.count .runTasks ≤ 1
  /-- The worker never swaps out an empty `pending_`. -/
  notEmpty : s.worker = .swap → s.pending ≠ []
  /-- The tasks pushed are those run, in the same order, followed by those the worker has swapped
  out and those pending. -/
  inOrder : h.filterMap posted? = h.filterMap taken? ++ (s.worker.tasks ++ s.pending)
  /-- Once nobody is about to write and the worker has nothing to read, every task pushed has been
  run. -/
  ran : s.worker = .loop → s.pipe = [] → (∀ i, s.posters i ≠ .write) →
    h.filterMap posted? = h.filterMap taken?
  /-- Nothing is run once `kQuit` has been read. -/
  quiet : ∀ h₁ h₂, h = h₁ ++ .stop :: h₂ → ∀ e ∈ h₂, ¬ e.starts

omit [DecidableEq ι] in
theorem State.writers_eq (s : State ι α) : s.writers = {i | s.posters i = .write} := by
  ext i
  cases hp : s.posters i <;> simp [State.writers, Poster.writes, hp]

/-- **The wake-pipe law of `TaskQueueLibevent`**, in every run. -/
theorem wake_pipe_law {h : List (Observation α)} {s : State ι α}
    (hr : (machine ι α).Reaches h s) : WakePipeLaw h s := by
  have hs := balanced_of_reachable ⟨h, hr⟩
  obtain ⟨-, ha⟩ := refines.accepts hr
  have hcount := hs.count
  rw [State.wakeUps, State.writers_eq] at hcount
  have horder : h.filterMap posted? = h.filterMap taken? ++ (s.worker.tasks ++ s.pending) := by
    rw [← Discipline.joins_of_not_promotes id ha, ← Discipline.left_of_not_discards id ha]
    exact Discipline.accepts_fifo ha
  refine ⟨s.writers_eq ▸ hs.finite, ?_, ?_, ?_, horder, ?_, ?_⟩
  · simp only [List.isEmpty_iff] at hcount
    rw [← hcount]
    cases s.worker <;> rfl
  · split at hcount <;> omega
  · intro hw hp
    simp only [hw, hp, Worker.swaps, List.isEmpty_nil, if_true] at hcount
    omega
  · intro hw hpipe hposters
    have hp := hs.pending_eq_nil hposters (by simp [hpipe]) (by simp [hw])
    rw [horder, hw, hp]
    simp [Worker.tasks]
  · rintro h₁ h₂ rfl e he
    exact Discipline.accepts_quiet ha he

/-- The law at work: two posters, one byte, and the second push lands between the read and the
swap. -/
theorem wake_pipe_law_run : ∃ s : State Bool ℕ,
    (machine Bool ℕ).exec (State.initial 0)
      [.call true (.postTask 7), .resume true, .resume true, .work, .call false (.postTask 8),
        .resume false, .work, .work, .work, .work] =
      some (s, [.post (.run 7), .post (.run 8), .take (.run 7), .take (.run 8)]) ∧
    WakePipeLaw [.post (.run 7), .post (.run 8), .take (.run 7), .take (.run 8)] s := by
  obtain ⟨s, hex⟩ : ∃ s, (machine Bool ℕ).exec (State.initial 0)
      [.call true (.postTask 7), .resume true, .resume true, .work, .call false (.postTask 8),
        .resume false, .work, .work, .work, .work] =
      some (s, [.post (.run 7), .post (.run 8), .take (.run 7), .take (.run 8)]) := ⟨_, rfl⟩
  exact ⟨s, hex, wake_pipe_law (.of_exec ⟨0, rfl⟩ hex)⟩

end TaskQueueLibevent

end TQLib
