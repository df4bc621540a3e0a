import TQLib.TaskQueueWin.Model

/-!
# The immediate tasks of `TaskQueueWin`

`in_queue_` stays signalled until the worker resets it, and the worker resets it before it takes the
first task, not after it has found `pending_` empty. A post that lands after the reset is either
seen by the loop that follows or signals the event again.

The order of the tasks, and everything else that does not depend on how the worker is woken, is
inherited from the timed task queue that `TaskQueueWin` refines. Its delayed entries are those in
the message queue, the one in the worker's hands and those in `timer_tasks_`.

## Main results

* `announced_of_reachable` — a pending task is announced, or the worker is draining
* `refines` — every step of the queue is a path of the timed task queue
* `immediate_law` — announcement and order in every run
-/

namespace TQLib

namespace TaskQueueWin

open TimedEvent

variable {ι α : Type*} [DecidableEq ι]

/-! ## No lost signal -/

/-- The worker is between its `ResetEvent` and the observation of an empty `pending_`. -/
def Worker.Drains : Worker α → Prop
  | .runPendingTasks => True
  | .runTask _ => True
  | _ => False

/-- Something pending is announced by `in_queue_`, is about to be by the poster that holds the lock,
or is being drained. -/
def Announced (s : State ι α) : Prop :=
  s.pending ≠ [] → s.pendingLock.isSome = true ∨ s.inQueue = true ∨ s.worker.Drains

omit [DecidableEq ι] in
/-- A step that leaves `pending_`, the lock and the event alone, by a worker that is not
draining. -/
theorem Announced.frame {s s' : State ι α} (hs : Announced s) (hp : s'.pending = s.pending)
    (hl : s'.pendingLock = s.pendingLock) (hin : s'.inQueue = s.inQueue)
    (hw : ¬ s.worker.Drains) : Announced s' := by
  intro hne
  rw [hp] at hne
  rw [hl, hin]
  exact (hs hne).imp_right fun h => .inl (h.resolve_right hw)

/-- **One step.** The event is reset by a worker that is about to drain, and the lock is released by
a poster that signals. -/
theorem Announced.step {s s' : State ι α} {a : Action ι α} {out : List (Observation α)}
    (hs : Announced s) (h : s.step a = some (s', out)) : Announced s' := by
  cases step_cases h with
  | tick clock hle hlt => exact hs
  | move i p => exact hs
  | message m hm => exact hs
  | push hi hl => exact fun _ => .inl rfl
  | setEvent hi => exact fun _ => .inr (.inl rfl)
  | postMessage hi => exact hs
  | expireMultimedia ht => exact hs
  | expireWindow ht => exact hs
  | walk hw hwalk =>
    cases hwalk with
    | drained hl hp => exact fun hne => absurd hp hne
    | _ => exact hs.frame rfl rfl rfl (by simp [hw, Worker.Drains])
  | peekDelayedTask hw => exact hs.frame rfl rfl rfl (by simp [hw, Worker.Drains])
  | peekQuit hw => exact hs.frame rfl rfl rfl (by simp [hw, Worker.Drains])
  | peekOther hw => exact hs.frame rfl rfl rfl (by simp [hw, Worker.Drains])
  | peekNothing hw => exact hs.frame rfl rfl rfl (by simp [hw, Worker.Drains])
  | peekTimer hw => exact hs.frame rfl rfl rfl (by simp [hw, Worker.Drains])
  | queueFirst hw => exact hs.frame rfl rfl rfl (by simp [hw, Worker.Drains])
  | queueLater hw => exact hs.frame rfl rfl rfl (by simp [hw, Worker.Drains])
  | timer hw => exact hs.frame rfl rfl rfl (by simp [hw, Worker.Drains])
  | timerSignalled hw => exact hs.frame rfl rfl rfl (by simp [hw, Worker.Drains])
  | resetEvent hw => exact fun _ => .inr (.inr trivial)
  | popPending hw hl hp => exact fun _ => .inr (.inr trivial)
  | runTask hw => exact fun _ => .inr (.inr trivial)
  | due hw => exact hs.frame rfl rfl rfl (by simp [hw, Worker.Drains])
  | start hw => exact hs.frame rfl rfl rfl (by simp [hw, Worker.Drains])

theorem announced_of_reachable {s : State ι α} (hr : (machine ι α).Reachable s) : Announced s := by
  refine hr.invariant Announced ?_ fun s a s' out hs h => hs.step h
  rintro _ ⟨clock, -, -, rfl⟩ hne
  exact absurd rfl hne

/-! ## A timed task queue -/

/-- Delayed tasks are started from where they are held. Those whose messages have not been read are
held too, so nothing is said of the order in which they leave. -/
def discipline (α : Type*) : Discipline α (DelayedTaskInfo α) ℤ where
  due info := info.dueTime.us
  task := DelayedTaskInfo.task
  earlier _ _ := False
  promotes := False
  discards := False

/-- The task the worker has popped and not yet run. -/
def Worker.popped : Worker α → List α
  | .runTask task => [task]
  | _ => []

/-- The delayed task the worker has read and not yet stored. -/
def Worker.inHand : Worker α → List (DelayedTaskInfo α)
  | .queueDelayedTask _ info => [info]
  | _ => []

/-- Whether the worker has read `WM_QUIT`. -/
def Worker.isFinished : Worker α → Bool
  | .finished => true
  | _ => false

/-- The delayed task in a message. -/
def Message.info? : Message α → Option (DelayedTaskInfo α)
  | .queueDelayedTask info => some info
  | _ => none

/-- The worker has neither taken anything that it has yet to pass on nor finished. -/
def Worker.EmptyHanded (w : Worker α) : Prop :=
  w.popped = [] ∧ w.inHand = [] ∧ w.isFinished = false

theorem emptyHanded_resume (caller : Caller) : (caller.resume : Worker α).EmptyHanded := by
  cases caller <;> exact ⟨rfl, rfl, rfl⟩

omit [DecidableEq ι] in
/-- A worker that only goes on to another place has nothing in its hands. -/
theorem Walks.emptyHanded {s : State ι α} {w w' : Worker α} (h : Walks s w w') :
    w.EmptyHanded ∧ w'.EmptyHanded := by
  cases h with
  | noNextTask htop => exact ⟨⟨rfl, rfl, rfl⟩, emptyHanded_resume _⟩
  | _ => exact ⟨⟨rfl, rfl, rfl⟩, ⟨rfl, rfl, rfl⟩⟩

/-- The delayed tasks that have been posted and not yet stored, first in front. -/
def State.unread (s : State ι α) : List (DelayedTaskInfo α) :=
  s.worker.inHand ++ s.messages.filterMap Message.info?

/-- What the queue amounts to. -/
def State.toTimedQueue (s : State ι α) : TimedQueue α (DelayedTaskInfo α) where
  fifo := s.worker.popped ++ s.pending
  held := s.timerTasks.toMultiset + s.unread
  stopped := s.worker.isFinished

omit [DecidableEq ι] in
/-- A step by a worker whose hands are empty before and after. -/
theorem State.toTimedQueue_congr {s s' : State ι α} (hw : s.worker.EmptyHanded)
    (hw' : s'.worker.EmptyHanded) (hp : s'.pending = s.pending)
    (hm : s'.messages.filterMap Message.info? = s.messages.filterMap Message.info?)
    (ht : s'.timerTasks = s.timerTasks) : s'.toTimedQueue = s.toTimedQueue := by
  obtain ⟨hpopped, hinHand, hfinished⟩ := hw
  obtain ⟨hpopped', hinHand', hfinished'⟩ := hw'
  simp only [toTimedQueue, unread, hpopped, hinHand, hfinished, hpopped', hinHand', hfinished', hp,
    hm, ht]

/-- Posting a delayed task adds it to those that are held. -/
theorem State.held_postMessage (s : State ι α) (i : ι) (info : DelayedTaskInfo α) :
    ({ s with
      messages := s.messages ++ [Message.queueDelayedTask info]
      newInput := true }.setPoster i .idle).toTimedQueue.held = info ::ₘ s.toTimedQueue.held := by
  have hunread : s.worker.inHand ++ (s.messages ++ [Message.queueDelayedTask info]).filterMap
      Message.info? = s.unread ++ [info] := by
    rw [List.filterMap_append, ← List.append_assoc]
    rfl
  show s.timerTasks.toMultiset + ((s.worker.inHand ++
    (s.messages ++ [Message.queueDelayedTask info]).filterMap Message.info? : List _) :
      Multiset _) = info ::ₘ (s.timerTasks.toMultiset + s.unread)
  have hlast : ((s.unread ++ [info] : List _) : Multiset _) = info ::ₘ s.unread :=
    Multiset.coe_eq_coe.mpr (List.perm_append_singleton _ _)
  rw [hunread, hlast, Multiset.add_cons]

/-- **Refinement.** Every step of the queue is a path of the timed task queue. -/
theorem refines : (machine ι α).Refines (discipline α).spec (fun _ => True) State.toTimedQueue where
  start := by
    rintro _ ⟨clock, -, -, rfl⟩
    exact ⟨trivial, rfl⟩
  step := by
    rintro s a s' out - h
    refine ⟨trivial, ?_⟩
    have stay : s'.toTimedQueue = s.toTimedQueue → out = [] →
        (discipline α).spec.Path s.toTimedQueue out s'.toTimedQueue := by
      rintro heq rfl
      rw [heq]
      exact .nil _
    have walk : s.worker.EmptyHanded → s'.worker.EmptyHanded → s'.pending = s.pending →
        s'.messages.filterMap Message.info? = s.messages.filterMap Message.info? →
        s'.timerTasks = s.timerTasks → out = [] →
        (discipline α).spec.Path s.toTimedQueue out s'.toTimedQueue :=
      fun hw hw' hp hm ht => stay (State.toTimedQueue_congr hw hw' hp hm ht)
    cases step_cases h with
    | tick clock hle hlt => exact .nil _
    | move i p => exact .nil _
    | message m hm =>
      have hnone : m.info? = none := by
        cases m with
        | queueDelayedTask info => exact absurd rfl (hm info)
        | quit => rfl
        | other => rfl
      exact stay (by simp [State.toTimedQueue, State.unread, List.filterMap_append, hnone]) rfl
    | push hi hl =>
      simp only [State.toTimedQueue, State.setPoster, ← List.append_assoc]
      exact .single (.post _ _ _ _)
    | setEvent hi => exact .nil _
    | @postMessage i info hi =>
      have hpath := Spec.Path.single (N := (discipline α).spec) (Discipline.Next.delay
        (s.worker.popped ++ s.pending) s.toTimedQueue.held s.worker.isFinished info)
      rw [← s.held_postMessage i info] at hpath
      exact hpath
    | expireMultimedia ht => exact .nil _
    | expireWindow ht => exact .nil _
    | walk hw hwalk =>
      obtain ⟨hempty, hempty'⟩ := hwalk.emptyHanded
      exact walk (hw ▸ hempty) hempty' rfl rfl rfl rfl
    | peekDelayedTask hw hm =>
      refine stay ?_ rfl
      simp only [State.toTimedQueue, State.unread, hw, hm]
      rfl
    | peekQuit hw hm =>
      simp only [State.toTimedQueue, State.unread, hw, hm]
      exact .single (.stop _ _ _)
    | peekOther hw hm =>
      exact walk (hw ▸ ⟨rfl, rfl, rfl⟩) ⟨rfl, rfl, rfl⟩ rfl (by rw [hm]; rfl) rfl rfl
    | peekNothing hw => exact walk (hw ▸ ⟨rfl, rfl, rfl⟩) ⟨rfl, rfl, rfl⟩ rfl rfl rfl rfl
    | peekTimer hw => exact walk (hw ▸ ⟨rfl, rfl, rfl⟩) ⟨rfl, rfl, rfl⟩ rfl rfl rfl rfl
    | queueFirst hw hneed =>
      refine stay ?_ rfl
      simp [State.toTimedQueue, State.unread, hw, Worker.popped, Worker.inHand, Worker.isFinished,
        ← Multiset.cons_coe]
    | queueLater hw hneed =>
      refine stay ?_ rfl
      simp [State.toTimedQueue, State.unread, hw, Worker.popped, Worker.inHand, Worker.isFinished,
        ← Multiset.cons_coe]
    | timer hw => exact walk (hw ▸ ⟨rfl, rfl, rfl⟩) ⟨rfl, rfl, rfl⟩ rfl rfl rfl rfl
    | timerSignalled hw => exact walk (hw ▸ ⟨rfl, rfl, rfl⟩) ⟨rfl, rfl, rfl⟩ rfl rfl rfl rfl
    | resetEvent hw => exact walk (hw ▸ ⟨rfl, rfl, rfl⟩) ⟨rfl, rfl, rfl⟩ rfl rfl rfl rfl
    | popPending hw hl hp =>
      refine stay ?_ rfl
      simp only [State.toTimedQueue, State.unread, hw, hp]
      rfl
    | runTask hw =>
      simp only [State.toTimedQueue, State.unread, hw]
      exact .single (.take _ _ _)
    | @due now caller top hw htop hdue =>
      have hempty : (if s.timerTasks.pop.top?.isSome then Worker.runDueTasks now caller
          else .scheduleNextTimer caller : Worker α).EmptyHanded := by
        split <;> exact ⟨rfl, rfl, rfl⟩
      obtain ⟨hpopped, hinHand, hfinished⟩ := hempty
      simp only [State.toTimedQueue, State.unread, hpopped, hinHand, hfinished, hw]
      rw [PriorityQueue.toMultiset_of_top? htop, Multiset.cons_add]
      exact .single (.expire _ _ id hdue fun _ _ => id)
    | start hw => exact walk (hw ▸ ⟨rfl, rfl, rfl⟩) (emptyHanded_resume _) rfl rfl rfl rfl

/-! ## The law -/

/-- What a history `h` that leads to the state `s` has to satisfy. -/
structure ImmediateLaw (h : List (Observation α)) (s : State ι α) : Prop where
  /-- While nobody holds the lock, something pending has been signalled, or the worker is between
  its `ResetEvent` and the observation of an empty `pending_`. -/
  signalled : s.pendingLock = none → s.pending ≠ [] → s.inQueue = true ∨ s.worker.Drains
  /-- The tasks pushed are those run, in the same order, followed by the one the worker has popped
  and those pending. -/
  inOrder : h.filterMap posted? = h.filterMap taken? ++ (s.worker.popped ++ s.pending)

/-- **The immediate-task law of `TaskQueueWin`**, in every run. -/
theorem immediate_law {h : List (Observation α)} {s : State ι α}
    (hr : (machine ι α).Reaches h s) : ImmediateLaw h s := by
  obtain ⟨-, ha⟩ := refines.accepts hr
  constructor
  · intro hl hne
    exact (announced_of_reachable ⟨h, hr⟩ hne).resolve_left (by simp [hl])
  · rw [← Discipline.joins_of_not_promotes id ha, ← Discipline.left_of_not_discards id ha]
    exact Discipline.accepts_fifo ha

/-- The law at work: the second task is pushed and signalled after the reset, and the worker finds
the event signalled although it has run both. -/
theorem immediate_law_run : ∃ s : State Unit ℕ,
    (machine Unit ℕ).exec (State.initial ⟨0⟩)
      [.call () (.postTask 7), .resume (), .resume (), .work, .work, .work, .work,
        .call () (.postTask 8), .resume (), .resume (), .work, .work, .work, .work] =
      some (s, [.post 7, .post 8, .take 7, .take 8]) ∧ s.inQueue = true ∧
    ImmediateLaw [.post 7, .post 8, .take 7, .take 8] s := by
  obtain ⟨s, hex, hin⟩ : ∃ s, (machine Unit ℕ).exec (State.initial ⟨0⟩)
      [.call () (.postTask 7), .resume (), .resume (), .work, .work, .work, .work,
        .call () (.postTask 8), .resume (), .resume (), .work, .work, .work, .work] =
      some (s, [.post 7, .post 8, .take 7, .take 8]) ∧ s.inQueue = true := ⟨_, rfl, rfl⟩
  exact ⟨s, hex, hin, immediate_law (.of_exec ⟨⟨0⟩, by decide, by decide, rfl⟩ hex)⟩

end TaskQueueWin

end TQLib
