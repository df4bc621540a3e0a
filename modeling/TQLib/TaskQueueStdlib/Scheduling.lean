import TQLib.TaskQueueStdlib.Model

/-!
# `TaskQueueStdlib` is a timed task queue

The queue refines the timed task queue whose entries are ordered by `(next_fire_at_us, order)` and
started from where they are held. The scheduling law is then read off the abstract component, with
one addition: an entry is dropped only when `delayed_queue_[delayed_entry] = task` finds its key
taken, and that needs `thread_posting_order_` to have come round.

## Main results

* `refines` — every step of the queue is a path of the timed task queue
* `no_loss` — nothing is dropped in the first `2 ^ 64` posts
* `scheduling_law` — order, due times, choice, conservation and quiet end of every run
* `conservation_fails` — after `2 ^ 64` further posts a held task can be lost
-/

namespace TQLib

namespace TaskQueueStdlib

open TimedEvent

variable {ι α : Type*} [DecidableEq ι]

/-- Delayed entries are ordered by their keys and started from the map. -/
def discipline (α : Type*) : Discipline α (DelayedEntryTimeout × α) ℤ where
  due d := d.1.nextFireAtUs
  task d := d.2
  earlier d d' := d.1 < d'.1
  promotes := False
  discards := False

/-- Whether the worker has left its loop. -/
def Worker.isFinished : Worker α → Bool
  | .finished => true
  | _ => false

/-- What the queue amounts to. -/
def State.toTimedQueue (s : State ι α) : TimedQueue α (DelayedEntryTimeout × α) where
  fifo := s.pending.pendingQueue.map Prod.snd
  held := s.pending.delayedQueue.toMultiset
  stopped := s.worker.isFinished

theorem Worker.not_isFinished {w : Worker α} (h : w ≠ .finished) : w.isFinished = false := by
  cases w <;> first | rfl | exact absurd rfl h

/-- Storing a delayed task drops the entry whose key it takes, if there is one, and holds the new
one. -/
theorem Pending.path_postDelayedTask (p : Pending α) (fire : ℤ) (task : α) (b : Bool) :
    (discipline α).spec.Path ⟨p.pendingQueue.map Prod.snd, p.delayedQueue.toMultiset, b⟩
      (p.postDelayedTask fire task).2
      ⟨p.pendingQueue.map Prod.snd, (p.postDelayedTask fire task).1.delayedQueue.toMultiset,
        b⟩ := by
  simp only [Pending.postDelayedTask]
  cases hfind : p.delayedQueue.find? ⟨fire, p.nextOrder⟩ with
  | none =>
    rw [OrderedMap.insert_toMultiset task hfind]
    exact .single (.delay _ _ _ _)
  | some old =>
    obtain ⟨rest, hold, hnew⟩ := OrderedMap.insert_toMultiset_of_find? task hfind
    rw [hold, hnew]
    exact .cons (.drop _ _ _ _) (.single (.delay _ _ _ _))

/-- The critical section of `GetNextTask` is a path of the timed task queue. -/
theorem Pending.GotNext.path {p : Pending α} {tickUs : ℤ}
    {r : NextTask α × Pending α × List (Observation α)} (h : Pending.GotNext p tickUs r) :
    (discipline α).spec.Path ⟨p.pendingQueue.map Prod.snd, p.delayedQueue.toMultiset, false⟩ r.2.2
      ⟨r.2.1.pendingQueue.map Prod.snd, r.2.1.delayedQueue.toMultiset,
        (State.processTask tickUs r.1).isFinished⟩ := by
  cases h with
  | quit result _ hfinal =>
    simp only [State.processTask, hfinal, if_true]
    exact .single (.stop _ _ _)
  | immediate result order task rest _ hp hfinal hrun =>
    simp only [State.processTask, hfinal, hrun, hp, List.map_cons]
    exact .single (.take _ _ _)
  | delayed result entry _ hd hdue hfinal hrun =>
    simp only [State.processTask, hfinal, hrun]
    rw [OrderedMap.toMultiset_of_begin? hd]
    exact .single (.expire _ _ id hdue fun d' hd' =>
      not_lt.mpr (OrderedMap.begin_le hd d' hd').le)
  | sleepForever result _ _ _ hfinal hrun _ =>
    simp only [State.processTask, hfinal, hrun]
    exact .nil _
  | sleep result entry _ _ _ _ hfinal hrun _ =>
    simp only [State.processTask, hfinal, hrun]
    exact .nil _

/-- **Refinement.** Every step of the queue is a path of the timed task queue. -/
theorem refines : (machine ι α).Refines (discipline α).spec (fun _ => True) State.toTimedQueue where
  start := by
    rintro _ ⟨clock, rfl⟩
    exact ⟨trivial, rfl⟩
  step := by
    rintro s a s' out - h
    refine ⟨trivial, ?_⟩
    cases step_cases h with
    | tick dt => exact .nil _
    | postTask task hi =>
      simp only [State.toTimedQueue, State.setCaller, Pending.postTask, List.map_append]
      exact .single (.post _ _ _ _)
    | readClock task delay hi => exact .nil _
    | delete hi => exact .nil _
    | pushDelayed hi => exact s.pending.path_postDelayedTask _ _ _
    | notify hi => exact .nil _
    | readTick hw =>
      have hw' := Worker.not_isFinished (show s.worker ≠ .finished by simp [hw])
      simp only [State.toTimedQueue, hw']
      exact .nil _
    | takeLock r hw hr =>
      have hw' := Worker.not_isFinished (show s.worker ≠ .finished by simp [hw])
      simp only [State.toTimedQueue, hw']
      exact hr.path
    | ran hw =>
      have hw' := Worker.not_isFinished (show s.worker ≠ .finished by simp [hw])
      simp only [State.toTimedQueue, hw']
      exact .nil _
    | enterWait hw =>
      have hw' := Worker.not_isFinished (show s.worker ≠ .finished by simp [hw])
      simp only [State.toTimedQueue, hw']
      exact .nil _
    | woken hw hf =>
      have hw' := Worker.not_isFinished (show s.worker ≠ .finished by simp [hw])
      simp only [State.toTimedQueue, hw']
      exact .nil _
    | timeout hw =>
      have hw' := Worker.not_isFinished (show s.worker ≠ .finished by simp [hw])
      simp only [State.toTimedQueue, hw']
      exact .nil _

/-! ## Posting orders do not repeat early -/

/-- The number of tasks a history hands to the queue. -/
def posts (h : List (Observation α)) : ℕ := (h.filterMap (discipline α).accepted?).length

/-- `thread_posting_order_` counts the posts on 64 bits, and every held key was stamped with the
count at one of them. -/
structure Stamped (h : List (Observation α)) (p : Pending α) : Prop where
  /-- The counter. -/
  order : p.threadPostingOrder = posts h % 2 ^ 64
  /-- The held keys. -/
  keys : ∀ e ∈ p.delayedQueue.toMultiset, ∃ k, 1 ≤ k ∧ k ≤ posts h ∧ e.1.order = k % 2 ^ 64
  /-- No entry has been dropped while the counter has not come round. -/
  kept : posts h ≤ 2 ^ 64 → h.filterMap (discipline α).lost? = []

theorem posts_append (h out : List (Observation α)) : posts (h ++ out) = posts h + posts out := by
  simp [posts]

theorem Stamped.nextOrder {h : List (Observation α)} {p : Pending α} (hs : Stamped h p) :
    p.nextOrder = (posts h + 1) % 2 ^ 64 := by
  rw [Pending.nextOrder, hs.order]
  omega

/-- A step that shows neither a post nor a drop keeps the stamps. -/
theorem Stamped.quiet {h out : List (Observation α)} {p p' : Pending α} (hs : Stamped h p)
    (hout : posts out = 0) (hlost : out.filterMap (discipline α).lost? = [])
    (horder : p'.threadPostingOrder = p.threadPostingOrder)
    (hsub : ∀ e ∈ p'.delayedQueue.toMultiset, e ∈ p.delayedQueue.toMultiset) :
    Stamped (h ++ out) p' where
  order := by rw [horder, hs.order, posts_append, hout, Nat.add_zero]
  keys e he := by
    rw [posts_append, hout, Nat.add_zero]
    exact hs.keys e (hsub e he)
  kept hle := by
    rw [posts_append, hout, Nat.add_zero] at hle
    rw [List.filterMap_append, hs.kept hle, hlost, List.append_nil]

theorem Stamped.postTask {h : List (Observation α)} {p : Pending α} (hs : Stamped h p) (task : α) :
    Stamped (h ++ (p.postTask task).2) (p.postTask task).1 := by
  have hone : posts (p.postTask task).2 = 1 := rfl
  refine ⟨?_, ?_, ?_⟩
  · rw [posts_append, hone]
    exact hs.nextOrder
  · intro e he
    obtain ⟨k, hk, hle, heq⟩ := hs.keys e he
    exact ⟨k, hk, by rw [posts_append, hone]; omega, heq⟩
  · intro hle
    rw [posts_append, hone] at hle
    rw [List.filterMap_append, hs.kept (by omega)]
    rfl

theorem posts_postDelayedTask (p : Pending α) (fire : ℤ) (task : α) :
    posts (p.postDelayedTask fire task).2 = 1 := by
  simp only [posts, Pending.postDelayedTask]
  cases p.delayedQueue.find? ⟨fire, p.nextOrder⟩ <;> rfl

/-- The key of a new entry is taken only if the counter has come round. -/
theorem Stamped.find?_eq_none {h : List (Observation α)} {p : Pending α} (hs : Stamped h p)
    (hle : posts h + 1 ≤ 2 ^ 64) (fire : ℤ) : p.delayedQueue.find? ⟨fire, p.nextOrder⟩ = none := by
  refine OrderedMap.find?_eq_none.mpr fun e he heq => ?_
  obtain ⟨k, hk, hkle, hord⟩ := hs.keys e he
  rw [heq, hs.nextOrder] at hord
  simp only at hord
  -- two counts at most `2 ^ 64` apart, and not both `0`, differ on 64 bits
  omega

theorem Stamped.postDelayedTask {h : List (Observation α)} {p : Pending α} (hs : Stamped h p)
    (fire : ℤ) (task : α) :
    Stamped (h ++ (p.postDelayedTask fire task).2) (p.postDelayedTask fire task).1 := by
  have hone := posts_postDelayedTask p fire task
  refine ⟨?_, ?_, ?_⟩
  · rw [posts_append, hone]
    exact hs.nextOrder
  · intro e he
    rw [posts_append, hone]
    rcases OrderedMap.mem_insert he with rfl | he
    · exact ⟨posts h + 1, by omega, le_refl _, hs.nextOrder⟩
    · obtain ⟨k, hk, hle, heq⟩ := hs.keys e he
      exact ⟨k, hk, by omega, heq⟩
  · intro hle
    rw [posts_append, hone] at hle
    have hfresh := hs.find?_eq_none hle fire
    rw [List.filterMap_append, hs.kept (by omega)]
    simp [Pending.postDelayedTask, hfresh, List.filterMap_cons, Discipline.lost?]

theorem Stamped.getNextTask {h : List (Observation α)} {p : Pending α} (hs : Stamped h p)
    {tickUs : ℤ} {r : NextTask α × Pending α × List (Observation α)}
    (hr : Pending.GotNext p tickUs r) : Stamped (h ++ r.2.2) r.2.1 := by
  cases hr with
  | quit => exact hs.quiet rfl rfl rfl fun _ he => he
  | immediate => exact hs.quiet rfl rfl rfl fun _ he => he
  | delayed => exact hs.quiet rfl rfl rfl fun _ he => OrderedMap.mem_of_mem_eraseBegin he
  | sleepForever => exact hs.quiet rfl rfl rfl fun _ he => he
  | sleep => exact hs.quiet rfl rfl rfl fun _ he => he

theorem stamped {h : List (Observation α)} {s : State ι α} (hr : (machine ι α).Reaches h s) :
    Stamped h s.pending := by
  refine hr.induction (fun h s => Stamped h s.pending) ?_ ?_
  · rintro _ ⟨clock, rfl⟩
    exact ⟨rfl, by simp [State.initial, Pending.initial], fun _ => rfl⟩
  · rintro h s a s' out hs - hst
    cases step_cases hst with
    | postTask task hi => exact hs.postTask task
    | pushDelayed hi => exact hs.postDelayedTask _ _
    | takeLock r hw hg => exact hs.getNextTask hg
    | _ => exact hs.quiet rfl rfl rfl fun _ he => he

/-- **Nothing is lost** in the first `2 ^ 64` posts. -/
theorem no_loss {h : List (Observation α)} {s : State ι α} (hr : (machine ι α).Reaches h s)
    (hle : posts h ≤ 2 ^ 64) : h.filterMap (discipline α).lost? = [] :=
  (stamped hr).kept hle

/-! ## The scheduling law -/

/-- The tasks in `pending_queue_` and `delayed_queue_`. -/
def State.queued (s : State ι α) : Multiset α :=
  (s.pending.pendingQueue.map Prod.snd : Multiset α) +
    s.pending.delayedQueue.toMultiset.map Prod.snd

/-- The tasks a history hands to the queue. -/
def postedTasks (h : List (Observation α)) : List α := h.filterMap (discipline α).accepted?

/-- The tasks a history starts. -/
def startedTasks (h : List (Observation α)) : List α := h.filterMap (discipline α).started?

/-- What a history `h` that leads to the state `s` has to satisfy. -/
structure SchedulingLaw (h : List (Observation α)) (s : State ι α) : Prop where
  /-- Immediate tasks are started in the order in which they were posted. -/
  inOrder : h.filterMap posted? = h.filterMap taken? ++ s.pending.pendingQueue.map Prod.snd
  /-- A delayed task is started only at a tick that has reached its due time. -/
  notEarly : ∀ entry tickUs, .expire entry tickUs ∈ h → entry.1.nextFireAtUs ≤ tickUs
  /-- The delayed task that is started has the least key of those queued at that moment. -/
  leastFirst : ∀ h₁ h₂ entry tickUs, h = h₁ ++ .expire entry tickUs :: h₂ →
    ∃ others : Multiset (DelayedEntryTimeout × α), (h₁.filterMap delayed? : Multiset _) =
        ((h₁.filterMap released?).map Prod.fst : Multiset _) +
          (h₁.filterMap dropped? : Multiset _) + (entry ::ₘ others) ∧
      ∀ other ∈ others, entry.1 ≤ other.1
  /-- While the posting order has not come round, every posted task has been started or is queued,
  as often as it was posted. -/
  conserved : posts h ≤ 2 ^ 64 → (postedTasks h : Multiset α) = startedTasks h + s.queued
  /-- Nothing is started once the request to quit has been seen. -/
  quiet : ∀ h₁ h₂, h = h₁ ++ .stop :: h₂ → ∀ e ∈ h₂, ¬ e.starts

/-- **The scheduling law of `TaskQueueStdlib`**, in every run. -/
theorem scheduling_law {h : List (Observation α)} {s : State ι α}
    (hr : (machine ι α).Reaches h s) : SchedulingLaw h s := by
  obtain ⟨-, ha⟩ := refines.accepts hr
  refine ⟨?_, ?_, ?_, ?_, ?_⟩
  · rw [← Discipline.joins_of_not_promotes id ha, ← Discipline.left_of_not_discards id ha]
    exact Discipline.accepts_fifo ha
  · intro entry tickUs he
    exact Discipline.accepts_due ha (List.mem_filterMap.mpr ⟨_, he, rfl⟩)
  · rintro h₁ h₂ entry tickUs rfl
    obtain ⟨others, hheld, hl⟩ := Discipline.accepts_least ha rfl
    exact ⟨others, hheld, fun other ho => not_lt.mp (hl other ho)⟩
  · intro hle
    have hc := Discipline.accepts_conserved ha
    rw [no_loss hr hle, Multiset.coe_nil, add_zero, add_assoc] at hc
    exact hc
  · rintro h₁ h₂ rfl e he
    exact Discipline.accepts_quiet ha he

/-- The law at work: of a delayed task that is due and an immediate task posted after it, the
delayed one is started first. -/
theorem scheduling_law_run : ∃ s : State Unit ℕ,
    (machine Unit ℕ).exec (State.initial 0)
      [.call () (.postDelayedTask 7 ⟨500⟩), .resume (), .resume (), .call () (.postTask 8),
        .resume (), .tick 600, .work, .work, .work, .work, .work] =
      some (s, [.delay (⟨500, 1⟩, 7), .post 8, .expire (⟨500, 1⟩, 7) 600, .take 8]) ∧
    SchedulingLaw
      [.delay (⟨500, 1⟩, 7), .post 8, .expire (⟨500, 1⟩, 7) 600, .take 8] s := by
  obtain ⟨s, hex⟩ : ∃ s, (machine Unit ℕ).exec (State.initial 0)
      [.call () (.postDelayedTask 7 ⟨500⟩), .resume (), .resume (), .call () (.postTask 8),
        .resume (), .tick 600, .work, .work, .work, .work, .work] =
      some (s, [.delay (⟨500, 1⟩, 7), .post 8, .expire (⟨500, 1⟩, 7) 600, .take 8]) := ⟨_, rfl⟩
  exact ⟨s, hex, scheduling_law (.of_exec ⟨0, rfl⟩ hex)⟩

/-! ## After `2 ^ 64` posts

The bound in `conserved` cannot be dropped. A delayed task is posted, the counter is brought round
by `2 ^ 64 - 1` immediate posts, and a second delayed task with the same due time then gets the key
of the first. -/

/-- Immediate posts by one thread move the counter and leave the delayed tasks alone. -/
theorem reaches_posts (i : ι) (task : α) (n : ℕ) {h : List (Observation α)} {s : State ι α}
    (hr : (machine ι α).Reaches h s) (hi : s.callers i = .idle)
    (horder : s.pending.threadPostingOrder < 2 ^ 64) :
    ∃ h' s', (machine ι α).Reaches h' s' ∧ s'.callers i = .idle ∧ s'.clock = s.clock ∧
      s'.pending.delayedQueue = s.pending.delayedQueue ∧
      s'.pending.threadPostingOrder = (s.pending.threadPostingOrder + n) % 2 ^ 64 := by
  induction n with
  | zero => exact ⟨h, s, hr, hi, rfl, rfl, by omega⟩
  | succ n ih =>
    obtain ⟨h', s', hr', hi', hclock, hdelayed, hord⟩ := ih
    have hpush : (machine ι α).step s' (.call i (.postTask task)) =
        some (s'.call i (.postTask task)) := by
      simp [machine, State.step, hi']
    have hnotify : (machine ι α).step (s'.call i (.postTask task)).1 (.resume i) =
        some ({ (s'.call i (.postTask task)).1 with flagNotify := true }.setCaller i .idle,
          []) := by
      simp [machine, State.step, State.resume, State.call, State.setCaller]
    refine ⟨_, _, (hr'.step trivial hpush).step trivial hnotify, ?_, hclock, hdelayed, ?_⟩
    · simp [State.setCaller]
    · show s'.pending.nextOrder = _
      rw [Pending.nextOrder, hord]
      omega

/-- A history that drops an entry does not conserve its tasks. -/
theorem not_conserved_of_drop {h : List (Observation α)} {s : State ι α}
    (hr : (machine ι α).Reaches h s) (hlost : h.filterMap (discipline α).lost? ≠ []) :
    (postedTasks h : Multiset α) ≠ startedTasks h + s.queued := by
  intro heq
  have hc : (postedTasks h : Multiset α) = (startedTasks h : Multiset α) +
      (h.filterMap (discipline α).lost? : Multiset α) +
      (s.pending.pendingQueue.map Prod.snd : Multiset α) +
        s.pending.delayedQueue.toMultiset.map Prod.snd :=
    Discipline.accepts_conserved (refines.accepts hr).2
  have hcard := congrArg Multiset.card (heq.symm.trans hc)
  have hpos : 0 < (h.filterMap (discipline α).lost?).length := List.length_pos_iff.mpr hlost
  simp only [State.queued, Multiset.card_add, Multiset.coe_card] at hcard
  omega

/-- **A held task can be lost** once more than `2 ^ 64` tasks have been posted. -/
theorem conservation_fails : ¬ ∀ (h : List (Observation ℕ)) (s : State Unit ℕ),
    (machine Unit ℕ).Reaches h s → (postedTasks h : Multiset ℕ) = startedTasks h + s.queued := by
  intro hall
  -- the first delayed task is stored under the key `(0, 1)`
  obtain ⟨h₁, s₁, hex⟩ : ∃ h₁ s₁, (machine Unit ℕ).exec (State.initial 0)
      [.call () (.postDelayedTask 7 TimeDelta.zero), .resume (), .resume ()] = some (s₁, h₁) ∧
      s₁.callers () = .idle ∧ s₁.clock = 0 ∧ s₁.pending.threadPostingOrder = 1 ∧
      s₁.pending.delayedQueue.entries = [(⟨0, 1⟩, 7)] := ⟨_, _, rfl, rfl, rfl, rfl, rfl⟩
  obtain ⟨hex, hi₁, hclock₁, hord₁, hdelayed₁⟩ := hex
  have hr₁ : (machine Unit ℕ).Reaches h₁ s₁ := .of_exec ⟨0, rfl⟩ hex
  -- the counter comes round to `0`
  obtain ⟨h₂, s₂, hr₂, hi₂, hclock₂, hdelayed₂, hord₂⟩ :=
    reaches_posts () 8 (2 ^ 64 - 1) hr₁ hi₁ (by omega)
  rw [hord₁] at hord₂
  -- the second delayed task is stored under the same key
  obtain ⟨s₃, hst₃, hi₃, hp₃⟩ : ∃ s₃, (machine Unit ℕ).step s₂
      (.call () (.postDelayedTask 9 TimeDelta.zero)) = some (s₃, []) ∧
      s₃.callers () = .pushDelayed 0 9 ∧ s₃.pending = s₂.pending := by
    refine ⟨s₂.setCaller () (.pushDelayed (s₂.clock + TimeDelta.zero.us) 9), ?_, ?_, rfl⟩
    · simp [machine, State.step, State.call, hi₂]
    · simp [State.setCaller, TimeDelta.zero, hclock₂, hclock₁]
  have hfind : s₂.pending.delayedQueue.find? ⟨0, s₂.pending.nextOrder⟩ = some 7 := by
    simp [OrderedMap.find?, hdelayed₂, hdelayed₁, Pending.nextOrder, hord₂, entryAt?]
  have hout : (s₂.pending.postDelayedTask 0 9).2 =
      [.drop (⟨0, s₂.pending.nextOrder⟩, 7), .delay (⟨0, s₂.pending.nextOrder⟩, 9)] := by
    simp [Pending.postDelayedTask, hfind]
  obtain ⟨s₄, hst₄⟩ : ∃ s₄, (machine Unit ℕ).step s₃ (.resume ()) =
      some (s₄, (s₂.pending.postDelayedTask 0 9).2) := by
    simp [machine, State.step, State.resume, hi₃, hp₃]
  have hr₄ := (hr₂.step trivial hst₃).step trivial hst₄
  refine not_conserved_of_drop hr₄ ?_ (hall _ _ hr₄)
  rw [hout, List.filterMap_append]
  simp [List.filterMap_cons, Discipline.lost?]

end TaskQueueStdlib

end TQLib
