import TQLib.Thread.Model

/-!
# The message queue of an `rtc::Thread` is a timed task queue

Seen from one thread of the system, every step is a path of the timed task queue whose entries are
ordered by `(run_time_ms, message_number)` and join the FIFO when they are found due. The
destruction of a thread is part of the picture: it removes tasks unstarted, and nothing else does.

## Main results

* `getDelayed_path`, `getDelayed_wait` — what the loop over the delayed messages does and computes
* `refines` — the projection of the system to one thread refines the timed task queue
* `message_queue_law` — order, due times, choice and conservation in every run
-/

namespace TQLib

namespace Thread

open TimedEvent

variable {θ ι α : Type*}

/-- Delayed messages are ordered by run time and number, and join `messages_`. -/
def discipline (θ ι α : Type*) : Discipline (Task θ ι α) (DelayedMessage α) ℤ where
  due d := d.runTimeMs
  task d := .run d.functor
  earlier d d' := d.runTimeMs < d'.runTimeMs ∨
    d.runTimeMs = d'.runTimeMs ∧ d.messageNumber < d'.messageNumber
  promotes := True
  discards := True

/-- What the queue amounts to. -/
def Queue.toTimedQueue (q : Queue θ ι α) : TimedQueue (Task θ ι α) (DelayedMessage α) where
  fifo := q.messages
  held := q.delayedMessages.toMultiset
  stopped := false

/-! ## The critical section of `Get` -/

namespace Queue

theorem length_pop {q : PriorityQueue (DelayedMessage.order α)} {top : DelayedMessage α}
    (h : q.top? = some top) : q.items.length = q.pop.items.length + 1 := by
  have hc := congrArg Multiset.card (PriorityQueue.toMultiset_of_top? h)
  simpa [PriorityQueue.toMultiset] using hc

/-- Each round of the loop moves the first delayed message, which is due, to `messages_`. -/
theorem getDelayed_path (msCurrent : ℤ) : ∀ (fuel : ℕ) (q : Queue θ ι α),
    (discipline θ ι α).spec.Path q.toTimedQueue (getDelayed msCurrent fuel q).2.2
      (getDelayed msCurrent fuel q).2.1.toTimedQueue
  | 0, q => .nil _
  | fuel + 1, q => by
    simp only [getDelayed]
    split
    · exact .nil _
    · rename_i top htop
      split
      · exact .nil _
      · rename_i hdue
        refine .cons ?_ (getDelayed_path msCurrent fuel _)
        simp only [toTimedQueue, PriorityQueue.toMultiset_of_top? htop]
        refine .promote _ _ _ trivial (not_lt.mp hdue) ?_
        intro d hd
        have hmem : d ∈ q.delayedMessages.toMultiset := by
          rw [PriorityQueue.toMultiset_of_top? htop]
          exact Multiset.mem_cons_of_mem hd
        exact DelayedMessage.lt_eq_false.mp (PriorityQueue.lt_of_top? htop hmem)

/-- `cms` is how long a `Get` at `msCurrent` may wait for the delayed messages. -/
def Waits (delayedMessages : PriorityQueue (DelayedMessage.order α)) (msCurrent cms : ℤ) : Prop :=
  (cms = kForever ∧ delayedMessages.toMultiset = 0) ∨
    (0 ≤ cms ∧ ∀ d ∈ delayedMessages.toMultiset, msCurrent + cms ≤ d.runTimeMs)

/-- The loop ends with `cmsDelayNext` reaching to the first message that is not yet due. -/
theorem getDelayed_wait (msCurrent : ℤ) : ∀ (fuel : ℕ) (q : Queue θ ι α),
    q.delayedMessages.items.length < fuel →
    Waits (getDelayed msCurrent fuel q).2.1.delayedMessages msCurrent
      (getDelayed msCurrent fuel q).1
  | 0, q, hlt => absurd hlt (by omega)
  | fuel + 1, q, hlt => by
    simp only [getDelayed]
    split
    · rename_i htop
      exact .inl ⟨rfl, PriorityQueue.top?_eq_none.mp htop⟩
    · rename_i top htop
      split
      · rename_i hdue
        refine .inr ⟨by omega, fun d hd => ?_⟩
        have := DelayedMessage.lt_eq_false.mp (PriorityQueue.lt_of_top? htop hd)
        omega
      · have hlen := length_pop htop
        exact getDelayed_wait msCurrent fuel _ (by simp only; omega)

/-- The loop pushes the functors of the delayed messages it pops, and shows nothing else. -/
theorem getDelayed_moves (msCurrent : ℤ) : ∀ (fuel : ℕ) (q : Queue θ ι α),
    ∃ ds : List (DelayedMessage α),
      (getDelayed msCurrent fuel q).2.1.messages = q.messages ++ ds.map (fun d => .run d.functor) ∧
      (getDelayed msCurrent fuel q).2.2 = ds.map (fun d => .promote d msCurrent) ∧
      (getDelayed msCurrent fuel q).2.1.delayedNextNum = q.delayedNextNum
  | 0, q => ⟨[], (List.append_nil _).symm, rfl, rfl⟩
  | fuel + 1, q => by
    simp only [getDelayed]
    split
    · exact ⟨[], (List.append_nil _).symm, rfl, rfl⟩
    · rename_i top htop
      split
      · exact ⟨[], (List.append_nil _).symm, rfl, rfl⟩
      · obtain ⟨ds, hmessages, hout, hnum⟩ := getDelayed_moves msCurrent fuel
          { q with
            messages := q.messages ++ [.run top.functor]
            delayedMessages := q.delayedMessages.pop }
        refine ⟨top :: ds, ?_, ?_, hnum⟩
        · rw [hmessages, List.append_assoc]
          rfl
        · rw [hout]
          rfl

/-- What the critical section of `Get` does, in terms of the delayed messages `ds` it moves. -/
structure Got (q : Queue θ ι α) (msCurrent cmsDelayNext : ℤ) (task : Option (Task θ ι α))
    (q' : Queue θ ι α) (out : List (Event θ ι α)) : Prop where
  /-- It is a path of the timed task queue. -/
  path : (discipline θ ι α).spec.Path q.toTimedQueue out q'.toTimedQueue
  /-- The delayed messages that are due join `messages_`, and the front of it is taken. -/
  moves : ∃ ds : List (DelayedMessage α),
    q.messages ++ ds.map (fun d => .run d.functor) = task.toList ++ q'.messages ∧
      out = ds.map (fun d => .promote d msCurrent) ++ task.toList.map .take
  /-- `messages_` is left empty if there is no task. -/
  empty : task = none → q'.messages = []
  /-- `cmsDelayNext` fits the delayed messages that are left. -/
  wait : Waits q'.delayedMessages msCurrent cmsDelayNext
  /-- No message is numbered. -/
  num : q'.delayedNextNum = q.delayedNextNum

theorem get_spec {q q' : Queue θ ι α} {msCurrent cmsDelayNext : ℤ} {task : Option (Task θ ι α)}
    {out : List (Event θ ι α)} (h : q.get msCurrent = ((cmsDelayNext, task), q', out)) :
    Got q msCurrent cmsDelayNext task q' out := by
  have hpath := getDelayed_path msCurrent (q.delayedMessages.items.length + 1) q
  have hwait := getDelayed_wait msCurrent (q.delayedMessages.items.length + 1) q (by omega)
  obtain ⟨ds, hmessages, hout, hnum⟩ :=
    getDelayed_moves msCurrent (q.delayedMessages.items.length + 1) q
  simp only [get] at h
  revert h hpath hwait hmessages hout hnum
  generalize getDelayed msCurrent (q.delayedMessages.items.length + 1) q = r
  obtain ⟨cms, q₁, out₁⟩ := r
  dsimp only
  intro h hpath hwait hmessages hout hnum
  rcases hq₁ : q₁.messages with _ | ⟨front, rest⟩
  · simp only [hq₁] at h
    cases h
    exact ⟨hpath, ⟨ds, by rw [← hmessages, hq₁]; rfl, by rw [hout]; simp⟩, fun _ => hq₁, hwait,
      hnum⟩
  · simp only [hq₁] at h
    cases h
    refine ⟨hpath.append ?_, ⟨ds, by rw [← hmessages, hq₁]; rfl, by rw [hout]; rfl⟩,
      nofun, hwait, hnum⟩
    simp only [toTimedQueue, hq₁]
    exact .single (.take _ _ _)

end Queue

/-! ## One thread of the system -/

section System

variable [DecidableEq θ]

/-- What an observer of the message queue of the thread `t` sees. -/
def Observation.onQueue (t : θ) : Observation θ ι α → Option (Event θ ι α)
  | .queue t' e => if t' = t then some e else none
  | _ => none

/-- The history of the message queue of the thread `t`. -/
def events (t : θ) (h : List (Observation θ ι α)) : List (Event θ ι α) :=
  h.filterMap (Observation.onQueue t)

@[simp] theorem events_append (t : θ) (h h' : List (Observation θ ι α)) :
    events t (h ++ h') = events t h ++ events t h' :=
  List.filterMap_append

@[simp] theorem events_nil (t : θ) : events t ([] : List (Observation θ ι α)) = [] := rfl

@[simp] theorem events_map_self (t : θ) (out : List (Event θ ι α)) :
    events t (out.map (.queue t)) = out := by
  induction out with
  | nil => rfl
  | cons e out ih =>
    rw [List.map_cons, events, List.filterMap_cons]
    simp only [Observation.onQueue, if_true]
    exact congrArg _ ih

theorem events_map_of_ne {t t' : θ} (h : t' ≠ t) (out : List (Event θ ι α)) :
    events t (out.map (.queue t')) = [] := by
  rw [events, List.filterMap_eq_nil_iff]
  intro o ho
  obtain ⟨e, -, rfl⟩ := List.mem_map.mp ho
  exact if_neg h

@[simp] theorem events_starts (t t' : θ) (task : Task θ ι α) : events t (task.starts t') = [] := by
  cases task <;> rfl

@[simp] theorem events_seen (t t' : θ) (p : Party θ ι) (post : Post α) :
    events t (post.seen p t' : List (Observation θ ι α)) = [] := by
  cases post <;> rfl

variable [DecidableEq ι]

@[simp] theorem events_cleanup (t : θ) (s : State θ ι α) (c : Cleanup θ ι) :
    events t (s.cleanup c).2 = [] := by
  cases c <;> rfl

@[simp] theorem queues_cleanup (s : State θ ι α) (c : Cleanup θ ι) :
    (s.cleanup c).1.queues = s.queues := by
  cases c <;> rfl

@[simp] theorem events_refuse (t t' : θ) (s : State θ ι α) (p : Party θ ι) (post : Post α) :
    events t (s.refuse p t' post).2 = [] := by
  cases post <;> rfl

@[simp] theorem queues_refuse (t : θ) (s : State θ ι α) (p : Party θ ι) (post : Post α) :
    (s.refuse p t post).1.queues = s.queues := by
  cases post <;> rfl

@[simp] theorem events_call (t : θ) (s : State θ ι α) (p : Party θ ι) (c : Call θ α) :
    events t (s.call p c).2 = [] := by
  cases c <;> rfl

@[simp] theorem queues_call (s : State θ ι α) (p : Party θ ι) (c : Call θ α) :
    (s.call p c).1.queues = s.queues := by
  cases c <;> rfl

/-- One step of a message queue, which is in its destructor or not. -/
structure Queue.Move (q : Queue θ ι α) (es : List (Event θ ι α)) (q' : Queue θ ι α)
    (destroying : Prop) : Prop where
  /-- It is a path of the timed task queue. -/
  path : (discipline θ ι α).spec.Path q.toTimedQueue es q'.toTimedQueue
  /-- A delayed message gets the next number. -/
  numbered : (es.filterMap delayed? = [] ∧ q'.delayedNextNum = q.delayedNextNum) ∨
    ∃ d, es = [.delay d] ∧ d.messageNumber = q.delayedNextNum ∧
      q'.delayedNextNum = (q.delayedNextNum + 1) % 2 ^ 32
  /-- Only the destructor removes tasks unstarted. -/
  lossless : es.filterMap (discipline θ ι α).lost? = [] ∨ destroying

/-- What one step does to the message queues: nothing, or a move of one of them. -/
inductive QueueStep (s s' : State θ ι α) (out : List (Observation θ ι α)) : Prop
  /-- No message queue is touched. -/
  | none : s'.queues = s.queues → (∀ t, events t out = []) → QueueStep s s' out
  /-- The message queue of the thread `t` is. -/
  | some (t : θ) (q : Queue θ ι α) : s'.queues = Function.update s.queues t q →
      (s.queues t).Move (events t out) q (s.destroyers t ≠ .absent) →
      (∀ t', t' ≠ t → events t' out = []) → QueueStep s s' out

omit [DecidableEq ι] in
/-- A step that shows the events of one message queue, and then nothing of any. -/
theorem QueueStep.of_move {s s' : State θ ι α} {out : List (Observation θ ι α)} (t : θ)
    (q : Queue θ ι α) (es : List (Event θ ι α)) (rest : List (Observation θ ι α))
    (hqueues : s'.queues = Function.update s.queues t q) (hout : out = es.map (.queue t) ++ rest)
    (hrest : ∀ t', events t' rest = [])
    (hmove : (s.queues t).Move es q (s.destroyers t ≠ .absent)) : QueueStep s s' out := by
  refine .some t q hqueues ?_ fun t' hne => ?_
  · rwa [hout, events_append, events_map_self, hrest, List.append_nil]
  · rw [hout, events_append, events_map_of_ne (Ne.symm hne), hrest, List.append_nil]

omit [DecidableEq θ] [DecidableEq ι] in
/-- Dropping all held entries, one after another. -/
theorem path_drops (messages : List (Task θ ι α)) (b : Bool) : ∀ ds : List (DelayedMessage α),
    (discipline θ ι α).spec.Path ⟨messages, ds, b⟩ (ds.map fun d => .drop d) ⟨messages, 0, b⟩
  | [] => .nil _
  | d :: ds => .cons (.drop messages (ds : Multiset (DelayedMessage α)) b d)
      (path_drops messages b ds)

omit [DecidableEq θ] [DecidableEq ι] in
theorem Queue.Got.move {q q' : Queue θ ι α} {msCurrent cmsDelayNext : ℤ}
    {task : Option (Task θ ι α)} {out : List (Event θ ι α)} {destroying : Prop}
    (hg : q.Got msCurrent cmsDelayNext task q' out) : q.Move out q' destroying := by
  obtain ⟨ds, -, hout⟩ := hg.moves
  refine ⟨hg.path, .inl ⟨?_, hg.num⟩, .inl ?_⟩ <;>
    · rw [hout, List.filterMap_append, List.append_eq_nil_iff]
      constructor <;>
        · rw [List.filterMap_eq_nil_iff]
          intro e he
          obtain ⟨d, -, rfl⟩ := List.mem_map.mp he
          rfl

omit [DecidableEq θ] [DecidableEq ι] in
theorem Queue.move_postDelayedTask {q : Queue θ ι α} {delayMs runTimeMs : ℤ} {task : α}
    {destroying : Prop} :
    q.Move [.delay (q.nextMessage delayMs runTimeMs task)]
      (q.postDelayedTask delayMs runTimeMs task).1 destroying := by
  refine ⟨.single ?_, .inr ⟨_, rfl, rfl, rfl⟩, .inl rfl⟩
  simp only [toTimedQueue, postDelayedTask, PriorityQueue.push_toMultiset]
  exact .delay _ _ _ _

omit [DecidableEq θ] [DecidableEq ι] in
theorem Queue.move_discard {q : Queue θ ι α} {task : Task θ ι α} {rest : List (Task θ ι α)}
    {destroying : Prop} (hq : q.messages = task :: rest) (hd : destroying) :
    q.Move [.discard task] { q with messages := rest } destroying := by
  refine ⟨.single ?_, .inl ⟨rfl, rfl⟩, .inr hd⟩
  simp only [toTimedQueue, hq]
  exact .discard _ _ _ _ trivial

omit [DecidableEq θ] [DecidableEq ι] in
theorem Queue.move_dropDelayed {q : Queue θ ι α} {destroying : Prop} (hq : q.messages = [])
    (hd : destroying) :
    q.Move (q.delayedMessages.items.map fun d => .drop d)
      { q with messages := [], delayedMessages := PriorityQueue.empty } destroying := by
  refine ⟨?_, .inl ⟨?_, rfl⟩, .inr hd⟩
  · simp only [toTimedQueue, hq]
    exact path_drops [] false _
  · rw [List.filterMap_eq_nil_iff]
    intro e he
    obtain ⟨d, -, rfl⟩ := List.mem_map.mp he
    rfl

theorem queueStep {s s' : State θ ι α} {a : Action θ ι α} {out : List (Observation θ ι α)}
    (h : s.step a = some (s', out)) : QueueStep s s' out := by
  cases step_cases h with
  | @postTask p t post hc =>
    exact .of_move t _ [_] (post.seen p t) rfl rfl (fun _ => by simp)
      ⟨.single (.post _ _ _ _), .inl ⟨rfl, rfl⟩, .inl rfl⟩
  | postDelayedTask hc =>
    exact .of_move _ _ [_] [] rfl rfl (fun _ => rfl) Queue.move_postDelayedTask
  | take hi ho hg => exact .of_move _ _ _ _ rfl rfl (fun _ => by simp) (Queue.get_spec hg).move
  | empty hi ho hg =>
    exact .of_move _ _ _ [] rfl (by simp) (fun _ => rfl) (Queue.get_spec hg).move
  | discard hd hq =>
    exact .of_move _ _ [_] [] rfl rfl (fun _ => rfl) (Queue.move_discard hq (by simp [hd]))
  | discardCall hd hq =>
    exact .of_move _ _ [_] [.call _ _] rfl rfl (fun _ => rfl)
      (Queue.move_discard hq (by simp [hd]))
  | dropDelayed hd hq =>
    exact .of_move _ _ _ [] rfl (by simp) (fun _ => rfl)
      (Queue.move_dropDelayed hq (by simp [hd]))
  | startCall c => exact .none (by simp) (by simp)
  | refuse => exact .none (by simp) (by simp)
  | cleaning => exact .none (queues_cleanup s _) (by simp)
  | destroyerCleaning => exact .none (queues_cleanup s _) (by simp)
  | _ => exact .none rfl fun _ => rfl

/-- **Refinement.** Seen from one thread, the system is a timed task queue. -/
theorem refines (t : θ) : ((machine θ ι α).view (Observation.onQueue t)).Refines
    (discipline θ ι α).spec (fun _ => True) fun s => (s.queues t).toTimedQueue where
  start := by
    rintro _ ⟨clock, rfl⟩
    exact ⟨trivial, rfl⟩
  step := by
    rintro s a s' out - h
    refine ⟨trivial, ?_⟩
    obtain ⟨o, hst, rfl⟩ := Machine.view_step h
    show Spec.Path _ _ (events t o) _
    cases queueStep hst with
    | none hqueues hout =>
      rw [hqueues, hout t]
      exact .nil _
    | some t' q hqueues hmove hne =>
      rw [hqueues]
      rcases eq_or_ne t t' with rfl | htt
      · rw [Function.update_self]
        exact hmove.path
      · rw [Function.update_of_ne htt, hne t htt]
        exact .nil _

/-- In every run the history of one message queue is accepted by the timed task queue. -/
theorem accepts {h : List (Observation θ ι α)} {s : State θ ι α}
    (hr : (machine θ ι α).Reaches h s) (t : θ) :
    (discipline θ ι α).spec.Accepts (events t h) (s.queues t).toTimedQueue :=
  ((refines t).accepts (hr.view _)).2

/-! ## Numbers and losses -/

/-- A destructor that has begun stays so. -/
theorem destroyers_absent {s s' : State θ ι α} {a : Action θ ι α} {out : List (Observation θ ι α)}
    (h : s.step a = some (s', out)) {t : θ} (hd : s'.destroyers t = .absent) :
    s.destroyers t = .absent := by
  have hupdate : ∀ (t' : θ) (d : Destroyer θ ι), d ≠ .absent →
      Function.update s.destroyers t' d t = .absent → s.destroyers t = .absent := by
    intro t' d hne hu
    rcases eq_or_ne t t' with rfl | htt
    · rw [Function.update_self] at hu
      exact absurd hu hne
    · rwa [Function.update_of_ne htt] at hu
  cases step_cases h with
  | startCall c => cases c <;> exact hd
  | @refuse p t' post => cases post <;> exact hd
  | @cleaning t' loop c => cases c <;> exact hd
  | destroy => exact hupdate _ _ (by simp) hd
  | discardCall => exact hupdate _ _ (by simp) hd
  | @destroyerCleaning t' c =>
    rcases c with (t₁ | i) | t₁ <;> exact hupdate _ _ (by simp [Cleanup.next]) hd
  | _ => exact hd

/-- A thread that is being destroyed is not in `ProcessMessages`. -/
theorem absent_of_not_outside {s : State θ ι α} (hr : (machine θ ι α).Reachable s) (t : θ) :
    s.owners t ≠ .outside → s.destroyers t = .absent := by
  refine hr.invariant (fun s => s.owners t ≠ .outside → s.destroyers t = .absent) ?_
    fun s a s' out hi h ho => ?_
  · rintro _ ⟨clock, rfl⟩ ho
    exact absurd rfl ho
  · -- an owner that moves was not outside, or finds that nobody has begun to destroy its thread
    have howner : ∀ t' o, s.owners t' ≠ .outside ∨ s.destroyers t' = .absent →
        Function.update s.owners t' o t ≠ .outside → s.destroyers t = .absent := by
      intro t' o ht' hu
      rcases eq_or_ne t t' with rfl | hne
      · exact ht'.elim hi id
      · rw [Function.update_of_ne hne] at hu
        exact hi hu
    have hdestroyer : ∀ t' d, s.owners t' = .outside ∨ s.destroyers t' ≠ .absent →
        s.owners t ≠ .outside → Function.update s.destroyers t' d t = .absent := by
      intro t' d ht' ho
      rcases eq_or_ne t t' with rfl | hne
      · exact absurd (hi ho) (ht'.elim (fun h => absurd h ho) id)
      · rw [Function.update_of_ne hne]
        exact hi ho
    cases step_cases h with
    | startCall c => cases c <;> exact hi ho
    | @refuse p t' post => cases post <;> exact hi ho
    | @cleaning t' loop c hc ho' => cases c <;> exact howner _ _ (.inl (by simp [ho'])) ho
    | processMessages loop cmsNext hc ho' hd => exact howner _ _ (.inr hd) ho
    | enterGet hc ho' | take hc ho' | empty hc ho' | quitting hc ho' | notQuitting hc ho'
    | enterWait hc ho' | woken hc ho' | timeout hc ho' | fail hc ho' | readClock o hc ho'
    | dispatched hc ho' | dispatchedCall hc ho' | nextGet o hc ho' =>
      exact howner _ _ (.inl (by simp [ho'])) ho
    | destroy hc ho' hd => exact hdestroyer _ _ (.inl ho') ho
    | discardCall hd => exact hdestroyer _ _ (.inr (by simp [hd])) ho
    | @destroyerCleaning t' c hd => cases c <;> exact hdestroyer _ _ (.inr (by simp [hd])) ho
    | _ => exact hi ho

/-- The delayed messages of a history are numbered in the order of the posts, on 32 bits, and no
task is lost while the destructor has not begun. -/
structure Numbered (t : θ) (h : List (Observation θ ι α)) (s : State θ ι α) : Prop where
  /-- The counter. -/
  next : (s.queues t).delayedNextNum = ((events t h).filterMap delayed?).length % 2 ^ 32
  /-- The numbers given. -/
  numbers : ∀ i d, ((events t h).filterMap delayed?)[i]? = some d → d.messageNumber = i % 2 ^ 32
  /-- Nothing lost. -/
  kept : s.destroyers t = .absent → (events t h).filterMap (discipline θ ι α).lost? = []

theorem numbered {h : List (Observation θ ι α)} {s : State θ ι α}
    (hr : (machine θ ι α).Reaches h s) (t : θ) : Numbered t h s := by
  refine hr.induction (Numbered t) ?_ ?_
  · rintro _ ⟨clock, rfl⟩
    exact ⟨rfl, by simp, fun _ => rfl⟩
  · rintro h s a s' out hn - hst
    have hquiet : (s'.queues t).delayedNextNum = (s.queues t).delayedNextNum → events t out = [] →
        Numbered t (h ++ out) s' := by
      intro hnum hout
      refine ⟨?_, ?_, ?_⟩
      · rw [hnum, events_append, hout, List.append_nil, hn.next]
      · rw [events_append, hout, List.append_nil]
        exact hn.numbers
      · intro hd
        rw [events_append, hout, List.append_nil]
        exact hn.kept (destroyers_absent hst hd)
    cases queueStep hst with
    | none hqueues hout => exact hquiet (by rw [hqueues]) (hout t)
    | some t' q hqueues hmove hne =>
      rcases eq_or_ne t t' with rfl | htt
      · have hq : s'.queues t = q := by rw [hqueues, Function.update_self]
        have hkept : s'.destroyers t = .absent →
            (events t (h ++ out)).filterMap (discipline θ ι α).lost? = [] := by
          intro hd
          have hd' := destroyers_absent hst hd
          rw [events_append, List.filterMap_append, hn.kept hd',
            hmove.lossless.resolve_right (fun hne => hne hd'), List.append_nil]
        rcases hmove.numbered with ⟨hout, hnum⟩ | ⟨d, hout, hd, hnum⟩
        · refine ⟨?_, ?_, hkept⟩
          · rw [hq, hnum, hn.next, events_append, List.filterMap_append, hout, List.append_nil]
          · rw [events_append, List.filterMap_append, hout, List.append_nil]
            exact hn.numbers
        · rw [hn.next] at hd hnum
          have hds : (events t (h ++ out)).filterMap delayed? =
              (events t h).filterMap delayed? ++ [d] := by
            rw [events_append, List.filterMap_append, hout]
            rfl
          refine ⟨?_, ?_, hkept⟩
          · rw [hq, hnum, hds, List.length_append, List.length_singleton]
            omega
          · intro i d' hi
            rw [hds] at hi
            rcases Nat.lt_or_ge i ((events t h).filterMap delayed?).length with hlt | hge
            · rw [List.getElem?_append_left hlt] at hi
              exact hn.numbers i d' hi
            · rw [List.getElem?_append_right hge] at hi
              obtain ⟨hlt, hget⟩ := List.getElem?_eq_some_iff.mp hi
              rw [List.length_singleton] at hlt
              obtain rfl : i = ((events t h).filterMap delayed?).length := by omega
              simp only [Nat.sub_self, List.getElem_cons_zero] at hget
              rw [← hget, hd]
      · exact hquiet (by rw [hqueues, Function.update_of_ne htt]) (hne t htt)

/-! ## The message queue law -/

/-- The tasks that joined `messages_` are those dispatched, in the same order, followed by those it
holds, until the thread is destroyed. -/
theorem dispatched_in_order {h : List (Observation θ ι α)} {s : State θ ι α}
    (hr : (machine θ ι α).Reaches h s) {t : θ} (hd : s.destroyers t = .absent) :
    (events t h).filterMap (discipline θ ι α).joins? =
      (events t h).filterMap taken? ++ (s.queues t).messages := by
  rw [← Discipline.left_of_lossless ((numbered hr t).kept hd)]
  exact Discipline.accepts_fifo (accepts hr t)

/-- What a history `h` that leads to the state `s` has to satisfy at the thread `t`. -/
structure MessageQueueLaw (t : θ) (h : List (Observation θ ι α)) (s : State θ ι α) : Prop where
  /-- Until the thread is destroyed, tasks are dispatched in the order in which they were pushed
  into `messages_`, be it by a post or by a `Get` that found them due. -/
  inOrder : s.destroyers t = .absent → (events t h).filterMap (discipline θ ι α).joins? =
    (events t h).filterMap taken? ++ (s.queues t).messages
  /-- A delayed message is moved only by a `Get` that has read a time no earlier than its run
  time. -/
  notEarly : ∀ message now, .promote message now ∈ events t h → message.runTimeMs ≤ now
  /-- Of the delayed messages held together the one with the smaller run time and number is moved
  first. -/
  leastFirst : ∀ h₁ h₂ message now, events t h = h₁ ++ .promote message now :: h₂ →
    ∃ others : Multiset (DelayedMessage α), (h₁.filterMap delayed? : Multiset _) =
        ((h₁.filterMap released?).map Prod.fst : Multiset _) +
          (h₁.filterMap dropped? : Multiset _) + (message ::ₘ others) ∧
      ∀ other ∈ others, message.runTimeMs < other.runTimeMs ∨
        message.runTimeMs = other.runTimeMs ∧ message.messageNumber ≤ other.messageNumber
  /-- Delayed messages are numbered in the order in which they were posted, on 32 bits. -/
  numbers : ∀ i message, ((events t h).filterMap delayed?)[i]? = some message →
    message.messageNumber = i % 2 ^ 32
  /-- Until the thread is destroyed, every accepted task has been dispatched, is in `messages_` or
  is in `delayed_messages_`, as often as it was accepted. -/
  conserved : s.destroyers t = .absent →
    ((events t h).filterMap (discipline θ ι α).accepted? : Multiset (Task θ ι α)) =
      ((events t h).filterMap taken? : Multiset (Task θ ι α)) +
        ((s.queues t).messages : Multiset (Task θ ι α)) +
        (s.queues t).delayedMessages.toMultiset.map fun d => .run d.functor

/-- **The message queue law of `rtc::Thread`**, in every run and for every thread. -/
theorem message_queue_law {h : List (Observation θ ι α)} {s : State θ ι α}
    (hr : (machine θ ι α).Reaches h s) (t : θ) : MessageQueueLaw t h s := by
  have ha := accepts hr t
  have hn := numbered hr t
  refine ⟨fun hd => ?_, fun message now hm => ?_, fun h₁ h₂ message now heq => ?_, hn.numbers,
    fun hd => ?_⟩
  · exact dispatched_in_order hr hd
  · exact Discipline.accepts_due ha (List.mem_filterMap.mpr ⟨_, hm, rfl⟩)
  · rw [heq] at ha
    obtain ⟨others, hheld, hl⟩ := Discipline.accepts_least ha rfl
    refine ⟨others, hheld, ?_⟩
    intro other ho
    have hle : ¬ (other.runTimeMs < message.runTimeMs ∨
      other.runTimeMs = message.runTimeMs ∧ other.messageNumber < message.messageNumber) :=
      hl other ho
    omega
  · have hc := Discipline.accepts_conserved ha
    rw [hn.kept hd, Discipline.started_of_promotes trivial ha, Multiset.coe_nil, add_zero] at hc
    exact hc

/-- The law at work: an immediate task is dispatched at once, and a delayed task posted before it
once a `Get` has found it due. -/
theorem message_queue_law_run : ∃ (h : List (Observation Unit Unit ℕ)) (s : State Unit Unit ℕ),
    (machine Unit Unit ℕ).Reaches h s ∧
    events () h = [.delay ⟨5, 5, 0, 7⟩, .post (.run 8), .take (.run 8), .promote ⟨5, 5, 0, 7⟩ 9,
      .take (.run 7)] ∧
    MessageQueueLaw () h s := by
  obtain ⟨h, s, hex, he⟩ : ∃ h s, (machine Unit Unit ℕ).exec (State.initial 0)
      ([Action.call (.other ()) (.postDelayedTask () 7 ⟨4500⟩)] ++
        List.replicate 4 (Action.client (.other ())) ++
        [Action.call (.other ()) (.postTask () 8)] ++
        List.replicate 3 (Action.client (.other ())) ++ [Action.processMessages () kForever] ++
        List.replicate 4 (Action.owner ()) ++ [Action.tick 9] ++
        List.replicate 2 (Action.owner ())) =
        some (s, h) ∧
      events () h = [.delay ⟨5, 5, 0, 7⟩, .post (.run 8), .take (.run 8),
        .promote ⟨5, 5, 0, 7⟩ 9, .take (.run 7)] := ⟨_, _, rfl, rfl⟩
  have hr : (machine Unit Unit ℕ).Reaches h s := .of_exec ⟨0, rfl⟩ hex
  exact ⟨h, s, hr, he, message_queue_law hr ()⟩

end System

end Thread

end TQLib
