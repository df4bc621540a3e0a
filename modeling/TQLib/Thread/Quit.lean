import TQLib.Thread.MessageQueue

/-!
# What `Quit` delivers

`thread.h` promises that the ready posts of a thread are delivered before `Get` returns for a thread
that is quitting. `Get` keeps the promise by emptying `messages_` before it tests `IsQuitting()`,
but it releases `mutex_` in between. A post that lands there, followed by the store of `stop_`
before the test, is left behind.

The condition under which the promise is kept is therefore about the store: it must not come between
the two while `messages_` is not empty (`StoresSafely`).

## Main results

* `quit_delivers` — if every store is safe, what was pushed before the first is dispatched
* `quit_leaves_a_post` — a post is left behind
-/

namespace TQLib

namespace Thread

open TimedEvent

variable {θ ι α : Type*} [DecidableEq θ]

/-! ## Before the first store -/

/-- Whether `stop_` of the thread `t` is stored. -/
def Observation.isStop (t : θ) : Observation θ ι α → Bool
  | .stop t' => decide (t' = t)
  | _ => false

/-- The history before `stop_` of the thread `t` is first stored. -/
def beforeStop (t : θ) (h : List (Observation θ ι α)) : List (Observation θ ι α) :=
  h.takeWhile fun o => !o.isStop t

theorem beforeStop_prefix (t : θ) (h : List (Observation θ ι α)) : beforeStop t h <+: h :=
  List.takeWhile_prefix _

theorem beforeStop_append_of_stop {t : θ} {out : List (Observation θ ι α)} :
    ∀ {h : List (Observation θ ι α)}, h.any (·.isStop t) = true →
      beforeStop t (h ++ out) = beforeStop t h
  | [], hs => by simp at hs
  | o :: h, hs => by
    simp only [beforeStop, List.cons_append, List.takeWhile_cons]
    cases ho : o.isStop t with
    | true => rfl
    | false => exact congrArg (o :: ·) (beforeStop_append_of_stop (by simpa [ho] using hs))

theorem beforeStop_append_of_not_stop {t : θ} {out : List (Observation θ ι α)} :
    ∀ {h : List (Observation θ ι α)}, h.any (·.isStop t) = false →
      beforeStop t (h ++ out) = h ++ beforeStop t out
  | [], _ => rfl
  | o :: h, hs => by
    obtain ⟨ho, hs⟩ : o.isStop t = false ∧ h.any (·.isStop t) = false := by simpa using hs
    simp only [beforeStop, List.cons_append, List.takeWhile_cons, ho]
    exact congrArg (o :: ·) (beforeStop_append_of_not_stop hs)

/-! ## Pushes and dispatches -/

/-- The tasks pushed into `messages_` of the thread `t`, in order. -/
def pushed (t : θ) (h : List (Observation θ ι α)) : List (Task θ ι α) :=
  (events t h).filterMap (discipline θ ι α).joins?

/-- The tasks dispatched by the thread `t`, in order. -/
def dispatched (t : θ) (h : List (Observation θ ι α)) : List (Task θ ι α) :=
  (events t h).filterMap taken?

theorem pushed_append (t : θ) (h h' : List (Observation θ ι α)) :
    pushed t (h ++ h') = pushed t h ++ pushed t h' := by
  rw [pushed, events_append, List.filterMap_append]
  rfl

theorem dispatched_append (t : θ) (h h' : List (Observation θ ι α)) :
    dispatched t (h ++ h') = dispatched t h ++ dispatched t h' := by
  rw [dispatched, events_append, List.filterMap_append]
  rfl

/-- Everything pushed before the first store has been dispatched. -/
def Delivered (t : θ) (h : List (Observation θ ι α)) : Prop :=
  pushed t (beforeStop t h) <+: dispatched t h

/-- What has been delivered stays so. -/
theorem Delivered.append {t : θ} {h : List (Observation θ ι α)} (hd : Delivered t h)
    (hs : h.any (·.isStop t) = true) (out : List (Observation θ ι α)) :
    Delivered t (h ++ out) := by
  rw [Delivered, beforeStop_append_of_stop hs, dispatched_append]
  exact List.prefix_append_of_prefix hd

/-- When `messages_` is empty, everything has been dispatched. -/
theorem delivered_of_empty {t : θ} {h : List (Observation θ ι α)}
    (he : pushed t h = dispatched t h) : Delivered t h := by
  obtain ⟨rest, hrest⟩ := beforeStop_prefix t h
  refine ⟨pushed t rest, ?_⟩
  rw [← pushed_append, hrest, he]

variable [DecidableEq ι]

/-- The FIFO law for a thread that is not being destroyed. -/
theorem pushed_eq {h : List (Observation θ ι α)} {s : State θ ι α}
    (hr : (machine θ ι α).Reaches h s) {t : θ} (hd : s.destroyers t = .absent) :
    pushed t h = dispatched t h ++ (s.queues t).messages :=
  dispatched_in_order hr hd

/-! ## What a step does around the test -/

theorem stop_step {s s' : State θ ι α} {a : Action θ ι α} {out : List (Observation θ ι α)}
    (h : s.step a = some (s', out)) (t : θ) :
    s'.stop t = (s.stop t || out.any (·.isStop t)) := by
  cases step_cases h with
  | @startCall p c hc =>
    cases c with
    | quit t' =>
      rcases eq_or_ne t t' with rfl | hne
      · simp [State.call, State.setStop, State.setClient, Observation.isStop]
      · simp [State.call, State.setStop, State.setClient, Observation.isStop, hne, hne.symm]
    | _ => simp [State.call, State.setClient, Observation.isStop]
  | @refuse p t' post => cases post <;> simp [State.refuse, State.setClient, Observation.isStop]
  | @cleaning t' loop c =>
    cases c <;> simp [State.cleanup, State.setOwner, State.setSignal, State.setCompletion,
      Observation.isStop]
  | @destroyerCleaning t' c =>
    cases c <;> simp [State.cleanup, State.setDestroyer, State.setSignal, State.setCompletion,
      Observation.isStop]
  | @postTask p t' post =>
    cases post <;> simp [Post.seen, Observation.isStop, State.setQueue, State.setClient]
  | @take t' loop g cms task =>
    cases task <;> simp [Task.starts, Observation.isStop, State.setQueue, State.setOwner]
  | empty => simp [Observation.isStop, State.setQueue, State.setOwner]
  | dropDelayed => simp [Observation.isStop, State.setQueue]
  | _ => exact (Bool.or_false _).symm

/-- An owner about to test `IsQuitting()` was so before the step, or has just found `messages_`
empty. -/
theorem testQuit_step {s s' : State θ ι α} {a : Action θ ι α} {out : List (Observation θ ι α)}
    (h : s.step a = some (s', out)) {t : θ} {loop : Loop} {g : GetFrame} {cmsDelayNext : ℤ}
    (ho : s'.owners t = .testQuit loop g cmsDelayNext) :
    s.owners t = .testQuit loop g cmsDelayNext ∨ (s'.queues t).messages = [] := by
  cases step_cases h with
  | startCall c => cases c <;> exact .inl ho
  | @refuse p t' post => cases post <;> exact .inl ho
  | @destroyerCleaning t' c => cases c <;> exact .inl ho
  | @cleaning t' loop' c =>
    rcases c with (t₁ | i) | t₁ <;>
      · rcases update_cases ho with ⟨-, ho⟩ | ⟨-, ho⟩
        · cases ho
        · exact .inl ho
  | @empty t' loop' g' cms q out' hi ho' hg =>
    rcases update_cases ho with ⟨rfl, -⟩ | ⟨-, ho⟩
    · refine .inr ?_
      simp only [State.setOwner, State.setQueue, Function.update_self]
      exact (Queue.get_spec hg).empty rfl
    · exact .inl ho
  | readClock o hi ho' hnext =>
    rcases update_cases ho with ⟨-, ho⟩ | ⟨-, ho⟩
    · rcases hnext with hnext | hnext <;> simp [hnext] at ho
    · exact .inl ho
  | nextGet o hi ho' hnext =>
    rcases update_cases ho with ⟨-, ho⟩ | ⟨-, ho⟩
    · rcases hnext with hnext | ⟨cmsNext, hnext⟩ <;> simp [hnext] at ho
    · exact .inl ho
  | processMessages | enterGet | take | quitting | notQuitting | enterWait | woken | timeout | fail
  | dispatched | dispatchedCall =>
    rcases update_cases ho with ⟨-, ho⟩ | ⟨-, ho⟩
    · cases ho
    · exact .inl ho
  | _ => exact .inl ho

/-- `Get` returns for a quitting thread only from its test of `IsQuitting()`. -/
theorem quitting_step {s s' : State θ ι α} {a : Action θ ι α} {out : List (Observation θ ι α)}
    (h : s.step a = some (s', out)) {t : θ} (hq : .quitting t ∈ out) :
    s.stop t = true ∧ ∃ loop g cmsDelayNext, s.owners t = .testQuit loop g cmsDelayNext := by
  cases step_cases h with
  | @startCall p c => cases c <;> simp [State.call] at hq
  | @refuse p t' post => cases post <;> simp [State.refuse] at hq
  | @cleaning t' loop c => cases c <;> simp [State.cleanup] at hq
  | @destroyerCleaning t' c => cases c <;> simp [State.cleanup] at hq
  | @postTask p t' post => cases post <;> simp [Post.seen] at hq
  | @take t' loop g cms task => cases task <;> simp [Task.starts] at hq
  | @quitting t' loop g cms hi ho hstop =>
    obtain rfl : t = t' := by simpa using hq
    exact ⟨hstop, loop, g, cms, ho⟩
  | _ => simp at hq

/-- Only `Quit` stores `stop_`, and it leaves the message queues alone. -/
theorem quit_step {s s' : State θ ι α} {a : Action θ ι α} {out : List (Observation θ ι α)}
    (h : s.step a = some (s', out)) {t : θ} (hs : out.any (·.isStop t) = true) :
    (∃ p, a = .call p (.quit t)) ∧ s'.queues = s.queues := by
  cases step_cases h with
  | @startCall p c =>
    cases c with
    | quit t' =>
      obtain rfl : t' = t := by simpa [State.call, Observation.isStop] using hs
      exact ⟨⟨p, rfl⟩, rfl⟩
    | _ => simp [State.call, Observation.isStop] at hs
  | @refuse p t' post => cases post <;> simp [State.refuse, Observation.isStop] at hs
  | @cleaning t' loop c => cases c <;> simp [State.cleanup, Observation.isStop] at hs
  | @destroyerCleaning t' c => cases c <;> simp [State.cleanup, Observation.isStop] at hs
  | @postTask p t' post => cases post <;> simp [Post.seen, Observation.isStop] at hs
  | @take t' loop g cms task => cases task <;> simp [Task.starts, Observation.isStop] at hs
  | _ => simp [Observation.isStop] at hs

/-! ## The condition -/

/-- The first store of `stop_` of the thread `t` does not come between the critical section of
`Get` that found `messages_` empty and its test of `IsQuitting()` while `messages_` is not empty. -/
def StoresSafely (t : θ) (s : State θ ι α) (a : Action θ ι α) : Prop :=
  ∀ p loop g cmsDelayNext, a = .call p (.quit t) → s.stop t = false →
    s.owners t = .testQuit loop g cmsDelayNext → (s.queues t).messages = []

/-- What holds along a run whose stores are safe. -/
structure Delivering (t : θ) (h : List (Observation θ ι α)) (s : State θ ι α) : Prop where
  /-- `stop_` says whether it has been stored. -/
  stored : s.stop t = h.any (·.isStop t)
  /-- An owner that will find the thread quitting has delivered. -/
  tested : s.stop t = true → ∀ loop g cmsDelayNext, s.owners t = .testQuit loop g cmsDelayNext →
    Delivered t h
  /-- So has one that has found it. -/
  returned : .quitting t ∈ h → s.stop t = true ∧ Delivered t h

theorem delivering {t : θ} {h : List (Observation θ ι α)} {s : State θ ι α}
    (hr : (machine θ ι α).ReachesVia (StoresSafely t) h s) : Delivering t h s := by
  induction hr with
  | start hs =>
    obtain ⟨clock, rfl⟩ := hs
    exact ⟨rfl, nofun, nofun⟩
  | @step h s s' a out hr hg hst ih =>
    have hstop := stop_step hst t
    have hr' := hr.reaches.step trivial hst
    refine ⟨?_, ?_, ?_⟩
    · rw [hstop, ih.stored, List.any_append]
    · intro hs' loop g cms ho
      -- what `Get` has just emptied is delivered
      have hempty : (s'.queues t).messages = [] → Delivered t (h ++ out) := by
        intro he
        have hd := absent_of_not_outside ⟨_, hr'⟩ t (by simp [ho])
        exact delivered_of_empty (by rw [pushed_eq hr' hd, he, List.append_nil])
      rcases testQuit_step hst ho with ho | he
      · cases hs : s.stop t with
        | true => exact (ih.tested hs _ _ _ ho).append (by rw [← ih.stored, hs]) out
        | false =>
          obtain ⟨⟨p, rfl⟩, hqueues⟩ := quit_step hst (by rw [← hstop.symm.trans hs', hs]; rfl)
          exact hempty (by rw [hqueues, hg p _ _ _ rfl hs ho])
      · exact hempty he
    · intro hq
      have hd : s.stop t = true ∧ Delivered t h := by
        rcases List.mem_append.mp hq with hq | hq
        · exact ih.returned hq
        · obtain ⟨hs, loop, g, cms, ho⟩ := quitting_step hst hq
          exact ⟨hs, ih.tested hs _ _ _ ho⟩
      exact ⟨by rw [hstop, hd.1]; rfl, hd.2.append (by rw [← ih.stored, hd.1]) out⟩

/-- **`Quit` delivers the ready posts** in every run whose stores are safe. When `Get` returns no
task because of `IsQuitting()`, every task pushed into `messages_` before `stop_` was first stored
has been dispatched, and `messages_` holds only tasks pushed after. -/
theorem quit_delivers {t : θ} {h₁ h₂ : List (Observation θ ι α)} {s : State θ ι α}
    (hr : (machine θ ι α).ReachesVia (StoresSafely t) (h₁ ++ .stop t :: h₂ ++ [.quitting t]) s)
    (hfirst : .stop t ∉ h₁) :
    pushed t h₁ <+: dispatched t (h₁ ++ .stop t :: h₂) ∧
      (s.destroyers t = .absent → (s.queues t).messages <:+ pushed t h₂) := by
  have hnot : h₁.any (·.isStop t) = false := by
    rw [List.any_eq_false]
    intro o ho hs
    cases o with
    | stop t' =>
      obtain rfl : t' = t := by simpa [Observation.isStop] using hs
      exact hfirst ho
    | _ => simp [Observation.isStop] at hs
  have hbefore : beforeStop t (h₁ ++ .stop t :: h₂ ++ [.quitting t]) = h₁ := by
    rw [List.append_assoc, beforeStop_append_of_not_stop hnot]
    simp [beforeStop, Observation.isStop]
  have hquitting : ∀ h : List (Observation θ ι α), pushed t (h ++ [.quitting t]) = pushed t h ∧
      dispatched t (h ++ [.quitting t]) = dispatched t h := by
    intro h
    rw [pushed_append, dispatched_append]
    exact ⟨List.append_nil _, List.append_nil _⟩
  have hd := ((delivering hr).returned (by simp)).2
  rw [Delivered, hbefore, (hquitting _).2] at hd
  refine ⟨hd, ?_⟩
  intro habsent
  have hfifo := pushed_eq hr.reaches habsent
  rw [(hquitting _).1, (hquitting _).2, pushed_append] at hfifo
  obtain ⟨later, hlater⟩ := hd
  rw [← hlater, List.append_assoc] at hfifo
  exact ⟨later, (List.append_cancel_left hfifo).symm⟩

/-- A task posted before `Quit` is dispatched, when the owner enters its loop after both. -/
theorem quit_delivers_run : ∃ s : State Unit Unit ℕ, (machine Unit Unit ℕ).ReachesVia
      (StoresSafely ()) ([.queue () (.post (.run 8))] ++ .stop () ::
        [.queue () (.take (.run 8))] ++ [.quitting ()]) s ∧
    pushed () ([.queue () (.post (.run 8))] : List (Observation Unit Unit ℕ)) <+:
      dispatched () ([.queue () (.post (.run 8))] ++ .stop () ::
        [.queue () (.take (.run 8))]) := by
  obtain ⟨s₁, hex₁, ho₁⟩ : ∃ s₁, (machine Unit Unit ℕ).exec (State.initial 0)
      ([Action.call (.other ()) (.postTask () 8)] ++ List.replicate 3 (Action.client (.other ()))) =
        some (s₁, [.queue () (.post (.run 8))]) ∧ s₁.owners () = .outside := ⟨_, rfl, rfl⟩
  obtain ⟨s₂, s, hst, hex₂⟩ : ∃ s₂ s, (machine Unit Unit ℕ).step s₁
      (.call (.other ()) (.quit ())) = some (s₂, [.stop ()]) ∧
      (machine Unit Unit ℕ).exec s₂
        (Action.processMessages () kForever :: List.replicate 7 (Action.owner ())) =
        some (s, [.queue () (.take (.run 8)), .quitting ()]) := by
    cases hex₁
    exact ⟨_, _, rfl, rfl⟩
  have hother : ∀ (s : State Unit Unit ℕ) (a : Action Unit Unit ℕ),
      (∀ p, a ≠ .call p (.quit ())) → StoresSafely () s a :=
    fun s a ha p _ _ _ heq _ _ => absurd heq (ha p)
  have hr₀ : (machine Unit Unit ℕ).ReachesVia (StoresSafely ()) [] (State.initial 0) :=
    .start ⟨0, rfl⟩
  have hr₁ := hr₀.exec (fun a ha s => hother s a fun p hp => by subst hp; simp at ha) hex₁
  have hr₂ := hr₁.step (fun p loop g cms _ _ ho => by rw [ho₁] at ho; cases ho) hst
  have hr := hr₂.exec (fun a ha s => hother s a fun p hp => by subst hp; simp at ha) hex₂
  exact ⟨s, hr, (quit_delivers hr (by simp)).1⟩

/-- **A post is left behind.** It lands between the critical section in which `Get` finds
`messages_` empty and the test of `IsQuitting()`, and `stop_` is stored between the two as well. -/
theorem quit_leaves_a_post : ¬ ∀ (h₁ h₂ : List (Observation Unit Unit ℕ)) (s : State Unit Unit ℕ),
    (machine Unit Unit ℕ).Reaches (h₁ ++ .stop () :: h₂ ++ [.quitting ()]) s → .stop () ∉ h₁ →
    pushed () h₁ <+: dispatched () (h₁ ++ .stop () :: h₂) := by
  intro hall
  obtain ⟨s, hex⟩ : ∃ s, (machine Unit Unit ℕ).exec (State.initial 0)
      ([Action.processMessages () kForever, .owner (), .owner (),
          .call (.other ()) (.postTask () 8)] ++
        List.replicate 3 (Action.client (.other ())) ++
        [Action.call (.other ()) (.quit ()), .owner ()]) =
      some (s, [.queue () (.post (.run 8))] ++ .stop () :: [] ++ [.quitting ()]) := ⟨_, rfl⟩
  have hfront : ([.run 8] : List (Task Unit Unit ℕ)) <+: [] :=
    hall [.queue () (.post (.run 8))] [] s (.of_exec ⟨0, rfl⟩ hex) (by simp)
  simp at hfront

end Thread

end TQLib
