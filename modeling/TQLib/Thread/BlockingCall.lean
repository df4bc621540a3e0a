import TQLib.Foundations.Words
import TQLib.Thread.Quit

/-!
# `BlockingCall` runs its functor once

The lambda that `BlockingCall` posts carries a reference to the frame of its caller: to the functor
and to `ready`. Wherever that lambda is (in `messages_`, being run, being destroyed) there is
exactly one of it, and the caller waits. It is gone once its destructor has completed the call, and
only then does the caller return.

The invariant is stated for one party at a time. It relates what has been seen of the call the party
is in to where the party stands, to whether the call is completed and to the number of lambdas of
that party at every place of the system, which is never more than one in all.

## Main results

* `CallWord` — the courses a blocking call can take
* `callStep` — what one step of the system is to one party
* `blocking_call_law` — the blocking calls of a party take one of these courses, one after another
* `call_quitting` — a functor is not run only if the thread is quitting
-/

namespace TQLib

namespace Thread

variable {θ ι α : Type*}

/-- The courses that a blocking call of the party `p` on the thread `t` can take. -/
inductive CallWord (p : Party θ ι) : List (CallEvent θ) → Prop
  /-- The thread is quitting when the call is entered. -/
  | quitting (t : θ) : CallWord p [.enter t, .giveUp t]
  /-- The thread is the caller's own, and the functor is run in place. -/
  | inPlace (t : θ) : p = .thread t → CallWord p [.enter t, .run t, .finish, .exit]
  /-- The functor is run by the thread. -/
  | ran (t : θ) : p ≠ .thread t →
      CallWord p [.enter t, .post t, .run t, .finish, .signal, .exit]
  /-- The thread is quitting when the task is posted. -/
  | refused (t : θ) : p ≠ .thread t → CallWord p [.enter t, .destroyed t, .signal, .exit]
  /-- The task is destroyed with the message queue. -/
  | dropped (t : θ) : p ≠ .thread t →
      CallWord p [.enter t, .post t, .destroyed t, .signal, .exit]

/-! ## Where the lambdas of a party are -/

section Tokens

variable [DecidableEq θ] [DecidableEq ι]

/-- Whether a task is the lambda of a call of the party `p`. -/
def Task.isCallOf (p : Party θ ι) : Task θ ι α → Bool
  | .run _ => false
  | .call caller => decide (caller = p)

/-- The number of lambdas of the party `p` among some tasks. -/
def callsOf (p : Party θ ι) (messages : List (Task θ ι α)) : ℕ := messages.countP (·.isCallOf p)

/-- Whether the destructor of the cleanup of `p` is about to complete the call. -/
def Cleanup.completes (p : Party θ ι) : Cleanup θ ι → Bool
  | .complete caller => decide (caller = p)
  | .wakeUp _ => false

/-- What an `rtc::Thread` can be doing with a lambda. -/
inductive Holding
  /-- It is in `messages_`. -/
  | queued
  /-- It is being run. -/
  | dispatched
  /-- It is being destroyed after having been run. -/
  | cleaned
  /-- It is being destroyed without having been run. -/
  | destroyed
  deriving DecidableEq

/-- The number of lambdas of the party `p` that a thread holds. -/
def holds (p : Party θ ι) (q : Queue θ ι α) (o : Owner θ ι α) (d : Destroyer θ ι) : Holding → ℕ
  | .queued => callsOf p q.messages
  | .dispatched =>
    match o with
    | .dispatching _ task => callsOf p [task]
    | _ => 0
  | .cleaned =>
    match o with
    | .cleaning _ c => (c.completes p).toNat
    | _ => 0
  | .destroyed =>
    match d with
    | .cleaning c => (c.completes p).toNat
    | _ => 0

/-- The number of lambdas of the party `p` at every place of the system. -/
def State.tokens (p : Party θ ι) (s : State θ ι α) (place : θ × Holding) : ℕ :=
  holds p (s.queues place.1) (s.owners place.1) (s.destroyers place.1) place.2

omit [DecidableEq ι] in
/-- One lambda at a place, or none. -/
def one (loc : Option (θ × Holding)) (place : θ × Holding) : ℕ :=
  if loc = some place then 1 else 0

omit [DecidableEq ι] in
/-- The lambda at `src` leaves it, and one appears at `dst`. -/
def Moves (k k' : θ × Holding → ℕ) (src dst : Option (θ × Holding)) : Prop :=
  ∀ place, k' place + one src place = k place + one dst place

omit [DecidableEq ι] in
theorem Moves.appear {k' : θ × Holding → ℕ} {dst : Option (θ × Holding)}
    (h : Moves (one none) k' none dst) : k' = one dst := by
  funext place
  simpa [one] using h place

omit [DecidableEq ι] in
/-- Where there is one lambda, it is the one that leaves. -/
theorem Moves.leave {k' : θ × Holding → ℕ} {loc dst : Option (θ × Holding)}
    {src : θ × Holding} (h : Moves (one loc) k' (some src) dst) (hne : dst ≠ some src) :
    loc = some src ∧ k' = one dst := by
  have hsrc := h src
  by_cases hloc : loc = some src
  · refine ⟨hloc, funext fun place => ?_⟩
    have hplace := h place
    rw [hloc] at hplace
    omega
  · simp [one, hloc, hne] at hsrc

/-- A step that touches one thread moves lambdas as it does there. -/
theorem moves_of_holds {p : Party θ ι} {s s' : State θ ι α} {t : θ} (src dst : Option Holding)
    (hother : ∀ t', t' ≠ t → s'.queues t' = s.queues t' ∧ s'.owners t' = s.owners t' ∧
      s'.destroyers t' = s.destroyers t')
    (hhere : ∀ k, holds p (s'.queues t) (s'.owners t) (s'.destroyers t) k +
        (if src = some k then 1 else 0) =
      holds p (s.queues t) (s.owners t) (s.destroyers t) k + if dst = some k then 1 else 0) :
    Moves (s.tokens p) (s'.tokens p) (src.map (t, ·)) (dst.map (t, ·)) := by
  have hone : ∀ (k? : Option Holding) (t' : θ) (k : Holding),
      one (k?.map (t, ·)) (t', k) = if t' = t ∧ k? = some k then 1 else 0 := by
    intro k? t' k
    refine if_congr ?_ rfl rfl
    cases k? with
    | none => simp
    | some k₀ => simp [eq_comm]
  rintro ⟨t', k⟩
  simp only [hone, State.tokens]
  rcases eq_or_ne t' t with rfl | hne
  · simpa using hhere k
  · obtain ⟨hq, ho, hd⟩ := hother t' hne
    simp [hne, hq, ho, hd]

/-- A step that changes nothing of what one thread holds of a party moves none of its lambdas. -/
theorem tokens_of_holds {p : Party θ ι} {s s' : State θ ι α} (t : θ)
    (hother : ∀ t', t' ≠ t → s'.queues t' = s.queues t' ∧ s'.owners t' = s.owners t' ∧
      s'.destroyers t' = s.destroyers t')
    (hhere : ∀ k, holds p (s'.queues t) (s'.owners t) (s'.destroyers t) k =
      holds p (s.queues t) (s.owners t) (s.destroyers t) k) : s'.tokens p = s.tokens p := by
  have h := moves_of_holds (p := p) none none hother fun k => by simpa using hhere k
  funext place
  simpa [one] using h place

/-! ## One party -/

/-- How far a party is in a blocking call. -/
inductive Stage
  /-- It has not tested `IsQuitting()`. -/
  | entered
  /-- It posts its lambda. -/
  | posting
  /-- It is about to complete the call itself, as its lambda was refused. -/
  | refused
  /-- It waits for the completion. -/
  | awaiting
  /-- It has seen or made the completion, and wakes its own socket server. -/
  | completed

omit [DecidableEq θ] [DecidableEq ι] in
/-- The thread that a party calls, and how far it is. -/
def Client.stage : Client θ α → Option (θ × Stage)
  | .callTest t => some (t, .entered)
  | .postTest t .blockingCall => some (t, .posting)
  | .postPush t .blockingCall => some (t, .posting)
  | .refused t => some (t, .refused)
  | .postWakeUp t true => some (t, .awaiting)
  | .callCheck t _ => some (t, .awaiting)
  | .callWait t => some (t, .awaiting)
  | .doneWait t => some (t, .awaiting)
  | .refusedWakeUp t => some (t, .completed)
  | .callWakeUp t => some (t, .completed)
  | _ => none

/-- What matters of a state to the blocking call of one party. -/
@[ext] structure CallView (θ : Type*) where
  /-- Where the party stands. -/
  stage : Option (θ × Stage)
  /-- `ready`, or whether `done_event` is signalled. -/
  completion : Bool
  /-- The lambdas of the party. -/
  tokens : θ × Holding → ℕ

/-- The state as it concerns the party `p`. -/
def State.callView (p : Party θ ι) (s : State θ ι α) : CallView θ :=
  ⟨(s.clients p).stage, s.completion p, s.tokens p⟩

omit [DecidableEq θ] in
/-- What is seen of the blocking calls of the party `p`. -/
def Observation.ofCall (p : Party θ ι) [DecidableEq (Party θ ι)] :
    Observation θ ι α → Option (CallEvent θ)
  | .call p' e => if p' = p then some e else none
  | _ => none

/-- The history of the blocking calls of the party `p`. -/
def calls (p : Party θ ι) (h : List (Observation θ ι α)) : List (CallEvent θ) :=
  h.filterMap (Observation.ofCall p)

/-- What one step of the system can be to the party `p`: the events it shows and what it does to
the view. -/
inductive CallStep (p : Party θ ι) (stop : θ → Bool) :
    CallView θ → List (CallEvent θ) → CallView θ → Prop
  | same (v : CallView θ) : CallStep p stop v [] v
  | enter (t : θ) (c : Bool) (k : θ × Holding → ℕ) :
      CallStep p stop ⟨none, c, k⟩ [.enter t] ⟨some (t, .entered), c, k⟩
  | giveUp (t : θ) (c : Bool) (k : θ × Holding → ℕ) : stop t = true →
      CallStep p stop ⟨some (t, .entered), c, k⟩ [.giveUp t] ⟨none, c, k⟩
  | inPlace (t : θ) (c : Bool) (k : θ × Holding → ℕ) : p = .thread t →
      CallStep p stop ⟨some (t, .entered), c, k⟩ [.run t, .finish, .exit] ⟨none, c, k⟩
  | prepare (t : θ) (c : Bool) (k : θ × Holding → ℕ) : p ≠ .thread t →
      CallStep p stop ⟨some (t, .entered), c, k⟩ [] ⟨some (t, .posting), false, k⟩
  | post (t : θ) (c : Bool) (k k' : θ × Holding → ℕ) : Moves k k' none (some (t, .queued)) →
      CallStep p stop ⟨some (t, .posting), c, k⟩ [.post t] ⟨some (t, .awaiting), c, k'⟩
  | refuse (t : θ) (c : Bool) (k : θ × Holding → ℕ) : stop t = true →
      CallStep p stop ⟨some (t, .posting), c, k⟩ [.destroyed t] ⟨some (t, .refused), c, k⟩
  | completeRefused (t : θ) (c : Bool) (k : θ × Holding → ℕ) (stage : Stage) :
      stage = .completed ∨ stage = .awaiting →
      CallStep p stop ⟨some (t, .refused), c, k⟩ [.signal] ⟨some (t, stage), true, k⟩
  | take (t : θ) (x : Option (θ × Stage)) (c : Bool) (k k' : θ × Holding → ℕ) :
      Moves k k' (some (t, .queued)) (some (t, .dispatched)) →
      CallStep p stop ⟨x, c, k⟩ [.run t] ⟨x, c, k'⟩
  | finish (t : θ) (x : Option (θ × Stage)) (c : Bool) (k k' : θ × Holding → ℕ) :
      Moves k k' (some (t, .dispatched)) (some (t, .cleaned)) →
      CallStep p stop ⟨x, c, k⟩ [.finish] ⟨x, c, k'⟩
  | drop (t : θ) (x : Option (θ × Stage)) (c : Bool) (k k' : θ × Holding → ℕ) : stop t = true →
      Moves k k' (some (t, .queued)) (some (t, .destroyed)) →
      CallStep p stop ⟨x, c, k⟩ [.destroyed t] ⟨x, c, k'⟩
  | complete (t : θ) (held : Holding) (x : Option (θ × Stage)) (c : Bool)
      (k k' : θ × Holding → ℕ) : held = .cleaned ∨ held = .destroyed →
      Moves k k' (some (t, held)) none →
      CallStep p stop ⟨x, c, k⟩ [.signal] ⟨x, true, k'⟩
  | seen (t : θ) (k : θ × Holding → ℕ) :
      CallStep p stop ⟨some (t, .awaiting), true, k⟩ [] ⟨some (t, .completed), true, k⟩
  | rest (t : θ) (c : Bool) (k : θ × Holding → ℕ) :
      CallStep p stop ⟨some (t, .completed), c, k⟩ [] ⟨some (t, .awaiting), c, k⟩
  | exit (t : θ) (c : Bool) (k : θ × Holding → ℕ) :
      CallStep p stop ⟨some (t, .awaiting), true, k⟩ [.exit] ⟨none, c, k⟩
  | exitCompleted (t : θ) (c : Bool) (k : θ × Holding → ℕ) :
      CallStep p stop ⟨some (t, .completed), c, k⟩ [.exit] ⟨none, c, k⟩

theorem callView_setClient_self (s : State θ ι α) (p : Party θ ι) (c : Client θ α) :
    (s.setClient p c).callView p = ⟨c.stage, s.completion p, s.tokens p⟩ := by
  simp only [State.callView, State.setClient, Function.update_self]
  rfl

theorem callView_setClient_of_ne (s : State θ ι α) {p p' : Party θ ι} (c : Client θ α)
    (h : p ≠ p') : (s.setClient p' c).callView p = s.callView p := by
  simp only [State.callView, State.setClient, Function.update_of_ne h]
  rfl

theorem callView_setCompletion_of_ne (s : State θ ι α) {p p' : Party θ ι} (b : Bool)
    (h : p ≠ p') : (s.setCompletion p' b).callView p = s.callView p := by
  simp only [State.callView, State.setCompletion, Function.update_of_ne h]
  rfl

theorem calls_call_of_ne {p p' : Party θ ι} (h : p ≠ p') (e : CallEvent θ) :
    calls p ([.call p' e] : List (Observation θ ι α)) = [] := by
  simp [calls, Observation.ofCall, h.symm]

theorem calls_call_self (p : Party θ ι) (e : CallEvent θ) :
    calls p ([.call p e] : List (Observation θ ι α)) = [e] := by
  simp [calls, Observation.ofCall]

@[simp] theorem calls_append (p : Party θ ι) (h h' : List (Observation θ ι α)) :
    calls p (h ++ h') = calls p h ++ calls p h' :=
  List.filterMap_append

@[simp] theorem calls_map_queue (p : Party θ ι) (t : θ) (es : List (Event θ ι α)) :
    calls p (es.map (.queue t)) = [] := by
  rw [calls, List.filterMap_eq_nil_iff]
  intro o ho
  obtain ⟨e, -, rfl⟩ := List.mem_map.mp ho
  rfl

/-! ## Lambdas in the message queue -/

theorem callsOf_append (p : Party θ ι) (messages messages' : List (Task θ ι α)) :
    callsOf p (messages ++ messages') = callsOf p messages + callsOf p messages' :=
  List.countP_append

theorem callsOf_cons (p : Party θ ι) (task : Task θ ι α) (messages : List (Task θ ι α)) :
    callsOf p (task :: messages) = callsOf p [task] + callsOf p messages :=
  callsOf_append p [task] messages

@[simp] theorem callsOf_nil (p : Party θ ι) : callsOf p ([] : List (Task θ ι α)) = 0 := rfl

@[simp] theorem callsOf_run (p : Party θ ι) (task : α) :
    callsOf p ([.run task] : List (Task θ ι α)) = 0 := rfl

@[simp] theorem callsOf_call_self (p : Party θ ι) :
    callsOf p ([.call p] : List (Task θ ι α)) = 1 := by
  simp [callsOf, Task.isCallOf]

theorem callsOf_call_of_ne {p p' : Party θ ι} (h : p ≠ p') :
    callsOf p ([.call p'] : List (Task θ ι α)) = 0 := by
  simp [callsOf, Task.isCallOf, h.symm]

/-- `Get` moves no lambda into `messages_`, and takes at most the front one out. -/
theorem Queue.Got.callsOf {q q' : Queue θ ι α} {msCurrent cmsDelayNext : ℤ}
    {task : Option (Task θ ι α)} {out : List (Event θ ι α)}
    (hg : q.Got msCurrent cmsDelayNext task q' out) (p : Party θ ι) :
    Thread.callsOf p q.messages = Thread.callsOf p task.toList + Thread.callsOf p q'.messages := by
  obtain ⟨ds, hmoves, -⟩ := hg.moves
  have hdelayed : Thread.callsOf p
      (ds.map (fun d => .run d.functor) : List (Task θ ι α)) = 0 := by
    refine List.countP_eq_zero.mpr ?_
    intro task htask
    obtain ⟨d, -, rfl⟩ := List.mem_map.mp htask
    simp [Task.isCallOf]
  rw [← callsOf_append, ← hmoves, callsOf_append, hdelayed, Nat.add_zero]

/-- Once the call is completed, the lambda is gone. -/
theorem holds_cleaned (p : Party θ ι) (q : Queue θ ι α) (loop : Loop) (c : Cleanup θ ι)
    (d : Destroyer θ ι) (k : Holding) :
    holds p q (c.next.elim (.nextGet loop) (.cleaning loop)) d k = holds p q .outside d k := by
  rcases c with (_ | _) | _ <;> cases k <;> rfl

theorem holds_destroyed (p : Party θ ι) (q : Queue θ ι α) (o : Owner θ ι α) (c : Cleanup θ ι)
    (k : Holding) :
    holds p q o (c.next.elim .destroying .cleaning) k = holds p q o .destroying k := by
  rcases c with (_ | _) | _ <;> cases k <;> rfl

/-! ## One step -/

/-- A thread that is being destroyed is quitting. -/
def DestroyedQuitting (s : State θ ι α) : Prop := ∀ t, s.destroyers t ≠ .absent → s.stop t = true

theorem DestroyedQuitting.step {s s' : State θ ι α} {a : Action θ ι α}
    {out : List (Observation θ ι α)} (hs : DestroyedQuitting s) (h : s.step a = some (s', out)) :
    DestroyedQuitting s' := by
  intro t hd
  by_cases hd₀ : s.destroyers t = .absent
  · -- the destruction has just begun
    have hupdate : ∀ t' d, s.destroyers t' ≠ .absent ∨ s.stop t' = true →
        Function.update s.destroyers t' d t ≠ .absent → s.stop t = true := by
      intro t' d ht' hu
      rcases eq_or_ne t t' with rfl | hne
      · exact ht'.resolve_left (fun hd' => hd' hd₀)
      · rw [Function.update_of_ne hne] at hu
        exact absurd hd₀ hu
    cases step_cases h with
    | destroy hc ho hd' hs => exact hupdate _ _ (.inr hs) hd
    | discardCall hd' => exact hupdate _ _ (.inl (by simp [hd'])) hd
    | @destroyerCleaning t' c hd' => cases c <;> exact hupdate _ _ (.inl (by simp [hd'])) hd
    | startCall c => cases c <;> exact absurd hd₀ hd
    | @refuse p t' post => cases post <;> exact absurd hd₀ hd
    | @cleaning t' loop c => cases c <;> exact absurd hd₀ hd
    | _ => exact absurd hd₀ hd
  · rw [stop_step h, hs t hd₀, Bool.true_or]

/-- Nothing changes for the party `p`. -/
theorem callStep_same {s s' : State θ ι α} {out : List (Observation θ ι α)} {p : Party θ ι}
    (hview : s'.callView p = s.callView p) (hout : calls p out = []) :
    CallStep p s.stop (s.callView p) (calls p out) (s'.callView p) := by
  rw [hview, hout]
  exact .same _

/-- Another party moves. -/
theorem callStep_other {s r : State θ ι α} {out : List (Observation θ ι α)} {p p' : Party θ ι}
    {c : Client θ α} (hne : p ≠ p') (hview : r.callView p = s.callView p)
    (hout : calls p out = []) :
    CallStep p s.stop (s.callView p) (calls p out) ((r.setClient p' c).callView p) :=
  callStep_same ((callView_setClient_of_ne r c hne).trans hview) hout

/-- A party moves to a place that is the same stage of its call. -/
theorem callStep_stay {s r : State θ ι α} {out : List (Observation θ ι α)} {p p' : Party θ ι}
    {c₀ c : Client θ α} (hi : s.clients p' = c₀) (hstage : c.stage = c₀.stage)
    (hview : r.callView p = s.callView p) (hout : calls p out = []) :
    CallStep p s.stop (s.callView p) (calls p out) ((r.setClient p' c).callView p) := by
  rcases eq_or_ne p p' with rfl | hne
  · refine callStep_same ?_ hout
    rw [callView_setClient_self, hstage, ← hi]
    simp only [State.callView, CallView.mk.injEq] at hview ⊢
    exact ⟨trivial, hview.2⟩
  · exact callStep_other hne hview hout

/-- One thread moves, and what it holds of `p` stays the same. -/
theorem callStep_hold {s s' : State θ ι α} {out : List (Observation θ ι α)} {p : Party θ ι} (t : θ)
    (hother : ∀ t', t' ≠ t → s'.queues t' = s.queues t' ∧ s'.owners t' = s.owners t' ∧
      s'.destroyers t' = s.destroyers t')
    (hhere : ∀ k, holds p (s'.queues t) (s'.owners t) (s'.destroyers t) k =
      holds p (s.queues t) (s.owners t) (s.destroyers t) k)
    (hclients : s'.clients = s.clients) (hcompletion : s'.completion p = s.completion p)
    (hout : calls p out = []) :
    CallStep p s.stop (s.callView p) (calls p out) (s'.callView p) := by
  refine callStep_same ?_ hout
  rw [State.callView, tokens_of_holds t hother hhere, hclients, hcompletion]
  rfl

/-- The owner of a thread moves, and holds no lambda of `p` before and after. -/
theorem callStep_walk {s r : State θ ι α} {out : List (Observation θ ι α)} {p : Party θ ι} {t : θ}
    {o₀ o : Owner θ ι α} (ho : s.owners t = o₀)
    (hr : r.owners = s.owners ∧ r.queues = s.queues ∧ r.destroyers = s.destroyers ∧
      r.clients = s.clients ∧ r.completion = s.completion)
    (hholds : ∀ q d k, holds p q o d k = holds p q o₀ d k) (hout : calls p out = []) :
    CallStep p s.stop (s.callView p) (calls p out) ((r.setOwner t o).callView p) := by
  obtain ⟨howners, hqueues, hdestroyers, hclients, hcompletion⟩ := hr
  refine callStep_hold t (fun t' hne => ?_) (fun k => ?_) hclients (congrFun hcompletion p) hout
  · simp [State.setOwner, howners, hqueues, hdestroyers, Function.update_of_ne hne]
  · simp only [State.setOwner, howners, hqueues, hdestroyers, Function.update_self, ho]
    exact hholds _ _ k

/-! ### The parties -/

theorem callStep_startCall {s : State θ ι α} {p' : Party θ ι} (c : Call θ α)
    (hi : s.clients p' = .idle) (p : Party θ ι) :
    CallStep p s.stop (s.callView p) (calls p (s.call p' c).2) ((s.call p' c).1.callView p) := by
  cases c with
  | postTask t task => exact callStep_stay hi rfl rfl rfl
  | postDelayedTask t task delay => exact callStep_stay hi rfl rfl rfl
  | quit t => exact callStep_stay (r := s.setStop t) hi rfl rfl rfl
  | blockingCall t =>
    rcases eq_or_ne p p' with rfl | hne
    · simp only [State.call, callView_setClient_self, calls_call_self]
      simp only [State.callView, hi]
      exact .enter t _ _
    · exact callStep_other hne rfl (calls_call_of_ne hne _)

theorem callStep_refuse {s : State θ ι α} {p' : Party θ ι} {t : θ} {post : Post α}
    (hi : s.clients p' = .postTest t post) (hstop : s.stop t = true) (p : Party θ ι) :
    CallStep p s.stop (s.callView p) (calls p (s.refuse p' t post).2)
      ((s.refuse p' t post).1.callView p) := by
  cases post with
  | task task => exact callStep_stay hi rfl rfl rfl
  | blockingCall =>
    rcases eq_or_ne p p' with rfl | hne
    · simp only [State.refuse, callView_setClient_self, calls_call_self]
      simp only [State.callView, hi]
      exact .refuse t _ _ hstop
    · exact callStep_other hne rfl (calls_call_of_ne hne _)

theorem callStep_postTask {s : State θ ι α} {p' : Party θ ι} {t : θ} {post : Post α}
    (hi : s.clients p' = .postPush t post) (p : Party θ ι) :
    CallStep p s.stop (s.callView p)
      (calls p (.queue t (.post (post.toTask p')) :: post.seen p' t))
      (((s.setQueue t ((s.queues t).postTask (post.toTask p')).1).setClient p'
        (.postWakeUp t post.isBlockingCall)).callView p) := by
  have hqueue : callsOf p [post.toTask p'] = 0 →
      (s.setQueue t ((s.queues t).postTask (post.toTask p')).1).callView p = s.callView p := by
    intro hzero
    simp only [State.callView, CallView.mk.injEq]
    refine ⟨rfl, rfl, tokens_of_holds t (fun t' hne => ?_) fun k => ?_⟩
    · simp [State.setQueue, Function.update_of_ne hne]
    · cases k <;> simp [State.setQueue, holds, Queue.postTask, callsOf_append, hzero]
  cases post with
  | task task => exact callStep_stay hi rfl (hqueue rfl) rfl
  | blockingCall =>
    rcases eq_or_ne p p' with rfl | hne
    · have hcalls : calls p (.queue t (.post (.call p)) :: [.call p (.post t)] :
          List (Observation θ ι α)) = [.post t] := calls_call_self p (.post t)
      rw [callView_setClient_self]
      simp only [Post.seen, Post.toTask, hcalls]
      simp only [State.callView, hi]
      refine .post t _ _ _ (moves_of_holds none (some .queued) (fun t' hne => ?_) fun k => ?_)
      · simp [State.setQueue, Function.update_of_ne hne]
      · cases k <;> simp [State.setQueue, holds, Queue.postTask, callsOf_append]
    · exact callStep_other hne (hqueue (callsOf_call_of_ne hne)) (calls_call_of_ne hne (.post t))

/-- What a step of one party is to a party. -/
theorem callStep_client {s s' : State θ ι α} {p' : Party θ ι} {out : List (Observation θ ι α)}
    (h : Moved s (.client p') (s', out)) (p : Party θ ι) :
    CallStep p s.stop (s.callView p) (calls p out) (s'.callView p) := by
  cases h with
  | refuse hi hstop => exact callStep_refuse hi hstop p
  | @accept _ t post hi => cases post <;> exact callStep_stay hi rfl rfl rfl
  | postTask hi => exact callStep_postTask hi p
  | delayedTest c hi hnext =>
    exact callStep_stay hi (by rcases hnext with rfl | rfl <;> rfl) rfl rfl
  | delayedClock _ _ hi => exact callStep_stay hi rfl rfl rfl
  | @postDelayedTask _ t task _ _ hi =>
    refine callStep_stay hi rfl ?_ rfl
    simp only [State.callView, CallView.mk.injEq]
    refine ⟨rfl, rfl, tokens_of_holds t (fun t' hne => ?_) fun k => ?_⟩
    · simp [State.setQueue, Function.update_of_ne hne]
    · cases k <;> simp [State.setQueue, holds, Queue.postDelayedTask]
  | posted hi => exact callStep_stay (r := s.setSignal _ true) hi rfl rfl rfl
  | @postedCall _ t hi =>
    exact callStep_stay (r := s.setSignal t true) hi (by cases p' <;> rfl) rfl rfl
  | quit hi => exact callStep_stay (r := s.setSignal _ true) hi rfl rfl rfl
  | @callQuitting _ t hi hstop =>
    rcases eq_or_ne p p' with rfl | hne
    · simp only [callView_setClient_self, calls_call_self]
      simp only [State.callView, hi]
      exact .giveUp t _ _ hstop
    · exact callStep_other hne rfl (calls_call_of_ne hne _)
  | @callInPlace _ t hi hstop hp =>
    rcases eq_or_ne p p' with rfl | hne
    · have hcalls : calls p ([.call p (.run t), .call p .finish, .call p .exit] :
          List (Observation θ ι α)) = [.run t, .finish, .exit] := by
        simp [calls, Observation.ofCall]
      rw [callView_setClient_self, hcalls]
      simp only [State.callView, hi]
      exact .inPlace t _ _ hp
    · exact callStep_other hne rfl (by simp [calls, Observation.ofCall, hne.symm])
  | @callPost _ t hi hstop hp =>
    rcases eq_or_ne p p' with rfl | hne
    · rw [callView_setClient_self]
      simp only [State.callView, hi, State.setCompletion, Function.update_self]
      exact .prepare t _ _ hp
    · exact callStep_other hne (callView_setCompletion_of_ne s false hne) rfl
  | @refused _ t hi =>
    rcases eq_or_ne p p' with rfl | hne
    · rw [callView_setClient_self, calls_call_self]
      simp only [State.callView, hi, State.setCompletion, Function.update_self]
      cases p with
      | thread own => exact .completeRefused t _ _ _ (.inl rfl)
      | other i => exact .completeRefused t _ _ _ (.inr rfl)
    · exact callStep_other hne (callView_setCompletion_of_ne s true hne) (calls_call_of_ne hne _)
  | @refusedWakeUp own t hi =>
    rcases eq_or_ne p (.thread own) with rfl | hne
    · rw [callView_setClient_self]
      simp only [State.callView, hi]
      exact .rest t _ _
    · exact callStep_other (r := s.setSignal own true) hne rfl rfl
  | @ready _ t hi hready =>
    rcases eq_or_ne p p' with rfl | hne
    · rw [callView_setClient_self, calls_call_self]
      simp only [State.callView, hi, hready]
      exact .exit t _ _
    · exact callStep_other hne rfl (calls_call_of_ne hne _)
  | @readyWaited _ t hi hready =>
    rcases eq_or_ne p p' with rfl | hne
    · rw [callView_setClient_self]
      simp only [State.callView, hi, hready]
      exact .seen t _
    · exact callStep_other hne rfl rfl
  | notReady hi => exact callStep_stay hi rfl rfl rfl
  | callWoken hi => exact callStep_stay (r := s.setSignal _ false) hi rfl rfl rfl
  | @callWakeUp own t hi =>
    rcases eq_or_ne p (.thread own) with rfl | hne
    · rw [callView_setClient_self, calls_call_self]
      simp only [State.callView, hi]
      exact .exitCompleted t _ _
    · exact callStep_other (r := s.setSignal own true) hne rfl (calls_call_of_ne hne _)
  | @done _ t hi hready =>
    rcases eq_or_ne p p' with rfl | hne
    · rw [callView_setClient_self, calls_call_self]
      simp only [State.callView, hi, hready]
      exact .exit t _ _
    · exact callStep_other hne (callView_setCompletion_of_ne s false hne) (calls_call_of_ne hne _)

/-! ### The owners -/

theorem callStep_take {s : State θ ι α} {t : θ} {loop : Loop} {g : GetFrame} {cmsDelayNext : ℤ}
    {task : Task θ ι α} {q : Queue θ ι α} {out : List (Event θ ι α)}
    (ho : s.owners t = .takeLock loop g)
    (hg : (s.queues t).get g.msCurrent = ((cmsDelayNext, some task), q, out)) (p : Party θ ι) :
    CallStep p s.stop (s.callView p) (calls p (out.map (.queue t) ++ task.starts t))
      (((s.setQueue t q).setOwner t (.dispatching loop task)).callView p) := by
  have hcalls := (Queue.get_spec hg).callsOf p
  rw [Option.toList_some] at hcalls
  have hother : ∀ t', t' ≠ t → Function.update s.queues t q t' = s.queues t' ∧
      Function.update s.owners t (.dispatching loop task) t' = s.owners t' ∧
      s.destroyers t' = s.destroyers t' := fun t' hne =>
    ⟨Function.update_of_ne hne .., Function.update_of_ne hne .., rfl⟩
  have hquiet : callsOf p [task] = 0 → calls p (task.starts t : List (Observation θ ι α)) = [] →
      CallStep p s.stop (s.callView p) (calls p (out.map (.queue t) ++ task.starts t))
        (((s.setQueue t q).setOwner t (.dispatching loop task)).callView p) := by
    intro hzero hstarts
    refine callStep_hold t hother (fun k => ?_) rfl rfl
      (by rw [calls_append, calls_map_queue, hstarts]; rfl)
    cases k <;> simp [State.setQueue, State.setOwner, holds, ho, hcalls, hzero]
  cases task with
  | run task => exact hquiet rfl rfl
  | call p' =>
    rcases eq_or_ne p p' with rfl | hne
    · rw [callsOf_call_self] at hcalls
      rw [calls_append, calls_map_queue, List.nil_append]
      simp only [Task.starts, calls_call_self]
      refine .take t _ _ _ _ (moves_of_holds (some .queued) (some .dispatched) hother fun k => ?_)
      cases k <;> simp [State.setQueue, State.setOwner, holds, ho, hcalls]
      omega
    · exact hquiet (callsOf_call_of_ne hne) (calls_call_of_ne hne _)

theorem callStep_cleaning {s : State θ ι α} {t : θ} {loop : Loop} {c : Cleanup θ ι}
    (ho : s.owners t = .cleaning loop c) (p : Party θ ι) :
    CallStep p s.stop (s.callView p) (calls p (s.cleanup c).2)
      (((s.cleanup c).1.setOwner t (c.next.elim (.nextGet loop) (.cleaning loop))).callView p) := by
  have hother : ∀ o t', t' ≠ t → s.queues t' = s.queues t' ∧
      Function.update s.owners t o t' = s.owners t' ∧ s.destroyers t' = s.destroyers t' :=
    fun o t' hne => ⟨rfl, Function.update_of_ne hne .., rfl⟩
  cases c with
  | complete p' =>
    rcases eq_or_ne p p' with rfl | hne
    · simp only [State.cleanup, calls_call_self]
      have hcompletion : (s.setCompletion p true).completion p = true := Function.update_self ..
      simp only [State.callView, State.setOwner, hcompletion]
      refine .complete t .cleaned _ _ _ _ (.inl rfl)
        (moves_of_holds (some .cleaned) none (hother _) fun k => ?_)
      simp only [Function.update_self, holds_cleaned, ho]
      cases k <;> simp [holds, Cleanup.completes, State.setCompletion]
    · refine callStep_hold t (hother _) (fun k => ?_) rfl (Function.update_of_ne hne ..)
        (calls_call_of_ne hne _)
      simp only [State.setOwner, Function.update_self, holds_cleaned, ho]
      cases k <;> simp [holds, Cleanup.completes, hne.symm, State.cleanup, State.setCompletion]
  | wakeUp own =>
    exact callStep_walk (r := s.setSignal own true) ho ⟨rfl, rfl, rfl, rfl, rfl⟩
      (fun q d k => by cases k <;> rfl) rfl

/-- What a step of the owner of a thread is to a party. -/
theorem callStep_owner {s s' : State θ ι α} {t : θ} {out : List (Observation θ ι α)}
    (h : Moved s (.owner t) (s', out)) (p : Party θ ι) :
    CallStep p s.stop (s.callView p) (calls p out) (s'.callView p) := by
  cases h with
  | enterGet _ ho | quitting _ ho | notQuitting _ ho | enterWait _ ho | dispatched _ ho =>
    exact callStep_walk ho ⟨rfl, rfl, rfl, rfl, rfl⟩ (fun q d k => by cases k <;> rfl) rfl
  | woken _ ho =>
    exact callStep_walk (r := s.setSignal t false) ho ⟨rfl, rfl, rfl, rfl, rfl⟩
      (fun q d k => by cases k <;> rfl) rfl
  | readClock o _ ho hnext =>
    refine callStep_walk ho ⟨rfl, rfl, rfl, rfl, rfl⟩ (fun q d k => ?_) rfl
    rcases hnext with rfl | rfl <;> cases k <;> rfl
  | nextGet o _ ho hnext =>
    refine callStep_walk ho ⟨rfl, rfl, rfl, rfl, rfl⟩ (fun q d k => ?_) rfl
    rcases hnext with rfl | ⟨_, rfl⟩ <;> cases k <;> rfl
  | take _ ho hg => exact callStep_take ho hg p
  | @empty _ loop g cms q out' _ ho hg =>
    have hcalls := (Queue.get_spec hg).callsOf p
    refine callStep_hold t (fun t' hne => ?_) (fun k => ?_) rfl rfl (calls_map_queue p t out')
    · simp [State.setQueue, State.setOwner, Function.update_of_ne hne]
    · cases k <;> simp [State.setQueue, State.setOwner, holds, ho, hcalls]
  | @dispatchedCall _ loop p' _ ho =>
    rcases eq_or_ne p p' with rfl | hne
    · rw [calls_call_self]
      refine .finish t _ _ _ _ (moves_of_holds (some .dispatched) (some .cleaned)
        (fun t' hne => ?_) fun k => ?_)
      · simp [State.setOwner, Function.update_of_ne hne]
      · cases k <;> simp [State.setOwner, holds, ho, Cleanup.completes]
    · refine callStep_walk ho ⟨rfl, rfl, rfl, rfl, rfl⟩ (fun q d k => ?_) (calls_call_of_ne hne _)
      cases k <;> simp [holds, callsOf_call_of_ne hne, Cleanup.completes, hne.symm]
  | cleaning _ ho => exact callStep_cleaning ho p

/-! ### The destruction -/

theorem callStep_discardCall {s : State θ ι α} {t : θ} {p' : Party θ ι} {rest : List (Task θ ι α)}
    (hdestroyed : DestroyedQuitting s) (hd : s.destroyers t = .destroying)
    (hq : (s.queues t).messages = .call p' :: rest) (p : Party θ ι) :
    CallStep p s.stop (s.callView p)
      (calls p ([.queue t (.discard (.call p')), .call p' (.destroyed t)] :
        List (Observation θ ι α)))
      (((s.setQueue t { s.queues t with messages := rest }).setDestroyer t
        (.cleaning (.complete p'))).callView p) := by
  have hother : ∀ t', t' ≠ t →
      Function.update s.queues t { s.queues t with messages := rest } t' = s.queues t' ∧
      s.owners t' = s.owners t' ∧
      Function.update s.destroyers t (.cleaning (.complete p')) t' = s.destroyers t' :=
    fun t' hne => ⟨Function.update_of_ne hne .., rfl, Function.update_of_ne hne ..⟩
  have hcons : callsOf p (s.queues t).messages =
      callsOf p ([.call p'] : List (Task θ ι α)) + callsOf p rest := by
    rw [hq, callsOf_cons]
  rcases eq_or_ne p p' with rfl | hne
  · have hcalls : calls p (.queue t (.discard (.call p)) :: [.call p (.destroyed t)] :
        List (Observation θ ι α)) = [.destroyed t] := calls_call_self p (.destroyed t)
    rw [hcalls]
    refine .drop t _ _ _ _ (hdestroyed t (by simp [hd]))
      (moves_of_holds (some .queued) (some .destroyed) hother fun k => ?_)
    cases k <;> simp [State.setQueue, State.setDestroyer, holds, hd, hcons, Cleanup.completes]
    omega
  · refine callStep_hold t hother (fun k => ?_) rfl rfl (calls_call_of_ne hne _)
    cases k <;> simp [State.setQueue, State.setDestroyer, holds, hd, hcons, Cleanup.completes,
      callsOf_call_of_ne hne, hne.symm]

theorem callStep_destroyerCleaning {s : State θ ι α} {t : θ} {c : Cleanup θ ι}
    (hd : s.destroyers t = .cleaning c) (p : Party θ ι) :
    CallStep p s.stop (s.callView p) (calls p (s.cleanup c).2)
      (((s.cleanup c).1.setDestroyer t (c.next.elim .destroying .cleaning)).callView p) := by
  have hother : ∀ d t', t' ≠ t → s.queues t' = s.queues t' ∧ s.owners t' = s.owners t' ∧
      Function.update s.destroyers t d t' = s.destroyers t' :=
    fun d t' hne => ⟨rfl, rfl, Function.update_of_ne hne ..⟩
  cases c with
  | complete p' =>
    rcases eq_or_ne p p' with rfl | hne
    · simp only [State.cleanup, calls_call_self]
      have hcompletion : (s.setCompletion p true).completion p = true := Function.update_self ..
      simp only [State.callView, State.setDestroyer, hcompletion]
      refine .complete t .destroyed _ _ _ _ (.inr rfl)
        (moves_of_holds (some .destroyed) none (hother _) fun k => ?_)
      simp only [Function.update_self, holds_destroyed, hd]
      cases k <;> simp [holds, Cleanup.completes, State.setCompletion]
    · refine callStep_hold t (hother _) (fun k => ?_) rfl (Function.update_of_ne hne ..)
        (calls_call_of_ne hne _)
      simp only [State.setDestroyer, Function.update_self, holds_destroyed, hd]
      cases k <;> simp [holds, Cleanup.completes, hne.symm, State.cleanup, State.setCompletion]
  | wakeUp own =>
    refine callStep_hold t (hother _) (fun k => ?_) rfl rfl rfl
    simp only [State.setDestroyer, Function.update_self, holds_destroyed, hd]
    cases k <;> simp [holds, Cleanup.completes, State.cleanup, State.setSignal]

/-- What a step of the destruction of a thread is to a party. -/
theorem callStep_destroyer {s s' : State θ ι α} {t : θ} {out : List (Observation θ ι α)}
    (hdestroyed : DestroyedQuitting s) (h : Moved s (.destroyer t) (s', out)) (p : Party θ ι) :
    CallStep p s.stop (s.callView p) (calls p out) (s'.callView p) := by
  cases h with
  | @discard _ task rest hd hq =>
    have hcons : callsOf p (s.queues t).messages = callsOf p rest := by
      rw [hq, callsOf_cons, callsOf_run, Nat.zero_add]
    refine callStep_hold t (fun t' hne => ?_) (fun k => ?_) rfl rfl rfl
    · simp [State.setQueue, Function.update_of_ne hne]
    · cases k <;> simp [State.setQueue, holds, hcons]
  | discardCall hd hq => exact callStep_discardCall hdestroyed hd hq p
  | dropDelayed hd hq =>
    have hcalls : calls p ((s.queues t).delayedMessages.items.map fun message =>
        .queue t (.drop message) : List (Observation θ ι α)) = [] := by
      rw [calls, List.filterMap_eq_nil_iff]
      intro o ho
      obtain ⟨d, -, rfl⟩ := List.mem_map.mp ho
      rfl
    refine callStep_hold t (fun t' hne => ?_) (fun k => ?_) rfl rfl hcalls
    · simp [State.setQueue, Function.update_of_ne hne]
    · cases k <;> simp [State.setQueue, holds, hq]
  | destroyerCleaning hd => exact callStep_destroyerCleaning hd p

/-- What one step of the system is to one party. -/
theorem callStep {s s' : State θ ι α} {a : Action θ ι α} {out : List (Observation θ ι α)}
    (hdestroyed : DestroyedQuitting s)
    (h : s.step a = some (s', out)) (p : Party θ ι) :
    CallStep p s.stop (s.callView p) (calls p out) (s'.callView p) := by
  have hmoved := step_cases h
  cases a with
  | client p' => exact callStep_client hmoved p
  | owner t => exact callStep_owner hmoved p
  | destroyer t => exact callStep_destroyer hdestroyed hmoved p
  | tick dt =>
    cases hmoved
    exact callStep_same rfl rfl
  | call p' c =>
    cases hmoved with
    | startCall _ hi => exact callStep_startCall c hi p
  | processMessages t cmsLoop =>
    cases hmoved with
    | processMessages _ _ _ ho =>
      exact callStep_walk ho ⟨rfl, rfl, rfl, rfl, rfl⟩ (fun q d k => by cases k <;> rfl) rfl
  | timeout t =>
    cases hmoved with
    | timeout _ ho =>
      exact callStep_walk ho ⟨rfl, rfl, rfl, rfl, rfl⟩ (fun q d k => by cases k <;> rfl) rfl
  | fail t =>
    cases hmoved with
    | callFail hi => exact callStep_stay hi rfl rfl rfl
    | fail _ ho =>
      exact callStep_walk ho ⟨rfl, rfl, rfl, rfl, rfl⟩ (fun q d k => by cases k <;> rfl) rfl
  | destroy t =>
    cases hmoved with
    | destroy _ _ hd =>
      refine callStep_hold t (fun t' hne => ?_) (fun k => ?_) rfl rfl rfl
      · simp [State.setDestroyer, Function.update_of_ne hne]
      · cases k <;> simp [State.setDestroyer, holds, hd]

/-! ## The simulation -/

/-- What has been seen of a call, where its party stands, whether it is completed and where its
lambda is. -/
inductive Phase (p : Party θ ι) :
    Option (θ × Stage) → Bool → Option (θ × Holding) → List (CallEvent θ) → Prop
  | idle (c : Bool) : Phase p none c none []
  | entered (t : θ) (c : Bool) : Phase p (some (t, .entered)) c none [.enter t]
  | posting (t : θ) : p ≠ .thread t → Phase p (some (t, .posting)) false none [.enter t]
  | queued (t : θ) : p ≠ .thread t →
      Phase p (some (t, .awaiting)) false (some (t, .queued)) [.enter t, .post t]
  | running (t : θ) : p ≠ .thread t →
      Phase p (some (t, .awaiting)) false (some (t, .dispatched)) [.enter t, .post t, .run t]
  | finished (t : θ) : p ≠ .thread t →
      Phase p (some (t, .awaiting)) false (some (t, .cleaned)) [.enter t, .post t, .run t, .finish]
  | dropped (t : θ) : p ≠ .thread t →
      Phase p (some (t, .awaiting)) false (some (t, .destroyed))
        [.enter t, .post t, .destroyed t]
  | refused (t : θ) : p ≠ .thread t →
      Phase p (some (t, .refused)) false none [.enter t, .destroyed t]
  | signalled (t : θ) (seen : List (CallEvent θ)) : CallWord p (seen ++ [.exit]) →
      Phase p (some (t, .awaiting)) true none seen
  | completed (t : θ) (seen : List (CallEvent θ)) : CallWord p (seen ++ [.exit]) →
      Phase p (some (t, .completed)) true none seen

/-- The view of a party is related to what has been seen of the call it is in. -/
def InPhase (p : Party θ ι) (s : State θ ι α) (seen : List (CallEvent θ)) : Prop :=
  ∃ loc, (s.callView p).tokens = one loc ∧
    Phase p (s.callView p).stage (s.callView p).completion loc seen

omit [DecidableEq θ] [DecidableEq ι] in
/-- A call goes on to a course that is not over. -/
theorem path_on {p : Party θ ι} {w : List (CallEvent θ)} (e : CallEvent θ) {e' : CallEvent θ}
    {rest : List (CallEvent θ)} (hword : CallWord p (w ++ [e] ++ e' :: rest)) :
    (Spec.words (CallWord p)).Path w [e] (w ++ [e]) :=
  .single (Spec.words_step e (List.cons_ne_nil e' rest) hword)

omit [DecidableEq ι] in
/-- **One step** keeps a party in phase. -/
theorem Phase.step {p : Party θ ι} {stop : θ → Bool} {v v' : CallView θ}
    {es seen : List (CallEvent θ)} {loc : Option (θ × Holding)}
    (hphase : Phase p v.stage v.completion loc seen) (hloc : v.tokens = one loc)
    (h : CallStep p stop v es v') :
    ∃ seen' loc', v'.tokens = one loc' ∧ Phase p v'.stage v'.completion loc' seen' ∧
      (Spec.words (CallWord p)).Path seen es seen' := by
  cases h with
  | same => exact ⟨seen, loc, hloc, hphase, .nil _⟩
  | enter t c k =>
    cases hphase with
    | idle => exact ⟨_, none, hloc, .entered t c, path_on _ (.quitting t)⟩
  | giveUp t c k =>
    cases hphase with
    | entered => exact ⟨[], none, hloc, .idle c, .single (Spec.words_last _ (.quitting t))⟩
  | inPlace t c k hp =>
    cases hphase with
    | entered =>
      refine ⟨[], none, hloc, .idle c, ?_⟩
      have hrun := path_on (.run t) (w := [.enter t]) (.inPlace t hp)
      have hfinish := path_on .finish (w := [.enter t, .run t]) (.inPlace t hp)
      exact (hrun.append hfinish).append (.single (Spec.words_last _ (.inPlace t hp)))
  | prepare t c k hp =>
    cases hphase with
    | entered => exact ⟨_, none, hloc, .posting t hp, .nil _⟩
  | post t c k k' hm =>
    cases hphase with
    | posting _ hp =>
      obtain rfl : k = one none := hloc
      exact ⟨_, _, hm.appear, .queued t hp, path_on _ (.ran t hp)⟩
  | refuse t c k hstop =>
    cases hphase with
    | posting _ hp => exact ⟨_, none, hloc, .refused t hp, path_on _ (.refused t hp)⟩
  | completeRefused t c k stage hstage =>
    cases hphase with
    | refused _ hp =>
      refine ⟨_, none, hloc, ?_, path_on _ (.refused t hp)⟩
      rcases hstage with rfl | rfl
      · exact .completed t _ (.refused t hp)
      · exact .signalled t _ (.refused t hp)
  | take t x c k k' hm =>
    obtain rfl : k = one loc := hloc
    obtain ⟨rfl, hk'⟩ := hm.leave (by simp)
    cases hphase with
    | queued _ hp => exact ⟨_, _, hk', .running t hp, path_on _ (.ran t hp)⟩
  | finish t x c k k' hm =>
    obtain rfl : k = one loc := hloc
    obtain ⟨rfl, hk'⟩ := hm.leave (by simp)
    cases hphase with
    | running _ hp => exact ⟨_, _, hk', .finished t hp, path_on _ (.ran t hp)⟩
  | drop t x c k k' hstop hm =>
    obtain rfl : k = one loc := hloc
    obtain ⟨rfl, hk'⟩ := hm.leave (by simp)
    cases hphase with
    | queued _ hp => exact ⟨_, _, hk', .dropped t hp, path_on _ (.dropped t hp)⟩
  | complete t held x c k k' hheld hm =>
    obtain rfl : k = one loc := hloc
    obtain ⟨rfl, hk'⟩ := hm.leave (by simp)
    rcases hheld with rfl | rfl
    · cases hphase with
      | finished _ hp =>
        exact ⟨_, _, hk', .signalled t _ (.ran t hp), path_on _ (.ran t hp)⟩
    · cases hphase with
      | dropped _ hp =>
        exact ⟨_, _, hk', .signalled t _ (.dropped t hp), path_on _ (.dropped t hp)⟩
  | seen t k =>
    cases hphase with
    | signalled _ _ hw => exact ⟨_, none, hloc, .completed t _ hw, .nil _⟩
  | rest t c k =>
    cases hphase with
    | completed _ _ hw => exact ⟨_, none, hloc, .signalled t _ hw, .nil _⟩
  | exit t c k =>
    cases hphase with
    | signalled _ _ hw => exact ⟨[], none, hloc, .idle c, .single (Spec.words_last _ hw)⟩
  | exitCompleted t c k =>
    cases hphase with
    | completed _ _ hw => exact ⟨[], none, hloc, .idle _, .single (Spec.words_last _ hw)⟩

/-- Seen from one party, the system goes through calls, one after another. -/
theorem simulates (p : Party θ ι) : ((machine θ ι α).view (Observation.ofCall p)).Simulates
    (Spec.words (CallWord p)) fun s seen => DestroyedQuitting s ∧ InPhase p s seen where
  start := by
    rintro _ ⟨clock, rfl⟩
    refine ⟨[], ⟨fun t hd => absurd rfl hd, none, ?_, .idle _⟩, rfl⟩
    funext place
    obtain ⟨t, k⟩ := place
    cases k <;> rfl
  step := by
    rintro s seen a s' out ⟨hd, loc, hloc, hphase⟩ h
    obtain ⟨o, hst, rfl⟩ := Machine.view_step h
    obtain ⟨seen', loc', hloc', hphase', hpath⟩ := hphase.step hloc (callStep hd hst p)
    exact ⟨seen', ⟨hd.step hst, loc', hloc', hphase'⟩, hpath⟩

/-! ## The law -/

omit [DecidableEq ι] in
/-- A functor is given up only on a thread that is quitting. -/
theorem CallStep.quitting {p : Party θ ι} {stop : θ → Bool} {v v' : CallView θ}
    {es : List (CallEvent θ)} (h : CallStep p stop v es v') {t : θ}
    (ht : .giveUp t ∈ es ∨ .destroyed t ∈ es) : stop t = true := by
  cases h with
  | giveUp t' c k hstop => simp_all
  | refuse t' c k hstop => simp_all
  | drop t' x c k k' hstop hm => simp_all
  | _ => simp at ht

theorem call_quitting {h : List (Observation θ ι α)} {s : State θ ι α}
    (hr : (machine θ ι α).Reaches h s) (p : Party θ ι) :
    DestroyedQuitting s ∧
      ∀ t, .giveUp t ∈ calls p h ∨ .destroyed t ∈ calls p h → s.stop t = true := by
  refine hr.induction (fun h s => DestroyedQuitting s ∧
    ∀ t, .giveUp t ∈ calls p h ∨ .destroyed t ∈ calls p h → s.stop t = true) ?_ ?_
  · rintro _ ⟨clock, rfl⟩
    exact ⟨fun t hd => absurd rfl hd, fun t ht => by simp [calls] at ht⟩
  · rintro h s a s' out ⟨hd, hi⟩ - hst
    refine ⟨hd.step hst, ?_⟩
    intro t ht
    have hstop : s.stop t = true := by
      rw [calls_append, List.mem_append, List.mem_append] at ht
      by_cases hold : .giveUp t ∈ calls p h ∨ .destroyed t ∈ calls p h
      · exact hi t hold
      · refine (callStep hd hst p).quitting ?_
        tauto
    rw [stop_step hst, hstop, Bool.true_or]

/-- What a history `h` that leads to the state `s` has to satisfy for the party `p`. -/
structure BlockingCallLaw (p : Party θ ι) (h : List (Observation θ ι α)) (s : State θ ι α) :
    Prop where
  /-- The blocking calls of the party have taken one of the courses each, one after another. One
  more may be under way, and is not if the party is in no blocking call. -/
  courses : ∃ past current, calls p h = List.flatten past ++ current ∧
    (∀ w ∈ past, CallWord p w) ∧ UnderWay (CallWord p) current ∧
      ((s.clients p).stage = none → current = [])
  /-- A functor has not been run only if the thread is quitting. -/
  unrun : ∀ t, .giveUp t ∈ calls p h ∨ .destroyed t ∈ calls p h → s.stop t = true

/-- **The blocking call law**, in every run and for every party. -/
theorem blocking_call_law {h : List (Observation θ ι α)} {s : State θ ι α}
    (hr : (machine θ ι α).Reaches h s) (p : Party θ ι) : BlockingCallLaw p h s := by
  obtain ⟨current, ⟨-, loc, -, hphase⟩, ha⟩ := (simulates p).accepts (hr.view _)
  obtain ⟨hunder, past, hpast, hcalls⟩ := Spec.words_accepts ha
  refine ⟨⟨past, current, hcalls, hpast, hunder, fun hnone => ?_⟩, (call_quitting hr p).2⟩
  simp only [State.callView, hnone] at hphase
  cases hphase with
  | idle => rfl

/-- A thread without an `rtc::Thread` has its functor run, and returns after its completion. -/
theorem blocking_call_law_run : ∃ (h : List (Observation Unit Unit ℕ)) (s : State Unit Unit ℕ),
    (machine Unit Unit ℕ).Reaches h s ∧
    calls (.other ()) h = [.enter (), .post (), .run (), .finish, .signal, .exit] ∧
    BlockingCallLaw (.other ()) h s := by
  obtain ⟨h, s, hex, hcalls⟩ : ∃ h s, (machine Unit Unit ℕ).exec (State.initial 0)
      (Action.call (.other ()) (.blockingCall ()) :: List.replicate 4 (Action.client (.other ())) ++
        Action.processMessages () kForever :: List.replicate 4 (Action.owner ()) ++
        [Action.client (.other ())]) =
        some (s, h) ∧
      calls (.other ()) h = [.enter (), .post (), .run (), .finish, .signal, .exit] :=
    ⟨_, _, rfl, rfl⟩
  have hr : (machine Unit Unit ℕ).Reaches h s := .of_exec ⟨0, rfl⟩ hex
  exact ⟨h, s, hr, hcalls, blocking_call_law hr _⟩

/-- **A call can return without having been completed**: at once if it finds the thread quitting,
and after running its functor in place if the thread is the caller's own. -/
theorem completion_not_signalled :
    (¬ ∀ (h : List (Observation Unit Unit ℕ)) (s : State Unit Unit ℕ),
      (machine Unit Unit ℕ).Reaches h s → (s.clients (.other ())).stage = none →
      (calls (.other ()) h).count .signal = (calls (.other ()) h).count (.enter ())) ∧
    ¬ ∀ (h : List (Observation Unit Unit ℕ)) (s : State Unit Unit ℕ),
      (machine Unit Unit ℕ).Reaches h s → (s.clients (.thread ())).stage = none →
      (calls (.thread ()) h).count .signal = (calls (.thread ()) h).count (.enter ()) := by
  constructor
  · intro hall
    obtain ⟨h, s, hex, hnone, hcalls⟩ : ∃ h s, (machine Unit Unit ℕ).exec (State.initial 0)
        [.call (.other ()) (.quit ()), .client (.other ()), .call (.other ()) (.blockingCall ()),
          .client (.other ())] = some (s, h) ∧ (s.clients (.other ())).stage = none ∧
        calls (.other ()) h = [.enter (), .giveUp ()] := ⟨_, _, rfl, rfl, rfl⟩
    have hcount := hall h s (.of_exec ⟨0, rfl⟩ hex) hnone
    rw [hcalls] at hcount
    exact absurd hcount (by decide)
  · intro hall
    obtain ⟨h, s, hex, hnone, hcalls⟩ : ∃ h s, (machine Unit Unit ℕ).exec (State.initial 0)
        [.call (.thread ()) (.blockingCall ()), .client (.thread ())] = some (s, h) ∧
        (s.clients (.thread ())).stage = none ∧
        calls (.thread ()) h = [.enter (), .run (), .finish, .exit] := ⟨_, _, rfl, rfl, rfl⟩
    have hcount := hall h s (.of_exec ⟨0, rfl⟩ hex) hnone
    rw [hcalls] at hcount
    exact absurd hcount (by decide)

end Tokens

end Thread

end TQLib
