import Mathlib.Data.List.Infix
import TQLib.Foundations.Machine
import TQLib.Units.Time

/-!
# `RepeatingTask`

A task that posts itself again. It is moved into the queue each time, so that at most one of its
instances has the closure, and it remembers when it wanted to run, not when it ran. `Stop` clears a
flag that the task looks at before it calls the closure and after.

The queue may run a posted task at any time, however late, and runs it once. The clock does not go
back.

## Main results

* `schedule_law` — when the closure is called, with which delay the task is posted again, and when
  no more
-/

namespace TQLib

namespace RepeatingTask

/-- An instance of `RepeatingTask`. One that was moved from has neither closure nor flag. -/
structure Instance where
  /-- Whether `task_` has the closure. -/
  task : Bool
  /-- `next_run_time_`. -/
  nextRunTime : Timestamp
  /-- Whether `alive_flag_` points to the flag. -/
  aliveFlag : Bool

/-- The state of one repeating task, of its handle and of the queue. -/
structure State where
  /-- What `Clock::CurrentTime` returns. -/
  clock : Timestamp
  /-- Whether the task has been started. -/
  started : Bool
  /-- `alive_` of the flag. -/
  alive : Bool
  /-- Whether `repeating_task_` of the handle points to the flag. -/
  handle : Bool
  /-- What was posted and did not run, with its delay. -/
  pending : List (Instance × TimeDelta)
  /-- The instance whose closure is being called. -/
  running : Option Instance

/-- Who moves. -/
inductive Action
  /-- The clock shows a later time, or the same. -/
  | tick (now : Timestamp)
  /-- `Start`. -/
  | start
  /-- `DelayedStart`. -/
  | delayedStart (firstDelay : TimeDelta)
  /-- The queue runs what was posted at this place, up to where it calls the closure. -/
  | run (i : ℕ)
  /-- The closure returns, and the task is run to its end. -/
  | returns (delay : TimeDelta)
  /-- `Stop` is called on the queue, by the closure or between two tasks. -/
  | stop

/-- What is observed. -/
inductive Event
  /-- The task is constructed. -/
  | started (now : Timestamp) (firstDelay : TimeDelta)
  /-- The closure is called. -/
  | invoked (nextRunTime : Timestamp)
  /-- The closure has returned; the task has been posted again with a delay, and what the clock
  showed then. -/
  | returned (delay : TimeDelta) (post : Option (Timestamp × TimeDelta))
  | stopped

/-- `RepeatingTask::RepeatingTask`. -/
def Instance.new (now : Timestamp) (firstDelay : TimeDelta) : Instance :=
  { task := true, nextRunTime := now.add firstDelay, aliveFlag := true }

/-- The move constructor: the new instance and what is left of the old one. -/
def Instance.move (r : Instance) : Instance × Instance :=
  (r, { r with task := false, aliveFlag := false })

namespace State

/-- `DelayedStart`. -/
def delayedStart (s : State) (firstDelay : TimeDelta) : State × List Event :=
  ({ s with
      started := true
      alive := true
      handle := true
      pending := s.pending ++ [(.new s.clock firstDelay, firstDelay)] },
    [.started s.clock firstDelay])

/-- `Start`: what it posts is posted without delay. -/
def startNow (s : State) : State × List Event := s.delayedStart .zero

/-- `operator()` up to the call of `task_`: `none` where it would use what was moved away. -/
def beginRun (s : State) (r : Instance) : Option (State × List Event) :=
  if r.aliveFlag then
    if s.alive then
      if r.task then some ({ s with running := some r }, [.invoked r.nextRunTime]) else none
    else some (s, [])
  else none

/-- `operator()` after the call of `task_`. -/
def endRun (s : State) (r : Instance) (delay : TimeDelta) : State × List Event :=
  let s := { s with running := none }
  if delay.isPlusInfinity || !s.alive then (s, [.returned delay none])
  else
    let now := s.clock
    let lostTime := now.sub r.nextRunTime
    let r := { r with nextRunTime := r.nextRunTime.add delay }
    let delay' := delay.sub lostTime
    let delay' := delay'.max .zero
    let (posted, _) := r.move
    ({ s with pending := s.pending ++ [(posted, delay')] }, [.returned delay (some (now, delay'))])

/-- `Stop`. -/
def stop (s : State) : State × List Event :=
  if s.handle then ({ s with alive := false, handle := false }, [.stopped]) else (s, [])

/-- One step. -/
def step (s : State) : Action → Option (State × List Event)
  | .tick now =>
    if s.clock.us ≤ now.us ∧ now.us < TimeDelta.plusInfinityVal then
      some ({ s with clock := now }, [])
    else none
  | .start => if s.started then none else some s.startNow
  | .delayedStart firstDelay => if s.started then none else some (s.delayedStart firstDelay)
  | .run i =>
    match s.running, s.pending[i]? with
    | none, some (r, _) => beginRun { s with pending := s.pending.eraseIdx i } r
    | _, _ => none
  | .returns delay =>
    match s.running with
    | some r => some (s.endRun r delay)
    | none => none
  | .stop => some s.stop

end State

/-- A repeating task as a machine. It starts before the task is constructed. -/
def machine : Machine State Action Event where
  start s := s.clock.InRange ∧ s.started = false ∧ s.handle = false ∧ s.pending = [] ∧
    s.running = none
  step := State.step

/-! ## The schedule -/

/-- By how much an event puts off the next run. -/
def Event.advance : Event → ℤ
  | .started now firstDelay => now.us + firstDelay.us
  | .returned delay _ => if delay.isPlusInfinity then 0 else delay.us
  | _ => 0

/-- When the next run is due: the time of construction, the first delay and all the delays that the
closure has returned. -/
def due (h : List Event) : ℤ := (h.map Event.advance).sum

@[simp] theorem due_nil : due [] = 0 := rfl

@[simp] theorem due_snoc (h : List Event) (e : Event) : due (h ++ [e]) = due h + e.advance := by
  simp [due]

/-- What the closure may return: delays, not negative, that lead to points in time. -/
structure InRange (h : List Event) : Prop where
  due : ∀ h₁, h₁ <+: h → 0 ≤ due h₁ ∧ due h₁ < TimeDelta.plusInfinityVal
  delay : ∀ d post, .returned d post ∈ h → 0 ≤ d.us

theorem InRange.of_append {h h' : List Event} (hin : InRange (h ++ h')) : InRange h where
  due h₁ hpre := hin.due h₁ (hpre.trans (List.prefix_append h h'))
  delay d post hmem := hin.delay d post (List.mem_append_left h' hmem)

/-- Whether a closure that may be called again has returned a delay each time. -/
def Repeats (h : List Event) : Prop := ∀ d post, .returned d post ∈ h → d.isPlusInfinity = false

/-- What may be observed after what: the closure is called when it is due, unless it has returned
infinity or `Stop` was called, and the task is posted again with what is left of the delay. -/
def May (h : List Event) : Event → Prop
  | .invoked nextRunTime => nextRunTime.us = due h ∧ .stopped ∉ h ∧ Repeats h
  | .returned d post =>
    (post = none ↔ d.isPlusInfinity = true ∨ .stopped ∈ h) ∧
      ∀ now delay, post = some (now, delay) → delay.us = max 0 (due h + d.us - now.us)
  | _ => True

/-- The instances that were not moved from. -/
def State.instances (s : State) : List Instance := s.running.toList ++ s.pending.map Prod.fst

/-- An instance that can run. -/
structure Ready (h : List Event) (r : Instance) : Prop where
  task : r.task = true
  aliveFlag : r.aliveFlag = true
  nextRunTime : r.nextRunTime.us = due h
  repeats : Repeats h

/-- What holds between the steps. -/
structure Inv (h : List Event) (s : State) : Prop where
  clock : s.clock.InRange
  fresh : s.started = false → h = [] ∧ s.handle = false ∧ s.instances = []
  /-- There is one instance at most. -/
  one : s.instances.length ≤ 1
  ready : ∀ r ∈ s.instances, Ready h r
  alive : s.started = true → (s.alive = true ↔ .stopped ∉ h)
  law : Along May h

section Steps

variable {h : List Event} {s : State} {r : Instance} {e : Event}

/-- The instances, while none is run, are those in the queue. -/
theorem instances_of_none (hrunning : s.running = none) :
    s.instances = s.pending.map Prod.fst := by
  rw [State.instances, hrunning]
  rfl

/-- The instance that is run comes before those in the queue. -/
theorem instances_of_some (hrunning : s.running = some r) :
    s.instances = r :: s.pending.map Prod.fst := by
  rw [State.instances, hrunning]
  rfl

/-- An event that puts nothing off, and is not the last one, leaves an instance ready. -/
theorem Ready.snoc (hr : Ready h r) (hadvance : e.advance = 0)
    (he : ∀ d post, e ≠ .returned d post) : Ready (h ++ [e]) r where
  task := hr.task
  aliveFlag := hr.aliveFlag
  nextRunTime := by rw [due_snoc, hadvance, add_zero, hr.nextRunTime]
  repeats d post hmem := by
    rcases List.mem_append.mp hmem with hmem | hmem
    · exact hr.repeats d post hmem
    · exact absurd (List.mem_singleton.mp hmem).symm (he d post)

theorem inv_delayedStart {firstDelay : TimeDelta} (hinv : Inv h s) (hs : s.started = false)
    (hin : InRange (h ++ (s.delayedStart firstDelay).2)) :
    Inv (h ++ (s.delayedStart firstDelay).2) (s.delayedStart firstDelay).1 := by
  obtain ⟨rfl, -, hnone⟩ := hinv.fresh hs
  obtain ⟨hrunning, hpending⟩ := List.append_eq_nil_iff.mp hnone
  have hinstances : (s.delayedStart firstDelay).1.instances = [.new s.clock firstDelay] := by
    have hnone : (s.delayedStart firstDelay).1.running = none :=
      Option.toList_eq_nil_iff.mp hrunning
    rw [instances_of_none hnone]
    simp [State.delayedStart, List.map_eq_nil_iff.mp hpending]
  have hdue : due ([] ++ (s.delayedStart firstDelay).2) = s.clock.us + firstDelay.us := by
    simp [State.delayedStart, due, Event.advance]
  obtain ⟨hnonneg, hlt⟩ := hin.due _ (List.prefix_refl _)
  rw [hdue] at hnonneg hlt
  constructor
  · exact hinv.clock
  · exact fun h => absurd h Bool.true_eq_false.mp
  · rw [hinstances]
    exact le_refl 1
  · rw [hinstances]
    intro r hr
    obtain rfl := List.mem_singleton.mp hr
    constructor
    · rfl
    · rfl
    · exact (Timestamp.us_add hinv.clock hnonneg hlt).trans hdue.symm
    · intro d post hmem
      simp [State.delayedStart] at hmem
  · simp [State.delayedStart]
  · exact hinv.law.snoc trivial

theorem inv_stop (hinv : Inv h s) : Inv (h ++ s.stop.2) s.stop.1 := by
  unfold State.stop
  split
  · rename_i hhandle
    have hstarted : s.started = true := by
      by_contra hs
      have hfresh := hinv.fresh (Bool.eq_false_iff.mpr hs)
      rw [hfresh.2.1] at hhandle
      exact Bool.false_ne_true hhandle
    constructor
    · exact hinv.clock
    · exact fun hs => absurd hstarted (Bool.eq_false_iff.mp hs)
    · exact hinv.one
    · exact fun r hr => (hinv.ready r hr).snoc rfl fun _ _ he => by cases he
    · simp
    · exact hinv.law.snoc trivial
  · simpa using hinv

/-- To run what was posted takes it from the queue, and nothing else is there. -/
theorem Inv.posted {i : ℕ} {d : TimeDelta} (hinv : Inv h s) (hrunning : s.running = none)
    (hi : s.pending[i]? = some (r, d)) : s.pending.eraseIdx i = [] ∧ Ready h r := by
  have hone := hinv.one
  have hready := hinv.ready
  rw [instances_of_none hrunning] at hone hready
  obtain ⟨hlt, hget⟩ := List.getElem?_eq_some_iff.mp hi
  constructor
  · rw [List.eq_nil_iff_length_eq_zero, List.length_eraseIdx, if_pos hlt]
    rw [List.length_map] at hone
    omega
  · exact hready r (List.mem_map_of_mem (List.mem_of_getElem? hi))

theorem inv_run {i : ℕ} {s' : State} {out : List Event} (hinv : Inv h s)
    (hst : s.step (.run i) = some (s', out)) : Inv (h ++ out) s' := by
  change (match s.running, s.pending[i]? with
    | none, some (r, _) => State.beginRun { s with pending := s.pending.eraseIdx i } r
    | _, _ => none) = some (s', out) at hst
  split at hst
  · rename_i r d hrunning hi
    obtain ⟨hrest, hready⟩ := hinv.posted hrunning hi
    have hstarted : s.started = true := by
      by_contra hs
      have hnone := (hinv.fresh (Bool.eq_false_iff.mpr hs)).2.2
      have hmem : r ∈ s.instances :=
        List.mem_append_right _ (List.mem_map_of_mem (List.mem_of_getElem? hi))
      rw [hnone] at hmem
      cases hmem
    unfold State.beginRun at hst
    rw [if_pos hready.aliveFlag, if_pos hready.task, hrest] at hst
    split at hst
    · rename_i halive
      cases hst
      have hinstances : State.instances { s with pending := [], running := some r } = [r] := rfl
      constructor
      · exact hinv.clock
      · exact fun hs => absurd hstarted (Bool.eq_false_iff.mp hs)
      · rw [hinstances]
        exact le_refl 1
      · rw [hinstances]
        intro r' hr'
        obtain rfl := List.mem_singleton.mp hr'
        exact hready.snoc rfl fun _ _ he => by cases he
      · intro hs
        rw [hinv.alive hs]
        simp
      · exact hinv.law.snoc ⟨hready.nextRunTime, (hinv.alive hstarted).mp halive, hready.repeats⟩
    · cases hst
      have hinstances : State.instances { s with pending := [] } = [] :=
        instances_of_none hrunning
      rw [List.append_nil]
      constructor
      · exact hinv.clock
      · exact fun hs => absurd hstarted (Bool.eq_false_iff.mp hs)
      · rw [hinstances]
        exact Nat.zero_le 1
      · rw [hinstances]
        intro r' hr'
        cases hr'
      · exact hinv.alive
      · exact hinv.law
  · cases hst

/-- **Catching up**: what was lost is taken from the delay, as far as there is any left. -/
theorem us_repost {now next : Timestamp} {delay : TimeDelta} (hnow : now.InRange)
    (hnext : next.InRange) (hdelay : 0 ≤ delay.us)
    (hsum : next.us + delay.us < TimeDelta.plusInfinityVal) :
    ((delay.sub (now.sub next)).max .zero).us = max 0 (next.us + delay.us - now.us) := by
  have hlost : (now.sub next).us = now.us - next.us := Timestamp.us_sub hnow hnext
  obtain ⟨hnow₀, hnow₁⟩ := hnow
  obtain ⟨hnext₀, hnext₁⟩ := hnext
  have hminus : TimeDelta.minusInfinityVal = -TimeDelta.plusInfinityVal - 1 := rfl
  have hleft : (delay.sub (now.sub next)).us = delay.us - (now.us - next.us) := by
    rw [TimeDelta.us_sub ⟨by omega, by omega⟩ ⟨by omega, by omega⟩, hlost]
  have hzero : TimeDelta.zero.us = 0 := rfl
  rw [TimeDelta.us_max, hleft, hzero]
  omega

theorem inv_returns {delay : TimeDelta} (hinv : Inv h s) (hrunning : s.running = some r)
    (hin : InRange (h ++ (s.endRun r delay).2)) :
    Inv (h ++ (s.endRun r delay).2) (s.endRun r delay).1 := by
  have hone := hinv.one
  have hready := hinv.ready
  rw [instances_of_some hrunning] at hone hready
  have hpending : s.pending.map Prod.fst = [] := by
    rw [List.length_cons] at hone
    rw [List.eq_nil_iff_length_eq_zero]
    omega
  have hr := hready r List.mem_cons_self
  have hstarted : s.started = true := by
    by_contra hs
    have hnone := (hinv.fresh (Bool.eq_false_iff.mpr hs)).2.2
    rw [instances_of_some hrunning] at hnone
    cases hnone
  have halive := hinv.alive hstarted
  unfold State.endRun at hin ⊢
  cases hend : delay.isPlusInfinity || !s.alive with
  | true =>
    simp only [hend, if_true] at hin ⊢
    have hinstances : State.instances { s with running := none } = [] := hpending
    constructor
    · exact hinv.clock
    · exact fun hs => absurd hstarted (Bool.eq_false_iff.mp hs)
    · rw [hinstances]
      exact Nat.zero_le 1
    · rw [hinstances]
      intro r' hr'
      cases hr'
    · intro hs
      rw [halive]
      simp
    · refine hinv.law.snoc ⟨?_, fun now delay' h => by cases h⟩
      rw [Bool.or_eq_true, Bool.not_eq_true', ← Bool.not_eq_true, halive, not_not] at hend
      exact ⟨fun _ => hend, fun _ => rfl⟩
  | false =>
    obtain ⟨hfinite, hnot⟩ := Bool.or_eq_false_iff.mp hend
    simp only [hend, Bool.false_eq_true, if_false] at hin ⊢
    have hnotStopped : .stopped ∉ h := halive.mp (by simpa using hnot)
    have hadvance (post) : (Event.returned delay post).advance = delay.us :=
      if_neg (Bool.eq_false_iff.mp hfinite)
    have hdelay : 0 ≤ delay.us :=
      hin.delay delay _ (List.mem_append_right h (List.mem_singleton_self _))
    have hnext : r.nextRunTime.InRange := by
      unfold Timestamp.InRange
      rw [hr.nextRunTime]
      exact hin.due h (List.prefix_append _ _)
    have hsum := hin.due _ (List.prefix_refl _)
    rw [due_snoc, hadvance, ← hr.nextRunTime] at hsum
    have hrepost := us_repost hinv.clock hnext hdelay hsum.2
    refine ⟨hinv.clock, fun hs => absurd hstarted (Bool.eq_false_iff.mp hs), ?_, ?_, ?_, ?_⟩
    · simp [State.instances, List.map_eq_nil_iff.mp hpending]
    · intro r' hr'
      simp only [State.instances, Option.toList_none, List.nil_append, List.map_append, hpending,
        List.map_cons, List.map_nil, List.mem_singleton] at hr'
      subst hr'
      constructor
      · exact hr.task
      · exact hr.aliveFlag
      · rw [due_snoc, hadvance, ← hr.nextRunTime]
        exact Timestamp.us_add hnext hsum.1 hsum.2
      · intro d post hmem
        rcases List.mem_append.mp hmem with hmem | hmem
        · exact hr.repeats d post hmem
        · cases List.mem_singleton.mp hmem
          exact hfinite
    · intro hs
      rw [halive]
      simp
    · refine hinv.law.snoc ⟨?_, ?_⟩
      · simp [hfinite, hnotStopped]
      · rintro now delay' heq
        obtain ⟨rfl, rfl⟩ := Prod.mk.inj (Option.some.inj heq)
        rw [hrepost, hr.nextRunTime]

end Steps

/-! ## The law -/

variable {h : List Event} {s : State}

theorem inv_of_reaches (hr : machine.Reaches h s) (hin : InRange h) : Inv h s := by
  refine hr.induction (fun h s => InRange h → Inv h s) ?_ ?_ hin
  · rintro s ⟨hclock, hstarted, hhandle, hpending, hrunning⟩ -
    have hinstances : s.instances = [] := by
      rw [instances_of_none hrunning, hpending]
      rfl
    constructor
    · exact hclock
    · exact fun _ => ⟨rfl, hhandle, hinstances⟩
    · rw [hinstances]
      exact Nat.zero_le 1
    · rw [hinstances]
      intro r hr
      cases hr
    · intro hs
      rw [hstarted] at hs
      cases hs
    · exact Along.nil
  · intro h s a s' out hinv _ hst hin
    have hinv := hinv hin.of_append
    cases a with
    | tick now =>
      obtain ⟨⟨hle, hlt⟩, hst⟩ := Option.ite_none_right_eq_some.mp hst
      cases hst
      rw [List.append_nil]
      exact ⟨⟨hinv.clock.1.trans hle, hlt⟩, hinv.fresh, hinv.one, hinv.ready, hinv.alive, hinv.law⟩
    | start =>
      obtain ⟨hs, hst⟩ := Option.ite_none_left_eq_some.mp hst
      cases hst
      exact inv_delayedStart hinv (Bool.eq_false_iff.mpr hs) hin
    | delayedStart firstDelay =>
      obtain ⟨hs, hst⟩ := Option.ite_none_left_eq_some.mp hst
      cases hst
      exact inv_delayedStart hinv (Bool.eq_false_iff.mpr hs) hin
    | run i => exact inv_run hinv hst
    | returns delay =>
      change (match s.running with
        | some r => some (s.endRun r delay)
        | none => none) = some (s', out) at hst
      split at hst
      · rename_i r hrunning
        obtain rfl : (s.endRun r delay).1 = s' := congrArg Prod.fst (Option.some.inj hst)
        obtain rfl : (s.endRun r delay).2 = out := congrArg Prod.snd (Option.some.inj hst)
        exact inv_returns hinv hrunning hin
      · cases hst
    | stop =>
      obtain rfl : s.stop.1 = s' := congrArg Prod.fst (Option.some.inj hst)
      obtain rfl : s.stop.2 = out := congrArg Prod.snd (Option.some.inj hst)
      exact inv_stop hinv

/-- What holds of a repeating task, whatever its closure returns and however late it runs. -/
structure ScheduleLaw (h : List Event) (s : State) : Prop where
  /-- When the closure is called, `next_run_time_` is the time of construction, the first delay and
  the delays the closure has returned. -/
  invoked : ∀ h₁ t h₂, h = h₁ ++ .invoked t :: h₂ → t.us = due h₁
  /-- The task is posted again with what is left until the next run is due, that is, for then or
  for now. -/
  posted : ∀ h₁ d now delay h₂, h = h₁ ++ .returned d (some (now, delay)) :: h₂ →
    delay.us = max 0 (due h₁ + d.us - now.us) ∧ now.us + delay.us = max now.us (due h₁ + d.us)
  /-- It is posted unless the closure has returned infinity or `Stop` was called. -/
  repeats : ∀ h₁ d post h₂, h = h₁ ++ .returned d post :: h₂ →
    (post = none ↔ d.isPlusInfinity = true ∨ .stopped ∈ h₁)
  /-- After either the closure is not called. -/
  ends : ∀ h₁ t h₂, h = h₁ ++ .invoked t :: h₂ →
    .stopped ∉ h₁ ∧ ∀ d post, .returned d post ∈ h₁ → d.isPlusInfinity = false
  /-- No more than one instance is pending, and none while the closure is called. -/
  one : s.pending.length + s.running.toList.length ≤ 1
  /-- What is pending has the closure and the time the next run is due. -/
  pending : ∀ r d, (r, d) ∈ s.pending →
    r.task = true ∧ r.aliveFlag = true ∧ r.nextRunTime.us = due h

end RepeatingTask

end TQLib
