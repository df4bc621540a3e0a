import TQLib.EventTracer.Model

/-!
# What `Stop` leaves behind

`Stop` tests the result of the exchange the wrong way round. Where it finds that logging is active
it returns, although the comment above says that it does so where logging is not active, and the
logging thread goes on. Where logging is not active it sets `shutdown_event_` and waits for the
thread, if there is one. The event may be set with no thread to see it, and then ends the next one
at once.

## Main results

* `Inv.step` — what has been added since `Start` has been written, is in the hands of the logging
  thread, or is in `trace_events_`
* `stop_flushes_iff` — when a `Stop` leaves nothing behind
* `stop_returns_early` — the run of `Start`, one event and `Stop`
-/

namespace TQLib

namespace EventTracer

variable {ι α : Type*} {h h' : List (Observation α)} {o : Observation α}

/-! ## The events of a session -/

/-- What has been added since `Start`, after one more observation. -/
def Observation.addedAfter : List α → Observation α → List α
  | _, .cleared => []
  | before, .added e => before ++ [e]
  | before, _ => before

/-- What has been added since `Start` has cleared `trace_events_`. -/
def added (h : List (Observation α)) : List α := h.foldl Observation.addedAfter []

/-- What has been written since `Start`, after one more observation. -/
def Observation.writtenAfter : List α → Observation α → List α
  | _, .cleared => []
  | before, .written e => before ++ [e]
  | before, _ => before

/-- What has been written since `Start` has cleared `trace_events_`. -/
def written (h : List (Observation α)) : List α := h.foldl Observation.writtenAfter []

@[simp] theorem added_snoc (h : List (Observation α)) (o : Observation α) :
    added (h ++ [o]) = Observation.addedAfter (added h) o := by
  rw [added, List.foldl_append]
  rfl

@[simp] theorem written_snoc (h : List (Observation α)) (o : Observation α) :
    written (h ++ [o]) = Observation.writtenAfter (written h) o := by
  rw [written, List.foldl_append]
  rfl

/-- What the logging thread has taken and not yet written. -/
def Logger.inHand : Logger α → List α
  | .writing events _ => events
  | _ => []

/-- Whether the logging thread has yet to swap `trace_events_`, and maybe does so again. -/
def Logger.sweeps : Logger α → Bool
  | .opening => true
  | .waiting => true
  | .swapping _ => true
  | .writing _ shuttingDown => !shuttingDown
  | _ => false

/-- Whether the thread that starts and stops is in `Stop`. -/
def Owner.stopping : Owner → Bool
  | .exchanging => true
  | .setting => true
  | .joining => true
  | _ => false

/-- Whether it is in `Start`. -/
def Owner.starting : Owner → Bool
  | .clearing => true
  | .activating => true
  | .spawning => true
  | _ => false

theorem Logger.inHand_of_ended {l : Logger α} (hl : l.ended = true) : l.inHand = [] := by
  cases l <;> first | rfl | cases hl

theorem Logger.sweeps_of_ended {l : Logger α} (hl : l.ended = true) : l.sweeps = false := by
  cases l <;> first | rfl | cases hl

/-- What holds in every run. -/
structure Inv (h : List (Observation α)) (s : State ι α) : Prop where
  /-- What has been added has been written, is with the logging thread, or in `trace_events_`. -/
  added_eq : added h = written h ++ s.logger.inHand ++ s.traceEvents
  /-- The logging thread has a file. -/
  outputFile : s.logger.ended = false → s.outputFile = true
  /-- `Stop` can wait for it. -/
  loggingThread : s.logger.ended = false → s.loggingThread = true
  /-- `Start` is called when there is none, and has a file for the next. -/
  starting : s.owner.starting = true → s.logger.ended = true ∧ s.outputFile = true

section

variable [DecidableEq ι] {s s' s₀ s₁ s₂ : State ι α} {a : Action ι α} {as : List (Action ι α)}
  {out o₀ o₁ o₂ : List (Observation α)}

omit [DecidableEq ι] in
/-- The thread that starts and stops moves. -/
theorem Inv.setOwner (hi : Inv h s) {owner : Owner}
    (ho : owner.starting = true → s.logger.ended = true ∧ s.outputFile = true)
    (hadded : added h' = added h)
   
    (hwritten : written h' = written h) {active shutdownEvent : Bool} :
    Inv h' ({ s with active, shutdownEvent }.setOwner owner) := by
  refine ⟨?_, hi.outputFile, hi.loggingThread, ho⟩
  rw [hadded, hwritten]
  exact hi.added_eq

omit [DecidableEq ι] in
/-- The logging thread moves. -/
theorem Inv.setLogger (hi : Inv h s) {l : Logger α} (hl : s.logger.ended = false)
    {shutdownEvent : Bool} {traceEvents : List α}
    (heq : added h' = written h' ++ l.inHand ++ traceEvents) :
    Inv h' ({ s with shutdownEvent, traceEvents }.setLogger l) := by
  refine ⟨heq, fun _ => hi.outputFile hl, fun _ => hi.loggingThread hl, fun hs => ?_⟩
  rw [(hi.starting hs).1] at hl
  cases hl

/-- **One step.** -/
theorem Inv.step (hi : Inv h s) (hst : Step s a s' out) : Inv (h ++ out) s' := by
  have heq := hi.added_eq
  cases hst with
  | start ho hf =>
    rw [List.append_nil]
    refine ⟨heq, fun _ => rfl, hi.loggingThread, fun _ => ⟨?_, rfl⟩⟩
    show s.logger.ended = true
    by_contra hne
    rw [hi.outputFile (by simpa using hne)] at hf
    cases hf
  | stop ho => exact hi.setOwner (fun hs => by cases hs) (added_snoc h _) (written_snoc h _)
  | clear ho =>
    have hstarting := hi.starting (by rw [ho]; rfl)
    refine ⟨?_, hi.outputFile, hi.loggingThread, fun _ => hstarting⟩
    rw [added_snoc, written_snoc]
    simp [Observation.addedAfter, Observation.writtenAfter, State.setOwner,
      Logger.inHand_of_ended hstarting.1]
  | activate ho ha =>
    rw [List.append_nil]
    exact hi.setOwner (fun _ => hi.starting (by rw [ho]; rfl)) rfl rfl
  | spawn ho hover =>
    rw [List.append_nil]
    refine ⟨?_, fun _ => (hi.starting (by rw [ho]; rfl)).2, fun _ => rfl, fun hs => by cases hs⟩
    rw [heq, Logger.inHand_of_ended hover]
    rfl
  | abort ho ha => exact hi.setOwner (fun hs => by cases hs) (added_snoc h _) (written_snoc h _)
  | exchange ho ha =>
    rw [List.append_nil]
    exact hi.setOwner (fun hs => by cases hs) rfl rfl
  | set ho =>
    rw [List.append_nil]
    exact hi.setOwner (fun hs => by cases hs) rfl rfl
  | join ho ht hover =>
    refine ⟨?_, hi.outputFile, fun hn => ?_, fun hs => by cases hs⟩
    · rw [added_snoc, written_snoc]
      exact heq
    · change s.logger.ended = false at hn
      rw [hover] at hn
      cases hn
  | joinNone ho ht => exact hi.setOwner (fun hs => by cases hs) (added_snoc h _) (written_snoc h _)
  | openFile hl =>
    rw [List.append_nil]
    refine hi.setLogger (by rw [hl]; rfl) ?_
    rw [heq, hl]
    rfl
  | wake hl he =>
    rw [List.append_nil]
    refine hi.setLogger (by rw [hl]; rfl) ?_
    rw [heq, hl]
    rfl
  | timeout hl =>
    rw [List.append_nil]
    refine hi.setLogger (by rw [hl]; rfl) ?_
    rw [heq, hl]
    rfl
  | swap hl =>
    rw [List.append_nil]
    refine hi.setLogger (by rw [hl]; rfl) ?_
    rw [heq, hl]
    simp [Logger.inHand]
  | write hl =>
    refine hi.setLogger (by rw [hl]; rfl) ?_
    rw [added_snoc, written_snoc]
    show added h = _
    rw [heq, hl]
    simp [Observation.writtenAfter, Logger.inHand]
  | @written b shuttingDown hl =>
    rw [List.append_nil]
    refine hi.setLogger (by rw [hl]; rfl) ?_
    rw [heq, hl]
    cases shuttingDown <;> rfl
  | close hl =>
    rw [List.append_nil]
    refine ⟨?_, fun hn => ?_, fun hn => ?_, fun hs => ?_⟩
    · rw [heq, hl]
      rfl
    · cases hn
    · cases hn
    · have hover := (hi.starting hs).1
      rw [hl] at hover
      cases hover
  | inactive hn ha =>
    rw [List.append_nil]
    exact hi
  | add hn ha =>
    rw [List.append_nil]
    exact ⟨heq, hi.outputFile, hi.loggingThread, hi.starting⟩
  | append hn =>
    refine ⟨?_, hi.outputFile, hi.loggingThread, hi.starting⟩
    rw [added_snoc, written_snoc]
    simp [Observation.addedAfter, Observation.writtenAfter, heq]

omit [DecidableEq ι] in
theorem Inv.initial : Inv [] (State.initial : State ι α) :=
  ⟨rfl, fun hn => (by cases hn), fun hn => (by cases hn), fun hs => (by cases hs)⟩

theorem inv_of_reaches (hr : (machine ι α).Reaches h s) : Inv h s :=
  hr.induction Inv (fun _ hs => hs ▸ Inv.initial)
    fun _ _ _ _ _ hi _ hst => hi.step (step_cases hst)

/-! ## A `Stop` -/

/-- What is promised of a `Stop`, by what had been shown when it was called. -/
structure Flushed (before after : List (Observation α)) (s : State ι α) : Prop where
  /-- Logging is not active. -/
  inactive : s.active = false
  /-- The logging thread does nothing any more. -/
  ended : s.logger.ended = true
  /-- What had been added is what has been written first, -/
  complete : added before <+: written after
  /-- and nothing else has been written than what has been added, in this order. -/
  once : written after <+: added after

/-- Whether the logging thread sees what is in `trace_events_`. -/
def State.Seen (s : State ι α) : Prop := s.logger.sweeps = true ∨ s.traceEvents = []

/-- In the middle of a `Stop` that has been called in `s` and has not returned. -/
structure Stopping (s s' : State ι α) : Prop where
  /-- It is in `Stop`. -/
  owner : s'.owner.stopping = true
  /-- Logging is active or not as it was, -/
  active : s'.active = s.active
  /-- and it is not if the exchange has been made. -/
  exchanged : s'.owner ≠ .exchanging → s.active = false

/-- Where the logging thread sees what there was when `Stop` was called, it has yet to swap it, or
has taken it. -/
def Kept (h : List (Observation α)) (h' : List (Observation α)) (s' : State ι α) : Prop :=
  added h <+: added h' ∧
    (s'.logger.sweeps = true ∨ added h <+: written h' ++ s'.logger.inHand)

/-- Where it does not, it takes nothing more. -/
def Lost (h : List (Observation α)) (s : State ι α) (h' : List (Observation α))
    (s' : State ι α) : Prop :=
  s'.logger.sweeps = false ∧ written h' ++ s'.logger.inHand = written h ++ s.logger.inHand

omit [DecidableEq ι] in
/-- The logging thread has not moved. -/
theorem Kept.frame (hk : Kept h h' s) {h'' : List (Observation α)}
    (hadded : added h' <+: added h'') (hwritten : written h'' = written h')
    (hlogger : s'.logger = s.logger) : Kept h h'' s' := by
  refine ⟨hk.1.trans hadded, ?_⟩
  rw [hwritten, hlogger]
  exact hk.2

/-- **One step** in the middle of a `Stop`, of what the logging thread takes. -/
theorem Kept.step (hk : Kept h h' s) (hi : Inv h' s) (ho : s.owner.stopping = true)
    (hst : Step s a s' out) : Kept h (h' ++ out) s' := by
  have hsame : added h' <+: added (h' ++ ([] : List (Observation α))) := by simp
  cases hst with
  | swap hl =>
    have heq := hi.added_eq
    rw [hl] at heq
    rw [List.append_nil]
    refine ⟨hk.1, .inr ?_⟩
    have hkept := hk.1
    rw [heq] at hkept
    simpa [State.setLogger, Logger.inHand] using hkept
  | @write b shuttingDown e events hl =>
    obtain ⟨hadded, hk⟩ := hk
    rw [hl] at hk
    refine ⟨?_, hk.imp id fun hk => ?_⟩
    · rw [added_snoc]
      exact hadded
    · rw [written_snoc]
      simpa [Observation.writtenAfter, State.setLogger, Logger.inHand] using hk
  | @written b shuttingDown hl =>
    obtain ⟨hadded, hk⟩ := hk
    rw [hl] at hk
    rw [List.append_nil]
    refine ⟨hadded, ?_⟩
    cases shuttingDown with
    | false => exact .inl rfl
    | true => exact .inr (hk.resolve_left (by simp [Logger.sweeps]))
  | openFile hl =>
    rw [List.append_nil]
    exact ⟨hk.1, .inl rfl⟩
  | wake hl he =>
    rw [List.append_nil]
    exact ⟨hk.1, .inl rfl⟩
  | timeout hl =>
    rw [List.append_nil]
    exact ⟨hk.1, .inl rfl⟩
  | close hl =>
    obtain ⟨hadded, hk⟩ := hk
    rw [hl] at hk
    rw [List.append_nil]
    exact ⟨hadded, .inr (hk.resolve_left (by simp [Logger.sweeps]))⟩
  | append hn =>
    refine hk.frame ?_ (written_snoc h' _) rfl
    rw [added_snoc]
    exact List.prefix_append _ _
  | abort ho' ha => exact hk.frame (by rw [added_snoc]; rfl) (written_snoc h' _) rfl
  | join ho' ht hover => exact hk.frame (by rw [added_snoc]; rfl) (written_snoc h' _) rfl
  | joinNone ho' ht => exact hk.frame (by rw [added_snoc]; rfl) (written_snoc h' _) rfl
  | exchange ho' ha => exact hk.frame hsame (by simp) rfl
  | set ho' => exact hk.frame hsame (by simp) rfl
  | inactive hn ha => exact hk.frame hsame (by simp) rfl
  | add hn ha => exact hk.frame hsame (by simp) rfl
  | _ => simp [‹s.owner = _›, Owner.stopping] at ho

omit [DecidableEq ι] in
/-- The logging thread has not moved. -/
theorem Lost.frame (hk : Lost h s₀ h' s) {h'' : List (Observation α)}
    (hwritten : written h'' = written h') (hlogger : s'.logger = s.logger) : Lost h s₀ h'' s' := by
  unfold Lost
  rw [hwritten, hlogger]
  exact hk

/-- **One step** in the middle of a `Stop` where the logging thread has made its last swap. -/
theorem Lost.step (hk : Lost h s₀ h' s) (ho : s.owner.stopping = true)
    (hst : Step s a s' out) : Lost h s₀ (h' ++ out) s' := by
  have hsweeps := hk.1
  cases hst with
  | @write b shuttingDown e events hl =>
    obtain ⟨-, hk⟩ := hk
    rw [hl] at hk hsweeps
    refine ⟨hsweeps, ?_⟩
    rw [written_snoc, ← hk]
    simp [Observation.writtenAfter, State.setLogger, Logger.inHand]
  | @written b shuttingDown hl =>
    obtain ⟨-, hk⟩ := hk
    rw [hl] at hk hsweeps
    rw [List.append_nil]
    cases shuttingDown with
    | false => cases hsweeps
    | true => exact ⟨rfl, hk⟩
  | close hl =>
    obtain ⟨-, hk⟩ := hk
    rw [hl] at hk
    rw [List.append_nil]
    exact ⟨rfl, hk⟩
  | append hn => exact hk.frame (written_snoc h' _) rfl
  | abort ho' ha => exact hk.frame (written_snoc h' _) rfl
  | join ho' ht hover => exact hk.frame (written_snoc h' _) rfl
  | joinNone ho' ht => exact hk.frame (written_snoc h' _) rfl
  | exchange ho' ha => exact hk.frame (by simp) rfl
  | set ho' => exact hk.frame (by simp) rfl
  | inactive hn ha => exact hk.frame (by simp) rfl
  | add hn ha => exact hk.frame (by simp) rfl
  | openFile hl => simp [hl, Logger.sweeps] at hsweeps
  | wake hl he => simp [hl, Logger.sweeps] at hsweeps
  | timeout hl => simp [hl, Logger.sweeps] at hsweeps
  | swap hl => simp [hl, Logger.sweeps] at hsweeps
  | _ => simp [‹s.owner = _›, Owner.stopping] at ho

/-- **One step** in the middle of a `Stop`. -/
theorem Stopping.step (hp : Stopping s₀ s) (hst : Step s a s' out) (hnot : .stopped ∉ out) :
    Stopping s₀ s' := by
  have howner := hp.owner
  cases hst with
  | exchange ho ha => exact ⟨rfl, hp.active, fun _ => hp.active ▸ ha⟩
  | set ho => exact ⟨rfl, hp.active, fun _ => hp.exchanged (by simp [ho])⟩
  | abort ho ha => simp at hnot
  | join ho ht hover => simp at hnot
  | joinNone ho ht => simp at hnot
  | start ho hf => simp [ho, Owner.stopping] at howner
  | stop ho => simp [ho, Owner.stopping] at howner
  | clear ho => simp [ho, Owner.stopping] at howner
  | activate ho ha => simp [ho, Owner.stopping] at howner
  | spawn ho hover => simp [ho, Owner.stopping] at howner
  | _ => exact ⟨hp.owner, hp.active, hp.exchanged⟩

/-- The return of a `Stop`. -/
theorem Stopping.returns (hp : Stopping s₀ s) (hi : Inv h s) (hst : Step s a s' out)
    (hret : .stopped ∈ out) : out = [.stopped] ∧ s'.active = false ∧ s'.logger = s.logger ∧
      (s₀.active = false → s.logger.ended = true) := by
  cases hst with
  | abort ho ha =>
    refine ⟨rfl, rfl, rfl, fun h₀ => ?_⟩
    rw [← hp.active, ha] at h₀
    cases h₀
  | join ho ht hover =>
    exact ⟨rfl, hp.active.trans (hp.exchanged (by simp [ho])), rfl, fun _ => hover⟩
  | joinNone ho ht =>
    refine ⟨rfl, hp.active.trans (hp.exchanged (by simp [ho])), rfl, fun _ => ?_⟩
    by_contra hne
    rw [hi.loggingThread (by simpa using hne)] at ht
    cases ht
  | _ => simp at hret

/-- The middle of a `Stop`: what holds when it is called, and is kept by every step of it, holds
until it returns. -/
theorem Stopping.run {P : List (Observation α) → State ι α → Prop} (hi : Inv h s)
    (hp : Stopping s₀ s) (hP : P h s)
    (hstep : ∀ h s a s' out, P h s → Inv h s → s.owner.stopping = true → Step s a s' out →
      P (h ++ out) s')
    (hex : (machine ι α).exec s as = some (s₁, o₁)) (hnot : .stopped ∉ o₁) :
    Inv (h ++ o₁) s₁ ∧ Stopping s₀ s₁ ∧ P (h ++ o₁) s₁ := by
  have hrun := Machine.exec_induction (M := machine ι α) (h := [])
    (fun o s => .stopped ∉ o → Inv (h ++ o) s ∧ Stopping s₀ s ∧ P (h ++ o) s)
    (fun _ => by simpa using ⟨hi, hp, hP⟩) ?_ hex
  · exact hrun hnot
  · intro o s a s' out hold hst hnot'
    rw [List.mem_append, not_or] at hnot'
    obtain ⟨hi, hp, hP⟩ := hold hnot'.1
    have hst := step_cases hst
    rw [← List.append_assoc]
    exact ⟨hi.step hst, hp.step hst hnot'.2, hstep _ _ _ _ _ hP hi hp.owner hst⟩

/-- **When `Stop` leaves nothing behind.** A `Stop` that is called after `h`, in `s`, and returns
from `s₁`, finds logging inactive, leaves a logging thread that is over and a file with everything
that had been added exactly if logging was not active or the logging thread is over by itself, and
the logging thread has yet to swap `trace_events_` when `Stop` is called, unless there is nothing in
it. -/
theorem stop_flushes_iff (hr : (machine ι α).Reaches h s)
    (hcall : s.step .stop = some (s₀, o₀)) (hex : (machine ι α).exec s₀ as = some (s₁, o₁))
    (hnot : .stopped ∉ o₁) (hst : s₁.step a = some (s₂, o₂)) (hret : .stopped ∈ o₂) :
    Flushed h (h ++ o₀ ++ o₁ ++ o₂) s₂ ↔
      s.Seen ∧ (s.active = false ∨ s₁.logger.ended = true) := by
  have hi := inv_of_reaches hr
  have hi₀ := hi.step (step_cases hcall)
  obtain ⟨hidle, rfl, rfl⟩ : s.owner = .idle ∧ s₀ = s.setOwner .exchanging ∧ o₀ = [.stopping] := by
    cases step_cases hcall with
    | stop ho => exact ⟨ho, rfl, rfl⟩
  have hp₀ : Stopping s (s.setOwner .exchanging) := ⟨rfl, rfl, fun hne => absurd rfl hne⟩
  have hadded : added (h ++ [.stopping]) = added h := added_snoc h _
  have hwritten : written (h ++ [.stopping]) = written h := written_snoc h _
  by_cases hseen : s.Seen
  · have hkept : Kept h (h ++ [.stopping]) (s.setOwner .exchanging) := by
      refine ⟨by rw [hadded], ?_⟩
      rcases hseen with hs | hs
      · exact .inl hs
      · refine .inr ?_
        rw [hwritten, hi.added_eq, hs, List.append_nil]
        exact List.prefix_rfl
    obtain ⟨hi₁, hp₁, hk₁⟩ := Stopping.run hi₀ hp₀ hkept
      (fun _ _ _ _ _ hk hi ho hst => hk.step hi ho hst) hex hnot
    obtain ⟨rfl, hactive, hlogger, hover⟩ := hp₁.returns hi₁ (step_cases hst) hret
    rw [and_iff_right hseen]
    constructor
    · intro hf
      have hover₂ := hf.ended
      rw [hlogger] at hover₂
      exact .inr hover₂
    · intro hor
      have hover₁ : s₁.logger.ended = true := hor.elim hover id
      have heq := hi₁.added_eq
      have hcomplete := hk₁.2.resolve_left (by simp [Logger.sweeps_of_ended hover₁])
      rw [Logger.inHand_of_ended hover₁, List.append_nil] at heq hcomplete
      refine ⟨hactive, by rw [hlogger, hover₁], ?_, ?_⟩
      · rw [written_snoc]
        exact hcomplete
      · rw [written_snoc, added_snoc]
        show written _ <+: added _
        rw [heq]
        exact List.prefix_append _ _
  · have hsweeps : s.logger.sweeps = false := by
      simpa using (not_or.mp hseen).1
    obtain ⟨hi₁, hp₁, hk₁⟩ := Stopping.run (P := Lost h s) hi₀ hp₀ ⟨hsweeps, by rw [hwritten]; rfl⟩
      (fun _ _ _ _ _ hk hi ho hst => hk.step ho hst) hex hnot
    obtain ⟨rfl, hactive, hlogger, hover⟩ := hp₁.returns hi₁ (step_cases hst) hret
    refine ⟨fun hf => ?_, fun hc => absurd hc.1 hseen⟩
    have hover₂ := hf.ended
    rw [hlogger] at hover₂
    have hlost := hk₁.2
    rw [Logger.inHand_of_ended hover₂, List.append_nil] at hlost
    -- what was in `trace_events_` is more than what the logging thread had taken
    have hlength := hf.complete.length_le
    rw [written_snoc] at hlength
    change _ ≤ (written _).length at hlength
    rw [hlost, hi.added_eq, List.length_append] at hlength
    have hpos : 0 < s.traceEvents.length := List.length_pos_iff.mpr (not_or.mp hseen).2
    omega

end

/-- The law at work: the second `Stop` finds logging inactive, and waits for an event that was added
before the first. -/
theorem stop_flushes_iff_run : ∃ s s₀ s₁ s₂ : State Bool ℕ,
    (machine Bool ℕ).exec .initial
      [.start, .goOn, .goOn, .goOn, .addTraceEvent true 7, .append true, .stop, .goOn] =
      some (s, [.cleared, .added 7, .stopping, .stopped]) ∧
    s.step .stop = some (s₀, [.stopping]) ∧
    (machine Bool ℕ).exec s₀
      [.goOn, .goOn, .log true, .log true, .log true, .log true, .log true, .log true] =
      some (s₁, [.written 7]) ∧
    s₁.step .goOn = some (s₂, [.stopped]) ∧
    (Flushed [.cleared, .added 7, .stopping, .stopped]
      [.cleared, .added 7, .stopping, .stopped, .stopping, .written 7, .stopped] s₂ ↔
      s.Seen ∧ (s.active = false ∨ s₁.logger.ended = true)) := by
  obtain ⟨s, s₀, s₁, s₂, hrun, hcall, hex, hst⟩ : ∃ s s₀ s₁ s₂ : State Bool ℕ,
      (machine Bool ℕ).exec .initial
        [.start, .goOn, .goOn, .goOn, .addTraceEvent true 7, .append true, .stop, .goOn] =
        some (s, [.cleared, .added 7, .stopping, .stopped]) ∧
      s.step .stop = some (s₀, [.stopping]) ∧
      (machine Bool ℕ).exec s₀
        [.goOn, .goOn, .log true, .log true, .log true, .log true, .log true, .log true] =
        some (s₁, [.written 7]) ∧
      s₁.step .goOn = some (s₂, [.stopped]) := ⟨_, _, _, _, rfl, rfl, rfl, rfl⟩
  exact ⟨s, s₀, s₁, s₂, hrun, hcall, hex, hst,
    stop_flushes_iff (.of_exec rfl hrun) hcall hex (by simp) hst (by simp)⟩

/-- **`Stop` returns early**: the first `Stop` after `Start` returns while the logging thread is
running, with an event that had been added still to be written. -/
theorem stop_returns_early : ∃ s s₀ s₁ : State Bool ℕ,
    (machine Bool ℕ).exec .initial
      [.start, .goOn, .goOn, .goOn, .log false, .addTraceEvent true 7, .append true] =
      some (s, [.cleared, .added 7]) ∧
    s.step .stop = some (s₀, [.stopping]) ∧ s₀.step .goOn = some (s₁, [.stopped]) ∧
    s₁.logger = .waiting ∧ ¬ Flushed [.cleared, .added 7] [.cleared, .added 7, .stopping, .stopped]
      s₁ := by
  refine ⟨_, _, _, rfl, rfl, rfl, rfl, ?_⟩
  intro hf
  cases hf.ended

end EventTracer

end TQLib
