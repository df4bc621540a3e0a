import TQLib.TaskQueueWin.Model

/-!
# Messages that nobody wakes up for

`ProcessQueuedMessages` has two exits: there is no message left, or the time is over. After the
second there may be messages left, and the wait returns for messages only if one has arrived since
the last call of `PeekMessage`.

## Main results

* `not_stranded` — nothing is stranded as long as no message is left behind when the time is over
* `stranded_reachable` — and it is, when one is
-/

namespace TQLib

namespace TaskQueueWin

variable {ι α : Type*}

/-- The worker is blocked, and there are messages in its queue. They have all arrived before the
wait, which else would return for them. -/
def Stranded (s : State ι α) : Prop :=
  s.worker = .wait ∧ s.wait = none ∧ (s.messages ≠ [] ∨ s.timers.wmTimers ≠ [])

/-- There are messages, and the wait does not return for them. -/
def State.LeftBehind (s : State ι α) : Prop :=
  s.newInput = false ∧ (s.messages ≠ [] ∨ s.timers.wmTimers ≠ [])

instance (s : State ι α) : Decidable s.LeftBehind := inferInstanceAs (Decidable (_ ∧ _))

/-- Whether the worker leaves `ProcessQueuedMessages` because the time is over. -/
def State.timeIsOver (s : State ι α) : Action ι α → Bool
  | .work =>
    match s.worker with
    | .limit start => decide ((start.add kMaxTaskProcessingTime).us < s.clock.us)
    | _ => false
  | _ => false

/-- Then it leaves no messages behind. -/
def LeavesNothing (s : State ι α) (a : Action ι α) : Prop :=
  s.timeIsOver a = true → ¬ s.LeftBehind

instance (s : State ι α) (a : Action ι α) : Decidable (LeavesNothing s a) :=
  inferInstanceAs (Decidable (_ → _))

/-! ## Outside of `ProcessQueuedMessages` -/

/-- Where the worker is processing messages, or does not wait any more. -/
def Worker.Processes : Worker α → Prop
  | .peek _ => True
  | .queueDelayedTask _ _ => True
  | .timer _ _ => True
  | .limit _ => True
  | .runDueTasks _ (.processQueuedMessages _) => True
  | .scheduleNextTimer (.processQueuedMessages _) => True
  | .undefined => True
  | .finished => True
  | _ => False

/-- A worker that is not processing messages has left none behind. -/
def Attended (s : State ι α) : Prop := ¬ s.worker.Processes → ¬ s.LeftBehind

/-- A step of a worker that stays where it is, or comes from where it was not processing messages
either, and that leaves the messages alone. -/
theorem Attended.frame {s s' : State ι α} (hs : Attended s)
    (hw : s.worker.Processes → s'.worker.Processes) (hm : s'.messages = s.messages)
    (hn : s'.newInput = s.newInput) (hwm : s'.timers.wmTimers = s.timers.wmTimers) :
    Attended s' := by
  intro hp hleft
  unfold State.LeftBehind at hleft
  rw [hm, hn, hwm] at hleft
  exact hs (fun h => hp (hw h)) hleft

/-- A message that arrives is new input. -/
theorem attended_of_newInput {s : State ι α} (h : s.newInput = true) : Attended s := by
  rintro - ⟨hnew, -⟩
  rw [h] at hnew
  cases hnew

/-- A worker that goes on processing messages. -/
theorem attended_of_processes {s : State ι α} (h : s.worker.Processes) : Attended s :=
  fun hp => absurd h hp

theorem Timers.wmTimers_cancel (t : Timers) : t.cancel.wmTimers = t.wmTimers := by
  unfold Timers.cancel
  split <;> rfl

theorem Timers.wmTimers_start (t : Timers) (now : Timestamp) (ms : ℤ) (multimediaId timerId : ℕ) :
    (t.start now ms multimediaId timerId).wmTimers = t.wmTimers := by
  unfold Timers.start
  split
  · rfl
  · split <;> rfl

theorem Timers.wmTimers_expireMultimedia {t t' : Timers} {k : ℕ} {clock : Timestamp}
    (h : t.expireMultimedia k clock = some t') : t'.wmTimers = t.wmTimers := by
  unfold Timers.expireMultimedia at h
  split at h
  · cases h
  · split at h
    · cases h
      rfl
    · cases h

/-- **One step.** -/
theorem Attended.step [DecidableEq ι] {s s' : State ι α} {a : Action ι α}
    {out : List (Observation α)} (hs : Attended s) (hg : LeavesNothing s a)
    (h : s.step a = some (s', out)) : Attended s' := by
  cases step_cases h with
  | tick clock hle hlt => exact hs
  | move i p => exact hs
  | message m hm => exact attended_of_newInput rfl
  | push hi hl => exact hs
  | setEvent hi => exact hs
  | postMessage hi => exact attended_of_newInput rfl
  | expireMultimedia ht =>
    exact hs.frame id rfl rfl (Timers.wmTimers_expireMultimedia ht)
  | expireWindow ht => exact attended_of_newInput rfl
  | walk hw hwalk =>
    cases hwalk with
    | @overLimit start hlimit =>
      -- the exit at which messages may be left
      exact fun _ => hg (by simpa [State.timeIsOver, hw] using hlimit)
    | waitMessages _ => exact attended_of_processes trivial
    | underLimit => exact attended_of_processes trivial
    | @notDue now caller top htop hlt =>
      refine hs.frame (fun hp => ?_) rfl rfl rfl
      rw [hw] at hp
      cases caller <;> exact hp
    | @noNextTask caller htop =>
      refine hs.frame (fun hp => ?_) rfl rfl rfl
      rw [hw] at hp
      cases caller <;> exact hp
    | topOfEmpty _ => exact attended_of_processes trivial
    | _ => exact hs.frame (fun hp => by rw [hw] at hp; exact hp) rfl rfl rfl
  | peekDelayedTask hw => exact attended_of_processes trivial
  | peekQuit hw => exact attended_of_processes trivial
  | peekOther hw => exact attended_of_processes trivial
  | peekNothing hw hm hwm =>
    -- the exit at which there are none
    rintro - ⟨-, hne⟩
    exact hne.elim (fun h => h hm) fun h => h hwm
  | peekTimer hw => exact attended_of_processes trivial
  | queueFirst hw => exact attended_of_processes trivial
  | queueLater hw => exact attended_of_processes trivial
  | timer hw => exact attended_of_processes trivial
  | timerSignalled hw =>
    exact hs.frame (fun hp => by rw [hw] at hp; exact hp) rfl rfl (Timers.wmTimers_cancel _)
  | resetEvent hw => exact hs.frame (fun hp => by rw [hw] at hp; exact hp) rfl rfl rfl
  | popPending hw hl hp => exact hs.frame (fun hp => by rw [hw] at hp; exact hp) rfl rfl rfl
  | runTask hw => exact hs.frame (fun hp => by rw [hw] at hp; exact hp) rfl rfl rfl
  | @due now caller top hw htop hle =>
    refine hs.frame (fun hp => ?_) rfl rfl rfl
    rw [hw] at hp
    cases caller with
    | processQueuedMessages start =>
      change Worker.Processes (if _ then _ else _)
      split <;> trivial
    | runThreadMain result => exact hp.elim
  | @start caller nextTask multimediaId timerId hw htop hid hid' =>
    refine hs.frame (fun hp => ?_) rfl rfl (Timers.wmTimers_start _ _ _ _ _)
    rw [hw] at hp
    cases caller <;> exact hp

/-- **Nothing is stranded.** -/
theorem not_stranded [DecidableEq ι] {h : List (Observation α)} {s : State ι α}
    (hr : (machine ι α).ReachesVia LeavesNothing h s) : ¬ Stranded s := by
  have hs : Attended s := by
    refine hr.invariant Attended ?_ fun s a s' out hs hg hst => hs.step hg hst
    rintro _ ⟨clock, -, -, rfl⟩ - ⟨-, hne⟩
    exact hne.elim (fun h => h rfl) fun h => h rfl
  rintro ⟨hw, hwait, hne⟩
  refine hs (by simp [hw, Worker.Processes]) ⟨?_, hne⟩
  unfold State.wait at hwait
  split at hwait
  · cases hwait
  · split at hwait
    · cases hwait
    · split at hwait
      · cases hwait
      · rename_i hnew
        exact Bool.not_eq_true _ ▸ hnew

/-- The law at work: the worker takes both messages before it waits. -/
theorem not_stranded_run : ∃ s : State Unit ℕ, ∃ h,
    (machine Unit ℕ).execVia LeavesNothing (State.initial ⟨0⟩)
      [.call () (.postDelayedTask 7 ⟨1000⟩), .resume (), .call () (.postDelayedTask 8 ⟨2000⟩),
        .resume (), .work, .work, .work, .start 1 0, .tick 500000, .work, .work, .work,
        .tick 500000, .work, .work, .work] = some (s, h) ∧
    s.worker = .wait ∧ s.wait = none ∧ ¬ Stranded s := by
  obtain ⟨s, h, hex, hw, hwait⟩ : ∃ s h,
      (machine Unit ℕ).execVia LeavesNothing (State.initial ⟨0⟩)
      [.call () (.postDelayedTask 7 ⟨1000⟩), .resume (), .call () (.postDelayedTask 8 ⟨2000⟩),
        .resume (), .work, .work, .work, .start 1 0, .tick 500000, .work, .work, .work,
        .tick 500000, .work, .work, .work] = some (s, h) ∧
      s.worker = .wait ∧ s.wait = none := ⟨_, _, rfl, rfl, rfl⟩
  exact ⟨s, h, hex, hw, hwait, not_stranded (.of_execVia ⟨⟨0⟩, by decide, by decide, rfl⟩ hex)⟩

/-- **A message is left behind.** The worker has queued the first task when the time is over. It
waits, with the message of the second in its queue. -/
theorem stranded_reachable : ¬ ∀ s : State Unit ℕ, (machine Unit ℕ).Reachable s → ¬ Stranded s := by
  intro hall
  obtain ⟨s, h, hex, hs⟩ : ∃ s h, (machine Unit ℕ).exec (State.initial ⟨0⟩)
      [.call () (.postDelayedTask 7 ⟨1000⟩), .resume (), .call () (.postDelayedTask 8 ⟨2000⟩),
        .resume (), .work, .work, .work, .start 1 0, .tick 500001, .work, .work, .work] =
          some (s, h) ∧
      s.worker = .wait ∧ s.wait = none ∧ s.messages = [.queueDelayedTask ⟨⟨2000⟩, 8⟩] :=
    ⟨_, _, rfl, rfl, rfl, rfl⟩
  refine hall s ⟨h, .of_exec ⟨⟨0⟩, by decide, by decide, rfl⟩ hex⟩ ⟨hs.1, hs.2.1, .inl ?_⟩
  simp [hs.2.2]

end TaskQueueWin

end TQLib
