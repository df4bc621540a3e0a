import TQLib.Thread.MessageQueue

/-!
# An `rtc::Thread` loses no wake-up

`Get` computes how long to wait from what it saw under `mutex_`, and tests `IsQuitting()` after
releasing it. Whoever changes either afterwards is still on the way to the socket server. But the
socket server is shared: the owner of the thread may itself be in a `BlockingCall`, which waits on
it too and may consume a `WakeUp` meant for `Get`. That call wakes the socket server again before it
returns, once it has waited at all.

So a `Get` that waits or is about to either waits for what is there, or a `WakeUp` is coming: it has
been given, somebody is about to give it, or a `BlockingCall` of the owner will give it again.

## Main results

* `asleep` — the invariant
* `no_wake_up_lost` — a `Get` that waits with no `WakeUp` coming has nothing to do
* `quit_or_drift` — a `Quit` before its `WakeUp`, and a wait that was entered late
-/

namespace TQLib

namespace Thread

variable {θ ι α : Type*} [DecidableEq θ]

/-! ## Wake-ups that are coming -/

/-- About to wake the thread `t` for a task pushed to it. -/
def Client.posts (t : θ) : Client θ α → Bool
  | .postWakeUp t' _ => decide (t' = t)
  | _ => false

/-- About to wake the thread `t` for the store of its `stop_`. -/
def Client.quits (t : θ) : Client θ α → Bool
  | .quitWakeUp t' => decide (t' = t)
  | _ => false

omit [DecidableEq θ] in
/-- In a `BlockingCall` that will wake its own socket server before it returns. -/
def Client.rewakes : Client θ α → Bool
  | .callCheck _ waited => waited
  | .callWait _ => true
  | .callWakeUp _ => true
  | _ => false

/-- A `WakeUp` of the thread `t` has been given, or one of those who are about to give one has been
described by `P`, or the owner of `t` will give it again. -/
def Coming (s : State θ ι α) (t : θ) (P : Client θ α → Bool) : Prop :=
  s.signal t = true ∨ (∃ p, P (s.clients p) = true) ∨ (s.clients (.thread t)).rewakes = true

variable [DecidableEq ι]

/-- A party that is not described by `P` and does not owe a `WakeUp` moves. -/
theorem Coming.setClient {s : State θ ι α} {t : θ} {P : Client θ α → Bool} (h : Coming s t P)
    {p : Party θ ι} (c : Client θ α) (hP : P (s.clients p) = false)
    (hr : p = .thread t → (s.clients p).rewakes = true → c.rewakes = true) :
    Coming (s.setClient p c) t P := by
  rcases h with hs | ⟨p', hp'⟩ | ht
  · exact .inl hs
  · have hne : p' ≠ p := by
      rintro rfl
      rw [hP] at hp'
      cases hp'
    exact .inr (.inl ⟨p', by simpa only [State.setClient, Function.update_of_ne hne]⟩)
  · refine .inr (.inr ?_)
    simp only [State.setClient]
    rcases eq_or_ne (.thread t) p with rfl | hne
    · rw [Function.update_self]
      exact hr rfl ht
    · rw [Function.update_of_ne hne]
      exact ht

omit [DecidableEq ι] in
theorem Coming.setSignal {s : State θ ι α} {t : θ} {P : Client θ α → Bool} (h : Coming s t P)
    (t' : θ) : Coming (s.setSignal t' true) t P := by
  refine h.imp_left ?_
  intro hs
  simp only [State.setSignal]
  rcases eq_or_ne t t' with rfl | hne
  · exact Function.update_self ..
  · rwa [Function.update_of_ne hne]

/-- Those who are about to wake the thread `t`, and nobody else. -/
def WakesOnly (t : θ) (P : Client θ α → Bool) : Prop :=
  ∀ c, P c = true → c.posts t = true ∨ c.quits t = true

/-- A party wakes the thread `t'` and moves on. -/
theorem Coming.wake {s : State θ ι α} {t t' : θ} {P : Client θ α → Bool} (h : Coming s t P)
    (hP : WakesOnly t P) {p : Party θ ι} (c : Client θ α)
    (hp : (∃ b, s.clients p = .postWakeUp t' b) ∨ s.clients p = .quitWakeUp t') :
    Coming ((s.setSignal t' true).setClient p c) t P := by
  rcases eq_or_ne t' t with rfl | hne
  · exact .inl (Function.update_self ..)
  · refine (h.setSignal t').setClient c ?_ fun _ => ?_
    · show P (s.clients p) = false
      by_contra hc
      have hw := hP (s.clients p) (by simpa using hc)
      rcases hp with ⟨b, hp⟩ | hp <;> simp [hp, Client.posts, Client.quits, hne] at hw
    · rcases hp with ⟨b, hp⟩ | hp <;> simp [State.setSignal, hp, Client.rewakes]

omit [DecidableEq ι] in
/-- The `WakeUp` of another thread is consumed. -/
theorem Coming.consume {s : State θ ι α} {t t' : θ} {P : Client θ α → Bool} (h : Coming s t P)
    (hne : t' ≠ t) : Coming (s.setSignal t' false) t P := by
  refine h.imp_left ?_
  intro hs
  simp only [State.setSignal]
  rwa [Function.update_of_ne hne.symm]

/-- **A wake-up that is coming stays so** until `Get` has taken it. -/
theorem Coming.step {s s' : State θ ι α} {a : Action θ ι α} {out : List (Observation θ ι α)}
    (h : s.step a = some (s', out)) {t : θ} {P : Client θ α → Bool} (hP : WakesOnly t P)
    (hc : Coming s t P) (ho : ∀ loop g, s'.owners t ≠ .readClock loop g) : Coming s' t P := by
  -- a party that is not about to wake anybody moves
  have hmove : ∀ {r : State θ ι α}, Coming r t P → ∀ {p : Party θ ι} {c₀ c : Client θ α},
      r.clients p = c₀ → c₀.posts t = false → c₀.quits t = false →
      (p = .thread t → c₀.rewakes = true → c.rewakes = true) →
      Coming (r.setClient p c) t P := by
    intro r hc₁ p c₀ c hp hposts hquits hr
    refine hc₁.setClient c ?_ (by rwa [hp])
    by_contra hPc
    have := hP _ (by simpa using hPc)
    simp [hp, hposts, hquits] at this
  cases step_cases h with
  | @startCall p c hi =>
    cases c with
    | quit t' => exact hmove (r := s.setStop t') hc hi rfl rfl nofun
    | _ => exact hmove hc hi rfl rfl nofun
  | @refuse p t' post hi => cases post <;> exact hmove hc hi rfl rfl nofun
  | accept hi => exact hmove hc hi rfl rfl nofun
  | @postTask p t' task hi => exact hmove (r := s.setQueue t' _) hc hi rfl rfl nofun
  | delayedTest c hi hnext => exact hmove hc hi rfl rfl nofun
  | delayedClock _ _ hi => exact hmove hc hi rfl rfl nofun
  | @postDelayedTask p t' task _ _ hi => exact hmove (r := s.setQueue t' _) hc hi rfl rfl nofun
  | posted hi => exact hc.wake hP _ (.inl ⟨_, hi⟩)
  | postedCall hi => exact hc.wake hP _ (.inl ⟨_, hi⟩)
  | quit hi => exact hc.wake hP _ (.inr hi)
  | callQuitting hi => exact hmove hc hi rfl rfl nofun
  | callInPlace hi => exact hmove hc hi rfl rfl nofun
  | @callPost p t' hi => exact hmove (r := s.setCompletion p false) hc hi rfl rfl nofun
  | @refused p t' hi => exact hmove (r := s.setCompletion p true) hc hi rfl rfl nofun
  | @refusedWakeUp own t' hi => exact hmove (hc.setSignal own) hi rfl rfl nofun
  | ready hi => exact hmove hc hi rfl rfl nofun
  | readyWaited hi => exact hmove hc hi rfl rfl fun _ _ => rfl
  | notReady hi => exact hmove hc hi rfl rfl fun _ _ => rfl
  | @callWoken own t' hi hs =>
    rcases eq_or_ne own t with rfl | hne
    · -- the owner of `t` consumes it, and owes another
      refine .inr (.inr ?_)
      simp only [State.setClient, Function.update_self, Client.rewakes]
    · exact hmove (hc.consume hne) hi rfl rfl fun _ _ => rfl
  | @callWakeUp own t' hi =>
    rcases eq_or_ne own t with rfl | hne
    · exact .inl (Function.update_self ..)
    · exact hmove (hc.setSignal own) hi rfl rfl fun hp => absurd (by cases hp; rfl) hne
  | @done p t' hi => exact hmove (r := s.setCompletion p false) hc hi rfl rfl nofun
  | callFail hi => exact hmove hc hi rfl rfl fun _ _ => rfl
  | @woken t' loop g cms start hi hw hs =>
    rcases eq_or_ne t' t with rfl | hne
    · exact absurd (Function.update_self ..) (ho loop g)
    · exact hc.consume hne
  | @cleaning t' loop c =>
    cases c with
    | complete p' => exact hc
    | wakeUp t₁ => exact hc.setSignal t₁
  | @destroyerCleaning t' c =>
    cases c with
    | complete p' => exact hc
    | wakeUp t₁ => exact hc.setSignal t₁
  | _ => exact hc

/-! ## A `Get` that sleeps -/

omit [DecidableEq θ] [DecidableEq ι] in
/-- The locals of a `Get` that has found `messages_` empty, and how long it is to wait. -/
def Owner.sleep? : Owner θ ι α → Option (GetFrame × ℤ)
  | .testQuit _ g cmsDelayNext => some (g, cmsDelayNext)
  | .enterWait _ g cmsNext => some (g, cmsNext)
  | .waiting _ g cmsNext _ => some (g, cmsNext)
  | _ => none

omit [DecidableEq θ] [DecidableEq ι] in
/-- Whether that `Get` has also found the thread not quitting. -/
def Owner.tested : Owner θ ι α → Bool
  | .enterWait _ _ _ => true
  | .waiting _ _ _ _ => true
  | _ => false

/-- What a `Get` of the thread `t` relies on when it waits for `cms`. -/
structure RestsWell (t : θ) (s : State θ ι α) (g : GetFrame) (cms : ℤ) : Prop where
  /-- The wait fits the message queue, or a wake-up is coming. -/
  fits : Coming s t (Client.posts t) ∨ (s.queues t).messages = [] ∧
    Queue.Waits (s.queues t).delayedMessages g.msCurrent cms
  /-- The thread is not quitting, or a wake-up is coming. -/
  stays : (s.owners t).tested = true → Coming s t (Client.quits t) ∨ s.stop t = false

/-- What holds of a `Get` of the thread `t` that waits or is about to. -/
def Asleep (t : θ) (s : State θ ι α) : Prop :=
  ∀ g cms, (s.owners t).sleep? = some (g, cms) → RestsWell t s g cms

omit [DecidableEq θ] [DecidableEq ι] in
/-- The shorter of two waits fits if the first does. -/
theorem Queue.Waits.cmsNext {delayedMessages : PriorityQueue (DelayedMessage.order α)}
    {g : GetFrame} {cms : ℤ} (h : Queue.Waits delayedMessages g.msCurrent cms) :
    Queue.Waits delayedMessages g.msCurrent (g.cmsNext cms) := by
  simp only [GetFrame.cmsNext]
  split
  · exact h
  · split
    · exact h
    · rename_i hshort
      rcases h with ⟨hforever, hempty⟩ | ⟨hnonneg, hdue⟩
      · exact .inr ⟨le_max_left _ _, by simp [hempty]⟩
      · refine .inr ⟨le_max_left _ _, fun d hd => ?_⟩
        have hd' := hdue d hd
        simp only [kForever] at hshort
        omega

/-- **One step.** Whoever changes what `Get` has seen is about to wake it. -/
theorem Asleep.step {t : θ} {s s' : State θ ι α} {a : Action θ ι α}
    {out : List (Observation θ ι α)} (hs : Asleep t s)
    (habsent : s.owners t ≠ .outside → s.destroyers t = .absent)
    (h : s.step a = some (s', out)) : Asleep t s' := by
  intro g cms hw
  have hpost : Coming s t (Client.posts t) → Coming s' t (Client.posts t) := fun hc =>
    hc.step h (fun _ => .inl) fun loop g ho => by rw [ho] at hw; cases hw
  have hquit : Coming s t (Client.quits t) → Coming s' t (Client.quits t) := fun hc =>
    hc.step h (fun _ => .inr) fun loop g ho => by rw [ho] at hw; cases hw
  -- the owner of `t` does not move, and neither its queue nor its `stop_` is touched
  have keep : s'.owners t = s.owners t → s'.queues t = s.queues t → s'.stop t = s.stop t →
      RestsWell t s' g cms := by
    intro ho hq hstop
    rw [ho] at hw
    obtain ⟨hfits, hstays⟩ := hs g cms hw
    constructor
    · rw [hq]
      exact hfits.imp_left hpost
    · intro ht
      rw [ho] at ht
      rw [hstop]
      exact (hstays ht).imp_left hquit
  -- an owner moves to a place where it does not sleep
  have move : ∀ t' o, s'.owners = Function.update s.owners t' o → o.sleep? = none →
      (t ≠ t' → s'.queues t = s.queues t) → s'.stop t = s.stop t → RestsWell t s' g cms := by
    intro t' o ho hnone hq hstop
    rcases eq_or_ne t t' with rfl | hne
    · rw [ho, Function.update_self, hnone] at hw
      cases hw
    · exact keep (by rw [ho, Function.update_of_ne hne]) (hq hne) hstop
  -- a task is pushed to the thread `t'`
  have push : ∀ t' q p, s'.owners t = s.owners t → s'.queues = Function.update s.queues t' q →
      s'.stop t = s.stop t → (s'.clients p).posts t' = true →
      RestsWell t s' g cms := by
    intro t' q p ho hq hstop hp
    rcases eq_or_ne t t' with rfl | hne
    · refine ⟨.inl (.inr (.inl ⟨p, hp⟩)), fun htested => ?_⟩
      rw [ho] at hw htested
      rw [hstop]
      exact ((hs g cms hw).stays htested).imp_left hquit
    · exact keep ho (by rw [hq, Function.update_of_ne hne]) hstop
  -- a task of the thread `t'` is destroyed
  have destroy : ∀ t' q, s'.owners t = s.owners t → s'.queues = Function.update s.queues t' q →
      s'.stop t = s.stop t → s.destroyers t' ≠ .absent →
      RestsWell t s' g cms := by
    intro t' q ho hq hstop hd
    rcases eq_or_ne t t' with rfl | hne
    · refine absurd (habsent fun hout => ?_) hd
      rw [ho, hout] at hw
      cases hw
    · exact keep ho (by rw [hq, Function.update_of_ne hne]) hstop
  cases step_cases h with
  | @startCall p c hi =>
    cases c with
    | quit t' =>
      rcases eq_or_ne t' t with rfl | hne
      · refine ⟨(hs g cms hw).fits.imp_left hpost, fun _ => .inl (.inr (.inl ⟨p, ?_⟩))⟩
        simp [State.call, State.setClient, Client.quits]
      · exact keep rfl rfl (Function.update_of_ne hne.symm ..)
    | _ => exact keep rfl rfl rfl
  | @refuse p t' post => cases post <;> exact keep rfl rfl rfl
  | @postTask p t' task hi =>
    exact push t' _ p rfl rfl rfl (by simp [State.setClient, Client.posts])
  | @postDelayedTask p t' task _ _ hi =>
    exact push t' _ p rfl rfl rfl (by simp [State.setClient, Client.posts])
  | processMessages | enterGet | quitting | woken | timeout | fail | dispatched | dispatchedCall =>
    exact move _ _ rfl rfl (fun _ => rfl) rfl
  | take => exact move _ _ rfl rfl (fun hne => Function.update_of_ne hne ..) rfl
  | @empty t' loop g' cms' q out' hi ho hg =>
    rcases eq_or_ne t t' with rfl | hne
    · obtain ⟨rfl, rfl⟩ : g' = g ∧ cms' = cms := by
        simpa [State.setOwner, Owner.sleep?] using hw
      have hgot := Queue.get_spec hg
      refine ⟨.inr ?_, fun ht => by simp [State.setOwner, Owner.tested] at ht⟩
      simp only [State.setOwner, State.setQueue, Function.update_self]
      exact ⟨hgot.empty rfl, hgot.wait⟩
    · exact keep (Function.update_of_ne hne ..) (Function.update_of_ne hne ..) rfl
  | @notQuitting t' loop g' cms' hi ho hstop =>
    rcases eq_or_ne t t' with rfl | hne
    · obtain ⟨rfl, rfl⟩ : g' = g ∧ g'.cmsNext cms' = cms := by
        simpa [State.setOwner, Owner.sleep?] using hw
      have hrests := hs g' cms' (by rw [ho]; rfl)
      refine ⟨hrests.fits.imp hpost (And.imp_right Queue.Waits.cmsNext), fun _ => .inr hstop⟩
    · exact keep (Function.update_of_ne hne ..) rfl rfl
  | @enterWait t' loop g' cms' hi ho =>
    rcases eq_or_ne t t' with rfl | hne
    · obtain ⟨rfl, rfl⟩ : g' = g ∧ cms' = cms := by
        simpa [State.setOwner, Owner.sleep?] using hw
      have hrests := hs g' cms' (by rw [ho]; rfl)
      exact ⟨hrests.fits.imp_left hpost,
        fun _ => (hrests.stays (by rw [ho]; rfl)).imp_left hquit⟩
    · exact keep (Function.update_of_ne hne ..) rfl rfl
  | readClock o hi ho hnext =>
    exact move _ _ rfl (by rcases hnext with rfl | rfl <;> rfl) (fun _ => rfl) rfl
  | nextGet o hi ho hnext =>
    exact move _ _ rfl (by rcases hnext with rfl | ⟨_, rfl⟩ <;> rfl) (fun _ => rfl) rfl
  | @cleaning t' loop c =>
    rcases c with (t₁ | i) | t₁ <;> exact move _ _ rfl rfl (fun _ => rfl) rfl
  | discard hd => exact destroy _ _ rfl rfl rfl (by simp [hd])
  | discardCall hd => exact destroy _ _ rfl rfl rfl (by simp [hd])
  | dropDelayed hd => exact destroy _ _ rfl rfl rfl (by simp [hd])
  | @destroyerCleaning t' c => cases c <;> exact keep rfl rfl rfl
  | _ => exact keep rfl rfl rfl

theorem asleep {s : State θ ι α} (hr : (machine θ ι α).Reachable s) (t : θ) : Asleep t s := by
  obtain ⟨h, hr⟩ := hr
  induction hr with
  | start hs =>
    obtain ⟨clock, rfl⟩ := hs
    intro g cms hw
    cases hw
  | step hr _ hst ih => exact ih.step (absent_of_not_outside ⟨_, hr⟩ t) hst

/-- **No wake-up is lost.** In every reachable state in which the owner of a thread is blocked in
the `Wait` of its `Get`, its socket server has no `WakeUp` left and no poster is between its push
and its `WakeUp`: `messages_` is empty, no delayed message is to run before the wait is over,
counted from the reading of the clock it was computed from, and `stop_` is stored only if the `Quit`
that stored it is itself before its `WakeUp`. -/
theorem no_wake_up_lost {s : State θ ι α} (hr : (machine θ ι α).Reachable s) {t : θ} {loop : Loop}
    {g : GetFrame} {cmsNext startMs : ℤ} (hw : s.owners t = .waiting loop g cmsNext startMs)
    (hidle : s.clients (.thread t) = .idle) (hsignal : s.signal t = false)
    (hposters : ∀ p b, s.clients p ≠ .postWakeUp t b) :
    (s.queues t).messages = [] ∧
      Queue.Waits (s.queues t).delayedMessages g.msCurrent cmsNext ∧
      ((∀ p, s.clients p ≠ .quitWakeUp t) → s.stop t = false) := by
  obtain ⟨hfits, hstays⟩ := asleep hr t g cmsNext (by rw [hw]; rfl)
  have hnot : ∀ P : Client θ α → Bool, (∀ p, P (s.clients p) = false) → ¬ Coming s t P := by
    rintro P hP (hs | ⟨p, hp⟩ | hrewakes)
    · simp [hsignal] at hs
    · simp [hP p] at hp
    · simp [hidle, Client.rewakes] at hrewakes
  obtain ⟨hmessages, hwait⟩ := hfits.resolve_left <| hnot _ fun p => by
    have hp := hposters p
    cases hc : s.clients p with
    | postWakeUp t' b => simpa [Client.posts] using fun heq => hp b (by rw [hc, heq])
    | _ => rfl
  refine ⟨hmessages, hwait, fun hquits => (hstays (by rw [hw]; rfl)).resolve_left ?_⟩
  refine hnot _ ?_
  intro p
  have hp := hquits p
  cases hc : s.clients p with
  | quitWakeUp t' => simpa [Client.quits] using fun heq => hp (by rw [hc, heq])
  | _ => rfl

/-- A run to a `Get` that waits for a delayed message due at 5, in a wait it has entered at 3. -/
def lateWait : List (Action Unit Unit ℕ) :=
  [Action.call (.other ()) (.postDelayedTask () 7 (TimeDelta.millis 5))] ++
    List.replicate 4 (Action.client (.other ())) ++ [Action.processMessages () kForever] ++
    List.replicate 8 (Action.owner ()) ++ [Action.tick 3, .owner ()]

theorem exec_lateWait : ∃ h s, (machine Unit Unit ℕ).exec (State.initial 0) lateWait = some (s, h) ∧
    s.owners () = .waiting ⟨kForever, 0⟩ ⟨kForever, 0, 0, 0⟩ 5 3 ∧
    s.clients (.thread ()) = .idle ∧ s.clients (.other ()) = .idle ∧ s.signal () = false ∧
    (s.queues ()).delayedMessages.items = [⟨5, 5, 0, 7⟩] :=
  ⟨_, _, rfl, rfl, rfl, rfl, rfl, rfl⟩

/-- A `Get` with no task to dispatch waits until its delayed message is due. -/
theorem no_wake_up_lost_run : ∃ s : State Unit Unit ℕ, (machine Unit Unit ℕ).Reachable s ∧
    s.owners () = .waiting ⟨kForever, 0⟩ ⟨kForever, 0, 0, 0⟩ 5 3 ∧
    (s.queues ()).messages = [] ∧ Queue.Waits (s.queues ()).delayedMessages 0 5 ∧
    ((∀ p, s.clients p ≠ .quitWakeUp ()) → s.stop () = false) := by
  obtain ⟨h, s, hex, hw, hthread, hother, hsignal, -⟩ := exec_lateWait
  have hr : (machine Unit Unit ℕ).Reachable s := ⟨h, .of_exec ⟨0, rfl⟩ hex⟩
  refine ⟨s, hr, hw, no_wake_up_lost hr hw hthread hsignal fun p b => ?_⟩
  cases p with
  | thread => simp [hthread]
  | other => simp [hother]

/-- **A `Quit` can be stored and not yet announced, and a wait can be entered late.** In the first
case the thread is quitting and its `Get` waits: `Quit` is about to wake it. In the second the
deadline of the wait lies after the run time of a delayed message: the clock has moved since `Get`
read it. -/
theorem quit_or_drift :
    (¬ ∀ (s : State Unit Unit ℕ) (loop : Loop) (g : GetFrame) (cmsNext startMs : ℤ),
      (machine Unit Unit ℕ).Reachable s → s.owners () = .waiting loop g cmsNext startMs →
      s.clients (.thread ()) = .idle → s.signal () = false →
      (∀ p b, s.clients p ≠ .postWakeUp () b) → s.stop () = false) ∧
    ¬ ∀ (s : State Unit Unit ℕ) (loop : Loop) (g : GetFrame) (cmsNext startMs : ℤ),
      (machine Unit Unit ℕ).Reachable s → s.owners () = .waiting loop g cmsNext startMs →
      s.clients (.thread ()) = .idle → s.signal () = false →
      (∀ p b, s.clients p ≠ .postWakeUp () b) →
      ∀ d ∈ (s.queues ()).delayedMessages.toMultiset, startMs + cmsNext ≤ d.runTimeMs := by
  constructor
  · intro hall
    obtain ⟨h, s, hex, hw, hthread, hother, hsignal, hstop⟩ : ∃ h s,
        (machine Unit Unit ℕ).exec (State.initial 0) (Action.processMessages () kForever ::
          List.replicate 4 (Action.owner ()) ++ [Action.call (.other ()) (.quit ())]) =
          some (s, h) ∧
        s.owners () = .waiting ⟨kForever, 0⟩ ⟨kForever, 0, 0, 0⟩ kForever 0 ∧
        s.clients (.thread ()) = .idle ∧ s.clients (.other ()) = .quitWakeUp () ∧
        s.signal () = false ∧ s.stop () = true := ⟨_, _, rfl, rfl, rfl, rfl, rfl, rfl⟩
    have hfalse := hall s _ _ _ _ ⟨h, .of_exec ⟨0, rfl⟩ hex⟩ hw hthread hsignal fun p b => by
      cases p with
      | thread => simp [hthread]
      | other => simp [hother]
    simp [hstop] at hfalse
  · intro hall
    obtain ⟨h, s, hex, hw, hthread, hother, hsignal, hitems⟩ := exec_lateWait
    have hlate := hall s _ _ _ _ ⟨h, .of_exec ⟨0, rfl⟩ hex⟩ hw hthread hsignal (fun p b => by
      cases p with
      | thread => simp [hthread]
      | other => simp [hother]) ⟨5, 5, 0, 7⟩ (by simp [PriorityQueue.toMultiset, hitems])
    exact absurd hlate (by decide)

end Thread

end TQLib
