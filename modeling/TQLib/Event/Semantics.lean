import TQLib.Event.Model

/-!
# What an event does

Seen from outside an event is a flag. `Set` sets it, `Reset` clears it, and a `Wait` that returns
true has found it set, and clears it unless the event is to be reset by hand. All that a thread
reads and writes it does with the mutex, so between locking it and unlocking it the thread is alone.

## Main results

* `refines` — every step of the event is a path of the flag
* `event_law` — every `Wait` that returns true has a `Set` of its own, unless the event was set when
  it was constructed; no `Set` is lost, and nobody sleeps while the event is set
-/

namespace TQLib

namespace Event

variable {ι : Type*}

/-! ## The flag -/

/-- What happens to a flag. -/
inductive Flag.Next (manualReset : Bool) : Bool → Observation ι → Bool → Prop
  | set (b : Bool) (i : ι) : Next manualReset b (.set i) true
  | reset (b : Bool) (i : ι) : Next manualReset b (.reset i) false
  | warned (b : Bool) (i : ι) : Next manualReset b (.warned i) b
  | taken (i : ι) : Next manualReset true (.returned i true) manualReset
  | gaveUp (b : Bool) (i : ι) : Next manualReset b (.returned i false) b

/-- A flag. -/
def flag (ι : Type*) (manualReset initiallySignaled : Bool) : Spec Bool (Observation ι) where
  start b := b = initiallySignaled
  next := Flag.Next manualReset

/-- Whether a `Wait` returns true. -/
def Observation.taken : Observation ι → Bool
  | .returned _ result => result
  | _ => false

/-- Whether the event is set. -/
def Observation.sets : Observation ι → Bool
  | .set _ => true
  | _ => false

/-- Whether it is cleared by `Reset`. -/
def Observation.resets : Observation ι → Bool
  | .reset _ => true
  | _ => false

variable {manual initially : Bool} {h h' : List (Observation ι)} {b b' : Bool}

/-- The flag is set by `Set`, and every `Wait` that returns true clears it. -/
theorem flag_count (ha : (flag ι false initially).Accepts h b) :
    h.countP (·.taken) + b.toNat ≤ initially.toNat + h.countP (·.sets) := by
  induction ha with
  | nil hs =>
    obtain rfl : _ = initially := hs
    simp
  | @snoc h e t t' _ hn ih =>
    rw [List.countP_append, List.countP_append, List.countP_singleton, List.countP_singleton]
    cases hn <;> simp [Observation.taken, Observation.sets] at ih ⊢ <;> omega

/-- Once cleared the flag stays so until the next `Set`. -/
theorem flag_quiet (hp : (flag ι manual initially).Path b h b') (hb : b = false)
    (hsets : ∀ o ∈ h, Observation.sets o = false) :
    b' = false ∧ ∀ o ∈ h, Observation.taken o = false := by
  induction hp with
  | nil => exact ⟨hb, by simp⟩
  | @cons t t' t'' e es hn _ ih =>
    rw [List.forall_mem_cons] at hsets
    obtain ⟨hfirst, hrest⟩ := hsets
    have hstays : t' = false ∧ Observation.taken e = false := by
      cases hn with
      | set b i => cases hfirst
      | reset b i => exact ⟨rfl, rfl⟩
      | warned b i => exact ⟨hb, rfl⟩
      | taken i => cases hb
      | gaveUp b i => exact ⟨hb, rfl⟩
    obtain ⟨hlast, hnone⟩ := ih hstays.1 hrest
    exact ⟨hlast, List.forall_mem_cons.mpr ⟨hstays.2, hnone⟩⟩

/-- Once set it stays so until it is cleared. -/
theorem flag_kept (hp : (flag ι manual initially).Path b h b') (hb : b = true)
    (hresets : ∀ o ∈ h, Observation.resets o = false)
    (htaken : manual = true ∨ ∀ o ∈ h, Observation.taken o = false) : b' = true := by
  induction hp with
  | nil => exact hb
  | @cons t t' t'' e es hn _ ih =>
    rw [List.forall_mem_cons] at hresets htaken
    obtain ⟨hfirst, hrest⟩ := hresets
    refine ih ?_ hrest (htaken.imp_right fun ht => ht.2)
    cases hn with
    | set b i => rfl
    | reset b i => cases hfirst
    | warned b i => exact hb
    | taken i => exact htaken.resolve_right fun ht => by cases ht.1
    | gaveUp b i => exact hb

/-! ## The event is a flag -/

/-- What `Wait` is about to have taken is not yet taken to the outside. -/
def abs [DecidableEq ι] (s : State ι) : Bool :=
  match s.eventMutex with
  | some i => if s.threads i = .waitUnlocking 0 then true else s.eventStatus
  | none => s.eventStatus

variable [DecidableEq ι] {s s' : State ι} {a : Action ι} {out : List (Observation ι)}

/-- What holds in every state. -/
structure Inv (manual : Bool) (s : State ι) : Prop where
  /-- The event is to be reset by hand or not. -/
  isManualReset : s.isManualReset = manual
  /-- A thread has the mutex in its critical section. -/
  exclusive : ∀ i, s.eventMutex = some i ↔ (s.threads i).critical = true
  /-- A `Wait` that has come past its waits without an error has found the event set. -/
  consuming : ∀ i, s.threads i = .consuming 0 → s.eventStatus = true
  /-- And it has cleared it, unless the event is to be reset by hand. -/
  unlocking : ∀ i, s.threads i = .waitUnlocking 0 → s.eventStatus = manual
  /-- Nobody sleeps while the event is set, unless they are about to be woken up. -/
  awake : ∀ i t phase, s.threads i = .sleeping t phase false →
    s.eventStatus = false ∨ ∃ j, s.threads j = .broadcasting

omit [DecidableEq ι] in
theorem Inv.initial : Inv manual (State.initial manual initially : State ι) := by
  constructor <;> simp [State.initial, Place.critical]

omit [DecidableEq ι] in
/-- Two threads are not in a critical section at once. -/
theorem Inv.alone (hi : Inv manual s) {i j : ι} (hci : (s.threads i).critical = true)
    (hcj : (s.threads j).critical = true) : j = i := by
  have hm := (hi.exclusive i).mpr hci
  rw [(hi.exclusive j).mpr hcj] at hm
  simpa using hm

/-- Where a thread has come out of the critical section, who is in it has been there before; and
the other way round. -/
theorem threads_of_critical {i j : ι} {p q : Place} {b : Bool}
    (h : (s.setThread i p).threads j = q) (hp : p.critical = b) (hq : q.critical = !b) :
    s.threads j = q := by
  obtain ⟨-, rfl⟩ | ⟨-, h⟩ := update_cases h
  · rw [hp] at hq
    exact ((Bool.eq_not_self b).mp hq).elim
  · exact h

/-- A thread goes on in its critical section. -/
theorem Inv.within (hi : Inv manual s) {i : ι} (hc : (s.threads i).critical = true) {p : Place}
    (hp : p.critical = true) {status : Bool} (hconsuming : p = .consuming 0 → status = true)
    (hunlocking : p = .waitUnlocking 0 → status = manual)
    (hawake : status = false ∨ p = .broadcasting ∨
      status = s.eventStatus ∧ s.threads i ≠ .broadcasting) :
    Inv manual ({ s with eventStatus := status }.setThread i p) := by
  have hother : ∀ j, j ≠ i → (s.threads j).critical = false := by
    intro j hj
    by_contra hne
    exact hj (hi.alone hc (by simpa using hne))
  constructor
  · exact hi.isManualReset
  · intro j
    refine (hi.exclusive j).trans ?_
    by_cases hj : j = i
    · subst hj
      simp [State.setThread, hc, hp]
    · simp [State.setThread, hj]
  · intro j hj
    rcases update_cases hj with ⟨-, hj⟩ | ⟨hne, hj⟩
    · exact hconsuming hj
    · have hcj := hother j hne
      rw [hj] at hcj
      cases hcj
  · intro j hj
    rcases update_cases hj with ⟨-, hj⟩ | ⟨hne, hj⟩
    · exact hunlocking hj
    · have hcj := hother j hne
      rw [hj] at hcj
      cases hcj
  · intro j t phase hj
    have hj' : s.threads j = .sleeping t phase false :=
      threads_of_critical hj hp rfl
    rcases hawake with hfalse | rfl | ⟨heq, hnot⟩
    · exact .inl hfalse
    · exact .inr ⟨i, Function.update_self _ _ _⟩
    · refine (hi.awake j t phase hj').imp (fun h => heq ▸ h) ?_
      rintro ⟨k, hk⟩
      have hki : k ≠ i := fun hki => hnot (hki ▸ hk)
      exact ⟨k, (Function.update_of_ne hki _ _).trans hk⟩

/-- A thread goes on outside of its critical section. -/
theorem Inv.outside (hi : Inv manual s) {i : ι} (hc : (s.threads i).critical = false) {p : Place}
    (hp : p.critical = false) (hsleeping : ∀ t phase, p ≠ .sleeping t phase false) :
    Inv manual (s.setThread i p) := by
  constructor
  · exact hi.isManualReset
  · intro j
    refine (hi.exclusive j).trans ?_
    by_cases hj : j = i
    · subst hj
      simp [State.setThread, hc, hp]
    · simp [State.setThread, hj]
  · intro j hj
    exact hi.consuming j (threads_of_critical hj hp rfl)
  · intro j hj
    exact hi.unlocking j (threads_of_critical hj hp rfl)
  · intro j t phase hj
    rcases update_cases hj with ⟨-, hj⟩ | ⟨-, hj⟩
    · exact absurd hj (hsleeping t phase)
    · refine (hi.awake j t phase hj).imp id ?_
      rintro ⟨k, hk⟩
      have hki : k ≠ i := by
        rintro rfl
        rw [hk] at hc
        cases hc
      exact ⟨k, (Function.update_of_ne hki _ _).trans hk⟩

/-- A thread locks the mutex. -/
theorem Inv.lock (hi : Inv manual s) {i : ι} (hc : (s.threads i).critical = false)
    (hm : s.eventMutex = none) {p : Place} (hp : p.critical = true) (hconsuming : p ≠ .consuming 0)
    (hunlocking : p ≠ .waitUnlocking 0) :
    Inv manual ({ s with eventMutex := some i }.setThread i p) := by
  have hnone : ∀ j, (s.threads j).critical = false := by
    intro j
    simpa [hm] using hi.exclusive j
  constructor
  · exact hi.isManualReset
  · intro j
    by_cases hj : j = i
    · subst hj
      simp [State.setThread, hp]
    · simp [State.setThread, hj, hnone j, Ne.symm hj]
  · intro j hj
    rcases update_cases hj with ⟨-, hj⟩ | ⟨-, hj⟩
    · exact absurd hj hconsuming
    · exact hi.consuming j hj
  · intro j hj
    rcases update_cases hj with ⟨-, hj⟩ | ⟨-, hj⟩
    · exact absurd hj hunlocking
    · exact hi.unlocking j hj
  · intro j t phase hj
    have hj' : s.threads j = .sleeping t phase false :=
      threads_of_critical hj hp rfl
    refine (hi.awake j t phase hj').imp id ?_
    rintro ⟨k, hk⟩
    have hck := hnone k
    rw [hk] at hck
    cases hck

/-- A thread unlocks the mutex. -/
theorem Inv.unlock (hi : Inv manual s) {i : ι} (hc : (s.threads i).critical = true)
    (hbroadcasting : s.threads i ≠ .broadcasting) {p : Place} (hp : p.critical = false)
    (hsleeping : ∀ t phase, p = .sleeping t phase false → s.eventStatus = false) :
    Inv manual (s.unlock i p) := by
  have hother : ∀ j, j ≠ i → (s.threads j).critical = false := by
    intro j hj
    by_contra hne
    exact hj (hi.alone hc (by simpa using hne))
  constructor
  · exact hi.isManualReset
  · intro j
    by_cases hj : j = i
    · subst hj
      simp [State.unlock, State.setThread, hp]
    · simp [State.unlock, State.setThread, hj, hother j hj]
  · intro j hj
    exact hi.consuming j (threads_of_critical hj hp rfl)
  · intro j hj
    exact hi.unlocking j (threads_of_critical hj hp rfl)
  · intro j t phase hj
    rcases update_cases hj with ⟨-, hj⟩ | ⟨-, hj⟩
    · exact .inl (hsleeping t phase hj)
    · refine (hi.awake j t phase hj).imp id ?_
      rintro ⟨k, hk⟩
      have hki : k ≠ i := fun hki => hbroadcasting (hki ▸ hk)
      exact ⟨k, (Function.update_of_ne hki _ _).trans hk⟩

omit [DecidableEq ι] in
theorem critical_notify (p : Place) : p.notify.critical = p.critical := by
  cases p <;> rfl

omit [DecidableEq ι] in
/-- A broadcast moves nobody who is awake. -/
theorem eq_of_notify_eq {p q : Place} (h : p.notify = q)
    (hq : ∀ t phase notified, q ≠ .sleeping t phase notified) : p = q := by
  cases p with
  | sleeping t phase notified => exact absurd h.symm (hq t phase true)
  | _ => exact h

omit [DecidableEq ι] in
theorem notify_ne_sleeping (p : Place) (t : Timeouts) (phase : Phase) :
    p.notify ≠ .sleeping t phase false := by
  cases p <;> simp [Place.notify]

/-- A broadcast leaves nobody asleep. -/
theorem Inv.broadcast (hi : Inv manual s) {i : ι} (hc : s.threads i = .broadcasting) :
    Inv manual ({ s with threads := fun j => (s.threads j).notify }.setThread i .setUnlocking) := by
  have hnotify : ∀ j, (s.threads j).notify.critical = (s.threads j).critical :=
    fun j => critical_notify _
  constructor
  · exact hi.isManualReset
  · intro j
    refine (hi.exclusive j).trans ?_
    by_cases hj : j = i
    · subst hj
      simp [State.setThread, hc, Place.critical]
    · simp [State.setThread, hj, hnotify j]
  · intro j hj
    rcases update_cases hj with ⟨-, hj⟩ | ⟨-, hj⟩
    · cases hj
    · exact hi.consuming j (eq_of_notify_eq hj (by simp))
  · intro j hj
    rcases update_cases hj with ⟨-, hj⟩ | ⟨-, hj⟩
    · cases hj
    · exact hi.unlocking j (eq_of_notify_eq hj (by simp))
  · intro j t phase hj
    rcases update_cases hj with ⟨-, hj⟩ | ⟨-, hj⟩
    · cases hj
    · exact absurd hj (notify_ne_sleeping _ t phase)

/-- **One step.** -/
theorem Inv.step (hi : Inv manual s) (hst : Step s a s' out) : Inv manual s' := by
  cases hst with
  | call hn hp hsleeping =>
    exact hi.outside (by rw [hn]; rfl) hp fun t phase => hsleeping t phase false
  | lock hc hm hp hbroadcasting hconsuming hunlocking =>
    exact hi.lock hc hm hp hconsuming hunlocking
  | set hn =>
    exact hi.within (by rw [hn]; rfl) rfl (by simp) (by simp) (.inr (.inl rfl))
  | broadcast hn => exact hi.broadcast hn
  | setUnlock hn => exact hi.unlock (by rw [hn]; rfl) (by simp [hn]) rfl (by simp)
  | reset hn => exact hi.within (by rw [hn]; rfl) rfl (by simp) (by simp) (.inl rfl)
  | resetUnlock hn => exact hi.unlock (by rw [hn]; rfl) (by simp [hn]) rfl (by simp)
  | sleep hn hstatus => exact hi.unlock (by rw [hn]; rfl) (by simp [hn]) rfl fun _ _ _ => hstatus
  | warn hn =>
    exact hi.within (by rw [hn]; rfl) rfl (by simp) (by simp) (.inr (.inr ⟨rfl, by simp [hn]⟩))
  | @leave i t phase error hn hstatus =>
    refine hi.within (by rw [hn]; rfl) rfl (fun h => hstatus ?_) (by simp)
      (.inr (.inr ⟨rfl, by simp [hn]⟩))
    simpa using h
  | wake hn => exact hi.outside (by rw [hn]; rfl) rfl (by simp)
  | consume hn =>
    have hstatus := hi.consuming _ hn
    refine hi.within (by rw [hn]; rfl) rfl (by simp) (fun _ => ?_) ?_
    · rw [hstatus, Bool.and_true, hi.isManualReset]
    · cases hm : s.isManualReset with
      | false => exact .inl rfl
      | true => exact .inr (.inr ⟨by rw [Bool.true_and], by simp [hn]⟩)
  | fail hn herror =>
    exact hi.within (by rw [hn]; rfl) rfl (by simp) (fun h => absurd (by simpa using h) herror)
      (.inr (.inr ⟨rfl, by simp [hn]⟩))
  | waitUnlock hn => exact hi.unlock (by rw [hn]; rfl) (by simp [hn]) rfl (by simp)

theorem abs_holder (hi : Inv manual s) {i : ι} (hc : (s.threads i).critical = true) :
    abs s = if s.threads i = .waitUnlocking 0 then true else s.eventStatus := by
  rw [abs]
  rw [(hi.exclusive i).mpr hc]

theorem abs_holder_eq (hi : Inv manual s) {i : ι} (hc : (s.threads i).critical = true)
    (hne : s.threads i ≠ .waitUnlocking 0) : abs s = s.eventStatus := by
  rw [abs_holder hi hc, if_neg hne]

theorem abs_free (hm : s.eventMutex = none) : abs s = s.eventStatus := by
  rw [abs]
  rw [hm]

/-- What is done without the mutex is nothing to the flag. -/
theorem abs_outside (hi : Inv manual s) {i : ι} (hc : (s.threads i).critical = false) (p : Place) :
    abs (s.setThread i p) = abs s := by
  cases hm : s.eventMutex with
  | none =>
    have hm' : (s.setThread i p).eventMutex = none := hm
    rw [abs_free hm', abs_free hm]
    rfl
  | some j =>
    have hji : j ≠ i := by
      rintro rfl
      rw [(hi.exclusive j).mp hm] at hc
      cases hc
    simp only [abs]
    simp only [State.setThread, hm, Function.update_of_ne hji]

theorem abs_step (hi : Inv manual s) (hst : Step s a s' out) :
    (flag ι manual initially).Path (abs s) out (abs s') := by
  have hi' := hi.step hst
  cases hst with
  | call hn hp hsleeping =>
    rw [abs_outside hi (by rw [hn]; rfl)]
    exact .nil _
  | @lock i p hc hm hp hbroadcasting hconsuming hunlocking =>
    rw [abs_free hm, abs_holder_eq hi' (i := i) (by simpa [State.setThread] using hp)
      (by simpa [State.setThread] using hunlocking)]
    exact .nil _
  | @set i hn =>
    rw [abs_holder_eq hi' (i := i) (by simp [State.setThread, Place.critical])
      (by simp [State.setThread])]
    exact .single (.set _ i)
  | @broadcast i hn =>
    rw [abs_holder_eq hi (i := i) (by rw [hn]; rfl) (by simp [hn]),
      abs_holder_eq hi' (i := i) (by simp [State.setThread, Place.critical])
        (by simp [State.setThread])]
    exact .nil _
  | @setUnlock i hn =>
    rw [abs_holder_eq hi (i := i) (by rw [hn]; rfl) (by simp [hn]), abs_free rfl]
    exact .nil _
  | @reset i hn =>
    rw [abs_holder_eq hi' (i := i) (by simp [State.setThread, Place.critical])
      (by simp [State.setThread])]
    exact .single (.reset _ i)
  | @resetUnlock i hn =>
    rw [abs_holder_eq hi (i := i) (by rw [hn]; rfl) (by simp [hn]), abs_free rfl]
    exact .nil _
  | @sleep i t phase hn hstatus =>
    rw [abs_holder_eq hi (i := i) (by rw [hn]; rfl) (by simp [hn]), abs_free rfl]
    exact .nil _
  | @warn i t hn =>
    rw [abs_holder_eq hi (i := i) (by rw [hn]; rfl) (by simp [hn]),
      abs_holder_eq hi' (i := i) (by simp [State.setThread, Place.critical])
        (by simp [State.setThread])]
    exact .single (.warned _ i)
  | @leave i t phase error hn hstatus =>
    rw [abs_holder_eq hi (i := i) (by rw [hn]; rfl) (by simp [hn]),
      abs_holder_eq hi' (i := i) (by simp [State.setThread, Place.critical])
        (by simp [State.setThread])]
    exact .nil _
  | wake hn =>
    rw [abs_outside hi (by rw [hn]; rfl)]
    exact .nil _
  | @consume i hn =>
    -- the flag is taken when the mutex is unlocked, and not before
    rw [abs_holder_eq hi (i := i) (by rw [hn]; rfl) (by simp [hn]),
      abs_holder hi' (i := i) (by simp [State.setThread, Place.critical])]
    simp only [State.setThread, Function.update_self, if_true]
    rw [hi.consuming i hn]
    exact .nil _
  | @fail i error hn herror =>
    rw [abs_holder_eq hi (i := i) (by rw [hn]; rfl) (by simp [hn]),
      abs_holder_eq hi' (i := i) (by simp [State.setThread, Place.critical])
        (by simpa [State.setThread] using herror)]
    exact .nil _
  | @waitUnlock i error hn =>
    rw [abs_holder hi (i := i) (by rw [hn]; rfl), abs_free rfl, hn]
    by_cases herror : error = 0
    · subst herror
      have hstatus : (s.unlock i .idle).eventStatus = manual := hi.unlocking i hn
      rw [if_pos rfl, hstatus]
      exact .single (.taken i)
    · rw [if_neg (by simpa using herror), decide_eq_false herror]
      exact .single (.gaveUp _ i)

/-- **Refinement.** An event is a flag. -/
theorem refines (manual initially : Bool) : (machine ι manual initially).Refines
    (flag ι manual initially) (Inv manual) abs where
  start := by
    rintro s rfl
    exact ⟨Inv.initial, rfl⟩
  step := by
    intro s a s' out hi hst
    have hst := step_cases hst
    exact ⟨hi.step hst, abs_step hi hst⟩

/-! ## The law -/

/-- What is promised of an event. -/
structure EventLaw (manual initially : Bool) (h : List (Observation ι)) (s : State ι) : Prop where
  /-- The status is that of a flag, whenever the mutex is free. -/
  accepted : ∃ b, (flag ι manual initially).Accepts h b ∧
    (s.eventMutex = none → s.eventStatus = b)
  /-- Every `Wait` that has returned true has a `Set` of its own, but one if the event was set when
  it was constructed. -/
  count : manual = false →
    h.countP (·.taken) ≤ initially.toNat + h.countP (·.sets)
  /-- Between two of them there is a `Set`. -/
  between : manual = false → ∀ h₁ h₂ h₃ i j,
    h = h₁ ++ .returned i true :: (h₂ ++ .returned j true :: h₃) →
      ∃ o ∈ h₂, Observation.sets o = true
  /-- After a `Set`, and until a `Reset` or until one `Wait` has returned true, the event is set,
  whenever the mutex is free. -/
  kept : ∀ h₁ i h₂, h = h₁ ++ .set i :: h₂ → (∀ o ∈ h₂, Observation.resets o = false) →
    (manual = true ∨ ∀ o ∈ h₂, Observation.taken o = false) → s.eventMutex = none →
      s.eventStatus = true
  /-- Only `Set`, `Reset` and a `Wait` that is going to return true change the status. -/
  changed : ∀ a s' out, s.step a = some (s', out) → s'.eventStatus ≠ s.eventStatus →
    ∃ i, out = [.set i] ∨ out = [.reset i] ∨ a = .goOn i ∧ s'.threads i = .waitUnlocking 0
  /-- Nobody sleeps while the event is set, unless they have been broadcast to or are about to
  be. -/
  awake : s.eventStatus = true → ∀ i t phase notified, s.threads i = .sleeping t phase notified →
    notified = true ∨ ∃ j, s.threads j = .broadcasting
  /-- While the event is set and the mutex is free, a `Wait` that is called returns true. -/
  answered : s.eventStatus = true → s.eventMutex = none → ∀ i giveUpAfter warnAfter,
    s.threads i = .idle → ∃ s', (machine ι manual initially).exec s
      [.wait i giveUpAfter warnAfter, .goOn i, .goOn i, .goOn i, .goOn i] =
        some (s', [.returned i true])

theorem Step.status_eq (hst : Step s a s' out) (hne : s'.eventStatus ≠ s.eventStatus) :
    ∃ i, out = [.set i] ∨ out = [.reset i] ∨ a = .goOn i ∧ s'.threads i = .waitUnlocking 0 := by
  cases hst with
  | @set i hn => exact ⟨i, .inl rfl⟩
  | @reset i hn => exact ⟨i, .inr (.inl rfl)⟩
  | @consume i hn => exact ⟨i, .inr (.inr ⟨rfl, Function.update_self _ _ _⟩)⟩
  | _ => exact absurd rfl hne

/-- A `Wait` that finds the event set takes five steps. -/
theorem exec_wait (hstatus : s.eventStatus = true) (hm : s.eventMutex = none) {i : ι}
    (hi : s.threads i = .idle) (giveUpAfter warnAfter : TimeDelta) :
    ∃ s', (machine ι manual initially).exec s
      [.wait i giveUpAfter warnAfter, .goOn i, .goOn i, .goOn i, .goOn i] =
        some (s', [.returned i true]) := by
  -- the thread goes from one place to the next, and finds the event set at the head of the loop
  have hcall : s.step (.wait i giveUpAfter warnAfter) =
      some (s.setThread i (.waitLocking (timeouts giveUpAfter warnAfter)), []) := if_pos hi
  generalize timeouts giveUpAfter warnAfter = t at hcall
  obtain ⟨phase, hphase⟩ : ∃ phase, phase = if t.warn then Phase.warn else .giveUp := ⟨_, rfl⟩
  have hlock : (s.setThread i (.waitLocking t)).step (.goOn i) =
      some ({ s with eventMutex := some i }.setThread i (.looping t phase 0), []) := by
    simp [State.step, State.goOn, State.setThread, State.lock, hm, hphase]
  have hleave : ({ s with eventMutex := some i }.setThread i (.looping t phase 0)).step (.goOn i) =
      some ({ s with eventMutex := some i }.setThread i (.consuming 0), []) := by
    simp [State.step, State.goOn, State.setThread, hstatus, ETIMEDOUT]
  have hconsume : ∃ s' : State ι,
      ({ s with eventMutex := some i }.setThread i (.consuming 0)).step (.goOn i) =
        some (s'.setThread i (.waitUnlocking 0), []) := by
    simp only [State.step, State.goOn, State.setThread, Function.update_self]
    split
    · exact ⟨_, rfl⟩
    · exact ⟨_, rfl⟩
  obtain ⟨s₁, hconsume⟩ := hconsume
  have hunlock : (s₁.setThread i (.waitUnlocking 0)).step (.goOn i) =
      some ((s₁.setThread i (.waitUnlocking 0)).unlock i .idle, [.returned i true]) := by
    simp [State.step, State.goOn, State.setThread]
  have hdone : (machine ι manual initially).exec (s₁.setThread i (.waitUnlocking 0)) [.goOn i] =
      some (_, [.returned i true]) := Machine.exec_cons.mpr ⟨_, _, _, hunlock, rfl, rfl⟩
  have hconsumed : (machine ι manual initially).exec
      ({ s with eventMutex := some i }.setThread i (.consuming 0)) [.goOn i, .goOn i] =
        some (_, [.returned i true]) := Machine.exec_cons.mpr ⟨_, _, _, hconsume, hdone, rfl⟩
  have hleft : (machine ι manual initially).exec
      ({ s with eventMutex := some i }.setThread i (.looping t phase 0))
      [.goOn i, .goOn i, .goOn i] = some (_, [.returned i true]) :=
    Machine.exec_cons.mpr ⟨_, _, _, hleave, hconsumed, rfl⟩
  have hlocked : (machine ι manual initially).exec (s.setThread i (.waitLocking t))
      [.goOn i, .goOn i, .goOn i, .goOn i] = some (_, [.returned i true]) :=
    Machine.exec_cons.mpr ⟨_, _, _, hlock, hleft, rfl⟩
  exact ⟨_, Machine.exec_cons.mpr ⟨_, _, _, hcall, hlocked, rfl⟩⟩

/-- **The event law.** -/
theorem event_law (hr : (machine ι manual initially).Reaches h s) :
    EventLaw manual initially h s := by
  obtain ⟨hi, ha⟩ := (refines manual initially).accepts hr
  constructor
  · exact ⟨abs s, ha, fun hm => (abs_free hm).symm⟩
  · rintro rfl
    exact (Nat.le_add_right _ _).trans (flag_count ha)
  · rintro rfl h₁ h₂ h₃ i j rfl
    by_contra hnone
    push Not at hnone
    obtain ⟨t, -, hp⟩ := ha.cut
    cases hp with
    | cons hn hp =>
      cases hn
      obtain ⟨b, hp₂, hp₃⟩ := hp.cut
      obtain ⟨rfl, -⟩ := flag_quiet hp₂ rfl (by simpa using hnone)
      cases hp₃ with
      | cons hn' _ => cases hn'
  · rintro h₁ i h₂ rfl hresets htaken hm
    obtain ⟨t, -, hp⟩ := ha.cut
    cases hp with
    | cons hn hp =>
      cases hn
      rw [← abs_free hm]
      exact flag_kept hp rfl hresets htaken
  · exact fun a s' out hst => (step_cases hst).status_eq
  · intro hstatus i t phase notified hs
    cases notified with
    | true => exact .inl rfl
    | false =>
      refine .inr ((hi.awake i t phase hs).resolve_left ?_)
      simp [hstatus]
  · exact fun hstatus hm i giveUpAfter warnAfter hidle => exec_wait hstatus hm hidle _ _

/-- A run: one thread is broadcast to while it waits until it is time to warn. -/
def broadcastRun : List (Action ℕ) :=
  [.wait 1 .plusInfinity ⟨3000000⟩, .goOn 1, .goOn 1, .set 0, .goOn 0, .goOn 0, .goOn 0, .goOn 0,
    .wake 1 0, .goOn 1, .goOn 1, .goOn 1, .goOn 1]

theorem event_law_run : ∃ s, (machine ℕ false false).Reaches [.set 0, .returned 1 true] s ∧
    EventLaw false false [.set 0, .returned 1 true] s := by
  obtain ⟨s, hs⟩ : ∃ s, (machine ℕ false false).exec (.initial false false) broadcastRun =
      some (s, [.set 0, .returned 1 true]) := ⟨_, rfl⟩
  have hr := Machine.Reaches.of_exec (M := machine ℕ false false) rfl hs
  exact ⟨s, hr, event_law hr⟩

/-- An event that was set when it was constructed lets one `Wait` return true without a `Set`. -/
theorem taken_without_set : ∃ s, (machine ℕ false true).Reaches [.returned 1 true] s ∧
    ¬ List.countP Observation.taken [.returned 1 true] ≤
      List.countP Observation.sets [(.returned 1 true : Observation ℕ)] := by
  obtain ⟨s, hs⟩ : ∃ s, (machine ℕ false true).exec (.initial false true)
      [.wait 1 .plusInfinity ⟨3000000⟩, .goOn 1, .goOn 1, .goOn 1, .goOn 1] =
        some (s, [.returned 1 true]) := ⟨_, rfl⟩
  exact ⟨s, Machine.Reaches.of_exec (M := machine ℕ false true) rfl hs, by decide⟩

end Event

end TQLib
