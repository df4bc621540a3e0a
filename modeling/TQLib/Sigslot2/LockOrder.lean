import TQLib.Sigslot2.Scopes

/-!
# The order of the locks

A thread that asks for a lock may own others. `disconnect` and `disconnectAll` of a signal ask for
the lock of a receiver under that of the signal; `disconnectAll` and `buildConnections4` of a
receiver ask for the lock of a signal under that of the receiver; and a slot that `emit` calls
directly asks for whatever it likes under the lock of the signal. So there is no order of the locks
that all of them respect, and threads can wait for each other in a circle.

They cannot if the calls that are made respect an order. The destructor of a receiver is no
exception to it: nobody else has to do with the lock of a receiver that is being destroyed, so the
locks it asks for need not be above that one.

## Main results

* `locks_in_order` — no cycle in any run in which locks are asked for in some order
* `lock_cycle` — a signal that disconnects a receiver, which disconnects its signals meanwhile
-/

namespace TQLib

namespace Sigslot2

variable {θ ς ρ π : Type*} [DecidableEq θ] [DecidableEq ς] [DecidableEq ρ]

/-- The lock that a thread has asked for and another thread owns. -/
def State.wants (s : State θ ς ρ) (a : θ) : Option (Lock ς ρ) :=
  match s.stack a with
  | .blocked b :: _ => some b.lock
  | _ => none

/-- The thread `a` waits for a lock that the thread `b` owns. -/
def State.Waits (s : State θ ς ρ) : θ → θ → Prop := WaitsFor s.wants fun b l => b ∈ s.locks l

/-- The locks of the scopes a thread is in. -/
def State.entered (s : State θ ς ρ) (a : θ) : List (Lock ς ρ) :=
  (s.stack a).filterMap fun
    | .leave l => some l
    | _ => none

/-- The lock is that of a receiver whose destructor has begun. -/
def State.doomed (s : State θ ς ρ) : Lock ς ρ → Bool
  | .signal _ => false
  | .receiver r => !s.objects.alive r

/-- The scope a thread is about to enter. -/
def State.asks (s : State θ ς ρ) (a : θ) : Option (Block θ ς ρ) :=
  match s.stack a with
  | .enter b :: _ => some b
  | _ => none

/-- A thread that asks for a lock it does not own has only entered locks below it, but for those of
the receivers it destroys. -/
def InOrder [LT π] (rank : Lock ς ρ → π) (s : State θ ς ρ) : Action θ ς ρ → Prop
  | .step a => ∀ b ∈ s.asks a, b.lock ∈ s.entered a ∨
      ∀ l ∈ s.entered a, s.doomed l = true ∨ rank l < rank b.lock
  | _ => True

instance [LT π] [DecidableLT π] (rank : Lock ς ρ → π) (s : State θ ς ρ) :
    (act : Action θ ς ρ) → Decidable (InOrder rank s act)
  | .step a => inferInstanceAs (Decidable (∀ b ∈ s.asks a, b.lock ∈ s.entered a ∨
      ∀ l ∈ s.entered a, s.doomed l = true ∨ rank l < rank b.lock))
  | .call _ _ => .isTrue trivial
  | .ret _ => .isTrue trivial
  | .run _ => .isTrue trivial
  | .discard _ => .isTrue trivial
  | .destroy _ _ => .isTrue trivial
  | .quit _ => .isTrue trivial

theorem Sound.mem_entered {s : State θ ς ρ} (h : Sound s) {a : θ} {l : Lock ς ρ} :
    l ∈ s.entered a ↔ a ∈ s.locks l := by
  rw [h.locks.mem_iff, State.entered, List.mem_filterMap]
  constructor
  · rintro ⟨i, hi, hl⟩
    cases i <;> simp_all
  · exact fun hl => ⟨_, hl, rfl⟩

/-! ## Blocked threads -/

/-- A thread is blocked only by what it does next, and it has entered only locks below the one it
waits for. -/
structure BlockedBelow [LT π] (rank : Lock ς ρ → π) (s : State θ ς ρ) : Prop where
  /-- Nothing is done after a lock has been found taken. -/
  top : ∀ a b, .blocked b ∉ (s.stack a).tail
  /-- What a blocked thread owns is below what it waits for. -/
  below : ∀ a b is, s.stack a = .blocked b :: is → a ∉ s.locks b.lock ∧
    ∀ l, a ∈ s.locks l → s.doomed l = true ∨ rank l < rank b.lock

section Steps

variable {s s' : State θ ς ρ} {a : θ}

/-- What a step pushes is blocked only where a lock was found taken. -/
theorem Executes.blocked {i : Instr θ ς ρ} {code : List (Instr θ ς ρ)}
    {out : List (Observation θ ς)} (h : Executes s a i s' code out) {b : Block θ ς ρ}
    (hb : .blocked b ∈ code) : code = [.blocked b] ∧ i = .enter b ∧ s.available a b.lock = false ∧
      s' = s := by
  cases h with
  | block b' hb' =>
    obtain rfl : b = b' := by simpa using hb
    exact ⟨rfl, rfl, hb', rfl⟩
  | body b' => cases b'.body_pushes s.objects _ hb
  | emitReach _ _ _ hdel =>
    rcases List.mem_append.mp hb with hb | hb
    · cases hdel <;> simp at hb
    · simp at hb
  | _ => simp at hb

namespace BlockedBelow

variable [LT π] {rank : Lock ς ρ → π}

omit [DecidableEq θ] [DecidableEq ς] [DecidableEq ρ] in
/-- A thread that does not wait for a lock next does not do so later. -/
theorem unblocked (h : BlockedBelow rank s) (hnext : ∀ b is, s.stack a ≠ .blocked b :: is)
    (b : Block θ ς ρ) : .blocked b ∉ s.stack a := by
  intro hb
  cases hstack : s.stack a with
  | nil => simp [hstack] at hb
  | cons i is =>
    have htop := h.top a b
    rw [hstack] at hb htop
    rcases List.mem_cons.mp hb with rfl | hb
    · exact hnext b is hstack
    · exact htop hb

omit [DecidableEq ς] [DecidableEq ρ] in
/-- The stack of the thread `a` is replaced by one without a wait for a lock. -/
theorem replace (h : BlockedBelow rank s) {is : List (Instr θ ς ρ)}
    (hstack : s'.stack = Function.update s.stack a is) (hnot : ∀ b, .blocked b ∉ is)
    (hlocks : ∀ l b, b ∈ s'.locks l → b ≠ a → b ∈ s.locks l)
    (hdoomed : ∀ l, s.doomed l = true → s'.doomed l = true) : BlockedBelow rank s' := by
  constructor
  · intro c b hb
    rw [hstack] at hb
    rcases eq_or_ne c a with rfl | hne
    · rw [Function.update_self] at hb
      exact hnot b (List.mem_of_mem_tail hb)
    · rw [Function.update_of_ne hne] at hb
      exact h.top c b hb
  · intro c b js hc
    rw [hstack] at hc
    rcases eq_or_ne c a with rfl | hne
    · rw [Function.update_self] at hc
      exact absurd (hc ▸ List.mem_cons_self) (hnot b)
    · rw [Function.update_of_ne hne] at hc
      obtain ⟨hown, hbelow⟩ := h.below c b js hc
      exact ⟨fun hmem => hown (hlocks _ c hmem hne),
        fun l hl => (hbelow l (hlocks l c hl hne)).imp_left (hdoomed l)⟩

omit [DecidableEq ς] [DecidableEq ρ] in
/-- User code and destructors run on threads that do not wait. -/
theorem push (h : BlockedBelow rank s) {code : List (Instr θ ς ρ)}
    (hstack : s'.stack = Function.update s.stack a (code ++ s.stack a))
    (hnext : ∀ b is, s.stack a ≠ .blocked b :: is) (hcode : ∀ b, .blocked b ∉ code)
    (hlocks : s'.locks = s.locks) (hdoomed : ∀ l, s.doomed l = true → s'.doomed l = true) :
    BlockedBelow rank s' := by
  refine h.replace hstack (fun b hb => ?_) (fun l b hb _ => by rwa [hlocks] at hb) hdoomed
  rcases List.mem_append.mp hb with hb | hb
  · exact hcode b hb
  · exact h.unblocked hnext b hb

/-- A thread finds a lock taken. -/
theorem block (h : BlockedBelow rank s) (hs : Sound s) {b : Block θ ς ρ}
    {is : List (Instr θ ς ρ)} (hstack : s.stack a = .enter b :: is)
    (htaken : s.available a b.lock = false) (horder : InOrder rank s (.step a)) :
    BlockedBelow rank (s.setStack a (.blocked b :: is)) := by
  have hnot : a ∉ s.locks b.lock := by
    intro ha
    obtain ⟨c, hc, hne⟩ := List.all_eq_false.mp htaken
    exact hne (decide_eq_true (hs.exclusive b.lock c a hc ha))
  constructor
  · intro c b' hb'
    simp only [State.setStack] at hb'
    rcases eq_or_ne c a with rfl | hne
    · rw [Function.update_self] at hb'
      exact h.top c b' (by simpa [hstack] using hb')
    · rw [Function.update_of_ne hne] at hb'
      exact h.top c b' hb'
  · intro c b' js hc
    simp only [State.setStack] at hc
    rcases eq_or_ne c a with rfl | hne
    · rw [Function.update_self] at hc
      cases hc
      refine ⟨hnot, fun l hl => ?_⟩
      rcases horder b (by simp [State.asks, hstack]) with hown | hbelow
      · exact absurd (hs.mem_entered.mp hown) hnot
      · exact hbelow l (hs.mem_entered.mpr hl)
    · rw [Function.update_of_ne hne] at hc
      exact h.below c b' js hc

/-- A thread does what is next. -/
theorem executes (h : BlockedBelow rank s) (hs : Sound s) {i : Instr θ ς ρ}
    {is code : List (Instr θ ς ρ)} {out : List (Observation θ ς)} (hstack : s.stack a = i :: is)
    (hex : Executes s a i s' code out) (horder : InOrder rank s (.step a)) :
    BlockedBelow rank (s'.setStack a (code ++ is)) := by
  have hnot : ∀ b, .blocked b ∉ is := fun b hb => h.top a b (by simpa [hstack] using hb)
  by_cases hblocked : ∃ b, .blocked b ∈ code
  · obtain ⟨b, hb⟩ := hblocked
    obtain ⟨rfl, rfl, htaken, rfl⟩ := hex.blocked hb
    exact h.block hs hstack htaken horder
  · rw [not_exists] at hblocked
    refine h.replace (by rw [State.setStack, hex.stack]) (fun b hb => ?_) (fun l b hb hne => ?_) ?_
    · exact (List.mem_append.mp hb).elim (hblocked b) (hnot b)
    · exact (hex.locks.mem hb).resolve_right fun hb => hne hb.1
    · intro l
      cases l <;> simp [State.doomed, State.setStack, hex.alive]

/-- **One step.** -/
theorem step (h : BlockedBelow rank s) (hs : Sound s) {act : Action θ ς ρ}
    {out : List (Observation θ ς)} (horder : InOrder rank s act)
    (hst : s.step act = some (s', out)) : BlockedBelow rank s' := by
  have huser : ∀ {c}, s.userCode c = true → ∀ b is, s.stack c ≠ .blocked b :: is := by
    intro c hc b is hstack
    simp [State.userCode, hstack] at hc
  cases step_cases hst with
  | @call a c hc =>
    obtain ⟨hstack, hlocks, hobjects, -⟩ := Sound.foldl_retain c.receivers s a
    refine h.push (by rw [State.setStack, hstack]) (huser hc) ?_ hlocks ?_
    · intro b
      cases c <;> simp [Call.code]
    · intro l
      cases l <;> simp [State.doomed, State.setStack, hobjects]
  | @ret a g n is hstack =>
    refine h.replace rfl (fun b hb => h.top a b (by simpa [hstack] using hb))
      (fun l b hb _ => hb) ?_
    exact fun l hl => hl
  | step hstack hex => exact h.executes hs hstack hex horder
  | @run i t task _ ht =>
    refine h.push rfl (huser ht) ?_ rfl fun l hl => hl
    intro b
    cases task <;> simp [Task.code]
  | discard => exact ⟨h.top, h.below⟩
  | @destroy a r hr _ hwaits =>
    refine h.push rfl ?_ (by simp) rfl ?_
    · intro b is hstack
      simp [State.waits, hstack] at hwaits
    · intro l hl
      cases l with
      | signal g => exact hl
      | receiver r' =>
        simp only [State.doomed, Bool.not_eq_true'] at hl
        show (!Function.update s.objects.alive r false r') = true
        rcases eq_or_ne r' r with rfl | hne
        · rw [Function.update_self]
          rfl
        · rw [Function.update_of_ne hne, hl]
          rfl
  | quit => exact ⟨h.top, h.below⟩

end BlockedBelow

end Steps

/-! ## No cycle -/

/-- **Locks in order.** In every run in which a thread that asks for a lock it does not own has only
entered locks below it, but for those of the receivers it destroys, no thread waits for itself
through others. -/
theorem locks_in_order [Preorder π] (rank : Lock ς ρ → π) {h : List (Observation θ ς)}
    {s : State θ ς ρ} (hr : (machine θ ς ρ).ReachesVia (InOrder rank) h s) (a : θ) :
    ¬ Relation.TransGen s.Waits a a := by
  have hs : Sound s := sound hr
  have hblocked : BlockedBelow rank s := by
    have hboth : Sound s ∧ BlockedBelow rank s := by
      refine hr.invariant (fun s => Sound s ∧ BlockedBelow rank s) ?_ ?_
      · rintro s rfl
        exact ⟨.initial, ⟨fun _ _ => nofun, fun _ _ _ => nofun⟩⟩
      · rintro s act s' out ⟨hs, hb⟩ hg hst
        exact ⟨hs.step hst, hb.step hs hg hst⟩
    exact hboth.2
  refine not_transGen_waitsFor rank ?_ a
  intro a b l l' ha hown hb
  obtain ⟨b₁, is, hstack, rfl⟩ : ∃ b₁ is, s.stack a = .blocked b₁ :: is ∧ b₁.lock = l := by
    unfold State.wants at ha
    split at ha
    · exact ⟨_, _, ‹_›, Option.some_injective _ ha⟩
    · cases ha
  obtain ⟨b₂, js, hstack', rfl⟩ : ∃ b₂ js, s.stack b = .blocked b₂ :: js ∧ b₂.lock = l' := by
    unfold State.wants at hb
    split at hb
    · exact ⟨_, _, ‹_›, Option.some_injective _ hb⟩
    · cases hb
  refine ((hblocked.below b b₂ js hstack').2 b₁.lock hown).resolve_left ?_
  -- nobody else has to do with the lock of a receiver that is being destroyed
  intro hdoomed
  cases hl : b₁.lock with
  | signal g => simp [hl, State.doomed] at hdoomed
  | receiver r =>
    have hdead : s.objects.alive r = false := by simpa [hl, State.doomed] using hdoomed
    have hleave : .leave (.receiver r) ∈ s.stack b := hs.locks.mem_iff.mp (hl ▸ hown)
    have hmem : .blocked b₁ ∈ s.stack a := hstack ▸ List.mem_cons_self
    have hab : a = b :=
      hs.destroyer_unique hdead hmem (Block.mem_uses hl) hleave (by simp [Instr.needs])
    exact (hblocked.below a b₁ is hstack).1 (hab ▸ hown)

/-- The lock of the signal before those of receivers. -/
def signalsFirst : Lock Unit Unit → ℕ
  | .signal _ => 0
  | .receiver _ => 1

/-- A signal disconnects its receiver while another thread wants to emit. -/
theorem locks_in_order_run : ∃ h, ∃ s : State Bool Unit Unit,
    (machine Bool Unit Unit).ReachesVia (InOrder signalsFirst) h s ∧ s.Waits true false ∧
    ¬ Relation.TransGen s.Waits true true := by
  obtain ⟨h, s, hex, hstack, hlocks⟩ : ∃ h s, (machine Bool Unit Unit).execVia
      (InOrder signalsFirst) State.initial
      (Action.call false (.connect () () AutoConnection none) ::
        List.replicate 7 (Action.step false) ++ [Action.call false (.disconnect () ())] ++
        List.replicate 3 (Action.step false) ++ [Action.call true (.emit ()), .step true]) =
        some (s, h) ∧
      s.stack true = [.blocked (.emit ())] ∧ s.locks (.signal ()) = [false] :=
    ⟨_, _, rfl, rfl, rfl⟩
  have hr := Machine.ReachesVia.of_execVia rfl hex
  refine ⟨h, s, hr, ⟨.signal (), ?_, ?_⟩, locks_in_order signalsFirst hr true⟩
  · simp [State.wants, hstack, Block.lock]
  · simp [hlocks]

/-- **Two threads wait for each other.** One disconnects a receiver from a signal: it owns the lock
of the signal and has found that of the receiver taken. The other disconnects the receiver from all
its signals: it owns the lock of the receiver and has found that of the signal taken. -/
theorem lock_cycle : ∃ h, ∃ s : State Bool Unit Unit, (machine Bool Unit Unit).Reaches h s ∧
    s.Waits false true ∧ s.Waits true false ∧ Relation.TransGen s.Waits false false := by
  obtain ⟨h, s, hex, hfalse, htrue, hsignal, hreceiver⟩ : ∃ h s, (machine Bool Unit Unit).exec
      State.initial
      (Action.call false (.connect () () AutoConnection none) ::
        List.replicate 7 (Action.step false) ++
        [Action.call false (.disconnect () ()), .step false, .step false,
          .call true (.detach ())] ++
        List.replicate 4 (Action.step true) ++ [Action.step false]) = some (s, h) ∧
      s.stack false = [.blocked (.removeSender () ()), .leave (.signal ()), .drop ()] ∧
      s.stack true = [.blocked (.slotDisconnect () ()), .detachLoop (), .leave (.receiver ()),
        .drop ()] ∧ s.locks (.signal ()) = [false] ∧ s.locks (.receiver ()) = [true] :=
    ⟨_, _, rfl, rfl, rfl, rfl, rfl⟩
  have hft : s.Waits false true :=
    ⟨.receiver (), by simp [State.wants, hfalse, Block.lock], by simp [hreceiver]⟩
  have htf : s.Waits true false :=
    ⟨.signal (), by simp [State.wants, htrue, Block.lock], by simp [hsignal]⟩
  exact ⟨h, s, .of_exec rfl hex, hft, htf, .head hft (.single htf)⟩

end Sigslot2

end TQLib
