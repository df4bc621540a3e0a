import TQLib.Sigslot2.Connections

/-!
# Single-shot connections

`emit` passes over a single-shot connection that has emitted, and it says so of a connection when
the slot has returned or has been posted. Between the test and that, no other thread comes to the
connection: it would need the lock of the signal. But the slot may itself emit the signal, on the
same thread, and the lock lets it in.

The argument counts. Each time an emission reaches the connection it leaves one delivery behind,
on the stack of a thread or in the queue of one, which a call of the slot uses up. So the slot is
called at most as often as the connection is reached.

## Main results

* `fires_once` — one call of the slot in any run in which no emission comes to the connection from
  inside its own slot
* `fires_twice` — a slot that emits its signal again
-/

namespace TQLib

namespace Sigslot2

variable {θ ς ρ : Type*} [DecidableEq θ] [DecidableEq ς] [DecidableEq ρ]

/-! ## Deliveries -/

/-- A call of the slot of the connection. -/
def Observation.starts (g : ς) (n : ℕ) : Observation θ ς → Bool
  | .started _ _ _ g' n' => g' = g ∧ n' = n
  | _ => false

/-- An emission that reaches the connection. -/
def Observation.reaches (g : ς) (n : ℕ) : Observation θ ς → Bool
  | .reached _ g' n' => g' = g ∧ n' = n
  | _ => false

/-- What may still call the slot of the connection. -/
def Instr.delivers (g : ς) (n : ℕ) : Instr θ ς ρ → Bool
  | .emitter _ _ g' n' => g' = g ∧ n' = n
  | .delivered _ g' n' => g' = g ∧ n' = n
  | _ => false

@[inherit_doc Instr.delivers] def Task.delivers (g : ς) (n : ℕ) : Task θ ς → Bool
  | .deliver _ g' n' => g' = g ∧ n' = n
  | .call _ g' n' => g' = g ∧ n' = n

/-- Where an emission has come to. -/
def State.comesTo (s : State θ ς ρ) (a : θ) : Option (ς × ℕ) :=
  match s.stack a with
  | .emitLoop g :: _ => (s.objects.signals g).currentIterator.map fun n => (g, n)
  | _ => none

/-- No emission comes to the connection while one on the same thread is still at it. -/
def NotReentered (g : ς) (n : ℕ) (s : State θ ς ρ) : Action θ ς ρ → Prop
  | .step a => s.comesTo a = some (g, n) → .setEmitted g n ∉ s.stack a
  | _ => True

instance (g : ς) (n : ℕ) (s : State θ ς ρ) :
    (act : Action θ ς ρ) → Decidable (NotReentered g n s act)
  | .step a => inferInstanceAs (Decidable (s.comesTo a = some (g, n) → .setEmitted g n ∉ s.stack a))
  | .call _ _ => .isTrue trivial
  | .ret _ => .isTrue trivial
  | .run _ => .isTrue trivial
  | .discard _ => .isTrue trivial
  | .destroy _ _ => .isTrue trivial
  | .quit _ => .isTrue trivial

/-- How many deliveries there are in the queues. -/
def State.queued (s : State θ ς ρ) (g : ς) (n : ℕ) : ℕ := s.posted.countP fun x => x.2.delivers g n

/-- What is known of a connection after the observations `h`. -/
structure Once (g : ς) (n : ℕ) (h : List (Observation θ ς)) (s : State θ ς ρ) : Prop where
  /-- The slot has been called at most as often as the connection has been reached, and every
  delivery left may call it once more. -/
  deliveries : ∃ p, Totals (fun a => (s.stack a).countP (Instr.delivers g n)) p ∧
    h.countP (Observation.starts g n) + p + s.queued g n ≤ h.countP (Observation.reaches g n)
  /-- If the connection is a single shot it has been reached at most once, and if it has been
  reached it has emitted, or the emission is still at it. -/
  emitted : (s.connection g n).isSingleShot = true →
    h.countP (Observation.reaches g n) ≤ 1 ∧ (h.countP (Observation.reaches g n) = 1 →
      (s.connection g n).hasEmitted = true ∨ ∃ a, .setEmitted g n ∈ s.stack a)

/-! ## One step -/

variable {s s' : State θ ς ρ} {a : θ} {i : Instr θ ς ρ} {code : List (Instr θ ς ρ)}
  {out : List (Observation θ ς)} {g : ς} {n : ℕ}

omit [DecidableEq θ] [DecidableEq ρ] in
theorem Delivers.deliveries {g₁ : ς} {n₁ : ℕ} {c : Connection θ ρ}
    (h : Delivers s a g₁ n₁ c s' code) (g : ς) (n : ℕ) :
    code.countP (Instr.delivers g n) + s'.queued g n ≤
      s.queued g n + if g₁ = g ∧ n₁ = n then 1 else 0 := by
  cases h <;> simp [Instr.delivers, State.queued, State.post, Task.delivers, List.countP_cons,
    Nat.add_comm]

/-- A step leaves behind no more deliveries than it finds, but for one to each connection it
reaches, and it uses one up to call a slot. -/
theorem Executes.deliveries (h : Executes s a i s' code out) (g : ς) (n : ℕ) :
    out.countP (Observation.starts g n) + code.countP (Instr.delivers g n) + s'.queued g n ≤
      (if i.delivers g n then 1 else 0) + s.queued g n + out.countP (Observation.reaches g n) := by
  cases h with
  | body b =>
    have hcode : (b.body s.objects).2.1.countP (Instr.delivers g n) = 0 := by
      refine List.countP_eq_zero.mpr fun i hi => ?_
      cases b.body_pushes s.objects i hi <;> simp [Instr.delivers]
    have hout : (b.body s.objects).2.2.countP (Observation.starts g n) = 0 := by
      refine List.countP_eq_zero.mpr fun e he => ?_
      obtain ⟨_, _, _, _, rfl, -⟩ := b.body_out s.objects he
      simp [Observation.starts]
    rw [hcode, hout]
    show 0 + 0 + s.queued g n ≤ _
    omega
  | emitReach g₁ _ _ hdel =>
    refine Nat.le_trans ?_ ((hdel.deliveries g n).trans ?_)
    · simp [Instr.delivers, Observation.starts]
    · simp only [Observation.reaches, Instr.delivers, List.countP_singleton, decide_eq_true_eq]
      show s.queued g n + _ ≤ _
      omega
  | callFunc | callMethod | delivered =>
    show _ + _ + s.queued g n ≤ _
    simp [Observation.starts, Observation.reaches, Instr.delivers, List.countP_cons]
  | detach r gs =>
    show _ + _ + s.queued g n ≤ _
    simp [Instr.delivers, List.countP_map, Function.comp_def]
  | _ =>
    show _ + _ + s.queued g n ≤ _
    simp [Instr.delivers]

omit [DecidableEq θ] [DecidableEq ρ] in
/-- A task leaves the queue. -/
theorem queued_eraseIdx {i : ℕ} {t : θ} {task : Task θ ς} (hi : s.posted[i]? = some (t, task))
    (g : ς) (n : ℕ) : s.queued g n =
      (s.posted.eraseIdx i).countP (fun x => x.2.delivers g n) +
        if task.delivers g n then 1 else 0 := by
  obtain ⟨hlt, heq⟩ := List.getElem?_eq_some_iff.mp hi
  rw [State.queued, ← (List.getElem_cons_eraseIdx_perm hlt).countP_eq, List.countP_cons, heq]

/-- **One step** leaves the count in order. -/
theorem Once.deliveries_step {h : List (Observation θ ς)} {act : Action θ ς ρ} {p : ℕ}
    (hp : Totals (fun a => (s.stack a).countP (Instr.delivers g n)) p)
    (hle : h.countP (Observation.starts g n) + p + s.queued g n ≤
      h.countP (Observation.reaches g n)) (hst : Steps s act s' out) :
    ∃ p, Totals (fun a => (s'.stack a).countP (Instr.delivers g n)) p ∧
      (h ++ out).countP (Observation.starts g n) + p + s'.queued g n ≤
        (h ++ out).countP (Observation.reaches g n) := by
  have hmove : ∀ {b is}, s'.stack = Function.update s.stack b is →
      Totals (fun a => (s'.stack a).countP (Instr.delivers g n))
        (p - (s.stack b).countP (Instr.delivers g n) + is.countP (Instr.delivers g n)) := by
    intro b is hb
    have heq : (fun a => (s'.stack a).countP (Instr.delivers g n)) =
        Function.update (fun a => (s.stack a).countP (Instr.delivers g n)) b
          (is.countP (Instr.delivers g n)) := by
      funext c
      rw [hb]
      rcases eq_or_ne c b with rfl | hne
      · rw [Function.update_self, Function.update_self]
      · rw [Function.update_of_ne hne, Function.update_of_ne hne]
    rw [heq]
    exact hp.update b _
  have hpush : ∀ {b code}, s'.stack = Function.update s.stack b (code ++ s.stack b) →
      code.countP (Instr.delivers g n) + s'.queued g n ≤ s.queued g n →
      ∃ p, Totals (fun a => (s'.stack a).countP (Instr.delivers g n)) p ∧
        h.countP (Observation.starts g n) + p + s'.queued g n ≤
          h.countP (Observation.reaches g n) := by
    intro b code hb hcode
    have hle' : (s.stack b).countP (Instr.delivers g n) ≤ p := hp.le b
    refine ⟨_, hmove hb, ?_⟩
    rw [List.countP_append]
    omega
  cases hst with
  | @call a c =>
    obtain ⟨hstack, -, -, hposted⟩ := Sound.foldl_retain c.receivers s a
    rw [List.append_nil]
    refine hpush (by rw [State.setStack, hstack]) ?_
    have hcode : c.code.countP (Instr.delivers g n) = 0 := by
      cases c <;> simp [Call.code, Instr.delivers]
    rw [hcode, Nat.zero_add, State.queued, State.setStack, hposted, State.queued]
  | @ret a g₁ n₁ is hstack =>
    rw [List.append_nil]
    have hle' : (s.stack a).countP (Instr.delivers g n) ≤ p := hp.le a
    refine ⟨_, hmove rfl, ?_⟩
    rw [hstack, List.countP_cons_of_neg (by simp [Instr.delivers])] at hle' ⊢
    show _ + _ + s.queued g n ≤ _
    omega
  | @step a i is code s₁ out hstack hex =>
    have hcount := hex.deliveries g n
    have hle' := hp.le a
    refine ⟨_, hmove (by rw [State.setStack, hex.stack]), ?_⟩
    simp only [hstack, List.countP_cons, List.countP_append] at hle' ⊢
    show _ + _ + s₁.queued g n ≤ _
    omega
  | @run i t task hi =>
    rw [List.append_nil]
    refine hpush rfl ?_
    have hcode : (Task.code task : List (Instr θ ς ρ)).countP (Instr.delivers g n) =
        if task.delivers g n then 1 else 0 := by
      cases task <;> simp [Task.code, Instr.delivers, Task.delivers, List.countP_cons]
    rw [hcode, queued_eraseIdx hi, Nat.add_comm]
    exact le_rfl
  | @discard i t task completed hi =>
    rw [List.append_nil]
    have hqueue := queued_eraseIdx hi g n
    refine ⟨p, hp, ?_⟩
    show _ + p + (s.posted.eraseIdx i).countP (fun x => x.2.delivers g n) ≤ _
    omega
  | @destroy a r =>
    rw [List.append_nil]
    refine hpush rfl ?_
    show _ + s.queued g n ≤ _
    simp [Instr.delivers]
  | quit =>
    rw [List.append_nil]
    exact ⟨p, hp, hle⟩

omit [DecidableEq θ] in
theorem countP_reaches {h : List (Observation θ ς)} (hnone : ∀ e, .reached e g n ∉ h) :
    h.countP (Observation.reaches g n) = 0 := by
  refine List.countP_eq_zero.mpr fun e he hreach => ?_
  cases e with
  | reached e g₁ n₁ =>
    obtain ⟨rfl, rfl⟩ : g₁ = g ∧ n₁ = n := by simpa [Observation.reaches] using hreach
    exact hnone e he
  | _ => simp [Observation.reaches] at hreach

/-- An emission reaches the connection. -/
theorem Executes.reached (h : Executes s a i s' code out) {e : θ} (he : .reached e g n ∈ out) :
    i = .emitLoop g ∧ (s.objects.signals g).currentIterator = some n ∧ out = [.reached e g n] ∧
      ((s.connection g n).isSingleShot = true → (s.connection g n).hasEmitted = false) ∧
      .setEmitted g n ∈ code := by
  cases h with
  | body b =>
    obtain ⟨_, _, _, _, heq, -⟩ := b.body_out s.objects he
    cases heq
  | emitReach g₁ hn hemitted =>
    cases List.mem_singleton.mp he
    exact ⟨rfl, hn, rfl, hemitted, List.mem_append_right _ List.mem_cons_self⟩
  | callFunc | callMethod => simp at he
  | _ => cases he

omit [DecidableEq ς] [DecidableEq ρ] in
theorem Writes.hasEmitted {c c' : Connection θ ρ} (h : Writes a i out g n c c')
    (hc : c.hasEmitted = true) : c'.hasEmitted = true := by
  cases h with
  | keep => exact hc
  | settle => rwa [Connection.settle_hasEmitted]
  | setFired => rwa [Connection.setFired_hasEmitted]
  | setEmitted => rfl

/-- After the slot. -/
theorem Executes.hasEmitted_of_setEmitted (h : Executes s a (.setEmitted g n) s' code out)
    (hsingle : (s.connection g n).isSingleShot = true) : (s'.connection g n).hasEmitted = true := by
  cases h with
  | setEmitted =>
    rw [connection_modify_self]
    rfl
  | keepEmitted _ _ hemitted => exact hemitted hsingle

/-- What becomes of a single-shot connection that a thread writes. -/
theorem Once.emitted_executes {h : List (Observation θ ς)} (hs : Sound s) (hr : Recalls h s)
    (ho : Once g n h s) {is : List (Instr θ ς ρ)} (hguard : NotReentered g n s (.step a))
    (hstack : s.stack a = i :: is) (hex : Executes s a i s' code out)
    (hsingle : (s'.connection g n).isSingleShot = true) :
    (h ++ out).countP (Observation.reaches g n) ≤ 1 ∧
      ((h ++ out).countP (Observation.reaches g n) = 1 → (s'.connection g n).hasEmitted = true ∨
        ∃ b, .setEmitted g n ∈ Function.update s'.stack a (code ++ is) b) := by
  rw [List.countP_append]
  by_cases hreached : ∃ e, .reached e g n ∈ out
  · obtain ⟨e, he⟩ := hreached
    obtain ⟨rfl, hn, rfl, hemitted, hcode⟩ := hex.reached he
    have hlt := (hr.known g).iterator n hn
    have hsingle' : (s.connection g n).isSingleShot = true := by
      rw [← ((hex.rewrites g).writes n hlt).thread.2]
      exact hsingle
    obtain ⟨hle, hone⟩ := ho.emitted hsingle'
    have hzero : h.countP (Observation.reaches g n) ≠ 1 := by
      intro hcount
      rcases hone hcount with hhas | ⟨b, hb⟩
      · simp [hemitted hsingle'] at hhas
      · -- whoever is at the connection owns the lock of the signal
        have hmem : .emitLoop g ∈ s.stack a := hstack ▸ List.mem_cons_self
        obtain rfl : a = b := hs.owner_unique (l := .signal g) hmem (by simp [Instr.needs]) hb
          (by simp [Instr.needs])
        exact hguard (by simp [State.comesTo, hstack, hn]) hb
    have hout : [.reached e g n].countP (Observation.reaches g n) = 1 := by
      simp [Observation.reaches]
    refine ⟨by omega, fun _ => .inr ⟨a, ?_⟩⟩
    rw [Function.update_self]
    exact List.mem_append_left _ hcode
  · rw [countP_reaches (not_exists.mp hreached), Nat.add_zero]
    rcases Nat.lt_or_ge n (s.objects.signals g).created with hlt | hge
    · have hw := (hex.rewrites g).writes n hlt
      have hsingle' : (s.connection g n).isSingleShot = true := by
        rw [← hw.thread.2]
        exact hsingle
      obtain ⟨hle, hone⟩ := ho.emitted hsingle'
      refine ⟨hle, fun hcount => ?_⟩
      rcases hone hcount with hhas | ⟨b, hb⟩
      · exact .inl (hw.hasEmitted hhas)
      · rcases eq_or_ne b a with rfl | hne
        · rw [hstack] at hb
          rcases List.mem_cons.mp hb with rfl | hb
          · exact .inl (hex.hasEmitted_of_setEmitted hsingle')
          · exact .inr ⟨b, by rw [Function.update_self]; exact List.mem_append_right _ hb⟩
        · exact .inr ⟨b, by rwa [Function.update_of_ne hne, hex.stack]⟩
    · rw [countP_reaches fun e he => absurd (hr.reached e g n he) (not_lt.mpr hge)]
      exact ⟨Nat.zero_le _, fun h => by cases h⟩

/-- **One step.** -/
theorem Once.step {h : List (Observation θ ς)} (hs : Sound s) (hr : Recalls h s) (ho : Once g n h s)
    {act : Action θ ς ρ} (hguard : NotReentered g n s act) (hst : s.step act = some (s', out)) :
    Once g n (h ++ out) s' := by
  have hsteps := step_cases hst
  obtain ⟨p, hp, hle⟩ := ho.deliveries
  refine ⟨Once.deliveries_step hp hle hsteps, fun hsingle => ?_⟩
  rcases hsteps.signals with
    ⟨a, i, is, code, s₁, rfl, hstack, hex, rfl⟩ | ⟨hsignals, rfl, hstack⟩
  · exact ho.emitted_executes hs hr hguard hstack hex hsingle
  · have hconnection : s'.connection g n = s.connection g n := by
      rw [State.connection, State.connection, hsignals]
    rw [hconnection] at hsingle ⊢
    rw [List.append_nil]
    obtain ⟨hone, hemitted⟩ := ho.emitted hsingle
    refine ⟨hone, fun hcount => (hemitted hcount).imp_right ?_⟩
    rintro ⟨b, hb⟩
    refine ⟨b, (hstack b _ hb).resolve_right ?_⟩
    rintro ⟨_, _, heq⟩
    cases heq

/-! ## Every run -/

/-- **A single-shot connection fires at most once** in every run in which no emission comes to it
while an emission on the same thread is still at it. -/
theorem fires_once {h : List (Observation θ ς)} {s : State θ ς ρ} {g : ς} {n : ℕ} {type : UInt32}
    {thread : Option θ} (hr : (machine θ ς ρ).ReachesVia (NotReentered g n) h s)
    (hc : .connected g n type thread ∈ h) (hsingle : type &&& SingleShotConnection ≠ 0) :
    h.countP (Observation.starts g n) ≤ 1 := by
  have hall : (Sound s ∧ Recalls h s) ∧ Once g n h s := by
    refine hr.induction (fun h s => (Sound s ∧ Recalls h s) ∧ Once g n h s) ?_ ?_
    · rintro s rfl
      exact ⟨⟨.initial, .initial⟩, ⟨0, totals_zero, le_rfl⟩, fun _ => ⟨Nat.zero_le _, nofun⟩⟩
    · rintro h s act s' out ⟨⟨hs, hrec⟩, ho⟩ hg hst
      exact ⟨⟨hs.step hst, hrec.step hst⟩, ho.step hs hrec hg hst⟩
  obtain ⟨⟨-, hrec⟩, ho⟩ := hall
  obtain ⟨p, -, hle⟩ := ho.deliveries
  have hone := (ho.emitted (by simpa [(hrec.connected g n type thread hc).2.2] using hsingle)).1
  omega

/-- A slot on another thread, posted by the first of two emissions. -/
theorem fires_once_run : ∃ h, ∃ s : State Bool Unit Unit,
    (machine Bool Unit Unit).ReachesVia (NotReentered () 0) h s ∧
    .started .queued false true () 0 ∈ h ∧ h.countP (Observation.starts () 0) ≤ 1 := by
  obtain ⟨h, s, hex, hc, hstarted⟩ : ∃ h s, (machine Bool Unit Unit).execVia (NotReentered () 0)
      State.initial
      (Action.call false
          (.connectFunc () (QueuedConnection ||| SingleShotConnection) (some true)) ::
        List.replicate 3 (Action.step false) ++ [Action.call false (.emit ())] ++
        List.replicate 6 (Action.step false) ++ [Action.call false (.emit ())] ++
        List.replicate 5 (Action.step false) ++ [Action.run 0, .step true, .step true]) =
        some (s, h) ∧
      .connected () 0 (QueuedConnection ||| SingleShotConnection) (some true) ∈ h ∧
      .started .queued false true () 0 ∈ h :=
    ⟨_, _, rfl, by decide, by decide⟩
  have hr := Machine.ReachesVia.of_execVia rfl hex
  exact ⟨h, s, hr, hstarted, fires_once hr hc (by decide)⟩

/-- **A slot that emits its signal is called again.** The connection has not emitted for as long as
its slot has not returned. -/
theorem fires_twice : ∃ h, ∃ s : State Unit Unit Unit, (machine Unit Unit Unit).Reaches h s ∧
    .connected () 0 SingleShotConnection none ∈ h ∧
    h.countP (Observation.starts () 0) = 2 := by
  obtain ⟨h, s, hex, hc, hcount⟩ : ∃ h s, (machine Unit Unit Unit).exec State.initial
      (Action.call () (.connectFunc () SingleShotConnection none) ::
        List.replicate 3 (Action.step ()) ++ [Action.call () (.emit ())] ++
        List.replicate 4 (Action.step ()) ++ [Action.call () (.emit ())] ++
        List.replicate 4 (Action.step ())) = some (s, h) ∧
      .connected () 0 SingleShotConnection none ∈ h ∧
      h.countP (Observation.starts () 0) = 2 :=
    ⟨_, _, rfl, by decide, by decide⟩
  exact ⟨h, s, .of_exec rfl hex, hc, hcount⟩

end Sigslot2

end TQLib
