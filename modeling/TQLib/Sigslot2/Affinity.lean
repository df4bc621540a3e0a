import TQLib.Sigslot2.SingleShot

/-!
# The thread of an `AutoConnection`

An `AutoConnection` with a thread is to call its slot on that thread: directly if the emission is on
it, and by a posted task if not. `Connection::emit` decides which when an emission comes to the
connection, and writes the decision to `m_type`. So it decides once: the first emission to come
settles how the slot is called for all later ones, whatever thread they are on.

## Main results

* `affinity` — every call of the slot is made as it should exactly when the emissions it is called
  for are on the thread of the connection, or not on it, as the first to come was
* `first_emission_decides` — an emission on the thread of the connection, and one on another
-/

namespace TQLib

namespace Sigslot2

variable {θ ς ρ : Type*} [DecidableEq θ] [DecidableEq ς] [DecidableEq ρ]

/-- The thread of the first emission that has come to the connection. -/
def firstReach (g : ς) (n : ℕ) (h : List (Observation θ ς)) : Option θ :=
  h.findSome? fun
    | .reached e g' n' => if g' = g ∧ n' = n then some e else none
    | _ => none

/-- How the slot is called once an emission on the thread `f` has come first. -/
def settled (t f : θ) : Delivery := if f = t then .direct else .queued

/-- The members of `ConnectionType` that `m_type` is settled to. -/
def settledType (t f : θ) : UInt32 := if f = t then DirectConnection else QueuedConnection

/-- A delivery on the stack of `a` is as it should be once an emission on `f` has come first. -/
def Instr.Fits (g : ς) (n : ℕ) (t f a : θ) (i : Instr θ ς ρ) : Prop :=
  f = t ∧ i = .emitter .direct a g n ∨
    f ≠ t ∧ a = t ∧ ∃ e, i = .delivered e g n ∨ i = .emitter .queued e g n

/-- The deliveries to a connection to the thread `t` are as an emission on `f` would have them. -/
structure Fitting (g : ς) (n : ℕ) (t f : θ) (h : List (Observation θ ς)) (s : State θ ς ρ) :
    Prop where
  /-- So are the deliveries on the stacks. -/
  stack : ∀ a, ∀ i ∈ s.stack a, i.delivers g n = true → i.Fits g n t f a
  /-- Those in the queues are posted to the thread. -/
  posted : ∀ x ∈ s.posted, x.2.delivers g n = true → f ≠ t ∧ x.1 = t ∧ ∃ e, x.2 = .deliver e g n
  /-- The slot has been called in one way. -/
  started : ∀ d e a, .started d e a g n ∈ h → d = settled t f ∧ a = if f = t then e else t

/-- What is known of a connection to the thread `t` once an emission on `f` has come first. -/
structure Settled (g : ς) (n : ℕ) (t f : θ) (h : List (Observation θ ς)) (s : State θ ς ρ) : Prop
    extends Fitting g n t f h s where
  /-- `m_type` is settled. -/
  type : (s.connection g n).type = settledType t f

/-- What is known of an `AutoConnection` to the thread `t`. -/
def Affine (g : ς) (n : ℕ) (t : θ) (h : List (Observation θ ς)) (s : State θ ς ρ) : Prop :=
  match firstReach g n h with
  | none => (s.connection g n).type = AutoConnection
  | some f => Settled g n t f h s

/-! ## One step -/

variable {s s' : State θ ς ρ} {a : θ} {i : Instr θ ς ρ} {code : List (Instr θ ς ρ)}
  {out : List (Observation θ ς)} {g : ς} {n : ℕ}

omit [DecidableEq ς] [DecidableEq ρ] in
theorem settle_type {c : Connection θ ρ} {t f : θ} (hthread : c.thread = some t)
    (hc : c.type = AutoConnection ∧ f = a ∨ c.type = settledType t f) :
    (c.settle a).type = settledType t f := by
  rcases hc with ⟨hauto, rfl⟩ | hc
  · simp [Connection.settle, hauto, hthread, settledType, eq_comm]
  · have hne : c.type ≠ AutoConnection := by
      rw [hc, settledType]
      split <;> decide
    rw [Connection.settle, if_neg hne, hc]

omit [DecidableEq ς] [DecidableEq ρ] in
theorem settledType_cases (t f : θ) :
    f = t ∧ settledType t f = DirectConnection ∨ f ≠ t ∧ settledType t f = QueuedConnection := by
  by_cases h : f = t
  · exact .inl ⟨h, if_pos h⟩
  · exact .inr ⟨h, if_neg h⟩

omit [DecidableEq ρ] in
/-- What is delivered fits. -/
theorem Delivers.fits {c : Connection θ ρ} {t f : θ} (h : Delivers s a g n c s' code)
    (hthread : c.thread = some t) (htype : c.type = settledType t f) :
    (∀ j ∈ code, j.delivers g n = true → j.Fits g n t f a) ∧
      ∀ x ∈ s'.posted, x ∈ s.posted ∨ f ≠ t ∧ x.1 = t ∧ ∃ e, x.2 = .deliver e g n := by
  have hcases := settledType_cases t f
  rw [← htype] at hcases
  cases h with
  | direct hc =>
    refine ⟨fun j hj hdel => ?_, fun x hx => .inl hx⟩
    rcases hcases with ⟨hf, -⟩ | ⟨-, hq⟩
    · rcases List.mem_cons.mp hj with rfl | hj
      · exact .inl ⟨hf, rfl⟩
      · cases List.mem_singleton.mp hj
        simp [Instr.delivers] at hdel
    · rw [hc] at hq
      exact absurd hq (by decide)
  | queued hc hthread' =>
    obtain rfl := Option.some_injective _ (hthread'.symm.trans hthread)
    refine ⟨fun j hj => (by cases hj), fun x hx => ?_⟩
    rcases hcases with ⟨-, hd⟩ | ⟨hf, -⟩
    · rw [hc] at hd
      exact absurd hd (by decide)
    · rcases List.mem_append.mp hx with hx | hx
      · exact .inl hx
      · cases List.mem_singleton.mp hx
        exact .inr ⟨hf, rfl, a, rfl⟩
  | call hc | callHere hc | refused hc =>
    rcases hcases with ⟨-, hd⟩ | ⟨-, hd⟩ <;> rw [hc] at hd <;> exact absurd hd (by decide)
  | lost => exact ⟨fun j hj => (by cases hj), fun x hx => .inl hx⟩

/-- An emission that reaches the connection leaves behind what fits. -/
theorem Executes.reach_fits (h : Executes s a i s' code out) {e t f : θ} (he : .reached e g n ∈ out)
    (hthread : (s.connection g n).thread = some t)
    (htype : ((s.connection g n).settle a).type = settledType t f) :
    e = a ∧ (s'.connection g n).type = settledType t f ∧
      (∀ j ∈ code, j.delivers g n = true → j.Fits g n t f a) ∧
      ∀ x ∈ s'.posted, x ∈ s.posted ∨ f ≠ t ∧ x.1 = t ∧ ∃ e, x.2 = .deliver e g n := by
  cases h with
  | body b =>
    obtain ⟨_, _, _, _, heq, -⟩ := b.body_out s.objects he
    cases heq
  | @emitReach g₁ n₁ s₁ code₁ _ _ hdel =>
    cases List.mem_singleton.mp he
    obtain ⟨hcode, hposted⟩ := hdel.fits (by rwa [Connection.settle_thread]) htype
    refine ⟨rfl, ?_, fun j hj hd => ?_, hposted⟩
    · rw [State.connection, hdel.objects]
      show (((s.past g).modify g n fun c => c.settle a).connection g n).type = _
      rwa [connection_modify_self, connection_past]
    · rcases List.mem_append.mp hj with hj | hj
      · exact hcode j hj hd
      · rcases List.mem_cons.mp hj with rfl | hj
        · simp [Instr.delivers] at hd
        · cases List.mem_singleton.mp hj
          simp [Instr.delivers] at hd
  | callFunc | callMethod => simp at he
  | _ => cases he

omit [DecidableEq θ] [DecidableEq ρ] in
/-- What is delivered to another connection is no delivery to this one. -/
theorem Delivers.other {g₁ : ς} {n₁ : ℕ} {c : Connection θ ρ} (h : Delivers s a g₁ n₁ c s' code)
    (hne : ¬ (g₁ = g ∧ n₁ = n)) : (∀ j ∈ code, j.delivers g n = false) ∧
      ∀ x ∈ s'.posted, x.2.delivers g n = true → x ∈ s.posted := by
  cases h with
  | queued | call =>
    refine ⟨by simp [Instr.delivers], fun x hx hd => ?_⟩
    rcases List.mem_append.mp hx with hx | hx
    · exact hx
    · cases List.mem_singleton.mp hx
      exact absurd (by simpa [Task.delivers] using hd) hne
  | direct | callHere => exact ⟨by simpa [Instr.delivers] using hne, fun x hx _ => hx⟩
  | refused | lost => exact ⟨by simp [Instr.delivers], fun x hx _ => hx⟩

/-- A step in which no emission reaches the connection only goes on with a delivery to it. -/
theorem Executes.goes_on (h : Executes s a i s' code out) (hout : ∀ e, .reached e g n ∉ out) :
    (∀ j ∈ code, j.delivers g n = true → ∃ e, i = .delivered e g n ∧ j = .emitter .queued e g n) ∧
      ∀ x ∈ s'.posted, x.2.delivers g n = true → x ∈ s.posted := by
  cases h with
  | body b =>
    refine ⟨fun j hj hd => ?_, fun x hx _ => hx⟩
    cases b.body_pushes s.objects j hj <;> simp [Instr.delivers] at hd
  | @emitReach g₁ n₁ s₁ code₁ _ _ hdel =>
    obtain ⟨hcode, hposted⟩ := hdel.other (g := g) (n := n) fun hsame =>
      hout a (by rw [hsame.1, hsame.2]; exact List.mem_singleton_self _)
    refine ⟨fun j hj hd => ?_, fun x hx hd => hposted x hx hd⟩
    rcases List.mem_append.mp hj with hj | hj
    · simp [hcode j hj] at hd
    · rcases List.mem_cons.mp hj with rfl | hj
      · simp [Instr.delivers] at hd
      · cases List.mem_singleton.mp hj
        simp [Instr.delivers] at hd
  | delivered e g₁ n₁ =>
    refine ⟨fun j hj hd => ?_, fun x hx _ => hx⟩
    rcases List.mem_cons.mp hj with rfl | hj
    · obtain ⟨rfl, rfl⟩ : g₁ = g ∧ n₁ = n := by simpa [Instr.delivers] using hd
      exact ⟨e, rfl, rfl⟩
    · cases List.mem_singleton.mp hj
      simp [Instr.delivers] at hd
  | detach r gs =>
    refine ⟨fun j hj hd => ?_, fun x hx _ => hx⟩
    rcases List.mem_append.mp hj with hj | hj
    · obtain ⟨g₁, -, rfl⟩ := List.mem_map.mp hj
      simp [Instr.delivers] at hd
    · cases List.mem_singleton.mp hj
      simp [Instr.delivers] at hd
  | _ => exact ⟨by simp [Instr.delivers], fun x hx _ => hx⟩

omit [DecidableEq θ] in
theorem firstReach_append (g : ς) (n : ℕ) (h out : List (Observation θ ς)) :
    firstReach g n (h ++ out) = (firstReach g n h).or (firstReach g n out) :=
  List.findSome?_append

omit [DecidableEq θ] in
theorem firstReach_eq_none {h : List (Observation θ ς)} :
    firstReach g n h = none ↔ ∀ e, .reached e g n ∉ h := by
  rw [firstReach, List.findSome?_eq_none_iff]
  constructor
  · intro hnone e he
    simpa using hnone _ he
  · intro hnone o ho
    cases o with
    | reached e g₁ n₁ =>
      have : ¬ (g₁ = g ∧ n₁ = n) := by
        rintro ⟨rfl, rfl⟩
        exact hnone e ho
      simp [this]
    | _ => rfl

omit [DecidableEq ρ] in
/-- Where no emission has come there is nothing to deliver. -/
theorem Fitting.of_unreached {h : List (Observation θ ς)} {p : ℕ}
    (hp : Totals (fun a => (s.stack a).countP (Instr.delivers g n)) p)
    (hle : h.countP (Observation.starts g n) + p + s.queued g n ≤
      h.countP (Observation.reaches g n)) (hnone : firstReach g n h = none) (t f : θ) :
    Fitting g n t f h s := by
  have hzero := countP_reaches (firstReach_eq_none.mp hnone)
  constructor
  · intro a i hi hd
    have hcount : (s.stack a).countP (Instr.delivers g n) = 0 := by
      have : (s.stack a).countP (Instr.delivers g n) ≤ p := hp.le a
      omega
    exact absurd hd (List.countP_eq_zero.mp hcount i hi)
  · intro x hx hd
    have hcount : s.posted.countP (fun x => x.2.delivers g n) = 0 := by
      have : s.queued g n = 0 := by omega
      exact this
    exact absurd hd (List.countP_eq_zero.mp hcount x hx)
  · intro d e a hstart
    have hcount : h.countP (Observation.starts g n) = 0 := by omega
    exact absurd (by simp [Observation.starts]) (List.countP_eq_zero.mp hcount _ hstart)

/-- A thread goes on with what fits, or adds to it. -/
theorem Fitting.executes {h : List (Observation θ ς)} {t f : θ} (hf : Fitting g n t f h s)
    (hthread : (s.connection g n).thread = some t) {is : List (Instr θ ς ρ)}
    (hstack : s.stack a = i :: is) (hex : Executes s a i s' code out)
    (htype : ∀ e, .reached e g n ∈ out → ((s.connection g n).settle a).type = settledType t f) :
    Fitting g n t f (h ++ out) (s'.setStack a (code ++ is)) := by
  have htop : i.delivers g n = true → i.Fits g n t f a := hf.stack a i (by simp [hstack])
  have hnew : (∀ j ∈ code, j.delivers g n = true → j.Fits g n t f a) ∧
      ∀ x ∈ s'.posted, x.2.delivers g n = true →
        x ∈ s.posted ∨ f ≠ t ∧ x.1 = t ∧ ∃ e, x.2 = .deliver e g n := by
    by_cases hreached : ∃ e, .reached e g n ∈ out
    · obtain ⟨e, he⟩ := hreached
      obtain ⟨-, -, hcode, hposted⟩ := hex.reach_fits he hthread (htype e he)
      exact ⟨hcode, fun x hx _ => hposted x hx⟩
    · obtain ⟨hcode, hposted⟩ := hex.goes_on (not_exists.mp hreached)
      refine ⟨fun j hj hd => ?_, fun x hx hd => .inl (hposted x hx hd)⟩
      obtain ⟨e, rfl, rfl⟩ := hcode j hj hd
      rcases htop (by simp [Instr.delivers]) with ⟨-, heq⟩ | ⟨hne, ha, -⟩
      · cases heq
      · exact .inr ⟨hne, ha, e, .inr rfl⟩
  constructor
  · intro b j hj hd
    simp only [State.setStack, hex.stack] at hj
    rcases eq_or_ne b a with rfl | hne
    · rw [Function.update_self, List.mem_append] at hj
      rcases hj with hj | hj
      · exact hnew.1 j hj hd
      · exact hf.stack b j (by rw [hstack]; exact List.mem_cons_of_mem _ hj) hd
    · rw [Function.update_of_ne hne] at hj
      exact hf.stack b j hj hd
  · intro x hx hd
    exact (hnew.2 x hx hd).elim (hf.posted x · hd) id
  · intro d e b hstart
    rcases List.mem_append.mp hstart with hstart | hstart
    · exact hf.started d e b hstart
    · rcases hex.shows hstart with ⟨_, _, _, _, heq, -⟩ | ⟨_, _, heq, -⟩ | ⟨_, _, _, _, heq, hi⟩
      · cases heq
      · cases heq
      · cases heq
        subst hi
        rcases htop (by simp [Instr.delivers]) with ⟨rfl, heq⟩ | ⟨hne, rfl, e₁, heq | heq⟩
        · cases heq
          simp [settled]
        · cases heq
        · cases heq
          simp [settled, hne]

omit [DecidableEq ς] [DecidableEq ρ] in
theorem Writes.type {c c' : Connection θ ρ} (h : Writes a i out g n c c')
    (hout : ∀ e, .reached e g n ∉ out) : c'.type = c.type := by
  cases h with
  | keep => rfl
  | settle he => exact absurd he (hout a)
  | setFired => exact c.setFired_type
  | setEmitted => rfl

/-- A thread does what is next. -/
theorem Affine.executes {h : List (Observation θ ς)} {t : θ} {p : ℕ} (ha : Affine g n t h s)
    (hp : Totals (fun a => (s.stack a).countP (Instr.delivers g n)) p)
    (hle : h.countP (Observation.starts g n) + p + s.queued g n ≤
      h.countP (Observation.reaches g n)) (hn : n < (s.objects.signals g).created)
    (hthread : (s.connection g n).thread = some t) {is : List (Instr θ ς ρ)}
    (hstack : s.stack a = i :: is) (hex : Executes s a i s' code out) :
    Affine g n t (h ++ out) (s'.setStack a (code ++ is)) := by
  have hw := (hex.rewrites g).writes n hn
  unfold Affine at ha ⊢
  rw [firstReach_append]
  cases hfirst : firstReach g n h with
  | none =>
    rw [hfirst] at ha
    by_cases hreached : ∃ e, .reached e g n ∈ out
    · obtain ⟨e, he⟩ := hreached
      have htype := settle_type (f := a) hthread (.inl ⟨ha, rfl⟩)
      obtain ⟨rfl, htype', -, -⟩ := hex.reach_fits he hthread htype
      obtain ⟨-, -, rfl, -, -⟩ := hex.reached he
      have hfit := (Fitting.of_unreached hp hle hfirst t e).executes hthread hstack hex
        fun _ _ => htype
      simp only [firstReach, List.findSome?_cons, and_self, if_true, Option.none_or]
      exact ⟨hfit, htype'⟩
    · have hnone := firstReach_eq_none.mpr (not_exists.mp hreached)
      rw [hnone]
      exact (hw.type (not_exists.mp hreached)).trans ha
  | some f =>
    rw [hfirst] at ha
    have htype := settle_type (a := a) hthread (.inr ha.type)
    refine ⟨ha.toFitting.executes hthread hstack hex fun _ _ => htype, ?_⟩
    by_cases hreached : ∃ e, .reached e g n ∈ out
    · obtain ⟨e, he⟩ := hreached
      exact (hex.reach_fits he hthread htype).2.1
    · exact (hw.type (not_exists.mp hreached)).trans ha.type

/-- The other steps make no delivery. They take one from a queue. -/
theorem Steps.brings {act : Action θ ς ρ} (h : Steps s act s' out) (hact : ∀ a, act ≠ .step a)
    (g : ς) (n : ℕ) :
    (∀ b j, j ∈ s'.stack b → j.delivers g n = true →
      j ∈ s.stack b ∨ ∃ x ∈ s.posted, x.1 = b ∧ j ∈ (Task.code x.2 : List (Instr θ ς ρ))) ∧
    ∀ x ∈ s'.posted, x ∈ s.posted := by
  have hpush : ∀ {a b : θ} {code : List (Instr θ ς ρ)} {j},
      j ∈ Function.update s.stack a (code ++ s.stack a) b → j ∈ s.stack b ∨ b = a ∧ j ∈ code := by
    intro a b code j hj
    rcases eq_or_ne b a with rfl | hne
    · rw [Function.update_self, List.mem_append] at hj
      exact hj.symm.imp_right fun hj => ⟨rfl, hj⟩
    · rw [Function.update_of_ne hne] at hj
      exact .inl hj
  cases h with
  | step => exact absurd rfl (hact _)
  | @call a c =>
    obtain ⟨hstack, -, -, hposted⟩ := Sound.foldl_retain c.receivers s a
    refine ⟨fun b j hj hd => ?_, fun x hx => by rwa [State.setStack, hposted] at hx⟩
    rw [State.setStack, hstack] at hj
    refine .inl ((hpush hj).resolve_right fun hj => ?_)
    have hcode : ∀ j ∈ c.code, j.delivers g n = false := by
      cases c <;> simp [Call.code, Instr.delivers]
    simp [hcode j hj.2] at hd
  | @ret a g₁ n₁ is hstack =>
    refine ⟨fun b j hj _ => .inl ?_, fun x hx => hx⟩
    have hj' : j ∈ Function.update s.stack a is b := hj
    rcases eq_or_ne b a with rfl | hne
    · rw [Function.update_self] at hj'
      rw [hstack]
      exact List.mem_cons_of_mem _ hj'
    · rwa [Function.update_of_ne hne] at hj'
  | @run i t task hi =>
    refine ⟨fun b j hj _ => (hpush hj).imp_right fun hj => ?_, fun x hx => ?_⟩
    · exact ⟨(t, task), List.mem_of_getElem? hi, hj.1.symm, hj.2⟩
    · exact List.mem_of_mem_eraseIdx hx
  | discard => exact ⟨fun b j hj _ => .inl hj, fun x hx => List.mem_of_mem_eraseIdx hx⟩
  | @destroy a r =>
    refine ⟨fun b j hj hd => .inl ((hpush hj).resolve_right fun hj => ?_), fun x hx => hx⟩
    obtain ⟨-, hj⟩ := hj
    simp only [List.mem_cons, List.not_mem_nil, or_false] at hj
    rcases hj with rfl | rfl <;> simp [Instr.delivers] at hd
  | quit => exact ⟨fun b j hj _ => .inl hj, fun x hx => hx⟩

theorem Fitting.brings {h : List (Observation θ ς)} {t f : θ} (hf : Fitting g n t f h s)
    {act : Action θ ς ρ} (hst : Steps s act s' out) (hact : ∀ a, act ≠ .step a) :
    Fitting g n t f h s' := by
  obtain ⟨hstack, hposted⟩ := hst.brings hact g n
  refine ⟨fun b j hj hd => ?_, fun x hx hd => hf.posted x (hposted x hx) hd, hf.started⟩
  rcases hstack b j hj hd with hj' | ⟨⟨u, task⟩, hx, rfl, hj'⟩
  · exact hf.stack b j hj' hd
  · have htask : task.delivers g n = true := by
      cases task with
      | deliver e g₁ n₁ =>
        cases List.mem_singleton.mp hj'
        exact hd
      | call e g₁ n₁ =>
        simp only [Task.code, List.mem_cons, List.not_mem_nil, or_false] at hj'
        rcases hj' with rfl | rfl
        · exact hd
        · simp [Instr.delivers] at hd
    obtain ⟨hne, ht, e, heq⟩ := hf.posted _ hx htask
    obtain rfl : task = .deliver e g n := heq
    cases List.mem_singleton.mp hj'
    exact .inr ⟨hne, ht, e, .inl rfl⟩

/-! ## Every run -/

/-- What is known of all connections. -/
structure Directed (h : List (Observation θ ς)) (s : State θ ς ρ) : Prop where
  /-- They are there as they were made. -/
  recalls : Recalls h s
  /-- Every delivery is due to an emission. -/
  deliveries : ∀ g n, ∃ p, Totals (fun a => (s.stack a).countP (Instr.delivers g n)) p ∧
    h.countP (Observation.starts g n) + p + s.queued g n ≤ h.countP (Observation.reaches g n)
  /-- An `AutoConnection` to a thread is settled by the first emission. -/
  affine : ∀ g n type t, .connected g n type (some t) ∈ h →
    type &&& ~~~UniqueConnection &&& ~~~SingleShotConnection = AutoConnection → Affine g n t h s

/-- **One step.** -/
theorem Directed.step {h : List (Observation θ ς)} (hd : Directed h s) {act : Action θ ς ρ}
    (hst : s.step act = some (s', out)) : Directed (h ++ out) s' := by
  have hsteps := step_cases hst
  refine ⟨hd.recalls.step hst, fun g n => ?_, fun g n type t hc htype => ?_⟩
  · obtain ⟨p, hp, hle⟩ := hd.deliveries g n
    exact Once.deliveries_step hp hle hsteps
  · obtain ⟨p, hp, hle⟩ := hd.deliveries g n
    rcases List.mem_append.mp hc with hc | hc
    · have ha := hd.affine g n type t hc htype
      obtain ⟨hn, hthread, -⟩ := hd.recalls.connected g n type (some t) hc
      by_cases hact : ∃ a, act = .step a
      · obtain ⟨a, rfl⟩ := hact
        cases hsteps with
        | step hstack hex => exact ha.executes hp hle hn hthread hstack hex
      · rcases hsteps.signals with ⟨a, _, _, _, _, rfl, -⟩ | ⟨hsignals, rfl, -⟩
        · exact absurd ⟨a, rfl⟩ hact
        · have hconnection : s'.connection g n = s.connection g n := by
            rw [State.connection, State.connection, hsignals]
          rw [List.append_nil]
          unfold Affine at ha ⊢
          cases hfirst : firstReach g n h with
          | none =>
            rw [hfirst] at ha
            exact hconnection ▸ ha
          | some f =>
            rw [hfirst] at ha
            exact ⟨ha.toFitting.brings hsteps (not_exists.mp hact), hconnection ▸ ha.type⟩
    · -- the connection is new, so no emission has come to it
      rcases hsteps.signals with ⟨a, i, is, code, s₁, rfl, hstack, hex, rfl⟩ | ⟨-, rfl, -⟩
      · rcases hex.shows hc with ⟨_, _, _, _, heq, hmakes⟩ | ⟨_, _, heq, -⟩ | ⟨_, _, _, _, heq, -⟩
        · cases heq
          have hold : firstReach g n h = none := by
            refine firstReach_eq_none.mpr fun e he => ?_
            have := hd.recalls.reached e g n he
            rw [hmakes.fresh] at this
            exact this.false
          have hnew : firstReach g n out = none := by
            refine firstReach_eq_none.mpr fun e he => ?_
            obtain ⟨-, -, rfl, -, -⟩ := hex.reached he
            simp at hc
          unfold Affine
          rw [firstReach_append, hold, hnew]
          obtain ⟨receiver, hmade⟩ := hmakes.made
          show ((s₁.objects.signals g).connections n).type = AutoConnection
          rw [hmade]
          exact htype
        · cases heq
        · cases heq
      · cases hc

theorem directed {h : List (Observation θ ς)} (hr : (machine θ ς ρ).Reaches h s) :
    Directed h s := by
  refine hr.induction Directed ?_ fun h s act s' out hd _ hst => hd.step hst
  rintro s rfl
  exact ⟨.initial, fun _ _ => ⟨0, totals_zero, le_rfl⟩, fun _ _ _ _ => nofun⟩

/-- **An `AutoConnection` has the affinity of its first emission.** Every call of the slot of an
`AutoConnection` to the thread `t` is made on `t`, directly if it is for an emission on `t` and by a
posted task if not, exactly when all emissions it has been called for are on `t`, or none is, as the
first that came to the connection. -/
theorem affinity {h : List (Observation θ ς)} {s : State θ ς ρ} {g : ς} {n : ℕ} {type : UInt32}
    {t : θ} (hr : (machine θ ς ρ).Reaches h s) (hc : .connected g n type (some t) ∈ h)
    (htype : type &&& ~~~UniqueConnection &&& ~~~SingleShotConnection = AutoConnection) :
    (∀ d e a, .started d e a g n ∈ h → a = t ∧ d = if e = t then .direct else .queued) ↔
      ∀ f, firstReach g n h = some f → ∀ d e a, .started d e a g n ∈ h → (e = t ↔ f = t) := by
  have hd := directed hr
  have ha := hd.affine g n type t hc htype
  unfold Affine at ha
  cases hfirst : firstReach g n h with
  | none =>
    obtain ⟨p, -, hle⟩ := hd.deliveries g n
    have hzero := countP_reaches (firstReach_eq_none.mp hfirst)
    have hcount : h.countP (Observation.starts g n) = 0 := by omega
    have hnone : ∀ d e a, .started d e a g n ∉ h := by
      intro d e a hstart
      exact absurd (by simp [Observation.starts]) (List.countP_eq_zero.mp hcount _ hstart)
    exact ⟨fun _ f hf => (by cases hf), fun _ d e a hstart => absurd hstart (hnone d e a)⟩
  | some f =>
    rw [hfirst] at ha
    constructor
    · rintro hall f' ⟨⟩ d e a hstart
      obtain ⟨-, hd⟩ := hall d e a hstart
      obtain ⟨hd', -⟩ := ha.started d e a hstart
      rw [hd', settled] at hd
      by_cases hf : f = t <;> by_cases he : e = t <;> simp [hf, he] at hd ⊢
    · intro hall d e a hstart
      have hiff := hall f rfl d e a hstart
      obtain ⟨hd, hat⟩ := ha.started d e a hstart
      by_cases hf : f = t
      · rw [if_pos hf] at hat
        exact ⟨hat.trans (hiff.mpr hf), by rw [hd, settled, if_pos hf, if_pos (hiff.mpr hf)]⟩
      · rw [if_neg hf] at hat
        exact ⟨hat, by rw [hd, settled, if_neg hf, if_neg (mt hiff.mp hf)]⟩

/-- A slot of the thread `true`, called for an emission on the thread `false`. -/
theorem affinity_run : ∃ h, ∃ s : State Bool Unit Unit, (machine Bool Unit Unit).Reaches h s ∧
    .started .queued false true () 0 ∈ h ∧
    ∀ d e a, .started d e a () 0 ∈ h → a = true ∧ d = if e = true then .direct else .queued := by
  obtain ⟨h, s, hex, hc, hstarted, hfirst, hall⟩ : ∃ h s,
      (machine Bool Unit Unit).exec State.initial
      (Action.call false (.connectFunc () AutoConnection (some true)) ::
        List.replicate 3 (Action.step false) ++ [Action.call false (.emit ())] ++
        List.replicate 5 (Action.step false) ++ [Action.run 0, .step true, .step true]) =
        some (s, h) ∧
      .connected () 0 AutoConnection (some true) ∈ h ∧ .started .queued false true () 0 ∈ h ∧
      firstReach () 0 h = some false ∧ ∀ o ∈ h, ∀ d e a, o = .started d e a () 0 → e = false :=
    ⟨_, _, rfl, by decide, by decide, rfl, by simp⟩
  have hr := Machine.Reaches.of_exec rfl hex
  refine ⟨h, s, hr, hstarted, (affinity hr hc (by decide)).mpr ?_⟩
  rintro f hf d e a hstart
  rw [hfirst] at hf
  cases hf
  simp [hall _ hstart d e a rfl]

/-- **The first emission decides for all.** The first emission is on the thread of the connection,
so an emission on another thread calls the slot there. -/
theorem first_emission_decides : ∃ h, ∃ s : State Bool Unit Unit,
    (machine Bool Unit Unit).Reaches h s ∧ .connected () 0 AutoConnection (some true) ∈ h ∧
    .started .direct false false () 0 ∈ h := by
  obtain ⟨h, s, hex, hc, hstarted⟩ : ∃ h s, (machine Bool Unit Unit).exec State.initial
      (Action.call true (.connectFunc () AutoConnection (some true)) ::
        List.replicate 3 (Action.step true) ++ [Action.call true (.emit ())] ++
        List.replicate 4 (Action.step true) ++ [Action.ret true] ++
        List.replicate 4 (Action.step true) ++ [Action.call false (.emit ())] ++
        List.replicate 4 (Action.step false)) = some (s, h) ∧
      .connected () 0 AutoConnection (some true) ∈ h ∧ .started .direct false false () 0 ∈ h :=
    ⟨_, _, rfl, by decide, by decide⟩
  exact ⟨h, s, .of_exec rfl hex, hc, hstarted⟩

end Sigslot2

end TQLib
