import TQLib.Sigslot2.Iterator
import TQLib.Sigslot2.SenderList
import TQLib.Sigslot2.SingleShot

/-!
# The flags of a single-shot connection

`emit` passes over a single-shot connection that has emitted, and `Connection::emit` over one that
has fired. An emission sets the second flag when the slot has returned and the first right after it,
so that between two turns of the loop a connection that has fired has emitted as well, unless its
slot is called by a task. Then `setFired` is left to the task, and comes whenever the task is run.

So where a connection is called directly, its flag `m_hasFired` adds nothing to the tests.

## Main results

* `flagged` — in every reachable state, an emission is at a connection that has fired and not
  emitted, and nothing but calm steps is above it
* `Flagged.emitted` — the loop of `emit` finds no such connection
-/

namespace TQLib

namespace Sigslot2

variable {θ ς ρ : Type*}

/-! ## Stacks -/

/-- The slot of the connection is called by a task that is posted. -/
def State.Late (s : State θ ς ρ) (g : ς) (n : ℕ) : Prop :=
  n < (s.objects.signals g).created ∧ (s.connection g n).type = QueuedConnection

/-- Where a connection is to be marked as fired, it is late, or its emission goes on right after. -/
def Backed (late : ς → ℕ → Prop) : List (Instr θ ς ρ) → Prop
  | [] => True
  | i :: is => (∀ g n, i = .setFired g n → late g n ∨ is.head? = some (.setEmitted g n)) ∧
      (∀ e g n, i = .delivered e g n → late g n) ∧ Backed late is

/-- An emission is at the connection, and about to go on. -/
def Leaving (g : ς) (n : ℕ) (is : List (Instr θ ς ρ)) : Prop :=
  ∃ pre rest, is = pre ++ .setEmitted g n :: rest ∧ ∀ i ∈ pre, i.calm = true

variable {late late' : ς → ℕ → Prop} {i : Instr θ ς ρ} {is code : List (Instr θ ς ρ)} {g : ς}
  {n : ℕ}

theorem Backed.mono (h : Backed late is) (hl : ∀ g n, late g n → late' g n) : Backed late' is := by
  induction is with
  | nil => trivial
  | cons i is ih =>
    obtain ⟨hfired, hdelivered, hrest⟩ := h
    exact ⟨fun g n hi => (hfired g n hi).imp_left (hl g n),
      fun e g n hi => hl g n (hdelivered e g n hi), ih hrest⟩

/-- This marks no connection as fired. -/
def Instr.Plain (i : Instr θ ς ρ) : Prop :=
  (∀ g n, i ≠ .setFired g n) ∧ ∀ e g n, i ≠ .delivered e g n

theorem Backed.cons (h : Backed late is) (hi : i.Plain) : Backed late (i :: is) :=
  ⟨fun g n heq => absurd heq (hi.1 g n), fun e g n heq => absurd heq (hi.2 e g n), h⟩

theorem Backed.push (h : Backed late is) (hcode : ∀ i ∈ code, i.Plain) :
    Backed late (code ++ is) := by
  induction code with
  | nil => exact h
  | cons i code ih =>
    obtain ⟨hi, hcode⟩ := List.forall_mem_cons.mp hcode
    exact (ih hcode).cons hi

theorem Leaving.push (h : Leaving g n is) (hcode : ∀ i ∈ code, i.calm = true) :
    Leaving g n (code ++ is) := by
  obtain ⟨pre, rest, rfl, hpre⟩ := h
  refine ⟨code ++ pre, rest, (List.append_assoc ..).symm, fun i hi => ?_⟩
  exact (List.mem_append.mp hi).elim (hcode i) (hpre i)

/-- The first step on a stack on which an emission is about to go on. -/
theorem Leaving.head (h : Leaving g n (i :: is)) :
    i = .setEmitted g n ∨ i.calm = true ∧ Leaving g n is := by
  obtain ⟨pre, rest, heq, hpre⟩ := h
  rcases pre with _ | ⟨j, pre⟩
  · exact .inl (List.cons.inj heq).1
  · obtain ⟨rfl, rfl⟩ := List.cons.inj heq
    obtain ⟨hi, hpre⟩ := List.forall_mem_cons.mp hpre
    exact .inr ⟨hi, pre, rest, rfl, hpre⟩

section Steps

variable [DecidableEq θ] [DecidableEq ς] [DecidableEq ρ] {s s' : State θ ς ρ} {a : θ}
  {out : List (Observation θ ς)}

omit [DecidableEq ς] [DecidableEq ρ] in
theorem Writes.queued {c c' : Connection θ ρ} (h : Writes a i out g n c c')
    (hc : c.type = QueuedConnection) : c'.type = QueuedConnection := by
  cases h with
  | settle =>
    rw [Connection.settle, hc]
    rfl
  | _ => exact hc

/-- A connection that is late stays so. -/
theorem Executes.keeps_late (h : Executes s a i s' code out) (hl : s.Late g n) : s'.Late g n :=
  ⟨hl.1.trans_le (h.rewrites g).created, ((h.rewrites g).writes n hl.1).queued hl.2⟩

omit [DecidableEq θ] in
theorem Block.plain_body (b : Block θ ς ρ) (o : Objects θ ς ρ) : ∀ i ∈ (b.body o).2.1, i.Plain := by
  intro i hi
  cases b.body_pushes o i hi <;> simp [Instr.Plain]

/-- **A step keeps a stack backed.** -/
theorem Executes.backed (h : Executes s a i s' code out) (hb : Backed late (i :: is)) :
    Backed late (code ++ is) := by
  obtain ⟨-, hdelivered, hrest⟩ := hb
  cases h with
  | body b => exact hrest.push (b.plain_body s.objects)
  | @emitReach g n _ _ _ _ hdel =>
    have hloop : Backed late (.setEmitted g n :: .emitLoop g :: is) :=
      (hrest.cons (by simp [Instr.Plain])).cons (by simp [Instr.Plain])
    have hfired : Backed late (.setFired g n :: .setEmitted g n :: .emitLoop g :: is) :=
      ⟨fun g' n' heq => (by cases heq; exact .inr rfl), fun e g' n' heq => (by cases heq), hloop⟩
    rw [List.append_assoc]
    cases hdel with
    | direct | callHere | call => exact hfired.cons (by simp [Instr.Plain])
    | refused => exact hfired
    | queued | lost => exact hloop
  | delivered e g n =>
    have hlate := hdelivered e g n rfl
    have hfired : Backed late (.setFired g n :: is) :=
      ⟨fun g' n' heq => (by cases heq; exact .inl hlate), fun e g' n' heq => (by cases heq), hrest⟩
    exact hfired.cons (by simp [Instr.Plain])
  | detach r gs =>
    refine hrest.push fun j hj => ?_
    rcases List.mem_append.mp hj with hj | hj
    · obtain ⟨g, -, rfl⟩ := List.mem_map.mp hj
      simp [Instr.Plain]
    · rw [List.mem_singleton.mp hj]
      simp [Instr.Plain]
  | _ => exact hrest.push (by simp [Instr.Plain])

/-! ## Connections -/

/-- The connection is a single shot that is not called by a task, and it has fired and not
emitted. -/
structure Connection.Halfway (c : Connection θ ρ) : Prop where
  type : c.type ≠ QueuedConnection
  isSingleShot : c.isSingleShot = true
  hasFired : c.hasFired = true
  hasEmitted : c.hasEmitted = false

omit [DecidableEq ς] [DecidableEq ρ] in
theorem Writes.halfway {c c' : Connection θ ρ} (h : Writes a i out g n c c') (hc : c'.Halfway) :
    c.Halfway ∨ i = .setFired g n ∧ c.type ≠ QueuedConnection := by
  cases h with
  | keep => exact .inl hc
  | settle he =>
    refine .inl ⟨fun htype => hc.type ?_, hc.isSingleShot, hc.hasFired, hc.hasEmitted⟩
    exact (Writes.settle he : Writes a i out g n c _).queued htype
  | setFired hi => exact .inr ⟨hi, hc.type⟩
  | setEmitted => cases hc.hasEmitted

omit [DecidableEq θ] [DecidableEq ς] [DecidableEq ρ] in
/-- The connections that are pushed one after another. -/
theorem Signal.new_foldl (f : ℕ → Connection θ ρ) (ms : List ℕ) (s : Signal θ ρ)
    (hn : ¬ n < s.created) (hn' : n < (ms.foldl (fun s m => s.pushBack (f m)) s).created) :
    ∃ m ∈ ms, (ms.foldl (fun s m => s.pushBack (f m)) s).connections n = f m := by
  induction ms generalizing s with
  | nil => exact absurd hn' hn
  | cons m ms ih =>
    by_cases hlt : n < (s.pushBack (f m)).created
    · have heq : n = s.created := Nat.le_antisymm (Nat.lt_succ_iff.mp hlt) (not_lt.mp hn)
      have hext := Signal.extends_foldl (fun s m => s.extends_pushBack (f m)) ms (s.pushBack (f m))
      refine ⟨m, List.mem_cons_self, (hext.connections n hlt).trans ?_⟩
      rw [heq]
      exact Function.update_self ..
    · obtain ⟨m', hm', heq⟩ := ih _ hlt hn'
      exact ⟨m', List.mem_cons_of_mem _ hm', heq⟩

omit [DecidableEq θ] [DecidableEq ς] [DecidableEq ρ] in
/-- A connection as `connect` makes it has not fired. -/
theorem Signal.new_pushBack {s s₁ : Signal θ ρ} (h : s.Shrinks s₁) {r : Option ρ} {type : UInt32}
    {thread : Option θ} (hn : ¬ n < s.created)
    (hn' : n < (s₁.pushBack (.make r type thread)).created) :
    ¬ ((s₁.pushBack (.make r type thread)).connections n).Halfway := by
  have heq : n = s₁.created := by
    rw [← h.created] at hn
    exact Nat.le_antisymm (Nat.lt_succ_iff.mp hn') (not_lt.mp hn)
  intro hc
  have hfired := hc.hasFired
  simp [Signal.pushBack, heq, Connection.make] at hfired

omit [DecidableEq θ] in
/-- A new connection is no further than the one it is a clone of. -/
theorem Block.body_new (b : Block θ ς ρ) (o : Objects θ ς ρ)
    (hn : ¬ n < (o.signals g).created) (hn' : n < ((b.body o).1.signals g).created)
    (hc : (((b.body o).1.signals g).connections n).Halfway) :
    ∃ r r', b = .slotClone g r r' ∧ ∃ m ∈ (o.signals g).connectionList,
      ((o.signals g).connections m).Halfway := by
  have hset : ∀ {g₁ : ς} {s : Signal θ ρ}, n < ((o.setSignal g₁ s).signals g).created →
      (((o.setSignal g₁ s).signals g).connections n).Halfway →
      g = g₁ ∧ n < s.created ∧ (s.connections n).Halfway := by
    intro g₁ s hlt hhalf
    rcases eq_or_ne g g₁ with rfl | hne
    · simp only [Objects.setSignal, Function.update_self] at hlt hhalf
      exact ⟨rfl, hlt, hhalf⟩
    · simp only [Objects.setSignal, Function.update_of_ne hne] at hlt
      exact absurd hlt hn
  cases b with
  | connectFunc g₁ type thread =>
    obtain ⟨s₁, hs₁, heq | heq⟩ := (o.signals g₁).connectFunc_cases type thread <;>
      simp only [Block.body, heq] at hn' hc <;> obtain ⟨rfl, hlt, hhalf⟩ := hset hn' hc
    · rw [hs₁.created] at hlt
      exact absurd hlt hn
    · exact absurd hhalf (Signal.new_pushBack hs₁ hn hlt)
  | connect g₁ r type thread =>
    obtain ⟨s₁, hs₁, heq | heq⟩ := (o.signals g₁).connect_cases r type thread <;>
      simp only [Block.body, heq] at hn' hc <;> obtain ⟨rfl, hlt, hhalf⟩ := hset hn' hc
    · rw [hs₁.created] at hlt
      exact absurd hlt hn
    · exact absurd hhalf (Signal.new_pushBack hs₁ hn hlt)
  | slotClone g₁ r r' =>
    obtain ⟨rfl, hlt, hhalf⟩ := hset hn' hc
    obtain ⟨m, hm, heq⟩ := Signal.new_foldl (fun n => ((o.signals g).connections n).clone r')
      (o.cloned g r) (o.signals g) hn hlt
    rw [heq] at hhalf
    exact ⟨r, r', rfl, m, (List.mem_filter.mp hm).1,
      ⟨hhalf.type, hhalf.isSingleShot, hhalf.hasFired, hhalf.hasEmitted⟩⟩
  | disconnect g₁ r =>
    simp only [Block.body] at hn' hc
    split at hn' <;> rename_i heq <;> simp only [heq] at hc
    · exact absurd hn' hn
    · obtain ⟨rfl, hlt, -⟩ := hset hn' hc
      exact absurd hlt hn
  | disconnectConnection g₁ m =>
    simp only [Block.body] at hn' hc
    split at hn' <;> rename_i heq <;> simp only [heq] at hc
    · obtain ⟨rfl, hlt, -⟩ := hset hn' hc
      exact absurd hlt hn
    · exact absurd hn' hn
  | slotDisconnect g₁ r =>
    obtain ⟨rfl, hlt, -⟩ := hset hn' hc
    rw [(Signal.shrinks_foldl_erase _ _).created] at hlt
    exact absurd hlt hn
  | emit g₁ =>
    obtain ⟨rfl, hlt, -⟩ := hset hn' hc
    exact absurd hlt hn
  | _ => exact absurd hn' hn

/-- The flags and the stacks fit together. -/
structure Flagged (s : State θ ς ρ) : Prop where
  /-- What is late is to be marked by a task, and what is not by an emission that goes on. -/
  backed : ∀ a, Backed s.Late (s.stack a)
  /-- What a task is to call is late. -/
  posted : ∀ t e g n, (t, .deliver e g n) ∈ s.posted → s.Late g n
  /-- An emission leaves a connection that has fired and not emitted. -/
  leaving : ∀ g n, n < (s.objects.signals g).created → (s.connection g n).Halfway →
    ∃ a, Leaving g n (s.stack a)

omit [DecidableEq θ] [DecidableEq ς] [DecidableEq ρ] in
theorem not_leaving_of_userCode (h : s.userCode a = true) : ¬ Leaving g n (s.stack a) := by
  intro hl
  rcases userCode_cases h with hnil | ⟨g₁, n₁, is, hslot⟩
  · rw [hnil] at hl
    obtain ⟨pre, rest, heq, -⟩ := hl
    simp at heq
  · rw [hslot] at hl
    rcases hl.head with heq | ⟨hcalm, -⟩
    · cases heq
    · cases hcalm

/-- User code does not run above an emission that goes on. -/
theorem Steps.leaving {act : Action θ ς ρ} (h : Steps s act s' out) (hact : ∀ a, act ≠ .step a)
    {b : θ} (hl : Leaving g n (s.stack b)) : Leaving g n (s'.stack b) := by
  have hother : ∀ {a is}, s'.stack = Function.update s.stack a is → b ≠ a →
      Leaving g n (s'.stack b) := by
    intro a is heq hne
    rwa [heq, Function.update_of_ne hne]
  cases h with
  | @call a c huser =>
    obtain ⟨hstack, -, -, -⟩ := Sound.foldl_retain c.receivers s a
    refine hother (a := a) (by rw [State.setStack, hstack]) ?_
    rintro rfl
    exact not_leaving_of_userCode huser hl
  | @ret a g₁ n₁ is hstack =>
    refine hother (a := a) rfl ?_
    rintro rfl
    exact not_leaving_of_userCode (by simp [State.userCode, hstack]) hl
  | step => exact absurd rfl (hact _)
  | @run i a task _ huser =>
    refine hother (a := a) rfl ?_
    rintro rfl
    exact not_leaving_of_userCode huser hl
  | discard | quit => exact hl
  | @destroy a r =>
    rcases eq_or_ne b a with rfl | hne
    · show Leaving g n (Function.update s.stack b _ b)
      rw [Function.update_self]
      exact hl.push (by simp [Instr.calm, Block.calm])
    · exact hother rfl hne

/-- An emission goes on, or something calm is done above it. -/
theorem Executes.leaving (h : Executes s a i s' code out) (hl : Leaving g n (i :: is)) :
    i = .setEmitted g n ∨ Leaving g n (code ++ is) := by
  rcases hl.head with hi | ⟨hi, hl⟩
  · exact .inl hi
  · exact .inr (hl.push (h.calm hi))

/-! ## Runs -/

/-- Connections are created in scopes. -/
theorem Executes.created (h : Executes s a i s' code out) (hbody : ∀ b, i ≠ .body b) (g : ς) :
    (s'.objects.signals g).created = (s.objects.signals g).created :=
  h.part hbody (fun _ => rfl) (fun _ _ _ => rfl) (fun _ => rfl) (fun _ _ _ => rfl) g

/-- What is posted for a connection is posted because it is late. -/
theorem Executes.posts_late (h : Executes s a i s' code out)
    (hk : ∀ g, (s.objects.signals g).Known) {t e : θ}
    (hx : (t, .deliver e g n) ∈ s'.posted) :
    (t, .deliver e g n) ∈ s.posted ∨ s'.Late g n := by
  cases h with
  | @emitReach g₁ n₁ _ _ hn _ hdel =>
    have hobjects := hdel.objects
    cases hdel with
    | queued htype =>
      rcases List.mem_append.mp hx with hx | hx
      · exact .inl hx
      · cases List.mem_singleton.mp hx
        refine .inr ⟨?_, ?_⟩
        · rw [hobjects, (created_modify (s.past g) g n _ g).1]
          have hpast := s.objects.extends_setSignal (s.objects.signals g).extends_advance g
          exact ((hk g).iterator n hn).trans_le hpast.created
        · show (((s.past g).modify g n _).connection g n).type = _
          rw [connection_modify_self, connection_past]
          exact htype
    | call =>
      rcases List.mem_append.mp hx with hx | hx
      · exact .inl hx
      · cases List.mem_singleton.mp hx
    | _ => exact .inl hx
  | _ => exact .inl hx

/-- Whoever is at a connection owns the lock of the signal, so no emission is about to go on where a
step that is not calm is done under the lock. -/
theorem not_leaving (hs : Sound s) (hstack : s.stack a = i :: is)
    (hlock : .lock (.signal g) ∈ i.needs) (hcalm : i.calm = false) (hi : i ≠ .setEmitted g n)
    (b : θ) : ¬ Leaving g n (s.stack b) := by
  intro hl
  obtain ⟨pre, rest, heq, -⟩ := id hl
  have hmem : .setEmitted g n ∈ s.stack b := heq ▸ List.mem_append_right _ List.mem_cons_self
  have htop : i ∈ s.stack a := hstack ▸ List.mem_cons_self
  obtain rfl := hs.owner_unique hmem List.mem_cons_self htop hlock
  rw [hstack] at hl
  rcases hl.head with heq | ⟨hc, -⟩
  · exact hi heq
  · rw [hcalm] at hc
    cases hc

/-- What becomes of a connection that has fired and not emitted. -/
theorem Flagged.leaving_executes (hf : Flagged s) (hs : Sound s)
    (hk : ∀ g, (s.objects.signals g).Known) (hstack : s.stack a = i :: is)
    (hex : Executes s a i s' code out) (hn : n < (s'.objects.signals g).created)
    (hc : (s'.connection g n).Halfway) :
    ∃ b, Leaving g n (Function.update s'.stack a (code ++ is) b) := by
  by_cases hlt : n < (s.objects.signals g).created
  · rcases ((hex.rewrites g).writes n hlt).halfway hc with hold | ⟨rfl, htype⟩
    · obtain ⟨b, hl⟩ := hf.leaving g n hlt hold
      refine ⟨b, ?_⟩
      rcases eq_or_ne b a with rfl | hne
      · rw [Function.update_self]
        rw [hstack] at hl
        refine (hex.leaving hl).resolve_left ?_
        rintro rfl
        have hemitted := hex.hasEmitted_of_setEmitted hold.isSingleShot
        rw [hc.hasEmitted] at hemitted
        cases hemitted
      · rwa [Function.update_of_ne hne, hex.stack]
    · -- the emission goes on right after the connection is marked
      have hbacked : Backed s.Late (.setFired g n :: is) := hstack ▸ hf.backed a
      rcases hbacked.1 g n rfl with hlate | hhead
      · exact absurd hlate.2 htype
      · cases hex
        refine ⟨a, [], is.tail, ?_, fun j hj => by cases hj⟩
        rw [Function.update_self]
        exact (List.cons_head?_tail hhead).symm
  · by_cases hbody : ∃ b, i = .body b
    · obtain ⟨b, rfl⟩ := hbody
      cases hex
      obtain ⟨r, r', rfl, m, hm, hhalf⟩ := b.body_new s.objects hlt hn hc
      obtain ⟨c, hl⟩ := hf.leaving g m ((hk g).list m hm) hhalf
      exact absurd hl (not_leaving hs hstack List.mem_cons_self rfl (by simp) c)
    · rw [hex.created (not_exists.mp hbody) g] at hn
      exact absurd hn hlt

/-- **One step.** -/
theorem Flagged.step {act : Action θ ς ρ} (hf : Flagged s) (hs : Sound s)
    (hk : ∀ g, (s.objects.signals g).Known) (hst : s.step act = some (s', out)) : Flagged s' := by
  have hsteps := step_cases hst
  have hlate : ∀ g n, s.Late g n → s'.Late g n := by
    intro g n hl
    rcases hsteps.signals with ⟨a, i, is, code, s₁, -, -, hex, rfl⟩ | ⟨hsignals, -, -⟩
    · exact hex.keeps_late hl
    · rw [State.Late, State.connection, hsignals]
      exact hl
  have hposted : ∀ t e g n, (t, .deliver e g n) ∈ s'.posted → s'.Late g n := by
    intro t e g n hx
    cases hsteps with
    | @call a c =>
      obtain ⟨-, -, -, hposted⟩ := Sound.foldl_retain c.receivers s a
      rw [State.setStack, hposted] at hx
      exact hlate g n (hf.posted t e g n hx)
    | step hstack hex =>
      exact (hex.posts_late hk hx).elim (fun hold => hlate g n (hf.posted t e g n hold)) id
    | run | discard => exact hlate g n (hf.posted t e g n (List.mem_of_mem_eraseIdx hx))
    | _ => exact hlate g n (hf.posted t e g n hx)
  refine ⟨fun a => ?_, hposted, fun g n hn hc => ?_⟩
  · refine hsteps.stacks (Backed s'.Late) (fun a => (hf.backed a).mono hlate) (fun a c _ _ => ?_)
      (fun g n is hb => hb.2.2) (fun a i is s₁ code out hstack hex _ => ?_)
      (fun a task htask _ => ?_) (fun a r => ?_) a
    · refine ((hf.backed a).mono hlate).push ?_
      cases c <;> simp [Call.code, Instr.Plain]
    · exact hex.backed (hstack ▸ (hf.backed a).mono hlate)
    · cases task with
      | deliver e g n =>
        refine ⟨fun g' n' heq => (by cases heq), fun e' g' n' heq => ?_,
          (hf.backed a).mono hlate⟩
        cases heq
        exact hlate g n (hf.posted a e g n htask)
      | call e g n => exact ((hf.backed a).mono hlate).push (by simp [Task.code, Instr.Plain])
    · exact ((hf.backed a).mono hlate).push (by simp [Instr.Plain])
  · by_cases hact : ∃ a, act = .step a
    · obtain ⟨a, rfl⟩ := hact
      cases hsteps with
      | step hstack hex => exact hf.leaving_executes hs hk hstack hex hn hc
    · rcases hsteps.signals with ⟨a, _, _, _, _, rfl, -⟩ | ⟨hsignals, -, -⟩
      · exact absurd ⟨a, rfl⟩ hact
      · rw [hsignals] at hn
        rw [State.connection, hsignals] at hc
        obtain ⟨b, hl⟩ := hf.leaving g n hn hc
        exact ⟨b, hsteps.leaving (not_exists.mp hact) hl⟩

/-- **Every reachable state.** -/
theorem flagged {h : List (Observation θ ς)} {guard : State θ ς ρ → Action θ ς ρ → Prop}
    (hr : (machine θ ς ρ).ReachesVia guard h s) : Flagged s := by
  have hall : (Sound s ∧ Recalls h s) ∧ Flagged s := by
    refine hr.induction (fun h s => (Sound s ∧ Recalls h s) ∧ Flagged s) ?_ ?_
    · rintro s rfl
      refine ⟨⟨.initial, .initial⟩, fun a => trivial, fun t e g n hx => (by cases hx), ?_⟩
      intro g n hn
      cases hn
    · rintro h s act s' out ⟨⟨hs, hrec⟩, hf⟩ - hst
      exact ⟨⟨hs.step hst, hrec.step hst⟩, hf.step hs hrec.known hst⟩
  exact hall.2

/-- **The loop of `emit`** does not find a connection that has fired and not emitted, if it is not
one that a task calls. -/
theorem Flagged.emitted (hf : Flagged s) (hs : Sound s) (hstack : s.stack a = .emitLoop g :: is)
    (hn : n < (s.objects.signals g).created) : ¬ (s.connection g n).Halfway := by
  intro hc
  obtain ⟨b, hl⟩ := hf.leaving g n hn hc
  exact not_leaving hs hstack List.mem_cons_self rfl (by simp) b hl

end Steps

end Sigslot2

end TQLib
