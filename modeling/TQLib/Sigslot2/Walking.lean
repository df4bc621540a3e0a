import TQLib.Foundations.LiveIteration
import TQLib.Sigslot2.Flags

/-!
# What is seen of an emission

`emit` walks over `m_connectionList` with an iterator that belongs to the signal, and calls slots on
the way that connect and disconnect what they like. What an observer sees of the list of one signal
and of the loop over it is a `Walk`: where the loop begins, which connection it comes to and whether
that is due, what becomes of the call, and every connection that is erased or put at the end.

A slot may emit the signal again, so that loops over one list are inside one another. An observer
looks at those of one depth.

## Main results

* `mem_emitLoop` — which connections a turn of the loop calls
* `Executes.emitLoop_mem`, `Executes.emitter_mem` — where loops and calls come from
-/

namespace TQLib

namespace Sigslot2

variable {θ ς ρ : Type*} [DecidableEq θ] [DecidableEq ς] [DecidableEq ρ]

/-! ## What is seen -/

/-- The connection is to be called directly by an emission on the thread `a`: it is not a single
shot that has emitted, its receiver is alive, and it is a direct connection. -/
def State.due (s : State θ ς ρ) (a : θ) (g : ς) (n : ℕ) : Bool :=
  let c := s.connection g n
  !(c.isSingleShot && c.hasEmitted) && (c.isFunc || (s.objects.receiver c).isSome) &&
    (c.settle a).type == DirectConnection

/-- The object whose member function is the slot is alive, if the slot is one. -/
def State.callable (s : State θ ς ρ) (g : ς) (n : ℕ) : Bool :=
  match (s.connection g n).target with
  | none => true
  | some r => s.objects.alive r

/-- How many loops of emissions of `g` the thread `a` is in. -/
def State.depth (s : State θ ς ρ) (g : ς) (a : θ) : ℕ := (s.stack a).count (.emitLoop g)

/-- What is seen of the loop of an emission of `g` inside `d` others when the thread `a` does
`i`. -/
def State.marks (s : State θ ς ρ) (g : ς) (d : ℕ) (a : θ) (out : List (Observation θ ς)) :
    Instr θ ς ρ → List (Walk ℕ)
  | .body (.emit g') =>
    if g' = g ∧ s.depth g a = d then [.begins (s.objects.signals g).connectionList] else []
  | .emitLoop g' =>
    if g' = g ∧ s.depth g a = d + 1 then
      match (s.objects.signals g).currentIterator with
      | none => [.ends]
      | some n => [.turn n (s.due a g n)]
    else []
  | .emitter .direct _ g' n =>
    if g' = g ∧ s.depth g a = d + 1 then
      [.visit n (s.callable g n) (out.any (Observation.starts g n))]
    else []
  | _ => []

/-- What is seen in a step of the list of `g` and of a loop over it inside `d` others. -/
def State.walk (g : ς) (d : ℕ) (s : State θ ς ρ) (act : Action θ ς ρ)
    (out : List (Observation θ ς)) (s' : State θ ς ρ) : List (Walk ℕ) :=
  (match act with
    | .step a => (s.stack a).head?.elim [] (s.marks g d a out)
    | _ => []) ++
  edits (s.objects.signals g).connectionList (s'.objects.signals g).connectionList

/-- An emission of `g` begins inside another only if the iterator is at `end()`. -/
def NestedAtEnd (g : ς) (s : State θ ς ρ) : Action θ ς ρ → Prop
  | .step a => (s.stack a).head? = some (.body (.emit g)) → .emitLoop g ∈ s.stack a →
      (s.objects.signals g).currentIterator = none
  | _ => True

/-- No emission of `g` begins inside another. -/
def NotNested (g : ς) (s : State θ ς ρ) : Action θ ς ρ → Prop
  | .step a => (s.stack a).head? = some (.body (.emit g)) → .emitLoop g ∉ s.stack a
  | _ => True

instance (g : ς) (s : State θ ς ρ) : (act : Action θ ς ρ) → Decidable (NestedAtEnd g s act)
  | .step a => inferInstanceAs (Decidable ((s.stack a).head? = some (.body (.emit g)) →
      .emitLoop g ∈ s.stack a → (s.objects.signals g).currentIterator = none))
  | .call _ _ => .isTrue trivial
  | .ret _ => .isTrue trivial
  | .run _ => .isTrue trivial
  | .discard _ => .isTrue trivial
  | .destroy _ _ => .isTrue trivial
  | .quit _ => .isTrue trivial

instance (g : ς) (s : State θ ς ρ) : (act : Action θ ς ρ) → Decidable (NotNested g s act)
  | .step a => inferInstanceAs (Decidable ((s.stack a).head? = some (.body (.emit g)) →
      .emitLoop g ∉ s.stack a))
  | .call _ _ => .isTrue trivial
  | .ret _ => .isTrue trivial
  | .run _ => .isTrue trivial
  | .discard _ => .isTrue trivial
  | .destroy _ _ => .isTrue trivial
  | .quit _ => .isTrue trivial

omit [DecidableEq θ] [DecidableEq ς] [DecidableEq ρ] in
theorem NotNested.atEnd {g : ς} (s : State θ ς ρ) (act : Action θ ς ρ) (h : NotNested g s act) :
    NestedAtEnd g s act := by
  cases act with
  | step a => exact fun hhead hmem => absurd hmem (h hhead)
  | _ => trivial

variable {s s' : State θ ς ρ} {a : θ} {i : Instr θ ς ρ} {is code : List (Instr θ ς ρ)}
  {out : List (Observation θ ς)} {g : ς} {n d : ℕ}

/-! ## What stays on the stacks -/

/-- The steps that only what is on a stack already leads to. -/
def Instr.inner : Instr θ ς ρ → Bool
  | .emitLoop _ => true
  | .disconnectLoop _ => true
  | .emitter .direct _ _ _ => true
  | _ => false

/-- A thread that does `i` leaves alone what it neither does nor pushes. -/
theorem count_setStack (hstack : s.stack a = i :: is) (hex : Executes s a i s' code out)
    {j : Instr θ ς ρ} (hji : j ≠ i) (hcode : j ∉ code) (b : θ) :
    ((s'.setStack a (code ++ is)).stack b).count j = (s.stack b).count j := by
  rcases eq_or_ne b a with rfl | hne
  · rw [State.stack_setStack_self, hstack, List.count_append, List.count_eq_zero.mpr hcode,
      List.count_cons_of_ne hji.symm, Nat.zero_add]
  · rw [State.stack_setStack_of_ne _ _ hne, hex.stack]

/-- So do the other moves. -/
theorem Steps.count_inner {act : Action θ ς ρ} (h : Steps s act s' out)
    (hact : ∀ a, act ≠ .step a) {j : Instr θ ς ρ} (hj : j.inner = true) (b : θ) :
    (s'.stack b).count j = (s.stack b).count j := by
  have hpush : ∀ {a : θ} {code : List (Instr θ ς ρ)}, (∀ i ∈ code, i.inner = false) →
      ((s.setStack a (code ++ s.stack a)).stack b).count j = (s.stack b).count j := by
    intro a code hcode
    have hj' : j ∉ code := fun hmem => by simp [hcode j hmem] at hj
    rcases eq_or_ne b a with rfl | hne
    · rw [State.stack_setStack_self, List.count_append, List.count_eq_zero.mpr hj', Nat.zero_add]
    · rw [State.stack_setStack_of_ne _ _ hne]
  cases h with
  | @call a c =>
    obtain ⟨hstack, -, -, -⟩ := Sound.foldl_retain c.receivers s a
    rw [State.setStack, hstack]
    refine hpush ?_
    cases c <;> simp [Call.code, Instr.inner]
  | @ret a g n is hstack =>
    rcases eq_or_ne b a with rfl | hne
    · have hslot : .slot g n ≠ j := by
        rintro rfl
        cases hj
      rw [State.stack_setStack_self, hstack, List.count_cons_of_ne hslot]
    · rw [State.stack_setStack_of_ne _ _ hne]
  | step => exact absurd rfl (hact _)
  | @run i a task =>
    refine hpush ?_
    cases task <;> simp [Task.code, Instr.inner]
  | discard | quit => rfl
  | @destroy a r => exact hpush (by simp [Instr.inner])

/-- Where a loop of `emit` comes from. -/
theorem Executes.emitLoop_mem (h : Executes s a i s' code out) (hcode : .emitLoop g ∈ code) :
    i = .emitLoop g ∨ i = .body (.emit g) := by
  cases h with
  | body b =>
    cases b with
    | emit g' => exact .inr (by simpa [Block.body, eq_comm] using hcode)
    | connectFunc | connect | disconnect | disconnectConnection =>
      simp only [Block.body] at hcode
      split at hcode <;> simp at hcode
    | buildConnections4 r newReceiver =>
      obtain ⟨g', -, hg⟩ := List.mem_flatMap.mp hcode
      simp at hg
    | _ => simp [Block.body] at hcode
  | emitReach g₁ _ _ hdel =>
    rcases List.mem_append.mp hcode with hcode | hcode
    · cases hdel <;> simp at hcode
    · exact .inl (by simpa [eq_comm] using hcode)
  | emitSkip | emitExpired => exact .inl (by simpa [eq_comm] using hcode)
  | _ => simp at hcode

/-- Where a direct call of a slot comes from. -/
theorem Executes.emitter_mem (h : Executes s a i s' code out) {e : θ}
    (hcode : .emitter .direct e g n ∈ code) : i = .emitLoop g := by
  cases h with
  | body b => cases b.body_pushes s.objects _ hcode
  | emitReach g₁ _ _ hdel =>
    rcases List.mem_append.mp hcode with hcode | hcode
    · cases hdel <;> simp at hcode
      rw [hcode.2.1]
    · simp at hcode
  | _ => simp at hcode

/-! ## Turns -/

omit [DecidableEq θ] [DecidableEq ς] [DecidableEq ρ] in
theorem expired_eq (o : Objects θ ς ρ) (c : Connection θ ρ) :
    o.expired c = (!c.isFunc && ((o.receiver c).isNone || c.isSingleShot && c.hasFired)) := by
  rw [Objects.expired]
  cases c.isFunc <;> cases c.isSingleShot <;> simp

omit [DecidableEq ς] [DecidableEq ρ] in
/-- Of the tests that a connection has to pass, that on the second flag adds nothing. -/
theorem due_iff
    (hemitted : ((s.connection g n).isSingleShot && (s.connection g n).hasEmitted) = false)
    (hhalf : ¬ (s.connection g n).Halfway) : s.due a g n = true ↔
      s.objects.expired (s.connection g n) = false ∧
        ((s.connection g n).settle a).type = DirectConnection := by
  by_cases htype : ((s.connection g n).settle a).type = DirectConnection
  · have hqueued : (s.connection g n).type ≠ QueuedConnection := by
      intro hq
      have hsettled : ((s.connection g n).settle a).type = QueuedConnection := by
        rw [Connection.settle, hq]
        rfl
      rw [hsettled] at htype
      cases htype
    have hfired : ((s.connection g n).isSingleShot && (s.connection g n).hasFired) = false := by
      refine Bool.eq_false_iff.mpr fun hboth => hhalf ?_
      obtain ⟨hsingle, hfired⟩ := Bool.and_eq_true_iff.mp hboth
      rw [hsingle, Bool.true_and] at hemitted
      exact ⟨hqueued, hsingle, hfired, hemitted⟩
    simp only [State.due, hemitted, htype, expired_eq, hfired]
    cases (s.connection g n).isFunc <;> simp
  · simp [State.due, htype]

omit [DecidableEq ρ] in
/-- **A turn of the loop** calls a slot directly exactly if the connection is due. -/
theorem mem_emitLoop (hn : (s.objects.signals g).currentIterator = some n)
    (hhalf : ¬ (s.connection g n).Halfway) (e : θ) (g' : ς) (m : ℕ) :
    .emitter .direct e g' m ∈ (s.emitLoop a g).2.1 ↔
      s.due a g n = true ∧ e = a ∧ g' = g ∧ m = n := by
  simp only [State.emitLoop, hn, connection_past, connection_modify_self]
  split
  · rename_i hemitted
    simp [State.due, hemitted]
  · rename_i hemitted
    have hdue := due_iff (a := a) (Bool.eq_false_iff.mpr hemitted) hhalf
    split
    · rename_i hexpired
      have hexpired : s.objects.expired (s.connection g n) = true := hexpired
      simp [hdue, hexpired]
    · rename_i hexpired
      have hexpired : s.objects.expired (s.connection g n) = false :=
        Bool.eq_false_iff.mpr hexpired
      rw [hdue, hexpired]
      by_cases htype : ((s.connection g n).settle a).type = DirectConnection
      · simp [State.deliver, htype]
      · have hcode : .emitter .direct e g' m ∉ (((s.past g).modify g n fun c =>
            c.settle a).deliver a g n ((s.connection g n).settle a)).2 := by
          generalize hr : ((s.past g).modify g n fun c => c.settle a).deliver a g n
            ((s.connection g n).settle a) = r
          have hdel := deliver_cases ((s.past g).modify g n fun c => c.settle a) a g n
            ((s.connection g n).settle a)
          rw [hr] at hdel
          obtain ⟨s₁, code⟩ := r
          cases hdel with
          | direct hdirect => exact absurd hdirect htype
          | _ => simp
        simp [htype, hcode]

/-- **A turn of the loop** moves the iterator on, and the loop goes on. -/
theorem Executes.past (h : Executes s a (.emitLoop g) s' code out)
    (hn : (s.objects.signals g).currentIterator = some n) :
    (s'.objects.signals g).created = (s.objects.signals g).created ∧
      (s'.objects.signals g).connectionList = (s.objects.signals g).connectionList ∧
      (s'.objects.signals g).currentIterator = (s.objects.signals g).next n ∧
      code.count (.emitLoop g) = 1 := by
  have hpast : ((s.past g).objects.signals g).created = (s.objects.signals g).created ∧
      ((s.past g).objects.signals g).connectionList = (s.objects.signals g).connectionList ∧
      ((s.past g).objects.signals g).currentIterator = (s.objects.signals g).next n := by
    have hsignal : (s.past g).objects.signals g = (s.objects.signals g).advance :=
      Function.update_self ..
    rw [hsignal, Signal.advance, hn]
    exact ⟨rfl, rfl, rfl⟩
  obtain ⟨hcreated, hlist, hiterator⟩ := hpast
  cases h with
  | emitEnd _ hnone =>
    rw [hnone] at hn
    cases hn
  | emitSkip | emitExpired => exact ⟨hcreated, hlist, hiterator, by simp⟩
  | @emitReach _ m _ code _ _ hdel =>
    have hsignal : ((s.past g).modify g m fun c => c.settle a).objects.signals g =
        ((s.past g).objects.signals g).modify m fun c => c.settle a := Function.update_self ..
    rw [hdel.objects, hsignal]
    refine ⟨hcreated, hlist, hiterator, ?_⟩
    have hcode : code.count (.emitLoop g) = 0 := by
      refine List.count_eq_zero.mpr ?_
      cases hdel <;> simp
    rw [List.count_append, hcode]
    simp

/-- A slot is called if the object it belongs to is alive. -/
theorem exec_emitter {e : θ} (h : s.exec a (.emitter .direct e g n) = some (s', code, out)) :
    out.any (Observation.starts g n) = s.callable g n := by
  cases htarget : (s.connection g n).target with
  | none =>
    simp only [State.exec, htarget] at h
    cases h
    simp [State.callable, htarget, Observation.starts]
  | some r =>
    simp only [State.exec, htarget] at h
    by_cases halive : s.objects.alive r = true
    · rw [if_pos halive] at h
      cases h
      simp [State.callable, htarget, Observation.starts, halive]
    · rw [if_neg halive] at h
      cases h
      simp [State.callable, htarget, halive]

/-- `disconnectAll` ends when the list is empty. -/
theorem exec_disconnectLoop (h : s.exec a (.disconnectLoop g) = some (s', code, out))
    (hcode : .disconnectLoop g ∉ code) : (s.objects.signals g).connectionList = [] := by
  simp only [State.exec] at h
  split at h
  · assumption
  · split at h <;> cases h <;> simp at hcode

end Sigslot2

end TQLib
