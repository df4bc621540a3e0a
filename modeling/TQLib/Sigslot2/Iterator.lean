import Mathlib.Data.List.Nodup
import TQLib.Sigslot2.Connections

/-!
# The iterator of a signal

`m_currentIterator` belongs to the signal and not to the loop that moves it, so that whatever erases
a connection while the signal fires can move it on. Where it stands is said by a cut of the list:
`At done todo` if it is between `done` and `todo`.

Each operation on the list takes a cut to a cut, but for `pop_front`, with which `disconnectAll`
takes the list away under the iterator and repairs it only in the end. Until then the iterator may
be at an element that is gone. What saves it is what can come between: above the loop of
`disconnectAll` on a stack there is only what a destructor does, and no other thread has the lock.

## Main results

* `Executes.turns` — what a step does to the list and the iterator
* `orderly` — what is above a loop of `disconnectAll`, and what is below
* `iterator_at` — where the iterator is when the loop of `emit` uses it
-/

namespace TQLib

namespace Sigslot2

variable {θ ς ρ : Type*}

/-! ## Cuts -/

namespace Signal

/-- The iterator stands between `done` and `todo`. -/
structure At (s : Signal θ ρ) (done todo : List ℕ) : Prop where
  /-- The list is cut there. -/
  list : s.connectionList = done ++ todo
  /-- The iterator is at the first element that is to come, or at `end()`. -/
  iterator : s.currentIterator = todo.head?

/-- The connections that do not meet `p` are erased, and nothing else happens. -/
structure Loses (p : ℕ → Bool) (s s' : Signal θ ρ) : Prop where
  /-- Nothing is created. -/
  created : s'.created = s.created
  /-- What remains is in the order it was. -/
  list : s'.connectionList = s.connectionList.filter p
  /-- So is what was before the iterator and what was after it. -/
  iterator : ∀ done todo, s.At done todo → s'.At (done.filter p) (todo.filter p)

/-- `k` connections are created, and nothing else happens. -/
structure Gains (k : ℕ) (s s' : Signal θ ρ) : Prop where
  /-- They have the next numbers. -/
  created : s'.created = s.created + k
  /-- They are at the end of the list. -/
  list : s'.connectionList = s.connectionList ++ List.range' s.created k
  /-- The iterator stays. -/
  iterator : s'.currentIterator = s.currentIterator

variable {s s' s'' : Signal θ ρ} {done todo : List ℕ}

theorem Gains.refl (s : Signal θ ρ) : Gains 0 s s := ⟨rfl, (List.append_nil _).symm, rfl⟩

theorem Gains.trans {k l : ℕ} (h : Gains k s s') (h' : Gains l s' s'') : Gains (k + l) s s'' := by
  refine ⟨by rw [h'.created, h.created, Nat.add_assoc], ?_, h'.iterator.trans h.iterator⟩
  rw [h'.list, h.list, h.created, List.append_assoc, List.range'_append_1]

theorem gains_pushBack (s : Signal θ ρ) (c : Connection θ ρ) : Gains 1 s (s.pushBack c) :=
  ⟨rfl, rfl, rfl⟩

theorem gains_unique (s : Signal θ ρ) (unique : Bool) : Gains 0 s { s with unique } :=
  ⟨rfl, (List.append_nil _).symm, rfl⟩

theorem gains_foldl (f : ℕ → Connection θ ρ) (ns : List ℕ) (s : Signal θ ρ) :
    ∃ k, Gains k s (ns.foldl (fun s n => s.pushBack (f n)) s) := by
  induction ns generalizing s with
  | nil => exact ⟨0, .refl s⟩
  | cons n ns ih =>
    obtain ⟨k, hk⟩ := ih (s.pushBack (f n))
    exact ⟨1 + k, (gains_pushBack s _).trans hk⟩

/-- A new connection comes last, unless the iterator is past all others already. -/
theorem Gains.at {k : ℕ} (h : Gains k s s') (hat : s.At done todo) :
    s'.At (if todo = [] then done ++ List.range' s.created k else done)
      (if todo = [] then [] else todo ++ List.range' s.created k) := by
  rcases todo with _ | ⟨n, todo⟩
  · refine ⟨?_, h.iterator.trans hat.iterator⟩
    rw [h.list, hat.list, if_pos rfl, if_pos rfl, List.append_nil, List.append_nil]
  · refine ⟨?_, h.iterator.trans hat.iterator⟩
    rw [h.list, hat.list, if_neg (List.cons_ne_nil _ _), if_neg (List.cons_ne_nil _ _),
      List.append_assoc]

theorem Loses.refl (s : Signal θ ρ) : Loses (fun _ => true) s s :=
  ⟨rfl, (List.filter_true _).symm, fun done todo hat => by rwa [List.filter_true, List.filter_true]⟩

theorem Loses.trans {p q : ℕ → Bool} (h : Loses p s s') (h' : Loses q s' s'') :
    Loses (fun n => q n && p n) s s'' := by
  refine ⟨h'.created.trans h.created, ?_, fun done todo hat => ?_⟩
  · rw [h'.list, h.list, List.filter_filter]
  · have hat'' := h'.iterator _ _ (h.iterator _ _ hat)
    rwa [List.filter_filter, List.filter_filter] at hat''

/-- The element after the iterator. -/
theorem At.next {n : ℕ} (hat : s.At done (n :: todo)) (hs : s.connectionList.Nodup) :
    s.next n = todo.head? := by
  rw [hat.list] at hs
  have hn : n ∉ done := fun hmem => List.disjoint_of_nodup_append hs hmem List.mem_cons_self
  have hdrop : (done ++ n :: todo).dropWhile (fun m => m != n) = n :: todo := by
    rw [List.dropWhile_append_of_pos fun m hm => by simpa using ne_of_mem_of_not_mem hm hn]
    simp
  rw [Signal.next, hat.list, hdrop, List.tail_cons]

theorem loses_erase (hs : s.connectionList.Nodup) (n : ℕ) :
    Loses (fun m => m != n) s (s.erase n) := by
  refine ⟨rfl, hs.erase_eq_filter n, fun done todo hat => ⟨?_, ?_⟩⟩
  · show s.connectionList.erase n = _
    rw [hs.erase_eq_filter n, hat.list, List.filter_append]
  · show (if s.currentIterator = some n then s.next n else s.currentIterator) = _
    rw [hat.iterator]
    rcases todo with _ | ⟨m, todo⟩
    · rfl
    · rcases eq_or_ne m n with rfl | hne
      · -- the rest of the list does not have the element a second time
        have hm : m ∉ todo := by
          rw [hat.list] at hs
          exact (List.nodup_cons.mp (List.nodup_append'.mp hs).2.1).1
        have hrest : todo.filter (fun k => k != m) = todo := by
          refine List.filter_eq_self.mpr fun k hk => ?_
          simpa using ne_of_mem_of_not_mem hk hm
        rw [if_pos (List.head?_cons ..), hat.next hs, List.filter_cons_of_neg (by simp), hrest]
      · rw [if_neg (by simpa using hne), List.filter_cons_of_pos (by simpa using hne),
          List.head?_cons, List.head?_cons]

theorem Loses.nodup {p : ℕ → Bool} (h : Loses p s s') (hs : s.connectionList.Nodup) :
    s'.connectionList.Nodup := by
  rw [h.list]
  exact hs.filter p

theorem loses_foldl (ns : List ℕ) (hs : s.connectionList.Nodup) :
    ∃ p, Loses p s (ns.foldl erase s) := by
  induction ns generalizing s with
  | nil => exact ⟨_, .refl s⟩
  | cons n ns ih =>
    have herase := loses_erase hs n
    obtain ⟨p, hp⟩ := ih (herase.nodup hs)
    exact ⟨_, herase.trans hp⟩

theorem Gains.nodup {k : ℕ} (h : Gains k s s') (hk : s.Known) (hs : s.connectionList.Nodup) :
    s'.connectionList.Nodup := by
  rw [h.list, List.nodup_append']
  refine ⟨hs, List.nodup_range', fun n hn hn' => ?_⟩
  have hlt := hk.list n hn
  have hge := List.left_le_of_mem_range' hn'
  omega

theorem at_setBegin (s : Signal θ ρ) : s.setBegin.At [] s.connectionList := ⟨rfl, rfl⟩

theorem at_setEnd (s : Signal θ ρ) : s.setEnd.At s.connectionList [] :=
  ⟨(List.append_nil _).symm, rfl⟩

end Signal

/-! ## What a step does to a list -/

/-- What the step `i` may do to the list and the iterator of `g`. -/
inductive Turns (i : Instr θ ς ρ) (g : ς) (s s' : Signal θ ρ) : Prop
  | loses {p : ℕ → Bool} : s.Loses p s' → Turns i g s s'
  | gains {k : ℕ} : s.Gains k s' → Turns i g s s'
  | begins : i = .body (.emit g) → s' = s.setBegin → Turns i g s s'
  | advances {n : ℕ} : i = .emitLoop g → s.currentIterator = some n → s'.created = s.created →
      s'.connectionList = s.connectionList → s'.currentIterator = s.next n → Turns i g s s'
  | pops : i = .popFront g → s' = s.popFront → Turns i g s s'
  | ends : i = .disconnectLoop g → s' = s.setEnd → Turns i g s s'

theorem Turns.of_eq {i : Instr θ ς ρ} {g : ς} {s s' : Signal θ ρ} (h : s' = s) :
    Turns i g s s' := by
  rw [h]
  exact .gains (.refl s)

section Steps

variable [DecidableEq ς]

theorem turns_setSignal {i : Instr θ ς ρ} {g g₁ : ς} (o : Objects θ ς ρ) {s : Signal θ ρ}
    (h : Turns i g₁ (o.signals g₁) s) : Turns i g (o.signals g) ((o.setSignal g₁ s).signals g) := by
  show Turns i g (o.signals g) (Function.update o.signals g₁ s g)
  rcases eq_or_ne g g₁ with rfl | hne
  · rwa [Function.update_self]
  · rw [Function.update_of_ne hne]
    exact .of_eq rfl

theorem Signal.gains_connectFunc (s : Signal θ ρ) (type : UInt32) (thread : Option θ) :
    ∃ k, Gains k s (s.connectFunc type thread).1 := by
  have hu := s.gains_unique (type &&& UniqueConnection != 0 || s.unique)
  simp only [Signal.connectFunc]
  split
  · exact ⟨0, .refl s⟩
  · split
    · exact ⟨0, hu⟩
    · exact ⟨0 + 1, hu.trans (gains_pushBack _ _)⟩

theorem Signal.gains_connect (s : Signal θ ρ) (r : ρ) (type : UInt32) (thread : Option θ) :
    ∃ k, Gains k s (s.connect r type thread).1 := by
  have hu := s.gains_unique (type &&& UniqueConnection != 0 || s.unique)
  simp only [Signal.connect]
  split
  · exact ⟨0, .refl s⟩
  · split
    · exact ⟨0, hu⟩
    · exact ⟨0 + 1, hu.trans (gains_pushBack _ _)⟩

variable [DecidableEq ρ]

theorem Block.body_turns (b : Block θ ς ρ) (o : Objects θ ς ρ) (g : ς)
    (ho : ∀ g, (o.signals g).connectionList.Nodup) :
    Turns (.body b) g (o.signals g) ((b.body o).1.signals g) := by
  cases b with
  | connectFunc g₁ type thread =>
    obtain ⟨k, hk⟩ := (o.signals g₁).gains_connectFunc type thread
    simp only [Block.body]
    split <;> rename_i heq <;> rw [heq] at hk <;> exact turns_setSignal o (.gains hk)
  | connect g₁ r type thread =>
    obtain ⟨k, hk⟩ := (o.signals g₁).gains_connect r type thread
    simp only [Block.body]
    split <;> rename_i heq <;> rw [heq] at hk <;> exact turns_setSignal o (.gains hk)
  | disconnect g₁ r =>
    simp only [Block.body]
    split
    · exact .of_eq rfl
    · exact turns_setSignal o (.loses (Signal.loses_erase (ho g₁) _))
  | disconnectConnection g₁ n =>
    simp only [Block.body]
    split
    · exact turns_setSignal o (.loses (Signal.loses_erase (ho g₁) _))
    · exact .of_eq rfl
  | slotDisconnect g₁ r =>
    obtain ⟨p, hp⟩ := Signal.loses_foldl (o.disconnected g₁ r) (ho g₁)
    exact turns_setSignal o (.loses hp)
  | slotClone g₁ r newReceiver =>
    obtain ⟨k, hk⟩ := Signal.gains_foldl
      (fun n => ((o.signals g₁).connections n).clone newReceiver) (o.cloned g₁ r) (o.signals g₁)
    exact turns_setSignal o (.gains hk)
  | emit g₁ =>
    show Turns _ g _ (Function.update o.signals g₁ (o.signals g₁).setBegin g)
    rcases eq_or_ne g g₁ with rfl | hne
    · rw [Function.update_self]
      exact .begins rfl rfl
    · rw [Function.update_of_ne hne]
      exact .of_eq rfl
  | _ => exact .of_eq rfl

variable [DecidableEq θ] {s s' : State θ ς ρ} {a : θ} {i : Instr θ ς ρ}
  {code : List (Instr θ ς ρ)} {out : List (Observation θ ς)} {g : ς}

omit [DecidableEq θ] [DecidableEq ρ] in
/-- A member of a connection is written. -/
theorem turns_modify (s : State θ ς ρ) (g₁ : ς) (n : ℕ) (f : Connection θ ρ → Connection θ ρ) :
    Turns i g (s.objects.signals g) ((s.modify g₁ n f).objects.signals g) :=
  turns_setSignal s.objects (.gains (k := 0) ⟨rfl, (List.append_nil _).symm, rfl⟩)

omit [DecidableEq θ] [DecidableEq ρ] in
/-- The loop of `emit` moves the iterator on. -/
theorem turns_past {g₁ : ς} {n : ℕ} (hn : (s.objects.signals g₁).currentIterator = some n) :
    Turns (.emitLoop g₁) g (s.objects.signals g) ((s.past g₁).objects.signals g) := by
  show Turns _ g _ (Function.update s.objects.signals g₁ (s.objects.signals g₁).advance g)
  rcases eq_or_ne g g₁ with rfl | hne
  · rw [Function.update_self]
    exact .advances rfl hn rfl rfl (by rw [Signal.advance, hn]; rfl)
  · rw [Function.update_of_ne hne]
    exact .of_eq rfl

theorem Executes.turns (h : Executes s a i s' code out)
    (hs : ∀ g, (s.objects.signals g).connectionList.Nodup) (g : ς) :
    Turns i g (s.objects.signals g) (s'.objects.signals g) := by
  cases h with
  | body b => exact b.body_turns s.objects g hs
  | emitSkip g₁ hn | emitExpired g₁ hn => exact turns_past hn
  | @emitReach g₁ n₁ _ _ hn _ hdel =>
    rw [hdel.objects]
    show Turns _ g _ (Function.update (Function.update s.objects.signals g₁ _) g₁ _ g)
    rcases eq_or_ne g g₁ with rfl | hne
    · rw [Function.update_self]
      refine .advances rfl hn ?_ ?_ ?_ <;> show _ = _ <;>
        simp [State.past, State.setObjects, Objects.setSignal, Signal.modify, Signal.advance, hn]
    · rw [Function.update_of_ne hne, Function.update_of_ne hne]
      exact .of_eq rfl
  | setFired g₁ n₁ | setEmitted g₁ n₁ => exact turns_modify s g₁ n₁ _
  | disconnectEnd g₁ =>
    show Turns _ g _ (Function.update s.objects.signals g₁ (s.objects.signals g₁).setEnd g)
    rcases eq_or_ne g g₁ with rfl | hne
    · rw [Function.update_self]
      exact .ends rfl rfl
    · rw [Function.update_of_ne hne]
      exact .of_eq rfl
  | popFront g₁ =>
    show Turns _ g _ (Function.update s.objects.signals g₁ (s.objects.signals g₁).popFront g)
    rcases eq_or_ne g g₁ with rfl | hne
    · rw [Function.update_self]
      exact .pops rfl rfl
    · rw [Function.update_of_ne hne]
      exact .of_eq rfl
  | _ => exact .of_eq rfl

omit [DecidableEq θ] [DecidableEq ς] [DecidableEq ρ] in
theorem Turns.nodup {s s' : Signal θ ρ} (h : Turns i g s s') (hk : s.Known)
    (hs : s.connectionList.Nodup) : s'.connectionList.Nodup := by
  cases h with
  | loses h => exact h.nodup hs
  | gains h => exact h.nodup hk hs
  | begins _ h | ends _ h =>
    rw [h]
    exact hs
  | advances _ _ _ hlist _ =>
    rw [hlist]
    exact hs
  | pops _ h =>
    rw [h]
    exact hs.sublist (List.tail_sublist _)

end Steps

/-! ## Stacks -/

/-- The scopes a destructor enters. -/
def Block.calm : Block θ ς ρ → Bool
  | .removeSender _ _ => true
  | .slotDisconnect _ _ => true
  | .detach _ => true
  | _ => false

/-- What the destructor of a receiver and the loop of `disconnectAll` do. -/
def Instr.calm : Instr θ ς ρ → Bool
  | .enter b => b.calm
  | .blocked b => b.calm
  | .body b => b.calm
  | .leave _ => true
  | .disconnectLoop _ => true
  | .popFront _ => true
  | .detachLoop _ => true
  | .drop _ => true
  | .destroyed _ => true
  | _ => false

/-- Nothing but calm steps is done above this. -/
def Instr.sheltered : Instr θ ς ρ → Bool
  | .disconnectLoop _ => true
  | .emitter .direct _ _ _ => true
  | _ => false

/-- What is below this as long as it is on a stack. -/
def Instr.restsOn : Instr θ ς ρ → List (Instr θ ς ρ)
  | .disconnectLoop g => [.leave (.signal g)]
  | .emitter .direct _ g _ => [.leave (.signal g)]
  | .popFront g => [.disconnectLoop g]
  | _ => []

/-- Everything is above what it rests on. -/
def Rests (is : List (Instr θ ς ρ)) : Prop :=
  Scoped (fun i j => j ∈ i.restsOn) (fun i j => i = j) is

theorem rests_cons {i : Instr θ ς ρ} {is : List (Instr θ ς ρ)} :
    Rests (i :: is) ↔ (∀ j ∈ i.restsOn, j ∈ is) ∧ Rests is := by
  show (∀ j, j ∈ i.restsOn → ∃ k ∈ is, k = j) ∧ _ ↔ _
  simp [Rests]

/-- What rests on something that is below can be pushed. -/
theorem Rests.append {code is : List (Instr θ ς ρ)} {l : Lock ς ρ} (h : Rests is)
    (hl : .leave l ∈ is) (hcode : ∀ i ∈ code, i.restsOn ⊆ [.leave l]) : Rests (code ++ is) := by
  refine Scoped.append h fun i hi j hj => ⟨j, ?_, rfl⟩
  rwa [List.mem_singleton.mp (hcode i hi hj)]

/-- So can what rests on nothing. -/
theorem Rests.push {code is : List (Instr θ ς ρ)} (h : Rests is)
    (hcode : ∀ i ∈ code, i.restsOn = []) : Rests (code ++ is) :=
  Scoped.push h fun i hi j hj => by simp [hcode i hi] at hj

/-- What the stack of a thread looks like. -/
structure Orderly (is : List (Instr θ ς ρ)) : Prop where
  /-- Only calm steps are above what is sheltered. -/
  calm : is.Pairwise fun i j => j.sheltered = true → i.calm = true
  /-- Everything is above what it rests on. -/
  rests : Rests is

namespace Orderly

variable {i : Instr θ ς ρ} {is code : List (Instr θ ς ρ)}

theorem tail (h : Orderly (i :: is)) : Orderly is := ⟨h.calm.of_cons, h.rests.tail⟩

/-- Nothing is sheltered by a step that is not calm. -/
theorem bare (h : Orderly (i :: is)) (hi : i.calm = false) : ∀ j ∈ is, j.sheltered = false := by
  intro j hj
  by_contra hs
  have hc := List.rel_of_pairwise_cons h.calm hj (by simpa using hs)
  rw [hi] at hc
  cases hc

/-- Calm steps can be pushed anywhere. -/
theorem push_calm (h : Orderly is) (hcode : ∀ i ∈ code, i.calm = true)
    (hrests : Rests (code ++ is)) : Orderly (code ++ is) := by
  refine ⟨List.pairwise_append.mpr ⟨?_, h.calm, fun i hi j _ _ => hcode i hi⟩, hrests⟩
  exact List.pairwise_of_forall_mem_list fun i hi j _ _ => hcode i hi

/-- Any steps can be pushed where nothing is sheltered. -/
theorem push_bare (his : ∀ j ∈ is, j.sheltered = false)
    (hcode : ∀ j ∈ code.tail, j.sheltered = false)
    (hrests : Rests (code ++ is)) : Orderly (code ++ is) := by
  have hbare : ∀ is : List (Instr θ ς ρ), (∀ j ∈ is, j.sheltered = false) →
      is.Pairwise fun i j => j.sheltered = true → i.calm = true := fun is his =>
    List.pairwise_of_forall_mem_list fun i _ j hj hs => by simp [his j hj] at hs
  refine ⟨?_, hrests⟩
  cases code with
  | nil => exact hbare is his
  | cons i code =>
    have hrest : ∀ j ∈ code ++ is, j.sheltered = false := fun j hj =>
      (List.mem_append.mp hj).elim (hcode j) (his j)
    exact List.pairwise_cons.mpr ⟨fun j hj hs => by simp [hrest j hj] at hs, hbare _ hrest⟩

end Orderly

section Run

variable [DecidableEq θ] [DecidableEq ς] [DecidableEq ρ] {s s' : State θ ς ρ} {a : θ}
  {i : Instr θ ς ρ} {code : List (Instr θ ς ρ)} {out : List (Observation θ ς)} {g : ς}

/-- **The stacks in one step.** What holds of every stack, and is kept by whatever a thread may do
to its own, holds of every stack after the step. -/
theorem Steps.stacks {act : Action θ ς ρ} (h : Steps s act s' out) (P : List (Instr θ ς ρ) → Prop)
    (hs : ∀ a, P (s.stack a))
    (hcall : ∀ a c, act = .call a c → s.userCode a = true → P (c.code ++ s.stack a))
    (hret : ∀ g n is, P (.slot g n :: is) → P is)
    (hstep : ∀ a i is s₁ code out, s.stack a = i :: is → Executes s a i s₁ code out →
      s' = s₁.setStack a (code ++ is) → P (code ++ is))
    (hrun : ∀ a task, (a, task) ∈ s.posted → s.userCode a = true → P (task.code ++ s.stack a))
    (hdestroy : ∀ a r, P ([.enter (.detach r), .destroyed r] ++ s.stack a)) (b : θ) :
    P (s'.stack b) := by
  have hmove : ∀ {a is}, s'.stack = Function.update s.stack a is → P is → P (s'.stack b) := by
    intro a is heq his
    rw [heq]
    rcases eq_or_ne b a with rfl | hne
    · rwa [Function.update_self]
    · rw [Function.update_of_ne hne]
      exact hs b
  cases h with
  | @call a c huser =>
    obtain ⟨hstack, -, -, -⟩ := Sound.foldl_retain c.receivers s a
    exact hmove (by rw [State.setStack, hstack]) (hcall a c rfl huser)
  | @ret a g n is hstack => exact hmove rfl (hret g n is (hstack ▸ hs a))
  | step hstack hex =>
    exact hmove (by rw [State.setStack, hex.stack]) (hstep _ _ _ _ _ _ hstack hex rfl)
  | @run i a task hi huser => exact hmove rfl (hrun a task (List.mem_of_getElem? hi) huser)
  | discard | quit => exact hs b
  | @destroy a r => exact hmove rfl (hdestroy a r)

omit [DecidableEq θ] [DecidableEq ς] [DecidableEq ρ] in
theorem userCode_cases (h : s.userCode a = true) :
    s.stack a = [] ∨ ∃ g n is, s.stack a = .slot g n :: is := by
  rw [State.userCode] at h
  split at h
  · exact .inl ‹_›
  · exact .inr ⟨_, _, _, ‹_›⟩
  · cases h

omit [DecidableEq θ] in
theorem Block.calm_body (b : Block θ ς ρ) (hb : b.calm = true) (o : Objects θ ς ρ) :
    ∀ i ∈ (b.body o).2.1, i.calm = true := by
  cases b with
  | removeSender | slotDisconnect => exact fun i hi => by cases hi
  | detach r => exact fun i hi => by rw [List.mem_singleton.mp hi]; rfl
  | _ => cases hb

omit [DecidableEq θ] in
theorem Block.sheltered_body (b : Block θ ς ρ) (o : Objects θ ς ρ) :
    ∀ i ∈ (b.body o).2.1.tail, i.sheltered = false := by
  cases b with
  | buildConnections4 r newReceiver =>
    intro i hi
    obtain ⟨g, -, hg⟩ := List.mem_flatMap.mp (List.mem_of_mem_tail hi)
    simp only [List.mem_cons, List.not_mem_nil, or_false] at hg
    rcases hg with rfl | rfl <;> rfl
  | connectFunc | connect | disconnect | disconnectConnection =>
    simp only [Block.body]
    split <;> exact fun i hi => by cases hi
  | _ => exact fun i hi => by cases hi

/-- Calm steps lead to calm steps. -/
theorem Executes.calm (h : Executes s a i s' code out) (hi : i.calm = true) :
    ∀ j ∈ code, j.calm = true := by
  cases h with
  | enter b | wake b =>
    have hb : b.calm = true := hi
    simp [Instr.calm, hb]
  | block b =>
    have hb : b.calm = true := hi
    simp [Instr.calm, hb]
  | body b => exact b.calm_body hi s.objects
  | detach r gs =>
    intro j hj
    rcases List.mem_append.mp hj with hj | hj
    · obtain ⟨g, -, rfl⟩ := List.mem_map.mp hj
      rfl
    · rw [List.mem_singleton.mp hj]
      rfl
  | disconnectFunc | disconnectMethod => simp [Instr.calm, Block.calm]
  | leave | disconnectEnd | popFront | detachEnd | drop | destroyed =>
    exact fun j hj => by cases hj
  | _ => cases hi

/-- Of what a step pushes only the first may be sheltered. -/
theorem Executes.sheltered (h : Executes s a i s' code out) :
    ∀ j ∈ code.tail, j.sheltered = false ∨ i.calm = true := by
  cases h with
  | body b => exact fun j hj => .inl (b.sheltered_body s.objects j hj)
  | emitReach g _ _ hdel => cases hdel <;> simp [Instr.sheltered]
  | disconnectFunc | disconnectMethod => exact fun _ _ => .inr rfl
  | detach => exact fun _ _ => .inr rfl
  | _ => simp [Instr.sheltered]

omit [DecidableEq θ] in
/-- What a scope pushes rests on the scope. -/
theorem Block.rests_body (b : Block θ ς ρ) (o : Objects θ ς ρ) :
    ∀ i ∈ (b.body o).2.1, i.restsOn ⊆ [.leave b.lock] := by
  cases b with
  | disconnectAll g =>
    intro i hi
    rw [List.mem_singleton.mp hi]
    exact List.Subset.refl _
  | buildConnections4 r newReceiver =>
    intro i hi
    obtain ⟨g, -, hg⟩ := List.mem_flatMap.mp hi
    simp only [List.mem_cons, List.not_mem_nil, or_false] at hg
    rcases hg with rfl | rfl <;> exact List.nil_subset _
  | connectFunc | connect | disconnect | disconnectConnection =>
    simp only [Block.body]
    split <;> simp [Instr.restsOn]
  | _ => simp [Block.body, Instr.restsOn]

omit [DecidableEq θ] [DecidableEq ς] [DecidableEq ρ] in
theorem Delivers.rests {n : ℕ} {c : Connection θ ρ} (h : Delivers s a g n c s' code) :
    ∀ i ∈ code, i.restsOn ⊆ [.leave (.signal g)] := by
  cases h <;> simp [Instr.restsOn]

omit [DecidableEq θ] [DecidableEq ς] [DecidableEq ρ] in
/-- A step that needs a lock is above what gives it back. -/
theorem Nested.leave {is : List (Instr θ ς ρ)} {l : Lock ς ρ} (h : Nested (i :: is))
    (hi : .lock l ∈ i.needs) : .leave l ∈ is := by
  obtain ⟨j, hj, hc⟩ := h.head hi
  rwa [Instr.closes_lock hc] at hj

theorem Executes.rests (h : Executes s a i s' code out) {is : List (Instr θ ς ρ)}
    (hnested : Nested (i :: is)) (hs : Rests (i :: is)) : Rests (code ++ is) := by
  obtain ⟨hi, hrest⟩ := rests_cons.mp hs
  cases h with
  | body b => exact hrest.append (hnested.leave List.mem_cons_self) (b.rests_body s.objects)
  | emitReach g _ _ hdel =>
    refine hrest.append (hnested.leave (l := .signal g) List.mem_cons_self) fun i hi => ?_
    rcases List.mem_append.mp hi with hi | hi
    · exact hdel.rests i hi
    · simp only [List.mem_cons, List.not_mem_nil, or_false] at hi
      rcases hi with rfl | rfl <;> exact List.nil_subset _
  | disconnectFunc g | disconnectMethod g =>
    simp only [List.cons_append, List.nil_append, rests_cons]
    simp [Instr.restsOn, hrest, hi (.leave (.signal g)) List.mem_cons_self]
  | detach r gs =>
    refine hrest.push fun i hi => ?_
    rcases List.mem_append.mp hi with hi | hi
    · obtain ⟨g, -, rfl⟩ := List.mem_map.mp hi
      rfl
    · rw [List.mem_singleton.mp hi]
      rfl
  | _ =>
    refine hrest.push ?_
    simp [Instr.restsOn]

omit [DecidableEq θ] [DecidableEq ς] [DecidableEq ρ] in
/-- Nothing is sheltered while user code runs. -/
theorem bare_of_userCode (ho : Orderly (s.stack a)) (h : s.userCode a = true) :
    ∀ j ∈ s.stack a, j.sheltered = false := by
  rcases userCode_cases h with hnil | ⟨g, n, is, hslot⟩
  · rw [hnil]
    exact fun j hj => by cases hj
  · rw [hslot] at ho ⊢
    exact List.forall_mem_cons.mpr ⟨rfl, ho.bare rfl⟩

/-- **One step** keeps the stacks in order. -/
theorem orderly_step {act : Action θ ς ρ} (hs : Sound s) (ho : ∀ a, Orderly (s.stack a))
    (hst : s.step act = some (s', out)) (a : θ) : Orderly (s'.stack a) := by
  refine (step_cases hst).stacks Orderly ho (fun a c _ huser => ?_) (fun g n is h => h.tail) ?_
    (fun a task _ huser => ?_) (fun a r => ?_) a
  · refine .push_bare (bare_of_userCode (ho a) huser) ?_ ((ho a).rests.push ?_) <;>
      cases c <;> simp [Call.code, Instr.sheltered, Instr.restsOn]
  · intro a i is s₁ code out hstack hex _
    have hi : Orderly (i :: is) := hstack ▸ ho a
    have hrests := hex.rests (hstack ▸ hs.nested a) hi.rests
    cases hcalm : i.calm with
    | true => exact hi.tail.push_calm (hex.calm hcalm) hrests
    | false =>
      refine .push_bare (hi.bare hcalm) (fun j hj => (hex.sheltered j hj).resolve_right ?_) hrests
      rw [hcalm]
      exact Bool.false_ne_true
  · refine .push_bare (bare_of_userCode (ho a) huser) ?_ ((ho a).rests.push ?_) <;>
      cases task <;> simp [Task.code, Instr.sheltered, Instr.restsOn]
  · exact (ho a).push_calm (by simp [Instr.calm, Block.calm]) ((ho a).rests.push (by
      simp [Instr.restsOn]))

/-- **Every reachable state** has its stacks in order. -/
theorem orderly {h : List (Observation θ ς)} {guard : State θ ς ρ → Action θ ς ρ → Prop}
    (hr : (machine θ ς ρ).ReachesVia guard h s) (a : θ) : Orderly (s.stack a) := by
  have hall : Sound s ∧ ∀ a, Orderly (s.stack a) := by
    refine hr.invariant (fun s => Sound s ∧ ∀ a, Orderly (s.stack a)) ?_ ?_
    · rintro s rfl
      exact ⟨.initial, fun a => ⟨.nil, trivial⟩⟩
    · rintro s act s' out ⟨hs, ho⟩ - hst
      exact ⟨hs.step hst, orderly_step hs ho hst⟩
  exact hall.2 a

/-! ## Where the iterator is -/

/-- The lists, and the iterators of the signals that are not being disconnected. -/
structure Placed (s : State θ ς ρ) : Prop where
  /-- No connection is in a list twice. -/
  nodup : ∀ g, (s.objects.signals g).connectionList.Nodup
  /-- The iterator cuts the list, if no thread is taking the list away. -/
  cut : ∀ g, (∀ a, .disconnectLoop g ∉ s.stack a) → ∃ done todo, (s.objects.signals g).At done todo

omit [DecidableEq θ] [DecidableEq ς] [DecidableEq ρ] in
theorem Placed.initial : Placed (State.initial : State θ ς ρ) :=
  ⟨fun _ => .nil, fun _ _ => ⟨[], [], rfl, rfl⟩⟩

/-- `disconnectAll` ends, or goes on. -/
theorem Executes.disconnectLoop (h : Executes s a (.disconnectLoop g) s' code out) :
    s'.objects.signals g = (s.objects.signals g).setEnd ∨ .disconnectLoop g ∈ code := by
  cases h with
  | disconnectEnd => exact .inl (Function.update_self ..)
  | disconnectFunc | disconnectMethod => exact .inr (by simp)

omit [DecidableEq θ] [DecidableEq ς] [DecidableEq ρ] in
theorem Turns.cut {s s' : Signal θ ρ} (h : Turns i g s s') (hs : s.connectionList.Nodup)
    (hcut : ∃ done todo, s.At done todo) (hpop : i ≠ .popFront g) :
    ∃ done todo, s'.At done todo := by
  obtain ⟨done, todo, hat⟩ := hcut
  cases h with
  | loses h => exact ⟨_, _, h.iterator _ _ hat⟩
  | gains h => exact ⟨_, _, h.at hat⟩
  | begins _ h => exact ⟨_, _, h ▸ s.at_setBegin⟩
  | @advances n _ hn _ hlist hiterator =>
    rcases todo with _ | ⟨m, todo⟩
    · rw [hat.iterator] at hn
      cases hn
    · obtain rfl : m = n := by simpa [hat.iterator] using hn
      refine ⟨done ++ [m], todo, ?_, hiterator.trans (hat.next hs)⟩
      rw [hlist, hat.list, List.append_assoc, List.singleton_append]
  | pops hi => exact absurd hi hpop
  | ends _ h => exact ⟨_, _, h ▸ s.at_setEnd⟩

/-- **One step.** -/
theorem Placed.step {act : Action θ ς ρ} (hp : Placed s) (ho : ∀ a, Orderly (s.stack a))
    (hk : ∀ g, (s.objects.signals g).Known) (hst : s.step act = some (s', out)) : Placed s' := by
  rcases (step_cases hst).signals with
    ⟨a, i, is, code, s₁, -, hstack, hex, rfl⟩ | ⟨hsignals, -, hstack⟩
  · have hturns := hex.turns hp.nodup
    refine ⟨fun g => (hturns g).nodup (hk g) (hp.nodup g), fun g hloop => ?_⟩
    have hself : ∀ j ∈ code ++ is, j ≠ .disconnectLoop g := by
      rintro j hj rfl
      refine hloop a ?_
      show _ ∈ Function.update s₁.stack a (code ++ is) a
      rwa [Function.update_self]
    have hother : ∀ b, b ≠ a → .disconnectLoop g ∉ s.stack b := by
      intro b hne
      have hb : .disconnectLoop g ∉ Function.update s₁.stack a (code ++ is) b := hloop b
      rwa [Function.update_of_ne hne, hex.stack] at hb
    by_cases hi : i = .disconnectLoop g
    · rw [hi] at hex
      rcases hex.disconnectLoop with hend | hmem
      · exact ⟨_, _, hend ▸ Signal.at_setEnd _⟩
      · exact absurd rfl (hself _ (List.mem_append_left _ hmem))
    · refine (hturns g).cut (hp.nodup g) (hp.cut g fun b hb => ?_) ?_
      · rcases eq_or_ne b a with rfl | hne
        · rw [hstack] at hb
          rcases List.mem_cons.mp hb with hb | hb
          · exact hi hb.symm
          · exact hself _ (List.mem_append_right _ hb) rfl
        · exact hother b hne hb
      · -- below what takes the front away there is the loop it does it for
        rintro rfl
        have hrests : Rests (.popFront g :: is) := hstack ▸ (ho a).rests
        exact hself _ (List.mem_append_right _
          ((rests_cons.mp hrests).1 (.disconnectLoop g) List.mem_cons_self)) rfl
  · refine ⟨by rw [hsignals]; exact hp.nodup, fun g hloop => ?_⟩
    rw [hsignals]
    refine hp.cut g fun b hb => ?_
    rcases hstack b _ hb with hb | ⟨g₁, n₁, heq⟩
    · exact hloop b hb
    · cases heq

/-- **Every reachable state.** -/
theorem placed {h : List (Observation θ ς)} {guard : State θ ς ρ → Action θ ς ρ → Prop}
    (hr : (machine θ ς ρ).ReachesVia guard h s) : Placed s := by
  have hall : (Sound s ∧ Recalls h s) ∧ (∀ a, Orderly (s.stack a)) ∧ Placed s := by
    refine hr.induction
      (fun h s => (Sound s ∧ Recalls h s) ∧ (∀ a, Orderly (s.stack a)) ∧ Placed s) ?_ ?_
    · rintro s rfl
      exact ⟨⟨.initial, .initial⟩, fun a => ⟨.nil, trivial⟩, .initial⟩
    · rintro h s act s' out ⟨⟨hs, hrec⟩, ho, hp⟩ - hst
      exact ⟨⟨hs.step hst, hrec.step hst⟩, orderly_step hs ho hst, hp.step ho hrec.known hst⟩
  exact hall.2.2

/-- What rests on a lock that the thread `a` works under is on the stack of `a` if anywhere, and a
step that is not calm is not above it. -/
theorem not_sheltered (hs : Sound s) (ho : ∀ a, Orderly (s.stack a)) {is : List (Instr θ ς ρ)}
    (hstack : s.stack a = i :: is) (hlock : .lock (.signal g) ∈ i.needs) (hcalm : i.calm = false)
    (hi : i.sheltered = false) {j : Instr θ ς ρ} (hj : j.sheltered = true)
    (hrests : .leave (.signal g) ∈ j.restsOn) (b : θ) : j ∉ s.stack b := by
  intro hb
  have howner : ∀ c, .leave (.signal g) ∈ s.stack c → c ∈ s.locks (.signal g) := fun c hc =>
    hs.locks.mem_iff.mpr hc
  have hleave : .leave (.signal g) ∈ s.stack b := by
    obtain ⟨k, hk, rfl⟩ := (ho b).rests.of_mem hb hrests
    exact hk
  have ha : .leave (.signal g) ∈ s.stack a := by
    have hnested : Nested (i :: is) := hstack ▸ hs.nested a
    rw [hstack]
    exact List.mem_cons_of_mem _ (hnested.leave hlock)
  obtain rfl := hs.exclusive _ _ _ (howner a ha) (howner b hleave)
  have horderly : Orderly (i :: is) := hstack ▸ ho a
  rw [hstack] at hb
  rcases List.mem_cons.mp hb with rfl | hb
  · rw [hi] at hj
    cases hj
  · rw [horderly.bare hcalm j hb] at hj
    cases hj

/-- **The loop of `emit`** finds the iterator at `end()` or at an element of the list. -/
theorem iterator_at (hs : Sound s) (ho : ∀ a, Orderly (s.stack a)) (hp : Placed s)
    {is : List (Instr θ ς ρ)} (hstack : s.stack a = .emitLoop g :: is) :
    ∃ done todo, (s.objects.signals g).At done todo :=
  hp.cut g (not_sheltered hs ho hstack List.mem_cons_self rfl rfl rfl List.mem_cons_self)

end Run

end Sigslot2

end TQLib
