import TQLib.Sigslot2.Scopes

/-!
# What becomes of a connection

Connections are made by `connect` and by `doClone`, and what they are made with stays. The members
that are written are `m_type`, once an emission has come to the connection, `m_hasFired` and
`m_hasEmitted`. A signal comes only to connections it has made.

## Main results

* `Executes.connection` — how one step may change a connection
* `made` — what a connection that `connect` has returned was made with
-/

namespace TQLib

namespace Sigslot2

variable {θ ς ρ : Type*}

/-! ## Signals -/

/-- The list and the iterator of a signal know only connections that have been created. -/
structure Signal.Known (s : Signal θ ρ) : Prop where
  /-- A connection in the list has been created. -/
  list : ∀ n ∈ s.connectionList, n < s.created
  /-- So has the one the iterator is at. -/
  iterator : ∀ n, s.currentIterator = some n → n < s.created

/-- `s'` has the connections of `s`, and perhaps others. -/
structure Signal.Extends (s s' : Signal θ ρ) : Prop where
  /-- No connection is forgotten. -/
  created : s.created ≤ s'.created
  /-- No connection is written. -/
  connections : ∀ n < s.created, s'.connections n = s.connections n
  /-- The list and the iterator are in order. -/
  known : s.Known → s'.Known

namespace Signal

theorem Extends.refl (s : Signal θ ρ) : s.Extends s := ⟨le_rfl, fun _ _ => rfl, id⟩

theorem Extends.trans {s s' s'' : Signal θ ρ} (h : s.Extends s') (h' : s'.Extends s'') :
    s.Extends s'' :=
  ⟨h.created.trans h'.created,
    fun n hn => (h'.connections n (hn.trans_le h.created)).trans (h.connections n hn),
    fun hs => h'.known (h.known hs)⟩

theorem next_mem {s : Signal θ ρ} {n m : ℕ} (h : s.next n = some m) : m ∈ s.connectionList :=
  (List.dropWhile_suffix _).subset (List.mem_of_mem_tail (List.mem_of_mem_head? h))

theorem extends_erase (s : Signal θ ρ) (n : ℕ) : s.Extends (s.erase n) := by
  refine ⟨le_rfl, fun _ _ => rfl, fun hs => ⟨fun m hm => ?_, fun m hm => ?_⟩⟩
  · exact hs.list m (List.mem_of_mem_erase hm)
  · simp only [erase] at hm
    split at hm
    · exact hs.list m (next_mem hm)
    · exact hs.iterator m hm

theorem extends_pushBack (s : Signal θ ρ) (c : Connection θ ρ) : s.Extends (s.pushBack c) := by
  refine ⟨Nat.le_succ _, fun n hn => Function.update_of_ne hn.ne .., fun hs => ⟨fun m hm => ?_, ?_⟩⟩
  · rcases List.mem_append.mp hm with hm | hm
    · exact (hs.list m hm).trans (Nat.lt_succ_self _)
    · exact List.mem_singleton.mp hm ▸ Nat.lt_succ_self _
  · exact fun m hm => (hs.iterator m hm).trans (Nat.lt_succ_self _)

theorem extends_unique (s : Signal θ ρ) (unique : Bool) : s.Extends { s with unique } :=
  ⟨le_rfl, fun _ _ => rfl, fun hs => ⟨hs.list, hs.iterator⟩⟩

theorem extends_setBegin (s : Signal θ ρ) : s.Extends s.setBegin :=
  ⟨le_rfl, fun _ _ => rfl, fun hs =>
    ⟨hs.list, fun m hm => hs.list m (List.mem_of_mem_head? hm)⟩⟩

theorem extends_setEnd (s : Signal θ ρ) : s.Extends s.setEnd :=
  ⟨le_rfl, fun _ _ => rfl, fun hs => ⟨hs.list, nofun⟩⟩

theorem extends_popFront (s : Signal θ ρ) : s.Extends s.popFront :=
  ⟨le_rfl, fun _ _ => rfl, fun hs =>
    ⟨fun m hm => hs.list m (List.mem_of_mem_tail hm), hs.iterator⟩⟩

theorem extends_advance (s : Signal θ ρ) : s.Extends s.advance := by
  refine ⟨le_rfl, fun _ _ => rfl, fun hs => ⟨hs.list, fun m hm => ?_⟩⟩
  obtain ⟨n, -, hn⟩ := Option.bind_eq_some_iff.mp hm
  exact hs.list m (next_mem hn)

theorem extends_foldl {ι : Type*} {f : Signal θ ρ → ι → Signal θ ρ}
    (hf : ∀ (s : Signal θ ρ) i, s.Extends (f s i))
    (is : List ι) (s : Signal θ ρ) : s.Extends (is.foldl f s) := by
  induction is generalizing s with
  | nil => exact .refl s
  | cons i is ih => exact (hf s i).trans (ih _)

end Signal

/-! ## Bodies -/

section Steps

variable [DecidableEq ς]

theorem Objects.extends_setSignal (o : Objects θ ς ρ) {g : ς} {s : Signal θ ρ}
    (h : (o.signals g).Extends s) (g' : ς) :
    (o.signals g').Extends ((o.setSignal g s).signals g') := by
  show (o.signals g').Extends (Function.update o.signals g s g')
  rcases eq_or_ne g' g with rfl | hne
  · rwa [Function.update_self]
  · rw [Function.update_of_ne hne]
    exact .refl _

/-- What `connect` makes. -/
structure Makes (s s' : Signal θ ρ) (n : ℕ) (type : UInt32) (thread : Option θ) : Prop where
  /-- It is new. -/
  fresh : s.created = n
  /-- It has been created now. -/
  created : n < s'.created
  /-- What it is made with. -/
  made : ∃ receiver, s'.connections n = .make receiver (type &&& ~~~UniqueConnection) thread

theorem Signal.connectFunc_spec (s : Signal θ ρ) (type : UInt32) (thread : Option θ) :
    s.Extends (s.connectFunc type thread).1 ∧ ∀ n, (s.connectFunc type thread).2 = some n →
      Makes s (s.connectFunc type thread).1 n type thread := by
  have hu := s.extends_unique (type &&& UniqueConnection != 0 || s.unique)
  simp only [Signal.connectFunc]
  split
  · exact ⟨.refl s, nofun⟩
  · split
    · exact ⟨hu, nofun⟩
    · refine ⟨hu.trans (extends_pushBack _ _), ?_⟩
      rintro _ ⟨⟩
      exact ⟨rfl, Nat.lt_succ_self _, none, Function.update_self ..⟩

theorem Signal.connect_spec (s : Signal θ ρ) (r : ρ) (type : UInt32) (thread : Option θ) :
    s.Extends (s.connect r type thread).1 ∧ ∀ n, (s.connect r type thread).2 = some n →
      Makes s (s.connect r type thread).1 n type thread := by
  have hu := s.extends_unique (type &&& UniqueConnection != 0 || s.unique)
  simp only [Signal.connect]
  split
  · exact ⟨.refl s, nofun⟩
  · split
    · exact ⟨hu, nofun⟩
    · refine ⟨hu.trans (extends_pushBack _ _), ?_⟩
      rintro _ ⟨⟩
      exact ⟨rfl, Nat.lt_succ_self _, some r, Function.update_self ..⟩

variable [DecidableEq ρ]

/-- A body creates connections, and writes none that there is. -/
theorem Block.body_extends (b : Block θ ς ρ) (o : Objects θ ς ρ) (g : ς) :
    (o.signals g).Extends ((b.body o).1.signals g) := by
  cases b with
  | connectFunc g' type thread =>
    have hspec := ((o.signals g').connectFunc_spec type thread).1
    simp only [Block.body]
    split <;> rename_i heq <;> rw [heq] at hspec <;> exact o.extends_setSignal hspec g
  | connect g' r type thread =>
    have hspec := ((o.signals g').connect_spec r type thread).1
    simp only [Block.body]
    split <;> rename_i heq <;> rw [heq] at hspec <;> exact o.extends_setSignal hspec g
  | disconnect g' r =>
    simp only [Block.body]
    split
    · exact .refl _
    · exact o.extends_setSignal (Signal.extends_erase _ _) g
  | disconnectConnection g' n =>
    simp only [Block.body]
    split
    · exact o.extends_setSignal (Signal.extends_erase _ _) g
    · exact .refl _
  | slotDisconnect g' r =>
    exact o.extends_setSignal (Signal.extends_foldl Signal.extends_erase _ _) g
  | slotClone g' r r' =>
    exact o.extends_setSignal (Signal.extends_foldl (fun s _ => Signal.extends_pushBack s _) _ _) g
  | emit g' => exact o.extends_setSignal (Signal.extends_setBegin _) g
  | _ => exact .refl _

/-- What a body shows is that it has made a connection. -/
theorem Block.body_out (b : Block θ ς ρ) (o : Objects θ ς ρ) {e : Observation θ ς}
    (he : e ∈ (b.body o).2.2) : ∃ g n type thread, e = .connected g n type thread ∧
      Makes (o.signals g) ((b.body o).1.signals g) n type thread := by
  cases b with
  | connectFunc g type thread =>
    have hspec := ((o.signals g).connectFunc_spec type thread).2
    revert he
    simp only [Block.body]
    split
    · intro he
      cases he
    · rename_i s n heq
      intro he
      rw [heq] at hspec
      refine ⟨g, n, type, thread, List.mem_singleton.mp he, ?_⟩
      simpa [Objects.setSignal] using hspec n rfl
  | connect g r type thread =>
    have hspec := ((o.signals g).connect_spec r type thread).2
    revert he
    simp only [Block.body]
    split
    · intro he
      cases he
    · rename_i s n heq
      intro he
      rw [heq] at hspec
      refine ⟨g, n, type, thread, List.mem_singleton.mp he, ?_⟩
      simpa [Objects.setSignal] using hspec n rfl
  | disconnect | disconnectConnection =>
    simp only [Block.body] at he
    split at he <;> cases he
  | _ => cases he

/-! ## One step -/

variable [DecidableEq θ] {s s' : State θ ς ρ} {a : θ} {i : Instr θ ς ρ}
  {code : List (Instr θ ς ρ)} {out : List (Observation θ ς)}

omit [DecidableEq θ] [DecidableEq ς] [DecidableEq ρ] in
theorem Delivers.objects {g : ς} {n : ℕ} {c : Connection θ ρ} (h : Delivers s a g n c s' code) :
    s'.objects = s.objects := by
  cases h <;> rfl

omit [DecidableEq θ] [DecidableEq ρ] in
theorem connection_modify (s : State θ ς ρ) (g : ς) (n : ℕ) (f : Connection θ ρ → Connection θ ρ)
    (g' : ς) (n' : ℕ) : (s.modify g n f).connection g' n' =
      if g' = g ∧ n' = n then f (s.connection g n) else s.connection g' n' := by
  simp only [State.connection, State.modify, State.setObjects, Objects.setSignal, Signal.modify]
  rcases eq_or_ne g' g with rfl | hg
  · rw [Function.update_self]
    rcases eq_or_ne n' n with rfl | hn
    · simp
    · simp [hn]
  · simp [hg]

omit [DecidableEq θ] [DecidableEq ρ] in
theorem created_modify (s : State θ ς ρ) (g : ς) (n : ℕ) (f : Connection θ ρ → Connection θ ρ)
    (g' : ς) : ((s.modify g n f).objects.signals g').created = (s.objects.signals g').created ∧
      ((s.objects.signals g').Known → ((s.modify g n f).objects.signals g').Known) := by
  simp only [State.modify, State.setObjects, Objects.setSignal]
  rcases eq_or_ne g' g with rfl | hg
  · rw [Function.update_self]
    exact ⟨rfl, fun h => ⟨h.list, h.iterator⟩⟩
  · rw [Function.update_of_ne hg]
    exact ⟨rfl, id⟩

/-- How a step may write the connection number `n` of `g`. -/
inductive Writes (a : θ) (i : Instr θ ς ρ) (out : List (Observation θ ς)) (g : ς) (n : ℕ)
    (c : Connection θ ρ) : Connection θ ρ → Prop
  | keep : Writes a i out g n c c
  | settle : .reached a g n ∈ out → Writes a i out g n c (c.settle a)
  | setFired : i = .setFired g n → Writes a i out g n c c.setFired
  | setEmitted : i = .setEmitted g n → Writes a i out g n c c.setEmitted

/-- What a step does to the connections that there are. -/
structure Rewrites (s s' : State θ ς ρ) (a : θ) (i : Instr θ ς ρ) (out : List (Observation θ ς))
    (g : ς) : Prop where
  /-- No connection is forgotten. -/
  created : (s.objects.signals g).created ≤ (s'.objects.signals g).created
  /-- The list and the iterator are in order. -/
  known : (s.objects.signals g).Known → (s'.objects.signals g).Known
  /-- A connection that there is may be written. -/
  writes : ∀ n < (s.objects.signals g).created,
    Writes a i out g n (s.connection g n) (s'.connection g n)

omit [DecidableEq ς] [DecidableEq ρ] in
theorem Signal.Extends.rewrites {g : ς} (h : (s.objects.signals g).Extends (s'.objects.signals g)) :
    Rewrites s s' a i out g := by
  refine ⟨h.created, h.known, fun n hn => ?_⟩
  rw [show s'.connection g n = s.connection g n from h.connections n hn]
  exact .keep

omit [DecidableEq ς] [DecidableEq ρ] in
theorem Rewrites.of_eq (h : s'.objects.signals = s.objects.signals) (g : ς) :
    Rewrites s s' a i out g := by
  refine Signal.Extends.rewrites ?_
  rw [h]
  exact .refl _

theorem Executes.rewrites (h : Executes s a i s' code out) (g : ς) :
    Rewrites s s' a i out g := by
  have hset : ∀ (g₁ : ς) (s₁ : Signal θ ρ), (s.objects.signals g₁).Extends s₁ →
      Rewrites s (s.setObjects (s.objects.setSignal g₁ s₁)) a i out g := fun g₁ s₁ h =>
    (s.objects.extends_setSignal h g).rewrites
  cases h with
  | body b => exact (b.body_extends s.objects g).rewrites
  | emitSkip g₁ | emitExpired g₁ => exact hset g₁ _ (Signal.extends_advance _)
  | @emitReach g₁ n₁ _ code₁ _ _ hdel =>
    have hpast := (s.objects.extends_setSignal (Signal.extends_advance (s.objects.signals g₁)) g)
    obtain ⟨hcreated, hknown⟩ := created_modify (s.past g₁) g₁ n₁ (fun c => c.settle a) g
    constructor
    · rw [hdel.objects, hcreated]
      exact hpast.created
    · rw [hdel.objects]
      exact fun hs => hknown (hpast.known hs)
    · intro n hn
      have heq : s'.connection g n =
          ((s.past g₁).modify g₁ n₁ fun c => c.settle a).connection g n := by
        rw [State.connection, hdel.objects]
        rfl
      rw [heq, connection_modify, connection_past]
      split
      · rename_i hsame
        obtain ⟨rfl, rfl⟩ := hsame
        exact .settle (List.mem_singleton_self _)
      · rw [show (s.past g₁).connection g n = s.connection g n from hpast.connections n hn]
        exact .keep
  | setFired g₁ n₁ =>
    obtain ⟨hcreated, hknown⟩ := created_modify s g₁ n₁ Connection.setFired g
    refine ⟨hcreated.ge, hknown, fun n hn => ?_⟩
    rw [connection_modify]
    split
    · rename_i hsame
      obtain ⟨rfl, rfl⟩ := hsame
      exact .setFired rfl
    · exact .keep
  | setEmitted g₁ n₁ =>
    obtain ⟨hcreated, hknown⟩ := created_modify s g₁ n₁ Connection.setEmitted g
    refine ⟨hcreated.ge, hknown, fun n hn => ?_⟩
    rw [connection_modify]
    split
    · rename_i hsame
      obtain ⟨rfl, rfl⟩ := hsame
      exact .setEmitted rfl
    · exact .keep
  | disconnectEnd g₁ => exact hset g₁ _ (Signal.extends_setEnd _)
  | popFront g₁ => exact hset g₁ _ (Signal.extends_popFront _)
  | _ => exact Rewrites.of_eq (by rfl) g

omit [DecidableEq θ] [DecidableEq ρ] in
theorem Objects.part_setSignal {β : Type*} (part : Signal θ ρ → β) (o : Objects θ ς ρ) {g₁ : ς}
    {s : Signal θ ρ} (h : part s = part (o.signals g₁)) (g : ς) :
    part ((o.setSignal g₁ s).signals g) = part (o.signals g) := by
  show part (Function.update o.signals g₁ s g) = _
  rcases eq_or_ne g g₁ with rfl | hne
  · rw [Function.update_self, h]
  · rw [Function.update_of_ne hne]

/-- **Outside of a scope** a signal keeps the parts that neither the iterator nor a member of a
connection belongs to. -/
theorem Executes.part {β : Type*} {part : Signal θ ρ → β} (h : Executes s a i s' code out)
    (hbody : ∀ b, i ≠ .body b) (hadvance : ∀ s, part s.advance = part s)
    (hmodify : ∀ s n f, part (s.modify n f) = part s) (hend : ∀ s, part s.setEnd = part s)
    (hpop : ∀ g, i = .popFront g → ∀ s, part s.popFront = part s) (g : ς) :
    part (s'.objects.signals g) = part (s.objects.signals g) := by
  have hset (s : State θ ς ρ) (g₁ : ς) (s₁ : Signal θ ρ)
      (h : part s₁ = part (s.objects.signals g₁)) :
      part ((s.setObjects (s.objects.setSignal g₁ s₁)).objects.signals g) =
        part (s.objects.signals g) := s.objects.part_setSignal part h g
  cases h with
  | body b => exact absurd rfl (hbody b)
  | emitSkip g₁ | emitExpired g₁ => exact hset s g₁ _ (hadvance _)
  | setFired g₁ n₁ | setEmitted g₁ n₁ => exact hset s g₁ _ (hmodify _ _ _)
  | disconnectEnd g₁ => exact hset s g₁ _ (hend _)
  | popFront g₁ => exact hset s g₁ _ (hpop g₁ rfl _)
  | @emitReach g₁ n₁ _ _ _ _ hdel =>
    rw [hdel.objects]
    exact (hset (s.past g₁) g₁ _ (hmodify _ _ _)).trans (hset s g₁ _ (hadvance _))
  | _ => rfl

/-- Only a thread that does what is next shows anything or writes a signal. The other steps leave
what is to be done, but for a slot that returns. -/
theorem Steps.signals {act : Action θ ς ρ} (h : Steps s act s' out) :
    (∃ a i is code s₁, act = .step a ∧ s.stack a = i :: is ∧ Executes s a i s₁ code out ∧
      s' = s₁.setStack a (code ++ is)) ∨
    s'.objects.signals = s.objects.signals ∧ out = [] ∧
      ∀ b j, j ∈ s.stack b → j ∈ s'.stack b ∨ ∃ g n, j = .slot g n := by
  have hpush : ∀ {a b : θ} {code : List (Instr θ ς ρ)} {j}, j ∈ s.stack b →
      j ∈ Function.update s.stack a (code ++ s.stack a) b ∨ ∃ g n, j = .slot g n := by
    intro a b code j hj
    rcases eq_or_ne b a with rfl | hne
    · rw [Function.update_self]
      exact .inl (List.mem_append_right _ hj)
    · rw [Function.update_of_ne hne]
      exact .inl hj
  cases h with
  | step hstack hex => exact .inl ⟨_, _, _, _, _, rfl, hstack, hex, rfl⟩
  | @call a c =>
    obtain ⟨hstack, -, hobjects, -⟩ := Sound.foldl_retain c.receivers s a
    refine .inr ⟨by rw [State.setStack, hobjects], rfl, fun b j hj => ?_⟩
    rw [State.setStack, hstack]
    exact hpush hj
  | @ret a g n is hstack =>
    refine .inr ⟨rfl, rfl, fun b j hj => ?_⟩
    show j ∈ Function.update s.stack a is b ∨ _
    rcases eq_or_ne b a with rfl | hne
    · rw [Function.update_self]
      rw [hstack] at hj
      exact (List.mem_cons.mp hj).symm.imp_right fun hj => ⟨g, n, hj⟩
    · rw [Function.update_of_ne hne]
      exact .inl hj
  | run | destroy => exact .inr ⟨rfl, rfl, fun b j hj => hpush hj⟩
  | discard | quit => exact .inr ⟨rfl, rfl, fun b j hj => .inl hj⟩

/-- What an execution shows. -/
theorem Executes.shows (h : Executes s a i s' code out) {e : Observation θ ς} (he : e ∈ out) :
    (∃ g n type thread, e = .connected g n type thread ∧
      Makes (s.objects.signals g) (s'.objects.signals g) n type thread) ∨
    (∃ g n, e = .reached a g n ∧ (s.objects.signals g).currentIterator = some n) ∨
    ∃ d e₁ g n, e = .started d e₁ a g n ∧ i = .emitter d e₁ g n := by
  cases h with
  | body b => exact .inl (b.body_out s.objects he)
  | emitReach g hn => exact .inr (.inl ⟨g, _, List.mem_singleton.mp he, hn⟩)
  | callFunc d e₁ g n | callMethod d e₁ g n =>
    exact .inr (.inr ⟨d, e₁, g, n, List.mem_singleton.mp he, rfl⟩)
  | _ => cases he

/-! ## Runs -/

/-- What is known of the connections after the observations `h`. -/
structure Recalls (h : List (Observation θ ς)) (s : State θ ς ρ) : Prop where
  /-- Lists and iterators are in order. -/
  known : ∀ g, (s.objects.signals g).Known
  /-- What has been connected is there, as it was made. -/
  connected : ∀ g n type thread, .connected g n type thread ∈ h →
    n < (s.objects.signals g).created ∧ (s.connection g n).thread = thread ∧
    (s.connection g n).isSingleShot = (type &&& SingleShotConnection != 0)
  /-- What has been reached is there. -/
  reached : ∀ e g n, .reached e g n ∈ h → n < (s.objects.signals g).created

omit [DecidableEq ς] [DecidableEq ρ] in
theorem Writes.thread {g : ς} {n : ℕ} {c c' : Connection θ ρ} (h : Writes a i out g n c c') :
    c'.thread = c.thread ∧ c'.isSingleShot = c.isSingleShot := by
  cases h with
  | keep => exact ⟨rfl, rfl⟩
  | settle => exact ⟨c.settle_thread a, c.settle_isSingleShot a⟩
  | setFired => exact ⟨c.setFired_thread, c.setFired_isSingleShot⟩
  | setEmitted => exact ⟨rfl, rfl⟩

omit [DecidableEq θ] [DecidableEq ρ] in
theorem make_isSingleShot (receiver : Option ρ) (type : UInt32) (thread : Option θ) :
    (Connection.make receiver (type &&& ~~~UniqueConnection) thread).isSingleShot =
      (type &&& SingleShotConnection != 0) := by
  show (type &&& ~~~UniqueConnection &&& SingleShotConnection != 0) = _
  have hmask : ~~~UniqueConnection &&& SingleShotConnection = SingleShotConnection := by decide
  rw [UInt32.and_assoc, hmask]

omit [DecidableEq θ] [DecidableEq ς] [DecidableEq ρ] in
theorem Recalls.initial : Recalls [] (State.initial : State θ ς ρ) :=
  ⟨fun _ => ⟨nofun, nofun⟩, fun _ _ _ _ => nofun, fun _ _ _ => nofun⟩

/-- **One step.** -/
theorem Recalls.step {h : List (Observation θ ς)} (hs : Recalls h s) {act : Action θ ς ρ}
    (hst : s.step act = some (s', out)) : Recalls (h ++ out) s' := by
  rcases (step_cases hst).signals with
    ⟨a, i, is, code, s₁, -, -, hex, rfl⟩ | ⟨hsignals, rfl, -⟩
  · have hre := hex.rewrites
    refine ⟨fun g => (hre g).known (hs.known g), fun g n type thread hc => ?_, fun e g n hr => ?_⟩
    · rcases List.mem_append.mp hc with hc | hc
      · obtain ⟨hn, hthread, hsingle⟩ := hs.connected g n type thread hc
        obtain ⟨hthread', hsingle'⟩ := ((hre g).writes n hn).thread
        exact ⟨hn.trans_le (hre g).created, hthread'.trans hthread, hsingle'.trans hsingle⟩
      · rcases hex.shows hc with ⟨_, _, _, _, heq, hmakes⟩ | ⟨_, _, heq, -⟩ | ⟨_, _, _, _, heq, -⟩
        · cases heq
          obtain ⟨receiver, hmade⟩ := hmakes.made
          have hmade' : (s₁.setStack a (code ++ is)).connection g n =
            .make receiver (type &&& ~~~UniqueConnection) thread := hmade
          rw [hmade']
          exact ⟨hmakes.created, rfl, make_isSingleShot receiver type thread⟩
        · cases heq
        · cases heq
    · rcases List.mem_append.mp hr with hr | hr
      · exact (hs.reached e g n hr).trans_le (hre g).created
      · rcases hex.shows hr with ⟨_, _, _, _, heq, -⟩ | ⟨_, _, heq, hn⟩ | ⟨_, _, _, _, heq, -⟩
        · cases heq
        · cases heq
          exact ((hs.known g).iterator n hn).trans_le (hre g).created
        · cases heq
  · rw [List.append_nil]
    have hconnection : ∀ g n, s'.connection g n = s.connection g n := fun g n => by
      rw [State.connection, State.connection, hsignals]
    refine ⟨?_, ?_, ?_⟩
    · rw [hsignals]
      exact hs.known
    · intro g n type thread hc
      rw [hsignals, hconnection]
      exact hs.connected g n type thread hc
    · rw [hsignals]
      exact hs.reached

/-- **Every run.** -/
theorem recalls {h : List (Observation θ ς)} {guard : State θ ς ρ → Action θ ς ρ → Prop}
    (hr : (machine θ ς ρ).ReachesVia guard h s) : Recalls h s := by
  refine hr.induction Recalls ?_ fun h s act s' out hs _ hst => hs.step hst
  rintro s rfl
  exact .initial

end Steps

end Sigslot2

end TQLib
