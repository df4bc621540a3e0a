import TQLib.Sigslot2.Iterator
import TQLib.Sigslot2.SenderList

/-!
# Connections that a slot removes

`emit` keeps a reference to the element of the list it is at, and `Connection::emit` keeps `this`.
After the slot both are used: `setFired` reads and writes the flags of the connection, and `emit`
reads them through the element once more. But the list holds the only lasting pointer to a
connection, and the slot may erase it, in any of the ways there are to disconnect. The iterator is
repaired then. The reference is not.

Whoever erases a connection of a signal owns the lock of the signal, and so does the emission that
is at the connection. So the two are on the same thread: it is the slot that does it, or a
destructor that runs before `emit` goes on.

## Main results

* `accesses_in_list` — what is accessed is in the list, in every run in which no step erases a
  connection that an emission on the same thread is at
* `Executes.dangles` — a step that does erase one leaves the access behind
* `access_after_erase` — a slot that disconnects its own connection
-/

namespace TQLib

namespace Sigslot2

variable {θ ς ρ : Type*}

/-! ## Accesses and removals -/

/-- After the slot, the thread `a` is to access the connection number `n` of `g`: in the `setFired`
that `Connection::emit` calls, or in the loop of `emit`. -/
def State.Accesses (s : State θ ς ρ) (a : θ) (g : ς) (n : ℕ) : Prop :=
  ∃ is, s.stack a = .setFired g n :: .setEmitted g n :: is ∨ s.stack a = .setEmitted g n :: is

variable [DecidableEq θ] [DecidableEq ς] [DecidableEq ρ]

/-- The connections that the step `i` erases. -/
def Instr.erases (o : Objects θ ς ρ) : Instr θ ς ρ → List (ς × ℕ)
  | .body (.disconnect g r) => (o.findReceiver g r).toList.map fun n => (g, n)
  | .body (.disconnectConnection g n) =>
    if n ∈ (o.signals g).connectionList then [(g, n)] else []
  | .body (.slotDisconnect g r) => (o.disconnected g r).map fun n => (g, n)
  | .popFront g => (o.signals g).connectionList.head?.toList.map fun n => (g, n)
  | _ => []

/-- No connection is erased that an emission on the same thread is at. -/
def Spares (s : State θ ς ρ) : Action θ ς ρ → Prop
  | .step a => ∀ i ∈ (s.stack a).head?, ∀ x ∈ i.erases s.objects, .setEmitted x.1 x.2 ∉ s.stack a
  | _ => True

instance (s : State θ ς ρ) : (act : Action θ ς ρ) → Decidable (Spares s act)
  | .step a => inferInstanceAs (Decidable (∀ i ∈ (s.stack a).head?, ∀ x ∈ i.erases s.objects,
      .setEmitted x.1 x.2 ∉ s.stack a))
  | .call _ _ => .isTrue trivial
  | .ret _ => .isTrue trivial
  | .run _ => .isTrue trivial
  | .discard _ => .isTrue trivial
  | .destroy _ _ => .isTrue trivial
  | .quit _ => .isTrue trivial

/-! ## One step -/

variable {s s' : State θ ς ρ} {a : θ} {i : Instr θ ς ρ} {code : List (Instr θ ς ρ)}
  {out : List (Observation θ ς)} {g : ς} {n : ℕ}

omit [DecidableEq θ] [DecidableEq ς] in
theorem Block.mem_erases {b : Block θ ς ρ} {o : Objects θ ς ρ}
    (h : (g, n) ∈ (Instr.body b).erases o) : b.lock = .signal g := by
  cases b with
  | disconnect | slotDisconnect =>
    obtain ⟨m, -, heq⟩ := List.mem_map.mp h
    cases heq
    rfl
  | disconnectConnection =>
    simp only [Instr.erases] at h
    split at h
    · cases List.mem_singleton.mp h
      rfl
    · cases h
  | _ => cases h

omit [DecidableEq θ] in
/-- What is not erased stays in the list. -/
theorem Block.mem_list (b : Block θ ς ρ) (o : Objects θ ς ρ)
    (hn : n ∈ (o.signals g).connectionList) (he : (g, n) ∉ (Instr.body b).erases o) :
    n ∈ ((b.body o).1.signals g).connectionList := by
  have hset : ∀ (g₁ : ς) (s : Signal θ ρ), (g = g₁ → n ∈ s.connectionList) →
      n ∈ ((o.setSignal g₁ s).signals g).connectionList := by
    intro g₁ s hs
    show n ∈ (Function.update o.signals g₁ s g).connectionList
    rcases eq_or_ne g g₁ with rfl | hne
    · rw [Function.update_self]
      exact hs rfl
    · rwa [Function.update_of_ne hne]
  have hgains : ∀ {g₁ k} {s : Signal θ ρ}, (o.signals g₁).Gains k s → g = g₁ →
      n ∈ s.connectionList := by
    rintro _ k s hk rfl
    rw [hk.list]
    exact List.mem_append_left _ hn
  cases b with
  | connectFunc g₁ type thread =>
    obtain ⟨k, hk⟩ := (o.signals g₁).gains_connectFunc type thread
    simp only [Block.body]
    split <;> rename_i heq <;> rw [heq] at hk <;> exact hset g₁ _ (hgains hk)
  | connect g₁ r type thread =>
    obtain ⟨k, hk⟩ := (o.signals g₁).gains_connect r type thread
    simp only [Block.body]
    split <;> rename_i heq <;> rw [heq] at hk <;> exact hset g₁ _ (hgains hk)
  | slotClone g₁ r newReceiver =>
    obtain ⟨k, hk⟩ := Signal.gains_foldl
      (fun n => ((o.signals g₁).connections n).clone newReceiver) (o.cloned g₁ r) (o.signals g₁)
    exact hset g₁ _ (hgains hk)
  | disconnect g₁ r =>
    simp only [Block.body]
    split
    · exact hn
    · rename_i m hm
      refine hset g₁ _ ?_
      rintro rfl
      refine (List.mem_erase_of_ne ?_).mpr hn
      rintro rfl
      exact he (by simp [Instr.erases, hm])
  | disconnectConnection g₁ m =>
    simp only [Block.body]
    split
    · rename_i hm
      refine hset g₁ _ ?_
      rintro rfl
      refine (List.mem_erase_of_ne ?_).mpr hn
      rintro rfl
      exact he (by simp [Instr.erases, hm])
    · exact hn
  | slotDisconnect g₁ r =>
    refine hset g₁ _ ?_
    rintro rfl
    rw [Signal.connectionList_foldl_erase]
    exact List.mem_diff_of_mem hn fun hm => he (List.mem_map_of_mem hm)
  | emit g₁ =>
    refine hset g₁ _ ?_
    rintro rfl
    exact hn
  | _ => exact hn

/-- Outside of a scope only `pop_front` changes a list. -/
theorem Executes.connectionList (h : Executes s a i s' code out) (hbody : ∀ b, i ≠ .body b)
    (hpop : ∀ g, i ≠ .popFront g) (g : ς) :
    (s'.objects.signals g).connectionList = (s.objects.signals g).connectionList :=
  h.part hbody (fun _ => rfl) (fun _ _ _ => rfl) (fun _ => rfl)
    (fun g₁ hi => absurd hi (hpop g₁)) g

/-- What is not erased stays in the list. -/
theorem Executes.mem_list (h : Executes s a i s' code out)
    (hn : n ∈ (s.objects.signals g).connectionList) (he : (g, n) ∉ i.erases s.objects) :
    n ∈ (s'.objects.signals g).connectionList := by
  by_cases hbody : ∃ b, i = .body b
  · obtain ⟨b, rfl⟩ := hbody
    cases h
    exact b.mem_list s.objects hn he
  by_cases hpop : ∃ g₁, i = .popFront g₁
  · obtain ⟨g₁, rfl⟩ := hpop
    cases h
    show n ∈ (Function.update s.objects.signals g₁ _ g).connectionList
    rcases eq_or_ne g g₁ with rfl | hne
    · rw [Function.update_self]
      show n ∈ (s.objects.signals g).connectionList.tail
      rcases hlist : (s.objects.signals g).connectionList with _ | ⟨m, ms⟩
      · rw [hlist] at hn
        cases hn
      · rw [hlist] at hn
        refine (List.mem_cons.mp hn).resolve_left ?_
        rintro rfl
        exact he (by simp [Instr.erases, hlist])
    · rwa [Function.update_of_ne hne]
  · rwa [h.connectionList (not_exists.mp hbody) (not_exists.mp hpop) g]

/-- What is erased is not in the list any more. -/
theorem Executes.not_mem_list (h : Executes s a i s' code out)
    (he : (g, n) ∈ i.erases s.objects) (hs : (s.objects.signals g).connectionList.Nodup) :
    n ∉ (s'.objects.signals g).connectionList := by
  cases i with
  | body b =>
    cases h
    cases b with
    | disconnect g₁ r =>
      obtain ⟨m, hm, heq⟩ := List.mem_map.mp he
      cases heq
      rw [Option.mem_toList] at hm
      simp only [Block.body, Option.mem_def.mp hm]
      show n ∉ (Function.update s.objects.signals g _ g).connectionList
      rw [Function.update_self]
      exact hs.not_mem_erase
    | disconnectConnection g₁ m =>
      simp only [Instr.erases] at he
      split at he
      · rename_i hm
        cases List.mem_singleton.mp he
        simp only [Block.body, if_pos hm]
        show n ∉ (Function.update s.objects.signals g _ g).connectionList
        rw [Function.update_self]
        exact hs.not_mem_erase
      · cases he
    | slotDisconnect g₁ r =>
      obtain ⟨m, hm, heq⟩ := List.mem_map.mp he
      cases heq
      show n ∉ (Function.update s.objects.signals g _ g).connectionList
      rw [Function.update_self, Signal.connectionList_foldl_erase, hs.mem_sdiff_iff]
      exact fun hmem => hmem.2 hm
    | _ => cases he
  | popFront g₁ =>
    cases h
    obtain ⟨m, hm, heq⟩ := List.mem_map.mp he
    cases heq
    show n ∉ (Function.update s.objects.signals g _ g).connectionList
    rw [Function.update_self]
    show n ∉ (s.objects.signals g).connectionList.tail
    rcases hlist : (s.objects.signals g).connectionList with _ | ⟨m, ms⟩
    · exact fun hmem => by cases hmem
    · rw [hlist] at hm hs
      obtain rfl : n = m := by simpa using hm
      exact (List.nodup_cons.mp hs).1
  | _ => cases he

/-- Whoever erases a connection owns the lock of its signal. -/
theorem owner_of_erases (hs : Sound s) (ho : ∀ a, Orderly (s.stack a)) {is : List (Instr θ ς ρ)}
    (hstack : s.stack a = i :: is) (he : (g, n) ∈ i.erases s.objects) :
    a ∈ s.locks (.signal g) := by
  have hnested : Nested (i :: is) := hstack ▸ hs.nested a
  have hrests : Rests (i :: is) := hstack ▸ (ho a).rests
  refine hs.locks.mem_iff.mpr ?_
  rw [hstack]
  refine List.mem_cons_of_mem _ ?_
  cases i with
  | body b =>
    refine hnested.leave ?_
    rw [← Block.mem_erases he]
    exact List.mem_cons_self
  | popFront g₁ =>
    obtain ⟨m, -, heq⟩ := List.mem_map.mp he
    cases heq
    have hloop := (rests_cons.mp hrests).1 (.disconnectLoop g) List.mem_cons_self
    obtain ⟨j, hj, rfl⟩ := hrests.tail.of_mem (k := .leave (.signal g)) hloop List.mem_cons_self
    exact hj
  | _ => cases he

/-! ## Runs -/

/-- Every connection that an emission is at is in the list of its signal. -/
def Attached (s : State θ ς ρ) : Prop :=
  ∀ a g n, .setEmitted g n ∈ s.stack a → n ∈ (s.objects.signals g).connectionList

/-- An emission comes to a connection. -/
theorem Executes.comes (h : Executes s a i s' code out) (hn : .setEmitted g n ∈ code) :
    i = .emitLoop g ∧ (s.objects.signals g).currentIterator = some n := by
  cases h with
  | body b => cases b.body_pushes s.objects _ hn
  | emitExpired g₁ hit =>
    simp only [List.mem_cons, Instr.setEmitted.injEq, reduceCtorEq, List.not_mem_nil,
      or_false] at hn
    obtain ⟨rfl, rfl⟩ := hn
    exact ⟨rfl, hit⟩
  | @emitReach g₁ n₁ _ code₁ hit _ hdel =>
    have hcode : .setEmitted g n ∉ code₁ := by cases hdel <;> simp
    obtain ⟨rfl, rfl⟩ : g = g₁ ∧ n = n₁ := by simpa [hcode] using hn
    exact ⟨rfl, hit⟩
  | _ => simp at hn

/-- **One step.** -/
theorem Attached.step {act : Action θ ς ρ} (h : Attached s) (hs : Sound s)
    (ho : ∀ a, Orderly (s.stack a)) (hp : Placed s) (hguard : Spares s act)
    (hst : s.step act = some (s', out)) : Attached s' := by
  -- an emission comes only to a connection that is in the list
  have hlisted : ∀ b g n, .setEmitted g n ∈ s'.stack b →
      n ∈ (s.objects.signals g).connectionList := by
    intro b
    refine (step_cases hst).stacks (fun is => ∀ g n, Instr.setEmitted g n ∈ is →
      n ∈ (s.objects.signals g).connectionList) h ?_ ?_ ?_ ?_ ?_ b
    · intro a c _ _ g n hn
      refine h a g n ((List.mem_append.mp hn).resolve_left ?_)
      cases c <;> simp [Call.code]
    · exact fun g₁ n₁ is his g n hn => his g n (List.mem_cons_of_mem _ hn)
    · intro a i is s₁ code out hstack hex _ g n hn
      rcases List.mem_append.mp hn with hn | hn
      · obtain ⟨rfl, hit⟩ := hex.comes hn
        obtain ⟨done, todo, hat⟩ := iterator_at hs ho hp hstack
        rw [hat.list]
        rw [hat.iterator] at hit
        exact List.mem_append_right _ (List.mem_of_mem_head? hit)
      · exact h a g n (hstack ▸ List.mem_cons_of_mem _ hn)
    · intro a task _ _ g n hn
      refine h a g n ((List.mem_append.mp hn).resolve_left ?_)
      cases task <;> simp [Task.code]
    · intro a r g n hn
      exact h a g n (by simpa using hn)
  rcases (step_cases hst).signals with
    ⟨a, i, is, code, s₁, rfl, hstack, hex, rfl⟩ | ⟨hsignals, -, -⟩
  · intro b g n hb
    refine hex.mem_list (hlisted b g n hb) fun he => ?_
    have hb' : .setEmitted g n ∈ Function.update s₁.stack a (code ++ is) b := hb
    rcases eq_or_ne b a with rfl | hne
    · rw [Function.update_self] at hb'
      rcases List.mem_append.mp hb' with hcode | his
      · rw [(hex.comes hcode).1] at he
        cases he
      · refine hguard i ?_ (g, n) he (hstack ▸ List.mem_cons_of_mem _ his)
        rw [hstack]
        rfl
    · -- the emission owns the lock that whoever erases must own
      rw [Function.update_of_ne hne, hex.stack] at hb'
      obtain ⟨j, hj, hcloses⟩ := (hs.nested b).of_mem hb' (k := .lock (.signal g))
        List.mem_cons_self
      rw [Instr.closes_lock hcloses] at hj
      exact hne (hs.exclusive _ _ _ (hs.locks.mem_iff.mpr hj) (owner_of_erases hs ho hstack he))
  · intro b g n hb
    rw [hsignals]
    exact hlisted b g n hb

/-- **What an emission accesses after a slot is in the list**, in every run in which no step erases
a connection that an emission on the same thread is at. -/
theorem accesses_in_list {h : List (Observation θ ς)} {s : State θ ς ρ} {a : θ} {g : ς} {n : ℕ}
    (hr : (machine θ ς ρ).ReachesVia Spares h s) (ha : s.Accesses a g n) :
    n ∈ (s.objects.signals g).connectionList := by
  have hall : ((Sound s ∧ Recalls h s) ∧ (∀ a, Orderly (s.stack a)) ∧ Placed s) ∧ Attached s := by
    refine hr.induction (fun h s =>
      ((Sound s ∧ Recalls h s) ∧ (∀ a, Orderly (s.stack a)) ∧ Placed s) ∧ Attached s) ?_ ?_
    · rintro s rfl
      exact ⟨⟨⟨.initial, .initial⟩, fun a => ⟨.nil, trivial⟩, .initial⟩, fun _ _ _ => nofun⟩
    · rintro h s act s' out ⟨⟨⟨hs, hrec⟩, ho, hp⟩, hat⟩ hg hst
      exact ⟨⟨⟨hs.step hst, hrec.step hst⟩, orderly_step hs ho hst, hp.step ho hrec.known hst⟩,
        hat.step hs ho hp hg hst⟩
  obtain ⟨is, hstack | hstack⟩ := ha <;> refine hall.2 a g n ?_ <;> rw [hstack] <;> simp

/-- A slot that disconnects another connection than its own. -/
theorem accesses_in_list_run : ∃ h, ∃ s : State Unit Unit Unit,
    (machine Unit Unit Unit).ReachesVia Spares h s ∧ s.Accesses () () 0 ∧
    0 ∈ (s.objects.signals ()).connectionList ∧ 1 ∉ (s.objects.signals ()).connectionList := by
  obtain ⟨h, s, hex, hstack, hone⟩ : ∃ h s, (machine Unit Unit Unit).execVia Spares State.initial
      (Action.call () (.connectFunc () DirectConnection none) ::
        List.replicate 3 (Action.step ()) ++
        [Action.call () (.connectFunc () DirectConnection none)] ++
        List.replicate 3 (Action.step ()) ++ [Action.call () (.emit ())] ++
        List.replicate 4 (Action.step ()) ++ [Action.call () (.disconnectConnection () 1)] ++
        List.replicate 3 (Action.step ()) ++ [Action.ret ()]) = some (s, h) ∧
      s.stack () = [.setFired () 0, .setEmitted () 0, .emitLoop (), .leave (.signal ())] ∧
      1 ∉ (s.objects.signals ()).connectionList :=
    ⟨_, _, rfl, rfl, by decide⟩
  have ha : s.Accesses () () 0 := ⟨_, .inl hstack⟩
  have hr := Machine.ReachesVia.of_execVia rfl hex
  exact ⟨h, s, hr, ha, accesses_in_list hr ha, hone⟩

/-- **A slot that disconnects its own connection** leaves nothing behind that `setFired` could be
called on. -/
theorem access_after_erase : ∃ h, ∃ s : State Unit Unit Unit,
    (machine Unit Unit Unit).Reaches h s ∧ s.Accesses () () 0 ∧
    0 ∉ (s.objects.signals ()).connectionList := by
  obtain ⟨h, s, hex, hstack, hzero⟩ : ∃ h s, (machine Unit Unit Unit).exec State.initial
      (Action.call () (.connectFunc () DirectConnection none) ::
        List.replicate 3 (Action.step ()) ++ [Action.call () (.emit ())] ++
        List.replicate 4 (Action.step ()) ++ [Action.call () (.disconnectConnection () 0)] ++
        List.replicate 3 (Action.step ()) ++ [Action.ret ()]) = some (s, h) ∧
      s.stack () = [.setFired () 0, .setEmitted () 0, .emitLoop (), .leave (.signal ())] ∧
      0 ∉ (s.objects.signals ()).connectionList :=
    ⟨_, _, rfl, rfl, by decide⟩
  exact ⟨h, s, .of_exec rfl hex, ⟨_, .inl hstack⟩, hzero⟩

/-- **The condition is exact.** A step that does erase such a connection leaves the access to it
behind. -/
theorem Executes.dangles {is : List (Instr θ ς ρ)} (h : Executes s a i s' code out)
    (hp : Placed s) (hstack : s.stack a = i :: is) (he : (g, n) ∈ i.erases s.objects)
    (hn : .setEmitted g n ∈ s.stack a) : .setEmitted g n ∈ (s'.setStack a (code ++ is)).stack a ∧
      n ∉ (s'.objects.signals g).connectionList := by
  refine ⟨?_, h.not_mem_list he (hp.nodup g)⟩
  rw [State.stack_setStack_self]
  rw [hstack] at hn
  refine List.mem_append_right _ ((List.mem_cons.mp hn).resolve_left ?_)
  rintro rfl
  cases he

end Sigslot2

end TQLib
