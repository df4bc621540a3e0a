import TQLib.Sigslot2.Walking

/-!
# An emission while connections come and go

The loop of `emit` is simulated by `walking`, in which an edit of the list is an edit of what is
left of the walk. The simulation rests on the iterator being where the walk is, except while
`disconnectAll` takes the list away. It fails when the signal is emitted inside its own emission,
since the second loop moves the iterator of the first, unless the first has nothing left to do.

## Main results

* `Follows.step` — one step of the threads is a path of the walk
* `emission_survives` — what every emission of a signal has done, before it ends and when it does
* `nested_emission` — the same of emissions inside others, if those have nothing left
-/

namespace TQLib

namespace Sigslot2

variable {θ ς ρ : Type*} [DecidableEq θ] [DecidableEq ς] [DecidableEq ρ]
variable {s s' : State θ ς ρ} {a : θ} {i : Instr θ ς ρ} {is code : List (Instr θ ς ρ)}
  {out : List (Observation θ ς)} {g : ς} {n d : ℕ}

/-! ## The simulation -/

/-- What is known of a state that a run reaches. -/
structure Ready (s : State θ ς ρ) : Prop where
  sound : Sound s
  orderly : ∀ a, Orderly (s.stack a)
  placed : Placed s
  known : ∀ g, (s.objects.signals g).Known
  flagged : Flagged s

theorem ready {h : List (Observation θ ς)} {guard : State θ ς ρ → Action θ ς ρ → Prop}
    (hr : (machine θ ς ρ).ReachesVia guard h s) : Ready s :=
  ⟨sound hr, orderly hr, placed hr, (recalls hr).known, flagged hr⟩

/-- The walk `t` is that of the loop of the emission of `g` inside `d` others. -/
structure Follows (g : ς) (d : ℕ) (s : State θ ς ρ) (t : Walker ℕ) : Prop where
  /-- The lists are the same. -/
  list : t.list = (s.objects.signals g).connectionList
  /-- Connections are new that have not been created. -/
  used : ∀ n ∈ t.used, n < (s.objects.signals g).created
  /-- What is in the list is not new. -/
  known : ∀ n ∈ t.list, n ∈ t.used
  /-- There is a loop if one is on a stack. -/
  running : t.todo.isSome = true ↔ ∃ a, d < s.depth g a
  /-- The iterator is where the walk is, if no emission is inside and no thread is taking the list
  away. -/
  place : ∀ todo, t.todo = some todo → ∃ done,
    (s.objects.signals g).connectionList = done ++ todo ∧
      ((∀ a, .disconnectLoop g ∉ s.stack a) → (∀ a, s.depth g a ≤ d + 1) →
        (s.objects.signals g).currentIterator = todo.head?)
  /-- While an emission is inside, nothing is left to be walked. -/
  outer : ∀ a, d + 1 < s.depth g a → ∀ todo, t.todo = some todo → todo = []
  /-- A direct call is on a stack. -/
  calling : ∀ n, t.calling = some n ↔
    ∃ a e, .emitter .direct e g n ∈ s.stack a ∧ s.depth g a = d + 1

variable {t : Walker ℕ}

theorem Follows.initial : Follows g d (State.initial : State θ ς ρ) ⟨[], ∅, none, none⟩ := by
  refine ⟨rfl, fun n hn => (by cases hn), fun n hn => (by cases hn), ?_, fun todo h => (by cases h),
    fun a h => ?_, fun n => ?_⟩
  · simp [State.initial, State.depth]
  · simp [State.initial, State.depth] at h
  · simp [State.initial]

/-- No thread but `a` is in a loop of an emission of `g`. -/
def State.Alone (s : State θ ς ρ) (g : ς) (a : θ) : Prop := ∀ b, b ≠ a → s.depth g b = 0

theorem State.Alone.eq {b : θ} {k : ℕ} (h : s.Alone g a) (hb : k < s.depth g b) : b = a := by
  by_contra hne
  rw [h b hne] at hb
  exact Nat.not_lt_zero k hb

theorem State.Alone.exists_iff (h : s.Alone g a) : (∃ b, d < s.depth g b) ↔ d < s.depth g a :=
  ⟨fun ⟨_, hb⟩ => h.eq hb ▸ hb, fun ha => ⟨a, ha⟩⟩

theorem State.Alone.le {k : ℕ} (h : s.Alone g a) (ha : s.depth g a ≤ k) (b : θ) :
    s.depth g b ≤ k := by
  by_contra hb
  exact hb (h.eq (not_le.mp hb) ▸ ha)

/-- What a thread does under the lock of `g` nobody else does. -/
theorem Ready.alone (hr : Ready s) (hstack : s.stack a = i :: is)
    (hlock : .lock (.signal g) ∈ i.needs) : s.Alone g a := by
  intro b hne
  refine List.count_eq_zero.mpr fun hb => hne ?_
  have htop : i ∈ s.stack a := hstack ▸ List.mem_cons_self
  exact hr.sound.owner_unique hb List.mem_cons_self htop hlock

/-- A thread that emits `g` and is not in a slot finds no call of a slot by another. -/
theorem Ready.no_emitter (hr : Ready s) (hstack : s.stack a = i :: is)
    (hlock : .lock (.signal g) ∈ i.needs) (hcalm : i.calm = false) (hi : i.sheltered = false)
    (e : θ) (n : ℕ) (b : θ) : .emitter .direct e g n ∉ s.stack b :=
  not_sheltered hr.sound hr.orderly hstack hlock hcalm hi rfl List.mem_cons_self b

theorem Follows.not_calling (hF : Follows g d s t)
    (h : ∀ e n b, .emitter .direct e g n ∉ s.stack b) : t.calling = none := by
  refine Option.eq_none_iff_forall_ne_some.mpr fun n hn => ?_
  obtain ⟨b, e, hb, -⟩ := (hF.calling n).mp hn
  exact h e n b hb

theorem not_mem_setStack (hstack : s.stack a = i :: is) (hex : Executes s a i s' code out)
    {j : Instr θ ς ρ} (hcode : j ∉ code) (h : ∀ b, j ∉ s.stack b) (b : θ) :
    j ∉ (s'.setStack a (code ++ is)).stack b := by
  rcases eq_or_ne b a with rfl | hne
  · rw [State.stack_setStack_self]
    have his := h b
    rw [hstack, List.mem_cons, not_or] at his
    exact fun hj => (List.mem_append.mp hj).elim hcode his.2
  · rw [State.stack_setStack_of_ne _ _ hne, hex.stack]
    exact h b

/-- What the thread `a` does changes how deep it is, and no other thread. -/
theorem depth_self (s' : State θ ς ρ) (a : θ) (code is : List (Instr θ ς ρ)) (g : ς) :
    (s'.setStack a (code ++ is)).depth g a = code.count (.emitLoop g) + is.count (.emitLoop g) := by
  rw [State.depth, State.stack_setStack_self, List.count_append]

theorem depth_other (hex : Executes s a i s' code out) {b : θ} (hne : b ≠ a) :
    (s'.setStack a (code ++ is)).depth g b = s.depth g b := by
  rw [State.depth, State.stack_setStack_of_ne _ _ hne, hex.stack, State.depth]

theorem State.Alone.setStack (h : s.Alone g a) (hex : Executes s a i s' code out)
    (is : List (Instr θ ς ρ)) : (s'.setStack a (code ++ is)).Alone g a := fun b hne => by
  rw [depth_other hex hne, h b hne]

/-- An emission that has others inside it, or is about to have, has nothing left. -/
theorem Follows.nothing_left (hF : Follows g d s t) (hr : Ready s)
    (hstack : s.stack a = i :: is) (hlock : .lock (.signal g) ∈ i.needs)
    (hcalm : i.calm = false) (hi : i.sheltered = false)
    (hn : (s.objects.signals g).currentIterator = none) {todo : List ℕ}
    (htodo : t.todo = some todo) : todo = [] := by
  by_cases hdepth : s.depth g a ≤ d + 1
  · obtain ⟨done, -, hplace⟩ := hF.place todo htodo
    have hloop := not_sheltered hr.sound hr.orderly hstack hlock hcalm hi
      (j := .disconnectLoop g) rfl List.mem_cons_self
    have hiterator := hplace hloop ((hr.alone hstack hlock).le hdepth)
    exact List.head?_eq_none_iff.mp (hiterator.symm.trans hn)
  · exact hF.outer a (not_le.mp hdepth) todo htodo

/-- **An emission begins**, inside `s.depth g a` others. -/
theorem Follows.begin (hF : Follows g d s t) (hr : Ready s)
    (hstack : s.stack a = .body (.emit g) :: is)
    (hguard : .emitLoop g ∈ s.stack a → (s.objects.signals g).currentIterator = none) :
    ∃ t', Follows g d
        ((s.setObjects (s.objects.setSignal g (s.objects.signals g).setBegin)).setStack a
          ([.emitLoop g] ++ is)) t' ∧
      (walking ℕ).Path t (s.marks g d a out (.body (.emit g))) t' := by
  have hex : Executes s a (.body (.emit g))
      (s.setObjects (s.objects.setSignal g (s.objects.signals g).setBegin)) [.emitLoop g] [] :=
    .body (.emit g)
  have halone := hr.alone hstack List.mem_cons_self
  have hnone := hr.no_emitter hstack List.mem_cons_self rfl rfl
  have hself : s.depth g a = is.count (.emitLoop g) := by
    rw [State.depth, hstack, List.count_cons_of_ne (by simp)]
  have halone' := halone.setStack hex is
  generalize hs' : (s.setObjects (s.objects.setSignal g (s.objects.signals g).setBegin)).setStack
    a ([.emitLoop g] ++ is) = s' at halone'
  have hsignal : s'.objects.signals g = (s.objects.signals g).setBegin := by
    rw [← hs']
    exact Function.update_self ..
  have hdepth : s'.depth g a = s.depth g a + 1 := by
    rw [← hs', depth_self, hself, List.count_singleton_self, Nat.add_comm]
  have hlist : (s'.objects.signals g).connectionList = (s.objects.signals g).connectionList := by
    rw [hsignal]
    rfl
  have hused : ∀ n ∈ t.used, n < (s'.objects.signals g).created := by
    rw [hsignal]
    exact hF.used
  have hcalling : ∀ n, t.calling = some n ↔
      ∃ a e, .emitter .direct e g n ∈ s'.stack a ∧ s'.depth g a = d + 1 := by
    intro n
    rw [hF.not_calling hnone]
    refine ⟨fun h => (by cases h), fun ⟨b, e, hb, _⟩ => absurd hb ?_⟩
    exact hs' ▸ not_mem_setStack hstack hex (by simp) (hnone e n) b
  by_cases hd : s.depth g a = d
  · have htodo : t.todo = none := by
      refine Option.not_isSome_iff_eq_none.mp fun hsome => ?_
      have hlt := halone.exists_iff.mp (hF.running.mp hsome)
      omega
    refine ⟨{ t with todo := some t.list }, ⟨hF.list.trans hlist.symm, hused, hF.known, ?_, ?_, ?_,
      hcalling⟩, ?_⟩
    · exact ⟨fun _ => ⟨a, by omega⟩, fun _ => rfl⟩
    · rintro todo ⟨⟩
      refine ⟨[], hlist.trans hF.list.symm, fun _ _ => ?_⟩
      rw [hsignal, hF.list]
      rfl
    · intro b hb
      obtain rfl := halone'.eq hb
      omega
    · rw [State.marks, if_pos ⟨rfl, hd⟩]
      exact .single ⟨htodo, hF.list.symm, rfl⟩
  · refine ⟨t, ⟨hF.list.trans hlist.symm, hused, hF.known, ?_, ?_, ?_, hcalling⟩, ?_⟩
    · rw [hF.running, halone.exists_iff, halone'.exists_iff]
      omega
    · intro todo htodo
      obtain ⟨done, hdone, -⟩ := hF.place todo htodo
      refine ⟨done, hlist.trans hdone, fun _ hle => ?_⟩
      have hlt := halone.exists_iff.mp (hF.running.mp (by rw [htodo]; rfl))
      have hle := hle a
      omega
    · -- the emission that the new one is inside of has nothing left
      intro b hb todo htodo
      obtain rfl := halone'.eq hb
      refine hF.nothing_left hr hstack List.mem_cons_self rfl rfl (hguard ?_) htodo
      refine List.count_pos_iff.mp ?_
      show 0 < s.depth g b
      omega
    · rw [State.marks, if_neg fun h => hd h.2]
      exact .nil t

/-- **The loop ends**: its own, or that of an emission inside. -/
theorem Follows.ends (hF : Follows g d s t) (hr : Ready s) (hstack : s.stack a = .emitLoop g :: is)
    (hn : (s.objects.signals g).currentIterator = none) :
    ∃ t', Follows g d (s.setStack a is) t' ∧
      (walking ℕ).Path t (s.marks g d a out (.emitLoop g)) t' := by
  have hex : Executes s a (.emitLoop g) s [] [] := .emitEnd g hn
  have halone := hr.alone hstack List.mem_cons_self
  have hnone := hr.no_emitter hstack List.mem_cons_self rfl rfl
  have hidle := hF.not_calling hnone
  have hleft : ∀ todo, t.todo = some todo → todo = [] := fun todo htodo =>
    hF.nothing_left hr hstack List.mem_cons_self rfl rfl hn htodo
  have halone' : (s.setStack a is).Alone g a := halone.setStack hex is
  have hcalling : ∀ n, t.calling = some n ↔
      ∃ b e, .emitter .direct e g n ∈ (s.setStack a is).stack b ∧
        (s.setStack a is).depth g b = d + 1 := by
    intro n
    rw [hidle]
    refine ⟨fun h => (by cases h), fun ⟨b, e, hb, _⟩ => absurd hb ?_⟩
    exact not_mem_setStack hstack hex List.not_mem_nil (hnone e n) b
  have hdepth : (s.setStack a is).depth g a + 1 = s.depth g a := by
    rw [State.depth, State.depth, hstack, List.count_cons_self, State.stack_setStack_self]
  by_cases hd : s.depth g a = d + 1
  · obtain ⟨todo, htodo⟩ := Option.isSome_iff_exists.mp (hF.running.mpr ⟨a, by omega⟩)
    refine ⟨{ t with todo := none }, ⟨hF.list, hF.used, hF.known, ?_, fun todo h => (by cases h),
      fun b hb => ?_, hcalling⟩, ?_⟩
    · rw [halone'.exists_iff]
      exact ⟨fun h => (by cases h), fun h => by omega⟩
    · obtain rfl := halone'.eq hb
      omega
    · rw [State.marks, if_pos ⟨rfl, hd⟩, hn]
      exact .single ⟨hleft todo htodo ▸ htodo, hidle, rfl⟩
  · refine ⟨t, ⟨hF.list, hF.used, hF.known, ?_, ?_, fun b _ => hleft, hcalling⟩, ?_⟩
    · rw [hF.running, halone.exists_iff, halone'.exists_iff]
      omega
    · intro todo htodo
      obtain rfl := hleft todo htodo
      exact ⟨_, (List.append_nil _).symm, fun _ _ => hn⟩
    · rw [State.marks, if_neg fun h => hd h.2]
      exact .nil t

/-- **The loop goes on**: its own, or that of an emission inside. -/
theorem Follows.turn (hF : Follows g d s t) (hr : Ready s) (hstack : s.stack a = .emitLoop g :: is)
    (hn : (s.objects.signals g).currentIterator = some n) :
    ∃ t', Follows g d ((s.emitLoop a g).1.setStack a ((s.emitLoop a g).2.1 ++ is)) t' ∧
      (walking ℕ).Path t (s.marks g d a out (.emitLoop g)) t' := by
  have hex := emitLoop_cases s a g
  obtain ⟨hcreated, hlist, hiterator, hcount⟩ := hex.past hn
  have halone := hr.alone hstack List.mem_cons_self
  have hnone := hr.no_emitter hstack List.mem_cons_self rfl rfl
  have hidle := hF.not_calling hnone
  have halone' := halone.setStack hex is
  have hhalf := hr.flagged.emitted hr.sound hstack ((hr.known g).iterator n hn)
  have hdepth : ((s.emitLoop a g).1.setStack a ((s.emitLoop a g).2.1 ++ is)).depth g a =
      s.depth g a := by
    rw [depth_self, hcount, State.depth, hstack, List.count_cons_self, Nat.add_comm]
  have hmem : ∀ e m b, .emitter .direct e g m ∈
      ((s.emitLoop a g).1.setStack a ((s.emitLoop a g).2.1 ++ is)).stack b ↔
        b = a ∧ s.due a g n = true ∧ e = a ∧ m = n := by
    intro e m b
    rcases eq_or_ne b a with rfl | hne
    · have his : .emitter .direct e g m ∉ is := fun hmem =>
        hnone e m b (hstack ▸ List.mem_cons_of_mem _ hmem)
      rw [State.stack_setStack_self, List.mem_append, or_iff_left his, mem_emitLoop hn hhalf]
      simp
    · rw [State.stack_setStack_of_ne _ _ hne, hex.stack]
      exact ⟨fun hb => absurd hb (hnone e m b), fun hb => absurd hb.1 hne⟩
  generalize hs' : (s.emitLoop a g).1.setStack a ((s.emitLoop a g).2.1 ++ is) = s'
    at halone' hdepth hmem
  have hsignals : s'.objects.signals g = (s.emitLoop a g).1.objects.signals g := by
    rw [← hs']
    rfl
  rw [← hsignals] at hcreated hlist hiterator
  have hused : ∀ n ∈ t.used, n < (s'.objects.signals g).created := by
    rw [hcreated]
    exact hF.used
  by_cases hd : s.depth g a = d + 1
  · have hloop := not_sheltered hr.sound hr.orderly hstack List.mem_cons_self rfl rfl
      (j := .disconnectLoop g) rfl List.mem_cons_self
    obtain ⟨todo, htodo⟩ := Option.isSome_iff_exists.mp (hF.running.mpr ⟨a, by omega⟩)
    obtain ⟨done, hdone, hplace⟩ := hF.place todo htodo
    have hhead := hplace hloop (halone.le hd.le)
    rcases todo with _ | ⟨m, todo⟩
    · rw [hn] at hhead
      cases hhead
    obtain rfl : n = m := by simpa [hn] using hhead
    have hat : (s.objects.signals g).At done (n :: todo) := ⟨hdone, hn⟩
    refine ⟨{ t with todo := some todo, calling := if s.due a g n then some n else none },
      ⟨hF.list.trans hlist.symm, hused, hF.known, ?_, ?_, ?_, ?_⟩, ?_⟩
    · exact ⟨fun _ => ⟨a, by omega⟩, fun _ => rfl⟩
    · rintro _ ⟨⟩
      refine ⟨done ++ [n], ?_, fun _ _ => ?_⟩
      · rw [hlist, hdone, List.append_assoc, List.singleton_append]
      · rw [hiterator, hat.next (hr.placed.nodup g)]
    · intro b hb
      obtain rfl := halone'.eq hb
      omega
    · intro m
      simp only [hmem]
      constructor
      · intro hcalling
        obtain ⟨hdue, ⟨⟩⟩ := Option.ite_none_right_eq_some.mp hcalling
        exact ⟨_, _, ⟨rfl, hdue, rfl, rfl⟩, hdepth.trans hd⟩
      · rintro ⟨b, e, ⟨rfl, hdue, rfl, rfl⟩, -⟩
        exact if_pos hdue
    · rw [State.marks, if_pos ⟨rfl, hd⟩, hn]
      exact .single ⟨todo, htodo, hidle, rfl⟩
  · refine ⟨t, ⟨hF.list.trans hlist.symm, hused, hF.known, ?_, ?_, ?_, ?_⟩, ?_⟩
    · rw [hF.running, halone.exists_iff, halone'.exists_iff, hdepth]
    · intro todo htodo
      obtain ⟨done, hdone, -⟩ := hF.place todo htodo
      refine ⟨done, hlist.trans hdone, fun _ hle => ?_⟩
      have hlt := halone.exists_iff.mp (hF.running.mp (by rw [htodo]; rfl))
      have hle := hle a
      omega
    · intro b hb
      obtain rfl := halone'.eq hb
      exact hF.outer b (hdepth ▸ hb)
    · intro m
      rw [hidle]
      constructor
      · intro hcalling
        cases hcalling
      · rintro ⟨b, e, hb, hdepth'⟩
        obtain ⟨rfl, -⟩ := (hmem e m b).mp hb
        exact absurd (hdepth.symm.trans hdepth') hd
    · rw [State.marks, if_neg fun h => hd h.2]
      exact .nil t

/-- A thread that calls a slot directly is alone in an emission, and calls one. -/
theorem Ready.emitter_unique {e e' : θ} {m : ℕ} {b : θ} (hr : Ready s)
    (hstack : s.stack a = .emitter .direct e g n :: is)
    (hb : .emitter .direct e' g m ∈ s.stack b) : b = a ∧ e' = e ∧ m = n := by
  have htop : .emitter .direct e g n ∈ s.stack a := hstack ▸ List.mem_cons_self
  have hleave : ∀ {c : θ} {e : θ} {n : ℕ}, .emitter .direct e g n ∈ s.stack c →
      c ∈ s.locks (.signal g) := by
    intro c e n hc
    obtain ⟨_, hk, rfl⟩ := (hr.orderly c).rests.of_mem hc List.mem_cons_self
    exact hr.sound.locks.mem_iff.mpr hk
  obtain rfl := hr.sound.exclusive _ _ _ (hleave hb) (hleave htop)
  have horderly : Orderly (.emitter .direct e g n :: is) := hstack ▸ hr.orderly b
  rw [hstack] at hb
  rcases List.mem_cons.mp hb with heq | hb
  · cases heq
    exact ⟨rfl, rfl, rfl⟩
  · cases horderly.bare rfl _ hb

/-- **A slot is called**, or the object it belongs to is gone. -/
theorem Follows.visit {e : θ} (hF : Follows g d s t) (hr : Ready s)
    (hstack : s.stack a = .emitter .direct e g n :: is)
    (hst : s.exec a (.emitter .direct e g n) = some (s', code, out)) :
    ∃ t', Follows g d (s'.setStack a (code ++ is)) t' ∧
      (walking ℕ).Path t (s.marks g d a out (.emitter .direct e g n)) t' := by
  have hex := exec_cases hst
  have hsignals : (s'.setStack a (code ++ is)).objects.signals g = s.objects.signals g := by
    cases hex <;> rfl
  have hcode : ∀ j ∈ code, j.inner = false := by
    cases hex <;> simp [Instr.inner]
  have hcount : ∀ {j : Instr θ ς ρ}, j.inner = true → j ≠ .emitter .direct e g n → ∀ b,
      ((s'.setStack a (code ++ is)).stack b).count j = (s.stack b).count j := by
    intro j hj hne b
    refine count_setStack hstack hex hne (fun hmem => ?_) b
    rw [hcode j hmem] at hj
    cases hj
  have hdepth : ∀ b, (s'.setStack a (code ++ is)).depth g b = s.depth g b :=
    hcount rfl (by simp)
  have hgone : ∀ e' m b, .emitter .direct e' g m ∉ (s'.setStack a (code ++ is)).stack b := by
    intro e' m b
    rcases eq_or_ne b a with rfl | hne
    · have horderly : Orderly (.emitter .direct e g n :: is) := hstack ▸ hr.orderly b
      rw [State.stack_setStack_self]
      intro hmem
      rcases List.mem_append.mp hmem with hmem | hmem
      · cases hcode _ hmem
      · cases horderly.bare rfl _ hmem
    · rw [State.stack_setStack_of_ne _ _ hne, hex.stack]
      exact fun hmem => hne (hr.emitter_unique hstack hmem).1
  -- whatever was to be called, nothing is any more
  have hidle : Follows g d (s'.setStack a (code ++ is)) { t with calling := none } := by
    refine ⟨?_, ?_, hF.known, ?_, ?_, ?_, fun m => ?_⟩
    · rw [hsignals]
      exact hF.list
    · rw [hsignals]
      exact hF.used
    · simp only [hdepth]
      exact hF.running
    · intro todo htodo
      obtain ⟨done, hdone, hplace⟩ := hF.place todo htodo
      rw [hsignals]
      refine ⟨done, hdone, fun hloop hle => hplace (fun b hb => hloop b ?_) fun b => ?_⟩
      · rw [← List.count_pos_iff, hcount rfl (by simp)]
        exact List.count_pos_iff.mpr hb
      · exact hdepth b ▸ hle b
    · simp only [hdepth]
      exact hF.outer
    · constructor
      · intro hcalling
        cases hcalling
      · rintro ⟨b, e', hb, -⟩
        exact absurd hb (hgone e' m b)
  have htop : .emitter .direct e g n ∈ s.stack a := hstack ▸ List.mem_cons_self
  refine ⟨_, hidle, ?_⟩
  by_cases hd : s.depth g a = d + 1
  · rw [State.marks, if_pos ⟨rfl, hd⟩]
    exact .single ⟨(hF.calling n).mpr ⟨a, e, htop, hd⟩, exec_emitter hst, rfl⟩
  · have hnone : t.calling = none := by
      refine Option.eq_none_iff_forall_ne_some.mpr fun m hm => ?_
      obtain ⟨b, e', hb, hdepth'⟩ := (hF.calling m).mp hm
      obtain ⟨rfl, -, -⟩ := hr.emitter_unique hstack hb
      exact hd hdepth'
    have heq : { t with calling := none } = t := by
      rw [← hnone]
    rw [State.marks, if_neg fun h => hd h.2, heq]
    exact .nil t

/-- Connections are erased. -/
theorem Follows.keep {p : ℕ → Bool} (hF : Follows g d s t)
    (hnodup : (s.objects.signals g).connectionList.Nodup)
    (hcreated : (s.objects.signals g).created ≤ (s'.objects.signals g).created)
    (hlist : (s'.objects.signals g).connectionList =
      (s.objects.signals g).connectionList.filter p)
    (hplace : (∀ b, .disconnectLoop g ∉ s'.stack b) → ∀ done todo,
      (s.objects.signals g).connectionList = done ++ todo →
      ((∀ b, .disconnectLoop g ∉ s.stack b) →
        (s.objects.signals g).currentIterator = todo.head?) →
      (s'.objects.signals g).currentIterator = (todo.filter p).head?)
    (hdepth : ∀ b, s'.depth g b = s.depth g b)
    (hcalls : ∀ b e n, .emitter .direct e g n ∈ s'.stack b ↔ .emitter .direct e g n ∈ s.stack b) :
    ∃ t', Follows g d s' t' ∧ (walking ℕ).Path t
      (edits (s.objects.signals g).connectionList (s'.objects.signals g).connectionList) t' := by
  have hsub : ∀ todo, t.todo = some todo → todo ⊆ t.list := by
    intro todo htodo
    obtain ⟨done, hdone, -⟩ := hF.place todo htodo
    rw [hF.list, hdone]
    exact List.subset_append_right done todo
  refine ⟨t.keep p, ⟨?_, ?_, ?_, ?_, ?_, ?_, ?_⟩, ?_⟩
  · rw [hlist, ← hF.list]
    rfl
  · exact fun n hn => (hF.used n hn).trans_le hcreated
  · exact fun n hn => hF.known n (List.mem_filter.mp hn).1
  · simp only [hdepth, Walker.keep, Option.isSome_map]
    exact hF.running
  · intro todo' htodo'
    obtain ⟨todo, htodo, rfl⟩ := Option.map_eq_some_iff.mp htodo'
    obtain ⟨done, hdone, hiterator⟩ := hF.place todo htodo
    refine ⟨done.filter p, ?_, fun hloop hle => ?_⟩
    · rw [hlist, hdone, List.filter_append]
    · refine hplace hloop done todo hdone fun hloop' => hiterator hloop' fun b => ?_
      exact hdepth b ▸ hle b
  · intro b hb todo' htodo'
    obtain ⟨todo, htodo, rfl⟩ := Option.map_eq_some_iff.mp htodo'
    rw [hF.outer b (hdepth b ▸ hb) todo htodo]
    rfl
  · simp only [hdepth, hcalls]
    exact hF.calling
  · rw [hlist, ← hF.list]
    exact .edits_filter (hF.list ▸ hnodup) hsub p

/-- Connections are put at the end. -/
theorem Follows.add {k : ℕ} (hF : Follows g d s t)
    (hgains : (s.objects.signals g).Gains k (s'.objects.signals g))
    (hloop : (∀ b, .disconnectLoop g ∉ s'.stack b) → ∀ b, .disconnectLoop g ∉ s.stack b)
    (hdepth : ∀ b, s'.depth g b = s.depth g b)
    (hcalls : ∀ b e n, .emitter .direct e g n ∈ s'.stack b ↔ .emitter .direct e g n ∈ s.stack b) :
    ∃ t', Follows g d s' t' ∧ (walking ℕ).Path t
      (edits (s.objects.signals g).connectionList (s'.objects.signals g).connectionList) t' := by
  generalize hxs : List.range' (s.objects.signals g).created k = xs
  have hlist : (s'.objects.signals g).connectionList =
      (s.objects.signals g).connectionList ++ xs := by
    rw [hgains.list, hxs]
  have hnew : ∀ n ∈ xs, (s.objects.signals g).created ≤ n ∧
      n < (s'.objects.signals g).created := by
    intro n hn
    rw [← hxs, List.mem_range'_1] at hn
    rwa [hgains.created]
  refine ⟨t.add xs, ⟨?_, ?_, ?_, ?_, ?_, ?_, ?_⟩, ?_⟩
  · rw [hlist, ← hF.list]
    rfl
  · rintro n (hn | hn)
    · have hlt := hF.used n hn
      rw [hgains.created]
      omega
    · exact (hnew n hn).2
  · intro n hn
    exact (List.mem_append.mp hn).imp_left (hF.known n)
  · simp only [hdepth, Walker.add, Option.isSome_map]
    exact hF.running
  · intro todo' htodo'
    obtain ⟨todo, htodo, rfl⟩ := Option.map_eq_some_iff.mp htodo'
    obtain ⟨done, hdone, hiterator⟩ := hF.place todo htodo
    have hiterator' : (∀ b, .disconnectLoop g ∉ s'.stack b) → (∀ b, s'.depth g b ≤ d + 1) →
        (s'.objects.signals g).currentIterator = todo.head? := fun hloop' hle => by
      rw [hgains.iterator]
      exact hiterator (hloop hloop') fun b => hdepth b ▸ hle b
    rcases todo with _ | ⟨m, todo⟩
    · refine ⟨done ++ xs, ?_, hiterator'⟩
      rw [hlist, hdone, List.append_nil, List.append_nil]
    · refine ⟨done, ?_, hiterator'⟩
      rw [hlist, hdone, List.append_assoc]
  · intro b hb todo' htodo'
    obtain ⟨todo, htodo, rfl⟩ := Option.map_eq_some_iff.mp htodo'
    rw [hF.outer b (hdepth b ▸ hb) todo htodo]
  · simp only [hdepth, hcalls]
    exact hF.calling
  · rw [hlist, ← hF.list]
    refine .edits_append (hxs ▸ List.nodup_range') hF.known fun n hn hused => ?_
    have hlt := hF.used n hused
    have hge := (hnew n hn).1
    omega

/-- **Any other step** is an edit of the list, if it does anything to it. -/
theorem Follows.edit (hF : Follows g d s t) (hr : Ready s) (hstack : s.stack a = i :: is)
    (hst : s.exec a i = some (s', code, out)) (hloop : i ≠ .emitLoop g)
    (hbegin : i ≠ .body (.emit g)) (hcall : ∀ e n, i ≠ .emitter .direct e g n) :
    ∃ t', Follows g d (s'.setStack a (code ++ is)) t' ∧ (walking ℕ).Path t
      (edits (s.objects.signals g).connectionList
        ((s'.setStack a (code ++ is)).objects.signals g).connectionList) t' := by
  have hex := exec_cases hst
  have hnodup := hr.placed.nodup g
  have hdepth : ∀ b, (s'.setStack a (code ++ is)).depth g b = s.depth g b := by
    refine count_setStack hstack hex hloop.symm fun hmem => ?_
    exact (hex.emitLoop_mem hmem).elim hloop hbegin
  have hcalls : ∀ b e n, .emitter .direct e g n ∈ (s'.setStack a (code ++ is)).stack b ↔
      .emitter .direct e g n ∈ s.stack b := by
    intro b e n
    have hcount := count_setStack hstack hex (hcall e n).symm
      (fun hmem => hloop (hex.emitter_mem hmem)) b
    rw [← List.count_pos_iff, hcount, List.count_pos_iff]
  have hstays : i ≠ .disconnectLoop g →
      (∀ b, .disconnectLoop g ∉ (s'.setStack a (code ++ is)).stack b) →
      ∀ b, .disconnectLoop g ∉ s.stack b := by
    intro hi hnone b hb
    refine hnone b ?_
    rcases eq_or_ne b a with rfl | hne
    · rw [hstack] at hb
      rw [State.stack_setStack_self]
      exact List.mem_append_right _ ((List.mem_cons.mp hb).resolve_left hi.symm)
    · rwa [State.stack_setStack_of_ne _ _ hne, hex.stack]
  by_cases hi : i = .disconnectLoop g
  · -- while the list is being taken away nothing is said about the iterator
    subst hi
    have hsignal : s'.objects.signals g = s.objects.signals g ∨
        s'.objects.signals g = (s.objects.signals g).setEnd := by
      cases hex with
      | disconnectEnd => exact .inr (Function.update_self ..)
      | disconnectFunc | disconnectMethod => exact .inl rfl
    have hsame : (s'.objects.signals g).created = (s.objects.signals g).created ∧
        (s'.objects.signals g).connectionList = (s.objects.signals g).connectionList := by
      rcases hsignal with heq | heq <;> rw [heq] <;> exact ⟨rfl, rfl⟩
    refine hF.keep (p := fun _ => true) hnodup hsame.1.ge
      (by rw [List.filter_true]; exact hsame.2) (fun hnone done todo hdone _ => ?_) hdepth hcalls
    have hcode : .disconnectLoop g ∉ code := by
      intro hmem
      refine hnone a ?_
      rw [State.stack_setStack_self]
      exact List.mem_append_left _ hmem
    have hnil := exec_disconnectLoop hst hcode
    have hend := (hex.disconnectLoop).resolve_right hcode
    rw [hnil] at hdone
    obtain ⟨-, rfl⟩ := List.append_eq_nil_iff.mp hdone.symm
    show (s'.objects.signals g).currentIterator = _
    rw [hend]
    rfl
  by_cases hpop : i = .popFront g
  · -- below what takes the front away there is the loop it does it for
    subst hpop
    have hrests : Rests (.popFront g :: is) := hstack ▸ (hr.orderly a).rests
    have hmem : .disconnectLoop g ∈ is :=
      (rests_cons.mp hrests).1 (.disconnectLoop g) List.mem_cons_self
    cases hex
    have hsignal : (s.objects.setSignal g (s.objects.signals g).popFront).signals g =
        (s.objects.signals g).popFront := Function.update_self ..
    obtain ⟨p, hp⟩ : ∃ p : ℕ → Bool, (s.objects.signals g).connectionList.tail =
        (s.objects.signals g).connectionList.filter p := by
      cases heq : (s.objects.signals g).connectionList with
      | nil => exact ⟨fun _ => true, rfl⟩
      | cons n ns =>
        rw [heq] at hnodup
        exact ⟨fun m => m != n, (List.erase_cons_head ..).symm.trans (hnodup.erase_eq_filter n)⟩
    refine hF.keep (p := p) hnodup ?_ ?_ (fun hnone => ?_) hdepth hcalls
    · show _ ≤ ((s.objects.setSignal g (s.objects.signals g).popFront).signals g).created
      rw [hsignal]
      exact le_refl _
    · show ((s.objects.setSignal g (s.objects.signals g).popFront).signals g).connectionList = _
      rw [hsignal]
      exact hp
    · refine absurd ?_ (hnone a)
      rw [State.stack_setStack_self]
      exact hmem
  cases hex.turns hr.placed.nodup g with
  | loses h =>
    refine hF.keep hnodup h.created.ge h.list
      (fun hnone done todo hdone hiterator => ?_) hdepth hcalls
    exact (h.iterator done todo ⟨hdone, hiterator (hstays hi hnone)⟩).iterator
  | gains h => exact hF.add h (hstays hi) hdepth hcalls
  | begins heq => exact absurd heq hbegin
  | advances heq => exact absurd heq hloop
  | pops heq => exact absurd heq hpop
  | ends heq => exact absurd heq hi

/-- **One step** of the threads is a path of the walk. -/
theorem Follows.step {act : Action θ ς ρ} (hF : Follows g d s t) (hr : Ready s)
    (hguard : NestedAtEnd g s act) (hst : s.step act = some (s', out)) :
    ∃ t', Follows g d s' t' ∧ (walking ℕ).Path t (s.walk g d act out s') t' := by
  by_cases hact : ∃ a, act = .step a
  · obtain ⟨a, rfl⟩ := hact
    cases hstack : s.stack a with
    | nil =>
      rw [State.step, hstack] at hst
      cases hst
    | cons i is =>
      rw [State.step, hstack] at hst
      obtain ⟨⟨s₁, code, out₁⟩, hexec, heq⟩ := Option.map_eq_some_iff.mp hst
      cases heq
      have hwalk : s.walk g d (.step a) out (s₁.setStack a (code ++ is)) =
          s.marks g d a out i ++ edits (s.objects.signals g).connectionList
            ((s₁.setStack a (code ++ is)).objects.signals g).connectionList := by
        rw [State.walk, hstack]
        rfl
      have hsame : ((s₁.setStack a (code ++ is)).objects.signals g).connectionList =
          (s.objects.signals g).connectionList →
          s.walk g d (.step a) out (s₁.setStack a (code ++ is)) = s.marks g d a out i :=
        fun heq => by rw [hwalk, heq, edits_self, List.append_nil]
      by_cases hloop : i = .emitLoop g
      · subst hloop
        have hresult : s.emitLoop a g = (s₁, code, out) := Option.some.inj hexec
        obtain rfl : (s.emitLoop a g).1 = s₁ := by rw [hresult]
        obtain rfl : (s.emitLoop a g).2.1 = code := by rw [hresult]
        cases hn : (s.objects.signals g).currentIterator with
        | none =>
          have hend : s.emitLoop a g = (s, [], []) := by
            rw [State.emitLoop, hn]
          rw [hsame (by rw [hend]; rfl), hend]
          exact hF.ends hr hstack hn
        | some n =>
          rw [hsame ((emitLoop_cases s a g).past hn).2.1]
          exact hF.turn hr hstack hn
      by_cases hbegin : i = .body (.emit g)
      · subst hbegin
        cases hexec
        rw [hsame (by
          show (Function.update s.objects.signals g _ g).connectionList = _
          rw [Function.update_self]
          rfl)]
        exact hF.begin hr hstack (hguard (by rw [hstack]; rfl))
      by_cases hcall : ∃ e n, i = .emitter .direct e g n
      · obtain ⟨e, n, rfl⟩ := hcall
        rw [hsame (by cases exec_cases hexec <;> rfl)]
        exact hF.visit hr hstack hexec
      · have hcall : ∀ e n, i ≠ .emitter .direct e g n := fun e n heq => hcall ⟨e, n, heq⟩
        have hmarks : s.marks g d a out i = [] := by
          unfold State.marks
          split
          · rw [if_neg]
            rintro ⟨rfl, -⟩
            exact hbegin rfl
          · rw [if_neg]
            rintro ⟨rfl, -⟩
            exact hloop rfl
          · rw [if_neg]
            rintro ⟨rfl, -⟩
            exact hcall _ _ rfl
          · rfl
        rw [hwalk, hmarks, List.nil_append]
        exact hF.edit hr hstack hexec hloop hbegin hcall
  · have hact : ∀ a, act ≠ .step a := not_exists.mp hact
    have hsteps := step_cases hst
    rcases hsteps.signals with ⟨a, _, _, _, _, rfl, -⟩ | ⟨hsignals, -, -⟩
    · exact absurd rfl (hact a)
    have hcount := fun {j : Instr θ ς ρ} => hsteps.count_inner (j := j) hact
    have hwalk : s.walk g d act out s' = edits (s.objects.signals g).connectionList
        (s'.objects.signals g).connectionList := by
      cases act with
      | step a => exact absurd rfl (hact a)
      | _ => rfl
    have hmem : ∀ {j : Instr θ ς ρ}, j.inner = true → ∀ b, j ∈ s'.stack b ↔ j ∈ s.stack b :=
      fun hj b => by rw [← List.count_pos_iff, hcount hj, List.count_pos_iff]
    rw [hwalk]
    refine hF.add (k := 0) ?_ (fun hnone b => (hmem rfl b).not.mp (hnone b)) (hcount rfl)
      fun b e n => hmem rfl b
    rw [hsignals]
    exact .refl _

/-! ## Runs -/

variable {h : List (Walk ℕ)}

/-- **What is seen of a run is a walk.** -/
theorem accepts_walk
    (hr : ((machine θ ς ρ).traced (State.walk g d)).ReachesVia (NestedAtEnd g) h s) :
    ∃ t, Ready s ∧ (walking ℕ).Accepts h t := by
  have hall : ∃ t, (∃ h, (machine θ ς ρ).ReachesVia (NestedAtEnd g) h s) ∧ Follows g d s t ∧
      (walking ℕ).Accepts h t := by
    refine hr.accepts_traced ?_ ?_
    · rintro s rfl
      exact ⟨_, .initial, rfl⟩
    · exact fun _ s t act s' out hr hF hg hst => hF.step (ready hr) hg hst
  obtain ⟨t, ⟨_, hr⟩, -, ha⟩ := hall
  exact ⟨t, ready hr, ha⟩

/-- What `emit` and `Connection::emit` do in an emission of `g` that calls slots directly. -/
def Instr.ofEmission (g : ς) : Instr θ ς ρ → Bool
  | .body (.emit g') => g' = g
  | .emitLoop g' => g' = g
  | .emitter .direct _ g' _ => g' = g
  | .setFired g' _ => g' = g
  | .setEmitted g' _ => g' = g
  | _ => false

/-- **An emission is not held up**, and what it does between two turns of the loop is bounded. -/
theorem step_of_ofEmission (hstack : s.stack a = i :: is) (hi : i.ofEmission g = true) :
    ∃ s' out code, s.step (.step a) = some (s', out) ∧ s'.stack a = code ++ is ∧
      code.length ≤ 4 ∧
      (i ≠ .emitLoop g → i ≠ .body (.emit g) → ∀ j ∈ code, j.ofEmission g = false) := by
  obtain ⟨s₁, code, out, hexec⟩ : ∃ s₁ code out, s.exec a i = some (s₁, code, out) := by
    cases i with
    | body | emitLoop | setFired => exact ⟨_, _, _, rfl⟩
    | emitter | setEmitted =>
      simp only [State.exec]
      repeat' split
      all_goals exact ⟨_, _, _, rfl⟩
    | _ => cases hi
  have hex := exec_cases hexec
  refine ⟨_, _, code, by rw [State.step, hstack]; exact congrArg (Option.map _) hexec,
    Function.update_self .., ?_, fun hloop hbegin j hj => ?_⟩
  · cases hex with
    | body b =>
      cases b with
      | emit => simp [Block.body]
      | _ => cases hi
    | emitReach _ _ _ hdel => cases hdel <;> simp
    | emitEnd | emitSkip | emitExpired => simp
    | callFunc | callMethod | callNothing => simp
    | setFired | setEmitted | keepEmitted => simp
    | _ => cases hi
  · cases hex with
    | body b =>
      cases b with
      | emit g' =>
        obtain rfl : g' = g := by simpa [Instr.ofEmission] using hi
        exact absurd rfl hbegin
      | _ => cases hi
    | emitReach g' | emitEnd g' | emitSkip g' | emitExpired g' =>
      obtain rfl : g' = g := by simpa [Instr.ofEmission] using hi
      exact absurd rfl hloop
    | callFunc | callMethod | callNothing =>
      revert j
      simp [Instr.ofEmission]
    | setFired | setEmitted | keepEmitted => cases hj
    | _ => cases hi

/-- What the only thread does: a call, or that a slot returns, and some steps. -/
def after (act : Action Unit Unit Unit) (n : ℕ) : List (Action Unit Unit Unit) :=
  act :: List.replicate n (.step ())

/-- **Emissions inside others.** In every run in which an emission of `g` begins inside another only
if that has nothing left, at whatever depth: an emission that has ended has come to every connection
the list had but those removed before that, and has called each once if it was due. -/
theorem nested_emission
    (hr : ((machine θ ς ρ).traced (State.walk g d)).ReachesVia (NestedAtEnd g) h s)
    {h₁ es h₂ : List (Walk ℕ)} {l : List ℕ} (heq : h = h₁ ++ .begins l :: es ++ .ends :: h₂)
    (hends : .ends ∉ es) {x : ℕ} (hx : x ∈ l) :
    (∃ es₁ due es₂, es = es₁ ++ .turn x due :: es₂ ∧
      (visits es).count x = if due then 1 else 0) ∨
    .removed x ∈ es ∧ x ∉ visits es := by
  obtain ⟨t, -, ha⟩ := accepts_walk hr
  rw [heq] at ha
  obtain ⟨_, ha'⟩ := ha.prefix
  rw [List.append_cons] at ha
  obtain ⟨_, ha⟩ := ha.prefix
  exact (ha'.iterated hends).each (ha.completed hends) hx

/-- The slot of the only connection emits again. -/
theorem nested_emission_run : ∃ h, ∃ s : State Unit Unit Unit,
    ((machine Unit Unit Unit).traced (State.walk () 0)).ReachesVia (NestedAtEnd ()) h s ∧
    ∃ es, h = [.added 0] ++ .begins [0] :: es ++ .ends :: [] ∧
      ((∃ es₁ due es₂, es = es₁ ++ .turn 0 due :: es₂ ∧
        (visits es).count 0 = if due then 1 else 0) ∨ .removed 0 ∈ es ∧ 0 ∉ visits es) := by
  have hrun : (((machine Unit Unit Unit).traced (State.walk () 0)).execVia (NestedAtEnd ())
      State.initial
      [after (.call () (.connectFunc () DirectConnection none)) 3, after (.call () (.emit ())) 4,
        after (.call () (.emit ())) 4, after (.ret ()) 4, after (.ret ()) 3].flatten).map Prod.snd =
      some [.added 0, .begins [0], .turn 0 true, .visit 0 true true, .ends] := by
    decide +kernel
  obtain ⟨⟨s, _⟩, hex, rfl⟩ := Option.map_eq_some_iff.mp hrun
  have hr := Machine.ReachesVia.of_execVia rfl hex
  have heq : [.added 0, .begins [0], .turn 0 true, .visit 0 true true, .ends] =
    ([.added 0] : List (Walk ℕ)) ++ .begins [0] :: [.turn 0 true, .visit 0 true true] ++
      .ends :: [] := rfl
  exact ⟨_, s, hr, _, heq, nested_emission hr heq (by simp) (by simp)⟩

/-- **The slot of the first of two connections emits again.** The emission inside leaves the
iterator at `end()`, and the one outside ends without having come to the second connection. -/
theorem nested_emission_cut_short : ∃ h, ∃ s : State Unit Unit Unit,
    ((machine Unit Unit Unit).traced (State.walk () 0)).Reaches h s ∧
    ∃ es, h = [.added 0, .added 1] ++ .begins [0, 1] :: es ++ .ends :: [] ∧ .ends ∉ es ∧
      .removed 1 ∉ es ∧ 1 ∉ turns es ∧ (visits es).count 1 = 0 := by
  have hrun : (((machine Unit Unit Unit).traced (State.walk () 0)).exec State.initial
      [after (.call () (.connectFunc () DirectConnection none)) 3,
        after (.call () (.connectFunc () DirectConnection none)) 3, after (.call () (.emit ())) 4,
        after (.call () (.emit ())) 4, after (.ret ()) 4, after (.ret ()) 4,
        after (.ret ()) 3].flatten).map Prod.snd =
      some [.added 0, .added 1, .begins [0, 1], .turn 0 true, .visit 0 true true, .ends] := by
    decide +kernel
  obtain ⟨⟨s, _⟩, hex, rfl⟩ := Option.map_eq_some_iff.mp hrun
  exact ⟨_, s, .of_exec rfl hex, [.turn 0 true, .visit 0 true true], rfl, by simp, by simp,
    by decide, by decide⟩

end Sigslot2

end TQLib
