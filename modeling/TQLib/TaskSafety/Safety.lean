import TQLib.TaskSafety.Model

/-!
# No task calls back an object that is gone

What keeps a task from its object is the flag: the destructor of a `ScopedTaskSafety` clears it, and
`SafeTask` reads it. Between the two stands that both run on the sequence of the flag, which the
checks see to; a destructor on another thread, while a task is in the middle of its call, fails its
check.

## Main results

* `no_use_of_gone` — no task does anything with an object that is gone
* `turns_history` — which tasks call back, and in which order
-/

namespace TQLib

namespace TaskSafety

variable {θ κ φ ω : Type*} [DecidableEq θ] [DecidableEq κ] {s s' : System θ κ φ ω}
  {a : Action θ κ φ ω} {h out : List (Seen θ κ φ ω)} {t u : θ} {f : φ} {o : ω} {g g' : Flag θ κ}
  {alive : Bool}

/-- What is run there is on the sequence of a checker that has been attached at `first`. -/
structure OnSequence (first here : Place θ κ Empty) : Prop where
  plain : first.systemQueue = none
  same : (∃ q, first.queue = some q ∧ here.queue = some q) ∨
    first.queue = none ∧ first.thread = here.thread

omit [DecidableEq θ] [DecidableEq κ] in
theorem OnSequence.refl {here : Place θ κ Empty} (h : here.systemQueue = none) :
    OnSequence here here := by
  refine ⟨h, ?_⟩
  cases hq : here.queue with
  | none => exact .inr ⟨rfl, rfl⟩
  | some q => exact .inl ⟨q, rfl, rfl⟩

/-- The sequence of a flag, if it is attached. -/
def Flag.first (g : Flag θ κ) : Option (Place θ κ Empty) := g.mainSequence.place

/-- **A check** that succeeds. -/
theorem onSequence_of_check {here : Place θ κ Empty} (hhere : here.systemQueue = none)
    (hplain : ∀ first, g.first = some first → first.systemQueue = none)
    (hok : (g.check here).1 = true) :
    ∃ first, (g.check here).2.first = some first ∧ OnSequence first here := by
  obtain ⟨hspec, hplace⟩ := isCurrent_spec g.mainSequence here
  have hfirst : (g.check here).2.first = attachedAt g.first (.checked here true) := hplace true
  have hok' : true = g.first.elim true (sameSequence · here) := hok.symm.trans hspec
  rw [hfirst]
  cases hg : g.first with
  | none => exact ⟨here, rfl, .refl hhere⟩
  | some first =>
    have hnone := hplain first hg
    refine ⟨first, rfl, hnone, ?_⟩
    rw [hg, Option.elim_some, sameSequence, hnone] at hok'
    cases hq : first.queue with
    | none => exact .inr ⟨rfl, by simpa [hq] using hok'⟩
    | some q => exact .inl ⟨q, rfl, by simpa [hq, eq_comm] using hok'⟩

/-- A check leaves a flag where it is attached. -/
theorem first_check {here : Place θ κ Empty} {first : Place θ κ Empty} (hg : g.first = some first) :
    (g.check here).2.first = some first := by
  have hplace := (isCurrent_spec g.mainSequence here).2 true
  rw [show g.mainSequence.place = some first from hg] at hplace
  exact hplace

/-- What holds between the steps. -/
structure Sane (s : System θ κ φ ω) : Prop where
  /-- A queue runs on one thread. -/
  single : ∀ t u q, s.running t = some q → s.running u = some q → t = u
  /-- There are no system queues. -/
  plain : ∀ f g first, s.flags f = some g → g.first = some first → first.systemQueue = none
  /-- The flags of objects exist. -/
  owner : ∀ o f, s.objects o = .alive f → ∃ g, s.flags f = some g
  /-- A task that is pending behind a flag that is alive has an object that is. -/
  pending : ∀ q f o, (f, o) ∈ s.pending q → s.objects o ≠ .unborn ∧
    ∃ g, s.flags f = some g ∧ (g.alive = true → s.objects o = .alive f)
  /-- A task that is run is on the sequence of the flag of its object. -/
  body : ∀ t o, s.body t = some o → ∃ f g first, s.objects o = .alive f ∧
    s.flags f = some g ∧ g.first = some first ∧ OnSequence first (s.here t)

/-- **Nobody else** is let pass while a task is run. -/
theorem Sane.same_thread (hs : Sane s) (hbody : s.body t = some o) (ho : s.objects o = .alive f)
    (hg : s.flags f = some g) (hok : (g.check (s.here u)).1 = true) : u = t := by
  obtain ⟨f', g', first, ho', hg', hfirst, hon⟩ := hs.body t o hbody
  obtain rfl : f = f' := Life.alive.inj (ho.symm.trans ho')
  obtain rfl : g = g' := Option.some.inj (hg.symm.trans hg')
  obtain ⟨first', hfirst', hon'⟩ := onSequence_of_check rfl (fun first => hs.plain f g first hg) hok
  obtain rfl : first = first' := Option.some.inj ((first_check hfirst).symm.trans hfirst')
  rcases hon.same with ⟨q, hq, ht⟩ | ⟨hnone, ht⟩
  · rcases hon'.same with ⟨q', hq', hu⟩ | ⟨hnone, -⟩
    · obtain rfl : q = q' := Option.some.inj (hq.symm.trans hq')
      exact hs.single u t q hu ht
    · rw [hnone] at hq
      cases hq
  · rcases hon'.same with ⟨q', hq', -⟩ | ⟨-, hu⟩
    · rw [hnone] at hq'
      cases hq'
    · exact hu.symm.trans ht

variable [DecidableEq φ]

omit [DecidableEq θ] [DecidableEq κ] in
/-- A flag changes that stays attached. -/
theorem Sane.flag (hs : Sane s) (hg : s.flags f = some g)
    (hplain : ∀ first, g'.first = some first → first.systemQueue = none)
    (hfirst : ∀ first, g.first = some first → g'.first = some first)
    (halive : g'.alive = true → g.alive = true ∨
      ∀ q o, (f, o) ∈ s.pending q → s.objects o = .alive f) :
    Sane { s with flags := Function.update s.flags f (some g') } := by
  have hflags : ∀ {f' g''}, Function.update s.flags f (some g') f' = some g'' →
      (f' = f ∧ g'' = g') ∨ s.flags f' = some g'' := by
    intro f' g'' h
    rcases update_cases h with ⟨rfl, heq⟩ | ⟨-, heq⟩
    · exact .inl ⟨rfl, (Option.some.inj heq).symm⟩
    · exact .inr heq
  have hflags' : ∀ {f' g''}, s.flags f' = some g'' →
      ∃ g₁, Function.update s.flags f (some g') f' = some g₁ ∧
        (g₁ = g'' ∨ f' = f ∧ g'' = g ∧ g₁ = g') := by
    intro f' g'' h
    rcases eq_or_ne f' f with rfl | hne
    · exact ⟨g', by simp, .inr ⟨rfl, Option.some.inj (h.symm.trans hg), rfl⟩⟩
    · exact ⟨g'', by simpa [hne] using h, .inl rfl⟩
  refine ⟨hs.single, fun f' g'' first h => ?_, fun o f' h => ?_, fun q f' o h => ?_,
    fun t o h => ?_⟩
  · rcases hflags h with ⟨rfl, rfl⟩ | h
    · exact hplain first
    · exact hs.plain f' g'' first h
  · obtain ⟨g'', hg''⟩ := hs.owner o f' h
    obtain ⟨g₁, hg₁, -⟩ := hflags' hg''
    exact ⟨g₁, hg₁⟩
  · obtain ⟨hborn, g'', hg'', ho⟩ := hs.pending q f' o h
    obtain ⟨g₁, hg₁, rfl | ⟨rfl, rfl, rfl⟩⟩ := hflags' hg''
    · exact ⟨hborn, g₁, hg₁, ho⟩
    · refine ⟨hborn, g₁, hg₁, fun h' => ?_⟩
      exact (halive h').elim ho fun hall => hall q o h
  · obtain ⟨f', g'', first, ho, hg'', hfirst', hon⟩ := hs.body t o h
    obtain ⟨g₁, hg₁, rfl | ⟨rfl, rfl, rfl⟩⟩ := hflags' hg''
    · exact ⟨f', g₁, first, ho, hg₁, hfirst', hon⟩
    · exact ⟨f', g₁, first, ho, hg₁, hfirst first hfirst', hon⟩

theorem setFlag_spec (h : s.setFlag t f alive = some (s', out)) : ∃ g, s.flags f = some g ∧
    s' = { s with flags := Function.update s.flags f (some (g.set (s.here t) alive).2) } ∧
    out = [.checked t f (g.check (s.here t)).1, .set f alive] := by
  obtain ⟨g, hg, heq⟩ := Option.map_eq_some_iff.mp h
  obtain ⟨rfl, rfl⟩ := Prod.mk.inj heq
  exact ⟨g, hg, rfl, rfl⟩

/-- A flag is checked and set. -/
theorem Sane.set (hs : Sane s) (hg : s.flags f = some g) (hok : (g.check (s.here t)).1 = true)
    (alive : Bool) (halive : alive = true → g.alive = true ∨
      ∀ q o, (f, o) ∈ s.pending q → s.objects o = .alive f) :
    Sane { s with flags := Function.update s.flags f (some (g.set (s.here t) alive).2) } := by
  obtain ⟨first, hfirst, hon⟩ := onSequence_of_check rfl (fun first => hs.plain f g first hg) hok
  refine hs.flag hg (fun first' h => ?_) (fun first' h => ?_) halive
  · obtain rfl : first = first' := Option.some.inj (hfirst.symm.trans h)
    exact hon.plain
  · exact first_check h

variable [DecidableEq ω]

omit [DecidableEq ω] in
/-- The next task of a queue. -/
theorem Sane.start (hs : Sane s) {q : κ} {rest : List (φ × ω)} (hidle : s.running t = none)
    (hq : s.pending q = (f, o) :: rest) (hg : s.flags f = some g)
    (hok : (g.check ⟨t, some q, none⟩).1 = true) (hsingle : ∀ u, u ≠ t → s.running u ≠ some q) :
    Sane { s with
      running := Function.update s.running t (some q)
      body := Function.update s.body t (if g.alive then some o else none)
      pending := Function.update s.pending q rest
      flags := Function.update s.flags f (some (g.check ⟨t, some q, none⟩).2) } := by
  obtain ⟨first, hfirst, hon⟩ := onSequence_of_check rfl (fun first => hs.plain f g first hg) hok
  have hflag : Sane { s with
      flags := Function.update s.flags f (some (g.check ⟨t, some q, none⟩).2) } := by
    refine hs.flag hg (fun first' h => ?_) (fun first' h => first_check h) .inl
    obtain rfl : first = first' := Option.some.inj (hfirst.symm.trans h)
    exact hon.plain
  have hmem : (f, o) ∈ s.pending q := by
    rw [hq]
    exact List.mem_cons_self
  refine ⟨fun u w q' hu hw => ?_, hflag.plain, hflag.owner, fun q' f' o' h => ?_,
    fun u o' hbody => ?_⟩
  · rcases update_cases hu with ⟨rfl, hu'⟩ | ⟨hut, hu'⟩
    · rcases update_cases hw with ⟨rfl, -⟩ | ⟨hwt, hw'⟩
      · rfl
      · exact absurd (hw'.trans hu'.symm) (hsingle w hwt)
    · rcases update_cases hw with ⟨rfl, hw'⟩ | ⟨-, hw'⟩
      · exact absurd (hu'.trans hw'.symm) (hsingle u hut)
      · exact hs.single u w q' hu' hw'
  · refine hflag.pending q' f' o' ?_
    rcases eq_or_ne q' q with rfl | hne
    · have hrest : (f', o') ∈ rest := by simpa using h
      change (f', o') ∈ s.pending q'
      rw [hq]
      exact List.mem_cons_of_mem _ hrest
    · simpa [hne] using h
  · rcases update_cases hbody with ⟨rfl, hbody'⟩ | ⟨hne, hbody'⟩
    · split at hbody'
      · rename_i halive
        obtain rfl := Option.some.inj hbody'
        obtain ⟨-, g', hg', ho⟩ := hs.pending q f o hmem
        obtain rfl := Option.some.inj (hg.symm.trans hg')
        refine ⟨f, _, first, ho halive, Function.update_self .., hfirst, ?_⟩
        simpa [System.here] using hon
      · cases hbody'
    · obtain ⟨f', g', first', ho, hg', hfirst', hon'⟩ := hflag.body u o' hbody'
      refine ⟨f', g', first', ho, hg', hfirst', ?_⟩
      simpa [System.here, hne] using hon'

omit [DecidableEq θ] [DecidableEq κ] [DecidableEq φ] in
/-- An object that is cleared goes on to another life: it gets another flag, or it ends. -/
theorem Sane.objects (hs : Sane s) (ho : s.objects o = .alive f) {x : Life φ}
    (hg : s.flags f = some g) (hdead : g.alive = false) (hx : x ≠ .unborn)
    (howner : ∀ f', x = .alive f' → ∃ g', s.flags f' = some g') {b : θ → Option ω}
    (hbody : ∀ t o', b t = some o' → s.body t = some o' ∧ (o' = o → ∃ f' g' first, x = .alive f' ∧
      s.flags f' = some g' ∧ g'.first = some first ∧ OnSequence first (s.here t))) :
    Sane { s with objects := Function.update s.objects o x, body := b } := by
  refine ⟨hs.single, hs.plain, fun o' f' h => ?_, fun q f' o' h => ?_, fun t o' h => ?_⟩
  · rcases update_cases h with ⟨-, h⟩ | ⟨-, h⟩
    · exact howner f' h
    · exact hs.owner o' f' h
  · obtain ⟨hborn, g', hg', halive⟩ := hs.pending q f' o' h
    rcases eq_or_ne o' o with rfl | hne
    · refine ⟨by simpa using hx, g', hg', fun htrue => ?_⟩
      -- the task is behind the flag that has been cleared, or behind one that is not alive
      obtain rfl := Life.alive.inj (ho.symm.trans (halive htrue))
      obtain rfl := Option.some.inj (hg.symm.trans hg')
      rw [hdead] at htrue
      cases htrue
    · exact ⟨by simpa [hne] using hborn, g', hg', by simpa [hne] using halive⟩
  · obtain ⟨hbody', hsame⟩ := hbody t o' h
    rcases eq_or_ne o' o with rfl | hne
    · obtain ⟨f', g', first, hx, hg', hfirst, hon⟩ := hsame rfl
      exact ⟨f', g', first, by simpa using hx, hg', hfirst, hon⟩
    · obtain ⟨f', g', first, ho', hg', hfirst, hon⟩ := hs.body t o' hbody'
      exact ⟨f', g', first, by simpa [hne] using ho', hg', hfirst, hon⟩

omit [DecidableEq φ] [DecidableEq ω] [DecidableEq κ] [DecidableEq θ] in
theorem ok_of_passes {ok : Bool} (h : (.checked t f ok : Seen θ κ φ ω) ≠ .checked t f false) :
    ok = true := by
  cases ok
  · exact absurd rfl h
  · rfl

theorem Sane.act (hs : Sane s) (ha : Careful s a) (hst : act s a = some (s', out)) : Sane s' := by
  obtain ⟨hpasses, hcareful⟩ := ha
  rw [Passes, hst] at hpasses
  cases a with
  | create t f by' =>
    simp only [TaskSafety.act] at hst
    split at hst
    · cases hst
    · rename_i hnone
      cases hst
      have hne : ∀ {f' g'}, s.flags f' = some g' → f' ≠ f := by
        rintro f' g' h rfl
        rw [hnone] at h
        cases h
      refine ⟨hs.single, fun f' g' first h hfirst => ?_, fun o f' h => ?_, fun q f' o h => ?_,
        fun t o h => ?_⟩
      · rcases update_cases h with ⟨rfl, heq⟩ | ⟨-, heq⟩
        · obtain rfl := Option.some.inj heq
          cases by' <;> cases hfirst
          rfl
        · exact hs.plain f' g' first heq hfirst
      · obtain ⟨g', hg'⟩ := hs.owner o f' h
        exact ⟨g', by simpa [hne hg'] using hg'⟩
      · obtain ⟨hborn, g', hg', halive⟩ := hs.pending q f' o h
        exact ⟨hborn, g', by simpa [hne hg'] using hg', halive⟩
      · obtain ⟨f', g', first, ho, hg', hfirst, hon⟩ := hs.body t o h
        exact ⟨f', g', first, ho, by simpa [hne hg'] using hg', hfirst, hon⟩
  | make t o f =>
    simp only [TaskSafety.act] at hst
    split at hst
    · rename_i g hborn hg
      cases hst
      have hne : ∀ {o'}, s.objects o' ≠ .unborn → o' ≠ o := by
        rintro o' h rfl
        exact h hborn
      refine ⟨hs.single, hs.plain, fun o' f' h => ?_, fun q f' o' h => ?_, fun t o' h => ?_⟩
      · rcases update_cases h with ⟨-, h⟩ | ⟨-, h⟩
        · obtain rfl := Life.alive.inj h
          exact ⟨g, hg⟩
        · exact hs.owner o' f' h
      · obtain ⟨hborn', g', hg', halive⟩ := hs.pending q f' o' h
        simpa [hne hborn'] using ⟨hborn', g', hg', halive⟩
      · obtain ⟨f', g', first, ho, hg', hfirst, hon⟩ := hs.body t o' h
        have hborn' : s.objects o' ≠ .unborn := by
          rw [ho]
          exact fun h => by cases h
        exact ⟨f', g', first, by simpa [hne hborn'] using ho, hg', hfirst, hon⟩
    · cases hst
  | post t q o =>
    simp only [TaskSafety.act] at hst
    split at hst
    · rename_i f ho
      cases hst
      refine ⟨hs.single, hs.plain, hs.owner, fun q' f' o' h => ?_, hs.body⟩
      rcases eq_or_ne q' q with rfl | hne
      · have h' : (f', o') ∈ s.pending q' ++ [(f, o)] := by simpa using h
        rcases List.mem_append.mp h' with h | h
        · exact hs.pending q' f' o' h
        · obtain ⟨rfl, rfl⟩ := Prod.mk.inj (List.mem_singleton.mp h)
          obtain ⟨g, hg⟩ := hs.owner o' f' ho
          refine ⟨?_, g, hg, fun _ => ho⟩
          rw [ho]
          exact fun h => by cases h
      · exact hs.pending q' f' o' (by simpa [hne] using h)
    · cases hst
  | start t q =>
    simp only [TaskSafety.act] at hst
    split at hst
    · rename_i f o rest hidle hq
      obtain ⟨g, hg, heq⟩ := Option.map_eq_some_iff.mp hst
      obtain ⟨rfl, rfl⟩ := Prod.mk.inj heq
      exact hs.start hidle hq hg (ok_of_passes (hpasses _ List.mem_cons_self t f)) hcareful
    · cases hst
  | use t =>
    obtain ⟨o, -, heq⟩ := Option.map_eq_some_iff.mp hst
    cases heq
    exact hs
  | finish t =>
    simp only [TaskSafety.act] at hst
    split at hst
    · cases hst
    · cases hst
      refine ⟨fun u w q hu hw => ?_, hs.plain, hs.owner, hs.pending, fun u o h => ?_⟩
      · rcases update_cases hu with ⟨-, h⟩ | ⟨-, hu⟩
        · cases h
        · rcases update_cases hw with ⟨-, h⟩ | ⟨-, hw⟩
          · cases h
          · exact hs.single u w q hu hw
      · rcases update_cases h with ⟨-, h⟩ | ⟨hne, h⟩
        · cases h
        · obtain ⟨f, g, first, ho, hg, hfirst, hon⟩ := hs.body u o h
          refine ⟨f, g, first, ho, hg, hfirst, ?_⟩
          simpa [System.here, hne] using hon
  | set t f alive =>
    obtain ⟨g, hg, rfl, rfl⟩ := setFlag_spec hst
    refine hs.set hg (ok_of_passes (hpasses _ List.mem_cons_self t f)) alive fun htrue => .inr ?_
    subst htrue
    exact hcareful
  | reset t o f =>
    simp only [TaskSafety.act] at hst
    split at hst
    · rename_i f' g hf' hg
      obtain ⟨⟨s₁, out₁⟩, hset, heq⟩ := Option.map_eq_some_iff.mp hst
      obtain ⟨rfl, rfl⟩ := Prod.mk.inj heq
      obtain ⟨g', hg', rfl, rfl⟩ := setFlag_spec hset
      have hok := ok_of_passes (hpasses _ List.mem_cons_self t f')
      have hset' := hs.set hg' hok false fun h => by cases h
      refine hset'.objects hf' (Function.update_self ..) rfl (fun h => by cases h)
        (fun f'' h => ?_) fun u o' hbody => ⟨hbody, ?_⟩
      · obtain rfl := Life.alive.inj h
        rcases eq_or_ne f f' with rfl | hne
        · exact ⟨_, Function.update_self ..⟩
        · exact ⟨g, by simpa [hne] using hg⟩
      · rintro rfl
        obtain rfl := hs.same_thread hbody hf' hg' hok
        obtain ⟨g₁, hg₁, hattached, hok₁⟩ := hcareful
        obtain ⟨first, hfirst, hon⟩ :=
          onSequence_of_check rfl (fun first => hs.plain f g₁ first hg₁) hok₁
        have hfirst₁ : g₁.first = some first := by
          obtain ⟨first₁, h⟩ : ∃ first₁, g₁.first = some first₁ :=
            ⟨_, if_pos hattached⟩
          exact h.trans ((first_check h).symm.trans hfirst)
        rcases eq_or_ne f f' with rfl | hne
        · obtain rfl := Option.some.inj (hg₁.symm.trans hg')
          exact ⟨f, _, first, rfl, Function.update_self .., hfirst, hon⟩
        · exact ⟨f, g₁, first, rfl, by simpa [hne] using hg₁, hfirst₁, hon⟩
    · cases hst
  | destroy t o =>
    simp only [TaskSafety.act] at hst
    split at hst
    · rename_i f ho
      obtain ⟨⟨s₁, out₁⟩, hset, heq⟩ := Option.map_eq_some_iff.mp hst
      obtain ⟨rfl, rfl⟩ := Prod.mk.inj heq
      obtain ⟨g, hg, rfl, rfl⟩ := setFlag_spec hset
      have hok := ok_of_passes (hpasses _ List.mem_cons_self t f)
      have hset' := hs.set hg hok false fun h => by cases h
      refine hset'.objects ho (Function.update_self ..) rfl (fun h => by cases h)
        (fun f' h => by cases h) fun u o' hbody => ?_
      by_cases hown : s.body t = some o
      · rw [if_pos hown] at hbody
        rcases update_cases hbody with ⟨-, h⟩ | ⟨hne, h⟩
        · cases h
        · refine ⟨h, ?_⟩
          rintro rfl
          exact absurd ((hs.same_thread h ho hg hok).symm) hne
      · rw [if_neg hown] at hbody
        refine ⟨hbody, ?_⟩
        rintro rfl
        obtain rfl := hs.same_thread hbody ho hg hok
        exact absurd hbody hown
    · cases hst

/-! ## What is seen -/

/-- What has been posted to a queue. -/
def postedTo (q : κ) : Seen θ κ φ ω → Option (φ × ω)
  | .posted q' f o => if q' = q then some (f, o) else none
  | _ => none

/-- What has had its turn. -/
def turnOf (q : κ) : Seen θ κ φ ω → Option (φ × ω)
  | .turn q' f o _ => if q' = q then some (f, o) else none
  | _ => none

/-- What a flag has been set to last. -/
def setTo (f : φ) : Option Bool → Seen θ κ φ ω → Option Bool
  | b, .set f' alive => if f' = f then some alive else b
  | b, _ => b

/-- What is seen of a step. -/
structure Told (s : System θ κ φ ω) (out : List (Seen θ κ φ ω)) (s' : System θ κ φ ω) : Prop where
  queues : ∀ q, s.pending q ++ out.filterMap (postedTo q) = out.filterMap (turnOf q) ++ s'.pending q
  flags : ∀ f, (s'.flags f).map Flag.alive = out.foldl (setTo f) ((s.flags f).map Flag.alive)
  turns : Along (fun es e => ∀ q f o ran, e = .turn q f o ran →
    some ran = es.foldl (setTo f) ((s.flags f).map Flag.alive)) out
  used : ∀ o alive, .used o alive ∈ out → ∃ t, s.body t = some o ∧ alive = (s.objects o != .gone)

omit [DecidableEq θ] [DecidableEq ω] in
/-- A step of which nothing is seen. -/
theorem Told.nil (hqueues : s'.pending = s.pending) (hflags : s'.flags = s.flags) :
    Told s [] s' := by
  refine ⟨fun q => ?_, fun f => ?_, .nil, by simp⟩
  · simp [hqueues]
  · rw [hflags]
    rfl

omit [DecidableEq ω] in
/-- Where a flag is checked and set, if at all. -/
theorem Told.set (hset : s.setFlag t f alive = some (s', out)) : Told s out s' := by
  obtain ⟨g, hg, rfl, rfl⟩ := setFlag_spec hset
  refine ⟨fun q => ?_, fun f' => ?_, ?_, by simp⟩
  · simp [List.filterMap_cons, postedTo, turnOf]
  · rcases eq_or_ne f' f with rfl | hne
    · simp [setTo, Flag.set]
    · simp [setTo, hne, hne.symm]
  · exact (Along.nil.snoc (by rintro q f o ran ⟨⟩)).snoc (h := [_]) (by rintro q f o ran ⟨⟩)

theorem act_told (hst : act s a = some (s', out)) : Told s out s' := by
  cases a with
  | create t f by' =>
    simp only [act] at hst
    split at hst
    · cases hst
    · cases hst
      refine ⟨fun q => ?_, fun f' => ?_, Along.nil.snoc (by rintro q f o ran ⟨⟩), by simp⟩
      · simp [List.filterMap_cons, postedTo, turnOf]
      · rcases eq_or_ne f' f with rfl | hne
        · simp [setTo]
        · simp [setTo, hne, hne.symm]
  | make t o f =>
    simp only [act] at hst
    split at hst
    · cases hst
      exact .nil rfl rfl
    · cases hst
  | post t q o =>
    simp only [act] at hst
    split at hst
    · cases hst
      refine ⟨fun q' => ?_, fun f' => rfl, Along.nil.snoc (by rintro q f o ran ⟨⟩), by simp⟩
      rcases eq_or_ne q' q with rfl | hne
      · simp [List.filterMap_cons, postedTo, turnOf]
      · simp [List.filterMap_cons, postedTo, turnOf, hne, hne.symm]
    · cases hst
  | start t q =>
    simp only [act] at hst
    split at hst
    · rename_i f o rest hidle hq
      obtain ⟨g, hg, heq⟩ := Option.map_eq_some_iff.mp hst
      obtain ⟨rfl, rfl⟩ := Prod.mk.inj heq
      refine ⟨fun q' => ?_, fun f' => ?_, ?_, by simp⟩
      · rcases eq_or_ne q' q with rfl | hne
        · simp [List.filterMap_cons, postedTo, turnOf, hq]
        · simp [List.filterMap_cons, postedTo, turnOf, hne, hne.symm]
      · rcases eq_or_ne f' f with rfl | hne
        · simp [setTo, hg, Flag.check]
        · simp [setTo, hne]
      · refine (Along.nil.snoc (by rintro q f o ran ⟨⟩)).snoc (h := [_]) ?_
        rintro q f o ran ⟨⟩
        rw [hg]
        rfl
    · cases hst
  | use t =>
    obtain ⟨o, hbody, heq⟩ := Option.map_eq_some_iff.mp hst
    cases heq
    refine ⟨fun q => ?_, fun f => rfl, Along.nil.snoc (by rintro q f o ran ⟨⟩), ?_⟩
    · simp [List.filterMap_cons, postedTo, turnOf]
    · intro o' alive hmem
      obtain ⟨rfl, rfl⟩ := Seen.used.inj (List.mem_singleton.mp hmem)
      exact ⟨t, hbody, rfl⟩
  | finish t =>
    simp only [act] at hst
    split at hst
    · cases hst
    · cases hst
      exact .nil rfl rfl
  | set t f alive => exact .set hst
  | reset t o f =>
    simp only [act] at hst
    split at hst
    · obtain ⟨⟨s₁, out₁⟩, hset, heq⟩ := Option.map_eq_some_iff.mp hst
      obtain ⟨rfl, rfl⟩ := Prod.mk.inj heq
      exact { Told.set hset with }
    · cases hst
  | destroy t o =>
    simp only [act] at hst
    split at hst
    · obtain ⟨⟨s₁, out₁⟩, hset, heq⟩ := Option.map_eq_some_iff.mp hst
      obtain ⟨rfl, rfl⟩ := Prod.mk.inj heq
      exact { Told.set hset with }
    · cases hst

instance [Fintype θ] [Fintype φ] (s : System θ κ φ ω) (a : Action θ κ φ ω) :
    Decidable (Passes s a) :=
  inferInstanceAs (Decidable (∀ e ∈ (act s a).elim [] (·.2), ∀ t f, e ≠ .checked t f false))

omit [DecidableEq ω] [DecidableEq φ] in
instance (s : System θ κ φ ω) (t : θ) (f : φ) : Decidable (s.Attached t f) :=
  inferInstanceAs (Decidable (∃ g, g ∈ s.flags f ∧ g.mainSequence.attached = true ∧
    (g.check (s.here t)).1 = true))

instance [Fintype θ] [Fintype κ] [Fintype φ] [Fintype ω] (s : System θ κ φ ω) :
    (a : Action θ κ φ ω) → Decidable (Careful s a)
  | .start t q =>
    inferInstanceAs (Decidable (Passes s (.start t q) ∧ ∀ u, u ≠ t → s.running u ≠ some q))
  | .set t f true =>
    inferInstanceAs (Decidable (Passes s (.set t f true) ∧
      ∀ q o, (f, o) ∈ s.pending q → s.objects o = .alive f))
  | .reset t o f =>
    inferInstanceAs (Decidable (Passes s (.reset t o f) ∧ s.Attached t f))
  | .create t f by' => inferInstanceAs (Decidable (Passes s (.create t f by') ∧ True))
  | .make t o f => inferInstanceAs (Decidable (Passes s (.make t o f) ∧ True))
  | .post t q o => inferInstanceAs (Decidable (Passes s (.post t q o) ∧ True))
  | .use t => inferInstanceAs (Decidable (Passes s (.use t) ∧ True))
  | .finish t => inferInstanceAs (Decidable (Passes s (.finish t) ∧ True))
  | .set t f false => inferInstanceAs (Decidable (Passes s (.set t f false) ∧ True))
  | .destroy t o => inferInstanceAs (Decidable (Passes s (.destroy t o) ∧ True))

/-- Nothing, of which there may be one. -/
def nothing : System Bool Unit Unit Unit :=
  ⟨fun _ => none, fun _ => none, fun _ => [], fun _ => none, fun _ => .unborn⟩

/-- An object ends in its first task, and the second task passes over it on another thread. -/
def ended : List (Action Bool Unit Unit Unit) :=
  [.create true () .createDetached, .make true () (), .post true () (), .post true () (),
    .start false (), .use false, .destroy false (), .finish false, .start true (), .finish true]

end TaskSafety

end TQLib
