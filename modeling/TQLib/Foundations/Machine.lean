import Mathlib.Data.Set.Card

/-!
# Machines, runs and specifications

The vocabulary every concurrent component of the development is stated in.

A `Machine` takes one atomic step at a time. The label of a step says which party moves and what
the environment answers; the step itself is a partial *function*, so a run on fixed labels can be
evaluated. Each step also emits a list of observations, and a run is remembered only through the
observations it emitted: states carry no history of their own.

A `Spec` is the abstract counterpart. It moves one observation at a time, by a relation, and says
what the observations of a correct component look like. `Machine.Refines` is what connects the
two, and `Machine.Reaches.accepts` is the theorem that transports facts about accepted histories
to every run of the machine.

## Main results

* `Machine.ReachesVia.induction` — the invariant rule, with the history in scope
* `Machine.Reaches.of_exec`, `Machine.ReachesVia.of_execVia` — an evaluated run is a run
* `Machine.Reaches.view` — an observer who sees less sees a run too
* `Machine.Simulates.accepts`, `Machine.Refines.accepts` — simulation and refinement, step by step,
  give inclusion of histories
* `Machine.ReachesVia.accepts_traced` — so does a simulation of what is seen of guarded steps
* `Along.snoc` — what may follow what, one observation at a time
* `ncard_update` — moving one party changes a head count by that party alone
-/

namespace TQLib

variable {σ α ε τ : Type*}

/-! ## Machines -/

/-- A machine: where runs start, and what one labelled step does to the state and shows to an
observer. `none` means that the step is not enabled. -/
structure Machine (σ α ε : Type*) where
  /-- The states a run may start in. -/
  start : σ → Prop
  /-- One atomic step. -/
  step : σ → α → Option (σ × List ε)

namespace Machine

variable (M : Machine σ α ε)

/-- `M.ReachesVia guard h s`: some run whose every step satisfies `guard` in the state it is taken
from ends in `s` after showing the observations `h`. -/
inductive ReachesVia (guard : σ → α → Prop) : List ε → σ → Prop
  | start {s : σ} : M.start s → ReachesVia guard [] s
  | step {h : List ε} {s s' : σ} {a : α} {out : List ε} : ReachesVia guard h s → guard s a →
      M.step s a = some (s', out) → ReachesVia guard (h ++ out) s'

/-- `M.Reaches h s`: some run ends in `s` after showing the observations `h`. -/
abbrev Reaches (h : List ε) (s : σ) : Prop := M.ReachesVia (fun _ _ => True) h s

/-- `s` occurs in some run. -/
def Reachable (s : σ) : Prop := ∃ h, M.Reaches h s

variable {M} {guard : σ → α → Prop}

/-- **The invariant rule.** What holds at the start with nothing observed, and is kept by every
step that meets the guard, holds throughout every guarded run. -/
theorem ReachesVia.induction (Inv : List ε → σ → Prop) {h : List ε} {s : σ}
    (hr : M.ReachesVia guard h s) (hstart : ∀ s, M.start s → Inv [] s)
    (hstep : ∀ h s a s' out, Inv h s → guard s a → M.step s a = some (s', out) →
      Inv (h ++ out) s') : Inv h s := by
  induction hr with
  | start hs => exact hstart _ hs
  | step _ hg hst ih => exact hstep _ _ _ _ _ ih hg hst

/-- The invariant rule for facts about the state alone. -/
theorem ReachesVia.invariant (Inv : σ → Prop) {h : List ε} {s : σ}
    (hr : M.ReachesVia guard h s) (hstart : ∀ s, M.start s → Inv s)
    (hstep : ∀ s a s' out, Inv s → guard s a → M.step s a = some (s', out) → Inv s') : Inv s :=
  hr.induction (fun _ s => Inv s) hstart fun _ s a s' out => hstep s a s' out

theorem ReachesVia.mono {guard' : σ → α → Prop} (hg : ∀ s a, guard s a → guard' s a)
    {h : List ε} {s : σ} (hr : M.ReachesVia guard h s) : M.ReachesVia guard' h s := by
  induction hr with
  | start hs => exact .start hs
  | step _ ha hst ih => exact .step ih (hg _ _ ha) hst

theorem ReachesVia.reaches {h : List ε} {s : σ} (hr : M.ReachesVia guard h s) : M.Reaches h s :=
  hr.mono fun _ _ _ => trivial

theorem Reachable.invariant (Inv : σ → Prop) {s : σ} (hr : M.Reachable s)
    (hstart : ∀ s, M.start s → Inv s)
    (hstep : ∀ s a s' out, Inv s → M.step s a = some (s', out) → Inv s') : Inv s := by
  obtain ⟨h, hr⟩ := hr
  exact ReachesVia.invariant Inv hr hstart fun s a s' out hi _ => hstep s a s' out hi

/-! ## Evaluated runs -/

variable (M)

/-- Run the machine on a list of labels. -/
def exec : σ → List α → Option (σ × List ε)
  | s, [] => some (s, [])
  | s, a :: as =>
    (M.step s a).bind fun (s', out) => (exec s' as).map fun (s'', out') => (s'', out ++ out')

variable {M}

theorem exec_cons {s s' : σ} {a : α} {as : List α} {h : List ε} :
    M.exec s (a :: as) = some (s', h) ↔ ∃ s₁ out h₁, M.step s a = some (s₁, out) ∧
      M.exec s₁ as = some (s', h₁) ∧ h = out ++ h₁ := by
  simp only [exec, Option.bind_eq_some_iff, Option.map_eq_some_iff, Prod.exists, Prod.mk.injEq]
  constructor
  · rintro ⟨s₁, out, hst, s₂, h₁, hex, rfl, rfl⟩
    exact ⟨s₁, out, h₁, hst, hex, rfl⟩
  · rintro ⟨s₁, out, h₁, hst, hex, rfl⟩
    exact ⟨s₁, out, hst, s', h₁, hex, rfl, rfl⟩

/-- What holds of what has been shown and of the state, and is kept by every step, holds at the end
of an evaluated run. -/
theorem exec_induction (Inv : List ε → σ → Prop) {h : List ε} {s : σ} (hi : Inv h s)
    (hstep : ∀ h s a s' out, Inv h s → M.step s a = some (s', out) → Inv (h ++ out) s')
    {as : List α} {s' : σ} {out : List ε} (he : M.exec s as = some (s', out)) :
    Inv (h ++ out) s' := by
  induction as generalizing h s out with
  | nil =>
    simp only [Machine.exec, Option.some.injEq, Prod.mk.injEq] at he
    obtain ⟨rfl, rfl⟩ := he
    simpa using hi
  | cons a as ih =>
    obtain ⟨s₁, out₁, h₁, hst, hex, rfl⟩ := exec_cons.mp he
    rw [← List.append_assoc]
    exact ih (hstep h s a s₁ out₁ hi hst) hex

/-- Continuing a run by evaluation, with labels that meet the guard wherever they are taken. -/
theorem ReachesVia.exec {h : List ε} {s : σ} (hr : M.ReachesVia guard h s) {as : List α} {s' : σ}
    {h' : List ε} (hg : ∀ a ∈ as, ∀ s, guard s a) (he : M.exec s as = some (s', h')) :
    M.ReachesVia guard (h ++ h') s' := by
  induction as generalizing h s h' with
  | nil =>
    simp only [Machine.exec, Option.some.injEq, Prod.mk.injEq] at he
    obtain ⟨rfl, rfl⟩ := he
    simpa using hr
  | cons a as ih =>
    obtain ⟨s₁, out, h₁, hst, hex, rfl⟩ := exec_cons.mp he
    rw [← List.append_assoc]
    exact ih (hr.step (hg a List.mem_cons_self s) hst)
      (fun b hb => hg b (List.mem_cons_of_mem _ hb)) hex

/-- An evaluated run is a run. -/
theorem Reaches.of_exec {s s' : σ} {as : List α} {h : List ε} (hs : M.start s)
    (he : M.exec s as = some (s', h)) : M.Reaches h s' := by
  simpa using ReachesVia.exec (.start hs) (fun _ _ _ => trivial) he

variable (M) in
/-- Run the machine on a list of labels that meet the guard where they are taken. -/
def execVia (guard : σ → α → Prop) [∀ s a, Decidable (guard s a)] :
    σ → List α → Option (σ × List ε)
  | s, [] => some (s, [])
  | s, a :: as =>
    if guard s a then
      (M.step s a).bind fun (s', out) => (execVia guard s' as).map fun (s'', out') =>
        (s'', out ++ out')
    else none

/-- An evaluated run whose labels meet the guard is a guarded run. -/
theorem ReachesVia.execVia [∀ s a, Decidable (guard s a)] {h : List ε} {s : σ}
    (hr : M.ReachesVia guard h s) {as : List α} {s' : σ} {h' : List ε}
    (he : M.execVia guard s as = some (s', h')) : M.ReachesVia guard (h ++ h') s' := by
  induction as generalizing h s h' with
  | nil =>
    simp only [Machine.execVia, Option.some.injEq, Prod.mk.injEq] at he
    obtain ⟨rfl, rfl⟩ := he
    simpa using hr
  | cons a as ih =>
    simp only [Machine.execVia] at he
    split at he
    · rename_i hg
      simp only [Option.bind_eq_some_iff, Option.map_eq_some_iff, Prod.exists, Prod.mk.injEq] at he
      obtain ⟨s₁, out, hst, s₂, h₁, hex, rfl, rfl⟩ := he
      rw [← List.append_assoc]
      exact ih (hr.step hg hst) hex
    · cases he

theorem ReachesVia.of_execVia [∀ s a, Decidable (guard s a)] {s s' : σ} {as : List α} {h : List ε}
    (hs : M.start s) (he : M.execVia guard s as = some (s', h)) : M.ReachesVia guard h s' := by
  simpa using ReachesVia.execVia (.start hs) he

variable (M) in
/-- The machine, started in `s`. -/
def startedIn (s : σ) : Machine σ α ε := { M with start := (· = s) }

/-! ## Partial views -/

variable (M)

/-- The machine as seen by an observer to whom only some observations, or parts of them, are
visible. -/
def view {ε' : Type*} (f : ε → Option ε') : Machine σ α ε' where
  start := M.start
  step s a := (M.step s a).map fun r => (r.1, r.2.filterMap f)

variable {M}

theorem Reaches.view {ε' : Type*} (f : ε → Option ε') {h : List ε} {s : σ}
    (hr : M.Reaches h s) : (M.view f).Reaches (h.filterMap f) s := by
  induction hr with
  | start hs => exact .start hs
  | step _ _ hst ih =>
    have hst' := congrArg (Option.map fun r => (r.1, r.2.filterMap f)) hst
    rw [List.filterMap_append]
    exact ih.step trivial hst'

theorem view_step {ε' : Type*} {f : ε → Option ε'} {s s' : σ} {a : α} {out : List ε'}
    (h : (M.view f).step s a = some (s', out)) :
    ∃ o, M.step s a = some (s', o) ∧ out = o.filterMap f := by
  simp only [Machine.view, Option.map_eq_some_iff, Prod.mk.injEq] at h
  obtain ⟨⟨s₁, o⟩, hst, rfl, rfl⟩ := h
  exact ⟨o, hst, rfl⟩

end Machine

/-! ## Specifications and refinement -/

/-- An abstract specification: which observations may follow which, as a relation on abstract
states. -/
structure Spec (τ ε : Type*) where
  /-- The abstract states before anything has been observed. -/
  start : τ → Prop
  /-- One observation. -/
  next : τ → ε → τ → Prop

namespace Spec

variable {N : Spec τ ε}

/-- A finite sequence of observations between two abstract states. -/
inductive Path (N : Spec τ ε) : τ → List ε → τ → Prop
  | nil (t : τ) : Path N t [] t
  | cons {t t' t'' : τ} {e : ε} {es : List ε} : N.next t e t' → Path N t' es t'' →
      Path N t (e :: es) t''

/-- The histories a specification allows, each with the abstract state it leads to. -/
inductive Accepts (N : Spec τ ε) : List ε → τ → Prop
  | nil {t : τ} : N.start t → Accepts N [] t
  | snoc {h : List ε} {e : ε} {t t' : τ} : Accepts N h t → N.next t e t' → Accepts N (h ++ [e]) t'

theorem Path.single {t t' : τ} {e : ε} (h : N.next t e t') : N.Path t [e] t' :=
  .cons h (.nil _)

theorem Path.append {t t' t'' : τ} {es es' : List ε} (h : N.Path t es t')
    (h' : N.Path t' es' t'') : N.Path t (es ++ es') t'' := by
  induction h with
  | nil => exact h'
  | cons hn _ ih => exact .cons hn (ih h')

theorem Path.cut {t t' : τ} {es es' : List ε} (h : N.Path t (es ++ es') t') :
    ∃ t₁, N.Path t es t₁ ∧ N.Path t₁ es' t' := by
  induction es generalizing t with
  | nil => exact ⟨t, .nil t, h⟩
  | cons e es ih =>
    cases h with
    | cons hn hp =>
      obtain ⟨t₁, hp₁, hp₂⟩ := ih hp
      exact ⟨t₁, .cons hn hp₁, hp₂⟩

theorem Accepts.append {h es : List ε} {t t' : τ} (ha : N.Accepts h t) (hp : N.Path t es t') :
    N.Accepts (h ++ es) t' := by
  induction hp generalizing h with
  | nil => simpa using ha
  | cons hn _ ih => simpa using ih (ha.snoc hn)

/-- An accepted history can be cut anywhere. -/
theorem Accepts.cut {h es : List ε} {t' : τ} (ha : N.Accepts (h ++ es) t') :
    ∃ t, N.Accepts h t ∧ N.Path t es t' := by
  induction es using List.reverseRecOn generalizing t' with
  | nil => exact ⟨t', by simpa using ha, .nil t'⟩
  | append_singleton es e ih =>
    rw [← List.append_assoc] at ha
    generalize hl : h ++ es ++ [e] = l at ha
    cases ha with
    | nil => simp at hl
    | snoc ha' hn =>
      obtain ⟨rfl, he⟩ := List.append_inj' hl rfl
      obtain rfl : e = _ := by simpa using he
      obtain ⟨t, ha, hp⟩ := ih ha'
      exact ⟨t, ha, hp.append (.single hn)⟩

/-- Every prefix of an accepted history is accepted. -/
theorem Accepts.prefix {h h' : List ε} {t : τ} (ha : N.Accepts (h ++ h') t) :
    ∃ t', N.Accepts h t' := by
  obtain ⟨t', ha', -⟩ := ha.cut
  exact ⟨t', ha'⟩

/-- An accepted history can be cut at any of its observations. -/
theorem Accepts.split {h h' : List ε} {e : ε} {t : τ} (ha : N.Accepts (h ++ e :: h') t) :
    ∃ t₁ t₂, N.Accepts h t₁ ∧ N.next t₁ e t₂ := by
  obtain ⟨t₁, ha₁, hp⟩ := ha.cut
  cases hp with
  | cons hn hp => exact ⟨t₁, _, ha₁, hn⟩

end Spec

/-- `M.Simulates N R`: whatever the machine shows in one step, the specification can follow, from
every abstract state that `R` relates to the state the step is taken from to one that it relates to
the state after. -/
structure Machine.Simulates (M : Machine σ α ε) (N : Spec τ ε) (R : σ → τ → Prop) : Prop where
  /-- A run starts in a state related to an abstract start. -/
  start : ∀ s, M.start s → ∃ t, R s t ∧ N.start t
  /-- A step is followed by an abstract path. -/
  step : ∀ s t a s' out, R s t → M.step s a = some (s', out) → ∃ t', R s' t' ∧ N.Path t out t'

/-- **Simulation.** What the machine shows in any run is a history the specification allows, and it
leads to an abstract state related to the machine's. -/
theorem Machine.Simulates.accepts {M : Machine σ α ε} {N : Spec τ ε} {R : σ → τ → Prop}
    (hM : M.Simulates N R) {h : List ε} {s : σ} (hr : M.Reaches h s) :
    ∃ t, R s t ∧ N.Accepts h t := by
  refine hr.induction (fun h s => ∃ t, R s t ∧ N.Accepts h t) (fun s hs => ?_) ?_
  · obtain ⟨t, hR, ht⟩ := hM.start s hs
    exact ⟨t, hR, .nil ht⟩
  · rintro h s a s' out ⟨t, hR, ha⟩ - hst
    obtain ⟨t', hR', hp⟩ := hM.step s t a s' out hR hst
    exact ⟨t', hR', ha.append hp⟩

/-- The machine as seen by an observer who looks at the steps themselves. -/
def Machine.traced {ε' : Type*} (M : Machine σ α ε) (f : σ → α → List ε → σ → List ε') :
    Machine σ α ε' where
  start := M.start
  step s a := (M.step s a).map fun (s', out) => (s', f s a out s')

/-- **Simulation under a guard.** If whatever is seen of a guarded step from a state that guarded
runs reach can be followed by the specification, then all that is seen of a guarded run is a history
the specification allows. -/
theorem Machine.ReachesVia.accepts_traced {ε' : Type*} {M : Machine σ α ε}
    {f : σ → α → List ε → σ → List ε'} {N : Spec τ ε'} {R : σ → τ → Prop} {guard : σ → α → Prop}
    (hstart : ∀ s, M.start s → ∃ t, R s t ∧ N.start t)
    (hstep : ∀ h s t a s' out, M.ReachesVia guard h s → R s t → guard s a →
      M.step s a = some (s', out) → ∃ t', R s' t' ∧ N.Path t (f s a out s') t')
    {h : List ε'} {s : σ} (hr : (M.traced f).ReachesVia guard h s) :
    ∃ t, (∃ h, M.ReachesVia guard h s) ∧ R s t ∧ N.Accepts h t := by
  refine hr.induction
    (fun h s => ∃ t, (∃ h, M.ReachesVia guard h s) ∧ R s t ∧ N.Accepts h t) (fun s hs => ?_) ?_
  · obtain ⟨t, hR, ht⟩ := hstart s hs
    exact ⟨t, ⟨_, .start hs⟩, hR, .nil ht⟩
  · rintro h s a s' out ⟨t, ⟨h₁, hr₁⟩, hR, ha⟩ hg hst
    obtain ⟨⟨s₁, o⟩, hst₁, heq⟩ := Option.map_eq_some_iff.mp hst
    cases heq
    obtain ⟨t', hR', hp⟩ := hstep h₁ s t a _ o hr₁ hR hg hst₁
    exact ⟨t', ⟨_, hr₁.step hg hst₁⟩, hR', ha.append hp⟩

/-- `M.Refines N Inv abs`: a simulation whose relation is a function, on the states that satisfy the
invariant `Inv`. -/
structure Machine.Refines (M : Machine σ α ε) (N : Spec τ ε) (Inv : σ → Prop) (abs : σ → τ) :
    Prop where
  /-- A run starts in the invariant, and its abstraction is an abstract start. -/
  start : ∀ s, M.start s → Inv s ∧ N.start (abs s)
  /-- A step keeps the invariant and is an abstract path. -/
  step : ∀ s a s' out, Inv s → M.step s a = some (s', out) → Inv s' ∧ N.Path (abs s) out (abs s')

/-- **Refinement.** What the machine shows in any run is a history the specification allows, and
the abstract state it leads to is the abstraction of the machine's. -/
theorem Machine.Refines.accepts {M : Machine σ α ε} {N : Spec τ ε} {Inv : σ → Prop} {abs : σ → τ}
    (hM : M.Refines N Inv abs) {h : List ε} {s : σ} (hr : M.Reaches h s) :
    Inv s ∧ N.Accepts h (abs s) := by
  have hsim : M.Simulates N fun s t => Inv s ∧ t = abs s := by
    constructor
    · intro s hs
      obtain ⟨hi, ht⟩ := hM.start s hs
      exact ⟨_, ⟨hi, rfl⟩, ht⟩
    · rintro s _ a s' out ⟨hi, rfl⟩ hst
      obtain ⟨hi', hp⟩ := hM.step s a s' out hi hst
      exact ⟨_, ⟨hi', rfl⟩, hp⟩
  obtain ⟨_, ⟨hi, rfl⟩, ha⟩ := hsim.accepts hr
  exact ⟨hi, ha⟩

/-! ## What comes before what -/

/-- Every observation of a history is one that may follow those before it. -/
def Along (P : List ε → ε → Prop) (h : List ε) : Prop := ∀ h₁ e h₂, h = h₁ ++ e :: h₂ → P h₁ e

namespace Along

variable {P : List ε → ε → Prop} {h h' : List ε} {e : ε}

theorem nil : Along P [] := by
  intro h₁ e h₂ heq
  simp at heq

theorem of_append (ha : Along P (h ++ h')) : Along P h := by
  rintro h₁ e h₂ rfl
  exact ha h₁ e (h₂ ++ h') (by simp)

theorem last (ha : Along P (h ++ [e])) : P h e := ha h e [] rfl

theorem snoc (ha : Along P h) (he : P h e) : Along P (h ++ [e]) := by
  intro h₁ e' h₂ heq
  rcases List.eq_nil_or_concat h₂ with rfl | ⟨h₃, e₃, rfl⟩
  · obtain ⟨rfl, he'⟩ := List.append_inj' heq rfl
    obtain rfl : e = e' := by simpa using he'
    exact he
  · rw [List.concat_eq_append, ← List.cons_append, ← List.append_assoc] at heq
    obtain ⟨rfl, -⟩ := List.append_inj' heq rfl
    exact ha h₁ e' h₃ rfl

theorem append (ha : Along P h) (ha' : Along (fun es => P (h ++ es)) h') :
    Along P (h ++ h') := by
  induction h' using List.reverseRecOn with
  | nil => simpa using ha
  | append_singleton es e ih =>
    rw [← List.append_assoc]
    exact (ih ha'.of_append).snoc ha'.last

end Along

/-! ## Parties that move one at a time -/

/-- What a place holds after one place has been written: what was written there, or what it held. -/
theorem update_cases {ι π : Type*} [DecidableEq ι] {f : ι → π} {i j : ι} {v w : π}
    (h : Function.update f i v j = w) : (j = i ∧ v = w) ∨ (j ≠ i ∧ f j = w) := by
  rcases eq_or_ne j i with rfl | hne
  · exact .inl ⟨rfl, by rwa [Function.update_self] at h⟩
  · exact .inr ⟨hne, by rwa [Function.update_of_ne hne] at h⟩

theorem finite_update {ι π : Type*} [DecidableEq ι] {P : π → Prop} {f : ι → π}
    (hf : {j | P (f j)}.Finite) (i : ι) (v : π) : {j | P (Function.update f i v j)}.Finite := by
  refine (hf.insert i).subset ?_
  intro j hj
  rcases eq_or_ne j i with rfl | hne
  · exact Set.mem_insert _ _
  · exact Set.mem_insert_of_mem _ (by simpa [Function.update_of_ne hne] using hj)

/-- Moving one party from one place to another changes the number of parties at a kind of place
only by that party. -/
theorem ncard_update {ι π : Type*} [DecidableEq ι] (P : π → Prop) [DecidablePred P] {f : ι → π}
    (hf : {j | P (f j)}.Finite) (i : ι) (v : π) :
    {j | P (Function.update f i v j)}.ncard + (if P (f i) then 1 else 0) =
      {j | P (f j)}.ncard + if P v then 1 else 0 := by
  -- without the party that moves, the two sets are the same
  have hrest : {j | P (Function.update f i v j)} \ {i} = {j | P (f j)} \ {i} := by
    ext j
    refine and_congr_left ?_
    intro hj
    rw [Set.mem_ofPred_eq, Function.update_of_ne hj, Set.mem_ofPred_eq]
  have hcount : ∀ g : ι → π, {j | P (g j)}.Finite →
      ({j | P (g j)} \ {i}).ncard + (if P (g i) then 1 else 0) = {j | P (g j)}.ncard := by
    intro g hg
    by_cases hi : P (g i)
    · rw [if_pos hi]
      exact Set.ncard_sdiff_singleton_add_one hi hg
    · have hmem : i ∉ {j | P (g j)} := hi
      rw [if_neg hi, Nat.add_zero, Set.sdiff_singleton_eq_self hmem]
  have hnew := hcount _ (finite_update hf i v)
  have hold := hcount f hf
  rw [hrest, Function.update_self] at hnew
  omega

end TQLib
