import TQLib.AsyncResolver.Model

/-!
# The life of a resolver

Whether the resolver is there is known in three ways: by the one who holds it, by `recursion_check_`
and `destroy_called_`, and by the `State`. Only the queue changes any of them, so that what a task
reads under the mutex still holds when it calls `ResolveDone`, although it has unlocked the mutex by
then.

## Main results

* `Sound.step` — one step keeps what is known of the resolver, who has references and who has the
  mutex
* `Sound.deletes_of_destroyed` — once `Destroy` has been called, nothing keeps the resolver from
  being deleted
-/

namespace TQLib

namespace AsyncResolver

variable {ι : Type*} {s s' : System ι} {a : Action ι} {out : List (Observation ι)}

/-! ## What is known of the resolver -/

/-- Whether the destructor has written `kDead`. -/
def Deletion.marked : Deletion → Bool
  | .unlocking => true
  | .freeing => true
  | _ => false

/-- What is known of the resolver. -/
structure Lifetime (s : System ι) : Prop where
  /-- It is there before `Destroy`, -/
  present : s.held = true → s.resolver.isSome = true
  /-- and after it only until a handler has returned and the destructor is through. -/
  kept : s.resolver.isSome = true → s.held = true ∨ s.deleting.isSome = true ∨ s.owner.inside = true
  /-- It is there for a task that deals with it. -/
  needs : s.owner.needs = true → s.resolver.isSome = true
  /-- The destructor is called once `Destroy` has been, between two tasks or where a task ends. -/
  deleting : s.deleting.isSome = true → s.resolver.isSome = true ∧ s.held = false ∧
    (s.owner = .idle ∨ s.owner = .releasing)
  /-- `recursion_check_` is set in a handler that has not called `Destroy`. -/
  recursion : ∀ r, s.resolver = some r → r.recursionCheck = (s.owner.inside && s.held)
  /-- `destroy_called_` is set by `Destroy`. -/
  destroyCalled : ∀ r, s.resolver = some r → r.destroyCalled = !s.held
  /-- The `State` says whether the resolver is there. -/
  status : ∀ x, s.shared = some x → (x.status = .kLive ↔ s.resolver.isSome = true ∧
    ∀ d, s.deleting = some d → d.marked = false)

/-- A task that deals with the resolver has come before `Destroy`. -/
theorem Lifetime.held (hl : Lifetime s) (hn : s.owner.needs = true)
    (hi : s.owner.inside = false) : s.held = true ∧ s.deleting = none := by
  have hd : s.deleting = none := by
    by_contra hne
    obtain ⟨-, -, ho | ho⟩ := hl.deleting (Option.isSome_iff_ne_none.mpr hne)
    · rw [ho] at hn
      cases hn
    · rw [ho] at hn
      cases hn
  refine ⟨?_, hd⟩
  rcases hl.kept (hl.needs hn) with h | h | h
  · exact h
  · rw [hd] at h
    cases h
  · rw [hi] at h
    cases h

/-- What the threads do is nothing to the resolver. -/
theorem Lifetime.frame (hl : Lifetime s) (hresolver : s'.resolver = s.resolver)
    (hdeleting : s'.deleting = s.deleting) (hheld : s'.held = s.held) (howner : s'.owner = s.owner)
    (hshared : ∀ x', s'.shared = some x' → ∃ x, s.shared = some x ∧ x'.status = x.status) :
    Lifetime s' := by
  constructor
  · rw [hresolver, hheld]
    exact hl.present
  · rw [hresolver, hheld, hdeleting, howner]
    exact hl.kept
  · rw [hresolver, howner]
    exact hl.needs
  · rw [hresolver, hheld, hdeleting, howner]
    exact hl.deleting
  · rw [hresolver, hheld, howner]
    exact hl.recursion
  · rw [hresolver, hheld]
    exact hl.destroyCalled
  · intro x' hx'
    obtain ⟨x, hx, hstatus⟩ := hshared x' hx'
    rw [hstatus, hresolver, hdeleting]
    exact hl.status x hx

/-- The queue goes from one place to another, with no handler and no destructor run. -/
theorem Lifetime.moved (hl : Lifetime s) (hd : s.deleting = none) (hi : s.owner.inside = false)
    (ho : s'.owner.inside = false) (hn : s'.owner.needs = true → s.resolver.isSome = true)
    (hresolver : s'.resolver = s.resolver) (hdeleting : s'.deleting = s.deleting)
    (hheld : s'.held = s.held)
    (hshared : ∀ x', s'.shared = some x' → ∃ x, s.shared = some x ∧ x'.status = x.status) :
    Lifetime s' := by
  constructor
  · rw [hresolver, hheld]
    exact hl.present
  · rw [hresolver, hheld, hdeleting, ho, ← hi]
    exact hl.kept
  · rw [hresolver]
    exact hn
  · rw [hdeleting, hd]
    intro h
    cases h
  · rw [hresolver, hheld, ho, ← hi]
    exact hl.recursion
  · rw [hresolver, hheld]
    exact hl.destroyCalled
  · intro x' hx'
    obtain ⟨x, hx, hstatus⟩ := hshared x' hx'
    rw [hstatus, hresolver, hdeleting]
    exact hl.status x hx

/-- The destructor goes on. -/
theorem Lifetime.deleted (hl : Lifetime s) {d d' : Deletion} (hd : s.deleting = some d)
    {x x' : Shared} (hx : s.shared = some x)
    (hstatus : x'.status = .kLive ↔ x.status = .kLive ∧ d'.marked = false)
    (hmarked : d.marked = true → d'.marked = true) :
    Lifetime { s with shared := some x', deleting := some d' } := by
  obtain ⟨hsome, hheld, ho⟩ := hl.deleting (by rw [hd]; rfl)
  constructor
  · exact hl.present
  · intro _
    exact .inr (.inl rfl)
  · exact hl.needs
  · intro _
    exact ⟨hsome, hheld, ho⟩
  · exact hl.recursion
  · exact hl.destroyCalled
  · rintro _ ⟨⟩
    have hold := hl.status x hx
    simp only [hsome, hd, true_and, Option.some.injEq, forall_eq'] at hold ⊢
    rw [hstatus, hold]
    refine ⟨fun h => h.2, fun h => ⟨?_, h⟩⟩
    by_contra hne
    rw [hmarked (by simpa using hne)] at h
    cases h

/-- `MaybeSelfDestruct` deletes a resolver outside of a handler, after `Destroy`. In a handler it
leaves that to the end of `ResolveDone`. -/
theorem Lifetime.maybeSelfDestruct {r : Resolver ι} (hd : s.deleting = none)
    (hheld : s.held = r.destroyCalled.not)
    (hout : r.recursionCheck = false → s.held = false ∧ (s.owner = .idle ∨ s.owner = .releasing))
    (hin : r.recursionCheck = true → (s.owner.inside && s.held) = false ∧
      (s.held = true ∨ s.owner.inside = true))
    (hstatus : ∀ x, s.shared = some x → x.status = .kLive) :
    Lifetime (s.maybeSelfDestruct r) := by
  rw [System.maybeSelfDestruct]
  cases hr : r.recursionCheck with
  | false =>
    obtain ⟨hh, ho⟩ := hout hr
    have hinside : s.owner.inside = false := by
      rcases ho with ho | ho <;> rw [ho] <;> rfl
    simp only [Bool.not_false, if_true]
    constructor
    · intro _
      rfl
    · intro _
      exact .inr (.inl rfl)
    · intro _
      rfl
    · intro _
      exact ⟨rfl, hh, ho⟩
    · rintro _ ⟨⟩
      rw [hr, hh, Bool.and_false]
    · rintro _ ⟨⟩
      rw [hheld, Bool.not_not]
    · intro x hx
      simp [hstatus x hx, Deletion.marked]
  | true =>
    obtain ⟨hcheck, hkept⟩ := hin hr
    simp only [Bool.not_true, Bool.false_eq_true, if_false]
    constructor
    · intro _
      rfl
    · intro _
      exact hkept.imp_right .inr
    · intro _
      rfl
    · intro h
      simp [hd] at h
    · rintro _ ⟨⟩
      exact hcheck.symm
    · rintro _ ⟨⟩
      simp [hheld]
    · intro x hx
      simp [hstatus x hx, hd]

theorem Shared.status_of_release {x x' : Shared} (h : x.release = some x') :
    x'.status = x.status := by
  rw [Shared.release] at h
  split at h
  · cases h
  · cases h
    rfl

theorem Lifetime.initial : Lifetime (System.initial : System ι) := by
  constructor <;> simp [System.initial, Owner.inside, Owner.needs, Resolver.initial, Shared.initial]

/-- Once the resolver is gone, nobody needs it. -/
theorem Lifetime.free (hl : Lifetime s) {x : Shared} (hd : s.deleting = some .freeing)
    (hx : s.shared = some x) :
    Lifetime { s with shared := x.release, resolver := none, deleting := none } := by
  obtain ⟨-, hheld, ho⟩ := hl.deleting (by rw [hd]; rfl)
  have hneeds : s.owner.needs = false := by
    rcases ho with ho | ho <;> rw [ho] <;> rfl
  have hstatus := hl.status x hx
  simp only [hd, Option.some.injEq, forall_eq', Deletion.marked, Bool.true_eq_false,
    and_false, iff_false] at hstatus
  constructor
  · intro h
    rw [hheld] at h
    cases h
  · intro h
    cases h
  · intro h
    rw [hneeds] at h
    cases h
  · intro h
    cases h
  · intro _ h
    cases h
  · intro _ h
    cases h
  · intro x' hx'
    rw [Shared.status_of_release hx']
    simp [hstatus]

/-- **One step**, of what is known of the resolver. -/
theorem Lifetime.step (hl : Lifetime s) (h : Step s a s' out) : Lifetime s' := by
  cases h with
  | start hd ho hh hx hr =>
    refine hl.frame rfl rfl rfl rfl fun x' hx' => ⟨_, hx, ?_⟩
    cases hx'
    rfl
  | @destroy r hd ho hh hr =>
    have hcheck := hl.recursion r hr
    rw [hh, Bool.and_true] at hcheck
    refine Lifetime.maybeSelfDestruct hd rfl (fun hc => ⟨rfl, ?_⟩) (fun hc => ?_) fun x hx => ?_
    · have hinside : s.owner.inside = false := hcheck.symm.trans hc
      cases howner : s.owner <;> rw [howner] at ho hinside
      case idle => exact .inl rfl
      case handling => cases hinside
      all_goals cases ho
    · exact ⟨Bool.and_false _, .inr (hcheck.symm.trans hc)⟩
    · exact (hl.status x hx).mpr ⟨by rw [hr]; rfl, by simp [hd]⟩
  | resolve hn => exact hl.frame rfl rfl rfl rfl fun x' hx' => ⟨x', hx', rfl⟩
  | lockThread hn hx hm =>
    refine hl.frame rfl rfl rfl rfl fun x' hx' => ⟨_, hx, ?_⟩
    cases hx'
    rfl
  | testThread hn hx => exact hl.frame rfl rfl rfl rfl fun x' hx' => ⟨x', hx', rfl⟩
  | post hn hx =>
    refine hl.frame rfl rfl rfl rfl fun x' hx' => ⟨_, hx, ?_⟩
    cases hx'
    rfl
  | unlockThread hn hx =>
    refine hl.frame rfl rfl rfl rfl fun x' hx' => ⟨_, hx, ?_⟩
    cases hx'
    rfl
  | releaseThread hn hx =>
    exact hl.frame rfl rfl rfl rfl fun x' hx' => ⟨_, hx, Shared.status_of_release hx'⟩
  | lockDeletion hd hx hm =>
    exact hl.deleted hd hx (by simp [Deletion.marked]) (by simp [Deletion.marked])
  | mark hd hx => exact hl.deleted hd hx (by simp [Deletion.marked]) fun _ => rfl
  | @unlockDeletion x hd hx =>
    have hstatus := hl.status x hx
    simp only [hd, Option.some.injEq, forall_eq', Deletion.marked, Bool.true_eq_false,
      and_false, iff_false] at hstatus
    exact hl.deleted hd hx (by simp [hstatus, Deletion.marked]) fun _ => rfl
  | free hd hx hr => exact hl.free hd hx
  | take hd ho hq =>
    exact hl.moved hd (by rw [ho]; rfl) rfl (fun h => by cases h) rfl rfl rfl
      fun x' hx' => ⟨x', hx', rfl⟩
  | lock hd ho hx hm =>
    refine hl.moved hd (by rw [ho]; rfl) rfl (fun h => by cases h) rfl rfl rfl
      fun x' hx' => ⟨_, hx, ?_⟩
    cases hx'
    rfl
  | @test n result x hd ho hx =>
    refine hl.moved hd (by rw [ho]; rfl) rfl (fun h => ?_) rfl rfl rfl
      fun x' hx' => ⟨x', hx', rfl⟩
    have hlive : x.status = .kLive := by simpa [System.setOwner, Owner.needs] using h
    exact ((hl.status x hx).mp hlive).1
  | @unlock n result live x hd ho hx =>
    have hneeds := hl.needs
    rw [ho] at hneeds
    refine hl.moved hd (by rw [ho]; rfl) ?_ (fun h => ?_) rfl rfl rfl fun x' hx' => ⟨_, hx, ?_⟩
    · cases live <;> rfl
    · cases live with
      | false => cases h
      | true => exact hneeds rfl
    · cases hx'
      rfl
  | @signalDone n result r hd ho hr =>
    obtain ⟨hheld, -⟩ := hl.held (by rw [ho]; rfl) (by rw [ho]; rfl)
    constructor
    · intro _
      rfl
    · intro _
      exact .inl hheld
    · intro _
      rfl
    · intro h
      change s.deleting.isSome = true at h
      rw [hd] at h
      cases h
    · rintro _ ⟨⟩
      exact hheld.symm
    · rintro _ ⟨⟩
      exact hl.destroyCalled r hr
    · intro x hx
      rw [hl.status x hx, hr]
      rfl
  | @handled n r hd ho hr =>
    have hcheck := hl.recursion r hr
    rw [ho] at hcheck
    refine Lifetime.maybeSelfDestruct hd ?_ (fun hc => ?_) (fun hc => ?_) fun x hx => ?_
    · rw [hl.destroyCalled r hr, Bool.not_not]
      rfl
    · exact ⟨hcheck.symm.trans hc, .inr rfl⟩
    · exact ⟨rfl, .inl (hcheck.symm.trans hc)⟩
    · exact (hl.status x hx).mpr ⟨by rw [hr]; rfl, by simp [hd]⟩
  | release hd ho hx =>
    exact hl.moved hd (by rw [ho]; rfl) rfl (fun h => by cases h) rfl rfl rfl
      fun x' hx' => ⟨_, hx, Shared.status_of_release hx'⟩

/-! ## References -/

/-- Every reference is counted. -/
structure Counted (s : System ι) : Prop where
  /-- A `Start` that has not been called has no thread. -/
  fresh : ∀ n, s.starts ≤ n → s.threads n = .fresh
  /-- Finitely many threads have a reference. -/
  finite : (running s.threads).Finite
  /-- The number of references. -/
  refs : s.refs = s.holders
  /-- The `State` is deleted with the last reference. -/
  positive : ∀ x, s.shared = some x → 0 < x.refs

/-- Moving a thread changes the number of threads with a reference by that thread. -/
theorem running_update {threads : ℕ → Thread ι} (hf : (running threads).Finite) (n : ℕ)
    (t : Thread ι) : (running (Function.update threads n t)).Finite ∧
      (running (Function.update threads n t)).ncard + (threads n).holds.toNat =
        (running threads).ncard + t.holds.toNat := by
  have htoNat : ∀ b : Bool, b.toNat = if b = true then 1 else 0 := by
    intro b
    cases b <;> rfl
  rw [htoNat, htoNat]
  exact ⟨finite_update (P := fun t : Thread ι => t.holds = true) hf n t,
    ncard_update (fun t : Thread ι => t.holds = true) hf n t⟩

/-- A thread that has been started is one of a `Start`. -/
theorem Counted.started (hc : Counted s) {n : ℕ} (hn : s.threads n ≠ .fresh) : n < s.starts := by
  by_contra hle
  exact hn (hc.fresh n (by omega))

theorem Shared.refs_of_release {x : Shared} (hx : 0 < x.refs) (hs : s.shared = x.release) :
    s.refs + 1 = x.refs := by
  by_cases hone : x.refs = 1
  · simp [System.refs, hs, Shared.release, hone]
  · simp only [System.refs, hs, Shared.release, if_neg hone]
    omega

theorem Shared.positive_of_release {x x' : Shared} (hx : 0 < x.refs) (h : x.release = some x') :
    0 < x'.refs := by
  rw [Shared.release] at h
  split at h
  · cases h
  · cases h
    show 0 < x.refs - 1
    omega

/-- No thread moves. -/
theorem Counted.moved (hc : Counted s) (hstarts : s'.starts = s.starts)
    (hthreads : s'.threads = s.threads)
    (hrefs : s'.refs + (s.resolver.isSome.toNat + s.queue.length + s.owner.holds.toNat) =
      s.refs + (s'.resolver.isSome.toNat + s'.queue.length + s'.owner.holds.toNat))
    (hpos : ∀ x, s'.shared = some x → 0 < x.refs) : Counted s' := by
  have hold := hc.refs
  rw [System.holders] at hold
  constructor
  · rw [hstarts, hthreads]
    exact hc.fresh
  · rw [hthreads]
    exact hc.finite
  · rw [System.holders, hthreads]
    omega
  · exact hpos

/-- One thread moves. -/
theorem Counted.setThread (hc : Counted s) {n : ℕ} (hn : s.threads n ≠ .fresh) (t : Thread ι)
    (hstarts : s'.starts = s.starts) (hthreads : s'.threads = Function.update s.threads n t)
    (hresolver : s'.resolver = s.resolver) (howner : s'.owner = s.owner)
    (hrefs : s'.refs + (s.queue.length + (s.threads n).holds.toNat) =
      s.refs + (s'.queue.length + t.holds.toNat))
    (hpos : ∀ x, s'.shared = some x → 0 < x.refs) : Counted s' := by
  have hold := hc.refs
  rw [System.holders] at hold
  obtain ⟨hfin, hcard⟩ := running_update hc.finite n t
  constructor
  · intro m hm
    rw [hstarts] at hm
    have hlt := hc.started hn
    rw [hthreads, Function.update_of_ne (by omega)]
    exact hc.fresh m hm
  · rw [hthreads]
    exact hfin
  · rw [System.holders, hthreads, hresolver, howner]
    omega
  · exact hpos

/-- Who accesses something has it. -/
theorem Counted.present (hc : Counted s) (hl : Lifetime s) : Present s := by
  constructor
  · intro hnone
    have hrefs := hc.refs
    simp only [System.refs, hnone, System.holders] at hrefs
    have hresolver : s.resolver.isSome.toNat = 0 := by omega
    have hrunning : (running s.threads).ncard = 0 := by omega
    have howner : s.owner.holds.toNat = 0 := by omega
    refine ⟨by simpa using hresolver, fun n => ?_, List.length_eq_zero_iff.mp (by omega),
      by simpa using howner⟩
    have hempty : running s.threads = ∅ := (Set.ncard_eq_zero hc.finite).mp hrunning
    have hn : n ∉ running s.threads := by simp [hempty]
    simpa [running] using hn
  · intro hnone
    have hsome : s.resolver.isSome = false := by rw [hnone]; rfl
    refine ⟨?_, ?_, ?_⟩
    · by_contra hne
      rw [hl.present (by simpa using hne)] at hsome
      cases hsome
    · by_contra hne
      rw [(hl.deleting (Option.isSome_iff_ne_none.mpr hne)).1] at hsome
      cases hsome
    · by_contra hne
      rw [hl.needs (by simpa using hne)] at hsome
      cases hsome

theorem Counted.initial : Counted (System.initial : System ι) := by
  have hrunning : running (System.initial : System ι).threads = ∅ := by
    ext n
    simp [running, System.initial, Thread.holds]
  constructor
  · intro n _
    rfl
  · rw [hrunning]
    exact Set.finite_empty
  · rw [System.holders, hrunning, Set.ncard_empty]
    rfl
  · rintro _ ⟨⟩
    exact Nat.one_pos

/-- **One step**, of the references. -/
theorem Counted.step (hc : Counted s) (h : Step s a s' out) : Counted s' := by
  have hrefs := hc.refs
  cases h with
  | @start x r hd ho hh hx hr =>
    have hnone := hc.fresh s.starts le_rfl
    obtain ⟨hfin, hcard⟩ := running_update hc.finite s.starts .resolving
    rw [hnone] at hcard
    constructor
    · intro m hm
      change s.starts + 1 ≤ m at hm
      show Function.update s.threads s.starts .resolving m = .fresh
      rw [Function.update_of_ne (by omega)]
      exact hc.fresh m (by omega)
    · exact hfin
    · simp only [System.refs, hx, System.holders, System.setThread, Shared.addRef, Thread.holds,
        Bool.toNat_false, Bool.toNat_true] at hrefs hcard ⊢
      omega
    · rintro _ ⟨⟩
      exact Nat.succ_pos _
  | @destroy r hd ho hh hr =>
    refine hc.moved (by simp) (by simp) ?_ fun x hx => hc.positive x (by simpa using hx)
    simp [System.refs, hr]
  | @resolve n result hn =>
    refine hc.setThread (n := n) (by simp [hn]) (.locking result) rfl rfl rfl rfl ?_ hc.positive
    rw [hn]
    rfl
  | @lockThread n result x hn hx hm =>
    refine hc.setThread (n := n) (by simp [hn]) (.testing result) rfl rfl rfl rfl ?_ ?_
    · simp only [System.refs, hx, hn]
      rfl
    · rintro _ ⟨⟩
      exact hc.positive x hx
  | @testThread n result x hn hx =>
    refine hc.setThread (n := n) (by simp [hn]) _ rfl rfl rfl rfl ?_ hc.positive
    rw [hn]
    split <;> rfl
  | @post n result x hn hx =>
    refine hc.setThread (n := n) (by simp [hn]) .unlocking rfl rfl rfl rfl ?_ ?_
    · simp only [System.refs, hx, hn, System.setThread, Shared.addRef, List.length_append,
        List.length_singleton, Thread.holds]
      omega
    · rintro _ ⟨⟩
      exact Nat.succ_pos _
  | @unlockThread n x hn hx =>
    refine hc.setThread (n := n) (by simp [hn]) .releasing rfl rfl rfl rfl ?_ ?_
    · simp only [System.refs, hx, hn]
      rfl
    · rintro _ ⟨⟩
      exact hc.positive x hx
  | @releaseThread n x hn hx =>
    have hpos := hc.positive x hx
    refine hc.setThread (n := n) (by simp [hn]) .finished rfl rfl rfl rfl ?_ ?_
    · have hrelease := Shared.refs_of_release (s := { s with shared := x.release }.setThread n
        .finished) hpos rfl
      have hbefore : s.refs = x.refs := by simp only [System.refs, hx]
      rw [hn, hbefore, ← hrelease]
      simp only [Thread.holds, System.setThread, Bool.toNat_true, Bool.toNat_false]
      omega
    · exact fun x' hx' => Shared.positive_of_release hpos hx'
  | @lockDeletion x hd hx hm =>
    refine hc.moved rfl rfl ?_ ?_
    · simp only [System.refs, hx]
    · rintro _ ⟨⟩
      exact hc.positive x hx
  | @mark x hd hx =>
    refine hc.moved rfl rfl ?_ ?_
    · simp only [System.refs, hx]
    · rintro _ ⟨⟩
      exact hc.positive x hx
  | @unlockDeletion x hd hx =>
    refine hc.moved rfl rfl ?_ ?_
    · simp only [System.refs, hx]
    · rintro _ ⟨⟩
      exact hc.positive x hx
  | @free x r hd hx hr =>
    have hpos := hc.positive x hx
    refine hc.moved rfl rfl ?_ fun x' hx' => Shared.positive_of_release hpos hx'
    have hrelease := Shared.refs_of_release (s := { s with
      shared := x.release, resolver := none, deleting := none }) hpos rfl
    have hbefore : s.refs = x.refs := by simp only [System.refs, hx]
    rw [hbefore, ← hrelease, hr]
    simp only [Option.isSome_some, Option.isSome_none, Bool.toNat_true, Bool.toNat_false]
    omega
  | @take n result queue hd ho hq =>
    refine hc.moved rfl rfl ?_ hc.positive
    simp only [System.refs, System.setOwner, hq, ho, Owner.holds, List.length_cons,
      Bool.toNat_true, Bool.toNat_false]
    omega
  | @lock n result x hd ho hx hm =>
    refine hc.moved rfl rfl ?_ ?_
    · simp only [System.refs, hx, ho, System.setOwner, Owner.holds]
    · rintro _ ⟨⟩
      exact hc.positive x hx
  | @test n result x hd ho hx =>
    refine hc.moved rfl rfl ?_ hc.positive
    simp only [System.refs, ho, System.setOwner, Owner.holds]
  | @unlock n result live x hd ho hx =>
    refine hc.moved rfl rfl ?_ ?_
    · simp only [System.refs, hx, ho, System.setOwner]
      cases live <;> rfl
    · rintro _ ⟨⟩
      exact hc.positive x hx
  | @signalDone n result r hd ho hr =>
    refine hc.moved rfl rfl ?_ hc.positive
    simp only [System.refs, hr, ho, System.setOwner, Owner.holds, Option.isSome_some]
  | @handled n r hd ho hr =>
    refine hc.moved (by simp [System.setOwner]) (by simp [System.setOwner]) ?_
      fun x hx => hc.positive x (by simpa [System.setOwner] using hx)
    simp [System.refs, hr, ho, System.setOwner, Owner.holds]
  | @release x hd ho hx =>
    have hpos := hc.positive x hx
    refine hc.moved rfl rfl ?_ fun x' hx' => Shared.positive_of_release hpos hx'
    have hrelease := Shared.refs_of_release (s := { s with shared := x.release }.setOwner .idle)
      hpos rfl
    have hbefore : s.refs = x.refs := by simp only [System.refs, hx]
    rw [hbefore, ← hrelease, ho]
    simp only [System.setOwner, Owner.holds, Bool.toNat_true, Bool.toNat_false]
    omega

/-! ## The mutex -/

/-- Whether a thread has the mutex. -/
def Thread.critical : Thread ι → Bool
  | .testing _ => true
  | .posting _ => true
  | .unlocking => true
  | _ => false

/-- Whether a task has the mutex. -/
def Owner.critical : Owner ι → Bool
  | .testing _ _ => true
  | .unlocking _ _ _ => true
  | _ => false

/-- Whether the destructor has the mutex. -/
def Deletion.critical : Deletion → Bool
  | .marking => true
  | .unlocking => true
  | _ => false

/-- Whether somebody is in a critical section. -/
def System.Critical (s : System ι) : Party → Prop
  | .owner => s.owner.critical = true ∨ ∃ d, s.deleting = some d ∧ d.critical = true
  | .thread n => (s.threads n).critical = true

/-- Whoever has the mutex is in a critical section. -/
def Exclusive (s : System ι) : Prop :=
  ∀ x p, s.shared = some x → x.mutex = some p → s.Critical p

theorem Shared.mutex_of_release {x x' : Shared} (h : x.release = some x') : x'.mutex = x.mutex := by
  rw [Shared.release] at h
  split at h
  · cases h
  · cases h
    rfl

/-- Somebody moves, and not out of a critical section. -/
theorem Exclusive.moved (he : Exclusive s)
    (hmutex : ∀ x', s'.shared = some x' → ∃ x, s.shared = some x ∧ x'.mutex = x.mutex)
    (hcritical : ∀ p, s.Critical p → s'.Critical p) : Exclusive s' := by
  intro x' p hx' hp
  obtain ⟨x, hx, heq⟩ := hmutex x' hx'
  exact hcritical p (he x p hx (heq ▸ hp))

/-- A thread moves, and not out of a critical section. -/
theorem Exclusive.setThread (he : Exclusive s) {n : ℕ} {t : Thread ι}
    (ht : (s.threads n).critical = true → t.critical = true) (howner : s'.owner = s.owner)
    (hdeleting : s'.deleting = s.deleting) (hthreads : s'.threads = Function.update s.threads n t)
    (hmutex : ∀ x', s'.shared = some x' → ∃ x, s.shared = some x ∧ x'.mutex = x.mutex) :
    Exclusive s' := by
  refine he.moved hmutex fun p hp => ?_
  cases p with
  | owner =>
    show s'.owner.critical = true ∨ _
    rw [howner, hdeleting]
    exact hp
  | thread m =>
    show (s'.threads m).critical = true
    rw [hthreads]
    by_cases hm : m = n
    · subst hm
      rw [Function.update_self]
      exact ht hp
    · rw [Function.update_of_ne hm]
      exact hp

/-- The queue moves, and not out of a critical section. -/
theorem Exclusive.setOwner (he : Exclusive s) (hd : s.deleting = none)
    (ho : s.owner.critical = true → s'.owner.critical = true) (hthreads : s'.threads = s.threads)
    (hmutex : ∀ x', s'.shared = some x' → ∃ x, s.shared = some x ∧ x'.mutex = x.mutex) :
    Exclusive s' := by
  refine he.moved hmutex fun p hp => ?_
  cases p with
  | owner =>
    rcases hp with hp | ⟨d, hd', -⟩
    · exact .inl (ho hp)
    · rw [hd] at hd'
      cases hd'
  | thread n =>
    show (s'.threads n).critical = true
    rw [hthreads]
    exact hp

/-- **One step**, of the mutex. -/
theorem Exclusive.step (he : Exclusive s) (hc : Counted s) (h : Step s a s' out) :
    Exclusive s' := by
  cases h with
  | @start x r hd ho hh hx hr =>
    refine he.setThread (n := s.starts) (fun hn => ?_) rfl rfl rfl fun x' hx' => ⟨x, hx, ?_⟩
    · rw [hc.fresh s.starts le_rfl] at hn
      cases hn
    · cases hx'
      rfl
  | destroy hd ho hh hr =>
    exact he.setOwner hd (by simp) (by simp) fun x' hx' => ⟨x', by simpa using hx', rfl⟩
  | @resolve n result hn =>
    exact he.setThread (by simp [hn, Thread.critical]) rfl rfl rfl fun x' hx' => ⟨x', hx', rfl⟩
  | @lockThread n result x hn hx hm =>
    rintro _ p ⟨⟩ ⟨⟩
    simp [System.Critical, System.setThread, Thread.critical]
  | @testThread n result x hn hx =>
    refine he.setThread (fun _ => ?_) rfl rfl rfl fun x' hx' => ⟨x', hx', rfl⟩
    split <;> rfl
  | @post n result x hn hx =>
    refine he.setThread (fun _ => rfl) rfl rfl rfl fun x' hx' => ⟨x, hx, ?_⟩
    cases hx'
    rfl
  | @unlockThread n x hn hx => rintro _ p ⟨⟩ ⟨⟩
  | @releaseThread n x hn hx =>
    exact he.setThread (by simp [hn, Thread.critical]) rfl rfl rfl
      fun x' hx' => ⟨x, hx, Shared.mutex_of_release hx'⟩
  | @lockDeletion x hd hx hm =>
    rintro _ p ⟨⟩ ⟨⟩
    exact .inr ⟨_, rfl, rfl⟩
  | @mark x hd hx =>
    refine he.moved (fun x' hx' => ⟨x, hx, by cases hx'; rfl⟩) fun p hp => ?_
    cases p with
    | owner => exact .inr ⟨_, rfl, rfl⟩
    | thread n => exact hp
  | @unlockDeletion x hd hx => rintro _ p ⟨⟩ ⟨⟩
  | @free x r hd hx hr =>
    refine he.moved (fun x' hx' => ⟨x, hx, Shared.mutex_of_release hx'⟩) fun p hp => ?_
    cases p with
    | owner =>
      rcases hp with hp | ⟨d, hd', hp⟩
      · exact .inl hp
      · rw [hd] at hd'
        cases hd'
        cases hp
    | thread n => exact hp
  | @take n result queue hd ho hq =>
    exact he.setOwner hd (by simp [ho, Owner.critical]) rfl fun x' hx' => ⟨x', hx', rfl⟩
  | @lock n result x hd ho hx hm =>
    rintro _ p ⟨⟩ ⟨⟩
    exact .inl rfl
  | @test n result x hd ho hx =>
    exact he.setOwner hd (fun _ => rfl) rfl fun x' hx' => ⟨x', hx', rfl⟩
  | @unlock n result live x hd ho hx => rintro _ p ⟨⟩ ⟨⟩
  | @signalDone n result r hd ho hr =>
    exact he.setOwner hd (by simp [ho, Owner.critical]) rfl fun x' hx' => ⟨x', hx', rfl⟩
  | @handled n r hd ho hr =>
    exact he.setOwner hd (by simp [ho, Owner.critical]) (by simp [System.setOwner])
      fun x' hx' => ⟨x', by simpa [System.setOwner] using hx', rfl⟩
  | @release x hd ho hx =>
    exact he.setOwner hd (by simp [ho, Owner.critical]) rfl
      fun x' hx' => ⟨x, hx, Shared.mutex_of_release hx'⟩

/-! ## The deletion comes to its end -/

/-- What is known of the state in every run. -/
structure Sound (s : System ι) : Prop where
  /-- What is known of the resolver. -/
  lifetime : Lifetime s
  /-- Every reference is counted. -/
  counted : Counted s
  /-- Whoever has the mutex is in a critical section. -/
  exclusive : Exclusive s

/-- Nothing is accessed that is gone. -/
theorem Sound.cases (hs : Sound s) (h : s.step a = some (s', out)) : Step s a s' out :=
  step_cases (hs.counted.present hs.lifetime) h

/-- **One step.** -/
theorem Sound.step (hs : Sound s) (h : s.step a = some (s', out)) : Sound s' :=
  ⟨hs.lifetime.step (hs.cases h), hs.counted.step (hs.cases h),
    hs.exclusive.step hs.counted (hs.cases h)⟩

theorem Sound.initial : Sound (System.initial : System ι) := by
  refine ⟨.initial, .initial, ?_⟩
  rintro _ p ⟨⟩ ⟨⟩

/-- A step of the queue or of a thread on its way to the queue. -/
def Action.own : Action ι → Bool
  | .goOn => true
  | .thread _ => true
  | _ => false

/-- The queue and the threads come to where the resolver is deleted, by steps of their own. -/
def Deletes (s : System ι) : Prop :=
  ∃ as s' out, (∀ a ∈ as, Action.own a = true) ∧ (machine ι).exec s as = some (s', out) ∧
    .deleted ∈ out

theorem Deletes.cons (ha : a.own = true) (h : s.step a = some (s', out)) (hd : Deletes s') :
    Deletes s := by
  obtain ⟨as, s₁, out₁, has, hex, hmem⟩ := hd
  refine ⟨a :: as, s₁, out ++ out₁, ?_, Machine.exec_cons.mpr ⟨s', out, out₁, h, hex, rfl⟩, ?_⟩
  · simpa [ha] using has
  · exact List.mem_append_right out hmem

theorem Sound.shared (hs : Sound s) {d : Deletion} (hd : s.deleting = some d) :
    ∃ x r, s.shared = some x ∧ s.resolver = some r := by
  have hp := hs.counted.present hs.lifetime
  obtain ⟨r, hr⟩ := hp.resolver_of_deleting hd
  obtain ⟨x, hx⟩ := hp.shared_of_resolver hr
  exact ⟨x, r, hx, hr⟩

theorem Sound.deletes_freeing (hs : Sound s) (hd : s.deleting = some .freeing) : Deletes s := by
  obtain ⟨x, r, hx, hr⟩ := hs.shared hd
  have hst : s.step .goOn = some ({ s with
      shared := x.release, resolver := none, deleting := none }, [.deleted]) := by
    simp only [System.step, hd, System.runDeletion, System.onShared_of_some hx,
      System.onResolver_of_some hr]
  exact ⟨[.goOn], _, [.deleted], by simp [Action.own],
    Machine.exec_cons.mpr ⟨_, _, [], hst, rfl, rfl⟩, List.mem_singleton_self _⟩

theorem Sound.deletes_unlocking (hs : Sound s) (hd : s.deleting = some .unlocking) :
    Deletes s := by
  obtain ⟨x, r, hx, hr⟩ := hs.shared hd
  have hst : s.step .goOn = some ({ s with
      shared := some { x with mutex := none }, deleting := some .freeing }, []) := by
    simp only [System.step, hd, System.runDeletion, System.unlock_of_some hx]
  exact .cons rfl hst ((hs.step hst).deletes_freeing rfl)

theorem Sound.deletes_marking (hs : Sound s) (hd : s.deleting = some .marking) : Deletes s := by
  obtain ⟨x, r, hx, hr⟩ := hs.shared hd
  have hst : s.step .goOn = some ({ s with
      shared := some { x with status := .kDead }, deleting := some .unlocking }, []) := by
    simp only [System.step, hd, System.runDeletion, System.onShared_of_some hx]
  exact .cons rfl hst ((hs.step hst).deletes_unlocking rfl)

/-- The destructor locks the mutex if it is free. -/
theorem Sound.deletes_free (hs : Sound s) (hd : s.deleting = some .locking) {x : Shared}
    (hx : s.shared = some x) (hm : x.mutex = none) : Deletes s := by
  have hst : s.step .goOn = some ({ s with
      shared := some { x with mutex := some .owner }, deleting := some .marking }, []) := by
    simp only [System.step, hd, System.runDeletion, System.lock_of_some hx, hm, if_true]
  exact .cons rfl hst ((hs.step hst).deletes_marking rfl)

theorem Sound.deletes_unlockingThread (hs : Sound s) (hd : s.deleting = some .locking) {n : ℕ}
    (hn : s.threads n = .unlocking) : Deletes s := by
  obtain ⟨x, r, hx, hr⟩ := hs.shared hd
  have hst : s.step (.thread n) = some (({ s with
      shared := some { x with mutex := none } } : System ι).setThread n .releasing, []) := by
    simp only [System.step, System.runThread, hn, System.unlock_of_some hx]
  exact .cons rfl hst ((hs.step hst).deletes_free hd rfl rfl)

theorem Sound.deletes_posting (hs : Sound s) (hd : s.deleting = some .locking) {n : ℕ}
    {result : Resolution ι} (hn : s.threads n = .posting result) : Deletes s := by
  obtain ⟨x, r, hx, hr⟩ := hs.shared hd
  have hst : s.step (.thread n) = some (({ s with
      shared := some x.addRef, queue := s.queue ++ [(n, result)] } : System ι).setThread n
        .unlocking, []) := by
    simp only [System.step, System.runThread, hn, System.onShared_of_some hx]
  exact .cons rfl hst ((hs.step hst).deletes_unlockingThread hd (Function.update_self _ _ _))

theorem Sound.deletes_testing (hs : Sound s) (hd : s.deleting = some .locking) {n : ℕ}
    {result : Resolution ι} (hn : s.threads n = .testing result) : Deletes s := by
  obtain ⟨x, r, hx, hr⟩ := hs.shared hd
  have hst : s.step (.thread n) = some (s.setThread n
      (if x.status = .kLive then .posting result else .unlocking), []) := by
    simp only [System.step, System.runThread, hn, System.onShared_of_some hx]
  refine .cons rfl hst ?_
  by_cases hlive : x.status = .kLive
  · have hposting : (s.setThread n (if x.status = .kLive then .posting result
        else .unlocking)).threads n = .posting result := by simp [System.setThread, hlive]
    exact (hs.step hst).deletes_posting hd hposting
  · exact (hs.step hst).deletes_unlockingThread hd (n := n) (by simp [System.setThread, hlive])

/-- **The deletion comes to its end**: nobody keeps the mutex from the destructor. -/
theorem Sound.deletes (hs : Sound s) {d : Deletion} (hd : s.deleting = some d) : Deletes s := by
  cases d with
  | freeing => exact hs.deletes_freeing hd
  | unlocking => exact hs.deletes_unlocking hd
  | marking => exact hs.deletes_marking hd
  | locking =>
    obtain ⟨x, r, hx, hr⟩ := hs.shared hd
    cases hm : x.mutex with
    | none => exact hs.deletes_free hd hx hm
    | some p =>
      have hcritical := hs.exclusive x p hx hm
      cases p with
      | owner =>
        -- between two tasks, or where a task ends, the queue is in no critical section
        obtain ⟨-, -, ho⟩ := hs.lifetime.deleting (by rw [hd]; rfl)
        rcases hcritical with hc | ⟨d, hd', hc⟩
        · rcases ho with ho | ho <;> rw [ho] at hc <;> cases hc
        · rw [hd] at hd'
          cases hd'
          cases hc
      | thread n =>
        cases hn : s.threads n <;> simp only [System.Critical, hn, Thread.critical] at hcritical
        case testing result => exact hs.deletes_testing hd hn
        case posting result => exact hs.deletes_posting hd hn
        case unlocking => exact hs.deletes_unlockingThread hd hn
        all_goals cases hcritical

/-- Once `Destroy` has been called the resolver is gone, or is deleted, if need be when the handler
that has called `Destroy` returns. -/
theorem Sound.deletes_of_destroyed (hs : Sound s) (hh : s.held = false)
    (hr : s.resolver.isSome = true) : Deletes s := by
  rcases hs.lifetime.kept hr with h | h | h
  · rw [hh] at h
    cases h
  · obtain ⟨d, hd⟩ := Option.isSome_iff_exists.mp h
    exact hs.deletes hd
  · obtain ⟨r, hr⟩ := Option.isSome_iff_exists.mp hr
    cases ho : s.owner <;> rw [ho] at h <;> try cases h
    rename_i n
    have hd : s.deleting = none := by
      by_contra hne
      obtain ⟨-, -, ho' | ho'⟩ := hs.lifetime.deleting (Option.isSome_iff_ne_none.mpr hne) <;>
        rw [ho] at ho' <;> cases ho'
    have hcheck : r.recursionCheck = false := by
      rw [hs.lifetime.recursion r hr, hh, Bool.and_false]
    have hst : s.step .goOn = some ((s.setOwner .releasing).maybeSelfDestruct r, []) := by
      simp only [System.step, hd, System.runOwner, ho, System.onResolver_of_some hr]
    refine .cons rfl hst ((hs.step hst).deletes (d := .locking) ?_)
    simp [System.maybeSelfDestruct, hcheck]

end AsyncResolver

end TQLib
