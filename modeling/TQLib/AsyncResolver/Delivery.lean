import TQLib.AsyncResolver.Lifecycle

/-!
# What a resolver delivers

What a thread has found is in one place at a time: with the thread, in a task that has been posted,
with the task that runs, or in the hands of the handlers of `SignalDone`. It may get lost on the
way, if the resolver is destroyed, and comes to the handlers at most once.

## Main results

* `Traced.step`, `Ordered.step` — one step, of what is on its way and of what may come after what
* `resolver_law` — `SignalDone` is emitted at most once for a `Start` and not after `Destroy`,
  nothing is accessed that is gone, and the resolver is deleted once, after `Destroy`
-/

namespace TQLib

namespace AsyncResolver

variable {ι : Type*} {h : List (Observation ι)} {s s' : System ι} {a : Action ι}
  {out : List (Observation ι)}

/-! ## On its way -/

/-- What a thread has found. -/
def Thread.result? : Thread ι → Option (Resolution ι)
  | .locking result => some result
  | .testing result => some result
  | .posting result => some result
  | _ => none

/-- One if a thread may yet post. -/
def Thread.pending : Thread ι → ℕ
  | .resolving => 1
  | .locking _ => 1
  | .testing _ => 1
  | .posting _ => 1
  | _ => 0

/-- What the task that runs may yet deliver. -/
def Owner.task? : Owner ι → Option (ℕ × Resolution ι)
  | .locking n result => some (n, result)
  | .testing n result => some (n, result)
  | .unlocking n result _ => some (n, result)
  | .resolveDone n result => some (n, result)
  | _ => none

/-- What has been posted and not delivered. -/
def System.tasks (s : System ι) : List (ℕ × Resolution ι) := s.owner.task?.toList ++ s.queue

/-- How many results of a `Start` are on their way. -/
def System.pending (s : System ι) (n : ℕ) : ℕ :=
  (s.threads n).pending + s.tasks.countP (fun t => t.1 = n)

/-- Whether an observation is that of a `Start`. -/
def Observation.starts (n : ℕ) : Observation ι → Bool
  | .start m => m = n
  | _ => false

/-- Whether an observation is the `SignalDone` of a `Start`. -/
def Observation.signals (n : ℕ) : Observation ι → Bool
  | .signalDone m _ => m = n
  | _ => false

section

variable (n m : ℕ) (result : Resolution ι)

@[simp] theorem starts_start : (.start m : Observation ι).starts n = decide (m = n) := rfl

@[simp] theorem starts_signalDone : (.signalDone m result : Observation ι).starts n = false := rfl

@[simp] theorem signals_start : (.start m : Observation ι).signals n = false := rfl

@[simp] theorem signals_signalDone :
    (.signalDone m result : Observation ι).signals n = decide (m = n) := rfl

end

/-- What has been found, after one more observation. -/
def Observation.found : Resolution ι → Observation ι → Resolution ι
  | _, .signalDone _ result => result
  | before, _ => before

/-- What `SignalDone` was last emitted with. -/
def found (h : List (Observation ι)) : Resolution ι := h.foldl Observation.found ⟨-1, []⟩

@[simp] theorem found_snoc (h : List (Observation ι)) (o : Observation ι) :
    found (h ++ [o]) = Observation.found (found h) o := by
  rw [found, List.foldl_append]
  rfl

/-- What `GetError` and `addresses` return. -/
def Resolver.result (r : Resolver ι) : Resolution ι := ⟨r.error, r.addresses⟩

/-- Where the results are. -/
structure Traced (h : List (Observation ι)) (s : System ι) : Prop where
  /-- How often `Start` has been called. -/
  starts : ∀ n, h.countP (·.starts n) = if n < s.starts then 1 else 0
  /-- A result is on its way or has been delivered, and not both. -/
  once : ∀ n, h.countP (·.signals n) + s.pending n ≤ h.countP (·.starts n)
  /-- A thread has what `ResolveHostname` has returned to it. -/
  threads : ∀ n result, (s.threads n).result? = some result → .resolved n result ∈ h
  /-- A task has what `ResolveHostname` has returned to its thread. -/
  tasks : ∀ n result, (n, result) ∈ s.tasks → .resolved n result ∈ h
  /-- And so has whoever is told by `SignalDone`. -/
  resolved : Along (fun h₁ o => ∀ n result, o = .signalDone n result → .resolved n result ∈ h₁) h
  /-- The resolver has what was delivered last. -/
  latest : ∀ r, s.resolver = some r → r.result = found h

/-- A step that shows nothing. -/
theorem Traced.moved (ht : Traced h s) (hstarts : s'.starts = s.starts)
    (hpending : ∀ n, s'.pending n ≤ s.pending n)
    (hthreads : ∀ n result, (s'.threads n).result? = some result →
      (s.threads n).result? = some result ∨ .resolved n result ∈ h)
    (htasks : ∀ n result, (n, result) ∈ s'.tasks →
      (n, result) ∈ s.tasks ∨ (s.threads n).result? = some result)
    (hresolver : ∀ r', s'.resolver = some r' → ∃ r, s.resolver = some r ∧ r'.result = r.result) :
    Traced h s' := by
  constructor
  · rw [hstarts]
    exact ht.starts
  · intro n
    exact le_trans (Nat.add_le_add_left (hpending n) _) (ht.once n)
  · intro n result hn
    rcases hthreads n result hn with hold | hold
    · exact ht.threads n result hold
    · exact hold
  · intro n result hn
    rcases htasks n result hn with hold | hold
    · exact ht.tasks n result hold
    · exact ht.threads n result hold
  · exact ht.resolved
  · intro r' hr'
    obtain ⟨r, hr, heq⟩ := hresolver r' hr'
    rw [heq]
    exact ht.latest r hr

/-- An observation other than a `Start` and a `SignalDone`. -/
theorem Traced.observe (ht : Traced h s) {o : Observation ι} (hstart : ∀ n, o.starts n = false)
    (hsignal : ∀ n, o.signals n = false) : Traced (h ++ [o]) s := by
  have hnot : ∀ n result, o ≠ .signalDone n result := by
    rintro n result rfl
    simpa [Observation.signals] using hsignal n
  constructor
  · intro n
    rw [List.countP_append, List.countP_singleton, hstart n]
    exact ht.starts n
  · intro n
    simpa [List.countP_append, List.countP_singleton, hstart n, hsignal n] using ht.once n
  · exact fun n result hn => List.mem_append_left _ (ht.threads n result hn)
  · exact fun n result hn => List.mem_append_left _ (ht.tasks n result hn)
  · exact ht.resolved.snoc fun n result heq => absurd heq (hnot n result)
  · intro r hr
    rw [found_snoc, ht.latest r hr]
    cases o with
    | signalDone n result => exact absurd rfl (hnot n result)
    | _ => rfl

/-- What one thread may yet post is nothing to the others. -/
theorem pending_setThread (s : System ι) (n : ℕ) (t : Thread ι) (m : ℕ) :
    (s.setThread n t).pending m + (if m = n then (s.threads n).pending else 0) =
      s.pending m + if m = n then t.pending else 0 := by
  by_cases hm : m = n
  · subst hm
    simp only [System.pending, System.setThread, System.tasks, Function.update_self, if_true]
    omega
  · simp [System.pending, System.setThread, System.tasks, hm]

/-- A thread that has nothing is not one that has a result. -/
theorem result_of_setThread {n m : ℕ} {t : Thread ι} {result : Resolution ι}
    (ht : t.result? = none) (hm : ((s.setThread n t).threads m).result? = some result) :
    (s.threads m).result? = some result := by
  change (Function.update s.threads n t m).result? = some result at hm
  by_cases hne : m = n
  · subst hne
    rw [Function.update_self, ht] at hm
    cases hm
  · rwa [Function.update_of_ne hne] at hm

/-- A thread moves that has nothing new. -/
theorem Traced.setThread (ht : Traced h s) {n : ℕ} {t : Thread ι}
    (hpending : t.pending ≤ (s.threads n).pending)
    (hresult : ∀ result, t.result? = some result →
      (s.threads n).result? = some result ∨ .resolved n result ∈ h)
    (shared : Option Shared) : Traced h ({ s with shared }.setThread n t) := by
  refine ht.moved rfl (fun m => ?_) (fun m result hm => ?_) (fun m result hm => .inl hm)
    fun r' hr' => ⟨r', hr', rfl⟩
  · have hcount := pending_setThread s n t m
    change (s.setThread n t).pending m ≤ _
    split at hcount <;> omega
  · change (Function.update s.threads n t m).result? = some result at hm
    by_cases hmn : m = n
    · subst hmn
      rw [Function.update_self] at hm
      exact hresult result hm
    · rw [Function.update_of_ne hmn] at hm
      exact .inl hm

/-- The queue moves, and delivers nothing. -/
theorem Traced.setOwner (ht : Traced h s) (hstarts : s'.starts = s.starts)
    (hthreads : s'.threads = s.threads) (hresolver : s'.resolver = s.resolver)
    (htasks : s'.tasks.Sublist s.tasks) : Traced h s' := by
  refine ht.moved hstarts (fun n => ?_) (fun n result hn => ?_) (fun n result hn => ?_)
    fun r' hr' => ⟨r', hresolver ▸ hr', rfl⟩
  · rw [System.pending, System.pending, hthreads]
    exact Nat.add_le_add_left htasks.countP_le _
  · rw [hthreads] at hn
    exact .inl hn
  · exact .inl (htasks.subset hn)

theorem result_maybeSelfDestruct {r r' : Resolver ι}
    (h : (s.maybeSelfDestruct r).resolver = some r') : r'.result = r.result := by
  rw [System.maybeSelfDestruct] at h
  split at h <;> cases h <;> rfl

theorem Traced.initial : Traced [] (System.initial : System ι) := by
  constructor
  · intro n
    simp [System.initial]
  · intro n
    simp [System.initial, System.pending, System.tasks, Thread.pending, Owner.task?]
  · intro n result hn
    cases hn
  · intro n result hn
    simp [System.initial, System.tasks, Owner.task?] at hn
  · exact .nil
  · rintro _ ⟨⟩
    rfl

/-- A thread begins that has nothing yet. -/
theorem Traced.start (ht : Traced h s) (hc : Counted s) (shared : Option Shared) :
    Traced (h ++ [.start s.starts])
      ({ s with shared, starts := s.starts + 1 }.setThread s.starts .resolving) := by
  have hfresh := hc.fresh s.starts le_rfl
  constructor
  · intro n
    rw [List.countP_append, ht.starts n]
    by_cases hn : s.starts = n
    · subst hn
      simp [System.setThread]
    · simp only [System.setThread, List.countP_singleton, starts_start, hn]
      split <;> simp <;> omega
  · intro n
    have hold := ht.once n
    have hcount := pending_setThread s s.starts .resolving n
    rw [hfresh] at hcount
    rw [List.countP_append, List.countP_append, List.countP_singleton, List.countP_singleton]
    change _ + (s.setThread s.starts .resolving).pending n ≤ _
    by_cases hn : s.starts = n
    · subst hn
      simp only [if_true, Thread.pending, signals_start, starts_start,
        Bool.false_eq_true, if_false, decide_true] at hcount ⊢
      omega
    · simp only [if_neg (Ne.symm hn), signals_start, starts_start, hn,
        Bool.false_eq_true, if_false, decide_false] at hcount ⊢
      omega
  · intro n result hn
    exact List.mem_append_left _ (ht.threads n result (result_of_setThread rfl hn))
  · exact fun n result hn => List.mem_append_left _ (ht.tasks n result hn)
  · exact ht.resolved.snoc fun n result heq => by cases heq
  · intro r' hr'
    rw [found_snoc]
    exact ht.latest r' hr'

/-- What a thread has goes to the queue. -/
theorem Traced.post (ht : Traced h s) {n : ℕ} {result : Resolution ι}
    (hn : s.threads n = .posting result) (shared : Option Shared) :
    Traced h ({ s with shared, queue := s.queue ++ [(n, result)] }.setThread n .unlocking) := by
  refine ht.moved rfl (fun m => ?_) (fun m r hm => .inl ?_) (fun m r hm => ?_)
    fun r' hr' => ⟨r', hr', rfl⟩
  · have hcount := pending_setThread s n .unlocking m
    have htasks : System.pending
        (({ s with shared, queue := s.queue ++ [(n, result)] } : System ι).setThread n
          .unlocking) m =
        (s.setThread n .unlocking).pending m + if m = n then 1 else 0 := by
      simp only [System.pending, System.tasks, System.setThread, List.countP_append,
        List.countP_singleton, decide_eq_true_eq, eq_comm (a := n)]
      omega
    rw [htasks]
    rw [hn] at hcount
    simp only [Thread.pending, ite_self, Nat.add_zero] at hcount
    exact hcount.le
  · exact result_of_setThread rfl hm
  · simp only [System.tasks, System.setThread, ← List.append_assoc, List.mem_append,
      List.mem_singleton, Prod.mk.injEq] at hm
    rcases hm with hm | ⟨rfl, rfl⟩
    · exact .inl (List.mem_append.mpr hm)
    · exact .inr (by rw [hn]; rfl)

/-- What the queue has is delivered. -/
theorem Traced.signalDone (ht : Traced h s) {n : ℕ} {result : Resolution ι}
    (ho : s.owner = .resolveDone n result) (r : Resolver ι) :
    Traced (h ++ [.signalDone n result])
      ({ s with resolver := some (r.resolveDone result) }.setOwner (.handling n)) := by
  have htasks : s.tasks = (n, result) :: s.queue := by simp [System.tasks, ho, Owner.task?]
  constructor
  · intro m
    rw [List.countP_append, List.countP_singleton]
    exact ht.starts m
  · intro m
    have hold := ht.once m
    rw [List.countP_append, List.countP_append, List.countP_singleton, List.countP_singleton]
    simp only [System.pending, htasks, List.countP_cons, decide_eq_true_eq] at hold
    simp only [System.pending, System.tasks, System.setOwner, Owner.task?, Option.toList_none,
      List.nil_append, signals_signalDone, starts_signalDone, decide_eq_true_eq,
      Bool.false_eq_true, if_false]
    omega
  · exact fun m r hm => List.mem_append_left _ (ht.threads m r hm)
  · intro m r hm
    refine List.mem_append_left _ (ht.tasks m r ?_)
    rw [htasks]
    exact List.mem_cons_of_mem _ hm
  · refine ht.resolved.snoc ?_
    rintro m r ⟨⟩
    exact ht.tasks n result (by rw [htasks]; exact List.mem_cons_self)
  · rintro _ ⟨⟩
    rw [found_snoc]
    rfl

/-- **One step**, of what is on its way. -/
theorem Traced.step (ht : Traced h s) (hs : Sound s) (hst : Step s a s' out) :
    Traced (h ++ out) s' := by
  cases hst with
  | @start x r hd ho hh hx hr => exact ht.start hs.counted _
  | @destroy r hd ho hh hr =>
    have hmoved : Traced h ({ s with held := false }.maybeSelfDestruct
        { r with destroyCalled := true }) := by
      refine ht.moved (by simp) (fun n => ?_) (fun n result hn => .inl (by simpa using hn))
        (fun n result hn => .inl (by simpa [System.tasks] using hn)) fun r' hr' => ?_
      · simp [System.pending, System.tasks]
      · exact ⟨r, hr, (result_maybeSelfDestruct hr').trans rfl⟩
    exact hmoved.observe (fun _ => rfl) fun _ => rfl
  | @resolve n result hn =>
    have hobserve : Traced (h ++ [.resolved n result]) s := ht.observe (fun _ => rfl) fun _ => rfl
    refine hobserve.setThread ?_ (fun r hr => .inr ?_) s.shared
    · rw [hn]
      exact le_rfl
    · obtain rfl : result = r := by simpa [Thread.result?] using hr
      simp
  | @lockThread n result x hn hx hm =>
    rw [List.append_nil]
    refine ht.setThread (by simp [hn, Thread.pending]) (fun r hr => .inl ?_) _
    rwa [hn]
  | @testThread n result x hn hx =>
    rw [List.append_nil]
    refine ht.setThread ?_ (fun r hr => .inl ?_) s.shared
    · rw [hn]
      split <;> simp [Thread.pending]
    · rw [hn]
      split at hr
      · exact hr
      · cases hr
  | @post n result x hn hx =>
    rw [List.append_nil]
    exact ht.post hn _
  | @unlockThread n x hn hx =>
    rw [List.append_nil]
    exact ht.setThread (Nat.zero_le _) (fun r hr => by cases hr) _
  | @releaseThread n x hn hx =>
    rw [List.append_nil]
    exact ht.setThread (Nat.zero_le _) (fun r hr => by cases hr) _
  | lockDeletion hd hx hm =>
    rw [List.append_nil]
    exact ht.setOwner rfl rfl rfl (List.Sublist.refl _)
  | mark hd hx =>
    rw [List.append_nil]
    exact ht.setOwner rfl rfl rfl (List.Sublist.refl _)
  | unlockDeletion hd hx =>
    rw [List.append_nil]
    exact ht.setOwner rfl rfl rfl (List.Sublist.refl _)
  | @free x r hd hx hr =>
    have hmoved : Traced h
        { s with shared := x.release, resolver := none, deleting := none } := by
      refine ht.moved rfl (fun n => le_rfl) (fun n result hn => .inl hn)
        (fun n result hn => .inl hn) fun r' hr' => ?_
      cases hr'
    exact hmoved.observe (fun _ => rfl) fun _ => rfl
  | @take n result queue hd ho hq =>
    rw [List.append_nil]
    refine ht.setOwner rfl rfl rfl ?_
    simp [System.tasks, System.setOwner, ho, hq, Owner.task?]
  | @lock n result x hd ho hx hm =>
    rw [List.append_nil]
    refine ht.setOwner rfl rfl rfl ?_
    simp [System.tasks, System.setOwner, ho, Owner.task?]
  | @test n result x hd ho hx =>
    rw [List.append_nil]
    refine ht.setOwner rfl rfl rfl ?_
    simp [System.tasks, System.setOwner, ho, Owner.task?]
  | @unlock n result live x hd ho hx =>
    rw [List.append_nil]
    refine ht.setOwner rfl rfl rfl ?_
    cases live <;> simp [System.tasks, System.setOwner, ho, Owner.task?]
  | @signalDone n result r hd ho hr => exact ht.signalDone ho r
  | @handled n r hd ho hr =>
    rw [List.append_nil]
    refine ht.moved (by simp [System.setOwner]) (fun n => ?_) (fun n result hn => .inl ?_)
      (fun n result hn => .inl ?_) fun r' hr' => ⟨r, hr, result_maybeSelfDestruct hr'⟩
    · simp [System.pending, System.tasks, System.setOwner, ho, Owner.task?]
    · simpa [System.setOwner] using hn
    · simpa [System.tasks, System.setOwner, ho, Owner.task?] using hn
  | @release x hd ho hx =>
    rw [List.append_nil]
    refine ht.setOwner rfl rfl rfl ?_
    simp [System.tasks, System.setOwner, ho, Owner.task?]

/-! ## What comes after what -/

/-- What comes after what. -/
structure Ordered (h : List (Observation ι)) (s : System ι) : Prop where
  /-- The resolver is held until `Destroy` is called, -/
  destroyed : s.held = true ↔ ∀ b, .destroy b ∉ h
  /-- and there until it is deleted. -/
  deleted : s.resolver.isSome = true ↔ .deleted ∉ h
  /-- `SignalDone` is not emitted after `Destroy`. -/
  quiet : Along (fun h₁ o => ∀ n result, o = .signalDone n result → ∀ b, .destroy b ∉ h₁) h
  /-- The resolver is deleted once, after `Destroy`. -/
  once : Along (fun h₁ o => o = .deleted → (∃ b, .destroy b ∈ h₁) ∧ .deleted ∉ h₁) h
  /-- Nothing is accessed that is gone. -/
  safe : .useAfterFree ∉ h

/-- A step that shows nothing. -/
theorem Ordered.moved (ho : Ordered h s) (hheld : s'.held = s.held)
    (hresolver : s'.resolver.isSome = s.resolver.isSome) : Ordered h s' :=
  ⟨hheld ▸ ho.destroyed, hresolver ▸ ho.deleted, ho.quiet, ho.once, ho.safe⟩

/-- A step whose observation says nothing of `Destroy` and the destructor. -/
theorem Ordered.observe (ho : Ordered h s) (hheld : s'.held = s.held)
    (hresolver : s'.resolver.isSome = s.resolver.isSome) {o : Observation ι}
    (hdestroy : ∀ b, o ≠ .destroy b) (hdeleted : o ≠ .deleted) (hsafe : o ≠ .useAfterFree)
    (hquiet : ∀ n result, o = .signalDone n result → s.held = true) : Ordered (h ++ [o]) s' := by
  constructor
  · rw [hheld]
    simpa [Ne.symm (hdestroy _)] using ho.destroyed
  · rw [hresolver]
    simpa [Ne.symm hdeleted] using ho.deleted
  · exact ho.quiet.snoc fun n result heq => ho.destroyed.mp (hquiet n result heq)
  · exact ho.once.snoc fun heq => absurd heq hdeleted
  · simpa [Ne.symm hsafe] using ho.safe

theorem Ordered.initial : Ordered [] (System.initial : System ι) := by
  constructor
  · simp [System.initial]
  · simp [System.initial]
  · exact .nil
  · exact .nil
  · simp

/-- **One step**, of what comes after what. -/
theorem Ordered.step (ho : Ordered h s) (hs : Sound s) (hst : Step s a s' out) :
    Ordered (h ++ out) s' := by
  cases hst with
  | start hd hothers hh hx hr =>
    apply ho.observe
    · rfl
    · rfl
    all_goals simp
  | @destroy r hd hothers hh hr =>
    have hthere : .deleted ∉ h := ho.deleted.mp (by rw [hr]; rfl)
    constructor
    · have hmem : .destroy s.owner.inside ∈ h ++ [.destroy s.owner.inside] := by simp
      simp only [System.maybeSelfDestruct_held, Bool.false_eq_true, false_iff]
      exact fun hnone => hnone _ hmem
    · simpa using hthere
    · exact ho.quiet.snoc fun n result heq => by cases heq
    · exact ho.once.snoc fun heq => by cases heq
    · simpa using ho.safe
  | @resolve n result hn =>
    apply ho.observe
    · rfl
    · rfl
    all_goals simp
  | @free x r hd hx hr =>
    obtain ⟨-, hheld, -⟩ := hs.lifetime.deleting (by rw [hd]; rfl)
    constructor
    · simpa using ho.destroyed
    · simp
    · exact ho.quiet.snoc fun n result heq => by cases heq
    · refine ho.once.snoc fun _ => ⟨?_, ho.deleted.mp (by rw [hr]; rfl)⟩
      by_contra hnone
      rw [ho.destroyed.mpr (not_exists.mp hnone)] at hheld
      cases hheld
    · simpa using ho.safe
  | @signalDone n result r hd howner hr =>
    obtain ⟨hheld, -⟩ := hs.lifetime.held (by rw [howner]; rfl) (by rw [howner]; rfl)
    apply ho.observe
    · rfl
    · rw [hr]
      rfl
    · simp
    · simp
    · simp
    · exact fun _ _ _ => hheld
  | @handled n r hd howner hr =>
    rw [List.append_nil]
    exact ho.moved (by simp [System.setOwner]) (by simp [hr])
  | _ =>
    rw [List.append_nil]
    exact ho.moved rfl rfl

/-! ## The law -/

/-- What is promised of a resolver. -/
structure ResolverLaw (h : List (Observation ι)) (s : System ι) : Prop where
  /-- `SignalDone` is emitted at most once for a `Start`, -/
  once : ∀ n, h.countP (·.signals n) ≤ h.countP (·.starts n) ∧ h.countP (·.starts n) ≤ 1
  /-- with what `ResolveHostname` has returned to its thread, -/
  resolved : ∀ h₁ n result h₂, h = h₁ ++ .signalDone n result :: h₂ → .resolved n result ∈ h₁
  /-- and which the resolver has from then on. -/
  latest : ∀ r, s.resolver = some r → r.result = found h
  /-- It is not emitted any more once `Destroy` has been called, be it from a handler or not. -/
  quiet : ∀ h₁ inside h₂, h = h₁ ++ .destroy inside :: h₂ → ∀ n result, .signalDone n result ∉ h₂
  /-- Neither the resolver nor the `State` is accessed when it is gone. -/
  safe : .useAfterFree ∉ h
  /-- The resolver is deleted at most once, after `Destroy` has been called, -/
  deleted : ∀ h₁ h₂, h = h₁ ++ .deleted :: h₂ →
    (∃ inside, .destroy inside ∈ h₁) ∧ .deleted ∉ h₁ ∧ .deleted ∉ h₂
  /-- it has been by the time neither the destructor nor a handler runs, -/
  settled : ∀ inside, .destroy inside ∈ h → s.deleting = none → s.owner.inside = false →
    .deleted ∈ h
  /-- and it comes to that by steps of the queue and of threads that are about to post. -/
  deletes : ∀ inside, .destroy inside ∈ h → .deleted ∈ h ∨ Deletes s
  /-- The `State` is there as long as anybody has a reference to it. -/
  shared : s.shared = none ↔ s.resolver = none ∧ (∀ n, (s.threads n).holds = false) ∧
    s.queue = [] ∧ s.owner.holds = false

/-- What holds in every run. -/
structure Inv (h : List (Observation ι)) (s : System ι) : Prop where
  /-- What is known of the state. -/
  sound : Sound s
  /-- Where the results are. -/
  traced : Traced h s
  /-- What comes after what. -/
  ordered : Ordered h s

theorem inv_of_reaches (hr : (machine ι).Reaches h s) : Inv h s := by
  refine hr.induction Inv (fun _ hs => hs ▸ ⟨.initial, .initial, .initial⟩) ?_
  rintro h s a s' out ⟨hs, ht, ho⟩ - hst
  exact ⟨hs.step hst, ht.step hs (hs.cases hst), ho.step hs (hs.cases hst)⟩

theorem Sound.shared_eq_none (hs : Sound s) (hresolver : s.resolver = none)
    (hthreads : ∀ n, (s.threads n).holds = false) (hqueue : s.queue = [])
    (howner : s.owner.holds = false) : s.shared = none := by
  have hempty : running s.threads = ∅ := by
    ext n
    simp [running, hthreads n]
  have hrefs := hs.counted.refs
  simp only [System.holders, hresolver, hempty, hqueue, howner, Option.isSome_none,
    Bool.toNat_false, Set.ncard_empty, List.length_nil, Nat.add_zero] at hrefs
  by_contra hsome
  obtain ⟨x, hx⟩ := Option.ne_none_iff_exists'.mp hsome
  have hpos := hs.counted.positive x hx
  simp only [System.refs, hx] at hrefs
  omega

/-- **The resolver law.** In every run, `SignalDone` is emitted at most once for a `Start` and not
after `Destroy`, nothing is accessed that is gone, and the resolver is deleted once, after
`Destroy`. -/
theorem resolver_law (hr : (machine ι).Reaches h s) : ResolverLaw h s := by
  obtain ⟨hs, ht, ho⟩ := inv_of_reaches hr
  have hheld : ∀ inside, .destroy inside ∈ h → s.held = false := by
    intro inside hmem
    by_contra hne
    exact ho.destroyed.mp (by simpa using hne) inside hmem
  constructor
  case once =>
    intro n
    refine ⟨le_trans (Nat.le_add_right _ _) (ht.once n), ?_⟩
    rw [ht.starts n]
    split <;> omega
  case resolved => exact fun h₁ n result h₂ heq => ht.resolved h₁ _ h₂ heq n result rfl
  case latest => exact ht.latest
  case quiet =>
    rintro h₁ inside h₂ rfl n result hmem
    obtain ⟨h₃, h₄, rfl⟩ := List.append_of_mem hmem
    refine ho.quiet (h₁ ++ .destroy inside :: h₃) _ h₄ (by simp) n result rfl inside ?_
    simp
  case safe => exact ho.safe
  case deleted =>
    rintro h₁ h₂ rfl
    obtain ⟨hdestroy, hbefore⟩ := ho.once h₁ _ h₂ rfl rfl
    refine ⟨hdestroy, hbefore, fun hmem => ?_⟩
    obtain ⟨h₃, h₄, rfl⟩ := List.append_of_mem hmem
    refine (ho.once (h₁ ++ .deleted :: h₃) _ h₄ (by simp) rfl).2 ?_
    simp
  case settled =>
    intro inside hmem hd hi
    by_contra hnot
    rcases hs.lifetime.kept (ho.deleted.mpr hnot) with hk | hk | hk
    · rw [hheld inside hmem] at hk
      cases hk
    · rw [hd] at hk
      cases hk
    · rw [hi] at hk
      cases hk
  case deletes =>
    intro inside hmem
    by_cases hdel : .deleted ∈ h
    · exact .inl hdel
    · exact .inr (hs.deletes_of_destroyed (hheld inside hmem) (ho.deleted.mpr hdel))
  case shared =>
    refine ⟨(hs.counted.present hs.lifetime).shared, ?_⟩
    rintro ⟨hresolver, hthreads, hqueue, howner⟩
    exact hs.shared_eq_none hresolver hthreads hqueue howner

/-- The law at work: two names are asked for, the handler of the first answer calls `Destroy`, and
the second thread comes to post before the destructor has the mutex. -/
theorem resolver_law_run : ∃ s : System ℕ,
    (machine ℕ).exec .initial
      [.start, .start, .resolve 0 ⟨0, [7]⟩, .thread 0, .thread 0, .thread 0, .thread 0, .goOn,
        .goOn, .goOn, .goOn, .goOn, .resolve 1 ⟨0, [8]⟩, .thread 1, .thread 1, .destroy, .goOn,
        .thread 1, .thread 1, .thread 1, .goOn, .goOn, .goOn, .goOn, .goOn, .goOn, .goOn, .goOn,
        .goOn, .goOn, .thread 0] =
      some (s, [.start 0, .start 1, .resolved 0 ⟨0, [7]⟩, .signalDone 0 ⟨0, [7]⟩,
        .resolved 1 ⟨0, [8]⟩, .destroy true, .deleted]) ∧
    ResolverLaw [.start 0, .start 1, .resolved 0 ⟨0, [7]⟩, .signalDone 0 ⟨0, [7]⟩,
      .resolved 1 ⟨0, [8]⟩, .destroy true, .deleted] s := by
  obtain ⟨s, hex⟩ : ∃ s : System ℕ, (machine ℕ).exec .initial
      [.start, .start, .resolve 0 ⟨0, [7]⟩, .thread 0, .thread 0, .thread 0, .thread 0, .goOn,
        .goOn, .goOn, .goOn, .goOn, .resolve 1 ⟨0, [8]⟩, .thread 1, .thread 1, .destroy, .goOn,
        .thread 1, .thread 1, .thread 1, .goOn, .goOn, .goOn, .goOn, .goOn, .goOn, .goOn, .goOn,
        .goOn, .goOn, .thread 0] =
      some (s, [.start 0, .start 1, .resolved 0 ⟨0, [7]⟩, .signalDone 0 ⟨0, [7]⟩,
        .resolved 1 ⟨0, [8]⟩, .destroy true, .deleted]) := ⟨_, rfl⟩
  exact ⟨s, hex, resolver_law (.of_exec rfl hex)⟩

end AsyncResolver

end TQLib
