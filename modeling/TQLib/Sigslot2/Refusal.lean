import TQLib.Sigslot2.Clone

/-!
# Connects that are refused

`connect` returns `nullptr` for two reasons: the connection would not be the only one of a signal
that is unique, or is to be so, and the type asks for a thread where there is none. Between the two
tests `m_unique` is written. Where a call passes the first test because the list is empty and fails
the second, the signal is unique from then on, though nothing is connected to it.

Whether that matters is a question about two runs, one with the call and one without, and about
whatever is done later in both.

## Main results

* `refused_iff` — which refused calls change nothing, and which later calls notice
* `refused_but_unique` — a function that cannot be connected any more
-/

namespace TQLib

namespace Sigslot2

variable {θ ς ρ φ : Type*}

/-- A call of `connect`. A member function is connected with no receiver if one of the pointers is
null. -/
inductive ConnectCall (θ ς ρ : Type*)
  | func (g : ς) (type : UInt32) (thread : Option θ)
  | method (g : ς) (receiver : Option ρ) (type : UInt32) (thread : Option θ)

/-- The call passes the test for uniqueness with an empty list and then fails `isValid`. -/
def ConnectCall.Sticks (o : Objects θ ς ρ) : ConnectCall θ ς ρ → Prop
  | .method g (some _) type thread => type &&& UniqueConnection ≠ 0 ∧
      (o.signals g).unique = false ∧ (o.signals g).connectionList = [] ∧
      Signal.isValid type thread = false
  | _ => False

/-- What may be done later. -/
inductive Later (θ ς ρ : Type*)
  | connect (c : ConnectCall θ ς ρ)
  | emission (g : ς) (current : θ)
  | operation (op : Operation θ ς ρ)

variable [DecidableEq θ] [DecidableEq ς] [DecidableEq ρ]

/-- `Signal::connect`, and the connection it returns. -/
def Objects.call (o : Objects θ ς ρ) : ConnectCall θ ς ρ → Objects θ ς ρ × Option ℕ
  | .func g type thread => (o.setSignal g ((o.signals g).connectFunc type thread).1,
      ((o.signals g).connectFunc type thread).2)
  | .method _ none _ _ => (o, none)
  | .method g (some r) type thread => (o.connect g r type thread,
      ((o.signals g).connect r type thread).2)

/-- What is seen of later calls: the connection that a `connect` returns, and what an emission
invokes. -/
def Objects.outcomes (o : Objects θ ς ρ) (slot : ς → ℕ → φ) :
    List (Later θ ς ρ) → List (Option ℕ × List (φ × Option ρ × UInt32 × Option θ))
  | [] => []
  | .connect c :: later => ((o.call c).2, []) :: (o.call c).1.outcomes slot later
  | .emission g current :: later =>
    (none, o.invokes current (o.signals g) (slot g)) :: o.outcomes slot later
  | .operation op :: later => ((o.perform op).getD o).outcomes slot later

/-- Nothing that `connect` looks at or writes has changed. -/
structure Objects.Unchanged (o o' : Objects θ ς ρ) : Prop where
  list : ∀ g, (o'.signals g).connectionList = (o.signals g).connectionList
  unique : ∀ g, (o'.signals g).unique = (o.signals g).unique
  senderList : ∀ r, o'.senderList r = o.senderList r

variable {o : Objects θ ς ρ} {c : ConnectCall θ ς ρ}

omit [DecidableEq θ] [DecidableEq ς] [DecidableEq ρ] in
/-- What the call does to the signal if it is refused. -/
theorem connect_refused {s : Signal θ ρ} {r : ρ} {type : UInt32} {thread : Option θ}
    (h : (s.connect r type thread).2 = none) :
    (s.connect r type thread).1 = { s with
      unique := s.unique || (type &&& UniqueConnection != 0 && s.connectionList.isEmpty) } ∧
    (s.connectionList = [] → Signal.isValid type thread = false) := by
  have hlength : decide (s.connectionList.length > 0) = !s.connectionList.isEmpty := by
    cases s.connectionList <;> rfl
  obtain ⟨connections, created, list, iterator, unique⟩ := s
  simp only [Signal.connect, hlength] at h ⊢
  split at h
  · rename_i hunique
    rw [if_pos hunique]
    cases unique <;> cases list <;> simp_all
  · rename_i hunique
    rw [if_neg hunique]
    split at h
    · rename_i hvalid
      rw [if_pos hvalid]
      cases unique <;> cases list <;> simp_all
    · cases h

omit [DecidableEq θ] in
/-- A refused call that does not stick has done nothing. -/
theorem call_eq_self (h : (o.call c).2 = none) (hc : ¬ c.Sticks o) : (o.call c).1 = o := by
  have hset : ∀ {g : ς} {s : Signal θ ρ}, s = o.signals g → o.setSignal g s = o := by
    rintro g _ rfl
    rw [Objects.setSignal, Function.update_eq_self]
  cases c with
  | func g type thread =>
    refine hset ?_
    have hrefused : ((o.signals g).connectFunc type thread).2 = none := h
    simp only [Signal.connectFunc] at hrefused ⊢
    split
    · rfl
    · rename_i hunique
      have hsame : (type &&& UniqueConnection != 0 || (o.signals g).unique) =
          (o.signals g).unique := by
        rw [Bool.not_eq_true, Bool.or_eq_false_iff] at hunique
        rw [hunique.1, Bool.false_or]
      rw [if_neg hunique] at hrefused
      split
      · rw [hsame]
      · rename_i hvalid
        rw [if_neg hvalid] at hrefused
        cases hrefused
  | method g receiver type thread =>
    cases receiver with
    | none => rfl
    | some r =>
      have hrefused : ((o.signals g).connect r type thread).2 = none := h
      have hcall : (o.call (.method g (some r) type thread)).1 =
          o.setSignal g ((o.signals g).connect r type thread).1 := by
        show o.connect g r type thread = _
        rw [Objects.connect]
        split <;> rename_i heq
        · rw [heq]
        · rw [heq] at hrefused
          cases hrefused
      rw [hcall]
      refine hset ?_
      obtain ⟨hsignal, hvalid⟩ := connect_refused hrefused
      rw [hsignal]
      have hsame : ((o.signals g).unique ||
          (type &&& UniqueConnection != 0 && (o.signals g).connectionList.isEmpty)) =
            (o.signals g).unique := by
        by_contra hne
        have hunique : (o.signals g).unique = false := by
          cases hu : (o.signals g).unique
          · rfl
          · simp [hu] at hne
        rw [hunique, Bool.false_or, Bool.not_eq_false, Bool.and_eq_true, List.isEmpty_iff,
          bne_iff_ne] at hne
        exact hc ⟨hne.1, hunique, hne.2, hvalid hne.2⟩
      rw [hsame]

omit [DecidableEq θ] in
/-- A call that sticks is refused and leaves the signal unique. -/
theorem call_sticks {g : ς} {r : ρ} {type : UInt32} {thread : Option θ}
    (hc : ConnectCall.Sticks o (.method g (some r) type thread)) :
    ((o.call (.method g (some r) type thread)).1.signals g).unique = true := by
  obtain ⟨hflag, hunique, hnil, hvalid⟩ := hc
  have hconnect : (o.signals g).connect r type thread =
      ({ o.signals g with unique := true }, none) := by
    have hflag' : (type &&& UniqueConnection != 0) = true := by simpa using hflag
    simp [Signal.connect, hflag', hnil, hvalid]
  show ((o.connect g r type thread).signals g).unique = true
  rw [Objects.connect, hconnect]
  show ((o.setSignal g _).signals g).unique = true
  rw [Objects.signals_setSignal_self]

/-- **A refused call changes nothing** exactly if it does not stick, and then nothing that is done
later notices that it was made. If it does, a function that is connected later does. -/
theorem refused_iff (slot : ς → ℕ → φ) (h : (o.call c).2 = none) :
    (o.Unchanged (o.call c).1 ↔ ¬ c.Sticks o) ∧
    ((∀ later, (o.call c).1.outcomes slot later = o.outcomes slot later) ↔ ¬ c.Sticks o) := by
  have hsticks : c.Sticks o → ∃ g, (o.signals g).unique = false ∧
      ((o.call c).1.signals g).unique = true := by
    intro hc
    cases c with
    | func => exact hc.elim
    | method g receiver type thread =>
      cases receiver with
      | none => exact hc.elim
      | some r => exact ⟨g, hc.2.1, call_sticks hc⟩
  constructor
  · refine ⟨fun hsame hc => ?_, fun hc => ?_⟩
    · obtain ⟨g, hfalse, htrue⟩ := hsticks hc
      rw [hsame.unique, hfalse] at htrue
      cases htrue
    · rw [call_eq_self h hc]
      exact ⟨fun _ => rfl, fun _ => rfl, fun _ => rfl⟩
  · refine ⟨fun hsame hc => ?_, fun hc later => by rw [call_eq_self h hc]⟩
    obtain ⟨g, hfalse, htrue⟩ := hsticks hc
    have hlater : (((o.call c).1.signals g).connectFunc DirectConnection none).2 =
        ((o.signals g).connectFunc DirectConnection none).2 :=
      congrArg Prod.fst (List.cons.inj (hsame [.connect (.func g DirectConnection none)])).1
    have hone := accepts_func (o.signals g)
    have htwo := accepts_func ((o.call c).1.signals g)
    rw [hfalse] at hone
    rw [htrue] at htwo
    simp only [Signal.accepts, Signal.connecting, List.cons.injEq, and_true] at hone htwo
    rw [hlater, hone] at htwo
    cases htwo

/-- A unique connection refused because there is another. -/
theorem refused_iff_run : ∃ o : Objects Unit Unit Unit, (operations Unit Unit Unit).Reaches [] o ∧
    (o.call (.method () (some ()) UniqueConnection none)).2 = none ∧
    ∀ later, (o.call (.method () (some ()) UniqueConnection none)).1.outcomes (fun _ n => n) later =
      o.outcomes (fun _ n => n) later := by
  obtain ⟨o, hex, hrefused, hnil⟩ : ∃ o, (operations Unit Unit Unit).exec Objects.initial
      [.connect () () AutoConnection none] = some (o, []) ∧
      (o.call (.method () (some ()) UniqueConnection none)).2 = none ∧
      (o.signals ()).connectionList ≠ [] :=
    ⟨_, rfl, rfl, by decide⟩
  have hr := Machine.Reaches.of_exec rfl hex
  exact ⟨o, hr, hrefused, (refused_iff _ hrefused).2.mpr fun hc => hnil hc.2.2.1⟩

/-- **A refused call may leave its mark**: a unique queued connection without a thread is refused,
and no function can be connected after it. -/
theorem refused_but_unique : ∃ o : Objects Unit Unit Unit,
    (operations Unit Unit Unit).Reaches [] o ∧
    (o.call (.method () (some ()) (QueuedConnection ||| UniqueConnection) none)).2 = none ∧
    (o.call (.func () DirectConnection none)).2 = some 0 ∧
    ((o.call (.method () (some ()) (QueuedConnection ||| UniqueConnection) none)).1.call
      (.func () DirectConnection none)).2 = none := by
  obtain ⟨o, hex, hrefused, hbefore, hafter⟩ : ∃ o, (operations Unit Unit Unit).exec
      Objects.initial [] = some (o, []) ∧
      (o.call (.method () (some ()) (QueuedConnection ||| UniqueConnection) none)).2 = none ∧
      (o.call (.func () DirectConnection none)).2 = some 0 ∧
      ((o.call (.method () (some ()) (QueuedConnection ||| UniqueConnection) none)).1.call
        (.func () DirectConnection none)).2 = none :=
    ⟨_, rfl, rfl, rfl, rfl⟩
  exact ⟨o, .of_exec rfl hex, hrefused, hbefore, hafter⟩

end Sigslot2

end TQLib
