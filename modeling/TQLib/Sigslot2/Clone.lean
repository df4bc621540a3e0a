import TQLib.Sigslot2.Disconnect

/-!
# Clones

There are two kinds of clones, and `Connection::clone` serves both. A receiver is cloned by a
derived class, which then calls `buildConnections4` so that the clone is connected to whatever the
receiver is connected to. A signal is cloned when it is copied, and the copy is to call what the
signal calls.

`Connection::clone` replaces the receiver and keeps everything else, so the object that `m_method`
has captured stays. That is right for a signal that is copied and wrong for a receiver that is
cloned. `Signal::clone` in turn keeps only the connections that have a receiver, so functions are
lost, and with them what `ConnectionF::clone` would do.

## Main results

* `cloneLoop_eq` — the loop of `doClone` ends, though the list it runs over grows
* `buildConnections4_iff` — when the clone of a receiver is connected as the receiver is
* `copy_iff` — when the copy of a signal behaves like the signal
-/

namespace TQLib

namespace Sigslot2

variable {θ ς ρ : Type*}

/-! ## The clone of a receiver -/

section

variable [DecidableEq ρ]

/-- The loop of `doClone`. Whatever it pushes comes before `end()`, so the loop comes to it too. -/
def Objects.cloneLoop (o : Objects θ ς ρ) (oldReceiver newReceiver : ρ) :
    ℕ → List ℕ → Signal θ ρ → Option (Signal θ ρ)
  | 0, _, _ => none
  | _ + 1, [], s => some s
  | fuel + 1, n :: todo, s =>
    if o.receiver (s.connections n) = some oldReceiver then
      o.cloneLoop oldReceiver newReceiver fuel (todo ++ [s.created])
        (s.pushBack ((s.connections n).clone newReceiver))
    else o.cloneLoop oldReceiver newReceiver fuel todo s

variable {o o' : Objects θ ς ρ} {r newReceiver : ρ}

/-- **The loop ends** if the new receiver is another: it comes to its own clones once, and makes
none of them. -/
theorem cloneLoop_eq (hne : r ≠ newReceiver) (f : ℕ → Connection θ ρ) (xs : List ℕ) :
    ∀ (ys : List ℕ) (s : Signal θ ρ), (∀ n ∈ xs, n < s.created ∧ s.connections n = f n) →
      (∀ n ∈ ys, n < s.created ∧ (s.connections n).receiver = some newReceiver) →
      ∀ fuel, 2 * xs.length + ys.length < fuel →
        o.cloneLoop r newReceiver fuel (xs ++ ys) s =
          some ((xs.filter fun n => o.receiver (f n) = some r).foldl
            (fun s n => s.pushBack ((f n).clone newReceiver)) s) := by
  induction xs with
  | nil =>
    intro ys s _ hys fuel hfuel
    induction ys generalizing fuel with
    | nil =>
      obtain ⟨fuel, rfl⟩ := Nat.exists_eq_succ_of_ne_zero (Nat.ne_of_gt hfuel)
      rfl
    | cons n ys ih =>
      obtain ⟨fuel, rfl⟩ := Nat.exists_eq_succ_of_ne_zero (Nat.ne_zero_of_lt hfuel)
      obtain ⟨⟨-, hn⟩, hys⟩ := List.forall_mem_cons.mp hys
      have hskip : o.receiver (s.connections n) ≠ some r := by
        intro hrec
        obtain ⟨heq, -⟩ := Option.filter_eq_some_iff.mp hrec
        exact hne (Option.some.inj (heq.symm.trans hn))
      rw [List.nil_append, Objects.cloneLoop, if_neg hskip]
      exact ih hys fuel (by simp only [List.length_cons] at hfuel ⊢; omega)
  | cons n xs ih =>
    intro ys s hxs hys fuel hfuel
    obtain ⟨fuel, rfl⟩ := Nat.exists_eq_succ_of_ne_zero (Nat.ne_zero_of_lt hfuel)
    obtain ⟨⟨hn, hfn⟩, hxs⟩ := List.forall_mem_cons.mp hxs
    simp only [List.length_cons] at hfuel
    rw [List.cons_append, Objects.cloneLoop]
    by_cases hrec : o.receiver (f n) = some r
    · rw [hfn, if_pos hrec, List.filter_cons_of_pos (by simpa using hrec), List.foldl_cons,
        List.append_assoc]
      have hold : ∀ m < s.created, m < (s.pushBack ((f n).clone newReceiver)).created ∧
          (s.pushBack ((f n).clone newReceiver)).connections m = s.connections m := fun m hm =>
        ⟨hm.trans (Nat.lt_succ_self _), Function.update_of_ne hm.ne ..⟩
      refine ih (ys ++ [s.created]) _ (fun m hm => ?_) (fun m hm => ?_) fuel ?_
      · rw [(hold m (hxs m hm).1).2]
        exact ⟨(hold m (hxs m hm).1).1, (hxs m hm).2⟩
      · rcases List.mem_append.mp hm with hm | hm
        · rw [(hold m (hys m hm).1).2]
          exact ⟨(hold m (hys m hm).1).1, (hys m hm).2⟩
        · rw [List.mem_singleton.mp hm]
          refine ⟨Nat.lt_succ_self _, ?_⟩
          show (Function.update s.connections s.created _ s.created).receiver = _
          rw [Function.update_self]
          rfl
      · rw [List.length_append, List.length_singleton]
        omega
    · rw [hfn, if_neg hrec, List.filter_cons_of_neg (by simpa using hrec)]
      exact ih ys s hxs hys fuel (by omega)

variable [DecidableEq ς]

/-- The loop of `buildConnections4`, with `fuel` for each loop of `doClone`. -/
def Objects.buildLoop (fuel : ℕ) (r newReceiver : ρ) :
    List ς → Objects θ ς ρ → Option (Objects θ ς ρ)
  | [], o => some o
  | g :: gs, o =>
    match o.cloneLoop r newReceiver fuel (o.signals g).connectionList (o.signals g) with
    | none => none
    | some s => Objects.buildLoop fuel r newReceiver gs ((o.setSignal g s).addSender newReceiver g)

/-- **`buildConnections4` ends.** -/
theorem buildLoop_eq (hne : r ≠ newReceiver) (gs : List ς) {P : ς → Connection θ ρ → Prop}
    (hclone : ∀ g c r, c.receiver.isSome → P g c → P g (c.clone r)) (ho : o.Holds P) :
    ∃ fuel₀, ∀ fuel, fuel₀ ≤ fuel → Objects.buildLoop fuel r newReceiver gs o =
      some (gs.foldl (fun o g => (o.slotClone g r newReceiver).addSender newReceiver g) o) := by
  induction gs generalizing o with
  | nil => exact ⟨0, fun _ _ => rfl⟩
  | cons g gs ih =>
    have hnext : ((o.slotClone g r newReceiver).addSender newReceiver g).Holds P :=
      Objects.Holds.slotClone ho hclone g r newReceiver
    obtain ⟨fuel₀, hfuel₀⟩ := ih hnext
    refine ⟨max fuel₀ (2 * (o.signals g).connectionList.length + 1), fun fuel hfuel => ?_⟩
    have hloop := cloneLoop_eq (o := o) hne (o.signals g).connections (o.signals g).connectionList
      [] (o.signals g) (fun n hn => ⟨(ho g).created n hn, rfl⟩) (fun n hn => (by cases hn)) fuel
      (by rw [List.length_nil]; omega)
    rw [List.append_nil] at hloop
    rw [Objects.buildLoop, hloop]
    exact hfuel₀ fuel (by omega)

/-- No connection in a list has to do with the receiver. -/
def Objects.Fresh (o : Objects θ ς ρ) (r : ρ) : Prop := ∀ g, ∀ n ∈ (o.signals g).connectionList,
  ((o.signals g).connections n).receiver ≠ some r ∧ ((o.signals g).connections n).target ≠ some r

/-- What `buildConnections4` is for: in `o'` each signal has one more connection for each that it
had to `r` in `o`, with the same method called on `newReceiver`. -/
def Objects.Clones (o o' : Objects θ ς ρ) (r newReceiver : ρ) : Prop :=
  ∀ g, ∃ ns, (o'.signals g).connectionList = (o.signals g).connectionList ++ ns ∧
    ns.map (o'.signals g).connections = (o.cloned g r).map (fun n => { (o.signals g).connections n
      with receiver := some newReceiver, target := some newReceiver }) ∧
    ∀ n ∈ (o.signals g).connectionList, (o'.signals g).connections n = (o.signals g).connections n

omit [DecidableEq ς] in
theorem mem_cloned (hr : o.alive r = true) {g : ς} {n : ℕ} : n ∈ o.cloned g r ↔
    n ∈ (o.signals g).connectionList ∧ ((o.signals g).connections n).receiver = some r := by
  rw [Objects.cloned, List.mem_filter, decide_eq_true_eq, receiver_eq_some_iff hr]

/-- A receiver that is connected to nothing has nothing to clone. -/
theorem signals_buildConnections4 (h : ∀ g, o.cloned g r = []) :
    (o.buildConnections4 r newReceiver).signals = o.signals := by
  rw [Objects.buildConnections4]
  generalize o.senderList r = gs
  induction gs generalizing o with
  | nil => rfl
  | cons g gs ih =>
    have hsame : (o.slotClone g r newReceiver).signals = o.signals := by
      rw [Objects.slotClone, h g]
      exact Function.update_eq_self ..
    have hnext : ∀ g',
        ((o.slotClone g r newReceiver).addSender newReceiver g).cloned g' r = [] := by
      intro g'
      have heq : (o.slotClone g r newReceiver).cloned g' r = o.cloned g' r := by
        rw [Objects.cloned, Objects.cloned, hsame]
        rfl
      exact heq.trans (h g')
    rw [List.foldl_cons, ih hnext]
    exact hsame

variable [DecidableEq θ]

/-- **`buildConnections4` ends**, and it connects the clone of a receiver as the receiver is exactly
if the receiver is connected to nothing. -/
theorem buildConnections4_iff {h : List Empty} (hr : (operations θ ς ρ).Reaches h o)
    (halive : o.alive r = true) (hne : r ≠ newReceiver) (hfresh : o.Fresh newReceiver) :
    (∃ fuel₀, ∀ fuel, fuel₀ ≤ fuel → Objects.buildLoop fuel r newReceiver (o.senderList r) o =
      some (o.buildConnections4 r newReceiver)) ∧
    (o.Clones (o.buildConnections4 r newReceiver) r newReceiver ↔
      ∀ g, ∀ n ∈ (o.signals g).connectionList,
        ((o.signals g).connections n).receiver ≠ some r) := by
  have hholds := holds_of_reaches hr
  refine ⟨buildLoop_eq hne _ (fun _ _ _ _ => id) hholds, fun hclones g n hn hrec => ?_,
    fun hnone => ?_⟩
  · -- what the clones call is not new
    obtain ⟨ns, hlist, hmap, -⟩ := hclones g
    have htarget : (o.buildConnections4 r newReceiver).Holds fun _ c =>
        c.target ≠ some newReceiver := by
      refine Objects.Holds.buildConnections4 (fun g => ?_) (fun _ _ _ _ => id) r newReceiver
      exact ⟨(hholds g).nodup, (hholds g).created, fun n hn => (hfresh g n hn).2⟩
    have hmem := List.mem_map_of_mem (f := fun n => { (o.signals g).connections n with
      receiver := some newReceiver, target := some newReceiver })
      ((mem_cloned halive).mpr ⟨hn, hrec⟩)
    rw [← hmap] at hmem
    obtain ⟨m, hm, heq⟩ := List.mem_map.mp hmem
    refine (htarget g).holds m ?_ (by rw [heq])
    rw [hlist]
    exact List.mem_append_right _ hm
  · have hcloned : ∀ g, o.cloned g r = [] := fun g => by
      refine List.eq_nil_iff_forall_not_mem.mpr fun n hn => ?_
      obtain ⟨hmem, hrec⟩ := (mem_cloned halive).mp hn
      exact hnone g n hmem hrec
    intro g
    rw [signals_buildConnections4 hcloned, hcloned g]
    exact ⟨[], (List.append_nil _).symm, rfl, fun _ _ => rfl⟩

/-- A receiver that has been disconnected. -/
theorem buildConnections4_iff_run : ∃ o : Objects Unit Unit Bool,
    (operations Unit Unit Bool).Reaches [] o ∧ o.senderList false = [()] ∧
    o.Clones (o.buildConnections4 false true) false true := by
  obtain ⟨o, hex, halive, hsenders, hnil⟩ : ∃ o, (operations Unit Unit Bool).exec
      Objects.initial [.connect () false AutoConnection none, .disconnectConnection () 0] =
        some (o, []) ∧ o.alive false = true ∧ o.senderList false = [()] ∧
      (o.signals ()).connectionList = [] :=
    ⟨_, rfl, rfl, rfl, by decide⟩
  have hr := Machine.Reaches.of_exec rfl hex
  refine ⟨o, hr, hsenders, (buildConnections4_iff hr halive (by decide) fun g n hn => ?_).2.mpr
    fun g n hn => ?_⟩ <;> rw [hnil] at hn <;> cases hn

/-- **The clone of a receiver is not called**: the connection made for it calls the receiver, which
is called twice. A receiver that is connected twice is called six times. -/
theorem clone_calls_original :
    (∃ o : Objects Unit Unit Bool, (operations Unit Unit Bool).Reaches [] o ∧
      o.alive false = true ∧ o.Fresh true ∧
      ¬ o.Clones (o.buildConnections4 false true) false true ∧
      ((o.buildConnections4 false true).signals ()).connectionList.map (fun n =>
        (((o.buildConnections4 false true).signals ()).connections n).target) =
          [some false, some false]) ∧
    ∃ o : Objects Unit Unit Bool, (operations Unit Unit Bool).Reaches [] o ∧ o.Fresh true ∧
      (o.signals ()).connectionList.length = 2 ∧
      ((o.buildConnections4 false true).signals ()).connectionList.map (fun n =>
        (((o.buildConnections4 false true).signals ()).connections n).target) =
          List.replicate 6 (some false) := by
  constructor
  · obtain ⟨o, hex, halive, hfresh, hcloned, htargets⟩ : ∃ o,
        (operations Unit Unit Bool).exec Objects.initial [.connect () false AutoConnection none] =
          some (o, []) ∧ o.alive false = true ∧ (∀ n ∈ (o.signals ()).connectionList,
            ((o.signals ()).connections n).receiver ≠ some true ∧
            ((o.signals ()).connections n).target ≠ some true) ∧
        0 ∈ o.cloned () false ∧
        ((o.buildConnections4 false true).signals ()).connectionList.map (fun n =>
          (((o.buildConnections4 false true).signals ()).connections n).target) =
            [some false, some false] :=
      ⟨_, rfl, rfl, by decide, by decide, by decide⟩
    refine ⟨o, .of_exec rfl hex, halive, fun _ => hfresh, fun hclones => ?_, htargets⟩
    obtain ⟨ns, hlist, hmap, -⟩ := hclones ()
    obtain ⟨m, hm, heq⟩ := List.mem_map.mp (hmap ▸ List.mem_map_of_mem hcloned)
    have hmem := List.mem_append_right (o.signals ()).connectionList hm
    rw [← hlist] at hmem
    have htarget := List.mem_map_of_mem (f := fun n =>
      (((o.buildConnections4 false true).signals ()).connections n).target) hmem
    rw [htargets, heq] at htarget
    simp at htarget
  · obtain ⟨o, hex, hfresh, hlength, htargets⟩ : ∃ o,
        (operations Unit Unit Bool).exec Objects.initial [.connect () false AutoConnection none,
          .connect () false AutoConnection none] = some (o, []) ∧
        (∀ n ∈ (o.signals ()).connectionList,
          ((o.signals ()).connections n).receiver ≠ some true ∧
          ((o.signals ()).connections n).target ≠ some true) ∧
        (o.signals ()).connectionList.length = 2 ∧
        ((o.buildConnections4 false true).signals ()).connectionList.map (fun n =>
          (((o.buildConnections4 false true).signals ()).connections n).target) =
            List.replicate 6 (some false) :=
      ⟨_, rfl, by decide, by decide, by decide⟩
    exact ⟨o, .of_exec rfl hex, fun _ => hfresh, hlength, htargets⟩

end

/-! ## The copy of a signal -/

section

variable {φ : Type*}

/-- One connection of `Signal::clone`, which keeps it if it has a receiver. `origin` says which
connection each of the copy is a clone of. -/
def Objects.cloneStep (o : Objects θ ς ρ) (s : Signal θ ρ) (t : Signal θ ρ × (ℕ → ℕ)) (n : ℕ) :
    Signal θ ρ × (ℕ → ℕ) :=
  match o.receiver (s.connections n) with
  | some r => (t.1.pushBack ((s.connections n).clone r), Function.update t.2 t.1.created n)
  | none => t

/-- `Signal::clone`, and which connection each of the copy is a clone of. -/
def Objects.cloneSignal (o : Objects θ ς ρ) (s : Signal θ ρ) : Signal θ ρ × (ℕ → ℕ) :=
  s.connectionList.foldl (o.cloneStep s) (Signal.initial, id)

/-- An emission comes past the connection: it is not a single shot that has emitted, and `m_type` is
one of those that `Connection::emit` knows. -/
def Connection.calls (c : Connection θ ρ) : Bool :=
  !(c.isSingleShot && c.hasEmitted) && (c.type == AutoConnection || c.type == DirectConnection ||
    c.type == QueuedConnection || c.type == BlockingQueuedConnection)

/-- What an emission on the thread `current` does with a connection: the slot it invokes, on which
object, how and on which thread. -/
def Objects.invoke [DecidableEq θ] (o : Objects θ ς ρ) (current : θ) (c : Connection θ ρ)
    (slot : φ) : Option (φ × Option ρ × UInt32 × Option θ) :=
  if c.calls && !o.expired c && c.target.all o.alive then
    some (slot, c.target, (c.settle current).type, c.thread)
  else none

/-- What an emission on the thread `current` invokes, where `slot n` is the slot of the connection
number `n`. -/
def Objects.invokes [DecidableEq θ] (o : Objects θ ς ρ) (current : θ) (s : Signal θ ρ)
    (slot : ℕ → φ) : List (φ × Option ρ × UInt32 × Option θ) :=
  s.connectionList.filterMap fun n => o.invoke current (s.connections n) (slot n)

/-- A call of `connect`. -/
inductive Connecting (θ ρ : Type*)
  | func (type : UInt32) (thread : Option θ)
  | method (receiver : ρ) (type : UInt32) (thread : Option θ)

/-- `connect`, and whether it returns a connection. -/
def Signal.connecting (s : Signal θ ρ) : Connecting θ ρ → Signal θ ρ × Bool
  | .func type thread => ((s.connectFunc type thread).1, (s.connectFunc type thread).2.isSome)
  | .method r type thread => ((s.connect r type thread).1, (s.connect r type thread).2.isSome)

/-- Which of the calls of `connect` return a connection. -/
def Signal.accepts (s : Signal θ ρ) : List (Connecting θ ρ) → List Bool
  | [] => []
  | c :: cs => (s.connecting c).2 :: (s.connecting c).1.accepts cs

/-- What a copy is for: an emission of the copy invokes what one of the signal does, and what the
signal refuses to connect, the copy refuses too. -/
structure Objects.Copies [DecidableEq θ] (o : Objects θ ς ρ) (current : θ) (s t : Signal θ ρ)
    (slot slot' : ℕ → φ) : Prop where
  invokes : o.invokes current t slot' = o.invokes current s slot
  accepts : ∀ cs, t.accepts cs = s.accepts cs

/-! ### Connections of the copy -/

/-- What is known of a connection: a function has no receiver and calls no object. -/
structure Connection.Sane (c : Connection θ ρ) : Prop where
  isFunc : c.isFunc = c.receiver.isNone
  target : c.isFunc = true → c.target = none

variable {o : Objects θ ς ρ} {s t : Signal θ ρ} {slot : ℕ → φ}

/-- A clone for the receiver that a connection has is the connection again. -/
theorem clone_self {c : Connection θ ρ} {r : ρ} (h : o.receiver c = some r) : c.clone r = c := by
  obtain ⟨hrec, -⟩ := Option.filter_eq_some_iff.mp h
  rw [Connection.clone, ← hrec]

theorem invokes_pushBack [DecidableEq θ] (ht : ∀ n ∈ t.connectionList, n < t.created)
    (current : θ) (c : Connection θ ρ) {slot' : ℕ → φ}
    (hslot : ∀ n < t.created, slot' n = slot n) :
    o.invokes current (t.pushBack c) slot' =
      o.invokes current t slot ++ (o.invoke current c (slot' t.created)).toList := by
  rw [Objects.invokes]
  show (t.connectionList ++ [t.created]).filterMap _ = _
  rw [List.filterMap_append, Objects.invokes]
  congr 1
  · refine List.filterMap_congr fun n hn => ?_
    show o.invoke current (Function.update t.connections t.created c n) _ = _
    rw [Function.update_of_ne (ht n hn).ne, hslot n (ht n hn)]
  · show List.filterMap (fun n => o.invoke current (Function.update t.connections t.created c n) _)
      [t.created] = _
    cases hinvoke : o.invoke current c (slot' t.created) <;> simp [hinvoke]

/-- What the loop of `Signal::clone` has made. -/
theorem invokes_foldl_cloneStep [DecidableEq θ] (current : θ) (ns : List ℕ)
    (t : Signal θ ρ × (ℕ → ℕ)) (ht : ∀ n ∈ t.1.connectionList, n < t.1.created) :
    o.invokes current (ns.foldl (o.cloneStep s) t).1 (slot ∘ (ns.foldl (o.cloneStep s) t).2) =
      o.invokes current t.1 (slot ∘ t.2) ++ ns.filterMap fun n =>
        if (o.receiver (s.connections n)).isSome then o.invoke current (s.connections n) (slot n)
        else none := by
  induction ns generalizing t with
  | nil => rw [List.foldl_nil, List.filterMap_nil, List.append_nil]
  | cons n ns ih =>
    rw [List.foldl_cons]
    cases hrec : o.receiver (s.connections n) with
    | none =>
      have hstep : o.cloneStep s t n = t := by
        rw [Objects.cloneStep, hrec]
      rw [hstep, ih t ht, List.filterMap_cons, hrec]
      rfl
    | some r =>
      have hstep : o.cloneStep s t n = (t.1.pushBack (s.connections n),
          Function.update t.2 t.1.created n) := by
        rw [Objects.cloneStep, hrec]
        exact congrArg (fun c => (t.1.pushBack c, _)) (clone_self hrec)
      have hcreated : ∀ m ∈ (t.1.pushBack (s.connections n)).connectionList,
          m < (t.1.pushBack (s.connections n)).created := by
        intro m hm
        rcases List.mem_append.mp hm with hm | hm
        · exact (ht m hm).trans (Nat.lt_succ_self _)
        · exact List.mem_singleton.mp hm ▸ Nat.lt_succ_self _
      have hold : ∀ m < t.1.created,
          (slot ∘ Function.update t.2 t.1.created n) m = (slot ∘ t.2) m := fun m hm => by
        rw [Function.comp_apply, Function.update_of_ne hm.ne, Function.comp_apply]
      rw [hstep, ih _ hcreated, invokes_pushBack ht current _ hold, Function.comp_apply,
        Function.update_self, List.append_assoc, List.filterMap_cons, hrec]
      congr 1
      cases hinvoke : o.invoke current (s.connections n) (slot n) <;> simp

/-- A filter loses nothing exactly if it keeps everything that counts. -/
theorem filterMap_ite_eq {α β : Type*} (p : α → Bool) (f : α → Option β) (l : List α) :
    l.filterMap (fun x => if p x then f x else none) = l.filterMap f ↔
      ∀ x ∈ l, p x = false → f x = none := by
  have hle : ∀ l : List α, (l.filterMap fun x => if p x then f x else none).length ≤
      (l.filterMap f).length := by
    intro l
    rw [List.length_filterMap_eq_countP, List.length_filterMap_eq_countP]
    refine List.countP_mono_left fun x _ hx => ?_
    split at hx
    · exact hx
    · cases hx
  induction l with
  | nil => simp
  | cons x l ih =>
    rw [List.forall_mem_cons, List.filterMap_cons, List.filterMap_cons]
    cases hp : p x with
    | true => cases f x <;> simp [ih]
    | false =>
      cases hf : f x with
      | none => simp [ih]
      | some y =>
        simp only [Bool.false_eq_true, if_false, forall_const, reduceCtorEq, false_and, iff_false]
        intro heq
        have hlength := congrArg List.length heq
        have hle := hle l
        rw [List.length_cons] at hlength
        omega

/-- **What a copy invokes** is what the signal invokes, if no function is lost. -/
theorem invokes_cloneSignal [DecidableEq θ] (current : θ) (hs : s.Holds Connection.Sane) :
    o.invokes current (o.cloneSignal s).1 (slot ∘ (o.cloneSignal s).2) = o.invokes current s slot ↔
      ∀ n ∈ s.connectionList, (s.connections n).isFunc = true →
        (s.connections n).calls = false := by
  rw [Objects.cloneSignal, invokes_foldl_cloneStep current s.connectionList (Signal.initial, id)
    fun n hn => (by cases hn)]
  show List.filterMap _ s.connectionList = List.filterMap _ s.connectionList ↔ _
  rw [filterMap_ite_eq]
  refine forall₂_congr fun n hn => ?_
  have hsane := hs.holds n hn
  generalize s.connections n = c at hsane
  cases hfunc : c.isFunc with
  | true =>
    have hnone : c.receiver = none := by
      rw [← Option.isNone_iff_eq_none, ← hsane.isFunc, hfunc]
    have hrec : o.receiver c = none := by
      rw [Objects.receiver, hnone]
      rfl
    simp [hrec, Objects.invoke, hsane.target hfunc, Objects.expired, hfunc]
  | false =>
    refine iff_of_true (fun hrec => ?_) (fun h => by cases h)
    have hexpired : o.expired c = true := by
      rw [Option.isSome_eq_false_iff] at hrec
      rw [Objects.expired, hfunc, hrec]
      cases c.isSingleShot <;> rfl
    simp [Objects.invoke, hexpired]

/-! ### What is refused -/

/-- What `connect` looks at is the same. -/
def Signal.Alike (s t : Signal θ ρ) : Prop :=
  s.unique = t.unique ∧ (s.connectionList = [] ↔ t.connectionList = [])

theorem Signal.Alike.connecting (h : s.Alike t) (c : Connecting θ ρ) :
    (s.connecting c).2 = (t.connecting c).2 ∧ (s.connecting c).1.Alike (t.connecting c).1 := by
  obtain ⟨hunique, hnil⟩ := h
  have hlength : decide (s.connectionList.length > 0) = decide (t.connectionList.length > 0) := by
    rw [decide_eq_decide, gt_iff_lt, gt_iff_lt, List.length_pos_iff, List.length_pos_iff, ne_eq,
      ne_eq, hnil]
  cases c with
  | func type thread =>
    simp only [Signal.connecting, Signal.connectFunc, hunique]
    split
    · exact ⟨rfl, hunique, hnil⟩
    · split
      · exact ⟨rfl, rfl, hnil⟩
      · exact ⟨rfl, rfl, by simp [Signal.pushBack]⟩
  | method r type thread =>
    simp only [Signal.connecting, Signal.connect, hunique, hlength]
    split
    · exact ⟨rfl, hunique, hnil⟩
    · split
      · exact ⟨rfl, rfl, hnil⟩
      · exact ⟨rfl, rfl, by simp [Signal.pushBack]⟩

theorem Signal.Alike.accepts (h : s.Alike t) (cs : List (Connecting θ ρ)) :
    s.accepts cs = t.accepts cs := by
  induction cs generalizing s t with
  | nil => rfl
  | cons c cs ih =>
    obtain ⟨hresult, hnext⟩ := h.connecting c
    rw [Signal.accepts, Signal.accepts, hresult, ih hnext]

/-- A function can be connected if the signal is not unique. -/
theorem accepts_func (s : Signal θ ρ) :
    s.accepts [.func DirectConnection none] = [!s.unique] := by
  have hflag : (DirectConnection &&& UniqueConnection != 0) = false := by decide
  have hvalid : Signal.isValid (θ := θ) DirectConnection none = true := rfl
  simp only [Signal.accepts, Signal.connecting, Signal.connectFunc, hflag, hvalid]
  cases s.unique <;> simp

/-- A member function can be connected as the only one if the list is empty. -/
theorem accepts_method (s : Signal θ ρ) (r : ρ) :
    s.accepts [.method r (DirectConnection ||| UniqueConnection) none] =
      [decide (s.connectionList = [])] := by
  have hflag : ((DirectConnection ||| UniqueConnection) &&& UniqueConnection != 0) = true := by
    decide
  have hvalid : Signal.isValid (θ := θ) (DirectConnection ||| UniqueConnection) none = true := rfl
  simp only [Signal.accepts, Signal.connecting, Signal.connect, hflag, hvalid]
  cases hlist : s.connectionList <;> simp

theorem accepts_iff [Nonempty ρ] : (∀ cs, s.accepts cs = t.accepts cs) ↔ s.Alike t := by
  refine ⟨fun h => ⟨?_, ?_⟩, fun h => h.accepts⟩
  · have hfunc := h [.func DirectConnection none]
    rw [accepts_func, accepts_func] at hfunc
    simpa using hfunc
  · obtain ⟨r⟩ := ‹Nonempty ρ›
    have hmethod := h [.method r (DirectConnection ||| UniqueConnection) none]
    rw [accepts_method, accepts_method] at hmethod
    simpa using hmethod

/-- The copy is not unique, and it is empty if no receiver is alive. -/
theorem foldl_cloneStep (ns : List ℕ) (t : Signal θ ρ × (ℕ → ℕ)) :
    (ns.foldl (o.cloneStep s) t).1.unique = t.1.unique ∧
      ((ns.foldl (o.cloneStep s) t).1.connectionList = [] ↔
        t.1.connectionList = [] ∧ ∀ n ∈ ns, (o.receiver (s.connections n)).isNone = true) := by
  induction ns generalizing t with
  | nil => simp
  | cons n ns ih =>
    obtain ⟨hunique, hnil⟩ := ih (o.cloneStep s t n)
    rw [List.foldl_cons, hunique, hnil, List.forall_mem_cons, Objects.cloneStep]
    cases o.receiver (s.connections n) with
    | none => simp
    | some r => simp [Signal.pushBack]

variable [DecidableEq θ] [DecidableEq ς] [DecidableEq ρ]

/-- **The copy of a signal behaves like the signal** exactly if the signal has no function that an
emission comes past, is not unique, and has a receiver that is alive if it has any connection. -/
theorem copy_iff [Nonempty ρ] {h : List Empty} (hr : (operations θ ς ρ).Reaches h o) (g : ς)
    (current : θ) (slot : ℕ → φ) :
    o.Copies current (o.signals g) (o.cloneSignal (o.signals g)).1 slot
      (slot ∘ (o.cloneSignal (o.signals g)).2) ↔
    (∀ n ∈ (o.signals g).connectionList, ((o.signals g).connections n).isFunc = true →
      ((o.signals g).connections n).calls = false) ∧
    (o.signals g).unique = false ∧
    ((o.signals g).connectionList ≠ [] → ∃ n ∈ (o.signals g).connectionList,
      (o.receiver ((o.signals g).connections n)).isSome = true) := by
  have hsane : ∀ _ : ς, Stable (Connection.Sane (θ := θ) (ρ := ρ)) := fun _ =>
    ⟨fun _ _ hc => ⟨hc.isFunc, hc.target⟩, fun _ hc => ⟨hc.isFunc, hc.target⟩,
      fun _ hc => ⟨hc.isFunc, hc.target⟩, fun c r hsome hc => by
        have hfunc : c.isFunc = false := by
          rw [hc.isFunc, Option.isNone_eq_false_iff]
          exact hsome
        exact ⟨hfunc, fun htrue => by rw [Connection.clone, hfunc] at htrue; cases htrue⟩⟩
  have hholds : o.Holds fun _ => Connection.Sane := by
    refine hr.invariant (Objects.Holds fun _ => Connection.Sane) ?_ ?_
    · rintro _ rfl
      exact Objects.holds_initial
    · rintro o₁ op o₂ out hholds - hst
      obtain ⟨_, hp, ⟨⟩⟩ := Option.map_eq_some_iff.mp hst
      exact hholds.perform hsane (fun _ _ _ _ => ⟨rfl, fun _ => rfl⟩)
        (fun _ _ _ _ _ => ⟨rfl, fun h => by cases h⟩) hp
  obtain ⟨hunique, hnil⟩ := foldl_cloneStep (o := o) (s := o.signals g)
    (o.signals g).connectionList (Signal.initial, id)
  have halike : (o.cloneSignal (o.signals g)).1.Alike (o.signals g) ↔
      (o.signals g).unique = false ∧ ((o.signals g).connectionList ≠ [] →
        ∃ n ∈ (o.signals g).connectionList,
          (o.receiver ((o.signals g).connections n)).isSome = true) := by
    have hempty : ((o.cloneSignal (o.signals g)).1.connectionList = [] ↔
        (o.signals g).connectionList = []) ↔ ((o.signals g).connectionList ≠ [] →
          ∃ n ∈ (o.signals g).connectionList,
            (o.receiver ((o.signals g).connections n)).isSome = true) := by
      rw [Objects.cloneSignal, hnil]
      rcases (o.signals g).connectionList with _ | ⟨n, ns⟩
      · simp [Signal.initial]
      · simp only [Signal.initial, true_and, reduceCtorEq, iff_false, ne_eq, not_false_eq_true,
          forall_const, not_forall, exists_prop, Option.isNone_iff_eq_none,
          Option.isSome_iff_ne_none]
    rw [Signal.Alike, hempty]
    refine and_congr_left fun _ => ?_
    rw [Objects.cloneSignal, hunique]
    exact eq_comm
  rw [← invokes_cloneSignal current (hholds g), ← halike, ← accepts_iff]
  exact ⟨fun h => ⟨h.invokes, h.accepts⟩, fun h => ⟨h.1, h.2⟩⟩

/-- The copy of a signal with a connection to a receiver and one to a receiver that is gone. -/
theorem copy_iff_run : ∃ o : Objects Unit Unit Bool, (operations Unit Unit Bool).Reaches [] o ∧
    o.invokes () (o.signals ()) id = [(0, some true, DirectConnection, none)] ∧
    o.Copies () (o.signals ()) (o.cloneSignal (o.signals ())).1 id
      (id ∘ (o.cloneSignal (o.signals ())).2) := by
  obtain ⟨o, hex, hinvokes, hfunc, hunique, hlive⟩ : ∃ o, (operations Unit Unit Bool).exec
      Objects.initial [.connect () true AutoConnection none,
        .connect () false DirectConnection none, .destroy false] = some (o, []) ∧
      o.invokes () (o.signals ()) id = [(0, some true, DirectConnection, none)] ∧
      (∀ n ∈ (o.signals ()).connectionList, ((o.signals ()).connections n).isFunc = true →
        ((o.signals ()).connections n).calls = false) ∧ (o.signals ()).unique = false ∧
      ∃ n ∈ (o.signals ()).connectionList,
        (o.receiver ((o.signals ()).connections n)).isSome = true :=
    ⟨_, rfl, by decide, by decide, rfl, by decide⟩
  have hr := Machine.Reaches.of_exec rfl hex
  exact ⟨o, hr, hinvokes, (copy_iff hr () () id).mpr ⟨hfunc, hunique, fun _ => hlive⟩⟩

/-- **A function is lost**: the copy of a signal that it is connected to invokes nothing. -/
theorem copy_loses_function : ∃ o : Objects Unit Unit Unit,
    (operations Unit Unit Unit).Reaches [] o ∧
    ¬ o.Copies () (o.signals ()) (o.cloneSignal (o.signals ())).1 id
      (id ∘ (o.cloneSignal (o.signals ())).2) := by
  obtain ⟨o, hex, hinvokes⟩ : ∃ o, (operations Unit Unit Unit).exec Objects.initial
      [.connectFunc () AutoConnection none] = some (o, []) ∧
      o.invokes () (o.cloneSignal (o.signals ())).1 (id ∘ (o.cloneSignal (o.signals ())).2) ≠
        o.invokes () (o.signals ()) id :=
    ⟨_, rfl, by decide⟩
  exact ⟨o, .of_exec rfl hex, fun h => hinvokes h.invokes⟩

end

end Sigslot2

end TQLib
