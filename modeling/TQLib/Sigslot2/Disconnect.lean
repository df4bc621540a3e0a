import TQLib.Sigslot2.SenderList

/-!
# What `disconnect(receiver)` leaves

There are two ways to take a receiver off a signal. The receiver's own, `doDisconnect`, erases every
connection to it. The signal's, `disconnect(receiver)`, returns after the first that it finds, and
has the receiver forget the signal all the same.

An emission comes only to connections in the list, so what it may call is read off the list. What is
called is the object that `m_method` has captured, which need not be the receiver: `clone` replaces
one and not the other.

## Main results

* `Objects.Holds.perform` — what every connection in a list keeps
* `disconnect_complete_iff` — when `disconnect(receiver)` does what it is for
* `disconnect_incomplete` — two connections
-/

namespace TQLib

namespace Sigslot2

variable {θ ς ρ : Type*}

/-! ## What holds of the connections in the lists -/

/-- The connections in the list are distinct, have been created, and meet `P`. -/
structure Signal.Holds (P : Connection θ ρ → Prop) (s : Signal θ ρ) : Prop where
  /-- No connection is in the list twice. -/
  nodup : s.connectionList.Nodup
  /-- A connection in the list has been created. -/
  created : ∀ n ∈ s.connectionList, n < s.created
  /-- It meets `P`. -/
  holds : ∀ n ∈ s.connectionList, P (s.connections n)

namespace Signal

variable {P : Connection θ ρ → Prop} {s s' : Signal θ ρ}

theorem Holds.sublist (h : s.Holds P) (hlist : s'.connectionList.Sublist s.connectionList)
    (hcreated : s'.created = s.created) (hconnections : s'.connections = s.connections) :
    s'.Holds P := by
  refine ⟨h.nodup.sublist hlist, fun n hn => ?_, fun n hn => ?_⟩
  · rw [hcreated]
    exact h.created n (hlist.subset hn)
  · rw [hconnections]
    exact h.holds n (hlist.subset hn)

theorem Holds.erase (h : s.Holds P) (n : ℕ) : (s.erase n).Holds P :=
  h.sublist List.erase_sublist rfl rfl

theorem Holds.foldl_erase (h : s.Holds P) (ns : List ℕ) : (ns.foldl Signal.erase s).Holds P := by
  induction ns generalizing s with
  | nil => exact h
  | cons n ns ih => exact ih (h.erase n)

theorem Holds.pushBack (h : s.Holds P) {c : Connection θ ρ} (hc : P c) :
    (s.pushBack c).Holds P := by
  refine ⟨?_, fun n hn => ?_, fun n hn => ?_⟩
  · refine List.nodup_append'.mpr ⟨h.nodup, List.nodup_singleton _, ?_⟩
    rw [List.disjoint_singleton]
    exact fun hmem => (h.created _ hmem).false
  · rcases List.mem_append.mp hn with hn | hn
    · exact (h.created n hn).trans (Nat.lt_succ_self _)
    · exact List.mem_singleton.mp hn ▸ Nat.lt_succ_self _
  · show P (Function.update s.connections s.created c n)
    rcases List.mem_append.mp hn with hn | hn
    · rw [Function.update_of_ne (h.created n hn).ne]
      exact h.holds n hn
    · rwa [List.mem_singleton.mp hn, Function.update_self]

theorem Holds.foldl_pushBack {f : ℕ → Connection θ ρ} {ns : List ℕ} (hf : ∀ n ∈ ns, P (f n))
    (h : s.Holds P) : (ns.foldl (fun s n => s.pushBack (f n)) s).Holds P := by
  induction ns generalizing s with
  | nil => exact h
  | cons n ns ih =>
    obtain ⟨hn, hns⟩ := List.forall_mem_cons.mp hf
    exact ih hns (h.pushBack hn)

theorem Holds.modify (h : s.Holds P) (n : ℕ) {f : Connection θ ρ → Connection θ ρ}
    (hf : ∀ c, P c → P (f c)) : (s.modify n f).Holds P := by
  refine ⟨h.nodup, h.created, fun m hm => ?_⟩
  show P (Function.update s.connections n (f (s.connections n)) m)
  rcases eq_or_ne m n with rfl | hne
  · rw [Function.update_self]
    exact hf _ (h.holds m hm)
  · rw [Function.update_of_ne hne]
    exact h.holds m hm

end Signal

/-- What is written to connections, and what clones are, does not matter to `P`. -/
structure Stable [DecidableEq θ] (P : Connection θ ρ → Prop) : Prop where
  settle : ∀ c current, P c → P (c.settle current)
  setFired : ∀ c, P c → P c.setFired
  setEmitted : ∀ c, P c → P c.setEmitted
  clone : ∀ c r, c.receiver.isSome → P c → P (c.clone r)

theorem Signal.Holds.emitStep [DecidableEq θ] {P : Connection θ ρ → Prop} {s : Signal θ ρ}
    (h : s.Holds P) (hP : Stable P) (step : EmitStep θ) : (s.emitStep step).Holds P := by
  cases step with
  | begin | advance => exact h.sublist (List.Sublist.refl _) rfl rfl
  | settle n current => exact h.modify n fun c => hP.settle c current
  | setFired n => exact h.modify n hP.setFired
  | setEmitted n => exact h.modify n hP.setEmitted

/-- Every connection in the list of a signal `g` meets `P g`. -/
def Objects.Holds (P : ς → Connection θ ρ → Prop) (o : Objects θ ς ρ) : Prop :=
  ∀ g, (o.signals g).Holds (P g)

namespace Objects

variable {P : ς → Connection θ ρ → Prop} {o o' : Objects θ ς ρ}

theorem holds_initial : (Objects.initial : Objects θ ς ρ).Holds P := fun _ =>
  ⟨.nil, fun _ hn => (by cases hn), fun _ hn => (by cases hn)⟩

variable [DecidableEq ς]

theorem Holds.setSignal (h : o.Holds P) {g : ς} {s : Signal θ ρ} (hs : s.Holds (P g)) :
    (o.setSignal g s).Holds P := by
  intro g'
  rcases eq_or_ne g' g with rfl | hne
  · rwa [signals_setSignal_self]
  · rw [signals_setSignal_of_ne o s hne]
    exact h g'

variable [DecidableEq ρ]

theorem Holds.foldl_slotDisconnect (h : o.Holds P) (r : ρ) (gs : List ς) :
    (gs.foldl (fun o g => o.slotDisconnect g r) o).Holds P := by
  induction gs generalizing o with
  | nil => exact h
  | cons g gs ih => exact ih (h.setSignal ((h g).foldl_erase _))

theorem Holds.foldl_disconnectFront (h : o.Holds P) (g : ς) (ns : List ℕ) :
    (ns.foldl (fun o n => o.disconnectFront g n) o).Holds P := by
  induction ns generalizing o with
  | nil => exact h
  | cons n ns ih =>
    refine ih ?_
    have hpop : ∀ o : Objects θ ς ρ, o.Holds P →
        (o.setSignal g (o.signals g).popFront).Holds P := fun o h =>
      h.setSignal ((h g).sublist (List.tail_sublist _) rfl rfl)
    show (o.disconnectFront g n).Holds P
    unfold Objects.disconnectFront
    split <;> exact hpop _ h

theorem Holds.slotClone (h : o.Holds P)
    (hclone : ∀ g c r, c.receiver.isSome → P g c → P g (c.clone r)) (g : ς) (r newReceiver : ρ) :
    (o.slotClone g r newReceiver).Holds P := by
  refine h.setSignal ((h g).foldl_pushBack fun n hn => ?_)
  obtain ⟨hmem, hrec⟩ := List.mem_filter.mp hn
  refine hclone g _ newReceiver ?_ ((h g).holds n hmem)
  obtain ⟨hsome, -⟩ := Option.filter_eq_some_iff.mp (of_decide_eq_true hrec)
  rw [hsome]
  rfl

theorem Holds.buildConnections4 (h : o.Holds P)
    (hclone : ∀ g c r, c.receiver.isSome → P g c → P g (c.clone r)) (r newReceiver : ρ) :
    (o.buildConnections4 r newReceiver).Holds P := by
  rw [Objects.buildConnections4]
  generalize o.senderList r = gs
  induction gs generalizing o with
  | nil => exact h
  | cons g gs ih =>
    have hnext : ((o.slotClone g r newReceiver).addSender newReceiver g).Holds P :=
      h.slotClone hclone g r newReceiver
    exact ih hnext

variable [DecidableEq θ]

/-- **One operation** keeps what holds of every connection in the lists, if it holds of what the
operation connects. -/
theorem Holds.perform {op : Operation θ ς ρ} (h : o.Holds P) (hP : ∀ g, Stable (P g))
    (hfunc : ∀ g type thread, op = .connectFunc g type thread →
      P g (.make none (type &&& ~~~UniqueConnection) thread))
    (hmethod : ∀ g r type thread, op = .connect g r type thread →
      P g (.make (some r) (type &&& ~~~UniqueConnection) thread))
    (hp : o.perform op = some o') : o'.Holds P := by
  have hshrinks : ∀ {g : ς} {s : Signal θ ρ} {unique : Bool}, s.Holds (P g) →
      { s with unique }.Holds (P g) := fun h => h.sublist (List.Sublist.refl _) rfl rfl
  cases op with
  | connectFunc g type thread =>
    cases hp
    refine h.setSignal ?_
    simp only [Signal.connectFunc]
    split
    · exact h g
    · split
      · exact hshrinks (h g)
      · exact (hshrinks (h g)).pushBack (hfunc g type thread rfl)
  | connect g r type thread =>
    obtain ⟨-, ⟨⟩⟩ := Option.ite_none_right_eq_some.mp hp
    have hs : ((o.signals g).connect r type thread).1.Holds (P g) := by
      simp only [Signal.connect]
      split
      · exact h g
      · split
        · exact hshrinks (h g)
        · exact (hshrinks (h g)).pushBack (hmethod g r type thread rfl)
    rw [Objects.connect]
    split <;> rename_i heq <;> rw [heq] at hs <;> exact h.setSignal hs
  | disconnect g r =>
    obtain ⟨-, ⟨⟩⟩ := Option.ite_none_right_eq_some.mp hp
    rw [Objects.disconnect]
    split
    · exact h
    · exact h.setSignal ((h g).erase _)
  | disconnectConnection g n =>
    cases hp
    rw [Objects.disconnectConnection]
    split
    · exact h.setSignal ((h g).erase n)
    · exact h
  | disconnectAll g =>
    cases hp
    have hloop := h.foldl_disconnectFront g (o.signals g).connectionList
    exact hloop.setSignal ((hloop g).sublist (List.Sublist.refl _) rfl rfl)
  | emit g step =>
    cases hp
    exact h.setSignal ((h g).emitStep (hP g) step)
  | detach r =>
    obtain ⟨-, ⟨⟩⟩ := Option.ite_none_right_eq_some.mp hp
    exact Holds.foldl_slotDisconnect (o := o.setSenderList r []) h r _
  | destroy r =>
    obtain ⟨-, ⟨⟩⟩ := Option.ite_none_right_eq_some.mp hp
    exact Holds.foldl_slotDisconnect (o := (o.kill r).setSenderList r []) h r _
  | buildConnections4 r newReceiver =>
    obtain ⟨-, ⟨⟩⟩ := Option.ite_none_right_eq_some.mp hp
    exact h.buildConnections4 (fun g => (hP g).clone) r newReceiver

end Objects

/-! ## `disconnect(receiver)` -/

/-- The operation connects `r` to `g`. -/
def Operation.connects (g : ς) (r : ρ) : Operation θ ς ρ → Prop
  | .connect g' r' _ _ => g' = g ∧ r' = r
  | _ => False

section

variable [DecidableEq θ] [DecidableEq ς] [DecidableEq ρ]

/-- `connected(receiver)`. -/
def Objects.connected (o : Objects θ ς ρ) (g : ς) (r : ρ) : Bool :=
  (o.signals g).connectionList.any fun n => o.receiver ((o.signals g).connections n) = some r

/-- What `disconnect(receiver)` is for. -/
structure Objects.Disconnects (o o' : Objects θ ς ρ) (g : ς) (r : ρ) : Prop where
  /-- The receiver is not connected. -/
  connected : o'.connected g r = false
  /-- Until it is connected again, no emission comes to a connection that calls it. -/
  silent : ∀ h o'', ((operations θ ς ρ).startedIn o').ReachesVia (fun _ op => ¬ op.connects g r)
    h o'' → ∀ n ∈ (o''.signals g).connectionList, ((o''.signals g).connections n).target ≠ some r
  /-- The other connections are in the order they were. -/
  list : (o'.signals g).connectionList = (o.signals g).connectionList.filter fun n =>
    o.receiver ((o.signals g).connections n) ≠ some r
  /-- No connection has changed. -/
  connections : (o'.signals g).connections = (o.signals g).connections
  /-- Nor has any other signal. -/
  others : ∀ g', g' ≠ g → o'.signals g' = o.signals g'
  /-- `doDisconnect` leaves the same, but for what has expired. -/
  agrees : (o'.signals g).connectionList.filter (fun n =>
      !o.expired ((o.signals g).connections n)) =
    ((o.slotDisconnect g r).signals g).connectionList

variable {o : Objects θ ς ρ} {g : ς} {r : ρ}

omit [DecidableEq θ] [DecidableEq ς] [DecidableEq ρ] in
theorem receiver_eq_some_iff (hr : o.alive r = true) (c : Connection θ ρ) :
    o.receiver c = some r ↔ c.receiver = some r := by
  rw [Objects.receiver, Option.filter_eq_some_iff, and_iff_left hr]

omit [DecidableEq θ] [DecidableEq ς] in
theorem connected_eq_true (hr : o.alive r = true) : o.connected g r = true ↔ o.Linked g r := by
  simp only [Objects.connected, List.any_eq_true, decide_eq_true_eq, receiver_eq_some_iff hr]
  rfl

/-- Where no connection calls `r`, none does later, if `r` is not connected again. -/
theorem silent_of_list (ho : o.Holds fun _ _ => True)
    (hsilent : ∀ n ∈ (o.signals g).connectionList, ((o.signals g).connections n).target ≠ some r)
    {h : List Empty} {o' : Objects θ ς ρ} (hr : ((operations θ ς ρ).startedIn o).ReachesVia
      (fun _ op => ¬ op.connects g r) h o') :
    ∀ n ∈ (o'.signals g).connectionList, ((o'.signals g).connections n).target ≠ some r := by
  let P : ς → Connection θ ρ → Prop := fun g' c => g' = g → c.target ≠ some r
  have hP : ∀ g', Stable (P g') := fun _ =>
    ⟨fun _ _ => id, fun _ => id, fun _ => id, fun _ _ _ => id⟩
  have hall : o'.Holds P := by
    refine hr.invariant (Objects.Holds P) ?_ ?_
    · rintro _ rfl g'
      refine ⟨(ho g').nodup, (ho g').created, fun n hn => ?_⟩
      rintro rfl
      exact hsilent n hn
    · rintro o₁ op o₂ out hholds hop hst
      obtain ⟨_, hp, ⟨⟩⟩ := Option.map_eq_some_iff.mp hst
      refine hholds.perform hP (fun _ _ _ _ _ h => (by cases h)) ?_ hp
      rintro g' r' type thread rfl hg htarget
      exact hop ⟨hg, Option.some.inj htarget⟩
  exact fun n hn => (hall g).holds n hn rfl

/-- The lists of every run. -/
theorem holds_of_reaches {h : List Empty} (hr : (operations θ ς ρ).Reaches h o) :
    o.Holds fun _ _ => True := by
  have hP : Stable fun _ : Connection θ ρ => True :=
    ⟨fun _ _ => id, fun _ => id, fun _ => id, fun _ _ _ => id⟩
  refine hr.invariant (Objects.Holds fun _ _ => True) ?_ ?_
  · rintro _ rfl
    exact Objects.holds_initial
  · rintro o₁ op o₂ out hholds - hst
    obtain ⟨_, hp, ⟨⟩⟩ := Option.map_eq_some_iff.mp hst
    exact hholds.perform (fun _ => hP) (fun _ _ _ _ => trivial) (fun _ _ _ _ _ => trivial) hp

omit [DecidableEq θ] in
/-- What `doDisconnect` leaves in the list. -/
theorem connectionList_slotDisconnect (hg : (o.signals g).connectionList.Nodup) :
    ((o.slotDisconnect g r).signals g).connectionList = (o.signals g).connectionList.filter fun n =>
      !o.expired ((o.signals g).connections n) &&
        decide (o.receiver ((o.signals g).connections n) ≠ some r) := by
  rw [Objects.slotDisconnect, Objects.signals_setSignal_self, Signal.connectionList_foldl_erase,
    hg.sdiff_eq_filter]
  refine List.filter_congr fun n hn => ?_
  simp only [Objects.disconnected, List.mem_filter, hn, true_and]
  cases o.expired ((o.signals g).connections n) <;> simp

omit [DecidableEq θ] in
/-- What `disconnect(receiver)` leaves in the list. -/
theorem connectionList_disconnect (hr : o.alive r = true)
    (hg : (o.signals g).connectionList.Nodup) (hcount : o.count g r ≤ 1) :
    ((o.disconnect g r).signals g).connectionList = (o.signals g).connectionList.filter fun n =>
      o.receiver ((o.signals g).connections n) ≠ some r := by
  have hlinked : ¬ (o.disconnect g r).Linked g r := fun hl =>
    not_lt.mpr hcount ((Objects.linked_disconnect hr).mp hl)
  revert hlinked
  unfold Objects.disconnect
  cases hfind : o.findReceiver g r with
  | none =>
    intro _
    refine (List.filter_eq_self.mpr fun n hn => ?_).symm
    simpa using List.find?_eq_none.mp hfind n hn
  | some n =>
    intro hlinked
    have hn : o.receiver ((o.signals g).connections n) = some r := by
      simpa using List.find?_some hfind
    show ((o.setSignal g _).signals g).connectionList = _
    rw [Objects.signals_setSignal_self]
    show (o.signals g).connectionList.erase n = _
    rw [hg.erase_eq_filter]
    refine List.filter_congr fun m hm => ?_
    rcases eq_or_ne m n with rfl | hne
    · simp [hn]
    · -- it would have been left
      have hother : o.receiver ((o.signals g).connections m) ≠ some r := fun hrec => by
        refine hlinked ⟨m, ?_, ?_⟩
        · show m ∈ ((o.setSignal g _).signals g).connectionList
          rw [Objects.signals_setSignal_self]
          exact (List.mem_erase_of_ne hne).mpr hm
        · show (((o.setSignal g _).signals g).connections m).receiver = _
          rw [Objects.signals_setSignal_self]
          exact (receiver_eq_some_iff hr _).mp hrec
      simp [hne, hother]

omit [DecidableEq θ] in
theorem signals_disconnect (o : Objects θ ς ρ) (g : ς) (r : ρ) :
    ((o.disconnect g r).signals g).connections = (o.signals g).connections ∧
      ((o.disconnect g r).signals g).created = (o.signals g).created ∧
      ∀ g', g' ≠ g → (o.disconnect g r).signals g' = o.signals g' := by
  unfold Objects.disconnect
  cases o.findReceiver g r with
  | none => exact ⟨rfl, rfl, fun _ _ => rfl⟩
  | some n =>
    have hself : ((o.setSignal g ((o.signals g).erase n)).removeSender r g).signals g =
        (o.signals g).erase n := Function.update_self ..
    refine ⟨by rw [hself]; rfl, by rw [hself]; rfl, fun g' hne => ?_⟩
    exact Function.update_of_ne hne ..

/-- **`disconnect(receiver)` is complete** exactly if the signal has at most one connection to the
receiver, and none that calls it for another. -/
theorem disconnect_complete_iff {h : List Empty} (hr : (operations θ ς ρ).Reaches h o)
    (halive : o.alive r = true) : o.Disconnects (o.disconnect g r) g r ↔
      o.count g r ≤ 1 ∧ ∀ n ∈ (o.signals g).connectionList,
        ((o.signals g).connections n).target = some r →
        ((o.signals g).connections n).receiver = some r := by
  have hholds := holds_of_reaches hr
  obtain ⟨hconnections, hcreated, hothers⟩ := signals_disconnect o g r
  have halive' : (o.disconnect g r).alive r = true := by
    rw [Objects.alive_disconnect]
    exact halive
  constructor
  · intro hd
    constructor
    · by_contra hcount
      have hl := (Objects.linked_disconnect halive).mpr (not_le.mp hcount)
      have hc := (connected_eq_true halive').mpr hl
      rw [hd.connected] at hc
      cases hc
    · intro n hn htarget
      by_contra hrec
      refine hd.silent [] _ (.start rfl) n ?_ (hconnections ▸ htarget)
      rw [hd.list, List.mem_filter]
      exact ⟨hn, by simpa [receiver_eq_some_iff halive] using hrec⟩
  · rintro ⟨hcount, htarget⟩
    have hlist := connectionList_disconnect halive (hholds g).nodup hcount
    have hst : (operations θ ς ρ).step o (.disconnect g r) = some (o.disconnect g r, []) := by
      simp [operations, Objects.perform, halive]
    have hholds' := holds_of_reaches (hr.step trivial hst)
    refine ⟨?_, fun h' o'' hr' => silent_of_list hholds' ?_ hr', hlist, hconnections, hothers, ?_⟩
    · rw [Bool.eq_false_iff, ne_eq, connected_eq_true halive', Objects.linked_disconnect halive]
      exact not_lt.mpr hcount
    · intro n hn hcalls
      rw [hlist, List.mem_filter] at hn
      rw [hconnections] at hcalls
      have hrec := (receiver_eq_some_iff halive _).mpr (htarget n hn.1 hcalls)
      simp [hrec] at hn
    · rw [hlist, List.filter_filter, connectionList_slotDisconnect (hholds g).nodup]

/-- A receiver that is connected once, next to a function. -/
theorem disconnect_complete_iff_run : ∃ o : Objects Unit Unit Unit,
    (operations Unit Unit Unit).Reaches [] o ∧ o.connected () () = true ∧
    o.Disconnects (o.disconnect () ()) () () := by
  obtain ⟨o, hex, halive, hconnected, hcount, htarget⟩ : ∃ o, (operations Unit Unit Unit).exec
      Objects.initial [.connectFunc () AutoConnection none, .connect () () AutoConnection none] =
        some (o, []) ∧ o.alive () = true ∧ o.connected () () = true ∧ o.count () () ≤ 1 ∧
      ∀ n ∈ (o.signals ()).connectionList, ((o.signals ()).connections n).target = some () →
        ((o.signals ()).connections n).receiver = some () :=
    ⟨_, rfl, rfl, by decide, by decide, by decide⟩
  have hr := Machine.Reaches.of_exec rfl hex
  exact ⟨o, hr, hconnected, (disconnect_complete_iff hr halive).mpr ⟨hcount, htarget⟩⟩

/-- **A receiver that is connected twice** is connected still when it has been disconnected. -/
theorem disconnect_incomplete : ∃ o : Objects Unit Unit Unit,
    (operations Unit Unit Unit).Reaches [] o ∧ o.alive () = true ∧
    (o.disconnect () ()).connected () () = true := by
  obtain ⟨o, hex, halive, hconnected⟩ : ∃ o, (operations Unit Unit Unit).exec Objects.initial
      [.connect () () AutoConnection none, .connect () () AutoConnection none] = some (o, []) ∧
      o.alive () = true ∧ (o.disconnect () ()).connected () () = true :=
    ⟨_, rfl, rfl, by decide⟩
  exact ⟨o, .of_exec rfl hex, halive, hconnected⟩

end

end Sigslot2

end TQLib
