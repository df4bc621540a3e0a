import Mathlib.Data.List.Nodup
import TQLib.Foundations.Machine
import TQLib.Sigslot2.Model

/-!
# Sender lists

A connection is recorded twice: in the `m_connectionList` of its signal and, as one entry for the
signal, in the `m_senderList` of its receiver. The destructor of the receiver only visits the
signals in the second, so what matters is that a signal with a connection to a receiver is in the
list of that receiver.

The operations are taken one after another here, each as a whole, in any order. An emission is not
one operation but many: the slots it runs are operations of their own, so any of them may come
between two of its steps. While an operation is under way the two lists disagree about some pairs
of a signal and a receiver, which is what `RecordedUpTo` keeps account of.

One operation leaves such a pair behind. `disconnect(receiver)` erases one connection to the
receiver, and then every entry for the signal.

## Main results

* `sender_list_law` — the two lists agree as long as no signal with several connections to a
  receiver is asked to disconnect it, and not after that
* `connection_unrecorded` — the shortest way to make them disagree
-/

namespace TQLib

namespace Sigslot2

variable {θ ς ρ : Type*}

/-! ## Operations -/

/-- The steps of an emission of a signal that write to it. -/
inductive EmitStep (θ : Type*)
  /-- `m_currentIterator` is set to the front. -/
  | begin
  /-- `m_currentIterator` is moved on. -/
  | advance
  /-- `m_type` of a connection is settled on the thread `current`. -/
  | settle (n : ℕ) (current : θ)
  /-- `setFired`, after the slot of a connection has run. -/
  | setFired (n : ℕ)
  /-- `setEmitted`. -/
  | setEmitted (n : ℕ)

/-- What may be done to signals and receivers. -/
inductive Operation (θ ς ρ : Type*)
  | connectFunc (g : ς) (type : UInt32) (thread : Option θ)
  | connect (g : ς) (r : ρ) (type : UInt32) (thread : Option θ)
  | disconnect (g : ς) (r : ρ)
  | disconnectConnection (g : ς) (n : ℕ)
  | disconnectAll (g : ς)
  | emit (g : ς) (step : EmitStep θ)
  /-- `HasSlots::disconnectAll`, which a derived class may call. -/
  | detach (r : ρ)
  /-- `~HasSlots`. -/
  | destroy (r : ρ)
  | buildConnections4 (r newReceiver : ρ)

/-- A step of an emission. -/
def Signal.emitStep [DecidableEq θ] (s : Signal θ ρ) : EmitStep θ → Signal θ ρ
  | .begin => s.setBegin
  | .advance => s.advance
  | .settle n current => s.modify n fun c => c.settle current
  | .setFired n => s.modify n Connection.setFired
  | .setEmitted n => s.modify n Connection.setEmitted

namespace Objects

variable [DecidableEq θ] [DecidableEq ς] [DecidableEq ρ]

/-- `Signal::connect` of a member function. -/
def connect (o : Objects θ ς ρ) (g : ς) (r : ρ) (type : UInt32) (thread : Option θ) :
    Objects θ ς ρ :=
  match (o.signals g).connect r type thread with
  | (s, none) => o.setSignal g s
  | (s, some _) => (o.setSignal g s).addSender r g

/-- `SignalBase::disconnect(receiver)`. -/
def disconnect (o : Objects θ ς ρ) (g : ς) (r : ρ) : Objects θ ς ρ :=
  match o.findReceiver g r with
  | none => o
  | some n => (o.setSignal g ((o.signals g).erase n)).removeSender r g

/-- `SignalBase::disconnect(conn)`. -/
def disconnectConnection (o : Objects θ ς ρ) (g : ς) (n : ℕ) : Objects θ ς ρ :=
  if n ∈ (o.signals g).connectionList then o.setSignal g ((o.signals g).erase n) else o

/-- What the loop of `SignalBase::disconnectAll` does for a connection it finds at the front. -/
def disconnectFront (o : Objects θ ς ρ) (g : ς) (n : ℕ) : Objects θ ς ρ :=
  let o' := match o.receiver ((o.signals g).connections n) with
    | some r => o.removeSender r g
    | none => o
  o'.setSignal g (o'.signals g).popFront

/-- `SignalBase::disconnectAll`. -/
def disconnectAll (o : Objects θ ς ρ) (g : ς) : Objects θ ς ρ :=
  let o' := (o.signals g).connectionList.foldl (fun o n => o.disconnectFront g n) o
  o'.setSignal g (o'.signals g).setEnd

/-- `HasSlots::doDisconnectAll`. -/
def detach (o : Objects θ ς ρ) (r : ρ) : Objects θ ς ρ :=
  (o.senderList r).foldl (fun o g => o.slotDisconnect g r) (o.setSenderList r [])

/-- `~HasSlots`. -/
def destroy (o : Objects θ ς ρ) (r : ρ) : Objects θ ς ρ := (o.kill r).detach r

/-- `HasSlots::buildConnections4`. -/
def buildConnections4 (o : Objects θ ς ρ) (r newReceiver : ρ) : Objects θ ς ρ :=
  (o.senderList r).foldl (fun o g => (o.slotClone g r newReceiver).addSender newReceiver g) o

/-- One operation. Receivers are passed as shared pointers, so they are alive. -/
def perform (o : Objects θ ς ρ) : Operation θ ς ρ → Option (Objects θ ς ρ)
  | .connectFunc g type thread =>
    some (o.setSignal g ((o.signals g).connectFunc type thread).1)
  | .connect g r type thread => if o.alive r then some (o.connect g r type thread) else none
  | .disconnect g r => if o.alive r then some (o.disconnect g r) else none
  | .disconnectConnection g n => some (o.disconnectConnection g n)
  | .disconnectAll g => some (o.disconnectAll g)
  | .emit g step => some (o.setSignal g ((o.signals g).emitStep step))
  | .detach r => if o.alive r then some (o.detach r) else none
  | .destroy r => if o.alive r then some (o.destroy r) else none
  | .buildConnections4 r newReceiver =>
    if o.alive r ∧ o.alive newReceiver ∧ r ≠ newReceiver then
      some (o.buildConnections4 r newReceiver)
    else none

end Objects

/-- The operations as a machine. -/
def operations (θ ς ρ : Type*) [DecidableEq θ] [DecidableEq ς] [DecidableEq ρ] :
    Machine (Objects θ ς ρ) (Operation θ ς ρ) Empty where
  start o := o = Objects.initial
  step o op := (o.perform op).map fun o' => (o', [])

/-! ## Well-formed signals -/

/-- The connections in the list are distinct and have been created, and those that have a receiver
are not functions. -/
structure Signal.WellFormed (s : Signal θ ρ) : Prop where
  /-- No connection is in the list twice. -/
  nodup : s.connectionList.Nodup
  /-- Every connection in the list has been created. -/
  created : ∀ n ∈ s.connectionList, n < s.created
  /-- A connection in the list that has a receiver was made by `ConnectionMF`. -/
  method : ∀ n ∈ s.connectionList, (s.connections n).receiver.isSome →
    (s.connections n).isFunc = false

/-- A connection to `r` is in the list. -/
def Signal.LinkedTo (s : Signal θ ρ) (r : ρ) : Prop :=
  ∃ n ∈ s.connectionList, (s.connections n).receiver = some r

/-- `s'` has no connection in its list that `s` does not have. -/
structure Signal.Shrinks (s s' : Signal θ ρ) : Prop where
  /-- The list of `s'` is part of that of `s`. -/
  sublist : s'.connectionList.Sublist s.connectionList
  /-- Nothing has been created. -/
  created : s'.created = s.created
  /-- The connections have the receivers they had. -/
  receiver : ∀ n, (s'.connections n).receiver = (s.connections n).receiver ∧
    (s'.connections n).isFunc = (s.connections n).isFunc

namespace Signal

theorem Shrinks.refl (s : Signal θ ρ) : s.Shrinks s := ⟨.refl _, rfl, fun _ => ⟨rfl, rfl⟩⟩

theorem Shrinks.trans {s s' s'' : Signal θ ρ} (h : s.Shrinks s') (h' : s'.Shrinks s'') :
    s.Shrinks s'' :=
  ⟨h'.sublist.trans h.sublist, h'.created.trans h.created,
    fun n => ⟨(h'.receiver n).1.trans (h.receiver n).1, (h'.receiver n).2.trans (h.receiver n).2⟩⟩

theorem Shrinks.wellFormed {s s' : Signal θ ρ} (h : s.Shrinks s') (hs : s.WellFormed) :
    s'.WellFormed := by
  refine ⟨hs.nodup.sublist h.sublist, ?_, ?_⟩
  · intro n hn
    rw [h.created]
    exact hs.created n (h.sublist.subset hn)
  · intro n hn
    rw [(h.receiver n).1, (h.receiver n).2]
    exact hs.method n (h.sublist.subset hn)

theorem Shrinks.linkedTo {s s' : Signal θ ρ} (h : s.Shrinks s') {r : ρ} (hl : s'.LinkedTo r) :
    s.LinkedTo r := by
  obtain ⟨n, hn, hr⟩ := hl
  exact ⟨n, h.sublist.subset hn, by rwa [(h.receiver n).1] at hr⟩

theorem shrinks_erase (s : Signal θ ρ) (n : ℕ) : s.Shrinks (s.erase n) :=
  ⟨List.erase_sublist, rfl, fun _ => ⟨rfl, rfl⟩⟩

theorem shrinks_foldl_erase (ns : List ℕ) (s : Signal θ ρ) : s.Shrinks (ns.foldl erase s) := by
  induction ns generalizing s with
  | nil => exact .refl s
  | cons n ns ih => exact (shrinks_erase s n).trans (ih _)

theorem connectionList_foldl_erase (ns : List ℕ) (s : Signal θ ρ) :
    (ns.foldl erase s).connectionList = s.connectionList.diff ns := by
  induction ns generalizing s with
  | nil => simp
  | cons n ns ih =>
    rw [List.foldl_cons, ih, List.diff_cons]
    rfl

theorem shrinks_popFront (s : Signal θ ρ) : s.Shrinks s.popFront :=
  ⟨List.tail_sublist _, rfl, fun _ => ⟨rfl, rfl⟩⟩

theorem shrinks_modify (s : Signal θ ρ) (n : ℕ) {f : Connection θ ρ → Connection θ ρ}
    (hf : ∀ c, (f c).receiver = c.receiver ∧ (f c).isFunc = c.isFunc) :
    s.Shrinks (s.modify n f) := by
  refine ⟨.refl _, rfl, fun m => ?_⟩
  rcases eq_or_ne m n with rfl | hne
  · simpa [modify] using hf _
  · simp [modify, Function.update_of_ne hne]

theorem WellFormed.pushBack {s : Signal θ ρ} (hs : s.WellFormed) {c : Connection θ ρ}
    (hc : c.receiver.isSome → c.isFunc = false) : (s.pushBack c).WellFormed := by
  have hold : ∀ n ∈ s.connectionList, (s.pushBack c).connections n = s.connections n := fun n hn =>
    Function.update_of_ne (hs.created n hn).ne ..
  constructor
  · refine List.nodup_append'.mpr ⟨hs.nodup, List.nodup_singleton _, ?_⟩
    rw [List.disjoint_singleton]
    exact fun hmem => (hs.created _ hmem).false
  · intro n hn
    rcases List.mem_append.mp hn with hn | hn
    · exact (hs.created n hn).trans (Nat.lt_succ_self _)
    · rw [List.mem_singleton.mp hn]
      exact Nat.lt_succ_self _
  · intro n hn
    rcases List.mem_append.mp hn with hn | hn
    · rw [hold n hn]
      exact hs.method n hn
    · rw [List.mem_singleton.mp hn]
      simpa [Signal.pushBack] using hc

theorem WellFormed.linkedTo_pushBack {s : Signal θ ρ} (hs : s.WellFormed) {c : Connection θ ρ}
    {r : ρ} (hl : (s.pushBack c).LinkedTo r) : s.LinkedTo r ∨ c.receiver = some r := by
  obtain ⟨n, hn, hr⟩ := hl
  rcases List.mem_append.mp hn with hmem | hmem
  · have hold : (s.pushBack c).connections n = s.connections n :=
      Function.update_of_ne (hs.created n hmem).ne ..
    exact .inl ⟨n, hmem, by rwa [hold] at hr⟩
  · rw [List.mem_singleton.mp hmem] at hr
    exact .inr (by simpa [Signal.pushBack] using hr)

/-- Connections of the receiver `r` are pushed one after another. -/
theorem WellFormed.foldl_pushBack {r : ρ} (f : ℕ → Connection θ ρ) (ns : List ℕ)
    (hf : ∀ n ∈ ns, (f n).receiver = some r ∧ (f n).isFunc = false) {s : Signal θ ρ}
    (hs : s.WellFormed) : (ns.foldl (fun s n => s.pushBack (f n)) s).WellFormed ∧
      ∀ r', (ns.foldl (fun s n => s.pushBack (f n)) s).LinkedTo r' → s.LinkedTo r' ∨ r' = r := by
  induction ns generalizing s with
  | nil => exact ⟨hs, fun _ => .inl⟩
  | cons n ns ih =>
    obtain ⟨hr, hfunc⟩ := hf n List.mem_cons_self
    obtain ⟨hwf, hlinked⟩ := ih (fun m hm => hf m (List.mem_cons_of_mem _ hm))
      (hs.pushBack fun _ => hfunc)
    refine ⟨hwf, fun r' hl => ?_⟩
    rcases hlinked r' hl with hl' | rfl
    · refine (hs.linkedTo_pushBack hl').imp_right ?_
      intro hr'
      exact Option.some_injective _ (hr'.symm.trans hr)
    · exact .inr rfl

theorem shrinks_unique (s : Signal θ ρ) (unique : Bool) : s.Shrinks { s with unique } :=
  ⟨.refl _, rfl, fun _ => ⟨rfl, rfl⟩⟩

theorem connectFunc_cases (s : Signal θ ρ) (type : UInt32) (thread : Option θ) :
    ∃ s₁, s.Shrinks s₁ ∧ (s.connectFunc type thread = (s₁, none) ∨ s.connectFunc type thread =
      (s₁.pushBack (.make none (type &&& ~~~UniqueConnection) thread), some s.created)) := by
  simp only [connectFunc]
  split
  · exact ⟨s, .refl s, .inl rfl⟩
  · refine ⟨_, s.shrinks_unique (type &&& UniqueConnection != 0 || s.unique), ?_⟩
    split
    · exact .inl rfl
    · exact .inr rfl

theorem connect_cases (s : Signal θ ρ) (r : ρ) (type : UInt32) (thread : Option θ) :
    ∃ s₁, s.Shrinks s₁ ∧ (s.connect r type thread = (s₁, none) ∨ s.connect r type thread =
      (s₁.pushBack (.make (some r) (type &&& ~~~UniqueConnection) thread), some s.created)) := by
  simp only [connect]
  split
  · exact ⟨s, .refl s, .inl rfl⟩
  · refine ⟨_, s.shrinks_unique (type &&& UniqueConnection != 0 || s.unique), ?_⟩
    split
    · exact .inl rfl
    · exact .inr rfl

theorem shrinks_setEnd (s : Signal θ ρ) : s.Shrinks s.setEnd := ⟨.refl _, rfl, fun _ => ⟨rfl, rfl⟩⟩

theorem shrinks_setBegin (s : Signal θ ρ) : s.Shrinks s.setBegin :=
  ⟨.refl _, rfl, fun _ => ⟨rfl, rfl⟩⟩

theorem shrinks_advance (s : Signal θ ρ) : s.Shrinks s.advance :=
  ⟨.refl _, rfl, fun _ => ⟨rfl, rfl⟩⟩

theorem shrinks_emitStep [DecidableEq θ] (s : Signal θ ρ) (e : EmitStep θ) :
    s.Shrinks (s.emitStep e) := by
  cases e with
  | begin => exact shrinks_setBegin s
  | advance => exact shrinks_advance s
  | settle n current =>
    show s.Shrinks (s.modify n fun c => c.settle current)
    exact shrinks_modify s n fun c => ⟨c.settle_receiver current, c.settle_isFunc current⟩
  | setFired n =>
    show s.Shrinks (s.modify n Connection.setFired)
    exact shrinks_modify s n fun c => ⟨c.setFired_receiver, c.setFired_isFunc⟩
  | setEmitted n =>
    show s.Shrinks (s.modify n Connection.setEmitted)
    exact shrinks_modify s n fun c => ⟨rfl, rfl⟩

end Signal

/-! ## The two lists -/

/-- The signal `g` has a connection to the receiver `r` in its list. -/
def Objects.Linked (o : Objects θ ς ρ) (g : ς) (r : ρ) : Prop := (o.signals g).LinkedTo r

/-- The lists agree but for the pairs in `pending`. -/
structure Objects.RecordedUpTo (pending : ς → ρ → Prop) (o : Objects θ ς ρ) : Prop where
  /-- Every signal is well-formed. -/
  wellFormed : ∀ g, (o.signals g).WellFormed
  /-- A receiver that a signal has a connection to is alive and knows the signal. -/
  linked : ∀ g r, o.Linked g r → pending g r ∨ o.alive r = true ∧ g ∈ o.senderList r

namespace Objects

variable {o : Objects θ ς ρ} {pending : ς → ρ → Prop}

/-- The two lists agree. -/
abbrev Recorded (o : Objects θ ς ρ) : Prop := o.RecordedUpTo fun _ _ => False

theorem RecordedUpTo.imp {pending' : ς → ρ → Prop} (h : o.RecordedUpTo pending)
    (himp : ∀ g r, pending g r → o.Linked g r → pending' g r ∨
      o.alive r = true ∧ g ∈ o.senderList r) : o.RecordedUpTo pending' := by
  refine ⟨h.wellFormed, ?_⟩
  intro g r hl
  rcases h.linked g r hl with hp | hp
  · exact himp g r hp hl
  · exact .inr hp

/-- The receiver `r`, which may be being destroyed, forgets about all its signals. -/
theorem Recorded.forget (h : o.Recorded) {o' : Objects θ ς ρ} {r : ρ}
    (hsignals : o'.signals = o.signals)
    (hrest : ∀ r', r' ≠ r → o'.alive r' = o.alive r' ∧ o'.senderList r' = o.senderList r') :
    o'.RecordedUpTo fun g' r' => r' = r ∧ g' ∈ o.senderList r := by
  refine ⟨fun g => by rw [hsignals]; exact h.wellFormed g, ?_⟩
  intro g' r' hl
  have hl' : o.Linked g' r' := by
    unfold Linked at hl ⊢
    rwa [hsignals] at hl
  obtain ⟨ha, hs⟩ := (h.linked g' r' hl').resolve_left id
  rcases eq_or_ne r' r with rfl | hne
  · exact .inl ⟨rfl, hs⟩
  · rw [(hrest r' hne).1, (hrest r' hne).2]
    exact .inr ⟨ha, hs⟩

/-- A connection with a receiver is not expired only if the receiver is alive. -/
theorem receiver_of_not_expired {c : Connection θ ρ} {r : ρ} (hc : c.receiver = some r)
    (hfunc : c.isFunc = false) (he : o.expired c = false) : o.receiver c = some r := by
  have hsome : (o.receiver c).isNone = false := by
    cases hs : c.isSingleShot <;> simp_all [expired]
  rw [receiver, hc] at hsome ⊢
  cases ha : o.alive r <;> simp_all [Option.filter]

section

variable [DecidableEq ς]

@[simp] theorem signals_setSignal_self (o : Objects θ ς ρ) (g : ς) (s : Signal θ ρ) :
    (o.setSignal g s).signals g = s :=
  Function.update_self ..

theorem signals_setSignal_of_ne (o : Objects θ ς ρ) {g g' : ς} (s : Signal θ ρ) (h : g' ≠ g) :
    (o.setSignal g s).signals g' = o.signals g' :=
  Function.update_of_ne h ..

theorem linked_setSignal_of_ne (o : Objects θ ς ρ) {g g' : ς} (s : Signal θ ρ) (h : g' ≠ g)
    (r : ρ) :
    (o.setSignal g s).Linked g' r ↔ o.Linked g' r := by
  rw [Linked, Linked, signals_setSignal_of_ne o s h]

/-- A signal is written. -/
theorem RecordedUpTo.setSignal {pending' : ς → ρ → Prop} (h : o.RecordedUpTo pending) {g : ς}
    {s : Signal θ ρ} (hs : s.WellFormed)
    (hself : ∀ r, s.LinkedTo r → pending' g r ∨ o.alive r = true ∧ g ∈ o.senderList r)
    (hother : ∀ g' r, g' ≠ g → pending g' r → pending' g' r) :
    (o.setSignal g s).RecordedUpTo pending' := by
  constructor
  · intro g'
    rcases eq_or_ne g' g with rfl | hne
    · rwa [signals_setSignal_self]
    · rw [signals_setSignal_of_ne o s hne]
      exact h.wellFormed g'
  · intro g' r hl
    rcases eq_or_ne g' g with rfl | hne
    · exact hself r (by rwa [Linked, signals_setSignal_self] at hl)
    · rw [linked_setSignal_of_ne o s hne] at hl
      exact (h.linked g' r hl).imp_left (hother g' r hne)

/-- A signal loses connections. -/
theorem RecordedUpTo.shrink (h : o.RecordedUpTo pending) {g : ς} {s : Signal θ ρ}
    (hs : (o.signals g).Shrinks s) : (o.setSignal g s).RecordedUpTo pending := by
  refine h.setSignal (hs.wellFormed (h.wellFormed g)) ?_ fun _ _ _ => id
  intro r hl
  exact h.linked g r (hs.linkedTo hl)

theorem Recorded.connectFunc (h : o.Recorded) (g : ς) (type : UInt32) (thread : Option θ) :
    (o.setSignal g ((o.signals g).connectFunc type thread).1).Recorded := by
  obtain ⟨s, hs, hcases⟩ := (o.signals g).connectFunc_cases type thread
  rcases hcases with heq | heq <;> rw [heq]
  · exact h.shrink hs
  · have hwf := hs.wellFormed (h.wellFormed g)
    refine h.setSignal (hwf.pushBack nofun) (fun r hl => ?_) fun _ _ _ => id
    rcases hwf.linkedTo_pushBack hl with hl | hr
    · exact h.linked g r (hs.linkedTo hl)
    · cases hr

theorem Recorded.disconnectConnection (h : o.Recorded) (g : ς) (n : ℕ) :
    (o.disconnectConnection g n).Recorded := by
  unfold Objects.disconnectConnection
  split
  · exact h.shrink (Signal.shrinks_erase _ n)
  · exact h

end

variable [DecidableEq ς] [DecidableEq ρ]

/-- A receiver is told about a signal. -/
theorem RecordedUpTo.addSender (h : o.RecordedUpTo pending) {g : ς} {r : ρ}
    (hr : o.alive r = true) :
    (o.addSender r g).RecordedUpTo fun g' r' => pending g' r' ∧ ¬ (g' = g ∧ r' = r) := by
  refine ⟨h.wellFormed, ?_⟩
  intro g' r' hl
  have hmem : ∀ g₁ ∈ o.senderList r', g₁ ∈ (o.addSender r g).senderList r' := by
    intro g₁ hg₁
    simp only [Objects.addSender, setSenderList]
    rcases eq_or_ne r' r with rfl | hne
    · rw [Function.update_self]
      exact List.mem_append_left _ hg₁
    · rwa [Function.update_of_ne hne]
  by_cases hsame : g' = g ∧ r' = r
  · obtain ⟨rfl, rfl⟩ := hsame
    refine .inr ⟨hr, ?_⟩
    simp [Objects.addSender, setSenderList]
  · rcases h.linked g' r' hl with hp | ⟨ha, hs⟩
    · exact .inl ⟨hp, hsame⟩
    · exact .inr ⟨ha, hmem _ hs⟩

/-- A receiver forgets about a signal. -/
theorem RecordedUpTo.removeSender (h : o.RecordedUpTo pending) (g : ς) (r : ρ) :
    (o.removeSender r g).RecordedUpTo fun g' r' => pending g' r' ∨ g' = g ∧ r' = r := by
  refine ⟨h.wellFormed, ?_⟩
  intro g' r' hl
  rcases h.linked g' r' hl with hp | ⟨ha, hs⟩
  · exact .inl (.inl hp)
  · by_cases hsame : g' = g ∧ r' = r
    · exact .inl (.inr hsame)
    · refine .inr ⟨ha, ?_⟩
      simp only [Objects.removeSender, setSenderList]
      rcases eq_or_ne r' r with rfl | hne
      · rw [Function.update_self, List.mem_filter]
        exact ⟨hs, by simpa using fun hg => hsame ⟨hg, rfl⟩⟩
      · rwa [Function.update_of_ne hne]

/-- `doDisconnect` leaves no connection to the receiver. -/
theorem not_linked_slotDisconnect (hg : (o.signals g).WellFormed) {r : ρ} :
    ¬ (o.slotDisconnect g r).Linked g r := by
  rw [Linked, slotDisconnect, signals_setSignal_self]
  rintro ⟨n, hn, hr⟩
  rw [((Signal.shrinks_foldl_erase _ _).receiver n).1] at hr
  rw [Signal.connectionList_foldl_erase, hg.nodup.mem_sdiff_iff, disconnected,
    List.mem_filter] at hn
  obtain ⟨hmem, hkept⟩ := hn
  simp only [hmem, true_and, Bool.or_eq_true, decide_eq_true_eq, not_or, Bool.not_eq_true] at hkept
  exact hkept.2 (receiver_of_not_expired hr (hg.method n hmem (by simp [hr])) hkept.1)

/-! ## What each operation does to them -/

theorem Recorded.connect (h : o.Recorded) (g : ς) {r : ρ} (hr : o.alive r = true) (type : UInt32)
    (thread : Option θ) : (o.connect g r type thread).Recorded := by
  obtain ⟨s, hs, hcases⟩ := (o.signals g).connect_cases r type thread
  unfold Objects.connect
  rcases hcases with heq | heq <;> rw [heq]
  · exact h.shrink hs
  · -- until the receiver is told, it may have a connection it does not know of
    have hwf := hs.wellFormed (h.wellFormed g)
    have hpush : (o.setSignal g (s.pushBack (.make (some r) (type &&& ~~~UniqueConnection)
        thread))).RecordedUpTo fun g' r' => g' = g ∧ r' = r := by
      refine h.setSignal (hwf.pushBack fun _ => rfl) (fun r' hl => ?_) fun _ _ _ => False.elim
      rcases hwf.linkedTo_pushBack hl with hl | hr'
      · exact (h.linked g r' (hs.linkedTo hl)).imp_left False.elim
      · exact .inl ⟨rfl, (Option.some_injective _ hr').symm⟩
    refine (hpush.addSender hr).imp fun g' r' hp _ => absurd hp.1 hp.2

/-- How many connections to `r` the signal `g` has in its list. -/
def count (o : Objects θ ς ρ) (g : ς) (r : ρ) : ℕ :=
  (o.signals g).connectionList.countP fun n => ((o.signals g).connections n).receiver = some r

omit [DecidableEq ς] in
/-- What is found is the first connection in the list to the receiver. -/
theorem findReceiver_of_alive {r : ρ} (hr : o.alive r = true) (g : ς) :
    o.findReceiver g r = (o.signals g).connectionList.find? fun n =>
      ((o.signals g).connections n).receiver = some r := by
  unfold findReceiver
  congr 1
  funext n
  rw [decide_eq_decide, receiver, Option.filter_eq_some_iff, and_iff_left hr]

/-- `disconnect(receiver)` leaves a connection to the receiver if there are several. -/
theorem linked_disconnect {g : ς} {r : ρ} (hr : o.alive r = true) :
    (o.disconnect g r).Linked g r ↔ 1 < o.count g r := by
  unfold disconnect
  cases hfind : o.findReceiver g r with
  | none =>
    rw [findReceiver_of_alive hr, List.find?_eq_none] at hfind
    have hzero : o.count g r = 0 := List.countP_eq_zero.mpr hfind
    rw [hzero]
    refine iff_of_false ?_ (by decide)
    rintro ⟨n, hn, hrec⟩
    exact hfind n hn (by simpa using hrec)
  | some n =>
    rw [findReceiver_of_alive hr] at hfind
    have hp := List.find?_some hfind
    have hmem := List.mem_of_find?_eq_some hfind
    have hcount : ((o.signals g).connectionList.erase n).countP (fun n =>
        ((o.signals g).connections n).receiver = some r) = o.count g r - 1 := by
      rw [List.countP_erase, if_pos ⟨hmem, hp⟩]
      rfl
    have hpos := List.countP_pos_iff (p := fun n =>
      decide (((o.signals g).connections n).receiver = some r))
      (l := (o.signals g).connectionList.erase n)
    simp only [decide_eq_true_eq] at hpos
    rw [hcount] at hpos
    simp only [Linked, removeSender, setSenderList, signals_setSignal_self]
    exact hpos.symm.trans (by omega)

/-- A receiver that a signal with connections to it was asked to disconnect does not know it. -/
theorem not_mem_senderList_disconnect {g : ς} {r : ρ} (hr : o.alive r = true)
    (hcount : 1 < o.count g r) : g ∉ (o.disconnect g r).senderList r := by
  unfold disconnect
  cases hfind : o.findReceiver g r with
  | none =>
    rw [findReceiver_of_alive hr, List.find?_eq_none] at hfind
    have hzero : o.count g r = 0 := List.countP_eq_zero.mpr hfind
    omega
  | some n => simp [removeSender, setSenderList]

theorem alive_disconnect (o : Objects θ ς ρ) (g : ς) (r : ρ) :
    (o.disconnect g r).alive = o.alive := by
  unfold disconnect
  split <;> rfl

theorem Recorded.disconnect (h : o.Recorded) (g : ς) {r : ρ} (hr : o.alive r = true)
    (hcount : o.count g r ≤ 1) : (o.disconnect g r).Recorded := by
  have hlinked := linked_disconnect (g := g) hr
  revert hlinked
  unfold Objects.disconnect
  cases o.findReceiver g r with
  | none => exact fun _ => h
  | some n =>
    intro hlinked
    refine ((h.shrink (Signal.shrinks_erase _ n)).removeSender g r).imp ?_
    rintro g' r' (hp | ⟨rfl, rfl⟩) hl
    · exact hp.elim
    · have := hlinked.mp hl
      omega

/-- The loop of `disconnectAll`. -/
theorem RecordedUpTo.disconnectFront {g : ς} (h : o.RecordedUpTo fun g' _ => g' = g) (n : ℕ) :
    (o.disconnectFront g n).RecordedUpTo (fun g' _ => g' = g) ∧
      ((o.disconnectFront g n).signals g).connectionList =
        (o.signals g).connectionList.tail := by
  unfold Objects.disconnectFront
  rw [signals_setSignal_self]
  split
  · refine ⟨?_, rfl⟩
    refine ((h.removeSender g _).imp ?_).shrink (Signal.shrinks_popFront _)
    rintro g' r' (hp | hp) -
    · exact .inl hp
    · exact .inl hp.1
  · exact ⟨h.shrink (Signal.shrinks_popFront _), rfl⟩

theorem RecordedUpTo.foldl_disconnectFront {g : ς} (ns : List ℕ)
    (h : o.RecordedUpTo fun g' _ => g' = g) :
    (ns.foldl (fun o n => o.disconnectFront g n) o).RecordedUpTo (fun g' _ => g' = g) ∧
      ((ns.foldl (fun o n => o.disconnectFront g n) o).signals g).connectionList =
        (o.signals g).connectionList.drop ns.length := by
  induction ns generalizing o with
  | nil => exact ⟨h, by simp⟩
  | cons n ns ih =>
    obtain ⟨hfront, hlist⟩ := h.disconnectFront n
    obtain ⟨hrest, hdrop⟩ := ih hfront
    refine ⟨hrest, ?_⟩
    rw [List.foldl_cons, hdrop, hlist, List.drop_tail, List.length_cons]

theorem Recorded.disconnectAll (h : o.Recorded) (g : ς) : (o.disconnectAll g).Recorded := by
  have hloop := (h.imp fun _ _ => False.elim).foldl_disconnectFront (g := g)
    (o.signals g).connectionList
  rw [List.drop_length] at hloop
  unfold Objects.disconnectAll
  refine hloop.1.setSignal ?_ ?_ fun g' r hne hg => absurd hg hne
  · exact (Signal.shrinks_setEnd _).wellFormed (hloop.1.wellFormed g)
  · rintro r ⟨n, hn, -⟩
    simp only [Signal.setEnd, hloop.2] at hn
    cases hn

/-- The loop of `_doDisconnectAll`. -/
theorem RecordedUpTo.foldl_slotDisconnect {r : ρ} (gs : List ς)
    (h : o.RecordedUpTo fun g' r' => r' = r ∧ g' ∈ gs) :
    (gs.foldl (fun o g => o.slotDisconnect g r) o).Recorded := by
  induction gs generalizing o with
  | nil => exact h.imp fun g' r' hp _ => by simp at hp
  | cons g gs ih =>
    refine ih ((h.shrink (Signal.shrinks_foldl_erase _ _)).imp ?_)
    rintro g' r' ⟨rfl, hmem⟩ hl
    rcases List.mem_cons.mp hmem with rfl | hmem
    · exact absurd hl (not_linked_slotDisconnect (h.wellFormed g'))
    · exact .inl ⟨rfl, hmem⟩

theorem Recorded.detach (h : o.Recorded) (r : ρ) : (o.detach r).Recorded := by
  refine RecordedUpTo.foldl_slotDisconnect _ (h.forget rfl fun r' hne => ⟨rfl, ?_⟩)
  exact Function.update_of_ne hne ..

theorem Recorded.destroy (h : o.Recorded) (r : ρ) : (o.destroy r).Recorded := by
  refine RecordedUpTo.foldl_slotDisconnect _ (h.forget rfl fun r' hne => ⟨?_, ?_⟩)
  · exact Function.update_of_ne hne ..
  · exact Function.update_of_ne hne ..

/-- Connections of `r` are cloned for another receiver, which is then told. -/
theorem Recorded.slotClone (h : o.Recorded) (g : ς) (r : ρ) {r₂ : ρ} (hr₂ : o.alive r₂ = true) :
    ((o.slotClone g r r₂).addSender r₂ g).Recorded := by
  have hpush := (h.wellFormed g).foldl_pushBack (r := r₂)
    (fun n => ((o.signals g).connections n).clone r₂) (o.cloned g r) fun n hn => ?_
  · have hclone : (o.slotClone g r r₂).RecordedUpTo fun g' r' => g' = g ∧ r' = r₂ := by
      refine h.setSignal hpush.1 (fun r' hl => ?_) fun _ _ _ => False.elim
      rcases hpush.2 r' hl with hl | rfl
      · exact (h.linked g r' hl).imp_left False.elim
      · exact .inl ⟨rfl, rfl⟩
    exact (hclone.addSender hr₂).imp fun g' r' hp _ => absurd hp.1 hp.2
  · rw [cloned, List.mem_filter, decide_eq_true_eq, receiver, Option.filter_eq_some_iff] at hn
    exact ⟨rfl, (h.wellFormed g).method n hn.1 (by rw [hn.2.1]; rfl)⟩

theorem Recorded.buildConnections4 (h : o.Recorded) (r : ρ) {r₂ : ρ} (hr₂ : o.alive r₂ = true) :
    (o.buildConnections4 r r₂).Recorded := by
  unfold Objects.buildConnections4
  generalize o.senderList r = gs
  induction gs generalizing o with
  | nil => exact h
  | cons g gs ih => exact ih (h.slotClone g r hr₂) hr₂

end Objects

/-! ## The law -/

/-- Every receiver knows the signals that have connections to it, and no signal has a connection to
a receiver that has been destroyed. -/
structure Objects.ListsAgree (o : Objects θ ς ρ) : Prop where
  /-- A signal with a connection to a live receiver is in the list of that receiver. -/
  recorded : ∀ g r, o.alive r = true → o.Linked g r → g ∈ o.senderList r
  /-- No connection to a destroyed receiver is left. -/
  severed : ∀ g r, o.alive r = false → ¬ o.Linked g r

theorem Objects.Recorded.listsAgree {o : Objects θ ς ρ} (h : o.Recorded) : o.ListsAgree := by
  constructor
  · intro g r _ hl
    exact ((h.linked g r hl).resolve_left id).2
  · intro g r hr hl
    simp [((h.linked g r hl).resolve_left id).1] at hr

theorem Objects.recorded_initial : (Objects.initial : Objects θ ς ρ).Recorded :=
  ⟨fun _ => ⟨List.nodup_nil, nofun, nofun⟩, fun _ _ ⟨_, hn, _⟩ => nomatch hn⟩

variable [DecidableEq θ] [DecidableEq ς] [DecidableEq ρ]

/-- No signal with several connections to a receiver is asked to disconnect it. -/
def Objects.Spares (o : Objects θ ς ρ) : Operation θ ς ρ → Prop
  | .disconnect g r => o.count g r ≤ 1
  | _ => True

instance (o : Objects θ ς ρ) (op : Operation θ ς ρ) : Decidable (o.Spares op) := by
  cases op <;> unfold Objects.Spares <;> infer_instance

/-- **One operation.** -/
theorem Objects.Recorded.perform {o o' : Objects θ ς ρ} {op : Operation θ ς ρ} (h : o.Recorded)
    (hs : o.Spares op) (hp : o.perform op = some o') : o'.Recorded := by
  cases op with
  | connectFunc g type thread =>
    obtain rfl := Option.some_injective _ hp
    exact h.connectFunc g type thread
  | connect g r type thread =>
    obtain ⟨hr, ⟨⟩⟩ := Option.ite_none_right_eq_some.mp hp
    exact h.connect g hr type thread
  | disconnect g r =>
    obtain ⟨hr, ⟨⟩⟩ := Option.ite_none_right_eq_some.mp hp
    exact h.disconnect g hr hs
  | disconnectConnection g n =>
    obtain rfl := Option.some_injective _ hp
    exact h.disconnectConnection g n
  | disconnectAll g =>
    obtain rfl := Option.some_injective _ hp
    exact h.disconnectAll g
  | emit g step =>
    obtain rfl := Option.some_injective _ hp
    exact h.shrink ((o.signals g).shrinks_emitStep step)
  | detach r =>
    obtain ⟨-, ⟨⟩⟩ := Option.ite_none_right_eq_some.mp hp
    exact h.detach r
  | destroy r =>
    obtain ⟨-, ⟨⟩⟩ := Option.ite_none_right_eq_some.mp hp
    exact h.destroy r
  | buildConnections4 r r₂ =>
    obtain ⟨⟨-, hr₂, -⟩, ⟨⟩⟩ := Option.ite_none_right_eq_some.mp hp
    exact h.buildConnections4 r hr₂

/-- **The two lists agree for as long as no signal is asked to disconnect a receiver it has several
connections to**, and the first operation that does ask for that ends the agreement. -/
theorem sender_list_law {h : List Empty} {o : Objects θ ς ρ}
    (hr : (operations θ ς ρ).ReachesVia Objects.Spares h o) :
    o.ListsAgree ∧ ∀ op o', o.perform op = some o' → (o'.ListsAgree ↔ o.Spares op) := by
  have hrec : o.Recorded := by
    refine hr.invariant Objects.Recorded ?_ ?_
    · rintro o rfl
      exact Objects.recorded_initial
    · rintro o op o' out hrec hs hst
      obtain ⟨o₁, hp, heq⟩ := Option.map_eq_some_iff.mp hst
      obtain rfl : o₁ = o' := congrArg Prod.fst heq
      exact hrec.perform hs hp
  refine ⟨hrec.listsAgree, fun op o' hp => ⟨fun hagree => ?_, fun hs => ?_⟩⟩
  · by_contra hs
    cases op with
    | disconnect g r =>
      obtain ⟨hr, ⟨⟩⟩ := Option.ite_none_right_eq_some.mp hp
      have hcount : 1 < o.count g r := not_le.mp hs
      have hl := (Objects.linked_disconnect hr).mpr hcount
      refine Objects.not_mem_senderList_disconnect hr hcount (hagree.recorded g r ?_ hl)
      rwa [Objects.alive_disconnect]
    | _ => exact hs trivial
  · exact (hrec.perform hs hp).listsAgree

/-- A run that connects a receiver to a signal, as often as it disconnects it again. -/
theorem sender_list_law_run : ∃ o : Objects Unit Unit Unit,
    (operations Unit Unit Unit).ReachesVia Objects.Spares [] o ∧ o.ListsAgree ∧
    ∃ o', o.perform (.disconnect () ()) = some o' ∧ (o'.ListsAgree ↔ True) := by
  obtain ⟨o, hex, o', hp, hs⟩ : ∃ o, (operations Unit Unit Unit).execVia Objects.Spares
      Objects.initial [.connect () () AutoConnection none, .disconnect () (),
        .connect () () DirectConnection none] = some (o, []) ∧
      ∃ o', o.perform (.disconnect () ()) = some o' ∧ o.Spares (.disconnect () ()) :=
    ⟨_, rfl, _, rfl, by decide⟩
  have hr := Machine.ReachesVia.of_execVia rfl hex
  obtain ⟨hagree, hnext⟩ := sender_list_law hr
  exact ⟨o, hr, hagree, o', hp, (hnext _ _ hp).trans (iff_true_intro hs)⟩

/-- **A receiver may not know a signal that has a connection to it.** A receiver is connected to a
signal twice and disconnected once: one connection is left in the list of the signal and no entry in
the list of the receiver. If the receiver is destroyed then, the signal keeps the connection. -/
theorem connection_unrecorded :
    (∃ o, (operations Unit Unit Unit).Reaches [] o ∧ o.alive () = true ∧ o.Linked () () ∧
      () ∉ o.senderList ()) ∧
    ∃ o, (operations Unit Unit Unit).Reaches [] o ∧ o.alive () = false ∧ o.Linked () () := by
  constructor
  · obtain ⟨o, hex, ha, hmem, hrec, hs⟩ : ∃ o, (operations Unit Unit Unit).exec Objects.initial
        [.connect () () AutoConnection none, .connect () () AutoConnection none,
          .disconnect () ()] = some (o, []) ∧ o.alive () = true ∧
        1 ∈ (o.signals ()).connectionList ∧
        ((o.signals ()).connections 1).receiver = some () ∧ () ∉ o.senderList () :=
      ⟨_, rfl, rfl, by decide, rfl, by decide⟩
    exact ⟨o, .of_exec rfl hex, ha, ⟨1, hmem, hrec⟩, hs⟩
  · obtain ⟨o, hex, ha, hmem, hrec⟩ : ∃ o, (operations Unit Unit Unit).exec Objects.initial
        [.connect () () AutoConnection none, .connect () () AutoConnection none,
          .disconnect () (), .destroy ()] = some (o, []) ∧ o.alive () = false ∧
        1 ∈ (o.signals ()).connectionList ∧
        ((o.signals ()).connections 1).receiver = some () :=
      ⟨_, rfl, rfl, by decide, rfl⟩
    exact ⟨o, .of_exec rfl hex, ha, ⟨1, hmem, hrec⟩⟩

end Sigslot2

end TQLib
