import TQLib.Foundations.Machine

/-!
# Signals and slots of one thread

`sigslot.h` with the policy `single_threaded`. A signal keeps a list of connections, and where the
emission of it that is under way has come to; an object that has slots keeps the set of the signals
it is connected to, so that each side can tell the other when it goes away.

A slot may do anything to any signal and any object while it is called: it connects, disconnects,
emits, copies and destroys. The steps are therefore the calls of the library, in any order, and
`State.emitting` says from inside of which emissions they come. A slot that returns hands over to
the loop of the innermost one.

Connections are the nodes of a `std::list`, which are numbered here in the order in which they are
made, so that an iterator is the number of a node.

## Main definitions

* `SignalBase`, `State` — a signal, and all there is
* `machine` — the calls
* `Sound` — what the users of the library have to see to
-/

namespace TQLib

namespace Sigslot

variable {ς ρ μ : Type*} [DecidableEq ς] [DecidableEq ρ]

/-- `_opaque_connection`. -/
structure OpaqueConnection (ρ μ : Type*) where
  pdest : ρ
  pmethod : μ
  deriving DecidableEq

/-- `_opaque_connection::duplicate`. -/
def OpaqueConnection.duplicate (c : OpaqueConnection ρ μ) (newtarget : ρ) : OpaqueConnection ρ μ :=
  { c with pdest := newtarget }

/-! ## A signal -/

/-- `_signal_base`. -/
structure SignalBase (ρ μ : Type*) where
  connectedSlots : List (ℕ × OpaqueConnection ρ μ)
  /-- The node that `m_current_iterator` is at. There is none at `end()`. -/
  currentIterator : Option ℕ

namespace SignalBase

variable (b : SignalBase ρ μ)

/-- `++it` from the node `n`. -/
def succ (n : ℕ) : Option ℕ :=
  ((b.connectedSlots.dropWhile (·.1 ≠ n)).tail.head?).map (·.1)

/-- `*it`. -/
def deref (n : ℕ) : Option (OpaqueConnection ρ μ) :=
  (b.connectedSlots.find? (·.1 = n)).map (·.2)

/-- `push_back`. -/
def pushBack (n : ℕ) (c : OpaqueConnection ρ μ) : SignalBase ρ μ :=
  { b with connectedSlots := b.connectedSlots ++ [(n, c)] }

/-- `erase(it)`. If the signal is firing there, its iterator goes on. -/
def erase (n : ℕ) : SignalBase ρ μ where
  connectedSlots := b.connectedSlots.filter (·.1 ≠ n)
  currentIterator := if b.currentIterator = some n then b.succ n else b.currentIterator

/-- `is_empty`. -/
def isEmpty : Bool := b.connectedSlots.isEmpty

/-- `connected`. -/
def connected (pclass : ρ) : Bool := b.connectedSlots.any (·.2.pdest = pclass)

/-- What `disconnect` does to the list, if it finds the object there: it takes out the first. -/
def disconnect (pclass : ρ) : Option (SignalBase ρ μ) :=
  (b.connectedSlots.find? (·.2.pdest = pclass)).map fun x => b.erase x.1

/-- `do_slot_disconnect`. -/
def slotDisconnect (pslot : ρ) : SignalBase ρ μ :=
  b.connectedSlots.foldl (fun b x => if x.2.pdest = pslot then b.erase x.1 else b) b

end SignalBase

/-! ## All there is -/

/-- The signals and the objects that have slots, if they live. -/
structure State (ς ρ μ : Type*) where
  signals : ς → Option (SignalBase ρ μ)
  /-- `m_senders`. -/
  senders : ρ → Option (List ς)
  /-- The emissions under way, the innermost first. -/
  emitting : List ς
  /-- The next node. -/
  fresh : ℕ

namespace State

variable (s : State ς ρ μ)

/-- Whether an object lives. -/
def alive : ς ⊕ ρ → Bool
  | .inl g => (s.signals g).isSome
  | .inr r => (s.senders r).isSome

/-- A change of the signal `g`. -/
def modify (g : ς) (f : SignalBase ρ μ → SignalBase ρ μ) : State ς ρ μ :=
  { s with signals := Function.update s.signals g ((s.signals g).map f) }

/-- `m_connected_slots.push_back`. -/
def pushBack (g : ς) (c : OpaqueConnection ρ μ) : State ς ρ μ :=
  { s.modify g (·.pushBack s.fresh c) with fresh := s.fresh + 1 }

/-- `do_signal_connect`. -/
def signalConnect (r : ρ) (sender : ς) : State ς ρ μ :=
  { s with senders := Function.update s.senders r ((s.senders r).map (·.insert sender)) }

/-- `do_signal_disconnect`. -/
def signalDisconnect (r : ρ) (sender : ς) : State ς ρ μ :=
  { s with senders := Function.update s.senders r ((s.senders r).map (·.erase sender)) }

/-- The connections of `g`. -/
def slots (g : ς) : List (ℕ × OpaqueConnection ρ μ) :=
  (s.signals g).elim [] (·.connectedSlots)

/-- `do_slot_duplicate`. The loop also comes to what it has put at the end, which is not for
`oldtarget`. -/
def slotDuplicate (g : ς) (oldtarget newtarget : ρ) : State ς ρ μ :=
  (s.slots g).foldl
    (fun s x => if x.2.pdest = oldtarget then s.pushBack g (x.2.duplicate newtarget) else s) s

/-- `_signal_base::disconnect_all`. -/
def disconnectAll (g : ς) : State ς ρ μ :=
  ((s.slots g).foldl (fun s x => s.signalDisconnect x.2.pdest g) s).modify g fun _ => ⟨[], none⟩

/-- `has_slots::do_disconnect_all`. The set of senders is empty after one turn of the outer loop,
since no sender calls back. -/
def slotsDisconnectAll (r : ρ) : State ς ρ μ :=
  ((s.senders r).elim [] id).foldl (fun s g => s.modify g (·.slotDisconnect r))
    { s with senders := Function.update s.senders r ((s.senders r).map fun _ => []) }

/-- `_signal_base(const _signal_base& o)`. -/
def copySignal (o g : ς) : State ς ρ μ :=
  (s.slots o).foldl (fun s x => (s.signalConnect x.2.pdest g).pushBack g x.2)
    { s with signals := Function.update s.signals g (some ⟨[], none⟩) }

/-- `has_slots(has_slots const& o)`. -/
def copySlots (o r : ρ) : State ς ρ μ :=
  ((s.senders o).elim [] id).foldl (fun s g => (s.slotDuplicate g o r).signalConnect r g)
    { s with senders := Function.update s.senders r (some []) }

end State

/-! ## Calls -/

inductive Label (ς ρ μ : Type*)
  /-- `signal()`. -/
  | makeSignal (g : ς)
  /-- `has_slots()`. -/
  | makeSlots (r : ρ)
  /-- `signal(o)`. -/
  | copySignal (o g : ς)
  /-- `has_slots(o)`. -/
  | copySlots (o r : ρ)
  /-- `g.connect(pclass, pmemfun)`. -/
  | connect (g : ς) (pclass : ρ) (pmemfun : μ)
  /-- `g.disconnect(pclass)`. -/
  | disconnect (g : ς) (pclass : ρ)
  /-- `g.disconnect_all()`. -/
  | disconnectAll (g : ς)
  /-- `r.disconnect_all()`. -/
  | slotsDisconnectAll (r : ρ)
  /-- The end of a signal. -/
  | endSignal (g : ς)
  /-- The end of an object that has slots. -/
  | endSlots (r : ρ)
  /-- `g.emit(args...)`. -/
  | emit (g : ς)
  /-- The slot that is running returns. -/
  | ret

inductive Event (ς ρ μ : Type*)
  /-- The library goes to an object over a pointer that it keeps. -/
  | access (o : ς ⊕ ρ) (alive : Bool)
  /-- A slot is called, of the node `n`. -/
  | call (g : ς) (n : ℕ) (c : OpaqueConnection ρ μ) (alive : Bool)
  /-- The iterator is at a node that is not in the list. -/
  | stray (g : ς)
  /-- An emission is over. -/
  | ends (g : ς)
  deriving DecidableEq

variable (s : State ς ρ μ)

/-- The loop of `emit`, up to the next call of a slot or to its end. -/
def emitLoop (g : ς) : State ς ρ μ × List (Event ς ρ μ) :=
  let finished := { s with emitting := s.emitting.tail }
  match s.signals g with
  | none => (finished, [.access (.inl g) false])
  | some b =>
    match b.currentIterator with
    | none => (finished, [.ends g])
    | some n =>
      match b.deref n with
      | none => (finished, [.stray g])
      | some c =>
        (s.modify g fun b => { b with currentIterator := b.succ n },
          [.call g n c (s.alive (.inr c.pdest))])

/-- The objects that a call goes to over pointers which the library keeps. -/
def reached : Label ς ρ μ → List (ς ⊕ ρ)
  | .copySignal o _ => (s.slots o).map fun x => .inr x.2.pdest
  | .copySlots o _ => ((s.senders o).elim [] id).map .inl
  | .disconnectAll g => (s.slots g).map fun x => .inr x.2.pdest
  | .slotsDisconnectAll r => ((s.senders r).elim [] id).map .inl
  | .endSignal g => (s.slots g).map fun x => .inr x.2.pdest
  | .endSlots r => ((s.senders r).elim [] id).map .inl
  | _ => []

/-- What a call does to the objects, if they are there or, where they are to be made, are not. -/
def next : Label ς ρ μ → Option (State ς ρ μ × List (Event ς ρ μ))
  | .makeSignal g =>
    if s.alive (.inl g) then none
    else some ({ s with signals := Function.update s.signals g (some ⟨[], none⟩) }, [])
  | .makeSlots r =>
    if s.alive (.inr r) then none
    else some ({ s with senders := Function.update s.senders r (some []) }, [])
  | .copySignal o g =>
    if s.alive (.inl o) ∧ s.alive (.inl g) = false then some (s.copySignal o g, []) else none
  | .copySlots o r =>
    if s.alive (.inr o) ∧ s.alive (.inr r) = false then some (s.copySlots o r, []) else none
  | .connect g r m =>
    if s.alive (.inl g) ∧ s.alive (.inr r) then some ((s.pushBack g ⟨r, m⟩).signalConnect r g, [])
    else none
  | .disconnect g r =>
    if s.alive (.inr r) then
      match s.signals g with
      | none => none
      | some b =>
        match b.disconnect r with
        | none => some (s, [])
        | some b' => some ((s.modify g fun _ => b').signalDisconnect r g, [])
    else none
  | .disconnectAll g => if s.alive (.inl g) then some (s.disconnectAll g, []) else none
  | .slotsDisconnectAll r =>
    if s.alive (.inr r) then some (s.slotsDisconnectAll r, []) else none
  | .endSignal g =>
    if s.alive (.inl g) then
      let s' := s.disconnectAll g
      some ({ s' with signals := Function.update s'.signals g none }, [])
    else none
  | .endSlots r =>
    if s.alive (.inr r) then
      let s' := s.slotsDisconnectAll r
      some ({ s' with senders := Function.update s'.senders r none }, [])
    else none
  | .emit g =>
    match s.signals g with
    | none => none
    | some b =>
      let front := b.connectedSlots.head?.map (·.1)
      let s' := { s.modify g fun b => { b with currentIterator := front } with
        emitting := g :: s.emitting }
      some (emitLoop s' g)
  | .ret =>
    match s.emitting with
    | [] => none
    | g :: _ => some (emitLoop s g)

/-- A call, and what it reaches. -/
def step (a : Label ς ρ μ) : Option (State ς ρ μ × List (Event ς ρ μ)) :=
  (next s a).map fun (s', out) => (s', (reached s a).map (fun o => .access o (s.alive o)) ++ out)

/-- Signals and slots. At first there are none. -/
def machine (ς ρ μ : Type*) [DecidableEq ς] [DecidableEq ρ] :
    Machine (State ς ρ μ) (Label ς ρ μ) (Event ς ρ μ) where
  start s := (∀ g, s.signals g = none) ∧ (∀ r, s.senders r = none) ∧ s.emitting = []
  step := step

/-- How often `r` is connected to `g`. -/
def State.count (g : ς) (r : ρ) : ℕ := ((s.slots g).filter (·.2.pdest = r)).length

/-- What the users of the library have to see to: a signal does not end while it is emitted, and an
object is only disconnected by name where it is connected once. -/
def Sound : Label ς ρ μ → Prop
  | .disconnect g r => s.count g r ≤ 1
  | .endSignal g => g ∉ s.emitting
  | _ => True

instance : (a : Label ς ρ μ) → Decidable (Sound s a)
  | .disconnect g r => inferInstanceAs (Decidable (s.count g r ≤ 1))
  | .endSignal g => inferInstanceAs (Decidable (g ∉ s.emitting))
  | .makeSignal _ => .isTrue trivial
  | .makeSlots _ => .isTrue trivial
  | .copySignal _ _ => .isTrue trivial
  | .copySlots _ _ => .isTrue trivial
  | .connect _ _ _ => .isTrue trivial
  | .disconnectAll _ => .isTrue trivial
  | .slotsDisconnectAll _ => .isTrue trivial
  | .endSlots _ => .isTrue trivial
  | .emit _ => .isTrue trivial
  | .ret => .isTrue trivial

end Sigslot

end TQLib
