import TQLib.Sigslot.Lists

/-!
# Who knows whom

A signal is linked to the objects that its connections lead to, and listed by the objects that have
it among their senders. What each function of the library does to the one and to the other.
-/

namespace TQLib

namespace Sigslot

open SignalBase State

variable {ς ρ μ α : Type*} {s s' : State ς ρ μ} {g g' : ς} {r r' : ρ}

/-- What the turns of a loop make true. -/
theorem foldl_iff_or {σ : Type*} {f : σ → α → σ} {P I : σ → Prop} {Q : α → Prop} (xs : List α)
    (hI : ∀ s, ∀ x ∈ xs, I s → I (f s x)) (hf : ∀ s, ∀ x ∈ xs, I s → (P (f s x) ↔ P s ∨ Q x))
    {s : σ} (hs : I s) : P (xs.foldl f s) ↔ P s ∨ ∃ x ∈ xs, Q x := by
  induction xs generalizing s with
  | nil => simp
  | cons x xs ih =>
    have htail := ih (fun s y hy => hI s y (List.mem_cons_of_mem x hy))
      (fun s y hy => hf s y (List.mem_cons_of_mem x hy)) (hI s x List.mem_cons_self hs)
    rw [List.foldl_cons, htail, hf s x List.mem_cons_self hs, or_assoc, List.exists_mem_cons_iff]

/-- What the turns of a loop make false. -/
theorem foldl_iff_and {σ : Type*} {f : σ → α → σ} {P I : σ → Prop} {Q : α → Prop} (xs : List α)
    (hI : ∀ s, ∀ x ∈ xs, I s → I (f s x)) (hf : ∀ s, ∀ x ∈ xs, I s → (P (f s x) ↔ P s ∧ ¬ Q x))
    {s : σ} (hs : I s) : P (xs.foldl f s) ↔ P s ∧ ¬ ∃ x ∈ xs, Q x := by
  have hnot : ¬ P (xs.foldl f s) ↔ ¬ P s ∨ ∃ x ∈ xs, Q x :=
    foldl_iff_or (P := fun s => ¬ P s) xs hI (fun s x hx hs => by
      rw [hf s x hx hs, not_and_or, not_not]) hs
  rw [← not_iff_not, hnot, not_and_or, not_not]

namespace State

/-- The signal has a connection to the object. -/
def Linked (s : State ς ρ μ) (g : ς) (r : ρ) : Prop := ∃ x ∈ s.slots g, x.2.pdest = r

/-- The object has the signal among its senders. -/
def Listed (s : State ς ρ μ) (r : ρ) (g : ς) : Prop := ∃ l, s.senders r = some l ∧ g ∈ l

/-- No sender is there twice. -/
def Distinct (s : State ς ρ μ) : Prop := ∀ r l, s.senders r = some l → l.Nodup

theorem slots_eq (s : State ς ρ μ) (g : ς) : s.slots g = (s.base g).connectedSlots := by
  rw [slots, base]
  cases s.signals g <;> rfl

theorem Linked.alive (h : s.Linked g r) : s.alive (.inl g) = true := by
  obtain ⟨x, hx, -⟩ := h
  rw [slots] at hx
  rw [State.alive]
  cases hg : s.signals g with
  | none =>
    rw [hg] at hx
    cases hx
  | some b => rfl

theorem Listed.alive (h : s.Listed r g) : s.alive (.inr r) = true := by
  obtain ⟨l, hl, -⟩ := h
  rw [State.alive, hl]
  rfl

theorem mem_senders : g ∈ (s.senders r).elim [] id ↔ s.Listed r g := by
  rw [Listed]
  cases s.senders r <;> simp

theorem linked_iff_count [DecidableEq ρ] : s.Linked g r ↔ 0 < s.count g r := by
  rw [State.Linked, State.count, List.length_pos_iff_exists_mem]
  simp

variable [DecidableEq ς]

/-! ## One turn -/

@[simp] theorem alive_modify (s : State ς ρ μ) (g : ς) (f : SignalBase ρ μ → SignalBase ρ μ) :
    (s.modify g f).alive = s.alive := by
  funext o
  cases o with
  | inl g' =>
    rcases eq_or_ne g' g with rfl | hne
    · simp [alive, modify]
    · simp [alive, modify, Function.update_of_ne hne]
  | inr r => rfl

@[simp] theorem alive_pushBack (s : State ς ρ μ) (g : ς) (c : OpaqueConnection ρ μ) :
    (s.pushBack g c).alive = s.alive :=
  alive_modify s g _

@[simp] theorem alive_begin (s : State ς ρ μ) (g : ς) : (s.begin g).alive = s.alive :=
  alive_modify s g fun b => { b with currentIterator := b.connectedSlots.head?.map (·.1) }

theorem linked_pushBack (hg : s.alive (.inl g) = true) (c : OpaqueConnection ρ μ) :
    (s.pushBack g c).Linked g' r ↔ s.Linked g' r ∨ g' = g ∧ r = c.pdest := by
  obtain ⟨b, hb⟩ := Option.isSome_iff_exists.mp hg
  rcases eq_or_ne g' g with rfl | hne
  · simp only [State.Linked, slots, State.pushBack, modify, Function.update_self, hb,
      Option.map_some, Option.elim_some, SignalBase.pushBack, List.mem_append, List.mem_singleton,
      or_and_right, exists_or, exists_eq_left, true_and, eq_comm (a := r)]
  · simp [State.Linked, slots, State.pushBack, modify, hne]

/-- A new signal has no connections. -/
theorem linked_update_none (hg : s.alive (.inl g) = false) :
    State.Linked { s with signals := Function.update s.signals g (some ⟨[], none⟩) } g' r ↔
      s.Linked g' r := by
  have hnone : s.signals g = none := by simpa [alive] using hg
  rcases eq_or_ne g' g with rfl | hne
  · simp [State.Linked, slots, hnone]
  · simp [State.Linked, slots, hne]

variable [DecidableEq ρ]

@[simp] theorem alive_signalConnect (s : State ς ρ μ) (r : ρ) (g : ς) :
    (s.signalConnect r g).alive = s.alive := by
  funext o
  cases o with
  | inl g' => rfl
  | inr r' =>
    rcases eq_or_ne r' r with rfl | hne
    · simp [alive, signalConnect]
    · simp [alive, signalConnect, Function.update_of_ne hne]

@[simp] theorem alive_signalDisconnect (s : State ς ρ μ) (r : ρ) (g : ς) :
    (s.signalDisconnect r g).alive = s.alive := by
  funext o
  cases o with
  | inl g' => rfl
  | inr r' =>
    rcases eq_or_ne r' r with rfl | hne
    · simp [alive, signalDisconnect]
    · simp [alive, signalDisconnect, Function.update_of_ne hne]

theorem linked_slotDisconnect (hb : (s.base g).Keyed s.fresh) :
    (s.modify g (·.slotDisconnect r)).Linked g' r' ↔ s.Linked g' r' ∧ ¬ (g' = g ∧ r' = r) := by
  simp only [State.Linked, slots_eq]
  rcases eq_or_ne g' g with rfl | hne
  · have hbase : (s.modify g' (·.slotDisconnect r)).base g' = (s.base g').slotDisconnect r := by
      cases hg : s.signals g' <;> simp [State.base, modify, hg, slotDisconnect]
    simp only [hbase, hb.mem_slotDisconnect, true_and]
    constructor
    · rintro ⟨x, ⟨hx, hr⟩, rfl⟩
      exact ⟨⟨x, hx, rfl⟩, hr⟩
    · rintro ⟨⟨x, hx, rfl⟩, hr⟩
      exact ⟨x, ⟨hx, hr⟩, rfl⟩
  · simp [State.base, modify, hne]

theorem listed_signalConnect (hr : s.alive (.inr r) = true) :
    (s.signalConnect r g).Listed r' g' ↔ s.Listed r' g' ∨ r' = r ∧ g' = g := by
  obtain ⟨l, hl⟩ := Option.isSome_iff_exists.mp hr
  rcases eq_or_ne r' r with rfl | hne
  · simp [Listed, signalConnect, hl, or_comm]
  · simp [Listed, signalConnect, hne]

theorem listed_signalDisconnect (hd : s.Distinct) :
    (s.signalDisconnect r g).Listed r' g' ↔ s.Listed r' g' ∧ ¬ (r' = r ∧ g' = g) := by
  rcases eq_or_ne r' r with rfl | hne
  · cases hl : s.senders r' with
    | none => simp [Listed, signalDisconnect, hl]
    | some l => simp [Listed, signalDisconnect, hl, (hd r' l hl).mem_erase_iff, and_comm]
  · simp [Listed, signalDisconnect, hne]

theorem Distinct.signalConnect (hd : s.Distinct) (r : ρ) (g : ς) :
    (s.signalConnect r g).Distinct := by
  intro r' l hl
  rcases update_cases hl with ⟨rfl, heq⟩ | ⟨-, heq⟩
  · obtain ⟨l', hl', rfl⟩ := Option.map_eq_some_iff.mp heq
    exact (hd r' l' hl').insert
  · exact hd r' l heq

theorem Distinct.signalDisconnect (hd : s.Distinct) (r : ρ) (g : ς) :
    (s.signalDisconnect r g).Distinct := by
  intro r' l hl
  rcases update_cases hl with ⟨rfl, heq⟩ | ⟨-, heq⟩
  · obtain ⟨l', hl', rfl⟩ := Option.map_eq_some_iff.mp heq
    exact (hd r' l' hl').erase g
  · exact hd r' l heq

/-! ## The loops -/

theorem linked_slotDuplicate (hg : s.alive (.inl g) = true) {o r : ρ} :
    (s.slotDuplicate g o r).Linked g' r' ↔
      s.Linked g' r' ∨ s.Linked g o ∧ g' = g ∧ r' = r := by
  have hfold := foldl_iff_or (s.slots g) (s := s) (P := fun s => s.Linked g' r')
    (I := fun s => s.alive (.inl g) = true) (Q := fun x => x.2.pdest = o ∧ g' = g ∧ r' = r)
    (f := fun s x => if x.2.pdest = o then s.pushBack g (x.2.duplicate r) else s)
    (fun s x _ hs => by split <;> simpa using hs)
    (fun s x _ hs => by
      split
      · rename_i hx
        have hpush : (s.pushBack g (x.2.duplicate r)).Linked g' r' ↔
            s.Linked g' r' ∨ g' = g ∧ r' = r := linked_pushBack hs _
        simpa [hx] using hpush
      · rename_i hx
        simp [hx]) hg
  rw [slotDuplicate, hfold]
  refine or_congr_right ⟨?_, ?_⟩
  · rintro ⟨x, hx, ho, heq⟩
    exact ⟨⟨x, hx, ho⟩, heq⟩
  · rintro ⟨⟨x, hx, ho⟩, heq⟩
    exact ⟨x, hx, ho, heq⟩

theorem alive_slotDuplicate (s : State ς ρ μ) (g : ς) (o r : ρ) :
    (s.slotDuplicate g o r).alive = s.alive := by
  rw [slotDuplicate]
  refine List.foldlRecOn (s.slots g) _ (motive := fun s' : State ς ρ μ => s'.alive = s.alive) rfl
    fun s' hs' x _ => ?_
  split
  · rw [alive_pushBack, hs']
  · exact hs'

theorem senders_slotDuplicate (s : State ς ρ μ) (g : ς) (o r : ρ) :
    (s.slotDuplicate g o r).senders = s.senders := by
  rw [slotDuplicate]
  refine List.foldlRecOn (s.slots g) _
    (motive := fun s' : State ς ρ μ => s'.senders = s.senders) rfl fun s' hs' x _ => ?_
  split
  · exact hs'
  · exact hs'

/-- `_signal_base(const _signal_base& o)`. -/
theorem copySignal_links {o : ς} (ho : ∀ r, s.Linked o r → s.alive (.inr r) = true)
    (hg : s.alive (.inl g) = false) (g' : ς) (r : ρ) :
    ((s.copySignal o g).Linked g' r ↔ s.Linked g' r ∨ g' = g ∧ s.Linked o r) ∧
      ((s.copySignal o g).Listed r g' ↔ s.Listed r g' ∨ g' = g ∧ s.Linked o r) := by
  -- every turn finds alive what was alive at the start
  let s₀ : State ς ρ μ := { s with signals := Function.update s.signals g (some ⟨[], none⟩) }
  have hI : ∀ (s : State ς ρ μ) (x : ℕ × OpaqueConnection ρ μ), s.alive = s₀.alive →
      ((s.signalConnect x.2.pdest g).pushBack g x.2).alive = s₀.alive := fun s x hs => by
    rw [alive_pushBack, alive_signalConnect, hs]
  have hexists : (∃ x ∈ s.slots o, g' = g ∧ r = x.2.pdest) ↔ g' = g ∧ s.Linked o r := by
    constructor
    · rintro ⟨x, hx, heq, rfl⟩
      exact ⟨heq, x, hx, rfl⟩
    · rintro ⟨heq, x, hx, rfl⟩
      exact ⟨x, hx, heq, rfl⟩
  rw [← hexists, ← linked_update_none hg]
  constructor
  · refine foldl_iff_or (P := fun s => s.Linked g' r) _ (fun s x _ => hI s x)
      (fun s x _ hs => ?_) rfl
    refine linked_pushBack (s := s.signalConnect x.2.pdest g) ?_ x.2
    rw [alive_signalConnect, hs]
    simp [s₀, alive]
  · refine foldl_iff_or (P := fun s => s.Listed r g') _ (fun s x _ => hI s x)
      (fun s x hx hs => ?_) rfl
    rw [and_comm]
    refine listed_signalConnect ?_
    rw [hs]
    exact ho _ ⟨x, hx, rfl⟩

/-- `has_slots(has_slots const& o)`. -/
theorem copySlots_links {o : ρ} (ho : ∀ g, s.Listed o g → s.alive (.inl g) = true)
    (hr : s.alive (.inr r) = false) (hro : o ≠ r) (g : ς) (r' : ρ) :
    ((s.copySlots o r).Linked g r' ↔ s.Linked g r' ∨ r' = r ∧ s.Linked g o ∧ s.Listed o g) ∧
      ((s.copySlots o r).Listed r' g ↔ s.Listed r' g ∨ r' = r ∧ s.Listed o g) := by
  -- every turn finds alive what was alive at the start, and the connections to `o`
  let s₀ : State ς ρ μ := { s with senders := Function.update s.senders r (some []) }
  have halive : ∀ g, s₀.alive (.inl g) = s.alive (.inl g) := fun g => rfl
  have hI : ∀ s' : State ς ρ μ, ∀ g ∈ (s.senders o).elim [] id,
      (s'.alive = s₀.alive ∧ ∀ g, s'.Linked g o ↔ s.Linked g o) →
      ((s'.slotDuplicate g o r).signalConnect r g).alive = s₀.alive ∧
        ∀ g', ((s'.slotDuplicate g o r).signalConnect r g).Linked g' o ↔ s.Linked g' o := by
    rintro s' g hg ⟨hs', hlinked⟩
    rw [alive_signalConnect, alive_slotDuplicate]
    refine ⟨hs', fun g' => ?_⟩
    have halive' : s'.alive (.inl g) = true := by rw [hs', halive, ho g (mem_senders.mp hg)]
    refine (linked_slotDuplicate halive').trans ?_
    simp [hlinked, hro]
  have hs₀ : s₀.alive = s₀.alive ∧ ∀ g, s₀.Linked g o ↔ s.Linked g o := ⟨rfl, fun _ => .rfl⟩
  constructor
  · have hfold := foldl_iff_or (P := fun s => s.Linked g r')
      (Q := fun g' => s.Linked g' o ∧ g = g' ∧ r' = r) _ hI (fun s' g' hg' hs' => ?_) hs₀
    · refine hfold.trans (or_congr_right ⟨?_, ?_⟩)
      · rintro ⟨g', hg', hlinked, rfl, rfl⟩
        exact ⟨rfl, hlinked, mem_senders.mp hg'⟩
      · rintro ⟨rfl, hlinked, hlisted⟩
        exact ⟨g, mem_senders.mpr hlisted, hlinked, rfl, rfl⟩
    · rw [← hs'.2]
      refine linked_slotDuplicate ?_
      rw [hs'.1, halive, ho g' (mem_senders.mp hg')]
  · have hfold := foldl_iff_or (P := fun s => s.Listed r' g)
      (Q := fun g' => r' = r ∧ g = g') _ hI (fun s' g' hg' hs' => ?_) hs₀
    · refine hfold.trans (or_congr ?_ ⟨?_, ?_⟩)
      · have hnone : s.senders r = none := by simpa [alive] using hr
        rcases eq_or_ne r' r with rfl | hne
        · simp [Listed, s₀, hnone]
        · simp [Listed, s₀, hne]
      · rintro ⟨g', hg', rfl, rfl⟩
        exact ⟨rfl, mem_senders.mp hg'⟩
      · rintro ⟨rfl, hlisted⟩
        exact ⟨g, mem_senders.mpr hlisted, rfl, rfl⟩
    · have hsame : (s'.slotDuplicate g' o r).Listed r' g ↔ s'.Listed r' g := by
        rw [Listed, senders_slotDuplicate, Listed]
      rw [← hsame]
      refine listed_signalConnect ?_
      rw [alive_slotDuplicate, hs'.1]
      simp [s₀, alive]

/-- `_signal_base::disconnect_all`. -/
theorem disconnectAll_links (hd : s.Distinct) (g g' : ς) (r : ρ) :
    ((s.disconnectAll g).Linked g' r ↔ s.Linked g' r ∧ g' ≠ g) ∧
      ((s.disconnectAll g).Listed r g' ↔ s.Listed r g' ∧ ¬ (g' = g ∧ s.Linked g r)) := by
  constructor
  · rcases eq_or_ne g' g with rfl | hne
    · simp only [State.Linked, slots, disconnectAll, modify, Function.update_self, ne_eq,
        not_true_eq_false, and_false, iff_false]
      cases (List.foldl _ s _).signals g' <;> simp
    · simp [State.Linked, slots, disconnectAll, modify, signals_foldl_signalDisconnect, hne]
  · have hfold := foldl_iff_and (P := fun s : State ς ρ μ => s.Listed r g') (s.slots g)
      (Q := fun x => r = x.2.pdest ∧ g' = g) (I := Distinct)
      (f := fun (s : State ς ρ μ) x => s.signalDisconnect x.2.pdest g)
      (fun s x _ hs => hs.signalDisconnect x.2.pdest g)
      (fun s x _ hs => listed_signalDisconnect hs) hd
    refine Iff.trans hfold (and_congr_right fun _ => not_congr ⟨?_, ?_⟩)
    · rintro ⟨x, hx, rfl, rfl⟩
      exact ⟨rfl, x, hx, rfl⟩
    · rintro ⟨rfl, x, hx, rfl⟩
      exact ⟨x, hx, rfl, rfl⟩

/-- `has_slots::do_disconnect_all`. -/
theorem slotsDisconnectAll_links (hs : ∀ g, (s.base g).Keyed s.fresh) (r : ρ) (g : ς) (r' : ρ) :
    ((s.slotsDisconnectAll r).Linked g r' ↔ s.Linked g r' ∧ ¬ (r' = r ∧ s.Listed r g)) ∧
      ((s.slotsDisconnectAll r).Listed r' g ↔ s.Listed r' g ∧ r' ≠ r) := by
  constructor
  · have hfold := foldl_iff_and (P := fun s : State ς ρ μ => s.Linked g r')
      ((s.senders r).elim [] id) (Q := fun g' => g = g' ∧ r' = r)
      (I := fun s => ∀ g, (s.base g).Keyed s.fresh)
      (f := fun (s : State ς ρ μ) g => s.modify g (·.slotDisconnect r))
      (s := { s with senders := Function.update s.senders r ((s.senders r).map fun _ => []) })
      (fun s' g' _ hs' => (Shrunk.modify fun _ => ⟨_, slotDisconnect_eq _ r⟩).keyed hs')
      (fun s' g' _ hs' => linked_slotDisconnect (hs' g')) hs
    refine Iff.trans hfold (and_congr_right fun _ => not_congr ⟨?_, ?_⟩)
    · rintro ⟨g', hg', rfl, rfl⟩
      exact ⟨rfl, mem_senders.mp hg'⟩
    · rintro ⟨rfl, hlisted⟩
      exact ⟨g, mem_senders.mpr hlisted, rfl, rfl⟩
  · have hfold : (s.slotsDisconnectAll r).senders =
        Function.update s.senders r ((s.senders r).map fun _ => []) :=
      List.foldlRecOn ((s.senders r).elim [] id) _ (motive := fun s' : State ς ρ μ =>
        s'.senders = Function.update s.senders r ((s.senders r).map fun _ => [])) rfl
        fun s' hs' g' _ => hs'
    rw [Listed, hfold, Listed]
    rcases eq_or_ne r' r with rfl | hne
    · simp
    · simp [hne]

/-! ## Who lives, and what is there twice -/

theorem alive_copySignal (s : State ς ρ μ) (o g : ς) :
    (s.copySignal o g).alive =
      State.alive { s with signals := Function.update s.signals g (some ⟨[], none⟩) } := by
  rw [copySignal]
  refine List.foldlRecOn (s.slots o) _ (motive := fun s' : State ς ρ μ => s'.alive = _) rfl
    fun s' hs' x _ => ?_
  rw [alive_pushBack, alive_signalConnect, hs']

theorem alive_copySlots (s : State ς ρ μ) (o r : ρ) :
    (s.copySlots o r).alive =
      State.alive { s with senders := Function.update s.senders r (some []) } := by
  rw [copySlots]
  refine List.foldlRecOn ((s.senders o).elim [] id) _
    (motive := fun s' : State ς ρ μ => s'.alive = _) rfl fun s' hs' g _ => ?_
  rw [alive_signalConnect, alive_slotDuplicate, hs']

theorem alive_disconnectAll (s : State ς ρ μ) (g : ς) : (s.disconnectAll g).alive = s.alive := by
  rw [disconnectAll, alive_modify]
  refine List.foldlRecOn (s.slots g) _ (motive := fun s' : State ς ρ μ => s'.alive = s.alive) rfl
    fun s' hs' x _ => ?_
  rw [alive_signalDisconnect, hs']

theorem alive_slotsDisconnectAll (s : State ς ρ μ) (r : ρ) :
    (s.slotsDisconnectAll r).alive = s.alive := by
  rw [slotsDisconnectAll]
  refine List.foldlRecOn ((s.senders r).elim [] id) _
    (motive := fun s' : State ς ρ μ => s'.alive = s.alive) ?_ fun s' hs' g _ => ?_
  · funext o
    cases o with
    | inl g => rfl
    | inr r' =>
      rcases eq_or_ne r' r with rfl | hne
      · simp [alive]
      · simp [alive, hne]
  · rw [alive_modify, hs']

omit [DecidableEq ς] in
theorem Distinct.update (hd : s.Distinct) {l : List ς} (hl : l.Nodup) (r : ρ) :
    Distinct { s with senders := Function.update s.senders r (some l) } := by
  intro r' l' hl'
  rcases update_cases hl' with ⟨rfl, heq⟩ | ⟨-, heq⟩
  · rwa [← Option.some.inj heq]
  · exact hd r' l' heq

theorem Distinct.copySignal (hd : s.Distinct) (o g : ς) : (s.copySignal o g).Distinct :=
  List.foldlRecOn (s.slots o) _ (motive := fun s' : State ς ρ μ => s'.Distinct) hd
    fun _ hs' x _ => hs'.signalConnect x.2.pdest g

theorem Distinct.copySlots (hd : s.Distinct) (o r : ρ) : (s.copySlots o r).Distinct := by
  refine List.foldlRecOn ((s.senders o).elim [] id) _
    (motive := fun s' : State ς ρ μ => s'.Distinct) (hd.update List.nodup_nil r)
    fun s' hs' g _ => ?_
  refine Distinct.signalConnect (fun r' l hl => hs' r' l ?_) r g
  rwa [senders_slotDuplicate] at hl

theorem Distinct.disconnectAll (hd : s.Distinct) (g : ς) : (s.disconnectAll g).Distinct :=
  List.foldlRecOn (s.slots g) _ (motive := fun s' : State ς ρ μ => s'.Distinct) hd
    fun _ hs' x _ => hs'.signalDisconnect x.2.pdest g

theorem Distinct.slotsDisconnectAll (hd : s.Distinct) (r : ρ) :
    (s.slotsDisconnectAll r).Distinct := by
  refine List.foldlRecOn ((s.senders r).elim [] id) _
    (motive := fun s' : State ς ρ μ => s'.Distinct) (fun r' l hl => ?_) fun _ hs' _ _ => hs'
  rcases update_cases hl with ⟨rfl, heq⟩ | ⟨-, heq⟩
  · obtain ⟨_, -, rfl⟩ := Option.map_eq_some_iff.mp heq
    exact List.nodup_nil
  · exact hd r' l heq

end State

open State

variable [DecidableEq ς] [DecidableEq ρ] {a : Label ς ρ μ} {out : List (Event ς ρ μ)}

/-- **A signal lives** until it ends. -/
theorem alive_next (h : next s a = some (s', out)) (ha : a.emits = false)
    (hne : a ≠ .endSignal g) (hg : s.alive (.inl g) = true) : s'.alive (.inl g) = true := by
  cases a with
  | makeSignal g' =>
    simp only [next, Option.ite_none_left_eq_some, Option.some.injEq, Prod.mk.injEq] at h
    obtain ⟨-, rfl, -⟩ := h
    rcases eq_or_ne g g' with rfl | hne
    · simp [alive]
    · simpa [alive, hne] using hg
  | makeSlots r =>
    simp only [next, Option.ite_none_left_eq_some, Option.some.injEq, Prod.mk.injEq] at h
    obtain ⟨-, rfl, -⟩ := h
    exact hg
  | copySignal o g' =>
    simp only [next, Option.ite_none_right_eq_some, Option.some.injEq, Prod.mk.injEq] at h
    obtain ⟨-, rfl, -⟩ := h
    rw [alive_copySignal]
    rcases eq_or_ne g g' with rfl | hne
    · simp [alive]
    · simpa [alive, hne] using hg
  | copySlots o r =>
    simp only [next, Option.ite_none_right_eq_some, Option.some.injEq, Prod.mk.injEq] at h
    obtain ⟨-, rfl, -⟩ := h
    rw [alive_copySlots]
    exact hg
  | connect g' r m =>
    simp only [next, Option.ite_none_right_eq_some, Option.some.injEq, Prod.mk.injEq] at h
    obtain ⟨-, rfl, -⟩ := h
    simpa using hg
  | disconnect g' r =>
    simp only [next, Option.ite_none_right_eq_some] at h
    obtain ⟨-, h⟩ := h
    cases hb : s.signals g' with
    | none => simp [hb] at h
    | some b =>
      cases hd : b.disconnect r with
      | none =>
        simp only [hb, hd, Option.some.injEq, Prod.mk.injEq] at h
        rwa [← h.1]
      | some b' =>
        simp only [hb, hd, Option.some.injEq, Prod.mk.injEq] at h
        rw [← h.1, alive_signalDisconnect, alive_modify]
        exact hg
  | disconnectAll g' =>
    simp only [next, Option.ite_none_right_eq_some, Option.some.injEq, Prod.mk.injEq] at h
    obtain ⟨-, rfl, -⟩ := h
    rwa [alive_disconnectAll]
  | slotsDisconnectAll r =>
    simp only [next, Option.ite_none_right_eq_some, Option.some.injEq, Prod.mk.injEq] at h
    obtain ⟨-, rfl, -⟩ := h
    rwa [alive_slotsDisconnectAll]
  | endSignal g' =>
    simp only [next, Option.ite_none_right_eq_some, Option.some.injEq, Prod.mk.injEq] at h
    obtain ⟨-, rfl, -⟩ := h
    have hne' : g ≠ g' := fun heq => hne (congrArg Label.endSignal heq.symm)
    have halive := congrFun (alive_disconnectAll s g') (.inl g)
    rw [hg] at halive
    simpa [alive, hne'] using halive
  | endSlots r =>
    simp only [next, Option.ite_none_right_eq_some, Option.some.injEq, Prod.mk.injEq] at h
    obtain ⟨-, rfl, -⟩ := h
    exact (congrFun (alive_slotsDisconnectAll s r) (.inl g)).trans hg
  | emit => cases ha
  | ret => cases ha

end Sigslot

end TQLib
