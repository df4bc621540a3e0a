import TQLib.Sigslot.Links

/-!
# No call of a slot of an object that is gone

A signal has a connection to an object if and only if the object has the signal among its senders,
and so whichever ends first tells the other. What the library keeps is therefore never a pointer to
an object that is gone, as long as nobody disconnects an object by name that is connected more than
once: `disconnect` takes out one connection, and strikes the signal off the senders nevertheless.

## Main results

* `sigslot_safe` — what the library reaches is alive
* `disconnect_dangles` — what becomes of an object that is connected twice
-/

namespace TQLib

namespace Sigslot

open SignalBase State

variable {ς ρ μ : Type*} [DecidableEq ς] [DecidableEq ρ] {s s' : State ς ρ μ}
  {a : Label ς ρ μ} {out : List (Event ς ρ μ)}

/-- What holds between the calls. -/
structure Inv (s : State ς ρ μ) : Prop where
  placed : s.Placed
  distinct : s.Distinct
  /-- Each side knows of the other. -/
  known : ∀ g r, s.Linked g r ↔ s.Listed r g
  /-- What is emitted is alive. -/
  emitting : ∀ g ∈ s.emitting, s.alive (.inl g) = true

omit [DecidableEq ς] [DecidableEq ρ] in
theorem Inv.reached (h : Inv s) : ∀ o ∈ reached s a, s.alive o = true := by
  have hsignal : ∀ g, ∀ x ∈ s.slots g, s.alive (.inr x.2.pdest) = true := fun g x hx =>
    ((h.known g x.2.pdest).mp ⟨x, hx, rfl⟩).alive
  have hslots : ∀ r, ∀ g ∈ (s.senders r).elim [] id, s.alive (.inl g) = true := fun r g hg =>
    ((h.known g r).mpr (mem_senders.mp hg)).alive
  intro o ho
  cases a with
  | copySignal g _ | disconnectAll g | endSignal g =>
    obtain ⟨x, hx, rfl⟩ := List.mem_map.mp ho
    exact hsignal g x hx
  | copySlots r _ | slotsDisconnectAll r | endSlots r =>
    obtain ⟨g, hg, rfl⟩ := List.mem_map.mp ho
    exact hslots r g hg
  | _ => cases ho

/-- After `disconnect` the object is connected as often as before, less one. -/
theorem count_disconnect {g : ς} {r : ρ} {b b' : SignalBase ρ μ} (hg : s.signals g = some b)
    (hkeyed : (s.base g).Keyed s.fresh) (hb : b.disconnect r = some b') :
    (s.modify g fun _ => b').count g r + 1 = s.count g r := by
  have hbase : s.base g = b := by simp [State.base, hg]
  obtain ⟨l, x, l', hl, hx, hl'⟩ := (hbase ▸ hkeyed).disconnect hb
  have hslots : (s.modify g fun _ => b').slots g = l ++ l' := by
    simp [slots, State.modify, hg, hl']
  have hcons : (x :: l').filter (·.2.pdest = r) = x :: l'.filter (·.2.pdest = r) :=
    List.filter_cons_of_pos (by simpa using hx)
  rw [State.count, State.count, hslots, slots_eq, hbase, hl, List.filter_append,
    List.filter_append, hcons, List.length_append, List.length_append, List.length_cons]
  omega

/-- The connections to other objects stay. -/
theorem linked_disconnect {g g' : ς} {r r' : ρ} {b b' : SignalBase ρ μ}
    (hg : s.signals g = some b) (hkeyed : (s.base g).Keyed s.fresh)
    (hb : b.disconnect r = some b') (hne : ¬ (g' = g ∧ r' = r)) :
    (s.modify g fun _ => b').Linked g' r' ↔ s.Linked g' r' := by
  have hbase : s.base g = b := by simp [State.base, hg]
  obtain ⟨l, x, l', hl, hx, hl'⟩ := (hbase ▸ hkeyed).disconnect hb
  rcases eq_or_ne g' g with rfl | hne'
  · have hslots : (s.modify g' fun _ => b').slots g' = l ++ l' := by
      simp [slots, State.modify, hg, hl']
    have hxr : x.2.pdest ≠ r' := fun heq => hne ⟨rfl, heq ▸ hx⟩
    simp only [State.Linked, hslots, slots_eq s, hbase, hl, List.mem_append, List.mem_cons]
    constructor
    · rintro ⟨y, hy, heq⟩
      exact ⟨y, hy.imp_right .inr, heq⟩
    · rintro ⟨y, hy | rfl | hy, heq⟩
      · exact ⟨y, .inl hy, heq⟩
      · exact absurd heq hxr
      · exact ⟨y, .inr hy, heq⟩
  · simp [State.Linked, slots, State.modify, hne']

theorem Inv.next (h : Inv s) (hs : Sound s a) (hn : next s a = some (s', out))
    (ha : a.emits = false) : Inv s' := by
  obtain ⟨hplaced, hemitting⟩ := emitting_next h.placed hn ha
  have hof : s'.Distinct → (∀ g r, s'.Linked g r ↔ s'.Listed r g) → Inv s' := by
    refine fun hdistinct hknown => ⟨hplaced, hdistinct, hknown, fun g hg => ?_⟩
    rw [hemitting] at hg
    refine alive_next hn ha ?_ (h.emitting g hg)
    rintro rfl
    exact hs hg
  cases a with
  | makeSignal g =>
    simp only [Sigslot.next, Option.ite_none_left_eq_some, Option.some.injEq, Prod.mk.injEq] at hn
    obtain ⟨hg, rfl, -⟩ := hn
    refine hof h.distinct fun g' r => ?_
    rw [linked_update_none (by simpa using hg), h.known]
    rfl
  | makeSlots r =>
    simp only [Sigslot.next, Option.ite_none_left_eq_some, Option.some.injEq, Prod.mk.injEq] at hn
    obtain ⟨hr, rfl, -⟩ := hn
    refine hof (h.distinct.update List.nodup_nil r) fun g r' => ?_
    refine Iff.trans (h.known g r') ?_
    have hnone : s.senders r = none := by simpa [alive] using hr
    rcases eq_or_ne r' r with rfl | hne
    · simp [Listed, hnone]
    · simp [Listed, hne]
  | copySignal o g =>
    simp only [Sigslot.next, Option.ite_none_right_eq_some, Option.some.injEq, Prod.mk.injEq] at hn
    obtain ⟨⟨-, hg⟩, rfl, -⟩ := hn
    have hlinks := copySignal_links (fun r hr => ((h.known o r).mp hr).alive) hg
    refine hof (h.distinct.copySignal o g) fun g' r => ?_
    rw [(hlinks g' r).1, (hlinks g' r).2, h.known]
  | copySlots o r =>
    simp only [Sigslot.next, Option.ite_none_right_eq_some, Option.some.injEq, Prod.mk.injEq] at hn
    obtain ⟨⟨ho, hr⟩, rfl, -⟩ := hn
    have hne : o ≠ r := by
      rintro rfl
      rw [hr] at ho
      cases ho
    have hlinks := copySlots_links (fun g hg => ((h.known g o).mpr hg).alive) hr hne
    refine hof (h.distinct.copySlots o r) fun g r' => ?_
    rw [(hlinks g r').1, (hlinks g r').2, h.known, h.known, and_self]
  | connect g r m =>
    simp only [Sigslot.next, Option.ite_none_right_eq_some, Option.some.injEq, Prod.mk.injEq] at hn
    obtain ⟨⟨hg, hr⟩, rfl, -⟩ := hn
    refine hof (Distinct.signalConnect (s := s.pushBack g ⟨r, m⟩) h.distinct r g) fun g' r' => ?_
    have hlinked : (s.pushBack g ⟨r, m⟩).Linked g' r' ↔ s.Linked g' r' ∨ g' = g ∧ r' = r :=
      linked_pushBack hg ⟨r, m⟩
    refine Iff.trans hlinked ?_
    rw [listed_signalConnect (by simpa using hr), h.known, and_comm]
    rfl
  | disconnect g r =>
    simp only [Sigslot.next, Option.ite_none_right_eq_some] at hn
    obtain ⟨-, hn⟩ := hn
    cases hg : s.signals g with
    | none => simp [hg] at hn
    | some b =>
      cases hb : b.disconnect r with
      | none =>
        simp only [hg, hb, Option.some.injEq, Prod.mk.injEq] at hn
        rwa [← hn.1]
      | some b' =>
        simp only [hg, hb, Option.some.injEq, Prod.mk.injEq] at hn
        obtain ⟨rfl, -⟩ := hn
        refine hof (Distinct.signalDisconnect (s := s.modify g fun _ => b') h.distinct r g)
          fun g' r' => ?_
        rw [listed_signalDisconnect (s := s.modify g fun _ => b') h.distinct]
        have hlisted : (s.modify g fun _ => b').Listed r' g' ↔ s.Linked g' r' :=
          (h.known g' r').symm
        rw [hlisted]
        by_cases heq : g' = g ∧ r' = r
        · obtain ⟨rfl, rfl⟩ := heq
          have hcount := count_disconnect hg (h.placed g').1 hb
          have hzero : (s.modify g' fun _ => b').count g' r' = 0 := by
            have hone : s.count g' r' ≤ 1 := hs
            omega
          have hnot : ¬ (s.modify g' fun _ => b').Linked g' r' := by
            rw [linked_iff_count, hzero]
            exact lt_irrefl 0
          exact iff_of_false hnot (by simp)
        · refine Iff.trans (linked_disconnect hg (h.placed g).1 hb heq) ?_
          rw [and_comm] at heq
          simp [heq]
  | disconnectAll g =>
    simp only [Sigslot.next, Option.ite_none_right_eq_some, Option.some.injEq, Prod.mk.injEq] at hn
    obtain ⟨-, rfl, -⟩ := hn
    have hlinks := disconnectAll_links h.distinct g
    refine hof (h.distinct.disconnectAll g) fun g' r => ?_
    rw [(hlinks g' r).1, (hlinks g' r).2, h.known, h.known]
    refine and_congr_right fun hlisted => not_congr ⟨?_, And.left⟩
    rintro rfl
    exact ⟨rfl, hlisted⟩
  | slotsDisconnectAll r =>
    simp only [Sigslot.next, Option.ite_none_right_eq_some, Option.some.injEq, Prod.mk.injEq] at hn
    obtain ⟨-, rfl, -⟩ := hn
    have hlinks := slotsDisconnectAll_links (fun g => (h.placed g).1) r
    refine hof (h.distinct.slotsDisconnectAll r) fun g r' => ?_
    rw [(hlinks g r').1, (hlinks g r').2, h.known]
    refine and_congr_right fun hlisted => not_congr ⟨And.left, ?_⟩
    rintro rfl
    exact ⟨rfl, hlisted⟩
  | endSignal g =>
    simp only [Sigslot.next, Option.ite_none_right_eq_some, Option.some.injEq, Prod.mk.injEq] at hn
    obtain ⟨-, rfl, -⟩ := hn
    have hlinks := disconnectAll_links h.distinct g
    refine hof (h.distinct.disconnectAll g) fun g' r => ?_
    refine Iff.trans ?_ (hlinks g' r).2.symm
    rcases eq_or_ne g' g with rfl | hne
    · simp [State.Linked, slots, ← h.known, and_comm]
    · rw [← h.known]
      simpa [State.Linked, slots, hne] using (hlinks g' r).1
  | endSlots r =>
    simp only [Sigslot.next, Option.ite_none_right_eq_some, Option.some.injEq, Prod.mk.injEq] at hn
    obtain ⟨-, rfl, -⟩ := hn
    have hlinks := slotsDisconnectAll_links (fun g => (h.placed g).1) r
    refine hof (fun r' l hl => ?_) fun g r' => ?_
    · rcases update_cases hl with ⟨-, heq⟩ | ⟨-, heq⟩
      · cases heq
      · exact h.distinct.slotsDisconnectAll r r' l heq
    · refine Iff.trans (hlinks g r').1 ?_
      rw [h.known]
      rcases eq_or_ne r' r with rfl | hne
      · simp [Listed]
      · simpa [Listed, hne] using (hlinks g r').2.symm
  | emit => cases ha
  | ret => cases ha

/-! ## Emissions -/

omit [DecidableEq ρ] in
/-- Moving the iterator leaves the connections alone. -/
theorem slots_modify_iterator (s : State ς ρ μ) (g : ς) (f : SignalBase ρ μ → Option ℕ) :
    (s.modify g fun b => { b with currentIterator := f b }).slots = s.slots := by
  funext g'
  rcases eq_or_ne g' g with rfl | hne
  · cases hg : s.signals g' <;> simp [slots, State.modify, hg]
  · simp [slots, State.modify, hne]

omit [DecidableEq ρ] in
theorem Inv.iterator (h : Inv s) {g : ς} {f : SignalBase ρ μ → Option ℕ}
    (hplaced : (s.modify g fun b => { b with currentIterator := f b }).Placed) :
    Inv (s.modify g fun b => { b with currentIterator := f b }) := by
  refine ⟨hplaced, h.distinct, fun g' r => ?_, fun g' hg' => ?_⟩
  · rw [State.Linked, slots_modify_iterator]
    exact h.known g' r
  · rw [alive_modify]
    exact h.emitting g' hg'

omit [DecidableEq ρ] in
theorem Inv.begin (h : Inv s) {g : ς} (hg : s.alive (.inl g) = true) : Inv (s.begin g) := by
  have hmove : Inv (s.modify g fun b =>
      { b with currentIterator := b.connectedSlots.head?.map (·.1) }) :=
    h.iterator (placed_begin h.placed)
  refine ⟨hmove.placed, hmove.distinct, hmove.known, fun g' hg' => ?_⟩
  rcases List.mem_cons.mp hg' with rfl | hg'
  · rwa [alive_begin]
  · exact hmove.emitting g' hg'

omit [DecidableEq ρ] in
/-- The loop finds what it goes to alive. -/
theorem Inv.emitLoop (h : Inv s) {g : ς} (hg : s.alive (.inl g) = true) :
    Inv (emitLoop s g).1 ∧
      ((emitLoop s g).2 = [.ends g] ∨ ∃ n c, (emitLoop s g).2 = [.call g n c true]) := by
  rcases emitLoop_cases h.placed g with
    ⟨hnone, -⟩ | ⟨b, -, -, heq⟩ | ⟨b, pre, x, post, hb, hat, heq⟩
  · simp [alive, hnone] at hg
  · rw [heq]
    exact ⟨⟨h.placed, h.distinct, h.known, fun g' hg' => h.emitting g' (List.mem_of_mem_tail hg')⟩,
      .inl rfl⟩
  · have hbase : s.base g = b := by simp [State.base, hb]
    rw [heq]
    have hplaced := placed_emitLoop h.placed g
    rw [heq] at hplaced
    refine ⟨h.iterator hplaced, .inr ⟨x.1, x.2, ?_⟩⟩
    · have hlinked : s.Linked g x.2.pdest := by
        refine ⟨x, ?_, rfl⟩
        rw [slots_eq, hbase, hat.slots]
        exact List.mem_append_right _ List.mem_cons_self
      rw [((h.known g _).mp hlinked).alive]

/-- What is seen is in order: what is reached is alive. -/
def Event.Fine : Event ς ρ μ → Prop
  | .access _ alive => alive = true
  | .call _ _ _ alive => alive = true
  | .stray _ => False
  | .ends _ => True

theorem Inv.step (h : Inv s) (hs : Sound s a) (hst : step s a = some (s', out)) :
    Inv s' ∧ ∀ e ∈ out, e.Fine := by
  obtain ⟨out₁, hn, rfl⟩ := next_of_step hst
  have haccess : ∀ e : Event ς ρ μ,
      e ∈ (Sigslot.reached s a).map (fun o => Event.access o (s.alive o)) → e.Fine := by
    intro e he
    obtain ⟨o, ho, rfl⟩ := List.mem_map.mp he
    exact h.reached o ho
  have hloop : ∀ (s : State ς ρ μ) (g : ς), Inv s → s.alive (.inl g) = true →
      Sigslot.emitLoop s g = (s', out₁) → Inv s' ∧ ∀ e ∈ out₁, e.Fine := by
    intro s g h hg heq
    obtain ⟨hinv, hout⟩ := h.emitLoop hg
    rw [heq] at hinv hout
    refine ⟨hinv, fun e he => ?_⟩
    rcases hout with hout | ⟨n, c, hout⟩
    · dsimp only at hout
      rw [hout, List.mem_singleton] at he
      rw [he]
      trivial
    · dsimp only at hout
      rw [hout, List.mem_singleton] at he
      rw [he]
      rfl
  have hnext : Inv s' ∧ ∀ e ∈ out₁, e.Fine := by
    cases ha : a.emits with
    | false =>
      refine ⟨h.next hs hn ha, fun e he => ?_⟩
      rw [(next_base h.placed hn ha).2] at he
      cases he
    | true =>
      cases a with
      | emit g =>
        obtain ⟨hg, hn⟩ := next_emit hn
        exact hloop _ g (h.begin hg) (by rwa [alive_begin]) hn
      | ret =>
        obtain ⟨g, gs, hgs, hn⟩ := next_ret hn
        refine hloop s g h (h.emitting g ?_) hn
        rw [hgs]
        exact List.mem_cons_self
      | _ => cases ha
  exact ⟨hnext.1, fun e he => (List.mem_append.mp he).elim (haccess e) (hnext.2 e)⟩

omit [DecidableEq ς] [DecidableEq ρ] in
theorem Inv.start (hsignals : ∀ g, s.signals g = none) (hsenders : ∀ r, s.senders r = none)
    (hemitting : s.emitting = []) : Inv s := by
  refine ⟨placed_start hsignals, fun r l hl => ?_, fun g r => iff_of_false ?_ ?_, fun g hg => ?_⟩
  · rw [hsenders] at hl
    cases hl
  · simp [State.Linked, slots, hsignals]
  · simp [Listed, hsenders]
  · rw [hemitting] at hg
    cases hg

theorem inv_of_reaches {h : List (Event ς ρ μ)} (hr : (machine ς ρ μ).ReachesVia Sound h s) :
    Inv s ∧ ∀ e ∈ h, e.Fine := by
  refine hr.induction (fun h s => Inv s ∧ ∀ e ∈ h, e.Fine) (fun s hs => ?_)
    fun h s a s' out hi ha hst => ?_
  · exact ⟨.start hs.1 hs.2.1 hs.2.2, by simp⟩
  · obtain ⟨hinv, hout⟩ := hi.1.step ha hst
    exact ⟨hinv, fun e he => (List.mem_append.mp he).elim (hi.2 e) (hout e)⟩

/-- **Nothing that is gone is reached**, in any run in which signals do not end while they are
emitted and no object is disconnected by name that is connected more than once: whatever the
library goes to over a pointer that it keeps lives, be it to call a slot, to tell an object that a
signal has gone, or to tell a signal that an object has; the iterator of an emission is always at a
node of the list or at the end; and a signal is connected to an object if and only if the object
has it among its senders. -/
theorem sigslot_safe {h : List (Event ς ρ μ)}
    (hr : (machine ς ρ μ).ReachesVia Sound h s) :
    (∀ o, .access o false ∉ h) ∧ (∀ g n c, .call g n c false ∉ h) ∧ (∀ g, .stray g ∉ h) ∧
    ∀ g b r l, s.signals g = some b → s.senders r = some l →
      (b.connected r = true ↔ g ∈ l) := by
  obtain ⟨hinv, hfine⟩ := inv_of_reaches hr
  refine ⟨fun o ho => ?_, fun g n c hc => ?_, fun g hg => hfine _ hg, fun g b r l hb hl => ?_⟩
  · cases hfine _ ho
  · cases hfine _ hc
  · have hknown := hinv.known g r
    simp only [State.Linked, slots, hb, Option.elim_some, Listed, hl, Option.some.injEq,
      exists_eq_left'] at hknown
    rw [← hknown, connected]
    simp

/-- Nothing, with two signals and two objects. -/
def nothing : State Bool Bool Unit := ⟨fun _ => none, fun _ => none, [], 0⟩

/-- The slot of the first object ends the second, which is not called. -/
def endOther : List (Label Bool Bool Unit) :=
  [.makeSignal true, .makeSlots false, .makeSlots true, .connect true false (),
    .connect true true (), .emit true, .endSlots true, .ret]

theorem sigslot_safe_endOther : ∃ (h : List (Event Bool Bool Unit)) (s : State Bool Bool Unit),
    (machine Bool Bool Unit).ReachesVia Sound h s ∧
      h = [.call true 0 ⟨false, ()⟩ true, .access (.inl true) true, .ends true] ∧
      .call true 1 ⟨true, ()⟩ false ∉ h := by
  obtain ⟨r, hr⟩ : ∃ r, (machine Bool Bool Unit).execVia Sound nothing endOther = some r :=
    Option.isSome_iff_exists.mp (by decide)
  have hout : ((machine Bool Bool Unit).execVia Sound nothing endOther).map (·.2) =
      some [.call true 0 ⟨false, ()⟩ true, .access (.inl true) true, .ends true] := by decide
  rw [hr, Option.map_some, Option.some_inj] at hout
  have hrun : (machine Bool Bool Unit).ReachesVia Sound r.2 r.1 :=
    .of_execVia ⟨fun _ => rfl, fun _ => rfl, rfl⟩ hr
  exact ⟨r.2, r.1, hrun, hout, (sigslot_safe hrun).2.1 true 1 ⟨true, ()⟩⟩

/-! ## Objects that are connected twice -/

/-- An emission comes to every connection, if no slot does anything. -/
theorem exists_call {g : ς} {gs : List ς} {b : SignalBase ρ μ}
    {x : ℕ × OpaqueConnection ρ μ} {post : List (ℕ × OpaqueConnection ρ μ)}
    (pre : List (ℕ × OpaqueConnection ρ μ)) (hp : s.Placed) (hb : s.signals g = some b)
    (hat : b.At pre post) (hs : s.emitting = g :: gs) (hx : x ∈ post) :
    ∃ k s' out, (machine ς ρ μ).exec s (List.replicate (k + 1) .ret) = some (s', out) ∧
      .call g x.1 x.2 (s.alive (.inr x.2.pdest)) ∈ out := by
  induction post generalizing s b pre with
  | nil => cases hx
  | cons y post ih =>
    have hstep : (machine ς ρ μ).step s .ret =
        some (s.modify g fun b => { b with currentIterator := post.head?.map (·.1) },
          [.call g y.1 y.2 (s.alive (.inr y.2.pdest))]) := by
      simp only [machine, step, next, hs, emitLoop_of_at hp hb hat]
      rfl
    rcases List.mem_cons.mp hx with rfl | hx
    · exact ⟨0, _, _, Machine.exec_cons.mpr ⟨_, _, [], hstep, rfl, rfl⟩, by simp⟩
    · have hslots : b.connectedSlots = (pre ++ [y]) ++ post := by
        rw [hat.slots, List.append_assoc]
        rfl
      have hbase : s.base g = b := by simp [State.base, hb]
      have hplaced := hp.modify (g := g) (pre ++ [y]) post (by rw [hbase, hslots])
      obtain ⟨k, s', out, hex, hcall⟩ := ih
        (b := { b with currentIterator := post.head?.map (·.1) }) (pre ++ [y]) hplaced
        (by simp [State.modify, hb]) ⟨hslots, rfl⟩ hs hx
      refine ⟨k + 1, s', _, Machine.exec_cons.mpr ⟨_, _, out, hstep, hex, rfl⟩, ?_⟩
      rw [alive_modify] at hcall
      exact List.mem_append_right _ hcall

/-- What an object does not know it does not tell. -/
theorem endSlots_dangles (h : s.Placed) {g : ς} {r : ρ} (hr : s.alive (.inr r) = true)
    (hlinked : s.Linked g r) (hlisted : ¬ s.Listed r g) :
    ∃ s' out, (machine ς ρ μ).step s (.endSlots r) = some (s', out) ∧ s'.Placed ∧
      s'.Linked g r ∧ s'.alive (.inr r) = false := by
  have hn : next s (.endSlots r) = some ({ s.slotsDisconnectAll r with
      senders := Function.update (s.slotsDisconnectAll r).senders r none }, []) := by
    simp [next, hr]
  refine ⟨_, _, congrArg (Option.map _) hn, (emitting_next h hn rfl).1, ?_, by simp [alive]⟩
  exact (slotsDisconnectAll_links (fun g => (h g).1) r g r).1.mpr
    ⟨hlinked, fun hand => hlisted hand.2⟩

/-- **Objects that are connected twice.** An object that is connected more than once is still
connected after `disconnect`, and does not know it: when it ends, and the signal is emitted, its
slot is called though it is gone. -/
theorem disconnect_dangles {h : List (Event ς ρ μ)} {g : ς} {r : ρ}
    (hr : (machine ς ρ μ).ReachesVia Sound h s) (htwice : 2 ≤ s.count g r) :
    ∃ k s' out n c, (machine ς ρ μ).exec s
        (.disconnect g r :: .endSlots r :: .emit g :: List.replicate k .ret) = some (s', out) ∧
      c.pdest = r ∧ .call g n c false ∈ out := by
  have hinv := (inv_of_reaches hr).1
  have hlinked : s.Linked g r := linked_iff_count.mpr (by omega)
  have halive := ((hinv.known g r).mp hlinked).alive
  obtain ⟨b, hb⟩ := Option.isSome_iff_exists.mp hlinked.alive
  -- one connection is left, which the object does not know of
  obtain ⟨b', hb'⟩ : ∃ b', b.disconnect r = some b' := by
    obtain ⟨x, hx, hxr⟩ := hlinked
    rw [slots, hb] at hx
    refine Option.isSome_iff_exists.mp ?_
    rw [SignalBase.disconnect, Option.isSome_map, List.find?_isSome]
    exact ⟨x, hx, by simpa using hxr⟩
  have hn : next s (.disconnect g r) =
      some ((s.modify g fun _ => b').signalDisconnect r g, []) := by
    simp [next, halive, hb, hb']
  have hcount := count_disconnect hb (hinv.placed g).1 hb'
  have hlinked₁ : ((s.modify g fun _ => b').signalDisconnect r g).Linked g r :=
    linked_iff_count.mpr (show 0 < (s.modify g fun _ => b').count g r by omega)
  have hlisted₁ : ¬ ((s.modify g fun _ => b').signalDisconnect r g).Listed r g := by
    rw [listed_signalDisconnect (s := s.modify g fun _ => b') hinv.distinct]
    simp
  obtain ⟨s₂, out₂, hst₂, hplaced₂, hlinked₂, hdead⟩ := endSlots_dangles
    (emitting_next hinv.placed hn rfl).1 (by simpa using halive) hlinked₁ hlisted₁
  obtain ⟨x, hx, hxr⟩ := hlinked₂
  obtain ⟨b₂, hb₂⟩ := Option.isSome_iff_exists.mp (Linked.alive ⟨x, hx, hxr⟩)
  rw [slots, hb₂] at hx
  -- the emission comes to it
  obtain ⟨k, s₃, out₃, hex, hcall⟩ := exists_call (s := s₂.begin g) []
    (placed_begin hplaced₂)
    (b := { b₂ with currentIterator := b₂.connectedSlots.head?.map (·.1) })
    (by simp [State.begin, State.modify, hb₂]) ⟨rfl, rfl⟩ rfl hx
  have hemit : (machine ς ρ μ).step s₂ (.emit g) = (machine ς ρ μ).step (s₂.begin g) .ret := by
    simp only [machine, step, next, hb₂, State.begin]
    simp [State.modify, hb₂, reached]
  obtain ⟨s₄, out₄, out₅, hst₄, hex₄, rfl⟩ := Machine.exec_cons.mp hex
  refine ⟨k, s₃, _, x.1, x.2, Machine.exec_cons.mpr ⟨_, _, _, congrArg (Option.map _) hn,
    Machine.exec_cons.mpr ⟨_, _, _, hst₂, Machine.exec_cons.mpr ⟨_, _, _, hemit.trans hst₄, hex₄,
      rfl⟩, rfl⟩, rfl⟩, hxr, ?_⟩
  have hgone : (s₂.begin g).alive (.inr x.2.pdest) = false := by
    rw [hxr, alive_begin, hdead]
  rw [hgone] at hcall
  exact List.mem_append_right _ (List.mem_append_right _ hcall)

/-- An object is connected twice. -/
def connectTwice : List (Label Bool Bool Unit) :=
  [.makeSignal true, .makeSlots true, .connect true true (), .connect true true ()]

theorem disconnect_dangles_twice : ∃ (s : State Bool Bool Unit) (k : ℕ) (s' : State Bool Bool Unit)
    (out : List (Event Bool Bool Unit)) (n : ℕ) (c : OpaqueConnection Bool Unit),
    (machine Bool Bool Unit).exec s
        (.disconnect true true :: .endSlots true :: .emit true :: List.replicate k .ret) =
      some (s', out) ∧ c.pdest = true ∧ .call true n c false ∈ out := by
  obtain ⟨r, hr⟩ : ∃ r, (machine Bool Bool Unit).execVia Sound nothing connectTwice = some r :=
    Option.isSome_iff_exists.mp (by decide)
  have hcount : ((machine Bool Bool Unit).execVia Sound nothing connectTwice).map
      (fun r => decide (2 ≤ r.1.count true true)) = some true := by decide
  rw [hr, Option.map_some, Option.some_inj, decide_eq_true_iff] at hcount
  have hrun : (machine Bool Bool Unit).ReachesVia Sound r.2 r.1 :=
    .of_execVia ⟨fun _ => rfl, fun _ => rfl, rfl⟩ hr
  exact ⟨r.1, disconnect_dangles hrun hcount⟩

end Sigslot

end TQLib
