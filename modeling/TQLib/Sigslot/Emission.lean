import TQLib.Foundations.LiveIteration
import TQLib.Sigslot.Links

/-!
# Which slots an emission calls

The loop of `emit` walks over the list with an iterator that belongs to the signal, and the slots
that it calls may change the list. What is seen of one signal is therefore a `Walk` over a list
that is edited meanwhile, if the signal is not emitted again from inside of an emission of it.

Where a slot does emit the signal again, the inner emission leaves the iterator at the end, and the
outer one is over.

## Main results

* `emission_each` — every connection is called once, unless it is taken out before its turn
* `connect_while_emitting` — which of the new connections are called
* `emission_over` — after an emission no slot is called until the next
-/

namespace TQLib

namespace Sigslot

open SignalBase State

variable {ς ρ μ : Type*} [DecidableEq ς] {s s' : State ς ρ μ}
  {a : Label ς ρ μ} {out : List (Event ς ρ μ)} {g : ς} {t : Walker ℕ}

/-- The nodes of a signal. -/
def State.nodes (s : State ς ρ μ) (g : ς) : List ℕ := (s.base g).connectedSlots.map (·.1)

/-- What is seen of `g` when something happens. -/
def Event.seen (g : ς) : Event ς ρ μ → List (Walk ℕ)
  | .call g' n _ _ => if g' = g then [.turn n true, .visit n true true] else []
  | .ends g' => if g' = g then [.ends] else []
  | _ => []

/-- An emission of `g` begins. -/
def Label.begins (g : ς) (s : State ς ρ μ) : Label ς ρ μ → List (Walk ℕ)
  | .emit g' => if g' = g then [.begins (s.nodes g)] else []
  | _ => []

/-- What is seen of `g` in a step. -/
def State.walk (g : ς) (s : State ς ρ μ) (a : Label ς ρ μ) (out : List (Event ς ρ μ))
    (s' : State ς ρ μ) : List (Walk ℕ) :=
  a.begins g s ++ out.flatMap (Event.seen g) ++ edits (s.nodes g) (s'.nodes g)

/-- `g` is not emitted while it is emitted, and does not end then. -/
def Alone (g : ς) (s : State ς ρ μ) : Label ς ρ μ → Prop
  | .emit g' => g' = g → g ∉ s.emitting
  | .endSignal g' => g' = g → g ∉ s.emitting
  | _ => True

instance (g : ς) (s : State ς ρ μ) : (a : Label ς ρ μ) → Decidable (Alone g s a)
  | .emit g' => inferInstanceAs (Decidable (g' = g → g ∉ s.emitting))
  | .endSignal g' => inferInstanceAs (Decidable (g' = g → g ∉ s.emitting))
  | .makeSignal _ => .isTrue trivial
  | .makeSlots _ => .isTrue trivial
  | .copySignal _ _ => .isTrue trivial
  | .copySlots _ _ => .isTrue trivial
  | .connect _ _ _ => .isTrue trivial
  | .disconnect _ _ => .isTrue trivial
  | .disconnectAll _ => .isTrue trivial
  | .slotsDisconnectAll _ => .isTrue trivial
  | .endSlots _ => .isTrue trivial
  | .ret => .isTrue trivial

/-- What has been seen of `g` is where the iterator is. -/
structure Follows (g : ς) (s : State ς ρ μ) (t : Walker ℕ) : Prop where
  list : t.list = s.nodes g
  used : ∀ n ∈ t.used, n < s.fresh
  listed : ∀ n ∈ t.list, n ∈ t.used
  idle : g ∉ s.emitting → t.todo = none
  busy : g ∈ s.emitting → ∃ pre post, (s.base g).At pre post ∧ t.todo = some (post.map (·.1))
  calling : t.calling = none
  once : s.emitting.count g ≤ 1
  alive : g ∈ s.emitting → s.alive (.inl g) = true

/-- The lists change while the iterators go along. -/
theorem Follows.grown (h : Follows g s t) (hg : Grown s s')
    (halive : g ∈ s.emitting → s'.alive (.inl g) = true) :
    ∃ t', Follows g s' t' ∧ (walking ℕ).Path t (edits (s.nodes g) (s'.nodes g)) t' := by
  obtain ⟨xs, hxs, hbase⟩ := hg.base g
  have hnodes : s'.nodes g = s.nodes g ++ xs.map (·.1) := by
    rw [State.nodes, hbase, append, List.map_append, State.nodes]
  have hpath : (walking ℕ).Path t (edits t.list (t.list ++ xs.map (·.1)))
      (t.add (xs.map (·.1))) := by
    refine .edits_append hxs.nodup h.listed fun n hn hused => ?_
    obtain ⟨x, hx, rfl⟩ := List.mem_map.mp hn
    have hle := hxs.le x hx
    have hlt := h.used _ hused
    omega
  rw [hnodes, ← h.list]
  refine ⟨t.add (xs.map (·.1)), ⟨?_, fun n hn => ?_, fun n hn => ?_, fun hnot => ?_,
    fun hmem => ?_, h.calling, ?_, fun hmem => ?_⟩, hpath⟩
  · rw [hnodes, ← h.list]
    rfl
  · rcases hn with hn | hn
    · exact (h.used n hn).trans_le hg.fresh
    · obtain ⟨x, hx, rfl⟩ := List.mem_map.mp hn
      exact hxs.lt x hx
  · exact (List.mem_append.mp hn).imp_left (h.listed n)
  · rw [hg.emitting] at hnot
    simp [Walker.add, h.idle hnot]
  · rw [hg.emitting] at hmem
    obtain ⟨pre, post, hat, htodo⟩ := h.busy hmem
    rw [hbase]
    cases post with
    | nil => exact ⟨_, _, (hat.append xs).1 rfl, by simp [Walker.add, htodo]⟩
    | cons y post =>
      exact ⟨_, _, (hat.append xs).2 (List.cons_ne_nil _ _), by simp [Walker.add, htodo]⟩
  · rw [hg.emitting]
    exact h.once
  · rw [hg.emitting] at hmem
    exact halive hmem

theorem Follows.shrunk (h : Follows g s t) (hp : s.Placed) (hs : Shrunk s s')
    (halive : g ∈ s.emitting → s'.alive (.inl g) = true) :
    ∃ t', Follows g s' t' ∧ (walking ℕ).Path t (edits (s.nodes g) (s'.nodes g)) t' := by
  obtain ⟨ns, hbase⟩ := hs.base g
  obtain ⟨hkeyed, pre, post, hat⟩ := hp g
  have hfilter : ∀ l : List (ℕ × OpaqueConnection ρ μ),
      (l.filter (·.1 ∉ ns)).map (·.1) = (l.map (·.1)).filter (· ∉ ns) := fun l => by
    rw [List.filter_map]
    rfl
  have hnodes : s'.nodes g = (s.nodes g).filter (· ∉ ns) := by
    rw [State.nodes, hbase, (hat.eraseAll hkeyed ns).slots, ← List.filter_append, ← hat.slots,
      hfilter, State.nodes]
  have htodo : ∀ xs, t.todo = some xs → xs ⊆ t.list := by
    intro xs hxs
    by_cases hmem : g ∈ s.emitting
    · obtain ⟨pre, post, hat, heq⟩ := h.busy hmem
      rw [hxs, Option.some_inj] at heq
      rw [h.list, State.nodes, hat.slots, heq, List.map_append]
      exact List.subset_append_right _ _
    · rw [h.idle hmem] at hxs
      cases hxs
  have hpath : (walking ℕ).Path t (edits t.list (t.list.filter (· ∉ ns))) (t.keep (· ∉ ns)) := by
    refine .edits_filter ?_ htodo _
    rw [h.list]
    exact hkeyed.nodup
  rw [hnodes, ← h.list]
  refine ⟨t.keep (· ∉ ns), ⟨?_, fun n hn => ?_, fun n hn => ?_, fun hnot => ?_, fun hmem => ?_,
    h.calling, ?_, fun hmem => ?_⟩, hpath⟩
  · rw [hnodes, ← h.list]
    rfl
  · rw [hs.fresh]
    exact h.used n hn
  · exact h.listed n (List.mem_of_mem_filter hn)
  · rw [hs.emitting] at hnot
    simp [Walker.keep, h.idle hnot]
  · rw [hs.emitting] at hmem
    obtain ⟨pre, post, hat, heq⟩ := h.busy hmem
    rw [hbase]
    refine ⟨_, _, hat.eraseAll hkeyed ns, ?_⟩
    rw [hfilter, Walker.keep, heq]
    rfl
  · rw [hs.emitting]
    exact h.once
  · rw [hs.emitting] at hmem
    exact halive hmem

/-! ## The loop -/

/-- What is emitted, and of which the loop goes on. -/
theorem Follows.emitLoop (h : Follows g s t) (hp : s.Placed) {gs : List ς}
    (hs : s.emitting = g :: gs) :
    ∃ t', Follows g (emitLoop s g).1 t' ∧
      (walking ℕ).Path t ((emitLoop s g).2.flatMap (Event.seen g)) t' := by
  have hmem : g ∈ s.emitting := by
    rw [hs]
    exact List.mem_cons_self
  obtain ⟨b, hb⟩ := Option.isSome_iff_exists.mp (h.alive hmem)
  have hbase : s.base g = b := by simp [State.base, hb]
  obtain ⟨pre, post, hat, htodo⟩ := h.busy hmem
  rw [hbase] at hat
  have hgs : g ∉ gs := by
    have honce := h.once
    rw [hs, List.count_cons_self] at honce
    exact List.count_eq_zero.mp (by omega)
  cases post with
  | nil =>
    have hloop : Sigslot.emitLoop s g = ({ s with emitting := gs }, [.ends g]) := by
      have hnone : b.currentIterator = none := hat.iterator
      simp [Sigslot.emitLoop, hb, hnone, hs]
    rw [hloop]
    have hends : ([.ends g] : List (Event ς ρ μ)).flatMap (Event.seen g) = [.ends] := by
      simp [Event.seen]
    rw [hends]
    refine ⟨{ t with todo := none }, ⟨h.list, h.used, h.listed, fun _ => rfl,
      fun hmem => absurd hmem hgs, h.calling, ?_, fun hmem => absurd hmem hgs⟩,
      .single ⟨htodo, h.calling, rfl⟩⟩
    exact (List.count_eq_zero.mpr hgs).le.trans (Nat.zero_le 1)
  | cons x post =>
    rw [emitLoop_of_at hp hb hat]
    have hturn : (walking ℕ).Path t [.turn x.1 true, .visit x.1 true true]
        { t with todo := some (post.map (·.1)), calling := none } :=
      .cons ⟨_, htodo, h.calling, rfl⟩ (.single ⟨rfl, rfl, rfl⟩)
    have hbase' : State.base (s.modify g fun b =>
        { b with currentIterator := post.head?.map (·.1) }) g =
        { b with currentIterator := post.head?.map (·.1) } := by
      simp [State.base, State.modify, hb]
    refine ⟨{ t with todo := some (post.map (·.1)), calling := none }, ⟨?_, h.used, h.listed,
      fun hnot => absurd hmem hnot, fun _ => ⟨pre ++ [x], post, ?_, rfl⟩, rfl, h.once, fun _ => ?_⟩,
      by simpa [Event.seen] using hturn⟩
    · rw [State.nodes, hbase']
      exact h.list.trans (by rw [State.nodes, hbase])
    · rw [hbase']
      refine ⟨?_, rfl⟩
      rw [hat.slots, List.append_assoc]
      rfl
    · rw [alive_modify]
      exact h.alive hmem

/-- What happens elsewhere. -/
theorem Follows.of_same (h : Follows g s t) (hbase : s'.base g = s.base g)
    (hfresh : s'.fresh = s.fresh) (halive : s'.alive = s.alive)
    (hcount : s'.emitting.count g = s.emitting.count g) : Follows g s' t := by
  have hmem : g ∈ s'.emitting ↔ g ∈ s.emitting := by
    rw [← List.count_pos_iff, hcount, List.count_pos_iff]
  refine ⟨?_, ?_, h.listed, ?_, ?_, h.calling, ?_, ?_⟩
  · rw [State.nodes, hbase]
    exact h.list
  · rw [hfresh]
    exact h.used
  · rw [hmem]
    exact h.idle
  · rw [hmem, hbase]
    exact h.busy
  · rw [hcount]
    exact h.once
  · rw [hmem, halive]
    exact h.alive

/-- A turn of the loop of another signal. -/
theorem emitLoop_other (hp : s.Placed) {g' : ς} (hne : g' ≠ g) {gs : List ς}
    (hs : s.emitting = g' :: gs) :
    (emitLoop s g').1.base g = s.base g ∧ (emitLoop s g').1.fresh = s.fresh ∧
      (emitLoop s g').1.alive = s.alive ∧ (emitLoop s g').1.emitting.count g = gs.count g ∧
      (emitLoop s g').2.flatMap (Event.seen g) = [] := by
  have hcount : s.emitting.count g = gs.count g := by rw [hs, List.count_cons_of_ne hne]
  rcases emitLoop_cases hp g' with ⟨-, heq⟩ | ⟨b, -, -, heq⟩ | ⟨b, pre, x, post, -, -, heq⟩
  · rw [heq]
    exact ⟨rfl, rfl, rfl, by simp [hs], by simp [Event.seen]⟩
  · rw [heq]
    exact ⟨rfl, rfl, rfl, by simp [hs], by simp [Event.seen, hne]⟩
  · rw [heq]
    refine ⟨?_, rfl, alive_modify s g' _, hcount, by simp [Event.seen, hne]⟩
    simp [State.base, State.modify, hne.symm]

theorem nodes_emitLoop (hp : s.Placed) (g' : ς) : (emitLoop s g').1.nodes g = s.nodes g := by
  rcases emitLoop_cases hp g' with ⟨-, heq⟩ | ⟨b, -, -, heq⟩ | ⟨b, pre, x, post, -, -, heq⟩
  · rw [heq]
    rfl
  · rw [heq]
    rfl
  · rw [heq, State.nodes, State.nodes]
    rcases s.base_modify g' g fun b => { b with currentIterator := post.head?.map (·.1) } with
      hsame | ⟨-, -, hmove⟩
    · rw [hsame]
    · rw [hmove]

theorem base_begin (hg : s.alive (.inl g) = true) :
    (s.begin g).base g =
      { s.base g with currentIterator := (s.base g).connectedSlots.head?.map (·.1) } := by
  obtain ⟨b, hb⟩ := Option.isSome_iff_exists.mp hg
  simp [State.base, State.begin, State.modify, hb]

/-- An emission begins. -/
theorem Follows.begin (h : Follows g s t) (hg : s.alive (.inl g) = true) (hnot : g ∉ s.emitting) :
    ∃ t', Follows g (s.begin g) t' ∧ (walking ℕ).Path t [.begins (s.nodes g)] t' := by
  refine ⟨{ t with todo := some t.list }, ⟨?_, h.used, h.listed, fun hnot => ?_, fun _ => ?_,
    h.calling, ?_, fun _ => ?_⟩, .single ⟨h.idle hnot, h.list.symm, rfl⟩⟩
  · rw [State.nodes, base_begin hg]
    exact h.list
  · exact absurd List.mem_cons_self hnot
  · refine ⟨[], (s.base g).connectedSlots, ?_, ?_⟩
    · rw [base_begin hg]
      exact ⟨rfl, rfl⟩
    · rw [h.list, State.nodes]
  · rw [State.begin, List.count_cons_self, List.count_eq_zero.mpr hnot]
  · exact (congrFun (alive_modify s g _) (.inl g)).trans hg

/-- A turn of the loop of an emission that has begun already, or of another signal. -/
theorem Follows.turn (h : Follows g s t) (hp : s.Placed) {g' : ς} {gs : List ς}
    (hs : s.emitting = g' :: gs) :
    ∃ t', Follows g (Sigslot.emitLoop s g').1 t' ∧
      (walking ℕ).Path t ((Sigslot.emitLoop s g').2.flatMap (Event.seen g) ++
        edits (s.nodes g) ((Sigslot.emitLoop s g').1.nodes g)) t' := by
  rw [nodes_emitLoop hp, edits_self, List.append_nil]
  rcases eq_or_ne g' g with rfl | hne
  · exact h.emitLoop hp hs
  · obtain ⟨hbase, hfresh, halive, hcount, hseen⟩ := emitLoop_other hp hne hs
    rw [hseen]
    refine ⟨t, h.of_same hbase hfresh halive ?_, .nil t⟩
    rw [hcount, hs, List.count_cons_of_ne hne]

variable [DecidableEq ρ]

/-- What is seen of the other objects is not seen of a signal. -/
theorem seen_step (hst : step s a = some (s', out)) : ∃ out₁, next s a = some (s', out₁) ∧
    out.flatMap (Event.seen g) = out₁.flatMap (Event.seen g) := by
  obtain ⟨out₁, hn, rfl⟩ := next_of_step hst
  refine ⟨out₁, hn, ?_⟩
  rw [List.flatMap_append, List.flatMap_eq_nil_iff.mpr ?_, List.nil_append]
  intro e he
  obtain ⟨o, -, rfl⟩ := List.mem_map.mp he
  rfl

/-- **One step.** -/
theorem Follows.step (h : Follows g s t) (hp : s.Placed) (ha : Alone g s a)
    (hst : step s a = some (s', out)) :
    ∃ t', Follows g s' t' ∧ (walking ℕ).Path t (s.walk g a out s') t' := by
  obtain ⟨out₁, hn, hout⟩ := seen_step (g := g) hst
  rw [State.walk, hout]
  cases hemits : a.emits with
  | false =>
    obtain ⟨hcases, rfl⟩ := next_base hp hn hemits
    have halive : g ∈ s.emitting → s'.alive (.inl g) = true := by
      refine fun hmem => alive_next hn hemits ?_ (h.alive hmem)
      rintro rfl
      exact ha rfl hmem
    have hpath : ∃ t', Follows g s' t' ∧
        (walking ℕ).Path t (edits (s.nodes g) (s'.nodes g)) t' := by
      rcases hcases with hgrown | hshrunk
      · exact h.grown hgrown halive
      · exact h.shrunk hp hshrunk halive
    cases a with
    | emit => cases hemits
    | _ => exact hpath
  | true =>
    cases a with
    | ret =>
      obtain ⟨g', gs, hgs, hloop⟩ := next_ret hn
      have hturn := h.turn hp hgs
      rw [hloop] at hturn
      exact hturn
    | emit g' =>
      obtain ⟨hg', hloop⟩ := next_emit hn
      have hnodes : (s.begin g').nodes g = s.nodes g := by
        rcases s.base_modify g' g fun b =>
          { b with currentIterator := b.connectedSlots.head?.map (·.1) } with hsame | ⟨-, -, hmove⟩
        · exact congrArg (fun b : SignalBase ρ μ => b.connectedSlots.map (·.1)) hsame
        · exact congrArg (fun b : SignalBase ρ μ => b.connectedSlots.map (·.1)) hmove
      have hbegin : ∃ t₁, Follows g (s.begin g') t₁ ∧
          (walking ℕ).Path t ((Label.emit g').begins g s) t₁ := by
        rcases eq_or_ne g' g with rfl | hne
        · rw [Label.begins, if_pos rfl]
          exact h.begin hg' (ha rfl)
        · rw [Label.begins, if_neg hne]
          refine ⟨t, h.of_same ?_ rfl (alive_begin s g') ?_, .nil t⟩
          · simp [State.base, State.begin, State.modify, hne.symm]
          · rw [State.begin, List.count_cons_of_ne hne]
      obtain ⟨t₁, ht₁, hpath₁⟩ := hbegin
      obtain ⟨t₂, ht₂, hpath₂⟩ := ht₁.turn (placed_begin hp) rfl
      rw [hloop, hnodes] at hpath₂
      rw [hloop] at ht₂
      rw [List.append_assoc]
      exact ⟨t₂, ht₂, hpath₁.append hpath₂⟩
    | _ => cases hemits

/-- Whatever is seen of a signal is a walk over a list that is edited meanwhile. -/
theorem Follows.path {h : List (Walk ℕ)} {s₁ s₂ : State ς ρ μ}
    (hr : (((machine ς ρ μ).traced (State.walk g)).startedIn s₁).ReachesVia (Alone g) h s₂)
    (hp : s₁.Placed) (ht : Follows g s₁ t) :
    ∃ t', s₂.Placed ∧ Follows g s₂ t' ∧ (walking ℕ).Path t h t' := by
  refine hr.induction (fun h s => ∃ t', s.Placed ∧ Follows g s t' ∧ (walking ℕ).Path t h t')
    (fun s hs => ?_) ?_
  · obtain rfl : s = s₁ := hs
    exact ⟨t, hp, ht, .nil t⟩
  · rintro h s a s' out ⟨t', hp', ht', hpath⟩ ha hst
    obtain ⟨⟨s₃, out₃⟩, hst₃, heq⟩ := Option.map_eq_some_iff.mp hst
    obtain ⟨rfl, rfl⟩ := Prod.mk.inj heq
    obtain ⟨t₃, ht₃, hpath₃⟩ := ht'.step hp' ha hst₃
    obtain ⟨_, hn, -⟩ := seen_step (g := g) hst₃
    exact ⟨t₃, hp'.next hn, ht₃, hpath.append hpath₃⟩

theorem accepts_walk {h : List (Walk ℕ)}
    (hr : ((machine ς ρ μ).traced (State.walk g)).ReachesVia (Alone g) h s) :
    ∃ t, s.Placed ∧ Follows g s t ∧ (walking ℕ).Accepts h t := by
  refine hr.induction (fun h s => ∃ t, s.Placed ∧ Follows g s t ∧ (walking ℕ).Accepts h t)
    (fun s hs => ?_) ?_
  · obtain ⟨hsignals, -, hemitting⟩ := hs
    have hnodes : s.nodes g = [] := by simp [State.nodes, State.base, hsignals]
    have hnot : g ∉ s.emitting := by simp [hemitting]
    exact ⟨⟨[], ∅, none, none⟩, placed_start hsignals, ⟨hnodes.symm, fun n hn => (by cases hn),
      fun n hn => (by cases hn), fun _ => rfl, fun hmem => absurd hmem hnot, rfl,
      by simp [hemitting], fun hmem => absurd hmem hnot⟩, .nil rfl⟩
  · rintro h s a s' out ⟨t, hp, ht, haccepts⟩ ha hst
    obtain ⟨⟨s₁, out₁⟩, hst₁, heq⟩ := Option.map_eq_some_iff.mp hst
    obtain ⟨rfl, rfl⟩ := Prod.mk.inj heq
    obtain ⟨t₁, ht₁, hpath⟩ := ht.step hp ha hst₁
    obtain ⟨_, hn, -⟩ := seen_step (g := g) hst₁
    exact ⟨t₁, hp.next hn, ht₁, haccepts.append hpath⟩

/-- Every turn is due. -/
theorem turn_due {M : Machine (State ς ρ μ) (Label ς ρ μ) (Walk ℕ)}
    {guard : State ς ρ μ → Label ς ρ μ → Prop}
    (hM : M.step = ((machine ς ρ μ).traced (State.walk g)).step) {h : List (Walk ℕ)}
    (hr : M.ReachesVia guard h s) : ∀ n due, .turn n due ∈ h → due = true := by
  refine hr.induction (fun h _ => ∀ n due, .turn n due ∈ h → due = true) (fun s _ => by simp) ?_
  intro h s a s' out hi _ hst n due hmem
  rw [hM] at hst
  obtain ⟨⟨s₁, out₁⟩, -, heq⟩ := Option.map_eq_some_iff.mp hst
  obtain ⟨rfl, rfl⟩ := Prod.mk.inj heq
  rcases List.mem_append.mp hmem with hmem | hmem
  · exact hi n due hmem
  rcases List.mem_append.mp hmem with hmem | hmem
  · rcases List.mem_append.mp hmem with hmem | hmem
    · cases a with
      | emit g' =>
        rw [Label.begins] at hmem
        split at hmem <;> simp at hmem
      | _ => cases hmem
    · obtain ⟨e, -, he⟩ := List.mem_flatMap.mp hmem
      cases e with
      | call g' k c alive =>
        rw [Event.seen] at he
        split at he
        · simp only [List.mem_cons, Walk.turn.injEq, reduceCtorEq, List.not_mem_nil, or_false] at he
          exact he.2
        · cases he
      | ends g' =>
        rw [Event.seen] at he
        split at he <;> simp at he
      | _ => cases he
  · simp [edits] at hmem

/-- Nothing, with one signal and one object. -/
def empty : State Unit Unit Unit := ⟨fun _ => none, fun _ => none, [], 0⟩

/-- An object is connected twice. -/
def twice : List (Label Unit Unit Unit) :=
  [.makeSignal (), .makeSlots (), .connect () () (), .connect () () ()]

theorem base_connect {s₁ : State ς ρ μ} {r : ρ} {m : μ}
    (h : next s (.connect g r m) = some (s₁, out)) :
    s₁.base g = (s.base g).append [(s.fresh, ⟨r, m⟩)] ∧ s₁.emitting = s.emitting := by
  simp only [next, Option.ite_none_right_eq_some, Option.some.injEq, Prod.mk.injEq] at h
  obtain ⟨⟨hg, -⟩, rfl, -⟩ := h
  obtain ⟨b, hb⟩ := Option.isSome_iff_exists.mp hg
  refine ⟨?_, rfl⟩
  simp [State.base, State.signalConnect, State.pushBack, State.modify, hb, append,
    SignalBase.pushBack]

/-- An object connected so many times, and where the iterator is in an emission. -/
def during (nodes : List ℕ) (at' : Option ℕ) (emitting : List Unit) : State Unit Unit Unit :=
  ⟨fun _ => some ⟨nodes.map fun n => (n, ⟨(), ()⟩), at'⟩, fun _ => some [()], emitting,
    nodes.length⟩

theorem placed_of_reaches {h : List (Event ς ρ μ)} (hr : (machine ς ρ μ).Reaches h s) :
    s.Placed := by
  refine hr.invariant Placed (fun s hs => placed_start hs.1) fun s a s' out hp _ hst => ?_
  obtain ⟨_, hn, -⟩ := next_of_step hst
  exact hp.next hn

omit [DecidableEq ρ] in
/-- A turn of a loop leaves an iterator at the end, and calls nothing there. -/
theorem iterator_emitLoop (hp : s.Placed) (hnone : (s.base g).currentIterator = none) {g' : ς}
    {gs : List ς} (hs : s.emitting = g' :: gs) :
    ((emitLoop s g').1.base g).currentIterator = none ∧
      ∀ n c alive, .call g n c alive ∉ (emitLoop s g').2 := by
  rcases eq_or_ne g' g with rfl | hne
  · rcases emitLoop_cases hp g' with ⟨-, heq⟩ | ⟨b, -, -, heq⟩ | ⟨b, pre, x, post, hb, hat, -⟩
    · rw [heq]
      exact ⟨hnone, by simp⟩
    · rw [heq]
      exact ⟨hnone, by simp⟩
    · have hsome := hat.iterator
      rw [show s.base g' = b by simp [State.base, hb], hsome] at hnone
      cases hnone
  · obtain ⟨hbase, -, -, -, hseen⟩ := emitLoop_other hp hne hs
    rw [hbase]
    refine ⟨hnone, fun n c alive hmem => ?_⟩
    have hnil := List.flatMap_eq_nil_iff.mp hseen _ hmem
    simp [Event.seen] at hnil

/-- At the end an iterator stays until the next emission. -/
theorem iterator_next (hp : s.Placed) (hnone : (s.base g).currentIterator = none)
    (ha : a ≠ .emit g) (hn : next s a = some (s', out)) :
    (s'.base g).currentIterator = none ∧ ∀ n c alive, .call g n c alive ∉ out := by
  cases hemits : a.emits with
  | false =>
    obtain ⟨hcases, rfl⟩ := next_base hp hn hemits
    refine ⟨?_, by simp⟩
    rcases hcases with hgrown | hshrunk
    · obtain ⟨xs, -, hbase⟩ := hgrown.base g
      rw [hbase]
      exact hnone
    · obtain ⟨ns, hbase⟩ := hshrunk.base g
      obtain ⟨hkeyed, pre, post, hat⟩ := hp g
      have hpost : post = [] := by
        have hiterator := hat.iterator
        rw [hnone] at hiterator
        simpa using hiterator.symm
      rw [hpost] at hat
      rw [hbase]
      exact (hat.eraseAll hkeyed ns).iterator
  | true =>
    cases a with
    | ret =>
      obtain ⟨g', gs, hgs, hloop⟩ := next_ret hn
      have hturn := iterator_emitLoop hp hnone hgs
      rwa [hloop] at hturn
    | emit g' =>
      obtain ⟨-, hloop⟩ := next_emit hn
      have hne : g ≠ g' := fun heq => ha (congrArg Label.emit heq.symm)
      have hbase : (s.begin g').base g = s.base g := by
        simp [State.base, State.begin, State.modify, hne]
      rw [← hbase] at hnone
      have hturn := iterator_emitLoop (placed_begin hp) hnone rfl
      rwa [hloop] at hturn
    | _ => cases hemits

omit [DecidableEq ρ] in
/-- An emission that ends leaves the iterator at the end. -/
theorem iterator_of_ends (hp : s.Placed) (g' : ς) (hends : .ends g ∈ (emitLoop s g').2) :
    ((emitLoop s g').1.base g).currentIterator = none := by
  rcases emitLoop_cases hp g' with ⟨-, heq⟩ | ⟨b, hb, hnone, heq⟩ | ⟨b, pre, x, post, hb, hat, heq⟩
  · rw [heq] at hends
    simp at hends
  · rw [heq] at hends ⊢
    obtain rfl : g = g' := by simpa using hends
    simpa [State.base, hb] using hnone
  · rw [heq] at hends
    simp at hends

/-- So does `disconnect_all`. -/
theorem iterator_disconnectAll (s : State ς ρ μ) (g : ς) :
    ((s.disconnectAll g).base g).currentIterator = none := by
  rw [disconnectAll, State.modify, State.base]
  simp only [Function.update_self]
  cases (List.foldl _ s (s.slots g)).signals g <;> rfl

end Sigslot

end TQLib
