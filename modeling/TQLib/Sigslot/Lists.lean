import Mathlib.Data.List.Nodup
import TQLib.Sigslot.Model

/-!
# The list of a signal and the iterator in it

Whatever is called, the list of a signal changes in one of two ways: nodes are erased, which takes
the iterator along, or new ones are put at the end, which it comes to unless it is there already.

## Main results

* `SignalBase.At.eraseAll`, `SignalBase.At.append` — where the iterator is after a change
* `next_base` — what a call does to the list of a signal
-/

namespace TQLib

namespace Sigslot

variable {ς ρ μ : Type*}

namespace SignalBase

variable {b : SignalBase ρ μ} {xs pre post : List (ℕ × OpaqueConnection ρ μ)}
  {x : ℕ × OpaqueConnection ρ μ} {k k' n : ℕ}

/-- The nodes in front of the iterator, and those from it on. -/
structure At (b : SignalBase ρ μ) (pre post : List (ℕ × OpaqueConnection ρ μ)) : Prop where
  slots : b.connectedSlots = pre ++ post
  iterator : b.currentIterator = post.head?.map (·.1)

/-- No two nodes are the same, and none is new. -/
structure Keyed (b : SignalBase ρ μ) (k : ℕ) : Prop where
  nodup : (b.connectedSlots.map (·.1)).Nodup
  lt : ∀ x ∈ b.connectedSlots, x.1 < k

/-- `erase`, of one node after the other. -/
def eraseAll (b : SignalBase ρ μ) (ns : List ℕ) : SignalBase ρ μ := ns.foldl erase b

/-- New nodes at the end. -/
def append (b : SignalBase ρ μ) (xs : List (ℕ × OpaqueConnection ρ μ)) : SignalBase ρ μ :=
  { b with connectedSlots := b.connectedSlots ++ xs }

theorem Keyed.ne_of_mem_left (h : b.Keyed k) (hb : b.connectedSlots = pre ++ x :: post) :
    ∀ y ∈ pre, y.1 ≠ x.1 := by
  intro y hy heq
  have hnodup := h.nodup
  rw [hb, List.map_append, List.map_cons, List.nodup_append'] at hnodup
  refine hnodup.2.2 (List.mem_map_of_mem hy) ?_
  rw [heq]
  exact List.mem_cons_self

/-- `++it`. -/
theorem Keyed.succ_eq (h : b.Keyed k) (hb : b.connectedSlots = pre ++ x :: post) :
    b.succ x.1 = post.head?.map (·.1) := by
  have hpre : ∀ y ∈ pre, decide (y.1 ≠ x.1) = true := fun y hy =>
    decide_eq_true (h.ne_of_mem_left hb y hy)
  rw [succ, hb, List.dropWhile_append_of_pos hpre, List.dropWhile_cons_of_neg (by simp),
    List.tail_cons]

/-- `*it`. -/
theorem Keyed.deref_eq (h : b.Keyed k) (hb : b.connectedSlots = pre ++ x :: post) :
    b.deref x.1 = some x.2 := by
  have hpre : pre.find? (fun y => decide (y.1 = x.1)) = none := by
    refine List.find?_eq_none.mpr fun y hy => ?_
    simpa using h.ne_of_mem_left hb y hy
  rw [deref, hb, List.find?_append, hpre, Option.none_or, List.find?_cons_of_pos (by simp)]
  rfl

theorem Keyed.filter (h : b.Keyed k) {b' : SignalBase ρ μ} {p : ℕ × OpaqueConnection ρ μ → Bool}
    (hb : b'.connectedSlots = b.connectedSlots.filter p) : b'.Keyed k := by
  constructor
  · rw [hb]
    exact h.nodup.sublist (List.filter_sublist.map _)
  · intro x hx
    rw [hb] at hx
    exact h.lt x (List.mem_of_mem_filter hx)

theorem Keyed.erase (h : b.Keyed k) (n : ℕ) : (b.erase n).Keyed k := h.filter rfl

/-- **A node is erased**, and the iterator goes on if it is there. -/
theorem At.erase (hat : b.At pre post) (h : b.Keyed k) (n : ℕ) :
    (b.erase n).At (pre.filter (·.1 ≠ n)) (post.filter (·.1 ≠ n)) := by
  refine ⟨?_, ?_⟩
  · rw [SignalBase.erase, hat.slots, List.filter_append]
  · rw [SignalBase.erase, hat.iterator]
    cases post with
    | nil => rfl
    | cons x post =>
      by_cases hx : x.1 = n
      · subst hx
        have hpost : post.filter (fun y => decide (y.1 ≠ x.1)) = post := by
          refine List.filter_eq_self.mpr fun y hy => decide_eq_true fun heq => ?_
          have hnodup := h.nodup
          rw [hat.slots, List.map_append, List.map_cons, List.nodup_append'] at hnodup
          refine (List.nodup_cons.mp hnodup.2.1).1 ?_
          rw [← heq]
          exact List.mem_map_of_mem hy
        rw [List.filter_cons_of_neg (by simp), hpost]
        exact (if_pos rfl).trans (h.succ_eq hat.slots)
      · rw [List.filter_cons_of_pos (by simpa using hx)]
        exact if_neg fun heq => hx (Option.some.inj heq)

theorem Keyed.eraseAll (h : b.Keyed k) (ns : List ℕ) : (b.eraseAll ns).Keyed k := by
  induction ns generalizing b with
  | nil => exact h
  | cons n ns ih => exact ih (h.erase n)

/-- **Nodes are erased.** -/
theorem At.eraseAll (hat : b.At pre post) (h : b.Keyed k) (ns : List ℕ) :
    (b.eraseAll ns).At (pre.filter (·.1 ∉ ns)) (post.filter (·.1 ∉ ns)) := by
  induction ns generalizing b pre post with
  | nil => simpa [SignalBase.eraseAll] using hat
  | cons n ns ih =>
    have hfilter : ∀ l : List (ℕ × OpaqueConnection ρ μ),
        (l.filter (·.1 ≠ n)).filter (·.1 ∉ ns) = l.filter (·.1 ∉ n :: ns) := fun l => by
      rw [List.filter_filter]
      refine List.filter_congr fun y _ => ?_
      simp [Bool.and_comm]
    have htail := ih (hat.erase h n) (h.erase n)
    rwa [hfilter, hfilter] at htail

/-- **Nodes come**, and the iterator comes to them unless it is at the end. -/
theorem At.append (hat : b.At pre post) (xs : List (ℕ × OpaqueConnection ρ μ)) :
    (post = [] → (b.append xs).At (pre ++ xs) []) ∧
      (post ≠ [] → (b.append xs).At pre (post ++ xs)) := by
  refine ⟨?_, fun hpost => ⟨?_, ?_⟩⟩
  · rintro rfl
    refine ⟨?_, hat.iterator⟩
    rw [SignalBase.append, hat.slots, List.append_nil, List.append_nil]
  · rw [SignalBase.append, hat.slots, List.append_assoc]
  · obtain ⟨y, ys, rfl⟩ := List.exists_cons_of_ne_nil hpost
    exact hat.iterator

/-- Nodes that are new, of which the first may be `k` and the last comes before `k'`. -/
structure New (xs : List (ℕ × OpaqueConnection ρ μ)) (k k' : ℕ) : Prop where
  nodup : (xs.map (·.1)).Nodup
  le : ∀ x ∈ xs, k ≤ x.1
  lt : ∀ x ∈ xs, x.1 < k'

theorem Keyed.append (h : b.Keyed k) (hnew : New xs k k') (hk : k ≤ k') :
    (b.append xs).Keyed k' := by
  constructor
  · rw [SignalBase.append, List.map_append, List.nodup_append']
    refine ⟨h.nodup, hnew.nodup, fun n hn hn' => ?_⟩
    obtain ⟨x, hx, rfl⟩ := List.mem_map.mp hn
    obtain ⟨y, hy, heq⟩ := List.mem_map.mp hn'
    have hlt := h.lt x hx
    have hle := hnew.le y hy
    omega
  · intro x hx
    rcases List.mem_append.mp hx with hx | hx
    · exact (h.lt x hx).trans_le hk
    · exact hnew.lt x hx

theorem Keyed.mono (h : b.Keyed k) (hk : k ≤ k') : b.Keyed k' :=
  ⟨h.nodup, fun x hx => (h.lt x hx).trans_le hk⟩

/-! ### What the functions of a signal do -/

theorem eraseAll_eraseAll (b : SignalBase ρ μ) (ns ns' : List ℕ) :
    (b.eraseAll ns).eraseAll ns' = b.eraseAll (ns ++ ns') :=
  (List.foldl_append ..).symm

theorem mem_eraseAll {ns : List ℕ} :
    x ∈ (b.eraseAll ns).connectedSlots ↔ x ∈ b.connectedSlots ∧ x.1 ∉ ns := by
  induction ns generalizing b with
  | nil => simp [eraseAll]
  | cons n ns ih =>
    have hmem : x ∈ (b.erase n).connectedSlots ↔ x ∈ b.connectedSlots ∧ x.1 ≠ n := by
      simp [SignalBase.erase]
    rw [show b.eraseAll (n :: ns) = (b.erase n).eraseAll ns from rfl, ih, hmem, and_assoc,
      List.mem_cons, not_or]

theorem append_append (b : SignalBase ρ μ) (xs ys : List (ℕ × OpaqueConnection ρ μ)) :
    (b.append xs).append ys = b.append (xs ++ ys) := by
  simp [append]

/-- To erase all leaves nothing. -/
theorem At.eraseAll_self (hat : b.At pre post) (h : b.Keyed k) :
    b.eraseAll (b.connectedSlots.map (·.1)) = ⟨[], none⟩ := by
  have hnil : ∀ l, l ⊆ b.connectedSlots →
      l.filter (·.1 ∉ b.connectedSlots.map (·.1)) = [] := fun l hl => by
    refine List.filter_eq_nil_iff.mpr fun x hx => ?_
    have hmem := List.mem_map_of_mem (f := fun y : ℕ × OpaqueConnection ρ μ => y.1) (hl hx)
    simpa using hmem
  have hpre : pre ⊆ b.connectedSlots := by
    rw [hat.slots]
    exact List.subset_append_left pre post
  have hpost : post ⊆ b.connectedSlots := by
    rw [hat.slots]
    exact List.subset_append_right pre post
  have hall := hat.eraseAll h (b.connectedSlots.map (·.1))
  rw [hnil pre hpre, hnil post hpost] at hall
  generalize b.eraseAll _ = b' at hall
  obtain ⟨slots, iterator⟩ := b'
  obtain ⟨rfl, rfl⟩ : slots = [] ∧ iterator = none := ⟨hall.slots, hall.iterator⟩
  rfl

variable [DecidableEq ρ]

theorem slotDisconnect_eq (b : SignalBase ρ μ) (r : ρ) :
    b.slotDisconnect r = b.eraseAll ((b.connectedSlots.filter (·.2.pdest = r)).map (·.1)) := by
  rw [slotDisconnect, eraseAll, List.foldl_map, List.foldl_filter]
  simp

theorem Keyed.mem_slotDisconnect (h : b.Keyed k) {r : ρ} :
    x ∈ (b.slotDisconnect r).connectedSlots ↔ x ∈ b.connectedSlots ∧ x.2.pdest ≠ r := by
  rw [slotDisconnect_eq, mem_eraseAll]
  refine and_congr_right fun hx => not_congr ?_
  rw [List.mem_map]
  constructor
  · rintro ⟨y, hy, heq⟩
    obtain ⟨hy, hr⟩ := List.mem_filter.mp hy
    rw [← List.inj_on_of_nodup_map h.nodup hy hx heq]
    simpa using hr
  · exact fun hr => ⟨x, List.mem_filter.mpr ⟨hx, by simpa using hr⟩, rfl⟩

/-- `disconnect` takes one connection to the object out of the list. -/
theorem Keyed.disconnect (h : b.Keyed k) {b' : SignalBase ρ μ} {r : ρ}
    (hd : b.disconnect r = some b') : ∃ l x l', b.connectedSlots = l ++ x :: l' ∧
      x.2.pdest = r ∧ b'.connectedSlots = l ++ l' := by
  obtain ⟨x, hx, rfl⟩ := Option.map_eq_some_iff.mp hd
  obtain ⟨hr, l, l', hb, -⟩ := List.find?_eq_some_iff_append.mp hx
  refine ⟨l, x, l', hb, of_decide_eq_true hr, ?_⟩
  have hnodup := h.nodup
  rw [hb, List.map_append, List.map_cons, List.nodup_append', List.nodup_cons] at hnodup
  have hl' : ∀ y ∈ l', decide (y.1 ≠ x.1) = true := fun y hy => decide_eq_true fun heq =>
    hnodup.2.1.1 (List.mem_map.mpr ⟨y, hy, heq⟩)
  rw [SignalBase.erase, hb, List.filter_append, List.filter_cons_of_neg (by simp),
    List.filter_eq_self.mpr hl',
    List.filter_eq_self.mpr fun y hy => decide_eq_true (h.ne_of_mem_left hb y hy)]

theorem eq_eraseAll_of_disconnect {b' : SignalBase ρ μ} {r : ρ} (h : b.disconnect r = some b') :
    ∃ n, b' = b.eraseAll [n] := by
  obtain ⟨x, -, rfl⟩ := Option.map_eq_some_iff.mp h
  exact ⟨x.1, rfl⟩

end SignalBase

/-! ## All signals -/

open SignalBase

namespace State

variable {s s' s'' : State ς ρ μ} {g : ς} {r : ρ}

/-- A signal, which has no connections if it does not live. -/
def base (s : State ς ρ μ) (g : ς) : SignalBase ρ μ := (s.signals g).getD ⟨[], none⟩

/-- The iterators are where they should be. -/
def Placed (s : State ς ρ μ) : Prop :=
  ∀ g, (s.base g).Keyed s.fresh ∧ ∃ pre post, (s.base g).At pre post

/-- Nodes have been put at the ends of the lists. -/
structure Grown (s s' : State ς ρ μ) : Prop where
  fresh : s.fresh ≤ s'.fresh
  emitting : s'.emitting = s.emitting
  base : ∀ g, ∃ xs, New xs s.fresh s'.fresh ∧ s'.base g = (s.base g).append xs

/-- Nodes have been erased. -/
structure Shrunk (s s' : State ς ρ μ) : Prop where
  fresh : s'.fresh = s.fresh
  emitting : s'.emitting = s.emitting
  base : ∀ g, ∃ ns, s'.base g = (s.base g).eraseAll ns

/-- Nothing has changed in the lists. -/
theorem Grown.same (hfresh : s'.fresh = s.fresh) (hemitting : s'.emitting = s.emitting)
    (hbase : ∀ g, s'.base g = s.base g) : Grown s s' := by
  refine ⟨hfresh.ge, hemitting, fun g => ⟨[], ⟨List.nodup_nil, by simp, by simp⟩, ?_⟩⟩
  rw [hbase, append, List.append_nil]

theorem Shrunk.same (hfresh : s'.fresh = s.fresh) (hemitting : s'.emitting = s.emitting)
    (hbase : ∀ g, s'.base g = s.base g) : Shrunk s s' :=
  ⟨hfresh, hemitting, fun g => ⟨[], hbase g⟩⟩

theorem Grown.trans (h : Grown s s') (h' : Grown s' s'') : Grown s s'' := by
  refine ⟨h.fresh.trans h'.fresh, h'.emitting.trans h.emitting, fun g => ?_⟩
  obtain ⟨xs, hxs, hb⟩ := h.base g
  obtain ⟨ys, hys, hb'⟩ := h'.base g
  refine ⟨xs ++ ys, ⟨?_, fun x hx => ?_, fun x hx => ?_⟩, by rw [hb', hb, append_append]⟩
  · rw [List.map_append, List.nodup_append']
    refine ⟨hxs.nodup, hys.nodup, fun n hn hn' => ?_⟩
    obtain ⟨x, hx, rfl⟩ := List.mem_map.mp hn
    obtain ⟨y, hy, heq⟩ := List.mem_map.mp hn'
    have hlt := hxs.lt x hx
    have hle := hys.le y hy
    omega
  · rcases List.mem_append.mp hx with hx | hx
    · exact hxs.le x hx
    · exact h.fresh.trans (hys.le x hx)
  · rcases List.mem_append.mp hx with hx | hx
    · exact (hxs.lt x hx).trans_le h'.fresh
    · exact hys.lt x hx

theorem Shrunk.trans (h : Shrunk s s') (h' : Shrunk s' s'') : Shrunk s s'' := by
  refine ⟨h'.fresh.trans h.fresh, h'.emitting.trans h.emitting, fun g => ?_⟩
  obtain ⟨ns, hb⟩ := h.base g
  obtain ⟨ns', hb'⟩ := h'.base g
  exact ⟨ns ++ ns', by rw [hb', hb, eraseAll_eraseAll]⟩

theorem Grown.foldl {α : Type*} {f : State ς ρ μ → α → State ς ρ μ}
    (hf : ∀ s x, Grown s (f s x)) (xs : List α) (s : State ς ρ μ) : Grown s (xs.foldl f s) := by
  induction xs generalizing s with
  | nil => exact .same rfl rfl fun _ => rfl
  | cons x xs ih => exact (hf s x).trans (ih (f s x))

theorem Shrunk.foldl {α : Type*} {f : State ς ρ μ → α → State ς ρ μ}
    (hf : ∀ s x, Shrunk s (f s x)) (xs : List α) (s : State ς ρ μ) : Shrunk s (xs.foldl f s) := by
  induction xs generalizing s with
  | nil => exact .same rfl rfl fun _ => rfl
  | cons x xs ih => exact (hf s x).trans (ih (f s x))

theorem Shrunk.keyed (h : Shrunk s s') (hs : ∀ g, (s.base g).Keyed s.fresh) :
    ∀ g, (s'.base g).Keyed s'.fresh := by
  intro g
  obtain ⟨ns, hns⟩ := h.base g
  rw [h.fresh, hns]
  exact (hs g).eraseAll ns

theorem Shrunk.placed (h : Shrunk s s') (hs : s.Placed) : s'.Placed := by
  refine fun g => ⟨h.keyed (fun g => (hs g).1) g, ?_⟩
  obtain ⟨ns, hns⟩ := h.base g
  obtain ⟨hkeyed, pre, post, hat⟩ := hs g
  rw [hns]
  exact ⟨_, _, hat.eraseAll hkeyed ns⟩

theorem Grown.placed (h : Grown s s') (hs : s.Placed) : s'.Placed := by
  intro g
  obtain ⟨xs, hxs, hbase⟩ := h.base g
  obtain ⟨hkeyed, pre, post, hat⟩ := hs g
  rw [hbase]
  refine ⟨hkeyed.append hxs h.fresh, ?_⟩
  rcases eq_or_ne post [] with hpost | hpost
  · exact ⟨_, _, (hat.append xs).1 hpost⟩
  · exact ⟨_, _, (hat.append xs).2 hpost⟩

variable [DecidableEq ς]

theorem base_modify (s : State ς ρ μ) (g g' : ς) (f : SignalBase ρ μ → SignalBase ρ μ) :
    (s.modify g f).base g' = s.base g' ∨
      g' = g ∧ (s.signals g).isSome ∧ (s.modify g f).base g' = f (s.base g') := by
  rcases eq_or_ne g' g with rfl | hne
  · cases hg : s.signals g' with
    | none => exact .inl (by simp [State.base, modify, hg])
    | some b => exact .inr ⟨rfl, rfl, by simp [State.base, modify, hg]⟩
  · exact .inl (by simp [State.base, modify, Function.update_of_ne hne])

theorem Grown.pushBack (s : State ς ρ μ) (g : ς) (c : OpaqueConnection ρ μ) :
    Grown s (s.pushBack g c) := by
  refine ⟨Nat.le_succ _, rfl, fun g' => ?_⟩
  rcases s.base_modify g g' (·.pushBack s.fresh c) with heq | ⟨-, -, heq⟩
  · refine ⟨[], ⟨List.nodup_nil, by simp, by simp⟩, heq.trans ?_⟩
    rw [append, List.append_nil]
  · exact ⟨[(s.fresh, c)], ⟨List.nodup_singleton _, by simp, by simp [State.pushBack]⟩, heq⟩

theorem Grown.slotDuplicate [DecidableEq ρ] (s : State ς ρ μ) (g : ς) (r r' : ρ) :
    Grown s (s.slotDuplicate g r r') := by
  refine .foldl (fun s x => ?_) _ s
  split
  · exact .pushBack s g _
  · exact .same rfl rfl fun _ => rfl

theorem base_update_none (h : s.signals g = none) (g' : ς) :
    ({ s with signals := Function.update s.signals g (some ⟨[], none⟩) } : State ς ρ μ).base g' =
      s.base g' := by
  rcases eq_or_ne g' g with rfl | hne
  · simp [State.base, h]
  · simp [State.base, Function.update_of_ne hne]

theorem Grown.copySignal [DecidableEq ρ] (o : ς) (h : s.signals g = none) :
    Grown s (s.copySignal o g) := by
  have hstart : Grown s { s with signals := Function.update s.signals g (some ⟨[], none⟩) } :=
    .same rfl rfl (base_update_none h)
  refine hstart.trans (.foldl (fun s x => ?_) _ _)
  have hconnect : Grown s (s.signalConnect x.2.pdest g) := .same rfl rfl fun _ => rfl
  exact hconnect.trans (.pushBack _ g x.2)

theorem Grown.copySlots [DecidableEq ρ] (s : State ς ρ μ) (o r : ρ) :
    Grown s (s.copySlots o r) := by
  have hstart : Grown s { s with senders := Function.update s.senders r (some []) } :=
    .same rfl rfl fun _ => rfl
  refine hstart.trans (.foldl (fun s g => ?_) _ _)
  exact (Grown.slotDuplicate s g o r).trans (.same rfl rfl fun _ => rfl)

theorem Shrunk.modify {f : SignalBase ρ μ → SignalBase ρ μ}
    (hf : (s.signals g).isSome → ∃ ns, f (s.base g) = (s.base g).eraseAll ns) :
    Shrunk s (s.modify g f) := by
  refine ⟨rfl, rfl, fun g' => ?_⟩
  rcases s.base_modify g g' f with heq | ⟨rfl, halive, heq⟩
  · exact ⟨[], heq⟩
  · obtain ⟨ns, hns⟩ := hf halive
    exact ⟨ns, heq.trans hns⟩

theorem Shrunk.slotsDisconnectAll [DecidableEq ρ] (s : State ς ρ μ) (r : ρ) :
    Shrunk s (s.slotsDisconnectAll r) := by
  have hstart : Shrunk s
      { s with senders := Function.update s.senders r ((s.senders r).map fun _ => []) } :=
    .same rfl rfl fun _ => rfl
  refine hstart.trans (.foldl (fun s g => ?_) _ _)
  exact .modify fun _ => ⟨_, slotDisconnect_eq _ r⟩

theorem signals_foldl_signalDisconnect [DecidableEq ρ] (g : ς)
    (xs : List (ℕ × OpaqueConnection ρ μ)) (s : State ς ρ μ) :
    (xs.foldl (fun s x => s.signalDisconnect x.2.pdest g) s).signals = s.signals := by
  induction xs generalizing s with
  | nil => rfl
  | cons x xs ih => exact ih _

theorem Shrunk.disconnectAll [DecidableEq ρ] (hp : s.Placed) (g : ς) :
    Shrunk s (s.disconnectAll g) := by
  have hone : ∀ (s : State ς ρ μ) (r : ρ), Shrunk s (s.signalDisconnect r g) :=
    fun _ _ => .same rfl rfl fun _ => rfl
  have hfold : Shrunk s ((s.slots g).foldl (fun s x => s.signalDisconnect x.2.pdest g) s) :=
    .foldl (fun s (x : ℕ × OpaqueConnection ρ μ) => hone s x.2.pdest) _ s
  refine hfold.trans (.modify fun _ => ⟨(s.base g).connectedSlots.map (·.1), ?_⟩)
  obtain ⟨hkeyed, pre, post, hat⟩ := hp g
  have hbase : (State.base ((s.slots g).foldl (fun s x => s.signalDisconnect x.2.pdest g) s) g) =
      s.base g := by
    rw [State.base, signals_foldl_signalDisconnect, State.base]
  rw [hbase]
  exact (hat.eraseAll_self hkeyed).symm

end State

/-! ## All calls -/

/-- The calls that go on with an emission. -/
def Label.emits : Label ς ρ μ → Bool
  | .emit _ => true
  | .ret => true
  | _ => false

open State

variable [DecidableEq ς] [DecidableEq ρ] {s s' : State ς ρ μ} {a : Label ς ρ μ}
  {out : List (Event ς ρ μ)}

/-- **What a call does to the lists.** -/
theorem next_base (hp : s.Placed) (h : next s a = some (s', out)) (ha : a.emits = false) :
    (Grown s s' ∨ Shrunk s s') ∧ out = [] := by
  cases a with
  | makeSignal g =>
    simp only [next, Option.ite_none_left_eq_some, Option.some.injEq, Prod.mk.injEq] at h
    obtain ⟨hg, rfl, rfl⟩ := h
    exact ⟨.inl (.same rfl rfl (base_update_none (by simpa [alive] using hg))), rfl⟩
  | makeSlots r =>
    simp only [next, Option.ite_none_left_eq_some, Option.some.injEq, Prod.mk.injEq] at h
    obtain ⟨-, rfl, rfl⟩ := h
    exact ⟨.inl (.same rfl rfl fun _ => rfl), rfl⟩
  | copySignal o g =>
    simp only [next, Option.ite_none_right_eq_some, Option.some.injEq, Prod.mk.injEq] at h
    obtain ⟨⟨-, hg⟩, rfl, rfl⟩ := h
    exact ⟨.inl (.copySignal o (by simpa [alive] using hg)), rfl⟩
  | copySlots o r =>
    simp only [next, Option.ite_none_right_eq_some, Option.some.injEq, Prod.mk.injEq] at h
    obtain ⟨-, rfl, rfl⟩ := h
    exact ⟨.inl (.copySlots s o r), rfl⟩
  | connect g r m =>
    simp only [next, Option.ite_none_right_eq_some, Option.some.injEq, Prod.mk.injEq] at h
    obtain ⟨-, rfl, rfl⟩ := h
    exact ⟨.inl (.trans (.pushBack s g ⟨r, m⟩) (.same rfl rfl fun _ => rfl)), rfl⟩
  | disconnect g r =>
    simp only [next, Option.ite_none_right_eq_some] at h
    obtain ⟨-, h⟩ := h
    cases hg : s.signals g with
    | none => simp [hg] at h
    | some b =>
      cases hb : b.disconnect r with
      | none =>
        simp only [hg, hb, Option.some.injEq, Prod.mk.injEq] at h
        obtain ⟨rfl, rfl⟩ := h
        exact ⟨.inr (.same rfl rfl fun _ => rfl), rfl⟩
      | some b' =>
        simp only [hg, hb, Option.some.injEq, Prod.mk.injEq] at h
        obtain ⟨rfl, rfl⟩ := h
        obtain ⟨n, rfl⟩ := eq_eraseAll_of_disconnect hb
        have hbase : s.base g = b := by simp [State.base, hg]
        exact ⟨.inr (.trans (.modify fun _ => ⟨[n], by rw [hbase]⟩) (.same rfl rfl fun _ => rfl)),
          rfl⟩
  | disconnectAll g =>
    simp only [next, Option.ite_none_right_eq_some, Option.some.injEq, Prod.mk.injEq] at h
    obtain ⟨-, rfl, rfl⟩ := h
    exact ⟨.inr (.disconnectAll hp g), rfl⟩
  | slotsDisconnectAll r =>
    simp only [next, Option.ite_none_right_eq_some, Option.some.injEq, Prod.mk.injEq] at h
    obtain ⟨-, rfl, rfl⟩ := h
    exact ⟨.inr (.slotsDisconnectAll s r), rfl⟩
  | endSignal g =>
    simp only [next, Option.ite_none_right_eq_some, Option.some.injEq, Prod.mk.injEq] at h
    obtain ⟨-, rfl, rfl⟩ := h
    refine ⟨.inr (.trans (.disconnectAll hp g) (.same rfl rfl fun g' => ?_)), rfl⟩
    rcases eq_or_ne g' g with rfl | hne
    · simp only [State.base, State.disconnectAll, State.modify, Function.update_self]
      cases (List.foldl _ s (s.slots g')).signals g' <;> rfl
    · simp [State.base, Function.update_of_ne hne]
  | endSlots r =>
    simp only [next, Option.ite_none_right_eq_some, Option.some.injEq, Prod.mk.injEq] at h
    obtain ⟨-, rfl, rfl⟩ := h
    exact ⟨.inr (.trans (.slotsDisconnectAll s r) (.same rfl rfl fun _ => rfl)), rfl⟩
  | emit => cases ha
  | ret => cases ha

omit [DecidableEq ρ] in
/-- The loop of `emit` comes to a node. -/
theorem emitLoop_of_at {g : ς} {b : SignalBase ρ μ} {x : ℕ × OpaqueConnection ρ μ}
    {pre post : List (ℕ × OpaqueConnection ρ μ)} (hp : s.Placed) (hb : s.signals g = some b)
    (hat : b.At pre (x :: post)) :
    emitLoop s g = (s.modify g fun b => { b with currentIterator := post.head?.map (·.1) },
      [.call g x.1 x.2 (s.alive (.inr x.2.pdest))]) := by
  have hbase : s.base g = b := by simp [State.base, hb]
  have hkeyed := (hp g).1
  rw [hbase] at hkeyed
  have hmodify : s.modify g (fun b => { b with currentIterator := b.succ x.1 }) =
      s.modify g fun b => { b with currentIterator := post.head?.map (·.1) } := by
    simp [State.modify, hb, hkeyed.succ_eq hat.slots]
  simp only [emitLoop, hb, hat.iterator, List.head?_cons, Option.map_some,
    hkeyed.deref_eq hat.slots, hmodify]

omit [DecidableEq ρ] in
/-- **A turn of the loop of `emit`.** -/
theorem emitLoop_cases (hp : s.Placed) (g : ς) :
    (s.signals g = none ∧
      emitLoop s g = ({ s with emitting := s.emitting.tail }, [.access (.inl g) false])) ∨
    (∃ b, s.signals g = some b ∧ b.currentIterator = none ∧
      emitLoop s g = ({ s with emitting := s.emitting.tail }, [.ends g])) ∨
    ∃ b pre x post, s.signals g = some b ∧ b.At pre (x :: post) ∧
      emitLoop s g = (s.modify g fun b => { b with currentIterator := post.head?.map (·.1) },
        [.call g x.1 x.2 (s.alive (.inr x.2.pdest))]) := by
  cases hg : s.signals g with
  | none => exact .inl ⟨rfl, by simp [emitLoop, hg]⟩
  | some b =>
    obtain ⟨-, pre, post, hat⟩ := hp g
    have hbase : s.base g = b := by simp [State.base, hg]
    rw [hbase] at hat
    cases post with
    | nil => exact .inr (.inl ⟨b, rfl, hat.iterator, by simp [emitLoop, hg, hat.iterator]⟩)
    | cons x post => exact .inr (.inr ⟨b, pre, x, post, rfl, hat, emitLoop_of_at hp hg hat⟩)

/-- `m_current_iterator = m_connected_slots.begin()`. -/
def State.begin (s : State ς ρ μ) (g : ς) : State ς ρ μ :=
  { s.modify g fun b => { b with currentIterator := b.connectedSlots.head?.map (·.1) } with
    emitting := g :: s.emitting }

theorem next_emit {g : ς} (h : next s (.emit g) = some (s', out)) :
    s.alive (.inl g) = true ∧ emitLoop (s.begin g) g = (s', out) := by
  simp only [next] at h
  cases hg : s.signals g with
  | none => simp [hg] at h
  | some b =>
    refine ⟨by simp [alive, hg], ?_⟩
    simp only [hg, Option.some.injEq] at h
    rw [← h, State.begin]
    congr 1
    simp [State.modify, hg]

theorem next_ret (h : next s .ret = some (s', out)) :
    ∃ g gs, s.emitting = g :: gs ∧ emitLoop s g = (s', out) := by
  simp only [next] at h
  cases hs : s.emitting with
  | nil => simp [hs] at h
  | cons g gs => exact ⟨g, gs, rfl, by simpa [hs] using h⟩

omit [DecidableEq ρ] in
/-- The iterator may be put wherever there is a node. -/
theorem State.Placed.modify (hp : s.Placed) {g : ς}
    (pre post : List (ℕ × OpaqueConnection ρ μ)) (hb : (s.base g).connectedSlots = pre ++ post) :
    (s.modify g fun b => { b with currentIterator := post.head?.map (·.1) }).Placed := by
  intro g'
  rcases s.base_modify g g' fun b => { b with currentIterator := post.head?.map (·.1) } with
    heq | ⟨rfl, -, heq⟩
  · rw [heq]
    exact hp g'
  · rw [heq]
    exact ⟨⟨(hp g').1.nodup, (hp g').1.lt⟩, pre, post, hb, rfl⟩

omit [DecidableEq ρ] in
theorem placed_begin (hp : s.Placed) {g : ς} : (s.begin g).Placed := by
  intro g'
  rcases s.base_modify g g' fun b =>
    { b with currentIterator := b.connectedSlots.head?.map (·.1) } with heq | ⟨rfl, -, heq⟩
  · exact heq ▸ hp g'
  · exact heq ▸ ⟨⟨(hp g').1.nodup, (hp g').1.lt⟩, [], _, rfl, rfl⟩

omit [DecidableEq ρ] in
theorem placed_emitLoop (hp : s.Placed) (g : ς) : (emitLoop s g).1.Placed := by
  rcases emitLoop_cases hp g with ⟨-, heq⟩ | ⟨b, -, -, heq⟩ | ⟨b, pre, x, post, hb, hat, heq⟩
  · rw [heq]
    exact hp
  · rw [heq]
    exact hp
  · rw [heq]
    refine hp.modify (pre ++ [x]) post ?_
    rw [show s.base g = b by simp [State.base, hb], hat.slots, List.append_assoc]
    rfl

theorem emitting_next (hp : s.Placed) (h : next s a = some (s', out)) (ha : a.emits = false) :
    s'.Placed ∧ s'.emitting = s.emitting := by
  rcases (next_base hp h ha).1 with hg | hs
  · exact ⟨hg.placed hp, hg.emitting⟩
  · exact ⟨hs.placed hp, hs.emitting⟩

/-- **The iterators stay where they should be.** -/
theorem State.Placed.next (hp : s.Placed) (h : next s a = some (s', out)) : s'.Placed := by
  cases ha : a.emits with
  | false => exact (emitting_next hp h ha).1
  | true =>
    cases a with
    | emit g =>
      have hplaced := placed_emitLoop (placed_begin hp (g := g)) g
      rwa [(next_emit h).2] at hplaced
    | ret =>
      obtain ⟨g, gs, -, heq⟩ := next_ret h
      have hplaced := placed_emitLoop hp g
      rwa [heq] at hplaced
    | _ => cases ha

omit [DecidableEq ς] [DecidableEq ρ] in
theorem placed_start (hs : ∀ g, s.signals g = none) : s.Placed := by
  have hbase : ∀ g, s.base g = ⟨[], none⟩ := fun g => by simp [State.base, hs]
  intro g
  rw [hbase]
  exact ⟨⟨List.nodup_nil, by simp⟩, [], [], rfl, rfl⟩

theorem next_of_step (h : step s a = some (s', out)) : ∃ out₁, next s a = some (s', out₁) ∧
    out = (reached s a).map (fun o => .access o (s.alive o)) ++ out₁ := by
  obtain ⟨⟨s₁, out₁⟩, hn, heq⟩ := Option.map_eq_some_iff.mp h
  obtain ⟨rfl, rfl⟩ := Prod.mk.inj heq
  exact ⟨out₁, hn, rfl⟩

end Sigslot

end TQLib
