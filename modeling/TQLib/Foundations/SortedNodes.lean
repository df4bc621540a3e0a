import TQLib.Foundations.PartitionPoint
import Mathlib.Data.Multiset.AddSub
import Mathlib.Data.List.InsertIdx

/-!
# Multisets with iterators

`std::multiset`: the values are in nodes that are kept in order, and an iterator is a node, or the
end. An iterator to a node stays one when other nodes come and go, while the place at which the node
is moves. `SortedNodes.At` says at which place an iterator is; the lemmas say how the place moves.

An iterator is the name of a node here. Names are never used again, so an iterator to a node that is
gone is not taken for one to another node.

## Main results

* `SortedNodes.At.insert`, `SortedNodes.At.erase` — how a place moves
* `SortedNodes.upperBound_le_iff`, `SortedNodes.lowerBound_le_iff` — which places are in front
* `SortedNodes.At.advance` — `std::advance`
-/

namespace TQLib

/-- A multiset, as its nodes. -/
structure SortedNodes (T : Type*) [LinearOrder T] where
  /-- The nodes in order, with their names. -/
  nodes : List (ℕ × T)
  /-- The name of the next node. -/
  fresh : ℕ
  /-- The values are in order. -/
  sorted : nodes.Pairwise fun a b => a.2 ≤ b.2
  /-- No two nodes have one name. -/
  nodup : (nodes.map Prod.fst).Nodup
  /-- No node has the next name. -/
  lt_fresh : ∀ a ∈ nodes, a.1 < fresh

/-- An iterator: a node, or the end. -/
abbrev SortedNodes.Iterator : Type := Option ℕ

namespace SortedNodes

variable {T : Type*} [LinearOrder T]

/-- No values. -/
def empty : SortedNodes T where
  nodes := []
  fresh := 0
  sorted := .nil
  nodup := .nil
  lt_fresh _ h := by cases h

/-- The values in order. -/
def values (s : SortedNodes T) : List T := s.nodes.map Prod.snd

/-- How many there are. -/
def size (s : SortedNodes T) : ℕ := s.nodes.length

/-- The iterator to the first node, or the end. -/
def begin (s : SortedNodes T) : Iterator := s.nodes.head?.map Prod.fst

/-- The place at which an iterator is. -/
def index (s : SortedNodes T) : Iterator → ℕ
  | none => s.nodes.length
  | some i => s.nodes.findIdx fun a => a.1 = i

/-- The value an iterator refers to. -/
def deref (s : SortedNodes T) (it : Iterator) : Option T :=
  it.bind fun i => (s.nodes.find? fun a => a.1 = i).map Prod.snd

/-- The place in front of the values that are greater. -/
def upperBound (s : SortedNodes T) (v : T) : ℕ := s.nodes.findIdx fun a => v < a.2

/-- The iterator to the first value that is not less. -/
def lowerBound (s : SortedNodes T) (v : T) : Iterator :=
  (s.nodes.find? fun a => v ≤ a.2).map Prod.fst

variable (s : SortedNodes T)

theorem partitioned_lt (v : T) : Partitioned (fun a : ℕ × T => decide (v < a.2)) s.nodes := by
  refine s.sorted.imp fun hab hlt => ?_
  exact decide_eq_true ((of_decide_eq_true hlt).trans_le hab)

theorem partitioned_le (v : T) : Partitioned (fun a : ℕ × T => decide (v ≤ a.2)) s.nodes := by
  refine s.sorted.imp fun hab hle => ?_
  exact decide_eq_true ((of_decide_eq_true hle).trans hab)

theorem upperBound_le (v : T) : s.upperBound v ≤ s.nodes.length := List.findIdx_le_length

theorem insert_perm (v : T) :
    (s.nodes.insertIdx (s.upperBound v) (s.fresh, v)).Perm ((s.fresh, v) :: s.nodes) :=
  List.perm_insertIdx _ _ (s.upperBound_le v)

/-- `insert`, which puts a value behind those that are equal. -/
def insert (v : T) : SortedNodes T where
  nodes := s.nodes.insertIdx (s.upperBound v) (s.fresh, v)
  fresh := s.fresh + 1
  sorted := by
    refine pairwise_insertIdx s.sorted (s.upperBound_le v) (fun b hb => ?_) fun b hb => ?_
    · have hnot := List.false_of_mem_take_findIdx (p := fun a : ℕ × T => decide (v < a.2)) hb
      exact not_lt.mp (of_decide_eq_false hnot)
    · exact (of_decide_eq_true ((s.partitioned_lt v).of_mem_drop hb)).le
  nodup := by
    have hnot : s.fresh ∉ s.nodes.map Prod.fst := by
      intro hmem
      obtain ⟨a, ha, heq⟩ := List.mem_map.mp hmem
      exact (s.lt_fresh a ha).ne heq
    exact ((s.insert_perm v).map Prod.fst).nodup_iff.mpr (List.nodup_cons.mpr ⟨hnot, s.nodup⟩)
  lt_fresh a ha := by
    rcases List.mem_cons.mp ((s.insert_perm v).mem_iff.mp ha) with rfl | ha
    · exact Nat.lt_succ_self _
    · exact (s.lt_fresh a ha).trans (Nat.lt_succ_self _)

/-- The multiset without the node at a place. -/
def eraseAt (p : ℕ) : SortedNodes T where
  nodes := s.nodes.eraseIdx p
  fresh := s.fresh
  sorted := s.sorted.sublist (List.eraseIdx_sublist _ _)
  nodup := s.nodup.sublist ((List.eraseIdx_sublist _ _).map _)
  lt_fresh a ha := s.lt_fresh a (List.mem_of_mem_eraseIdx ha)

/-- The iterator to a place. -/
def iteratorAt (p : ℕ) : Iterator := s.nodes[p]?.map Prod.fst

/-- `erase` of what an iterator refers to, which returns the iterator to the next. -/
def erase (it : Iterator) : Option (SortedNodes T × Iterator) :=
  if s.index it < s.nodes.length then
    some (s.eraseAt (s.index it), (s.eraseAt (s.index it)).iteratorAt (s.index it))
  else none

/-- The multiset without its nodes. -/
def clear : SortedNodes T := { empty with fresh := s.fresh, lt_fresh := fun _ h => by cases h }

/-- `++it`, where there is a node after it. -/
def next (it : Iterator) : Option Iterator :=
  if s.index it + 1 < s.nodes.length then some (s.iteratorAt (s.index it + 1)) else none

/-- `--it`, where there is a node before it. -/
def prev (it : Iterator) : Option Iterator :=
  if 0 < s.index it then some (s.iteratorAt (s.index it - 1)) else none

/-- `++it`, some times. -/
def forward : ℕ → Iterator → Option Iterator
  | 0, it => some it
  | n + 1, it => (s.next it).bind (forward n)

/-- `--it`, some times. -/
def backward : ℕ → Iterator → Option Iterator
  | 0, it => some it
  | n + 1, it => (s.prev it).bind (backward n)

/-- `std::advance`: `none` when an iterator on the way is not one to a node. -/
def advance (it : Iterator) : ℤ → Option Iterator
  | .ofNat n => s.forward n it
  | .negSucc n => s.backward (n + 1) it

/-! ## Places -/

/-- The iterator is at the place `p`. -/
def At (it : Iterator) (p : ℕ) : Prop := it = s.iteratorAt p ∧ p ≤ s.nodes.length

variable {s} {it : Iterator} {p q : ℕ} {v : T}

theorem At.iteratorAt (hp : p ≤ s.nodes.length) : s.At (s.iteratorAt p) p := ⟨rfl, hp⟩

@[simp] theorem index_iteratorAt (hp : p ≤ s.nodes.length) : s.index (s.iteratorAt p) = p := by
  rcases hp.eq_or_lt with rfl | hlt
  · rw [SortedNodes.iteratorAt, List.getElem?_eq_none le_rfl]
    rfl
  · rw [SortedNodes.iteratorAt, List.getElem?_eq_getElem hlt, Option.map_some, index,
      List.findIdx_eq hlt]
    refine ⟨decide_eq_true rfl, fun j hj => decide_eq_false fun heq => ?_⟩
    have hlen : p < (s.nodes.map Prod.fst).length := by rwa [List.length_map]
    have hlen' : j < (s.nodes.map Prod.fst).length := hj.trans hlen
    have hinj : (s.nodes.map Prod.fst)[j] = (s.nodes.map Prod.fst)[p] ↔ j = p :=
      s.nodup.getElem_inj_iff
    rw [List.getElem_map, List.getElem_map] at hinj
    exact hj.ne (hinj.mp heq)

theorem At.index_eq (h : s.At it p) : s.index it = p := by
  rw [h.1, index_iteratorAt h.2]

theorem At.deref_eq (h : s.At it p) : s.deref it = s.values[p]? := by
  rw [← h.index_eq, values, List.getElem?_map]
  cases it with
  | none => rw [index, List.getElem?_eq_none le_rfl, deref, Option.bind_none, Option.map_none]
  | some i => rw [deref, Option.bind_some, List.find?_eq_getElem?_findIdx, index]

theorem At.eq_iff {it' : Iterator} (h : s.At it p) (h' : s.At it' q) : it = it' ↔ p = q := by
  constructor
  · rintro rfl
    exact h.index_eq.symm.trans h'.index_eq
  · rintro rfl
    exact h.1.trans h'.1.symm

/-- The first value that is not less is where the others of its kind begin. -/
theorem at_lowerBound (s : SortedNodes T) (v : T) :
    s.At (s.lowerBound v) (s.nodes.findIdx fun a => v ≤ a.2) := by
  refine ⟨?_, List.findIdx_le_length⟩
  rw [lowerBound, List.find?_eq_getElem?_findIdx, iteratorAt]

theorem at_begin (s : SortedNodes T) : s.At s.begin 0 := by
  refine ⟨?_, Nat.zero_le _⟩
  rw [begin, iteratorAt, List.head?_eq_getElem?]

/-- A place moves when a node comes in front of it. -/
theorem At.insert (h : s.At it p) (v : T) :
    (s.insert v).At it (if s.upperBound v ≤ p then p + 1 else p) := by
  have hle := s.upperBound_le v
  have hlen : (s.insert v).nodes.length = s.nodes.length + 1 :=
    List.length_insertIdx_of_le_length hle _
  constructor
  · rw [h.1, SortedNodes.iteratorAt, SortedNodes.iteratorAt, SortedNodes.insert]
    split
    · rename_i hub
      rw [List.getElem?_insertIdx_of_gt (by omega), Nat.add_sub_cancel]
    · rename_i hub
      rw [List.getElem?_insertIdx_of_lt (by omega)]
  · have hp := h.2
    rw [hlen]
    split <;> omega

/-- A place moves when a node goes in front of it. -/
theorem At.eraseAt (h : s.At it p) (hq : q < s.nodes.length) (hne : p ≠ q) :
    (s.eraseAt q).At it (if q < p then p - 1 else p) := by
  have hlen : (s.eraseAt q).nodes.length = s.nodes.length - 1 := List.length_eraseIdx_of_lt hq
  have hp := h.2
  constructor
  · rw [h.1, SortedNodes.iteratorAt, SortedNodes.iteratorAt, SortedNodes.eraseAt]
    split
    · rename_i hlt
      rw [List.getElem?_eraseIdx_of_ge (by omega), Nat.sub_add_cancel (by omega)]
    · rename_i hge
      rw [List.getElem?_eraseIdx_of_lt (by omega)]
  · rw [hlen]
    split <;> omega

/-- What is erased, and what comes after it. -/
theorem At.erase (h : s.At it p) (hp : p < s.nodes.length) :
    ∃ next, s.erase it = some (s.eraseAt p, next) ∧ (s.eraseAt p).At next p := by
  have hlen : (s.eraseAt p).nodes.length = s.nodes.length - 1 := List.length_eraseIdx_of_lt hp
  refine ⟨(s.eraseAt p).iteratorAt p, ?_, rfl, by omega⟩
  rw [SortedNodes.erase, h.index_eq, if_pos hp]

theorem At.next (h : s.At it p) (hp : p + 1 < s.nodes.length) :
    ∃ it', s.next it = some it' ∧ s.At it' (p + 1) := by
  refine ⟨s.iteratorAt (p + 1), ?_, rfl, hp.le⟩
  rw [SortedNodes.next, h.index_eq, if_pos hp]

theorem At.prev (h : s.At it (p + 1)) : ∃ it', s.prev it = some it' ∧ s.At it' p := by
  refine ⟨s.iteratorAt p, ?_, rfl, (Nat.le_succ p).trans h.2⟩
  rw [SortedNodes.prev, h.index_eq, if_pos (Nat.succ_pos p), Nat.add_sub_cancel]

theorem At.forward {n : ℕ} (h : s.At it p) (hp : n = 0 ∨ p + n < s.nodes.length) :
    ∃ it', s.forward n it = some it' ∧ s.At it' (p + n) := by
  induction n generalizing it p with
  | zero => exact ⟨it, rfl, h⟩
  | succ n ih =>
    obtain ⟨it', hit, h'⟩ := h.next (by omega)
    obtain ⟨it'', hit', h''⟩ := ih h' (by omega)
    refine ⟨it'', by rw [SortedNodes.forward, hit, Option.bind_some, hit'], ?_⟩
    rwa [Nat.add_assoc, Nat.add_comm 1] at h''

theorem At.backward {n : ℕ} (h : s.At it (p + n)) :
    ∃ it', s.backward n it = some it' ∧ s.At it' p := by
  induction n generalizing it with
  | zero => exact ⟨it, rfl, h⟩
  | succ n ih =>
    obtain ⟨it', hit, h'⟩ := At.prev (p := p + n) h
    obtain ⟨it'', hit', h''⟩ := ih h'
    exact ⟨it'', by rw [SortedNodes.backward, hit, Option.bind_some, hit'], h''⟩

/-- **`std::advance`** to the place of a node. -/
theorem At.advance {d : ℤ} (h : s.At it p) (hq : q < s.nodes.length) (hd : p + d = q) :
    ∃ it', s.advance it d = some it' ∧ s.At it' q := by
  cases d with
  | ofNat n =>
    rw [Int.ofNat_eq_natCast] at hd
    obtain rfl : q = p + n := by omega
    exact h.forward (.inr hq)
  | negSucc n =>
    obtain rfl : p = q + (n + 1) := by omega
    exact h.backward

/-- The value at an iterator stays when a node comes. -/
theorem At.deref_insert (h : s.At it p) (v : T) :
    (s.insert v).deref it = s.deref it := by
  rw [(h.insert v).deref_eq, h.deref_eq, values, values, List.getElem?_map, List.getElem?_map,
    SortedNodes.insert]
  split
  · rw [List.getElem?_insertIdx_of_gt (by omega), Nat.add_sub_cancel]
  · rw [List.getElem?_insertIdx_of_lt (by omega)]

/-- The value at an iterator stays when another node goes. -/
theorem At.deref_eraseAt (h : s.At it p) (hq : q < s.nodes.length) (hne : p ≠ q) :
    (s.eraseAt q).deref it = s.deref it := by
  rw [(h.eraseAt hq hne).deref_eq, h.deref_eq, values, values, List.getElem?_map,
    List.getElem?_map, SortedNodes.eraseAt]
  split
  · rw [List.getElem?_eraseIdx_of_ge (by omega), Nat.sub_add_cancel (by omega)]
  · rw [List.getElem?_eraseIdx_of_lt (by omega)]

theorem At.exists_deref (h : s.At it p) (hp : p < s.nodes.length) :
    ∃ x, s.deref it = some x ∧ s.values[p]? = some x := by
  have hlen : p < s.values.length := by rwa [values, List.length_map]
  exact ⟨s.values[p], by rw [h.deref_eq, List.getElem?_eq_getElem hlen],
    List.getElem?_eq_getElem hlen⟩

/-- A value is put in front of an iterator if it is less than the value there. -/
theorem upperBound_le_iff {x : T} (hx : s.values[p]? = some x) (v : T) :
    s.upperBound v ≤ p ↔ v < x := by
  rw [values, List.getElem?_map] at hx
  obtain ⟨a, ha, rfl⟩ := Option.map_eq_some_iff.mp hx
  obtain ⟨hp, rfl⟩ := List.getElem?_eq_some_iff.mp ha
  rw [upperBound, (s.partitioned_lt v).findIdx_le_iff hp, decide_eq_true_iff]

/-- The values not less than `v` begin in front of an iterator if the value there is one. -/
theorem lowerBound_le_iff {x : T} (hx : s.values[p]? = some x) (v : T) :
    (s.nodes.findIdx fun a => v ≤ a.2) ≤ p ↔ v ≤ x := by
  rw [values, List.getElem?_map] at hx
  obtain ⟨a, ha, rfl⟩ := Option.map_eq_some_iff.mp hx
  obtain ⟨hp, rfl⟩ := List.getElem?_eq_some_iff.mp ha
  rw [(s.partitioned_le v).findIdx_le_iff hp, decide_eq_true_iff]

/-! ## Values -/

theorem pairwise_values (s : SortedNodes T) : s.values.Pairwise (· ≤ ·) :=
  List.pairwise_map.mpr s.sorted

theorem values_insert (s : SortedNodes T) (v : T) :
    ((s.insert v).values : Multiset T) = v ::ₘ s.values :=
  Multiset.coe_eq_coe.mpr ((s.insert_perm v).map Prod.snd)

theorem values_eraseAt (hp : s.values[p]? = some v) :
    (s.values : Multiset T) = v ::ₘ (s.eraseAt p).values := by
  have hmap : (s.eraseAt p).values = s.values.eraseIdx p := (List.eraseIdx_map ..).symm
  obtain ⟨hlt, rfl⟩ := List.getElem?_eq_some_iff.mp hp
  rw [hmap]
  exact Multiset.coe_eq_coe.mpr (List.getElem_cons_eraseIdx_perm hlt).symm

end SortedNodes

end TQLib
