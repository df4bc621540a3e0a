import TQLib.Foundations.WeakOrder
import Mathlib.Data.Multiset.AddSub
import Mathlib.Tactic.Ring

/-!
# Priority queues on binary heaps

`std::priority_queue` over `std::vector`, with the algorithms `std::push_heap` and `std::pop_heap`
are implemented by. Both carry one element and a hole: pushing moves the hole from the new last
place towards the root, and popping moves it from the root down to a leaf along the larger children
and then up again, with the element that was last. Of two children neither of which is smaller, the
right one moves. Nothing in the interface depends on that choice except the order in which equal
elements come out, which the standard leaves open.

The order is a strict weak one, given as a Boolean comparison. As in the standard, `top` is an
element that is less than no other, so a queue that yields the smallest first is given the reversed
comparison.

## Main results

* `PriorityQueue` — a vector together with the fact that it is a heap
* `push_toMultiset`, `toMultiset_of_top?` — nothing but the pushed element comes in, nothing but
  the top goes out
* `lt_of_top?` — the top is less than no element
-/

namespace TQLib

variable {α : Type*}

namespace Heap

/-- The index of the parent in a heap. -/
def parent (i : ℕ) : ℕ := (i - 1) / 2

theorem parent_lt {i : ℕ} (h : 0 < i) : parent i < i := by
  unfold parent
  omega

theorem parent_eq_iff {i j : ℕ} (h : 0 < i) : parent i = j ↔ i = 2 * j + 1 ∨ i = 2 * j + 2 := by
  unfold parent
  omega

/-! ## The algorithms -/

/-- Move the hole towards the root past every element less than `x`, and put `x` there. -/
def siftUp (lt : α → α → Bool) : ℕ → List α → ℕ → α → List α
  | 0, v, hole, x => v.set hole x
  | fuel + 1, v, hole, x =>
    if hole = 0 then v.set hole x
    else
      match v[parent hole]? with
      | some p => if lt p x then siftUp lt fuel (v.set hole p) (parent hole) x else v.set hole x
      | none => v.set hole x

/-- Move the hole down to a leaf along the larger children. -/
def siftDown (lt : α → α → Bool) : ℕ → List α → ℕ → List α × ℕ
  | 0, v, hole => (v, hole)
  | fuel + 1, v, hole =>
    match v[2 * hole + 1]?, v[2 * hole + 2]? with
    | some l, some r =>
      if lt r l then siftDown lt fuel (v.set hole l) (2 * hole + 1)
      else siftDown lt fuel (v.set hole r) (2 * hole + 2)
    | some l, none => (v.set hole l, 2 * hole + 1)
    | none, _ => (v, hole)

/-- `push_back` and `std::push_heap`. -/
def pushHeap (lt : α → α → Bool) (v : List α) (x : α) : List α :=
  siftUp lt v.length (v ++ [x]) v.length x

/-- `std::pop_heap` and `pop_back`. -/
def popHeap (lt : α → α → Bool) (v : List α) : List α :=
  match v.getLast? with
  | none => []
  | some x =>
    match v.dropLast with
    | [] => []
    | v' =>
      let (w, hole) := siftDown lt v'.length v' 0
      siftUp lt hole w hole x

/-! ## Heaps, and heaps with a hole -/

/-- Of the elements at two places, the first is not less than the second. -/
def Dominates (C : WeakOrder α) (v : List α) (i j : ℕ) : Prop :=
  ∀ a b, v[i]? = some a → v[j]? = some b → C.lt a b = false

/-- No element is greater than its parent. -/
def IsHeap (C : WeakOrder α) (v : List α) : Prop := ∀ i, 0 < i → Dominates C v (parent i) i

/-- A heap but for what stands at `hole`: every pair that avoids the hole is in order, and so is
every pair that closing the hole from below would make. -/
structure HoleAt (C : WeakOrder α) (v : List α) (hole : ℕ) : Prop where
  /-- The pairs that avoid the hole. -/
  avoids : ∀ i, 0 < i → i ≠ hole → parent i ≠ hole → Dominates C v (parent i) i
  /-- The pairs across the hole. -/
  across : ∀ i, 0 < i → parent i = hole → 0 < hole → Dominates C v (parent hole) i

theorem dominates_set {C : WeakOrder α} {v : List α} {i j k : ℕ} {x : α} (hi : i ≠ k) (hj : j ≠ k)
    (h : Dominates C v i j) : Dominates C (v.set k x) i j := by
  intro a b ha hb
  rw [List.getElem?_set_ne (Ne.symm hi)] at ha
  rw [List.getElem?_set_ne (Ne.symm hj)] at hb
  exact h a b ha hb

theorem dominates_set_left {C : WeakOrder α} {v : List α} {j k : ℕ} {x : α} (hj : j ≠ k)
    (h : ∀ b, v[j]? = some b → C.lt x b = false) : Dominates C (v.set k x) k j := by
  intro a b ha hb
  rw [List.getElem?_set_ne (Ne.symm hj)] at hb
  obtain rfl : x = a := by
    rw [List.getElem?_set_self'] at ha
    cases hk : v[k]? <;> simp_all
  exact h b hb

theorem dominates_set_right {C : WeakOrder α} {v : List α} {i k : ℕ} {x : α} (hi : i ≠ k)
    (h : ∀ a, v[i]? = some a → C.lt a x = false) : Dominates C (v.set k x) i k := by
  intro a b ha hb
  rw [List.getElem?_set_ne (Ne.symm hi)] at ha
  obtain rfl : x = b := by
    rw [List.getElem?_set_self'] at hb
    cases hk : v[k]? <;> simp_all
  exact h a ha

/-- Filling a hole with an element between its neighbours. -/
theorem HoleAt.isHeap_set {C : WeakOrder α} {v : List α} {hole : ℕ} {x : α}
    (hv : HoleAt C v hole) (hup : 0 < hole → ∀ p, v[parent hole]? = some p → C.lt p x = false)
    (hdown : ∀ i, 0 < i → parent i = hole → ∀ b, v[i]? = some b → C.lt x b = false) :
    IsHeap C (v.set hole x) := by
  intro i hi
  by_cases hih : i = hole
  · subst hih
    exact dominates_set_right (parent_lt hi).ne (hup hi)
  · by_cases hpi : parent i = hole
    · rw [hpi]
      exact dominates_set_left hih (hdown i hi hpi)
    · exact dominates_set hpi hih (hv.avoids i hi hih hpi)

/-- The hole moves up: its parent `p` comes down, and `p` is less than `x`. -/
theorem HoleAt.up {C : WeakOrder α} {v : List α} {hole : ℕ} {p x : α} (hv : HoleAt C v hole)
    (hpos : 0 < hole) (hp : v[parent hole]? = some p) (hlt : C.lt p x = true) :
    HoleAt C (v.set hole p) (parent hole) ∧
      ∀ i, 0 < i → parent i = parent hole → ∀ b, (v.set hole p)[i]? = some b →
        C.lt x b = false := by
  have hph := parent_lt hpos
  refine ⟨⟨fun i hi hne hpne => ?_, fun i hi hpi hpos' => ?_⟩, fun i hi hpi b hb => ?_⟩
  · have hih : i ≠ hole := by rintro rfl; exact hpne rfl
    by_cases hpi : parent i = hole
    · rw [hpi]
      exact dominates_set_left hih fun b hb => hv.across i hi hpi hpos p b hp hb
    · exact dominates_set hpi hih (hv.avoids i hi hih hpi)
  · have hpp := parent_lt hpos'
    have hedge := hv.avoids _ hpos' hph.ne (by omega)
    by_cases hih : i = hole
    · subst hih
      exact dominates_set_right (by omega) fun a ha => hedge a p ha hp
    · refine dominates_set (by omega) hih ?_
      intro a b ha hb
      have hib := hv.avoids i hi hih (by omega)
      rw [hpi] at hib
      exact C.negTrans a p b (hedge a p ha hp) (hib p b hp hb)
  · by_cases hih : i = hole
    · subst hih
      rw [List.getElem?_set_self'] at hb
      obtain rfl : p = b := by cases hk : v[i]? <;> simp_all
      exact C.asymm p x hlt
    · rw [List.getElem?_set_ne (Ne.symm hih)] at hb
      have hib := hv.avoids i hi hih (by omega)
      rw [hpi] at hib
      exact C.negTrans x p b (C.asymm p x hlt) (hib p b hp hb)

/-- **Sifting up** closes a hole below which everything is at most `x`. -/
theorem isHeap_siftUp {C : WeakOrder α} {x : α} : ∀ {fuel : ℕ} {v : List α} {hole : ℕ},
    hole ≤ fuel → HoleAt C v hole →
    (∀ i, 0 < i → parent i = hole → ∀ b, v[i]? = some b → C.lt x b = false) →
    IsHeap C (siftUp C.lt fuel v hole x)
  | 0, v, hole, hle, hv, hdown => hv.isHeap_set (fun hpos => by omega) hdown
  | fuel + 1, v, hole, hle, hv, hdown => by
    rw [siftUp]
    split
    · exact hv.isHeap_set (fun hpos => by omega) hdown
    · rename_i hne
      have hpos : 0 < hole := by omega
      split
      · rename_i p hp
        split
        · rename_i hlt
          obtain ⟨hv', hdown'⟩ := hv.up hpos hp hlt
          exact isHeap_siftUp (by have := parent_lt hpos; omega) hv' hdown'
        · rename_i hlt
          refine hv.isHeap_set (fun _ p' hp' => ?_) hdown
          rw [hp] at hp'
          cases hp'
          simpa using hlt
      · rename_i hp
        exact hv.isHeap_set (fun _ p' hp' => by rw [hp] at hp'; cases hp') hdown

/-- The hole moves down: the child `c` that dominates its sibling comes up. -/
theorem HoleAt.down {C : WeakOrder α} {v : List α} {hole c : ℕ} {y : α} (hv : HoleAt C v hole)
    (hc : 0 < c) (hpc : parent c = hole) (hy : v[c]? = some y)
    (hsib : ∀ i, 0 < i → parent i = hole → i ≠ c → ∀ b, v[i]? = some b → C.lt y b = false) :
    HoleAt C (v.set hole y) c := by
  have hhc := parent_lt hc
  constructor
  · intro i hi hne hpne
    by_cases hih : i = hole
    · subst hih
      have := parent_lt hi
      exact dominates_set_right (by omega) fun a ha => hv.across c hc hpc hi a y ha hy
    · by_cases hpi : parent i = hole
      · rw [hpi]
        exact dominates_set_left hih fun b hb => hsib i hi hpi hne b hb
      · exact dominates_set hpi hih (hv.avoids i hi hih hpi)
  · intro i hi hpi _
    have hci := parent_lt hi
    rw [hpc]
    refine dominates_set_left (by omega) ?_
    intro b hb
    have hib := hv.avoids i hi (by omega) (by omega)
    rw [hpi] at hib
    exact hib y b hy hb

theorem siftDown_hole_lt (lt : α → α → Bool) : ∀ (fuel : ℕ) {v : List α} {hole : ℕ},
    hole < v.length → (siftDown lt fuel v hole).2 < (siftDown lt fuel v hole).1.length
  | 0, _, _, hlt => hlt
  | fuel + 1, v, hole, hlt => by
    rw [siftDown]
    split
    · rename_i hr
      have hrlen := (List.getElem?_eq_some_iff.mp hr).1
      split <;> exact siftDown_hole_lt lt fuel (by rw [List.length_set]; omega)
    · rename_i hl hr
      rw [List.length_set]
      exact (List.getElem?_eq_some_iff.mp hl).1
    · exact hlt

/-- **Sifting down** moves the hole to a leaf. -/
theorem holeAt_siftDown {C : WeakOrder α} : ∀ (fuel : ℕ) {v : List α} {hole : ℕ},
    v.length ≤ fuel + hole → hole < v.length → HoleAt C v hole →
    HoleAt C (siftDown C.lt fuel v hole).1 (siftDown C.lt fuel v hole).2 ∧
      ∀ i, 0 < i → parent i = (siftDown C.lt fuel v hole).2 →
        (siftDown C.lt fuel v hole).1[i]? = none
  | 0, v, hole, hle, hlt, hv => by omega
  | fuel + 1, v, hole, hle, hlt, hv => by
    rw [siftDown]
    split
    · rename_i l r hl hr
      have hrlen := (List.getElem?_eq_some_iff.mp hr).1
      split
      · rename_i hcmp
        refine holeAt_siftDown fuel (by rw [List.length_set]; omega)
          (by rw [List.length_set]; omega)
          (hv.down (by omega) (by unfold parent; omega) hl fun i hi hpi hne b hb => ?_)
        obtain rfl : i = 2 * hole + 2 := by have := (parent_eq_iff hi).mp hpi; omega
        rw [hr] at hb
        cases hb
        exact C.asymm _ _ hcmp
      · rename_i hcmp
        refine holeAt_siftDown fuel (by rw [List.length_set]; omega)
          (by rw [List.length_set]; omega)
          (hv.down (by omega) (by unfold parent; omega) hr fun i hi hpi hne b hb => ?_)
        obtain rfl : i = 2 * hole + 1 := by have := (parent_eq_iff hi).mp hpi; omega
        rw [hl] at hb
        cases hb
        simpa using hcmp
    · rename_i l hl hr
      have hllen := (List.getElem?_eq_some_iff.mp hl).1
      have hrlen := List.getElem?_eq_none_iff.mp hr
      refine ⟨hv.down (by omega) (by unfold parent; omega) hl fun i hi hpi hne b hb => ?_,
        fun i hi hpi => ?_⟩
      · obtain rfl : i = 2 * hole + 2 := by have := (parent_eq_iff hi).mp hpi; omega
        rw [hr] at hb
        cases hb
      · refine List.getElem?_eq_none ?_
        rw [List.length_set]
        have := (parent_eq_iff hi).mp hpi
        omega
    · rename_i hl
      have hllen := List.getElem?_eq_none_iff.mp hl
      refine ⟨hv, fun i hi hpi => List.getElem?_eq_none ?_⟩
      have : i = 2 * hole + 1 ∨ i = 2 * hole + 2 := (parent_eq_iff hi).mp hpi
      show v.length ≤ i
      omega

/-! ## What is in the vector -/

/-- Moving the hole to another place of the vector, with the element there. -/
theorem set_set_perm {v : List α} {i j : ℕ} {y : α} (x : α) (hi : i < v.length) (hne : j ≠ i)
    (hj : v[j]? = some y) : ((v.set i y).set j x).Perm (v.set i x) := by
  obtain ⟨hjlen, hjy⟩ := List.getElem?_eq_some_iff.mp hj
  have hp : (((v.set i x).set i _).set j _).Perm (v.set i x) :=
    List.set_set_perm (i := i) (j := j) (by simpa) (by simpa)
  rwa [List.getElem_set_ne (Ne.symm hne), List.getElem_set_self, hjy, List.set_set] at hp

theorem siftUp_perm {lt : α → α → Bool} {x : α} : ∀ {fuel : ℕ} {v : List α} {hole : ℕ},
    hole < v.length → (siftUp lt fuel v hole x).Perm (v.set hole x)
  | 0, v, hole, _ => .refl _
  | fuel + 1, v, hole, hlt => by
    rw [siftUp]
    split
    · exact .refl _
    · rename_i hne
      have hph := parent_lt (Nat.pos_of_ne_zero hne)
      split
      · rename_i p hp
        split
        · exact (siftUp_perm (by rw [List.length_set]; omega)).trans (set_set_perm x hlt hph.ne hp)
        · exact .refl _
      · exact .refl _

theorem siftDown_perm (lt : α → α → Bool) (x : α) : ∀ (fuel : ℕ) {v : List α} {hole : ℕ},
    hole < v.length →
    ((siftDown lt fuel v hole).1.set (siftDown lt fuel v hole).2 x).Perm (v.set hole x)
  | 0, v, hole, _ => .refl _
  | fuel + 1, v, hole, hlt => by
    rw [siftDown]
    split
    · rename_i l r hl hr
      have hrlen := (List.getElem?_eq_some_iff.mp hr).1
      split
      · exact (siftDown_perm lt x fuel (by rw [List.length_set]; omega)).trans
          (set_set_perm x hlt (by omega) hl)
      · exact (siftDown_perm lt x fuel (by rw [List.length_set]; omega)).trans
          (set_set_perm x hlt (by omega) hr)
    · rename_i l hl hr
      exact set_set_perm x hlt (by omega) hl
    · exact .refl _

theorem pushHeap_perm (lt : α → α → Bool) (v : List α) (x : α) :
    (pushHeap lt v x).Perm (x :: v) := by
  refine (siftUp_perm (by simp)).trans ?_
  rw [List.set_append_right _ _ (le_refl _), Nat.sub_self, List.set_cons_zero]
  exact List.perm_append_singleton x v

/-- A vector with two elements or more, by its front, its middle and its last. -/
theorem popHeap_cons_append (lt : α → α → Bool) (a x : α) (v : List α) :
    popHeap lt (a :: (v ++ [x])) =
      siftUp lt (siftDown lt (v.length + 1) (a :: v) 0).2 (siftDown lt (v.length + 1) (a :: v) 0).1
        (siftDown lt (v.length + 1) (a :: v) 0).2 x := by
  rw [← List.cons_append, popHeap, List.getLast?_concat, List.dropLast_concat]
  rfl

theorem exists_append_of_ne_nil {v : List α} (h : v ≠ []) : ∃ w x, v = w ++ [x] :=
  ⟨v.dropLast, v.getLast h, (List.dropLast_append_getLast h).symm⟩

theorem popHeap_perm (lt : α → α → Bool) (a : α) (v : List α) : (popHeap lt (a :: v)).Perm v := by
  rcases eq_or_ne v [] with rfl | hne
  · exact .refl _
  obtain ⟨w, x, rfl⟩ := exists_append_of_ne_nil hne
  rw [popHeap_cons_append]
  have hpos : 0 < (a :: w).length := by simp
  have hdown := siftDown_perm lt x (w.length + 1) hpos
  have hlen := siftDown_hole_lt lt (w.length + 1) hpos
  refine ((siftUp_perm hlen).trans hdown).trans ?_
  rw [List.set_cons_zero]
  exact (List.perm_append_singleton x w).symm

/-! ## Heaps are kept -/

theorem isHeap_nil (C : WeakOrder α) : IsHeap C [] := fun _ _ _ _ _ hb => by simp at hb

/-- A heap has a hole wherever its place has no children. -/
theorem IsHeap.holeAt_append {C : WeakOrder α} {v : List α} (hv : IsHeap C v) (x : α) :
    HoleAt C (v ++ [x]) v.length := by
  have hout : ∀ i, v.length < i → (v ++ [x])[i]? = none := fun i hi =>
    List.getElem?_eq_none (by rw [List.length_append, List.length_singleton]; omega)
  constructor
  · intro i hi hne _ a b ha hb
    have hlt : i < v.length := by
      by_contra hge
      rw [hout i (by omega)] at hb
      cases hb
    have hpi := parent_lt hi
    rw [List.getElem?_append_left (by omega)] at ha
    rw [List.getElem?_append_left hlt] at hb
    exact hv i hi a b ha hb
  · intro i hi hpi hpos a b ha hb
    have hlt := parent_lt hi
    rw [hout i (by omega)] at hb
    cases hb

theorem IsHeap.pushHeap {C : WeakOrder α} {v : List α} (hv : IsHeap C v) (x : α) :
    IsHeap C (pushHeap C.lt v x) := by
  refine isHeap_siftUp (le_refl _) (hv.holeAt_append x) ?_
  intro i hi hpi b hb
  have hlt := parent_lt hi
  rw [List.getElem?_eq_none (by rw [List.length_append, List.length_singleton]; omega)] at hb
  cases hb

/-- A prefix of a heap is a heap. -/
theorem IsHeap.of_append {C : WeakOrder α} {v w : List α} (hv : IsHeap C (v ++ w)) :
    IsHeap C v := by
  intro i hi a b ha hb
  have hlen := (List.getElem?_eq_some_iff.mp hb).1
  have hpi := parent_lt hi
  refine hv i hi a b ?_ ?_
  · rw [List.getElem?_append_left (by omega), ha]
  · rw [List.getElem?_append_left hlen, hb]

theorem IsHeap.popHeap {C : WeakOrder α} {a : α} {v : List α} (hv : IsHeap C (a :: v)) :
    IsHeap C (popHeap C.lt (a :: v)) := by
  rcases eq_or_ne v [] with rfl | hne
  · exact isHeap_nil C
  obtain ⟨w, x, rfl⟩ := exists_append_of_ne_nil hne
  rw [popHeap_cons_append]
  rw [← List.cons_append] at hv
  have hw : HoleAt C (a :: w) 0 :=
    ⟨fun i hi _ _ => hv.of_append i hi, fun i hi hpi hpos => absurd hpos (by omega)⟩
  obtain ⟨hhole, hleaf⟩ := holeAt_siftDown (w.length + 1) (by simp) (by simp) hw
  exact isHeap_siftUp (le_refl _) hhole fun i hi hpi b hb => by
    rw [hleaf i hi hpi] at hb
    cases hb

/-- **The root is less than no element.** -/
theorem IsHeap.root {C : WeakOrder α} {v : List α} (hv : IsHeap C v) (i : ℕ) :
    Dominates C v 0 i := by
  induction i using Nat.strong_induction_on with
  | _ i ih =>
    rcases Nat.eq_zero_or_pos i with rfl | hi
    · intro a b ha hb
      rw [ha] at hb
      cases hb
      exact C.irrefl a
    · intro a b ha hb
      have hlen := (List.getElem?_eq_some_iff.mp hb).1
      have hpi := parent_lt hi
      have hp : v[parent i]? = some v[parent i] := List.getElem?_eq_getElem (by omega)
      exact C.negTrans a _ b (ih _ hpi a _ ha hp) (hv i hi _ b hp hb)

end Heap

/-! ## The container adaptor -/

/-- A priority queue: a vector that is a heap. -/
structure PriorityQueue {α : Type*} (C : WeakOrder α) where
  /-- The underlying vector. -/
  items : List α
  /-- It is a heap. -/
  isHeap : Heap.IsHeap C items

namespace PriorityQueue

variable {C : WeakOrder α}

/-- The queue without elements. -/
def empty : PriorityQueue C := ⟨[], Heap.isHeap_nil C⟩

/-- `push`. -/
def push (q : PriorityQueue C) (x : α) : PriorityQueue C :=
  ⟨Heap.pushHeap C.lt q.items x, q.isHeap.pushHeap x⟩

/-- `top`, if there is an element. -/
def top? (q : PriorityQueue C) : Option α := q.items.head?

theorem isHeap_pop (q : PriorityQueue C) : Heap.IsHeap C (Heap.popHeap C.lt q.items) := by
  rcases hq : q.items with _ | ⟨a, v⟩
  · exact Heap.isHeap_nil C
  · exact (hq ▸ q.isHeap).popHeap

/-- `pop`. -/
def pop (q : PriorityQueue C) : PriorityQueue C := ⟨Heap.popHeap C.lt q.items, q.isHeap_pop⟩

/-- The elements, forgetting where they stand. -/
def toMultiset (q : PriorityQueue C) : Multiset α := q.items

@[simp] theorem toMultiset_empty : (empty : PriorityQueue C).toMultiset = 0 := rfl

/-- Pushing adds one element. -/
@[simp] theorem push_toMultiset (q : PriorityQueue C) (x : α) :
    (q.push x).toMultiset = x ::ₘ q.toMultiset :=
  Multiset.coe_eq_coe.mpr (Heap.pushHeap_perm C.lt q.items x)

theorem top?_eq_none {q : PriorityQueue C} : q.top? = none ↔ q.toMultiset = 0 := by
  rw [top?, List.head?_eq_none_iff, toMultiset, Multiset.coe_eq_zero]

/-- Popping takes the top out. -/
theorem toMultiset_of_top? {q : PriorityQueue C} {x : α} (h : q.top? = some x) :
    q.toMultiset = x ::ₘ q.pop.toMultiset := by
  obtain ⟨v, hv⟩ := List.head?_eq_some_iff.mp h
  have hp := Heap.popHeap_perm C.lt x v
  show (q.items : Multiset α) = x ::ₘ (Heap.popHeap C.lt q.items : Multiset α)
  rw [hv]
  exact Multiset.coe_eq_coe.mpr (hp.symm.cons x)

/-- **The top is less than no element.** -/
theorem lt_of_top? {q : PriorityQueue C} {x : α} (h : q.top? = some x) {y : α}
    (hy : y ∈ q.toMultiset) : C.lt x y = false := by
  obtain ⟨i, hi⟩ := List.mem_iff_getElem?.mp (show y ∈ q.items from hy)
  refine q.isHeap.root i x y ?_ hi
  rw [← List.head?_eq_getElem?]
  exact h

end PriorityQueue

end TQLib
