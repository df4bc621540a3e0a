import TQLib.Foundations.WeakOrder
import Mathlib.Data.Finset.Card
import Mathlib.Data.Finset.Filter

/-!
# Finite maps

What an ordered map is for: a finite number of elements of which no two have equivalent keys. An
element is found by its key, or by how many there are in front of it, which is what an iterator
comes to. There is no order in which the elements are kept; the lists that ascend are one way to
keep them.

## Main results

* `FiniteMap.find_ofList`, `FiniteMap.nth_ofList` — what is found in a list that ascends
* `FiniteMap.filter_ofList`, `FiniteMap.put_ofList_insertIdx`, `FiniteMap.put_ofList_set` — how a
  list is changed
-/

namespace TQLib

variable {α κ : Type*}

/-- A finite map. -/
structure FiniteMap (C : WeakOrder κ) (key : α → κ) where
  /-- The elements. -/
  elements : Finset α
  /-- A key has one element at most. -/
  unique : ∀ v ∈ elements, ∀ w ∈ elements, C.Equiv (key v) (key w) → v = w

namespace FiniteMap

variable {C : WeakOrder κ} {key : α → κ}

@[ext] theorem ext {m m' : FiniteMap C key} (h : ∀ v, v ∈ m.elements ↔ v ∈ m'.elements) :
    m = m' := by
  cases m
  cases m'
  congr
  exact Finset.ext h

/-- No elements. -/
def empty : FiniteMap C key := ⟨∅, fun _ hv => absurd hv (Finset.notMem_empty _)⟩

/-- Some of the elements. -/
def filter (m : FiniteMap C key) (P : α → Prop) [DecidablePred P] : FiniteMap C key :=
  ⟨m.elements.filter P, fun v hv w hw =>
    m.unique v (Finset.mem_filter.mp hv).1 w (Finset.mem_filter.mp hw).1⟩

/-- An element, in the place of the one that its key may have. -/
def put (m : FiniteMap C key) (v : α) : FiniteMap C key where
  elements := (m.elements.filter fun w => ¬ C.Equiv (key w) (key v)).cons v fun hv =>
    (Finset.mem_filter.mp hv).2 (.refl C _)
  unique x hx y hy heq := by
    rcases Finset.mem_cons.mp hx with rfl | hx <;> rcases Finset.mem_cons.mp hy with rfl | hy
    · rfl
    · exact absurd heq.symm (Finset.mem_filter.mp hy).2
    · exact absurd heq (Finset.mem_filter.mp hx).2
    · exact m.unique x (Finset.mem_filter.mp hx).1 y (Finset.mem_filter.mp hy).1 heq

open Classical in
/-- The element of a key. -/
noncomputable def find (m : FiniteMap C key) (k : κ) : Option α :=
  if h : ∃ v ∈ m.elements, C.Equiv (key v) k then some h.choose else none

/-- How many elements have a lesser key. -/
def rank (m : FiniteMap C key) (k : κ) : ℕ := (m.elements.filter fun w => C.lt (key w) k).card

open Classical in
/-- The element with some number of elements in front of it; where there is none, the end. -/
noncomputable def nth (m : FiniteMap C key) (p : ℕ) : Option α :=
  if h : ∃ v ∈ m.elements, m.rank (key v) = p then some h.choose else none

variable {m : FiniteMap C key} {v w : α} {k : κ} {p : ℕ} {l l' : List α}

theorem mem_put : w ∈ (m.put v).elements ↔
    w = v ∨ w ∈ m.elements ∧ ¬ C.Equiv (key w) (key v) := by
  rw [put, Finset.mem_cons, Finset.mem_filter]

theorem find_eq_some (hv : v ∈ m.elements) (h : C.Equiv (key v) k) : m.find k = some v := by
  have hex : ∃ v ∈ m.elements, C.Equiv (key v) k := ⟨v, hv, h⟩
  rw [find, dif_pos hex]
  exact congrArg some (m.unique _ hex.choose_spec.1 _ hv (hex.choose_spec.2.trans h.symm))

theorem find_eq_none (h : ∀ v ∈ m.elements, ¬ C.Equiv (key v) k) : m.find k = none :=
  dif_neg fun ⟨v, hv, heq⟩ => h v hv heq

/-! ## Lists that ascend -/

/-- The elements of a list that ascends. -/
def ofList (l : List α) (h : Ascending C key l) : FiniteMap C key :=
  ⟨⟨l, h.nodup⟩, fun _ hv _ hw => h.eq_of_equiv hv hw⟩

theorem mem_ofList (h : Ascending C key l) : v ∈ (ofList l h).elements ↔ v ∈ l := Iff.rfl

theorem card_filter_ofList (h : Ascending C key l) (p : α → Bool) :
    ((ofList l h).elements.filter fun w => p w = true).card = (l.filter p).length := by
  change (Multiset.filter (fun w => p w = true) (l : Multiset α)).card = _
  rw [Multiset.filter_coe, Multiset.coe_card]
  simp only [Bool.decide_eq_true]

/-- How many elements of a list have not a predicate that cuts it in two. -/
theorem card_filter_not_ofList (h : Ascending C key l) {p : α → Bool} (hp : Partitioned p l) :
    ((ofList l h).elements.filter fun w => p w = false).card = l.findIdx p := by
  have hcard := card_filter_ofList h fun w => !p w
  simp only [Bool.not_eq_true'] at hcard
  rw [hcard, hp.filter_not_eq_take, List.length_take]
  exact min_eq_left List.findIdx_le_length

/-- The rank of a key is its lower bound. -/
theorem rank_ofList (h : Ascending C key l) (k : κ) :
    (ofList l h).rank k = l.findIdx fun v => !C.lt (key v) k := by
  rw [rank, ← card_filter_not_ofList h (h.partitioned_not_lt k)]
  simp only [Bool.not_eq_false']

theorem rank_getElem (h : Ascending C key l) (hp : p < l.length) :
    (ofList l h).rank (key l[p]) = p := by
  rw [rank_ofList]
  refine (h.partitioned_not_lt _).eq_findIdx hp.le (fun i hi hip => ?_) fun i hi hpi => ?_
  · rw [h.lt_getElem hip hp]
    rfl
  · rcases hpi.eq_or_lt with rfl | hlt
    · rw [C.irrefl]
      rfl
    · rw [C.asymm _ _ (h.lt_getElem hlt hi)]
      rfl

/-- **The elements by their number** are those of the list. -/
theorem nth_ofList (h : Ascending C key l) (p : ℕ) : (ofList l h).nth p = l[p]? := by
  by_cases hp : p < l.length
  · have hex : ∃ v ∈ (ofList l h).elements, (ofList l h).rank (key v) = p :=
      ⟨l[p], List.getElem_mem hp, rank_getElem h hp⟩
    rw [nth, dif_pos hex, List.getElem?_eq_getElem hp]
    obtain ⟨hmem, hrank⟩ := hex.choose_spec
    obtain ⟨i, hi, heq⟩ := List.mem_iff_getElem.mp hmem
    rw [← heq, rank_getElem h hi] at hrank
    subst hrank
    exact congrArg some heq.symm
  · rw [List.getElem?_eq_none (not_lt.mp hp)]
    refine dif_neg fun ⟨v, hv, hrank⟩ => hp ?_
    obtain ⟨i, hi, rfl⟩ := List.mem_iff_getElem.mp hv
    rw [rank_getElem h hi] at hrank
    rwa [← hrank]

theorem find_ofList (h : Ascending C key l) (hp : l[p]? = some v) (heq : C.Equiv (key v) k) :
    (ofList l h).find k = some v :=
  find_eq_some (List.mem_of_getElem? hp) heq

/-- **Some of the elements** of a list. -/
theorem filter_ofList (h : Ascending C key l) (hl : l'.Sublist l) (P : α → Prop) [DecidablePred P]
    (hmem : ∀ v ∈ l, v ∈ l' ↔ P v) : (ofList l h).filter P = ofList l' (h.sublist hl) := by
  ext v
  change v ∈ (ofList l h).elements.filter P ↔ v ∈ l'
  rw [Finset.mem_filter, mem_ofList]
  exact ⟨fun hv => (hmem v hv.1).mpr hv.2, fun hv => ⟨hl.subset hv, (hmem v (hl.subset hv)).mp hv⟩⟩

/-- A list without a range of it. -/
theorem take_append_drop_sublist (l : List α) {p q : ℕ} (h : p ≤ q) :
    (l.take p ++ l.drop q).Sublist l := by
  conv_rhs => rw [← List.take_append_drop p l]
  exact (List.drop_sublist_drop_left l h).append_left _

/-- The elements in front of a place have a lesser rank. -/
theorem mem_take_iff_rank (h : Ascending C key l) (hv : v ∈ l) :
    v ∈ l.take p ↔ (ofList l h).rank (key v) < p := by
  constructor
  · intro hv
    obtain ⟨i, hi, rfl⟩ := List.mem_take_iff_getElem.mp hv
    rw [rank_getElem]
    omega
  · intro hrank
    obtain ⟨i, hi, rfl⟩ := List.mem_iff_getElem.mp hv
    rw [rank_getElem] at hrank
    exact List.mem_take_iff_getElem.mpr ⟨i, by omega, rfl⟩

theorem mem_drop_iff_rank (h : Ascending C key l) (hv : v ∈ l) :
    v ∈ l.drop p ↔ p ≤ (ofList l h).rank (key v) := by
  constructor
  · intro hv
    obtain ⟨i, hi, rfl⟩ := List.mem_drop_iff_getElem.mp hv
    rw [rank_getElem]
    omega
  · intro hrank
    obtain ⟨i, hi, rfl⟩ := List.mem_iff_getElem.mp hv
    rw [rank_getElem] at hrank
    refine List.mem_drop_iff_getElem.mpr ⟨i - p, by omega, ?_⟩
    simp only [Nat.add_sub_cancel' hrank]

/-- **An element** with a key that none has. -/
theorem put_ofList_insertIdx (h : Ascending C key l) (hp : p ≤ l.length)
    (hnew : ∀ w ∈ l, ¬ C.Equiv (key w) (key v)) (h' : Ascending C key (l.insertIdx p v)) :
    (ofList l h).put v = ofList (l.insertIdx p v) h' := by
  ext w
  rw [mem_put, mem_ofList, mem_ofList, List.mem_insertIdx hp]
  exact or_congr_right ⟨And.left, fun hw => ⟨hw, hnew w hw⟩⟩

/-- **An element** in the place of the one its key has. -/
theorem put_ofList_set (h : Ascending C key l) (hp : l[p]? = some w)
    (heq : C.Equiv (key w) (key v)) (h' : Ascending C key (l.set p v)) :
    (ofList l h).put v = ofList (l.set p v) h' := by
  ext x
  have hlt := (List.getElem?_eq_some_iff.mp hp).1
  rw [mem_put, mem_ofList, mem_ofList, List.set_eq_take_append_cons_drop, if_pos hlt,
    List.mem_append, List.mem_cons, ← h.mem_take_or_drop_iff hp heq]
  exact or_left_comm

end FiniteMap

end TQLib
