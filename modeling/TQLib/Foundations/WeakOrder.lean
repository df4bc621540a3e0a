import TQLib.Foundations.PartitionPoint
import Mathlib.Data.List.Sort

/-!
# Strict weak orders

What a comparison has to be for the ordered containers and the sorting algorithms: a strict weak
order, here one that can be evaluated. Elements of which neither is less are equivalent. Values that
have a key are compared by it, and lists of values that ascend have no two with equivalent keys, so
they are known by what is in them.

## Main results

* `WeakOrder.Equiv.trans` — equivalence
* `Ascending.eq_of_mem_iff` — lists that ascend are known by their values
* `Ascending.insertIdx`, `Ascending.set` — how they change
-/

namespace TQLib

variable {α : Type*}

/-- A strict weak order, as a comparison that can be evaluated. -/
structure WeakOrder (α : Type*) where
  /-- The comparison. -/
  lt : α → α → Bool
  /-- No element precedes one that precedes it. -/
  asymm : ∀ a b, lt a b = true → lt b a = false
  /-- Not preceding is transitive. -/
  negTrans : ∀ a b c, lt a b = false → lt b c = false → lt a c = false

theorem WeakOrder.irrefl (C : WeakOrder α) (a : α) : C.lt a a = false := by
  by_contra h
  have ht : C.lt a a = true := by simpa using h
  exact h (C.asymm a a ht)

namespace WeakOrder

variable (C : WeakOrder α) {a b c : α}

theorem trans (hab : C.lt a b = true) (hbc : C.lt b c = true) : C.lt a c = true := by
  by_contra hac
  have hcb := C.asymm b c hbc
  have hab' := C.negTrans a c b (Bool.eq_false_iff.mpr hac) hcb
  rw [hab] at hab'
  cases hab'

/-- What is less is less than what is not less than the other. -/
theorem lt_of_lt_of_not_lt (hab : C.lt a b = true) (hcb : C.lt c b = false) :
    C.lt a c = true := by
  by_contra hac
  have hab' := C.negTrans a c b (Bool.eq_false_iff.mpr hac) hcb
  rw [hab] at hab'
  cases hab'

theorem lt_of_not_lt_of_lt (hba : C.lt b a = false) (hbc : C.lt b c = true) :
    C.lt a c = true := by
  by_contra hac
  have hbc' := C.negTrans b a c hba (Bool.eq_false_iff.mpr hac)
  rw [hbc] at hbc'
  cases hbc'

/-- Neither is less. -/
def Equiv (a b : α) : Prop := C.lt a b = false ∧ C.lt b a = false

instance (a b : α) : Decidable (C.Equiv a b) := inferInstanceAs (Decidable (_ ∧ _))

theorem Equiv.refl (a : α) : C.Equiv a a := ⟨C.irrefl a, C.irrefl a⟩

variable {C}

theorem Equiv.symm (h : C.Equiv a b) : C.Equiv b a := ⟨h.2, h.1⟩

theorem Equiv.trans (h : C.Equiv a b) (h' : C.Equiv b c) : C.Equiv a c :=
  ⟨C.negTrans a b c h.1 h'.1, C.negTrans c b a h'.2 h.2⟩

/-- Equivalent elements compare alike. -/
theorem Equiv.lt_left (h : C.Equiv a b) (c : α) : C.lt a c = C.lt b c := by
  rw [Bool.eq_iff_iff]
  exact ⟨C.lt_of_not_lt_of_lt h.1, C.lt_of_not_lt_of_lt h.2⟩

theorem Equiv.lt_right (h : C.Equiv a b) (c : α) : C.lt c a = C.lt c b := by
  rw [Bool.eq_iff_iff]
  exact ⟨fun hca => C.lt_of_lt_of_not_lt hca h.2, fun hcb => C.lt_of_lt_of_not_lt hcb h.1⟩

theorem not_equiv_of_lt (h : C.lt a b = true) : ¬ C.Equiv a b := by
  rintro ⟨hab, -⟩
  rw [h] at hab
  cases hab

theorem not_equiv_of_gt (h : C.lt b a = true) : ¬ C.Equiv a b :=
  fun heq => not_equiv_of_lt h heq.symm

end WeakOrder

/-! ## Lists that ascend -/

section Ascending

variable {κ : Type*} {C : WeakOrder κ} {key : α → κ} {l l' : List α} {v w x : α}

/-- Each value has a key less than those of the values behind it. -/
def Ascending (C : WeakOrder κ) (key : α → κ) (l : List α) : Prop :=
  l.Pairwise fun v w => C.lt (key v) (key w) = true

namespace Ascending

theorem lt_getElem (h : Ascending C key l) {i j : ℕ} (hij : i < j) (hj : j < l.length) :
    C.lt (key l[i]) (key l[j]) = true :=
  List.pairwise_iff_getElem.mp h i j (hij.trans hj) hj hij

/-- Two values with equivalent keys are one. -/
theorem eq_of_equiv (h : Ascending C key l) (hv : v ∈ l) (hw : w ∈ l)
    (heq : C.Equiv (key v) (key w)) : v = w := by
  obtain ⟨i, hi, rfl⟩ := List.mem_iff_getElem.mp hv
  obtain ⟨j, hj, rfl⟩ := List.mem_iff_getElem.mp hw
  rcases Nat.lt_trichotomy i j with hij | rfl | hij
  · exact absurd heq (WeakOrder.not_equiv_of_lt (h.lt_getElem hij hj))
  · rfl
  · exact absurd heq (WeakOrder.not_equiv_of_gt (h.lt_getElem hij hi))

theorem nodup (h : Ascending C key l) : l.Nodup := by
  refine h.imp fun {v w} hlt heq => ?_
  rw [heq, C.irrefl] at hlt
  cases hlt

/-- **Lists that ascend** are known by their values. -/
theorem eq_of_mem_iff (h : Ascending C key l) (h' : Ascending C key l')
    (hmem : ∀ x, x ∈ l ↔ x ∈ l') : l = l' := by
  have hanti : Std.Antisymm fun v w => C.lt (key v) (key w) = true := by
    refine ⟨fun v w hvw hwv => ?_⟩
    rw [C.asymm _ _ hvw] at hwv
    cases hwv
  exact ((List.perm_ext_iff_of_nodup h.nodup h'.nodup).mpr hmem).eq_of_pairwise' h h'

theorem sublist (h : Ascending C key l) (hl : l'.Sublist l) : Ascending C key l' :=
  List.Pairwise.sublist hl h

theorem lt_of_mem_take (h : Ascending C key l) {p : ℕ} (hp : l[p]? = some w) (hv : v ∈ l.take p) :
    C.lt (key v) (key w) = true := by
  obtain ⟨hlt, rfl⟩ := List.getElem?_eq_some_iff.mp hp
  obtain ⟨i, hi, rfl⟩ := List.mem_take_iff_getElem.mp hv
  exact h.lt_getElem (by omega) hlt

theorem lt_of_mem_drop (h : Ascending C key l) {p : ℕ} (hp : l[p]? = some w)
    (hv : v ∈ l.drop (p + 1)) : C.lt (key w) (key v) = true := by
  obtain ⟨hlt, rfl⟩ := List.getElem?_eq_some_iff.mp hp
  obtain ⟨i, hi, rfl⟩ := List.mem_drop_iff_getElem.mp hv
  exact h.lt_getElem (by omega) _

/-- One value more, in its place. -/
theorem insertIdx (h : Ascending C key l) {p : ℕ} (hp : p ≤ l.length)
    (hbefore : ∀ w ∈ l.take p, C.lt (key w) (key v) = true)
    (hafter : ∀ w ∈ l.drop p, C.lt (key v) (key w) = true) :
    Ascending C key (l.insertIdx p v) :=
  pairwise_insertIdx h hp hbefore hafter

theorem eq_take_cons_drop {p : ℕ} (hp : l[p]? = some w) :
    l = l.take p ++ w :: l.drop (p + 1) := by
  obtain ⟨hlt, rfl⟩ := List.getElem?_eq_some_iff.mp hp
  rw [← List.drop_eq_getElem_cons hlt, List.take_append_drop]

/-- A value for another with an equivalent key. -/
theorem set (h : Ascending C key l) {p : ℕ} (hp : l[p]? = some w)
    (heq : C.Equiv (key w) (key v)) : Ascending C key (l.set p v) := by
  have hlt := (List.getElem?_eq_some_iff.mp hp).1
  rw [List.set_eq_take_append_cons_drop, if_pos hlt]
  have hl : Ascending C key (l.take p ++ w :: l.drop (p + 1)) := by
    rwa [← eq_take_cons_drop hp]
  obtain ⟨htake, hcons, hcross⟩ := List.pairwise_append.mp hl
  obtain ⟨hw, hdrop⟩ := List.pairwise_cons.mp hcons
  refine List.pairwise_append.mpr ⟨htake, List.pairwise_cons.mpr ⟨fun x hx => ?_, hdrop⟩, ?_⟩
  · rw [← heq.lt_left]
    exact hw x hx
  · intro x hx y hy
    rcases List.mem_cons.mp hy with rfl | hy
    · rw [← heq.lt_right]
      exact hcross x hx w List.mem_cons_self
    · exact hcross x hx y (List.mem_cons_of_mem _ hy)

/-- All values but the one with a key are those in front of it and behind it. -/
theorem mem_take_or_drop_iff (h : Ascending C key l) {p : ℕ} {k : κ} (hp : l[p]? = some w)
    (heq : C.Equiv (key w) k) :
    (x ∈ l.take p ∨ x ∈ l.drop (p + 1)) ↔ x ∈ l ∧ ¬ C.Equiv (key x) k := by
  constructor
  · rintro (hx | hx)
    · refine ⟨List.mem_of_mem_take hx, WeakOrder.not_equiv_of_lt ?_⟩
      rw [← heq.lt_right]
      exact h.lt_of_mem_take hp hx
    · refine ⟨List.mem_of_mem_drop hx, WeakOrder.not_equiv_of_gt ?_⟩
      rw [← heq.lt_left]
      exact h.lt_of_mem_drop hp hx
  · rintro ⟨hx, hne⟩
    rw [eq_take_cons_drop hp, List.mem_append, List.mem_cons] at hx
    rcases hx with hx | rfl | hx
    · exact .inl hx
    · exact absurd heq hne
    · exact .inr hx

/-- What is in the list is cut in two by what is less than a key. -/
theorem partitioned_not_lt (h : Ascending C key l) (k : κ) :
    Partitioned (fun v => !C.lt (key v) k) l := by
  refine h.imp fun {v w} hvw hv => ?_
  rw [Bool.not_eq_true'] at hv ⊢
  by_contra hw
  rw [C.trans hvw (Bool.of_not_eq_false hw)] at hv
  cases hv

/-- And by what is greater. -/
theorem partitioned_gt (h : Ascending C key l) (k : κ) :
    Partitioned (fun v => C.lt k (key v)) l :=
  h.imp fun {_ _} hvw hv => C.trans hv hvw

end Ascending

end Ascending

end TQLib
