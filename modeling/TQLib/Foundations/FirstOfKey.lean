import TQLib.Foundations.WeakOrder
import Mathlib.Data.List.Destutter

/-!
# The first value of each key

What is left of a list when it is sorted by keys, with ties kept in order, and of the values with
equivalent keys, which are then neighbours, all but the first are dropped: the list ascends, and has
of each key the value that came first.

## Main results

* `firstOf_mergeSort` — sorting keeps what comes first
* `mem_destutter_mergeSort` — what is left
* `Ascending.merge` — two lists that ascend and have no key in common
-/

namespace TQLib

variable {α κ : Type*} {C : WeakOrder κ} {key : α → κ} {l l' : List α} {v w : α} {k : κ}

/-- The comparison that sorting is by. -/
def WeakOrder.notGreater (C : WeakOrder κ) (key : α → κ) (v w : α) : Bool := !C.lt (key w) (key v)

theorem notGreater_iff : C.notGreater key v w = true ↔ C.lt (key w) (key v) = false := by
  rw [WeakOrder.notGreater, Bool.not_eq_true']

theorem notGreater_trans (u v w : α) (huv : C.notGreater key u v = true)
    (hvw : C.notGreater key v w = true) : C.notGreater key u w = true := by
  rw [notGreater_iff] at huv hvw ⊢
  exact C.negTrans _ _ _ hvw huv

theorem notGreater_total (v w : α) : (C.notGreater key v w || C.notGreater key w v) = true := by
  rw [Bool.or_eq_true, notGreater_iff, notGreater_iff]
  by_contra h
  obtain ⟨hwv, hvw⟩ := not_or.mp h
  rw [Bool.not_eq_false] at hwv hvw
  rw [C.asymm _ _ hwv] at hvw
  cases hvw

theorem notGreater_of_equiv (h : C.Equiv (key v) (key w)) : C.notGreater key v w = true :=
  notGreater_iff.mpr h.2

/-! ## What comes first -/

/-- The first value that has a key. -/
def firstOf (C : WeakOrder κ) (key : α → κ) (l : List α) (k : κ) : Option α :=
  l.find? fun v => C.Equiv (key v) k

@[simp] theorem firstOf_nil : firstOf C key [] k = none := rfl

theorem firstOf_cons_of_equiv (h : C.Equiv (key v) k) : firstOf C key (v :: l) k = some v :=
  List.find?_cons_of_pos (decide_eq_true h)

theorem firstOf_cons_of_not (h : ¬ C.Equiv (key v) k) :
    firstOf C key (v :: l) k = firstOf C key l k :=
  List.find?_cons_of_neg (by rwa [decide_eq_true_iff])

theorem mem_of_firstOf (h : firstOf C key l k = some v) : v ∈ l := List.mem_of_find?_eq_some h

theorem firstOf_singleton_iff : firstOf C key [w] (key v) = some v ↔ v = w := by
  by_cases heq : C.Equiv (key w) (key v)
  · rw [firstOf_cons_of_equiv heq, Option.some_inj]
    exact eq_comm
  · rw [firstOf_cons_of_not heq, firstOf_nil]
    refine iff_of_false nofun ?_
    rintro rfl
    exact heq (.refl C _)

theorem firstOf_congr {k' : κ} (h : C.Equiv k k') (l : List α) :
    firstOf C key l k = firstOf C key l k' := by
  have hiff : ∀ v, C.Equiv (key v) k ↔ C.Equiv (key v) k' :=
    fun v => ⟨fun hv => hv.trans h, fun hv => hv.trans h.symm⟩
  simp only [firstOf, hiff]

theorem firstOf_append (l l' : List α) (k : κ) :
    firstOf C key (l ++ l') k = (firstOf C key l k).or (firstOf C key l' k) :=
  List.find?_append

theorem equiv_of_firstOf (h : firstOf C key l k = some v) : C.Equiv (key v) k := by
  have hv := List.find?_some h
  exact of_decide_eq_true hv

/-- Some keys only. -/
theorem firstOf_filter_iff {P : α → Bool}
    (hP : ∀ v w, C.Equiv (key v) (key w) → P v = P w) :
    firstOf C key (l.filter P) (key v) = some v ↔
      P v = true ∧ firstOf C key l (key v) = some v := by
  by_cases hv : P v = true
  · rw [and_iff_right hv, firstOf, firstOf, ← List.head?_filter, ← List.head?_filter,
      List.filter_filter, List.filter_congr fun w _ => ?_]
    by_cases heq : C.Equiv (key w) (key v)
    · rw [hP w v heq, hv, Bool.and_true]
    · rw [decide_eq_false heq, Bool.false_and]
  · exact iff_of_false (fun hfirst => hv (List.mem_filter.mp (mem_of_firstOf hfirst)).2)
      fun h => hv h.1

/-- **Sorting** keeps the values of one key in order, and so what comes first. -/
theorem firstOf_mergeSort (l : List α) (k : κ) :
    firstOf C key (l.mergeSort (C.notGreater key)) k = firstOf C key l k := by
  have hties : (l.filter fun v => C.Equiv (key v) k).Pairwise
      fun v w => C.notGreater key v w = true := by
    refine List.pairwise_of_forall_mem_list fun v hv w hw => notGreater_of_equiv ?_
    have hv' := of_decide_eq_true (List.mem_filter.mp hv).2
    have hw' := of_decide_eq_true (List.mem_filter.mp hw).2
    exact hv'.trans hw'.symm
  have hsub := List.sublist_mergeSort notGreater_trans notGreater_total hties List.filter_sublist
  have hsub' := hsub.filter fun v => C.Equiv (key v) k
  rw [List.filter_filter] at hsub'
  simp only [Bool.and_self] at hsub'
  have heq := hsub'.eq_of_length
    ((List.mergeSort_perm l (C.notGreater key)).filter _).length_eq.symm
  rw [firstOf, firstOf, ← List.head?_filter, ← List.head?_filter, heq]

/-! ## Without the others -/

/-- The values of a list that is sorted, when of neighbours that are not greater each is dropped. -/
theorem mem_destutter'_iff (h : (w :: l).Pairwise fun v w => C.notGreater key v w = true) :
    v ∈ l.destutter' (fun v w => C.lt (key v) (key w) = true) w ↔
      firstOf C key (w :: l) (key v) = some v := by
  induction l generalizing w with
  | nil =>
    rw [List.destutter'_nil, List.mem_singleton, firstOf_singleton_iff]
  | cons u l ih =>
    obtain ⟨hw, hrest⟩ := List.pairwise_cons.mp h
    by_cases hlt : C.lt (key w) (key u) = true
    · rw [List.destutter'_cons, if_pos hlt, List.mem_cons, ih hrest]
      by_cases heq : C.Equiv (key w) (key v)
      · rw [firstOf_cons_of_equiv heq, Option.some_inj]
        refine ⟨?_, fun hwv => .inl hwv.symm⟩
        rintro (rfl | hfirst)
        · rfl
        -- what comes after is greater
        · have hle : C.lt (key v) (key u) = false := by
            rcases List.mem_cons.mp (mem_of_firstOf hfirst) with rfl | hv
            · exact C.irrefl _
            · exact notGreater_iff.mp ((List.pairwise_cons.mp hrest).1 v hv)
          exact absurd heq (WeakOrder.not_equiv_of_lt (C.lt_of_lt_of_not_lt hlt hle))
      · rw [firstOf_cons_of_not heq]
        refine or_iff_right ?_
        rintro rfl
        exact heq (.refl C _)
    · rw [List.destutter'_cons, if_neg hlt,
        ih (List.pairwise_cons.mpr ⟨fun x hx => hw x (List.mem_cons_of_mem _ hx), hrest.of_cons⟩)]
      have hwu : C.Equiv (key w) (key u) :=
        ⟨Bool.of_not_eq_true hlt, notGreater_iff.mp (hw u List.mem_cons_self)⟩
      by_cases heq : C.Equiv (key w) (key v)
      · rw [firstOf_cons_of_equiv heq, firstOf_cons_of_equiv heq]
      · have heq' : ¬ C.Equiv (key u) (key v) := fun huv => heq (hwu.trans huv)
        rw [firstOf_cons_of_not heq, firstOf_cons_of_not heq, firstOf_cons_of_not heq']

/-- **What is left** is what came first. -/
theorem mem_destutter_mergeSort (l : List α) :
    v ∈ (l.mergeSort (C.notGreater key)).destutter (fun v w => C.lt (key v) (key w) = true) ↔
      firstOf C key l (key v) = some v := by
  have hsorted : (l.mergeSort (C.notGreater key)).Pairwise
      fun v w => C.notGreater key v w = true :=
    List.pairwise_mergeSort notGreater_trans notGreater_total l
  rw [← firstOf_mergeSort]
  cases hl : l.mergeSort (C.notGreater key) with
  | nil =>
    rw [firstOf_nil]
    exact iff_of_false List.not_mem_nil nofun
  | cons w l =>
    rw [hl] at hsorted
    rw [List.destutter_cons', mem_destutter'_iff hsorted]

theorem ascending_destutter (C : WeakOrder κ) (key : α → κ) (l : List α) :
    Ascending C key (l.destutter fun v w => C.lt (key v) (key w) = true) := by
  have htrans : IsTrans α fun v w => C.lt (key v) (key w) = true := ⟨fun _ _ _ => C.trans⟩
  exact List.isChain_iff_pairwise.mp (List.isChain_destutter _ l)

/-! ## Merging -/

/-- **Merging.** -/
theorem Ascending.merge (h : Ascending C key l) (h' : Ascending C key l')
    (hne : ∀ v ∈ l, ∀ w ∈ l', ¬ C.Equiv (key v) (key w)) :
    Ascending C key (l.merge l' (C.notGreater key)) := by
  have hle : ∀ v w, C.lt (key v) (key w) = true → C.notGreater key v w = true :=
    fun v w hvw => notGreater_iff.mpr (C.asymm _ _ hvw)
  have hsorted := List.pairwise_merge notGreater_trans notGreater_total l l'
    (h.imp (hle _ _)) (h'.imp (hle _ _))
  have hdistinct : ∀ v w, C.lt (key v) (key w) = true → ¬ C.Equiv (key v) (key w) :=
    fun _ _ => WeakOrder.not_equiv_of_lt
  have happend : (l ++ l').Pairwise fun v w => ¬ C.Equiv (key v) (key w) :=
    List.pairwise_append.mpr ⟨h.imp (hdistinct _ _), h'.imp (hdistinct _ _), hne⟩
  have hperm : (l.merge l' (C.notGreater key)).Perm (l ++ l') := List.merge_perm_append _
  have hkeys := hperm.symm.pairwise happend fun hvw hwv => hvw hwv.symm
  refine (hsorted.and hkeys).imp fun {v w} ⟨hvw, hne⟩ => ?_
  by_contra hnot
  exact hne ⟨Bool.of_not_eq_true hnot, notGreater_iff.mp hvw⟩

end TQLib
