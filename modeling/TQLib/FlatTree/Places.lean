import TQLib.FlatTree.Model

/-!
# The place of a key

In a vector that ascends, a key that is looked for is either found at a place, or there is a gap for
it, and there is one such place only. The lower bound is that place, and so is a hint that passes
the tests.

## Main results

* `FlatTree.lowerBound_cases` — the lower bound is the place of the key
* `FlatTree.emplaceHintKeyArgs_eq` — a hint changes nothing
-/

namespace TQLib

namespace FlatTree

variable {K V : Type*} {C : WeakOrder K} {key : V → K}

variable {body : List V} {k : K} {p q : ℕ} {v w x : V}

/-- The key is found at a place. -/
structure Found (C : WeakOrder K) (key : V → K) (body : List V) (k : K) (p : ℕ) (w : V) : Prop where
  /-- What is there. -/
  getElem? : body[p]? = some w
  /-- It has the key. -/
  equiv : C.Equiv (key w) k

/-- There is a gap for a key at a place. -/
structure Gap (C : WeakOrder K) (key : V → K) (body : List V) (k : K) (p : ℕ) : Prop where
  /-- The place. -/
  le : p ≤ body.length
  /-- What is in front of it. -/
  before : ∀ w ∈ body.take p, C.lt (key w) k = true
  /-- What is behind it. -/
  after : ∀ w ∈ body.drop p, C.lt k (key w) = true

theorem lowerBound_eq (h : Ascending C key body) (k : K) :
    lowerBound C key body k = body.findIdx fun v => !C.lt (key v) k :=
  (h.partitioned_not_lt k).bisect_eq_findIdx

theorem upperBound_eq (h : Ascending C key body) (k : K) :
    upperBound C key body k = body.findIdx fun v => C.lt k (key v) :=
  (h.partitioned_gt k).bisect_eq_findIdx

theorem Found.all_eq_false (hf : Found C key body k p w) :
    (body[p]?.all fun v => C.lt k (key v)) = false := by
  rw [hf.getElem?, Option.all_some, hf.equiv.2]

theorem Gap.all_eq_true (hg : Gap C key body k p) :
    (body[p]?.all fun v => C.lt k (key v)) = true := by
  cases hp : body[p]? with
  | none => rfl
  | some w =>
    obtain ⟨hlt, rfl⟩ := List.getElem?_eq_some_iff.mp hp
    refine hg.after _ ?_
    rw [List.drop_eq_getElem_cons hlt]
    exact List.mem_cons_self

theorem Gap.not_equiv (hg : Gap C key body k p) (hw : w ∈ body) : ¬ C.Equiv (key w) k := by
  rw [← List.take_append_drop p body] at hw
  rcases List.mem_append.mp hw with hw | hw
  · exact WeakOrder.not_equiv_of_lt (hg.before w hw)
  · exact WeakOrder.not_equiv_of_gt (hg.after w hw)

/-- What is in front of a place that is not less than what is there. -/
theorem gap_of_all (h : Ascending C key body) (hp : p ≤ body.length)
    (hbefore : ∀ w ∈ body.take p, C.lt (key w) k = true)
    (hall : (body[p]?.all fun v => C.lt k (key v)) = true) : Gap C key body k p := by
  refine ⟨hp, hbefore, fun w hw => ?_⟩
  cases hget : body[p]? with
  | none =>
    rw [List.getElem?_eq_none_iff] at hget
    rw [List.drop_eq_nil_of_le hget] at hw
    cases hw
  | some u =>
    rw [hget, Option.all_some] at hall
    obtain ⟨hlt, rfl⟩ := List.getElem?_eq_some_iff.mp hget
    rw [List.drop_eq_getElem_cons hlt] at hw
    rcases List.mem_cons.mp hw with rfl | hw
    · exact hall
    · exact C.trans hall (h.lt_of_mem_drop hget hw)

/-- **The lower bound**: the key is found there, or there is a gap for it. -/
theorem lowerBound_cases (h : Ascending C key body) (k : K) :
    (∃ w, Found C key body k (lowerBound C key body k) w) ∨
      Gap C key body k (lowerBound C key body k) := by
  rw [lowerBound_eq h]
  have hbefore : ∀ w ∈ body.take (body.findIdx fun v => !C.lt (key v) k),
      C.lt (key w) k = true := by
    intro w hw
    have hnot := List.false_of_mem_take_findIdx hw
    rwa [Bool.not_eq_false'] at hnot
  cases hget : body[body.findIdx fun v => !C.lt (key v) k]? with
  | none =>
    refine .inr (gap_of_all h List.findIdx_le_length hbefore ?_)
    rw [hget]
    rfl
  | some w =>
    obtain ⟨hlt, hw⟩ := List.getElem?_eq_some_iff.mp hget
    have hnot := List.findIdx_getElem (w := hlt)
    rw [hw, Bool.not_eq_true'] at hnot
    cases hgt : C.lt k (key w) with
    | false => exact .inl ⟨w, hget, hnot, hgt⟩
    | true =>
      refine .inr (gap_of_all h List.findIdx_le_length hbefore ?_)
      rw [hget]
      exact hgt

/-- There is one such place only. -/
theorem Found.lowerBound_eq (h : Ascending C key body) (hf : Found C key body k p w) :
    lowerBound C key body k = p := by
  obtain ⟨hlt, hw⟩ := List.getElem?_eq_some_iff.mp hf.getElem?
  rw [FlatTree.lowerBound_eq h]
  refine (h.partitioned_not_lt k).eq_findIdx hlt.le (fun i hi hip => ?_) fun i hi hpi => ?_
  · rw [← hf.equiv.lt_right, ← hw, h.lt_getElem hip hlt]
    rfl
  · rw [← hf.equiv.lt_right, ← hw, Bool.not_eq_true']
    rcases hpi.eq_or_lt with rfl | hlt'
    · exact C.irrefl _
    · exact C.asymm _ _ (h.lt_getElem hlt' hi)

theorem Gap.lowerBound_eq (h : Ascending C key body) (hg : Gap C key body k p) :
    lowerBound C key body k = p := by
  rw [FlatTree.lowerBound_eq h]
  refine (h.partitioned_not_lt k).eq_findIdx hg.le (fun i hi hip => ?_) fun i hi hpi => ?_
  · rw [hg.before _ (List.mem_take_iff_getElem.mpr ⟨i, by omega, rfl⟩)]
    rfl
  · have hmem : body[i] ∈ body.drop p :=
      List.mem_drop_iff_getElem.mpr ⟨i - p, by omega, by simp only [Nat.add_sub_cancel' hpi]⟩
    rw [C.asymm _ _ (hg.after _ hmem)]
    rfl

theorem Found.equalRange_eq (h : Ascending C key body) (hf : Found C key body k p w) :
    equalRange C key body k = (p, p + 1) := by
  simp only [equalRange, hf.lowerBound_eq h, hf.all_eq_false, Bool.false_eq_true, if_false]

theorem Gap.equalRange_eq (h : Ascending C key body) (hg : Gap C key body k p) :
    equalRange C key body k = (p, p) := by
  simp only [equalRange, hg.lowerBound_eq h, hg.all_eq_true, if_true]

theorem Found.emplaceKeyArgs_eq (h : Ascending C key body) (hf : Found C key body k p w) (v : V) :
    emplaceKeyArgs C key body k v = ((body, p), false) := by
  simp only [emplaceKeyArgs, hf.lowerBound_eq h, hf.all_eq_false, Bool.false_eq_true, if_false]

theorem Gap.emplaceKeyArgs_eq (h : Ascending C key body) (hg : Gap C key body k p) (v : V) :
    emplaceKeyArgs C key body k v = ((body.insertIdx p v, p), true) := by
  simp only [emplaceKeyArgs, hg.lowerBound_eq h, hg.all_eq_true, if_true, unsafeEmplace]

/-- **A hint** changes nothing. One that passes the tests is the place of the key. -/
theorem emplaceHintKeyArgs_eq (h : Ascending C key body) {hint : ℕ} (hhint : hint ≤ body.length)
    (k : K) (v : V) :
    emplaceHintKeyArgs C key body hint k v = emplaceKeyArgs C key body k v := by
  rw [emplaceHintKeyArgs]
  split_ifs with hfirst hgap hequiv
  · -- what is in front of the hint is less, as the last of it is
    have hbefore : ∀ w ∈ body.take hint, C.lt (key w) k = true := by
      intro w hw
      rcases hfirst with rfl | hprev
      · cases hw
      · obtain ⟨u, hu, hlt⟩ := (Option.any_eq_true _ _).mp hprev
        obtain ⟨i, hi, rfl⟩ := List.mem_take_iff_getElem.mp hw
        obtain ⟨hlast, rfl⟩ := List.getElem?_eq_some_iff.mp hu
        rcases Nat.lt_or_ge i (hint - 1) with hlt' | hge
        · exact C.trans (h.lt_getElem hlt' hlast) hlt
        · obtain rfl : i = hint - 1 := by omega
          exact hlt
    rw [(gap_of_all h hhint hbefore hgap).emplaceKeyArgs_eq h]
    rfl
  · obtain ⟨w, hw, hnot⟩ := (Option.any_eq_true _ _).mp hequiv
    rw [hw, Option.all_some, Bool.not_eq_true] at hgap
    rw [Bool.not_eq_true'] at hnot
    have hf : Found C key body k hint w := ⟨hw, hnot, hgap⟩
    rw [hf.emplaceKeyArgs_eq h]
  · rfl
  · rfl

theorem insertHint_eq (h : Ascending C key body) {hint : ℕ} (hhint : hint ≤ body.length) (v : V) :
    insertHint C key body hint v = (insert C key body v).1 :=
  congrArg Prod.fst (emplaceHintKeyArgs_eq h hhint (key v) v)

end FlatTree

end TQLib
