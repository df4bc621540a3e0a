import TQLib.Foundations.Calls
import TQLib.Foundations.FiniteMap
import TQLib.FlatTree.Places

/-!
# The vector is a finite map

A finite map has the calls of a tree, by what they are for: an element is found by its key, and an
iterator by how many elements there are in front of it. A vector that ascends has the same results,
and is a vector that ascends afterwards.

## Main results

* `FlatTree.insert_agree`, `FlatTree.eraseKey_agree` and their like — one operation
* `FlatTree.step_agree` — one call
-/

namespace TQLib

namespace FlatTree

variable {K V : Type*} {C : WeakOrder K} {key : V → K}

/-! ## The reference -/

namespace Reference

/-- `insert` of a value: the map, the element of its key, and whether that is new. -/
noncomputable def insert (m : FiniteMap C key) (v : V) : (FiniteMap C key × V) × Bool :=
  match m.find (key v) with
  | some w => ((m, w), false)
  | none => ((m.put v, v), true)

/-- What a call does and returns. -/
noncomputable def step (m : FiniteMap C key) : Call K V → Option (FiniteMap C key × Result V)
  | .insert v =>
    let r := insert m v
    some (r.1.1, .inserted (some r.1.2) r.2)
  | .insertHint hint v =>
    if hint ≤ m.elements.card then some ((insert m v).1.1, .iterator (some (insert m v).1.2))
    else none
  | .emplaceHint hint v =>
    if hint ≤ m.elements.card then some ((insert m v).1.1, .iterator (some (insert m v).1.2))
    else none
  | .eraseKey k =>
    some (m.filter fun v => ¬ C.Equiv (key v) k, .count (if (m.find k).isSome then 1 else 0))
  | .eraseAt position =>
    if position < m.elements.card then
      some (m.filter fun v => m.rank (key v) ≠ position, .iterator (m.nth (position + 1)))
    else none
  | .eraseRange first last =>
    if first ≤ last ∧ last ≤ m.elements.card then
      some (m.filter fun v => ¬ (first ≤ m.rank (key v) ∧ m.rank (key v) < last),
        .iterator (m.nth last))
    else none
  | .eraseIf pred =>
    some (m.filter fun v => pred v = false, .count (m.elements.filter fun v => pred v = true).card)
  | .clear => some (.empty, .done)
  | .find k => some (m, .iterator (m.find k))
  | .count k => some (m, .count (if (m.find k).isSome then 1 else 0))
  | .contains k => some (m, .found (m.find k).isSome)
  | .lowerBound k => some (m, .iterator (m.nth (m.rank k)))
  | .upperBound k =>
    some (m, .iterator (m.nth (m.elements.filter fun v => C.lt k (key v) = false).card))

end Reference

variable {body : List V} {k : K} {p : ℕ} {v w : V}

/-! ## Calls -/

/-- A vector that ascends, and the map of its elements. -/
def Refines (C : WeakOrder K) (key : V → K) (body : List V) (m : FiniteMap C key) : Prop :=
  ∃ h : Ascending C key body, m = .ofList body h

theorem Gap.ascending_insertIdx (h : Ascending C key body) (hg : Gap C key body (key v) p) :
    Ascending C key (body.insertIdx p v) :=
  h.insertIdx hg.le hg.before hg.after

theorem Gap.refines_put (h : Ascending C key body) (hg : Gap C key body (key v) p) :
    Refines C key (body.insertIdx p v) ((FiniteMap.ofList body h).put v) :=
  ⟨hg.ascending_insertIdx h, FiniteMap.put_ofList_insertIdx h hg.le (fun _ => hg.not_equiv) _⟩

theorem Found.find_eq (h : Ascending C key body) (hf : Found C key body k p w) :
    (FiniteMap.ofList body h).find k = some w :=
  FiniteMap.find_ofList h hf.getElem? hf.equiv

theorem Gap.find_eq (h : Ascending C key body) (hg : Gap C key body k p) :
    (FiniteMap.ofList body h).find k = none :=
  FiniteMap.find_eq_none fun _ => hg.not_equiv

/-- What stays of a vector. -/
theorem refines_filter (h : Ascending C key body) {body' : List V} (hsub : body'.Sublist body)
    (P : V → Prop) [DecidablePred P] (hmem : ∀ v ∈ body, v ∈ body' ↔ P v) :
    Refines C key body' ((FiniteMap.ofList body h).filter P) :=
  ⟨h.sublist hsub, FiniteMap.filter_ofList h hsub P hmem⟩

/-- **Insertion.** -/
theorem insert_agree (h : Ascending C key body) (v : V) :
    Refines C key (insert C key body v).1.1 (Reference.insert (.ofList body h) v).1.1 ∧
      (insert C key body v).1.1[(insert C key body v).1.2]? =
        some (Reference.insert (.ofList body h) v).1.2 ∧
      (insert C key body v).2 = (Reference.insert (.ofList body h) v).2 := by
  rw [insert]
  rcases lowerBound_cases h (key v) with ⟨w, hf⟩ | hg
  · rw [hf.emplaceKeyArgs_eq h, Reference.insert, hf.find_eq h]
    exact ⟨⟨h, rfl⟩, hf.getElem?, rfl⟩
  · rw [hg.emplaceKeyArgs_eq h, Reference.insert, hg.find_eq h]
    refine ⟨hg.refines_put h, ?_, rfl⟩
    rw [List.getElem?_insertIdx_self, if_pos hg.le]

/-- **The erasure of a key.** -/
theorem eraseKey_agree (h : Ascending C key body) (k : K) :
    Refines C key (eraseKey C key body k).1
        ((FiniteMap.ofList body h).filter fun v => ¬ C.Equiv (key v) k) ∧
      (eraseKey C key body k).2 = if ((FiniteMap.ofList body h).find k).isSome then 1 else 0 := by
  simp only [eraseKey, eraseRange]
  rcases lowerBound_cases h k with ⟨w, hf⟩ | hg
  · rw [hf.equalRange_eq h, hf.find_eq h]
    have hsub := FiniteMap.take_append_drop_sublist body (lowerBound C key body k).le_succ
    refine ⟨refines_filter h hsub _ fun v hv => ?_, ?_⟩
    · rw [List.mem_append, h.mem_take_or_drop_iff hf.getElem? hf.equiv]
      exact and_iff_right hv
    · exact Nat.add_sub_cancel_left _ _
  · rw [hg.equalRange_eq h, hg.find_eq h]
    have hsub := FiniteMap.take_append_drop_sublist body (lowerBound C key body k).le_refl
    refine ⟨refines_filter h hsub _ fun v hv => ?_, Nat.sub_self _⟩
    rw [List.take_append_drop]
    exact ⟨fun _ => hg.not_equiv hv, fun _ => hv⟩

/-- **The erasure of an iterator.** -/
theorem eraseAt_agree (h : Ascending C key body) (position : ℕ) :
    Refines C key (body.eraseIdx position) ((FiniteMap.ofList body h).filter fun v =>
        (FiniteMap.ofList body h).rank (key v) ≠ position) ∧
      (body.eraseIdx position)[position]? = (FiniteMap.ofList body h).nth (position + 1) := by
  refine ⟨refines_filter h (List.eraseIdx_sublist _ _) _ fun v hv => ?_, ?_⟩
  · rw [List.eraseIdx_eq_take_drop_succ, List.mem_append, FiniteMap.mem_take_iff_rank h hv,
      FiniteMap.mem_drop_iff_rank h hv]
    omega
  · rw [FiniteMap.nth_ofList, List.getElem?_eraseIdx_of_ge le_rfl]

/-- **The erasure of a range.** -/
theorem eraseRange_agree (h : Ascending C key body) {first last : ℕ} (hle : first ≤ last)
    (hlast : last ≤ body.length) :
    Refines C key (body.take first ++ body.drop last) ((FiniteMap.ofList body h).filter fun v =>
        ¬ (first ≤ (FiniteMap.ofList body h).rank (key v) ∧
          (FiniteMap.ofList body h).rank (key v) < last)) ∧
      (body.take first ++ body.drop last)[first]? = (FiniteMap.ofList body h).nth last := by
  refine ⟨refines_filter h (FiniteMap.take_append_drop_sublist body hle) _ fun v hv => ?_, ?_⟩
  · rw [List.mem_append, FiniteMap.mem_take_iff_rank h hv, FiniteMap.mem_drop_iff_rank h hv]
    omega
  · have hlen : (body.take first).length = first := by
      rw [List.length_take]
      omega
    rw [FiniteMap.nth_ofList, List.getElem?_append_right (by omega), hlen, Nat.sub_self,
      List.getElem?_drop, Nat.add_zero]

/-- **The erasure by a predicate.** -/
theorem eraseIf_agree (h : Ascending C key body) (pred : V → Bool) :
    Refines C key (eraseIf body pred).1
        ((FiniteMap.ofList body h).filter fun v => pred v = false) ∧
      (eraseIf body pred).2 =
        ((FiniteMap.ofList body h).elements.filter fun v => pred v = true).card := by
  refine ⟨refines_filter h List.filter_sublist _ fun v hv => ?_, ?_⟩
  · rw [List.mem_filter, Bool.not_eq_true']
    exact and_iff_right hv
  · have hlen := List.length_eq_length_filter_add (l := body) pred
    rw [FiniteMap.card_filter_ofList]
    change body.length - (body.filter fun v => !pred v).length = _
    omega

/-- **What is looked for.** -/
theorem find_agree (h : Ascending C key body) (k : K) :
    body[find C key body k]? = (FiniteMap.ofList body h).find k ∧
      (count C key body k = if ((FiniteMap.ofList body h).find k).isSome then 1 else 0) ∧
      contains C key body k = ((FiniteMap.ofList body h).find k).isSome := by
  rcases lowerBound_cases h k with ⟨w, hf⟩ | hg
  · simp only [find, count, contains]
    rw [hf.equalRange_eq h, hf.find_eq h, hf.getElem?]
    refine ⟨?_, Nat.add_sub_cancel_left _ _, ?_⟩
    · rw [if_neg (Nat.succ_ne_self _).symm]
      exact hf.getElem?
    · rw [Option.any_some, hf.equiv.2]
      rfl
  · simp only [find, count, contains]
    rw [hg.equalRange_eq h, hg.find_eq h]
    refine ⟨?_, Nat.sub_self _, ?_⟩
    · rw [if_pos rfl]
      exact List.getElem?_eq_none le_rfl
    · have hall := hg.all_eq_true
      cases hget : body[lowerBound C key body k]? with
      | none => rfl
      | some w =>
        rw [hget, Option.all_some] at hall
        rw [Option.any_some, hall]
        rfl

theorem agree_some {l : List V} {m : FiniteMap C key} {r r' : Result V} (hl : Refines C key l m)
    (hr : r = r') : Option.Rel (Calls.Agree (Refines C key)) (some (l, r)) (some (m, r')) :=
  .some ⟨hl, hr⟩

/-- Where both check the same. -/
theorem agree_ite {σ τ : Type*} {R : σ → τ → Prop} {P : Prop} [Decidable P] {x : Option σ}
    {y : Option τ} (hxy : P → Option.Rel R x y) :
    Option.Rel R (if P then x else none) (if P then y else none) := by
  by_cases hP : P
  · rw [if_pos hP, if_pos hP]
    exact hxy hP
  · rw [if_neg hP, if_neg hP]
    exact .none

/-- **One call** of a tree. -/
theorem step_agree (h : Ascending C key body) (call : Call K V) :
    Option.Rel (Calls.Agree (Refines C key)) (step C key body call)
      (Reference.step (.ofList body h) call) := by
  have hself : Refines C key body (.ofList body h) := ⟨h, rfl⟩
  cases call with
  | insert v =>
    obtain ⟨hmap, hget, hflag⟩ := insert_agree h v
    exact agree_some hmap (congrArg₂ Result.inserted hget hflag)
  | insertHint hint v =>
    refine agree_ite fun hhint => ?_
    obtain ⟨hmap, hget, -⟩ := insert_agree h v
    rw [insertHint_eq h hhint]
    exact agree_some hmap (congrArg Result.iterator hget)
  | emplaceHint hint v =>
    refine agree_ite fun hhint => ?_
    obtain ⟨hmap, hget, -⟩ := insert_agree h v
    rw [emplaceHint, insertHint_eq h hhint]
    exact agree_some hmap (congrArg Result.iterator hget)
  | eraseKey k =>
    obtain ⟨hmap, hcount⟩ := eraseKey_agree h k
    exact agree_some hmap (congrArg Result.count hcount)
  | eraseAt position =>
    simp only [step, eraseAt, apply_ite (Option.map _), Option.map_some, Option.map_none]
    refine agree_ite fun _ => ?_
    obtain ⟨hmap, hget⟩ := eraseAt_agree h position
    exact agree_some hmap (congrArg Result.iterator hget)
  | eraseRange first last =>
    refine agree_ite fun hrange => ?_
    obtain ⟨hmap, hget⟩ := eraseRange_agree h hrange.1 hrange.2
    exact agree_some hmap (congrArg Result.iterator hget)
  | eraseIf pred =>
    obtain ⟨hmap, hcount⟩ := eraseIf_agree h pred
    exact agree_some hmap (congrArg Result.count hcount)
  | clear => exact agree_some ⟨.nil, rfl⟩ rfl
  | find k => exact agree_some hself (congrArg Result.iterator (find_agree h k).1)
  | count k => exact agree_some hself (congrArg Result.count (find_agree h k).2.1)
  | contains k => exact agree_some hself (congrArg Result.found (find_agree h k).2.2)
  | lowerBound k =>
    refine agree_some hself (congrArg Result.iterator ?_)
    rw [FiniteMap.nth_ofList, FiniteMap.rank_ofList, lowerBound_eq h]
  | upperBound k =>
    refine agree_some hself (congrArg Result.iterator ?_)
    rw [FiniteMap.nth_ofList, FiniteMap.card_filter_not_ofList h (h.partitioned_gt k),
      upperBound_eq h]

end FlatTree

end TQLib
