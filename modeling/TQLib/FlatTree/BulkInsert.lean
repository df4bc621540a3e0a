import TQLib.FlatTree.Places

/-!
# Insertion of a range

The values of a range that have no equivalent in the vector are appended to it as they come, with
duplicates among themselves, and what is appended is sorted, rid of the duplicates and merged with
what was there, from the first place that any of them goes to. Afterwards the vector ascends and has
the old values and of each new key the first value with it, which says what it is, and which is what
insertion one by one leaves as well.

## Main results

* `FlatTree.appendAll_spec` — the loop
* `FlatTree.insertBatch_spec`, `FlatTree.foldl_insert_spec` — both ways
* `FlatTree.insertRange_firstWins` — insertion of a range is a union in which the first wins
-/

namespace TQLib

namespace FlatTree

variable {K V : Type*} {C : WeakOrder K} {key : V → K} {body : List V} {v w : V}

/-! ## New keys -/

/-- No value of the vector has the key. -/
def isNew (C : WeakOrder K) (key : V → K) (body : List V) (v : V) : Bool :=
  body.all fun w => ¬ C.Equiv (key w) (key v)

theorem isNew_iff : isNew C key body v = true ↔ ∀ w ∈ body, ¬ C.Equiv (key w) (key v) := by
  simp only [isNew, List.all_eq_true, decide_eq_true_iff]

theorem isNew_congr (h : C.Equiv (key v) (key w)) : isNew C key body v = isNew C key body w := by
  rw [Bool.eq_iff_iff, isNew_iff, isNew_iff]
  refine forall₂_congr fun x _ => not_congr ⟨fun hxv => hxv.trans h, fun hxw => hxw.trans h.symm⟩

/-- What a range comes to: the old values, and the first of each new key. -/
structure FirstWins (C : WeakOrder K) (key : V → K) (body input result : List V) : Prop where
  /-- It ascends. -/
  ascending : Ascending C key result
  /-- What is in it. -/
  mem_iff : ∀ v, v ∈ result ↔
    v ∈ body ∨ isNew C key body v = true ∧ firstOf C key input (key v) = some v

namespace FirstWins

variable {input input' result result' : List V}

/-- There is one such vector only. -/
theorem unique (h : FirstWins C key body input result) (h' : FirstWins C key body input result') :
    result = result' :=
  h.ascending.eq_of_mem_iff h'.ascending fun v => (h.mem_iff v).trans (h'.mem_iff v).symm

theorem nil (h : Ascending C key body) : FirstWins C key body [] body :=
  ⟨h, fun _ => (or_iff_left fun ⟨_, hfirst⟩ => nomatch hfirst).symm⟩

/-- What is new afterwards is new before, and not in the range. -/
theorem isNew_iff (h : FirstWins C key body input result) : isNew C key result v = true ↔
    isNew C key body v = true ∧ firstOf C key input (key v) = none := by
  constructor
  · intro hnew
    have hbody : isNew C key body v = true := FlatTree.isNew_iff.mpr fun w hw =>
      FlatTree.isNew_iff.mp hnew w ((h.mem_iff w).mpr (.inl hw))
    refine ⟨hbody, ?_⟩
    by_contra hsome
    obtain ⟨u, hu⟩ := Option.ne_none_iff_exists'.mp hsome
    have huv := equiv_of_firstOf hu
    have hmem : u ∈ result := (h.mem_iff u).mpr
      (.inr ⟨(isNew_congr huv).trans hbody, (firstOf_congr huv input).trans hu⟩)
    exact FlatTree.isNew_iff.mp hnew u hmem huv
  · rintro ⟨hbody, hnone⟩
    refine FlatTree.isNew_iff.mpr fun w hw hwv => ?_
    rcases (h.mem_iff w).mp hw with hw | ⟨-, hfirst⟩
    · exact FlatTree.isNew_iff.mp hbody w hw hwv
    · rw [firstOf_congr hwv, hnone] at hfirst
      cases hfirst

/-- **One range after another** comes to what both come to. -/
theorem append (h : FirstWins C key body input result)
    (h' : FirstWins C key result input' result') :
    FirstWins C key body (input ++ input') result' := by
  refine ⟨h'.ascending, fun v => ?_⟩
  rw [h'.mem_iff, h.mem_iff, h.isNew_iff, firstOf_append]
  cases hfirst : firstOf C key input (key v) with
  | none =>
    rw [Option.none_or]
    simp only [and_true, reduceCtorEq, and_false, or_false]
  | some u =>
    rw [Option.some_or]
    simp only [reduceCtorEq, and_false, false_and, or_false]

end FirstWins

/-! ## One by one -/

theorem insert_spec (h : Ascending C key body) (v : V) :
    FirstWins C key body [v] (insert C key body v).1.1 := by
  rw [insert]
  rcases lowerBound_cases h (key v) with ⟨w, hf⟩ | hg
  · rw [hf.emplaceKeyArgs_eq h]
    refine ⟨h, fun x => (or_iff_left ?_).symm⟩
    rintro ⟨hnew, hx⟩
    obtain rfl := firstOf_singleton_iff.mp hx
    exact isNew_iff.mp hnew w (List.mem_of_getElem? hf.getElem?) hf.equiv
  · rw [hg.emplaceKeyArgs_eq h]
    refine ⟨h.insertIdx hg.le hg.before hg.after, fun x => ?_⟩
    rw [List.mem_insertIdx hg.le, firstOf_singleton_iff]
    constructor
    · rintro (rfl | hx)
      · exact .inr ⟨isNew_iff.mpr fun w => hg.not_equiv, rfl⟩
      · exact .inl hx
    · rintro (hx | ⟨-, hx⟩)
      · exact .inr hx
      · exact .inl hx

/-- **Insertion one by one.** -/
theorem foldl_insert_spec (h : Ascending C key body) (input : List V) :
    FirstWins C key body input
      (input.foldl (fun values v => (insert C key values v).1.1) body) := by
  induction input using List.reverseRecOn with
  | nil => exact .nil h
  | append_singleton input v ih =>
    rw [List.foldl_append]
    exact ih.append (insert_spec ih.ascending v)

/-! ## The loop -/

theorem appendUnique_eq (h : Ascending C key body) (appended : List V) (v : V) :
    appendUnique C key (body ++ appended) body.length v =
      if isNew C key body v then
        ((body ++ appended ++ [v], lowerBound C key body (key v)), true)
      else ((body ++ appended, lowerBound C key body (key v)), false) := by
  have hposition : bisect (fun w => !C.lt (key w) (key v)) (body ++ appended) 0 body.length =
      lowerBound C key body (key v) := bisect_append _ body appended 0 _ (Nat.zero_add _).le
  simp only [appendUnique, hposition]
  rcases lowerBound_cases h (key v) with ⟨w, hf⟩ | hg
  · have hlt := (List.getElem?_eq_some_iff.mp hf.getElem?).1
    have hold : ¬ isNew C key body v = true := fun hnew =>
      isNew_iff.mp hnew w (List.mem_of_getElem? hf.getElem?) hf.equiv
    rw [if_neg hold, if_neg]
    rw [List.getElem?_append_left hlt, hf.getElem?, Option.any_some, hf.equiv.2, not_or]
    exact ⟨hlt.ne, Bool.false_ne_true⟩
  · rw [if_pos (isNew_iff.mpr fun w => hg.not_equiv), if_pos]
    refine hg.le.eq_or_lt.imp_right fun hlt => ?_
    have hall := hg.all_eq_true
    rw [List.getElem?_eq_getElem hlt, Option.all_some] at hall
    rw [List.getElem?_append_left hlt, List.getElem?_eq_getElem hlt, Option.any_some, hall]

theorem appendAll_concat (C : WeakOrder K) (key : V → K) (body input : List V) (v : V) :
    appendAll C key body (input ++ [v]) =
      let r := appendAll C key body input
      let result := appendUnique C key r.1 body.length v
      (result.1.1, if result.2 then min r.2 result.1.2 else r.2) := by
  rw [appendAll, List.foldl_append]
  rfl

/-- **The loop** appends the values with new keys, all of which go behind `pos_first_new`. -/
theorem appendAll_spec (h : Ascending C key body) (input : List V) :
    (appendAll C key body input).1 = body ++ input.filter (isNew C key body) ∧
      (appendAll C key body input).2 ≤ body.length ∧
      ∀ v ∈ input.filter (isNew C key body),
        (appendAll C key body input).2 ≤ lowerBound C key body (key v) := by
  induction input using List.reverseRecOn with
  | nil => exact ⟨(List.append_nil _).symm, le_rfl, fun v hv => nomatch hv⟩
  | append_singleton input v ih =>
    obtain ⟨hvalues, hpos, hplaces⟩ := ih
    simp only [appendAll_concat, hvalues, appendUnique_eq h, List.filter_append]
    cases hnew : isNew C key body v with
    | false =>
      rw [List.filter_cons_of_neg (by rw [hnew]; exact Bool.false_ne_true), List.filter_nil,
        List.append_nil]
      exact ⟨rfl, hpos, hplaces⟩
    | true =>
      rw [List.filter_cons_of_pos hnew, List.filter_nil]
      refine ⟨List.append_assoc _ _ _, (min_le_left _ _).trans hpos, fun w hw => ?_⟩
      rcases List.mem_append.mp hw with hw | hw
      · exact (min_le_left _ _).trans (hplaces w hw)
      · rw [List.mem_singleton.mp hw]
        exact min_le_right _ _

/-! ## Sorting and merging -/

theorem sortAndUnique_spec (C : WeakOrder K) (key : V → K) (values : List V) :
    Ascending C key (sortAndUnique C key values) ∧
      ∀ v, v ∈ sortAndUnique C key values ↔ firstOf C key values (key v) = some v :=
  ⟨ascending_destutter C key _, fun _ => mem_destutter_mergeSort values⟩

/-- **Insertion of a range.** -/
theorem insertBatch_spec (h : Ascending C key body) (input : List V) :
    FirstWins C key body input (insertBatch C key body input) := by
  obtain ⟨hvalues, hpos, hplaces⟩ := appendAll_spec h input
  rw [insertBatch]
  generalize appendAll C key body input = r at hvalues hpos hplaces ⊢
  obtain ⟨values, pos⟩ := r
  dsimp only at hvalues hpos hplaces ⊢
  subst hvalues
  rw [List.take_left, List.drop_left]
  obtain ⟨hnew, hmem⟩ := sortAndUnique_spec C key (input.filter (isNew C key body))
  generalize sortAndUnique C key (input.filter (isNew C key body)) = new at hnew hmem ⊢
  have hfirst : ∀ v, v ∈ new ↔
      isNew C key body v = true ∧ firstOf C key input (key v) = some v :=
    fun v => (hmem v).trans (firstOf_filter_iff fun _ _ => isNew_congr)
  have hold : Ascending C key (body.take pos ++ body.drop pos) := by rwa [List.take_append_drop]
  obtain ⟨htake, hdrop, hcross⟩ := List.pairwise_append.mp hold
  refine ⟨List.pairwise_append.mpr ⟨htake, Ascending.merge hdrop hnew ?_, ?_⟩, ?_⟩
  · intro v hv w hw
    exact isNew_iff.mp ((hfirst w).mp hw).1 v (List.mem_of_mem_drop hv)
  · intro v hv w hw
    rcases List.mem_merge.mp hw with hw | hw
    · exact hcross v hv w hw
    -- what is in front of `pos_first_new` is in front of the place of each new value
    · have hplace := hplaces w (mem_of_firstOf ((hmem w).mp hw))
      rw [lowerBound_eq h] at hplace
      have hless := List.false_of_mem_take_findIdx (List.take_subset_take_left body hplace hv)
      rwa [Bool.not_eq_false'] at hless
  · intro v
    rw [List.mem_append, List.mem_merge, ← or_assoc, ← List.mem_append, List.take_append_drop,
      hfirst]

theorem insertRange_spec (h : Ascending C key body) (multipass : Bool) (input : List V) :
    FirstWins C key body input (insertRange C key body multipass input) := by
  match input with
  | [] => exact .nil h
  | [v] =>
    cases multipass with
    | false => exact insertBatch_spec h [v]
    | true =>
      have hhint := insertHint_eq h le_rfl v
      change FirstWins C key body [v] (insertHint C key body body.length v).1
      rw [hhint]
      exact insert_spec h v
  | v :: w :: input => exact insertBatch_spec h _

theorem ofRange_spec (C : WeakOrder K) (key : V → K) (items : List V) :
    FirstWins C key [] items (ofRange C key items) := by
  obtain ⟨hasc, hmem⟩ := sortAndUnique_spec C key items
  refine ⟨hasc, fun v => (hmem v).trans ?_⟩
  rw [or_iff_right List.not_mem_nil]
  exact (and_iff_right rfl).symm

/-! ## The union -/

/-- **Insertion of a range is a union in which the first wins.** A vector that ascends still does
afterwards, and has the old values and of each new key the first value with it. Insertion one by one
leaves the same, and the constructors what insertion into an empty tree does. -/
theorem insertRange_firstWins (h : Ascending C key body) (multipass : Bool) (input : List V) :
    Ascending C key (insertRange C key body multipass input) ∧
      (∀ v, v ∈ insertRange C key body multipass input ↔ v ∈ body ∨
        (∀ w ∈ body, ¬ C.Equiv (key w) (key v)) ∧
          (input.find? fun w => C.Equiv (key w) (key v)) = some v) ∧
      insertRange C key body multipass input =
        input.foldl (fun values v => (insert C key values v).1.1) body ∧
      ofRange C key input = insertRange C key [] multipass input ∧
      ofRange C key input = input.foldl (fun values v => (insert C key values v).1.1) [] := by
  have hrange := insertRange_spec h multipass input
  have hconstruct := ofRange_spec C key input
  refine ⟨hrange.ascending, fun v => ?_, hrange.unique (foldl_insert_spec h input),
    hconstruct.unique (insertRange_spec .nil multipass input),
    hconstruct.unique (foldl_insert_spec .nil input)⟩
  rw [hrange.mem_iff, isNew_iff]
  rfl

/-- It holds of numbers by their tens. -/
theorem insertRange_firstWins_tens :
    Ascending (less ℕ) (· / 10) (insertRange (less ℕ) (· / 10) [12, 30] false [45, 31, 3, 44, 7]) ∧
      insertRange (less ℕ) (· / 10) [12, 30] false [45, 31, 3, 44, 7] =
        [45, 31, 3, 44, 7].foldl (fun values v => (insert (less ℕ) (· / 10) values v).1.1)
          [12, 30] ∧
      ofRange (less ℕ) (· / 10) [45, 31, 3, 44, 7] =
        insertRange (less ℕ) (· / 10) [] false [45, 31, 3, 44, 7] := by
  have h : Ascending (less ℕ) (· / 10) [12, 30] := by simp [Ascending, less]
  obtain ⟨hasc, -, hfold, hconstruct, -⟩ := insertRange_firstWins h false [45, 31, 3, 44, 7]
  exact ⟨hasc, hfold, hconstruct⟩

end FlatTree

end TQLib
