import TQLib.FlatTree.Refinement

/-!
# The calls of a map

What `flat_map` adds to the tree: an element has a key and a value that is mapped to, and the value
can be assigned. That the key stays the one that was there, where it is not the key of the call but
an equivalent one, the reference has to have too.

## Main results

* `FlatMap.step_agree` — one call
* `FlatMap.refines_finiteMap` — any calls of a tree or a map, and any hints
-/

namespace TQLib

namespace FlatMap

open FlatTree (Result Refines lowerBound lowerBound_cases emplaceHintKeyArgs_eq insert_agree
  insertHint_eq agree_some agree_ite)

variable {K M : Type*} {C : WeakOrder K}

/-! ## The reference of a map -/

/-- A finite map of elements that have a key and a value. -/
abbrev Reference (C : WeakOrder K) (M : Type*) := FiniteMap C (Prod.fst : K × M → K)

namespace Reference

open FlatTree.Reference (insert)

/-- `insert_or_assign`: the map, the element of the key, and whether that is new. -/
noncomputable def insertOrAssign (m : Reference C M) (k : K) (obj : M) :
    (Reference C M × (K × M)) × Bool :=
  match m.find k with
  | some w => ((m.put (w.1, obj), (w.1, obj)), false)
  | none => ((m.put (k, obj), (k, obj)), true)

/-- What a call does and returns. -/
noncomputable def step (dflt : M) (m : Reference C M) :
    Call K M → Option (Reference C M × Result (K × M))
  | .tree call => FlatTree.Reference.step m call
  | .index k => some ((insert m (k, dflt)).1.1, .iterator (some (insert m (k, dflt)).1.2))
  | .insertOrAssign k obj =>
    let r := insertOrAssign m k obj
    some (r.1.1, .inserted (some r.1.2) r.2)
  | .insertOrAssignHint hint k obj =>
    if hint ≤ m.elements.card then
      some ((insertOrAssign m k obj).1.1, .iterator (some (insertOrAssign m k obj).1.2))
    else none
  | .tryEmplace k obj =>
    let r := insert m (k, obj)
    some (r.1.1, .inserted (some r.1.2) r.2)
  | .tryEmplaceHint hint k obj =>
    if hint ≤ m.elements.card then
      some ((insert m (k, obj)).1.1, .iterator (some (insert m (k, obj)).1.2))
    else none

end Reference

/-! ## Calls -/

variable {body : List (K × M)} {p hint : ℕ} {w : K × M}

theorem index_eq (C : WeakOrder K) (body : List (K × M)) (dflt : M) (k : K) :
    index C body dflt k = (FlatTree.insert C Prod.fst body (k, dflt)).1 := by
  simp only [index, FlatTree.insert, FlatTree.emplaceKeyArgs]
  split_ifs <;> rfl

theorem assign_eq (hp : body[p]? = some w) (obj : M) :
    assign obj (body, p) = (body.set p (w.1, obj), p) := by
  rw [assign, List.modify_eq_set_getElem?, hp]
  rfl

/-- **Assignment.** -/
theorem insertOrAssign_agree (h : Ascending C Prod.fst body) (k : K) (obj : M) :
    let r := insertOrAssign C body k obj
    let r' := Reference.insertOrAssign (.ofList body h) k obj
    Refines C Prod.fst r.1.1 r'.1.1 ∧ r.1.1[r.1.2]? = some r'.1.2 ∧ r.2 = r'.2 := by
  intro r r'
  rcases lowerBound_cases h k with ⟨w, hf⟩ | hg
  · have hr : r = ((body.set (lowerBound C Prod.fst body k) (w.1, obj),
        lowerBound C Prod.fst body k), false) := by
      simp only [r, insertOrAssign, hf.emplaceKeyArgs_eq h, assign_eq hf.getElem?]
      rfl
    have hr' : r' = (((FiniteMap.ofList body h).put (w.1, obj), (w.1, obj)), false) := by
      simp only [r', Reference.insertOrAssign, hf.find_eq h]
    have heq : C.Equiv w.1 (w.1, obj).1 := .refl C _
    rw [hr, hr']
    refine ⟨⟨h.set hf.getElem? heq, FiniteMap.put_ofList_set h hf.getElem? heq _⟩, ?_, rfl⟩
    exact List.getElem?_set_self (List.getElem?_eq_some_iff.mp hf.getElem?).1
  · have hr : r = ((body.insertIdx (lowerBound C Prod.fst body k) (k, obj),
        lowerBound C Prod.fst body k), true) := by
      simp only [r, insertOrAssign, hg.emplaceKeyArgs_eq h]
      rfl
    have hr' : r' = (((FiniteMap.ofList body h).put (k, obj), (k, obj)), true) := by
      simp only [r', Reference.insertOrAssign, hg.find_eq h]
    rw [hr, hr']
    refine ⟨hg.refines_put h, ?_, rfl⟩
    rw [List.getElem?_insertIdx_self, if_pos hg.le]

theorem insertOrAssignHint_eq (h : Ascending C Prod.fst body) (hhint : hint ≤ body.length) (k : K)
    (obj : M) : insertOrAssignHint C body hint k obj = (insertOrAssign C body k obj).1 := by
  simp only [insertOrAssignHint, insertOrAssign, emplaceHintKeyArgs_eq h hhint, apply_ite Prod.fst]

theorem tryEmplaceHint_eq (h : Ascending C Prod.fst body) (hhint : hint ≤ body.length) (k : K)
    (obj : M) : tryEmplaceHint C body hint k obj = (tryEmplace C body k obj).1 :=
  congrArg Prod.fst (emplaceHintKeyArgs_eq h hhint k (k, obj))

/-- **One call** of a map. -/
theorem step_agree (h : Ascending C Prod.fst body) (dflt : M) (call : Call K M) :
    Option.Rel (Calls.Agree (Refines C Prod.fst)) (step C dflt body call)
      (Reference.step dflt (.ofList body h) call) := by
  cases call with
  | tree call => exact FlatTree.step_agree h call
  | index k =>
    obtain ⟨hmap, hget, -⟩ := insert_agree h (k, dflt)
    rw [step, index_eq]
    exact agree_some hmap (congrArg Result.iterator hget)
  | insertOrAssign k obj =>
    obtain ⟨hmap, hget, hflag⟩ := insertOrAssign_agree h k obj
    exact agree_some hmap (congrArg₂ Result.inserted hget hflag)
  | insertOrAssignHint hint k obj =>
    refine agree_ite fun hhint => ?_
    obtain ⟨hmap, hget, -⟩ := insertOrAssign_agree h k obj
    rw [insertOrAssignHint_eq h hhint]
    exact agree_some hmap (congrArg Result.iterator hget)
  | tryEmplace k obj =>
    obtain ⟨hmap, hget, hflag⟩ := insert_agree h (k, obj)
    exact agree_some hmap (congrArg₂ Result.inserted hget hflag)
  | tryEmplaceHint hint k obj =>
    refine agree_ite fun hhint => ?_
    obtain ⟨hmap, hget, -⟩ := insert_agree h (k, obj)
    rw [tryEmplaceHint_eq h hhint]
    exact agree_some hmap (congrArg Result.iterator hget)

/-! ## Any calls -/

/-- **Trees and maps are finite maps.** Any calls of a tree, and of a map, on a vector that ascends
return what they return on a finite map, are undefined where they are there, and leave a vector that
ascends. A hint changes nothing. -/
theorem refines_finiteMap {V : Type*} {key : V → K} (dflt : M) {values : List V}
    (hvalues : Ascending C key values) {entries : List (K × M)}
    (hentries : Ascending C Prod.fst entries) :
    (∀ calls : List (FlatTree.Call K V), Option.Rel (Calls.Agree (Refines C key))
      (Calls.trace (FlatTree.step C key) values calls)
      (Calls.trace FlatTree.Reference.step (.ofList values hvalues) calls)) ∧
    (∀ calls : List (Call K M), Option.Rel (Calls.Agree (Refines C Prod.fst))
      (Calls.trace (step C dflt) entries calls)
      (Calls.trace (Reference.step dflt) (.ofList entries hentries) calls)) ∧
    (∀ hint ≤ values.length, ∀ v,
      FlatTree.insertHint C key values hint v = (FlatTree.insert C key values v).1 ∧
        FlatTree.emplaceHint C key values hint v = (FlatTree.insert C key values v).1) ∧
    ∀ hint ≤ entries.length, ∀ k obj,
      insertOrAssignHint C entries hint k obj = (insertOrAssign C entries k obj).1 ∧
        tryEmplaceHint C entries hint k obj = (tryEmplace C entries k obj).1 := by
  refine ⟨Calls.trace_rel ?_ ⟨hvalues, rfl⟩, Calls.trace_rel ?_ ⟨hentries, rfl⟩, ?_, ?_⟩
  · rintro body _ call ⟨h, rfl⟩
    exact FlatTree.step_agree h call
  · rintro body _ call ⟨h, rfl⟩
    exact step_agree h dflt call
  · intro hint hhint v
    exact ⟨insertHint_eq hvalues hhint v, insertHint_eq hvalues hhint v⟩
  · intro hint hhint k obj
    exact ⟨insertOrAssignHint_eq hentries hhint k obj, tryEmplaceHint_eq hentries hhint k obj⟩

/-- It holds of numbers by their tens, and of one entry. -/
theorem refines_finiteMap_tens :
    ∃ (h : Ascending (FlatTree.less ℕ) (· / 10) [3, 25])
      (h' : Ascending (FlatTree.less ℕ) Prod.fst [(1, 7)]),
      Option.Rel (Calls.Agree (Refines _ _))
        (Calls.trace (FlatTree.step (FlatTree.less ℕ) (· / 10)) [3, 25]
          [.insertHint 2 17, .insert 19, .eraseKey 0])
        (Calls.trace FlatTree.Reference.step (.ofList [3, 25] h)
          [.insertHint 2 17, .insert 19, .eraseKey 0]) ∧
      Option.Rel (Calls.Agree (Refines _ _))
        (Calls.trace (step (FlatTree.less ℕ) 0) [(1, 7)] [.index 0, .insertOrAssignHint 2 1 9])
        (Calls.trace (Reference.step 0) (.ofList [(1, 7)] h')
          [.index 0, .insertOrAssignHint 2 1 9]) ∧
      FlatTree.insertHint (FlatTree.less ℕ) (· / 10) [3, 25] 1 17 =
        (FlatTree.insert (FlatTree.less ℕ) (· / 10) [3, 25] 17).1 ∧
      tryEmplaceHint (FlatTree.less ℕ) [(1, 7)] 0 1 9 =
        (tryEmplace (FlatTree.less ℕ) [(1, 7)] 1 9).1 := by
  have h : Ascending (FlatTree.less ℕ) (· / 10) [3, 25] := by simp [Ascending, FlatTree.less]
  have h' : Ascending (FlatTree.less ℕ) Prod.fst [(1, 7)] := by simp [Ascending]
  obtain ⟨htree, hmap, hhint, hhint'⟩ := refines_finiteMap 0 h h'
  exact ⟨h, h', htree _, hmap _, (hhint 1 (by decide) 17).1, (hhint' 0 (by decide) 1 9).2⟩

end FlatMap

end TQLib
