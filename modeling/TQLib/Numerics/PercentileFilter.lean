import TQLib.Foundations.Calls
import TQLib.Foundations.SortedNodes
import Mathlib.Algebra.Order.Floor.Ring
import Mathlib.Data.Multiset.Sort
import Mathlib.Data.Rat.Floor

/-!
# Percentiles

`webrtc::PercentileFilter` of `rtc_base/numerics/percentile_filter.h`. The observations are in a
`std::multiset`, and an iterator into it is kept at the percentile, together with its index.

The index of the percentile is a product of `float`s in the source. It is taken exactly here, as the
floor of a rational number.

`Insert` and `Erase` first repair the index, by a comparison of the value with the one at the
iterator. That this is right for equal values rests on where they come and go: the new one behind
all that are equal, the one that is erased in front of them.

## Main results

* `PercentileFilter.Located.update` — `UpdatePercentileIterator`
* `PercentileFilter.Inv.insert`, `PercentileFilter.Inv.erase` — the repairs
* `PercentileFilter.percentile_law` — the percentile, after any calls
-/

namespace TQLib

/-- The class. -/
structure PercentileFilter (T : Type*) [LinearOrder T] where
  /-- `percentile_`. -/
  percentile : ℚ
  /-- `set_`. -/
  set : SortedNodes T
  /-- `percentile_it_`. -/
  percentileIt : SortedNodes.Iterator
  /-- `percentile_index_`. -/
  percentileIndex : ℤ

namespace PercentileFilter

variable {T : Type*} [LinearOrder T]

/-- The constructor: `none` when an `RTC_CHECK` fails. -/
def construct (percentile : ℚ) : Option (PercentileFilter T) :=
  if 0 ≤ percentile ∧ percentile ≤ 1 then
    some ⟨percentile, .empty, SortedNodes.empty.begin (T := T), 0⟩
  else none

/-- `UpdatePercentileIterator`. -/
def updatePercentileIterator (f : PercentileFilter T) : Option (PercentileFilter T) :=
  if f.set.size = 0 then some f
  else
    let index := ⌊f.percentile * (f.set.size - 1 : ℕ)⌋
    (f.set.advance f.percentileIt (index - f.percentileIndex)).map fun it =>
      { f with percentileIt := it, percentileIndex := index }

/-- `Insert`. -/
def insert (f : PercentileFilter T) (value : T) : Option (PercentileFilter T) :=
  let set := f.set.insert value
  if set.size = 1 then
    updatePercentileIterator { f with set, percentileIt := set.begin, percentileIndex := 0 }
  else
    (set.deref f.percentileIt).bind fun x =>
      updatePercentileIterator { f with
        set
        percentileIndex := if value < x then f.percentileIndex + 1 else f.percentileIndex }

/-- `Erase`. -/
def erase (f : PercentileFilter T) (value : T) : Option (PercentileFilter T × Bool) :=
  let it := f.set.lowerBound value
  match f.set.deref it with
  -- `it == set_.end()`
  | none => some (f, false)
  | some x =>
    if x ≠ value then some (f, false)
    else
      (f.set.erase it).bind fun (set, next) =>
        (if it = f.percentileIt then
          updatePercentileIterator { f with set, percentileIt := next }
        else
          (set.deref f.percentileIt).bind fun y =>
            updatePercentileIterator { f with
              set
              percentileIndex := if value ≤ y then f.percentileIndex - 1 else f.percentileIndex }
        ).map fun f => (f, true)

/-- `GetPercentileValue`. -/
def getPercentileValue [Zero T] (f : PercentileFilter T) : Option T :=
  if f.set.size = 0 then some 0 else f.set.deref f.percentileIt

/-- `Reset`. -/
def reset (f : PercentileFilter T) : PercentileFilter T :=
  { f with set := f.set.clear, percentileIt := f.set.clear.begin, percentileIndex := 0 }

/-! ## Calls -/

/-- A call that changes the state. -/
inductive Call (T : Type*)
  /-- `Insert`. -/
  | insert (value : T)
  /-- `Erase`. -/
  | erase (value : T)
  /-- `Reset`. -/
  | reset

/-- What a call does. -/
def step (f : PercentileFilter T) : Call T → Option (PercentileFilter T)
  | .insert v => f.insert v
  | .erase v => (f.erase v).map Prod.fst
  | .reset => some f.reset

/-- What a call does to the observations. -/
def observe (m : Multiset T) : Call T → Multiset T
  | .insert v => v ::ₘ m
  | .erase v => m.erase v
  | .reset => 0

/-- The observations after some calls. -/
def observations (calls : List (Call T)) : Multiset T := calls.foldl observe 0

/-- The rank of the percentile among `n` observations. -/
def rank (percentile : ℚ) (n : ℕ) : ℤ := ⌊percentile * (n - 1 : ℕ)⌋

/-- The percentile of some observations: the one of its rank, in order. -/
def percentileOf [Zero T] (percentile : ℚ) (m : Multiset T) : T :=
  (m.sort (· ≤ ·)).getD (rank percentile m.card).toNat 0

/-! ## The invariant -/

/-- The iterator is at the index, wherever that is. -/
structure Located (f : PercentileFilter T) (i : ℕ) : Prop where
  /-- `percentile_it_`. -/
  at_index : f.set.At f.percentileIt i
  /-- `percentile_index_`. -/
  index_eq : f.percentileIndex = i

/-- The filter of some observations. -/
structure Inv (p : ℚ) (m : Multiset T) (f : PercentileFilter T) : Prop where
  /-- `percentile_`. -/
  percentile : f.percentile = p
  /-- `set_`. -/
  values : (f.set.values : Multiset T) = m
  /-- The iterator is at the rank of the percentile. -/
  located : 0 < f.set.size →
    ∃ i : ℕ, Located f i ∧ i < f.set.size ∧ rank p f.set.size = i

variable {p : ℚ} {m : Multiset T} {f : PercentileFilter T} {v : T} {i : ℕ}

theorem rank_nonneg (h : 0 ≤ p) (n : ℕ) : 0 ≤ rank p n :=
  Int.floor_nonneg.mpr (mul_nonneg h (Nat.cast_nonneg _))

theorem rank_lt (h : p ≤ 1) {n : ℕ} (hn : 0 < n) : rank p n < n := by
  have hle : p * (n - 1 : ℕ) ≤ (n - 1 : ℕ) := mul_le_of_le_one_left (Nat.cast_nonneg _) h
  have hfloor : rank p n ≤ (n - 1 : ℕ) := by
    have hmono := Int.floor_le_floor hle
    rwa [Int.floor_natCast] at hmono
  omega

/-- **`UpdatePercentileIterator`** puts the iterator where the percentile is, from wherever it is,
the end included. -/
theorem Located.update (hp : 0 ≤ f.percentile ∧ f.percentile ≤ 1) (hl : Located f i)
    (hm : (f.set.values : Multiset T) = m) :
    ∃ f', f.updatePercentileIterator = some f' ∧ Inv f.percentile m f' := by
  rw [updatePercentileIterator]
  split
  · rename_i hzero
    exact ⟨f, rfl, rfl, hm, fun hpos => absurd hzero hpos.ne'⟩
  · rename_i hne
    have hpos : 0 < f.set.size := Nat.pos_of_ne_zero hne
    have hrank := rank_nonneg hp.1 f.set.size
    have hlt := rank_lt hp.2 hpos
    obtain ⟨r, hr⟩ := Int.eq_ofNat_of_zero_le hrank
    rw [hr] at hlt
    have hlt : r < f.set.size := by exact_mod_cast hlt
    obtain ⟨it, hit, hat⟩ := hl.at_index.advance (d := rank f.percentile f.set.size - i) hlt
      (by omega)
    change ∃ f', (f.set.advance f.percentileIt (rank f.percentile f.set.size -
      f.percentileIndex)).map _ = some f' ∧ _
    rw [hl.index_eq, hit]
    exact ⟨_, rfl, rfl, hm, fun _ => ⟨r, ⟨hat, hr⟩, hlt, hr⟩⟩

/-! ## The calls -/

theorem insert_eq (f : PercentileFilter T) (v : T) : f.insert v =
    if (f.set.insert v).size = 1 then updatePercentileIterator
      ⟨f.percentile, f.set.insert v, (f.set.insert v).begin, 0⟩
    else ((f.set.insert v).deref f.percentileIt).bind fun x => updatePercentileIterator
      ⟨f.percentile, f.set.insert v, f.percentileIt,
        if v < x then f.percentileIndex + 1 else f.percentileIndex⟩ := rfl

theorem size_insert (s : SortedNodes T) (v : T) : (s.insert v).size = s.size + 1 :=
  List.length_insertIdx_of_le_length (s.upperBound_le v) _

/-- **`Insert`**: the value comes behind those that are equal, so in front of the iterator if it is
less than the value there. -/
theorem Inv.insert (hinv : Inv p m f) (hp : 0 ≤ p ∧ p ≤ 1) (v : T) :
    ∃ f', f.insert v = some f' ∧ Inv p (v ::ₘ m) f' := by
  have hm : ((f.set.insert v).values : Multiset T) = v ::ₘ m := by
    rw [f.set.values_insert v, hinv.values]
  obtain rfl := hinv.percentile
  rw [insert_eq, size_insert]
  split
  · exact Located.update (f := ⟨f.percentile, f.set.insert v, (f.set.insert v).begin, 0⟩) hp
      ⟨SortedNodes.at_begin _, rfl⟩ hm
  · rename_i hne
    obtain ⟨i, hl, hi, -⟩ := hinv.located (by omega)
    obtain ⟨x, hx, hget⟩ := hl.at_index.exists_deref hi
    rw [hl.at_index.deref_insert v, hx, Option.bind_some]
    refine Located.update (i := if f.set.upperBound v ≤ i then i + 1 else i) (f := ⟨f.percentile,
      f.set.insert v, f.percentileIt, if v < x then f.percentileIndex + 1 else f.percentileIndex⟩)
      hp ⟨hl.at_index.insert v, ?_⟩ hm
    change (if v < x then f.percentileIndex + 1 else f.percentileIndex) = _
    rw [hl.index_eq]
    simp only [SortedNodes.upperBound_le_iff hget v]
    split <;> simp

theorem erase_of_ne (h : ∀ x, f.set.deref (f.set.lowerBound v) = some x → x ≠ v) :
    f.erase v = some (f, false) := by
  rw [erase]
  cases hx : f.set.deref (f.set.lowerBound v) with
  | none => rfl
  | some x => exact if_pos (h x hx)

theorem erase_of_eq {set : SortedNodes T} {next : SortedNodes.Iterator}
    (h : f.set.deref (f.set.lowerBound v) = some v)
    (herase : f.set.erase (f.set.lowerBound v) = some (set, next)) : f.erase v =
    (if f.set.lowerBound v = f.percentileIt then
      updatePercentileIterator ⟨f.percentile, set, next, f.percentileIndex⟩
    else
      (set.deref f.percentileIt).bind fun y => updatePercentileIterator
        ⟨f.percentile, set, f.percentileIt,
          if v ≤ y then f.percentileIndex - 1 else f.percentileIndex⟩).map fun f => (f, true) := by
  rw [erase]
  simp only [h, ne_eq, not_true_eq_false, if_false]
  rw [herase, Option.bind_some]

/-- What is at the lower bound is the value, if the value is there at all. -/
theorem deref_lowerBound_iff (s : SortedNodes T) (v : T) :
    s.deref (s.lowerBound v) = some v ↔ v ∈ s.values := by
  rw [(s.at_lowerBound v).deref_eq]
  constructor
  · exact List.mem_of_getElem?
  · intro hmem
    obtain ⟨q, hq⟩ := List.mem_iff_getElem?.mp hmem
    have hle := (SortedNodes.lowerBound_le_iff hq v).mpr le_rfl
    obtain ⟨hlen, hget⟩ := List.getElem?_eq_some_iff.mp hq
    have hx := List.getElem?_eq_getElem (hle.trans_lt hlen)
    have hge := (SortedNodes.lowerBound_le_iff hx v).mp le_rfl
    have hsorted : s.values[s.nodes.findIdx fun a => v ≤ a.2] ≤ s.values[q] := by
      rcases hle.eq_or_lt with heq | hlt
      · exact (getElem_congr_idx heq).le
      · exact List.pairwise_iff_getElem.mp s.pairwise_values _ _ _ _ hlt
    rw [hx, le_antisymm (hsorted.trans hget.le) hge]

/-- The repair after the first of the values that are equal has gone. The next one takes its place
if the iterator was there. -/
theorem Located.erase {q : ℕ} {next : SortedNodes.Iterator} (hl : Located f i) (hi : i < f.set.size)
    (hp : 0 ≤ f.percentile ∧ f.percentile ≤ 1) (hat : f.set.At (f.set.lowerBound v) q)
    (hq : q < f.set.nodes.length) (hnext : (f.set.eraseAt q).At next q)
    (hm : ((f.set.eraseAt q).values : Multiset T) = m) :
    ∃ f', (if f.set.lowerBound v = f.percentileIt then
        updatePercentileIterator ⟨f.percentile, f.set.eraseAt q, next, f.percentileIndex⟩
      else
        ((f.set.eraseAt q).deref f.percentileIt).bind fun y => updatePercentileIterator
          ⟨f.percentile, f.set.eraseAt q, f.percentileIt,
            if v ≤ y then f.percentileIndex - 1 else f.percentileIndex⟩) = some f' ∧
      Inv f.percentile m f' := by
  have hiff := hat.eq_iff hl.at_index
  split
  · rename_i heq
    obtain rfl := hiff.mp heq
    exact Located.update (f := ⟨f.percentile, f.set.eraseAt q, next, f.percentileIndex⟩) hp
      ⟨hnext, hl.index_eq⟩ hm
  · rename_i hne
    have hne := Ne.symm (mt hiff.mpr hne)
    obtain ⟨x, hx, hget⟩ := hl.at_index.exists_deref hi
    have hle := SortedNodes.lowerBound_le_iff hget v
    rw [← hat.index_eq, (f.set.at_lowerBound v).index_eq] at hq hne hm ⊢
    rw [hl.at_index.deref_eraseAt hq hne, hx, Option.bind_some]
    refine Located.update (f := ⟨f.percentile, _, f.percentileIt,
      if v ≤ x then f.percentileIndex - 1 else f.percentileIndex⟩) hp
      ⟨hl.at_index.eraseAt hq hne, ?_⟩ hm
    change (if v ≤ x then f.percentileIndex - 1 else f.percentileIndex) = _
    rw [hl.index_eq]
    simp only [← hle]
    split <;> split <;> omega

/-- **`Erase`**: the first of the values that are equal goes, so one in front of the iterator if it
is not greater than the value there, except when it is the one there. -/
theorem Inv.erase (hinv : Inv p m f) (hp : 0 ≤ p ∧ p ≤ 1) (v : T) :
    ∃ f', f.erase v = some (f', decide (v ∈ m)) ∧ Inv p (m.erase v) f' := by
  have hmem : v ∈ m ↔ v ∈ f.set.values := by rw [← hinv.values, Multiset.mem_coe]
  by_cases hv : v ∈ f.set.values
  · obtain rfl := hinv.percentile
    have hderef := (deref_lowerBound_iff f.set v).mpr hv
    have hget := hderef
    rw [(f.set.at_lowerBound v).deref_eq] at hget
    have hlt : (f.set.nodes.findIdx fun a => v ≤ a.2) < f.set.nodes.length := by
      have hlt := (List.getElem?_eq_some_iff.mp hget).1
      rwa [SortedNodes.values, List.length_map] at hlt
    obtain ⟨i, hl, hi, -⟩ := hinv.located (Nat.zero_lt_of_lt hlt)
    obtain ⟨next, herase, hnext⟩ := (f.set.at_lowerBound v).erase hlt
    have hm : ((f.set.eraseAt (f.set.nodes.findIdx fun a => v ≤ a.2)).values : Multiset T) =
        m.erase v := by
      rw [← hinv.values, SortedNodes.values_eraseAt hget, Multiset.erase_cons_head]
    obtain ⟨f', hf', hinv'⟩ := hl.erase hi hp (f.set.at_lowerBound v) hlt hnext hm
    exact ⟨f', by rw [erase_of_eq hderef herase, hf', decide_eq_true (hmem.mpr hv)]; rfl, hinv'⟩
  · refine ⟨f, ?_, ?_⟩
    · rw [decide_eq_false (mt hmem.mp hv)]
      refine erase_of_ne fun x hx hxv => hv ?_
      rw [hxv] at hx
      exact (deref_lowerBound_iff f.set v).mp hx
    · rwa [Multiset.erase_of_notMem (mt hmem.mp hv)]

theorem Inv.reset (hinv : Inv p m f) : Inv p 0 f.reset where
  percentile := hinv.percentile
  values := rfl
  located hpos := absurd hpos (lt_irrefl 0)

/-- A call keeps the invariant. -/
theorem Inv.step (hinv : Inv p m f) (hp : 0 ≤ p ∧ p ≤ 1) (call : Call T) :
    ∃ f', f.step call = some f' ∧ Inv p (observe m call) f' := by
  cases call with
  | insert v => exact hinv.insert hp v
  | erase v =>
    obtain ⟨f', hf', hinv'⟩ := hinv.erase hp v
    exact ⟨f', by rw [PercentileFilter.step, hf', Option.map_some], hinv'⟩
  | reset => exact ⟨_, rfl, hinv.reset⟩

theorem inv_construct (p : ℚ) : Inv p (0 : Multiset T)
    ⟨p, .empty, SortedNodes.empty.begin (T := T), 0⟩ where
  percentile := rfl
  values := rfl
  located hpos := absurd hpos (lt_irrefl 0)

theorem observations_concat (calls : List (Call T)) (call : Call T) :
    observations (calls ++ [call]) = observe (observations calls) call := by
  rw [observations, List.foldl_append]
  rfl

/-- The filter after any calls. -/
theorem exists_inv (hp : 0 ≤ p ∧ p ≤ 1) (calls : List (Call T)) : ∃ f₀ f,
    construct p = some f₀ ∧ Calls.run step f₀ calls = some f ∧ Inv p (observations calls) f := by
  have hrun : ∃ f, Calls.run step ⟨p, .empty, SortedNodes.empty.begin (T := T), 0⟩ calls = some f ∧
      Inv p (observations calls) f := by
    refine Calls.run_spec (fun _ => True) (fun calls f => Inv p (observations calls) f)
      (inv_construct p) (fun _ _ _ => trivial) (fun calls call f _ hinv => ?_) trivial
    rw [observations_concat]
    exact hinv.step hp call
  obtain ⟨f, hf, hinv⟩ := hrun
  exact ⟨_, f, if_pos hp, hf, hinv⟩

/-- The values are in order, so they are what sorting the observations gives. -/
theorem Inv.values_eq (hinv : Inv p m f) : f.set.values = m.sort (· ≤ ·) := by
  refine List.Perm.eq_of_pairwise' (r := (· ≤ ·)) f.set.pairwise_values (m.pairwise_sort _) ?_
  rw [← Multiset.coe_eq_coe, hinv.values, Multiset.sort_eq]

theorem Inv.size_eq (hinv : Inv p m f) : f.set.size = m.card := by
  rw [← hinv.values, Multiset.coe_card, SortedNodes.values, List.length_map]
  rfl

theorem Inv.getPercentileValue [Zero T] (hinv : Inv p m f) :
    f.getPercentileValue = some (percentileOf p m) := by
  rw [PercentileFilter.getPercentileValue, percentileOf]
  split
  · rename_i hzero
    rw [hinv.size_eq, Multiset.card_eq_zero] at hzero
    rw [hzero, Multiset.sort_zero]
    rfl
  · rename_i hne
    obtain ⟨i, hl, hi, hrank⟩ := hinv.located (Nat.pos_of_ne_zero hne)
    obtain ⟨x, hx, hget⟩ := hl.at_index.exists_deref hi
    rw [hinv.size_eq] at hrank
    rw [hinv.values_eq] at hget
    rw [hrank, Int.toNat_natCast, List.getD_eq_getElem?_getD, hget, hx]
    rfl

/-- **The percentile filter**, for every percentile and after any calls. That there is a state after
them says that no iterator was taken out of the set on the way. -/
theorem percentile_law [Zero T] (hp : 0 ≤ p ∧ p ≤ 1) (calls : List (Call T)) :
    ∃ f₀ f, construct p = some f₀ ∧ Calls.run step f₀ calls = some f ∧
      (f.set.values : Multiset T) = observations calls ∧
      (f.set.size ≠ 0 → ∃ i : ℕ, i < f.set.size ∧ f.percentileIndex = i ∧
        f.set.At f.percentileIt i) ∧
      f.getPercentileValue = some (percentileOf p (observations calls)) ∧
      ∀ v, ∃ f', f.erase v = some (f', decide (v ∈ observations calls)) ∧
        (f'.set.values : Multiset T) = (observations calls).erase v := by
  obtain ⟨f₀, f, hf₀, hf, hinv⟩ := exists_inv hp calls
  refine ⟨f₀, f, hf₀, hf, hinv.values, fun hne => ?_, hinv.getPercentileValue, fun v => ?_⟩
  · obtain ⟨i, hl, hi, -⟩ := hinv.located (Nat.pos_of_ne_zero hne)
    exact ⟨i, hi, hl.index_eq, hl.at_index⟩
  · obtain ⟨f', hf', hinv'⟩ := hinv.erase hp v
    exact ⟨f', hf', hinv'.values⟩

/-- The median of three observations, of which two are equal. -/
theorem percentile_law_three : ∃ f₀ f : PercentileFilter ℤ, construct (1 / 2) = some f₀ ∧
    Calls.run step f₀ [.insert 4, .insert 9, .insert 4, .erase 4, .insert 5] = some f ∧
    (f.set.values : Multiset ℤ) = {4, 5, 9} := by
  obtain ⟨f₀, f, hf₀, hf, hvalues, -⟩ := percentile_law (T := ℤ) (p := 1 / 2) (by norm_num)
    [.insert 4, .insert 9, .insert 4, .erase 4, .insert 5]
  exact ⟨f₀, f, hf₀, hf, by rw [hvalues]; decide⟩

end PercentileFilter

end TQLib
