import TQLib.Foundations.OrderedMap
import TQLib.Foundations.RunLength
import Mathlib.Algebra.BigOperators.Group.Multiset.Basic
import Mathlib.Algebra.Order.Floor.Ring
import Mathlib.Data.Multiset.Sort
import Mathlib.Data.Rat.Floor
import Mathlib.Data.UInt

/-!
# Percentiles from a histogram

`rtc::HistogramPercentileCounter` of `rtc_base/numerics/histogram_percentile_counter.cc`, where
`size_t` has 64 bits. How often a value has been added is in a `std::vector` for the values below
`long_tail_boundary`, and in a `std::map` for the others.

The values are `uint32_t`, with which nothing is computed. The counts and their totals are sums in
`size_t`. The rank of a percentile is a product of `float`s in the source; it is taken exactly here.

Both containers are read as runs of equal values. The samples are the list that these stand for, and
a percentile is what is at some place of it.

## Main results

* `HistogramPercentileCounter.count_addCount` — what is counted
* `HistogramPercentileCounter.getPercentile_eq` — what is found
* `HistogramPercentileCounter.getPercentile_law` — the order statistic, after any calls
-/

namespace TQLib

/-- The sum of the values of a map. -/
def totalHigh (m : OrderedMap ℕ UInt64) : UInt64 := (m.entries.map Prod.snd).sum

open scoped UInt64.CommRing in
theorem sum_set {l : List UInt64} {i : ℕ} (h : i < l.length) (n : UInt64) :
    (l.set i (l.getD i 0 + n)).sum = l.sum + n := by
  induction l generalizing i with
  | nil => cases h
  | cons x l ih =>
    cases i with
    | zero => simp [add_right_comm]
    | succ i =>
      rw [List.set_cons_succ, List.sum_cons, List.sum_cons, List.getD_cons_succ,
        ih (Nat.lt_of_succ_lt_succ h), add_assoc]

open scoped UInt64.CommRing in
theorem totalHigh_insert (m : OrderedMap ℕ UInt64) (k : ℕ) (n : UInt64) :
    totalHigh (m.insert k ((m.find? k).getD 0 + n)) = totalHigh m + n := by
  have hsum : ∀ {m : OrderedMap ℕ UInt64}, totalHigh m = (m.toMultiset.map Prod.snd).sum := rfl
  cases hk : m.find? k with
  | none =>
    rw [hsum, hsum, m.insert_toMultiset _ hk, Multiset.map_cons, Multiset.sum_cons]
    simp [add_comm]
  | some a =>
    obtain ⟨rest, hm, hinsert⟩ := m.insert_toMultiset_of_find? (a + n) hk
    rw [hsum, hsum, Option.getD_some, hm, hinsert, Multiset.map_cons, Multiset.sum_cons,
      Multiset.map_cons, Multiset.sum_cons]
    exact add_right_comm ..

/-- The class. That the totals are those of the containers, and where a value belongs, is part of
it. -/
structure HistogramPercentileCounter where
  /-- `histogram_low_`. -/
  histogramLow : List UInt64
  /-- `histogram_high_`. -/
  histogramHigh : OrderedMap ℕ UInt64
  /-- `long_tail_boundary_`. -/
  longTailBoundary : ℕ
  /-- `total_elements_`. -/
  totalElements : UInt64
  /-- `total_elements_low_`. -/
  totalElementsLow : UInt64
  /-- The vector has the size it was made with. -/
  length_low : histogramLow.length = longTailBoundary
  /-- The values in the map are those from the boundary. -/
  boundary_le : ∀ e ∈ histogramHigh.entries, longTailBoundary ≤ e.1
  /-- The total of the vector. -/
  low_eq : totalElementsLow = histogramLow.sum
  /-- The total of both. -/
  total_eq : totalElements = histogramLow.sum + totalHigh histogramHigh

namespace HistogramPercentileCounter

/-- The constructor. -/
def construct (longTailBoundary : ℕ) : HistogramPercentileCounter where
  histogramLow := List.replicate longTailBoundary 0
  histogramHigh := .empty
  longTailBoundary
  totalElements := 0
  totalElementsLow := 0
  length_low := List.length_replicate
  boundary_le _ he := by cases he
  low_eq := by simp
  total_eq := by simp [totalHigh, OrderedMap.empty]

variable (c : HistogramPercentileCounter)

/-- `Add` of a value that has occurred `count` times. -/
def addCount (value : ℕ) (count : UInt64) : HistogramPercentileCounter :=
  if h : value < c.longTailBoundary then
    { c with
      histogramLow := c.histogramLow.set value (c.histogramLow.getD value 0 + count)
      totalElementsLow := c.totalElementsLow + count
      totalElements := c.totalElements + count
      length_low := by rw [List.length_set, c.length_low]
      low_eq := by rw [sum_set (by rwa [c.length_low]), c.low_eq]
      total_eq := by rw [sum_set (by rwa [c.length_low]), c.total_eq, UInt64.add_assoc,
        UInt64.add_comm (totalHigh _), ← UInt64.add_assoc] }
  else
    { c with
      histogramHigh := c.histogramHigh.insert value ((c.histogramHigh.find? value).getD 0 + count)
      totalElements := c.totalElements + count
      boundary_le := fun e he => by
        rcases mem_insertEntry he with rfl | he
        · exact not_lt.mp h
        · exact c.boundary_le e he
      total_eq := by rw [totalHigh_insert, c.total_eq, UInt64.add_assoc] }

/-- `Add` of a value. -/
def add (value : ℕ) : HistogramPercentileCounter := c.addCount value 1

/-- The values below the boundary, with their counts, as the loops go through them. -/
def lowEntries : List (ℕ × UInt64) :=
  (List.range c.longTailBoundary).map fun value => (value, c.histogramLow.getD value 0)

/-- `Add` of another counter. The second loop is over the map that it changes: each entry is read
before its own count changes, and none is added. -/
def addOther (other : HistogramPercentileCounter) : HistogramPercentileCounter :=
  let c := other.lowEntries.foldl (fun c e => c.addCount e.1 e.2) c
  c.histogramHigh.entries.foldl (fun c e => c.addCount e.1 e.2) c

/-- The loops of `GetPercentile`. -/
def walk : List (ℕ × UInt64) → UInt64 → Option ℕ
  | [], _ => none
  | (value, count) :: entries, elementsToSkip =>
    if elementsToSkip < count then some value else walk entries (elementsToSkip - count)

/-- What ends the program. -/
inductive Failure
  /-- An `RTC_CHECK`. -/
  | check
  /-- `RTC_DCHECK_NOTREACHED`. -/
  | notReached

/-- `elements_to_skip`. -/
def elementsToSkip (total : UInt64) (fraction : ℚ) : UInt64 :=
  let skip := UInt64.ofNat (max 0 (⌈total.toNat * fraction⌉ - 1)).toNat
  if total ≤ skip then total - 1 else skip

/-- `GetPercentile`. -/
def getPercentile (fraction : ℚ) : Except Failure (Option ℕ) :=
  if ¬ fraction ≤ 1 then .error .check
  else if ¬ 0 ≤ fraction then .error .check
  else if c.totalElements = 0 then .ok none
  else
    let skip := elementsToSkip c.totalElements fraction
    let found :=
      if skip < c.totalElementsLow then walk c.lowEntries skip
      else walk c.histogramHigh.entries (skip - c.totalElementsLow)
    match found with
    | some value => .ok (some value)
    | none => .error .notReached

/-! ## Counts -/

/-- How often a value has been added. -/
def count (v : ℕ) : UInt64 :=
  if v < c.longTailBoundary then c.histogramLow.getD v 0 else (c.histogramHigh.find? v).getD 0

@[simp] theorem count_construct (b v : ℕ) : (construct b).count v = 0 := by
  rw [count, construct]
  split
  · rename_i hlt
    simp [List.getD_eq_getElem?_getD, List.getElem?_replicate_of_lt hlt]
  · rfl

@[simp] theorem longTailBoundary_addCount (v : ℕ) (n : UInt64) :
    (c.addCount v n).longTailBoundary = c.longTailBoundary := by
  rw [addCount]
  split <;> rfl

/-- **`Add`** counts. -/
theorem count_addCount (v : ℕ) (n : UInt64) (w : ℕ) :
    (c.addCount v n).count w = c.count w + if w = v then n else 0 := by
  rw [addCount]
  split
  · rename_i hlt
    have hlen : v < c.histogramLow.length := by rwa [c.length_low]
    change (if w < c.longTailBoundary then (c.histogramLow.set v _).getD w 0 else _) = _
    rw [count]
    by_cases hw : w = v
    · subst hw
      rw [if_pos hlt, if_pos hlt, if_pos rfl, List.getD_eq_getElem?_getD,
        List.getElem?_set_self hlen, Option.getD_some]
    · rw [if_neg hw, UInt64.add_zero, List.getD_eq_getElem?_getD, List.getElem?_set_ne (Ne.symm hw),
        ← List.getD_eq_getElem?_getD]
  · rename_i hge
    change (if w < c.longTailBoundary then _ else ((c.histogramHigh.insert v _).find? w).getD 0) = _
    rw [count, OrderedMap.find?_insert]
    by_cases hw : w = v
    · subst hw
      rw [if_neg hge, if_neg hge, if_pos rfl, if_pos rfl, Option.getD_some]
    · rw [if_neg hw, if_neg hw, UInt64.add_zero]

/-! ## Samples -/

/-- The runs that the loops go through. -/
def runs (entries : List (ℕ × UInt64)) : List (ℕ × ℕ) := entries.map fun e => (e.1, e.2.toNat)

/-- The samples below the boundary. -/
def lowSamples : List ℕ := RunLength.expand (runs c.lowEntries)

/-- The other samples. -/
def highSamples : List ℕ := RunLength.expand (runs c.histogramHigh.entries)

/-- The samples, in order. -/
def samples : List ℕ := RunLength.expand (runs (c.lowEntries ++ c.histogramHigh.entries))

theorem samples_eq : c.samples = c.lowSamples ++ c.highSamples := by
  rw [samples, runs, List.map_append, RunLength.expand_append]
  rfl

theorem pairwise_entries :
    (c.lowEntries ++ c.histogramHigh.entries).Pairwise fun e e' => e.1 < e'.1 := by
  refine List.pairwise_append.mpr ⟨List.pairwise_map.mpr List.pairwise_lt_range,
    c.histogramHigh.sorted, fun e he e' he' => ?_⟩
  obtain ⟨v, hv, rfl⟩ := List.mem_map.mp he
  exact (List.mem_range.mp hv).trans_le (c.boundary_le e' he')

theorem filter_lowEntries (v : ℕ) : c.lowEntries.filter (fun e => e.1 = v) =
    if v < c.longTailBoundary then [(v, c.histogramLow.getD v 0)] else [] := by
  rw [lowEntries, List.filter_map]
  have hfilter : ∀ n, (List.range n).filter (fun w => w = v) = if v < n then [v] else [] := by
    intro n
    induction n with
    | zero => rfl
    | succ n ih =>
      rw [List.range_succ, List.filter_append, ih]
      by_cases hn : n = v
      · simp [hn]
      · by_cases hv : v < n
        · simp [hn, hv, Nat.lt_succ_of_lt hv]
        · have hv' : ¬ v < n + 1 := by omega
          simp [hn, hv, hv']
  have hcomp : (fun e : ℕ × UInt64 => decide (e.1 = v)) ∘
      (fun value => (value, c.histogramLow.getD value 0)) = fun w => decide (w = v) := rfl
  rw [hcomp, hfilter]
  split <;> rfl

theorem count_expand_runs (entries : List (ℕ × UInt64)) (v : ℕ) :
    (RunLength.expand (runs entries)).count v =
      ((entries.filter fun e => e.1 = v).map fun e => e.2.toNat).sum := by
  rw [RunLength.count_expand, runs, List.filter_map, List.map_map]
  rfl

/-- The samples are what has been counted. -/
theorem count_samples (v : ℕ) : c.samples.count v = (c.count v).toNat := by
  rw [samples, count_expand_runs, List.filter_append, filter_lowEntries,
    filter_entryAt? c.histogramHigh.sorted, count]
  by_cases hv : v < c.longTailBoundary
  · have hnone : entryAt? v c.histogramHigh.entries = none := by
      refine entryAt?_eq_none.mpr fun e he heq => ?_
      exact absurd (c.boundary_le e he) (by omega)
    simp [hv, hnone]
  · rw [if_neg hv, if_neg hv, OrderedMap.find?]
    cases entryAt? v c.histogramHigh.entries <;> simp

theorem ofNat_sum (l : List UInt64) : UInt64.ofNat (l.map UInt64.toNat).sum = l.sum := by
  induction l with
  | nil => rfl
  | cons x l ih =>
    rw [List.map_cons, List.sum_cons, List.sum_cons, UInt64.ofNat_add, ih, UInt64.ofNat_toNat]

theorem ofNat_length_expand (entries : List (ℕ × UInt64)) :
    UInt64.ofNat (RunLength.expand (runs entries)).length = (entries.map Prod.snd).sum := by
  rw [RunLength.length_expand, ← ofNat_sum, runs, List.map_map, List.map_map]
  rfl

theorem map_lowEntries : c.lowEntries.map Prod.snd = c.histogramLow := by
  rw [lowEntries, List.map_map]
  refine List.ext_getElem ?_ fun i hi hi' => ?_
  · rw [List.length_map, List.length_range, c.length_low]
  · rw [List.getElem_map, List.getElem_range, Function.comp_apply, List.getD_eq_getElem?_getD,
      List.getElem?_eq_getElem hi', Option.getD_some]

/-- `total_elements_low_` is the number of samples below the boundary, as far as it goes. -/
theorem ofNat_lowSamples : UInt64.ofNat c.lowSamples.length = c.totalElementsLow := by
  rw [lowSamples, ofNat_length_expand, map_lowEntries, c.low_eq]

/-- `total_elements_` is the number of samples, as far as it goes. -/
theorem ofNat_samples : UInt64.ofNat c.samples.length = c.totalElements := by
  rw [samples_eq, List.length_append, UInt64.ofNat_add, ofNat_lowSamples, highSamples,
    ofNat_length_expand, c.total_eq, c.low_eq, totalHigh]

theorem pairwise_samples : c.samples.Pairwise (· ≤ ·) :=
  RunLength.pairwise_expand (List.pairwise_map.mpr c.pairwise_entries)

/-! ## Percentiles -/

/-- A loop finds what is at a place. -/
theorem walk_eq (entries : List (ℕ × UInt64)) (skip : UInt64) :
    walk entries skip = (RunLength.expand (runs entries))[skip.toNat]? := by
  rw [← RunLength.pick_eq]
  induction entries generalizing skip with
  | nil => rfl
  | cons e entries ih =>
    change (if skip < e.2 then some e.1 else walk entries (skip - e.2)) =
      if skip.toNat < e.2.toNat then some e.1 else RunLength.pick (runs entries)
        (skip.toNat - e.2.toNat)
    by_cases hlt : skip < e.2
    · rw [if_pos hlt, if_pos (UInt64.lt_iff_toNat_lt.mp hlt)]
    · rw [if_neg hlt, if_neg (mt UInt64.lt_iff_toNat_lt.mpr hlt), ih,
        UInt64.toNat_sub_of_le _ _ (UInt64.not_lt.mp hlt)]

/-- The place of a percentile among `n` samples in order. -/
def rank (fraction : ℚ) (n : ℕ) : ℕ := (max 1 ⌈n * fraction⌉).toNat - 1

variable {c} {fraction : ℚ}

theorem rank_lt (h : fraction ≤ 1) {n : ℕ} (hn : 0 < n) : rank fraction n < n := by
  have hceil : ⌈n * fraction⌉ ≤ n := by
    rw [Int.ceil_le]
    exact_mod_cast mul_le_of_le_one_right (Nat.cast_nonneg n) h
  rw [rank]
  omega

theorem toNat_elementsToSkip (h : fraction ≤ 1) {total : UInt64} (ht : total ≠ 0) :
    (elementsToSkip total fraction).toNat = rank fraction total.toNat := by
  have hpos : 0 < total.toNat := by
    rw [Nat.pos_iff_ne_zero]
    exact fun hzero => ht (UInt64.toNat_inj.mp hzero)
  have hlt := rank_lt h hpos
  have hsize := total.toNat_lt
  have hskip : (max 0 (⌈total.toNat * fraction⌉ - 1)).toNat = rank fraction total.toNat := by
    rw [rank]
    omega
  have htoNat : (UInt64.ofNat (rank fraction total.toNat)).toNat = rank fraction total.toNat :=
    UInt64.toNat_ofNat_of_lt' (hlt.trans hsize)
  rw [elementsToSkip, hskip]
  have hle : ¬ total ≤ UInt64.ofNat (rank fraction total.toNat) := by
    rw [UInt64.le_iff_toNat_le, htoNat]
    exact not_le.mpr hlt
  exact (congrArg UInt64.toNat (if_neg hle)).trans htoNat

/-- The two loops together, over all samples. -/
theorem walk_samples (h : c.totalElementsLow.toNat = c.lowSamples.length) (skip : UInt64) :
    (if skip < c.totalElementsLow then walk c.lowEntries skip
      else walk c.histogramHigh.entries (skip - c.totalElementsLow)) =
      c.samples[skip.toNat]? := by
  rw [samples_eq, List.getElem?_append, ← h]
  by_cases hlt : skip < c.totalElementsLow
  · rw [if_pos hlt, if_pos (UInt64.lt_iff_toNat_lt.mp hlt), walk_eq]
    rfl
  · rw [if_neg hlt, if_neg (mt UInt64.lt_iff_toNat_lt.mpr hlt), walk_eq,
      UInt64.toNat_sub_of_le _ _ (UInt64.not_lt.mp hlt)]
    rfl

/-- **`GetPercentile`** finds what is at the place of the percentile, unless the totals have
overflown. -/
theorem getPercentile_eq (hf : 0 ≤ fraction ∧ fraction ≤ 1) (hlt : c.samples.length < 2 ^ 64) :
    c.getPercentile fraction = .ok c.samples[rank fraction c.samples.length]? := by
  have htotal : c.totalElements.toNat = c.samples.length := by
    rw [← ofNat_samples, UInt64.toNat_ofNat_of_lt' hlt]
  have hlen : c.samples.length = c.lowSamples.length + c.highSamples.length := by
    rw [samples_eq, List.length_append]
  have hlow : c.totalElementsLow.toNat = c.lowSamples.length := by
    rw [← ofNat_lowSamples, UInt64.toNat_ofNat_of_lt' (lt_of_le_of_lt (by omega) hlt)]
  rw [getPercentile, if_neg (not_not.mpr hf.2), if_neg (not_not.mpr hf.1)]
  split
  · rename_i hzero
    rw [hzero] at htotal
    rw [List.eq_nil_of_length_eq_zero htotal.symm]
    rfl
  · rename_i hne
    have hskip := toNat_elementsToSkip hf.2 hne
    rw [htotal] at hskip
    have hrank : rank fraction c.samples.length < c.samples.length := by
      refine rank_lt hf.2 (Nat.pos_of_ne_zero fun hzero => hne ?_)
      rw [← ofNat_samples, hzero]
      rfl
    have hfound := walk_samples hlow (elementsToSkip c.totalElements fraction)
    rw [hskip, List.getElem?_eq_getElem hrank] at hfound
    simp only [hfound, List.getElem?_eq_getElem hrank]

/-! ## Calls -/

/-- A call that adds samples. -/
inductive Call
  /-- `Add` of a value. -/
  | add (value : ℕ)
  /-- `Add` of a value with a count. -/
  | addCount (value : ℕ) (count : UInt64)

/-- What a call does. -/
def step (c : HistogramPercentileCounter) : Call → HistogramPercentileCounter
  | .add v => c.add v
  | .addCount v n => c.addCount v n

/-- The samples that a call adds. -/
def Call.samples : Call → List ℕ
  | add v => [v]
  | addCount v n => List.replicate n.toNat v

/-- The samples that have been added. -/
def added (calls : List Call) : List ℕ := calls.flatMap Call.samples

theorem count_step (c : HistogramPercentileCounter) (call : Call) (v : ℕ) :
    (step c call).count v = c.count v + .ofNat (call.samples.count v) := by
  cases call with
  | add w =>
    rw [step, add, count_addCount, Call.samples, List.count_singleton]
    by_cases h : v = w
    · simp [h]
    · simp [h, Ne.symm h]
  | addCount w n =>
    rw [step, count_addCount, Call.samples, List.count_replicate]
    by_cases h : v = w
    · simp [h]
    · simp [h, Ne.symm h]

theorem count_foldl_step (calls : List Call) (c : HistogramPercentileCounter) (v : ℕ) :
    (calls.foldl step c).count v = c.count v + .ofNat ((added calls).count v) := by
  induction calls generalizing c with
  | nil => simp [added]
  | cons call calls ih =>
    have hadded : added (call :: calls) = call.samples ++ added calls := rfl
    rw [List.foldl_cons, ih, count_step, hadded, List.count_append, UInt64.ofNat_add,
      UInt64.add_assoc]

/-- The counter has the samples that have been added, as far as they can be counted. -/
theorem samples_foldl (b : ℕ) {calls : List Call} (hlt : (added calls).length < 2 ^ 64) :
    (calls.foldl step (construct b)).samples = (added calls : Multiset ℕ).sort (· ≤ ·) := by
  refine RunLength.eq_of_count_expand (List.pairwise_map.mpr (pairwise_entries _))
    (Multiset.pairwise_sort ..) fun v => ?_
  have hle : (added calls).count v ≤ (added calls).length := List.count_le_length
  have hsort := congrArg (Multiset.count v) (Multiset.sort_eq (added calls : Multiset ℕ) (· ≤ ·))
  rw [Multiset.coe_count, Multiset.coe_count] at hsort
  rw [hsort]
  refine (count_samples _ v).trans ?_
  rw [count_foldl_step, count_construct, UInt64.zero_add,
    UInt64.toNat_ofNat_of_lt' (hle.trans_lt hlt)]

/-- **The percentile of a histogram** is the order statistic, for every boundary and after any calls
that add fewer than `2 ^ 64` samples. -/
theorem getPercentile_law (b : ℕ) (calls : List Call) (hlt : (added calls).length < 2 ^ 64)
    (hf : 0 ≤ fraction ∧ fraction ≤ 1) :
    (added calls = [] → (calls.foldl step (construct b)).getPercentile fraction = .ok none) ∧
    (added calls ≠ [] → ∃ v,
      ((added calls : Multiset ℕ).sort (· ≤ ·))[
        (max 1 ⌈(added calls).length * fraction⌉).toNat - 1]? = some v ∧
      (calls.foldl step (construct b)).getPercentile fraction = .ok (some v)) := by
  have hsamples := samples_foldl b hlt
  have hlen : (calls.foldl step (construct b)).samples.length = (added calls).length := by
    rw [hsamples, Multiset.length_sort, Multiset.coe_card]
  have hget := getPercentile_eq hf (hlen.trans_lt hlt)
  rw [hlen] at hget
  constructor
  · intro hnil
    rw [hget, List.getElem?_eq_none]
    rw [hlen, hnil]
    exact Nat.zero_le _
  · intro hne
    have hrank : rank fraction (added calls).length <
        (calls.foldl step (construct b)).samples.length := by
      rw [hlen]
      exact rank_lt hf.2 (List.length_pos_iff.mpr hne)
    have hsome := List.getElem?_eq_getElem hrank
    exact ⟨_, by rw [← hsamples]; exact hsome, by rw [hget, hsome]⟩

/-- Four samples on both sides of the boundary, and the third of them. -/
theorem getPercentile_law_four : ∃ v,
    ([Call.add 9, .addCount 2 2, .add 7].foldl step (construct 5)).getPercentile (3 / 4) =
      .ok (some v) := by
  have hf : 0 ≤ (3 / 4 : ℚ) ∧ (3 / 4 : ℚ) ≤ 1 := by norm_num
  obtain ⟨v, -, hv⟩ := (getPercentile_law 5 [.add 9, .addCount 2 2, .add 7] (by decide) hf).2
    (by decide)
  exact ⟨v, hv⟩

/-- Where there are `2 ^ 64` samples, nothing is found. -/
theorem not_percentile_of_overflow : ¬ ∀ (b : ℕ) (calls : List Call) (fraction : ℚ),
    0 ≤ fraction ∧ fraction ≤ 1 → added calls ≠ [] →
    ∃ v, (calls.foldl step (construct b)).getPercentile fraction = .ok (some v) := by
  intro h
  have hmem : 2 ∈ added [.addCount 1 18446744073709551615, .add 2] :=
    List.mem_flatMap.mpr ⟨.add 2, by simp, List.mem_singleton_self 2⟩
  obtain ⟨v, hv⟩ := h 0 [.addCount 1 18446744073709551615, .add 2] 1 (by norm_num)
    (List.ne_nil_of_mem hmem)
  have hzero : ([Call.addCount 1 18446744073709551615, .add 2].foldl step
      (construct 0)).totalElements = 0 := rfl
  rw [getPercentile, if_neg (by norm_num), if_neg (by norm_num), if_pos hzero] at hv
  cases hv

end HistogramPercentileCounter

end TQLib
