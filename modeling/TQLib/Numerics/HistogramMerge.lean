import TQLib.Numerics.HistogramPercentileCounter

/-!
# Adding one histogram to another

`HistogramPercentileCounter::Add` of another counter. It is to have the effect of adding all samples
of the other. Its second loop goes through the map of the counter itself, not through that of the
other: what the other has above its boundary is lost, and what the counter has above its own, what
the first loop has put there included, is counted twice.

## Main results

* `HistogramPercentileCounter.same_iff` — counters that have counted the same
* `HistogramPercentileCounter.Same.getPercentile` — they have the same percentiles
* `HistogramPercentileCounter.addOther_iff` — when the samples are those of both
-/

namespace TQLib

namespace HistogramPercentileCounter

variable {a b c d : HistogramPercentileCounter}

/-- Two counters with the same boundary, the same totals and the same histograms. A value that is in
the map with a count of zero is not in the histogram. -/
structure Same (c d : HistogramPercentileCounter) : Prop where
  /-- `long_tail_boundary_`. -/
  longTailBoundary : c.longTailBoundary = d.longTailBoundary
  /-- `total_elements_`. -/
  totalElements : c.totalElements = d.totalElements
  /-- `total_elements_low_`. -/
  totalElementsLow : c.totalElementsLow = d.totalElementsLow
  /-- `histogram_low_`. -/
  histogramLow : c.histogramLow = d.histogramLow
  /-- `histogram_high_`. -/
  histogramHigh : ∀ v, (c.histogramHigh.find? v).getD 0 = (d.histogramHigh.find? v).getD 0

theorem count_of_lt {v : ℕ} (h : v < c.longTailBoundary) : c.count v = c.histogramLow.getD v 0 :=
  if_pos h

theorem count_of_ge {v : ℕ} (h : c.longTailBoundary ≤ v) :
    c.count v = (c.histogramHigh.find? v).getD 0 :=
  if_neg (not_lt.mpr h)

theorem find?_high_of_lt {v : ℕ} (h : v < c.longTailBoundary) : c.histogramHigh.find? v = none :=
  entryAt?_eq_none.mpr fun e he heq => absurd (c.boundary_le e he) (by omega)

theorem samples_eq_of_count (h : ∀ v, c.count v = d.count v) : c.samples = d.samples := by
  refine RunLength.eq_of_count_expand (List.pairwise_map.mpr c.pairwise_entries)
    d.pairwise_samples fun v => ?_
  rw [d.count_samples, ← h]
  exact c.count_samples v

/-- **Counters that have counted the same** are the same. -/
theorem same_iff (hb : c.longTailBoundary = d.longTailBoundary) :
    Same c d ↔ ∀ v, c.count v = d.count v := by
  constructor
  · intro h v
    rw [count, count, h.longTailBoundary, h.histogramLow, h.histogramHigh]
  · intro h
    have hlow : c.histogramLow = d.histogramLow := by
      refine List.ext_getElem (by rw [c.length_low, d.length_low, hb]) fun i hi hi' => ?_
      have hcount := h i
      rw [count_of_lt (by rwa [← c.length_low]), count_of_lt (by rwa [← d.length_low]),
        List.getD_eq_getElem?_getD, List.getD_eq_getElem?_getD, List.getElem?_eq_getElem hi,
        List.getElem?_eq_getElem hi'] at hcount
      exact hcount
    refine ⟨hb, ?_, by rw [c.low_eq, d.low_eq, hlow], hlow, fun v => ?_⟩
    · rw [← c.ofNat_samples, ← d.ofNat_samples, samples_eq_of_count h]
    · by_cases hv : v < c.longTailBoundary
      · rw [find?_high_of_lt hv, find?_high_of_lt (hb ▸ hv)]
      · have hcount := h v
        rwa [count_of_ge (not_lt.mp hv), count_of_ge (hb ▸ not_lt.mp hv)] at hcount

/-- Counters that are the same have the same percentiles. -/
theorem Same.getPercentile (h : Same c d) (fraction : ℚ) :
    c.getPercentile fraction = d.getPercentile fraction := by
  have hentries : c.lowEntries = d.lowEntries := by
    rw [lowEntries, lowEntries, h.longTailBoundary, h.histogramLow]
  have hlow : c.lowSamples = d.lowSamples := by rw [lowSamples, lowSamples, hentries]
  have hsamples := samples_eq_of_count ((same_iff h.longTailBoundary).mp h)
  rw [samples_eq, samples_eq, hlow] at hsamples
  have hhigh : ∀ skip, walk c.histogramHigh.entries skip = walk d.histogramHigh.entries skip := by
    intro skip
    rw [walk_eq, walk_eq]
    exact congrArg (·[skip.toNat]?) (List.append_cancel_left hsamples)
  simp only [HistogramPercentileCounter.getPercentile, h.totalElements, h.totalElementsLow,
    hentries, hhigh]

/-! ## Loops -/

@[simp] theorem longTailBoundary_foldl (entries : List (ℕ × UInt64)) :
    (entries.foldl (fun c e => c.addCount e.1 e.2) c).longTailBoundary = c.longTailBoundary := by
  induction entries generalizing c with
  | nil => rfl
  | cons e entries ih => rw [List.foldl_cons, ih, longTailBoundary_addCount]

/-- A loop adds the counts of what it goes through. -/
theorem count_foldl (entries : List (ℕ × UInt64)) (v : ℕ) :
    (entries.foldl (fun c e => c.addCount e.1 e.2) c).count v =
      c.count v + ((entries.filter fun e => e.1 = v).map Prod.snd).sum := by
  induction entries generalizing c with
  | nil => simp
  | cons e entries ih =>
    rw [List.foldl_cons, ih, count_addCount, List.filter_cons]
    by_cases h : e.1 = v
    · simp [h, UInt64.add_assoc]
    · simp [h, Ne.symm h]

/-- The first loop of `Add` adds what the other counter has below its boundary. -/
theorem count_foldl_low (v : ℕ) :
    (b.lowEntries.foldl (fun c e => c.addCount e.1 e.2) a).count v =
      a.count v + if v < b.longTailBoundary then b.count v else 0 := by
  rw [count_foldl, filter_lowEntries]
  split
  · rename_i hlt
    rw [count_of_lt hlt]
    simp
  · simp

/-- The second loop of `Add` doubles what the counter has from its boundary. -/
theorem count_foldl_high (v : ℕ) :
    (c.histogramHigh.entries.foldl (fun c e => c.addCount e.1 e.2) c).count v =
      c.count v + if v < c.longTailBoundary then 0 else c.count v := by
  rw [count_foldl, filter_entryAt? c.histogramHigh.sorted]
  congr 1
  change (((c.histogramHigh.find? v).toList.map _).map _).sum = _
  split
  · rename_i hlt
    rw [find?_high_of_lt hlt]
    rfl
  · rename_i hge
    rw [count_of_ge (not_lt.mp hge)]
    cases c.histogramHigh.find? v <;> simp

/-- What `Add` makes of the counts. -/
theorem count_addOther (v : ℕ) : (a.addOther b).count v =
    (a.count v + if v < b.longTailBoundary then b.count v else 0) +
      if v < a.longTailBoundary then 0
      else a.count v + if v < b.longTailBoundary then b.count v else 0 := by
  rw [addOther, count_foldl_high, longTailBoundary_foldl, count_foldl_low]

/-- What adding the samples one by one makes of them. -/
theorem count_foldl_add (l : List ℕ) (v : ℕ) :
    (l.foldl add c).count v = c.count v + .ofNat (l.count v) := by
  induction l generalizing c with
  | nil => simp
  | cons w l ih =>
    rw [List.foldl_cons, ih, add, count_addCount, List.count_cons]
    by_cases h : w = v
    · simp [h, UInt64.ofNat_add, UInt64.add_assoc, UInt64.add_comm 1]
    · simp [h, Ne.symm h]

@[simp] theorem longTailBoundary_foldl_add (l : List ℕ) :
    (l.foldl add c).longTailBoundary = c.longTailBoundary := by
  induction l generalizing c with
  | nil => rfl
  | cons w l ih => rw [List.foldl_cons, ih, add, longTailBoundary_addCount]

/-! ## The merge -/

/-- When `Add` counts a value as often as it occurs in both. -/
theorem count_addOther_iff (a b : HistogramPercentileCounter) (v : ℕ) :
    (a.addOther b).count v = (b.samples.foldl add a).count v ↔
      (v < a.longTailBoundary → b.longTailBoundary ≤ v → b.count v = 0) ∧
      (a.longTailBoundary ≤ v → v < b.longTailBoundary → a.count v + b.count v = 0) ∧
      (a.longTailBoundary ≤ v → b.longTailBoundary ≤ v → a.count v = b.count v) := by
  rw [count_addOther, count_foldl_add, count_samples, UInt64.ofNat_toNat]
  by_cases ha : v < a.longTailBoundary <;> by_cases hb : v < b.longTailBoundary
  · simp [ha, hb, not_le.mpr ha, not_le.mpr hb]
  · simp [ha, hb, not_le.mpr ha, not_lt.mp hb, eq_comm]
  · simp [ha, hb, not_lt.mp ha, not_le.mpr hb]
  · simp [ha, hb, not_lt.mp ha, not_lt.mp hb]

/-- **`Add` of another counter** has the effect of adding its samples one by one if and only if the
other has no value between the boundaries where its own is the lower one, neither has one there
where it is not, and both have the values above both boundaries equally often. -/
theorem addOther_iff (a b : HistogramPercentileCounter) :
    Same (a.addOther b) (b.samples.foldl add a) ↔ ∀ v,
      (v < a.longTailBoundary → b.longTailBoundary ≤ v → b.count v = 0) ∧
      (a.longTailBoundary ≤ v → v < b.longTailBoundary → a.count v + b.count v = 0) ∧
      (a.longTailBoundary ≤ v → b.longTailBoundary ≤ v → a.count v = b.count v) := by
  rw [same_iff (by simp [addOther])]
  exact forall_congr' (count_addOther_iff a b)

/-- A sample above the boundary is lost, and its percentiles with it. -/
theorem not_same_of_high : ¬ ∀ a b : HistogramPercentileCounter,
    Same (a.addOther b) (b.samples.foldl add a) := by
  intro h
  have hsame := (same_iff (by simp [addOther])).mp (h (construct 10) ((construct 10).add 15)) 15
  have hcount := ((count_addOther_iff _ _ 15).mp hsame).2.2 (by decide) (by decide)
  exact absurd hcount (by decide)

end HistogramPercentileCounter

end TQLib
