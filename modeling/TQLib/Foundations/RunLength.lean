import Mathlib.Data.List.Sort
import Mathlib.Algebra.BigOperators.Group.List.Basic
import Mathlib.Algebra.GroupWithZero.Nat

/-!
# Runs of equal values

A list of values, each with how often it occurs: a histogram, when the values ascend. To find what
is at a place of the list it stands for, one goes through the runs and takes off their lengths.

## Main results

* `pick_eq` — that finds it
* `eq_of_count_expand` — runs that ascend are known by their counts
-/

namespace TQLib

namespace RunLength

variable {α : Type*}

/-- The list that some runs stand for. -/
def expand (runs : List (α × ℕ)) : List α := runs.flatMap fun r => List.replicate r.2 r.1

/-- Go through the runs to a place. -/
def pick : List (α × ℕ) → ℕ → Option α
  | [], _ => none
  | r :: runs, k => if k < r.2 then some r.1 else pick runs (k - r.2)

variable {runs runs' : List (α × ℕ)} {a : α} {k : ℕ}

@[simp] theorem expand_cons (r : α × ℕ) (runs : List (α × ℕ)) :
    expand (r :: runs) = List.replicate r.2 r.1 ++ expand runs := rfl

@[simp] theorem expand_append (runs runs' : List (α × ℕ)) :
    expand (runs ++ runs') = expand runs ++ expand runs' :=
  List.flatMap_append

theorem length_expand (runs : List (α × ℕ)) : (expand runs).length = (runs.map Prod.snd).sum := by
  rw [expand, List.length_flatMap]
  simp only [List.length_replicate]

theorem mem_expand (h : a ∈ expand runs) : ∃ r ∈ runs, r.1 = a := by
  obtain ⟨r, hr, ha⟩ := List.mem_flatMap.mp h
  exact ⟨r, hr, (List.eq_of_mem_replicate ha).symm⟩

/-- **The walk** over the runs. -/
theorem pick_eq (runs : List (α × ℕ)) (k : ℕ) : pick runs k = (expand runs)[k]? := by
  induction runs generalizing k with
  | nil => rfl
  | cons r runs ih =>
    rw [pick, expand_cons]
    split
    · rename_i hlt
      rw [List.getElem?_append_left (by rwa [List.length_replicate]),
        List.getElem?_replicate_of_lt hlt]
    · rename_i hge
      rw [ih, List.getElem?_append_right (by rw [List.length_replicate]; exact not_lt.mp hge),
        List.length_replicate]

theorem count_expand [DecidableEq α] (runs : List (α × ℕ)) (a : α) :
    (expand runs).count a = ((runs.filter fun r => r.1 = a).map Prod.snd).sum := by
  induction runs with
  | nil => rfl
  | cons r runs ih =>
    rw [expand_cons, List.count_append, ih, List.count_replicate, List.filter_cons]
    by_cases h : r.1 = a <;> simp [h]

section Order

variable [LinearOrder α]

/-- Where the values ascend, the list is in order. -/
theorem pairwise_expand (h : runs.Pairwise fun r r' => r.1 < r'.1) :
    (expand runs).Pairwise (· ≤ ·) := by
  induction runs with
  | nil => exact .nil
  | cons r runs ih =>
    obtain ⟨hr, hruns⟩ := List.pairwise_cons.mp h
    refine List.pairwise_append.mpr ⟨List.pairwise_replicate.mpr (.inr le_rfl), ih hruns, ?_⟩
    intro a ha b hb
    obtain ⟨r', hr', rfl⟩ := mem_expand hb
    rw [List.eq_of_mem_replicate ha]
    exact (hr r' hr').le

/-- Runs that ascend are known by their counts. -/
theorem eq_of_count_expand (h : runs.Pairwise fun r r' => r.1 < r'.1) {l : List α}
    (hl : l.Pairwise (· ≤ ·)) (hcount : ∀ a, (expand runs).count a = l.count a) :
    expand runs = l :=
  (List.perm_iff_count.mpr hcount).eq_of_pairwise' (r := (· ≤ ·)) (pairwise_expand h) hl

end Order

end RunLength

end TQLib
