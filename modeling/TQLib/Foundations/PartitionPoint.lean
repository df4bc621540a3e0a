import Mathlib.Data.List.Basic
import Mathlib.Data.Nat.Basic
import Mathlib.Order.MinMax

/-!
# Partition points

A list is partitioned by a predicate when what has it comes after what has it not. The first place
that has it, `List.findIdx`, then says everything about the predicate, and bisection finds it.

## Main results

* `Partitioned.findIdx_le_iff` — what has the predicate is what is not before the first that has it
* `Partitioned.bisect_eq_findIdx` — bisection
-/

namespace TQLib

variable {α : Type*} {p : α → Bool} {l : List α}

/-- What has the predicate comes after what has it not. -/
def Partitioned (p : α → Bool) (l : List α) : Prop := l.Pairwise fun a b => p a = true → p b = true

theorem insertIdx_eq {k : ℕ} (hk : k ≤ l.length) (a : α) :
    l.insertIdx k a = l.take k ++ a :: l.drop k := by
  induction l generalizing k with
  | nil =>
    obtain rfl := Nat.le_zero.mp hk
    rfl
  | cons b l ih =>
    cases k with
    | zero => rfl
    | succ k =>
      rw [List.insertIdx_succ_cons, ih (Nat.le_of_succ_le_succ hk)]
      rfl

/-- Where it is related to what comes before and after, one more keeps a list in order. -/
theorem pairwise_insertIdx {R : α → α → Prop} (h : l.Pairwise R) {k : ℕ} (hk : k ≤ l.length) {a : α}
    (hbefore : ∀ b ∈ l.take k, R b a) (hafter : ∀ b ∈ l.drop k, R a b) :
    (l.insertIdx k a).Pairwise R := by
  rw [← List.take_append_drop k l] at h
  obtain ⟨htake, hdrop, hcross⟩ := List.pairwise_append.mp h
  rw [insertIdx_eq hk]
  refine List.pairwise_append.mpr ⟨htake, List.pairwise_cons.mpr ⟨hafter, hdrop⟩, ?_⟩
  intro b hb c hc
  rcases List.mem_cons.mp hc with rfl | hc
  · exact hbefore b hb
  · exact hcross b hb c hc

/-- Look for the first of `len` places, from `first` on, that has the predicate. -/
def bisect (p : α → Bool) (l : List α) (first len : ℕ) : ℕ :=
  if h : len = 0 then first
  else
    let half := len / 2
    if (l[first + half]?).all p then bisect p l first half
    else bisect p l (first + half + 1) (len - half - 1)
termination_by len

/-- What comes after the places is not looked at. -/
theorem bisect_append (p : α → Bool) (l l' : List α) (first len : ℕ)
    (hlen : first + len ≤ l.length) : bisect p (l ++ l') first len = bisect p l first len := by
  induction len using Nat.strongRecOn generalizing first with
  | ind len ih =>
    rw [bisect, bisect]
    split
    · rfl
    · rename_i hpos
      have hmid : first + len / 2 < l.length := by omega
      dsimp only
      rw [List.getElem?_append_left hmid, ih (len / 2) (by omega) first (by omega),
        ih (len - len / 2 - 1) (by omega) (first + len / 2 + 1) (by omega)]

namespace Partitioned

theorem of_mem_drop (h : Partitioned p l) {a : α} (ha : a ∈ l.drop (l.findIdx p)) :
    p a = true := by
  obtain ⟨i, hi, rfl⟩ := List.mem_drop_iff_getElem.mp ha
  have hlt : l.findIdx p < l.length := by omega
  have hp : p l[l.findIdx p] = true := List.findIdx_getElem
  rcases Nat.eq_zero_or_pos i with rfl | hpos
  · exact hp
  · exact List.pairwise_iff_getElem.mp h _ _ hlt (by omega) (by omega) hp

/-- The places that have the predicate are those not before the first. -/
theorem findIdx_le_iff (h : Partitioned p l) {i : ℕ} (hi : i < l.length) :
    l.findIdx p ≤ i ↔ p l[i] = true := by
  constructor
  · intro hle
    rcases hle.eq_or_lt with rfl | hlt
    · exact List.findIdx_getElem
    · have hfirst : p l[l.findIdx p] = true := List.findIdx_getElem
      exact List.pairwise_iff_getElem.mp h _ i (hlt.trans hi) hi hlt hfirst
  · intro hp
    by_contra hlt
    rw [List.not_of_lt_findIdx (not_le.mp hlt)] at hp
    cases hp

/-- What has not the predicate is what comes before the first that has it. -/
theorem filter_not_eq_take (h : Partitioned p l) :
    l.filter (fun a => !p a) = l.take (l.findIdx p) := by
  conv_lhs => rw [← List.take_append_drop (l.findIdx p) l]
  rw [List.filter_append, List.filter_eq_self.mpr, List.filter_eq_nil_iff.mpr, List.append_nil]
  · intro a ha
    rw [h.of_mem_drop ha]
    exact Bool.false_ne_true
  · intro a ha
    rw [List.false_of_mem_take_findIdx ha]
    rfl

theorem eq_findIdx (h : Partitioned p l) {k : ℕ} (hk : k ≤ l.length)
    (hbefore : ∀ i (hi : i < l.length), i < k → p l[i] = false)
    (hafter : ∀ i (hi : i < l.length), k ≤ i → p l[i] = true) : l.findIdx p = k := by
  apply le_antisymm
  · rcases hk.eq_or_lt with rfl | hlt
    · exact List.findIdx_le_length
    · exact (h.findIdx_le_iff hlt).mpr (hafter k hlt le_rfl)
  · by_contra hlt
    have hlt := not_le.mp hlt
    have hlt' : l.findIdx p < l.length := hlt.trans_le hk
    have hp : p l[l.findIdx p] = true := List.findIdx_getElem
    rw [hbefore _ hlt' hlt] at hp
    cases hp

/-- **Bisection** finds the first place. -/
theorem bisect_eq (h : Partitioned p l) (first len : ℕ) (hlen : first + len ≤ l.length)
    (hfirst : first ≤ l.findIdx p) (hlast : l.findIdx p ≤ first + len) :
    bisect p l first len = l.findIdx p := by
  induction len using Nat.strongRecOn generalizing first with
  | ind len ih =>
    rw [bisect]
    split
    · rename_i hzero
      omega
    · rename_i hpos
      have hmid : first + len / 2 < l.length := by omega
      have hiff := h.findIdx_le_iff hmid
      simp only [List.getElem?_eq_getElem hmid, Option.all_some]
      split
      · rename_i hp
        exact ih (len / 2) (by omega) first (by omega) hfirst (hiff.mpr hp)
      · rename_i hp
        have hlt : first + len / 2 < l.findIdx p := not_le.mp (mt hiff.mp hp)
        exact ih (len - len / 2 - 1) (by omega) (first + len / 2 + 1) (by omega) hlt (by omega)

/-- Bisection of the whole list. -/
theorem bisect_eq_findIdx (h : Partitioned p l) : bisect p l 0 l.length = l.findIdx p :=
  h.bisect_eq 0 l.length (by omega) (Nat.zero_le _) (by simpa using List.findIdx_le_length)

end Partitioned

end TQLib
