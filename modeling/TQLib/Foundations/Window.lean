import Mathlib.Data.List.DropRight
import Mathlib.Data.Nat.ModEq

/-!
# The last few values

A window over a list that grows at its end: the last `w` values, or all of them as long as there are
fewer. A ring is one way to keep them. It has `w` slots that are used in turn, so the slot for a new
value is the one the oldest is in.

## Main results

* `rtake_concat_of_lt`, `rtake_concat_of_le` — the window moves on
* `Ring.concat`, `Ring.oldest` — and so does the ring
-/

namespace TQLib

variable {α : Type*} {w : ℕ} {l : List α}

@[simp] theorem length_rtake (w : ℕ) (l : List α) : (l.rtake w).length = min l.length w := by
  rw [List.rtake, List.length_drop]
  omega

/-- A window that is not full has all values. -/
theorem rtake_of_le (h : l.length ≤ w) : l.rtake w = l := by
  rw [List.rtake, Nat.sub_eq_zero_of_le h, List.drop_zero]

/-- A window that is not full takes one more. -/
theorem rtake_concat_of_lt (h : l.length < w) (x : α) : (l ++ [x]).rtake w = l.rtake w ++ [x] := by
  rw [rtake_of_le h.le, rtake_of_le (by rwa [List.length_append])]

/-- A full window gives its oldest value for a new one. -/
theorem rtake_concat_of_le (hw : 0 < w) (h : w ≤ l.length) (x : α) :
    ∃ y rest, l[l.length - w]? = some y ∧ l.rtake w = y :: rest ∧
      (l ++ [x]).rtake w = rest ++ [x] := by
  obtain ⟨w, rfl⟩ := Nat.exists_eq_succ_of_ne_zero hw.ne'
  have hlt : l.length - (w + 1) < l.length := by omega
  refine ⟨l[l.length - (w + 1)], l.rtake w, List.getElem?_eq_getElem hlt, ?_,
    List.rtake_concat_succ ..⟩
  have hsucc : l.length - (w + 1) + 1 = l.length - w := by omega
  rw [List.rtake, List.rtake, List.drop_eq_getElem_cons hlt, hsucc]

/-- The slots have the last values, each in the slot that is its turn. -/
structure Ring (offset w : ℕ) (l slots : List α) : Prop where
  /-- How many slots there are. -/
  length : slots.length = w
  /-- What is in them. -/
  slot : ∀ i < l.length, l.length ≤ i + w → slots[(i + offset) % w]? = l[i]?

namespace Ring

variable {offset : ℕ} {slots : List α}

theorem nil (offset : ℕ) (slots : List α) : Ring offset slots.length [] slots where
  length := rfl
  slot i hi := by cases hi

/-- The slot whose turn it is has the oldest value. -/
theorem oldest (hr : Ring offset w l slots) (hw : 0 < w) (h : w ≤ l.length) :
    slots[(l.length + offset) % w]? = l[l.length - w]? := by
  rw [← hr.slot (l.length - w) (by omega) (by omega)]
  have heq : l.length + offset = l.length - w + offset + w := by omega
  rw [heq, Nat.add_mod_right]

/-- A new value goes into the slot whose turn it is. -/
theorem concat (hr : Ring offset w l slots) (hw : 0 < w) (x : α) :
    Ring offset w (l ++ [x]) (slots.set ((l.length + offset) % w) x) where
  length := by rw [List.length_set, hr.length]
  slot i hi hle := by
    rw [List.length_append, List.length_singleton] at hi hle
    have hslot : (l.length + offset) % w < slots.length := by
      rw [hr.length]
      exact Nat.mod_lt _ hw
    rcases Nat.lt_succ_iff_lt_or_eq.mp hi with hlt | rfl
    · -- two of the last values are never in one slot
      have hne : (l.length + offset) % w ≠ (i + offset) % w := by
        intro heq
        have hdvd : w ∣ l.length + offset - (i + offset) :=
          (Nat.modEq_iff_dvd' (by omega)).mp (Eq.symm heq)
        have hle' := Nat.le_of_dvd (by omega) hdvd
        omega
      rw [List.getElem?_set_ne hne, hr.slot i hlt (by omega), List.getElem?_append_left hlt]
    · rw [List.getElem?_set_self hslot, List.getElem?_concat_length]

end Ring

end TQLib
