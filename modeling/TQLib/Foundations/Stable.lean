import Mathlib.Data.List.Basic

/-!
# Rearrangements that keep ties in order

Two lists are stable rearrangements of each other by a key if the elements of each key are the same
in both and stand in the same order. Nothing is said of the order between different keys. The notion
is meant for containers that order their elements by a key and leave open, or get wrong, what
happens to ties.

## Main results

* `Stable.append` — rearranging the parts rearranges the whole
* `Stable.isPrefix_withKey` — what is taken from the front of a stable rearrangement is, key by key,
  what came first
-/

namespace TQLib

variable {α κ : Type*} [DecidableEq κ] {key : α → κ}

/-- The elements of a list that have a key. -/
def withKey (key : α → κ) (k : κ) (l : List α) : List α := l.filter fun a => key a = k

theorem withKey_append (k : κ) (v w : List α) :
    withKey key k (v ++ w) = withKey key k v ++ withKey key k w :=
  List.filter_append ..

/-- `v` and `w` have the same elements of each key, in the same order. -/
def Stable (key : α → κ) (v w : List α) : Prop := ∀ k, withKey key k v = withKey key k w

namespace Stable

variable {v v' w w' : List α}

theorem refl (v : List α) : Stable key v v := fun _ => rfl

theorem trans (h : Stable key v v') (h' : Stable key v' w) : Stable key v w :=
  fun k => (h k).trans (h' k)

theorem append (h : Stable key v w) (h' : Stable key v' w') :
    Stable key (v ++ v') (w ++ w') := by
  intro k
  rw [withKey_append, withKey_append, h k, h' k]

/-- **First come, first taken**, key by key. -/
theorem isPrefix_withKey (h : Stable key v (w ++ w')) (k : κ) :
    withKey key k w <+: withKey key k v := by
  rw [h k, withKey_append]
  exact List.prefix_append ..

/-- Only the keys that occur matter. -/
theorem iff_forall_mem :
    Stable key v w ↔ ∀ a ∈ v ++ w, withKey key (key a) v = withKey key (key a) w := by
  refine ⟨fun h a _ => h (key a), fun h k => ?_⟩
  by_cases hk : ∃ a ∈ v ++ w, key a = k
  · obtain ⟨a, ha, rfl⟩ := hk
    exact h a ha
  · have hnone : ∀ l, l ⊆ v ++ w → withKey key k l = [] := by
      intro l hl
      refine List.filter_eq_nil_iff.mpr fun a ha hka => hk ⟨a, hl ha, by simpa using hka⟩
    rw [hnone v (List.subset_append_left ..), hnone w (List.subset_append_right ..)]

instance [DecidableEq α] (v w : List α) : Decidable (Stable key v w) :=
  decidable_of_iff _ iff_forall_mem.symm

end Stable

end TQLib
