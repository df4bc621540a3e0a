import Mathlib.Data.Finmap

/-!
# Unordered maps

Finite maps whose keys have no order, with the insertion that leaves an entry that is there alone,
and pairs of maps that are read in the two directions.

## Main results

* `UnorderedMap.lookup_emplace` — what is found after an insertion
* `Inverse.emplace`, `Inverse.erase` — two maps stay each other's inverse when both get an entry
  that is new to both, or both lose one
-/

namespace TQLib

variable {κ ν : Type*}

/-- A finite map, as `std::unordered_map` is. -/
abbrev UnorderedMap (κ ν : Type*) := Finmap fun _ : κ => ν

namespace UnorderedMap

variable [DecidableEq κ]

/-- Insert an entry, unless there is one with that key. -/
def emplace (m : UnorderedMap κ ν) (k : κ) (v : ν) : UnorderedMap κ ν :=
  if k ∈ m then m else m.insert k v

theorem emplace_of_notMem {m : UnorderedMap κ ν} {k : κ} (hk : k ∉ m) (v : ν) :
    m.emplace k v = m.insert k v := if_neg hk

theorem mem_emplace {m : UnorderedMap κ ν} {k k' : κ} {v : ν} :
    k' ∈ m.emplace k v ↔ k' = k ∨ k' ∈ m := by
  unfold emplace
  split
  · rename_i hk
    exact ⟨.inr, fun h => h.elim (fun heq => heq ▸ hk) id⟩
  · exact Finmap.mem_insert

theorem lookup_emplace {m : UnorderedMap κ ν} {k : κ} (hk : k ∉ m) (v : ν) :
    (m.emplace k v).lookup k = some v := by
  rw [emplace_of_notMem hk, Finmap.lookup_insert]

theorem lookup_emplace_of_ne {m : UnorderedMap κ ν} {k k' : κ} (hne : k' ≠ k) (v : ν) :
    (m.emplace k v).lookup k' = m.lookup k' := by
  unfold emplace
  split
  · rfl
  · exact Finmap.lookup_insert_of_ne _ hne

end UnorderedMap

/-! ## Maps read in two directions -/

/-- Each of two maps finds what the other is keyed by. -/
def Inverse [DecidableEq κ] [DecidableEq ν] (m : UnorderedMap κ ν) (m' : UnorderedMap ν κ) : Prop :=
  ∀ k v, m.lookup k = some v ↔ m'.lookup v = some k

namespace Inverse

variable [DecidableEq κ] [DecidableEq ν] {m : UnorderedMap κ ν} {m' : UnorderedMap ν κ}

theorem empty : Inverse (∅ : UnorderedMap κ ν) ∅ := fun k v => by simp

theorem symm (h : Inverse m m') : Inverse m' m := fun v k => (h k v).symm

theorem mem (h : Inverse m m') {k : κ} {v : ν} (hk : m.lookup k = some v) : v ∈ m' :=
  Finmap.mem_of_lookup_eq_some ((h k v).mp hk)

theorem lookup_inj (h : Inverse m m') {k k' : κ} {v : ν} (hk : m.lookup k = some v)
    (hk' : m.lookup k' = some v) : k = k' :=
  Option.some.inj (((h k v).mp hk).symm.trans ((h k' v).mp hk'))

theorem emplace (h : Inverse m m') {k : κ} {v : ν} (hk : k ∉ m) (hv : v ∉ m') :
    Inverse (m.emplace k v) (m'.emplace v k) := by
  intro k₁ v₁
  by_cases hk₁ : k₁ = k <;> by_cases hv₁ : v₁ = v
  · subst hk₁ hv₁
    simp [UnorderedMap.lookup_emplace hk, UnorderedMap.lookup_emplace hv]
  · subst hk₁
    have hnone : m'.lookup v₁ ≠ some k₁ :=
      fun hl => hk (Finmap.mem_of_lookup_eq_some ((h k₁ v₁).mpr hl))
    simp [UnorderedMap.lookup_emplace hk, UnorderedMap.lookup_emplace_of_ne hv₁, hnone,
      Ne.symm hv₁]
  · subst hv₁
    have hnone : m.lookup k₁ ≠ some v₁ :=
      fun hl => hv (Finmap.mem_of_lookup_eq_some ((h k₁ v₁).mp hl))
    simp [UnorderedMap.lookup_emplace hv, UnorderedMap.lookup_emplace_of_ne hk₁, hnone,
      Ne.symm hk₁]
  · rw [UnorderedMap.lookup_emplace_of_ne hk₁, UnorderedMap.lookup_emplace_of_ne hv₁]
    exact h k₁ v₁

theorem erase (h : Inverse m m') {k : κ} {v : ν} (hk : m.lookup k = some v) :
    Inverse (m.erase k) (m'.erase v) := by
  intro k₁ v₁
  by_cases hk₁ : k₁ = k <;> by_cases hv₁ : v₁ = v
  · subst hk₁ hv₁
    simp [Finmap.lookup_erase]
  · subst hk₁
    have hne : m'.lookup v₁ ≠ some k₁ :=
      fun hl => hv₁ (h.symm.lookup_inj hl ((h k₁ v).mp hk))
    simp [Finmap.lookup_erase, Finmap.lookup_erase_ne hv₁, hne]
  · subst hv₁
    have hne : m.lookup k₁ ≠ some v₁ := fun hl => hk₁ (h.lookup_inj hl hk)
    simp [Finmap.lookup_erase, Finmap.lookup_erase_ne hk₁, hne]
  · rw [Finmap.lookup_erase_ne hk₁, Finmap.lookup_erase_ne hv₁]
    exact h k₁ v₁

end Inverse

end TQLib
