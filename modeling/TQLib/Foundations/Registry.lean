import Mathlib.Data.List.Nodup
import TQLib.Foundations.Machine

/-!
# Registries

Objects are registered under keys, and what is collected for a key is later delivered to an object.
An object may be taken out and another put in at any time between. A history is lawful if a key is
never handed out twice, if nothing is collected for a key that has not been handed out, and if a
delivery under a key goes to the object that is registered under it at that moment. What follows is
that nothing is delivered to the wrong object: it was registered under the key when the delivery was
collected, and ever since.

## Main results

* `Registry.Lawful.registered_of_collected` — whoever is registered under a key for which something
  was collected was registered under it then, and ever since
* `Registry.Lawful.nodup` — no key is handed out twice
-/

namespace TQLib

variable {κ π : Type*}

/-- What happens to a registry. -/
inductive RegistryEvent (κ π : Type*)
  /-- An object is registered under a key. -/
  | added (key : κ) (object : π)
  /-- What is registered under a key is taken out. -/
  | removed (key : κ)
  /-- Something is collected for a key. -/
  | collected (key : κ)
  /-- Something collected for a key is delivered to an object. -/
  | delivered (key : κ) (object : π)
  deriving DecidableEq

/-- A registry: who is registered under a key, and which keys have been handed out. -/
structure Registry (κ π : Type*) where
  /-- Who is registered. -/
  live : κ → Option π
  /-- The keys that have been handed out. -/
  used : Set κ

namespace Registry

/-- The key an event hands out. -/
def added? : RegistryEvent κ π → Option κ
  | .added key _ => some key
  | _ => none

section

variable (key : κ) (object : π)

@[simp] theorem added?_added : added? (.added key object) = some key := rfl

@[simp] theorem added?_removed : added? (.removed key : RegistryEvent κ π) = none := rfl

@[simp] theorem added?_collected : added? (.collected key : RegistryEvent κ π) = none := rfl

@[simp] theorem added?_delivered : added? (.delivered key object) = none := rfl

end

variable [DecidableEq κ]

/-- What an event does to who is registered. -/
def apply (live : κ → Option π) : RegistryEvent κ π → κ → Option π
  | .added key object => Function.update live key (some object)
  | .removed key => Function.update live key none
  | .collected _ => live
  | .delivered _ _ => live

/-- Who is registered after a history. -/
def registered (t : Registry κ π) (h : List (RegistryEvent κ π)) : κ → Option π :=
  h.foldl apply t.live

/-- The keys that have been handed out after a history. -/
def handedOut (t : Registry κ π) (h : List (RegistryEvent κ π)) (key : κ) : Prop :=
  key ∈ t.used ∨ key ∈ h.filterMap added?

/-- What may come after a history. -/
def Allowed (t : Registry κ π) (h : List (RegistryEvent κ π)) : RegistryEvent κ π → Prop
  | .added key _ => ¬ t.handedOut h key
  | .removed _ => True
  | .collected key => t.handedOut h key
  | .delivered key object => t.registered h key = some object ∧ .collected key ∈ h

/-- A history of a registry, each of whose events may come where it does. -/
def Lawful (t : Registry κ π) (h : List (RegistryEvent κ π)) : Prop :=
  ∀ h₁ e h₂, h = h₁ ++ e :: h₂ → t.Allowed h₁ e

variable {t : Registry κ π} {h h₁ : List (RegistryEvent κ π)} {e : RegistryEvent κ π} {key : κ}
  {object : π}

theorem registered_snoc (t : Registry κ π) (h : List (RegistryEvent κ π)) (e : RegistryEvent κ π) :
    t.registered (h ++ [e]) = apply (t.registered h) e := by
  rw [registered, List.foldl_append]
  rfl

omit [DecidableEq κ] in
theorem handedOut_append : t.handedOut (h ++ h₁) key ↔
    t.handedOut h key ∨ key ∈ h₁.filterMap added? := by
  rw [handedOut, List.filterMap_append, List.mem_append, ← or_assoc]
  rfl

namespace Lawful

theorem nil : t.Lawful [] := Along.nil

theorem of_append (hl : t.Lawful (h ++ h₁)) : t.Lawful h := Along.of_append hl

theorem last (hl : t.Lawful (h ++ [e])) : t.Allowed h e := Along.last hl

theorem snoc (hl : t.Lawful h) (ha : t.Allowed h e) : t.Lawful (h ++ [e]) := Along.snoc hl ha

/-- No key is handed out twice, and none that had been handed out from the start. -/
theorem nodup (hl : t.Lawful h) :
    (h.filterMap added?).Nodup ∧ ∀ key ∈ h.filterMap added?, key ∉ t.used := by
  induction h using List.reverseRecOn with
  | nil => simp
  | append_singleton h e ih =>
    have hlast := hl.last
    obtain ⟨hnodup, hstart⟩ := ih hl.of_append
    rw [List.filterMap_append]
    cases e with
    | added key object =>
      obtain ⟨hused, hadded⟩ := not_or.mp hlast
      constructor
      · exact hnodup.append (List.nodup_singleton _) (List.disjoint_singleton.mpr hadded)
      · intro key' hkey'
        rcases List.mem_append.mp hkey' with hkey' | hkey'
        · exact hstart key' hkey'
        · obtain rfl : key' = key := by simpa using hkey'
          exact hused
    | removed key =>
      rw [List.filterMap_cons_none rfl, List.filterMap_nil, List.append_nil]
      exact ⟨hnodup, hstart⟩
    | collected key =>
      rw [List.filterMap_cons_none rfl, List.filterMap_nil, List.append_nil]
      exact ⟨hnodup, hstart⟩
    | delivered key object =>
      rw [List.filterMap_cons_none rfl, List.filterMap_nil, List.append_nil]
      exact ⟨hnodup, hstart⟩

/-- Once a key has been handed out, who is registered under it can only be taken out. -/
theorem registered_of_handedOut (hl : t.Lawful (h ++ h₁)) (hused : t.handedOut h key)
    (hobject : t.registered (h ++ h₁) key = some object) :
    t.registered h key = some object ∧ .removed key ∉ h₁ ∧ key ∉ h₁.filterMap added? := by
  induction h₁ using List.reverseRecOn with
  | nil => exact ⟨by simpa using hobject, by simp, by simp⟩
  | append_singleton h₁ e ih =>
    rw [← List.append_assoc] at hl hobject
    rw [registered_snoc] at hobject
    have hlast := hl.last
    cases e with
    | added key' object' =>
      have hne : key ≠ key' := by
        rintro rfl
        exact hlast (handedOut_append.mpr (.inl hused))
      rw [apply, Function.update_of_ne hne] at hobject
      obtain ⟨hlive, hremoved, hadded⟩ := ih hl.of_append hobject
      exact ⟨hlive, by simpa using hremoved, by simpa [hne] using hadded⟩
    | removed key' =>
      have hne : key ≠ key' := by
        rintro rfl
        rw [apply, Function.update_self] at hobject
        cases hobject
      rw [apply, Function.update_of_ne hne] at hobject
      obtain ⟨hlive, hremoved, hadded⟩ := ih hl.of_append hobject
      exact ⟨hlive, by simpa [hne] using hremoved, by simpa using hadded⟩
    | collected key' =>
      obtain ⟨hlive, hremoved, hadded⟩ := ih hl.of_append hobject
      exact ⟨hlive, by simpa using hremoved, by simpa using hadded⟩
    | delivered key' object' =>
      obtain ⟨hlive, hremoved, hadded⟩ := ih hl.of_append hobject
      exact ⟨hlive, by simpa using hremoved, by simpa using hadded⟩

/-- Whoever is registered under a key for which something was collected was registered under it
then, and has not been taken out since. -/
theorem registered_of_collected (hl : t.Lawful (h ++ .collected key :: h₁))
    (hobject : t.registered (h ++ .collected key :: h₁) key = some object) :
    t.registered h key = some object ∧ .removed key ∉ h₁ ∧ key ∉ h₁.filterMap added? := by
  obtain ⟨hlive, hremoved, hadded⟩ :=
    registered_of_handedOut hl (hl h (.collected key) h₁ rfl) hobject
  exact ⟨hlive, by simpa using hremoved, by simpa using hadded⟩

end Lawful

end Registry

end TQLib
