import TQLib.Foundations.Machine

/-!
# Histories made of words

A component that serves one request after another shows a sequence of words: each request goes
through one of a number of complete courses, and the last one may still be under way. The abstract
state is what has been seen of the request under way.

## Main results

* `Spec.words_accepts` — an accepted history is a sequence of complete words and the beginning of
  one more
-/

namespace TQLib

variable {ε : Type*}

/-- The specification whose histories are sequences of words of `W`. -/
def Spec.words (W : List ε → Prop) : Spec (List ε) ε where
  start current := current = []
  next current e current' :=
    (current' = current ++ [e] ∧ ∃ rest, rest ≠ [] ∧ W (current ++ [e] ++ rest)) ∨
      (current' = [] ∧ W (current ++ [e]))

/-- The request under way goes on, and is not over. -/
theorem Spec.words_step {W : List ε → Prop} {current rest : List ε} (e : ε) (hrest : rest ≠ [])
    (hw : W (current ++ [e] ++ rest)) : (Spec.words W).next current e (current ++ [e]) :=
  .inl ⟨rfl, rest, hrest, hw⟩

/-- The request under way is over. -/
theorem Spec.words_last {W : List ε → Prop} {current : List ε} (e : ε) (hw : W (current ++ [e])) :
    (Spec.words W).next current e [] :=
  .inr ⟨rfl, hw⟩

/-- `current` is nothing, or the beginning of a word of `W` that is not over. -/
def UnderWay (W : List ε → Prop) (current : List ε) : Prop :=
  current = [] ∨ ∃ rest, rest ≠ [] ∧ W (current ++ rest)

/-- **A history is a sequence of complete words** and the beginning of one more. -/
theorem Spec.words_accepts {W : List ε → Prop} {h current : List ε}
    (ha : (Spec.words W).Accepts h current) :
    UnderWay W current ∧ ∃ ws : List (List ε), (∀ w ∈ ws, W w) ∧ h = ws.flatten ++ current := by
  induction ha with
  | nil hs =>
    obtain rfl : _ = [] := hs
    exact ⟨.inl rfl, [], by simp, rfl⟩
  | @snoc _ e current' _ _ hn ih =>
    obtain ⟨-, ws, hws, rfl⟩ := ih
    rcases hn with ⟨rfl, rest, hrest, hw⟩ | ⟨rfl, hw⟩
    · exact ⟨.inr ⟨rest, hrest, hw⟩, ws, hws, List.append_assoc ..⟩
    · refine ⟨.inl rfl, ws ++ [current' ++ [e]], fun w hmem => ?_, ?_⟩
      · rcases List.mem_append.mp hmem with hmem | hmem
        · exact hws w hmem
        · rwa [List.mem_singleton.mp hmem]
      · simp

end TQLib
