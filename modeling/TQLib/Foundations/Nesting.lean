import TQLib.Foundations.Machine

/-!
# Nested scopes

What an observer of nested scopes sees: the value of some variable when a scope is entered, when it
has been left, and at moments in between. `nesting` is the specification of a variable that every
scope puts back. It remembers the values that are still to be restored, innermost first.

## Main results

* `Spec.Accepts.restored` — a scope leaves the variable as it found it
* `Spec.Accepts.good` — what is seen in between meets the condition that was asked for
-/

namespace TQLib

/-- What is seen of a variable. -/
inductive Nesting (ν : Type*)
  /-- Before a scope is entered. -/
  | entered (v : ν)
  /-- After a scope has been left. -/
  | left (v : ν)
  /-- In between. -/
  | now (v : ν)

variable {ν : Type*}

/-- A variable that every scope puts back, and that has good values only. -/
def nesting (Good : ν → Prop) : Spec (List ν) (Nesting ν) where
  start t := t = []
  next t e t' :=
    match e with
    | .entered v => t' = v :: t
    | .left v => t = v :: t'
    | .now v => t' = t ∧ Good v

/-- Every scope that is entered is left, and none besides. -/
inductive Balanced : List (Nesting ν) → Prop
  | nil : Balanced []
  | now (v : ν) : Balanced [.now v]
  | scope {h : List (Nesting ν)} (v w : ν) : Balanced h →
      Balanced (.entered v :: h ++ [.left w])
  | append {h h' : List (Nesting ν)} : Balanced h → Balanced h' → Balanced (h ++ h')

/-- `Opened h t`: in `h` scopes were entered with the values `t`, innermost first, and not left, and
all others were left again. -/
inductive Opened : List (Nesting ν) → List ν → Prop
  | balanced {h : List (Nesting ν)} : Balanced h → Opened h []
  | enter {h b : List (Nesting ν)} {t : List ν} (v : ν) : Opened h t → Balanced b →
      Opened (h ++ .entered v :: b) (v :: t)

theorem Opened.append {h b : List (Nesting ν)} {t : List ν} (ho : Opened h t) (hb : Balanced b) :
    Opened (h ++ b) t := by
  cases ho with
  | balanced hh => exact .balanced (hh.append hb)
  | enter v ho hh =>
    rw [List.append_assoc, List.cons_append]
    exact .enter v ho (hh.append hb)

namespace Spec

variable {Good : ν → Prop} {h h₁ h₂ : List (Nesting ν)} {t : List ν} {v w : ν}

/-- What is seen between two ends of scopes changes nothing. -/
theorem Path.nows (hh : ∀ e ∈ h, ∃ v, e = .now v ∧ Good v) : (nesting Good).Path t h t := by
  induction h with
  | nil => exact .nil t
  | cons e h ih =>
    obtain ⟨v, rfl, hv⟩ := hh e List.mem_cons_self
    exact .cons ⟨rfl, hv⟩ (ih fun e he => hh e (List.mem_cons_of_mem _ he))

theorem Accepts.opened (ha : (nesting Good).Accepts h t) : Opened h t := by
  induction ha with
  | nil hs =>
    rw [show _ = [] from hs]
    exact .balanced .nil
  | @snoc h e t t' _ hn ih =>
    cases e with
    | entered v =>
      rw [show t' = v :: t from hn]
      exact .enter v ih .nil
    | left v =>
      rw [show t = v :: t' from hn] at ih
      cases ih with
      | enter _ ho hb =>
        rw [List.append_assoc]
        exact ho.append (.scope v v hb)
    | now v =>
      rw [hn.1]
      exact ih.append (.now v)

/-- **A scope leaves the variable as it found it.** -/
theorem Accepts.restored (ha : (nesting Good).Accepts (h₁ ++ .left w :: h₂) t) :
    ∃ h b, h₁ = h ++ .entered w :: b ∧ Balanced b := by
  obtain ⟨t₁, t₂, ha₁, hn⟩ := ha.split
  have ho := ha₁.opened
  rw [show t₁ = w :: t₂ from hn] at ho
  cases ho with
  | enter _ _ hb => exact ⟨_, _, rfl, hb⟩

theorem Accepts.good (ha : (nesting Good).Accepts h t) (hv : .now v ∈ h) : Good v := by
  obtain ⟨h₁, h₂, rfl⟩ := List.append_of_mem hv
  obtain ⟨t₁, t₂, -, hn⟩ := ha.split
  exact hn.2

end Spec

end TQLib
