import TQLib.Foundations.Signed

/-!
# Computations with checks

A computation on a signed integer type gives a value, or one of its checks fails, or it does
something that is undefined: an operation leaves the type, or divides by zero.

`Gives onCheck x P` is what it takes for `x` to give a value with `P`, where `onCheck` is what is
made of a check that fails: with `False` it has to pass, with `True` it is a condition on the input
like any other. It is computed along the computation, one rule for each way to make one.

## Main results

* `gives_bind`, `gives_check`, `gives_arith`, `gives_quotient` — the rules
* `eq_ok_iff` — the value that is given
-/

namespace TQLib

namespace Checked

universe u

/-- Why there is no value. -/
inductive Failure
  /-- A check. -/
  | check
  /-- An operation without a result. -/
  | undefined
  deriving DecidableEq, Repr

variable {α β : Type u} {onCheck : Prop} {x : Except Failure α} {P Q : α → Prop}

/-- A check. -/
def check (p : Prop) [Decidable p] : Except Failure Unit := if p then .ok () else .error .check

/-- An operation whose result is `v` in the integers. -/
def arith (w : ℕ) (v : ℤ) : Except Failure ℤ :=
  if InSigned w v then .ok v else .error .undefined

/-- A quotient, rounded towards zero. -/
def quotient (w : ℕ) (v d : ℤ) : Except Failure ℤ :=
  if d = 0 then .error .undefined else arith w (v.tdiv d)

/-- What it takes to give a value with `P`. -/
def Gives (onCheck : Prop) (x : Except Failure α) (P : α → Prop) : Prop :=
  match x with
  | .ok a => P a
  | .error .check => onCheck
  | .error .undefined => False

theorem gives_pure (a : α) : Gives onCheck (pure a) P ↔ P a := Iff.rfl

/-- **One computation after another.** -/
theorem gives_bind (f : α → Except Failure β) {R : β → Prop} :
    Gives onCheck (x >>= f) R ↔ Gives onCheck x fun a => Gives onCheck (f a) R := by
  cases x with
  | ok a => exact Iff.rfl
  | error e => cases e <;> exact Iff.rfl

theorem gives_congr (h : ∀ a, x = .ok a → (P a ↔ Q a)) :
    Gives onCheck x P ↔ Gives onCheck x Q := by
  cases x with
  | ok a => exact h a rfl
  | error e => cases e <;> exact Iff.rfl

theorem gives_check {p : Prop} [Decidable p] {R : Unit → Prop} :
    Gives onCheck (check p) R ↔ (p → R ()) ∧ (¬ p → onCheck) := by
  unfold check
  split <;> simp_all [Gives]

theorem gives_arith {w : ℕ} {v : ℤ} {R : ℤ → Prop} :
    Gives onCheck (arith w v) R ↔ InSigned w v ∧ R v := by
  unfold arith
  split <;> simp_all [Gives]

theorem gives_quotient {w : ℕ} {v d : ℤ} {R : ℤ → Prop} :
    Gives onCheck (quotient w v d) R ↔ d ≠ 0 ∧ InSigned w (v.tdiv d) ∧ R (v.tdiv d) := by
  unfold quotient
  split
  · simp_all [Gives]
  · simp_all [gives_arith]

/-- Where checks have to pass, there is a value. -/
theorem gives_false_iff : Gives False x P ↔ ∃ a, x = .ok a ∧ P a := by
  cases x with
  | ok a => simp [Gives]
  | error e => cases e <;> simp [Gives]

/-- The value that is given. -/
theorem eq_ok_iff {a : α} : x = .ok a ↔ Gives False x fun b => b = a := by
  rw [gives_false_iff]
  exact ⟨fun h => ⟨a, h, rfl⟩, fun ⟨_, h, heq⟩ => heq ▸ h⟩

/-- A quotient is in range with what is divided, unless both are negative. -/
theorem inSigned_tdiv {w : ℕ} {v d : ℤ} (hsign : 0 ≤ v ∨ 0 < d) (h : InSigned w v) :
    InSigned w (v.tdiv d) := by
  obtain ⟨hlow, hhigh⟩ := h
  have habs : (v.tdiv d).natAbs ≤ v.natAbs := Int.natAbs_tdiv_le_natAbs v d
  obtain hv | hv := le_or_gt 0 v
  · constructor <;> omega
  · have hquot := Int.tdiv_nonneg (neg_nonneg.mpr hv.le) (hsign.resolve_left hv.not_ge).le
    rw [Int.neg_tdiv] at hquot
    constructor <;> omega

end Checked

end TQLib
