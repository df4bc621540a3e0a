import Mathlib.Data.Prod.Lex
import Mathlib.Order.RelClasses

/-!
# Orders by a key

A comparison and an equality that look only at a key, which is taken from a linear order, are a
strict weak order and its equality, whatever else the things have that are compared. Comparisons are
put together as dictionaries are ordered.

## Main results

* `OrderedBy.isStrictWeakOrder`, `OrderedBy.exactlyOne` — what a key is good for
* `OrderedBy.lex` — one key, and then another
-/

namespace TQLib

variable {α κ κ' : Type*} [LinearOrder κ] [LinearOrder κ']

/-- One of three. -/
def ExactlyOne (p q r : Prop) : Prop := p ∧ ¬ q ∧ ¬ r ∨ ¬ p ∧ q ∧ ¬ r ∨ ¬ p ∧ ¬ q ∧ r

/-- `lt` and `eq` compare the keys. -/
structure OrderedBy (key : α → κ) (lt eq : α → α → Prop) : Prop where
  lt_iff : ∀ a b, lt a b ↔ key a < key b
  eq_iff : ∀ a b, eq a b ↔ key a = key b

namespace OrderedBy

variable {key : α → κ} {key' : α → κ'} {lt lt' eq eq' : α → α → Prop}

/-- Two things of which none is less have one key. -/
theorem incomparable_iff (h : OrderedBy key lt eq) (a b : α) :
    ¬ lt a b ∧ ¬ lt b a ↔ key a = key b := by
  rw [h.lt_iff, h.lt_iff, not_lt, not_lt, le_antisymm_iff, and_comm]

/-- What compares keys is a strict weak order. -/
theorem isStrictWeakOrder (h : OrderedBy key lt eq) : IsStrictWeakOrder α lt where
  irrefl a := by
    rw [h.lt_iff]
    exact lt_irrefl _
  trans a b c := by
    rw [h.lt_iff, h.lt_iff, h.lt_iff]
    exact lt_trans
  incomp_trans a b c := by
    rw [h.incomparable_iff, h.incomparable_iff, h.incomparable_iff]
    exact Eq.trans

/-- Of any two, one is less, or they are equal, and never both. -/
theorem exactlyOne (h : OrderedBy key lt eq) (a b : α) : ExactlyOne (lt a b) (lt b a) (eq a b) := by
  rw [ExactlyOne, h.lt_iff, h.lt_iff, h.eq_iff]
  rcases lt_trichotomy (key a) (key b) with hlt | heq | hgt
  · exact .inl ⟨hlt, hlt.not_gt, hlt.ne⟩
  · exact .inr (.inr ⟨heq.not_lt, heq.symm.not_lt, heq⟩)
  · exact .inr (.inl ⟨hgt.not_gt, hgt, hgt.ne'⟩)

/-- Compare one key, and another where the first does not decide. -/
theorem lex (h : OrderedBy key lt eq) (h' : OrderedBy key' lt' eq') :
    OrderedBy (fun a => toLex (key a, key' a)) (fun a b => lt a b ∨ eq a b ∧ lt' a b)
      fun a b => eq a b ∧ eq' a b := by
  constructor
  · intro a b
    rw [Prod.Lex.toLex_lt_toLex, h.lt_iff, h.eq_iff, h'.lt_iff]
  · intro a b
    rw [h.eq_iff, h'.eq_iff, toLex_inj, Prod.mk.injEq]

/-- What is less by a key is not equal to it. -/
theorem gt_iff (h : OrderedBy key lt eq) (a b : α) : ¬ eq a b ∧ ¬ lt a b ↔ lt b a := by
  rw [h.lt_iff, h.lt_iff, h.eq_iff, not_lt]
  constructor
  · rintro ⟨hne, hle⟩
    exact lt_of_le_of_ne hle (Ne.symm hne)
  · intro hlt
    exact ⟨hlt.ne', hlt.le⟩

end OrderedBy

end TQLib
