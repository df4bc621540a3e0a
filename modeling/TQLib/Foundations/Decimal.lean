import Mathlib.Data.Char
import Mathlib.Data.List.Lex
import Mathlib.Data.Nat.Digits.Defs

/-!
# Decimals of one width

A number written with leading zeros, as `"%0*zu"` prints it. Numbers that fit into the width are
written with exactly as many digits, so the lexicographic order of what is written is the order of
the numbers.

## Main results

* `padded_lt_of_lt` — padding keeps the order
-/

namespace TQLib

/-! ## The lexicographic order -/

section

variable {α : Type*} [LinearOrder α] {l l' : List α}

theorem append_lt_append_left (p : List α) (h : l < l') : p ++ l < p ++ l' := by
  induction p with
  | nil => exact h
  | cons a p ih => exact List.cons_lt_cons_iff.mpr (.inr ⟨rfl, ih⟩)

/-- What has been decided stays so whatever comes after. -/
theorem append_lt_append_right (h : l < l') (hlen : l.length = l'.length) (t t' : List α) :
    l ++ t < l' ++ t' := by
  induction l generalizing l' with
  | nil =>
    obtain rfl : l' = [] := List.length_eq_zero_iff.mp hlen.symm
    exact absurd h (lt_irrefl _)
  | cons a l ih =>
    cases l' with
    | nil => cases hlen
    | cons b l' =>
      rw [List.cons_append, List.cons_append]
      rcases List.cons_lt_cons_iff.mp h with hab | ⟨rfl, hl⟩
      · exact List.cons_lt_cons_iff.mpr (.inl hab)
      · exact List.cons_lt_cons_iff.mpr (.inr ⟨rfl, ih hl (by simpa using hlen)⟩)

end

/-! ## Padding -/

/-- `n` in decimal, with at least `w` digits. -/
def padded (w n : ℕ) : List Char := (Nat.toDigits 10 n).leftpad w '0'

variable {w m n : ℕ}

theorem length_padded (hw : 0 < w) (hn : n < 10 ^ w) : (padded w n).length = w := by
  rw [padded, List.length_leftpad]
  exact max_eq_left ((Nat.length_toDigits_le_iff (by decide) hw).mpr hn)

/-- The last digit. -/
theorem padded_succ (hw : 0 < w) (n : ℕ) :
    padded (w + 1) n = padded w (n / 10) ++ [Nat.digitChar (n % 10)] := by
  unfold padded List.leftpad
  by_cases hn : n < 10
  · rw [Nat.toDigits_of_lt_base hn, Nat.div_eq_of_lt hn, Nat.mod_eq_of_lt hn, Nat.toDigits_zero]
    obtain ⟨v, rfl⟩ := Nat.exists_eq_succ_of_ne_zero hw.ne'
    simp [List.replicate_succ']
  · rw [Nat.toDigits_of_base_le (by decide) (not_lt.mp hn)]
    simp

theorem digitChar_lt_digitChar (hmn : m < n) (hn : n < 10) :
    Nat.digitChar m < Nat.digitChar n := by
  rw [Char.lt_def, UInt32.lt_iff_toNat_lt]
  change (Nat.digitChar m).toNat < (Nat.digitChar n).toNat
  rw [Nat.toNat_digitChar_of_lt_ten (hmn.trans hn), Nat.toNat_digitChar_of_lt_ten hn]
  omega

theorem padded_lt_of_lt (hw : 0 < w) (hn : n < 10 ^ w) (hmn : m < n) :
    padded w m < padded w n := by
  induction w, hw using Nat.le_induction generalizing m n with
  | base =>
    have hm : m < 10 := by omega
    rw [padded, padded, Nat.toDigits_of_lt_base hm, Nat.toDigits_of_lt_base (by omega)]
    exact List.cons_lt_cons_iff.mpr (.inl (digitChar_lt_digitChar hmn (by omega)))
  | succ w hw ih =>
    have hdiv : n / 10 < 10 ^ w := by
      rw [Nat.pow_succ] at hn
      omega
    rw [padded_succ hw, padded_succ hw]
    rcases lt_or_eq_of_le (Nat.div_le_div_right (c := 10) hmn.le) with hlt | heq
    · refine append_lt_append_right (ih hdiv hlt) ?_ _ _
      rw [length_padded hw hdiv, length_padded hw (hlt.trans hdiv)]
    · rw [heq]
      refine append_lt_append_left _ (List.cons_lt_cons_iff.mpr (.inl ?_))
      exact digitChar_lt_digitChar (by omega) (Nat.mod_lt _ (by decide))

/-- A number has as many digits as the greatest that has to fit. -/
theorem lt_pow_length_toDigits (h : m ≤ n) : m < 10 ^ (Nat.toDigits 10 n).length :=
  h.trans_lt ((Nat.length_toDigits_le_iff (by decide) Nat.length_toDigits_pos).mp le_rfl)

end TQLib
