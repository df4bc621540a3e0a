import Mathlib.Algebra.Order.Group.Abs
import Mathlib.Data.Int.ModEq
import Mathlib.Tactic.Linarith
import Mathlib.Tactic.Ring

/-!
# Sequences known by their residues

A counter that is sent modulo `m` can be told from its residues as long as it moves by less than
half of `m` at a time: of all integers with the new residue, the next value is the nearest to the
last. Where two are equally near, at half of `m` up and down, the residues themselves decide.

Nothing here is about the arithmetic of machines. `forward` is the way round the circle from one
residue to another, and `nearest` the integer that is meant.

## Main results

* `nearest_modEq`, `nearest_abs_le`, `nearest_tie` — what the nearest integer is
* `nearest_eq` — and that it is the only one
* `ahead_iff_not_ahead`, `ahead_add` — the order of residues, and where it is that of integers
-/

namespace TQLib

namespace Residues

variable {m a b u x : ℤ}

/-- The way forward from the residue `b` to the residue `a`. -/
def forward (m b a : ℤ) : ℤ := (a - b) % m

/-- The way forward from `b` to `a` is the short one. Where both ways are equally long, it is if `a`
is the larger. -/
def Ahead (m b a : ℤ) : Prop := 2 * forward m b a < m ∨ 2 * forward m b a = m ∧ b < a

instance (m b a : ℤ) : Decidable (Ahead m b a) :=
  inferInstanceAs (Decidable (2 * forward m b a < m ∨ 2 * forward m b a = m ∧ b < a))

/-- The integer with the residue `a` that is nearest to `u`, whose residue is `b`. -/
def nearest (m u b a : ℤ) : ℤ :=
  if Ahead m b a then u + forward m b a else u + forward m b a - m

theorem forward_nonneg (hm : 0 < m) (b a : ℤ) : 0 ≤ forward m b a := Int.emod_nonneg _ hm.ne'

theorem forward_lt (hm : 0 < m) (b a : ℤ) : forward m b a < m := Int.emod_lt_of_pos _ hm

/-- The way forward, when both residues are on the circle. -/
theorem forward_eq (hb : 0 ≤ b ∧ b < m) (ha : 0 ≤ a ∧ a < m) :
    forward m b a = if b ≤ a then a - b else m - (b - a) := by
  rw [forward]
  split
  · exact Int.emod_eq_of_lt (by omega) (by omega)
  · rw [← Int.add_emod_right, Int.emod_eq_of_lt (by omega) (by omega)]
    ring

/-- The way forward is zero only from a residue to itself. -/
theorem forward_eq_zero (hb : 0 ≤ b ∧ b < m) (ha : 0 ≤ a ∧ a < m) :
    forward m b a = 0 ↔ a = b := by
  rw [forward_eq hb ha]
  split <;> omega

theorem add_forward_modEq (hu : u ≡ b [ZMOD m]) (a : ℤ) : u + forward m b a ≡ a [ZMOD m] := by
  have hsum : u + forward m b a ≡ b + (a - b) [ZMOD m] := hu.add (Int.mod_modEq _ _)
  rwa [add_sub_cancel] at hsum

/-- Going backwards to `a` is coming forward from it. -/
theorem sub_forward_modEq (hu : u ≡ b [ZMOD m]) (a : ℤ) : u - forward m a b ≡ a [ZMOD m] := by
  have hsub : u - forward m a b ≡ b - (b - a) [ZMOD m] := hu.sub (Int.mod_modEq _ _)
  rwa [sub_sub_cancel] at hsub

/-- One way after another, up to a whole circle. -/
theorem forward_trans (m a b c : ℤ) : forward m a c = (forward m a b + forward m b c) % m := by
  rw [forward, forward, forward, ← Int.add_emod, add_comm, sub_add_sub_cancel]

/-- There and on to where it began is the whole circle. -/
theorem forward_add_forward (m a b : ℤ) : (forward m a b + forward m b a) % m = 0 := by
  rw [← forward_trans, forward, sub_self, Int.zero_emod]

/-- What is left of a way behind the beginning of another, from one place or to one place. -/
theorem forward_sub_left (m a b c : ℤ) : forward m b c = (forward m a c - forward m a b) % m := by
  rw [forward, forward, forward, ← Int.sub_emod, sub_sub_sub_cancel_right]

theorem forward_sub_right (m a b c : ℤ) : forward m a c = (forward m a b - forward m c b) % m := by
  rw [forward, forward, forward, ← Int.sub_emod, sub_sub_sub_cancel_left]

theorem emod_le_self (hm : 0 < m) (hx : 0 ≤ x) : x % m ≤ x := by
  have hquot := Int.ediv_nonneg hx hm.le
  have hmul := mul_nonneg hm.le hquot
  have hsum := Int.mul_ediv_add_emod x m
  omega

/-- The shorter way between two residues. -/
def distance (m a b : ℤ) : ℤ := min (forward m a b) (forward m b a)

/-- A difference is no longer than both sides, one way or the other. -/
theorem min_emod_sub_le {y : ℤ} (hm : 0 < m) (hx : 0 ≤ x) (hy : 0 ≤ y) :
    min ((x - y) % m) ((y - x) % m) ≤ x + y := by
  rcases le_total y x with h | h
  · exact min_le_of_left_le ((emod_le_self hm (sub_nonneg.mpr h)).trans (by omega))
  · exact min_le_of_right_le ((emod_le_self hm (sub_nonneg.mpr h)).trans (by omega))

theorem forward_le_add (hm : 0 < m) (a b c : ℤ) :
    forward m a c ≤ forward m a b + forward m b c := by
  rw [forward_trans m a b c]
  exact emod_le_self hm (add_nonneg (forward_nonneg hm a b) (forward_nonneg hm b c))

/-- **The triangle inequality** on a circle. -/
theorem distance_triangle (hm : 0 < m) (a b c : ℤ) :
    distance m a c ≤ distance m a b + distance m b c := by
  have hab := forward_nonneg hm a b
  have hba := forward_nonneg hm b a
  have hbc := forward_nonneg hm b c
  have hcb := forward_nonneg hm c b
  have hfrom := min_emod_sub_le hm hbc hba
  rw [← forward_sub_left, ← forward_sub_left] at hfrom
  have hto := min_emod_sub_le hm hab hcb
  rw [← forward_sub_right, ← forward_sub_right] at hto
  have hforth := forward_le_add hm a b c
  have hback := forward_le_add hm c b a
  unfold distance
  omega

/-- A distance less than `m` is known by its residue. -/
theorem eq_forward {d : ℤ} (h0 : 0 ≤ d) (hd : d < m) (h : d ≡ a - b [ZMOD m]) :
    d = forward m b a := by
  rw [forward, ← h, Int.emod_eq_of_lt h0 hd]

theorem nearest_modEq (hu : u ≡ b [ZMOD m]) (a : ℤ) : nearest m u b a ≡ a [ZMOD m] := by
  rw [nearest]
  split
  · exact add_forward_modEq hu a
  · have hsub := (add_forward_modEq hu a).sub_right m
    exact hsub.trans (by rw [Int.ModEq, Int.sub_emod_right])

/-- It is no further than half of `m`. -/
theorem nearest_abs_le (hm : 0 < m) (u b a : ℤ) : 2 * |nearest m u b a - u| ≤ m := by
  have hnonneg := forward_nonneg hm b a
  have hlt := forward_lt hm b a
  rw [nearest]
  split
  · rename_i hahead
    rw [add_sub_cancel_left, abs_of_nonneg hnonneg]
    exact hahead.elim le_of_lt fun h => h.1.le
  · rename_i hahead
    have hle : m ≤ 2 * forward m b a := by
      by_contra hshort
      exact hahead (.inl (not_le.mp hshort))
    have heq : u + forward m b a - m - u = -(m - forward m b a) := by ring
    rw [heq, abs_neg, abs_of_nonneg (by omega)]
    omega

/-- Where it is half of `m` away, the larger residue is above. -/
theorem nearest_tie (hm : 0 < m) (hb : 0 ≤ b ∧ b < m) (ha : 0 ≤ a ∧ a < m)
    (h : 2 * |nearest m u b a - u| = m) : u < nearest m u b a ↔ b < a := by
  have hnonneg := forward_nonneg hm b a
  have hlt := forward_lt hm b a
  have hzero := forward_eq_zero hb ha
  by_cases hahead : Ahead m b a
  · rw [nearest, if_pos hahead] at h ⊢
    rw [add_sub_cancel_left, abs_of_nonneg hnonneg] at h
    obtain hshort | ⟨-, hba⟩ := hahead
    · omega
    · exact iff_of_true (by omega) hba
  · rw [nearest, if_neg hahead] at h ⊢
    have heq : u + forward m b a - m - u = -(m - forward m b a) := by ring
    rw [heq, abs_neg, abs_of_nonneg (by omega)] at h
    refine iff_of_false (by omega) fun hba => hahead (.inr ⟨by omega, hba⟩)

/-- **The nearest integer is the only one** with its residue that is nearer than half of `m`, and at
half of `m` the only one on its side. -/
theorem nearest_eq (hm : 0 < m) (hb : 0 ≤ b ∧ b < m) (ha : 0 ≤ a ∧ a < m) (hu : u ≡ b [ZMOD m])
    (hx : x ≡ a [ZMOD m]) (hle : 2 * |x - u| ≤ m) (htie : 2 * |x - u| = m → (u < x ↔ b < a)) :
    nearest m u b a = x := by
  have hclose := nearest_abs_le hm u b a
  have htie' := nearest_tie (u := u) hm hb ha
  have hdvd : m ∣ nearest m u b a - x := by
    rw [← Int.modEq_iff_dvd]
    exact hx.trans (nearest_modEq hu a).symm
  obtain ⟨k, hk⟩ := hdvd
  generalize nearest m u b a = y at *
  have hyup := le_abs_self (y - u)
  have hydown := neg_abs_le (y - u)
  have hxup := le_abs_self (x - u)
  have hxdown := neg_abs_le (x - u)
  -- The two are at most `m` apart, and at `m` only from one end to the other.
  obtain hk0 | hk0 | hk0 := lt_trichotomy k 0
  · have hfar : m * k ≤ -m := by nlinarith
    have hlow : y - u < 0 := by omega
    have hhigh : 0 < x - u := by omega
    rw [abs_of_neg hlow] at htie'
    rw [abs_of_pos hhigh] at htie
    have := htie (by omega)
    have := htie' (by omega)
    omega
  · rw [hk0, mul_zero] at hk
    omega
  · have hfar : m ≤ m * k := by nlinarith
    have hhigh : 0 < y - u := by omega
    have hlow : x - u < 0 := by omega
    rw [abs_of_pos hhigh] at htie'
    rw [abs_of_neg hlow] at htie
    have := htie (by omega)
    have := htie' (by omega)
    omega

/-! ### The order on a part of the circle -/

/-- Of two residues one is ahead of the other. -/
theorem ahead_iff_not_ahead (hb : 0 ≤ b ∧ b < m) (ha : 0 ≤ a ∧ a < m) (hne : a ≠ b) :
    Ahead m b a ↔ ¬ Ahead m a b := by
  rw [Ahead, Ahead, forward_eq hb ha, forward_eq ha hb]
  split <;> split <;> omega

/-- On no more than half of the circle, the way forward is the short one to what comes later. -/
theorem ahead_add {p i j n : ℤ} (hn : 2 * n ≤ m) (hi : 0 ≤ i ∧ i < n) (hj : 0 ≤ j ∧ j < n) :
    Ahead m ((p + i) % m) ((p + j) % m) ↔ i ≤ j := by
  have hforward : forward m ((p + i) % m) ((p + j) % m) = (j - i) % m := by
    rw [forward, Int.emod_sub_emod, Int.sub_emod_emod]
    congr 1
    omega
  rw [Ahead, hforward]
  rcases le_or_gt i j with hij | hij
  · rw [Int.emod_eq_of_lt (by omega) (by omega)]
    exact iff_of_true (.inl (by omega)) hij
  · rw [← Int.add_emod_right, Int.emod_eq_of_lt (by omega) (by omega)]
    omega

/-- And the residues there are different. -/
theorem emod_add_inj {p i j n : ℤ} (hn : 2 * n ≤ m) (hi : 0 ≤ i ∧ i < n) (hj : 0 ≤ j ∧ j < n)
    (h : (p + i) % m = (p + j) % m) : i = j := by
  have hself : Ahead m ((p + i) % m) ((p + i) % m) := by
    refine .inl ?_
    rw [forward, sub_self, Int.zero_emod]
    omega
  refine le_antisymm ((ahead_add (p := p) hn hi hj).mp ?_) ((ahead_add (p := p) hn hj hi).mp ?_)
  · rw [← h]
    exact hself
  · rw [← h]
    exact hself

end Residues

end TQLib
