import TQLib.Foundations.Residues
import Mathlib.Order.Defs.Unbundled
import Mathlib.Tactic.NormNum

/-!
# Sequence numbers

The order of sequence numbers of `rtc_base/numerics/sequence_number_util.h`, over the modular
differences of `rtc_base/numerics/mod_ops.h`. The templates have an unsigned type `T` and a modulus
`M`, where `M == 0` stands for the range of `T`.

A difference of two values of `T` is one of `int` where `T` is narrower than `int` and one modulo
the range of `T` elsewhere; what a function returns is converted to `T`.

Of two sequence numbers one is ahead, but that is no order on all of them: going round, each is
behind the next. On half of the circle it is the order in which they come.

## Main results

* `SeqNumType.forwardDiff_eq`, `SeqNumType.aheadOrAt_iff` — the differences are those of the
  residues
* `SeqNumType.aheadOf_numberAt` — the order on half of the circle
* `SeqNumType.seqNum_order` — the whole of it
-/

namespace TQLib

/-- The template arguments `T`, by its width, and `M`. -/
structure SeqNumType where
  /-- The width of `T`. -/
  width : ℕ
  /-- The modulus, or zero for the range of `T`. -/
  M : ℤ
  width_pos : 0 < width
  M_nonneg : 0 ≤ M
  M_lt : M < 2 ^ width

namespace SeqNumType

variable (T : SeqNumType)

/-- `std::numeric_limits<T>::max()`. -/
def max : ℤ := 2 ^ T.width - 1

/-- A conversion to `T`. -/
def toT (x : ℤ) : ℤ := x % 2 ^ T.width

/-- `a - b` for two values of `T`. -/
def minus (a b : ℤ) : ℤ := if T.width < 32 then a - b else T.toT (a - b)

/-- `ForwardDiff`. -/
def forwardDiff (a b : ℤ) : ℤ :=
  if T.M = 0 then T.toT (T.minus b a)
  else if a ≤ b then T.toT (T.minus b a) else T.toT (T.minus T.M (T.minus a b))

/-- `ReverseDiff`. -/
def reverseDiff (a b : ℤ) : ℤ :=
  if T.M = 0 then T.toT (T.minus a b)
  else if b ≤ a then T.toT (T.minus a b) else T.toT (T.minus T.M (T.minus b a))

/-- `MinDiff`. -/
def minDiff (a b : ℤ) : ℤ := min (T.forwardDiff a b) (T.reverseDiff a b)

/-- `AheadOrAt`. -/
def aheadOrAt (a b : ℤ) : Bool :=
  if T.M = 0 then
    let maxDist := T.toT (T.max / 2 + 1)
    if T.minus a b = maxDist then b < a else T.forwardDiff b a < maxDist
  else
    let maxDist := T.M / 2
    if T.M % 2 = 0 ∧ T.minDiff a b = maxDist then b < a else T.forwardDiff b a ≤ maxDist

/-- `AheadOf`. -/
def aheadOf (a b : ℤ) : Bool := a ≠ b && T.aheadOrAt a b

/-- `AscendingSeqNumComp`. -/
def ascendingSeqNumComp (a b : ℤ) : Bool := T.aheadOf a b

/-- `DescendingSeqNumComp`. -/
def descendingSeqNumComp (a b : ℤ) : Bool := T.aheadOf b a

/-- Where the values wrap. -/
def modulus : ℤ := if T.M = 0 then 2 ^ T.width else T.M

/-- A sequence number. -/
def Below (a : ℤ) : Prop := 0 ≤ a ∧ a < T.modulus

/-! ### The differences -/

variable {T} {a b p x : ℤ}

theorem modulus_of_zero (h : T.M = 0) : T.modulus = 2 ^ T.width := if_pos h

theorem modulus_of_ne (h : T.M ≠ 0) : T.modulus = T.M := if_neg h

theorem modulus_pos : 0 < T.modulus := by
  by_cases h : T.M = 0
  · rw [modulus_of_zero h]
    positivity
  · rw [modulus_of_ne h]
    exact lt_of_le_of_ne T.M_nonneg (Ne.symm h)

theorem modulus_le : T.modulus ≤ 2 ^ T.width := by
  by_cases h : T.M = 0
  · exact (modulus_of_zero h).le
  · exact (modulus_of_ne h).trans_le T.M_lt.le

theorem toT_eq (h : 0 ≤ x ∧ x < 2 ^ T.width) : T.toT x = x := Int.emod_eq_of_lt h.1 h.2

/-- The width of `int` is not seen once the difference is a `T` again. -/
theorem toT_minus (a b : ℤ) : T.toT (T.minus a b) = T.toT (a - b) := by
  rw [minus]
  split
  · rfl
  · exact Int.emod_emod _ _

theorem minus_eq (h : 0 ≤ a - b ∧ a - b < 2 ^ T.width) : T.minus a b = a - b := by
  rw [minus]
  split
  · rfl
  · exact toT_eq h

/-- `ForwardDiff` is the way forward. -/
theorem forwardDiff_eq (ha : T.Below a) (hb : T.Below b) :
    T.forwardDiff a b = Residues.forward T.modulus a b := by
  by_cases hM : T.M = 0
  · rw [forwardDiff, if_pos hM, toT_minus, toT, Residues.forward, modulus_of_zero hM]
  · have hle := modulus_le (T := T)
    rw [forwardDiff, if_neg hM, Residues.forward_eq ha hb, modulus_of_ne hM]
    rw [Below, modulus_of_ne hM] at ha hb
    rw [modulus_of_ne hM] at hle
    split
    · rw [toT_minus, toT_eq (by omega)]
    · rw [toT_minus, minus_eq (by omega), toT_eq (by omega)]

/-- The way back is the way forward from the other side. -/
theorem reverseDiff_eq (a b : ℤ) : T.reverseDiff a b = T.forwardDiff b a := rfl

/-- `MinDiff` is half of an even modulus when the way forward is. -/
theorem minDiff_eq_iff (ha : T.Below a) (hb : T.Below b) (hM : T.M ≠ 0) (heven : T.M % 2 = 0) :
    T.minDiff a b = T.M / 2 ↔ 2 * Residues.forward T.modulus b a = T.modulus := by
  have hpos := modulus_pos (T := T)
  rw [minDiff, reverseDiff_eq, forwardDiff_eq ha hb, forwardDiff_eq hb ha,
    Residues.forward_eq ha hb, Residues.forward_eq hb ha]
  rw [Below] at ha hb
  rw [modulus_of_ne hM] at ha hb hpos ⊢
  split <;> split <;> omega

/-- `maxDist` for the range of `T` is half of it. -/
theorem maxDist_eq : ∃ h, 2 ^ T.width = 2 * h ∧ T.toT (T.max / 2 + 1) = h := by
  obtain ⟨n, hn⟩ := Nat.exists_eq_add_of_lt T.width_pos
  have hpow : (2 : ℤ) ^ T.width = 2 * 2 ^ n := by rw [hn, zero_add, pow_succ, mul_comm]
  have hpos : (0 : ℤ) < 2 ^ n := by positivity
  refine ⟨2 ^ n, hpow, ?_⟩
  have hhalf : T.max / 2 + 1 = 2 ^ n := by
    rw [max, hpow]
    omega
  rw [hhalf]
  exact toT_eq (by omega)

/-- `AheadOrAt` tells the short way, and the side of a tie. -/
theorem aheadOrAt_iff (ha : T.Below a) (hb : T.Below b) :
    T.aheadOrAt a b = true ↔ Residues.Ahead T.modulus b a := by
  rw [aheadOrAt, Residues.Ahead]
  by_cases hM : T.M = 0
  · obtain ⟨h, hrange, hmax⟩ := maxDist_eq (T := T)
    have hfwd : Residues.forward T.modulus b a = T.toT (T.minus a b) := by
      rw [← forwardDiff_eq hb ha, forwardDiff, if_pos hM]
    rw [if_pos hM, hmax, forwardDiff_eq hb ha]
    rw [Below, modulus_of_zero hM, hrange] at ha hb
    by_cases hdist : T.minus a b = h
    · have htie : Residues.forward T.modulus b a = h := by
        rw [hfwd, hdist]
        exact toT_eq (by omega)
      rw [if_pos hdist, htie, modulus_of_zero hM, hrange, decide_eq_true_iff]
      omega
    · rw [if_neg hdist, modulus_of_zero hM, hrange, decide_eq_true_iff]
      refine ⟨fun hlt => .inl (by omega), ?_⟩
      rintro (hlt | ⟨htie, hba⟩)
      · omega
      · -- A tie with the larger value in front is the difference that was asked for.
        have hsub : T.minus a b = a - b := minus_eq (by omega)
        have hself : T.toT (a - b) = a - b := toT_eq (by omega)
        rw [← hrange, ← modulus_of_zero hM, hfwd, hsub, hself, modulus_of_zero hM] at htie
        omega
  · rw [if_neg hM, forwardDiff_eq hb ha]
    by_cases heven : T.M % 2 = 0
    · have hmin := minDiff_eq_iff ha hb hM heven
      rw [modulus_of_ne hM] at hmin ⊢
      dsimp only
      split <;> rw [decide_eq_true_iff] <;> omega
    · rw [if_neg (fun h => heven h.1), modulus_of_ne hM, decide_eq_true_iff]
      omega

/-! ### The order -/

theorem aheadOf_iff (ha : T.Below a) (hb : T.Below b) :
    T.aheadOf a b = true ↔ a ≠ b ∧ Residues.Ahead T.modulus b a := by
  rw [aheadOf, Bool.and_eq_true, aheadOrAt_iff ha hb, decide_eq_true_iff]

/-- One of two different sequence numbers is ahead. -/
theorem aheadOf_iff_not (ha : T.Below a) (hb : T.Below b) (hne : a ≠ b) :
    T.aheadOf a b = true ↔ ¬ T.aheadOf b a = true := by
  rw [aheadOf_iff ha hb, aheadOf_iff hb ha, and_iff_right hne, and_iff_right hne.symm]
  exact Residues.ahead_iff_not_ahead hb ha hne

/-- At half of an even modulus it is the larger one. -/
theorem aheadOf_tie (ha : T.Below a) (hb : T.Below b) (h : 2 * |a - b| = T.modulus) :
    T.aheadOf a b = true ↔ b < a := by
  have hm := modulus_pos (T := T)
  have hup := le_abs_self (a - b)
  have hdown := neg_abs_le (a - b)
  rw [aheadOf_iff ha hb, Residues.Ahead, Residues.forward_eq hb ha]
  rcases le_or_gt b a with hba | hab
  · rw [abs_of_nonneg (by omega)] at h
    rw [if_pos hba]
    omega
  · rw [abs_of_neg (by omega)] at h
    rw [if_neg (by omega)]
    omega

/-- The sequence number at a position, counted from `p`. -/
def numberAt (T : SeqNumType) (p i : ℤ) : ℤ := (p + i) % T.modulus

theorem below_numberAt (T : SeqNumType) (p i : ℤ) : T.Below (T.numberAt p i) :=
  ⟨Int.emod_nonneg _ modulus_pos.ne', Int.emod_lt_of_pos _ modulus_pos⟩

/-- **On half of the circle** a sequence number is ahead of those at the positions before its. -/
theorem aheadOf_numberAt {i j n : ℤ} (hn : n ≤ T.modulus / 2) (hi : 0 ≤ i ∧ i < n)
    (hj : 0 ≤ j ∧ j < n) (p : ℤ) :
    T.aheadOf (T.numberAt p j) (T.numberAt p i) = true ↔ i < j := by
  have hhalf : 2 * n ≤ T.modulus := by omega
  have hinj : T.numberAt p j = T.numberAt p i ↔ j = i :=
    ⟨Residues.emod_add_inj hhalf hj hi, fun h => h ▸ rfl⟩
  rw [aheadOf_iff (below_numberAt T p j) (below_numberAt T p i), ne_eq, hinj]
  rw [numberAt, numberAt, Residues.ahead_add hhalf hi hj]
  omega

/-- The numbers of `S` are at `n` positions at most, from `p` on. -/
def Covers (T : SeqNumType) (p n : ℤ) (S : Set ℤ) : Prop :=
  ∀ a ∈ S, ∃ i, (0 ≤ i ∧ i < n) ∧ a = T.numberAt p i

/-- There the comparators are orders. -/
theorem isStrictTotalOrder_aheadOf {p n : ℤ} {S : Set ℤ} (hn : n ≤ T.modulus / 2)
    (hS : T.Covers p n S) : IsStrictTotalOrder S fun a b => T.aheadOf b a = true where
  trichotomous := by
    rintro ⟨a, ha⟩ ⟨b, hb⟩ hab hba
    obtain ⟨i, hi, rfl⟩ := hS a ha
    obtain ⟨j, hj, rfl⟩ := hS b hb
    rw [aheadOf_numberAt hn hi hj] at hab
    rw [aheadOf_numberAt hn hj hi] at hba
    obtain rfl : i = j := by omega
    rfl
  irrefl := by
    rintro ⟨a, ha⟩ h
    obtain ⟨i, hi, rfl⟩ := hS a ha
    rw [aheadOf_numberAt hn hi hi] at h
    exact lt_irrefl i h
  trans := by
    rintro ⟨a, ha⟩ ⟨b, hb⟩ ⟨c, hc⟩ hab hbc
    obtain ⟨i, hi, rfl⟩ := hS a ha
    obtain ⟨j, hj, rfl⟩ := hS b hb
    obtain ⟨k, hk, rfl⟩ := hS c hc
    rw [aheadOf_numberAt hn hi hj] at hab
    rw [aheadOf_numberAt hn hj hk] at hbc
    rw [aheadOf_numberAt hn hi hk]
    exact hab.trans hbc

/-- **The order of sequence numbers.** Of two different ones exactly one is ahead, at half of an
even modulus the larger one. Where they are at no more positions than half of the modulus has,
`DescendingSeqNumComp` is the order of the positions and `AscendingSeqNumComp` its converse. -/
theorem seqNum_order (T : SeqNumType) :
    (∀ a b, T.Below a → T.Below b → a ≠ b →
      (T.aheadOf a b = true ↔ ¬ T.aheadOf b a = true) ∧
      (2 * |a - b| = T.modulus → (T.aheadOf a b = true ↔ b < a))) ∧
    ∀ p n S, n ≤ T.modulus / 2 → T.Covers p n S →
      (IsStrictTotalOrder S fun a b => T.ascendingSeqNumComp a b = true) ∧
      (IsStrictTotalOrder S fun a b => T.descendingSeqNumComp a b = true) ∧
      ∀ i j, (0 ≤ i ∧ i < n) → (0 ≤ j ∧ j < n) →
        (T.ascendingSeqNumComp (T.numberAt p i) (T.numberAt p j) = true ↔ j < i) ∧
        (T.descendingSeqNumComp (T.numberAt p i) (T.numberAt p j) = true ↔ i < j) := by
  refine ⟨fun a b ha hb hne => ⟨aheadOf_iff_not ha hb hne, aheadOf_tie ha hb⟩, ?_⟩
  intro p n S hn hS
  have horder := isStrictTotalOrder_aheadOf hn hS
  have hswap : IsStrictTotalOrder S (Function.swap fun a b => T.aheadOf b a = true) :=
    inferInstance
  refine ⟨hswap, horder, fun i j hi hj => ⟨?_, ?_⟩⟩
  · exact aheadOf_numberAt hn hj hi p
  · exact aheadOf_numberAt hn hi hj p

end SeqNumType

end TQLib
