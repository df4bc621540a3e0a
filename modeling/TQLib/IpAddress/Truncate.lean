import TQLib.IpAddress.Model

/-!
# `TruncateIP` and `CountIPMaskBits`

An address is a sequence of bits, counted from the one that goes over the network first.
`TruncateIP` keeps the bits below the length and clears the others, whatever the family and the
byte order of the machine, so it is a projection: what is seen of an address afterwards are its
first bits. The words that the code splits an address into are not seen in the result.

## Main results

* `bit_truncateIP` — which bits are kept
* `truncateIP_truncateIP`, `truncateIP_eq_iff` — a shorter prefix of a prefix, and when two are
  equal
* `truncateIP_projection` — all of it, with what `CountIPMaskBits` counts
-/

namespace TQLib

namespace IPAddress

variable {e : Endian} {ip jp : IPAddress}

/-! ## Bits -/

/-- The number of bits of an address. -/
def width : IPAddress → ℕ
  | unspec => 0
  | inet _ => 32
  | inet6 _ => 128

/-- A bit of an address. -/
def bit (ip : IPAddress) (i : ℕ) : Bool :=
  match ip with
  | unspec => false
  | inet a => a.bit i
  | inet6 a => a.bit i

theorem bit_of_le {i : ℕ} (hi : ip.width ≤ i) : ip.bit i = false := by
  cases ip with
  | unspec => rfl
  | inet a => exact Bytes.bit_of_le a hi
  | inet6 a => exact Bytes.bit_of_le a hi

/-- An address is its family and its bits. -/
theorem ext_bit (hfamily : ip.family = jp.family) (hbit : ∀ i, ip.bit i = jp.bit i) : ip = jp := by
  cases ip with
  | unspec => cases jp <;> simp_all [family]
  | inet a =>
    cases jp with
    | inet b => exact congrArg inet (Bytes.ext_bit fun i _ => hbit i)
    | _ => simp [family] at hfamily
  | inet6 a =>
    cases jp with
    | inet6 b => exact congrArg inet6 (Bytes.ext_bit fun i _ => hbit i)
    | _ => simp [family] at hfamily

/-! ## Words of an address -/

/-- The mask of the first bits of a word. -/
theorem getMsbD_mask {L i : ℕ} (hL : L ≤ 32) (hi : i < 32) :
    (0xFFFFFFFF#32 <<< (32 - L)).getMsbD i = decide (i < L) := by
  have hones : 0xFFFFFFFF#32 = BitVec.allOnes 32 := by decide
  rw [hones, BitVec.getMsbD_shiftLeft]
  simp only [BitVec.getMsbD_eq_getLsbD, BitVec.getLsbD_allOnes]
  by_cases hlt : i < L
  · simp [hlt]; omega
  · simp [hlt]; omega

/-- The mask is shifted in 64 bits. -/
theorem mask_setWidth (n : ℕ) :
    (0xFFFFFFFF#64 <<< n).setWidth 32 = 0xFFFFFFFF#32 <<< n := by
  have hones : 0xFFFFFFFF#32 = (0xFFFFFFFF#64).setWidth 32 := by decide
  apply BitVec.eq_of_getLsbD_eq
  intro i hi
  rw [hones, BitVec.getLsbD_setWidth, BitVec.getLsbD_shiftLeft, BitVec.getLsbD_shiftLeft,
    BitVec.getLsbD_setWidth]
  have hi' : i < 64 := by omega
  have hsub : i - n < 32 := by omega
  simp only [hi, hi', hsub, decide_true, Bool.true_and]

theorem getMsbD_networkToHost_asInts (a : In6Addr) (i : Fin 4) {j : ℕ} (hj : j < 32) :
    (e.networkToHost (n := 4) (asInts e a i)).getMsbD j = a.bit (32 * i + j) := by
  rw [asInts, Endian.networkToHost_load, Bytes.getMsbD_value, Bytes.bit, Bytes.bit,
    dif_pos (by omega), dif_pos (by omega)]
  have hmod : (32 * (i : ℕ) + j) % 8 = j % 8 := by omega
  have hdiv : (32 * (i : ℕ) + j) / 8 = 4 * i + j / 8 := by omega
  simp only [hmod, hdiv]

theorem bit_setInt (a : In6Addr) (i : Fin 4) (x : BitVec 32) (j : ℕ) :
    (setInt e a i x).bit j =
      if j / 32 = i then (e.networkToHost (n := 4) x).getMsbD (j % 32) else a.bit j := by
  by_cases hj : j / 8 < 16
  · rw [Bytes.bit, dif_pos hj, setInt]
    have hdiv : j / 8 / 4 = j / 32 := by omega
    by_cases hword : j / 32 = i
    · rw [if_pos hword, ← e.bit_store, Bytes.bit, dif_pos (by omega)]
      have hindex : j / 8 % 4 = j % 32 / 8 := by omega
      have hmod : j % 8 = j % 32 % 8 := by omega
      simp only [hdiv, hword, if_true, hindex, hmod]
    · rw [if_neg hword, Bytes.bit, dif_pos hj]
      simp only [hdiv, hword, if_false]
  · have hword : j / 32 ≠ i := by omega
    rw [if_neg hword, Bytes.bit, dif_neg hj, Bytes.bit, dif_neg hj]

/-! ## The bits that are kept -/

/-- The loop of `TruncateIP` at one word. -/
def truncateWord (e : Endian) (position : ℕ) (innerMask : BitVec 32) (v6addr : In6Addr)
    (i : Fin 4) :
    In6Addr :=
  if (i : ℕ) = position then
    let hostOrderInner : BitVec 32 := e.networkToHost (n := 4) (asInts e v6addr i)
    setInt e v6addr i (e.hostToNetwork (n := 4) (hostOrderInner &&& innerMask))
  else if position < (i : ℕ) then setInt e v6addr i 0
  else v6addr

/-- One word is cleared from the length on. -/
theorem bit_truncateWord (L : ℕ) (a : In6Addr) (i : Fin 4) (j : ℕ) :
    (truncateWord e (L / 32) (0xFFFFFFFF#32 <<< (32 - L % 32)) a i).bit j =
      (a.bit j && (decide (j < L) || decide (j / 32 ≠ i))) := by
  rw [truncateWord]
  by_cases hpos : (i : ℕ) = L / 32
  · rw [if_pos hpos, bit_setInt]
    by_cases hword : j / 32 = i
    · have hmod : j % 32 < 32 := Nat.mod_lt _ (by decide)
      have hbit : 32 * (i : ℕ) + j % 32 = j := by omega
      have hlt : j % 32 < L % 32 ↔ j < L := by omega
      rw [if_pos hword, Endian.networkToHost_hostToNetwork, BitVec.getMsbD_and,
        getMsbD_networkToHost_asInts a i hmod, getMsbD_mask (by omega) hmod, hbit]
      simp [hword, hlt]
    · simp [hword]
  · rw [if_neg hpos]
    by_cases hbehind : L / 32 < (i : ℕ)
    · rw [if_pos hbehind, bit_setInt]
      by_cases hword : j / 32 = i
      · have hlt : ¬ j < L := by omega
        have hzero : e.networkToHost (n := 4) 0 = 0 := e.networkToHost_zero
        rw [if_pos hword, hzero]
        simp [hword, hlt]
      · simp [hword]
    · rw [if_neg hbehind]
      by_cases hword : j / 32 = i
      · have hlt : j < L := by omega
        simp [hlt]
      · simp [hword]

/-- The loop over the words. -/
theorem bit_foldl_truncateWord (L : ℕ) (a : In6Addr) (is : List (Fin 4)) (j : ℕ) :
    (is.foldl (truncateWord e (L / 32) (0xFFFFFFFF#32 <<< (32 - L % 32))) a).bit j =
      (a.bit j && (decide (j < L) || decide (∀ i ∈ is, j / 32 ≠ (i : ℕ)))) := by
  induction is generalizing a with
  | nil => simp
  | cons i is ih =>
    rw [List.foldl_cons, ih, bit_truncateWord, Bool.and_assoc]
    congr 1
    by_cases hlt : j < L <;> by_cases hword : j / 32 = i <;> simp [hlt, hword]

/-- What `TruncateIP` does with an address of the first family. -/
theorem truncateIP_inet (a : InAddr) (L : ℕ) :
    truncateIP e (inet a) L =
      inet (if 31 < L then a
        else Bytes.ofValue (n := 4) (a.value &&& (0xFFFFFFFF#32 <<< (32 - L)))) := by
  have hneg : ¬ (L : ℤ) < 0 := by omega
  rw [truncateIP, if_neg hneg]
  by_cases hlong : 31 < L
  · have hlong' : 31 < (L : ℤ) := by omega
    simp only [hlong, hlong', if_true]
  · have hlong' : ¬ 31 < (L : ℤ) := by omega
    simp only [hlong, hlong', if_false]
    by_cases hzero : L = 0
    · have hclear : 0xFFFFFFFF#32 <<< 32 = 0 := by decide
      simp [hzero, ofHostOrder_eq, hclear]
    · have hzero' : ¬ (L : ℤ) = 0 := by omega
      have hshift : (32 - (L : ℤ)).toNat = 32 - L := by omega
      rw [if_neg hzero', networkToHost_sAddr, hshift]
      exact congrArg inet (e.store_hostToNetwork (n := 4) _)

/-- What it does with one of the second. -/
theorem truncateIP_inet6 (a : In6Addr) {L : ℕ} (hshort : ¬ 127 < L) (hzero : L ≠ 0) :
    truncateIP e (inet6 a) L = inet6 ((List.finRange 4).foldl
      (truncateWord e (L / 32) (0xFFFFFFFF#32 <<< (32 - L % 32))) a) := by
  have hneg : ¬ (L : ℤ) < 0 := by omega
  have hshort' : ¬ 127 < (L : ℤ) := by omega
  have hzero' : ¬ (L : ℤ) = 0 := by omega
  have hposition : ((L : ℤ) / 32).toNat = L / 32 := by omega
  have hinner : (32 - ((L : ℤ) - ((L / 32 : ℕ) : ℤ) * 32)).toNat = 32 - L % 32 := by omega
  rw [truncateIP, if_neg hneg]
  simp only [hshort', hzero', if_false, hposition, hinner, mask_setWidth]
  rfl

/-- **The prefix.** The bits below the length are kept, and the others are cleared. -/
theorem bit_truncateIP (ip : IPAddress) (L i : ℕ) :
    (truncateIP e ip L).bit i = (ip.bit i && decide (i < L)) := by
  cases ip with
  | unspec => simp [truncateIP, bit]
  | inet a =>
    rw [truncateIP_inet]
    by_cases hlong : 31 < L
    · rw [if_pos hlong]
      by_cases hi : i < L
      · simp [hi]
      · rw [bit_of_le (show (inet a).width ≤ i by simp only [width]; omega), Bool.false_and]
    · rw [if_neg hlong]
      show (Bytes.ofValue (n := 4) _).bit i = (a.bit i && _)
      rw [Bytes.bit_ofValue, BitVec.getMsbD_and, Bytes.getMsbD_value]
      by_cases hi : i < 32
      · rw [getMsbD_mask (by omega) hi]
      · rw [Bytes.bit_of_le a (by omega), Bool.false_and, Bool.false_and]
  | inet6 a =>
    by_cases hlong : 127 < L
    · have hneg : ¬ (L : ℤ) < 0 := by omega
      have hlong' : 127 < (L : ℤ) := by omega
      rw [truncateIP, if_neg hneg]
      simp only [hlong', if_true]
      by_cases hi : i < L
      · simp [hi]
      · rw [bit_of_le (show (inet6 a).width ≤ i by simp only [width]; omega), Bool.false_and]
    · by_cases hzero : L = 0
      · have hany : in6addrAny.bit i = false := by simp [Bytes.bit, in6addrAny]
        simp [truncateIP, hzero, bit, hany]
      · rw [truncateIP_inet6 a hlong hzero]
        show Bytes.bit _ i = (a.bit i && _)
        rw [bit_foldl_truncateWord]
        by_cases hi : i < 128
        · -- every bit is in one of the words
          have hword : ¬ ∀ w ∈ List.finRange 4, i / 32 ≠ (w : ℕ) := fun hnone =>
            hnone ⟨i / 32, by omega⟩ (List.mem_finRange _) rfl
          simp only [hword, decide_false, Bool.or_false]
        · rw [Bytes.bit_of_le a (by omega), Bool.false_and, Bool.false_and]

theorem family_truncateIP (ip : IPAddress) (L : ℕ) : (truncateIP e ip L).family = ip.family := by
  have hneg : ¬ (L : ℤ) < 0 := by omega
  cases ip with
  | unspec => simp [truncateIP]
  | inet a => rw [truncateIP_inet, family, family]
  | inet6 a =>
    rw [truncateIP, if_neg hneg]
    simp only
    split_ifs <;> rfl

theorem truncateIP_truncateIP (ip : IPAddress) (m n : ℕ) :
    truncateIP e (truncateIP e ip m) n = truncateIP e ip (min m n : ℕ) := by
  apply ext_bit
  · rw [family_truncateIP, family_truncateIP, family_truncateIP]
  · intro i
    rw [bit_truncateIP, bit_truncateIP, bit_truncateIP, Bool.and_assoc]
    simp only [lt_min_iff, Bool.decide_and]

theorem truncateIP_eq_iff (ip jp : IPAddress) (n : ℕ) :
    truncateIP e ip n = truncateIP e jp n ↔
      ip.family = jp.family ∧ ∀ i < n, ip.bit i = jp.bit i := by
  constructor
  · intro heq
    constructor
    · have hfamily := congrArg family heq
      rwa [family_truncateIP, family_truncateIP] at hfamily
    · intro i hi
      have hbit := congrArg (bit · i) heq
      simpa [bit_truncateIP, hi] using hbit
  · rintro ⟨hfamily, hbits⟩
    apply ext_bit
    · rw [family_truncateIP, family_truncateIP, hfamily]
    · intro i
      rw [bit_truncateIP, bit_truncateIP]
      by_cases hi : i < n
      · rw [hbits i hi]
      · simp [hi]

/-! ## The number of bits of a mask -/

/-- The lowest bit that is set. -/
theorem and_neg_eq_twoPow {x : BitVec 32} (hx : x ≠ 0) :
    x &&& (~~~x + 1) = BitVec.twoPow 32 x.ctz.toNat := by
  have hset := BitVec.getLsbD_true_ctz_of_ne_zero hx
  have hneg : ~~~x + 1 = -x := (BitVec.neg_eq_not_add x).symm
  apply BitVec.eq_of_getLsbD_eq
  intro i hi
  rw [hneg, BitVec.getLsbD_and, BitVec.getLsbD_neg, BitVec.getLsbD_twoPow]
  rcases lt_trichotomy i x.ctz.toNat with hlt | heq | hgt
  · rw [BitVec.getLsbD_false_of_lt_ctz hlt]
    simp [hlt.ne']
  · subst heq
    have hlow : ¬ ∃ j < x.ctz.toNat, x.getLsbD j = true := by
      rintro ⟨j, hj, hset'⟩
      rw [BitVec.getLsbD_false_of_lt_ctz hj] at hset'
      cases hset'
    simp [hset, hlow, hi]
  · have hlow : ∃ j < i, x.getLsbD j = true := ⟨x.ctz.toNat, hgt, hset⟩
    simp [hlow, hi, hgt.ne]

/-- The halving of the word finds the bit. -/
theorem countZeroes_twoPow : ∀ k : Fin 32, countZeroes (BitVec.twoPow 32 k) = k := by
  decide

theorem countWord_eq {x : BitVec 32} (hx : x ≠ 0) (bits : ℕ) :
    countWord x bits = bits + (32 - x.ctz.toNat) := by
  have hlt : x.ctz.toNat < 32 := by
    have := (BitVec.ctz_lt_iff_ne_zero (x := x)).2 hx
    simpa [BitVec.lt_def] using this
  rw [countWord, if_neg hx, and_neg_eq_twoPow hx, countZeroes_twoPow ⟨_, hlt⟩]

/-- `TruncateIP` is the projection to the first bits, for every length, and a mask is counted from
its lowest bit. -/
theorem truncateIP_projection (e : Endian) :
    (∀ ip length, length < 0 → truncateIP e ip length = unspec) ∧
    (∀ ip (L : ℕ), (truncateIP e ip L).family = ip.family ∧
      ∀ i, (truncateIP e ip L).bit i = (ip.bit i && decide (i < L))) ∧
    (∀ ip (m n : ℕ), truncateIP e (truncateIP e ip m) n = truncateIP e ip (min m n : ℕ)) ∧
    (∀ ip jp (n : ℕ), truncateIP e ip n = truncateIP e jp n ↔
      ip.family = jp.family ∧ ∀ i < n, ip.bit i = jp.bit i) ∧
    ∀ m : InAddr, m.value ≠ 0 → countIPMaskBits e (inet m) = 32 - m.value.ctz.toNat := by
  refine ⟨fun ip length hneg => by rw [truncateIP.eq_def, if_pos hneg],
    fun ip L => ⟨family_truncateIP ip L, bit_truncateIP ip L⟩, truncateIP_truncateIP,
    truncateIP_eq_iff, fun m hm => ?_⟩
  rw [countIPMaskBits, networkToHost_sAddr, countWord_eq hm, Nat.zero_add]

end IPAddress

end TQLib
