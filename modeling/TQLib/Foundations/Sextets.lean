import Mathlib.Tactic.IntervalCases
import Mathlib.Data.Nat.Notation

/-!
# Bytes as sextets

Three bytes hold the bits of four numbers of six bits each. A list of bytes is regrouped as a list
of such sextets, three bytes at a time, and what is left at the end is filled up with zero bits. A
list of sextets is regrouped as bytes, four sextets at a time. At the end two or three sextets give
one or two bytes, and bits are spare; one sextet alone gives nothing.

## Main definitions

* `sextets`, `octets` — the two ways of regrouping
* `spare` — the bits which are left when sextets have been regrouped

## Main results

* `octets_sextets` — no byte is lost
* `sextets_octets` — sextets come back where their number is right and no bit that is spare is set
-/

namespace TQLib

/-! ### Three bytes and four sextets -/

/-- The first sextet of three bytes. -/
def sextet₁ (a : UInt8) : UInt8 := a >>> 2 &&& 0x3f

/-- The second sextet of three bytes. -/
def sextet₂ (a b : UInt8) : UInt8 := (a <<< 4 &&& (0x3f : UInt8)) ||| (b >>> 4 &&& (0x0f : UInt8))

/-- The third sextet of three bytes. -/
def sextet₃ (b c : UInt8) : UInt8 := (b <<< 2 &&& (0x3f : UInt8)) ||| (c >>> 6 &&& (0x03 : UInt8))

/-- The fourth sextet of three bytes. -/
def sextet₄ (c : UInt8) : UInt8 := c &&& 0x3f

/-- The first byte of four sextets. -/
def octet₁ (s t : UInt8) : UInt8 := s <<< 2 ||| (t >>> 4 &&& (0x3 : UInt8))

/-- The second byte of four sextets. -/
def octet₂ (t u : UInt8) : UInt8 := (t <<< 4 &&& (0xf0 : UInt8)) ||| (u >>> 2 &&& (0xf : UInt8))

/-- The third byte of four sextets. -/
def octet₃ (u v : UInt8) : UInt8 := (u <<< 6 &&& (0xc0 : UInt8)) ||| v

/-- What holds of the bytes below `n`, one after the other. -/
theorem forall_byte_lt (P : UInt8 → Prop) (n : UInt8) (h : ∀ k < n.toNat, P (UInt8.ofNat k))
    {b : UInt8} (hb : b < n) : P b := by
  have hk := h b.toNat hb
  rwa [UInt8.ofNat_toNat] at hk

/-- What holds of all bytes, one after the other. -/
theorem forall_byte (P : UInt8 → Prop) (h : ∀ k < 256, P (UInt8.ofNat k)) (b : UInt8) : P b := by
  have hk := h b.toNat b.toNat_lt
  rwa [UInt8.ofNat_toNat] at hk

theorem and_of_lt {s : UInt8} (hs : s < 64) : s &&& 0x3f = s :=
  forall_byte_lt (fun s => s &&& 0x3f = s) 64 (by decide) hs

theorem lt_of_and {s : UInt8} (hs : s &&& 0x3f = s) : s < 64 := by
  have hle : (s &&& 0x3f).toNat ≤ 63 := by
    rw [UInt8.toNat_and]
    exact Nat.and_le_right
  rw [← hs, UInt8.lt_iff_toNat_lt]
  exact Nat.lt_succ_of_le hle

theorem sextet₁_lt (a : UInt8) : sextet₁ a < 64 := by
  apply lt_of_and
  apply UInt8.toBitVec_inj.mp
  ext i hi
  interval_cases i <;> simp [sextet₁]

theorem sextet₂_lt (a b : UInt8) : sextet₂ a b < 64 := by
  apply lt_of_and
  apply UInt8.toBitVec_inj.mp
  ext i hi
  interval_cases i <;> simp [sextet₂]

theorem sextet₃_lt (b c : UInt8) : sextet₃ b c < 64 := by
  apply lt_of_and
  apply UInt8.toBitVec_inj.mp
  ext i hi
  interval_cases i <;> simp [sextet₃]

theorem sextet₄_lt (c : UInt8) : sextet₄ c < 64 := by
  apply lt_of_and
  apply UInt8.toBitVec_inj.mp
  ext i hi
  interval_cases i <;> simp [sextet₄]

theorem octet₁_sextets (a b : UInt8) : octet₁ (sextet₁ a) (sextet₂ a b) = a := by
  apply UInt8.toBitVec_inj.mp
  ext i hi
  interval_cases i <;> simp [octet₁, sextet₁, sextet₂]

theorem octet₂_sextets (a b c : UInt8) : octet₂ (sextet₂ a b) (sextet₃ b c) = b := by
  apply UInt8.toBitVec_inj.mp
  ext i hi
  interval_cases i <;> simp [octet₂, sextet₂, sextet₃]

theorem octet₃_sextets (b c : UInt8) : octet₃ (sextet₃ b c) (sextet₄ c) = c := by
  apply UInt8.toBitVec_inj.mp
  ext i hi
  interval_cases i <;> simp [octet₃, sextet₃, sextet₄]

section

variable {s t u v : UInt8}

theorem sextet₁_octets (hs : s < 64) : sextet₁ (octet₁ s t) = s := by
  rw [← and_of_lt hs]
  apply UInt8.toBitVec_inj.mp
  ext i hi
  interval_cases i <;> simp [octet₁, sextet₁]

theorem sextet₂_octets (ht : t < 64) : sextet₂ (octet₁ s t) (octet₂ t u) = t := by
  rw [← and_of_lt ht]
  apply UInt8.toBitVec_inj.mp
  ext i hi
  interval_cases i <;> simp [octet₁, octet₂, sextet₂]

theorem sextet₃_octets (hu : u < 64) (hv : v < 64) : sextet₃ (octet₂ t u) (octet₃ u v) = u := by
  rw [← and_of_lt hu, ← and_of_lt hv]
  apply UInt8.toBitVec_inj.mp
  ext i hi
  interval_cases i <;> simp [octet₂, octet₃, sextet₃]

theorem sextet₄_octet (hv : v < 64) : sextet₄ (octet₃ u v) = v := by
  rw [← and_of_lt hv]
  apply UInt8.toBitVec_inj.mp
  ext i hi
  interval_cases i <;> simp [octet₃, sextet₄]

end

theorem sextet₂_octet {t : UInt8} (ht : t < 64) (h : octet₂ t 0 = 0) (s : UInt8) :
    sextet₂ (octet₁ s t) 0 = t := by
  rw [← h]
  exact sextet₂_octets ht

theorem sextet₃_octet {u : UInt8} (hu : u < 64) (h : octet₃ u 0 = 0) (t : UInt8) :
    sextet₃ (octet₂ t u) 0 = u := by
  rw [← h]
  exact sextet₃_octets hu (by decide)

/-! ### Lists -/

/-- The sextets of a list of bytes. -/
def sextets : List UInt8 → List UInt8
  | [] => []
  | [a] => [sextet₁ a, sextet₂ a 0]
  | [a, b] => [sextet₁ a, sextet₂ a b, sextet₃ b 0]
  | a :: b :: c :: x => sextet₁ a :: sextet₂ a b :: sextet₃ b c :: sextet₄ c :: sextets x

/-- The bytes of a list of sextets. -/
def octets : List UInt8 → List UInt8
  | s :: t :: u :: v :: l => octet₁ s t :: octet₂ t u :: octet₃ u v :: octets l
  | [s, t, u] => [octet₁ s t, octet₂ t u]
  | [s, t] => [octet₁ s t]
  | [_] | [] => []

/-- The bits of a list of sextets which are in none of its bytes, in the place which they would
have in the next byte. -/
def spare : List UInt8 → UInt8
  | _ :: _ :: _ :: _ :: l => spare l
  | [_, _, u] => octet₃ u 0
  | [_, t] => octet₂ t 0
  | [s] => octet₁ s 0
  | [] => 0

/-- Four sextets in front are three bytes in front. -/
theorem octets_append {l : List UInt8} (h : l.length = 4) (m : List UInt8) :
    octets (l ++ m) = octets l ++ octets m := by
  match l with
  | [s, t, u, v] => rfl

/-- **No byte is lost.** -/
theorem octets_sextets (x : List UInt8) : octets (sextets x) = x := by
  induction x using sextets.induct with
  | case1 => rfl
  | case2 a => rw [sextets, octets, octet₁_sextets]
  | case3 a b => rw [sextets, octets, octet₁_sextets, octet₂_sextets]
  | case4 a b c x ih =>
    rw [sextets, octets, octet₁_sextets, octet₂_sextets, octet₃_sextets, ih]

theorem sextets_injective : Function.Injective sextets :=
  Function.LeftInverse.injective octets_sextets

/-- Only zeros are filled up with. -/
theorem spare_sextets (x : List UInt8) : spare (sextets x) = 0 := by
  induction x using sextets.induct with
  | case1 => rfl
  | case2 a =>
    apply UInt8.toBitVec_inj.mp
    ext i hi
    interval_cases i <;> simp [sextets, spare, octet₂, sextet₂]
  | case3 a b =>
    apply UInt8.toBitVec_inj.mp
    ext i hi
    interval_cases i <;> simp [sextets, spare, octet₃, sextet₃]
  | case4 a b c x ih => rw [sextets, spare, ih]

theorem length_sextets (x : List UInt8) : (sextets x).length = x.length + (x.length + 2) / 3 := by
  induction x using sextets.induct with
  | case1 => rfl
  | case2 a => simp [sextets]
  | case3 a b => simp [sextets]
  | case4 a b c x ih =>
    simp only [sextets, List.length_cons, ih]
    omega

theorem lt_of_mem_sextets {x : List UInt8} {s : UInt8} (hs : s ∈ sextets x) : s < 64 := by
  induction x using sextets.induct with
  | case1 => simp [sextets] at hs
  | case2 a =>
    simp only [sextets, List.mem_cons, List.not_mem_nil, or_false] at hs
    rcases hs with rfl | rfl
    exacts [sextet₁_lt a, sextet₂_lt a 0]
  | case3 a b =>
    simp only [sextets, List.mem_cons, List.not_mem_nil, or_false] at hs
    rcases hs with rfl | rfl | rfl
    exacts [sextet₁_lt a, sextet₂_lt a b, sextet₃_lt b 0]
  | case4 a b c x ih =>
    simp only [sextets, List.mem_cons] at hs
    rcases hs with rfl | rfl | rfl | rfl | hs
    exacts [sextet₁_lt a, sextet₂_lt a b, sextet₃_lt b c, sextet₄_lt c, ih hs]

/-- **Sextets come back** where bytes can have them: their number is not one more than a multiple of
four, and no bit that is spare is set. -/
theorem sextets_octets {l : List UInt8} (hl : ∀ s ∈ l, s < 64) (hn : l.length % 4 ≠ 1)
    (hz : spare l = 0) : sextets (octets l) = l := by
  induction l using octets.induct with
  | case1 s t u v l ih =>
    simp only [List.mem_cons, forall_eq_or_imp] at hl
    obtain ⟨hs, ht, hu, hv, hl⟩ := hl
    have hn' : l.length % 4 ≠ 1 := by
      simp only [List.length_cons] at hn
      omega
    rw [octets, sextets, sextet₁_octets hs, sextet₂_octets ht, sextet₃_octets hu hv,
      sextet₄_octet hv, ih hl hn' hz]
  | case2 s t u =>
    simp only [List.mem_cons, forall_eq_or_imp] at hl
    rw [octets, sextets, sextet₁_octets hl.1, sextet₂_octets hl.2.1,
      sextet₃_octet hl.2.2.1 hz]
  | case3 s t =>
    simp only [List.mem_cons, forall_eq_or_imp] at hl
    rw [octets, sextets, sextet₁_octets hl.1, sextet₂_octet hl.2.1 hz]
  | case4 s => simp at hn
  | case5 => rfl

end TQLib
