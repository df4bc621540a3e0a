import Mathlib.Data.Fin.Rev
import Mathlib.Data.Nat.Init
import Mathlib.Data.List.Lex
import Mathlib.Data.List.OfFn

/-!
# Integers in memory

A block of bytes is read as an unsigned integer, and written from one. The network has the most
significant byte first, and what a machine has first is its byte order. The bits of a block are
counted as those of an address are, from the most significant bit of the first byte.

## Main results

* `Bytes.value_ofValue`, `Bytes.ofValue_value` — a block is its value
* `Bytes.get_put`, `Bytes.get_put_of_disjoint` — structures laid over a block
* `Endian.networkToHost_load`, `Endian.store_hostToNetwork` — behind the conversions of the network
  the byte order of the machine is not seen
-/

namespace TQLib

/-- A block of memory. -/
abbrev Bytes (n : ℕ) := Fin n → BitVec 8

namespace Bytes

variable {n : ℕ}

/-- The integer that has the first byte as its most significant one. -/
def value : {n : ℕ} → Bytes n → BitVec (8 * n)
  | 0, _ => 0
  | n + 1, b => value (fun i : Fin n => b i.castSucc) ++ b (Fin.last n)

/-- The bytes of an integer, the most significant one first. -/
def ofValue (x : BitVec (8 * n)) : Bytes n := fun i => x.extractLsb' (8 * (n - 1 - i)) 8

/-- A bit of a block. Behind the block there are none. -/
def bit (b : Bytes n) (i : ℕ) : Bool :=
  if h : i / 8 < n then (b ⟨i / 8, h⟩).getMsbD (i % 8) else false

theorem bit_of_le (b : Bytes n) {i : ℕ} (hi : 8 * n ≤ i) : b.bit i = false := by
  rw [bit, dif_neg (by omega)]

/-- A block is its bits. -/
theorem ext_bit {b b' : Bytes n} (h : ∀ i < 8 * n, b.bit i = b'.bit i) : b = b' := by
  funext j
  apply BitVec.eq_of_getMsbD_eq
  intro i hi
  have hbit := h (8 * j + i) (by omega)
  have hdiv : (8 * j + i) / 8 = (j : ℕ) := by omega
  have hmod : (8 * j + i) % 8 = i := by omega
  simpa [bit, hdiv, hmod] using hbit

@[simp] theorem getMsbD_value (b : Bytes n) (i : ℕ) : b.value.getMsbD i = b.bit i := by
  induction n generalizing i with
  | zero => simp [value, bit]
  | succ n ih =>
    show (value (fun i : Fin n => b i.castSucc) ++ b (Fin.last n)).getMsbD i = _
    rw [BitVec.getMsbD_append, ih]
    rw [bit, bit]
    by_cases hi : 8 * n ≤ i
    · -- the last byte
      rw [if_pos hi]
      by_cases hlast : i / 8 < n + 1
      · have hindex : (⟨i / 8, hlast⟩ : Fin (n + 1)) = Fin.last n := Fin.ext (by simp; omega)
        rw [dif_pos hlast, hindex, show i - 8 * n = i % 8 by omega]
      · rw [dif_neg hlast]
        exact BitVec.getMsbD_of_ge _ _ (by omega)
    · rw [if_neg hi, dif_pos (by omega), dif_pos (by omega)]
      rfl

@[simp] theorem bit_ofValue (x : BitVec (8 * n)) (i : ℕ) : (ofValue x).bit i = x.getMsbD i := by
  rw [bit]
  by_cases hi : i / 8 < n
  · rw [dif_pos hi, ofValue, BitVec.getMsbD_eq_getLsbD, BitVec.getMsbD_eq_getLsbD,
      BitVec.getLsbD_extractLsb']
    have hmod : i % 8 < 8 := Nat.mod_lt _ (by decide)
    have hwidth : i < 8 * n := by omega
    have hbyte : 8 - 1 - i % 8 < 8 := by omega
    have hindex : 8 * (n - 1 - i / 8) + (8 - 1 - i % 8) = 8 * n - 1 - i := by omega
    simp only [hindex, hmod, hwidth, hbyte, decide_true, Bool.true_and]
  · rw [dif_neg hi]
    exact (BitVec.getMsbD_of_ge _ _ (by omega)).symm

@[simp] theorem value_ofValue (x : BitVec (8 * n)) : (ofValue x).value = x :=
  BitVec.eq_of_getMsbD_eq fun i _ => by rw [getMsbD_value, bit_ofValue]

@[simp] theorem ofValue_value (b : Bytes n) : ofValue b.value = b :=
  ext_bit fun i _ => by rw [bit_ofValue, getMsbD_value]

theorem value_injective : Function.Injective (value : Bytes n → BitVec (8 * n)) :=
  Function.LeftInverse.injective ofValue_value

/-! ## Members of a block -/

section

variable {len len' off off' : ℕ}

/-- The member of a block that is at an offset. -/
def get (b : Bytes n) (off len : ℕ) : Bytes len := fun i =>
  if h : off + i < n then b ⟨off + i, h⟩ else 0

/-- Write a member. -/
def put (b : Bytes n) (off : ℕ) (x : Bytes len) : Bytes n := fun i =>
  if h : off ≤ i ∧ (i : ℕ) - off < len then x ⟨i - off, h.2⟩ else b i

theorem get_put (b : Bytes n) (x : Bytes len) (h : off + len ≤ n) :
    (b.put off x).get off len = x := by
  funext i
  have hi : off + (i : ℕ) < n := by omega
  simp [get, put, hi]

theorem get_put_of_disjoint (b : Bytes n) (x : Bytes len)
    (h : off + len ≤ off' ∨ off' + len' ≤ off) : (b.put off x).get off' len' = b.get off' len' := by
  funext i
  have hout : ¬ (off ≤ off' + (i : ℕ) ∧ off' + (i : ℕ) - off < len) := by omega
  simp only [get, put, hout, dif_neg, not_false_eq_true]

end

/-! ## Comparison -/

/-- `memcmp`, of blocks of one length. -/
def memcmp : List (BitVec 8) → List (BitVec 8) → Ordering
  | x :: xs, y :: ys => if x = y then memcmp xs ys else if x < y then .lt else .gt
  | _, _ => .eq

theorem memcmp_eq_iff {l l' : List (BitVec 8)} (hlen : l.length = l'.length) :
    memcmp l l' = .eq ↔ l = l' := by
  induction l generalizing l' with
  | nil =>
    cases l' with
    | nil => simp [memcmp]
    | cons y ys => cases hlen
  | cons x xs ih =>
    cases l' with
    | nil => cases hlen
    | cons y ys =>
      rw [memcmp, List.cons.injEq]
      by_cases hxy : x = y
      · rw [if_pos hxy, ih (by simpa using hlen)]
        simp [hxy]
      · rw [if_neg hxy]
        split <;> simp [hxy]

theorem memcmp_ofFn_eq_iff {a b : Bytes n} : memcmp (List.ofFn a) (List.ofFn b) = .eq ↔ a = b := by
  rw [memcmp_eq_iff (by rw [List.length_ofFn, List.length_ofFn]), List.ofFn_injective.eq_iff]

/-- The first bytes of two blocks. -/
theorem take_ofFn_eq_iff {k : ℕ} {a b : Bytes n} :
    (List.ofFn a).take k = (List.ofFn b).take k ↔ ∀ i : Fin n, (i : ℕ) < k → a i = b i := by
  constructor
  · intro heq i hi
    have hget := congrArg (·[(i : ℕ)]?) heq
    simpa [List.getElem?_take, hi] using hget
  · intro hbytes
    apply List.ext_getElem
    · simp
    · intro i hi hi'
      rw [List.length_take, List.length_ofFn, Nat.lt_min] at hi
      simpa using hbytes ⟨i, hi.2⟩ hi.1

/-- What comes first is less. -/
theorem memcmp_lt_iff {l l' : List (BitVec 8)} (hlen : l.length = l'.length) :
    memcmp l l' = .lt ↔ l.map BitVec.toNat < l'.map BitVec.toNat := by
  induction l generalizing l' with
  | nil =>
    cases l' with
    | nil => simp [memcmp]
    | cons y ys => cases hlen
  | cons x xs ih =>
    cases l' with
    | nil => cases hlen
    | cons y ys =>
      rw [memcmp, List.map_cons, List.map_cons, List.cons_lt_cons_iff, ← BitVec.lt_def]
      by_cases hxy : x = y
      · rw [if_pos hxy, ih (by simpa using hlen)]
        simp [hxy]
      · rw [if_neg hxy]
        split <;> simp_all [BitVec.toNat_inj]

end Bytes

/-- Which byte of an integer a machine has first. -/
inductive Endian
  | little
  | big
  deriving DecidableEq

namespace Endian

variable {n : ℕ} (e : Endian)

/-- The bytes of a block in the order from the most significant one on, and back. -/
def reorder (b : Bytes n) : Bytes n :=
  match e with
  | big => b
  | little => b ∘ Fin.rev

/-- Read an integer. -/
def load (b : Bytes n) : BitVec (8 * n) := (e.reorder b).value

/-- Write an integer. -/
def store (x : BitVec (8 * n)) : Bytes n := e.reorder (.ofValue x)

/-- From the byte order of the machine to that of the network. -/
def hostToNetwork (x : BitVec (8 * n)) : BitVec (8 * n) := (e.reorder (Bytes.ofValue x)).value

/-- From the byte order of the network to that of the machine. -/
def networkToHost (x : BitVec (8 * n)) : BitVec (8 * n) := (e.reorder (Bytes.ofValue x)).value

@[simp] theorem reorder_reorder (b : Bytes n) : e.reorder (e.reorder b) = b := by
  cases e with
  | big => rfl
  | little =>
    funext i
    simp [reorder]

@[simp] theorem load_store (x : BitVec (8 * n)) : e.load (e.store x) = x := by
  rw [load, store, reorder_reorder, Bytes.value_ofValue]

@[simp] theorem networkToHost_load (b : Bytes n) : e.networkToHost (e.load b) = b.value := by
  rw [networkToHost, load, Bytes.ofValue_value, reorder_reorder]

@[simp] theorem store_hostToNetwork (x : BitVec (8 * n)) :
    e.store (e.hostToNetwork x) = .ofValue x := by
  rw [store, hostToNetwork, Bytes.ofValue_value, reorder_reorder]

/-- The bits of what is written are those of what goes over the network. -/
@[simp] theorem bit_store (x : BitVec (8 * n)) (i : ℕ) :
    (e.store x).bit i = (e.networkToHost x).getMsbD i := by
  rw [store, networkToHost, Bytes.getMsbD_value]

@[simp] theorem networkToHost_zero : e.networkToHost (0 : BitVec (8 * n)) = 0 := by
  apply BitVec.eq_of_getMsbD_eq
  intro i hi
  have hzero : Bytes.ofValue (0 : BitVec (8 * n)) = fun _ => 0 := by
    funext j
    simp [Bytes.ofValue]
  have hreorder : e.reorder (fun _ : Fin n => (0 : BitVec 8)) = fun _ => 0 := by cases e <;> rfl
  rw [networkToHost, hzero, hreorder, Bytes.getMsbD_value]
  simp [Bytes.bit]

@[simp] theorem networkToHost_hostToNetwork (x : BitVec (8 * n)) :
    e.networkToHost (e.hostToNetwork x) = x := by
  rw [networkToHost, hostToNetwork, Bytes.ofValue_value, reorder_reorder, Bytes.value_ofValue]

end Endian

end TQLib
