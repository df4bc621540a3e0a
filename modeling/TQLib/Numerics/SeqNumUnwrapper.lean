import TQLib.Foundations.Signed
import TQLib.Numerics.SequenceNumber
import Mathlib.Data.List.Range
import Mathlib.Tactic.NormNum

/-!
# The sequence number unwrapper

`SeqNumUnwrapper` of `rtc_base/numerics/sequence_number_util.h`, with `AheadOrAt` of the same file
and the modular differences of `rtc_base/numerics/mod_ops.h`. The template has an unsigned type `T`
narrower than `int64_t` and a modulus `M`, where `M == 0` stands for the range of `T`.

The arithmetic is that of the source: a difference of two values of `T` is one of `int` where `T` is
narrower than `int` and one modulo the range of `T` elsewhere, what a function returns is converted
to `T`, and a sum that leaves `int64_t` is undefined, written `none`.

`Unwrap` first adds the way forward and then takes the modulus off again where the new value is
behind. The unwrapped values may all fit `int64_t` where that first sum does not.

## Main results

* `SeqNum.forwardDiff_eq`, `SeqNum.aheadOrAt_iff` — the differences are those of the residues
* `SeqNum.run_eq_some_iff` — when the results are the unwrapped values
* `SeqNum.unwrap_iff` — the whole of it, with the sequences whose steps are short
-/

namespace TQLib

/-- The template arguments `T`, by its width, and `M`. -/
structure SeqNum where
  /-- The width of `T`. -/
  width : ℕ
  /-- The modulus, or zero for the range of `T`. -/
  M : ℤ
  width_pos : 0 < width
  width_le : width ≤ 62
  M_nonneg : 0 ≤ M
  M_lt : M < 2 ^ width

namespace SeqNum

variable (T : SeqNum)

/-- `std::numeric_limits<T>::max()`. -/
def max : ℤ := 2 ^ T.width - 1

/-- A conversion to `T`. -/
def toT (x : ℤ) : ℤ := x % 2 ^ T.width

/-- `a - b` for two values of `T`. -/
def minus (a b : ℤ) : ℤ := if T.width < 32 then a - b else T.toT (a - b)

/-- `ForwardDiff`. -/
def forwardDiff (a b : ℤ) : ℤ :=
  if T.M = 0 then T.toT (T.minus b a)
  else if a ≤ b then T.toT (T.minus b a) else T.toT (T.minus T.M (T.minus a b))

/-- `ReverseDiff`. -/
def reverseDiff (a b : ℤ) : ℤ :=
  if T.M = 0 then T.toT (T.minus a b)
  else if b ≤ a then T.toT (T.minus a b) else T.toT (T.minus T.M (T.minus b a))

/-- `MinDiff`. -/
def minDiff (a b : ℤ) : ℤ := min (T.forwardDiff a b) (T.reverseDiff a b)

/-- `AheadOrAt`. -/
def aheadOrAt (a b : ℤ) : Bool :=
  if T.M = 0 then
    let maxDist := T.toT (T.max / 2 + 1)
    if T.minus a b = maxDist then b < a else T.forwardDiff b a < maxDist
  else
    let maxDist := T.M / 2
    if T.M % 2 = 0 ∧ T.minDiff a b = maxDist then b < a else T.forwardDiff b a ≤ maxDist

/-- `kBackwardAdjustment`. -/
def kBackwardAdjustment : ℤ := if T.M = 0 then T.max + 1 else T.M

/-- The members of a `SeqNumUnwrapper`. -/
structure Unwrapper where
  /-- `last_unwrapped_`. -/
  lastUnwrapped : ℤ
  /-- `last_value_`. -/
  lastValue : Option ℤ
  deriving DecidableEq

/-- A constructed `SeqNumUnwrapper`. -/
def Unwrapper.init : Unwrapper := ⟨0, none⟩

/-- What is left in the members at the end of each of the three. -/
def keep (value lastUnwrapped : ℤ) : ℤ × Unwrapper :=
  (lastUnwrapped, ⟨lastUnwrapped, some value⟩)

/-- `Unwrap`. -/
def unwrap (s : Unwrapper) (value : ℤ) : Option (ℤ × Unwrapper) :=
  match s.lastValue with
  | none => some (keep value value)
  | some lastValue => do
    let sum ← signed 64 (s.lastUnwrapped + T.forwardDiff lastValue value)
    if T.aheadOrAt value lastValue then some (keep value sum)
    else (signed 64 (sum - T.kBackwardAdjustment)).map (keep value)

/-- `UnwrapForward`. -/
def unwrapForward (s : Unwrapper) (value : ℤ) : Option (ℤ × Unwrapper) :=
  match s.lastValue with
  | none => some (keep value value)
  | some lastValue =>
    (signed 64 (s.lastUnwrapped + T.forwardDiff lastValue value)).map (keep value)

/-- `UnwrapBackwards`. -/
def unwrapBackwards (s : Unwrapper) (value : ℤ) : Option (ℤ × Unwrapper) :=
  match s.lastValue with
  | none => some (keep value value)
  | some lastValue =>
    (signed 64 (s.lastUnwrapped - T.reverseDiff lastValue value)).map (keep value)

/-- A call of one of the three. -/
inductive Call
  | unwrap (value : ℤ)
  | unwrapForward (value : ℤ)
  | unwrapBackwards (value : ℤ)
  deriving DecidableEq

/-- The argument of a call. -/
def Call.value : Call → ℤ
  | .unwrap value | .unwrapForward value | .unwrapBackwards value => value

/-- The call is made. -/
def call (s : Unwrapper) : Call → Option (ℤ × Unwrapper)
  | .unwrap value => T.unwrap s value
  | .unwrapForward value => T.unwrapForward s value
  | .unwrapBackwards value => T.unwrapBackwards s value

/-- What a sequence of calls returns. -/
def run : Unwrapper → List Call → Option (List ℤ)
  | _, [] => some []
  | s, c :: cs => do
    let (x, s') ← T.call s c
    (run s' cs).map (x :: ·)

/-! ### What unwrapping is for -/

/-- Where the values wrap. -/
def modulus : ℤ := if T.M = 0 then 2 ^ T.width else T.M

/-- A value that may be unwrapped. -/
def Below (a : ℤ) : Prop := 0 ≤ a ∧ a < T.modulus

/-- What a call may return, from the last unwrapped value and the last value. The first value
unwraps to itself. -/
def Next : Option (ℤ × ℤ) → Call → ℤ → Prop
  | none, c, x => x = c.value
  | some (u, b), .unwrap a, x => x ≡ a [ZMOD T.modulus] ∧ 2 * |x - u| ≤ T.modulus ∧
      (2 * |x - u| = T.modulus → (u < x ↔ b < a))
  | some (u, _), .unwrapForward a, x => x ≡ a [ZMOD T.modulus] ∧ u ≤ x ∧ x < u + T.modulus
  | some (u, _), .unwrapBackwards a, x => x ≡ a [ZMOD T.modulus] ∧ x ≤ u ∧ u - T.modulus < x

/-- What a sequence of calls may return. -/
def Unwraps : Option (ℤ × ℤ) → List Call → List ℤ → Prop
  | _, [], [] => True
  | last, c :: cs, x :: xs => T.Next last c x ∧ Unwraps (some (x, c.value)) cs xs
  | _, _, _ => False

/-- The last unwrapped value and the way forward to the new value add up to no more than the largest
`int64_t`. Only `Unwrap` asks for it, and not at the first value. -/
def HasRoom : Option (ℤ × ℤ) → Call → Prop
  | some (u, b), .unwrap a => u + Residues.forward T.modulus b a < 2 ^ 63
  | _, _ => True

/-- There is room at every call. -/
def Fits : Option (ℤ × ℤ) → List Call → List ℤ → Prop
  | last, c :: cs, x :: xs => T.HasRoom last c ∧ Fits (some (x, c.value)) cs xs
  | _, _, _ => True

/-! ### The differences -/

variable {T} {a b u x : ℤ} {c : Call} {cs : List Call} {xs : List ℤ} {last : Option (ℤ × ℤ)}

/-- The arguments of the comparison, which does not ask for a type narrower than `int64_t`. -/
def type (T : SeqNum) : SeqNumType := ⟨T.width, T.M, T.width_pos, T.M_nonneg, T.M_lt⟩

theorem modulus_pos : 0 < T.modulus := SeqNumType.modulus_pos (T := T.type)

theorem modulus_le : T.modulus ≤ 2 ^ T.width := SeqNumType.modulus_le (T := T.type)

theorem kBackwardAdjustment_eq : T.kBackwardAdjustment = T.modulus := by
  rw [kBackwardAdjustment, modulus, max, sub_add_cancel]

/-- `ForwardDiff` is the way forward. -/
theorem forwardDiff_eq (ha : T.Below a) (hb : T.Below b) :
    T.forwardDiff a b = Residues.forward T.modulus a b :=
  SeqNumType.forwardDiff_eq (T := T.type) ha hb

/-- The way back is the way forward from the other side. -/
theorem reverseDiff_eq (a b : ℤ) : T.reverseDiff a b = T.forwardDiff b a := rfl

/-- `AheadOrAt` tells the short way, and the side of a tie. -/
theorem aheadOrAt_iff (ha : T.Below a) (hb : T.Below b) :
    T.aheadOrAt a b = true ↔ Residues.Ahead T.modulus b a :=
  SeqNumType.aheadOrAt_iff (T := T.type) ha hb

/-! ### One call -/

/-- The last unwrapped value has the last value for its residue. -/
def Agrees (T : SeqNum) (last : Option (ℤ × ℤ)) : Prop :=
  ∀ p ∈ last, p.1 ≡ p.2 [ZMOD T.modulus] ∧ T.Below p.2

/-- The value that a call unwraps to. -/
def target (T : SeqNum) : Option (ℤ × ℤ) → Call → ℤ
  | none, c => c.value
  | some (u, b), .unwrap a => Residues.nearest T.modulus u b a
  | some (u, b), .unwrapForward a => u + Residues.forward T.modulus b a
  | some (u, b), .unwrapBackwards a => u - Residues.forward T.modulus a b

theorem target_modEq (hlast : T.Agrees last) (c : Call) :
    T.target last c ≡ c.value [ZMOD T.modulus] := by
  obtain _ | ⟨u, b⟩ := last
  · exact Int.ModEq.refl _
  · obtain ⟨hu, -⟩ := hlast _ rfl
    cases c with
    | unwrap a => exact Residues.nearest_modEq hu a
    | unwrapForward a => exact Residues.add_forward_modEq hu a
    | unwrapBackwards a => exact Residues.sub_forward_modEq hu a

theorem agrees_target (hlast : T.Agrees last) (hc : T.Below c.value) :
    T.Agrees (some (T.target last c, c.value)) := by
  rintro p ⟨⟩
  exact ⟨target_modEq hlast c, hc⟩

/-- What a call may return is one value. -/
theorem next_iff (hlast : T.Agrees last) (hc : T.Below c.value) :
    T.Next last c x ↔ x = T.target last c := by
  have hm := modulus_pos (T := T)
  have hmod := target_modEq hlast c
  obtain _ | ⟨u, b⟩ := last
  · exact Iff.rfl
  obtain ⟨hu, hb⟩ := hlast _ rfl
  cases c with
  | unwrap a =>
    constructor
    · rintro ⟨hx, hle, htie⟩
      exact (Residues.nearest_eq hm hb hc hu hx hle htie).symm
    · rintro rfl
      exact ⟨hmod, Residues.nearest_abs_le hm u b a, Residues.nearest_tie hm hb hc⟩
  | unwrapForward a =>
    constructor
    · rintro ⟨hx, hle, hlt⟩
      have hd := Residues.eq_forward (by omega) (by omega) (hx.sub hu)
      rw [target, ← hd, add_sub_cancel]
    · rintro rfl
      have hnonneg := Residues.forward_nonneg hm b a
      have hlt := Residues.forward_lt hm b a
      exact ⟨hmod, by rw [target]; omega, by rw [target]; omega⟩
  | unwrapBackwards a =>
    constructor
    · rintro ⟨hx, hle, hlt⟩
      have hd := Residues.eq_forward (by omega) (by omega) (hu.sub hx)
      rw [target, ← hd, sub_sub_cancel]
    · rintro rfl
      have hnonneg := Residues.forward_nonneg hm a b
      have hlt := Residues.forward_lt hm a b
      exact ⟨hmod, by rw [target]; omega, by rw [target]; omega⟩

/-- `Unwrap` after the first value, in terms of the residues. -/
theorem unwrap_some (ha : T.Below a) (hb : T.Below b) (u : ℤ) :
    T.unwrap ⟨u, some b⟩ a = (signed 64 (u + Residues.forward T.modulus b a)).bind fun sum =>
      if Residues.Ahead T.modulus b a then some (keep a sum)
      else (signed 64 (sum - T.modulus)).map (keep a) := by
  show ((signed 64 (u + T.forwardDiff b a)).bind fun sum =>
    if T.aheadOrAt a b then some (keep a sum)
    else (signed 64 (sum - T.kBackwardAdjustment)).map (keep a)) = _
  rw [forwardDiff_eq hb ha, kBackwardAdjustment_eq]
  simp only [aheadOrAt_iff ha hb]

theorem unwrapForward_some (ha : T.Below a) (hb : T.Below b) (u : ℤ) :
    T.unwrapForward ⟨u, some b⟩ a =
      (signed 64 (u + Residues.forward T.modulus b a)).map (keep a) := by
  rw [← forwardDiff_eq hb ha]
  rfl

theorem unwrapBackwards_some (ha : T.Below a) (hb : T.Below b) (u : ℤ) :
    T.unwrapBackwards ⟨u, some b⟩ a =
      (signed 64 (u - Residues.forward T.modulus a b)).map (keep a) := by
  rw [← forwardDiff_eq ha hb]
  rfl

/-- The members after a call, or those constructed. -/
def Unwrapper.after : Option (ℤ × ℤ) → Unwrapper
  | none => .init
  | some (u, b) => ⟨u, some b⟩

/-- Where there is room, a call returns the value that it unwraps to. -/
theorem call_of_hasRoom (hlast : T.Agrees last) (hc : T.Below c.value)
    (hu : ∀ p ∈ last, InSigned 64 p.1) (hx : InSigned 64 (T.target last c)) (h : T.HasRoom last c) :
    T.call (.after last) c =
      some (T.target last c, .after (some (T.target last c, c.value))) := by
  obtain _ | ⟨u, b⟩ := last
  · cases c <;> rfl
  obtain ⟨-, hb⟩ := hlast _ rfl
  cases c with
  | unwrap a =>
    have ha : T.Below a := hc
    have hnonneg := Residues.forward_nonneg (modulus_pos (T := T)) b a
    have hsum : InSigned 64 (u + Residues.forward T.modulus b a) := by
      refine ⟨?_, h⟩
      have hlow : -2 ^ 63 ≤ u := (hu _ rfl).1
      omega
    rw [Unwrapper.after, call, unwrap_some ha hb, signed_of hsum, Option.bind_some]
    rw [target, Residues.nearest] at hx ⊢
    by_cases hahead : Residues.Ahead T.modulus b a
    · rw [if_pos hahead, if_pos hahead]
      rfl
    · rw [if_neg hahead] at hx
      rw [if_neg hahead, if_neg hahead, signed_of hx]
      rfl
  | unwrapForward a =>
    have ha : T.Below a := hc
    rw [Unwrapper.after, call, unwrapForward_some ha hb]
    exact congrArg _ (signed_of hx)
  | unwrapBackwards a =>
    have ha : T.Below a := hc
    rw [Unwrapper.after, call, unwrapBackwards_some ha hb]
    exact congrArg _ (signed_of hx)

/-- Where there is none, the first sum of `Unwrap` leaves `int64_t`. -/
theorem call_of_not_hasRoom (hlast : T.Agrees last) (hc : T.Below c.value)
    (h : ¬ T.HasRoom last c) : T.call (.after last) c = none := by
  obtain _ | ⟨u, b⟩ := last
  · exact absurd trivial h
  obtain ⟨-, hb⟩ := hlast _ rfl
  cases c with
  | unwrap a =>
    have ha : T.Below a := hc
    have hout : ¬ InSigned 64 (u + Residues.forward T.modulus b a) := fun hin => h hin.2
    rw [Unwrapper.after, call, unwrap_some ha hb, signed_of_not hout]
    rfl
  | unwrapForward a => exact absurd trivial h
  | unwrapBackwards a => exact absurd trivial h

/-! ### All calls -/

/-- The values that a sequence of calls unwraps to. -/
def targets (T : SeqNum) : Option (ℤ × ℤ) → List Call → List ℤ
  | _, [] => []
  | last, c :: cs => T.target last c :: targets T (some (T.target last c, c.value)) cs

/-- What a sequence of calls may return is one list of values. -/
theorem unwraps_iff (hlast : T.Agrees last) (hcs : ∀ c ∈ cs, T.Below c.value) :
    T.Unwraps last cs xs ↔ xs = T.targets last cs := by
  induction cs generalizing last xs with
  | nil =>
    cases xs with
    | nil => exact iff_of_true trivial rfl
    | cons x xs => exact iff_of_false id (List.cons_ne_nil x xs)
  | cons c cs ih =>
    obtain ⟨hc, hcs⟩ := List.forall_mem_cons.mp hcs
    cases xs with
    | nil => exact iff_of_false id (List.cons_ne_nil _ _).symm
    | cons x xs =>
      rw [Unwraps, next_iff hlast hc, targets, List.cons.injEq, and_congr_right_iff]
      rintro rfl
      exact ih (agrees_target hlast hc) hcs

/-- The calls return what they should as long as there is room. -/
theorem run_cases (hlast : T.Agrees last) (hu : ∀ p ∈ last, InSigned 64 p.1)
    (hcs : ∀ c ∈ cs, T.Below c.value) (hxs : T.Unwraps last cs xs) (hin : ∀ x ∈ xs, InSigned 64 x) :
    T.Fits last cs xs ∧ T.run (.after last) cs = some xs ∨
      ¬ T.Fits last cs xs ∧ T.run (.after last) cs = none := by
  induction cs generalizing last xs with
  | nil =>
    cases xs with
    | nil => exact .inl ⟨trivial, rfl⟩
    | cons x xs => exact hxs.elim
  | cons c cs ih =>
    obtain ⟨hc, hcs⟩ := List.forall_mem_cons.mp hcs
    cases xs with
    | nil => exact hxs.elim
    | cons x xs =>
      obtain ⟨hx, hxs⟩ := hxs
      obtain ⟨hinx, hinxs⟩ := List.forall_mem_cons.mp hin
      obtain rfl := (next_iff hlast hc).mp hx
      rw [Fits, run]
      by_cases hroom : T.HasRoom last c
      · rw [call_of_hasRoom hlast hc hu hinx hroom]
        obtain ⟨hfits, hrun⟩ | ⟨hfits, hrun⟩ :=
          ih (agrees_target hlast hc) (by rintro p ⟨⟩; exact hinx) hcs hxs hinxs
        · refine .inl ⟨⟨hroom, hfits⟩, ?_⟩
          simp only [Option.bind_eq_bind, Option.bind_some, hrun, Option.map_some]
        · refine .inr ⟨fun h => hfits h.2, ?_⟩
          simp only [Option.bind_eq_bind, Option.bind_some, hrun, Option.map_none]
      · rw [call_of_not_hasRoom hlast hc hroom]
        exact .inr ⟨fun h => hroom h.1, rfl⟩

theorem agrees_none : T.Agrees none := by
  rintro p ⟨⟩

/-- **When the results are the unwrapped values.** -/
theorem run_eq_some_iff (hcs : ∀ c ∈ cs, T.Below c.value) (hxs : T.Unwraps none cs xs)
    (hin : ∀ x ∈ xs, InSigned 64 x) : T.run .init cs = some xs ↔ T.Fits none cs xs := by
  obtain ⟨hfits, hrun⟩ | ⟨hfits, hrun⟩ :=
    run_cases agrees_none (by rintro p ⟨⟩) hcs hxs hin
  · exact iff_of_true hrun hfits
  · refine iff_of_false (fun h => ?_) hfits
    rw [show T.run .init cs = none from hrun] at h
    cases h

/-! ### Sequences in short steps -/

/-- A sequence that is known by its residues: its first element is its own residue, and it moves by
less than half of the modulus at a time. -/
def ShortSteps (xs : List ℤ) : Prop :=
  (∀ x ∈ xs.head?, T.Below x) ∧ xs.IsChain fun x y => 2 * |y - x| < T.modulus

/-- The residues of a sequence, unwrapped one after another. -/
def residues (xs : List ℤ) : List Call := xs.map fun x => .unwrap (x % T.modulus)

theorem below_emod (x : ℤ) : T.Below (x % T.modulus) :=
  ⟨Int.emod_nonneg _ modulus_pos.ne', Int.emod_lt_of_pos _ modulus_pos⟩

theorem below_of_mem_residues : ∀ c ∈ T.residues xs, T.Below c.value := by
  intro c hc
  obtain ⟨x, -, rfl⟩ := List.mem_map.mp hc
  exact below_emod x

theorem unwraps_residues_of_chain
    (h : (u :: xs).IsChain fun x y => 2 * |y - x| < T.modulus) :
    T.Unwraps (some (u, u % T.modulus)) (T.residues xs) xs := by
  induction xs generalizing u with
  | nil => trivial
  | cons x xs ih =>
    obtain ⟨hstep, h⟩ := List.isChain_cons_cons.mp h
    refine ⟨⟨(Int.mod_modEq x _).symm, hstep.le, fun htie => absurd htie hstep.ne⟩, ih h⟩

/-- Unwrapping the residues of a sequence in short steps gives the sequence. -/
theorem unwraps_residues (h : T.ShortSteps xs) : T.Unwraps none (T.residues xs) xs := by
  obtain ⟨hhead, hchain⟩ := h
  cases xs with
  | nil => trivial
  | cons x xs =>
    have hx := hhead x rfl
    exact ⟨(Int.emod_eq_of_lt hx.1 hx.2).symm, unwraps_residues_of_chain hchain⟩

/-- The room that a sequence leaves for its last step. -/
theorem hasRoom_of_fits {ys : List ℤ}
    (h : T.Fits last (T.residues (ys ++ [u, x])) (ys ++ [u, x])) :
    u + Residues.forward T.modulus (u % T.modulus) (x % T.modulus) < 2 ^ 63 := by
  induction ys generalizing last with
  | nil => exact h.2.1
  | cons y ys ih => exact ih h.2

/-- **What `SeqNumUnwrapper` returns.** For any calls there is one list of results that they should
have, and those of a sequence in short steps are the sequence. Where they all lie in `int64_t` they
are what is returned as long as there is room, and only then. -/
theorem unwrap_iff (T : SeqNum) :
    (∀ cs, (∀ c ∈ cs, T.Below c.value) →
      ∃ xs, (∀ ys, T.Unwraps none cs ys ↔ ys = xs) ∧
        ((∀ x ∈ xs, InSigned 64 x) → (T.run .init cs = some xs ↔ T.Fits none cs xs))) ∧
    ∀ xs, T.ShortSteps xs → T.Unwraps none (T.residues xs) xs ∧
      ((∀ x ∈ xs, InSigned 64 x) →
        (T.run .init (T.residues xs) = some xs ↔ T.Fits none (T.residues xs) xs)) := by
  constructor
  · intro cs hcs
    have hone (ys : List ℤ) : T.Unwraps none cs ys ↔ ys = T.targets none cs :=
      unwraps_iff agrees_none hcs
    exact ⟨T.targets none cs, hone, run_eq_some_iff hcs ((hone _).mpr rfl)⟩
  · intro xs hxs
    have hunwraps := unwraps_residues hxs
    exact ⟨hunwraps, run_eq_some_iff below_of_mem_residues hunwraps⟩

/-- A `uint8_t` that wraps at 33. -/
def uint8Of33 : SeqNum := ⟨8, 33, by decide, by decide, by decide, by decide⟩

/-- Up, over the edge and back. -/
theorem unwrap_iff_uint8Of33 :
    uint8Of33.run .init (uint8Of33.residues [20, 30, 40, 30, 14]) = some [20, 30, 40, 30, 14] := by
  have hshort : uint8Of33.ShortSteps [20, 30, 40, 30, 14] := by
    constructor
    · rintro x ⟨⟩
      exact ⟨by decide, by decide⟩
    · decide
  refine (((unwrap_iff uint8Of33).2 _ hshort).2 (by decide)).mpr ?_
  simp only [residues, List.map_cons, List.map_nil, Fits, HasRoom]
  decide

/-- `uint32_t`, which wraps at the end of its range. -/
def uint32 : SeqNum := ⟨32, 0, by decide, by decide, by decide, by decide⟩

/-- Up by the longest short step `n` times, and down by one. -/
def climbing (n : ℕ) : List ℤ :=
  (List.range n).map (fun k : ℕ => (k : ℤ) * (2 ^ 31 - 1)) ++
    [(n : ℤ) * (2 ^ 31 - 1), (n : ℤ) * (2 ^ 31 - 1) - 1]

theorem climbing_eq (n : ℕ) : climbing n =
    (List.range (n + 1)).map (fun k : ℕ => (k : ℤ) * (2 ^ 31 - 1)) ++
      [(n : ℤ) * (2 ^ 31 - 1) - 1] := by
  rw [climbing, List.range_succ, List.map_append, List.append_assoc]
  rfl

theorem shortSteps_climbing (n : ℕ) : uint32.ShortSteps (climbing n) := by
  rw [climbing_eq]
  constructor
  · intro x hx
    rw [List.range_succ_eq_map] at hx
    cases hx
    exact ⟨by norm_num, by norm_num [modulus, uint32]⟩
  · rw [List.isChain_append, List.isChain_map, List.isChain_range_succ]
    refine ⟨fun k _ => ?_, .singleton _, ?_⟩
    · rw [Nat.cast_succ, add_mul, add_sub_cancel_left]
      norm_num [modulus, uint32]
    · rintro x hx y ⟨⟩
      rw [List.range_succ, List.map_append, List.map_singleton, List.getLast?_concat] at hx
      cases hx
      rw [sub_sub_cancel_left]
      norm_num [modulus, uint32]

theorem inSigned_climbing {n : ℕ} (h : n ≤ 2 ^ 32 + 2) : ∀ x ∈ climbing n, InSigned 64 x := by
  intro x hx
  rw [climbing_eq, List.mem_append, List.mem_map, List.mem_singleton] at hx
  obtain ⟨k, hk, rfl⟩ | rfl := hx
  · have hkn := List.mem_range.mp hk
    constructor <;> omega
  · constructor <;> omega

theorem not_fits_climbing {n : ℕ} (h : 2 ^ 32 + 2 ≤ n) :
    ¬ uint32.Fits none (uint32.residues (climbing n)) (climbing n) := by
  intro hfits
  have hroom := hasRoom_of_fits hfits
  have hforward : Residues.forward uint32.modulus ((n : ℤ) * (2 ^ 31 - 1) % uint32.modulus)
      (((n : ℤ) * (2 ^ 31 - 1) - 1) % uint32.modulus) = 2 ^ 32 - 1 := by
    rw [Residues.forward, ← Int.sub_emod, sub_sub_cancel_left]
    rfl
  omega

theorem run_climbing {n : ℕ} (h : n = 2 ^ 32 + 2) :
    uint32.run .init (uint32.residues (climbing n)) = none := by
  obtain ⟨hfits, -⟩ | ⟨-, hrun⟩ :=
    run_cases agrees_none (by rintro p ⟨⟩) below_of_mem_residues
      (unwraps_residues (shortSteps_climbing n)) (inSigned_climbing h.le)
  · exact absurd hfits (not_fits_climbing h.ge)
  · exact hrun

/-- In short steps a `uint32_t` climbs to the largest `int64_t` but one, where a step down first
goes over the top: the unwrapped values all lie in `int64_t` and the sum does not. -/
theorem overflow_on_the_way_down :
    uint32.ShortSteps (climbing (2 ^ 32 + 2)) ∧
      (∀ x ∈ climbing (2 ^ 32 + 2), InSigned 64 x) ∧
      uint32.run .init (uint32.residues (climbing (2 ^ 32 + 2))) = none :=
  ⟨shortSteps_climbing _, inSigned_climbing le_rfl, run_climbing rfl⟩

end SeqNum

end TQLib
