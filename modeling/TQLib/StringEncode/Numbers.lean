import TQLib.Foundations.Numerals
import Mathlib.Data.List.OfFn

/-!
# Integers as text

`ToString` of the integer types in `rtc_base/string_encode.cc`, and `StringToNumber` of
`rtc_base/string_to_number.h` with base ten. The library's functions take blanks and a plus sign,
and stop at the first character they do not like, a zero inside of the string among them. So the
first character is looked at before, and the end that was reached after. An unsigned number is
negated without a complaint, which is why a value other than zero is refused behind a minus sign.
All types are read as the widest of their kind, and their own range is looked at last.

## Main results

* `toString_eq` — what is printed fits into the buffer
* `stringToNumber_numeral`, `stringToNumber_of_not_numeral` — what is read
* `integer_text` — the round trip, and what is accepted
-/

namespace TQLib

namespace StringEncode

/-- An integer type. None is wider than `long long`. -/
structure IntegerType where
  /-- Whether it is signed. -/
  isSigned : Bool
  /-- Its width. -/
  width : ℕ
  width_pos : 0 < width
  width_le : width ≤ 64

namespace IntegerType

/-- `std::numeric_limits<T>::lowest()`. -/
def lowest (T : IntegerType) : ℤ := if T.isSigned then -2 ^ (T.width - 1) else 0

/-- `std::numeric_limits<T>::max()`. -/
def max (T : IntegerType) : ℤ := if T.isSigned then 2 ^ (T.width - 1) - 1 else 2 ^ T.width - 1

/-- A value of the type. -/
abbrev Value (T : IntegerType) := { v : ℤ // T.lowest ≤ v ∧ v ≤ T.max }

end IntegerType

/-- `ToString`, of the integer types. What is in the buffer at first is whatever was there. -/
def toString (buf : Fin 32 → Char) (s : ℤ) : Option (List Char) := do
  let out ← (OutBuffer.mk (List.ofFn buf) 0).snprintf 32 (printed s)
  let len := out.cursor
  if len ≤ out.buf.length then some (out.buf.take len) else none

/-- What `ParseSigned` and `ParseUnsigned` have in common: how the string is read, and what else a
value must be to be returned. -/
def parse (strto : List Char → Option Reading) (accepts : ℤ → Bool) (str : List Char) :
    Option (Option ℤ) :=
  match str with
  | [] => some none
  | c :: _ =>
    if isDigit 10 c ∨ c = '-' then
      (strto (terminated str)).map fun r =>
        if r.length = str.length ∧ r.outOfRange = false ∧ accepts r.value then some r.value
        else none
    else some none

/-- `ParseSigned`. -/
def parseSigned (str : List Char) : Option (Option ℤ) := parse (strtoll 64) (fun _ => true) str

/-- `ParseUnsigned`. -/
def parseUnsigned (str : List Char) : Option (Option ℤ) :=
  let isNegative := str.head? = some '-'
  parse (strtoull 64) (fun value => value = 0 ∨ ¬ isNegative) str

/-- `StringToNumber`. -/
def stringToNumber (T : IntegerType) (str : List Char) : Option (Option ℤ) :=
  if T.isSigned then
    (parseSigned str).map fun value =>
      value.bind fun value => if value ≥ T.lowest ∧ value ≤ T.max then some value else none
  else
    (parseUnsigned str).map fun value =>
      value.bind fun value => if value ≤ T.max then some value else none

variable {T : IntegerType} {sign digits str : List Char}

/-! ## Ranges -/

theorem pow_le_pow_of_width {k : ℕ} (hk : k ≤ T.width) : (2 : ℤ) ^ k ≤ 2 ^ 64 :=
  pow_le_pow_right₀ (by decide) (hk.trans T.width_le)

/-- A signed type is in the range of `long long`. -/
theorem inSigned_of_mem {v : ℤ} (hT : T.isSigned = true) (hv : T.lowest ≤ v ∧ v ≤ T.max) :
    InSigned 64 v := by
  have hpow : (2 : ℤ) ^ (T.width - 1) ≤ 2 ^ 63 :=
    pow_le_pow_right₀ (by decide) (Nat.sub_le_sub_right T.width_le 1)
  rw [IntegerType.lowest, IntegerType.max, if_pos hT, if_pos hT] at hv
  constructor <;> omega

theorem max_lt (T : IntegerType) : T.max < 2 ^ 64 := by
  have hpow := pow_le_pow_of_width (T := T) le_rfl
  have hpow' := pow_le_pow_of_width (T := T) (Nat.sub_le T.width 1)
  rw [IntegerType.max]
  split <;> omega

theorem natAbs_lt (v : T.Value) : v.1.natAbs < 10 ^ 20 := by
  have hpow := pow_le_pow_of_width (T := T) (Nat.sub_le T.width 1)
  have hmax := max_lt T
  have hlow : -2 ^ 64 ≤ T.lowest := by
    rw [IntegerType.lowest]
    split <;> omega
  obtain ⟨v, hv⟩ := v
  dsimp only
  omega

/-! ## Printing -/

/-- **What is printed** fits into the buffer. -/
theorem toString_eq (buf : Fin 32 → Char) (v : T.Value) : toString buf v = some (printed v) := by
  have hlen : (printed v).length ≤ 21 := length_printed_le (by decide) (natAbs_lt v)
  have htake : (printed v.1).take (32 - 1) = printed v :=
    List.take_of_length_le (by omega)
  have hfits : 0 + (terminated (printed v.1)).length ≤ (List.ofFn buf).length := by
    rw [terminated, List.length_append, List.length_ofFn, List.length_singleton]
    omega
  rw [toString, OutBuffer.snprintf]
  simp only [if_neg (by decide : ¬ 32 = 0), htake]
  rw [if_pos hfits]
  simp [terminated]

/-! ## Reading -/

theorem parse_numeral (number : Item → ℤ × Bool) (accepts : ℤ → Bool) (h : Numeral sign digits) :
    parse (readNumber number) accepts (sign ++ digits) =
      let r := number ⟨[], sign, [], digits⟩
      some (if r.2 = false ∧ accepts r.1 then some r.1 else none) := by
  have hread := readNumber_numeral number h
  obtain ⟨c, rest, hstr, hc⟩ := h.exists_cons
  rw [hstr] at hread ⊢
  rw [parse, if_pos hc, hread, Option.map_some]
  simp

theorem parse_of_not_numeral (number : Item → ℤ × Bool) (accepts : ℤ → Bool)
    (hstr : ¬ ∃ sign digits, str = sign ++ digits ∧ Numeral sign digits) :
    parse (readNumber number) accepts str = some none := by
  rw [parse.eq_def]
  split
  · rfl
  · rename_i c rest
    by_cases hc : isDigit 10 c = true ∨ c = '-'
    · obtain ⟨r, hr, hlen⟩ := exists_readNumber number hc hstr
      rw [if_pos hc, hr, Option.map_some, if_neg fun h => hlen h.1]
    · rw [if_neg hc]

theorem stringToNumber_of_not_numeral (T : IntegerType)
    (hstr : ¬ ∃ sign digits, str = sign ++ digits ∧ Numeral sign digits) :
    stringToNumber T str = some none := by
  rw [stringToNumber, parseSigned, parseUnsigned, strtoll, strtoull,
    parse_of_not_numeral _ _ hstr, parse_of_not_numeral _ _ hstr]
  split <;> rfl

/-- What is returned for a numeral by the widest signed type. -/
theorem parseSigned_numeral (h : Numeral sign digits) : parseSigned (sign ++ digits) =
    some (if InSigned 64 (numeralValue sign digits) then some (numeralValue sign digits)
      else none) := by
  have hvalue : Item.value 10 ⟨[], sign, [], digits⟩ = numeralValue sign digits := rfl
  rw [parseSigned, strtoll, parse_numeral _ _ h]
  simp only [hvalue]
  by_cases hlow : numeralValue sign digits < -2 ^ (64 - 1)
  · have hrange : ¬ InSigned 64 (numeralValue sign digits) := fun h => absurd h.1 hlow.not_ge
    rw [if_pos hlow, if_neg hrange]
    rfl
  · rw [if_neg hlow]
    by_cases hhigh : 2 ^ (64 - 1) ≤ numeralValue sign digits
    · have hrange : ¬ InSigned 64 (numeralValue sign digits) := fun h => absurd h.2 hhigh.not_gt
      rw [if_pos hhigh, if_neg hrange]
      rfl
    · have hrange : InSigned 64 (numeralValue sign digits) := ⟨not_lt.mp hlow, not_le.mp hhigh⟩
      rw [if_neg hhigh, if_pos hrange]
      rfl

/-- And by the widest unsigned one, which negates nothing but zero. -/
theorem parseUnsigned_numeral (h : Numeral sign digits) : parseUnsigned (sign ++ digits) =
    some (if 0 ≤ numeralValue sign digits ∧ numeralValue sign digits < 2 ^ 64 then
      some (numeralValue sign digits) else none) := by
  have hvalue : Item.value 10 ⟨[], sign, [], digits⟩ = numeralValue sign digits := rfl
  have hdef := numeralValue.eq_1 sign digits
  rw [parseUnsigned, strtoull, parse_numeral _ _ h]
  simp only [hvalue, h.head?_eq_minus_iff]
  by_cases hhigh : 2 ^ 64 ≤ digitsValue 10 digits
  · have hrange : ¬ (0 ≤ numeralValue sign digits ∧ numeralValue sign digits < 2 ^ 64) := by
      rw [hdef]
      split <;> omega
    rw [if_pos hhigh, if_neg (by simp), if_neg hrange]
  · rw [if_neg hhigh]
    by_cases hsign : sign = ['-']
    · rw [if_pos hsign] at hdef
      by_cases hzero : digitsValue 10 digits = 0
      · have hnumeral : numeralValue sign digits = 0 := by omega
        rw [hnumeral]
        simp
      · have hmod : numeralValue sign digits % 2 ^ 64 ≠ 0 := by omega
        have haccepts :
            ¬ decide (numeralValue sign digits % 2 ^ 64 = 0 ∨ ¬ sign = ['-']) = true := by
          rw [decide_eq_true_iff]
          exact fun h => h.elim hmod fun h => h hsign
        rw [if_neg fun h => haccepts h.2, if_neg (by omega)]
    · rw [if_neg hsign] at hdef
      have hmod : numeralValue sign digits % 2 ^ 64 = numeralValue sign digits :=
        Int.emod_eq_of_lt (by omega) (by omega)
      rw [if_pos (by simp [hsign]), if_pos (by omega), hmod]

/-- **A numeral** is read, if the type has its value. -/
theorem stringToNumber_numeral (T : IntegerType) (h : Numeral sign digits) :
    stringToNumber T (sign ++ digits) =
      some (if T.lowest ≤ numeralValue sign digits ∧ numeralValue sign digits ≤ T.max then
        some (numeralValue sign digits) else none) := by
  rw [stringToNumber]
  by_cases hT : T.isSigned = true
  · rw [if_pos hT, parseSigned_numeral h, Option.map_some]
    by_cases hrange : InSigned 64 (numeralValue sign digits)
    · rw [if_pos hrange, Option.bind_some]
    · rw [if_neg hrange, if_neg fun hv => hrange (inSigned_of_mem hT hv)]
      rfl
  · have hlow : T.lowest = 0 := if_neg hT
    have hmax := max_lt T
    rw [if_neg hT, parseUnsigned_numeral h, Option.map_some, hlow]
    by_cases hrange : 0 ≤ numeralValue sign digits ∧ numeralValue sign digits < 2 ^ 64
    · rw [if_pos hrange, Option.bind_some]
      simp only [hrange.1, true_and]
    · rw [if_neg hrange, if_neg (by omega)]
      rfl

/-- A string is a minus sign, if any, and digits that stand for a value of the type. An unsigned
type has a minus sign only in front of zeros. -/
def Denotes (T : IntegerType) (str : List Char) (v : ℤ) : Prop :=
  ∃ sign digits, str = sign ++ digits ∧ Numeral sign digits ∧ numeralValue sign digits = v ∧
    (T.lowest ≤ v ∧ v ≤ T.max) ∧
    (T.isSigned = false → sign = ['-'] → ∀ c ∈ digits, c = '0')

theorem zeros_of_unsigned (h : Numeral sign digits) (hT : T.isSigned = false)
    (hv : T.lowest ≤ numeralValue sign digits) (hsign : sign = ['-']) : ∀ c ∈ digits, c = '0' := by
  rw [IntegerType.lowest, hT, if_neg Bool.false_ne_true, numeralValue, if_pos hsign] at hv
  exact (digitsValue_eq_zero_iff h.digits).mp (by omega)

/-- **Integers as text**: every value is read as it was printed, and what is read is what denotes a
value of the type. -/
theorem integer_text (T : IntegerType) :
    (∀ (buf : Fin 32 → Char) (v : T.Value), ∃ text, toString buf v = some text ∧
      stringToNumber T text = some (some v.1)) ∧
    ∀ str, ∃ r, stringToNumber T str = some r ∧ ∀ v, r = some v ↔ Denotes T str v := by
  constructor
  · intro buf v
    obtain ⟨sign, digits, hprinted, h, hvalue⟩ := exists_printed_eq v.1
    refine ⟨_, toString_eq buf v, ?_⟩
    rw [hprinted, stringToNumber_numeral T h, hvalue, if_pos v.2]
  · intro str
    by_cases hstr : ∃ sign digits, str = sign ++ digits ∧ Numeral sign digits
    · obtain ⟨sign, digits, rfl, h⟩ := hstr
      refine ⟨_, stringToNumber_numeral T h, fun v => ?_⟩
      constructor
      · intro hv
        split at hv
        next hrange =>
          cases hv
          exact ⟨sign, digits, rfl, h, rfl, hrange,
            fun hT => zeros_of_unsigned h hT hrange.1⟩
        next => cases hv
      · rintro ⟨sign', digits', hsame, h', rfl, hrange, -⟩
        have hread := stringToNumber_numeral T h'
        rw [← hsame, stringToNumber_numeral T h, if_pos hrange] at hread
        exact Option.some.inj hread
    · refine ⟨none, stringToNumber_of_not_numeral T hstr, fun v => iff_of_false nofun ?_⟩
      rintro ⟨sign, digits, hsame, h, -⟩
      exact hstr ⟨sign, digits, hsame, h⟩

end StringEncode

end TQLib
