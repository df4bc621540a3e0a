import TQLib.Foundations.CText
import TQLib.Foundations.Signed

/-!
# Numerals

Decimal numbers as `printf` prints them, with a minus sign in front and no other, and as `strtoll`
and `strtoull` read them. Those skip blanks and take a plus sign, stop where the number ends, and
say in `errno` that a number is out of range. A caller that wants a numeral and nothing else looks
at the first character, and at how far was read.

## Main results

* `scanItem_numeral`, `exists_numeral_of_scanItem` — when all of a text is read as one number
* `readNumber_numeral`, `exists_readNumber` — what a numeral is read as, and what is none
* `exists_printed_eq` — a number that is printed
-/

namespace TQLib

/-- A sign, if any, and digits. -/
structure Numeral (sign digits : List Char) : Prop where
  sign : sign = [] ∨ sign = ['-']
  ne_nil : digits ≠ []
  digits : ∀ c ∈ digits, isDigit 10 c = true

/-- What they stand for. -/
def numeralValue (sign digits : List Char) : ℤ :=
  if sign = ['-'] then -(digitsValue 10 digits : ℤ) else digitsValue 10 digits

/-- A number, how far it was read, and whether `errno` is `ERANGE`. -/
structure Reading where
  /-- The number. -/
  value : ℤ
  /-- How far. -/
  length : ℕ
  /-- Whether it was out of range. -/
  outOfRange : Bool

/-- What `strtoll` and `strtoull` have in common. They differ in the number they make of an item and
in whether it is out of range. -/
def readNumber (number : Item → ℤ × Bool) (p : List Char) : Option Reading :=
  (cString p).map fun cs =>
    let item := scanItem 10 cs.length cs
    if item.digits = [] then ⟨0, 0, false⟩
    else ⟨(number item).1, item.text.length, (number item).2⟩

/-- `strtoll` with base ten, to a type of so many bits. -/
def strtoll (bits : ℕ) : List Char → Option Reading :=
  readNumber fun item =>
    if item.value 10 < -2 ^ (bits - 1) then (-2 ^ (bits - 1), true)
    else if 2 ^ (bits - 1) ≤ item.value 10 then (2 ^ (bits - 1) - 1, true)
    else (item.value 10, false)

/-- `strtoull` with base ten, to a type of so many bits. The number is negated in that type. -/
def strtoull (bits : ℕ) : List Char → Option Reading :=
  readNumber fun item =>
    if 2 ^ bits ≤ digitsValue 10 item.digits then (2 ^ bits - 1, true)
    else (item.value 10 % 2 ^ bits, false)

/-- What `printf` prints for a number. -/
def printed (v : ℤ) : List Char :=
  if v < 0 then '-' :: Nat.toDigits 10 v.natAbs else Nat.toDigits 10 v.natAbs

variable {sign digits : List Char}

/-! ## Reading -/

namespace Numeral

theorem not_mem_nul (h : Numeral sign digits) : '\x00' ∉ sign ++ digits := by
  intro hmem
  rcases List.mem_append.mp hmem with hmem | hmem
  · rcases h.sign with rfl | rfl
    · cases hmem
    · rw [List.mem_singleton] at hmem
      revert hmem
      decide
  · exact ne_of_isDigit (d := '\x00') (h.digits _ hmem) (by decide) rfl

/-- It starts with a digit or with the sign. -/
theorem exists_cons (h : Numeral sign digits) :
    ∃ c rest, sign ++ digits = c :: rest ∧ (isDigit 10 c = true ∨ c = '-') := by
  obtain ⟨d, ds, rfl⟩ := List.exists_cons_of_ne_nil h.ne_nil
  rcases h.sign with rfl | rfl
  · exact ⟨d, ds, rfl, .inl (h.digits d List.mem_cons_self)⟩
  · exact ⟨'-', d :: ds, rfl, .inr rfl⟩

/-- It starts with the sign. -/
theorem head?_eq_minus_iff (h : Numeral sign digits) :
    (sign ++ digits).head? = some '-' ↔ sign = ['-'] := by
  obtain ⟨d, ds, rfl⟩ := List.exists_cons_of_ne_nil h.ne_nil
  rcases h.sign with rfl | rfl
  · have hd : d ≠ '-' := ne_of_isDigit (h.digits d List.mem_cons_self) (by decide)
    simp [hd]
  · simp

end Numeral

/-- **A numeral** is read as a whole. -/
theorem scanItem_numeral (h : Numeral sign digits) :
    scanItem 10 (sign ++ digits).length (sign ++ digits) = ⟨[], sign, [], digits⟩ := by
  have hwf : (⟨[], sign, [], digits⟩ : Item).Wf 10 :=
    ⟨by simp, h.sign.imp_right .inr, .inl rfl, h.digits⟩
  have hscan : scanItem 10 (sign ++ digits).length (sign ++ digits ++ []) =
      ⟨[], sign, [], digits⟩ := scanItem_text (by decide) hwf h.ne_nil le_rfl (by simp)
  rwa [List.append_nil] at hscan

/-- **What is read as a whole**, and starts as a numeral does, is one. -/
theorem exists_numeral_of_scanItem {c : Char} {rest cs : List Char} (hcs : cs <+: c :: rest)
    (hc : isDigit 10 c = true ∨ c = '-') (hdigits : (scanItem 10 cs.length cs).digits ≠ [])
    (hlen : (scanItem 10 cs.length cs).text.length = (c :: rest).length) :
    ∃ sign digits, c :: rest = sign ++ digits ∧ Numeral sign digits := by
  have hwf := wf_scanItem 10 cs.length cs
  have hread := text_scanItem_prefix 10 cs.length cs
  have htext : (scanItem 10 cs.length cs).text = c :: rest := (hread.trans hcs).eq_of_length hlen
  generalize scanItem 10 cs.length cs = item at hwf htext hdigits
  obtain ⟨blanks, sign, pre, digits⟩ := item
  obtain ⟨hblanks, hsign, hpre, hall⟩ := hwf
  simp only [Item.text, Item.field] at hblanks hsign hpre hall htext hdigits
  have hspace : isSpace c = false := by
    rcases hc with hc | rfl
    · exact isSpace_of_isDigit (by decide) hc
    · rfl
  obtain rfl : blanks = [] := by
    cases blanks with
    | nil => rfl
    | cons b blanks =>
      obtain rfl : b = c := (List.cons.inj htext).1
      rw [hblanks b List.mem_cons_self] at hspace
      cases hspace
  obtain rfl : pre = [] := hpre.resolve_right fun h => absurd h.1 (by decide)
  refine ⟨sign, digits, htext.symm, ?_, hdigits, hall⟩
  rcases hsign with hsign | rfl | hsign
  · exact .inl hsign
  · obtain rfl : '+' = c := (List.cons.inj htext).1
    revert hc
    decide
  · exact .inr hsign

/-- The text at a pointer to a string, up to the first zero in it. -/
theorem exists_cString_terminated (s : List Char) :
    ∃ cs, cString (terminated s) = some cs ∧ cs <+: s := by
  have hmem : '\x00' ∈ terminated s := by simp [terminated]
  refine ⟨_, if_pos hmem, ?_⟩
  by_cases hs : '\x00' ∈ s
  · obtain ⟨t, u, rfl, ht⟩ := List.eq_append_cons_of_mem hs
    rw [terminated, List.append_assoc, takeWhile_append_of_head]
    · exact List.prefix_append ..
    · intro c hc
      simp only [bne_iff_ne, ne_eq]
      rintro rfl
      exact ht hc
    · rintro c ⟨⟩
      rfl
  · have hcs := cString_terminated hs
    rw [cString, if_pos hmem] at hcs
    exact ⟨[], (List.append_nil _).trans (Option.some.inj hcs)⟩

/-- **A numeral** is read as a number. -/
theorem readNumber_numeral (number : Item → ℤ × Bool) (h : Numeral sign digits) :
    readNumber number (terminated (sign ++ digits)) =
      some ⟨(number ⟨[], sign, [], digits⟩).1, (sign ++ digits).length,
        (number ⟨[], sign, [], digits⟩).2⟩ := by
  rw [readNumber, cString_terminated h.not_mem_nul, Option.map_some]
  dsimp only
  rw [scanItem_numeral h, if_neg h.ne_nil]
  rfl

/-- **What is no numeral** is not read as a whole. -/
theorem exists_readNumber (number : Item → ℤ × Bool) {c : Char} {rest : List Char}
    (hc : isDigit 10 c = true ∨ c = '-')
    (hs : ¬ ∃ sign digits, c :: rest = sign ++ digits ∧ Numeral sign digits) :
    ∃ r, readNumber number (terminated (c :: rest)) = some r ∧
      r.length ≠ (c :: rest).length := by
  obtain ⟨cs, hcs, hprefix⟩ := exists_cString_terminated (c :: rest)
  refine ⟨_, by rw [readNumber, hcs, Option.map_some], ?_⟩
  dsimp only
  by_cases hdigits : (scanItem 10 cs.length cs).digits = []
  · rw [if_pos hdigits]
    exact Nat.zero_ne_add_one _
  · rw [if_neg hdigits]
    exact fun h => hs (exists_numeral_of_scanItem hprefix hc hdigits h)

/-- Only zeros stand for zero. -/
theorem digitsValue_eq_zero_iff {ds : List Char} (hds : ∀ c ∈ ds, isDigit 10 c = true) :
    digitsValue 10 ds = 0 ↔ ∀ c ∈ ds, c = '0' := by
  induction ds using List.reverseRecOn with
  | nil => simp [digitsValue]
  | append_singleton ds c ih =>
    have hc : charValue c = 0 ↔ c = '0' := by
      constructor
      · intro h
        have hnat : c.toNat = 48 := by
          rw [charValue] at h
          split_ifs at h <;> omega
        exact Char.toNat_inj.mp hnat
      · rintro rfl
        rfl
    rw [digitsValue_concat, Nat.add_eq_zero_iff, hc, Nat.mul_eq_zero,
      or_iff_right (by decide : ¬ 10 = 0), ih fun d hd => hds d (List.mem_append_left _ hd)]
    simp [or_imp, forall_and]

/-! ## Printing -/

/-- The sign that is printed, and the digits. -/
theorem exists_printed_eq (v : ℤ) : ∃ sign digits, printed v = sign ++ digits ∧
    Numeral sign digits ∧ numeralValue sign digits = v := by
  have hdigits : ∀ c ∈ Nat.toDigits 10 v.natAbs, isDigit 10 c = true := fun c hc =>
    isDigit_of_mem_toDigits (by decide) (by decide) hc
  have hne : Nat.toDigits 10 v.natAbs ≠ [] := Nat.toDigits_ne_nil
  have hvalue : digitsValue 10 (Nat.toDigits 10 v.natAbs) = v.natAbs :=
    digitsValue_toDigits (by decide) (by decide) v.natAbs
  by_cases hv : v < 0
  · refine ⟨['-'], Nat.toDigits 10 v.natAbs, if_pos hv, ⟨.inr rfl, hne, hdigits⟩, ?_⟩
    rw [numeralValue, if_pos rfl, hvalue]
    omega
  · refine ⟨[], Nat.toDigits 10 v.natAbs, if_neg hv, ⟨.inl rfl, hne, hdigits⟩, ?_⟩
    rw [numeralValue, if_neg (by decide), hvalue]
    omega

/-- How much room a number takes. -/
theorem length_printed_le {v : ℤ} {k : ℕ} (hk : 0 < k) (hv : v.natAbs < 10 ^ k) :
    (printed v).length ≤ k + 1 := by
  have hlen := (Nat.length_toDigits_le_iff (by decide) hk).mpr hv
  rw [printed]
  split
  · exact Nat.succ_le_succ hlen
  · exact hlen.trans (Nat.le_succ k)

end TQLib
