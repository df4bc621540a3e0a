import Mathlib.Algebra.Order.Ring.Int
import Mathlib.Data.List.Induction
import Mathlib.Data.List.TakeWhile
import Mathlib.Data.Nat.Digits.Defs

/-!
# Numbers in text, as C reads and writes them

A pointer to text is the memory from it on, with the terminator; what lies behind the end of the
memory can not be read. `strtol`, `strtoul` and `sscanf` all take the same items: blanks, a sign, a
prefix if the base has one, and digits. An item is read as far as it goes, so what is behind it
matters only by its first character.

## Main results

* `scanItem_text` — an item is read back, whatever comes behind it that does not go on with it
* `text_scanItem` — what is read is an item
* `digitsValue_toDigits` — and a number that was printed is one
-/

namespace TQLib

/-! ## Memory -/

/-- The text at a pointer, up to the terminator, if there is one. -/
def cString (p : List Char) : Option (List Char) :=
  if '\x00' ∈ p then some (p.takeWhile (· != '\x00')) else none

/-- Text with its terminator. -/
def terminated (s : List Char) : List Char := s ++ ['\x00']

/-- Text in front of a pointer. -/
theorem cString_append {s : List Char} (hs : '\x00' ∉ s) (p : List Char) :
    cString (s ++ p) = (cString p).map (s ++ ·) := by
  have htake : (s ++ p).takeWhile (· != '\x00') = s ++ p.takeWhile (· != '\x00') := by
    refine List.takeWhile_append_of_pos fun c hc => ?_
    simp only [bne_iff_ne, ne_eq]
    rintro rfl
    exact hs hc
  rw [cString, cString, htake]
  by_cases hp : '\x00' ∈ p
  · rw [if_pos hp, if_pos (List.mem_append_right s hp), Option.map_some]
  · rw [if_neg hp, if_neg fun h => hp ((List.mem_append.mp h).resolve_left hs), Option.map_none]

theorem cString_terminated {s : List Char} (hs : '\x00' ∉ s) : cString (terminated s) = some s := by
  have hrest : cString ['\x00'] = some [] := by decide
  rw [terminated, cString_append hs, hrest, Option.map_some, List.append_nil]

theorem head?_terminated (s : List Char) : (terminated s).head? = some (s.head?.getD '\x00') := by
  cases s <;> rfl

/-- A pointer that goes on behind what has been read. -/
theorem drop_terminated (s t : List Char) :
    (terminated (s ++ t)).drop s.length = terminated t := by
  rw [terminated, List.append_assoc, List.drop_left, terminated]

/-- What stands in text with a separator. -/
theorem mem_intercalate {ws : List (List Char)} {sep c : Char} (hc : c ∈ [sep].intercalate ws) :
    c = sep ∨ ∃ w ∈ ws, c ∈ w := by
  induction ws with
  | nil => simp at hc
  | cons w ws ih =>
    by_cases hne : ws = []
    · rw [hne, List.intercalate_singleton] at hc
      exact .inr ⟨w, by simp, hc⟩
    · rw [List.intercalate_cons_of_ne_nil hne, List.append_assoc, List.mem_append, List.mem_append,
        List.mem_singleton] at hc
      rcases hc with hc | hc | hc
      · exact .inr ⟨w, by simp, hc⟩
      · exact .inl hc
      · rcases ih hc with hsep | ⟨w', hw', hc⟩
        · exact .inl hsep
        · exact .inr ⟨w', List.mem_cons_of_mem _ hw', hc⟩

/-- Text is taken apart at the first place of a character in one way. -/
theorem append_cons_inj {c : Char} {m m' u u' : List Char} (hm : c ∉ m) (hm' : c ∉ m')
    (h : m ++ c :: u = m' ++ c :: u') : m = m' ∧ u = u' := by
  induction m generalizing m' with
  | nil =>
    cases m' with
    | nil => simpa using h
    | cons d m' =>
      obtain ⟨rfl, -⟩ := List.cons.inj h
      exact absurd (by simp) hm'
  | cons d m ih =>
    cases m' with
    | nil =>
      obtain ⟨rfl, -⟩ := List.cons.inj h
      exact absurd (by simp) hm
    | cons d' m' =>
      rw [List.cons_append, List.cons_append] at h
      obtain ⟨rfl, -⟩ := List.cons.inj h
      obtain ⟨rfl, rfl⟩ := ih (fun h => hm (List.mem_cons_of_mem _ h))
        (fun h => hm' (List.mem_cons_of_mem _ h)) (List.cons.inj h).2
      exact ⟨rfl, rfl⟩

theorem exists_append_cons_right {c : Char} {s : List Char} (hc : c ∈ s) :
    ∃ m u, s = m ++ c :: u ∧ c ∉ u := by
  obtain ⟨u, m, hs, hu⟩ := List.eq_append_cons_of_mem (List.mem_reverse.2 hc)
  refine ⟨m.reverse, u.reverse, ?_, by simpa using hu⟩
  rw [← List.reverse_inj, hs]
  simp

/-! ## Views -/

/-- `find`, of a character from a position on. -/
def findChar (c : Char) (s : List Char) (pos : ℕ) : Option ℕ :=
  ((s.drop pos).findIdx? (· == c)).map (· + pos)

/-- `rfind`, of a character. -/
def rfindChar (c : Char) (s : List Char) : Option ℕ :=
  (s.reverse.findIdx? (· == c)).map fun i => s.length - 1 - i

theorem findChar_append {c : Char} {s : List Char} (hc : c ∉ s) (m t : List Char) :
    findChar c (m ++ (s ++ c :: t)) m.length = some (s.length + m.length) := by
  have hindex : (s ++ c :: t).findIdx? (· == c) = some s.length := by
    have hnone : s.findIdx? (· == c) = none := by
      rw [List.findIdx?_eq_none_iff]
      intro d hd
      rw [beq_eq_false_iff_ne]
      rintro rfl
      exact hc hd
    rw [List.findIdx?_append, hnone, List.findIdx?_cons]
    simp
  rw [findChar, List.drop_left, hindex, Option.map_some]

theorem findChar_eq_none {c : Char} {s : List Char} (hc : c ∉ s) (m : List Char) :
    findChar c (m ++ s) m.length = none := by
  rw [findChar, List.drop_left, Option.map_eq_none_iff, List.findIdx?_eq_none_iff]
  intro d hd
  rw [beq_eq_false_iff_ne]
  rintro rfl
  exact hc hd

theorem rfindChar_append {c : Char} {t : List Char} (hc : c ∉ t) (s : List Char) :
    rfindChar c (s ++ c :: t) = some s.length := by
  have hfind := findChar_append (s := t.reverse) (by simpa using hc) [] s.reverse
  rw [findChar, List.length_nil, List.drop_zero, Option.map_eq_some_iff] at hfind
  obtain ⟨i, hi, hlen⟩ := hfind
  have hreverse : (s ++ c :: t).reverse = [] ++ (t.reverse ++ c :: s.reverse) := by simp
  rw [rfindChar, hreverse, hi, Option.map_some, List.length_append, List.length_cons]
  rw [List.length_reverse] at hlen
  congr 1
  omega

theorem rfindChar_eq_none {c : Char} {s : List Char} (hc : c ∉ s) : rfindChar c s = none := by
  rw [rfindChar, Option.map_eq_none_iff, List.findIdx?_eq_none_iff]
  intro d hd
  rw [beq_eq_false_iff_ne]
  rintro rfl
  exact hc (by simpa using hd)

/-! ## Characters -/

/-- `isspace`. -/
def isSpace (c : Char) : Bool := c == ' ' || (decide (9 ≤ c.toNat) && decide (c.toNat ≤ 13))

/-- The value of a digit, and 16 of what is none. -/
def charValue (c : Char) : ℕ :=
  if 48 ≤ c.toNat ∧ c.toNat ≤ 57 then c.toNat - 48
  else if 97 ≤ c.toNat ∧ c.toNat ≤ 102 then c.toNat - 87
  else if 65 ≤ c.toNat ∧ c.toNat ≤ 70 then c.toNat - 55
  else 16

/-- Whether a character is a digit; with base ten, `isdigit`. -/
def isDigit (base : ℕ) (c : Char) : Bool := decide (charValue c < base)

variable {base : ℕ} {c : Char}

theorem isDigit_mono {base' : ℕ} (hle : base ≤ base') (hc : isDigit base c = true) :
    isDigit base' c = true := by
  rw [isDigit, decide_eq_true_eq] at hc ⊢
  omega

/-- A digit is none of the other characters. -/
theorem ne_of_isDigit {d : Char} (hc : isDigit base c = true) (hd : base ≤ charValue d) :
    c ≠ d := by
  rintro rfl
  rw [isDigit, decide_eq_true_eq] at hc
  omega

theorem isSpace_of_isDigit (hbase : base ≤ 16) (hc : isDigit base c = true) :
    isSpace c = false := by
  rw [isDigit, decide_eq_true_eq] at hc
  have hvalue : charValue c < 16 := hc.trans_le hbase
  have hnat : 48 ≤ c.toNat := by
    by_contra hlt
    rw [charValue, if_neg (by omega), if_neg (by omega), if_neg (by omega)] at hvalue
    exact lt_irrefl _ hvalue
  have hne : c ≠ ' ' := by
    rintro rfl
    revert hnat
    decide
  simp only [isSpace, Bool.or_eq_false_iff, beq_eq_false_iff_ne, Bool.and_eq_false_iff,
    decide_eq_false_iff_not]
  exact ⟨hne, .inr (by omega)⟩

/-! ## Digits -/

/-- The number that digits stand for. -/
def digitsValue (base : ℕ) (ds : List Char) : ℕ := ds.foldl (fun v c => base * v + charValue c) 0

theorem digitsValue_concat (base : ℕ) (ds : List Char) (c : Char) :
    digitsValue base (ds ++ [c]) = base * digitsValue base ds + charValue c := by
  simp [digitsValue]

/-- So many digits do not go further. -/
theorem digitsValue_lt {ds : List Char} (hds : ∀ c ∈ ds, isDigit base c = true) :
    digitsValue base ds < base ^ ds.length := by
  induction ds using List.reverseRecOn with
  | nil => simp [digitsValue]
  | append_singleton ds c ih =>
    have hvalue := ih fun d hd => hds d (List.mem_append_left _ hd)
    have hc := hds c (by simp)
    rw [isDigit, decide_eq_true_eq] at hc
    rw [digitsValue_concat, List.length_append, List.length_singleton, pow_succ']
    calc base * digitsValue base ds + charValue c
        < base * digitsValue base ds + base := by omega
      _ = base * (digitsValue base ds + 1) := by rw [Nat.mul_succ]
      _ ≤ base * base ^ ds.length := Nat.mul_le_mul_left base hvalue

theorem charValue_digitChar : ∀ d < 16, charValue (Nat.digitChar d) = d := by decide

/-- A number is read as it was printed. -/
theorem digitsValue_toDigits (hlow : 1 < base) (hhigh : base ≤ 16) (n : ℕ) :
    digitsValue base (Nat.toDigits base n) = n := by
  induction n using Nat.strong_induction_on with
  | h n ih =>
    rw [Nat.toDigits_eq_if hlow]
    by_cases hn : n < base
    · rw [if_pos hn]
      simp [digitsValue, charValue_digitChar n (by omega)]
    · have hdiv : n / base < n := Nat.div_lt_self (by omega) hlow
      have hmod : n % base < base := Nat.mod_lt _ (by omega)
      have hprefix := ih _ hdiv
      rw [digitsValue] at hprefix
      rw [if_neg hn, digitsValue, List.foldl_append, hprefix]
      simp only [List.foldl_cons, List.foldl_nil]
      rw [charValue_digitChar _ (by omega), Nat.div_add_mod]

theorem isDigit_of_mem_toDigits (hlow : 1 < base) (hhigh : base ≤ 16) {n : ℕ}
    (hc : c ∈ Nat.toDigits base n) : isDigit base c = true := by
  induction n using Nat.strong_induction_on with
  | h n ih =>
    rw [Nat.toDigits_eq_if hlow] at hc
    by_cases hn : n < base
    · rw [if_pos hn, List.mem_singleton] at hc
      rw [hc, isDigit, charValue_digitChar n (by omega)]
      simpa using hn
    · have hmod : n % base < base := Nat.mod_lt _ (by omega)
      rw [if_neg hn, List.mem_append, List.mem_singleton] at hc
      rcases hc with hc | hc
      · exact ih _ (Nat.div_lt_self (by omega) hlow) hc
      · rw [hc, isDigit, charValue_digitChar _ (by omega)]
        simpa using hmod

/-! ## Items -/

/-- The parts of an item. -/
@[ext] structure Item where
  /-- The blanks that are skipped. -/
  blanks : List Char
  /-- The sign. -/
  sign : List Char
  /-- `0x` or `0X`. -/
  pre : List Char
  /-- The digits. -/
  digits : List Char
  deriving DecidableEq

namespace Item

/-- What counts for the width of a field. -/
def field (i : Item) : List Char := i.sign ++ (i.pre ++ i.digits)

/-- The characters. -/
def text (i : Item) : List Char := i.blanks ++ i.field

/-- The number. -/
def value (base : ℕ) (i : Item) : ℤ :=
  if i.sign = ['-'] then -(digitsValue base i.digits : ℤ) else digitsValue base i.digits

/-- The parts are what they should be. -/
structure Wf (base : ℕ) (i : Item) : Prop where
  blanks : ∀ c ∈ i.blanks, isSpace c = true
  sign : i.sign = [] ∨ i.sign = ['+'] ∨ i.sign = ['-']
  pre : i.pre = [] ∨ base = 16 ∧ (i.pre = ['0', 'x'] ∨ i.pre = ['0', 'X'])
  digits : ∀ c ∈ i.digits, isDigit base c = true

end Item

/-- The sign that a field starts with. -/
def takeSign : List Char → List Char
  | '+' :: _ => ['+']
  | '-' :: _ => ['-']
  | _ => []

/-- The prefix that it goes on with. -/
def takePrefix (base : ℕ) : List Char → List Char
  | '0' :: 'x' :: _ => if base = 16 then ['0', 'x'] else []
  | '0' :: 'X' :: _ => if base = 16 then ['0', 'X'] else []
  | _ => []

/-- The item that text starts with, in a field of at most the given width. -/
def scanItem (base width : ℕ) (cs : List Char) : Item :=
  let blanks := cs.takeWhile isSpace
  let field := (cs.drop blanks.length).take width
  let sign := takeSign field
  let pre := takePrefix base (field.drop sign.length)
  ⟨blanks, sign, pre, (field.drop (sign.length + pre.length)).takeWhile (isDigit base)⟩

/-! ## What is read -/

theorem takeSign_append_drop (cs : List Char) :
    takeSign cs ++ cs.drop (takeSign cs).length = cs := by
  rw [takeSign.eq_def]
  split <;> rfl

theorem takeSign_cases (cs : List Char) :
    takeSign cs = [] ∨ takeSign cs = ['+'] ∨ takeSign cs = ['-'] := by
  rw [takeSign.eq_def]
  split <;> simp

theorem takePrefix_append_drop (base : ℕ) (cs : List Char) :
    takePrefix base cs ++ cs.drop (takePrefix base cs).length = cs := by
  rw [takePrefix.eq_def]
  by_cases hbase : base = 16
  · simp only [hbase, if_true]
    split <;> rfl
  · simp only [hbase, if_false]
    split <;> rfl

theorem takePrefix_cases (cs : List Char) : takePrefix base cs = [] ∨
    base = 16 ∧ (takePrefix base cs = ['0', 'x'] ∨ takePrefix base cs = ['0', 'X']) := by
  rw [takePrefix.eq_def]
  by_cases hbase : base = 16
  · simp only [hbase, if_true, true_and]
    split <;> simp
  · simp only [hbase, if_false]
    split <;> simp

/-- What is read is an item. -/
theorem wf_scanItem (base width : ℕ) (cs : List Char) : (scanItem base width cs).Wf base where
  blanks _ hc := List.mem_takeWhile_imp hc
  sign := takeSign_cases _
  pre := takePrefix_cases _
  digits _ hc := List.mem_takeWhile_imp hc

/-- The field is what is left behind the blanks, up to the width. The digits are read as far as they
go in it. -/
theorem field_scanItem_append (base width : ℕ) (cs : List Char) : ∃ r,
    (cs.drop (scanItem base width cs).blanks.length).take width =
      (scanItem base width cs).field ++ r ∧
      ∀ c ∈ r.head?, isDigit base c = false := by
  set field := (cs.drop (scanItem base width cs).blanks.length).take width with hfield
  have hsign := takeSign_append_drop field
  have hpre := takePrefix_append_drop base (field.drop (takeSign field).length)
  rw [List.drop_drop] at hpre
  set digits := field.drop ((takeSign field).length +
    (takePrefix base (field.drop (takeSign field).length)).length) with hdigits
  have hscan : (scanItem base width cs).field = takeSign field ++
      (takePrefix base (field.drop (takeSign field).length) ++
        digits.takeWhile (isDigit base)) := rfl
  refine ⟨digits.dropWhile (isDigit base), ?_, ?_⟩
  · rw [hscan, List.append_assoc, List.append_assoc, List.takeWhile_append_dropWhile, hpre, hsign]
  · intro c hc
    have hnot := List.head?_dropWhile_not (isDigit base) digits
    rw [hc] at hnot
    simpa using hnot

theorem length_field_scanItem_le (base width : ℕ) (cs : List Char) :
    (scanItem base width cs).field.length ≤ width := by
  obtain ⟨r, hr, -⟩ := field_scanItem_append base width cs
  have hlen := List.length_take_le width (cs.drop (scanItem base width cs).blanks.length)
  rw [hr, List.length_append] at hlen
  omega

/-- The blanks are skipped. -/
theorem blanks_scanItem_append (base width : ℕ) (cs : List Char) :
    (scanItem base width cs).blanks ++ cs.drop (scanItem base width cs).blanks.length = cs := by
  have hprefix : (scanItem base width cs).blanks <+: cs := List.takeWhile_prefix _
  exact List.prefix_iff_eq_append.1 hprefix

/-- The text starts with what is read. -/
theorem text_scanItem_prefix (base width : ℕ) (cs : List Char) :
    (scanItem base width cs).text <+: cs := by
  obtain ⟨r, hr, -⟩ := field_scanItem_append base width cs
  have hfield : (scanItem base width cs).field <+: cs.drop (scanItem base width cs).blanks.length :=
    ⟨r ++ (cs.drop (scanItem base width cs).blanks.length).drop width, by
      rw [← List.append_assoc, ← hr, List.take_append_drop]⟩
  have hall := (List.prefix_append_right_inj (scanItem base width cs).blanks).2 hfield
  rwa [blanks_scanItem_append] at hall

/-- Without a width the digits are read as far as they go. -/
theorem exists_scanItem_append (base : ℕ) (cs : List Char) : ∃ r,
    cs = (scanItem base cs.length cs).text ++ r ∧ ∀ c ∈ r.head?, isDigit base c = false := by
  obtain ⟨r, hr, hhead⟩ := field_scanItem_append base cs.length cs
  rw [List.take_of_length_le (by simp)] at hr
  refine ⟨r, ?_, hhead⟩
  rw [Item.text, List.append_assoc, ← hr, blanks_scanItem_append]

/-! ## What is read back -/

theorem takeWhile_append_of_head {p : Char → Bool} {l r : List Char} (hl : ∀ c ∈ l, p c = true)
    (hr : ∀ c ∈ r.head?, p c = false) : (l ++ r).takeWhile p = l := by
  rw [List.takeWhile_append_of_pos hl]
  cases r with
  | nil => simp
  | cons c r => simp [hr c rfl]

/-- The sign is taken off a number that starts with a digit. -/
theorem takeSign_append {sign cs : List Char} (hsign : sign = [] ∨ sign = ['+'] ∨ sign = ['-'])
    (hcs : cs.head? ≠ some '+' ∧ cs.head? ≠ some '-') : takeSign (sign ++ cs) = sign := by
  rcases hsign with rfl | rfl | rfl
  · rw [List.nil_append, takeSign.eq_def]
    split <;> simp_all
  · rfl
  · rfl

/-- The prefix is taken off the digits. -/
theorem takePrefix_append {pre ds r : List Char}
    (hpre : pre = [] ∨ base = 16 ∧ (pre = ['0', 'x'] ∨ pre = ['0', 'X']))
    (hds : ds ≠ []) (hall : ∀ c ∈ ds, c ≠ 'x' ∧ c ≠ 'X')
    (hr : ds = ['0'] → ∀ c ∈ r.head?, c ≠ 'x' ∧ c ≠ 'X') :
    takePrefix base (pre ++ (ds ++ r)) = pre := by
  rcases hpre with rfl | ⟨rfl, rfl | rfl⟩
  · obtain ⟨d, ds, rfl⟩ := List.exists_cons_of_ne_nil hds
    have hsecond : d = '0' → ∀ c ∈ (ds ++ r).head?, c ≠ 'x' ∧ c ≠ 'X' := by
      rintro rfl c hc
      cases ds with
      | nil => exact hr rfl c (by simpa using hc)
      | cons d' ds =>
        obtain rfl : d' = c := by simpa using hc
        exact hall d' (by simp)
    rw [List.nil_append, List.cons_append, takePrefix.eq_def]
    generalize ds ++ r = cs at hsecond ⊢
    split <;> simp_all
  · simp [takePrefix]
  · simp [takePrefix]

/-- An item is read back, whatever comes behind it that does not go on with it. -/
theorem scanItem_text {width : ℕ} {i : Item} {r : List Char} (hbase : base ≤ 16) (hi : i.Wf base)
    (hdigits : i.digits ≠ []) (hwidth : i.field.length ≤ width)
    (hr : ∀ c ∈ r.head?, isDigit base c = false ∧ (i.digits = ['0'] → c ≠ 'x' ∧ c ≠ 'X')) :
    scanItem base width (i.text ++ r) = i := by
  obtain ⟨blanks, sign, pre, digits⟩ := i
  obtain ⟨hblanks, hsign, hpre, hall⟩ := hi
  simp only [Item.text, Item.field] at hblanks hsign hpre hall hdigits hwidth ⊢
  set r' := r.take (width - (sign ++ (pre ++ digits)).length) with hr'
  have hrest : ∀ c ∈ r'.head?, isDigit base c = false ∧
      (digits = ['0'] → c ≠ 'x' ∧ c ≠ 'X') := by
    intro c hc
    rw [hr', List.head?_take] at hc
    split_ifs at hc
    · cases hc
    · exact hr c hc
  -- what comes behind the sign starts with a digit
  have hhead : ∀ c ∈ (pre ++ (digits ++ r')).head?, isDigit base c = true := by
    obtain ⟨d, ds, rfl⟩ := List.exists_cons_of_ne_nil hdigits
    rcases hpre with rfl | ⟨rfl, rfl | rfl⟩
    · rintro c ⟨⟩
      exact hall d (by simp)
    · rintro c ⟨⟩
      decide
    · rintro c ⟨⟩
      decide
  have hfield : ((blanks ++ (sign ++ (pre ++ digits)) ++ r).drop blanks.length).take width =
      sign ++ (pre ++ (digits ++ r')) := by
    rw [List.append_assoc, List.drop_left, List.take_append, List.take_of_length_le hwidth]
    simp [hr']
  have hspace : (blanks ++ (sign ++ (pre ++ digits)) ++ r).takeWhile isSpace = blanks := by
    rw [List.append_assoc]
    refine takeWhile_append_of_head hblanks ?_
    intro c hc
    rcases hsign with rfl | rfl | rfl
    · refine isSpace_of_isDigit hbase (hhead c ?_)
      obtain ⟨d, ds, rfl⟩ := List.exists_cons_of_ne_nil hdigits
      rcases hpre with rfl | ⟨-, rfl | rfl⟩ <;> simpa using hc
    · obtain rfl : '+' = c := by simpa using hc
      decide
    · obtain rfl : '-' = c := by simpa using hc
      decide
  have hsigned : takeSign (sign ++ (pre ++ (digits ++ r'))) = sign := by
    refine takeSign_append hsign ⟨?_, ?_⟩
    · intro hplus
      exact ne_of_isDigit (d := '+') (hhead '+' hplus) hbase rfl
    · intro hminus
      exact ne_of_isDigit (d := '-') (hhead '-' hminus) hbase rfl
  have hprefixed : takePrefix base (pre ++ (digits ++ r')) = pre := by
    refine takePrefix_append hpre hdigits ?_ fun hzero c hc => (hrest c hc).2 hzero
    intro c hc
    exact ⟨ne_of_isDigit (d := 'x') (hall c hc) hbase,
      ne_of_isDigit (d := 'X') (hall c hc) hbase⟩
  have hnumber : (digits ++ r').takeWhile (isDigit base) = digits :=
    takeWhile_append_of_head hall fun c hc => (hrest c hc).1
  rw [scanItem, hspace, hfield, hsigned, List.drop_left, hprefixed, ← List.drop_drop,
    List.drop_left, List.drop_left, hnumber]

/-! ## The functions of the library -/

/-- `strtol` with base ten, to a `long` of 32 bits: the value, and how far it was read. -/
def strtol (p : List Char) : Option (ℤ × ℕ) :=
  (cString p).map fun cs =>
    let item := scanItem 10 cs.length cs
    if item.digits = [] then (0, 0)
    else (max (-2 ^ 31) (min (2 ^ 31 - 1) (item.value 10)), item.text.length)

/-- Where there is a digit, the digits are read. -/
theorem scanItem_ten_of_isDigit {cs : List Char} {c : Char} (hc : c ∈ cs.head?)
    (hdigit : isDigit 10 c = true) :
    scanItem 10 cs.length cs = ⟨[], [], [], cs.takeWhile (isDigit 10)⟩ := by
  cases cs with
  | nil => cases hc
  | cons d ds =>
    obtain rfl : d = c := by simpa using hc
    have hspace : (d :: ds).takeWhile isSpace = [] := by
      simp [isSpace_of_isDigit (by decide) hdigit]
    have hsign : takeSign (d :: ds) = [] := by
      have hplus := ne_of_isDigit (d := '+') hdigit (by decide)
      have hminus := ne_of_isDigit (d := '-') hdigit (by decide)
      exact takeSign_append (.inl rfl) (by simp [hplus, hminus])
    have hprefix : takePrefix 10 (d :: ds) = [] := by
      rw [takePrefix.eq_def]
      split <;> simp
    rw [scanItem, hspace, List.length_nil, List.drop_zero, List.take_length, hsign, List.length_nil,
      List.drop_zero, hprefix]
    rfl

theorem strtol_of_isDigit {s : List Char} {c : Char} (hs : '\x00' ∉ s) (hc : c ∈ s.head?)
    (hdigit : isDigit 10 c = true) :
    strtol (terminated s) = some (min (2 ^ 31 - 1) (digitsValue 10 (s.takeWhile (isDigit 10)) : ℤ),
      (s.takeWhile (isDigit 10)).length) := by
  have hne : s.takeWhile (isDigit 10) ≠ [] := by
    cases s with
    | nil => cases hc
    | cons d ds =>
      obtain rfl : d = c := by simpa using hc
      simp [hdigit]
  rw [strtol, cString_terminated hs, Option.map_some]
  simp only [scanItem_ten_of_isDigit hc hdigit, hne, if_false, Item.value, Item.text, Item.field]
  simp

/-- `strtoul` with base ten, to an `unsigned long` of so many bits. -/
def strtoul (bits : ℕ) (p : List Char) : Option ℕ :=
  (cString p).map fun cs =>
    let item := scanItem 10 cs.length cs
    let magnitude := digitsValue 10 item.digits
    if 2 ^ bits ≤ magnitude then 2 ^ bits - 1
    else if item.sign = ['-'] then (2 ^ bits - magnitude) % 2 ^ bits
    else magnitude

/-- Digits are read, whatever comes behind the terminator. -/
theorem strtoul_digits {bits : ℕ} {ds : List Char} (hne : ds ≠ [])
    (hds : ∀ c ∈ ds, isDigit 10 c = true) (hlt : digitsValue 10 ds < 2 ^ bits) :
    strtoul bits (terminated ds) = some (digitsValue 10 ds) := by
  obtain ⟨c, cs, rfl⟩ := List.exists_cons_of_ne_nil hne
  have hnul : '\x00' ∉ c :: cs := fun h =>
    ne_of_isDigit (d := '\x00') (hds _ h) (by decide) rfl
  have htake : (c :: cs).takeWhile (isDigit 10) = c :: cs :=
    List.takeWhile_eq_self_iff.2 hds
  have hsign : ([] : List Char) ≠ ['-'] := by decide
  rw [strtoul, cString_terminated hnul, Option.map_some]
  have hscan : scanItem 10 (c :: cs).length (c :: cs) = ⟨[], [], [], c :: cs⟩ := by
    rw [scanItem_ten_of_isDigit (by simp) (hds c (by simp)), htake]
  simp only [hscan, hsign, if_false, Nat.not_le.2 hlt]

/-- There is always a number. -/
theorem exists_strtoul (bits : ℕ) (s : List Char) : ∃ n, strtoul bits (terminated s) = some n := by
  have hmem : '\x00' ∈ terminated s := by simp [terminated]
  rw [strtoul, cString, if_pos hmem]
  exact ⟨_, rfl⟩

/-- `sscanf` with `"%hx%n"`, or with a width: the value, and how far it was read, or a failure to
match. -/
def sscanfHex (width : Option ℕ) (p : List Char) : Option (Option (BitVec 16 × ℕ)) :=
  (cString p).map fun cs =>
    let item := scanItem 16 (width.getD cs.length) cs
    if item.digits = [] then none else some (BitVec.ofInt 16 (item.value 16), item.text.length)

/-- `strchr`. -/
def strchr (p : List Char) (c : Char) : Option (Option (List Char)) :=
  (cString p).map fun cs => if c ∈ cs then some (p.dropWhile (· != c)) else none

/-! ## Buffers -/

/-- A buffer that text is written to, and the cursor where it goes on. -/
@[ext] structure OutBuffer where
  /-- The buffer. -/
  buf : List Char
  /-- The cursor. -/
  cursor : ℕ

namespace OutBuffer

/-- `*cursor++ = c`. There is nothing behind the buffer. -/
def putChar (o : OutBuffer) (c : Char) : Option OutBuffer :=
  if o.cursor < o.buf.length then some ⟨o.buf.set o.cursor c, o.cursor + 1⟩ else none

/-- `cursor += snprintf(cursor, size, ..)`, with what the format comes to. -/
def snprintf (o : OutBuffer) (size : ℕ) (text : List Char) : Option OutBuffer :=
  let written := if size = 0 then [] else terminated (text.take (size - 1))
  if o.cursor + written.length ≤ o.buf.length then
    some ⟨o.buf.take o.cursor ++ (written ++ o.buf.drop (o.cursor + written.length)),
      o.cursor + text.length⟩
  else none

/-- A buffer of zeros with text in front, and the cursor behind the text. -/
def holding (size : ℕ) (t : List Char) : OutBuffer :=
  ⟨t ++ List.replicate (size - t.length) '\x00', t.length⟩

/-- A buffer with text written over what was there, with a terminator behind the text or without,
and the cursor behind the text. -/
def atop (was t : List Char) (closed : Bool) : OutBuffer :=
  ⟨t ++ if closed then '\x00' :: was.drop (t.length + 1) else was.drop t.length, t.length⟩

variable {size room : ℕ} {was t text : List Char}

@[simp] theorem cursor_atop (was t : List Char) (closed : Bool) :
    (atop was t closed).cursor = t.length := rfl

/-- There is some character behind the text, and what was there behind that. -/
theorem exists_buf_atop (ht : t.length < was.length) (closed : Bool) :
    ∃ c, (atop was t closed).buf = t ++ c :: was.drop (t.length + 1) := by
  cases closed with
  | true => exact ⟨'\x00', rfl⟩
  | false => exact ⟨was[t.length], congrArg (t ++ ·) (List.drop_eq_getElem_cons ht)⟩

theorem length_buf_atop (ht : t.length < was.length) (closed : Bool) :
    (atop was t closed).buf.length = was.length := by
  obtain ⟨c, hbuf⟩ := exists_buf_atop ht closed
  rw [hbuf, List.length_append, List.length_cons, List.length_drop]
  omega

/-- Behind the terminator nothing is written. -/
theorem drop_buf_atop {n : ℕ} (ht : t.length < was.length) (hn : t.length < n) (closed : Bool) :
    (atop was t closed).buf.drop n = was.drop n := by
  obtain ⟨c, hbuf⟩ := exists_buf_atop ht closed
  obtain ⟨k, rfl⟩ := Nat.exists_eq_add_of_lt hn
  rw [hbuf, Nat.add_assoc, ← List.drop_drop, List.drop_left, List.drop_succ_cons, List.drop_drop]
  congr 1
  omega

/-- What is written comes behind the text. -/
theorem putChar_atop (ht : t.length < was.length) (closed : Bool) (c : Char) :
    (atop was t closed).putChar c = some (atop was (t ++ [c]) false) := by
  obtain ⟨d, hbuf⟩ := exists_buf_atop ht closed
  rw [putChar, length_buf_atop ht, cursor_atop, if_pos ht, hbuf,
    List.set_append_right _ _ le_rfl, Nat.sub_self, List.set_cons_zero]
  simp [atop]

/-- And so does its terminator. -/
theorem snprintf_atop (hroom : text.length < room) (ht : t.length + text.length < was.length)
    (closed : Bool) :
    (atop was t closed).snprintf room text = some (atop was (t ++ text) true) := by
  have hwritten : (if room = 0 then [] else terminated (text.take (room - 1))) =
      terminated text := by
    rw [if_neg (by omega), List.take_of_length_le (by omega)]
  have hlen : (terminated text).length = text.length + 1 := by simp [terminated]
  have hlt : t.length < was.length := by omega
  obtain ⟨d, hbuf⟩ := exists_buf_atop hlt closed
  have hrest : (t ++ d :: was.drop (t.length + 1)).drop (t.length + (text.length + 1)) =
      was.drop (t.length + text.length + 1) := by
    rw [← List.drop_drop, List.drop_left, List.drop_succ_cons, List.drop_drop]
    congr 1
    omega
  rw [snprintf, hwritten, length_buf_atop hlt, cursor_atop, hlen, if_pos (by omega), hbuf,
    List.take_left, hrest]
  simp [atop, terminated]

/-- In a buffer of zeros a terminator changes nothing. -/
theorem atop_zeros (ht : t.length < size) (closed : Bool) :
    atop (List.replicate size '\x00') t closed = holding size t := by
  obtain ⟨k, hk⟩ := Nat.exists_eq_add_of_lt ht
  have hdrop : (List.replicate size '\x00').drop t.length =
      '\x00' :: (List.replicate size '\x00').drop (t.length + 1) := by
    rw [List.drop_replicate, List.drop_replicate, show size - t.length = k + 1 by omega,
      show size - (t.length + 1) = k by omega, List.replicate_succ]
  cases closed with
  | true => rw [atop, if_pos rfl, ← hdrop, List.drop_replicate, holding]
  | false => rw [atop, if_neg (by decide), List.drop_replicate, holding]

theorem cString_atop_closed (hnul : '\x00' ∉ t) : cString (atop was t true).buf = some t := by
  have hrest : cString ('\x00' :: was.drop (t.length + 1)) = some [] := by simp [cString]
  rw [atop, if_pos rfl]
  dsimp only
  rw [cString_append hnul, hrest, Option.map_some, List.append_nil]

/-- The text is what the buffer holds. -/
theorem cString_holding (ht : t.length < size) (hnul : '\x00' ∉ t) :
    cString (holding size t).buf = some t := by
  rw [← atop_zeros ht true]
  exact cString_atop_closed hnul

/-- What a buffer without a terminator holds goes on with what was there. -/
theorem cString_atop_open (hnul : '\x00' ∉ t) :
    cString (atop was t false).buf = (cString (was.drop t.length)).map (t ++ ·) :=
  cString_append hnul (was.drop t.length)

end OutBuffer

end TQLib
