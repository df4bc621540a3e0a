import TQLib.Foundations.Numerals
import Mathlib.Control.Fold

/-!
# JSON text

Text is JSON if it is made of tokens, in an order that the grammar of values has. Tokens are read
one character at a time, by a machine that fails where no token can go on; once it has failed,
nothing that comes behind the character can mend it. Words are numbers or one of three names, and
end where something else begins.

A string stands for the code points in it. The two units of a surrogate pair that is escaped are
left apart.

## Main results

* `Lexes.append`, `Lexes.dead` — text in two parts
* `lexes_literal`, `decode_literal` — string literals
* `lex_of_lexes`, `not_isJson_of_dead` — the whole text
-/

namespace TQLib

namespace Json

/-- What the grammar is over. -/
inductive Token
  /-- `{`. -/
  | lbrace
  /-- `}`. -/
  | rbrace
  /-- `[`. -/
  | lbracket
  /-- `]`. -/
  | rbracket
  /-- `:`. -/
  | colon
  /-- `,`. -/
  | comma
  /-- A string, by what it stands for. -/
  | string (units : List ℕ)
  /-- A number. -/
  | number (text : List Char)
  /-- `true`, `false` or `null`. -/
  | name (text : List Char)
  deriving DecidableEq

/-! ## Characters -/

/-- White space. -/
def isBlank (c : Char) : Bool := c = ' ' ∨ c = '\t' ∨ c = '\n' ∨ c = '\r'

/-- The characters that are tokens. -/
def punctuation (c : Char) : Option Token :=
  if c = '\x7b' then some .lbrace
  else if c = '\x7d' then some .rbrace
  else if c = '[' then some .lbracket
  else if c = ']' then some .rbracket
  else if c = ':' then some .colon
  else if c = ',' then some .comma
  else none

/-- What ends a word. -/
def isDelimiter (c : Char) : Bool := isBlank c || (punctuation c).isSome || c = '"'

/-- A control character. -/
def isControl (c : Char) : Bool := c.toNat < 0x20

/-- What a character stands for behind a backslash. -/
def escaped (c : Char) : Option ℕ :=
  if c = '"' ∨ c = '\\' ∨ c = '/' then some c.toNat
  else if c = 'b' then some 8
  else if c = 'f' then some 12
  else if c = 'n' then some 10
  else if c = 'r' then some 13
  else if c = 't' then some 9
  else none

/-! ## Words -/

/-- Digits, at least one. -/
def isDigits (w : List Char) : Bool := w ≠ [] ∧ w.all (isDigit 10)

/-- The end of a number: an exponent, if any. -/
def isExponent : List Char → Bool
  | [] => true
  | e :: w => (e = 'e' ∨ e = 'E') ∧ isDigits (w.drop (takeSign w).length)

/-- What follows the whole part of a number. -/
def isFraction : List Char → Bool
  | '.' :: w =>
    isDigits (w.takeWhile (isDigit 10)) ∧ isExponent (w.drop (w.takeWhile (isDigit 10)).length)
  | w => isExponent w

/-- A number without its sign. Its whole part has no zero in front. -/
def isUnsigned (w : List Char) : Bool :=
  let whole := w.takeWhile (isDigit 10)
  (whole = ['0'] ∨ isDigits whole ∧ whole.head? ≠ some '0') ∧ isFraction (w.drop whole.length)

/-- A number. -/
def isNumber : List Char → Bool
  | '-' :: w => isUnsigned w
  | w => isUnsigned w

/-- The token that a word is. -/
def classify (w : List Char) : Option Token :=
  if w = "true".toList ∨ w = "false".toList ∨ w = "null".toList then some (.name w)
  else if isNumber w then some (.number w)
  else none

/-! ## Tokens -/

/-- Where the machine is. What has been read last is in front. -/
inductive Mode
  /-- Between two tokens. -/
  | between
  /-- In a word. -/
  | word (w : List Char)
  /-- In a string. -/
  | string (units : List ℕ)
  /-- Behind a backslash. -/
  | escape (units : List ℕ)
  /-- In a code of four digits, so many of which have been read. -/
  | code (units : List ℕ) (k v : ℕ)

/-- The machine, with the tokens it has read. -/
structure Lexer where
  /-- The last in front. -/
  tokens : List Token
  /-- Where it is. -/
  mode : Mode

namespace Lexer

/-- A character between two tokens. -/
def start (tokens : List Token) (c : Char) : Lexer :=
  if isBlank c then ⟨tokens, .between⟩
  else
    match punctuation c with
    | some t => ⟨t :: tokens, .between⟩
    | none => if c = '"' then ⟨tokens, .string []⟩ else ⟨tokens, .word [c]⟩

/-- The next character. -/
def step (l : Lexer) (c : Char) : Option Lexer :=
  match l.mode with
  | .between => some (start l.tokens c)
  | .word w =>
    if isDelimiter c then (classify w.reverse).map fun t => start (t :: l.tokens) c
    else some { l with mode := .word (c :: w) }
  | .string units =>
    if c = '"' then some ⟨.string units.reverse :: l.tokens, .between⟩
    else if c = '\\' then some { l with mode := .escape units }
    else if isControl c then none
    else some { l with mode := .string (c.toNat :: units) }
  | .escape units =>
    if c = 'u' then some { l with mode := .code units 0 0 }
    else (escaped c).map fun u => { l with mode := .string (u :: units) }
  | .code units k v =>
    if isDigit 16 c then
      if k = 3 then some { l with mode := .string ((16 * v + charValue c) :: units) }
      else some { l with mode := .code units (k + 1) (16 * v + charValue c) }
    else none

/-- Some characters. -/
def run (l : Lexer) (text : List Char) : Option Lexer := text.foldlM step l

/-- The tokens, if the text may end here. -/
def finish (l : Lexer) : Option (List Token) :=
  match l.mode with
  | .between => some l.tokens
  | .word w => (classify w.reverse).map fun t => t :: l.tokens
  | _ => none

@[simp] theorem run_nil (l : Lexer) : l.run [] = some l := rfl

theorem run_cons (l : Lexer) (c : Char) (text : List Char) :
    l.run (c :: text) = (l.step c).bind fun l => l.run text := rfl

theorem run_append (l : Lexer) (text text' : List Char) :
    l.run (text ++ text') = (l.run text).bind fun l => l.run text' := by
  rw [run, List.foldlM_append]
  rfl

/-- **A token ends** where the next begins, and is the same as if the text ended there. -/
theorem step_of_finish {l : Lexer} {tokens : List Token} {c : Char}
    (h : l.finish = some tokens) (hc : isDelimiter c = true) :
    l.step c = (⟨tokens, .between⟩ : Lexer).step c := by
  obtain ⟨tokens', mode⟩ := l
  cases mode with
  | between =>
    cases h
    rfl
  | word w =>
    rw [step]
    dsimp only
    rw [if_pos hc]
    change (classify w.reverse).map (fun t => t :: tokens') = some tokens at h
    obtain ⟨t, ht, rfl⟩ := Option.map_eq_some_iff.mp h
    rw [ht]
    rfl
  | string units => cases h
  | escape units => cases h
  | code units k v => cases h

end Lexer

/-- The tokens of a text. -/
def lex (text : List Char) : Option (List Token) :=
  ((Lexer.run ⟨[], .between⟩ text).bind Lexer.finish).map List.reverse

/-! ## The grammar -/

/-- What can be derived. -/
inductive Category
  /-- A value. -/
  | value
  /-- The members of an object. -/
  | members
  /-- The elements of an array. -/
  | elements

/-- The tokens of a value, of members, or of elements. -/
inductive Derives : Category → List Token → Prop
  | string (units : List ℕ) : Derives .value [.string units]
  | number (text : List Char) : Derives .value [.number text]
  | name (text : List Char) : Derives .value [.name text]
  | emptyObject : Derives .value [.lbrace, .rbrace]
  | object {ts : List Token} (h : Derives .members ts) :
    Derives .value (.lbrace :: (ts ++ [.rbrace]))
  | emptyArray : Derives .value [.lbracket, .rbracket]
  | array {ts : List Token} (h : Derives .elements ts) :
    Derives .value (.lbracket :: (ts ++ [.rbracket]))
  | member (units : List ℕ) {ts : List Token} (h : Derives .value ts) :
    Derives .members (.string units :: .colon :: ts)
  | members {ts ts' : List Token} (h : Derives .members ts) (h' : Derives .members ts') :
    Derives .members (ts ++ .comma :: ts')
  | element {ts : List Token} (h : Derives .value ts) : Derives .elements ts
  | elements {ts ts' : List Token} (h : Derives .elements ts) (h' : Derives .elements ts') :
    Derives .elements (ts ++ .comma :: ts')

/-- Text that is JSON. -/
def IsJson (text : List Char) : Prop := ∃ ts, lex text = some ts ∧ Derives .value ts

/-- What a string literal stands for. -/
def decode (text : List Char) : Option (List ℕ) :=
  match lex text with
  | some [.string units] => some units
  | _ => none

/-! ## Parts of a text -/

/-- Some characters are some tokens, whatever has come before. -/
def Lexes (text : List Char) (ts : List Token) : Prop :=
  ∀ tokens, ∃ l, Lexer.run ⟨tokens, .between⟩ text = some l ∧
    l.finish = some (ts.reverse ++ tokens)

/-- No text goes on like this. -/
def Dead (text : List Char) : Prop := ∀ tokens, Lexer.run ⟨tokens, .between⟩ text = none

variable {text text' : List Char} {ts ts' : List Token}

/-- A text starts with something that ends a word, if with anything. -/
def Starts (text : List Char) : Prop := ∀ c ∈ text.head?, isDelimiter c = true

theorem starts_nil : Starts [] := nofun

theorem starts_cons {c : Char} (hc : isDelimiter c = true) (text : List Char) :
    Starts (c :: text) := by
  rintro d ⟨⟩
  exact hc

theorem Starts.append {text text' : List Char} (h : Starts text) (h' : Starts text') :
    Starts (text ++ text') := by
  cases text with
  | nil => exact h'
  | cons c text => exact h

theorem Lexes.nil : Lexes [] [] := fun _ => ⟨_, rfl, rfl⟩

theorem Lexes.eq_nil (h : Lexes [] ts) : ts = [] := by
  obtain ⟨l, hl, hfinish⟩ := h []
  cases hl
  simpa [Lexer.finish] using hfinish.symm

/-- **Two parts**, the second of which starts with something that ends a word. -/
theorem Lexes.append (h : Lexes text ts) (h' : Lexes text' ts') (hstart : Starts text') :
    Lexes (text ++ text') (ts ++ ts') := by
  cases text' with
  | nil =>
    rw [h'.eq_nil, List.append_nil, List.append_nil]
    exact h
  | cons c text' =>
    intro tokens
    obtain ⟨l, hl, hfinish⟩ := h tokens
    obtain ⟨l', hl', hfinish'⟩ := h' (ts.reverse ++ tokens)
    refine ⟨l', ?_, ?_⟩
    · rw [Lexer.run_append, hl, Option.bind_some, Lexer.run_cons,
        Lexer.step_of_finish hfinish (hstart c rfl), ← Lexer.run_cons, hl']
    · rw [hfinish', List.reverse_append, List.append_assoc]

/-- **The second part** has no way on. -/
theorem Lexes.dead (h : Lexes text ts) (h' : Dead text') (hstart : Starts text') :
    Dead (text ++ text') := by
  cases text' with
  | nil => cases h' []
  | cons c text' =>
    intro tokens
    obtain ⟨l, hl, hfinish⟩ := h tokens
    rw [Lexer.run_append, hl, Option.bind_some, Lexer.run_cons,
      Lexer.step_of_finish hfinish (hstart c rfl), ← Lexer.run_cons, h']

/-- A blank in front. -/
theorem Lexes.blank (h : Lexes text ts) : Lexes (' ' :: text) ts := fun tokens => h tokens

theorem Dead.blank (h : Dead text) : Dead (' ' :: text) := fun tokens => h tokens

theorem Dead.append (h : Dead text) (text' : List Char) : Dead (text ++ text') := by
  intro tokens
  rw [Lexer.run_append, h]
  rfl

theorem lex_of_lexes (h : Lexes text ts) : lex text = some ts := by
  obtain ⟨l, hl, hfinish⟩ := h []
  rw [lex, hl, Option.bind_some, hfinish, Option.map_some, List.append_nil, List.reverse_reverse]

theorem not_isJson_of_dead (h : Dead text) : ¬ IsJson text := by
  rintro ⟨ts, hlex, -⟩
  rw [lex, h] at hlex
  cases hlex

/-! ## Words in a text -/

theorem run_word {w : List Char} (hw : ∀ c ∈ w, isDelimiter c = false) (tokens : List Token)
    (w' : List Char) :
    Lexer.run ⟨tokens, .word w'⟩ w = some ⟨tokens, .word (w.reverse ++ w')⟩ := by
  induction w generalizing w' with
  | nil => rfl
  | cons c w ih =>
    rw [Lexer.run_cons, Lexer.step]
    dsimp only
    rw [hw c List.mem_cons_self, if_neg Bool.false_ne_true, Option.bind_some,
      ih (fun d hd => hw d (List.mem_cons_of_mem _ hd)), List.reverse_cons, List.append_assoc]
    rfl

/-- The machine is in the word. -/
theorem run_of_word {w : List Char} (hne : w ≠ []) (hw : ∀ c ∈ w, isDelimiter c = false)
    (tokens : List Token) :
    Lexer.run ⟨tokens, .between⟩ w = some ⟨tokens, .word w.reverse⟩ := by
  obtain ⟨c, w, rfl⟩ := List.exists_cons_of_ne_nil hne
  have hc := hw c List.mem_cons_self
  simp only [isDelimiter, Bool.or_eq_false_iff, Option.isSome_eq_false_iff,
    Option.isNone_iff_eq_none, decide_eq_false_iff_not] at hc
  have hstart : Lexer.start tokens c = ⟨tokens, .word [c]⟩ := by
    rw [Lexer.start, hc.1.1, if_neg Bool.false_ne_true, hc.1.2]
    exact if_neg hc.2
  rw [Lexer.run_cons, Lexer.step]
  dsimp only
  rw [hstart, Option.bind_some, run_word (fun d hd => hw d (List.mem_cons_of_mem _ hd)),
    List.reverse_cons]

/-- **A word** is a token. -/
theorem lexes_word {w : List Char} {t : Token} (hne : w ≠ [])
    (hw : ∀ c ∈ w, isDelimiter c = false) (ht : classify w = some t) : Lexes w [t] := by
  intro tokens
  refine ⟨_, run_of_word hne hw tokens, ?_⟩
  rw [Lexer.finish]
  dsimp only
  rw [List.reverse_reverse, ht]
  rfl

/-- **A word that is none** ends where something else begins, and the text with it. -/
theorem dead_word {w : List Char} {c : Char} (hne : w ≠ []) (hw : ∀ c ∈ w, isDelimiter c = false)
    (ht : classify w = none) (hc : isDelimiter c = true) : Dead (w ++ [c]) := by
  intro tokens
  rw [Lexer.run_append, run_of_word hne hw tokens, Option.bind_some, Lexer.run_cons, Lexer.step]
  dsimp only
  rw [if_pos hc, List.reverse_reverse, ht]
  rfl

/-! ## Numbers in a text -/

theorem isDelimiter_of_isDigit {c : Char} (hc : isDigit 10 c = true) : isDelimiter c = false := by
  have hne : ∀ d, 10 ≤ charValue d → c ≠ d := fun d hd => ne_of_isDigit hc hd
  simp [isDelimiter, isBlank, punctuation, hne ' ' (by decide), hne '\t' (by decide),
    hne '\n' (by decide), hne '\r' (by decide), hne '\x7b' (by decide), hne '\x7d' (by decide),
    hne '[' (by decide), hne ']' (by decide), hne ':' (by decide), hne ',' (by decide),
    hne '"' (by decide)]

/-- The whole part of a number. -/
def IsWhole (w : List Char) : Prop := w = ['0'] ∨ isDigits w = true ∧ w.head? ≠ some '0'

theorem isDigits_iff {w : List Char} :
    isDigits w = true ↔ w ≠ [] ∧ ∀ c ∈ w, isDigit 10 c = true := by
  rw [isDigits, decide_eq_true_iff, List.all_eq_true]

theorem IsWhole.ne_nil_and {w : List Char} (h : IsWhole w) :
    w ≠ [] ∧ ∀ c ∈ w, isDigit 10 c = true := by
  rcases h with rfl | h
  · exact ⟨by simp, by simp [isDigit, charValue]⟩
  · exact isDigits_iff.mp h.1

/-- What is behind the whole part decides. -/
theorem isUnsigned_append {whole r : List Char} (h : IsWhole whole)
    (hr : ∀ c ∈ r.head?, isDigit 10 c = false) : isUnsigned (whole ++ r) = isFraction r := by
  have htake : (whole ++ r).takeWhile (isDigit 10) = whole :=
    takeWhile_append_of_head h.ne_nil_and.2 hr
  rw [isUnsigned]
  simp only [htake, List.drop_left]
  rw [Bool.eq_iff_iff, decide_eq_true_iff]
  exact and_iff_right h

theorem isFraction_point {ds : List Char} (hds : ∀ c ∈ ds, isDigit 10 c = true) :
    isFraction ('.' :: ds) = true ↔ ds ≠ [] := by
  rw [isFraction, List.takeWhile_eq_self_iff.mpr hds, List.drop_length, decide_eq_true_iff,
    isDigits_iff]
  exact ⟨fun h => h.1.1, fun h => ⟨⟨h, hds⟩, rfl⟩⟩

/-- A sign, if any, in front of a number. -/
theorem isNumber_sign {sign w : List Char} (hsign : sign = [] ∨ sign = ['-'])
    (hw : w.head? ≠ some '-') : isNumber (sign ++ w) = isUnsigned w := by
  rcases hsign with rfl | rfl
  · rw [List.nil_append, isNumber.eq_def]
    split
    · exact absurd rfl hw
    · rfl
  · rfl

theorem IsWhole.head?_ne {whole r : List Char} (h : IsWhole whole) :
    (whole ++ r).head? ≠ some '-' := by
  obtain ⟨d, ds, rfl⟩ := List.exists_cons_of_ne_nil h.ne_nil_and.1
  have hd := h.ne_nil_and.2 d List.mem_cons_self
  rw [List.cons_append, List.head?_cons]
  rintro heq
  cases heq
  revert hd
  decide

/-- A whole part that is cut off is one, if that is not its first digit. -/
theorem IsWhole.take {w : List Char} (h : IsWhole w) {k : ℕ} (hk : 1 < k) : IsWhole (w.take k) := by
  rcases h with rfl | ⟨hdigits, hhead⟩
  · rw [List.take_of_length_le (by simpa using hk.le)]
    exact .inl rfl
  · obtain ⟨hne, hall⟩ := isDigits_iff.mp hdigits
    refine .inr ⟨isDigits_iff.mpr ⟨?_, fun c hc => hall c (List.mem_of_mem_take hc)⟩, ?_⟩
    · rw [Ne, List.take_eq_nil_iff]
      exact not_or.mpr ⟨by omega, hne⟩
    · rwa [List.head?_take, if_neg (by omega)]

/-- **What is left of a decimal** is a number, unless the point is the last of it. -/
theorem isUnsigned_take {whole ds : List Char} (hwhole : IsWhole whole)
    (hds : ∀ c ∈ ds, isDigit 10 c = true) (hne : ds ≠ []) {k : ℕ} (hk : 1 < k) :
    isUnsigned ((whole ++ '.' :: ds).take k) = true ↔ whole.length + 1 ≠ k := by
  have hpoint : isDigit 10 '.' = false := by decide
  rw [List.take_append]
  by_cases hlong : k ≤ whole.length
  · rw [Nat.sub_eq_zero_of_le hlong, List.take_zero]
    rw [isUnsigned_append (hwhole.take hk) (by simp)]
    exact iff_of_true rfl (by omega)
  · obtain ⟨m, hm⟩ := Nat.exists_eq_add_of_lt (Nat.lt_of_not_le hlong)
    have hleft : k - whole.length = m + 1 := by omega
    rw [List.take_of_length_le (by omega), hleft, List.take_succ_cons,
      isUnsigned_append hwhole (by simp [hpoint]),
      isFraction_point fun c hc => hds c (List.mem_of_mem_take hc), Ne, List.take_eq_nil_iff]
    constructor
    · intro h heq
      exact h (.inl (by omega))
    · rintro h (hzero | hnil)
      · omega
      · exact hne hnil

theorem head?_take_ne {whole r : List Char} (h : IsWhole whole) (k : ℕ) :
    ((whole ++ r).take k).head? ≠ some '-' := by
  rw [List.head?_take]
  split
  · exact nofun
  · exact h.head?_ne

/-- The digits of a number have no zero in front. -/
theorem isWhole_toDigits (n : ℕ) : IsWhole (Nat.toDigits 10 n) := by
  have hdigits : isDigits (Nat.toDigits 10 n) = true :=
    isDigits_iff.mpr ⟨Nat.toDigits_ne_nil, fun c hc =>
      isDigit_of_mem_toDigits (by decide) (by decide) hc⟩
  by_cases hn : n = 0
  · exact .inl (by rw [hn]; rfl)
  · refine .inr ⟨hdigits, ?_⟩
    clear hdigits
    induction n using Nat.strong_induction_on with
    | h n ih =>
      rw [Nat.toDigits_eq_if (by decide)]
      by_cases hlt : n < 10
      · have hall : ∀ k < 10, k ≠ 0 → Nat.digitChar k ≠ '0' := by decide
        rw [if_pos hlt, List.head?_cons]
        exact fun h => hall n hlt hn (Option.some.inj h)
      · have hne : Nat.toDigits 10 (n / 10) ≠ [] := Nat.toDigits_ne_nil
        rw [if_neg hlt, List.head?_append_of_ne_nil _ hne]
        exact ih (n / 10) (by omega) (by omega)

/-- **A number that is printed** is one. -/
theorem isNumber_printed (v : ℤ) : isNumber (printed v) = true := by
  have hunsigned : isUnsigned (Nat.toDigits 10 v.natAbs) = true := by
    have h := isUnsigned_append (r := []) (isWhole_toDigits v.natAbs) (by simp)
    rw [List.append_nil] at h
    rw [h]
    rfl
  rw [printed]
  split
  · exact hunsigned
  · have h := isNumber_sign (.inl rfl) ((isWhole_toDigits v.natAbs).head?_ne (r := []))
    rw [List.nil_append, List.append_nil] at h
    rw [h, hunsigned]

theorem exists_classify {w : List Char} (h : isNumber w = true) :
    ∃ t, classify w = some t ∧ Derives .value [t] := by
  by_cases hname : w = "true".toList ∨ w = "false".toList ∨ w = "null".toList
  · exact ⟨.name w, if_pos hname, .name w⟩
  · refine ⟨.number w, ?_, .number w⟩
    rw [classify, if_neg hname, if_pos h]

/-! ## Strings in a text -/

/-- A quotation mark or a backslash has a backslash in front. -/
def escape (c : Char) : List Char := if c = '"' ∨ c = '\\' then ['\\', c] else [c]

/-- A string literal. -/
def literal (s : List Char) : List Char := '"' :: (s.flatMap escape ++ ['"'])

theorem run_escape {c : Char} (hc : isControl c = false) (tokens : List Token) (units : List ℕ) :
    Lexer.run ⟨tokens, .string units⟩ (escape c) = some ⟨tokens, .string (c.toNat :: units)⟩ := by
  rw [escape]
  by_cases hq : c = '"' ∨ c = '\\'
  · rw [if_pos hq]
    rcases hq with rfl | rfl <;> rfl
  · obtain ⟨hquote, hslash⟩ := not_or.mp hq
    rw [if_neg hq, Lexer.run_cons, Lexer.step]
    dsimp only
    rw [if_neg hquote, if_neg hslash, hc, if_neg Bool.false_ne_true]
    rfl

theorem run_escape_control {c : Char} (hc : isControl c = true) (tokens : List Token)
    (units : List ℕ) : Lexer.run ⟨tokens, .string units⟩ (escape c) = none := by
  have hquote : c ≠ '"' := by
    rintro rfl
    revert hc
    decide
  have hslash : c ≠ '\\' := by
    rintro rfl
    revert hc
    decide
  rw [escape, if_neg (not_or.mpr ⟨hquote, hslash⟩), Lexer.run_cons, Lexer.step]
  dsimp only
  rw [if_neg hquote, if_neg hslash, hc, if_pos rfl]
  rfl

theorem run_flatMap_escape {s : List Char} (hs : ∀ c ∈ s, isControl c = false)
    (tokens : List Token) (units : List ℕ) :
    Lexer.run ⟨tokens, .string units⟩ (s.flatMap escape) =
      some ⟨tokens, .string ((s.map Char.toNat).reverse ++ units)⟩ := by
  induction s generalizing units with
  | nil => rfl
  | cons c s ih =>
    rw [List.flatMap_cons, Lexer.run_append, run_escape (hs c List.mem_cons_self),
      Option.bind_some, ih fun d hd => hs d (List.mem_cons_of_mem _ hd), List.map_cons,
      List.reverse_cons, List.append_assoc]
    rfl

/-- **A literal without control characters** is a token. -/
theorem lexes_literal {s : List Char} (hs : ∀ c ∈ s, isControl c = false) :
    Lexes (literal s) [.string (s.map Char.toNat)] := by
  intro tokens
  refine ⟨⟨.string (s.map Char.toNat) :: tokens, .between⟩, ?_, rfl⟩
  have hstart : Lexer.step ⟨tokens, .between⟩ '"' = some ⟨tokens, .string []⟩ := rfl
  rw [literal, Lexer.run_cons, hstart, Option.bind_some, Lexer.run_append,
    run_flatMap_escape hs, Option.bind_some, List.append_nil, Lexer.run_cons, Lexer.step]
  dsimp only
  rw [if_pos rfl, List.reverse_reverse]
  rfl

/-- **A control character** in a literal ends the text. -/
theorem dead_literal {s : List Char} (hs : ∃ c ∈ s, isControl c = true) :
    Dead ('"' :: s.flatMap escape) := by
  have hrun : ∀ (s : List Char) (tokens : List Token) (units : List ℕ),
      (∃ c ∈ s, isControl c = true) →
        Lexer.run ⟨tokens, .string units⟩ (s.flatMap escape) = none := by
    intro s
    induction s with
    | nil => simp
    | cons c s ih =>
      intro tokens units hs
      rw [List.flatMap_cons, Lexer.run_append]
      by_cases hc : isControl c = true
      · rw [run_escape_control hc]
        rfl
      · have hrest : ∃ d ∈ s, isControl d = true := by
          obtain ⟨d, hd, hcontrol⟩ := hs
          rcases List.mem_cons.mp hd with rfl | hd
          · exact absurd hcontrol hc
          · exact ⟨d, hd, hcontrol⟩
        rw [run_escape (Bool.eq_false_iff.mpr hc), Option.bind_some, ih _ _ hrest]
  intro tokens
  have hstart : Lexer.step ⟨tokens, .between⟩ '"' = some ⟨tokens, .string []⟩ := rfl
  rw [Lexer.run_cons, hstart, Option.bind_some, hrun s _ _ hs]

/-- **What a literal stands for.** -/
theorem decode_literal {s : List Char} (hs : ∀ c ∈ s, isControl c = false) :
    decode (literal s) = some (s.map Char.toNat) := by
  rw [decode, lex_of_lexes (lexes_literal hs)]

/-- What would be a literal but for a control character. -/
theorem decode_literal_of_control {s : List Char} (hs : ∃ c ∈ s, isControl c = true) :
    decode (literal s) = none := by
  have hdead := (dead_literal hs).append ['"']
  rw [List.cons_append] at hdead
  rw [decode, lex, literal, hdead]
  rfl

/-- Characters that a literal has as they are. -/
def isPlain (c : Char) : Bool := ¬ (c = '"' ∨ c = '\\') ∧ isControl c = false

theorem flatMap_escape_of_plain {s : List Char} (hs : ∀ c ∈ s, isPlain c = true) :
    s.flatMap escape = s := by
  induction s with
  | nil => rfl
  | cons c s ih =>
    have hc := hs c List.mem_cons_self
    rw [isPlain, decide_eq_true_iff] at hc
    rw [List.flatMap_cons, ih fun d hd => hs d (List.mem_cons_of_mem _ hd), escape, if_neg hc.1]
    rfl

/-- A literal of such characters. -/
theorem lexes_plain {s : List Char} (hs : ∀ c ∈ s, isPlain c = true) :
    Lexes ('"' :: (s ++ ['"'])) [.string (s.map Char.toNat)] := by
  have h := lexes_literal (s := s) fun c hc => by
    have hplain := hs c hc
    rw [isPlain, decide_eq_true_iff] at hplain
    exact hplain.2
  rwa [literal, flatMap_escape_of_plain hs] at h

end Json

end TQLib
