import TQLib.EventTracer.TraceFile

/-!
# The trace file as JSON

The file is JSON as long as every argument is. That fails for an empty string, whose terminator is
put out and ends the arguments where they are printed; for a control character in a string; and for
numbers in floating point that are none, or that the buffer cuts off right behind the point. Where
an argument is none of these, what has come before it makes no difference, and where it is, nothing
behind it mends the file.

## Main results

* `value_good`, `value_bad` — the text of an argument
* `args_good`, `args_bad`, `event_good`, `event_bad`, `events_good`, `events_bad` — from one to many
* `wellFormed_iff` — when the file is JSON
* `traceFile_iff` — the arguments and the file
-/

namespace TQLib

namespace EventTracer

open Json

/-! ## Texts that are cut off -/

theorem inBuffer_eq (text : List Char) : inBuffer text = text.take 31 := by
  rw [inBuffer, kTraceArgBufferLength]
  split
  · rw [List.take_length, List.take_of_length_le (by omega)]
  · rfl

theorem inBuffer_of_le {text : List Char} (h : text.length ≤ 31) : inBuffer text = text := by
  rw [inBuffer_eq, List.take_of_length_le h]

/-- Where a number in floating point has its point, counting the sign and the whole part. -/
def Double.IsGood : Double → Prop
  | .finite negative whole _ =>
    (Double.sign negative).length + (Nat.toDigits 10 whole).length ≠ 30
  | .infinite _ => False
  | .nan _ => False

theorem isDigit_of_mem_padded {w n : ℕ} {c : Char} (hc : c ∈ padded w n) :
    isDigit 10 c = true := by
  rw [padded, List.leftpad, List.mem_append] at hc
  rcases hc with hc | hc
  · rw [(List.mem_replicate.mp hc).2]
    decide
  · exact isDigit_of_mem_toDigits (by decide) (by decide) hc

theorem sign_cases (negative : Bool) :
    Double.sign negative = [] ∨ Double.sign negative = ['-'] := by
  cases negative
  · exact .inl rfl
  · exact .inr rfl

theorem mem_sign {negative : Bool} {c : Char} (hc : c ∈ Double.sign negative) : c = '-' := by
  rcases sign_cases negative with h | h
  · rw [h] at hc
    cases hc
  · rw [h] at hc
    exact List.mem_singleton.mp hc

theorem mem_text_finite {negative : Bool} {whole : ℕ} {millionths : Fin (10 ^ 6)} {c : Char}
    (hc : c ∈ (Double.finite negative whole millionths).text) :
    c = '-' ∨ c = '.' ∨ isDigit 10 c = true := by
  rw [Double.text, List.mem_append, List.mem_append, List.mem_cons] at hc
  rcases hc with hc | hc | hc | hc
  · exact .inl (mem_sign hc)
  · exact .inr (.inr (isDigit_of_mem_toDigits (by decide) (by decide) hc))
  · exact .inr (.inl hc)
  · exact .inr (.inr (isDigit_of_mem_padded hc))

theorem text_ne_nil (d : Double) : d.text ≠ [] := by
  cases d <;> simp [Double.text]

/-- A character that a word has, and a C string. -/
def IsWordChar (c : Char) : Prop := isDelimiter c = false ∧ c ≠ '\x00'

instance (c : Char) : Decidable (IsWordChar c) := inferInstanceAs (Decidable (_ ∧ _))

theorem isWordChar_of_isDigit {c : Char} (hc : isDigit 10 c = true) : IsWordChar c :=
  ⟨isDelimiter_of_isDigit hc, ne_of_isDigit hc (by decide)⟩

theorem isWordChar_of_mem_double {d : Double} {c : Char} (hc : c ∈ d.text) : IsWordChar c := by
  have hminus : IsWordChar '-' := by decide
  have hinf : ∀ c ∈ "inf".toList, IsWordChar c := by
    intro c hc
    have hc : c = 'i' ∨ c = 'n' ∨ c = 'f' := by simpa using hc
    rcases hc with rfl | rfl | rfl <;> decide
  have hnan : ∀ c ∈ "nan".toList, IsWordChar c := by
    intro c hc
    have hc : c = 'n' ∨ c = 'a' ∨ c = 'n' := by simpa using hc
    rcases hc with rfl | rfl | rfl <;> decide
  cases d with
  | finite negative whole millionths =>
    rcases mem_text_finite hc with rfl | rfl | hc
    · exact hminus
    · decide
    · exact isWordChar_of_isDigit hc
  | infinite negative =>
    rcases List.mem_append.mp hc with hc | hc
    · rwa [mem_sign hc]
    · exact hinf c hc
  | nan negative =>
    rcases List.mem_append.mp hc with hc | hc
    · rwa [mem_sign hc]
    · exact hnan c hc

/-- The buffer has nothing else. -/
theorem isWordChar_of_mem_inBuffer {d : Double} {c : Char} (hc : c ∈ inBuffer d.text) :
    IsWordChar c := by
  rw [inBuffer_eq] at hc
  exact isWordChar_of_mem_double (List.mem_of_mem_take hc)

section Finite

variable {negative : Bool} {whole : ℕ} {millionths : Fin (10 ^ 6)}

/-- A finite number is one in JSON too, unless it is cut off behind its point. -/
theorem isNumber_finite_iff :
    isNumber (inBuffer (Double.finite negative whole millionths).text) = true ↔
      (Double.finite negative whole millionths).IsGood := by
  have hlen : (padded 6 millionths).length = 6 := length_padded (by decide) millionths.2
  have hne : padded 6 millionths ≠ [] := by
    rintro h
    rw [h] at hlen
    cases hlen
  have hwhole := isWhole_toDigits whole
  have hsign : (Double.sign negative).length ≤ 1 := by
    cases negative <;> simp [Double.sign]
  have htext : inBuffer (Double.finite negative whole millionths).text =
      Double.sign negative ++ (Nat.toDigits 10 whole ++ '.' :: padded 6 millionths).take
        (31 - (Double.sign negative).length) := by
    rw [inBuffer_eq, Double.text, List.take_append, List.take_of_length_le (by omega)]
  rw [htext, isNumber_sign (sign_cases negative) (head?_take_ne hwhole _),
    isUnsigned_take hwhole (fun c hc => isDigit_of_mem_padded hc) hne (by omega), Double.IsGood]
  omega

/-- And it is none of the names. -/
theorem finite_ne_name :
    ¬ (inBuffer (Double.finite negative whole millionths).text = "true".toList ∨
      inBuffer (Double.finite negative whole millionths).text = "false".toList ∨
      inBuffer (Double.finite negative whole millionths).text = "null".toList) := by
  have hletter : ∀ c, 10 ≤ charValue c → c ≠ '-' → c ≠ '.' →
      c ∉ inBuffer (Double.finite negative whole millionths).text := by
    intro c hvalue hminus hpoint hc
    rw [inBuffer_eq] at hc
    rcases mem_text_finite (List.mem_of_mem_take hc) with hc | hc | hc
    · exact hminus hc
    · exact hpoint hc
    · exact ne_of_isDigit hc hvalue rfl
  rintro (heq | heq | heq)
  · exact hletter 'e' (by decide) (by decide) (by decide) (heq ▸ by decide)
  · exact hletter 'e' (by decide) (by decide) (by decide) (heq ▸ by decide)
  · exact hletter 'l' (by decide) (by decide) (by decide) (heq ▸ by decide)

end Finite

/-- **A number in floating point** is a word, which is a token if the number is a good one. -/
theorem classify_double (d : Double) :
    (d.IsGood → ∃ t, classify (inBuffer d.text) = some t ∧ Derives .value [t]) ∧
      (¬ d.IsGood → classify (inBuffer d.text) = none) := by
  cases d with
  | finite negative whole millionths =>
    refine ⟨fun h => exists_classify (isNumber_finite_iff.mpr h), fun h => ?_⟩
    rw [classify, if_neg finite_ne_name, if_neg fun hn => h (isNumber_finite_iff.mp hn)]
  | infinite negative =>
    refine ⟨fun h => h.elim, fun _ => ?_⟩
    cases negative <;> rfl
  | nan negative =>
    refine ⟨fun h => h.elim, fun _ => ?_⟩
    cases negative <;> rfl

/-! ## Arguments -/

/-- An argument that keeps the file JSON. -/
def IsGoodValue : TraceArgValue → Prop
  | .asDouble d => d.IsGood
  | .asString s _ => IsGoodString s.1
  | .copyString s => IsGoodString s.1
  | _ => True

theorem cStr_append {s : List Char} (hs : '\x00' ∉ s) (t : List Char) :
    cStr (s ++ t) = s ++ cStr t := by
  rw [cStr, List.takeWhile_append_of_pos, cStr]
  intro c hc
  rw [decide_eq_true_iff]
  rintro rfl
  exact hs hc

theorem cStr_eq {s : List Char} (hs : '\x00' ∉ s) : cStr s = s := by
  have h := cStr_append hs []
  rwa [List.append_nil, cStr, cStr, List.takeWhile_nil, List.append_nil] at h

/-- What ends a word is not cut off. -/
theorem exists_cStr_eq {text : List Char} (hne : text ≠ []) (hstart : Starts text) :
    ∃ c rest, cStr text = c :: rest ∧ isDelimiter c = true := by
  obtain ⟨c, text, rfl⟩ := List.exists_cons_of_ne_nil hne
  have hc := hstart c rfl
  have hnul : c ≠ '\x00' := by
    rintro rfl
    revert hc
    decide
  exact ⟨c, cStr text, by rw [cStr, List.takeWhile_cons_of_pos (by simpa using hnul), cStr], hc⟩

theorem starts_cStr {text : List Char} (hne : text ≠ []) (hstart : Starts text)
    (text' : List Char) : Starts (cStr text ++ text') := by
  obtain ⟨c, rest, heq, hc⟩ := exists_cStr_eq hne hstart
  rw [heq]
  rintro d ⟨⟩
  exact hc

theorem isWordChar_of_mem_printed {v : ℤ} {c : Char} (hc : c ∈ printed v) : IsWordChar c := by
  have hdigit : ∀ c ∈ Nat.toDigits 10 v.natAbs, IsWordChar c := fun c hc =>
    isWordChar_of_isDigit (isDigit_of_mem_toDigits (by decide) (by decide) hc)
  rw [printed] at hc
  split at hc
  · rcases List.mem_cons.mp hc with rfl | hc
    · decide
    · exact hdigit c hc
  · exact hdigit c hc

/-- The text of one token, which is a value. -/
structure IsValueText (text : List Char) (t : Token) : Prop where
  not_mem_nul : '\x00' ∉ text
  lexes : Lexes text [t]
  derives : Derives .value [t]

/-- A word that is a value. -/
theorem isValueText_word {w : List Char} {t : Token} (hw : ∀ c ∈ w, IsWordChar c)
    (ht : classify w = some t) (hderives : Derives .value [t]) : IsValueText w t := by
  have hne : w ≠ [] := by
    rintro rfl
    cases ht
  exact ⟨fun hnul => (hw _ hnul).2 rfl, lexes_word hne (fun c hc => (hw c hc).1) ht, hderives⟩

theorem exists_isValueText_printed (v : ℤ) : ∃ t, IsValueText (printed v) t := by
  obtain ⟨t, ht, hderives⟩ := exists_classify (isNumber_printed v)
  exact ⟨t, isValueText_word (fun c hc => isWordChar_of_mem_printed hc) ht hderives⟩

theorem not_mem_nul_of_plain {s : List Char} (hs : ∀ c ∈ s, isPlain c = true) : '\x00' ∉ s := by
  intro hnul
  have h := hs _ hnul
  revert h
  decide

theorem inBuffer_printed {v : ℤ} (hv : v.natAbs < 10 ^ 20) : inBuffer (printed v) = printed v :=
  inBuffer_of_le ((length_printed_le (by decide) hv).trans (by decide))

theorem not_mem_nul_escape {s : List Char} (hs : '\x00' ∉ s) : '\x00' ∉ s.flatMap escape := by
  intro hmem
  obtain ⟨c, hc, h⟩ := List.mem_flatMap.mp hmem
  have hcases : '\x00' = '\\' ∨ '\x00' = c := by
    rw [escape] at h
    split at h
    · exact (List.mem_cons.mp h).imp_right List.mem_singleton.mp
    · exact .inr (List.mem_singleton.mp h)
  rcases hcases with h | rfl
  · revert h
    decide
  · exact hs hc

theorem isValueText_literal {s : List Char} (hnul : '\x00' ∉ s)
    (hs : ∀ c ∈ s, isControl c = false) :
    IsValueText (literal s) (.string (s.map Char.toNat)) := by
  refine ⟨?_, lexes_literal hs, .string _⟩
  simpa [literal] using not_mem_nul_escape hnul

/-- A good string is a value. -/
theorem string_good {s : List Char} (hs : '\x00' ∉ s) (h : IsGoodString s) (beyond : List Char) :
    ∃ text t, (traceStringAsString (s ++ '\x00' :: beyond)).map Prod.fst = some text ∧
      IsValueText text t :=
  ⟨literal s, _, by rw [traceStringAsString_eq hs h.1, Option.map_some],
    isValueText_literal hs h.2⟩

/-- **A good argument** is a value. -/
theorem value_good {v : TraceArgValue} (h : IsGoodValue v) :
    ∃ text t, traceArgValueAsString v = some text ∧ IsValueText text t := by
  cases v with
  | asBool b =>
    cases b with
    | false => exact ⟨_, .name "false".toList, rfl, by decide, fun _ => ⟨_, rfl, rfl⟩, .name _⟩
    | true => exact ⟨_, .name "true".toList, rfl, by decide, fun _ => ⟨_, rfl, rfl⟩, .name _⟩
  | asUint v =>
    have hv : ((v.toNat : ℤ)).natAbs < 10 ^ 20 := by
      have hlt := v.toNat_lt
      omega
    obtain ⟨t, ht⟩ := exists_isValueText_printed v.toNat
    exact ⟨_, t, rfl, by rwa [inBuffer_printed hv]⟩
  | asInt v =>
    have hv : v.1.natAbs < 10 ^ 20 := by
      obtain ⟨v, hlow, hhigh⟩ := v
      dsimp only at hlow hhigh ⊢
      omega
    obtain ⟨t, ht⟩ := exists_isValueText_printed v.1
    exact ⟨_, t, rfl, by rwa [inBuffer_printed hv]⟩
  | asDouble d =>
    obtain ⟨t, ht, hderives⟩ := (classify_double d).1 h
    exact ⟨_, t, rfl, isValueText_word (fun _ => isWordChar_of_mem_inBuffer) ht hderives⟩
  | asPointer p =>
    have hlen : ('"' :: (p.1 ++ ['"'])).length ≤ 31 := by
      have hle := p.2.2
      simp only [List.length_cons, List.length_append, List.length_nil]
      omega
    refine ⟨_, .string (p.1.map Char.toNat), rfl, ?_⟩
    rw [inBuffer_of_le hlen]
    refine ⟨?_, lexes_plain p.2.1, .string _⟩
    simpa using not_mem_nul_of_plain p.2.1
  | asString s beyond => exact string_good s.2 h beyond
  | copyString s => exact string_good s.2 h []

/-- The text behind an argument, up to the end of the line, has no way on. -/
def EndsFile (text : List Char) : Prop :=
  ∀ rest, rest ≠ [] → Starts rest → Dead (cStr (text ++ rest) ++ "\x7d\n".toList)

/-- A string that is not good ends the file. -/
theorem string_bad {s : List Char} (hs : '\x00' ∉ s) (h : ¬ IsGoodString s)
    (beyond : List Char) :
    (traceStringAsString (s ++ '\x00' :: beyond)).map Prod.fst = none ∨
      ∃ text, (traceStringAsString (s ++ '\x00' :: beyond)).map Prod.fst = some text ∧
        EndsFile text := by
  by_cases hne : s = []
  · subst hne
    cases htext : traceStringAsString ([] ++ '\x00' :: beyond) with
    | none => exact .inl rfl
    | some r =>
      obtain ⟨text, last⟩ := r
      obtain ⟨⟨rest, rfl⟩, -⟩ := traceStringAsString_nil htext
      refine .inr ⟨_, rfl, fun rest' _ _ => ?_⟩
      -- The quotation mark is the last that is printed, and the line ends in the literal.
      have hcut : cStr ('"' :: '\x00' :: rest ++ rest') = ['"'] := by simp [cStr]
      rw [hcut]
      exact fun _ => rfl
  · have hcontrol : ∃ c ∈ s, isControl c = true := by
      by_contra hnone
      refine h ⟨hne, fun c hc => Bool.eq_false_iff.mpr fun hcontrol => hnone ⟨c, hc, hcontrol⟩⟩
    have hnul : '\x00' ∉ '"' :: s.flatMap escape := by simpa using not_mem_nul_escape hs
    refine .inr ⟨literal s, by rw [traceStringAsString_eq hs hne, Option.map_some], ?_⟩
    intro rest _ _
    have hsplit : literal s ++ rest = ('"' :: s.flatMap escape) ++ ('"' :: rest) := by
      simp [literal]
    rw [hsplit, cStr_append hnul, List.append_assoc]
    exact (dead_literal hcontrol).append _

/-- **A bad argument** has no text, or one that ends the file. -/
theorem value_bad {v : TraceArgValue} (h : ¬ IsGoodValue v) :
    traceArgValueAsString v = none ∨
      ∃ text, traceArgValueAsString v = some text ∧ EndsFile text := by
  cases v with
  | asBool b => exact absurd trivial h
  | asUint v => exact absurd trivial h
  | asInt v => exact absurd trivial h
  | asPointer p => exact absurd trivial h
  | asDouble d =>
    have hword : ∀ c ∈ inBuffer d.text, IsWordChar c := fun _ => isWordChar_of_mem_inBuffer
    have hne : inBuffer d.text ≠ [] := by
      rw [inBuffer_eq, Ne, List.take_eq_nil_iff]
      exact fun h => h.elim (by decide) (text_ne_nil d)
    refine .inr ⟨_, rfl, fun rest hrest hstart => ?_⟩
    obtain ⟨c, rest', heq, hc⟩ := exists_cStr_eq hrest hstart
    rw [cStr_append fun hnul => (hword _ hnul).2 rfl, heq, List.append_cons, List.append_assoc]
    exact (dead_word hne (fun c hc => (hword c hc).1) ((classify_double d).2 h) hc).append _
  | asString s beyond => exact string_bad s.2 h beyond
  | copyString s => exact string_bad s.2 h []

/-! ## All arguments -/

/-- What is in front of the first of several, and of the others. -/
def separator (isFirst : Bool) : List Char := if isFirst then [] else [',']

/-- The token of it. -/
def comma (isFirst : Bool) : List Token := if isFirst then [] else [.comma]

theorem lexes_separator (isFirst : Bool) : Lexes (separator isFirst) (comma isFirst) := by
  cases isFirst
  · exact fun _ => ⟨_, rfl, rfl⟩
  · exact .nil

theorem starts_separator (isFirst : Bool) : Starts (separator isFirst) := by
  cases isFirst
  · exact starts_cons rfl _
  · exact starts_nil

/-- The name of an argument, in front of its value. -/
def nameText (isFirst : Bool) (name : Name) : List Char :=
  separator isFirst ++ ((' ' :: '"' :: (name.1 ++ ['"'])) ++ [':'])

theorem lexes_nameText (isFirst : Bool) (name : Name) :
    Lexes (nameText isFirst name) (comma isFirst ++ [.string (name.1.map Char.toNat), .colon]) :=
  (lexes_separator isFirst).append
    ((lexes_plain name.2).blank.append (fun _ => ⟨_, rfl, rfl⟩ : Lexes [':'] [.colon])
      (starts_cons rfl _))
    (starts_cons rfl _)

theorem starts_nameText (isFirst : Bool) (name : Name) : Starts (nameText isFirst name) :=
  (starts_separator isFirst).append (starts_cons rfl _)

theorem not_mem_nul_nameText (isFirst : Bool) (name : Name) : '\x00' ∉ nameText isFirst name := by
  have hname := not_mem_nul_of_plain name.2
  cases isFirst <;> simp [nameText, separator, hname]

/-- An argument. -/
def argText (isFirst : Bool) (name : Name) (value : List Char) : List Char :=
  nameText isFirst name ++ ' ' :: value

theorem starts_argText (isFirst : Bool) (name : Name) (value : List Char) :
    Starts (argText isFirst name value) :=
  (starts_nameText isFirst name).append (starts_cons rfl _)

theorem argText_ne_nil (isFirst : Bool) (name : Name) (value : List Char) :
    argText isFirst name value ≠ [] :=
  List.append_ne_nil_of_right_ne_nil _ (List.cons_ne_nil _ _)

theorem not_mem_nul_argText (isFirst : Bool) (name : Name) {value : List Char}
    (hvalue : '\x00' ∉ value) : '\x00' ∉ argText isFirst name value := by
  simp [argText, not_mem_nul_nameText, hvalue]

theorem lexes_argText (isFirst : Bool) (name : Name) {value : List Char} {t : Token}
    (hvalue : Lexes value [t]) : Lexes (argText isFirst name value)
      (comma isFirst ++ [.string (name.1.map Char.toNat), .colon, t]) := by
  have h := (lexes_nameText isFirst name).append hvalue.blank (starts_cons rfl _)
  rwa [List.append_assoc] at h

/-- An argument in front of others. -/
theorem appendArgs_cons (arg : TraceArg) (args : List TraceArg) (isFirst : Bool)
    (argsStr : List Char) : appendArgs (arg :: args) isFirst argsStr =
      (traceArgValueAsString arg.value).bind fun value =>
        appendArgs args false (argsStr ++ argText isFirst arg.name value) := by
  rw [appendArgs]
  refine Option.bind_congr fun value _ => ?_
  congr 2
  cases isFirst <;> simp [argText, nameText, separator]

theorem exists_appendArgs (args : List TraceArg) (argsStr : List Char) :
    appendArgs args false argsStr = none ∨
      ∃ text, appendArgs args false argsStr = some (argsStr ++ text) ∧ Starts text := by
  induction args generalizing argsStr with
  | nil => exact .inr ⟨[], by rw [appendArgs, List.append_nil], nofun⟩
  | cons arg args ih =>
    rw [appendArgs_cons]
    cases traceArgValueAsString arg.value with
    | none => exact .inl rfl
    | some value =>
      rw [Option.bind_some]
      rcases ih (argsStr ++ argText false arg.name value) with h | ⟨text, h, hstarts⟩
      · exact .inl h
      · exact .inr ⟨argText false arg.name value ++ text, by rw [h, List.append_assoc],
          (starts_argText false arg.name value).append hstarts⟩

/-- **Good arguments** are the members of an object. -/
theorem args_good {args : List TraceArg} (hne : args ≠ [])
    (h : ∀ arg ∈ args, IsGoodValue arg.value) (isFirst : Bool) (argsStr : List Char) :
    ∃ text ts, appendArgs args isFirst argsStr = some (argsStr ++ text) ∧ '\x00' ∉ text ∧
      Starts text ∧ Lexes text (comma isFirst ++ ts) ∧ Derives .members ts := by
  induction args generalizing isFirst argsStr with
  | nil => exact absurd rfl hne
  | cons arg args ih =>
    obtain ⟨value, t, hvalue, hnul, hlexes, hderives⟩ := value_good (h arg List.mem_cons_self)
    have hmember : Derives .members [.string (arg.name.1.map Char.toNat), .colon, t] :=
      .member _ hderives
    have hnul' := not_mem_nul_argText isFirst arg.name hnul
    have hstarts := starts_argText isFirst arg.name value
    have harg := lexes_argText isFirst arg.name hlexes
    rw [appendArgs_cons, hvalue, Option.bind_some]
    by_cases hlast : args = []
    · subst hlast
      exact ⟨_, _, rfl, hnul', hstarts, harg, hmember⟩
    · obtain ⟨text, ts, happend, hnul'', hstarts', hlexes', hderives'⟩ :=
        ih hlast (fun arg harg => h arg (List.mem_cons_of_mem _ harg)) false
          (argsStr ++ argText isFirst arg.name value)
      refine ⟨_, _, by rw [happend, List.append_assoc], ?_, hstarts.append hstarts', ?_,
        hmember.members hderives'⟩
      · rw [List.mem_append]
        exact not_or.mpr ⟨hnul', hnul''⟩
      · have hall := harg.append hlexes' hstarts'
        rw [List.append_assoc (comma isFirst)] at hall
        exact hall

/-- **A bad argument** among some ends the file. -/
theorem args_bad {args : List TraceArg} (h : ¬ ∀ arg ∈ args, IsGoodValue arg.value)
    (isFirst : Bool) (argsStr : List Char) :
    appendArgs args isFirst argsStr = none ∨
      ∃ text, appendArgs args isFirst argsStr = some (argsStr ++ text) ∧ text ≠ [] ∧
        Starts text ∧ Dead (cStr (text ++ " \x7d".toList) ++ "\x7d\n".toList) := by
  induction args generalizing isFirst argsStr with
  | nil => exact absurd (by simp) h
  | cons arg args ih =>
    rw [appendArgs_cons]
    by_cases hgood : IsGoodValue arg.value
    · have hrest : ¬ ∀ arg ∈ args, IsGoodValue arg.value := fun hargs =>
        h fun a ha => (List.mem_cons.mp ha).elim (fun heq => heq ▸ hgood) (hargs a)
      obtain ⟨value, t, hvalue, hnul, hlexes, -⟩ := value_good hgood
      rw [hvalue, Option.bind_some]
      rcases ih hrest false (argsStr ++ argText isFirst arg.name value) with
        hnone | ⟨text, htext, hne, hstarts, hdead⟩
      · exact .inl hnone
      · refine .inr ⟨argText isFirst arg.name value ++ text, by rw [htext, List.append_assoc],
          List.append_ne_nil_of_right_ne_nil _ hne,
          (starts_argText isFirst arg.name value).append hstarts, ?_⟩
        have hcut := starts_cStr (List.append_ne_nil_of_left_ne_nil hne " \x7d".toList)
          (hstarts.append (starts_cons rfl _)) "\x7d\n".toList
        rw [List.append_assoc, cStr_append (not_mem_nul_argText isFirst arg.name hnul),
          List.append_assoc]
        exact (lexes_argText isFirst arg.name hlexes).dead hdead hcut
    · rcases value_bad hgood with hnone | ⟨value, hvalue, hends⟩
      · exact .inl (by rw [hnone]; rfl)
      · rw [hvalue, Option.bind_some]
        rcases exists_appendArgs args (argsStr ++ argText isFirst arg.name value) with
          hnone | ⟨text, htext, hstarts⟩
        · exact .inl hnone
        · refine .inr ⟨argText isFirst arg.name value ++ text, by rw [htext, List.append_assoc],
            List.append_ne_nil_of_left_ne_nil (argText_ne_nil _ _ value) _,
            (starts_argText isFirst arg.name value).append hstarts, ?_⟩
          have hdead := hends (text ++ " \x7d".toList) (by simp)
            (hstarts.append (starts_cons rfl _))
          have hnul : '\x00' ∉ nameText isFirst arg.name ++ [' '] := by
            simp [not_mem_nul_nameText]
          have htext' : argText isFirst arg.name value ++ text ++ " \x7d".toList =
              nameText isFirst arg.name ++ [' '] ++ (value ++ (text ++ " \x7d".toList)) := by
            simp [argText]
          rw [htext', cStr_append hnul, List.append_assoc, List.append_assoc]
          exact (lexes_nameText isFirst arg.name).dead hdead.blank (starts_cons rfl _)

/-! ## Events -/

/-- A member of an event, behind others. -/
def fieldText (key value : List Char) : List Char := key ++ ' ' :: value

/-- The members of an event that all have. -/
def fieldsText (e : TraceEvent) : List Char :=
  fieldText "\x7b \"name\":".toList ('"' :: (e.name.1 ++ ['"'])) ++
    (fieldText ", \"cat\":".toList ('"' :: (e.categoryEnabled.1 ++ ['"'])) ++
    (fieldText ", \"ph\":".toList ('"' :: ([e.phase.1] ++ ['"'])) ++
    (fieldText ", \"ts\":".toList (printed e.timestamp.toNat) ++
    (fieldText ", \"pid\":".toList (printed e.pid) ++
    fieldText ", \"tid\":".toList (printed e.tid)))))

/-- An event, behind others or as the first, with its arguments. -/
def eventText (hasLoggedEvent : Bool) (e : TraceEvent) (args : List Char) : List Char :=
  (if hasLoggedEvent then [','] else [' ']) ++ (fieldsText e ++ (cStr args ++ "\x7d\n".toList))

theorem logEvent_eq (hasLoggedEvent : Bool) (text : List Char) (e : TraceEvent) :
    logEvent (hasLoggedEvent, text) e =
      (argsStr e).map fun args => (true, text ++ eventText hasLoggedEvent e args) := by
  have hname : "\x7b \"name\": \"".toList = "\x7b \"name\":".toList ++ [' ', '"'] := rfl
  have hcat : "\", \"cat\": \"".toList = '"' :: (", \"cat\":".toList ++ [' ', '"']) := rfl
  have hph : "\", \"ph\": \"".toList = '"' :: (", \"ph\":".toList ++ [' ', '"']) := rfl
  have hts : "\", \"ts\": ".toList = '"' :: (", \"ts\":".toList ++ [' ']) := rfl
  have hpid : ", \"pid\": ".toList = ", \"pid\":".toList ++ [' '] := rfl
  have htid : ", \"tid\": ".toList = ", \"tid\":".toList ++ [' '] := rfl
  rw [logEvent]
  simp only [hname, hcat, hph, hts, hpid, htid, eventText, fieldsText, fieldText]
  generalize "\x7b \"name\":".toList = name
  generalize ", \"cat\":".toList = cat
  generalize ", \"ph\":".toList = ph
  generalize ", \"ts\":".toList = ts
  generalize ", \"pid\":".toList = pid
  generalize ", \"tid\":".toList = tid
  simp only [List.append_assoc, List.cons_append, List.nil_append]

/-- More members of an object. -/
structure MoreMembers (text : List Char) (ts : List Token) : Prop where
  starts : Starts text
  lexes : Lexes text (.comma :: ts)
  derives : Derives .members ts

theorem moreMembers_field {key value : List Char} {units : List ℕ} {t : Token}
    (hstarts : Starts (key ++ [' '])) (hkey : Lexes key [.comma, .string units, .colon])
    (hvalue : IsValueText value t) :
    MoreMembers (fieldText key value) [.string units, .colon, t] where
  starts := by
    rw [fieldText, List.append_cons]
    cases key with
    | nil => exact starts_cons rfl _
    | cons c key => exact starts_cons (hstarts c rfl) _
  lexes := hkey.append hvalue.lexes.blank (starts_cons rfl _)
  derives := .member units hvalue.derives

theorem MoreMembers.append {text text' : List Char} {ts ts' : List Token}
    (h : MoreMembers text ts) (h' : MoreMembers text' ts') :
    MoreMembers (text ++ text') (ts ++ .comma :: ts') :=
  ⟨h.starts.append h'.starts, h.lexes.append h'.lexes h'.starts, h.derives.members h'.derives⟩

theorem isValueText_plain {s : List Char} (hs : ∀ c ∈ s, isPlain c = true) :
    IsValueText ('"' :: (s ++ ['"'])) (.string (s.map Char.toNat)) :=
  ⟨by simpa using not_mem_nul_of_plain hs, lexes_plain hs, .string _⟩

theorem exists_fields (e : TraceEvent) :
    ∃ ts, Lexes (fieldsText e) (.lbrace :: ts) ∧ Derives .members ts := by
  obtain ⟨t₁, h₁⟩ := exists_isValueText_printed (e.timestamp.toNat : ℤ)
  obtain ⟨t₂, h₂⟩ := exists_isValueText_printed e.pid
  obtain ⟨t₃, h₃⟩ := exists_isValueText_printed e.tid
  have hphase : ∀ c ∈ [e.phase.1], isPlain c = true := by
    intro c hc
    rw [List.mem_singleton.mp hc]
    exact e.phase.2
  have hname : Lexes "\x7b \"name\":".toList
      [.lbrace, .string ("name".toList.map Char.toNat), .colon] := fun _ => ⟨_, rfl, rfl⟩
  have hcat : Lexes ", \"cat\":".toList
      [.comma, .string ("cat".toList.map Char.toNat), .colon] := fun _ => ⟨_, rfl, rfl⟩
  have hph : Lexes ", \"ph\":".toList
      [.comma, .string ("ph".toList.map Char.toNat), .colon] := fun _ => ⟨_, rfl, rfl⟩
  have hts : Lexes ", \"ts\":".toList
      [.comma, .string ("ts".toList.map Char.toNat), .colon] := fun _ => ⟨_, rfl, rfl⟩
  have hpid : Lexes ", \"pid\":".toList
      [.comma, .string ("pid".toList.map Char.toNat), .colon] := fun _ => ⟨_, rfl, rfl⟩
  have htid : Lexes ", \"tid\":".toList
      [.comma, .string ("tid".toList.map Char.toNat), .colon] := fun _ => ⟨_, rfl, rfl⟩
  have hfirst := hname.append (lexes_plain e.name.2).blank (starts_cons rfl _)
  have hmore :=
    (moreMembers_field (starts_cons rfl _) hcat (isValueText_plain e.categoryEnabled.2)).append
      ((moreMembers_field (starts_cons rfl _) hph (isValueText_plain hphase)).append
        ((moreMembers_field (starts_cons rfl _) hts h₁).append
          ((moreMembers_field (starts_cons rfl _) hpid h₂).append
            (moreMembers_field (starts_cons rfl _) htid h₃))))
  exact ⟨_, hfirst.append hmore.lexes hmore.starts,
    (Derives.member _ (.string _)).members hmore.derives⟩

/-- What is in front of the first event, and of the others. -/
theorem lexes_behind (hasLoggedEvent : Bool) :
    Lexes (if hasLoggedEvent then [','] else [' ']) (comma !hasLoggedEvent) := by
  cases hasLoggedEvent <;> exact fun _ => ⟨_, rfl, rfl⟩

theorem starts_behind (hasLoggedEvent : Bool) (text : List Char) :
    Starts ((if hasLoggedEvent then [','] else [' ']) ++ text) := by
  cases hasLoggedEvent <;> exact starts_cons rfl _

theorem starts_eventText (hasLoggedEvent : Bool) (e : TraceEvent) (args : List Char) :
    Starts (eventText hasLoggedEvent e args) := starts_behind hasLoggedEvent _

theorem starts_fieldsText (e : TraceEvent) (text : List Char) : Starts (fieldsText e ++ text) :=
  starts_cons rfl _

theorem lexes_args : Lexes ", \"args\": \x7b".toList
    [.comma, .string ("args".toList.map Char.toNat), .colon, .lbrace] := fun _ => ⟨_, rfl, rfl⟩

/-- The arguments of an event, if it has some. -/
theorem argsStr_eq {e : TraceEvent} (hne : e.args ≠ []) :
    argsStr e = (appendArgs e.args true ", \"args\": \x7b".toList).map
      (· ++ " \x7d".toList) := if_neg hne

/-- **An event with good arguments** is a value. -/
theorem event_good {e : TraceEvent} (h : ∀ arg ∈ e.args, IsGoodValue arg.value)
    (hasLoggedEvent : Bool) (file : List Char) :
    ∃ text ts, logEvent (hasLoggedEvent, file) e = some (true, file ++ text) ∧ Starts text ∧
      Lexes text (comma (!hasLoggedEvent) ++ ts) ∧ Derives .value ts := by
  obtain ⟨fields, hfields, hmembers⟩ := exists_fields e
  have hend : Lexes "\x7d\n".toList [.rbrace] := fun _ => ⟨_, rfl, rfl⟩
  have hbehind := lexes_behind hasLoggedEvent
  by_cases hargs : e.args = []
  · refine ⟨eventText hasLoggedEvent e [], .lbrace :: (fields ++ [.rbrace]), ?_,
      starts_eventText _ _ _, ?_, .object hmembers⟩
    · rw [logEvent_eq, argsStr, if_pos hargs, Option.map_some]
    · exact hbehind.append (hfields.append hend (starts_cons rfl _)) (starts_fieldsText e _)
  · obtain ⟨text, ts, happend, hnul, hstarts, hlexes, hderives⟩ :=
      args_good hargs h true ", \"args\": \x7b".toList
    have hnul' : '\x00' ∉ ", \"args\": \x7b".toList ++ text ++ " \x7d".toList := by
      simp [hnul]
    have hbrace : Lexes " \x7d".toList [.rbrace] := fun _ => ⟨_, rfl, rfl⟩
    have hobject := (lexes_args.append hlexes hstarts).append hbrace (starts_cons rfl _)
    have hall := hobject.append hend (starts_cons rfl _)
    have hmember : Derives .members (.string ("args".toList.map Char.toNat) :: .colon ::
        .lbrace :: (ts ++ [.rbrace])) := .member _ (.object hderives)
    refine ⟨eventText hasLoggedEvent e (", \"args\": \x7b".toList ++ text ++ " \x7d".toList), _, ?_,
      starts_eventText _ _ _, ?_, .object (hmembers.members hmember)⟩
    · rw [logEvent_eq, argsStr_eq hargs, happend, Option.map_some, Option.map_some]
    · rw [eventText, cStr_eq hnul']
      refine hbehind.append ?_ (starts_fieldsText e _)
      have hevent := hfields.append hall (starts_cons rfl _)
      have htokens : .lbrace :: fields ++ ([.comma, .string ("args".toList.map Char.toNat), .colon,
          .lbrace] ++ (comma true ++ ts) ++ [.rbrace] ++ [.rbrace]) =
          .lbrace :: (fields ++ .comma :: (.string ("args".toList.map Char.toNat) :: .colon ::
            .lbrace :: (ts ++ [.rbrace])) ++ [.rbrace]) := by
        simp only [comma, if_true, List.nil_append, List.cons_append, List.append_assoc]
      rwa [htokens] at hevent

/-- **An event with a bad argument** ends the file. -/
theorem event_bad {e : TraceEvent} (h : ¬ ∀ arg ∈ e.args, IsGoodValue arg.value)
    (hasLoggedEvent : Bool) (file : List Char) :
    logEvent (hasLoggedEvent, file) e = none ∨
      ∃ text, logEvent (hasLoggedEvent, file) e = some (true, file ++ text) ∧ Starts text ∧
        Dead text := by
  obtain ⟨fields, hfields, -⟩ := exists_fields e
  have hargs : e.args ≠ [] := by
    intro hnil
    rw [hnil] at h
    exact h (by simp)
  rw [logEvent_eq, argsStr_eq hargs]
  rcases args_bad h true ", \"args\": \x7b".toList with hnone | ⟨text, htext, hne, hstarts, hdead⟩
  · exact .inl (by rw [hnone]; rfl)
  · refine .inr ⟨eventText hasLoggedEvent e (", \"args\": \x7b".toList ++ text ++ " \x7d".toList),
      by rw [htext, Option.map_some, Option.map_some], starts_eventText _ _ _, ?_⟩
    refine (lexes_behind hasLoggedEvent).dead ?_ (starts_fieldsText e _)
    have hnul : '\x00' ∉ ", \"args\": \x7b".toList := by decide
    rw [List.append_assoc, cStr_append hnul, List.append_assoc]
    have hcut : Starts (cStr (text ++ " \x7d".toList) ++ "\x7d\n".toList) :=
      starts_cStr (List.append_ne_nil_of_left_ne_nil hne _) (hstarts.append (starts_cons rfl _)) _
    exact hfields.dead (lexes_args.dead hdead hcut) (starts_cons rfl _)

/-- **Good events** are the elements of an array. -/
theorem events_good {events : List TraceEvent} (hne : events ≠ [])
    (h : ∀ e ∈ events, ∀ arg ∈ e.args, IsGoodValue arg.value) (hasLoggedEvent : Bool)
    (file : List Char) :
    ∃ text ts, events.foldlM logEvent (hasLoggedEvent, file) = some (true, file ++ text) ∧
      Starts text ∧ Lexes text (comma (!hasLoggedEvent) ++ ts) ∧ Derives .elements ts := by
  induction events generalizing hasLoggedEvent file with
  | nil => exact absurd rfl hne
  | cons e events ih =>
    obtain ⟨text, ts, hevent, hstarts, hlexes, hderives⟩ :=
      event_good (h e List.mem_cons_self) hasLoggedEvent file
    rw [List.foldlM_cons, hevent]
    change ∃ text' ts', events.foldlM logEvent (true, file ++ text) = _ ∧ _
    by_cases hlast : events = []
    · subst hlast
      exact ⟨text, ts, rfl, hstarts, hlexes, .element hderives⟩
    · obtain ⟨text', ts', hevents, hstarts', hlexes', hderives'⟩ :=
        ih hlast (fun e he => h e (List.mem_cons_of_mem _ he)) true (file ++ text)
      refine ⟨text ++ text', ts ++ .comma :: ts', by rw [hevents, List.append_assoc],
        hstarts.append hstarts', ?_, (Derives.element hderives).elements hderives'⟩
      have hall := hlexes.append hlexes' hstarts'
      rw [List.append_assoc (comma !hasLoggedEvent)] at hall
      exact hall

theorem exists_events (events : List TraceEvent) (hasLoggedEvent : Bool) (file : List Char) :
    events.foldlM logEvent (hasLoggedEvent, file) = none ∨
      ∃ logged text, events.foldlM logEvent (hasLoggedEvent, file) =
        some (logged, file ++ text) := by
  induction events generalizing hasLoggedEvent file with
  | nil => exact .inr ⟨hasLoggedEvent, [], by rw [List.append_nil]; rfl⟩
  | cons e events ih =>
    rw [List.foldlM_cons, logEvent_eq]
    cases argsStr e with
    | none => exact .inl rfl
    | some args =>
      rcases ih true (file ++ eventText hasLoggedEvent e args) with
        hnone | ⟨logged, text, htext⟩
      · exact .inl hnone
      · exact .inr ⟨logged, _, htext.trans (by rw [List.append_assoc])⟩

/-- **A bad event** among some ends the file. -/
theorem events_bad {events : List TraceEvent}
    (h : ¬ ∀ e ∈ events, ∀ arg ∈ e.args, IsGoodValue arg.value) (hasLoggedEvent : Bool)
    (file : List Char) :
    events.foldlM logEvent (hasLoggedEvent, file) = none ∨
      ∃ logged text, events.foldlM logEvent (hasLoggedEvent, file) = some (logged, file ++ text) ∧
        Starts text ∧ Dead text := by
  induction events generalizing hasLoggedEvent file with
  | nil => exact absurd (by simp) h
  | cons e events ih =>
    rw [List.foldlM_cons]
    by_cases hgood : ∀ arg ∈ e.args, IsGoodValue arg.value
    · have hrest : ¬ ∀ e ∈ events, ∀ arg ∈ e.args, IsGoodValue arg.value := fun hevents =>
        h fun e' he => (List.mem_cons.mp he).elim (fun heq => heq ▸ hgood) (hevents e')
      obtain ⟨text, ts, hevent, hstarts, hlexes, -⟩ := event_good hgood hasLoggedEvent file
      rw [hevent]
      rcases ih hrest true (file ++ text) with hnone | ⟨logged, text', htext', hstarts', hdead⟩
      · exact .inl hnone
      · exact .inr ⟨logged, text ++ text', htext'.trans (by rw [List.append_assoc]),
          hstarts.append hstarts', hlexes.dead hdead hstarts'⟩
    · rcases event_bad hgood hasLoggedEvent file with hnone | ⟨text, hevent, hstarts, hdead⟩
      · exact .inl (by rw [hnone]; rfl)
      · rw [hevent]
        rcases exists_events events true (file ++ text) with hnone | ⟨logged, text', htext'⟩
        · exact .inl hnone
        · refine .inr ⟨logged, text ++ text', htext'.trans (by rw [List.append_assoc]), ?_,
            hdead.append text'⟩
          cases text with
          | nil => cases hdead []
          | cons c text => exact starts_cons (hstarts c rfl) _

/-! ## The file -/

theorem foldlM_logBatch (batches : List (List TraceEvent)) (file : Bool × List Char) :
    batches.foldlM logBatch file = batches.flatten.foldlM logEvent file := by
  induction batches generalizing file with
  | nil => rfl
  | cons events batches ih =>
    rw [List.foldlM_cons, List.flatten_cons, List.foldlM_append, logBatch]
    exact Option.bind_congr fun file' _ => ih file'

/-- The file has been written, and is JSON. -/
def IsWellFormed (batches : List (List TraceEvent)) : Prop :=
  ∃ file, log batches = some file ∧ IsJson file

/-- **The file is JSON** exactly if all arguments are good. -/
theorem wellFormed_iff (batches : List (List TraceEvent)) :
    IsWellFormed batches ↔
      ∀ e ∈ batches.flatten, ∀ arg ∈ e.args, IsGoodValue arg.value := by
  have hhead : Lexes "\x7b \"traceEvents\": [\n".toList
      [.lbrace, .string ("traceEvents".toList.map Char.toNat), .colon, .lbracket] :=
    fun _ => ⟨_, rfl, rfl⟩
  have htail : Lexes "]\x7d\n".toList [.rbracket, .rbrace] := fun _ => ⟨_, rfl, rfl⟩
  rw [IsWellFormed, log, foldlM_logBatch]
  generalize batches.flatten = events
  constructor
  · rintro ⟨file, hfile, hjson⟩
    by_contra hbad
    rcases events_bad hbad false "\x7b \"traceEvents\": [\n".toList with
      hnone | ⟨logged, text, htext, hstarts, hdead⟩
    · rw [hnone] at hfile
      cases hfile
    · rw [htext, Option.map_some] at hfile
      cases hfile
      exact not_isJson_of_dead ((hhead.dead hdead hstarts).append _) hjson
  · intro h
    by_cases hne : events = []
    · subst hne
      refine ⟨_, rfl, _, lex_of_lexes (hhead.append htail (starts_cons rfl _)), ?_⟩
      exact .object (.member _ .emptyArray)
    · obtain ⟨text, ts, htext, hstarts, hlexes, hderives⟩ :=
        events_good hne h false "\x7b \"traceEvents\": [\n".toList
      refine ⟨_, by rw [htext, Option.map_some], _,
        lex_of_lexes ((hhead.append hlexes hstarts).append htail (starts_cons rfl _)), ?_⟩
      have hvalue := Derives.object
        (.member ("traceEvents".toList.map Char.toNat) (.array hderives))
      have htokens : [.lbrace, .string ("traceEvents".toList.map Char.toNat), .colon, .lbracket] ++
          (comma (!false) ++ ts) ++ [.rbracket, .rbrace] =
          .lbrace :: (.string ("traceEvents".toList.map Char.toNat) :: .colon :: .lbracket ::
            (ts ++ [.rbracket]) ++ [.rbrace]) := by
        simp only [comma, Bool.not_false, if_true, List.nil_append, List.cons_append,
          List.append_assoc]
      rwa [htokens]

/-- **Trace arguments as JSON**: a string argument is a literal for the string exactly if it is not
empty and has no control characters, and the file is JSON exactly if all string arguments are such,
and numbers in floating point have digits behind a point or no point. -/
theorem traceFile_iff (s : CChars) (beyond : List Char) (batches : List (List TraceEvent)) :
    (IsFaithful s.1 beyond ↔ IsGoodString s.1) ∧
      (IsWellFormed batches ↔
        ∀ e ∈ batches.flatten, ∀ arg ∈ e.args, IsGoodValue arg.value) :=
  ⟨isFaithful_iff s.2 beyond, wellFormed_iff batches⟩

/-- The empty string, with more of the memory behind it. -/
theorem not_isFaithful_empty : ¬ IsFaithful [] ['x', '\x00'] := by
  intro h
  exact ((isFaithful_iff List.not_mem_nil _).mp h).1 rfl

end EventTracer

end TQLib
