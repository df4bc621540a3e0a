import TQLib.Win32.InetPton

/-!
# What `inet_pton_v4` accepts

Four decimal numbers up to 255, separated by periods. The code does not look at how many digits a
number has, and the loop that is over at the terminator is over behind a period too; nothing else is
accepted that should not be.

## Main results

* `inetPtonV4_terminated` — the parser does what a parser on the text does, and reads no further
* `dotted_eq_some_iff` — the texts it accepts, and the numbers in them
* `dotted_isSome_iff`, `not_isLooseQuad` — which of them are in the grammar
-/

namespace TQLib

namespace Win32

variable {k : ℕ} {s d : List Char}

/-! ## A parser on the text -/

/-- The value that is stored for digits. -/
def quad (d : List Char) : BitVec 8 := BitVec.ofNat 8 (digitsValue 10 d)

/-- Digits with a number that is small enough. -/
structure IsNumber (d : List Char) : Prop where
  ne_nil : d ≠ []
  digits : ∀ c ∈ d, isDigit 10 c = true
  le : digitsValue 10 d ≤ 255

/-- The numbers of a text, which has as many. -/
def dotted : ℕ → List Char → Option (List (BitVec 8))
  | 0, s => if s = [] then some [] else none
  | k + 1, s =>
    if s.takeWhile (isDigit 10) = [] ∨ 255 < digitsValue 10 (s.takeWhile (isDigit 10)) then none
    else
      match s.dropWhile (isDigit 10) with
      | [] => if k = 0 then some [quad (s.takeWhile (isDigit 10))] else none
      | '.' :: r => (dotted k r).map (quad (s.takeWhile (isDigit 10)) :: ·)
      | _ => none

/-- One turn of the loop, up to the value. -/
theorem inetPtonV4Number_eq {c : Char} {cs : List Char} (hs : '\x00' ∉ c :: cs) :
    inetPtonV4Number (terminated (c :: cs)) c = some
      (if (c :: cs).takeWhile (isDigit 10) = [] ∨
          255 < digitsValue 10 ((c :: cs).takeWhile (isDigit 10)) then none
        else some (quad ((c :: cs).takeWhile (isDigit 10)),
          terminated ((c :: cs).dropWhile (isDigit 10)))) := by
  by_cases hdigit : isDigit 10 c = true
  · have hne : (c :: cs).takeWhile (isDigit 10) ≠ [] := by simp [hdigit]
    have hsplit := List.takeWhile_append_dropWhile (p := isDigit 10) (l := c :: cs)
    rw [inetPtonV4Number, strtol_of_isDigit hs rfl hdigit]
    generalize (c :: cs).takeWhile (isDigit 10) = ds at hne hsplit ⊢
    generalize (c :: cs).dropWhile (isDigit 10) = r at hsplit ⊢
    have hlen : ds.length ≠ 0 := by simpa using hne
    have hdrop : (terminated (c :: cs)).drop ds.length = terminated r := by
      rw [← hsplit, drop_terminated]
    have hnonneg : ¬ min (2 ^ 31 - 1) (digitsValue 10 ds : ℤ) < 0 := by omega
    simp only [hdigit, Bool.not_true, Bool.false_eq_true, if_false, Option.map_some, hlen, hdrop,
      hne, false_or, or_false, hnonneg]
    by_cases hlarge : 255 < digitsValue 10 ds
    · rw [if_pos hlarge, if_pos (by omega)]
    · have hmin : min (2 ^ 31 - 1) (digitsValue 10 ds : ℤ) = digitsValue 10 ds := by omega
      rw [if_neg hlarge, if_neg (by omega), hmin, quad, BitVec.ofInt_natCast]
  · have hnil : (c :: cs).takeWhile (isDigit 10) = [] := by simp [hdigit]
    simp [inetPtonV4Number, hdigit, hnil]

theorem dotted_nil (k : ℕ) : dotted k [] = if k = 0 then some [] else none := by
  cases k <;> simp [dotted]

/-- The loop is the parser. -/
theorem inetPtonV4Loop_terminated (hs : '\x00' ∉ s) (result : List (BitVec 8)) :
    inetPtonV4Loop k (terminated s) result = some ((dotted k s).map (result ++ ·)) := by
  induction k generalizing s result with
  | zero =>
    cases s with
    | nil => simp [inetPtonV4Loop, dotted, terminated]
    | cons c cs =>
      have hc : c ≠ '\x00' := fun h => hs (by simp [h])
      simp [inetPtonV4Loop, dotted, head?_terminated, hc, inetPtonV4Number_eq hs]
  | succ k ih =>
    cases s with
    | nil => simp [inetPtonV4Loop, dotted, terminated]
    | cons c cs =>
      have hc : c ≠ '\x00' := fun h => hs (by simp [h])
      rw [inetPtonV4Loop, head?_terminated, dotted]
      simp only [List.head?_cons, Option.getD_some, Option.bind_eq_bind, Option.bind_some, hc,
        if_false, inetPtonV4Number_eq hs]
      have hrest : '\x00' ∉ (c :: cs).dropWhile (isDigit 10) :=
        fun h => hs ((List.dropWhile_suffix _).subset h)
      generalize (c :: cs).takeWhile (isDigit 10) = ds
      generalize (c :: cs).dropWhile (isDigit 10) = r at hrest ⊢
      by_cases hbad : ds = [] ∨ 255 < digitsValue 10 ds
      · simp only [hbad, if_true, Option.map_none]
      · simp only [hbad, if_false, head?_terminated, Option.bind_some]
        cases r with
        | nil =>
          have hend := ih hrest (result ++ [quad ds])
          rw [dotted_nil] at hend
          by_cases hk : k = 0 <;> simp_all
        | cons c' r' =>
          have hc' : c' ≠ '\x00' := fun h => hrest (by simp [h])
          by_cases hdot : c' = '.'
          · subst hdot
            have hdrop : (terminated ('.' :: r')).drop 1 = terminated r' :=
              drop_terminated ['.'] r'
            have hloop := ih (fun h => hrest (List.mem_cons_of_mem _ h)) (result ++ [quad ds])
            simp only [List.head?_cons, Option.getD_some, if_true, hdrop, hloop, Option.map_map]
            congr 2
            funext vs
            simp
          · simp [hdot, hc']

theorem inetPtonV4_terminated (hs : '\x00' ∉ s) :
    inetPtonV4 (terminated s) =
      some ((dotted 4 s).map fun bytes (i : Fin 4) => bytes.getD i 0) := by
  rw [inetPtonV4, inetPtonV4Loop_terminated hs]
  cases dotted 4 s <;> rfl

/-! ## What it accepts -/

/-- Numbers with periods between them. -/
def periods (ns : List (List Char)) : List Char := ['.'].intercalate ns

theorem periods_cons {ns : List (List Char)} (d : List Char) (hns : ns ≠ []) :
    periods (d :: ns) = d ++ '.' :: periods ns := by
  rw [periods, List.intercalate_cons_of_ne_nil hns, periods]
  simp

/-- A number is read up to what is behind it. -/
theorem takeWhile_number (hd : IsNumber d) {r : List Char}
    (hr : ∀ c ∈ r.head?, isDigit 10 c = false) : (d ++ r).takeWhile (isDigit 10) = d ∧
      (d ++ r).dropWhile (isDigit 10) = r := by
  have htake := takeWhile_append_of_head hd.digits hr
  have hsplit := List.takeWhile_append_dropWhile (p := isDigit 10) (l := d ++ r)
  rw [htake] at hsplit
  exact ⟨htake, List.append_cancel_left hsplit⟩

theorem dotted_number (hd : IsNumber d) (k : ℕ) :
    dotted (k + 1) d = if k = 0 then some [quad d] else none := by
  obtain ⟨htake, hdrop⟩ := takeWhile_number hd (r := []) (by simp)
  rw [List.append_nil] at htake hdrop
  have hle : ¬ 255 < digitsValue 10 d := by
    have := hd.le
    omega
  rw [dotted, htake, hdrop]
  simp [hd.ne_nil, hle]

theorem dotted_period (hd : IsNumber d) (k : ℕ) (r : List Char) :
    dotted (k + 1) (d ++ '.' :: r) = (dotted k r).map (quad d :: ·) := by
  have hperiod : ∀ c ∈ ('.' :: r).head?, isDigit 10 c = false := by
    rintro c ⟨⟩
    decide
  obtain ⟨htake, hdrop⟩ := takeWhile_number hd hperiod
  have hle : ¬ 255 < digitsValue 10 d := by
    have := hd.le
    omega
  rw [dotted, htake, hdrop]
  simp [hd.ne_nil, hle]

/-- A text that is accepted starts with a number, and goes on behind a period or not at all. -/
theorem dotted_succ_eq_some {vs : List (BitVec 8)} (h : dotted (k + 1) s = some vs) :
    ∃ d, IsNumber d ∧ ((s = d ∧ k = 0 ∧ vs = [quad d]) ∨
      ∃ r vs', s = d ++ '.' :: r ∧ dotted k r = some vs' ∧ vs = quad d :: vs') := by
  have hsplit := List.takeWhile_append_dropWhile (p := isDigit 10) (l := s)
  have hdigits : ∀ c ∈ s.takeWhile (isDigit 10), isDigit 10 c = true :=
    fun c hc => List.mem_takeWhile_imp hc
  rw [dotted] at h
  generalize s.takeWhile (isDigit 10) = d at h hsplit hdigits
  generalize s.dropWhile (isDigit 10) = r at h hsplit
  by_cases hbad : d = [] ∨ 255 < digitsValue 10 d
  · simp [hbad] at h
  · rw [if_neg hbad] at h
    rw [not_or, not_lt] at hbad
    refine ⟨d, ⟨hbad.1, hdigits, hbad.2⟩, ?_⟩
    cases r with
    | nil =>
      rw [List.append_nil] at hsplit
      by_cases hk : k = 0
      · rw [if_pos hk] at h
        exact .inl ⟨hsplit.symm, hk, (Option.some.inj h).symm⟩
      · simp [hk] at h
    | cons c r =>
      by_cases hc : c = '.'
      · subst hc
        obtain ⟨vs', hvs', rfl⟩ := Option.map_eq_some_iff.1 h
        exact .inr ⟨r, vs', hsplit.symm, hvs', rfl⟩
      · simp [hc] at h

/-- The texts that are accepted: as many numbers, and a period may come behind the last. -/
theorem dotted_eq_some_iff {vs : List (BitVec 8)} : dotted (k + 1) s = some vs ↔
    ∃ ns : List (List Char), ns.length = k + 1 ∧ (∀ d ∈ ns, IsNumber d) ∧ ns.map quad = vs ∧
      (s = periods ns ∨ s = periods ns ++ ['.']) := by
  induction k generalizing s vs with
  | zero =>
    constructor
    · intro h
      obtain ⟨d, hd, ⟨rfl, -, rfl⟩ | ⟨r, vs', rfl, hr, rfl⟩⟩ := dotted_succ_eq_some h
      · exact ⟨[s], rfl, by simpa using hd, rfl, .inl (by simp [periods])⟩
      · have hnil : r = [] ∧ vs' = [] := by
          cases r <;> simp_all [dotted]
        obtain ⟨rfl, rfl⟩ := hnil
        exact ⟨[d], rfl, by simpa using hd, rfl, .inr (by simp [periods])⟩
    · rintro ⟨ns, hlen, hns, rfl, hs⟩
      obtain ⟨d, rfl⟩ := List.length_eq_one_iff.1 hlen
      have hd := hns d (by simp)
      rcases hs with rfl | rfl
      · simpa [periods] using dotted_number hd 0
      · simpa [periods, dotted] using dotted_period hd 0 []
  | succ k ih =>
    constructor
    · intro h
      obtain ⟨d, hd, ⟨-, hk, -⟩ | ⟨r, vs', rfl, hr, rfl⟩⟩ := dotted_succ_eq_some h
      · cases hk
      · obtain ⟨ns, hlen, hns, rfl, hs⟩ := ih.1 hr
        have hne : ns ≠ [] := List.ne_nil_of_length_eq_add_one hlen
        refine ⟨d :: ns, by simp [hlen], List.forall_mem_cons.2 ⟨hd, hns⟩, rfl, ?_⟩
        rw [periods_cons d hne]
        rcases hs with rfl | rfl
        · exact .inl rfl
        · exact .inr (by simp)
    · rintro ⟨ns, hlen, hns, rfl, hs⟩
      obtain ⟨d, ns, rfl⟩ := List.exists_cons_of_length_eq_add_one hlen
      obtain ⟨hd, hns⟩ := List.forall_mem_cons.1 hns
      have hlen' : ns.length = k + 1 := by simpa using hlen
      have hne : ns ≠ [] := List.ne_nil_of_length_eq_add_one hlen'
      rw [periods_cons d hne] at hs
      have htail : ∃ r, s = d ++ '.' :: r ∧ (r = periods ns ∨ r = periods ns ++ ['.']) := by
        rcases hs with rfl | rfl
        · exact ⟨_, rfl, .inl rfl⟩
        · exact ⟨_, by simp, .inr rfl⟩
      obtain ⟨r, rfl, hr⟩ := htail
      rw [dotted_period hd, ih.2 ⟨ns, hlen', hns, rfl, hr⟩]
      rfl

/-! ## The grammar -/

/-- Four decimal numbers of one to three digits up to 255, separated by single periods. -/
def IsDottedQuad (s : List Char) : Prop :=
  ∃ ns : List (List Char), ns.length = 4 ∧ (∀ d ∈ ns, IsNumber d ∧ d.length ≤ 3) ∧ s = periods ns

/-- Four numbers as in the grammar, but for a period behind the last, or a number with leading zeros
of more than three digits. -/
def IsLooseQuad (s : List Char) : Prop :=
  ∃ ns : List (List Char), ns.length = 4 ∧ (∀ d ∈ ns, IsNumber d) ∧
    (s = periods ns ++ ['.'] ∨ s = periods ns ∧ ∃ d ∈ ns, 3 < d.length)

theorem period_not_mem (hd : IsNumber d) : '.' ∉ d := fun h =>
  ne_of_isDigit (d := '.') (hd.digits '.' h) (by decide) rfl

/-- A text is taken apart in one way. -/
theorem splitOn_periods {ns : List (List Char)} (hne : ns ≠ []) (hns : ∀ d ∈ ns, '.' ∉ d) :
    (periods ns).splitOn '.' = ns :=
  List.splitOn_intercalate '.' hns hne

theorem periods_concat {ns : List (List Char)} (hne : ns ≠ []) :
    periods ns ++ ['.'] = periods (ns ++ [[]]) := by
  induction ns with
  | nil => cases hne rfl
  | cons d ns ih =>
    cases ns with
    | nil => simp [periods]
    | cons d' ns =>
      rw [periods_cons d (List.cons_ne_nil _ _), List.append_assoc, List.cons_append,
        ih (List.cons_ne_nil _ _)]
      exact (periods_cons d (by simp)).symm

/-- What is accepted is in the grammar, or it is loose, and never both. -/
theorem dotted_isSome_iff : (dotted 4 s).isSome = true ↔ IsDottedQuad s ∨ IsLooseQuad s := by
  rw [Option.isSome_iff_exists]
  constructor
  · rintro ⟨vs, hvs⟩
    obtain ⟨ns, hlen, hns, -, hs⟩ := dotted_eq_some_iff.1 hvs
    rcases hs with rfl | rfl
    · by_cases hlong : ∃ d ∈ ns, 3 < d.length
      · exact .inr ⟨ns, hlen, hns, .inr ⟨rfl, hlong⟩⟩
      · refine .inl ⟨ns, hlen, fun d hd => ⟨hns d hd, ?_⟩, rfl⟩
        exact not_lt.1 fun hlt => hlong ⟨d, hd, hlt⟩
    · exact .inr ⟨ns, hlen, hns, .inl rfl⟩
  · rintro (⟨ns, hlen, hns, hs⟩ | ⟨ns, hlen, hns, hs⟩)
    · exact ⟨_, dotted_eq_some_iff.2 ⟨ns, hlen, fun d hd => (hns d hd).1, rfl, .inl hs⟩⟩
    · refine ⟨_, dotted_eq_some_iff.2 ⟨ns, hlen, hns, rfl, ?_⟩⟩
      rcases hs with hs | ⟨hs, -⟩
      · exact .inr hs
      · exact .inl hs

theorem not_isLooseQuad (hs : IsDottedQuad s) : ¬ IsLooseQuad s := by
  obtain ⟨ns, hlen, hns, rfl⟩ := hs
  rintro ⟨ms, hlen', hms, hs⟩
  have hne : ns ≠ [] := List.ne_nil_of_length_eq_add_one hlen
  have hne' : ms ≠ [] := List.ne_nil_of_length_eq_add_one hlen'
  have hsplit := splitOn_periods hne fun d hd => period_not_mem (hns d hd).1
  rcases hs with hs | ⟨hs, d, hd, hlong⟩
  · rw [hs, periods_concat hne', splitOn_periods (by simp)] at hsplit
    · simp [← hsplit, hlen'] at hlen
    · intro d hd
      rcases List.mem_append.1 hd with hd | hd
      · exact period_not_mem (hms d hd)
      · simp_all
  · rw [hs, splitOn_periods hne' fun d hd => period_not_mem (hms d hd)] at hsplit
    subst hsplit
    have := (hns d hd).2
    omega

end Win32

end TQLib
