import TQLib.Win32.Grammar

/-!
# Which texts `win32_inet_pton` should accept

The text forms of addresses, and the texts that are accepted besides them. A text is in the grammar,
or it is loose in one of a few ways, or it is refused; the texts that go wrong are the loose ones.
The ways come from `sscanf` and `strtol`, which read more than digits, from a colon that is skipped
in front, from a run for no group, and from what is not looked at between `ffff` and the colon.

## Main results

* `pton_accepts_iff` — which texts are treated as the grammar says
-/

namespace TQLib

namespace Win32

variable {e : Endian} {s t f g d u junk : List Char} {ws gs hs : List (List Char)} {v : BitVec 16}

/-! ## The grammar -/

/-- One to four hexadecimal digits. -/
structure IsGroup (g : List Char) : Prop where
  ne_nil : g ≠ []
  digits : ∀ c ∈ g, isDigit 16 c = true
  le : g.length ≤ 4

/-- The text forms: eight groups, or a run with fewer around it, or an address of the first family
behind `::` or `::ffff:`. -/
inductive IsIpv6Text : List Char → Prop
  | groups {gs : List (List Char)} : (∀ g ∈ gs, IsGroup g) → gs.length = 8 →
      IsIpv6Text (colons gs)
  | run {gs hs : List (List Char)} : (∀ g ∈ gs, IsGroup g) → (∀ g ∈ hs, IsGroup g) →
      gs.length + hs.length ≤ 7 → IsIpv6Text (colons gs ++ ':' :: ':' :: colons hs)
  | compatible {d : List Char} : IsDottedQuad d → IsIpv6Text (':' :: ':' :: d)
  | mapped {f d : List Char} : IsGroup f → digitsValue 16 f = 0xFFFF → IsDottedQuad d →
      IsIpv6Text (':' :: ':' :: (f ++ ':' :: d))

/-- The forms that are wrong: a word that is no group, a colon in front, a run for no group, or an
address of the first family that is loose or does not come behind `::ffff:`. -/
inductive IsLooseForm : List Char → Prop
  | groups {ws : List (List Char)} : AreWords ws → ws.length = 8 → (∃ w ∈ ws, ¬ IsGroup w) →
      IsLooseForm (colons ws)
  | front {ws : List (List Char)} : AreWords ws → ws.length = 8 → IsLooseForm (':' :: colons ws)
  | run {gs hs : List (List Char)} : AreWords gs → AreWords hs → gs.length < 8 →
      gs.length + hs.length ≤ 8 →
      (gs.length + hs.length = 8 ∨ ∃ w ∈ gs ++ hs, ¬ IsGroup w) →
      IsLooseForm (colons gs ++ ':' :: ':' :: colons hs)
  | frontRun {gs hs : List (List Char)} : AreWords gs → AreWords hs → gs ≠ [] → gs.length < 8 →
      gs.length + hs.length ≤ 8 → IsLooseForm (':' :: (colons gs ++ ':' :: ':' :: colons hs))
  | compatible {u : List Char} : IsLooseQuad u → IsLooseForm (':' :: ':' :: u)
  | mapped {f junk u : List Char} : IsMappedPrefix f junk → (dotted 4 u).isSome = true →
      (¬ IsGroup f ∨ junk ≠ [] ∨ IsLooseQuad u) →
      IsLooseForm (':' :: ':' :: (f ++ junk ++ ':' :: u))

/-- A text of a wrong form, without the letter that is looked for. -/
def IsLooseText (s : List Char) : Prop := 'x' ∉ s ∧ IsLooseForm s

/-! ## Groups -/

/-- A group is a word, and gives its number. -/
theorem IsGroup.isWord (hg : IsGroup g) : IsWord g (BitVec.ofNat 16 (digitsValue 16 g)) := by
  refine ⟨⟨[], [], [], g⟩, ⟨by simp, .inl rfl, .inl rfl, hg.digits⟩, hg.ne_nil, hg.le, rfl, ?_⟩
  simp [Item.value, BitVec.ofInt_natCast]

/-- There is one way to read a group. -/
theorem IsGroup.value_eq (hg : IsGroup g) (hv : IsWord g v) :
    v = BitVec.ofNat 16 (digitsValue 16 g) := by
  have hread : ∀ v, IsWord g v → sscanfHex (some 4) (terminated (g ++ [])) =
      some (some (v, g.length)) := fun v hv => by
    refine sscanfHex_word hv (by simp) ?_
    rw [List.append_nil]
    intro hnul
    exact ne_of_isDigit (d := '\x00') (hg.digits _ hnul) (by decide) rfl
  have heq := hread v hv
  rw [hread _ hg.isWord] at heq
  simpa using heq.symm

theorem areWords_of_groups (hgs : ∀ g ∈ gs, IsGroup g) : AreWords gs :=
  fun g hg => ⟨_, (hgs g hg).isWord⟩

/-- `ffff` in the grammar is `ffff` as it is read. -/
theorem IsGroup.isMappedPrefix (hf : IsGroup f) (hvalue : digitsValue 16 f = 0xFFFF) :
    IsMappedPrefix f [] := by
  have hword := hf.isWord
  rw [hvalue] at hword
  refine ⟨hword, ?_, by simp, by simp⟩
  have hlt := digitsValue_lt hf.digits
  have hle := hf.le
  by_contra hne
  have hshort : f.length ≤ 3 := by omega
  have hpow : 16 ^ f.length ≤ 16 ^ 3 := Nat.pow_le_pow_right (by decide) hshort
  omega

theorem IsMappedPrefix.digitsValue_eq (h : IsMappedPrefix f junk) (hf : IsGroup f) :
    digitsValue 16 f = 0xFFFF := by
  have hlt := digitsValue_lt hf.digits
  rw [h.2.1] at hlt
  have hvalue := congrArg BitVec.toNat (hf.value_eq h.1)
  rw [BitVec.toNat_ofNat, Nat.mod_eq_of_lt (by omega)] at hvalue
  exact hvalue.symm

/-! ## What is accepted -/

theorem mem_of_isDottedQuad (hd : IsDottedQuad d) {c : Char} (hc : c ∈ d) :
    c = '.' ∨ isDigit 10 c = true := by
  obtain ⟨ns, -, hns, rfl⟩ := hd
  rcases mem_intercalate hc with hsep | ⟨n, hn, hmem⟩
  · exact .inl hsep
  · exact .inr ((hns n hn).1.digits c hmem)

theorem colon_not_mem_of_dotted (hu : (dotted 4 u).isSome = true) : ':' ∉ u := by
  intro hc
  obtain ⟨vs, hvs⟩ := Option.isSome_iff_exists.1 hu
  obtain ⟨ns, -, hns, -, hs⟩ := dotted_eq_some_iff.1 hvs
  have hperiods : ':' ∈ periods ns := by
    rcases hs with rfl | rfl
    · exact hc
    · simpa using hc
  rcases mem_intercalate hperiods with hsep | ⟨n, hn, hmem⟩
  · revert hsep
    decide
  · exact ne_of_isDigit (d := ':') ((hns n hn).digits _ hmem) (by decide) rfl

theorem mem_of_colons (hgs : ∀ g ∈ gs, IsGroup g) {c : Char} (hc : c ∈ colons gs) :
    c = ':' ∨ isDigit 16 c = true := by
  rcases mem_intercalate hc with hsep | ⟨g, hg, hmem⟩
  · exact .inl hsep
  · exact .inr ((hgs g hg).digits c hmem)

/-- The characters of the text forms. -/
theorem IsIpv6Text.mem (h : IsIpv6Text s) {c : Char} (hc : c ∈ s) :
    c = ':' ∨ c = '.' ∨ isDigit 16 c = true := by
  have hquad : ∀ d, IsDottedQuad d → c ∈ d → c = ':' ∨ c = '.' ∨ isDigit 16 c = true := by
    intro d hd hc
    rcases mem_of_isDottedQuad hd hc with h | h
    · exact .inr (.inl h)
    · exact .inr (.inr (isDigit_mono (by decide) h))
  have hcolons : ∀ gs : List (List Char), (∀ g ∈ gs, IsGroup g) → c ∈ colons gs →
      c = ':' ∨ c = '.' ∨ isDigit 16 c = true := by
    intro gs hgs hc
    rcases mem_of_colons hgs hc with h | h
    · exact .inl h
    · exact .inr (.inr h)
  cases h with
  | groups hgs _ => exact hcolons _ hgs hc
  | run hgs hhs _ =>
    rw [List.mem_append, List.mem_cons, List.mem_cons] at hc
    rcases hc with hc | hc | hc | hc
    · exact hcolons _ hgs hc
    · exact .inl hc
    · exact .inl hc
    · exact hcolons _ hhs hc
  | compatible hd =>
    rw [List.mem_cons, List.mem_cons] at hc
    rcases hc with hc | hc | hc
    · exact .inl hc
    · exact .inl hc
    · exact hquad _ hd hc
  | mapped hf _ hd =>
    rw [List.mem_cons, List.mem_cons, List.mem_append, List.mem_cons] at hc
    rcases hc with hc | hc | hc | hc | hc
    · exact .inl hc
    · exact .inl hc
    · exact .inr (.inr (hf.digits c hc))
    · exact .inl hc
    · exact hquad _ hd hc

/-- The letter that is looked for is in no text form. -/
theorem IsIpv6Text.x_not_mem (h : IsIpv6Text s) : 'x' ∉ s := fun hc => by
  rcases h.mem hc with h | h | h <;> revert h <;> decide

theorem IsIpv6Text.nul_not_mem (h : IsIpv6Text s) : '\x00' ∉ s := fun hc => by
  rcases h.mem hc with h | h | h <;> revert h <;> decide

theorem IsDottedQuad.x_not_mem (hd : IsDottedQuad d) : 'x' ∉ d := fun hc => by
  rcases mem_of_isDottedQuad hd hc with h | h <;> revert h <;> decide

theorem IsDottedQuad.nul_not_mem (hd : IsDottedQuad d) : '\x00' ∉ d := fun hc => by
  rcases mem_of_isDottedQuad hd hc with h | h <;> revert h <;> decide

/-- What is accepted, but for the letter. -/
def Accepts (s : List Char) : Prop := Reads 0 false s ∨ ∃ t, s = ':' :: ':' :: t ∧ IsTail t

theorem IsIpv6Text.accepts (h : IsIpv6Text s) : Accepts s := by
  cases h with
  | @groups gs hgs hlen =>
    exact .inl (.inl ⟨gs, areWords_of_groups hgs, by omega, .inl rfl⟩)
  | @run gs hs hgs hhs hle =>
    exact .inl (.inr ⟨rfl, gs, hs, areWords_of_groups hgs, areWords_of_groups hhs, by omega,
      by omega, .inl rfl⟩)
  | @compatible d hd =>
    have hsome := dotted_isSome_iff.2 (.inl hd)
    exact .inr ⟨d, rfl, .inl ⟨colon_not_mem_of_dotted hsome, hsome⟩⟩
  | @mapped f d hf hvalue hd =>
    exact .inr ⟨_, rfl, .inr ⟨f, [], d, by simp, hf.isMappedPrefix hvalue,
      dotted_isSome_iff.2 (.inl hd)⟩⟩

theorem IsLooseForm.accepts (h : IsLooseForm s) : Accepts s := by
  cases h with
  | @groups ws hws hlen _ => exact .inl (.inl ⟨ws, hws, by omega, .inl rfl⟩)
  | @front ws hws hlen =>
    have hne : ws ≠ [] := List.ne_nil_of_length_eq_add_one hlen
    exact .inl (.inl ⟨ws, hws, by omega, .inr ⟨hne, rfl⟩⟩)
  | @run gs hs hgs hhs hlt hle _ =>
    exact .inl (.inr ⟨rfl, gs, hs, hgs, hhs, by omega, by omega, .inl rfl⟩)
  | @frontRun gs hs hgs hhs hne hlt hle =>
    exact .inl (.inr ⟨rfl, gs, hs, hgs, hhs, by omega, by omega, .inr ⟨hne, rfl⟩⟩)
  | @compatible u hu =>
    have hsome := dotted_isSome_iff.2 (.inr hu)
    exact .inr ⟨u, rfl, .inl ⟨colon_not_mem_of_dotted hsome, hsome⟩⟩
  | @mapped f junk u hstart hsome _ => exact .inr ⟨_, rfl, .inr ⟨f, junk, u, rfl, hstart, hsome⟩⟩

/-- What is accepted is in the grammar, or it is loose. -/
theorem Accepts.text_or_loose (h : Accepts s) : IsIpv6Text s ∨ IsLooseForm s := by
  rcases h with (⟨ws, hws, hlen, rfl | ⟨-, rfl⟩⟩ |
      ⟨-, gs, hs, hgs, hhs, hlt, hle, rfl | ⟨hne, rfl⟩⟩) |
    ⟨t, rfl, ⟨-, hsome⟩ | ⟨f, junk, u, rfl, hstart, hsome⟩⟩
  · rw [Nat.zero_add] at hlen
    by_cases hall : ∀ w ∈ ws, IsGroup w
    · exact .inl (.groups hall hlen)
    · push Not at hall
      exact .inr (.groups hws hlen hall)
  · rw [Nat.zero_add] at hlen
    exact .inr (.front hws hlen)
  · rw [Nat.zero_add] at hlt hle
    by_cases hall : ∀ w ∈ gs ++ hs, IsGroup w
    · by_cases hfull : gs.length + hs.length = 8
      · exact .inr (.run hgs hhs hlt hle (.inl hfull))
      · rw [List.forall_mem_append] at hall
        exact .inl (.run hall.1 hall.2 (by omega))
    · push Not at hall
      exact .inr (.run hgs hhs hlt hle (.inr hall))
  · rw [Nat.zero_add] at hlt hle
    exact .inr (.frontRun hgs hhs hne hlt hle)
  · rcases dotted_isSome_iff.1 hsome with hd | hu
    · exact .inl (.compatible hd)
    · exact .inr (.compatible hu)
  · by_cases hloose : ¬ IsGroup f ∨ junk ≠ [] ∨ IsLooseQuad u
    · exact .inr (.mapped hstart hsome hloose)
    · push Not at hloose
      obtain ⟨hf, rfl, hu⟩ := hloose
      rw [List.append_nil]
      exact .inl (.mapped hf (hstart.digitsValue_eq hf)
        ((dotted_isSome_iff.1 hsome).resolve_right hu))

/-! ## Never both -/

/-- The pieces between colons that are not empty. -/
def pieces (s : List Char) : List (List Char) := (s.splitOn ':').filter (· ≠ [])

theorem pieces_append (s t : List Char) : pieces (s ++ ':' :: t) = pieces s ++ pieces t := by
  rw [pieces, List.splitOn_append_cons_self, List.filter_append, pieces, pieces]

theorem pieces_cons (t : List Char) : pieces (':' :: t) = pieces t := by
  have happend := pieces_append [] t
  rwa [List.nil_append, show pieces [] = [] by decide, List.nil_append] at happend

theorem pieces_colons (hws : AreWords ws) : pieces (colons ws) = ws := by
  by_cases hne : ws = []
  · subst hne
    decide
  · have hcolon : ∀ w ∈ ws, ':' ∉ w := fun w hw => (hws w hw).choose_spec.colon_not_mem
    rw [pieces, colons, List.splitOn_intercalate ':' hcolon hne, List.filter_eq_self]
    intro w hw
    simpa using (hws w hw).choose_spec.ne_nil

theorem pieces_run (hgs : AreWords gs) (hhs : AreWords hs) :
    pieces (colons gs ++ ':' :: ':' :: colons hs) = gs ++ hs := by
  rw [pieces_append, pieces_cons, pieces_colons hgs, pieces_colons hhs]

/-- What a text of groups is like that is not loose. -/
structure Tidy (s : List Char) : Prop where
  groups : ∀ w ∈ pieces s, IsGroup w
  front : ∀ t, s = ':' :: t → t.head? = some ':'
  run : (pieces s).length = 8 → s.count ':' = 7

theorem IsIpv6Text.cases (h : IsIpv6Text s) : (Tidy s ∧ '.' ∉ s) ∨
    (∃ d, s = ':' :: ':' :: d ∧ IsDottedQuad d) ∨
    ∃ f d, s = ':' :: ':' :: (f ++ ':' :: d) ∧ IsGroup f ∧ digitsValue 16 f = 0xFFFF ∧
      IsDottedQuad d := by
  cases h with
  | @groups gs hgs hlen =>
    have hwords := areWords_of_groups hgs
    have hne : gs ≠ [] := List.ne_nil_of_length_eq_add_one hlen
    refine .inl ⟨⟨?_, ?_, ?_⟩, hwords.period_not_mem⟩
    · rwa [pieces_colons hwords]
    · intro t ht
      have hhead := hwords.colons_head hne []
      rw [List.append_nil, ht] at hhead
      exact absurd rfl hhead
    · rw [hwords.count_colons, hlen]
      simp
  | @run gs hs hgs hhs hle =>
    have hgs' := areWords_of_groups hgs
    have hhs' := areWords_of_groups hhs
    refine .inl ⟨⟨?_, ?_, ?_⟩, ?_⟩
    · rw [pieces_run hgs' hhs']
      exact List.forall_mem_append.2 ⟨hgs, hhs⟩
    · intro t ht
      have hnil := hgs'.head_ne_colon (':' :: ':' :: colons hs) ':' (by rw [ht]; rfl) rfl
      subst hnil
      rw [← (List.cons.inj ht).2]
      rfl
    · rw [pieces_run hgs' hhs', List.length_append]
      omega
    · simp [hgs'.period_not_mem, hhs'.period_not_mem]
  | compatible hd => exact .inr (.inl ⟨_, rfl, hd⟩)
  | mapped hf hvalue hd => exact .inr (.inr ⟨_, _, rfl, hf, hvalue, hd⟩)

theorem IsLooseForm.cases (h : IsLooseForm s) : (¬ Tidy s ∧ '.' ∉ s) ∨
    (∃ u, s = ':' :: ':' :: u ∧ IsLooseQuad u) ∨
    ∃ f junk u, s = ':' :: ':' :: (f ++ junk ++ ':' :: u) ∧ IsMappedPrefix f junk ∧
      (dotted 4 u).isSome = true ∧ (¬ IsGroup f ∨ junk ≠ [] ∨ IsLooseQuad u) := by
  cases h with
  | @groups ws hws hlen hloose =>
    refine .inl ⟨fun htidy => ?_, hws.period_not_mem⟩
    obtain ⟨w, hw, hnot⟩ := hloose
    rw [← pieces_colons hws] at hw
    exact hnot (htidy.groups w hw)
  | @front ws hws hlen =>
    have hne : ws ≠ [] := List.ne_nil_of_length_eq_add_one hlen
    refine .inl ⟨fun htidy => ?_, by simp [hws.period_not_mem]⟩
    have hhead := hws.colons_head hne []
    rw [List.append_nil] at hhead
    exact hhead (htidy.front _ rfl)
  | @run gs hs hgs hhs hlt hle hloose =>
    refine .inl ⟨fun htidy => ?_, by simp [hgs.period_not_mem, hhs.period_not_mem]⟩
    rcases hloose with hfull | ⟨w, hw, hnot⟩
    · have hcount := htidy.run (by rw [pieces_run hgs hhs, List.length_append, hfull])
      rw [List.count_append, List.count_cons_self, List.count_cons_self, hgs.count_colons,
        hhs.count_colons] at hcount
      omega
    · rw [← pieces_run hgs hhs] at hw
      exact hnot (htidy.groups w hw)
  | @frontRun gs hs hgs hhs hne hlt hle =>
    refine .inl ⟨fun htidy => ?_, by simp [hgs.period_not_mem, hhs.period_not_mem]⟩
    exact hgs.colons_head hne _ (htidy.front _ rfl)
  | compatible hu => exact .inr (.inl ⟨_, rfl, hu⟩)
  | mapped hstart hsome hloose => exact .inr (.inr ⟨_, _, _, rfl, hstart, hsome, hloose⟩)

theorem IsDottedQuad.isSome (hd : IsDottedQuad d) : (dotted 4 d).isSome = true :=
  dotted_isSome_iff.2 (.inl hd)

theorem IsLooseQuad.isSome (hu : IsLooseQuad u) : (dotted 4 u).isSome = true :=
  dotted_isSome_iff.2 (.inr hu)

theorem not_isLooseForm (h : IsIpv6Text s) : ¬ IsLooseForm s := by
  intro hloose
  rcases h.cases with ⟨htidy, hperiod⟩ | ⟨d, rfl, hd⟩ | ⟨f, d, rfl, hf, hvalue, hd⟩ <;>
    rcases hloose.cases with ⟨hnot, hno⟩ | ⟨u, heq, hu⟩ | ⟨f', junk, u, heq, hstart, hsome, hor⟩
  · exact hnot htidy
  · exact hperiod (by simp [heq, period_mem_of_dotted hu.isSome])
  · exact hperiod (by simp [heq, period_mem_of_dotted hsome])
  · exact hno (by simp [period_mem_of_dotted hd.isSome])
  · obtain rfl : d = u := by simpa using heq
    exact not_isLooseQuad hd hu
  · obtain rfl : d = f' ++ junk ++ ':' :: u := by simpa using heq
    exact colon_not_mem_of_dotted hd.isSome (by simp)
  · exact hno (by simp [period_mem_of_dotted hd.isSome])
  · obtain rfl : f ++ ':' :: d = u := by simpa using heq
    exact colon_not_mem_of_dotted hu.isSome (by simp)
  · have hcolon : ':' ∉ f := hf.isWord.colon_not_mem
    obtain ⟨rfl, rfl⟩ := append_cons_inj hcolon hstart.colon_not_mem
      (List.cons.inj (List.cons.inj heq).2).2
    have hlen := (hf.isMappedPrefix hvalue).2.1
    rw [List.length_append, hstart.2.1] at hlen
    obtain rfl : junk = [] := List.length_eq_zero_iff.1 (by omega)
    rw [List.append_nil] at hf
    rcases hor with hnot | hnot | hu
    · exact hnot hf
    · exact hnot rfl
    · exact not_isLooseQuad hd hu

/-! ## The parsers -/

/-- Between a grammar and what is loose, what goes wrong is what is loose. -/
theorem accepts_iff {α : Type} {text loose : Prop} {result : Option (Option α)} {o : Option α}
    (ho : result = some o) (hiff : o.isSome = true ↔ text ∨ loose) (hnot : text → ¬ loose) :
    (∃ o, result = some o ∧ (o.isSome = true ↔ text)) ↔ ¬ loose := by
  constructor
  · rintro ⟨o', ho', htext⟩ hloose
    rw [ho, Option.some.injEq] at ho'
    subst ho'
    exact hnot (htext.1 (hiff.2 (.inr hloose))) hloose
  · intro hloose
    exact ⟨o, ho, by tauto⟩

theorem inetPtonV4_accepts_iff (hs : '\x00' ∉ s) :
    (∃ o, win32InetPton e .AF_INET (terminated s) = some o ∧
      (o.isSome = true ↔ IsDottedQuad s)) ↔ ¬ IsLooseQuad s := by
  refine accepts_iff (o := (dotted 4 s).map fun bytes => .inet fun (i : Fin 4) => bytes.getD i 0)
    ?_ ?_ not_isLooseQuad
  · rw [win32InetPton, inetPtonV4_terminated hs, Option.map_some, Option.map_map]
    rfl
  · rw [Option.isSome_map, dotted_isSome_iff]

theorem inetPtonV6_accepts_iff (hs : '\x00' ∉ s) :
    (∃ o, win32InetPton e .AF_INET6 (terminated s) = some o ∧
      (o.isSome = true ↔ IsIpv6Text s)) ↔ ¬ IsLooseText s := by
  obtain ⟨o, ho, hiff⟩ := inetPtonV6_terminated (e := e) hs
  refine accepts_iff (o := o.map .inet6) ?_ ?_ fun htext hloose => not_isLooseForm htext hloose.2
  · rw [win32InetPton, ho, Option.map_some]
  · rw [Option.isSome_map, hiff]
    constructor
    · rintro ⟨hx, haccepts⟩
      rcases Accepts.text_or_loose haccepts with htext | hloose
      · exact .inl htext
      · exact .inr ⟨hx, hloose⟩
    · rintro (htext | ⟨hx, hloose⟩)
      · exact ⟨htext.x_not_mem, htext.accepts⟩
      · exact ⟨hx, hloose.accepts⟩

/-- **Which texts are treated as the grammar says**: all but the loose ones. -/
theorem pton_accepts_iff (e : Endian) (hs : '\x00' ∉ s) :
    ((∃ o, win32InetPton e .AF_INET (terminated s) = some o ∧
      (o.isSome = true ↔ IsDottedQuad s)) ↔ ¬ IsLooseQuad s) ∧
    ((∃ o, win32InetPton e .AF_INET6 (terminated s) = some o ∧
      (o.isSome = true ↔ IsIpv6Text s)) ↔ ¬ IsLooseText s) :=
  ⟨inetPtonV4_accepts_iff hs, inetPtonV6_accepts_iff hs⟩

theorem pton_accepts_iff_loopback :
    ((∃ o, win32InetPton .little .AF_INET (terminated "127.0.0.1".toList) = some o ∧
      (o.isSome = true ↔ IsDottedQuad "127.0.0.1".toList)) ↔ ¬ IsLooseQuad "127.0.0.1".toList) ∧
    ((∃ o, win32InetPton .little .AF_INET6 (terminated "127.0.0.1".toList) = some o ∧
      (o.isSome = true ↔ IsIpv6Text "127.0.0.1".toList)) ↔ ¬ IsLooseText "127.0.0.1".toList) :=
  pton_accepts_iff .little (by decide)

theorem isNumber_singleton {c : Char} (hc : isDigit 10 c = true) : IsNumber [c] := by
  refine ⟨List.cons_ne_nil _ _, List.forall_mem_singleton.2 hc, ?_⟩
  have hlt := digitsValue_lt (List.forall_mem_singleton.2 hc)
  rw [List.length_singleton] at hlt
  omega

/-- A period behind the last number is not noticed. -/
theorem not_accepts_iff_isDottedQuad : ¬ ∃ o,
    win32InetPton .little .AF_INET (terminated "1.2.3.4.".toList) = some o ∧
      (o.isSome = true ↔ IsDottedQuad "1.2.3.4.".toList) := by
  rw [inetPtonV4_accepts_iff (by decide), not_not]
  refine ⟨[['1'], ['2'], ['3'], ['4']], rfl, ?_, .inl (by decide)⟩
  simp only [List.forall_mem_cons]
  refine ⟨isNumber_singleton ?_, isNumber_singleton ?_, isNumber_singleton ?_,
    isNumber_singleton ?_, by simp⟩ <;> decide

end Win32

end TQLib
