import TQLib.Win32.DottedQuad
import TQLib.Win32.Groups

/-!
# What `inet_pton_v6` accepts

A text is taken for one with a period if it starts with `::` and has one, and for a text of groups
otherwise. Words have no periods and dotted quads do, so what is accepted is a text of groups, or
one that goes on behind `::` with a quad, with `ffff` and a colon in front of it or without.

## Main results

* `inetPtonV6Dotted_terminated` — the first case
* `inetPtonV6_terminated` — when a text is accepted; it is never read behind its end
-/

namespace TQLib

namespace Win32

variable {e : Endian} {s t f u : List Char}

/-! ## Addresses with a period -/

/-- `ffff` as it is read: four characters that are a group of that value, and then anything that
does not go on with it, up to a colon. -/
def IsMappedPrefix (f junk : List Char) : Prop :=
  IsWord f 0xFFFF ∧ f.length = 4 ∧ ':' ∉ junk ∧ ∀ c ∈ junk.head?, isDigit 16 c = false

/-- What may come behind `::` in an address with a period. -/
def IsTail (t : List Char) : Prop :=
  (':' ∉ t ∧ (dotted 4 t).isSome = true) ∨ ∃ f junk u, t = f ++ junk ++ ':' :: u ∧
    IsMappedPrefix f junk ∧ (dotted 4 u).isSome = true

/-- An address of zeros with `ffff` in front of the last four bytes. -/
def mappedStart : In6Addr :=
  let addr : In6Addr := fun _ => 0
  (addr.put 10 fun _ : Fin 1 => 0xFF).put 11 fun _ : Fin 1 => 0xFF

theorem inetPtonV6Tail_terminated (hu : '\x00' ∉ u) (addr : In6Addr) :
    ∃ o, inetPtonV6Tail addr (terminated u) = some o ∧
      (o.isSome = true ↔ (dotted 4 u).isSome = true) := by
  rw [inetPtonV6Tail, inetPtonV4_terminated hu]
  refine ⟨_, rfl, ?_⟩
  simp

theorem strchr_terminated_none {c : Char} (ht : '\x00' ∉ t) (hc : c ∉ t) :
    strchr (terminated t) c = some none := by
  rw [strchr, cString_terminated ht, Option.map_some, if_neg hc]

/-- `strchr` finds the first. -/
theorem strchr_terminated_append {c : Char} (ht : '\x00' ∉ t ++ c :: u) (hc : c ∉ t) :
    strchr (terminated (t ++ c :: u)) c = some (some (terminated (c :: u))) := by
  have hmem : c ∈ t ++ c :: u := by simp
  have hdrop : (terminated (t ++ c :: u)).dropWhile (· != c) = terminated (c :: u) := by
    rw [terminated, List.append_assoc, List.dropWhile_append_of_pos]
    · simp [terminated]
    · intro d hd
      simp only [bne_iff_ne, ne_eq]
      rintro rfl
      exact hc hd
  rw [strchr, cString_terminated ht, Option.map_some, if_pos hmem, hdrop]

theorem IsMappedPrefix.colon_not_mem {junk : List Char} (h : IsMappedPrefix f junk) :
    ':' ∉ f ++ junk := fun hmem => by
  rcases List.mem_append.1 hmem with hf | hjunk
  · exact h.1.colon_not_mem hf
  · exact h.2.2.1 hjunk

/-- What `sscanf` reads in front of the colon, if it is what is looked for. -/
theorem exists_mappedPrefix_of_scan {m : List Char} {i : Item} {r : List Char} (hi : i.Wf 16)
    (hdigits : i.digits ≠ []) (hr : m ++ ':' :: u = i.text ++ r)
    (hhead : ∀ c ∈ r.head?, isDigit 16 c = false) (hm : ':' ∉ m)
    (hvalue : BitVec.ofInt 16 (i.value 16) = 0xFFFF) (hlen : i.text.length = 4) :
    ∃ f junk, m = f ++ junk ∧ IsMappedPrefix f junk := by
  have hfield : i.field.length ≤ 4 := by
    rw [Item.text, List.length_append] at hlen
    omega
  have hword : IsWord i.text 0xFFFF := ⟨i, hi, hdigits, hfield, rfl, hvalue.symm⟩
  obtain ⟨junk, hjunk, hrest⟩ : ∃ junk, m = i.text ++ junk ∧ r = junk ++ ':' :: u := by
    rcases List.append_eq_append_iff.1 hr with ⟨b, htext, hb⟩ | ⟨junk, hjunk, hrest⟩
    · cases b with
      | nil => exact ⟨[], by simpa using htext.symm, by simpa using hb.symm⟩
      | cons c b =>
        obtain ⟨rfl, -⟩ := List.cons.inj hb
        exact absurd (by simp [htext]) hword.colon_not_mem
    · exact ⟨junk, hjunk, hrest⟩
  refine ⟨i.text, junk, hjunk, hword, hlen, fun h => hm (by simp [hjunk, h]), ?_⟩
  intro c hc
  apply hhead
  rw [hrest, List.head?_append, hc]
  rfl

/-- And what is looked for is read. -/
theorem IsMappedPrefix.scanItem {junk : List Char} (h : IsMappedPrefix f junk) :
    ∃ i : Item, i.digits ≠ [] ∧ BitVec.ofInt 16 (i.value 16) = 0xFFFF ∧ i.text.length = 4 ∧
      TQLib.scanItem 16 (f ++ junk ++ ':' :: u).length (f ++ junk ++ ':' :: u) = i := by
  obtain ⟨⟨i, hi, hdigits, -, rfl, hvalue⟩, hlen, -, hhead⟩ := h
  have hzero : i.digits ≠ ['0'] := fun h => by
    rw [Item.value, h] at hvalue
    split_ifs at hvalue <;> revert hvalue <;> decide
  refine ⟨i, hdigits, hvalue.symm, hlen, ?_⟩
  rw [List.append_assoc]
  refine scanItem_text (by decide) hi hdigits ?_ ?_
  · simp [Item.text]
    omega
  · intro c hc
    refine ⟨?_, fun h => absurd h hzero⟩
    cases junk with
    | nil =>
      obtain rfl : ':' = c := by simpa using hc
      decide
    | cons d junk => exact hhead c hc

/-- What `sscanf` reads in front of the colon. -/
theorem sscanfHex_none_iff {m : List Char} (hnul : '\x00' ∉ m ++ ':' :: u) (hm : ':' ∉ m) :
    ∃ o, sscanfHex none (terminated (m ++ ':' :: u)) = some o ∧
      (o = some (0xFFFF, 4) ↔ ∃ f junk, m = f ++ junk ∧ IsMappedPrefix f junk) := by
  rw [sscanfHex, cString_terminated hnul]
  refine ⟨_, rfl, ?_⟩
  simp only [Option.getD_none]
  constructor
  · intro h
    obtain ⟨r, hr, hhead⟩ := exists_scanItem_append 16 (m ++ ':' :: u)
    have hwf := wf_scanItem 16 (m ++ ':' :: u).length (m ++ ':' :: u)
    generalize scanItem 16 (m ++ ':' :: u).length (m ++ ':' :: u) = i at h hr hwf
    by_cases hdigits : i.digits = []
    · simp [hdigits] at h
    · rw [if_neg hdigits, Option.some.injEq, Prod.mk.injEq] at h
      exact exists_mappedPrefix_of_scan hwf hdigits hr hhead hm h.1 h.2
  · rintro ⟨f, junk, rfl, hstart⟩
    obtain ⟨i, hdigits, hvalue, hlen, hscan⟩ := hstart.scanItem (u := u)
    rw [hscan, if_neg hdigits, hlen, hvalue]

/-- The colon in front of the tail is the first. -/
theorem isTail_append_iff {m : List Char} (hm : ':' ∉ m) : IsTail (m ++ ':' :: u) ↔
    (∃ f junk, m = f ++ junk ∧ IsMappedPrefix f junk) ∧ (dotted 4 u).isSome = true := by
  constructor
  · rintro (⟨hno, -⟩ | ⟨f, junk, u', heq, hstart, hu'⟩)
    · exact absurd (by simp) hno
    · obtain ⟨rfl, rfl⟩ := append_cons_inj hm hstart.colon_not_mem heq
      exact ⟨⟨f, junk, rfl, hstart⟩, hu'⟩
  · rintro ⟨⟨f, junk, rfl, hstart⟩, hu'⟩
    exact .inr ⟨f, junk, u, rfl, hstart, hu'⟩

theorem isTail_iff_of_colon_not_mem (ht : ':' ∉ t) :
    IsTail t ↔ (dotted 4 t).isSome = true := by
  constructor
  · rintro (⟨-, h⟩ | ⟨f, junk, u, rfl, -⟩)
    · exact h
    · simp at ht
  · exact fun h => .inl ⟨ht, h⟩

/-- **Addresses with a period.** -/
theorem inetPtonV6Dotted_terminated (ht : '\x00' ∉ t) :
    ∃ o, inetPtonV6Dotted (terminated t) = some o ∧ (o.isSome = true ↔ IsTail t) := by
  by_cases hcolon : ':' ∈ t
  · obtain ⟨m, u, rfl, hm⟩ := List.eq_append_cons_of_mem hcolon
    have hu : '\x00' ∉ u := fun h => ht (by simp [h])
    obtain ⟨o, ho, hiff⟩ := sscanfHex_none_iff ht hm
    rw [isTail_append_iff hm, ← hiff]
    cases o with
    | none =>
      refine ⟨none, ?_, by simp⟩
      rw [inetPtonV6Dotted, strchr_terminated_append ht hm, ho]
      rfl
    | some p =>
      obtain ⟨short, bytesread⟩ := p
      have hdotted : inetPtonV6Dotted (terminated (m ++ ':' :: u)) =
          if short ≠ 0xFFFF ∨ bytesread ≠ 4 then some none
          else inetPtonV6Tail mappedStart (terminated u) := by
        rw [inetPtonV6Dotted, strchr_terminated_append ht hm, ho]
        rfl
      obtain ⟨o, ho, htail⟩ := inetPtonV6Tail_terminated hu mappedStart
      rw [hdotted, Option.some.injEq, Prod.mk.injEq]
      by_cases hgood : short = 0xFFFF ∧ bytesread = 4
      · refine ⟨o, ?_, ?_⟩
        · rw [if_neg (by tauto), ho]
        · rw [htail, and_iff_right hgood]
      · refine ⟨none, ?_, ?_⟩
        · rw [if_pos (by tauto)]
        · rw [Option.isSome_none]
          tauto
  · obtain ⟨o, ho, hiff⟩ := inetPtonV6Tail_terminated ht fun _ => 0
    rw [isTail_iff_of_colon_not_mem hcolon, ← hiff]
    refine ⟨o, ?_, Iff.rfl⟩
    rw [inetPtonV6Dotted, strchr_terminated_none ht hcolon]
    exact ho

/-! ## All addresses -/

theorem startsWithRun_run (ht : '\x00' ∉ t) (hne : t ≠ []) :
    startsWithRun (terminated (':' :: ':' :: t)) = some true := by
  obtain ⟨c, t, rfl⟩ := List.exists_cons_of_ne_nil hne
  have hc : c ≠ '\x00' := fun h => ht (by simp [h])
  simp [startsWithRun, terminated, hc]

theorem startsWithRun_of_not (hs : ¬ ∃ t, t ≠ [] ∧ s = ':' :: ':' :: t) :
    startsWithRun (terminated s) = some false := by
  match s with
  | [] => simp [startsWithRun, terminated]
  | [c] => by_cases hc : c = ':' <;> simp [startsWithRun, terminated, hc]
  | [c, d] =>
    by_cases hc : c = ':' <;> by_cases hd : d = ':' <;> simp [startsWithRun, terminated, hc, hd]
  | c :: d :: x :: t =>
    have hrun : ¬ (c = ':' ∧ d = ':') := by
      rintro ⟨rfl, rfl⟩
      exact hs ⟨x :: t, List.cons_ne_nil _ _, rfl⟩
    by_cases hc : c = ':'
    · simp_all [startsWithRun, terminated]
    · simp [startsWithRun, terminated, hc]

theorem AreWords.period_not_mem {ws : List (List Char)} (hws : AreWords ws) : '.' ∉ colons ws := by
  intro h
  rcases mem_intercalate h with hsep | ⟨w, hw, hmem⟩
  · revert hsep
    decide
  · obtain ⟨v, hword⟩ := hws w hw
    exact hword.period_not_mem hmem

theorem Reads.period_not_mem {cursor : ℕ} {seen : Bool} (h : Reads cursor seen s) : '.' ∉ s := by
  rcases h with ⟨ws, hws, -, hs⟩ | ⟨-, gs, hs, hgs, hhs, -, -, hs'⟩
  · have := hws.period_not_mem
    rcases hs with rfl | ⟨-, rfl⟩ <;> simpa
  · have hgs := hgs.period_not_mem
    have hhs := hhs.period_not_mem
    rcases hs' with rfl | ⟨-, rfl⟩ <;> simp [hgs, hhs]

theorem period_mem_of_dotted (h : (dotted 4 u).isSome = true) : '.' ∈ u := by
  obtain ⟨vs, hvs⟩ := Option.isSome_iff_exists.1 h
  obtain ⟨ns, hlen, -, -, hs⟩ := dotted_eq_some_iff.1 hvs
  obtain ⟨d, ns, rfl⟩ := List.exists_cons_of_length_eq_add_one hlen
  have hne : ns ≠ [] := List.ne_nil_of_length_eq_add_one (n := 2) (by simpa using hlen)
  rw [periods_cons d hne] at hs
  rcases hs with rfl | rfl <;> simp

theorem IsTail.period_mem (h : IsTail t) : '.' ∈ t := by
  rcases h with ⟨-, h⟩ | ⟨f, junk, u, rfl, -, h⟩
  · exact period_mem_of_dotted h
  · simp [period_mem_of_dotted h]

theorem AreWords.exists_forall₂ {ws : List (List Char)} (hws : AreWords ws) :
    ∃ vs, List.Forall₂ IsWord ws vs := by
  induction ws with
  | nil => exact ⟨[], .nil⟩
  | cons w ws ih =>
    obtain ⟨⟨v, hw⟩, hws⟩ := List.forall_mem_cons.1 hws
    obtain ⟨vs, hvs⟩ := ih hws
    exact ⟨v :: vs, .cons hw hvs⟩

theorem AreWords.colons_head {ws : List (List Char)} (hws : AreWords ws) (hne : ws ≠ [])
    (t : List Char) : (colons ws ++ t).head? ≠ some ':' := fun h =>
  hne (hws.head_ne_colon t ':' h rfl)

/-- A colon in front is skipped. -/
theorem loop_skip {addr : In6Addr} (hhead : t.head? ≠ some ':')
    (ht : ∀ turns, t.length < turns →
      ∃ a, inetPtonV6Loop e turns (terminated t) 0 false addr = some (some a)) {turns : ℕ}
    (hturns : (':' :: t).length < turns) :
    ∃ a, inetPtonV6Loop e turns (terminated (':' :: t)) 0 false addr = some (some a) := by
  obtain ⟨turns, rfl⟩ := Nat.exists_eq_add_one_of_ne_zero (by omega : turns ≠ 0)
  rw [List.length_cons] at hturns
  rw [loop_colon (by decide) hhead]
  exact ht turns (by omega)

/-- Every text of groups is accepted. -/
theorem loop_complete {turns : ℕ} (hs : '\x00' ∉ s) (hturns : s.length < turns)
    (h : Reads 0 false s) (addr : In6Addr) :
    ∃ a, inetPtonV6Loop e turns (terminated s) 0 false addr = some (some a) := by
  rcases h with ⟨ws, hws, hlen, heq⟩ | ⟨-, gs, hs', hgs, hhs, hlt, hle, heq⟩
  · obtain ⟨vs, hvs⟩ := hws.exists_forall₂
    rw [Nat.zero_add] at hlen
    have hplain : '\x00' ∉ colons ws → ∀ turns, (colons ws).length < turns →
        ∃ a, inetPtonV6Loop e turns (terminated (colons ws)) 0 false addr = some (some a) :=
      fun hnul turns hturns => ⟨_, loop_plain hvs hlen hnul hturns⟩
    rcases heq with rfl | ⟨hne, rfl⟩
    · exact hplain hs turns hturns
    · have hhead := hws.colons_head hne []
      rw [List.append_nil] at hhead
      exact loop_skip hhead (hplain fun h => hs (List.mem_cons_of_mem _ h)) hturns
  · obtain ⟨vs, hvs⟩ := hgs.exists_forall₂
    obtain ⟨us, hus⟩ := hhs.exists_forall₂
    rw [Nat.zero_add] at hlt hle
    have hrun : '\x00' ∉ colons gs ++ ':' :: ':' :: colons hs' →
        ∀ turns, (colons gs ++ ':' :: ':' :: colons hs').length < turns →
          ∃ a, inetPtonV6Loop e turns (terminated (colons gs ++ ':' :: ':' :: colons hs')) 0 false
            addr = some (some a) :=
      fun hnul turns hturns => ⟨_, loop_between hvs hus hlt hle hnul hturns⟩
    rcases heq with rfl | ⟨hne, rfl⟩
    · exact hrun hs turns hturns
    · exact loop_skip (hgs.colons_head hne _) (hrun fun h => hs (List.mem_cons_of_mem _ h)) hturns

/-- An address with a period. -/
theorem inetPtonV6_eq_dotted (ht : '\x00' ∉ t) (hx : 'x' ∉ t) (hperiod : '.' ∈ t) :
    inetPtonV6 e (terminated (':' :: ':' :: t)) = inetPtonV6Dotted (terminated t) := by
  have hs : '\x00' ∉ ':' :: ':' :: t := by simp [ht]
  have hdrop : (terminated (':' :: ':' :: t)).drop 2 = terminated t := rfl
  rw [inetPtonV6, cString_terminated hs, startsWithRun_run ht (List.ne_nil_of_mem hperiod), hdrop,
    strchr, cString_terminated ht]
  simp [hx, hperiod]

/-- All others. -/
theorem inetPtonV6_eq_loop (hs : '\x00' ∉ s) (hx : 'x' ∉ s)
    (hdotted : ¬ ∃ t, s = ':' :: ':' :: t ∧ '.' ∈ t) : inetPtonV6 e (terminated s) =
      inetPtonV6Loop e (terminated s).length (terminated s) 0 false fun _ => 0 := by
  rw [inetPtonV6, cString_terminated hs]
  by_cases hrun : ∃ t, t ≠ [] ∧ s = ':' :: ':' :: t
  · obtain ⟨t, hne, rfl⟩ := hrun
    have ht : '\x00' ∉ t := fun h => hs (by simp [h])
    have hperiod : '.' ∉ t := fun h => hdotted ⟨t, rfl, h⟩
    have hdrop : (terminated (':' :: ':' :: t)).drop 2 = terminated t := rfl
    rw [startsWithRun_run ht hne, hdrop, strchr_terminated_none ht hperiod]
    simp [hx]
  · rw [startsWithRun_of_not hrun]
    simp [hx]

/-- **When a text is accepted**; it is never read behind its end. -/
theorem inetPtonV6_terminated (hs : '\x00' ∉ s) : ∃ o, inetPtonV6 e (terminated s) = some o ∧
    (o.isSome = true ↔
      'x' ∉ s ∧ (Reads 0 false s ∨ ∃ t, s = ':' :: ':' :: t ∧ IsTail t)) := by
  by_cases hx : 'x' ∈ s
  · refine ⟨none, ?_, by simp [hx]⟩
    rw [inetPtonV6, cString_terminated hs]
    simp [hx]
  · by_cases hdotted : ∃ t, s = ':' :: ':' :: t ∧ '.' ∈ t
    · obtain ⟨t, rfl, hperiod⟩ := hdotted
      have ht : '\x00' ∉ t := fun h => hs (by simp [h])
      obtain ⟨o, ho, hiff⟩ := inetPtonV6Dotted_terminated ht
      rw [inetPtonV6_eq_dotted ht (fun h => hx (by simp [h])) hperiod]
      refine ⟨o, ho, ?_⟩
      rw [hiff]
      constructor
      · exact fun h => ⟨hx, .inr ⟨t, rfl, h⟩⟩
      · rintro ⟨-, h | ⟨t', heq, h⟩⟩
        · exact absurd (by simp [hperiod]) h.period_not_mem
        · obtain rfl : t = t' := by simpa using heq
          exact h
    · have hturns : s.length < (terminated s).length := by simp [terminated]
      obtain ⟨o, ho, hreads⟩ := loop_sound (e := e) hs hturns 0 (by decide) false fun _ => 0
      rw [inetPtonV6_eq_loop hs hx hdotted]
      refine ⟨o, ho, fun h => ⟨hx, .inl (hreads h)⟩, ?_⟩
      rintro ⟨-, h | ⟨t, rfl, h⟩⟩
      · obtain ⟨a, ha⟩ := loop_complete (e := e) hs hturns h fun _ => 0
        rw [ho, Option.some.injEq] at ha
        rw [ha, Option.isSome_some]
      · exact absurd ⟨t, rfl, h.period_mem⟩ hdotted

end Win32

end TQLib
