import TQLib.Win32.InetPton

/-!
# What the loop of `inet_pton_v6` accepts

Groups that are separated by colons, with a run of zeros somewhere. A group is whatever `sscanf`
reads as a hexadecimal number in a field of four, which may be blanks, a sign and a prefix besides
digits. A colon that comes by itself is skipped wherever it stands, but colons are counted behind
the run, and without one the cursor ends short; so only a colon in front of everything goes
unnoticed. A run may be there for no group at all if something comes behind it.

## Main results

* `loop_sound` — what is accepted is a text of groups, and no text is read behind its end
* `loop_plain`, `loop_between` — what a text of groups comes to
-/

namespace TQLib

namespace Win32

variable {e : Endian} {w t r : List Char} {v : BitVec 16} {n turns cursor : ℕ} {seen : Bool}
  {addr : In6Addr}

/-! ## Groups as they are read -/

/-- What `sscanf` reads with `"%4hx"`, and the number that it gives. -/
def IsWord (w : List Char) (v : BitVec 16) : Prop :=
  ∃ i : Item, i.Wf 16 ∧ i.digits ≠ [] ∧ i.field.length ≤ 4 ∧ i.text = w ∧
    v = BitVec.ofInt 16 (i.value 16)

/-- The characters of an item. -/
theorem Item.mem_text {i : Item} (hi : i.Wf 16) {c : Char} (hc : c ∈ i.text) :
    isSpace c = true ∨ c ∈ ['+', '-', 'x', 'X'] ∨ isDigit 16 c = true := by
  rw [Item.text, Item.field, List.mem_append, List.mem_append, List.mem_append] at hc
  rcases hc with hc | hc | hc | hc
  · exact .inl (hi.blanks c hc)
  · rcases hi.sign with h | h | h <;> rw [h] at hc <;> simp_all
  · rcases hi.pre with h | ⟨-, h | h⟩
    · simp [h] at hc
    · rw [h] at hc
      obtain rfl | rfl : c = '0' ∨ c = 'x' := by simpa using hc
      · exact .inr (.inr (by decide))
      · simp
    · rw [h] at hc
      obtain rfl | rfl : c = '0' ∨ c = 'X' := by simpa using hc
      · exact .inr (.inr (by decide))
      · simp
  · exact .inr (.inr (hi.digits c hc))

theorem IsWord.mem (hw : IsWord w v) {c : Char} (hc : c ∈ w) :
    isSpace c = true ∨ c ∈ ['+', '-', 'x', 'X'] ∨ isDigit 16 c = true := by
  obtain ⟨i, hi, -, -, rfl, -⟩ := hw
  exact Item.mem_text hi hc

theorem IsWord.ne_nil (hw : IsWord w v) : w ≠ [] := by
  obtain ⟨i, -, hdigits, -, rfl, -⟩ := hw
  simp [Item.text, Item.field, hdigits]

theorem IsWord.colon_not_mem (hw : IsWord w v) : ':' ∉ w := fun h => by
  rcases hw.mem h with h | h | h <;> revert h <;> decide

theorem IsWord.period_not_mem (hw : IsWord w v) : '.' ∉ w := fun h => by
  rcases hw.mem h with h | h | h <;> revert h <;> decide

/-- What `sscanf` reads is a group, and what is left comes behind it. -/
theorem sscanfHex_sound (ht : '\x00' ∉ t) : ∃ o, sscanfHex (some 4) (terminated t) = some o ∧
    ∀ v n, o = some (v, n) → ∃ w r, t = w ++ r ∧ IsWord w v ∧ n = w.length := by
  rw [sscanfHex, cString_terminated ht]
  refine ⟨_, rfl, ?_⟩
  intro v n h
  simp only [Option.getD_some] at h
  by_cases hdigits : (scanItem 16 4 t).digits = []
  · simp [hdigits] at h
  · rw [if_neg hdigits] at h
    obtain ⟨rfl, rfl⟩ := Prod.mk.inj (Option.some.inj h)
    obtain ⟨r, hr⟩ := text_scanItem_prefix 16 4 t
    exact ⟨_, r, hr.symm,
      ⟨_, wf_scanItem 16 4 t, hdigits, length_field_scanItem_le 16 4 t, rfl, rfl⟩, rfl⟩

/-- A group is read if a colon comes behind it, or nothing. -/
theorem sscanfHex_word (hw : IsWord w v) (hr : ∀ c ∈ r.head?, c = ':') (hnul : '\x00' ∉ w ++ r) :
    sscanfHex (some 4) (terminated (w ++ r)) = some (some (v, w.length)) := by
  obtain ⟨i, hi, hdigits, hwidth, rfl, rfl⟩ := hw
  have hscan : scanItem 16 4 (i.text ++ r) = i := by
    refine scanItem_text (by decide) hi hdigits hwidth ?_
    intro c hc
    obtain rfl := hr c hc
    exact ⟨by decide, fun _ => by decide⟩
  rw [sscanfHex, cString_terminated hnul]
  simp only [Option.map_some, Option.getD_some, hscan, hdigits, if_false]

/-! ## Turns of the loop -/

/-- Write a group. -/
def putWord (e : Endian) (addr : In6Addr) (cursor : ℕ) (v : BitVec 16) : In6Addr :=
  addr.put (2 * cursor) (e.store (n := 2) (e.hostToNetwork (n := 2) v))

theorem loop_nil : inetPtonV6Loop e (turns + 1) (terminated []) cursor seen addr =
    some (if cursor < 8 then none else some addr) := by
  by_cases hlt : cursor < 8 <;> simp [inetPtonV6Loop, terminated, hlt]

/-- Nothing may come behind the last group. -/
theorem loop_full {c : Char} (hc : c ≠ '\x00') (hcursor : ¬ cursor < 8) :
    inetPtonV6Loop e (turns + 1) (terminated (c :: t)) cursor seen addr = some none := by
  simp [inetPtonV6Loop, head?_terminated, hc, hcursor]

theorem getElem?_terminated_one (c : Char) (t : List Char) :
    (terminated (c :: t))[1]? = some (t.head?.getD '\x00') := by
  rw [← head?_terminated, List.head?_eq_getElem?]
  rfl

/-- A colon by itself is skipped. -/
theorem loop_colon (hcursor : cursor < 8) (ht : t.head? ≠ some ':') :
    inetPtonV6Loop e (turns + 1) (terminated (':' :: t)) cursor seen addr =
      inetPtonV6Loop e turns (terminated t) cursor seen addr := by
  have hnext : t.head?.getD '\x00' ≠ ':' := by
    cases t with
    | nil => decide
    | cons c t => simpa using ht
  rw [inetPtonV6Loop, head?_terminated, getElem?_terminated_one]
  simp [hcursor, hnext]
  rfl

/-- Two are a run. -/
theorem loop_run (hcursor : cursor < 8) (ht : '\x00' ∉ t) :
    inetPtonV6Loop e (turns + 1) (terminated (':' :: ':' :: t)) cursor seen addr =
      if seen then some none
      else if t = [] then inetPtonV6Loop e turns (terminated []) 8 seen addr
      else if 8 - cursor < t.count ':' + 1 then some none
      else inetPtonV6Loop e turns (terminated t) (8 - (t.count ':' + 1)) true addr := by
  have hdrop : (terminated (':' :: ':' :: t)).drop 2 = terminated t := rfl
  have hcount : countColons (terminated t) = some (t.count ':') := by
    rw [countColons, cString_terminated ht, Option.map_some]
  rw [inetPtonV6Loop, head?_terminated, getElem?_terminated_one]
  cases t with
  | nil => simp [hcursor, hdrop, head?_terminated]
  | cons c t =>
    have hc : c ≠ '\x00' := fun h => ht (by simp [h])
    simp [hcursor, hdrop, head?_terminated, hc, hcount]

/-- Anything else is left to `sscanf`, which may fail. -/
theorem loop_group_fail {c : Char} (hcursor : cursor < 8) (hc : c ≠ '\x00') (hcolon : c ≠ ':')
    (ho : sscanfHex (some 4) (terminated (c :: t)) = some none) :
    inetPtonV6Loop e (turns + 1) (terminated (c :: t)) cursor seen addr = some none := by
  rw [inetPtonV6Loop, head?_terminated]
  simp [hcursor, hc, hcolon, ho]

/-- Behind what it reads there must be a colon, or nothing. -/
theorem loop_group (hcursor : cursor < 8) (hhead : ∀ c ∈ w.head?, c ≠ '\x00' ∧ c ≠ ':')
    (hne : w ≠ []) (hr : '\x00' ∉ r)
    (ho : sscanfHex (some 4) (terminated (w ++ r)) = some (some (v, w.length))) :
    inetPtonV6Loop e (turns + 1) (terminated (w ++ r)) cursor seen addr =
      if r.head?.getD ':' = ':' then
        inetPtonV6Loop e turns (terminated r) (cursor + 1) seen (putWord e addr cursor v)
      else some none := by
  obtain ⟨c, cs, rfl⟩ := List.exists_cons_of_ne_nil hne
  obtain ⟨hc, hcolon⟩ := hhead c rfl
  have hdrop := drop_terminated (c :: cs) r
  rw [inetPtonV6Loop, ho]
  simp only [head?_terminated, List.cons_append, List.head?_cons, Option.getD_some,
    Option.bind_eq_bind, Option.bind_some, hc, hcursor, hcolon, not_true_eq_false, or_self,
    if_false]
  rw [List.cons_append] at hdrop
  rw [hdrop, head?_terminated, Option.bind_some]
  cases r with
  | nil => simp [putWord]
  | cons d r =>
    have hd : d ≠ '\x00' := fun h => hr (by simp [h])
    by_cases hnext : d = ':' <;> simp [hd, hnext, putWord]

/-! ## Texts of groups -/

/-- Texts with colons between them. -/
def colons (ws : List (List Char)) : List Char := [':'].intercalate ws

@[simp] theorem colons_nil : colons [] = [] := rfl

@[simp] theorem colons_singleton (w : List Char) : colons [w] = w := by simp [colons]

theorem colons_cons {ws : List (List Char)} (w : List Char) (hws : ws ≠ []) :
    colons (w :: ws) = w ++ ':' :: colons ws := by
  rw [colons, List.intercalate_cons_of_ne_nil hws, colons]
  simp

/-- Every text is a group. -/
def AreWords (ws : List (List Char)) : Prop := ∀ w ∈ ws, ∃ v, IsWord w v

theorem AreWords.head_ne_colon {ws : List (List Char)} (hws : AreWords ws) (t : List Char) :
    ∀ c ∈ (colons ws ++ t).head?, c = ':' → ws = [] := by
  rintro c hc rfl
  cases ws with
  | nil => rfl
  | cons w ws =>
    obtain ⟨v, hw⟩ := hws w (by simp)
    obtain ⟨c, cs, rfl⟩ := List.exists_cons_of_ne_nil hw.ne_nil
    have hcolon : c = ':' := by
      cases ws with
      | nil => simpa using hc
      | cons w' ws => simpa [colons_cons] using hc
    exact absurd (by simp [hcolon]) hw.colon_not_mem

theorem AreWords.count_colons {ws : List (List Char)} (hws : AreWords ws) :
    (colons ws).count ':' = ws.length - 1 := by
  induction ws with
  | nil => rfl
  | cons w ws ih =>
    obtain ⟨v, hw⟩ := hws w (by simp)
    have hcount : w.count ':' = 0 := List.count_eq_zero.2 hw.colon_not_mem
    cases ws with
    | nil => simpa using hcount
    | cons w' ws =>
      rw [colons_cons w (by simp), List.count_append, List.count_cons_self, hcount,
        ih fun x hx => hws x (List.mem_cons_of_mem _ hx)]
      simp

/-- The groups behind the run, or all if there is none. A colon may come in front. -/
def Plain (cursor : ℕ) (t : List Char) : Prop :=
  ∃ ws, AreWords ws ∧ cursor + ws.length = 8 ∧ (t = colons ws ∨ ws ≠ [] ∧ t = ':' :: colons ws)

/-- Groups with a run between them. -/
def Run (cursor : ℕ) (t : List Char) : Prop :=
  ∃ gs hs, AreWords gs ∧ AreWords hs ∧ cursor + gs.length < 8 ∧
    cursor + gs.length + hs.length ≤ 8 ∧
    (t = colons gs ++ ':' :: ':' :: colons hs ∨
      gs ≠ [] ∧ t = ':' :: (colons gs ++ ':' :: ':' :: colons hs))

/-- What may come at the cursor. -/
def Reads (cursor : ℕ) (seen : Bool) (t : List Char) : Prop :=
  Plain cursor t ∨ seen = false ∧ Run cursor t

theorem AreWords.cons {ws : List (List Char)} (hw : IsWord w v) (hws : AreWords ws) :
    AreWords (w :: ws) :=
  List.forall_mem_cons.2 ⟨⟨v, hw⟩, hws⟩

theorem areWords_nil : AreWords [] := by simp [AreWords]

/-- A group, and what may come behind it. -/
theorem Reads.word (hw : IsWord w v) (hr : ∀ c ∈ r.head?, c = ':')
    (h : Reads (cursor + 1) seen r) : Reads cursor seen (w ++ r) := by
  rcases h with ⟨ws, hws, hlen, hr' | ⟨hne, hr'⟩⟩ |
    ⟨hseen, gs, hs, hgs, hhs, hlt, hle, hr' | ⟨hne, hr'⟩⟩
  · obtain rfl : ws = [] := by
      cases hhead : r.head? with
      | none =>
        rw [List.head?_eq_none_iff] at hhead
        rw [hhead] at hr'
        by_contra hne
        obtain ⟨w', ws, rfl⟩ := List.exists_cons_of_ne_nil hne
        obtain ⟨v', hw'⟩ := hws w' (by simp)
        cases ws with
        | nil => exact hw'.ne_nil (by simpa using hr'.symm)
        | cons w'' ws => simp [colons_cons] at hr'
      | some c =>
        refine hws.head_ne_colon [] c ?_ (hr c hhead)
        rw [List.append_nil, ← hr', hhead]
        rfl
    refine .inl ⟨[w], areWords_nil.cons hw, by simpa using hlen, .inl ?_⟩
    simp [hr']
  · refine .inl ⟨w :: ws, hws.cons hw, by simp; omega, .inl ?_⟩
    rw [colons_cons w hne, hr']
  · obtain rfl : gs = [] := by
      cases hhead : r.head? with
      | none =>
        rw [List.head?_eq_none_iff] at hhead
        simp [hhead] at hr'
      | some c =>
        refine hgs.head_ne_colon (':' :: ':' :: colons hs) c ?_ (hr c hhead)
        rw [← hr', hhead]
        rfl
    refine .inr ⟨hseen, [w], hs, areWords_nil.cons hw, hhs, by simpa using hlt, by simpa using hle,
      .inl ?_⟩
    simp [hr']
  · refine .inr ⟨hseen, w :: gs, hs, hgs.cons hw, hhs, by simp; omega, by simp; omega, .inl ?_⟩
    rw [colons_cons w hne, hr']
    simp

/-- A colon by itself, and what may come behind it. -/
theorem Reads.colon (hcursor : cursor < 8) (ht : ∀ c ∈ t.head?, c ≠ ':')
    (h : Reads cursor seen t) : Reads cursor seen (':' :: t) := by
  rcases h with ⟨ws, hws, hlen, rfl | ⟨hne, rfl⟩⟩ |
    ⟨hseen, gs, hs, hgs, hhs, hlt, hle, rfl | ⟨hne, rfl⟩⟩
  · have hne : ws ≠ [] := by
      rintro rfl
      simp at hlen
      omega
    exact .inl ⟨ws, hws, hlen, .inr ⟨hne, rfl⟩⟩
  · exact absurd rfl (ht ':' rfl)
  · have hne : gs ≠ [] := by
      rintro rfl
      exact ht ':' rfl rfl
    exact .inr ⟨hseen, gs, hs, hgs, hhs, hlt, hle, .inr ⟨hne, rfl⟩⟩
  · exact absurd rfl (ht ':' rfl)

/-- A run, and the groups that are counted behind it. -/
theorem Run.of_plain (hcursor : cursor < 8) (hcount : t.count ':' + 1 ≤ 8 - cursor)
    (h : Plain (8 - (t.count ':' + 1)) t) : Run cursor (':' :: ':' :: t) := by
  obtain ⟨ws, hws, hlen, rfl | ⟨hne, rfl⟩⟩ := h
  · rw [hws.count_colons] at hcount hlen
    exact ⟨[], ws, areWords_nil, hws, by simpa using hcursor, by simp; omega, .inl rfl⟩
  · have hpos : 0 < ws.length := List.length_pos_iff.2 hne
    rw [List.count_cons_self, hws.count_colons] at hlen hcount
    omega

theorem Run.end (hcursor : cursor < 8) : Run cursor [':', ':'] :=
  ⟨[], [], areWords_nil, areWords_nil, by simpa using hcursor, by simp; omega, .inl rfl⟩

/-- A turn of the loop that reads no further than the text, and accepts no other than it should. -/
def Sound (e : Endian) (turns : ℕ) (t : List Char) (cursor : ℕ) (seen : Bool) (addr : In6Addr) :
    Prop :=
  ∃ o, inetPtonV6Loop e turns (terminated t) cursor seen addr = some o ∧
    (o.isSome = true → Reads cursor seen t)

theorem Sound.of_none (h : inetPtonV6Loop e turns (terminated t) cursor seen addr = some none) :
    Sound e turns t cursor seen addr :=
  ⟨none, h, by simp⟩

theorem sound_nil (hcursor : cursor ≤ 8) : Sound e (turns + 1) [] cursor seen addr := by
  refine ⟨_, loop_nil, ?_⟩
  intro hsome
  by_cases hlt : cursor < 8
  · simp [hlt] at hsome
  · exact .inl ⟨[], areWords_nil, by simp; omega, .inl rfl⟩

theorem Sound.colon (hlt : cursor < 8) (hnext : t.head? ≠ some ':')
    (h : Sound e turns t cursor seen addr) :
    Sound e (turns + 1) (':' :: t) cursor seen addr := by
  obtain ⟨o, ho, hreads⟩ := h
  refine ⟨o, ?_, fun hsome => (hreads hsome).colon hlt ?_⟩
  · rw [loop_colon hlt hnext, ho]
  · intro c hhead heq
    exact hnext (heq ▸ hhead)

/-- A run is only taken once, and the groups behind it are counted. -/
theorem Sound.run (hlt : cursor < 8) (ht : '\x00' ∉ t) (hturns : 0 < turns)
    (h : Sound e turns t (8 - (t.count ':' + 1)) true addr) :
    Sound e (turns + 1) (':' :: ':' :: t) cursor seen addr := by
  obtain ⟨turns, rfl⟩ := Nat.exists_eq_add_one_of_ne_zero hturns.ne'
  obtain ⟨o, ho, hreads⟩ := h
  cases seen with
  | true =>
    refine .of_none ?_
    rw [loop_run hlt ht, if_pos rfl]
  | false =>
    by_cases hend : t = []
    · subst hend
      refine ⟨some addr, ?_, fun _ => .inr ⟨rfl, .end hlt⟩⟩
      rw [loop_run hlt ht, if_neg (by decide), if_pos rfl, loop_nil, if_neg (by decide)]
    · by_cases hcount : 8 - cursor < t.count ':' + 1
      · refine .of_none ?_
        rw [loop_run hlt ht, if_neg (by decide), if_neg hend, if_pos hcount]
      · refine ⟨o, ?_, fun hsome => .inr ⟨rfl, ?_⟩⟩
        · rw [loop_run hlt ht, if_neg (by decide), if_neg hend, if_neg hcount, ho]
        · rcases hreads hsome with hplain | ⟨hseen, -⟩
          · exact .of_plain hlt (by omega) hplain
          · cases hseen

/-- Anything else is a group, or it is refused. -/
theorem sound_group {c : Char} (hlt : cursor < 8) (ht : '\x00' ∉ c :: t) (hcolon : c ≠ ':')
    (h : ∀ w r v, c :: t = w ++ r → IsWord w v →
      Sound e turns r (cursor + 1) seen (putWord e addr cursor v)) :
    Sound e (turns + 1) (c :: t) cursor seen addr := by
  have hc : c ≠ '\x00' := fun heq => ht (by simp [heq])
  obtain ⟨o, ho, hread⟩ := sscanfHex_sound ht
  cases o with
  | none => exact .of_none (loop_group_fail hlt hc hcolon ho)
  | some p =>
    obtain ⟨v, n⟩ := p
    obtain ⟨w, r, hwr, hw, rfl⟩ := hread v n rfl
    have hhead : ∀ d ∈ w.head?, d ≠ '\x00' ∧ d ≠ ':' := by
      intro d hd
      obtain ⟨d', w', rfl⟩ := List.exists_cons_of_ne_nil hw.ne_nil
      obtain ⟨rfl, -⟩ := List.cons.inj hwr
      obtain rfl : c = d := by simpa using hd
      exact ⟨hc, hcolon⟩
    obtain ⟨o', ho', hreads⟩ := h w r v hwr hw
    rw [hwr] at ht ho ⊢
    have hr : '\x00' ∉ r := fun h => ht (List.mem_append_right _ h)
    by_cases hnext : r.head?.getD ':' = ':'
    · refine ⟨o', ?_, fun hsome => (hreads hsome).word hw ?_⟩
      · rw [loop_group hlt hhead hw.ne_nil hr ho, if_pos hnext, ho']
      · intro d hd
        rw [hd] at hnext
        exact hnext
    · refine .of_none ?_
      rw [loop_group hlt hhead hw.ne_nil hr ho, if_neg hnext]

/-- **What is accepted is a text of groups**, and no text is read behind its end. -/
theorem loop_sound (ht : '\x00' ∉ t) (hturns : t.length < turns) (cursor : ℕ) (hcursor : cursor ≤ 8)
    (seen : Bool) (addr : In6Addr) : Sound e turns t cursor seen addr := by
  induction turns generalizing t cursor seen addr with
  | zero => cases hturns
  | succ turns ih =>
    cases t with
    | nil => exact sound_nil hcursor
    | cons c t =>
      have ht' : '\x00' ∉ t := fun h => ht (List.mem_cons_of_mem _ h)
      rw [List.length_cons] at hturns
      by_cases hlt : cursor < 8
      · by_cases hcolon : c = ':'
        · subst hcolon
          by_cases hnext : t.head? = some ':'
          · obtain ⟨t, rfl⟩ := List.head?_eq_some_iff.1 hnext
            have ht'' : '\x00' ∉ t := fun h => ht' (List.mem_cons_of_mem _ h)
            rw [List.length_cons] at hturns
            exact .run hlt ht'' (by omega) (ih ht'' (by omega) _ (by omega) true addr)
          · exact .colon hlt hnext (ih ht' (by omega) cursor hcursor seen addr)
        · refine sound_group hlt ht hcolon fun w r v hwr hw => ?_
          have hlen : 0 < w.length := List.length_pos_iff.2 hw.ne_nil
          have hlenr : t.length + 1 = w.length + r.length := by
            rw [← List.length_append, ← hwr, List.length_cons]
          have hr : '\x00' ∉ r := fun h => ht (by rw [hwr]; exact List.mem_append_right _ h)
          exact ih hr (by omega) (cursor + 1) (by omega) seen _
      · exact .of_none (loop_full (fun heq => ht (by simp [heq])) hlt)

/-! ## What a text of groups comes to -/

/-- Write groups one after another. -/
def putWords (e : Endian) (addr : In6Addr) (cursor : ℕ) : List (BitVec 16) → In6Addr
  | [] => addr
  | v :: vs => putWords e (putWord e addr cursor v) (cursor + 1) vs

theorem IsWord.head (hw : IsWord w v) (hnul : '\x00' ∉ w) :
    ∀ c ∈ w.head?, c ≠ '\x00' ∧ c ≠ ':' := by
  intro c hc
  have hmem := List.mem_of_mem_head? hc
  exact ⟨fun h => hnul (h ▸ hmem), fun h => hw.colon_not_mem (h ▸ hmem)⟩

theorem areWords_of_forall₂ {ws : List (List Char)} {vs : List (BitVec 16)}
    (hws : List.Forall₂ IsWord ws vs) : AreWords ws := by
  induction hws with
  | nil => exact areWords_nil
  | cons hw _ ih => exact ih.cons hw

/-- The loop goes through the groups up to a run, or to the end. -/
theorem loop_words {ws : List (List Char)} {vs : List (BitVec 16)}
    (hws : List.Forall₂ IsWord ws vs) (hr : ∀ c ∈ r.head?, c = ':') (hnul : '\x00' ∉ colons ws ++ r)
    (cursor turns : ℕ) (seen : Bool) (addr : In6Addr) (hcursor : cursor + ws.length ≤ 8)
    (hturns : (colons ws ++ r).length < turns) : ∃ turns', r.length < turns' ∧
      inetPtonV6Loop e turns (terminated (colons ws ++ r)) cursor seen addr =
        inetPtonV6Loop e turns' (terminated r) (cursor + ws.length) seen
          (putWords e addr cursor vs) := by
  induction hws generalizing cursor turns addr with
  | nil => exact ⟨turns, hturns, rfl⟩
  | @cons w v ws vs hw hws ih =>
    obtain ⟨turns, rfl⟩ := Nat.exists_eq_add_one_of_ne_zero (by omega : turns ≠ 0)
    rw [List.length_cons] at hcursor
    have hpos : 0 < w.length := List.length_pos_iff.2 hw.ne_nil
    by_cases hlast : ws = []
    · subst hlast
      cases hws
      rw [colons_singleton] at hnul hturns ⊢
      have hr' : '\x00' ∉ r := fun h => hnul (List.mem_append_right _ h)
      have hw' : '\x00' ∉ w := fun h => hnul (List.mem_append_left _ h)
      have hnext : r.head?.getD ':' = ':' := by
        cases hhead : r.head? with
        | none => rfl
        | some c => exact hr c hhead
      rw [List.length_append] at hturns
      rw [loop_group (by omega) (hw.head hw') hw.ne_nil hr' (sscanfHex_word hw hr hnul),
        if_pos hnext]
      exact ⟨turns, by omega, rfl⟩
    · rw [colons_cons w hlast, List.append_assoc, List.cons_append] at hnul hturns ⊢
      have hr' : '\x00' ∉ ':' :: (colons ws ++ r) := fun h => hnul (List.mem_append_right _ h)
      have hw' : '\x00' ∉ w := fun h => hnul (List.mem_append_left _ h)
      have hcolon : (colons ws ++ r).head? ≠ some ':' := fun h =>
        hlast ((areWords_of_forall₂ hws).head_ne_colon r ':' h rfl)
      have hlen : 0 < ws.length := List.length_pos_iff.2 hlast
      rw [List.length_append, List.length_cons] at hturns
      obtain ⟨turns, rfl⟩ := Nat.exists_eq_add_one_of_ne_zero (by omega : turns ≠ 0)
      obtain ⟨turns', hturns', hloop⟩ := ih (fun h => hr' (List.mem_cons_of_mem _ h)) (cursor + 1)
        turns (putWord e addr cursor v) (by omega) (by omega)
      refine ⟨turns', hturns', ?_⟩
      rw [loop_group (by omega) (hw.head hw') hw.ne_nil hr'
        (sscanfHex_word hw (by rintro c ⟨⟩; rfl) hnul), List.head?_cons, Option.getD_some,
        if_pos rfl, loop_colon (by omega) hcolon, hloop, putWords,
        List.length_cons, Nat.add_right_comm, Nat.add_assoc]

/-- Eight groups. -/
theorem loop_plain {ws : List (List Char)} {vs : List (BitVec 16)}
    (hws : List.Forall₂ IsWord ws vs) (hlen : ws.length = 8) (hnul : '\x00' ∉ colons ws)
    (hturns : (colons ws).length < turns) :
    inetPtonV6Loop e turns (terminated (colons ws)) 0 seen addr =
      some (some (putWords e addr 0 vs)) := by
  have hnul' : '\x00' ∉ colons ws ++ [] := by rwa [List.append_nil]
  obtain ⟨turns', hturns', hloop⟩ := loop_words (e := e) (r := []) hws (by simp) hnul' 0 turns
    seen addr (by omega) (by rwa [List.append_nil])
  obtain ⟨turns', rfl⟩ := Nat.exists_eq_add_one_of_ne_zero (by omega : turns' ≠ 0)
  rw [List.append_nil] at hloop
  rw [hloop, loop_nil, if_neg (by omega)]

/-- Groups with a run between them. -/
theorem loop_between {gs hs : List (List Char)} {vs us : List (BitVec 16)}
    (hgs : List.Forall₂ IsWord gs vs) (hhs : List.Forall₂ IsWord hs us) (hlt : gs.length < 8)
    (hle : gs.length + hs.length ≤ 8) (hnul : '\x00' ∉ colons gs ++ ':' :: ':' :: colons hs)
    (hturns : (colons gs ++ ':' :: ':' :: colons hs).length < turns) :
    inetPtonV6Loop e turns (terminated (colons gs ++ ':' :: ':' :: colons hs)) 0 false addr =
      some (some (putWords e (putWords e addr 0 vs) (8 - hs.length) us)) := by
  obtain ⟨turns', hturns', hloop⟩ := loop_words (e := e) hgs (by rintro c ⟨⟩; rfl) hnul 0 turns
    false addr (by omega) hturns
  have hnul' : '\x00' ∉ colons hs := fun h => hnul (by simp [h])
  rw [List.length_cons, List.length_cons] at hturns'
  obtain ⟨turns', rfl⟩ := Nat.exists_eq_add_one_of_ne_zero (by omega : turns' ≠ 0)
  rw [hloop, loop_run (by omega) hnul', if_neg (by decide)]
  by_cases hend : hs = []
  · subst hend
    cases hhs
    obtain ⟨turns', rfl⟩ := Nat.exists_eq_add_one_of_ne_zero (by omega : turns' ≠ 0)
    rw [colons_nil, if_pos rfl, loop_nil, if_neg (by omega), putWords]
  · have hwords := areWords_of_forall₂ hhs
    have hne : colons hs ≠ [] := by
      intro h
      obtain ⟨w, hs, rfl⟩ := List.exists_cons_of_ne_nil hend
      obtain ⟨v, hw⟩ := hwords w (by simp)
      cases hs with
      | nil => exact hw.ne_nil (by simpa using h)
      | cons w' hs => simp [colons_cons] at h
    have hpos : 0 < hs.length := List.length_pos_iff.2 hend
    have hcount : (colons hs).count ':' + 1 = hs.length := by
      rw [hwords.count_colons]
      omega
    rw [if_neg hne, hcount, if_neg (by omega)]
    have hnul'' : '\x00' ∉ colons hs ++ [] := by rwa [List.append_nil]
    obtain ⟨turns'', hturns'', hloop'⟩ := loop_words (e := e) (r := []) hhs (by simp) hnul''
      (8 - hs.length) turns' true (putWords e addr 0 vs) (by omega)
      (by rw [List.append_nil]; omega)
    obtain ⟨turns'', rfl⟩ := Nat.exists_eq_add_one_of_ne_zero (by omega : turns'' ≠ 0)
    rw [List.append_nil] at hloop'
    rw [hloop', loop_nil, if_neg (by omega)]

end Win32

end TQLib
