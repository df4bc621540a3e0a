import TQLib.Win32.RoundTrip

/-!
# What a text of an address says

The address that a text form stands for, by its groups, without the code that reads it: the groups
in front of `::` and behind it, and zeros between; or the bytes of a dotted quad at the end. Groups
have no colons in them, so a text can be taken apart at `::` in one way only.

## Main results

* `Prints.denotes` — what is printed stands for the address
* `denotes_run_iff` — how a text goes on that has come to the run at the end
-/

namespace TQLib

namespace Win32

variable {a : In6Addr} {g d t w x y : List Char} {gs hs ws : List (List Char)} {n : ℕ}

/-- The number that a group stands for. -/
def groupNumber (g : List Char) : BitVec 16 := BitVec.ofNat 16 (digitsValue 16 g)

/-- So many groups of an address from one on. -/
def groupValues (a : In6Addr) (i n : ℕ) : List (BitVec 16) := (List.range' i n).map (groupValue a)

/-- A text stands for an address. -/
inductive Denotes (a : In6Addr) : List Char → Prop
  | groups {gs : List (List Char)} : (∀ g ∈ gs, IsGroup g) →
      gs.map groupNumber = groupValues a 0 8 → Denotes a (colons gs)
  | run {gs hs : List (List Char)} {m : ℕ} : (∀ g ∈ gs, IsGroup g) → (∀ g ∈ hs, IsGroup g) →
      0 < m → gs.map groupNumber ++ (List.replicate m 0 ++ hs.map groupNumber) =
        groupValues a 0 8 → Denotes a (colons gs ++ ':' :: ':' :: colons hs)
  | compatible {d : List Char} : IsDottedQuad d → dotted 4 d = some (List.ofFn (a.get 12 4)) →
      groupValues a 0 6 = List.replicate 6 0 → Denotes a (':' :: ':' :: d)
  | mapped {f d : List Char} : IsGroup f → groupNumber f = 0xFFFF → IsDottedQuad d →
      dotted 4 d = some (List.ofFn (a.get 12 4)) →
      groupValues a 0 6 = List.replicate 5 0 ++ [0xFFFF] →
      Denotes a (':' :: ':' :: (f ++ ':' :: d))

/-! ## What is printed -/

theorem groupNumber_groupText (a : In6Addr) (i : ℕ) :
    groupNumber (groupText a i) = groupValue a i := by
  rw [groupNumber, groupText, digitsValue_toDigits (by decide) (by decide), BitVec.ofNat_toNat,
    BitVec.setWidth_eq]

theorem map_groupTexts (a : In6Addr) (i n : ℕ) :
    (groupTexts a i n).map groupNumber = groupValues a i n := by
  rw [groupTexts, List.map_map, groupValues]
  exact List.map_congr_left fun j _ => groupNumber_groupText a j

theorem groupValues_append (a : In6Addr) (i m n : ℕ) :
    groupValues a i m ++ groupValues a (i + m) n = groupValues a i (m + n) := by
  rw [groupValues, groupValues, ← List.map_append, List.range'_append_1, groupValues]

/-- A group of zero bytes is zero. -/
theorem groupValue_eq_zero {i : ℕ} (h : ∀ k : Fin 16, 2 * i ≤ k → (k : ℕ) < 2 * (i + 1) → a k = 0) :
    groupValue a i = 0 := by
  have hget : a.get (2 * i) 2 = fun _ => 0 := by
    funext j
    rw [Bytes.get]
    split
    · exact h _ (by simp) (by simp; omega)
    · rfl
  rw [groupValue, hget]
  decide

theorem groupValues_eq_replicate {i n : ℕ}
    (h : ∀ k : Fin 16, 2 * i ≤ k → (k : ℕ) < 2 * (i + n) → a k = 0) :
    groupValues a i n = List.replicate n 0 := by
  rw [groupValues, List.eq_replicate_iff]
  refine ⟨by simp, fun v hv => ?_⟩
  obtain ⟨j, hj, rfl⟩ := List.mem_map.mp hv
  rw [List.mem_range'_1] at hj
  exact groupValue_eq_zero fun k hk hk' => h k (by omega) (by omega)

/-- And the other way round. -/
theorem apply_eq_zero {i n : ℕ} (h : groupValues a i n = List.replicate n 0) {k : Fin 16}
    (hk : 2 * i ≤ k) (hk' : (k : ℕ) < 2 * (i + n)) : a k = 0 := by
  have hmem : groupValue a (k / 2) ∈ groupValues a i n :=
    List.mem_map_of_mem (List.mem_range'_1.mpr (by omega))
  rw [h] at hmem
  rw [apply_eq_ofValue a k, List.eq_of_mem_replicate hmem]
  simp [Bytes.ofValue]

theorem groupValue_five (hten : a 10 = 0xFF) (heleven : a 11 = 0xFF) :
    groupValue a 5 = 0xFFFF := by
  have hget : a.get (2 * 5) 2 = fun _ => 0xFF := by
    funext j
    have hj : j = 0 ∨ j = 1 := by omega
    obtain rfl | rfl := hj
    · exact hten
    · exact heleven
  rw [groupValue, hget]
  decide

/-- **What is printed stands for the address.** -/
theorem Prints.denotes (h : Prints a t) : Denotes a t := by
  cases h with
  | groups => exact .groups (fun _ hg => isGroup_of_mem_groupTexts hg) (map_groupTexts a 0 8)
  | @run start max hpos hle hzero =>
    refine .run (fun _ hg => isGroup_of_mem_groupTexts hg)
      (fun _ hg => isGroup_of_mem_groupTexts hg) hpos ?_
    rw [map_groupTexts, map_groupTexts, ← groupValues_eq_replicate hzero, groupValues_append]
    have hfront := groupValues_append a 0 start (max + (8 - (start + max)))
    rw [Nat.zero_add] at hfront
    rw [hfront]
    congr 1
    omega
  | compatible hzero =>
    exact .compatible (isDottedQuad_v4Text _) (dotted_v4Text _)
      (groupValues_eq_replicate fun k _ hk => hzero k (by omega))
  | mapped hzero hten heleven =>
    have hfirst : groupValues a 0 5 = List.replicate 5 0 :=
      groupValues_eq_replicate fun k _ hk => hzero k (by omega)
    refine .mapped isGroup_ffff (by decide) (isDottedQuad_v4Text _) (dotted_v4Text _) ?_
    rw [← groupValues_append a 0 5 1, hfirst]
    exact congrArg (List.replicate 5 0 ++ [·]) (groupValue_five hten heleven)

/-! ## Taking a text apart -/

/-- A word ends at a colon. -/
theorem word_append_inj (hw : ':' ∉ w) (hx : ':' ∉ x) (ht : ∀ c ∈ t.head?, c = ':')
    (hy : ∀ c ∈ y.head?, c = ':') (h : w ++ t = x ++ y) : w = x ∧ t = y := by
  have htake (v r : List Char) (hv : ':' ∉ v) (hr : ∀ c ∈ r.head?, c = ':') :
      (v ++ r).takeWhile (· != ':') = v := by
    refine takeWhile_append_of_head (fun c hc => ?_) (fun c hc => ?_)
    · simp only [bne_iff_ne, ne_eq]
      rintro rfl
      exact hv hc
    · rw [hr c hc]
      rfl
  have heq : w = x := by rw [← htake w t hw ht, h, htake x y hx hy]
  exact ⟨heq, List.append_cancel_left (heq ▸ h)⟩

/-- What may come behind groups: nothing, or a run. -/
def IsRest (t : List Char) : Prop := t = [] ∨ ∃ x, t = ':' :: ':' :: x

theorem IsRest.head (ht : IsRest t) : ∀ c ∈ t.head?, c = ':' := by
  rintro c hc
  obtain rfl | ⟨x, rfl⟩ := ht
  · cases hc
  · exact (Option.some.inj hc).symm

/-- Groups do not begin with a colon. -/
theorem exists_head_colons (hws : ∀ w ∈ ws, IsGroup w) (hne : ws ≠ []) (y : List Char) :
    ∃ c cs, colons ws ++ y = c :: cs ∧ c ≠ ':' := by
  obtain ⟨w, vs, rfl⟩ := List.exists_cons_of_ne_nil hne
  have hw := (hws w (by simp)).ne_nil
  obtain ⟨c, cs, hc⟩ : ∃ c cs, colons (w :: vs) ++ y = c :: cs := by
    refine List.exists_cons_of_ne_nil fun hnil => ?_
    cases vs with
    | nil => simp_all
    | cons v vs => simp_all [colons_cons]
  refine ⟨c, cs, hc, fun hcolon => hne ?_⟩
  exact (areWords_of_groups hws).head_ne_colon y c (by rw [hc]; rfl) hcolon

/-- A rest is no group. -/
theorem IsRest.ne_colons (ht : IsRest t) (hws : ∀ w ∈ ws, IsGroup w) (hne : ws ≠ [])
    (y : List Char) : t ≠ colons ws ++ y := by
  rintro rfl
  obtain ⟨c, cs, hc, hcolon⟩ := exists_head_colons hws hne y
  exact hcolon (ht.head c (by rw [hc]; rfl))

/-- And not one more. -/
theorem IsRest.ne_cons_colons (ht : IsRest t) (hws : ∀ w ∈ ws, IsGroup w) (hne : ws ≠ [])
    (y : List Char) : t ≠ ':' :: (colons ws ++ y) := by
  rintro rfl
  obtain ⟨c, cs, hc, hcolon⟩ := exists_head_colons hws hne y
  rw [hc] at ht
  obtain h | ⟨x, h⟩ := ht
  · cases h
  · exact hcolon (List.cons.inj (List.cons.inj h).2).1

/-- What comes behind the first group. -/
theorem exists_colons_cons (w : List Char) (ws : List (List Char)) (hx : IsRest x) :
    ∃ y, colons (w :: ws) ++ x = w ++ y ∧ (∀ c ∈ y.head?, c = ':') ∧
      (ws = [] ∧ y = x ∨ ws ≠ [] ∧ y = ':' :: (colons ws ++ x)) := by
  by_cases hws : ws = []
  · subst hws
    exact ⟨x, by rw [colons_singleton], hx.head, .inl ⟨rfl, rfl⟩⟩
  · refine ⟨':' :: (colons ws ++ x), ?_, ?_, .inr ⟨hws, rfl⟩⟩
    · rw [colons_cons w hws, List.append_assoc, List.cons_append]
    · rintro c hc
      exact (Option.some.inj hc).symm

/-- **A text of groups is taken apart in one way.** -/
theorem colons_append_inj (hgs : ∀ g ∈ gs, IsGroup g) (hhs : ∀ g ∈ hs, IsGroup g)
    (hx : IsRest x) (hy : IsRest y) (h : colons gs ++ x = colons hs ++ y) : gs = hs ∧ x = y := by
  induction gs generalizing hs with
  | nil =>
    by_cases hne : hs = []
    · subst hne
      exact ⟨rfl, h⟩
    · exact absurd h (hx.ne_colons hhs hne y)
  | cons w ws ih =>
    cases hs with
    | nil => exact absurd h.symm (hy.ne_colons hgs (by simp) x)
    | cons v vs =>
      obtain ⟨p, hp, hphead, hpcases⟩ := exists_colons_cons w ws hx
      obtain ⟨q, hq, hqhead, hqcases⟩ := exists_colons_cons v vs hy
      obtain ⟨hgw, hgs'⟩ := List.forall_mem_cons.mp hgs
      obtain ⟨hgv, hhs'⟩ := List.forall_mem_cons.mp hhs
      rw [hp, hq] at h
      obtain ⟨rfl, rfl⟩ := word_append_inj hgw.isWord.colon_not_mem hgv.isWord.colon_not_mem
        hphead hqhead h
      obtain ⟨rfl, rfl⟩ | ⟨hws, hpw⟩ := hpcases
      · obtain ⟨rfl, rfl⟩ | ⟨hvs, hpv⟩ := hqcases
        · exact ⟨rfl, rfl⟩
        · exact absurd hpv (hx.ne_cons_colons hhs' hvs y)
      · obtain ⟨rfl, rfl⟩ | ⟨hvs, hpv⟩ := hqcases
        · exact absurd hpw (hy.ne_cons_colons hgs' hws x)
        · obtain ⟨rfl, hrest⟩ := ih hgs' hhs' (List.cons.inj (hpw.symm.trans hpv)).2
          exact ⟨rfl, hrest⟩

/-! ## Behind the run at the end -/

/-- What may stand behind the colons of a run of `n` zeros at the end: fewer groups of zeros, or a
quad of zeros if there is nothing in front. -/
def IsZeros (n : ℕ) (g : List Char) : Prop :=
  (∃ hs, (∀ h ∈ hs, IsGroup h ∧ groupNumber h = 0) ∧ hs.length < n ∧ g = colons hs) ∨
    n = 8 ∧ IsDottedQuad g ∧ dotted 4 g = some (List.replicate 4 0)

theorem isRest_run (x : List Char) : IsRest (':' :: ':' :: x) := .inr ⟨x, rfl⟩

theorem isGroup_of_groupTexts (a : In6Addr) (i n : ℕ) : ∀ g ∈ groupTexts a i n, IsGroup g :=
  fun _ hg => isGroup_of_mem_groupTexts hg

/-- The last four bytes, where all groups are zero. -/
theorem get_eq_zeros (hzero : groupValues a 0 8 = List.replicate 8 0) :
    List.ofFn (a.get 12 4) = List.replicate 4 0 := by
  rw [List.eq_replicate_iff]
  refine ⟨List.length_ofFn, fun b hb => ?_⟩
  obtain ⟨k, rfl⟩ := List.mem_ofFn.mp hb
  rw [Bytes.get, dif_pos (by omega)]
  exact apply_eq_zero hzero (by simp) (by simp; omega)

/-- A text that begins with colons has no groups in front. -/
theorem eq_of_colons_run (hn : n ≤ 8)
    (h : colons (groupTexts a 0 (8 - n)) ++ ':' :: ':' :: g = ':' :: ':' :: y) : n = 8 ∧ g = y := by
  have hnone : colons (groupTexts a 0 (8 - n)) ++ ':' :: ':' :: g =
      colons [] ++ ':' :: ':' :: y := h
  obtain ⟨hnil, hrest⟩ := colons_append_inj (isGroup_of_groupTexts a 0 (8 - n)) (by simp)
    (isRest_run g) (isRest_run y) hnone
  have hlen := length_groupTexts a 0 (8 - n)
  rw [hnil, List.length_nil] at hlen
  exact ⟨by omega, (List.cons.inj (List.cons.inj hrest).2).2⟩

/-- The groups in front of a run at the end. -/
theorem groupValues_front (hn : n ≤ 8) (hzero : groupValues a (8 - n) n = List.replicate n 0) :
    groupValues a 0 8 = groupValues a 0 (8 - n) ++ List.replicate n 0 := by
  have happend := groupValues_append a 0 (8 - n) n
  rw [Nat.zero_add, hzero, Nat.sub_add_cancel hn] at happend
  exact happend.symm

/-- What stands behind the colons is zeros. -/
theorem isZeros_of_denotes (hn : n ≤ 8) (hzero : groupValues a (8 - n) n = List.replicate n 0)
    (h : Denotes a (colons (groupTexts a 0 (8 - n)) ++ ':' :: ':' :: g)) : IsZeros n g := by
  have hfront := isGroup_of_groupTexts a 0 (8 - n)
  generalize htext : colons (groupTexts a 0 (8 - n)) ++ ':' :: ':' :: g = text at h
  cases h with
  | @groups gs hgs hvalues =>
    have hend := (colons_append_inj hfront hgs (isRest_run g) (.inl rfl)
      (by rw [htext, List.append_nil])).2
    cases hend
  | @run gs hs m hgs hhs hm hvalues =>
    obtain ⟨rfl, hrest⟩ := colons_append_inj hfront hgs (isRest_run g) (isRest_run _) htext
    obtain rfl : g = colons hs := (List.cons.inj (List.cons.inj hrest).2).2
    rw [map_groupTexts, groupValues_front hn hzero] at hvalues
    obtain ⟨hlen, -, hzeros⟩ :=
      List.append_eq_replicate_iff.mp (List.append_cancel_left hvalues)
    rw [List.length_replicate, List.length_map] at hlen
    refine .inl ⟨hs, fun h hh => ⟨hhs h hh, ?_⟩, by omega, rfl⟩
    exact List.eq_of_mem_replicate (hzeros ▸ List.mem_map_of_mem hh)
  | @compatible d hd hdotted hvalues =>
    obtain ⟨rfl, rfl⟩ := eq_of_colons_run hn htext
    exact .inr ⟨rfl, hd, by rw [hdotted, get_eq_zeros hzero]⟩
  | @mapped f d hf hvalue hd hdotted hvalues =>
    obtain ⟨rfl, -⟩ := eq_of_colons_run hn htext
    have hsix : groupValues a 0 6 = List.replicate 6 0 :=
      groupValues_eq_replicate fun k hk hk' => apply_eq_zero hzero (by omega) (by omega)
    rw [hsix] at hvalues
    exact absurd hvalues (by decide)

/-- And zeros may stand there. -/
theorem denotes_of_isZeros (hn : n ≤ 8) (hzero : groupValues a (8 - n) n = List.replicate n 0)
    (h : IsZeros n g) : Denotes a (colons (groupTexts a 0 (8 - n)) ++ ':' :: ':' :: g) := by
  obtain ⟨hs, hhs, hlt, rfl⟩ | ⟨rfl, hquad, hdotted⟩ := h
  · refine .run (isGroup_of_groupTexts a 0 (8 - n)) (fun h hh => (hhs h hh).1)
      (Nat.sub_pos_of_lt hlt) ?_
    have hzeros : hs.map groupNumber = List.replicate hs.length 0 :=
      List.eq_replicate_iff.mpr ⟨List.length_map _, fun v hv => by
        obtain ⟨h, hh, rfl⟩ := List.mem_map.mp hv
        exact (hhs h hh).2⟩
    rw [map_groupTexts, hzeros, List.replicate_append_replicate, Nat.sub_add_cancel hlt.le,
      groupValues_front hn hzero]
  · exact .compatible hquad (by rw [hdotted, get_eq_zeros hzero])
      (groupValues_eq_replicate fun k hk hk' => apply_eq_zero hzero (by omega) (by omega))

/-- **How a text goes on** that has come to the colons of a run at the end, if it stands for the
address. -/
theorem denotes_run_iff (hn : n ≤ 8) (hzero : groupValues a (8 - n) n = List.replicate n 0) :
    Denotes a (colons (groupTexts a 0 (8 - n)) ++ ':' :: ':' :: g) ↔ IsZeros n g :=
  ⟨isZeros_of_denotes hn hzero, denotes_of_isZeros hn hzero⟩

end Win32

end TQLib
