import TQLib.Win32.Printed

/-!
# Texts of addresses round trip

What `win32_inet_ntop` prints is in the grammar that `win32_inet_pton` reads, and gives the address
back. Groups go where they came from, in front as they are counted, and behind the run as the colons
behind it are.

## Main results

* `pton_ntop` — every address is read back from its text
-/

namespace TQLib

namespace Win32

variable {e : Endian} {a addr : In6Addr} {i n : ℕ} {t : List Char}

/-! ## What is printed is in the grammar -/

theorem isGroup_ffff : IsGroup "ffff".toList := by
  refine ⟨by decide, fun c hc => ?_, by decide⟩
  obtain rfl : c = 'f' := by simpa using hc
  decide

theorem Prints.isIpv6Text (h : Prints a t) : IsIpv6Text t := by
  cases h with
  | groups => exact .groups (fun _ hg => isGroup_of_mem_groupTexts hg) (length_groupTexts a 0 8)
  | run hpos hle _ =>
    refine .run (fun _ hg => isGroup_of_mem_groupTexts hg)
      (fun _ hg => isGroup_of_mem_groupTexts hg) ?_
    rw [length_groupTexts, length_groupTexts]
    omega
  | compatible _ => exact .compatible (isDottedQuad_v4Text _)
  | mapped _ _ _ =>
    exact .mapped isGroup_ffff (by decide) (isDottedQuad_v4Text _)

/-! ## Groups go where they came from -/

theorem isWord_groupTexts (a : In6Addr) (i n : ℕ) :
    List.Forall₂ IsWord (groupTexts a i n) ((List.range' i n).map (groupValue a)) := by
  rw [groupTexts, List.forall₂_map_left_iff, List.forall₂_map_right_iff, List.forall₂_same]
  intro j _
  have hword := (isGroup_groupText a j).isWord
  rwa [groupText, digitsValue_toDigits (by decide) (by decide), BitVec.ofNat_toNat,
    BitVec.setWidth_eq, ← groupText] at hword

theorem putWord_groupValue (e : Endian) (a addr : In6Addr) (i : ℕ) (k : Fin 16) :
    putWord e addr i (groupValue a i) k =
      if 2 * i ≤ k ∧ (k : ℕ) < 2 * (i + 1) then a k else addr k := by
  rw [putWord, Endian.store_hostToNetwork, ← get_eq_ofValue, Bytes.put]
  by_cases hk : 2 * i ≤ (k : ℕ) ∧ (k : ℕ) < 2 * (i + 1)
  · have hin : 2 * i ≤ (k : ℕ) ∧ (k : ℕ) - 2 * i < 2 := ⟨hk.1, by omega⟩
    have hindex : 2 * i + ((k : ℕ) - 2 * i) = k := by omega
    rw [dif_pos hin, if_pos hk, Bytes.get]
    simp only [hindex, k.isLt, dif_pos]
  · rw [dif_neg (by omega), if_neg hk]

theorem putWords_groupValues (e : Endian) (a addr : In6Addr) (hle : i + n ≤ 8) (k : Fin 16) :
    putWords e addr i ((List.range' i n).map (groupValue a)) k =
      if 2 * i ≤ k ∧ (k : ℕ) < 2 * (i + n) then a k else addr k := by
  induction n generalizing i addr with
  | zero => rw [if_neg (by omega)]; rfl
  | succ n ih =>
    rw [List.range'_succ, List.map_cons, putWords, ih _ (by omega),
      putWord_groupValue e a addr]
    split_ifs <;> first | rfl | omega

/-! ## What is read -/

theorem inetPtonV4_v4Text (a : InAddr) : inetPtonV4 (terminated (v4Text a)) = some (some a) := by
  have hread : (fun i : Fin 4 => (List.ofFn a).getD i 0) = a := by
    funext i
    rw [List.getD_eq_getElem _ _ (by simp), List.getElem_ofFn]
  rw [inetPtonV4_terminated (isDottedQuad_v4Text a).nul_not_mem, dotted_v4Text, Option.map_some,
    hread]

theorem mappedStart_apply (k : Fin 16) :
    mappedStart k = if (k : ℕ) = 10 ∨ (k : ℕ) = 11 then 0xFF else 0 := by
  revert k
  decide

/-- The last four bytes are put back. -/
theorem put_get_last (h : ∀ k : Fin 16, (k : ℕ) < 12 → addr k = a k) :
    addr.put 12 (a.get 12 4) = a := by
  funext k
  rw [Bytes.put]
  by_cases hk : 12 ≤ (k : ℕ)
  · have hin : 12 ≤ (k : ℕ) ∧ (k : ℕ) - 12 < 4 := ⟨hk, by omega⟩
    have hindex : 12 + ((k : ℕ) - 12) = k := by omega
    rw [dif_pos hin, Bytes.get]
    simp only [hindex, k.isLt, dif_pos]
  · rw [dif_neg (by omega)]
    exact h k (by omega)

theorem inetPtonV6Tail_v4Text (h : ∀ k : Fin 16, (k : ℕ) < 12 → addr k = a k) :
    inetPtonV6Tail addr (terminated (v4Text (a.get 12 4))) = some (some a) := by
  rw [inetPtonV6Tail, inetPtonV4_v4Text, Option.map_some, Option.map_some, put_get_last h]

theorem areWords_groupTexts (a : In6Addr) (i n : ℕ) : AreWords (groupTexts a i n) :=
  areWords_of_groups fun _ hg => isGroup_of_mem_groupTexts hg

/-- Groups are not taken for an address with a period. -/
theorem not_dotted_of_period_not_mem (ht : '.' ∉ t) :
    ¬ ∃ u, t = ':' :: ':' :: u ∧ '.' ∈ u := by
  rintro ⟨u, rfl, hmem⟩
  exact ht (by simp [hmem])

theorem inetPtonV6_groups (hnul : '\x00' ∉ colons (groupTexts a 0 8))
    (hx : 'x' ∉ colons (groupTexts a 0 8)) :
    inetPtonV6 e (terminated (colons (groupTexts a 0 8))) = some (some a) := by
  have hdotted := not_dotted_of_period_not_mem (areWords_groupTexts a 0 8).period_not_mem
  rw [inetPtonV6_eq_loop hnul hx hdotted,
    loop_plain (isWord_groupTexts a 0 8) (length_groupTexts a 0 8) hnul (by simp [terminated])]
  congr 2
  funext k
  rw [putWords_groupValues e a _ (by decide), if_pos (by omega)]

theorem inetPtonV6_run {start max : ℕ} (hpos : 0 < max) (hle : start + max ≤ 8)
    (hzero : ∀ k : Fin 16, 2 * start ≤ k → (k : ℕ) < 2 * (start + max) → a k = 0)
    (ht : t = colons (groupTexts a 0 start) ++
      ':' :: ':' :: colons (groupTexts a (start + max) (8 - (start + max))))
    (hnul : '\x00' ∉ t) (hx : 'x' ∉ t) : inetPtonV6 e (terminated t) = some (some a) := by
  have hperiod : '.' ∉ t := by
    have hfront := (areWords_groupTexts a 0 start).period_not_mem
    have hback := (areWords_groupTexts a (start + max) (8 - (start + max))).period_not_mem
    simp [ht, hfront, hback]
  have hturns : t.length < (terminated t).length := by simp [terminated]
  rw [inetPtonV6_eq_loop hnul hx (not_dotted_of_period_not_mem hperiod)]
  subst ht
  rw [loop_between (isWord_groupTexts a 0 start) (isWord_groupTexts a _ _)
      (by rw [length_groupTexts]; omega) (by rw [length_groupTexts, length_groupTexts]; omega)
      hnul hturns, length_groupTexts, show 8 - (8 - (start + max)) = start + max by omega]
  congr 2
  funext k
  rw [putWords_groupValues e a _ (by omega), putWords_groupValues e a _ (by omega)]
  by_cases hbehind : 2 * (start + max) ≤ (k : ℕ)
  · rw [if_pos (by omega)]
  · rw [if_neg (by omega)]
    by_cases hbefore : (k : ℕ) < 2 * start
    · rw [if_pos (by omega)]
    · rw [if_neg (by omega), hzero k (by omega) (by omega)]

theorem inetPtonV6_compatible (hzero : ∀ k : Fin 16, (k : ℕ) < 12 → a k = 0) :
    inetPtonV6 e (terminated (':' :: ':' :: v4Text (a.get 12 4))) = some (some a) := by
  have hquad := isDottedQuad_v4Text (a.get 12 4)
  rw [inetPtonV6_eq_dotted hquad.nul_not_mem hquad.x_not_mem (period_mem_of_dotted hquad.isSome),
    inetPtonV6Dotted,
    strchr_terminated_none hquad.nul_not_mem (colon_not_mem_of_dotted hquad.isSome)]
  exact inetPtonV6Tail_v4Text fun k hk => (hzero k hk).symm

theorem inetPtonV6_mapped (hzero : ∀ k : Fin 16, (k : ℕ) < 10 → a k = 0) (hten : a 10 = 0xFF)
    (heleven : a 11 = 0xFF) :
    inetPtonV6 e (terminated (':' :: ':' :: ("ffff".toList ++ ':' :: v4Text (a.get 12 4)))) =
      some (some a) := by
  have hquad := isDottedQuad_v4Text (a.get 12 4)
  have htext := IsIpv6Text.mapped isGroup_ffff (by decide) hquad
  have hnul : '\x00' ∉ "ffff".toList ++ ':' :: v4Text (a.get 12 4) := fun h =>
    htext.nul_not_mem (List.mem_cons_of_mem _ (List.mem_cons_of_mem _ h))
  have hx : 'x' ∉ "ffff".toList ++ ':' :: v4Text (a.get 12 4) := fun h =>
    htext.x_not_mem (List.mem_cons_of_mem _ (List.mem_cons_of_mem _ h))
  have hperiod : '.' ∈ "ffff".toList ++ ':' :: v4Text (a.get 12 4) :=
    List.mem_append_right _ (List.mem_cons_of_mem _ (period_mem_of_dotted hquad.isSome))
  have hcolon := isGroup_ffff.isWord.colon_not_mem
  obtain ⟨o, ho, hiff⟩ := sscanfHex_none_iff hnul hcolon
  have hread := hiff.2 ⟨_, [], by simp, isGroup_ffff.isMappedPrefix (by decide)⟩
  subst hread
  rw [inetPtonV6_eq_dotted hnul hx hperiod, inetPtonV6Dotted,
    strchr_terminated_append hnul hcolon, ho]
  refine inetPtonV6Tail_v4Text fun k hk => ?_
  show mappedStart k = a k
  rw [mappedStart_apply]
  by_cases hffff : (k : ℕ) = 10 ∨ (k : ℕ) = 11
  · rw [if_pos hffff]
    rcases hffff with h | h
    · obtain rfl : k = 10 := Fin.ext h
      exact hten.symm
    · obtain rfl : k = 11 := Fin.ext h
      exact heleven.symm
  · rw [if_neg hffff]
    exact (hzero k (by omega)).symm

/-- **What is printed is read back.** -/
theorem inetPtonV6_of_prints (h : Prints a t) : inetPtonV6 e (terminated t) = some (some a) := by
  have hnul := h.isIpv6Text.nul_not_mem
  have hx := h.isIpv6Text.x_not_mem
  cases h with
  | groups => exact inetPtonV6_groups hnul hx
  | run hpos hle hzero => exact inetPtonV6_run hpos hle hzero rfl hnul hx
  | compatible hzero => exact inetPtonV6_compatible hzero
  | mapped hzero hten heleven => exact inetPtonV6_mapped hzero hten heleven

theorem cString_printed (hlen : t.length ≤ 42) (hnul : '\x00' ∉ t) :
    cString (printed t).buf = some t :=
  OutBuffer.cString_holding (hlen.trans_lt (by decide)) hnul

theorem win32InetNtop_inet (e : Endian) (a : InAddr) :
    win32InetNtop e (.inet a) (List.replicate inet6Addrstrlen '\x00') inet6Addrstrlen =
      some (some (printed (v4Text a)).buf) := by
  have hwas : 65 ≤ (List.replicate inet6Addrstrlen '\x00').length := (List.length_replicate ..).ge
  have hsize : 22 ≤ inet6Addrstrlen := by decide
  have hover := inetNtopV4_atop (t := []) a hwas hsize (by decide) false
  have hlen := length_v4Text_le a
  have hzeros : OutBuffer.atop (List.replicate inet6Addrstrlen '\x00') (v4Text a) true =
      printed (v4Text a) := OutBuffer.atop_zeros (by rw [inet6Addrstrlen]; omega) true
  rw [List.nil_append, hzeros] at hover
  exact congrArg (Option.map (Option.map OutBuffer.buf)) hover

theorem cString_v4Text (a : InAddr) : cString (printed (v4Text a)).buf = some (v4Text a) :=
  cString_printed ((length_v4Text_le a).trans (by decide)) (isDottedQuad_v4Text a).nul_not_mem

theorem win32InetNtop_inet6 (e : Endian) (a : In6Addr) : ∃ t, Prints a t ∧
    win32InetNtop e (.inet6 a) (List.replicate inet6Addrstrlen '\x00') inet6Addrstrlen =
      some (some (printed t).buf) :=
  inetNtopV6_eq e a

theorem cString_of_prints (ht : Prints a t) : cString (printed t).buf = some t :=
  cString_printed (length_le_of_prints ht) ht.isIpv6Text.nul_not_mem

/-- **Every address is read back from its text.** -/
theorem pton_ntop (e : Endian) :
    (∀ a : InAddr, ∃ buf text,
      win32InetNtop e (.inet a) (List.replicate inet6Addrstrlen '\x00') inet6Addrstrlen =
        some (some buf) ∧ cString buf = some text ∧
      win32InetPton e .AF_INET (terminated text) = some (some (.inet a))) ∧
    (∀ a : In6Addr, ∃ buf text,
      win32InetNtop e (.inet6 a) (List.replicate inet6Addrstrlen '\x00') inet6Addrstrlen =
        some (some buf) ∧ cString buf = some text ∧
      win32InetPton e .AF_INET6 (terminated text) = some (some (.inet6 a))) := by
  constructor
  · intro a
    refine ⟨_, _, win32InetNtop_inet e a, cString_v4Text a, ?_⟩
    rw [win32InetPton, inetPtonV4_v4Text, Option.map_some, Option.map_some]
  · intro a
    obtain ⟨t, ht, hbuf⟩ := win32InetNtop_inet6 e a
    refine ⟨_, t, hbuf, cString_of_prints ht, ?_⟩
    rw [win32InetPton, inetPtonV6_of_prints ht, Option.map_some, Option.map_some]

end Win32

end TQLib
