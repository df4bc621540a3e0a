import TQLib.Base64.RoundTrip

/-!
# What the strict decoder accepts

Where only characters of the alphabet are parsed and the text has to be used up, a text is accepted
if it is the text of some bytes, with its padding or without it as the flags have it. One text more
is accepted where padding is not required: behind full quanta there may be a single character whose
sextet is zero, and it stands for nothing.

## Main results

* `exists_tail_iff` — what is accepted, for all flags for padding
* `decodeFromArray_accepts` — with what `DO_STRICT` accepts, which is what is encoded
-/

namespace TQLib

namespace Base64

variable {padFlags dpos : ℕ} {data done result x y tail used left vs : List UInt8} {q : Quantum}

/-- The characters of some bytes, without padding. -/
def chars (x : List UInt8) : List UInt8 := (sextets x).map charOf

theorem textOf_eq (x : List UInt8) : textOf x = chars x ++ padding x := rfl

/-- What may stand behind the characters of the bytes `x`. -/
def Tail (padFlags : ℕ) (x tail : List UInt8) : Prop :=
  tail = padding x ∧ (padFlags = DO_PAD_NO → tail = []) ∨
    padFlags ≠ DO_PAD_YES ∧ (tail = [] ∨ 3 ∣ x.length ∧ tail = ['A'.toUInt8])

theorem sextets_append (hx : 3 ∣ x.length) (y : List UInt8) :
    sextets (x ++ y) = sextets x ++ sextets y := by
  induction x using sextets.induct with
  | case1 => rfl
  | case2 a => simp at hx
  | case3 a b => simp at hx
  | case4 a b c x ih =>
    have hx' : 3 ∣ x.length := by
      simp only [List.length_cons] at hx
      omega
    simp only [List.cons_append, sextets, ih hx']

theorem chars_append (hx : 3 ∣ x.length) (y : List UInt8) :
    chars (x ++ y) = chars x ++ chars y := by
  rw [chars, sextets_append hx, List.map_append]
  rfl

/-- Full quanta in front do not matter for what may stand behind. -/
theorem tail_append (hx : 3 ∣ x.length) : Tail padFlags (x ++ y) tail ↔ Tail padFlags y tail := by
  have hmod : (x ++ y).length % 3 = y.length % 3 := by
    rw [List.length_append]
    omega
  have hdvd : 3 ∣ (x ++ y).length ↔ 3 ∣ y.length := by omega
  rw [Tail, Tail, padding, padding, hmod, hdvd]

/-! ## What is accepted -/

/-- In the strict mode what has been gone over is characters and padding. -/
theorem Scanned.eq_of_strict {illegalPads : Bool}
    (hs : Scanned DO_PARSE_STRICT illegalPads dpos used q) :
    used = (values used).map charOf ++ List.replicate q.padLen kPad := by
  rw [← hs.plain (by decide), List.filter_eq_self.mpr]
  intro ch hch
  rw [hs.strict rfl ch hch]
  rfl

/-- The sextets of a full quantum. -/
theorem chars_octets_four (hlen : vs.length = 4) (hv : ∀ v ∈ vs, v < 64) :
    chars (octets vs) = vs.map charOf ∧ 3 ∣ (octets vs).length := by
  match vs with
  | [s, t, u, v] =>
    refine ⟨?_, Nat.dvd_refl 3⟩
    rw [chars, sextets_octets hv (by simp) rfl]

/-- The sextets of a quantum which is not full. -/
theorem chars_octets (vs : List UInt8) (htwo : vs.length = 2 ∨ vs.length = 3)
    (hv : ∀ v ∈ vs, v < 64) (hz : spare vs = 0) :
    chars (octets vs) = vs.map charOf ∧
      padding (octets vs) = List.replicate (4 - vs.length) kPad := by
  have hsext : sextets (octets vs) = vs := sextets_octets hv (by omega) hz
  have hlen := length_sextets (octets vs)
  rw [hsext] at hlen
  refine ⟨by rw [chars, hsext], ?_⟩
  rw [padding]
  congr 1
  omega

/-- A single character without bits that are spare. -/
theorem map_charOf_one (hlen : vs.length = 1) (hv : ∀ v ∈ vs, v < 64) (hz : spare vs = 0) :
    octets vs = [] ∧ vs.map charOf = ['A'.toUInt8] := by
  match vs with
  | [s] =>
    have hs : s = 0 := by
      have h1 : sextet₁ (octet₁ s 0) = s := sextet₁_octets (hv s List.mem_cons_self)
      have h0 : octet₁ s 0 = 0 := hz
      rw [← h1, h0]
      rfl
    exact ⟨rfl, by rw [hs]; decide⟩

/-- The last turn of the decoder, where it accepts and everything has been used. -/
theorem tail_of_last (hs : Scanned DO_PARSE_STRICT (padFlags = DO_PAD_NO) dpos used q)
    (hq : q.byteLen < 4) (hne : used ++ left ≠ []) (hz : spare (values used) = 0)
    (hpad : padFlags = DO_PAD_YES → q.padded = true)
    (hstop : q.stop = dpos + (used ++ left).length) :
    ∃ tail, used ++ left = chars (octets (values used)) ++ tail ∧
      Tail padFlags (octets (values used)) tail := by
  have hused := hs.eq_of_strict
  have hv : ∀ v ∈ values used, v < 64 := fun _ => lt_of_mem_values
  have hbyte := hs.byteLen
  have hcount := hs.count
  have hdpos := hs.dpos
  rw [List.length_append] at hstop
  by_cases hfull : 4 = q.byteLen + q.padLen
  · rw [Quantum.stop_of_full hfull, hdpos] at hstop
    have hleft : left = [] := List.length_eq_zero_iff.mp (by omega)
    have htwo := hs.two (by omega)
    obtain ⟨hchars, hpads⟩ := chars_octets (values used) (by omega) hv hz
    refine ⟨List.replicate q.padLen kPad, ?_, .inl ⟨?_, ?_⟩⟩
    · rw [hleft, List.append_nil, hchars, ← hused]
    · rw [hpads]
      congr 1
      omega
    · intro hno
      have hlegal := hs.legal (by omega)
      simp [hno] at hlegal
  · rw [Quantum.stop_of_not_full hfull] at hstop
    by_cases hzero : q.padLen = 0
    · rw [if_neg (by omega), hdpos] at hstop
      have hleft : left = [] := List.length_eq_zero_iff.mp (by omega)
      have hyes : padFlags ≠ DO_PAD_YES := by
        intro h
        exact hfull (of_decide_eq_true (hpad h))
      rw [hzero, List.replicate_zero, List.append_nil] at hused
      rw [hleft, List.append_nil] at hne ⊢
      have hlen : used.length = (values used).length := by
        conv_lhs => rw [hused]
        exact List.length_map ..
      have hpos : 0 < used.length := List.length_pos_iff.mpr hne
      obtain hone | htwo : (values used).length = 1 ∨
          ((values used).length = 2 ∨ (values used).length = 3) := by omega
      · obtain ⟨hnil, hA⟩ := map_charOf_one hone hv hz
        refine ⟨['A'.toUInt8], ?_, .inr ⟨hyes, .inr ⟨by rw [hnil]; exact Nat.dvd_zero 3, rfl⟩⟩⟩
        rw [hnil]
        exact hused.trans hA
      · obtain ⟨hchars, -⟩ := chars_octets _ htwo hv hz
        exact ⟨[], by rw [hchars, List.append_nil, ← hused], .inr ⟨hyes, .inl rfl⟩⟩
    · -- Padding which has been given back has not been used.
      obtain ⟨before, pads, rfl, hpads, hstart, -⟩ := hs.padStart (by omega)
      have hlen : 0 < pads.length := List.length_pos_iff.mpr hpads
      rw [if_pos hzero, hstart, List.length_append] at hstop
      omega

/-- **What is accepted** from a position on. -/
theorem exists_of_decodeLoop (n : ℕ) (hn : data.length - dpos = n) (hle : dpos ≤ data.length)
    {r : List UInt8}
    (h : decodeLoop DO_PARSE_STRICT padFlags DO_TERM_BUFFER data result dpos =
      (true, r, data.length)) :
    ∃ x tail, data.drop dpos = chars x ++ tail ∧ Tail padFlags x tail ∧ r = result ++ x := by
  induction n using Nat.strong_induction_on generalizing dpos result with
  | _ n ih =>
    by_cases hlt : dpos < data.length
    · obtain ⟨used, left, q, hdrop, hs, -, heq⟩ :=
        getNextQuantum_spec DO_PARSE_STRICT (padFlags = DO_PAD_NO) data dpos
      have hlen : data.length = dpos + (used ++ left).length := by
        rw [← hdrop, List.length_drop]
        omega
      by_cases hq : q.byteLen < 4
      · rw [decodeLoop_last _ _ hlt hs hq heq] at h
        simp only [Prod.mk.injEq, decide_eq_true_iff] at h
        obtain ⟨⟨hz, hpad⟩, rfl, hstop⟩ := h
        have hne : used ++ left ≠ [] := by
          rw [← hdrop]
          simpa using hlt
        obtain ⟨tail, htext, htail⟩ := tail_of_last hs hq hne (hz.resolve_left (by decide)) hpad
          (hstop.trans hlen)
        exact ⟨_, tail, hdrop.trans htext, htail, rfl⟩
      · have hfour : q.byteLen = 4 := by
          have := hs.count
          omega
        have hzero : q.padLen = 0 := by
          have := hs.count
          omega
        have hfull : (values used).length = 4 := by rw [← hs.byteLen, hfour]
        have hused := hs.eq_of_strict
        rw [hzero, List.replicate_zero, List.append_nil] at hused
        have hpos : used.length = 4 := by
          conv_lhs => rw [hused]
          rw [List.length_map, hfull]
        rw [decodeLoop_next hlt hs hfour heq] at h
        rw [List.length_append] at hlen
        obtain ⟨x, tail, htext, htail, rfl⟩ :=
          ih (data.length - (dpos + used.length)) (by omega) rfl (by omega) h
        obtain ⟨hchars, hdvd⟩ := chars_octets_four hfull fun _ => lt_of_mem_values
        refine ⟨octets (values used) ++ x, tail, ?_, (tail_append hdvd).mpr htail, by simp⟩
        have hleft : data.drop (dpos + used.length) = left := by
          rw [← List.drop_drop, hdrop, List.drop_left]
        rw [hdrop, chars_append hdvd, hchars, ← hused, List.append_assoc, ← htext, hleft]
    · rw [decodeLoop, if_neg hlt] at h
      simp only [Prod.mk.injEq] at h
      refine ⟨[], [], ?_, .inl ⟨rfl, fun _ => rfl⟩, by rw [List.append_nil, h.2.1]⟩
      rw [List.drop_of_length_le (by omega)]
      rfl

/-! ## What is accepted in fact -/

variable {parseFlags termFlags : ℕ}

/-- The quantum at the end, without padding. -/
theorem getNextQuantum_open (parseFlags : ℕ) (illegalPads : Bool) (hd : dpos = done.length)
    (hv : ∀ v ∈ vs, v < 64) (hlt : vs.length < 4) :
    ∃ q, Scanned parseFlags illegalPads dpos (vs.map charOf) q ∧ q.byteLen = vs.length ∧
      q.stop = dpos + vs.length ∧
      getNextQuantum parseFlags illegalPads (done ++ vs.map charOf) dpos =
        (q.byteLen, values (vs.map charOf) ++ List.replicate (4 - q.byteLen) 0, q.stop,
          q.padded) := by
  obtain ⟨q, hs, hbyte, hpad, heq⟩ := quantumLoop_data
    (scanned_nil parseFlags illegalPads dpos) rfl hv (by simp only [Nat.zero_add, hlt.le]) []
  rw [List.nil_append] at hs
  have hbyte : q.byteLen = vs.length := hbyte.trans (Nat.zero_add _)
  refine ⟨q, hs, hbyte, ?_, getNextQuantum_eq ?_ hs⟩
  · rw [Quantum.stop_of_not_full (by omega), if_neg (by omega), hs.dpos, List.length_map]
  · rw [hd, List.drop_left, ← hd, ← List.append_nil (vs.map charOf), heq]
    rfl

/-- Characters at the end, without padding, are decoded. -/
theorem decodeLoop_open (hd : dpos = done.length) (hyes : padFlags ≠ DO_PAD_YES)
    (hv : ∀ v ∈ vs, v < 64) (hne : vs ≠ []) (hlt : vs.length < 4) (hz : spare vs = 0) :
    decodeLoop parseFlags padFlags termFlags (done ++ vs.map charOf) result dpos =
      (true, result ++ octets vs, dpos + vs.length) := by
  obtain ⟨q, hs, hbyte, hstop, heq⟩ :=
    getNextQuantum_open parseFlags (padFlags = DO_PAD_NO) hd hv hlt
  have hpos : 0 < vs.length := List.length_pos_iff.mpr hne
  have hlen : dpos < (done ++ vs.map charOf).length := by
    rw [List.length_append, List.length_map]
    omega
  rw [decodeLoop_last _ _ hlen hs (by omega) heq, values_map_charOf hv, hz, hstop]
  simp [hyes]

/-- **Without its padding** a text is decoded too, unless padding is required. -/
theorem decodeLoop_chars (hd : dpos = done.length) (hyes : padFlags ≠ DO_PAD_YES)
    (htail : tail = [] ∨ 3 ∣ x.length ∧ tail = ['A'.toUInt8]) :
    decodeLoop parseFlags padFlags termFlags (done ++ (chars x ++ tail)) result dpos =
      (true, result ++ x, dpos + (chars x ++ tail).length) := by
  induction x using sextets.induct generalizing done result dpos with
  | case1 =>
    rcases htail with rfl | ⟨-, rfl⟩
    · rw [decodeLoop, if_neg (by simp [hd, chars, sextets])]
      simp [chars, sextets]
    · have hA : chars [] ++ ['A'.toUInt8] = [0].map charOf := by decide
      rw [hA, decodeLoop_open hd hyes (by simp) (by simp) (by simp) rfl]
      rfl
  | case2 a =>
    have hnil : tail = [] := htail.resolve_right fun h => absurd h.1 (by simp)
    rw [hnil, List.append_nil, chars, decodeLoop_open hd hyes (fun _ => lt_of_mem_sextets)
      (by simp [sextets]) (by simp [sextets]) (spare_sextets [a]), octets_sextets, List.length_map]
  | case3 a b =>
    have hnil : tail = [] := htail.resolve_right fun h => absurd h.1 (by simp)
    rw [hnil, List.append_nil, chars, decodeLoop_open hd hyes (fun _ => lt_of_mem_sextets)
      (by simp [sextets]) (by simp [sextets]) (spare_sextets [a, b]), octets_sextets,
      List.length_map]
  | case4 a b c x ih =>
    have htail' : tail = [] ∨ 3 ∣ x.length ∧ tail = ['A'.toUInt8] := by
      refine htail.imp_right fun h => ⟨?_, h.2⟩
      have hdvd := h.1
      simp only [List.length_cons] at hdvd
      omega
    have hv : ∀ v ∈ [sextet₁ a, sextet₂ a b, sextet₃ b c, sextet₄ c], v < 64 := by
      simp [sextet₁_lt, sextet₂_lt, sextet₃_lt, sextet₄_lt]
    obtain ⟨q, hs, hq, heq⟩ := getNextQuantum_full parseFlags (padFlags = DO_PAD_NO) hd hv rfl
      (chars x ++ tail)
    have htext : chars (a :: b :: c :: x) =
        [sextet₁ a, sextet₂ a b, sextet₃ b c, sextet₄ c].map charOf ++ chars x := rfl
    have hoct : octets [sextet₁ a, sextet₂ a b, sextet₃ b c, sextet₄ c] = [a, b, c] :=
      octets_sextets [a, b, c]
    rw [htext, List.append_assoc, decodeLoop_next (by simp [hd]) hs hq heq, values_map_charOf hv,
      hoct, ← List.append_assoc, ih (by simp [hd]) htail']
    simp only [List.append_assoc, List.cons_append, List.nil_append, List.length_map,
      List.length_append, List.length_cons, List.length_nil]
    congr 2
    omega

/-- **What is accepted** where only characters of the alphabet are parsed and all of the text has to
be used: the text of some bytes, and what else `Tail` allows. -/
theorem exists_tail_iff {flags : ℕ}
    (hparse : flags &&& DO_PARSE_MASK = DO_PARSE_STRICT)
    (hterm : flags &&& DO_TERM_MASK = DO_TERM_BUFFER) (text x : List UInt8) :
    (∃ dataUsed, decodeFromArray text flags = (true, x, dataUsed)) ↔
      ∃ tail, text = chars x ++ tail ∧ Tail (flags &&& DO_PAD_MASK) x tail := by
  constructor
  · rintro ⟨dataUsed, h⟩
    simp only [decodeFromArray, hparse, hterm] at h
    split at h
    · simp at h
    · next hused =>
      have hend :
          (decodeLoop DO_PARSE_STRICT (flags &&& DO_PAD_MASK) DO_TERM_BUFFER text [] 0).2.2 =
            text.length := not_not.mp fun hn => hused ⟨trivial, hn⟩
      have hloop : decodeLoop DO_PARSE_STRICT (flags &&& DO_PAD_MASK) DO_TERM_BUFFER text [] 0 =
          (true, x, text.length) := by
        rw [← hend]
        simp only [Prod.mk.injEq] at h
        rw [← h.1, ← h.2.1]
      obtain ⟨y, tail, htext, htail, rfl⟩ :=
        exists_of_decodeLoop text.length (by omega) (Nat.zero_le _) hloop
      exact ⟨tail, htext, htail⟩
  · rintro ⟨tail, rfl, htail⟩
    have hloop : decodeLoop DO_PARSE_STRICT (flags &&& DO_PAD_MASK) DO_TERM_BUFFER (chars x ++ tail)
        [] 0 = (true, x, (chars x ++ tail).length) := by
      rcases htail with ⟨rfl, hno⟩ | ⟨hyes, htail⟩
      · have h : decodeLoop DO_PARSE_STRICT (flags &&& DO_PAD_MASK) DO_TERM_BUFFER
            ([] ++ textOf x) [] 0 = _ := decodeLoop_textOf _ _ _ rfl x
        rw [List.nil_append, List.nil_append, textOf_eq] at h
        rw [h]
        by_cases hpad : flags &&& DO_PAD_MASK = DO_PAD_NO
        · rw [if_pos ⟨hpad, by decide⟩, hno hpad, List.append_nil, chars, List.length_map,
            List.length_nil, Nat.zero_add]
        · rw [if_neg fun hn => hpad hn.1, List.length_nil, Nat.zero_add]
      · have h : decodeLoop DO_PARSE_STRICT (flags &&& DO_PAD_MASK) DO_TERM_BUFFER
            ([] ++ (chars x ++ tail)) [] 0 = _ := decodeLoop_chars rfl hyes htail
        rwa [List.nil_append, List.nil_append, Nat.zero_add] at h
    refine ⟨(chars x ++ tail).length, ?_⟩
    simp only [decodeFromArray, hparse, hterm, hloop]
    simp

/-- With padding optional, a full quantum may have one character more behind it. -/
example : ∃ dataUsed, decodeFromArray ("TWFuA".toList.map Char.toUInt8)
    (DO_PARSE_STRICT ||| DO_PAD_ANY ||| DO_TERM_BUFFER) =
      (true, "Man".toList.map Char.toUInt8, dataUsed) :=
  (exists_tail_iff (by decide) (by decide) _ _).mpr
    ⟨['A'.toUInt8], by decide +kernel, .inr ⟨by decide, .inr ⟨by decide, rfl⟩⟩⟩

/-- **`DO_STRICT` accepts what is encoded**, and nothing else: every text has one meaning, and every
meaning one text. With padding optional or disallowed the same text without padding is accepted, and
behind full quanta a character that stands for nothing. -/
theorem decodeFromArray_accepts :
    (∀ text x, (∃ dataUsed, decodeFromArray text DO_STRICT = (true, x, dataUsed)) ↔
      encodeFromArray x = some text) ∧
    ∀ flags, flags &&& DO_PARSE_MASK = DO_PARSE_STRICT → flags &&& DO_TERM_MASK = DO_TERM_BUFFER →
      ∀ text x, (∃ dataUsed, decodeFromArray text flags = (true, x, dataUsed)) ↔
        ∃ tail, text = chars x ++ tail ∧ Tail (flags &&& DO_PAD_MASK) x tail := by
  refine ⟨fun text x => ?_, fun flags hparse hterm => exists_tail_iff hparse hterm⟩
  have hyes : DO_STRICT &&& DO_PAD_MASK = DO_PAD_YES := by decide
  rw [exists_tail_iff (by decide) (by decide), encodeFromArray_eq, Option.some_inj, textOf_eq, hyes]
  constructor
  · rintro ⟨tail, rfl, ⟨rfl, -⟩ | ⟨hn, -⟩⟩
    · rfl
    · exact absurd rfl hn
  · rintro rfl
    exact ⟨padding x, rfl, .inl ⟨rfl, fun h => absurd h (by decide)⟩⟩

end Base64

end TQLib
