import TQLib.Base64.RoundTrip

/-!
# What the decoder passes over

The bytes that are decoded are those of the characters of the alphabet in the part of the text that
is used, whatever stands between them. Where all characters are allowed these are the characters of
the alphabet in all of the text: padding in it ends nothing.

Whitespace, where it is allowed, makes no difference for the bytes. It does for what is accepted:
behind full quanta it is one quantum more, which has no padding.

## Main results

* `decodeFromArray_values` — the bytes, from the text that is used
* `decodeFromArray_white` — a text with whitespace, and the text without it
-/

namespace TQLib

namespace Base64

variable {parseFlags padFlags dpos : ℕ} {data used left : List UInt8} {q : Quantum}

/-- What is used in the last turn has all of its sextets. -/
theorem exists_stop {illegalPads : Bool} (hs : Scanned parseFlags illegalPads dpos used q) :
    ∃ kept given, used = kept ++ given ∧ q.stop = dpos + kept.length ∧ values given = [] := by
  by_cases hfull : 4 = q.byteLen + q.padLen
  · exact ⟨used, [], by simp, by rw [Quantum.stop_of_full hfull, hs.dpos], rfl⟩
  · rw [Quantum.stop_of_not_full hfull]
    by_cases hzero : q.padLen = 0
    · exact ⟨used, [], by simp, by rw [if_neg (by omega), hs.dpos], rfl⟩
    · obtain ⟨before, pads, rfl, -, hstart, hnil⟩ := hs.padStart (by omega)
      exact ⟨before, pads, rfl, by rw [if_pos hzero, hstart], hnil⟩

/-- **The bytes from a position on** are those of the characters of the alphabet, up to where the
decoder ends. -/
theorem decodeLoop_values (parseFlags padFlags termFlags : ℕ) (result : List UInt8) (n : ℕ)
    (hn : data.length - dpos = n) (hle : dpos ≤ data.length) :
    ∃ success kept left, data.drop dpos = kept ++ left ∧
      decodeLoop parseFlags padFlags termFlags data result dpos =
        (success, result ++ octets (values kept), dpos + kept.length) ∧
      (parseFlags = DO_PARSE_ANY → values left = []) := by
  induction n using Nat.strong_induction_on generalizing dpos result with
  | _ n ih =>
    by_cases hlt : dpos < data.length
    · obtain ⟨used, left, q, hdrop, hs, hend, heq⟩ :=
        getNextQuantum_spec parseFlags (padFlags = DO_PAD_NO) data dpos
      by_cases hq : q.byteLen < 4
      · obtain ⟨kept, given, rfl, hstop, hnil⟩ := exists_stop hs
        have hlast := decodeLoop_last result termFlags hlt hs hq heq
        rw [hstop, values_append, hnil, List.append_nil] at hlast
        refine ⟨_, kept, given ++ left, by rw [hdrop, List.append_assoc], hlast, fun hany => ?_⟩
        have hleft : left = [] := hend.resolve_right (by omega)
        rw [hleft, List.append_nil, hnil]
      · have hfour : q.byteLen = 4 := by
          have := hs.count
          omega
        have hfull : (values used).length = 4 := by rw [← hs.byteLen, hfour]
        have hpos : (values used).length ≤ used.length := List.length_filterMap_le ..
        have hlen : data.length - dpos = used.length + left.length := by
          rw [← List.length_append, ← hdrop, List.length_drop]
        have hrest : data.drop (dpos + used.length) = left := by
          rw [← List.drop_drop, hdrop, List.drop_left]
        obtain ⟨success, kept, left', hdrop', heq', hany⟩ :=
          ih (data.length - (dpos + used.length)) (by omega)
            (result ++ octets (values used)) rfl (by omega)
        refine ⟨success, used ++ kept, left', ?_, ?_, hany⟩
        · rw [hdrop, List.append_assoc, ← hdrop', hrest]
        · rw [decodeLoop_next hlt hs hfour heq, heq', values_append,
            octets_append hfull, List.append_assoc, List.length_append, Nat.add_assoc]
    · refine ⟨true, [], [], List.drop_of_length_le (by omega), ?_, fun _ => rfl⟩
      rw [decodeLoop, if_neg hlt]
      simp [octets]

/-- **The bytes that are decoded** are those of the characters of the alphabet in the part of the
text that is used, for all flags; and in all of the text, where all characters are allowed. -/
theorem decodeFromArray_values (text : List UInt8) (flags : ℕ) :
    let r := decodeFromArray text flags
    r.2.2 ≤ text.length ∧ r.2.1 = octets (values (text.take r.2.2)) ∧
      (flags &&& DO_PARSE_MASK = DO_PARSE_ANY → r.2.1 = octets (values text)) := by
  obtain ⟨success, kept, left, htext, heq, hany⟩ :=
    decodeLoop_values (flags &&& DO_PARSE_MASK) (flags &&& DO_PAD_MASK) (flags &&& DO_TERM_MASK) []
      text.length (Nat.sub_zero text.length) (Nat.zero_le text.length)
  rw [List.drop_zero] at htext
  rw [List.nil_append, Nat.zero_add] at heq
  have hr : (decodeFromArray text flags).2 = (octets (values kept), kept.length) := by
    simp only [decodeFromArray, heq]
    split <;> rfl
  intro r
  have hr : r.2 = (octets (values kept), kept.length) := hr
  rw [hr]
  subst htext
  refine ⟨by rw [List.length_append]; exact Nat.le_add_right .., ?_, fun h => ?_⟩
  · rw [List.take_left]
  · rw [values_append, hany h, List.append_nil]

/-! ## Whitespace -/

variable {illegalPads : Bool} {start start' : ℕ} {ch : UInt8} {q' : Quantum} {rest : List UInt8}

/-- A text without its whitespace. -/
def squeeze (text : List UInt8) : List UInt8 := text.filter (!isSpace ·)

@[simp] theorem squeeze_append (text text' : List UInt8) :
    squeeze (text ++ text') = squeeze text ++ squeeze text' :=
  List.filter_append ..

theorem squeeze_cons_of_space (h : isSpace ch = true) (text : List UInt8) :
    squeeze (ch :: text) = squeeze text := by
  rw [squeeze, List.filter_cons_of_neg (by simp [h])]
  rfl

theorem squeeze_cons (h : isSpace ch = false) (text : List UInt8) :
    squeeze (ch :: text) = ch :: squeeze text := by
  rw [squeeze, List.filter_cons_of_pos (by simp [h])]
  rfl

theorem not_lt_of_isSpace (h : isSpace ch = true) : ¬ valueOf ch < 64 := by
  have hv : valueOf ch = sp := of_decide_eq_true h
  rw [hv]
  decide

theorem values_squeeze (text : List UInt8) : values (squeeze text) = values text := by
  induction text with
  | nil => rfl
  | cons ch text ih =>
    have hcons : ∀ t, values (ch :: t) = values [ch] ++ values t := fun t => values_append [ch] t
    by_cases h : isSpace ch = true
    · rw [squeeze_cons_of_space h, ih, hcons, values_singleton_of_not_lt (not_lt_of_isSpace h),
        List.nil_append]
    · rw [squeeze_cons (by simpa using h), hcons, ih, ← hcons]

/-- Where whitespace is allowed and not everything is, all other characters are taken as in the
strict mode. -/
theorem quantumBody_white (hany : parseFlags ≠ DO_PARSE_ANY) (h : isSpace ch = false)
    (q : Quantum) :
    quantumBody parseFlags illegalPads (valueOf ch) q =
      quantumBody DO_PARSE_STRICT illegalPads (valueOf ch) q := by
  have hs : DO_PARSE_STRICT ≠ DO_PARSE_ANY := by decide
  rcases valueOf_cases ch with hv | ⟨hv, -⟩ | hv | hv
  · rw [quantumBody_of_lt hv, quantumBody_of_lt hv]
    simp [hany, hs]
  · rw [hv, quantumBody_pd, quantumBody_pd]
    simp [hany, hs]
  · exact absurd hv (of_decide_eq_false h)
  · rw [hv, quantumBody_il, quantumBody_il]
    simp [hany, hs]

/-- The counts of a quantum. -/
def Quantum.counts (q : Quantum) : ℕ × ℕ := (q.byteLen, q.padLen)

/-- What a turn does to the counts depends on nothing else. -/
theorem quantumBody_counts (parseFlags : ℕ) (illegalPads : Bool) (ch : UInt8) {p : Quantum}
    (h : p.counts = q.counts) :
    (quantumBody parseFlags illegalPads (valueOf ch) p).map Quantum.counts =
      (quantumBody parseFlags illegalPads (valueOf ch) q).map Quantum.counts := by
  simp only [Quantum.counts, Prod.mk.injEq] at h
  rcases valueOf_cases ch with hv | ⟨hv, -⟩ | hv | hv
  · rw [quantumBody_of_lt hv, quantumBody_of_lt hv, h.2]
    split
    · rfl
    · simp [Quantum.counts, Quantum.data, h]
  · rw [hv, quantumBody_pd, quantumBody_pd, h.1, h.2]
    split
    · simp [Quantum.counts, Quantum.pad, h]
    · split
      · rfl
      · simp [Quantum.counts, h]
  · rw [hv, quantumBody_sp, quantumBody_sp]
    split
    · rfl
    · simp [Quantum.counts, h]
  · rw [hv, quantumBody_il, quantumBody_il]
    split
    · rfl
    · simp [Quantum.counts, h]

/-- The counts agree where the sextets and the padding do. -/
theorem Scanned.byteLen_eq {used' : List UInt8} {parseFlags' : ℕ}
    (h : Scanned parseFlags illegalPads start used q)
    (h' : Scanned parseFlags' illegalPads start' used' q') (hv : values used = values used') :
    q.byteLen = q'.byteLen := by
  rw [h.byteLen, h'.byteLen, hv]

/-- **The loop over a text with whitespace** goes over the same characters as the loop over the text
without it. It does not end in front of whitespace, unless the quantum is full; and a full quantum
ends with a character of the alphabet. -/
theorem quantumLoop_white (hw : parseFlags ≠ DO_PARSE_STRICT) (hany : parseFlags ≠ DO_PARSE_ANY)
    (h : Scanned parseFlags illegalPads start used q)
    (h' : Scanned DO_PARSE_STRICT illegalPads start' (squeeze used) q') (hp : q.padLen = q'.padLen)
    (hlt : q.byteLen < 4) (rest : List UInt8) :
    ∃ more left, rest = more ++ left ∧
      Scanned parseFlags illegalPads start (used ++ more)
        (quantumLoop parseFlags illegalPads rest q) ∧
      Scanned DO_PARSE_STRICT illegalPads start' (squeeze (used ++ more))
        (quantumLoop DO_PARSE_STRICT illegalPads (squeeze rest) q') ∧
      (quantumLoop parseFlags illegalPads rest q).padLen =
        (quantumLoop DO_PARSE_STRICT illegalPads (squeeze rest) q').padLen ∧
      (left = [] ∨ (quantumLoop parseFlags illegalPads rest q).byteLen = 4 ∨
        squeeze left ≠ []) ∧
      ((quantumLoop parseFlags illegalPads rest q).byteLen = 4 →
        ∃ l ch, more = l ++ [ch] ∧ isSpace ch = false) := by
  induction rest generalizing used q q' with
  | nil =>
    refine ⟨[], [], rfl, ?_, ?_, hp, .inl rfl, fun hfull => ?_⟩
    · rwa [List.append_nil]
    · rwa [List.append_nil]
    · rw [quantumLoop] at hfull
      omega
  | cons ch rest ih =>
    have hb : q.byteLen = q'.byteLen := h.byteLen_eq h' (values_squeeze used).symm
    have hset := h.set (valueOf ch)
    have hslot : (q.qbuf.set q.byteLen (valueOf ch))[q.byteLen]? = some (valueOf ch) := by
      rw [List.getElem?_set_self (by rw [h.room]; exact hlt)]
    have hset' := h'.set (valueOf ch)
    have hslot' : (q'.qbuf.set q'.byteLen (valueOf ch))[q'.byteLen]? = some (valueOf ch) := by
      rw [List.getElem?_set_self (by rw [h'.room]; omega)]
    by_cases hsp : isSpace ch = true
    · have hv : valueOf ch = sp := of_decide_eq_true hsp
      have hbody : ∀ p, quantumBody parseFlags illegalPads (valueOf ch) p = some p := fun p => by
        rw [hv, quantumBody_sp, if_neg hw]
      have hstep := hset.step hlt hslot (hbody _)
      obtain ⟨more, left, rfl, hs, hs', hpad, hend, hlast⟩ := ih hstep
        (by rwa [squeeze_append, squeeze_cons_of_space hsp, squeeze, squeeze, List.filter_nil,
          List.append_nil]) hp hlt
      rw [List.append_assoc, List.singleton_append] at hs hs'
      have hloop : quantumLoop parseFlags illegalPads (ch :: (more ++ left)) q =
          quantumLoop parseFlags illegalPads (more ++ left)
            { q with dpos := q.dpos + 1, qbuf := q.qbuf.set q.byteLen (valueOf ch) } := by
        simp only [quantumLoop, if_pos hlt, ← valueOf.eq_def, hbody]
      rw [squeeze_cons_of_space hsp, hloop]
      refine ⟨ch :: more, left, rfl, hs, hs', hpad, hend, fun hfull => ?_⟩
      obtain ⟨l, c, rfl, hc⟩ := hlast hfull
      exact ⟨ch :: l, c, rfl, hc⟩
    · have hsp : isSpace ch = false := by simpa using hsp
      have hcounts : Quantum.counts { q' with qbuf := q'.qbuf.set q'.byteLen (valueOf ch) } =
          Quantum.counts { q with qbuf := q.qbuf.set q.byteLen (valueOf ch) } := by
        simp [Quantum.counts, hb, hp]
      have hbody := quantumBody_counts DO_PARSE_STRICT illegalPads ch hcounts
      rw [← quantumBody_white hany hsp { q with qbuf := q.qbuf.set q.byteLen (valueOf ch) }]
        at hbody
      rw [squeeze_cons hsp]
      cases hr : quantumBody parseFlags illegalPads (valueOf ch)
          { q with qbuf := q.qbuf.set q.byteLen (valueOf ch) } with
      | none =>
        rw [hr, Option.map_none, Option.map_eq_none_iff] at hbody
        have hloop : quantumLoop parseFlags illegalPads (ch :: rest) q =
            { q with qbuf := q.qbuf.set q.byteLen (valueOf ch) } := by
          simp only [quantumLoop, if_pos hlt, ← valueOf.eq_def, hr]
        have hloop' : quantumLoop DO_PARSE_STRICT illegalPads (ch :: squeeze rest) q' =
            { q' with qbuf := q'.qbuf.set q'.byteLen (valueOf ch) } := by
          simp only [quantumLoop, if_pos (hb ▸ hlt), ← valueOf.eq_def, hbody]
        rw [hloop, hloop']
        refine ⟨[], ch :: rest, rfl, ?_, ?_, hp, .inr (.inr ?_), fun hfull => ?_⟩
        · rwa [List.append_nil]
        · rwa [List.append_nil]
        · simp [squeeze_cons hsp]
        · dsimp only at hfull
          omega
      | some r =>
        rw [hr, Option.map_some, Option.map_eq_some_iff] at hbody
        obtain ⟨r', hr', hcounts'⟩ := hbody
        simp only [Quantum.counts, Prod.mk.injEq] at hcounts'
        have hstep := hset.step hlt hslot hr
        have hstep' := hset'.step (hb ▸ hlt) hslot' hr'
        have hloop : quantumLoop parseFlags illegalPads (ch :: rest) q =
            quantumLoop parseFlags illegalPads rest { r with dpos := r.dpos + 1 } := by
          simp only [quantumLoop, if_pos hlt, ← valueOf.eq_def, hr]
        have hloop' : quantumLoop DO_PARSE_STRICT illegalPads (ch :: squeeze rest) q' =
            quantumLoop DO_PARSE_STRICT illegalPads (squeeze rest)
              { r' with dpos := r'.dpos + 1 } := by
          simp only [quantumLoop, if_pos (hb ▸ hlt), ← valueOf.eq_def, hr']
        have hused : squeeze used ++ [ch] = squeeze (used ++ [ch]) := by
          rw [squeeze_append, squeeze_cons hsp]
          rfl
        rw [hused] at hstep'
        rw [hloop, hloop']
        by_cases hfull : r.byteLen < 4
        · obtain ⟨more, left, rfl, hs, hs', hpad, hend, hlast⟩ :=
            ih hstep hstep' hcounts'.2.symm hfull
          rw [List.append_assoc, List.singleton_append] at hs hs'
          refine ⟨ch :: more, left, rfl, hs, hs', hpad, hend, fun hfull => ?_⟩
          obtain ⟨l, c, rfl, hc⟩ := hlast hfull
          exact ⟨ch :: l, c, rfl, hc⟩
        · have hfull' : ¬ r'.byteLen < 4 := by omega
          rw [quantumLoop_of_full (q := { r with dpos := r.dpos + 1 }) hfull,
            quantumLoop_of_full (q := { r' with dpos := r'.dpos + 1 }) hfull']
          refine ⟨[ch], rest, rfl, hstep, hstep', hcounts'.2.symm, .inr (.inl ?_),
            fun _ => ⟨[], ch, rfl, hsp⟩⟩
          have hcount := hstep.count
          dsimp only at hcount ⊢
          omega

/-- A quantum of a text with whitespace, and of the text without it. -/
theorem getNextQuantum_white (illegalPads : Bool) {data' : List UInt8} {dpos' : ℕ}
    (hw : parseFlags ≠ DO_PARSE_STRICT) (hany : parseFlags ≠ DO_PARSE_ANY)
    (hdrop : data'.drop dpos' = squeeze (data.drop dpos)) :
    ∃ used left q q', data.drop dpos = used ++ left ∧
      Scanned parseFlags illegalPads dpos used q ∧
      Scanned DO_PARSE_STRICT illegalPads dpos' (squeeze used) q' ∧ q.padLen = q'.padLen ∧
      (left = [] ∨ q.byteLen = 4 ∨ squeeze left ≠ []) ∧
      (q.byteLen = 4 → ∃ l ch, used = l ++ [ch] ∧ isSpace ch = false) ∧
      getNextQuantum parseFlags illegalPads data dpos =
        (q.byteLen, values used ++ List.replicate (4 - q.byteLen) 0, q.stop, q.padded) ∧
      getNextQuantum DO_PARSE_STRICT illegalPads data' dpos' =
        (q'.byteLen, values (squeeze used) ++ List.replicate (4 - q'.byteLen) 0, q'.stop,
          q'.padded) := by
  obtain ⟨used, left, hrest, hs, hs', hpad, hend, hlast⟩ := quantumLoop_white hw hany
    (scanned_nil parseFlags illegalPads dpos) (scanned_nil DO_PARSE_STRICT illegalPads dpos') rfl
    (by simp) (data.drop dpos)
  rw [List.nil_append] at hs hs'
  exact ⟨used, left, _, _, hrest, hs, hs', hpad, hend, hlast, getNextQuantum_eq rfl hs,
    getNextQuantum_eq (by rw [hdrop]) hs'⟩

/-- The text ends with whitespace, and has no padding. -/
def EndsInSpace (text : List UInt8) : Prop :=
  kPad ∉ text ∧ ∃ l ch, text = l ++ [ch] ∧ isSpace ch = true

theorem isSpace_kPad : isSpace kPad = false := by
  rw [isSpace, valueOf_kPad]
  decide

theorem kPad_mem_squeeze {text : List UInt8} : kPad ∈ squeeze text ↔ kPad ∈ text := by
  rw [squeeze, List.mem_filter, isSpace_kPad]
  simp

theorem kPad_not_mem_map {vs : List UInt8} (hv : ∀ v ∈ vs, v < 64) : kPad ∉ vs.map charOf := by
  intro h
  obtain ⟨v, hmem, heq⟩ := List.mem_map.mp h
  have hpd := valueOf_charOf (hv v hmem)
  rw [heq, valueOf_kPad] at hpd
  have hlt := hv v hmem
  rw [← hpd] at hlt
  exact absurd hlt (by decide)

/-- Padding has been gone over where it has been counted. -/
theorem Scanned.kPad_mem_iff (hany : parseFlags ≠ DO_PARSE_ANY)
    (h : Scanned parseFlags illegalPads start used q) : kPad ∈ used ↔ 0 < q.padLen := by
  rw [← kPad_mem_squeeze, squeeze, h.plain hany, List.mem_append, List.mem_replicate]
  have hnot : kPad ∉ (values used).map charOf := kPad_not_mem_map fun _ => lt_of_mem_values
  constructor
  · rintro (hmem | hmem)
    · exact absurd hmem hnot
    · omega
  · intro hpos
    exact .inr ⟨by omega, rfl⟩

/-- A quantum without padding in front does not matter for the end. -/
theorem endsInSpace_append {l : List UInt8} (hl : isSpace ch = false) (hpad : kPad ∉ l ++ [ch])
    (text : List UInt8) : EndsInSpace (l ++ [ch] ++ text) ↔ EndsInSpace text := by
  rcases List.eq_nil_or_concat text with rfl | ⟨text, c, rfl⟩
  · have hleft : ¬ EndsInSpace (l ++ [ch] ++ []) := by
      rintro ⟨-, l', c, heq, hc⟩
      rw [List.append_nil] at heq
      have hch : ch = c := by simpa using (List.append_inj' heq rfl).2
      rw [← hch, hl] at hc
      cases hc
    have hright : ¬ EndsInSpace [] := by
      rintro ⟨-, l', c, heq, -⟩
      simp at heq
    exact iff_of_false hleft hright
  · rw [List.concat_eq_append, EndsInSpace, EndsInSpace, ← List.append_assoc]
    have hmem : kPad ∉ l ++ [ch] ++ text ++ [c] ↔ kPad ∉ text ++ [c] := by
      rw [List.append_assoc, List.mem_append, not_or]
      exact and_iff_right hpad
    refine and_congr hmem ⟨?_, ?_⟩
    · rintro ⟨l', c', heq, hc⟩
      have hc' : c = c' := by simpa using (List.append_inj' heq rfl).2
      exact ⟨text, c, rfl, hc' ▸ hc⟩
    · rintro ⟨l', c', heq, hc⟩
      have hc' : c = c' := by simpa using (List.append_inj' heq rfl).2
      exact ⟨_, c, rfl, hc' ▸ hc⟩

/-- All of the text is used by the last turn if nothing is left and padding is not given back. -/
theorem Scanned.stop_eq_iff (hs : Scanned parseFlags illegalPads dpos used q)
    (hle : dpos ≤ data.length) (hdrop : data.drop dpos = used ++ left) :
    q.stop = data.length ↔ left = [] ∧ (q.padded = true ∨ q.padLen = 0) := by
  have hlen : data.length = dpos + used.length + left.length := by
    rw [Nat.add_assoc, ← List.length_append, ← hdrop, List.length_drop]
    omega
  have hdpos := hs.dpos
  rw [← List.length_eq_zero_iff]
  by_cases hfull : 4 = q.byteLen + q.padLen
  · have hpadded : q.padded = true := decide_eq_true hfull
    rw [Quantum.stop_of_full hfull, hpadded]
    simp only [true_or, and_true]
    omega
  · have hpadded : q.padded = false := decide_eq_false hfull
    rw [Quantum.stop_of_not_full hfull, hpadded]
    simp only [Bool.false_eq_true, false_or]
    by_cases hzero : q.padLen = 0
    · rw [if_neg (by omega)]
      omega
    · obtain ⟨before, pads, rfl, hne, hstart, -⟩ := hs.padStart (by omega)
      have hpos : 0 < pads.length := List.length_pos_iff.mpr hne
      rw [List.length_append] at hlen
      rw [if_pos hzero]
      omega

theorem exists_concat_space {text : List UInt8} (h : squeeze text = []) (hne : text ≠ []) :
    ∃ l ch, text = l ++ [ch] ∧ isSpace ch = true := by
  rcases List.eq_nil_or_concat text with rfl | ⟨l, ch, rfl⟩
  · exact absurd rfl hne
  · refine ⟨l, ch, List.concat_eq_append, ?_⟩
    by_contra hch
    rw [List.concat_eq_append, squeeze_append, squeeze_cons (by simpa using hch)] at h
    simp at h

/-- **The decoder on a text with whitespace**, and on the text without it. -/
theorem decodeLoop_white (hw : parseFlags ≠ DO_PARSE_STRICT) (hany : parseFlags ≠ DO_PARSE_ANY)
    (padFlags termFlags : ℕ) {data' : List UInt8} (n : ℕ) {dpos dpos' : ℕ} (result : List UInt8)
    (hn : data.length - dpos = n) (hle : dpos ≤ data.length) (hle' : dpos' ≤ data'.length)
    (hdrop : data'.drop dpos' = squeeze (data.drop dpos)) :
    let r := decodeLoop parseFlags padFlags termFlags data result dpos
    let r' := decodeLoop DO_PARSE_STRICT padFlags termFlags data' result dpos'
    r.2.1 = r'.2.1 ∧
      (r.1 = true ↔ r'.1 = true ∧ ¬ (padFlags = DO_PAD_YES ∧ EndsInSpace (data.drop dpos))) ∧
      (r.2.2 = data.length ↔ r'.2.2 = data'.length) := by
  induction n using Nat.strong_induction_on generalizing dpos dpos' result with
  | _ n ih =>
    have hlen' : data'.length = dpos' + (squeeze (data.drop dpos)).length := by
      rw [← hdrop, List.length_drop]
      omega
    by_cases hlt : dpos < data.length
    · obtain ⟨used, left, q, q', hrest, hs, hs', hpad, hend, hlast, heq, heq'⟩ :=
        getNextQuantum_white (padFlags = DO_PAD_NO) hw hany hdrop
      have hrest' : data'.drop dpos' = squeeze used ++ squeeze left := by
        rw [hdrop, hrest, squeeze_append]
      have hb : q.byteLen = q'.byteLen := hs.byteLen_eq hs' (values_squeeze used).symm
      have hpadded : q.padded = q'.padded := by rw [Quantum.padded, Quantum.padded, hb, hpad]
      by_cases hlt' : dpos' < data'.length
      · by_cases hq : q.byteLen < 4
        · -- The last turn of both.
          have hleft : left = [] ↔ squeeze left = [] := by
            constructor
            · rintro rfl
              rfl
            · intro h
              exact hend.resolve_right fun hn => hn.elim (by omega) fun hn => hn h
          rw [decodeLoop_last _ _ hlt hs hq heq, decodeLoop_last _ _ hlt' hs' (by omega) heq']
          refine ⟨by rw [values_squeeze], ?_, ?_⟩
          · simp only [decide_eq_true_iff, values_squeeze, hpadded, iff_self_and]
            rintro ⟨-, hyes⟩ ⟨h, hspace⟩
            have hfull : 4 = q'.byteLen + q'.padLen := of_decide_eq_true (hyes h)
            have hmem := (hs.kPad_mem_iff hany).mpr (by omega)
            rw [hrest] at hspace
            exact hspace.1 (List.mem_append_left left hmem)
          · rw [hs.stop_eq_iff hle hrest, hs'.stop_eq_iff hle' hrest', hleft, hpadded, hpad]
        · -- A full quantum of both.
          have hfour : q.byteLen = 4 := by
            have := hs.count
            omega
          have hzero : q.padLen = 0 := by
            have := hs.count
            omega
          obtain ⟨l, ch, rfl, hch⟩ := hlast hfour
          have hnot : kPad ∉ l ++ [ch] := by
            rw [hs.kPad_mem_iff hany, hzero]
            exact Nat.lt_irrefl 0
          rw [decodeLoop_next hlt hs hfour heq, decodeLoop_next hlt' hs' (by omega) heq',
            values_squeeze]
          have hleft : data.drop (dpos + (l ++ [ch]).length) = left := by
            rw [← List.drop_drop, hrest, List.drop_left]
          have hleft' : data'.drop (dpos' + (squeeze (l ++ [ch])).length) = squeeze left := by
            rw [← List.drop_drop, hrest', List.drop_left]
          have hlen : data.length - dpos = (l ++ [ch]).length + left.length := by
            rw [← List.length_append, ← hrest, List.length_drop]
          have hpos : 0 < (l ++ [ch]).length := by simp
          rw [← hdrop, hrest', List.length_append] at hlen'
          obtain ⟨h1, h2, h3⟩ := ih (data.length - (dpos + (l ++ [ch]).length)) (by omega)
            (result ++ octets (values (l ++ [ch]))) rfl (by omega)
            (show dpos' + (squeeze (l ++ [ch])).length ≤ data'.length by omega)
            (by rw [hleft, hleft'])
          refine ⟨h1, ?_, h3⟩
          rw [h2, hleft, hrest, endsInSpace_append hch hnot]
      · -- Only whitespace is left.
        have hnil : squeeze used ++ squeeze left = [] := by
          rw [← hrest', List.drop_of_length_le (by omega)]
        obtain ⟨hused, hsleft⟩ := List.append_eq_nil_iff.mp hnil
        have hvalues : values used = [] := by rw [← values_squeeze, hused]; rfl
        have hbyte : q.byteLen = 0 := by rw [hs.byteLen, hvalues]; rfl
        have hleft : left = [] :=
          hend.resolve_right fun hn => hn.elim (by omega) fun hn => hn hsleft
        have hnot : kPad ∉ used := by
          rw [← kPad_mem_squeeze, hused]
          exact List.not_mem_nil
        have hzero : q.padLen = 0 := by
          rw [hs.kPad_mem_iff hany] at hnot
          omega
        have hnotpadded : q.padded = false := decide_eq_false (by omega)
        rw [decodeLoop_last _ _ hlt hs (by omega) heq, decodeLoop.eq_def DO_PARSE_STRICT,
          if_neg hlt']
        refine ⟨by simp [hvalues, octets], ?_, ?_⟩
        · have hspace : EndsInSpace (data.drop dpos) := by
            rw [hrest, hleft, List.append_nil]
            refine ⟨hnot, exists_concat_space hused ?_⟩
            rintro rfl
            rw [hleft, List.append_nil, List.drop_eq_nil_iff] at hrest
            omega
          simp only [hvalues, hnotpadded, hspace, decide_eq_true_iff, spare, and_true, true_and,
            or_true, Bool.false_eq_true, imp_false]
        · rw [hs.stop_eq_iff hle hrest]
          simp only [hleft, hzero, or_true, and_true, true_iff]
          omega
    · have hnil : data.drop dpos = [] := List.drop_of_length_le (by omega)
      have hnil' : squeeze (data.drop dpos) = [] := by rw [hnil]; rfl
      rw [hnil', List.length_nil] at hlen'
      have hspace : ¬ EndsInSpace (data.drop dpos) := by
        rintro ⟨-, l, ch, h, -⟩
        rw [hnil] at h
        simp at h
      rw [decodeLoop.eq_def parseFlags, if_neg hlt, decodeLoop.eq_def DO_PARSE_STRICT,
        if_neg (by omega)]
      refine ⟨rfl, by simp [hspace], ?_⟩
      dsimp only
      omega

/-- **A text with whitespace**, where that is allowed, gives the same bytes as the text without it.
It is accepted like the text without it, with one exception: where padding is required, a text
without padding may not end with whitespace. -/
theorem decodeFromArray_white {flags flags' : ℕ} (hparse : flags &&& DO_PARSE_MASK = DO_PARSE_WHITE)
    (hparse' : flags' &&& DO_PARSE_MASK = DO_PARSE_STRICT)
    (hpad : flags' &&& DO_PAD_MASK = flags &&& DO_PAD_MASK)
    (hterm : flags' &&& DO_TERM_MASK = flags &&& DO_TERM_MASK) (text : List UInt8) :
    (decodeFromArray text flags).2.1 = (decodeFromArray (squeeze text) flags').2.1 ∧
      ((decodeFromArray text flags).1 = true ↔
        (decodeFromArray (squeeze text) flags').1 = true ∧
          ¬ (flags &&& DO_PAD_MASK = DO_PAD_YES ∧ EndsInSpace text)) := by
  have hw : DO_PARSE_WHITE ≠ DO_PARSE_STRICT := by decide
  have hany : DO_PARSE_WHITE ≠ DO_PARSE_ANY := by decide
  obtain ⟨h1, h2, h3⟩ := decodeLoop_white hw hany (flags &&& DO_PAD_MASK) (flags &&& DO_TERM_MASK)
    text.length [] (Nat.sub_zero _) (Nat.zero_le text.length) (Nat.zero_le (squeeze text).length)
    rfl
  rw [List.drop_zero] at h2
  simp only [decodeFromArray, hparse, hparse', hpad, hterm]
  by_cases hbuffer : flags &&& DO_TERM_MASK = DO_TERM_BUFFER
  · by_cases hend : (decodeLoop DO_PARSE_STRICT (flags &&& DO_PAD_MASK) (flags &&& DO_TERM_MASK)
        (squeeze text) [] 0).2.2 = (squeeze text).length
    · rw [if_neg fun h => h.2 (h3.mpr hend), if_neg fun h => h.2 hend]
      exact ⟨h1, h2⟩
    · rw [if_pos ⟨hbuffer, fun h => hend (h3.mp h)⟩, if_pos ⟨hbuffer, hend⟩]
      exact ⟨h1, by simp⟩
  · rw [if_neg fun h => hbuffer h.1, if_neg fun h => hbuffer h.1]
    exact ⟨h1, h2⟩

/-- A newline behind the text of full quanta is refused, where padding is required. -/
theorem decodeFromArray_newline :
    (decodeFromArray ("QUJD\n".toList.map Char.toUInt8)
      (DO_PARSE_WHITE ||| DO_PAD_YES ||| DO_TERM_CHAR)).1 = false := by
  have hspace : EndsInSpace ("QUJD\n".toList.map Char.toUInt8) :=
    ⟨by decide, "QUJD".toList.map Char.toUInt8, '\n'.toUInt8, by decide, by decide +kernel⟩
  have hparse : (DO_PARSE_WHITE ||| DO_PAD_YES ||| DO_TERM_CHAR) &&& DO_PARSE_MASK =
      DO_PARSE_WHITE := by decide
  have hparse' : (DO_PARSE_STRICT ||| DO_PAD_YES ||| DO_TERM_CHAR) &&& DO_PARSE_MASK =
      DO_PARSE_STRICT := by decide
  have h := (decodeFromArray_white hparse hparse' (by decide) (by decide)
    ("QUJD\n".toList.map Char.toUInt8)).2
  rw [Bool.eq_false_iff]
  exact fun hn => (h.mp hn).2 ⟨by decide, hspace⟩

end Base64

end TQLib
