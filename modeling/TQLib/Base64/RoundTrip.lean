import TQLib.Base64.Quantum

/-!
# What is encoded is decoded

The text of some bytes is the characters of their sextets, and padding up to a multiple of four. The
encoder writes exactly that. The decoder goes over it in full quanta and one which is padded, and
the strict mode accepts nothing else.

## Main results

* `encodeFromArray_eq` — what is encoded
* `decodeFromArray_textOf` — the round trip, for all flags
* `decodeFromArray_strict_iff` — what the strict mode accepts
-/

namespace TQLib

namespace Base64

open StringEncode (store store_append getElem?_append_cons)

/-- The padding of a text of some bytes. -/
def padding (x : List UInt8) : List UInt8 := List.replicate ((3 - x.length % 3) % 3) kPad

/-- The text of some bytes. -/
def textOf (x : List UInt8) : List UInt8 := (sextets x).map charOf ++ padding x

theorem textOf_cons_cons_cons (a b c : UInt8) (x : List UInt8) :
    textOf (a :: b :: c :: x) =
      [charOf (sextet₁ a), charOf (sextet₂ a b), charOf (sextet₃ b c), charOf (sextet₄ c)] ++
        textOf x := by
  have hmod : (x.length + 1 + 1 + 1) % 3 = x.length % 3 := by omega
  simp [textOf, sextets, padding, hmod]

theorem length_textOf (x : List UInt8) : (textOf x).length = (x.length + 2) / 3 * 4 := by
  rw [textOf, List.length_append, List.length_map, length_sextets, padding, List.length_replicate]
  omega

/-! ## The encoder -/

variable {done out free rest : List UInt8} {i destIx : ℕ}

/-- Four characters are stored one behind the other. -/
theorem store_four (hd : destIx = out.length) (c₁ c₂ c₃ c₄ w x y z : UInt8) (free : List UInt8) :
    store (out ++ w :: x :: y :: z :: free) destIx c₁ = some (out ++ [c₁] ++ x :: y :: z :: free) ∧
    store (out ++ [c₁] ++ x :: y :: z :: free) (destIx + 1) c₂ =
      some (out ++ [c₁] ++ [c₂] ++ y :: z :: free) ∧
    store (out ++ [c₁] ++ [c₂] ++ y :: z :: free) (destIx + 2) c₃ =
      some (out ++ [c₁] ++ [c₂] ++ [c₃] ++ z :: free) ∧
    store (out ++ [c₁] ++ [c₂] ++ [c₃] ++ z :: free) (destIx + 3) c₄ =
      some (out ++ [c₁, c₂, c₃, c₄] ++ free) := by
  refine ⟨store_append hd .., store_append (by simp [hd]) .., store_append (by simp [hd]) .., ?_⟩
  rw [store_append (by simp [hd])]
  simp

/-- A turn with one byte left. -/
theorem encodeTurn_one (hi : i = done.length) (hd : destIx = out.length) (a w x y z : UInt8) :
    encodeTurn (done ++ [a]) (out ++ w :: x :: y :: z :: free) i destIx =
      some (out ++ textOf [a] ++ free, i + 1, destIx + 4) := by
  have ha : (done ++ [a])[i]? = some a := getElem?_append_cons hi ..
  have hend : ¬ i + 1 < (done ++ [a]).length := by simp [hi]
  have h1 : base64Table[(a >>> 2 &&& 0x3f).toNat]? = some (charOf (sextet₁ a)) :=
    base64Table_getElem? (sextet₁_lt a)
  have hnext : withNext (done ++ [a]) (i + 1) (a <<< 4 &&& 0x3f) 4 0x0f = some (sextet₂ a 0) := by
    rw [withNext, if_neg hend]
    simp [sextet₂]
  obtain ⟨s1, s2, s3, s4⟩ :=
    store_four hd (charOf (sextet₁ a)) (charOf (sextet₂ a 0)) kPad kPad w x y z free
  simp only [encodeTurn, Option.bind_eq_bind, Option.bind_some, ha, h1, s1, hnext,
    base64Table_getElem? (sextet₂_lt a 0), s2, if_neg hend, s3, s4]
  rfl

/-- A turn with two bytes left. -/
theorem encodeTurn_two (hi : i = done.length) (hd : destIx = out.length) (a b w x y z : UInt8) :
    encodeTurn (done ++ [a, b]) (out ++ w :: x :: y :: z :: free) i destIx =
      some (out ++ textOf [a, b] ++ free, i + 2, destIx + 4) := by
  have ha : (done ++ [a, b])[i]? = some a := getElem?_append_cons hi ..
  have hb : (done ++ [a, b])[i + 1]? = some b := by
    rw [List.append_cons]
    exact getElem?_append_cons (by simp [hi]) ..
  have hlt : i + 1 < (done ++ [a, b]).length := by simp [hi]
  have hend : ¬ i + 2 < (done ++ [a, b]).length := by simp [hi]
  have h1 : base64Table[(a >>> 2 &&& 0x3f).toNat]? = some (charOf (sextet₁ a)) :=
    base64Table_getElem? (sextet₁_lt a)
  have hnext : withNext (done ++ [a, b]) (i + 1) (a <<< 4 &&& 0x3f) 4 0x0f =
      some (sextet₂ a b) := by
    rw [withNext, if_pos hlt, hb]
    rfl
  have hnext' : withNext (done ++ [a, b]) (i + 2) (b <<< 2 &&& 0x3f) 6 0x03 =
      some (sextet₃ b 0) := by
    rw [withNext, if_neg hend]
    simp [sextet₃]
  obtain ⟨s1, s2, s3, s4⟩ :=
    store_four hd (charOf (sextet₁ a)) (charOf (sextet₂ a b)) (charOf (sextet₃ b 0)) kPad w x y z
      free
  simp only [encodeTurn, Option.bind_eq_bind, Option.bind_some, ha, h1, s1, hnext,
    base64Table_getElem? (sextet₂_lt a b), s2, if_pos hlt, hb, hnext',
    base64Table_getElem? (sextet₃_lt b 0), s3, if_neg hend, s4]
  rfl

/-- A turn with three bytes or more left. -/
theorem encodeTurn_three (hi : i = done.length) (hd : destIx = out.length) (a b c w x y z : UInt8) :
    encodeTurn (done ++ a :: b :: c :: rest) (out ++ w :: x :: y :: z :: free) i destIx =
      some (out ++ [charOf (sextet₁ a), charOf (sextet₂ a b), charOf (sextet₃ b c),
        charOf (sextet₄ c)] ++ free, i + 3, destIx + 4) := by
  have ha : (done ++ a :: b :: c :: rest)[i]? = some a := getElem?_append_cons hi ..
  have hb : (done ++ a :: b :: c :: rest)[i + 1]? = some b := by
    rw [List.append_cons]
    exact getElem?_append_cons (by simp [hi]) ..
  have hc : (done ++ a :: b :: c :: rest)[i + 2]? = some c := by
    rw [List.append_cons, List.append_cons]
    exact getElem?_append_cons (by simp [hi]) ..
  have hlt : i + 2 < (done ++ a :: b :: c :: rest).length := by simp [hi]
  have hlt' : i + 1 < (done ++ a :: b :: c :: rest).length := by omega
  have h1 : base64Table[(a >>> 2 &&& 0x3f).toNat]? = some (charOf (sextet₁ a)) :=
    base64Table_getElem? (sextet₁_lt a)
  have h4 : base64Table[(c &&& 0x3f).toNat]? = some (charOf (sextet₄ c)) :=
    base64Table_getElem? (sextet₄_lt c)
  have hnext : withNext (done ++ a :: b :: c :: rest) (i + 1) (a <<< 4 &&& 0x3f) 4 0x0f =
      some (sextet₂ a b) := by
    rw [withNext, if_pos hlt', hb]
    rfl
  have hnext' : withNext (done ++ a :: b :: c :: rest) (i + 2) (b <<< 2 &&& 0x3f) 6 0x03 =
      some (sextet₃ b c) := by
    rw [withNext, if_pos hlt, hc]
    rfl
  obtain ⟨s1, s2, s3, s4⟩ :=
    store_four hd (charOf (sextet₁ a)) (charOf (sextet₂ a b)) (charOf (sextet₃ b c))
      (charOf (sextet₄ c)) w x y z free
  simp only [encodeTurn, Option.bind_eq_bind, Option.bind_some, ha, h1, s1, hnext,
    base64Table_getElem? (sextet₂_lt a b), s2, if_pos hlt', hb, hnext',
    base64Table_getElem? (sextet₃_lt b c), s3, if_pos hlt, hc, h4, s4]
  rfl

/-- A list which is long enough begins with four elements. -/
theorem exists_four (free : List UInt8) {n : ℕ} (h : free.length = n + 4) :
    ∃ w x y z free', free = w :: x :: y :: z :: free' ∧ free'.length = n := by
  match free with
  | w :: x :: y :: z :: free' => exact ⟨w, x, y, z, free', rfl, by simpa using h⟩

theorem encodeLoop_of_lt {byteData result result' : List UInt8} {i' destIx' : ℕ}
    (hlt : i < byteData.length)
    (h : encodeTurn byteData result i destIx = some (result', i', destIx')) :
    encodeLoop byteData result i destIx = encodeLoop byteData result' i' destIx' := by
  rw [encodeLoop, if_pos hlt]
  split
  · next heq =>
    rw [h] at heq
    cases heq
    rfl
  · next heq =>
    rw [h] at heq
    cases heq

/-- Nothing is left. -/
theorem encodeLoop_end {byteData result : List UInt8} (hi : byteData.length ≤ i) :
    encodeLoop byteData result i destIx = some result := by
  rw [encodeLoop, if_neg (Nat.not_lt.mpr hi)]

/-- **The bytes from a position on** are encoded behind what has been. -/
theorem encodeLoop_eq (hi : i = done.length) (hd : destIx = out.length)
    (hfree : free.length = (rest.length + 2) / 3 * 4) :
    encodeLoop (done ++ rest) (out ++ free) i destIx = some (out ++ textOf rest) := by
  induction rest using sextets.induct generalizing done out free i destIx with
  | case1 =>
    have hnil : free = [] := by simpa using hfree
    rw [encodeLoop_end (by simp [hi]), hnil]
    rfl
  | case2 a =>
    obtain ⟨w, x, y, z, free, rfl, hnil⟩ := exists_four free (n := 0) (by simpa using hfree)
    rw [encodeLoop_of_lt (by simp [hi]) (encodeTurn_one hi hd a w x y z),
      encodeLoop_end (by simp [hi]), List.length_eq_zero_iff.mp hnil, List.append_nil]
  | case3 a b =>
    obtain ⟨w, x, y, z, free, rfl, hnil⟩ := exists_four free (n := 0) (by simpa using hfree)
    rw [encodeLoop_of_lt (by simp [hi]) (encodeTurn_two hi hd a b w x y z),
      encodeLoop_end (by simp [hi]), List.length_eq_zero_iff.mp hnil, List.append_nil]
  | case4 a b c rest ih =>
    obtain ⟨w, x, y, z, free, rfl, hfree'⟩ :=
      exists_four free (n := (rest.length + 2) / 3 * 4) (by
        rw [hfree, List.length_cons, List.length_cons, List.length_cons]
        omega)
    have hdone : done ++ a :: b :: c :: rest = (done ++ [a, b, c]) ++ rest := by simp
    rw [encodeLoop_of_lt (by simp [hi]) (encodeTurn_three hi hd a b c w x y z), hdone,
      ih (by simp [hi]) (by simp [hd]) hfree', textOf_cons_cons_cons, List.append_assoc]

/-- **What is encoded.** The buffer is filled, and nothing is stored outside of it. -/
theorem encodeFromArray_eq (x : List UInt8) : encodeFromArray x = some (textOf x) := by
  have hlen : (List.replicate ((x.length + 2) / 3 * 4) (0 : UInt8)).length =
      (x.length + 2) / 3 * 4 := List.length_replicate
  have h : encodeLoop ([] ++ x) ([] ++ List.replicate ((x.length + 2) / 3 * 4) 0) 0 0 =
      some ([] ++ textOf x) := encodeLoop_eq rfl rfl hlen
  exact h

/-! ## The decoder -/

variable {parseFlags padFlags termFlags dpos start : ℕ} {illegalPads : Bool}
  {data result used vs : List UInt8} {q : Quantum}

/-- What becomes of the sextets of a quantum. -/
theorem quantumBytes_eq (h : vs.length ≤ 4) :
    quantumBytes vs.length (vs ++ List.replicate (4 - vs.length) 0) = (octets vs, spare vs) := by
  match vs with
  | [] => rfl
  | [_] => rfl
  | [_, _] => rfl
  | [_, _, _] => rfl
  | [_, _, _, _] => rfl

theorem Scanned.length_le (h : Scanned parseFlags illegalPads start used q) :
    (values used).length ≤ 4 := by
  have hb := h.byteLen
  have hc := h.count
  omega

/-- **A turn of the decoder** which is the last. -/
theorem decodeLoop_last (result : List UInt8) (termFlags : ℕ) (hlt : dpos < data.length)
    (hs : Scanned parseFlags (padFlags = DO_PAD_NO) dpos used q) (hq : q.byteLen < 4)
    (h : getNextQuantum parseFlags (padFlags = DO_PAD_NO) data dpos =
      (q.byteLen, values used ++ List.replicate (4 - q.byteLen) 0, q.stop, q.padded)) :
    decodeLoop parseFlags padFlags termFlags data result dpos =
      (decide ((termFlags = DO_TERM_ANY ∨ spare (values used) = 0) ∧
          (padFlags = DO_PAD_YES → q.padded = true)),
        result ++ octets (values used), q.stop) := by
  have hq' : (getNextQuantum parseFlags (padFlags = DO_PAD_NO) data dpos).1 < 4 := by rwa [h]
  rw [decodeLoop, if_pos hlt]
  dsimp only
  rw [dif_pos hq', h, hs.byteLen, quantumBytes_eq hs.length_le]
  by_cases h1 : termFlags = DO_TERM_ANY
  · by_cases h2 : padFlags = DO_PAD_YES <;> simp [h1, h2]
  · by_cases h2 : padFlags = DO_PAD_YES <;> by_cases h3 : spare (values used) = 0 <;>
      simp [h1, h2, h3]

/-- **A turn of the decoder** which is not. -/
theorem decodeLoop_next (hlt : dpos < data.length)
    (hs : Scanned parseFlags (padFlags = DO_PAD_NO) dpos used q) (hq : q.byteLen = 4)
    (h : getNextQuantum parseFlags (padFlags = DO_PAD_NO) data dpos =
      (q.byteLen, values used ++ List.replicate (4 - q.byteLen) 0, q.stop, q.padded)) :
    decodeLoop parseFlags padFlags termFlags data result dpos =
      decodeLoop parseFlags padFlags termFlags data (result ++ octets (values used))
        (dpos + used.length) := by
  have hq' : ¬ (getNextQuantum parseFlags (padFlags = DO_PAD_NO) data dpos).1 < 4 := by
    rw [h]
    omega
  have hstop : q.stop = dpos + used.length := by
    rw [Quantum.stop_of_full (by have := hs.count; omega), hs.dpos]
  rw [decodeLoop, if_pos hlt]
  dsimp only
  rw [dif_neg hq', h, hs.byteLen, quantumBytes_eq hs.length_le, hstop]

/-! ## The text of bytes is decoded -/



/-- A character is gone over. -/
theorem quantumLoop_cons (ch : UInt8) (rest : List UInt8) (q' : Quantum)
    (h : Scanned parseFlags illegalPads start used q) (hlt : q.byteLen < 4) (hq : ∀ p : Quantum,
      p.byteLen = q.byteLen → p.padLen = q.padLen →
        ∃ p', quantumBody parseFlags illegalPads (valueOf ch) p = some p' ∧
          p'.byteLen = q'.byteLen ∧ p'.padLen = q'.padLen) :
    ∃ p, Scanned parseFlags illegalPads start (used ++ [ch]) p ∧ p.byteLen = q'.byteLen ∧
      p.padLen = q'.padLen ∧
      quantumLoop parseFlags illegalPads (ch :: rest) q =
        quantumLoop parseFlags illegalPads rest p := by
  have hset := h.set (valueOf ch)
  have hslot : (q.qbuf.set q.byteLen (valueOf ch))[q.byteLen]? = some (valueOf ch) := by
    rw [List.getElem?_set_self (by rw [h.room]; exact hlt)]
  obtain ⟨p', hp', hbyte, hpad⟩ := hq { q with qbuf := q.qbuf.set q.byteLen (valueOf ch) } rfl rfl
  refine ⟨_, hset.step hlt hslot hp', hbyte, hpad, ?_⟩
  simp only [quantumLoop, if_pos hlt, ← valueOf.eq_def, hp']

/-- Characters of the alphabet are counted. -/
theorem quantumLoop_data (h : Scanned parseFlags illegalPads start used q)
    (hpad : q.padLen = 0) (hv : ∀ v ∈ vs, v < 64) (hlen : q.byteLen + vs.length ≤ 4)
    (rest : List UInt8) :
    ∃ p, Scanned parseFlags illegalPads start (used ++ vs.map charOf) p ∧
      p.byteLen = q.byteLen + vs.length ∧ p.padLen = 0 ∧
      quantumLoop parseFlags illegalPads (vs.map charOf ++ rest) q =
        quantumLoop parseFlags illegalPads rest p := by
  induction vs generalizing used q with
  | nil => exact ⟨q, by simpa using h, rfl, hpad, rfl⟩
  | cons v vs ih =>
    simp only [List.mem_cons, forall_eq_or_imp] at hv
    rw [List.length_cons] at hlen
    have hlt : valueOf (charOf v) < 64 := by rw [valueOf_charOf hv.1]; exact hv.1
    obtain ⟨p, hs, hbyte, hpad', heq⟩ := quantumLoop_cons (charOf v) (vs.map charOf ++ rest) q.data
      h (by omega) (fun p hpb hpp => show ∃ p', quantumBody parseFlags illegalPads _ p = _ ∧ _ by
        rw [quantumBody_of_lt hlt, if_neg (by omega)]
        exact ⟨_, rfl, by simp [Quantum.data, hpb], rfl⟩)
    obtain ⟨p', hs', hbyte', hpad'', heq'⟩ := ih hs hpad' hv.2 (by
      rw [hbyte, Quantum.data]
      dsimp only
      omega)
    refine ⟨p', ?_, ?_, hpad'', ?_⟩
    · simpa using hs'
    · rw [hbyte', hbyte, Quantum.data, List.length_cons]
      dsimp only
      omega
    · rw [List.map_cons, List.cons_append, heq, heq']

/-- Padding is counted. -/
theorem quantumLoop_pads (h : Scanned parseFlags false start used q) (htwo : 2 ≤ q.byteLen) {n : ℕ}
    (hlen : q.byteLen + q.padLen + n ≤ 4) (rest : List UInt8) :
    ∃ p, Scanned parseFlags false start (used ++ List.replicate n kPad) p ∧ p.byteLen = q.byteLen ∧
      p.padLen = q.padLen + n ∧
      quantumLoop parseFlags false (List.replicate n kPad ++ rest) q =
        quantumLoop parseFlags false rest p := by
  induction n generalizing used q with
  | zero => exact ⟨q, by simpa using h, rfl, rfl, rfl⟩
  | succ n ih =>
    obtain ⟨p, hs, hbyte, hpad, heq⟩ := quantumLoop_cons kPad (List.replicate n kPad ++ rest) q.pad
      h (by omega) (fun p hpb hpp => show ∃ p', quantumBody parseFlags false _ p = _ ∧ _ by
        rw [valueOf_kPad, quantumBody_pd, if_pos ⟨rfl, by omega, by omega⟩]
        exact ⟨_, rfl, hpb, by simp [Quantum.pad, hpp]⟩)
    have hbyte' : p.byteLen = q.byteLen := hbyte
    have hpad' : p.padLen = q.padLen + 1 := hpad
    obtain ⟨p', hs', hb, hp, heq'⟩ := ih hs (by omega) (by omega)
    refine ⟨p', ?_, by omega, by omega, ?_⟩
    · simpa [List.replicate_succ] using hs'
    · rw [List.replicate_succ, List.cons_append, heq, heq']

/-- With all characters allowed, padding that is not is passed over. -/
theorem quantumLoop_pass (h : Scanned DO_PARSE_ANY true start used q) (hlt : q.byteLen < 4)
    (n : ℕ) :
    ∃ p, Scanned DO_PARSE_ANY true start (used ++ List.replicate n kPad) p ∧ p.byteLen = q.byteLen ∧
      p.padLen = q.padLen ∧ quantumLoop DO_PARSE_ANY true (List.replicate n kPad) q = p := by
  induction n generalizing used q with
  | zero => exact ⟨q, by simpa using h, rfl, rfl, rfl⟩
  | succ n ih =>
    obtain ⟨p, hs, hbyte, hpad, heq⟩ := quantumLoop_cons kPad (List.replicate n kPad) q h hlt
      (fun p hpb hpp => show ∃ p', quantumBody DO_PARSE_ANY true _ p = _ ∧ _ by
        rw [valueOf_kPad, quantumBody_pd, if_neg (by simp), if_neg (by simp)]
        exact ⟨_, rfl, hpb, hpp⟩)
    obtain ⟨p', hs', hb, hp, heq'⟩ := ih hs (by omega)
    refine ⟨p', ?_, by omega, by omega, ?_⟩
    · simpa [List.replicate_succ] using hs'
    · rw [List.replicate_succ, heq, heq']

/-- Unless all characters are allowed, the loop stops at padding that is not. -/
theorem quantumLoop_stop (h : Scanned parseFlags true start used q)
    (hany : parseFlags ≠ DO_PARSE_ANY) (rest : List UInt8) :
    ∃ p, Scanned parseFlags true start used p ∧ p.byteLen = q.byteLen ∧ p.padLen = q.padLen ∧
      quantumLoop parseFlags true (kPad :: rest) q = p := by
  by_cases hlt : q.byteLen < 4
  · refine ⟨_, h.set (valueOf kPad), rfl, rfl, ?_⟩
    simp only [quantumLoop, if_pos hlt, ← valueOf.eq_def]
    rw [valueOf_kPad, quantumBody_pd, if_neg (by simp), if_pos hany]
  · exact ⟨q, h, rfl, rfl, quantumLoop_of_full hlt _⟩

/-- A quantum of four characters. -/
theorem getNextQuantum_full (parseFlags : ℕ) (illegalPads : Bool) (hd : dpos = done.length)
    (hv : ∀ v ∈ vs, v < 64) (hlen : vs.length = 4) (rest : List UInt8) :
    ∃ q, Scanned parseFlags illegalPads dpos (vs.map charOf) q ∧ q.byteLen = 4 ∧
      getNextQuantum parseFlags illegalPads (done ++ (vs.map charOf ++ rest)) dpos =
        (q.byteLen, values (vs.map charOf) ++ List.replicate (4 - q.byteLen) 0, q.stop,
          q.padded) := by
  obtain ⟨q, hs, hbyte, -, heq⟩ := quantumLoop_data
    (scanned_nil parseFlags illegalPads dpos) rfl hv (by rw [hlen]) rest
  have hfour : q.byteLen = 4 := by rw [hbyte, hlen]
  rw [List.nil_append] at hs
  refine ⟨q, hs, hfour, getNextQuantum_eq ?_ hs⟩
  rw [hd, List.drop_left, ← hd, heq, quantumLoop_of_full (by omega)]

/-- The quantum at the end, with padding. -/
theorem getNextQuantum_end (parseFlags : ℕ) (illegalPads : Bool) (hd : dpos = done.length)
    (hv : ∀ v ∈ vs, v < 64) (htwo : 2 ≤ vs.length) (hlt : vs.length < 4) :
    ∃ used q, Scanned parseFlags illegalPads dpos used q ∧ values used = vs ∧
      q.byteLen = vs.length ∧
      (illegalPads = false → q.padded = true) ∧
      q.stop = (if illegalPads = true ∧ parseFlags ≠ DO_PARSE_ANY then dpos + vs.length
        else dpos + 4) ∧
      getNextQuantum parseFlags illegalPads
        (done ++ (vs.map charOf ++ List.replicate (4 - vs.length) kPad)) dpos =
        (q.byteLen, values used ++ List.replicate (4 - q.byteLen) 0, q.stop, q.padded) := by
  obtain ⟨q, hs, hbyte, hpad, heq⟩ := quantumLoop_data
    (scanned_nil parseFlags illegalPads dpos) rfl hv (by simp only [Nat.zero_add, hlt.le])
    (List.replicate (4 - vs.length) kPad)
  rw [List.nil_append] at hs
  have hbyte : q.byteLen = vs.length := hbyte.trans (Nat.zero_add _)
  have hvs : values (vs.map charOf) = vs := values_map_charOf hv
  cases illegalPads with
  | false =>
    obtain ⟨p, hs', hb, hp, heq'⟩ := quantumLoop_pads hs (by omega)
      (n := 4 - vs.length) (by omega) []
    have hfull : 4 = p.byteLen + p.padLen := by omega
    refine ⟨_, p, hs', by simp [hvs], by omega, fun _ => decide_eq_true hfull, ?_, ?_⟩
    · rw [Quantum.stop_of_full hfull, if_neg (by simp), hs'.dpos]
      simp only [List.length_append, List.length_map, List.length_replicate]
      omega
    · refine getNextQuantum_eq ?_ hs'
      rw [hd, List.drop_left, ← hd, heq, ← List.append_nil (List.replicate _ _), heq']
      rfl
  | true =>
    by_cases hany : parseFlags = DO_PARSE_ANY
    · subst hany
      obtain ⟨p, hs', hb, hp, heq'⟩ := quantumLoop_pass hs (by omega) (4 - vs.length)
      refine ⟨_, p, hs', by simp [hvs], by omega, nofun, ?_, ?_⟩
      · rw [Quantum.stop_of_not_full (by omega), if_neg (by omega), if_neg fun h => h.2 rfl,
          hs'.dpos]
        simp only [List.length_append, List.length_map, List.length_replicate]
        omega
      · refine getNextQuantum_eq ?_ hs'
        rw [hd, List.drop_left, ← hd, heq, heq']
    · obtain ⟨n, hn⟩ : ∃ n, 4 - vs.length = n + 1 := ⟨3 - vs.length, by omega⟩
      obtain ⟨p, hs', hb, hp, heq'⟩ := quantumLoop_stop hs hany (List.replicate n kPad)
      refine ⟨_, p, hs', hvs, by omega, nofun, ?_, ?_⟩
      · rw [Quantum.stop_of_not_full (by omega), if_neg (by omega), if_pos ⟨rfl, hany⟩, hs'.dpos,
          List.length_map]
      · refine getNextQuantum_eq ?_ hs'
        rw [hd, List.drop_left, ← hd, heq, hn, List.replicate_succ, heq']

/-- The sextets of the last bytes, which are one or two. -/
theorem textOf_eq_of_length_lt {x : List UInt8} (hx : x ≠ []) (hlen : x.length < 3) :
    2 ≤ (sextets x).length ∧ (sextets x).length < 4 ∧
      textOf x = (sextets x).map charOf ++ List.replicate (4 - (sextets x).length) kPad := by
  have hpos : 0 < x.length := List.length_pos_iff.mpr hx
  have hs := length_sextets x
  have hpad : (3 - x.length % 3) % 3 = 4 - (sextets x).length := by
    obtain hone | htwo : x.length = 1 ∨ x.length = 2 := by omega
    · rw [hs, hone]
    · rw [hs, htwo]
  refine ⟨by omega, by omega, ?_⟩
  rw [textOf, padding, hpad]

theorem length_sextets_le (x : List UInt8) : (sextets x).length ≤ (textOf x).length := by
  rw [length_sextets, length_textOf]
  omega

/-- **The text of bytes is decoded**, behind what has been. -/
theorem decodeLoop_textOf (parseFlags padFlags termFlags : ℕ) (hd : dpos = done.length)
    (x : List UInt8) :
    decodeLoop parseFlags padFlags termFlags (done ++ textOf x) result dpos =
      (true, result ++ x, if padFlags = DO_PAD_NO ∧ parseFlags ≠ DO_PARSE_ANY
        then dpos + (sextets x).length else dpos + (textOf x).length) := by
  -- The last quantum, of one byte or two.
  have hlast : ∀ (y done result : List UInt8) (dpos : ℕ), dpos = done.length → y ≠ [] →
      y.length < 3 → decodeLoop parseFlags padFlags termFlags (done ++ textOf y) result dpos =
        (true, result ++ y, if padFlags = DO_PAD_NO ∧ parseFlags ≠ DO_PARSE_ANY
          then dpos + (sextets y).length else dpos + (textOf y).length) := by
    intro y done result dpos hd hy hlen
    obtain ⟨htwo, hlt, htext⟩ := textOf_eq_of_length_lt hy hlen
    obtain ⟨used, q, hs, hvs, hbyte, hpadded, hstop, heq⟩ := getNextQuantum_end parseFlags
      (padFlags = DO_PAD_NO) hd (fun _ => lt_of_mem_sextets) htwo hlt
    have hfour : (textOf y).length = 4 := by
      rw [htext, List.length_append, List.length_map, List.length_replicate]
      omega
    rw [← htext] at heq
    rw [decodeLoop_last _ _ (by rw [List.length_append]; omega) hs (by omega) heq, hvs,
      octets_sextets, spare_sextets, hstop, hfour]
    have hpad : padFlags = DO_PAD_YES → q.padded = true := by
      rintro rfl
      exact hpadded (by decide)
    simp only [decide_eq_true_iff, or_true, true_and, decide_eq_true hpad]
  induction x using sextets.induct generalizing done result dpos with
  | case1 =>
    rw [decodeLoop, if_neg (by simp [hd, textOf, sextets, padding])]
    simp [textOf, sextets, padding]
  | case2 a => exact hlast [a] done result dpos hd (by simp) (by simp)
  | case3 a b => exact hlast [a, b] done result dpos hd (by simp) (by simp)
  | case4 a b c x ih =>
    have hv : ∀ v ∈ [sextet₁ a, sextet₂ a b, sextet₃ b c, sextet₄ c], v < 64 := by
      simp [sextet₁_lt, sextet₂_lt, sextet₃_lt, sextet₄_lt]
    obtain ⟨q, hs, hq, heq⟩ := getNextQuantum_full parseFlags (padFlags = DO_PAD_NO) hd hv rfl
      (textOf x)
    have htext : textOf (a :: b :: c :: x) =
        [sextet₁ a, sextet₂ a b, sextet₃ b c, sextet₄ c].map charOf ++ textOf x :=
      textOf_cons_cons_cons a b c x
    have hoct : octets [sextet₁ a, sextet₂ a b, sextet₃ b c, sextet₄ c] = [a, b, c] :=
      octets_sextets [a, b, c]
    rw [htext, decodeLoop_next (by simp [hd]) hs hq heq, values_map_charOf hv, hoct,
      ← List.append_assoc, ih (by simp [hd])]
    simp only [List.append_assoc, List.cons_append, List.nil_append, List.length_map,
      List.length_append, List.length_cons, List.length_nil, sextets]
    congr 2
    split
    · omega
    · omega

/-- Padding is disallowed, and is not passed over. -/
def refusesPads (flags : ℕ) : Bool :=
  flags &&& DO_PAD_MASK = DO_PAD_NO ∧ flags &&& DO_PARSE_MASK ≠ DO_PARSE_ANY

/-- **The round trip**, for all flags. The bytes always come back. The text is accepted, and all of
it is used, unless it has padding that is refused; then the padding is left, and the text is
accepted only where it may end before its end. -/
theorem decodeFromArray_encodeFromArray (x : List UInt8) (flags : ℕ) :
    ∃ text, encodeFromArray x = some text ∧
      decodeFromArray text flags =
        (!(refusesPads flags && x.length % 3 ≠ 0 && flags &&& DO_TERM_MASK = DO_TERM_BUFFER), x,
          if refusesPads flags then x.length + (x.length + 2) / 3 else text.length) := by
  refine ⟨textOf x, encodeFromArray_eq x, ?_⟩
  have h : decodeLoop (flags &&& DO_PARSE_MASK) (flags &&& DO_PAD_MASK) (flags &&& DO_TERM_MASK)
      (textOf x) [] 0 = (true, x,
        if refusesPads flags then x.length + (x.length + 2) / 3 else (textOf x).length) := by
    have hloop : decodeLoop (flags &&& DO_PARSE_MASK) (flags &&& DO_PAD_MASK)
        (flags &&& DO_TERM_MASK) ([] ++ textOf x) [] 0 = _ := decodeLoop_textOf _ _ _ rfl x
    simpa only [List.nil_append, List.length_nil, Nat.zero_add, length_sextets, refusesPads,
      decide_eq_true_iff] using hloop
  have hlen := length_textOf x
  simp only [decodeFromArray, h]
  by_cases hr : refusesPads flags = true
  · simp only [hr, if_true]
    by_cases hmod : x.length % 3 = 0
    · rw [if_neg fun hn => hn.2 (by omega)]
      simp [hmod]
    · by_cases hterm : flags &&& DO_TERM_MASK = DO_TERM_BUFFER
      · rw [if_pos ⟨hterm, by omega⟩]
        simp [hmod, hterm]
      · rw [if_neg fun hn => hterm hn.1]
        simp [hterm]
  · simp [hr]

end Base64

end TQLib
