import TQLib.Base64.Model
import TQLib.Foundations.Sextets
import Mathlib.Data.List.Infix

/-!
# What one quantum takes from the text

A character of the alphabet stands for a sextet. The loop over the characters is followed step by
step: a character is passed over, is padding that counts, or is one more of the alphabet. What has
been scanned is put together from these steps, and the decoder is defined on top of it.

## Main results

* `quantumBody_eq_some` — what one turn of the loop can do
* `getNextQuantum_spec` — what is taken from the text, and why it ends there
-/

namespace TQLib

namespace Base64

/-! ## The alphabet -/

/-- What the table says of a character. -/
def valueOf (ch : UInt8) : UInt8 := decodeTable.getD ch.toNat 0

/-- The sextet a character stands for. -/
def sextetOf (ch : UInt8) : Option UInt8 := if valueOf ch < 64 then some (valueOf ch) else none

/-- The sextets of a text. -/
def values (text : List UInt8) : List UInt8 := text.filterMap sextetOf

/-- Whitespace. -/
def isSpace (ch : UInt8) : Bool := valueOf ch = sp

/-- The character of a sextet. -/
def charOf (v : UInt8) : UInt8 := base64Table.getD v.toNat 0

theorem valueOf_cases (ch : UInt8) :
    valueOf ch < 64 ∨ valueOf ch = pd ∧ ch = kPad ∨ valueOf ch = sp ∨ valueOf ch = il := by
  revert ch
  refine forall_byte _ ?_
  decide +kernel

theorem isBase64Char_iff (ch : UInt8) : isBase64Char ch = true ↔ valueOf ch < 64 := by
  revert ch
  refine forall_byte _ ?_
  decide +kernel

theorem charOf_valueOf {ch : UInt8} (hch : valueOf ch < 64) : charOf (valueOf ch) = ch :=
  forall_byte (fun ch => valueOf ch < 64 → charOf (valueOf ch) = ch) (by decide +kernel) ch hch

theorem valueOf_charOf {v : UInt8} (hv : v < 64) : valueOf (charOf v) = v :=
  forall_byte_lt (fun v => valueOf (charOf v) = v) 64 (by decide +kernel) hv

theorem base64Table_getElem? {v : UInt8} (hv : v < 64) :
    base64Table[v.toNat]? = some (charOf v) := by
  have hlen : v.toNat < base64Table.length := hv
  rw [charOf, List.getD_eq_getElem?_getD, List.getElem?_eq_getElem hlen, Option.getD_some]

@[simp] theorem valueOf_kPad : valueOf kPad = pd := by decide +kernel

theorem sextetOf_of_lt {ch : UInt8} (h : valueOf ch < 64) : sextetOf ch = some (valueOf ch) :=
  if_pos h

theorem sextetOf_of_not_lt {ch : UInt8} (h : ¬ valueOf ch < 64) : sextetOf ch = none :=
  if_neg h

@[simp] theorem values_nil : values [] = [] := rfl

@[simp] theorem values_append (text text' : List UInt8) :
    values (text ++ text') = values text ++ values text' :=
  List.filterMap_append ..

theorem values_singleton_of_lt {ch : UInt8} (h : valueOf ch < 64) : values [ch] = [valueOf ch] := by
  rw [values, List.filterMap_cons_some (sextetOf_of_lt h), List.filterMap_nil]

theorem values_singleton_of_not_lt {ch : UInt8} (h : ¬ valueOf ch < 64) : values [ch] = [] := by
  rw [values, List.filterMap_cons_none (sextetOf_of_not_lt h), List.filterMap_nil]

@[simp] theorem values_replicate_kPad (n : ℕ) : values (List.replicate n kPad) = [] := by
  rw [values, List.filterMap_eq_nil_iff]
  intro ch hch
  rw [List.eq_of_mem_replicate hch]
  exact sextetOf_of_not_lt (by rw [valueOf_kPad]; decide)

theorem values_map_charOf {vs : List UInt8} (hv : ∀ v ∈ vs, v < 64) :
    values (vs.map charOf) = vs := by
  rw [values, List.filterMap_map]
  refine (List.filterMap_congr fun v h => ?_).trans List.filterMap_some
  have hv' : valueOf (charOf v) = v := valueOf_charOf (hv v h)
  rw [Function.comp_apply, sextetOf_of_lt (by rw [hv']; exact hv v h), hv']

theorem lt_of_mem_values {text : List UInt8} {v : UInt8} (hv : v ∈ values text) : v < 64 := by
  obtain ⟨ch, -, hch⟩ := List.mem_filterMap.mp hv
  rw [sextetOf] at hch
  split at hch
  · next h => rwa [← Option.some.inj hch]
  · cases hch

/-! ## One turn -/

variable {parseFlags : ℕ} {illegalPads : Bool} {ch : UInt8} {q q' : Quantum}

/-- A character that the flags have passed over. -/
def Passed (parseFlags : ℕ) (ch : UInt8) : Prop :=
  ¬ valueOf ch < 64 ∧ (parseFlags = DO_PARSE_ANY ∨ parseFlags ≠ DO_PARSE_STRICT ∧ isSpace ch)

/-- The padding `q` counts `ch` in. -/
def Quantum.pad (q : Quantum) : Quantum :=
  { q with
    padLen := q.padLen + 1
    padStart := if q.padLen + 1 = 1 then q.dpos else q.padStart }

/-- `q` counts one more character of the alphabet. -/
def Quantum.data (q : Quantum) : Quantum := { q with padLen := 0, byteLen := q.byteLen + 1 }

theorem quantumBody_of_lt {v : UInt8} (hv : v < 64) :
    quantumBody parseFlags illegalPads v q =
      if q.padLen > 0 ∧ parseFlags ≠ DO_PARSE_ANY then none else some q.data := by
  have hne : ∀ w : UInt8, ¬ w < 64 → w ≠ v := by
    rintro w hw rfl
    exact hw hv
  have hil : ¬ (il = v ∨ illegalPads ∧ pd = v) := by
    rintro (h | ⟨-, h⟩)
    exacts [hne il (by decide) h, hne pd (by decide) h]
  rw [quantumBody, if_neg hil, if_neg (hne sp (by decide)), if_neg (hne pd (by decide))]
  by_cases hpad : q.padLen > 0
  · rw [if_pos hpad]
    by_cases hany : parseFlags ≠ DO_PARSE_ANY
    · rw [if_pos hany, if_pos ⟨hpad, hany⟩]
    · rw [if_neg hany, if_neg fun h => hany h.2]
      rfl
  · have hzero : q.padLen = 0 := by omega
    rw [if_neg hpad, if_neg fun h => hpad h.1, Quantum.data, hzero]

theorem quantumBody_pd : quantumBody parseFlags illegalPads pd q =
    if illegalPads = false ∧ 2 ≤ q.byteLen ∧ q.byteLen + q.padLen < 4 then some q.pad
    else if parseFlags ≠ DO_PARSE_ANY then none else some q := by
  have hil : ¬ il = pd := by decide
  have hsp : ¬ sp = pd := by decide
  cases illegalPads with
  | true => simp [quantumBody]
  | false =>
    simp only [quantumBody, hil, hsp, Bool.false_eq_true, false_and, or_false, if_false, if_true,
      true_and]
    by_cases hcount : 2 ≤ q.byteLen ∧ q.byteLen + q.padLen < 4
    · rw [if_neg (show ¬ q.byteLen < 2 by omega),
        if_neg (show ¬ q.byteLen + q.padLen ≥ 4 by omega), if_pos hcount]
      rfl
    · rw [if_neg hcount]
      by_cases hlt : q.byteLen < 2
      · rw [if_pos hlt]
      · rw [if_neg hlt, if_pos (show q.byteLen + q.padLen ≥ 4 by omega)]

theorem quantumBody_sp : quantumBody parseFlags illegalPads sp q =
    if parseFlags = DO_PARSE_STRICT then none else some q := by
  have hil : ¬ (il = sp ∨ illegalPads ∧ pd = sp) := by
    rintro (h | ⟨-, h⟩)
    exacts [absurd h (by decide), absurd h (by decide)]
  rw [quantumBody, if_neg hil, if_pos rfl]

theorem quantumBody_il : quantumBody parseFlags illegalPads il q =
    if parseFlags ≠ DO_PARSE_ANY then none else some q := by
  rw [quantumBody, if_pos (.inl rfl)]

/-- **What one turn can do**: pass a character over, count padding, or count a character of the
alphabet. -/
theorem quantumBody_eq_some (h : quantumBody parseFlags illegalPads (valueOf ch) q = some q') :
    Passed parseFlags ch ∧ q' = q ∨
      (ch = kPad ∧ illegalPads = false ∧ 2 ≤ q.byteLen ∧ q.byteLen + q.padLen < 4 ∧ q' = q.pad) ∨
      (valueOf ch < 64 ∧ (q.padLen = 0 ∨ parseFlags = DO_PARSE_ANY) ∧ q' = q.data) := by
  rcases valueOf_cases ch with hv | ⟨hv, rfl⟩ | hv | hv
  · rw [quantumBody_of_lt hv] at h
    split at h
    · cases h
    · next hn => exact .inr (.inr ⟨hv, by omega, (Option.some.inj h).symm⟩)
  · rw [hv, quantumBody_pd] at h
    split at h
    · next hp => exact .inr (.inl ⟨rfl, hp.1, hp.2.1, hp.2.2, (Option.some.inj h).symm⟩)
    · split at h
      · cases h
      · next hany =>
        exact .inl ⟨⟨by rw [hv]; decide, .inl (not_not.mp hany)⟩, (Option.some.inj h).symm⟩
  · rw [hv, quantumBody_sp] at h
    split at h
    · cases h
    · next hs =>
      exact .inl ⟨⟨by rw [hv]; decide, .inr ⟨hs, by simp [isSpace, hv]⟩⟩, (Option.some.inj h).symm⟩
  · rw [hv, quantumBody_il] at h
    split at h
    · cases h
    · next hany =>
      exact .inl ⟨⟨by rw [hv]; decide, .inl (not_not.mp hany)⟩, (Option.some.inj h).symm⟩

/-- With all characters allowed, no turn is the last. -/
theorem ne_any_of_quantumBody (ch : UInt8)
    (h : quantumBody parseFlags illegalPads (valueOf ch) q = none) :
    parseFlags ≠ DO_PARSE_ANY := by
  rintro rfl
  rcases valueOf_cases ch with hv | ⟨hv, -⟩ | hv | hv
  · simp [quantumBody_of_lt hv] at h
  · rw [hv, quantumBody_pd] at h
    split at h
    · cases h
    · simp at h
  · simp [hv, quantumBody_sp, DO_PARSE_ANY, DO_PARSE_STRICT] at h
  · simp [hv, quantumBody_il] at h

/-! ## A quantum -/

variable {start : ℕ} {used rest : List UInt8}

/-- Where the loop stands that has gone over `used` from `start` on. -/
structure Scanned (parseFlags : ℕ) (illegalPads : Bool) (start : ℕ) (used : List UInt8)
    (q : Quantum) : Prop where
  /-- The position is behind what has been gone over. -/
  dpos : q.dpos = start + used.length
  /-- The sextets have been counted, -/
  byteLen : q.byteLen = (values used).length
  /-- and are in the buffer. -/
  qbuf : q.qbuf.take q.byteLen = values used
  room : q.qbuf.length = 4
  /-- Padding is counted up to the end of the quantum, -/
  count : q.byteLen + q.padLen ≤ 4
  /-- and only where it can be. -/
  two : 0 < q.padLen → 2 ≤ q.byteLen
  legal : 0 < q.padLen → illegalPads = false
  /-- From the start of the padding on there are no sextets. -/
  padStart : 0 < q.padLen → ∃ before pads, used = before ++ pads ∧ pads ≠ [] ∧
    q.padStart = start + before.length ∧ values pads = []
  /-- Unless all characters are allowed, only whitespace is passed over, -/
  plain : parseFlags ≠ DO_PARSE_ANY →
    used.filter (!isSpace ·) = (values used).map charOf ++ List.replicate q.padLen kPad
  /-- and in the strict mode nothing is. -/
  strict : parseFlags = DO_PARSE_STRICT → ∀ ch ∈ used, isSpace ch = false

/-- What is written behind the sextets does not matter. -/
theorem Scanned.set (h : Scanned parseFlags illegalPads start used q) (v : UInt8) :
    Scanned parseFlags illegalPads start used { q with qbuf := q.qbuf.set q.byteLen v } :=
  { h with
    qbuf := by rw [List.take_set_of_le (Nat.le_refl _), h.qbuf]
    room := by rw [List.length_set, h.room] }

/-- **A turn of the loop** goes over one character more. -/
theorem Scanned.step (h : Scanned parseFlags illegalPads start used q) (hlt : q.byteLen < 4)
    (hslot : q.qbuf[q.byteLen]? = some (valueOf ch))
    (hq : quantumBody parseFlags illegalPads (valueOf ch) q = some q') :
    Scanned parseFlags illegalPads start (used ++ [ch]) { q' with dpos := q'.dpos + 1 } := by
  rcases quantumBody_eq_some hq with ⟨hp, rfl⟩ | ⟨rfl, hlegal, htwo, hcount, rfl⟩ | ⟨hv, hpad, rfl⟩
  · have hnil : values [ch] = [] := values_singleton_of_not_lt hp.1
    constructor
    · simp [h.dpos, Nat.add_assoc]
    · simp [hnil, h.byteLen]
    · simp [hnil, h.qbuf]
    · exact h.room
    · exact h.count
    · exact h.two
    · exact h.legal
    · intro hpad
      obtain ⟨before, pads, rfl, -, hstart, hpads⟩ := h.padStart hpad
      exact ⟨before, pads ++ [ch], by simp, by simp, hstart, by simp [hpads, hnil]⟩
    · intro hany
      have hsp : isSpace ch = true := (hp.2.resolve_left hany).2
      simp [hnil, h.plain hany, List.filter_append, hsp]
    · intro hs
      exact absurd hs (hp.2.resolve_left (by rw [hs]; decide)).1
  · have hnil : values [kPad] = [] := values_singleton_of_not_lt (by rw [valueOf_kPad]; decide)
    have hsp : isSpace kPad = false := by rw [isSpace, valueOf_kPad]; decide
    constructor
    · simp [Quantum.pad, h.dpos, Nat.add_assoc]
    · simp [Quantum.pad, hnil, h.byteLen]
    · simp [Quantum.pad, hnil, h.qbuf]
    · exact h.room
    · simp only [Quantum.pad]
      omega
    · intro _
      exact htwo
    · intro _
      exact hlegal
    · intro _
      by_cases hzero : q.padLen = 0
      · exact ⟨used, [kPad], rfl, by simp, by simp [Quantum.pad, hzero, h.dpos], hnil⟩
      · obtain ⟨before, pads, rfl, -, hstart, hpads⟩ := h.padStart (Nat.pos_of_ne_zero hzero)
        exact ⟨before, pads ++ [kPad], by simp, by simp, by simp [Quantum.pad, hzero, hstart],
          by simp [hpads, hnil]⟩
    · intro hany
      simp [Quantum.pad, hnil, h.plain hany, List.filter_append, hsp, List.replicate_succ']
    · intro hs ch hch
      rcases List.mem_append.mp hch with hch | hch
      · exact h.strict hs ch hch
      · rwa [List.mem_singleton.mp hch]
  · have hone : values [ch] = [valueOf ch] := values_singleton_of_lt hv
    have hsp : isSpace ch = false := by
      rw [isSpace, decide_eq_false_iff_not]
      intro heq
      rw [heq] at hv
      exact absurd hv (by decide)
    constructor
    · simp [Quantum.data, h.dpos, Nat.add_assoc]
    · simp [Quantum.data, hone, h.byteLen]
    · simp [Quantum.data, hone, List.take_add_one, h.qbuf, hslot]
    · exact h.room
    · simp only [Quantum.data]
      omega
    · simp [Quantum.data]
    · simp [Quantum.data]
    · simp [Quantum.data]
    · intro hany
      have hzero : q.padLen = 0 := hpad.resolve_right hany
      have hplain := h.plain hany
      rw [hzero] at hplain
      simp [Quantum.data, hone, hplain, List.filter_append, hsp, charOf_valueOf hv]
    · intro hs c hc
      rcases List.mem_append.mp hc with hc | hc
      · exact h.strict hs c hc
      · rwa [List.mem_singleton.mp hc]

theorem quantumLoop_of_full (hq : ¬ q.byteLen < 4) (rest : List UInt8) :
    quantumLoop parseFlags illegalPads rest q = q := by
  cases rest with
  | nil => rfl
  | cons ch rest => rw [quantumLoop, if_neg hq]

/-- **The loop** goes over a part of the text, and ends with it, with the quantum, or at a character
that is not allowed. -/
theorem quantumLoop_spec (h : Scanned parseFlags illegalPads start used q) (rest : List UInt8) :
    ∃ more left, rest = more ++ left ∧
      Scanned parseFlags illegalPads start (used ++ more)
        (quantumLoop parseFlags illegalPads rest q) ∧
      (left = [] ∨ (quantumLoop parseFlags illegalPads rest q).byteLen = 4 ∨
        parseFlags ≠ DO_PARSE_ANY) := by
  induction rest generalizing used q with
  | nil => exact ⟨[], [], rfl, by simpa [quantumLoop] using h, .inl rfl⟩
  | cons ch rest ih =>
    by_cases hlt : q.byteLen < 4
    · have hset := h.set (valueOf ch)
      have hslot : (q.qbuf.set q.byteLen (valueOf ch))[q.byteLen]? = some (valueOf ch) := by
        rw [List.getElem?_set_self (by rw [h.room]; exact hlt)]
      cases hq : quantumBody parseFlags illegalPads (valueOf ch)
          { q with qbuf := q.qbuf.set q.byteLen (valueOf ch) } with
      | some q' =>
        obtain ⟨more, left, rfl, hs, hend⟩ := ih (hset.step hlt hslot hq)
        rw [List.append_assoc, List.singleton_append] at hs
        refine ⟨ch :: more, left, rfl, ?_, ?_⟩ <;>
          simp only [quantumLoop, if_pos hlt, ← valueOf.eq_def, hq]
        exacts [hs, hend]
      | none =>
        refine ⟨[], ch :: rest, rfl, ?_, .inr (.inr (ne_any_of_quantumBody ch hq))⟩
        simp only [quantumLoop, if_pos hlt, ← valueOf.eq_def, hq, List.append_nil]
        exact hset
    · have hfull : q.byteLen = 4 := by have := h.count; omega
      rw [quantumLoop_of_full hlt]
      exact ⟨[], ch :: rest, rfl, by rwa [List.append_nil], .inr (.inl hfull)⟩

theorem scanned_nil (parseFlags : ℕ) (illegalPads : Bool) (start : ℕ) :
    Scanned parseFlags illegalPads start [] { dpos := start, qbuf := List.replicate 4 0 } :=
  ⟨rfl, rfl, rfl, rfl, Nat.zero_le 4, nofun, nofun, nofun, fun _ => rfl, fun _ _ => nofun⟩

/-- Whether a quantum is full, padding counted in. -/
def Quantum.padded (q : Quantum) : Bool := 4 = q.byteLen + q.padLen

/-- The position behind a quantum: padding that does not fill it up is not taken. -/
def Quantum.stop (q : Quantum) : ℕ :=
  if 4 ≠ q.byteLen + q.padLen ∧ q.padLen ≠ 0 then q.padStart else q.dpos

theorem Quantum.stop_of_full (h : 4 = q.byteLen + q.padLen) : q.stop = q.dpos :=
  if_neg fun hn => hn.1 h

theorem Quantum.stop_of_not_full (h : 4 ≠ q.byteLen + q.padLen) :
    q.stop = if q.padLen ≠ 0 then q.padStart else q.dpos := by
  by_cases hpad : q.padLen ≠ 0
  · rw [if_pos hpad, Quantum.stop, if_pos ⟨h, hpad⟩]
  · rw [if_neg hpad, Quantum.stop, if_neg fun hn => hpad hn.2]

/-- A quantum, of what the loop does. -/
theorem getNextQuantum_eq {data : List UInt8} {dpos : ℕ}
    (hq : quantumLoop parseFlags illegalPads (data.drop dpos)
      { dpos, qbuf := List.replicate 4 0 } = q)
    (hs : Scanned parseFlags illegalPads dpos used q) :
    getNextQuantum parseFlags illegalPads data dpos =
      (q.byteLen, values used ++ List.replicate (4 - q.byteLen) 0, q.stop, q.padded) := by
  simp only [getNextQuantum, hq, hs.qbuf]
  by_cases hfull : 4 = q.byteLen + q.padLen
  · rw [if_pos hfull, Quantum.stop_of_full hfull, Quantum.padded, decide_eq_true hfull]
  · rw [if_neg hfull, Quantum.stop_of_not_full hfull, Quantum.padded, decide_eq_false hfull]

/-- **A quantum**: what has been gone over of the text, what is returned, and why it ends there. -/
theorem getNextQuantum_spec (parseFlags : ℕ) (illegalPads : Bool) (data : List UInt8) (dpos : ℕ) :
    ∃ used left q, data.drop dpos = used ++ left ∧ Scanned parseFlags illegalPads dpos used q ∧
      (left = [] ∨ q.byteLen = 4 ∨ parseFlags ≠ DO_PARSE_ANY) ∧
      getNextQuantum parseFlags illegalPads data dpos =
        (q.byteLen, values used ++ List.replicate (4 - q.byteLen) 0, q.stop, q.padded) := by
  obtain ⟨used, left, hrest, hs, hend⟩ :=
    quantumLoop_spec (scanned_nil parseFlags illegalPads dpos) (data.drop dpos)
  exact ⟨used, left, _, hrest, hs, hend, getNextQuantum_eq rfl hs⟩

/-- A full quantum has been gone over. -/
theorem getNextQuantum_lt {dpos : ℕ} {data : List UInt8}
    (h : ¬ (getNextQuantum parseFlags illegalPads data dpos).1 < 4) :
    dpos < (getNextQuantum parseFlags illegalPads data dpos).2.2.1 := by
  obtain ⟨used, left, q, hrest, hs, -, heq⟩ :=
    getNextQuantum_spec parseFlags illegalPads data dpos
  rw [heq] at h ⊢
  have hlen : (values used).length ≤ used.length := List.length_filterMap_le ..
  have hpos := hs.dpos
  have hbytes := hs.byteLen
  have hcount := hs.count
  show dpos < q.stop
  rw [Quantum.stop_of_full (by omega)]
  omega

/-! ## The decoder -/

/-- The bytes which `DecodeFromArrayTemplate` makes of a quantum, and what is left in `c`. -/
def quantumBytes (qlen : ℕ) (qbuf : List UInt8) : List UInt8 × UInt8 :=
  let at_ i := qbuf.getD i 0
  let c := at_ 0 <<< 2 ||| (at_ 1 >>> 4 &&& (0x3 : UInt8))
  if qlen ≥ 2 then
    let result := [c]
    let c := (at_ 1 <<< 4 &&& (0xf0 : UInt8)) ||| (at_ 2 >>> 2 &&& (0xf : UInt8))
    if qlen ≥ 3 then
      let result := result ++ [c]
      let c := (at_ 2 <<< 6 &&& (0xc0 : UInt8)) ||| at_ 3
      if qlen ≥ 4 then (result ++ [c], 0) else (result, c)
    else (result, c)
  else ([], c)

/-- The loop of `DecodeFromArrayTemplate`: `success`, `*result` and `dpos`. -/
def decodeLoop (parseFlags padFlags termFlags : ℕ) (data result : List UInt8) (dpos : ℕ) :
    Bool × List UInt8 × ℕ :=
  if dpos < data.length then
    let quantum := getNextQuantum parseFlags (padFlags = DO_PAD_NO) data dpos
    let bytes := quantumBytes quantum.1 quantum.2.1
    if h : quantum.1 < 4 then
      -- Unused bits, and expected padding.
      (!((termFlags ≠ DO_TERM_ANY && bytes.2 ≠ 0) || (padFlags = DO_PAD_YES && !quantum.2.2.2)),
        result ++ bytes.1, quantum.2.2.1)
    else
      have := getNextQuantum_lt h
      decodeLoop parseFlags padFlags termFlags data (result ++ bytes.1) quantum.2.2.1
  else (true, result, dpos)
  termination_by data.length - dpos

/-- `DecodeFromArray`: what it returns, `*result` and `*data_used`. -/
def decodeFromArray (data : List UInt8) (flags : ℕ) : Bool × List UInt8 × ℕ :=
  let parseFlags := flags &&& DO_PARSE_MASK
  let padFlags := flags &&& DO_PAD_MASK
  let termFlags := flags &&& DO_TERM_MASK
  let (success, result, dpos) := decodeLoop parseFlags padFlags termFlags data [] 0
  -- Unused characters.
  if termFlags = DO_TERM_BUFFER ∧ dpos ≠ data.length then (false, result, dpos)
  else (success, result, dpos)

end Base64

end TQLib
