import Mathlib.Data.List.Basic
import Mathlib.Tactic.Common

/-!
# Bytes as hex digits

The hex coding of `rtc_base/string_encode.cc`. A byte is two digits, and a delimiter, if there is
one, stands between the bytes. Characters are bytes, and the delimiter zero is none. The loops go
over the positions of source and buffer; what reads or writes outside of them has no result.

Before it decodes, the code works out from the length of the source how much it can need of the
buffer. That is exact for a source which it accepts, and a bound for all others.

## Main results

* `hexEncodeWithDelimiter_eq` — what is encoded
* `decodeLoop_spec` — what is decoded, from a position on
* `hex_exact` — the round trip, and what is accepted
-/

namespace TQLib

namespace StringEncode

/-- `HEX`. -/
def HEX : List UInt8 :=
  ['0', '1', '2', '3', '4', '5', '6', '7', '8', '9', 'a', 'b', 'c', 'd', 'e', 'f'].map Char.toUInt8

/-- `hex_encode`, of a digit. -/
def hexEncode (val : UInt8) : UInt8 := if val < 16 then HEX.getD val.toNat 0 else '!'.toUInt8

/-- `hex_decode`, of a digit. -/
def hexDecode (ch : UInt8) : Option UInt8 :=
  if ch ≥ '0'.toUInt8 ∧ ch ≤ '9'.toUInt8 then some (ch - '0'.toUInt8)
  else if ch ≥ 'A'.toUInt8 ∧ ch ≤ 'F'.toUInt8 then some (ch - 'A'.toUInt8 + 10)
  else if ch ≥ 'a'.toUInt8 ∧ ch ≤ 'f'.toUInt8 then some (ch - 'a'.toUInt8 + 10)
  else none

/-- `buffer[pos] = b`. -/
def store (buffer : List UInt8) (pos : ℕ) (b : UInt8) : Option (List UInt8) :=
  if pos < buffer.length then some (buffer.set pos b) else none

/-- `hex_encode_output_length`. -/
def hexEncodeOutputLength (srclen : ℕ) (delimiter : UInt8) : ℕ :=
  if delimiter ≠ 0 ∧ srclen > 0 then srclen * 3 - 1 else srclen * 2

/-- The loop of `hex_encode_with_delimiter`. -/
def encodeLoop (source : List UInt8) (delimiter : UInt8) (buffer : List UInt8)
    (srcpos bufpos : ℕ) : Option (List UInt8) :=
  if srcpos < source.length then do
    let ch ← source[srcpos]?
    let buffer ← store buffer bufpos (hexEncode (ch >>> 4 &&& 0xF))
    let buffer ← store buffer (bufpos + 1) (hexEncode (ch &&& 0xF))
    if delimiter ≠ 0 ∧ srcpos + 1 < source.length then
      let buffer ← store buffer (bufpos + 2) delimiter
      encodeLoop source delimiter buffer (srcpos + 1) (bufpos + 3)
    else
      encodeLoop source delimiter buffer (srcpos + 1) (bufpos + 2)
  else some buffer
  termination_by source.length - srcpos

/-- `hex_encode_with_delimiter`. -/
def hexEncodeWithDelimiter (source : List UInt8) (delimiter : UInt8) : Option (List UInt8) :=
  encodeLoop source delimiter
    (List.replicate (hexEncodeOutputLength source.length delimiter) 0) 0 0

/-- The loop of `hex_decode_with_delimiter`: what is returned, and the buffer. -/
def decodeLoop (source : List UInt8) (delimiter : UInt8) (bbuffer : List UInt8)
    (srcpos bufpos : ℕ) : Option (ℕ × List UInt8) :=
  if srcpos < source.length then
    -- An odd number of digits.
    if source.length - srcpos < 2 then some (0, bbuffer)
    else do
      let c1 ← source[srcpos]?
      let c2 ← source[srcpos + 1]?
      match hexDecode c1, hexDecode c2 with
      | some h1, some h2 =>
        let bbuffer ← store bbuffer bufpos (h1 <<< 4 ||| h2)
        if delimiter ≠ 0 ∧ source.length - (srcpos + 2) > 1 then
          let c ← source[srcpos + 2]?
          if c ≠ delimiter then some (0, bbuffer)
          else decodeLoop source delimiter bbuffer (srcpos + 3) (bufpos + 1)
        else decodeLoop source delimiter bbuffer (srcpos + 2) (bufpos + 1)
      | _, _ => some (0, bbuffer)
  else some (bufpos, bbuffer)
  termination_by source.length - srcpos

/-- The room that decoding can need. -/
def needed (srclen : ℕ) (delimiter : UInt8) : ℕ :=
  if delimiter ≠ 0 then (srclen + 1) / 3 else srclen / 2

/-- `hex_decode_with_delimiter`. -/
def hexDecodeWithDelimiter (cbuffer source : List UInt8) (delimiter : UInt8) :
    Option (ℕ × List UInt8) :=
  if cbuffer = [] then some (0, cbuffer)
  else if cbuffer.length < needed source.length delimiter then some (0, cbuffer)
  else decodeLoop source delimiter cbuffer 0 0

/-! ## Digits -/

/-- A hex digit, of either case. -/
def IsHexDigit (ch : UInt8) : Prop :=
  '0'.toUInt8 ≤ ch ∧ ch ≤ '9'.toUInt8 ∨ 'a'.toUInt8 ≤ ch ∧ ch ≤ 'f'.toUInt8 ∨
    'A'.toUInt8 ≤ ch ∧ ch ≤ 'F'.toUInt8

theorem exists_hexDecode_iff (ch : UInt8) : (∃ v, hexDecode ch = some v) ↔ IsHexDigit ch := by
  rw [hexDecode, IsHexDigit]
  by_cases h : ch ≥ '0'.toUInt8 ∧ ch ≤ '9'.toUInt8
  · simp [h]
  · by_cases h' : ch ≥ 'A'.toUInt8 ∧ ch ≤ 'F'.toUInt8
    · rw [if_neg h, if_pos h']
      exact iff_of_true ⟨_, rfl⟩ (.inr (.inr h'))
    · rw [if_neg h, if_neg h']
      by_cases h'' : ch ≥ 'a'.toUInt8 ∧ ch ≤ 'f'.toUInt8
      · rw [if_pos h'']
        exact iff_of_true ⟨_, rfl⟩ (.inr (.inl h''))
      · rw [if_neg h'']
        exact iff_of_false nofun fun hd => hd.elim h fun hd => hd.elim h'' h'

theorem hexDecode_hexEncode {v : UInt8} (hv : v < 16) : hexDecode (hexEncode v) = some v := by
  have hall : ∀ k < 16, hexDecode (hexEncode (UInt8.ofNat k)) = some (UInt8.ofNat k) := by decide
  have hk := hall v.toNat hv
  rwa [UInt8.ofNat_toNat] at hk

/-- A byte from its halves. -/
theorem shiftLeft_or (b : UInt8) : (b >>> 4 &&& 0xF) <<< 4 ||| (b &&& 0xF) = b := by
  have hall : ∀ k < 256, ((UInt8.ofNat k >>> 4 &&& 0xF) <<< 4 ||| (UInt8.ofNat k &&& 0xF)) =
    UInt8.ofNat k := by decide +kernel
  have hk := hall b.toNat b.toNat_lt
  rwa [UInt8.ofNat_toNat] at hk

/-! ## Coded text -/

/-- What two digits stand for. -/
def groupValue (a b : UInt8) : Option UInt8 :=
  match hexDecode a, hexDecode b with
  | some h1, some h2 => some (h1 <<< 4 ||| h2)
  | _, _ => none

/-- What stands between two groups. -/
def separator (delimiter : UInt8) : List UInt8 := if delimiter = 0 then [] else [delimiter]

/-- Groups of two characters, with the delimiter between them. -/
def join (delimiter : UInt8) (groups : List (UInt8 × UInt8)) : List UInt8 :=
  (separator delimiter).intercalate (groups.map fun g => [g.1, g.2])

variable {delimiter a b v : UInt8} {source rest values : List UInt8}

/-- A source that is groups of digits, and the bytes they stand for. -/
inductive Coded (delimiter : UInt8) : List UInt8 → List UInt8 → Prop
  /-- No groups. -/
  | nil : Coded delimiter [] []
  /-- One. -/
  | last {a b v : UInt8} (hv : groupValue a b = some v) : Coded delimiter [a, b] [v]
  /-- One in front of others. -/
  | cons {a b v w : UInt8} {source values : List UInt8} (hv : groupValue a b = some v)
    (h : Coded delimiter source (w :: values)) :
    Coded delimiter (a :: b :: (separator delimiter ++ source)) (v :: w :: values)

/-- The rest of a source behind a group and its delimiter. -/
def afterGroup (delimiter : UInt8) (rest : List UInt8) : Option (List UInt8) :=
  if delimiter ≠ 0 ∧ rest.length > 1 then
    if rest.head? = some delimiter then some rest.tail else none
  else some rest

theorem not_coded_singleton (h : Coded delimiter [a] values) : False := by
  cases h

theorem Coded.cons_of_ne_nil (hv : groupValue a b = some v) (h : Coded delimiter source values)
    (hne : source ≠ []) :
    Coded delimiter (a :: b :: (separator delimiter ++ source)) (v :: values) := by
  cases values with
  | nil =>
    cases h
    exact absurd rfl hne
  | cons w values => exact .cons hv h

theorem afterGroup_separator {w : UInt8} (h : Coded delimiter source (w :: values)) :
    afterGroup delimiter (separator delimiter ++ source) = some source := by
  by_cases hd : delimiter = 0
  · rw [afterGroup, if_neg (fun hn => hn.1 hd), separator, if_pos hd, List.nil_append]
  · have hlen : (delimiter :: source).length > 1 := by
      cases h <;> simp
    rw [separator, if_neg hd, List.singleton_append, afterGroup, if_pos ⟨hd, hlen⟩,
      List.head?_cons, if_pos rfl, List.tail_cons]

/-- **A source that starts with a group.** -/
theorem coded_cons_cons (hv : groupValue a b = some v) :
    Coded delimiter (a :: b :: rest) values ↔
      ∃ rest' values', afterGroup delimiter rest = some rest' ∧ Coded delimiter rest' values' ∧
        values = v :: values' := by
  constructor
  · intro h
    cases h with
    | last hv' =>
      rw [hv] at hv'
      cases hv'
      exact ⟨[], [], by simp [afterGroup], .nil, rfl⟩
    | @cons _ _ _ w source values hv' h =>
      rw [hv] at hv'
      cases hv'
      exact ⟨source, w :: values, afterGroup_separator h, h, rfl⟩
  · rintro ⟨rest', values', hrest, h, rfl⟩
    rw [afterGroup] at hrest
    by_cases hd : delimiter ≠ 0 ∧ rest.length > 1
    · rw [if_pos hd] at hrest
      cases rest with
      | nil => exact absurd hd.2 (by simp)
      | cons c rest =>
        by_cases hc : c = delimiter
        · subst hc
          rw [List.head?_cons, if_pos rfl, List.tail_cons] at hrest
          cases hrest
          have hcons := h.cons_of_ne_nil hv (by rintro rfl; exact absurd hd.2 (by simp))
          rwa [separator, if_neg hd.1] at hcons
        · rw [List.head?_cons, if_neg (fun heq => hc (Option.some.inj heq))] at hrest
          cases hrest
    · rw [if_neg hd] at hrest
      cases hrest
      cases rest with
      | nil =>
        cases h
        exact .last hv
      | cons c rest =>
        by_cases hzero : delimiter = 0
        · have hcons := h.cons_of_ne_nil hv (List.cons_ne_nil c rest)
          rwa [separator, if_pos hzero] at hcons
        · -- What is left of the delimiter is no group.
          cases rest with
          | nil => exact (not_coded_singleton h).elim
          | cons c' rest => exact absurd ⟨hzero, by simp⟩ hd

theorem groupValue_of_coded (h : Coded delimiter (a :: b :: rest) values) :
    ∃ v, groupValue a b = some v := by
  cases h with
  | last hv => exact ⟨_, hv⟩
  | cons hv _ => exact ⟨_, hv⟩

/-- A source stands for one list of bytes. -/
theorem Coded.unique {values' : List UInt8} (h : Coded delimiter source values)
    (h' : Coded delimiter source values') : values = values' := by
  induction h generalizing values' with
  | nil =>
    cases h'
    rfl
  | last hv =>
    obtain ⟨rest, values, hrest, h, rfl⟩ := (coded_cons_cons hv).mp h'
    rw [afterGroup, if_neg (by simp)] at hrest
    cases hrest
    cases h
    rfl
  | cons hv hsource ih =>
    obtain ⟨rest, values, hrest, h, rfl⟩ := (coded_cons_cons hv).mp h'
    rw [afterGroup_separator hsource] at hrest
    cases hrest
    rw [ih h]

/-- **The room a source needs** is that of the bytes it stands for. -/
theorem Coded.length_eq (h : Coded delimiter source values) :
    values.length = needed source.length delimiter := by
  induction h with
  | nil => simp [needed]
  | last _ => simp [needed]
  | cons _ _ ih =>
    rw [List.length_cons, ih, needed, needed, separator]
    by_cases hd : delimiter = 0
    · simp only [hd, if_true, List.length_cons, List.length_append, List.length_nil, ne_eq,
        not_true, if_false]
      omega
    · simp only [hd, if_false, List.length_cons, List.length_append, List.length_nil, ne_eq,
        not_false_eq_true, if_true]
      omega

theorem exists_groupValue_iff (a b : UInt8) :
    (∃ v, groupValue a b = some v) ↔ IsHexDigit a ∧ IsHexDigit b := by
  rw [← exists_hexDecode_iff, ← exists_hexDecode_iff, groupValue.eq_def]
  cases hexDecode a with
  | none => simp
  | some h1 =>
    cases hexDecode b with
    | none => simp
    | some h2 => simp

theorem join_cons_cons (delimiter : UInt8) (g h : UInt8 × UInt8) (gs : List (UInt8 × UInt8)) :
    join delimiter (g :: h :: gs) =
      g.1 :: g.2 :: (separator delimiter ++ join delimiter (h :: gs)) := by
  rw [join, List.map_cons, List.map_cons, List.intercalate_cons_cons, join, List.map_cons,
    List.append_assoc]
  rfl

theorem join_singleton (delimiter : UInt8) (g : UInt8 × UInt8) :
    join delimiter [g] = [g.1, g.2] := by
  rw [join, List.map_singleton, List.intercalate_singleton]

/-- **What is coded** is groups of digits. -/
theorem exists_coded_iff (delimiter : UInt8) (source : List UInt8) (n : ℕ) :
    (∃ values, Coded delimiter source values ∧ values.length = n) ↔
      ∃ groups, source = join delimiter groups ∧ groups.length = n ∧
        ∀ g ∈ groups, IsHexDigit g.1 ∧ IsHexDigit g.2 := by
  constructor
  · rintro ⟨values, h, rfl⟩
    induction h with
    | nil => exact ⟨[], rfl, rfl, by simp⟩
    | @last a b v hv =>
      refine ⟨[(a, b)], (join_singleton delimiter (a, b)).symm, rfl, ?_⟩
      rintro g hg
      rw [List.mem_singleton.mp hg]
      exact (exists_groupValue_iff a b).mp ⟨v, hv⟩
    | @cons a b v w source values hv _ ih =>
      obtain ⟨groups, rfl, hlen, hgroups⟩ := ih
      cases groups with
      | nil => cases hlen
      | cons h gs =>
        refine ⟨(a, b) :: h :: gs, (join_cons_cons delimiter (a, b) h gs).symm,
          by simpa using hlen, ?_⟩
        intro g hg
        rcases List.mem_cons.mp hg with rfl | hg
        · exact (exists_groupValue_iff a b).mp ⟨v, hv⟩
        · exact hgroups g hg
  · rintro ⟨groups, rfl, rfl, hgroups⟩
    induction groups with
    | nil => exact ⟨[], .nil, rfl⟩
    | cons g gs ih =>
      obtain ⟨v, hv⟩ := (exists_groupValue_iff g.1 g.2).mpr (hgroups g List.mem_cons_self)
      obtain ⟨values, h, hlen⟩ := ih fun g hg => hgroups g (List.mem_cons_of_mem _ hg)
      cases gs with
      | nil => exact ⟨[v], by rw [join_singleton]; exact .last hv, rfl⟩
      | cons g' gs =>
        cases values with
        | nil => cases hlen
        | cons w values =>
          exact ⟨v :: w :: values, by rw [join_cons_cons]; exact .cons hv h, by simpa using hlen⟩

/-! ## Encoding -/

/-- The two digits of a byte. -/
def digits (b : UInt8) : UInt8 × UInt8 := (hexEncode (b >>> 4 &&& 0xF), hexEncode (b &&& 0xF))

theorem groupValue_digits (b : UInt8) : groupValue (digits b).1 (digits b).2 = some b := by
  have hmask : ∀ x : UInt8, x &&& 0xF < 16 := fun x => by
    rw [UInt8.lt_iff_toNat_lt, UInt8.toNat_and]
    exact Nat.lt_of_le_of_lt Nat.and_le_right (by decide)
  rw [groupValue, digits, hexDecode_hexEncode (hmask _), hexDecode_hexEncode (hmask _)]
  exact congrArg some (shiftLeft_or b)

theorem coded_join (delimiter : UInt8) (s : List UInt8) :
    Coded delimiter (join delimiter (s.map digits)) s := by
  induction s with
  | nil => exact .nil
  | cons b s ih =>
    cases s with
    | nil =>
      rw [List.map_singleton, join_singleton]
      exact .last (groupValue_digits b)
    | cons c s =>
      rw [List.map_cons, List.map_cons, join_cons_cons]
      exact .cons (groupValue_digits b) ih

/-- A byte is stored behind what has been. -/
theorem store_append {pos : ℕ} {out : List UInt8} (hpos : pos = out.length) (x b : UInt8)
    (free : List UInt8) : store (out ++ x :: free) pos b = some ((out ++ [b]) ++ free) := by
  subst hpos
  rw [store, if_pos (by simp), List.set_append_right _ _ (Nat.le_refl _), Nat.sub_self,
    List.set_cons_zero, List.append_cons]

theorem getElem?_append_cons {pos : ℕ} {done : List UInt8} (hpos : pos = done.length) (c : UInt8)
    (rest : List UInt8) : (done ++ c :: rest)[pos]? = some c := by
  subst hpos
  rw [List.getElem?_append_right (Nat.le_refl _), Nat.sub_self, List.getElem?_cons_zero]

theorem join_map_cons (delimiter b : UInt8) (s : List UInt8) :
    join delimiter ((b :: s).map digits) =
      [(digits b).1, (digits b).2] ++
        ((if s = [] then [] else separator delimiter) ++ join delimiter (s.map digits)) := by
  cases s with
  | nil => exact join_singleton ..
  | cons c s => exact join_cons_cons ..

/-- The room for one byte more, and for the separator behind it. -/
theorem hexEncodeOutputLength_succ (n : ℕ) (delimiter : UInt8) :
    hexEncodeOutputLength (n + 1) delimiter =
      hexEncodeOutputLength n delimiter + 2 + if delimiter ≠ 0 ∧ n > 0 then 1 else 0 := by
  rw [hexEncodeOutputLength, hexEncodeOutputLength]
  by_cases hd : delimiter ≠ 0
  · rw [if_pos ⟨hd, Nat.succ_pos n⟩]
    by_cases hn : n > 0
    · rw [if_pos ⟨hd, hn⟩, if_pos ⟨hd, hn⟩]
      omega
    · rw [if_neg fun h => hn h.2, if_neg fun h => hn h.2]
      omega
  · rw [if_neg fun h => hd h.1, if_neg fun h => hd h.1, if_neg fun h => hd h.1]
    omega

/-- **The bytes from a position on** are encoded behind what has been. -/
theorem encodeLoop_eq {done out free : List UInt8} {srcpos bufpos : ℕ}
    (hsrcpos : srcpos = done.length) (hbufpos : bufpos = out.length)
    (hfree : free.length = hexEncodeOutputLength rest.length delimiter) :
    encodeLoop (done ++ rest) delimiter (out ++ free) srcpos bufpos =
      some (out ++ join delimiter (rest.map digits)) := by
  induction rest generalizing done out free srcpos bufpos with
  | nil =>
    have hnil : free = [] := by
      rw [← List.length_eq_zero_iff, hfree]
      simp [hexEncodeOutputLength]
    rw [encodeLoop, if_neg (by simp [hsrcpos]), hnil]
    rfl
  | cons ch rest ih =>
    have hlt : srcpos < (done ++ ch :: rest).length := by simp [hsrcpos]
    have hnext : srcpos + 1 < (done ++ ch :: rest).length ↔ rest.length > 0 := by
      simp [hsrcpos]
    have hdone : done ++ ch :: rest = (done ++ [ch]) ++ rest := List.append_cons ..
    rw [List.length_cons, hexEncodeOutputLength_succ] at hfree
    obtain ⟨x, free, rfl⟩ := List.exists_cons_of_length_pos (show 0 < free.length by omega)
    rw [List.length_cons] at hfree
    obtain ⟨y, free, rfl⟩ := List.exists_cons_of_length_pos (show 0 < free.length by omega)
    rw [List.length_cons] at hfree
    have hsecond : bufpos + 1 = (out ++ [(digits ch).1]).length := by simp [hbufpos]
    have hthird : bufpos + 2 = (out ++ [(digits ch).1] ++ [(digits ch).2]).length := by
      simp [hbufpos]
    rw [encodeLoop, if_pos hlt, getElem?_append_cons hsrcpos]
    change (store _ _ (digits ch).1).bind (fun buffer => (store buffer _ (digits ch).2).bind _) = _
    rw [store_append hbufpos, Option.bind_some, store_append hsecond, Option.bind_some,
      join_map_cons]
    by_cases hd : delimiter ≠ 0 ∧ rest.length > 0
    · rw [if_pos hd] at hfree
      obtain ⟨z, free, rfl⟩ := List.exists_cons_of_length_pos (show 0 < free.length by omega)
      have hfree' : free.length = hexEncodeOutputLength rest.length delimiter := by
        rw [List.length_cons] at hfree
        omega
      rw [if_pos ⟨hd.1, hnext.mpr hd.2⟩, store_append hthird, Option.bind_eq_bind,
        Option.bind_some, hdone, ih (by simp [hsrcpos]) (by simp [hbufpos]) hfree',
        if_neg (List.length_pos_iff.mp hd.2), separator, if_neg hd.1]
      simp
    · rw [if_neg hd] at hfree
      have hsep : (if rest = [] then [] else separator delimiter) = [] := by
        by_cases hrest : rest = []
        · rw [if_pos hrest]
        · rw [if_neg hrest, separator,
            if_pos (by_contra fun h => hd ⟨h, List.length_pos_iff.mpr hrest⟩)]
      rw [if_neg (fun h => hd ⟨h.1, hnext.mp h.2⟩), hdone,
        ih (by simp [hsrcpos]) (by simp [hbufpos]) (by omega), hsep]
      simp

/-- **What is encoded.** -/
theorem hexEncodeWithDelimiter_eq (source : List UInt8) (delimiter : UInt8) :
    hexEncodeWithDelimiter source delimiter = some (join delimiter (source.map digits)) := by
  have hnil : ([] : List UInt8).length = 0 := rfl
  exact encodeLoop_eq hnil.symm hnil.symm List.length_replicate

/-! ## Decoding -/

/-- What the loop has made of the rest of a source: the bytes it stands for, or nothing. -/
def Decoded (delimiter : UInt8) (rest out free : List UInt8) (n : ℕ) (buffer : List UInt8) : Prop :=
  (∃ values, Coded delimiter rest values ∧ values.length ≤ free.length ∧
    n = out.length + values.length ∧ buffer = out ++ values ++ free.drop values.length) ∨
  (n = 0 ∧ buffer.length = out.length + free.length ∧ ∀ values, ¬ Coded delimiter rest values)

/-- A group in front. -/
theorem Decoded.cons {out free buffer rest' : List UInt8} {n : ℕ} {x : UInt8}
    (hv : groupValue a b = some v) (hrest : afterGroup delimiter rest = some rest')
    (h : Decoded delimiter rest' (out ++ [v]) free n buffer) :
    Decoded delimiter (a :: b :: rest) out (x :: free) n buffer := by
  rcases h with ⟨values, hcoded, hlen, rfl, rfl⟩ | ⟨rfl, hlen, hcoded⟩
  · refine .inl ⟨v :: values, (coded_cons_cons hv).mpr ⟨rest', values, hrest, hcoded, rfl⟩,
      Nat.succ_le_succ hlen, ?_, ?_⟩
    · simp only [List.length_append, List.length_cons, List.length_nil]
      omega
    · simp
  · refine .inr ⟨rfl, ?_, fun values hvalues => ?_⟩
    · simp only [List.length_append, List.length_cons, List.length_nil] at hlen ⊢
      omega
    · obtain ⟨rest'', values', hrest', hcoded', -⟩ := (coded_cons_cons hv).mp hvalues
      rw [hrest] at hrest'
      cases hrest'
      exact hcoded values' hcoded'

theorem needed_cons_cons_pos (delimiter : UInt8) (n : ℕ) : 0 < needed (n + 2) delimiter := by
  rw [needed]
  split <;> omega

theorem needed_afterGroup {rest' : List UInt8} (h : afterGroup delimiter rest = some rest') :
    needed rest'.length delimiter + 1 ≤ needed (rest.length + 2) delimiter := by
  rw [afterGroup] at h
  by_cases hd : delimiter ≠ 0 ∧ rest.length > 1
  · rw [if_pos hd] at h
    split at h
    · cases h
      rw [needed, needed, if_pos hd.1, if_pos hd.1, List.length_tail]
      omega
    · cases h
  · rw [if_neg hd] at h
    cases h
    by_cases hzero : delimiter ≠ 0
    · have hlen : ¬ rest.length > 1 := fun h => hd ⟨hzero, h⟩
      rw [needed, needed, if_pos hzero, if_pos hzero]
      omega
    · rw [needed, needed, if_neg hzero, if_neg hzero]
      omega

theorem exists_append_of_afterGroup {rest' : List UInt8}
    (h : afterGroup delimiter rest = some rest') : ∃ sep, rest = sep ++ rest' := by
  rw [afterGroup] at h
  split at h
  · split at h
    · cases h
      exact ⟨rest.take 1, by rw [← List.drop_one, List.take_append_drop]⟩
    · cases h
  · cases h
    exact ⟨[], rfl⟩

section Loop

variable {done out free : List UInt8} {srcpos bufpos : ℕ}

/-- A turn of the loop, at a group. -/
theorem decodeLoop_cons_cons (hsrcpos : srcpos = done.length) (hbufpos : bufpos = out.length)
    (x : UInt8) : decodeLoop (done ++ a :: b :: rest) delimiter (out ++ x :: free) srcpos bufpos =
      match groupValue a b with
      | none => some (0, out ++ x :: free)
      | some v =>
        match afterGroup delimiter rest with
        | none => some (0, out ++ [v] ++ free)
        | some rest' => decodeLoop (done ++ a :: b :: rest) delimiter (out ++ [v] ++ free)
            (srcpos + 2 + (rest.length - rest'.length)) (bufpos + 1) := by
  have hlt : srcpos < (done ++ a :: b :: rest).length := by simp [hsrcpos]
  have hleft : (done ++ a :: b :: rest).length - (srcpos + 2) = rest.length := by
    simp only [List.length_append, List.length_cons, hsrcpos]
    omega
  have htwo : ¬ (done ++ a :: b :: rest).length - srcpos < 2 := by
    simp only [List.length_append, List.length_cons, hsrcpos]
    omega
  have hb : (done ++ a :: b :: rest)[srcpos + 1]? = some b := by
    rw [List.append_cons]
    exact getElem?_append_cons (by simp [hsrcpos]) b rest
  rw [decodeLoop, if_pos hlt, if_neg htwo, getElem?_append_cons hsrcpos, hb, hleft, groupValue,
    Option.bind_eq_bind, Option.bind_some, Option.bind_some]
  cases h1 : hexDecode a with
  | none => rfl
  | some h1 =>
    cases h2 : hexDecode b with
    | none => rfl
    | some h2 =>
      dsimp only
      rw [store_append hbufpos, Option.bind_eq_bind, Option.bind_some, afterGroup]
      by_cases hd : delimiter ≠ 0 ∧ rest.length > 1
      · rw [if_pos hd, if_pos hd]
        cases rest with
        | nil => exact absurd hd.2 (by simp)
        | cons c rest =>
          have hc : (done ++ a :: b :: c :: rest)[srcpos + 2]? = some c := by
            rw [List.append_cons, List.append_cons]
            exact getElem?_append_cons (by simp [hsrcpos]) c rest
          rw [hc, Option.bind_some, List.head?_cons, List.tail_cons]
          by_cases hcd : c = delimiter
          · rw [if_neg (not_not.mpr hcd), if_pos (congrArg some hcd)]
            simp
          · rw [if_pos hcd, if_neg fun h => hcd (Option.some.inj h)]
      · rw [if_neg hd, if_neg hd]
        simp

/-- **The source from a position on**, where there is as much room as it needs. -/
theorem decodeLoop_spec (hsrcpos : srcpos = done.length) (hbufpos : bufpos = out.length)
    (hfree : needed rest.length delimiter ≤ free.length) :
    ∃ n buffer, decodeLoop (done ++ rest) delimiter (out ++ free) srcpos bufpos =
      some (n, buffer) ∧ Decoded delimiter rest out free n buffer := by
  induction hn : rest.length using Nat.strongRecOn
    generalizing rest done out free srcpos bufpos with
  | ind k ih =>
    match rest with
    | [] =>
      refine ⟨bufpos, out ++ free, ?_, .inl ⟨[], .nil, Nat.zero_le _, hbufpos, by simp⟩⟩
      rw [decodeLoop, if_neg (by simp [hsrcpos])]
    | [c] =>
      refine ⟨0, out ++ free, ?_, .inr ⟨rfl, by simp, fun values h => not_coded_singleton h⟩⟩
      rw [decodeLoop, if_pos (by simp [hsrcpos]), if_pos (by simp [hsrcpos])]
    | a :: b :: rest =>
      have hpos : 0 < free.length :=
        Nat.lt_of_lt_of_le (needed_cons_cons_pos delimiter rest.length) hfree
      obtain ⟨x, free, rfl⟩ := List.exists_cons_of_length_pos hpos
      rw [decodeLoop_cons_cons hsrcpos hbufpos]
      cases hv : groupValue a b with
      | none =>
        refine ⟨0, _, rfl, .inr ⟨rfl, by simp, fun values h => ?_⟩⟩
        obtain ⟨v, hv'⟩ := groupValue_of_coded h
        rw [hv] at hv'
        cases hv'
      | some v =>
        dsimp only
        cases hrest : afterGroup delimiter rest with
        | none =>
          refine ⟨0, _, rfl, .inr ⟨rfl, by simp, fun values h => ?_⟩⟩
          obtain ⟨rest', values', hrest', -, -⟩ := (coded_cons_cons hv).mp h
          rw [hrest] at hrest'
          cases hrest'
        | some rest' =>
          obtain ⟨sep, rfl⟩ := exists_append_of_afterGroup hrest
          have hfree' : needed rest'.length delimiter ≤ free.length :=
            Nat.le_of_succ_le_succ (Nat.le_trans (needed_afterGroup hrest) hfree)
          have hdone : done ++ a :: b :: (sep ++ rest') = (done ++ a :: b :: sep) ++ rest' := by
            simp
          have hpos : srcpos + 2 + ((sep ++ rest').length - rest'.length) =
              (done ++ a :: b :: sep).length := by
            simp only [List.length_append, List.length_cons, hsrcpos]
            omega
          have hbufpos' : bufpos + 1 = (out ++ [v]).length := by simp [hbufpos]
          obtain ⟨n, buffer, hloop, hdecoded⟩ := ih rest'.length (by simp [← hn]; omega)
            hpos hbufpos' hfree' rfl
          refine ⟨n, buffer, ?_, hdecoded.cons hv hrest⟩
          dsimp only
          rw [hdone, hloop]

end Loop

/-- **Decoding**: the bytes that the source stands for, or nothing. -/
theorem hexDecodeWithDelimiter_spec (cbuffer source : List UInt8) (delimiter : UInt8) :
    ∃ n buffer, hexDecodeWithDelimiter cbuffer source delimiter = some (n, buffer) ∧
      buffer.length = cbuffer.length ∧
      ((∃ values, Coded delimiter source values ∧ values.length ≤ cbuffer.length ∧
          n = values.length ∧ buffer = values ++ cbuffer.drop values.length) ∨
        n = 0 ∧ ∀ values, Coded delimiter source values → values.length ≤ cbuffer.length →
          values.length = 0) := by
  rw [hexDecodeWithDelimiter]
  by_cases hempty : cbuffer = []
  · rw [if_pos hempty]
    refine ⟨0, cbuffer, rfl, rfl, .inr ⟨rfl, fun values _ hlen => ?_⟩⟩
    rw [hempty] at hlen
    exact Nat.le_zero.mp hlen
  · rw [if_neg hempty]
    by_cases hneeded : cbuffer.length < needed source.length delimiter
    · rw [if_pos hneeded]
      refine ⟨0, cbuffer, rfl, rfl, .inr ⟨rfl, fun values h hlen => ?_⟩⟩
      rw [h.length_eq] at hlen
      omega
    · rw [if_neg hneeded]
      have hnil : ([] : List UInt8).length = 0 := rfl
      obtain ⟨n, buffer, hloop, hdecoded⟩ :=
        decodeLoop_spec hnil.symm hnil.symm (Nat.not_lt.mp hneeded)
      refine ⟨n, buffer, hloop, ?_⟩
      rcases hdecoded with ⟨values, hcoded, hlen, rfl, rfl⟩ | ⟨rfl, hlen, hcoded⟩
      · refine ⟨?_, .inl ⟨values, hcoded, hlen, by simp, rfl⟩⟩
        simp only [List.nil_append, List.length_append, List.length_drop]
        omega
      · exact ⟨by simpa using hlen, .inr ⟨rfl, fun values h => (hcoded values h).elim⟩⟩

/-- **The hex coding**: what is encoded is decoded, into any buffer with room for it; the number of
bytes that is returned is that of the groups in the source, if it is groups and there is room for
them; and nothing is written outside of the buffer or read outside of the source. -/
theorem hex_exact (delimiter : UInt8) :
    (∀ s cbuffer, s ≠ [] → s.length ≤ cbuffer.length →
      ∃ text, hexEncodeWithDelimiter s delimiter = some text ∧
        hexDecodeWithDelimiter cbuffer text delimiter =
          some (s.length, s ++ cbuffer.drop s.length)) ∧
    ∀ cbuffer source, ∃ n buffer,
      hexDecodeWithDelimiter cbuffer source delimiter = some (n, buffer) ∧
        buffer.length = cbuffer.length ∧
        ∀ m > 0, n = m ↔ m ≤ cbuffer.length ∧
          ∃ groups, source = join delimiter groups ∧ groups.length = m ∧
            ∀ g ∈ groups, IsHexDigit g.1 ∧ IsHexDigit g.2 := by
  constructor
  · intro s cbuffer hs hlen
    refine ⟨_, hexEncodeWithDelimiter_eq s delimiter, ?_⟩
    obtain ⟨n, buffer, hdecode, -, h⟩ :=
      hexDecodeWithDelimiter_spec cbuffer (join delimiter (s.map digits)) delimiter
    rw [hdecode]
    rcases h with ⟨values, hcoded, -, rfl, rfl⟩ | ⟨-, h⟩
    · rw [hcoded.unique (coded_join delimiter s)]
    · exact absurd (List.eq_nil_of_length_eq_zero (h s (coded_join delimiter s) hlen)) hs
  · intro cbuffer source
    obtain ⟨n, buffer, hdecode, hbuffer, h⟩ :=
      hexDecodeWithDelimiter_spec cbuffer source delimiter
    refine ⟨n, buffer, hdecode, hbuffer, fun m hm => ?_⟩
    rw [← exists_coded_iff]
    rcases h with ⟨values, hcoded, hlen, rfl, -⟩ | ⟨rfl, h⟩
    · constructor
      · rintro rfl
        exact ⟨hlen, values, hcoded, rfl⟩
      · rintro ⟨-, values', hcoded', rfl⟩
        rw [hcoded.unique hcoded']
    · refine iff_of_false (Nat.ne_of_lt hm) ?_
      rintro ⟨hle, values, hcoded, rfl⟩
      rw [h values hcoded hle] at hm
      exact Nat.lt_irrefl 0 hm

end StringEncode

end TQLib
