import TQLib.StringEncode.Hex

/-!
# Base64

The coder of `rtc_base/third_party/base64/base64.cc`. Characters are bytes. The encoder goes over
the bytes by their positions and stores into a buffer whose size has been worked out before; what
reads or stores outside has no result.

The decoder takes one *quantum* after the other: up to four characters of the alphabet, and what may
stand between and behind them. Three groups of flags say which characters are passed over, what is
to become of padding, and where the text may end.

## Main definitions

* `encodeFromArray` — the encoder
* `getNextQuantum` — one quantum
* `decodeFromArray` — the decoder
-/

namespace TQLib

namespace Base64

open StringEncode (store)

/-- `kPad`. -/
def kPad : UInt8 := '='.toUInt8

/-- `pd`: padding. -/
def pd : UInt8 := 0xFD

/-- `sp`: whitespace. -/
def sp : UInt8 := 0xFE

/-- `il`: no character of the alphabet. -/
def il : UInt8 := 0xFF

/-- `Base64Table`. -/
def base64Table : List UInt8 :=
  "ABCDEFGHIJKLMNOPQRSTUVWXYZabcdefghijklmnopqrstuvwxyz0123456789+/".toList.map Char.toUInt8

/-- `DecodeTable`. -/
def decodeTable : List UInt8 :=
  [il, il, il, il, il, il, il, il, il, sp,
   sp, sp, sp, sp, il, il, il, il, il, il,
   il, il, il, il, il, il, il, il, il, il,
   il, il, sp, il, il, il, il, il, il, il,
   il, il, il, 62, il, il, il, 63, 52, 53,
   54, 55, 56, 57, 58, 59, 60, 61, il, il,
   il, pd, il, il, il, 0,  1,  2,  3,  4,
   5,  6,  7,  8,  9,  10, 11, 12, 13, 14,
   15, 16, 17, 18, 19, 20, 21, 22, 23, 24,
   25, il, il, il, il, il, il, 26, 27, 28,
   29, 30, 31, 32, 33, 34, 35, 36, 37, 38,
   39, 40, 41, 42, 43, 44, 45, 46, 47, 48,
   49, 50, 51, il, il, il, il, il, il, il,
   il, il, il, il, il, il, il, il, il, il,
   il, il, il, il, il, il, il, il, il, il,
   il, il, il, il, il, il, il, il, il, il,
   il, il, il, il, il, il, il, il, il, il,
   il, il, il, il, il, il, il, il, il, il,
   il, il, il, il, il, il, il, il, il, il,
   il, il, il, il, il, il, il, il, il, il,
   il, il, il, il, il, il, il, il, il, il,
   il, il, il, il, il, il, il, il, il, il,
   il, il, il, il, il, il, il, il, il, il,
   il, il, il, il, il, il, il, il, il, il,
   il, il, il, il, il, il, il, il, il, il,
   il, il, il, il, il, il]

/-- `IsBase64Char`. -/
def isBase64Char (ch : UInt8) : Bool :=
  ('A'.toUInt8 ≤ ch ∧ ch ≤ 'Z'.toUInt8) ∨ ('a'.toUInt8 ≤ ch ∧ ch ≤ 'z'.toUInt8) ∨
    ('0'.toUInt8 ≤ ch ∧ ch ≤ '9'.toUInt8) ∨ ch = '+'.toUInt8 ∨ ch = '/'.toUInt8

/-- `IsBase64Encoded`. -/
def isBase64Encoded (str : List UInt8) : Bool := str.all isBase64Char

/-! ## The encoder -/

/-- `if (++i < len) c |= (byte_data[i] >> shift) & mask`, of the `i` which has been counted up. -/
def withNext (byteData : List UInt8) (i : ℕ) (c shift mask : UInt8) : Option UInt8 :=
  if i < byteData.length then byteData[i]?.map fun b => c ||| (b >>> shift &&& mask) else some c

/-- One turn of the loop of `EncodeFromArray`: the buffer, `i` and `dest_ix`. -/
def encodeTurn (byteData result : List UInt8) (i destIx : ℕ) : Option (List UInt8 × ℕ × ℕ) := do
  let b ← byteData[i]?
  let result ← store result destIx (← base64Table[(b >>> 2 &&& 0x3f).toNat]?)
  let c ← withNext byteData (i + 1) (b <<< 4 &&& 0x3f) 4 0x0f
  let result ← store result (destIx + 1) (← base64Table[c.toNat]?)
  if i + 1 < byteData.length then
    let b ← byteData[i + 1]?
    let c ← withNext byteData (i + 2) (b <<< 2 &&& 0x3f) 6 0x03
    let result ← store result (destIx + 2) (← base64Table[c.toNat]?)
    if i + 2 < byteData.length then
      let b ← byteData[i + 2]?
      let result ← store result (destIx + 3) (← base64Table[(b &&& 0x3f).toNat]?)
      return (result, i + 3, destIx + 4)
    else
      return (← store result (destIx + 3) kPad, i + 2, destIx + 4)
  else
    -- Nothing is left for the fourth character either.
    let result ← store result (destIx + 2) kPad
    return (← store result (destIx + 3) kPad, i + 1, destIx + 4)

/-- A turn takes a byte. -/
theorem encodeTurn_lt {byteData result result' : List UInt8} {i destIx i' destIx' : ℕ}
    (h : encodeTurn byteData result i destIx = some (result', i', destIx')) : i < i' := by
  simp only [encodeTurn, Option.bind_eq_bind, Option.bind_eq_some_iff, Option.pure_def] at h
  obtain ⟨b, _, _, _, _, _, c, _, _, _, _, _, h⟩ := h
  split at h
  · simp only [Option.bind_eq_some_iff] at h
    obtain ⟨b, _, c, _, _, _, _, _, h⟩ := h
    split at h
    all_goals
      simp only [Option.bind_eq_some_iff, Option.some.injEq, Prod.mk.injEq] at h
      omega
  · simp only [Option.bind_eq_some_iff, Option.some.injEq, Prod.mk.injEq] at h
    omega

/-- The loop of `EncodeFromArray`. -/
def encodeLoop (byteData result : List UInt8) (i destIx : ℕ) : Option (List UInt8) :=
  if i < byteData.length then
    match h : encodeTurn byteData result i destIx with
    | some (result, i', destIx) =>
      have := encodeTurn_lt h
      encodeLoop byteData result i' destIx
    | none => none
  else some result
  termination_by byteData.length - i

/-- `EncodeFromArray`. -/
def encodeFromArray (data : List UInt8) : Option (List UInt8) :=
  encodeLoop data (List.replicate ((data.length + 2) / 3 * 4) 0) 0 0

/-! ## The decoder -/

/-- `DO_PARSE_STRICT`: only characters of the alphabet. -/
def DO_PARSE_STRICT : ℕ := 1

/-- `DO_PARSE_WHITE`: these, and whitespace. -/
def DO_PARSE_WHITE : ℕ := 2

/-- `DO_PARSE_ANY`: all characters. -/
def DO_PARSE_ANY : ℕ := 3

/-- `DO_PARSE_MASK`. -/
def DO_PARSE_MASK : ℕ := 3

/-- `DO_PAD_YES`: padding is required. -/
def DO_PAD_YES : ℕ := 4

/-- `DO_PAD_ANY`: padding is optional. -/
def DO_PAD_ANY : ℕ := 8

/-- `DO_PAD_NO`: padding is disallowed. -/
def DO_PAD_NO : ℕ := 12

/-- `DO_PAD_MASK`. -/
def DO_PAD_MASK : ℕ := 12

/-- `DO_TERM_BUFFER`: must terminate at the end of the buffer. -/
def DO_TERM_BUFFER : ℕ := 16

/-- `DO_TERM_CHAR`: may terminate at any character boundary. -/
def DO_TERM_CHAR : ℕ := 32

/-- `DO_TERM_ANY`: may terminate at a sub-character bit offset. -/
def DO_TERM_ANY : ℕ := 48

/-- `DO_TERM_MASK`. -/
def DO_TERM_MASK : ℕ := 48

/-- `DO_STRICT`. -/
def DO_STRICT : ℕ := DO_PARSE_STRICT ||| DO_PAD_YES ||| DO_TERM_BUFFER

/-- The variables of `GetNextQuantum`. -/
structure Quantum where
  /-- `byte_len`: the characters of the alphabet so far. -/
  byteLen : ℕ := 0
  /-- `pad_len`: the padding behind them. -/
  padLen : ℕ := 0
  /-- `pad_start`: where it began. -/
  padStart : ℕ := 0
  /-- `*dpos`. -/
  dpos : ℕ
  /-- `qbuf`. -/
  qbuf : List UInt8

/-- The body of the loop of `GetNextQuantum`, with what the table says of the character. `none` is
`break`. -/
def quantumBody (parseFlags : ℕ) (illegalPads : Bool) (v : UInt8) (q : Quantum) : Option Quantum :=
  if il = v ∨ illegalPads ∧ pd = v then
    -- Ignore illegal characters.
    if parseFlags ≠ DO_PARSE_ANY then none else some q
  else if sp = v then
    -- Ignore spaces.
    if parseFlags = DO_PARSE_STRICT then none else some q
  else if pd = v then
    if q.byteLen < 2 then
      -- Ignore unexpected padding.
      if parseFlags ≠ DO_PARSE_ANY then none else some q
    else if q.byteLen + q.padLen ≥ 4 then
      -- Ignore extra pads.
      if parseFlags ≠ DO_PARSE_ANY then none else some q
    else some { q with
      padLen := q.padLen + 1
      padStart := if q.padLen + 1 = 1 then q.dpos else q.padStart }
  else if q.padLen > 0 then
    -- Ignore pads which are followed by data.
    if parseFlags ≠ DO_PARSE_ANY then none
    else some { q with padLen := 0, byteLen := q.byteLen + 1 }
  else some { q with byteLen := q.byteLen + 1 }

/-- The loop of `GetNextQuantum` over the characters from `*dpos` on. -/
def quantumLoop (parseFlags : ℕ) (illegalPads : Bool) : List UInt8 → Quantum → Quantum
  | [], q => q
  | ch :: rest, q =>
    if q.byteLen < 4 then
      let v := decodeTable.getD ch.toNat 0
      let q := { q with qbuf := q.qbuf.set q.byteLen v }
      match quantumBody parseFlags illegalPads v q with
      | some q => quantumLoop parseFlags illegalPads rest { q with dpos := q.dpos + 1 }
      | none => q
    else q

/-- `GetNextQuantum`: what it returns, `qbuf`, `*dpos` and `*padded`. The buffer starts with zeros:
all of it is written here, whatever was in it. -/
def getNextQuantum (parseFlags : ℕ) (illegalPads : Bool) (data : List UInt8) (dpos : ℕ) :
    ℕ × List UInt8 × ℕ × Bool :=
  let q := quantumLoop parseFlags illegalPads (data.drop dpos)
    { dpos, qbuf := List.replicate 4 0 }
  let qbuf := q.qbuf.take q.byteLen ++ List.replicate (4 - q.byteLen) 0
  if 4 = q.byteLen + q.padLen then (q.byteLen, qbuf, q.dpos, true)
  -- Roll back illegal padding.
  else (q.byteLen, qbuf, if q.padLen ≠ 0 then q.padStart else q.dpos, false)

end Base64

end TQLib
