import TQLib.Foundations.CText
import TQLib.IpAddress.Model

/-!
# `win32_inet_pton`

The parsers walk through the text with a cursor, and leave the numbers to `strtol` and `sscanf`. A
read at the cursor fails if there is nothing, so a result of `none` is a read behind the terminator;
inside of it, `none` is a text that is refused.
-/

namespace TQLib

namespace Win32

/-! ## The first family -/

/-- The body of the loop up to the value. -/
def inetPtonV4Number (p : List Char) (c : Char) : Option (Option (BitVec 8 × List Char)) :=
  if !isDigit 10 c then some none
  else
    (strtol p).map fun (value, n) =>
      if value < 0 ∨ 255 < value ∨ n = 0 then none else some (BitVec.ofInt 8 value, p.drop n)

/-- The loop of `inet_pton_v4`, with the room that is left in `result`. -/
def inetPtonV4Loop : ℕ → List Char → List (BitVec 8) → Option (Option (List (BitVec 8)))
  | 0, p, result => do
    let c ← p.head?
    if c = '\x00' then some (some result)
    else (inetPtonV4Number p c).map fun _ => none
  | free + 1, p, result => do
    let c ← p.head?
    if c = '\x00' then some none
    else
      match ← inetPtonV4Number p c with
      | none => some none
      | some (value, p) => do
        let c ← p.head?
        if c = '.' then inetPtonV4Loop free (p.drop 1) (result ++ [value])
        else if c ≠ '\x00' then some none
        else inetPtonV4Loop free p (result ++ [value])

/-- `inet_pton_v4`. -/
def inetPtonV4 (p : List Char) : Option (Option InAddr) :=
  (inetPtonV4Loop 4 p []).map fun result => result.map fun bytes i => bytes.getD i 0

/-! ## The second -/

/-- The number of colons at a pointer. -/
def countColons (p : List Char) : Option ℕ := (cString p).map fun cs => cs.count ':'

/-- The loop of `inet_pton_v6`, with the cursor as the number of shorts that are written or skipped.
A text is not longer than the number of turns. -/
def inetPtonV6Loop (e : Endian) : ℕ → List Char → ℕ → Bool → In6Addr → Option (Option In6Addr)
  | 0, _, _, _, _ => none
  | turns + 1, p, cursor, seencompressed, addr => do
    let c ← p.head?
    if c = '\x00' ∨ ¬ cursor < 8 then
      some (if c ≠ '\x00' ∨ cursor < 8 then none else some addr)
    else if c = ':' then do
      let next ← p[1]?
      if next = ':' then
        if seencompressed then some none
        else do
          let p := p.drop 2
          let c ← p.head?
          if c = '\x00' then inetPtonV6Loop e turns p 8 seencompressed addr
          else do
            let coloncount ← countColons p
            if 8 - cursor < coloncount + 1 then some none
            else inetPtonV6Loop e turns p (8 - (coloncount + 1)) true addr
      else inetPtonV6Loop e turns (p.drop 1) cursor seencompressed addr
    else
      match ← sscanfHex (some 4) p with
      | none => some none
      | some (word, bytesread) => do
        let addr := addr.put (2 * cursor) (e.store (n := 2) (e.hostToNetwork (n := 2) word))
        let p := p.drop bytesread
        let c ← p.head?
        if c ≠ ':' ∧ c ≠ '\x00' then some none
        else inetPtonV6Loop e turns p (cursor + 1) seencompressed addr

/-- The end of an address that has one of the first family at its end. -/
def inetPtonV6Tail (addr : In6Addr) (addrstart : List Char) : Option (Option In6Addr) :=
  (inetPtonV4 addrstart).map fun v4 => v4.map fun v4 => addr.put 12 v4

/-- An address that starts with `::` and has a period in it. -/
def inetPtonV6Dotted (addrstart : List Char) : Option (Option In6Addr) := do
  let addr : In6Addr := fun _ => 0
  match ← strchr addrstart ':' with
  | none => inetPtonV6Tail addr addrstart
  | some colon =>
    match ← sscanfHex none addrstart with
    | none => some none
    | some (short, bytesread) =>
      if short ≠ 0xFFFF ∨ bytesread ≠ 4 then some none
      else
        inetPtonV6Tail ((addr.put 10 (fun _ : Fin 1 => 0xFF)).put 11 fun _ : Fin 1 => 0xFF)
          (colon.drop 1)

/-- Whether an address is taken for one with a period: it starts with `::` and goes on. -/
def startsWithRun (p : List Char) : Option Bool := do
  let c ← p.head?
  if c ≠ ':' then some false
  else do
    let c ← p[1]?
    if c ≠ ':' then some false
    else do
      let c ← p[2]?
      some (c ≠ '\x00')

/-- `inet_pton_v6`. -/
def inetPtonV6 (e : Endian) (src : List Char) : Option (Option In6Addr) := do
  let cs ← cString src
  if 'x' ∈ cs then some none
  else do
    let dotted ←
      if ← startsWithRun src then (strchr (src.drop 2) '.').map Option.isSome else some false
    if dotted then inetPtonV6Dotted (src.drop 2)
    else inetPtonV6Loop e src.length src 0 false fun _ => 0

/-- `win32_inet_pton`, where the return value says that there is an address. -/
def win32InetPton (e : Endian) (af : Family) (src : List Char) : Option (Option IPAddress) :=
  match af with
  | .AF_INET => (inetPtonV4 src).map fun dst => dst.map .inet
  | .AF_INET6 => (inetPtonV6 e src).map fun dst => dst.map .inet6
  | .AF_UNSPEC => some none

end Win32

end TQLib
