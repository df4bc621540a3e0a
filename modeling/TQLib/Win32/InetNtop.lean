import TQLib.Foundations.CText
import TQLib.IpAddress.Model

/-!
# `win32_inet_ntop`

An address is printed into a buffer. For the second family the zeros are marked first, from the
front with their positions in their runs, and from the back so that only the longest run stays
marked. The marks depend on which groups are zero and on nothing else.

## Main results

* `findRuns_spec` — what the marks come to
-/

namespace TQLib

namespace Win32

/-- `INET_ADDRSTRLEN`. -/
def inetAddrstrlen : ℕ := 22

/-- `INET6_ADDRSTRLEN`. -/
def inet6Addrstrlen : ℕ := 65

/-- `as_shorts[i]`, in the byte order of the machine. -/
def asShorts (e : Endian) (a : In6Addr) (i : ℕ) : BitVec 16 := e.load (a.get (2 * i) 2)

/-! ## The first family -/

/-- What `"%d.%d.%d.%d"` comes to. -/
def v4Text (a : InAddr) : List Char :=
  ['.'].intercalate ((List.ofFn a).map fun b => Nat.toDigits 10 b.toNat)

/-- `inet_ntop_v4`. The cursor of the caller stays where it is, and no buffer is a null pointer. -/
def inetNtopV4 (src : InAddr) (o : OutBuffer) (size : ℕ) : Option (Option OutBuffer) :=
  if size < inetAddrstrlen then some none
  else (o.snprintf size (v4Text src)).map fun o' => some ⟨o'.buf, o.cursor⟩

/-! ## The marks -/

/-- What `inet_ntop_v6` finds out about runs of zeros. -/
structure Runs where
  /-- `runpos`. -/
  runpos : List ℤ
  /-- `max`. -/
  max : ℕ
  /-- `maxpos`. -/
  maxpos : ℤ
  deriving DecidableEq

/-- The first loop, with which of the groups that are left are zero. -/
def markRuns : List Bool → ℕ → ℕ → Runs → Runs
  | [], _, _, r => r
  | zero :: zeros, i, current, r =>
    if zero then
      markRuns zeros (i + 1) (current + 1)
        ⟨r.runpos ++ [(current : ℤ)], if r.max < current then current else r.max,
          if r.max < current then i else r.maxpos⟩
    else markRuns zeros (i + 1) 1 { r with runpos := r.runpos ++ [-1] }

/-- The second, from the back. -/
def unmarkRuns : ℕ → List ℤ → ℤ → List ℤ
  | 0, runpos, _ => runpos
  | i + 1, runpos, tmpmax =>
    if tmpmax < i then unmarkRuns i (runpos.set i (-1)) tmpmax
    else if runpos.getD i 0 = -1 then unmarkRuns i runpos (-1)
    else unmarkRuns i runpos tmpmax

/-- Both loops. -/
def findRuns (zeros : List Bool) : Runs :=
  let r := markRuns zeros 0 1 ⟨[], 0, -1⟩
  if 0 < r.max then { r with runpos := unmarkRuns 8 r.runpos r.maxpos } else r

/-! ## The second family -/

/-- The loop that prints the groups. -/
def inetNtopV6Loop (e : Endian) (src : In6Addr) (r : Runs) : ℕ → ℕ → OutBuffer → Option OutBuffer
  | 0, _, _ => none
  | turns + 1, i, o =>
    if ¬ i < 8 then some o
    else if r.runpos.getD i 0 = -1 then do
      let o ← o.snprintf (inet6Addrstrlen - o.cursor)
        (Nat.toDigits 16 (e.networkToHost (n := 2) (asShorts e src i)).toNat)
      if i ≠ 7 ∧ r.runpos.getD (i + 1) 0 ≠ 1 then do
        let o ← o.putChar ':'
        inetNtopV6Loop e src r turns (i + 1) o
      else inetNtopV6Loop e src r turns (i + 1) o
    else if r.runpos.getD i 0 = 1 then do
      let o ← o.putChar ':'
      let o ← o.putChar ':'
      inetNtopV6Loop e src r turns (i + (r.max - 1) + 1) o
    else inetNtopV6Loop e src r turns (i + 1) o

/-- `inet_ntop_v6`. -/
def inetNtopV6 (e : Endian) (src : In6Addr) (dst : List Char) (size : ℕ) :
    Option (Option OutBuffer) :=
  if size < inet6Addrstrlen then some none
  else
    let r := findRuns ((List.range 8).map fun i => asShorts e src i == 0)
    let o : OutBuffer := ⟨dst, 0⟩
    if r.runpos.getD 0 0 = 1 ∧
        (r.maxpos = 5 ∨ r.maxpos = 4 ∧ asShorts e src 5 = 0xFFFF) then do
      let o ← o.putChar ':'
      let o ← o.putChar ':'
      let o ← if r.maxpos = 4 then o.snprintf (inet6Addrstrlen - 2) "ffff:".toList else some o
      -- a null pointer would be ignored
      let v4 ← inetNtopV4 (src.get 12 4) o (inet6Addrstrlen - o.cursor)
      some (some (v4.getD o))
    else (inetNtopV6Loop e src r 9 0 o).map some

/-- `win32_inet_ntop`, which leaves the text in the buffer. -/
def win32InetNtop (e : Endian) (src : IPAddress) (dst : List Char) (size : ℕ) :
    Option (Option (List Char)) :=
  match src with
  | .inet a => (inetNtopV4 a ⟨dst, 0⟩ size).map (Option.map OutBuffer.buf)
  | .inet6 a => (inetNtopV6 e a dst size).map (Option.map OutBuffer.buf)
  | .unspec => some none

/-! ## What the marks come to -/

/-- One run is marked, in a pattern of zeros where it stands. -/
def MarksRun (zeros : List Bool) (r : Runs) (start : ℕ) : Prop :=
  0 < r.max ∧ start + r.max ≤ 8 ∧ r.maxpos = start + r.max - 1 ∧
    r.runpos = List.replicate start (-1) ++
      ((List.range r.max).map (fun k : ℕ => (k : ℤ) + 1) ++
        List.replicate (8 - (start + r.max)) (-1)) ∧
    (zeros.drop start).take r.max = List.replicate r.max true

instance (zeros : List Bool) (r : Runs) (start : ℕ) : Decidable (MarksRun zeros r start) :=
  inferInstanceAs (Decidable (_ ∧ _))

/-- **What the marks come to**: there is one run, or none is marked. -/
theorem findRuns_spec (b0 b1 b2 b3 b4 b5 b6 b7 : Bool) :
    (∃ start < 8, MarksRun [b0, b1, b2, b3, b4, b5, b6, b7]
      (findRuns [b0, b1, b2, b3, b4, b5, b6, b7]) start) ∨
    findRuns [b0, b1, b2, b3, b4, b5, b6, b7] = ⟨List.replicate 8 (-1), 0, -1⟩ := by
  revert b0 b1 b2 b3 b4 b5 b6 b7
  decide +kernel

end Win32

end TQLib
