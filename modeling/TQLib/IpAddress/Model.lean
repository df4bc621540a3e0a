import TQLib.Foundations.ByteOrder
import Mathlib.Data.Fintype.Pi
import Mathlib.Data.List.FinRange

/-!
# `rtc::IPAddress`

An address of one of two families, or none at all. It is kept as the bytes that go over the network;
where the code takes them as integers, it has them in the byte order of the machine first.

## Main results

* `networkToHost_sAddr`, `ofHostOrder_eq` — what an address is as an integer
* `beq_iff` — `operator==` is equality
-/

namespace TQLib

/-- `in_addr`. -/
abbrev InAddr := Bytes 4

/-- `in6_addr`. -/
abbrev In6Addr := Bytes 16

/-- The families. -/
inductive Family
  | AF_UNSPEC
  | AF_INET
  | AF_INET6
  deriving DecidableEq

/-- `rtc::IPAddress`. The union has the member of the family. -/
inductive IPAddress
  | unspec
  | inet (ip4 : InAddr)
  | inet6 (ip6 : In6Addr)
  deriving DecidableEq

namespace IPAddress

variable (e : Endian)

/-! ## The class -/

/-- `family`. -/
def family : IPAddress → Family
  | unspec => .AF_UNSPEC
  | inet _ => .AF_INET
  | inet6 _ => .AF_INET6

/-- `s_addr`. -/
def sAddr (a : InAddr) : BitVec 32 := e.load a

/-- `s6_addr` as an array of integers. -/
def asInts (a : In6Addr) (i : Fin 4) : BitVec 32 := e.load fun j : Fin 4 => a ⟨4 * i + j, by omega⟩

/-- Write one of the integers. -/
def setInt (a : In6Addr) (i : Fin 4) (x : BitVec 32) : In6Addr := fun k =>
  if (k : ℕ) / 4 = i then (e.store (n := 4) x) ⟨k % 4, Nat.mod_lt _ (by decide)⟩ else a k

/-- `IPAddress::IPAddress`, from an integer. -/
def ofHostOrder (ip : BitVec 32) : IPAddress :=
  inet (e.store (n := 4) (e.hostToNetwork (n := 4) ip))

/-- `in6addr_any`. -/
def in6addrAny : In6Addr := fun _ => 0

/-- `kV4MappedPrefix`. -/
def kV4MappedPrefix : In6Addr := fun i => if (i : ℕ) = 10 ∨ (i : ℕ) = 11 then 0xff else 0

/-- `ipv4_address`. -/
def ipv4Address : IPAddress → InAddr
  | unspec => fun _ => 0
  | inet a => a
  | inet6 a => fun i => a (i.castLE (by decide))

/-- `ipv6_address`. -/
def ipv6Address : IPAddress → In6Addr
  | unspec => fun _ => 0
  | inet a => fun i => if h : (i : ℕ) < 4 then a ⟨i, h⟩ else 0
  | inet6 a => a

/-- `IPAddress::operator==`. -/
def beq (ip other : IPAddress) : Bool :=
  match ip, other with
  | unspec, unspec => true
  | inet a, inet b => Bytes.memcmp (List.ofFn a) (List.ofFn b) == .eq
  | inet6 a, inet6 b => Bytes.memcmp (List.ofFn a) (List.ofFn b) == .eq
  | _, _ => false

/-- `IPAddress::operator<`. -/
def lt (ip other : IPAddress) : Bool :=
  match ip, other with
  | inet a, inet b => decide (e.networkToHost (n := 4) (sAddr e a) <
      e.networkToHost (n := 4) (sAddr e b))
  | inet6 a, inet6 b => Bytes.memcmp (List.ofFn a) (List.ofFn b) == .lt
  | unspec, unspec => false
  | unspec, _ => true
  | inet _, inet6 _ => true
  | _, _ => false

/-- `IPAddress::operator>`. -/
def gt (ip other : IPAddress) : Bool := !ip.beq other && !lt e ip other

/-! ## The functions on addresses -/

/-- `IPIsUnspec`. -/
def isUnspec (ip : IPAddress) : Bool := ip.family == .AF_UNSPEC

/-- `IPIsAny`. -/
def isAny (ip : IPAddress) : Bool :=
  match ip with
  | inet _ => ip.beq (ofHostOrder e 0)
  | inet6 _ => ip.beq (inet6 in6addrAny) || ip.beq (inet6 kV4MappedPrefix)
  | unspec => false

/-- `IPIsHelper`. -/
def isHelper (ip : IPAddress) (tomatch : In6Addr) (length : ℕ) : Bool :=
  Bytes.memcmp ((List.ofFn ip.ipv6Address).take (length >>> 3))
    ((List.ofFn tomatch).take (length >>> 3)) == .eq

/-- `IPIsV4Mapped`. -/
def isV4Mapped (ip : IPAddress) : Bool := ip.isHelper kV4MappedPrefix 96

/-- `ExtractMappedAddress`. -/
def extractMappedAddress (in6 : In6Addr) : InAddr := fun i => in6 ⟨12 + i, by omega⟩

/-- `Normalized`. -/
def normalized (ip : IPAddress) : IPAddress :=
  match ip with
  | inet6 a => if !ip.isV4Mapped then ip else inet (extractMappedAddress a)
  | _ => ip

/-- `AsIPv6Address`. -/
def asIPv6Address (ip : IPAddress) : IPAddress :=
  match ip with
  | inet a => inet6 fun i => if h : 12 ≤ (i : ℕ) then a ⟨i - 12, by omega⟩ else kV4MappedPrefix i
  | _ => ip

/-- `HashIP`. -/
def hashIP (ip : IPAddress) : BitVec 64 :=
  match ip with
  | inet a => (sAddr e a).setWidth 64
  | inet6 a => (asInts e a 0 ^^^ asInts e a 1 ^^^ asInts e a 2 ^^^ asInts e a 3).setWidth 64
  | unspec => 0

/-- `TruncateIP`. -/
def truncateIP (ip : IPAddress) (length : ℤ) : IPAddress :=
  if length < 0 then unspec
  else
    match ip with
    | inet a =>
      if 31 < length then ip
      else if length = 0 then ofHostOrder e 0
      else
        let mask : BitVec 32 := 0xFFFFFFFF#32 <<< (32 - length).toNat
        let hostOrderIp : BitVec 32 := e.networkToHost (n := 4) (sAddr e a)
        inet (e.store (n := 4) (e.hostToNetwork (n := 4) (hostOrderIp &&& mask)))
    | inet6 a =>
      if 127 < length then ip
      else if length = 0 then inet6 in6addrAny
      else
        let position := (length / 32).toNat
        let innerLength := (32 - (length - position * 32)).toNat
        let innerMask : BitVec 32 := (0xFFFFFFFF#64 <<< innerLength).setWidth 32
        inet6 <| (List.finRange 4).foldl (fun (v6addr : In6Addr) (i : Fin 4) =>
          if (i : ℕ) = position then
            let hostOrderInner : BitVec 32 := e.networkToHost (n := 4) (asInts e v6addr i)
            setInt e v6addr i (e.hostToNetwork (n := 4) (hostOrderInner &&& innerMask))
          else if position < (i : ℕ) then setInt e v6addr i 0
          else v6addr) a
    | unspec => unspec

/-- The trailing zeros of a word that has one bit. -/
def countZeroes (word : BitVec 32) : ℕ :=
  let zeroes := 32
  let zeroes := if word ≠ 0 then zeroes - 1 else zeroes
  let zeroes := if word &&& 0x0000FFFF#32 ≠ 0 then zeroes - 16 else zeroes
  let zeroes := if word &&& 0x00FF00FF#32 ≠ 0 then zeroes - 8 else zeroes
  let zeroes := if word &&& 0x0F0F0F0F#32 ≠ 0 then zeroes - 4 else zeroes
  let zeroes := if word &&& 0x33333333#32 ≠ 0 then zeroes - 2 else zeroes
  if word &&& 0x55555555#32 ≠ 0 then zeroes - 1 else zeroes

/-- What `CountIPMaskBits` does with the word to count. -/
def countWord (word : BitVec 32) (bits : ℕ) : ℕ :=
  if word = 0 then bits else bits + (32 - countZeroes (word &&& (~~~word + 1)))

/-- `CountIPMaskBits`. -/
def countIPMaskBits (mask : IPAddress) : ℕ :=
  match mask with
  | inet a => countWord (e.networkToHost (n := 4) (sAddr e a)) 0
  | inet6 a =>
    match (List.finRange 4).find? fun i : Fin 4 => asInts e a i ≠ 0xFFFFFFFF with
    | some i => countWord (e.networkToHost (n := 4) (asInts e a i)) (i * 32)
    | none => 4 * 32
  | unspec => 0

/-! ## What they come to -/

/-- The integer that an address of the first family is. -/
theorem networkToHost_sAddr (a : InAddr) : e.networkToHost (n := 4) (sAddr e a) = a.value :=
  e.networkToHost_load a

theorem ofHostOrder_eq (ip : BitVec 32) : ofHostOrder e ip = inet (Bytes.ofValue (n := 4) ip) :=
  congrArg inet (e.store_hostToNetwork (n := 4) ip)

/-- `operator==` is equality. -/
@[simp] theorem beq_iff {ip other : IPAddress} : ip.beq other = true ↔ ip = other := by
  cases ip with
  | unspec => cases other <;> simp [beq]
  | inet a =>
    cases other with
    | inet b => rw [beq, beq_iff_eq, Bytes.memcmp_ofFn_eq_iff, inet.injEq]
    | _ => simp [beq]
  | inet6 a =>
    cases other with
    | inet6 b => rw [beq, beq_iff_eq, Bytes.memcmp_ofFn_eq_iff, inet6.injEq]
    | _ => simp [beq]

/-- `IPIsV4Mapped` looks at the first twelve bytes. -/
theorem isV4Mapped_iff {a : In6Addr} :
    (inet6 a).isV4Mapped = true ↔ ∀ i : Fin 16, (i : ℕ) < 12 → a i = kV4MappedPrefix i := by
  rw [isV4Mapped, isHelper, beq_iff_eq, Bytes.memcmp_eq_iff (by simp), Bytes.take_ofFn_eq_iff]
  rfl

end IPAddress

end TQLib
