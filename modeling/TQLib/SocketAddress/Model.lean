import TQLib.IpAddress.Model

/-!
# `rtc::SocketAddress`

An address with a port. It may have a host name, which stands for an address that is not known yet,
or is the text the address was read from, and that is said by `literal_`.

## Main results

* `beq_iff` — what `operator==` looks at
* `lt_iff` — what `operator<` looks at
-/

namespace TQLib

/-- `rtc::SocketAddress`. The scope is a number of 32 bits, which the class has as a signed one. -/
structure SocketAddress where
  /-- `hostname_`. -/
  hostname : List Char
  /-- `ip_`. -/
  ip : IPAddress
  /-- `port_`. -/
  port : BitVec 16
  /-- `scope_id_`. -/
  scopeId : BitVec 32
  /-- `literal_`. -/
  literal : Bool
  deriving DecidableEq

namespace SocketAddress

variable (e : Endian)

/-- `Clear`, which `SocketAddress::SocketAddress` calls. -/
def clear : SocketAddress := ⟨[], .unspec, 0, 0, false⟩

/-- `SetIP`, of an address. -/
def setIP (a : SocketAddress) (ip : IPAddress) : SocketAddress :=
  { a with hostname := [], literal := false, ip, scopeId := 0 }

/-- `SetResolvedIP`. -/
def setResolvedIP (a : SocketAddress) (ip : IPAddress) : SocketAddress :=
  { a with ip, scopeId := 0 }

/-- `SetPort`. The check of the range is one of debug builds; what is kept is the low half. -/
def setPort (a : SocketAddress) (port : ℤ) : SocketAddress :=
  { a with port := BitVec.ofInt 16 port }

/-- `SetScopeID`. -/
def setScopeID (a : SocketAddress) (id : BitVec 32) : SocketAddress := { a with scopeId := id }

/-- `SocketAddress::SocketAddress`, of an address and a port. -/
def ofIP (ip : IPAddress) (port : ℤ) : SocketAddress := (clear.setIP ip).setPort port

/-- `EqualIPs`. -/
def equalIPs (a addr : SocketAddress) : Bool :=
  a.ip.beq addr.ip && ((!a.ip.isAny e && !a.ip.isUnspec) || a.hostname == addr.hostname)

/-- `EqualPorts`. -/
def equalPorts (a addr : SocketAddress) : Bool := a.port == addr.port

/-- `operator==`. -/
def beq (a addr : SocketAddress) : Bool := a.equalIPs e addr && a.equalPorts addr

/-- `operator<`. -/
def lt (a addr : SocketAddress) : Bool :=
  if !a.ip.beq addr.ip then a.ip.lt e addr.ip
  else if (a.ip.isAny e || a.ip.isUnspec) && a.hostname != addr.hostname then
    decide (a.hostname < addr.hostname)
  else decide (a.port < addr.port)

/-- `Hash`. The port is promoted to `int`, and the sign of that fills the high half. -/
def hash (a : SocketAddress) : BitVec 64 :=
  0 ^^^ a.ip.hashIP e ^^^
    (a.port.setWidth 32 ||| (a.port.setWidth 32 <<< 16 : BitVec 32)).signExtend 64

/-- The host name, where it counts. -/
def comparedHostname (a : SocketAddress) : List Char :=
  if a.ip.isAny e || a.ip.isUnspec then a.hostname else []

variable {e} {a b : SocketAddress}

/-- Addresses are equal by the address, the host name where it counts, and the port. -/
theorem beq_iff : a.beq e b = true ↔
    a.ip = b.ip ∧ a.comparedHostname e = b.comparedHostname e ∧ a.port = b.port := by
  rw [beq, equalIPs, equalPorts, comparedHostname, comparedHostname]
  by_cases hip : a.ip = b.ip
  · rw [← hip]
    cases a.ip.isAny e <;> cases a.ip.isUnspec <;> simp
  · simp [hip]

/-- They are ordered by the same, in this order. -/
theorem lt_iff : a.lt e b = true ↔
    (a.ip ≠ b.ip ∧ a.ip.lt e b.ip = true) ∨ a.ip = b.ip ∧
      (a.comparedHostname e < b.comparedHostname e ∨
        a.comparedHostname e = b.comparedHostname e ∧ a.port < b.port) := by
  rw [lt, comparedHostname, comparedHostname]
  by_cases hip : a.ip = b.ip
  · rw [← hip]
    by_cases hhost : a.hostname = b.hostname
    · cases a.ip.isAny e <;> cases a.ip.isUnspec <;> simp [hhost]
    · cases a.ip.isAny e <;> cases a.ip.isUnspec <;> simp [hhost]
  · simp [hip]

end SocketAddress

end TQLib
