import TQLib.SocketAddress.Model

/-!
# Addresses in a `sockaddr_storage`

The block is laid over by one of two structures, which have the family and the port in one place,
and the address in two. The numbers of the families and the byte order are those of the platform.

## Main results

* `fromSockAddrStorage_inet`, `fromSockAddrStorage_inet6` — what is read is what was written
* `IPAddress.normalized_asIPv6Address` — a mapped address is the one that was mapped
* `storage_roundTrip` — the two together
-/

namespace TQLib

/-- What the structures depend on. -/
structure Platform where
  /-- The byte order. -/
  endian : Endian
  /-- `AF_INET6`, which is not one number everywhere. -/
  afInet6 : BitVec 16
  afInet6_ne_inet : afInet6 ≠ 2
  afInet6_ne_unspec : afInet6 ≠ 0

/-- `sockaddr_storage`. -/
abbrev SockAddrStorage := Bytes 128

namespace SocketAddress

variable (P : Platform)

/-- The number of a family. -/
def familyNumber : Family → BitVec 16
  | .AF_UNSPEC => 0
  | .AF_INET => 2
  | .AF_INET6 => P.afInet6

/-- `ss_family`. -/
def ssFamily (addr : SockAddrStorage) : BitVec 16 := P.endian.load (n := 2) (addr.get 0 2)

/-- `ToSockAddrStorageHelper`. -/
def toSockAddrStorageHelper (ip : IPAddress) (port : BitVec 16) (scopeId : BitVec 32) :
    SockAddrStorage × ℕ :=
  let addr : SockAddrStorage := fun _ => 0
  let addr := addr.put 0 (P.endian.store (n := 2) (familyNumber P ip.family))
  if ssFamily P addr = P.afInet6 then
    let addr := addr.put 8 ip.ipv6Address
    let addr := addr.put 2 (P.endian.store (n := 2) (P.endian.hostToNetwork (n := 2) port))
    (addr.put 24 (P.endian.store (n := 4) scopeId), 28)
  else if ssFamily P addr = 2 then
    let addr := addr.put 4 ip.ipv4Address
    (addr.put 2 (P.endian.store (n := 2) (P.endian.hostToNetwork (n := 2) port)), 16)
  else (addr, 0)

/-- `ToSockAddrStorage`. -/
def toSockAddrStorage (a : SocketAddress) : SockAddrStorage × ℕ :=
  toSockAddrStorageHelper P a.ip a.port a.scopeId

/-- `ToDualStackSockAddrStorage`. -/
def toDualStackSockAddrStorage (a : SocketAddress) : SockAddrStorage × ℕ :=
  toSockAddrStorageHelper P a.ip.asIPv6Address a.port a.scopeId

/-- `SocketAddressFromSockAddrStorage`. -/
def fromSockAddrStorage (addr : SockAddrStorage) : Option SocketAddress :=
  let port : BitVec 16 :=
    P.endian.networkToHost (n := 2) (P.endian.load (n := 2) (addr.get 2 2))
  if ssFamily P addr = 2 then some (ofIP (.inet (addr.get 4 4)) port.toNat)
  else if ssFamily P addr = P.afInet6 then
    some ((ofIP (.inet6 (addr.get 8 16)) port.toNat).setScopeID
      (P.endian.load (n := 4) (addr.get 24 4)))
  else none

end SocketAddress

/-! ## Mapped addresses -/

namespace IPAddress

/-- An address of the first family that has been mapped into the second, and back. -/
theorem normalized_asIPv6Address (a : InAddr) : (inet a).asIPv6Address.normalized = inet a := by
  have hmapped : (inet a).asIPv6Address.isV4Mapped = true := by
    rw [asIPv6Address, isV4Mapped_iff]
    intro i hi
    rw [dif_neg (by omega)]
  rw [asIPv6Address] at hmapped ⊢
  rw [normalized, hmapped]
  refine congrArg inet ?_
  funext i
  simp [extractMappedAddress]

/-- Mapping does not change what an address stands for. -/
theorem normalized_asIPv6Address_eq (ip : IPAddress) :
    ip.asIPv6Address.normalized = ip.normalized := by
  cases ip with
  | inet a => exact normalized_asIPv6Address a
  | _ => rfl

end IPAddress

/-! ## Reading what was written -/

namespace SocketAddress

variable {P : Platform} {port : BitVec 16} {scopeId : BitVec 32}

theorem setPort_toNat (a : SocketAddress) (port : BitVec 16) :
    a.setPort port.toNat = { a with port } := by
  simp [setPort]

theorem ssFamily_put (addr : SockAddrStorage) (family : BitVec 16) :
    ssFamily P (addr.put 0 (P.endian.store (n := 2) family)) = family := by
  rw [ssFamily, Bytes.get_put _ _ (by decide)]
  exact P.endian.load_store (n := 2) family

theorem ssFamily_put_of_le {len off : ℕ} (addr : SockAddrStorage) (x : Bytes len) (hoff : 2 ≤ off) :
    ssFamily P (addr.put off x) = ssFamily P addr := by
  rw [ssFamily, Bytes.get_put_of_disjoint _ _ (.inr (by omega)), ssFamily]

/-- The port goes through the byte order of the network and back. -/
theorem port_get_put (addr : SockAddrStorage) :
    P.endian.networkToHost (n := 2) (P.endian.load (n := 2) ((addr.put 2
      (P.endian.store (n := 2) (P.endian.hostToNetwork (n := 2) port))).get 2 2)) = port := by
  rw [Bytes.get_put _ _ (by decide)]
  have hload := P.endian.load_store (n := 2) (P.endian.hostToNetwork (n := 2) port)
  rw [hload]
  exact P.endian.networkToHost_hostToNetwork (n := 2) port

/-- An address of the first family. -/
theorem fromSockAddrStorage_inet (a : InAddr) :
    fromSockAddrStorage P (toSockAddrStorageHelper P (.inet a) port scopeId).1 =
      some (ofIP (.inet a) port.toNat) := by
  have hfamily : (2 : BitVec 16) ≠ P.afInet6 := P.afInet6_ne_inet.symm
  simp only [toSockAddrStorageHelper, IPAddress.family, familyNumber, ssFamily_put, hfamily,
    if_false, if_true, IPAddress.ipv4Address, fromSockAddrStorage, port_get_put]
  have haddr (addr : SockAddrStorage) (x : Bytes 2) : ((addr.put 4 a).put 2 x).get 4 4 = a := by
    rw [Bytes.get_put_of_disjoint _ _ (.inl (by decide)), Bytes.get_put _ _ (by decide)]
  rw [ssFamily_put_of_le _ _ (by decide), ssFamily_put_of_le _ _ (by decide), ssFamily_put, haddr,
    if_pos rfl]

/-- One of the second. -/
theorem fromSockAddrStorage_inet6 (a : In6Addr) :
    fromSockAddrStorage P (toSockAddrStorageHelper P (.inet6 a) port scopeId).1 =
      some ((ofIP (.inet6 a) port.toNat).setScopeID scopeId) := by
  simp only [toSockAddrStorageHelper, IPAddress.family, familyNumber, ssFamily_put, if_true,
    IPAddress.ipv6Address, fromSockAddrStorage]
  have haddr (addr : SockAddrStorage) (x : Bytes 2) (y : Bytes 4) :
      (((addr.put 8 a).put 2 x).put 24 y).get 8 16 = a := by
    rw [Bytes.get_put_of_disjoint _ _ (.inr (by decide)),
      Bytes.get_put_of_disjoint _ _ (.inl (by decide)), Bytes.get_put _ _ (by decide)]
  have hport (addr : SockAddrStorage) (y : Bytes 4) :
      (addr.put 24 y).get 2 2 = addr.get 2 2 := Bytes.get_put_of_disjoint _ _ (.inr (by decide))
  have hscope : P.endian.load (n := 4) (P.endian.store (n := 4) scopeId) = scopeId :=
    P.endian.load_store (n := 4) scopeId
  rw [ssFamily_put_of_le _ _ (by decide), ssFamily_put_of_le _ _ (by decide),
    ssFamily_put_of_le _ _ (by decide), ssFamily_put, haddr, hport, port_get_put,
    Bytes.get_put _ _ (by decide), hscope, if_neg P.afInet6_ne_inet, if_pos rfl]

/-- **Round trips** through both kinds of storage, and of an address that is mapped. -/
theorem storage_roundTrip (P : Platform) :
    (∀ a : SocketAddress, a.ip.family ≠ .AF_UNSPEC →
      (∃ b, fromSockAddrStorage P (a.toSockAddrStorage P).1 = some b ∧
        b.ip = a.ip ∧ b.port = a.port ∧ (a.ip.family = .AF_INET6 → b.scopeId = a.scopeId)) ∧
      ∃ b, fromSockAddrStorage P (a.toDualStackSockAddrStorage P).1 = some b ∧
        b.ip.normalized = a.ip.normalized ∧ b.port = a.port) ∧
    ∀ ip4 : InAddr, (IPAddress.inet ip4).asIPv6Address.normalized = .inet ip4 := by
  refine ⟨?_, IPAddress.normalized_asIPv6Address⟩
  intro a hfamily
  constructor
  · rw [toSockAddrStorage]
    cases hip : a.ip with
    | unspec => simp [hip, IPAddress.family] at hfamily
    | inet ip4 =>
      refine ⟨_, fromSockAddrStorage_inet ip4, rfl, ?_, by simp [IPAddress.family]⟩
      rw [ofIP, setPort_toNat]
    | inet6 ip6 =>
      refine ⟨_, fromSockAddrStorage_inet6 ip6, rfl, ?_, fun _ => rfl⟩
      rw [ofIP, setPort_toNat]
      rfl
  · rw [toDualStackSockAddrStorage, ← IPAddress.normalized_asIPv6Address_eq a.ip]
    -- an address of either family is one of the second now
    obtain ⟨ip6, hip⟩ : ∃ ip6, a.ip.asIPv6Address = .inet6 ip6 := by
      cases hip : a.ip with
      | unspec => simp [hip, IPAddress.family] at hfamily
      | inet ip4 => exact ⟨_, rfl⟩
      | inet6 ip6 => exact ⟨ip6, rfl⟩
    rw [hip]
    refine ⟨_, fromSockAddrStorage_inet6 ip6, rfl, ?_⟩
    rw [ofIP, setPort_toNat]
    rfl

end SocketAddress

end TQLib
