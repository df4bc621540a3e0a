import TQLib.Foundations.Keys
import TQLib.SocketAddress.Model
import Mathlib.Data.Char

/-!
# Addresses as keys

`operator<` and `operator==` of addresses look at one key: the family, and the address as an integer
or as bytes; then the host name where it counts, then the port. `Hash` looks at less, so what is
equal has one hash. What the class has besides, the host name of a resolved address, whether it is
literal, and the scope, is in none of them.

## Main results

* `IPAddress.orderedBy_key` — the order of the addresses
* `SocketAddress.orderedBy_key` — with host names and ports
* `SocketAddress.comparisons_agree` — what follows for maps of either
-/

namespace TQLib

variable {e : Endian}

namespace IPAddress

/-- The family, and what is compared within it. -/
def key : IPAddress → ℕ ×ₗ List ℕ
  | unspec => toLex (0, [])
  | inet a => toLex (1, [a.value.toNat])
  | inet6 a => toLex (2, (List.ofFn a).map BitVec.toNat)

theorem key_inj {ip jp : IPAddress} : ip.key = jp.key ↔ ip = jp := by
  cases ip with
  | unspec => cases jp <;> simp [key]
  | inet a =>
    cases jp with
    | inet b => simp [key, BitVec.toNat_inj, Bytes.value_injective.eq_iff]
    | _ => simp [key]
  | inet6 a =>
    cases jp with
    | inet6 b =>
      have hinj : Function.Injective (List.map (BitVec.toNat (w := 8))) :=
        List.map_injective_iff.2 fun x y hxy => BitVec.eq_of_toNat_eq hxy
      rw [key, key, toLex_inj, Prod.mk.injEq, hinj.eq_iff, List.ofFn_injective.eq_iff, inet6.injEq]
      simp
    | _ => simp [key]

theorem lt_iff_key {ip jp : IPAddress} : ip.lt e jp = true ↔ ip.key < jp.key := by
  cases ip with
  | unspec => cases jp <;> simp [lt, key, Prod.Lex.toLex_lt_toLex]
  | inet a =>
    cases jp with
    | inet b =>
      rw [lt, networkToHost_sAddr, networkToHost_sAddr, decide_eq_true_iff, key, key,
        Prod.Lex.toLex_lt_toLex]
      simp [BitVec.lt_def, List.cons_lt_cons_iff]
    | _ => simp [lt, key, Prod.Lex.toLex_lt_toLex]
  | inet6 a =>
    cases jp with
    | inet6 b =>
      have hlen : (List.ofFn a).length = (List.ofFn b).length := by simp
      rw [lt, beq_iff_eq, Bytes.memcmp_lt_iff hlen, key, key, Prod.Lex.toLex_lt_toLex]
      simp
    | _ => simp [lt, key, Prod.Lex.toLex_lt_toLex]

/-- The order of the addresses. -/
theorem orderedBy_key :
    OrderedBy key (fun ip jp => ip.lt e jp = true) fun ip jp => ip.beq jp = true where
  lt_iff _ _ := lt_iff_key
  eq_iff _ _ := beq_iff.trans key_inj.symm

theorem gt_iff {ip jp : IPAddress} : ip.gt e jp = true ↔ jp.lt e ip = true := by
  rw [← (orderedBy_key (e := e)).gt_iff ip jp, gt]
  simp only [Bool.and_eq_true, Bool.not_eq_true', Bool.not_eq_true]

end IPAddress

namespace SocketAddress

variable (e) in
/-- The order of the addresses, of the host names where they count, and of the ports. -/
def key (a : SocketAddress) : (ℕ ×ₗ List ℕ) ×ₗ List Char ×ₗ ℕ :=
  toLex (a.ip.key, toLex (a.comparedHostname e, a.port.toNat))

theorem orderedBy_key :
    OrderedBy (key e) (fun a b => a.lt e b = true) fun a b => a.beq e b = true where
  lt_iff a b := by
    rw [lt_iff, key, key, Prod.Lex.toLex_lt_toLex, Prod.Lex.toLex_lt_toLex, BitVec.lt_def]
    simp only [IPAddress.lt_iff_key, IPAddress.key_inj]
    constructor
    · rintro (⟨-, hlt⟩ | heq)
      · exact .inl hlt
      · exact .inr heq
    · rintro (hlt | heq)
      · refine .inl ⟨?_, hlt⟩
        intro hip
        rw [hip] at hlt
        exact lt_irrefl _ hlt
      · exact .inr heq
  eq_iff a b := by
    rw [beq_iff, key, key, toLex_inj, Prod.mk.injEq, toLex_inj, Prod.mk.injEq, IPAddress.key_inj,
      BitVec.toNat_inj]

/-- **The comparisons agree.** `operator<` is a strict weak order with `operator==` as its equality,
equal addresses have one hash, and so it is for addresses without a port. -/
theorem comparisons_agree (e : Endian) :
    IsStrictWeakOrder SocketAddress (fun a b => a.lt e b = true) ∧
    (∀ a b : SocketAddress, ExactlyOne (a.lt e b = true) (b.lt e a = true) (a.beq e b = true)) ∧
    (∀ a b : SocketAddress, a.beq e b = true → a.hash e = b.hash e) ∧
    IsStrictWeakOrder IPAddress (fun ip jp => ip.lt e jp = true) ∧
    (∀ ip jp : IPAddress, ExactlyOne (ip.lt e jp = true) (jp.lt e ip = true) (ip.beq jp = true) ∧
      (ip.gt e jp = true ↔ jp.lt e ip = true)) ∧
    ∀ ip jp : IPAddress, ip.beq jp = true → ip.hashIP e = jp.hashIP e := by
  refine ⟨orderedBy_key.isStrictWeakOrder, orderedBy_key.exactlyOne, ?_,
    IPAddress.orderedBy_key.isStrictWeakOrder,
    fun ip jp => ⟨IPAddress.orderedBy_key.exactlyOne ip jp, IPAddress.gt_iff⟩, ?_⟩
  · intro a b heq
    obtain ⟨hip, -, hport⟩ := beq_iff.1 heq
    rw [hash, hash, hip, hport]
  · intro ip jp heq
    rw [IPAddress.beq_iff.1 heq]

end SocketAddress

end TQLib
