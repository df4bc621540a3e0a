import TQLib.SocketAddress.Text

/-!
# Texts of addresses with a port round trip

What the platform prints for an address has no bracket in it, and no colon for the first family; so
the colon that is looked for is the one in front of the port. A host name goes through as long as it
has no colon, no bracket in front, and no terminator, at which the text in the buffer would be over.

## Main results

* `documented_windows` — what is documented of the platform holds on Windows
* `fromString_toString` — an address is read back from its text
-/

namespace TQLib

open Win32

/-- What is documented of `inet_ntop` and `inet_pton`. -/
structure TextPlatform.Documented (p : TextPlatform) : Prop where
  /-- The first family has a dotted text, which is read back. -/
  ntopV4 : ∀ a : InAddr, ∃ t, p.ntop (.inet a) = some t ∧ p.ptonV4 t = some a ∧
    ∀ c ∈ t, c = '.' ∨ isDigit 10 c = true
  /-- The second has one with colons. -/
  ntopV6 : ∀ a : In6Addr, ∃ t, p.ntop (.inet6 a) = some t ∧ p.ptonV6 t = some a ∧ ':' ∈ t ∧
    ∀ c ∈ t, c = ':' ∨ c = '.' ∨ isDigit 16 c = true
  /-- A colon is not in a dotted text. -/
  ptonV4_of_colon : ∀ s, '\x00' ∉ s → ':' ∈ s → p.ptonV4 s = none
  /-- No text is an address. -/
  ptonV4_nil : p.ptonV4 [] = none
  ptonV6_nil : p.ptonV6 [] = none

theorem colon_mem_of_prints {a : In6Addr} {t : List Char} (h : Prints a t) : ':' ∈ t := by
  cases h with
  | groups =>
    rw [groupTexts_succ, colons_cons _ (by simp [groupTexts_succ])]
    simp
  | run _ _ _ => simp
  | compatible _ => simp
  | mapped _ _ _ => simp

/-- What is documented holds on Windows. -/
theorem documented_windows : TextPlatform.windows.Documented where
  ntopV4 a := by
    refine ⟨v4Text a, ?_, ?_, fun _ hc => mem_of_isDottedQuad (isDottedQuad_v4Text a) hc⟩
    · show Option.bind (Option.join _) cString = _
      rw [win32InetNtop_inet, Option.join_some, Option.bind_some, cString_v4Text]
    · show Option.join _ = _
      rw [inetPtonV4_v4Text, Option.join_some]
  ntopV6 a := by
    obtain ⟨t, ht, hbuf⟩ := win32InetNtop_inet6 .little a
    refine ⟨t, ?_, ?_, colon_mem_of_prints ht, fun _ hc => ht.isIpv6Text.mem hc⟩
    · show Option.bind (Option.join _) cString = _
      rw [hbuf, Option.join_some, Option.bind_some, cString_of_prints ht]
    · show Option.join _ = _
      rw [inetPtonV6_of_prints ht, Option.join_some]
  ptonV4_of_colon s hnul hcolon := by
    show Option.join _ = _
    rw [inetPtonV4_terminated hnul, Option.join_some, Option.map_eq_none_iff,
      Option.eq_none_iff_forall_not_mem]
    intro vs hvs
    exact colon_not_mem_of_dotted (Option.isSome_iff_exists.2 ⟨vs, hvs⟩) hcolon
  ptonV4_nil := rfl
  ptonV6_nil := rfl

namespace SocketAddress

variable {p : TextPlatform} {e : Endian} {a : SocketAddress} {t : List Char}

/-- `IsUnresolvedIP`. -/
def isUnresolvedIP (a : SocketAddress) : Bool := a.ip.isUnspec && !a.literal && a.hostname ≠ []

/-- What an address holds that is printed: an address, where the host name is empty or a literal, or
a host name that is not resolved. -/
inductive Printable (p : TextPlatform) (a : SocketAddress) : Prop
  | address : a.hostname = [] ∨ a.literal = true → Printable p a
  | unresolved : a.isUnresolvedIP = true → IPAddress.ipFromString p a.hostname = none →
      ':' ∉ a.hostname → a.hostname.head? ≠ some '[' → Printable p a

/-- The digits of the port. -/
def portText (a : SocketAddress) : List Char := Nat.toDigits 10 a.port.toNat

theorem isPort_portText (a : SocketAddress) : IsPort a.portText := by
  refine ⟨Nat.toDigits_ne_nil, fun _ hc => isDigit_of_mem_toDigits (by decide) (by decide) hc, ?_⟩
  rw [portText, digitsValue_toDigits (by decide) (by decide)]
  exact Nat.le_of_lt_succ a.port.isLt

theorem setPort_portText (a b : SocketAddress) :
    b.setPort (digitsValue 10 a.portText) = { b with port := a.port } := by
  rw [portText, digitsValue_toDigits (by decide) (by decide), setPort, BitVec.ofInt_natCast,
    BitVec.ofNat_toNat, BitVec.setWidth_eq]

/-- Text that fits is appended. -/
theorem appendText_of_le {sb str : List Char} (hle : sb.length + str.length ≤ 1023) :
    appendText 1024 sb str = sb ++ str := by
  rw [appendText, List.take_of_length_le (by omega)]

/-- What is printed, if it fits. -/
theorem toString_eq (hlen : (a.hostAsURIString p ++ ':' :: a.portText).length ≤ 1023)
    (hnul : '\x00' ∉ a.hostAsURIString p) :
    a.toString p = a.hostAsURIString p ++ ':' :: a.portText := by
  have hall : '\x00' ∉ a.hostAsURIString p ++ ':' :: a.portText := by
    have hport := (isPort_portText a).not_mem (c := '\x00') (by decide)
    simp [hnul, hport]
  rw [List.length_append, List.length_cons] at hlen
  have hhost : appendText 1024 [] (a.hostAsURIString p) = a.hostAsURIString p :=
    appendText_of_le (by rw [List.length_nil]; omega)
  have hcolon : appendText 1024 (a.hostAsURIString p) [':'] = a.hostAsURIString p ++ [':'] :=
    appendText_of_le (by rw [List.length_singleton]; omega)
  have hport : appendText 1024 (a.hostAsURIString p ++ [':']) a.portText =
      a.hostAsURIString p ++ [':'] ++ a.portText :=
    appendText_of_le (by rw [List.length_append, List.length_singleton]; omega)
  rw [toString, hhost, hcolon, ← portText, hport, List.append_assoc, List.singleton_append,
    List.takeWhile_eq_self_iff]
  intro c hc
  rw [bne_iff_ne]
  rintro rfl
  exact hall hc

/-! ## Reading back -/

/-- What comes back from the text of an address, which compares equal if it should. -/
def ReadsBack (e : Endian) (p : TextPlatform) (a : SocketAddress) (comparable : Prop) : Prop :=
  ∀ target : SocketAddress, ∃ b, target.fromString p (a.toString p) = some (true, b) ∧
    b.ip = a.ip ∧ b.port = a.port ∧ (a.isUnresolvedIP = true → b.hostname = a.hostname) ∧
    (comparable → b.beq e a = true)

/-- It is read back with the host that the text has. -/
theorem exists_read {host : List Char} (ha : IsHostPort (a.toString p) host a.portText)
    (hip : (IPAddress.ipFromString p host).getD .unspec = a.ip) (target : SocketAddress) :
    ∃ b, target.fromString p (a.toString p) = some (true, b) ∧ b.ip = a.ip ∧ b.port = a.port ∧
      b.hostname = host := by
  refine ⟨_, ha.fromString, ?_, ?_, ?_⟩
  · rw [setPort_portText]
    exact hip
  · rw [setPort_portText]
  · rw [setPort_portText]
    rfl

/-- It compares equal if host names that count are the same. -/
theorem beq_of_eq {b : SocketAddress} (hip : b.ip = a.ip) (hport : b.port = a.port)
    (hany : a.ip.isAny e = false) (hhost : a.ip = .unspec → b.hostname = a.hostname) :
    b.beq e a = true := by
  rw [beq_iff]
  refine ⟨hip, ?_, hport⟩
  rw [comparedHostname, comparedHostname, hip, hany]
  cases hunspec : a.ip.isUnspec with
  | false => rfl
  | true =>
    rw [if_pos (by simp), if_pos (by simp)]
    refine hhost ?_
    cases hfamily : a.ip with
    | unspec => rfl
    | inet _ => simp [IPAddress.isUnspec, IPAddress.family, hfamily] at hunspec
    | inet6 _ => simp [IPAddress.isUnspec, IPAddress.family, hfamily] at hunspec

theorem ipFromString_eq (hnul : '\x00' ∉ t) : IPAddress.ipFromString p t =
    ((p.ptonV4 t).map .inet).or ((p.ptonV6 t).map .inet6) := by
  have htake : t.takeWhile (· != '\x00') = t := by
    rw [List.takeWhile_eq_self_iff]
    intro c hc
    rw [bne_iff_ne]
    rintro rfl
    exact hnul hc
  rw [IPAddress.ipFromString, htake]
  cases p.ptonV4 t <;> rfl

theorem isUnresolvedIP_iff : a.isUnresolvedIP = true ↔
    a.ip = .unspec ∧ a.literal = false ∧ a.hostname ≠ [] := by
  rw [isUnresolvedIP]
  cases a.ip <;> simp [IPAddress.isUnspec, IPAddress.family]

theorem hostAsURIString_of_address (ha : a.hostname = [] ∨ a.literal = true) :
    a.hostAsURIString p = if a.ip.family = .AF_INET6 then
      '[' :: (a.ip.toString p ++ [']']) else a.ip.toString p := by
  rw [hostAsURIString, if_neg]
  rintro ⟨hliteral, hne⟩
  rcases ha with h | h
  · exact hne h
  · rw [hliteral] at h
    cases h

/-- The host is printed as it is. -/
theorem isHostPort_of_eq {host : List Char} (hhost : a.hostAsURIString p = host)
    (hcolon : ':' ∉ host) (hhead : host.head? ≠ some '[') (hnul : '\x00' ∉ host)
    (hlen : (a.hostAsURIString p ++ ':' :: a.portText).length ≤ 1023) :
    IsHostPort (a.toString p) host a.portText := by
  rw [toString_eq hlen (by rwa [hhost]), hhost]
  exact .plain hcolon hhead (isPort_portText a)

/-- It is printed in brackets. -/
theorem isHostPort_of_eq_brackets {host : List Char}
    (hhost : a.hostAsURIString p = '[' :: (host ++ [']'])) (hnul : '\x00' ∉ host)
    (hlen : (a.hostAsURIString p ++ ':' :: a.portText).length ≤ 1023) :
    IsHostPort (a.toString p) host a.portText := by
  rw [toString_eq hlen (by rw [hhost]; simp [hnul]), hhost, List.cons_append, List.append_assoc,
    List.singleton_append]
  exact .bracketed (isPort_portText a)

/-- The text of an address has the form, with a host that is the address. -/
theorem isHostPort_of_address (hp : p.Documented) (ha : a.hostname = [] ∨ a.literal = true)
    (hlen : (a.hostAsURIString p ++ ':' :: a.portText).length ≤ 1023) :
    ∃ host, IsHostPort (a.toString p) host a.portText ∧
      (IPAddress.ipFromString p host).getD .unspec = a.ip ∧ (a.ip = .unspec → host = []) := by
  have hprinted := hostAsURIString_of_address (p := p) ha
  cases hip : a.ip with
  | unspec =>
    have hhost : a.hostAsURIString p = [] := by
      rw [hprinted, hip]
      rfl
    refine ⟨[], isHostPort_of_eq hhost (by simp) (by simp) (by simp) hlen, ?_, fun _ => rfl⟩
    rw [ipFromString_eq (by simp), hp.ptonV4_nil, hp.ptonV6_nil]
    rfl
  | inet ip4 =>
    obtain ⟨t, hntop, hpton, hmem⟩ := hp.ntopV4 ip4
    have hhost : a.hostAsURIString p = t := by
      rw [hprinted, hip, IPAddress.toString, hntop]
      rfl
    have hnot : ∀ c : Char, c ≠ '.' → 10 ≤ charValue c → c ∉ t := by
      intro c hperiod hvalue hc
      rcases hmem c hc with h | h
      · exact hperiod h
      · exact ne_of_isDigit h hvalue rfl
    have hnul := hnot '\x00' (by decide) (by decide)
    have hhead : t.head? ≠ some '[' := fun h =>
      hnot '[' (by decide) (by decide) (List.mem_of_mem_head? h)
    refine ⟨t, isHostPort_of_eq hhost (hnot ':' (by decide) (by decide)) hhead hnul hlen, ?_,
      fun h => by cases h⟩
    rw [ipFromString_eq hnul, hpton]
    rfl
  | inet6 ip6 =>
    obtain ⟨t, hntop, hpton, hcolon, hmem⟩ := hp.ntopV6 ip6
    have hhost : a.hostAsURIString p = '[' :: (t ++ [']']) := by
      rw [hprinted, hip, IPAddress.toString, hntop]
      rfl
    have hnul : '\x00' ∉ t := fun hc => by
      rcases hmem _ hc with h | h | h <;> revert h <;> decide
    refine ⟨t, isHostPort_of_eq_brackets hhost hnul hlen, ?_, fun h => by cases h⟩
    rw [ipFromString_eq hnul, hp.ptonV4_of_colon t hnul hcolon, hpton]
    rfl

/-- The text of a host name has the form, with that host. -/
theorem isHostPort_of_unresolved (hunresolved : a.isUnresolvedIP = true)
    (hcolon : ':' ∉ a.hostname) (hhead : a.hostname.head? ≠ some '[')
    (hlen : (a.hostAsURIString p ++ ':' :: a.portText).length ≤ 1023)
    (hnul : '\x00' ∉ a.hostname) : IsHostPort (a.toString p) a.hostname a.portText := by
  obtain ⟨-, hliteral, hne⟩ := isUnresolvedIP_iff.1 hunresolved
  have hhost : a.hostAsURIString p = a.hostname := by
    rw [hostAsURIString, if_pos ⟨hliteral, hne⟩]
  exact isHostPort_of_eq hhost hcolon hhead hnul hlen

/-- **An address is read back from its text**, and compares equal, but for one that is unspecified
and has a literal for its host name. -/
theorem fromString_toString (e : Endian) (hp : p.Documented) (ha : Printable p a)
    (hlen : (a.hostAsURIString p ++ ':' :: a.portText).length ≤ 1023)
    (hnul : a.isUnresolvedIP = true → '\x00' ∉ a.hostname) :
    ReadsBack e p a (a.ip.isAny e = false ∧
      ¬ (a.ip = .unspec ∧ a.literal = true ∧ a.hostname ≠ [])) := by
  obtain ⟨host, hform, hip, hhost⟩ : ∃ host, IsHostPort (a.toString p) host a.portText ∧
      (IPAddress.ipFromString p host).getD .unspec = a.ip ∧
      (a.ip = .unspec → ¬ (a.literal = true ∧ a.hostname ≠ []) → host = a.hostname) := by
    cases ha with
    | address hliteral =>
      obtain ⟨host, hform, hip, hnil⟩ := isHostPort_of_address hp hliteral hlen
      refine ⟨host, hform, hip, fun hunspec hnot => ?_⟩
      rw [hnil hunspec]
      by_contra hne
      exact hnot ⟨hliteral.resolve_left (Ne.symm hne), Ne.symm hne⟩
    | unresolved hunresolved hip hcolon hhead =>
      have hunspec := (isUnresolvedIP_iff.1 hunresolved).1
      refine ⟨a.hostname, isHostPort_of_unresolved hunresolved hcolon hhead hlen
        (hnul hunresolved), ?_, fun _ _ => rfl⟩
      rw [hip, hunspec, Option.getD_none]
  intro target
  obtain ⟨b, hread, hbip, hbport, hbhost⟩ := exists_read hform hip target
  refine ⟨b, hread, hbip, hbport, fun hunresolved => ?_, ?_⟩
  · obtain ⟨hunspec, hliteral, -⟩ := isUnresolvedIP_iff.1 hunresolved
    rw [hbhost, hhost hunspec]
    rintro ⟨h, -⟩
    rw [hliteral] at h
    cases h
  · rintro ⟨hany, hnot⟩
    refine beq_of_eq hbip hbport hany fun hunspec => ?_
    rw [hbhost, hhost hunspec fun h => hnot ⟨hunspec, h⟩]

theorem fromString_toString_ones :
    ReadsBack .little .windows (ofIP (.inet fun _ => 1) 80)
      ((ofIP (.inet fun _ => 1) 80).ip.isAny .little = false ∧
        ¬ ((ofIP (.inet fun _ => 1) 80).ip = .unspec ∧
          (ofIP (.inet fun _ => 1) 80).literal = true ∧
          (ofIP (.inet fun _ => 1) 80).hostname ≠ [])) :=
  fromString_toString .little documented_windows (.address (.inl rfl)) (by decide) (by decide)

/-- `SetIP` of a literal, and a resolved address that is unspecified. -/
def unspecifiedLiteral : SocketAddress :=
  ((clear.setHost .windows "1.2.3.4".toList).setResolvedIP .unspec).setPort 80

/-- A host name with a terminator in it. -/
def terminatedName : SocketAddress := (clear.setHost .windows ['a', '\x00', 'b']).setPort 80

/-- The first does not come back equal, and the second not at all. -/
theorem not_readsBack :
    (Printable .windows unspecifiedLiteral ∧
      ¬ ReadsBack .little .windows unspecifiedLiteral
        (unspecifiedLiteral.ip.isAny .little = false)) ∧
    Printable .windows terminatedName ∧
      ¬ ReadsBack .little .windows terminatedName (terminatedName.ip.isAny .little = false) := by
  refine ⟨⟨.address (.inr (by decide)), fun h => ?_⟩,
    .unresolved (by decide) (by decide) (by decide) (by decide), fun h => ?_⟩
  · obtain ⟨b, hread, -, -, -, hbeq⟩ := h clear
    have hvalue : (clear.fromString .windows (unspecifiedLiteral.toString .windows)).map
        (fun r => r.2.beq .little unspecifiedLiteral) = some false := by decide
    rw [hread, Option.map_some, hbeq (by decide)] at hvalue
    cases hvalue
  · obtain ⟨b, hread, -⟩ := h clear
    have hvalue : (clear.fromString .windows (terminatedName.toString .windows)).map Prod.fst =
        some false := by decide
    rw [hread] at hvalue
    cases hvalue

end SocketAddress

end TQLib
