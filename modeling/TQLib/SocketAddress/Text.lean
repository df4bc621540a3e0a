import TQLib.SocketAddress.Model
import TQLib.Win32.RoundTrip

/-!
# Addresses with a port as text

An address is printed into a fixed buffer, as `host:port` or `[host]:port`, and read back by looking
for the brackets and the colon. The texts of the addresses themselves come from the platform.

## Main results

* `fromString_bracketed`, `fromString_plain` — what is read, by where the colon stands
* `reports_iff` — which texts are read, or refused, as they should be
-/

namespace TQLib

/-- What the platform does with text. -/
structure TextPlatform where
  /-- `inet_ntop`, into a buffer that has room. -/
  ntop : IPAddress → Option (List Char)
  /-- `inet_pton` with `AF_INET`. -/
  ptonV4 : List Char → Option InAddr
  /-- `inet_pton` with `AF_INET6`. -/
  ptonV6 : List Char → Option In6Addr
  /-- The width of `unsigned long`. -/
  ulongBits : ℕ
  le_ulongBits : 32 ≤ ulongBits

/-- Windows. -/
def TextPlatform.windows : TextPlatform where
  ntop ip :=
    (Win32.win32InetNtop .little ip (List.replicate Win32.inet6Addrstrlen '\x00')
      Win32.inet6Addrstrlen).join.bind cString
  ptonV4 src := (Win32.inetPtonV4 (terminated src)).join
  ptonV6 src := (Win32.inetPtonV6 .little (terminated src)).join
  ulongBits := 32
  le_ulongBits := le_rfl

namespace IPAddress

variable (p : TextPlatform)

/-- `IPAddress::ToString`. -/
def toString (ip : IPAddress) : List Char :=
  if ip.family = .AF_UNSPEC then [] else (p.ntop ip).getD []

/-- `IPFromString`. The text is handed on with a terminator. -/
def ipFromString (str : List Char) : Option IPAddress :=
  let src := str.takeWhile (· != '\x00')
  match p.ptonV4 src with
  | some addr => some (inet addr)
  | none => (p.ptonV6 src).map inet6

end IPAddress

namespace SocketAddress

variable (p : TextPlatform)

/-! ## Printing -/

/-- `HostAsURIString`. -/
def hostAsURIString (a : SocketAddress) : List Char :=
  if a.literal = false ∧ a.hostname ≠ [] then a.hostname
  else if a.ip.family = .AF_INET6 then '[' :: (a.ip.toString p ++ [']'])
  else a.ip.toString p

/-- `<<` of a `SimpleStringBuilder` with a buffer of so many characters. -/
def appendText (size : ℕ) (sb str : List Char) : List Char :=
  sb ++ str.take (min str.length (size - sb.length - 1))

/-- `ToString`. What is returned is read from the buffer up to a terminator. -/
def toString (a : SocketAddress) : List Char :=
  let sb := appendText 1024 [] (a.hostAsURIString p)
  let sb := appendText 1024 sb [':']
  let sb := appendText 1024 sb (Nat.toDigits 10 a.port.toNat)
  sb.takeWhile (· != '\x00')

/-! ## Reading -/

/-- `SetIP`, of text. -/
def setHost (a : SocketAddress) (hostname : List Char) : SocketAddress :=
  let ip := IPAddress.ipFromString p hostname
  { a with hostname, ip := ip.getD .unspec, literal := ip.isSome, scopeId := 0 }

/-- `SetPort(strtoul(..))`, where the `unsigned long` goes through an `int`. -/
def setPortText (a : SocketAddress) (text : List Char) : Option SocketAddress :=
  (strtoul p.ulongBits (terminated text)).map fun port =>
    a.setPort (BitVec.ofNat 32 port).toInt

/-- `FromString`. There is no first character of no text, and `at` throws. -/
def fromString (str : List Char) (a : SocketAddress) : Option (Bool × SocketAddress) := do
  let c ← str[0]?
  if c = '[' then
    match rfindChar ']' str with
    | some closebracket =>
      match findChar ':' str closebracket with
      | some colon =>
        if closebracket < colon then do
          let a ← a.setPortText p (str.drop (colon + 1))
          some (true, a.setHost p ((str.drop 1).take (closebracket - 1)))
        else some (false, a)
      | none => some (false, a)
    | none => some (true, a)
  else
    match findChar ':' str 0 with
    | none => some (false, a)
    | some pos => do
      let a ← a.setPortText p (str.drop (pos + 1))
      some (true, a.setHost p (str.take pos))

variable {p} {a : SocketAddress} {host behind junk port s : List Char}

/-! ## What is read -/

/-- Digits of a port. -/
structure IsPort (port : List Char) : Prop where
  ne_nil : port ≠ []
  digits : ∀ c ∈ port, isDigit 10 c = true
  le : digitsValue 10 port ≤ 65535

theorem IsPort.not_mem (hport : IsPort port) {c : Char} (hc : 10 ≤ charValue c) : c ∉ port :=
  fun h => ne_of_isDigit (hport.digits c h) hc rfl

theorem setPortText_of_isPort (hport : IsPort port) :
    a.setPortText p port = some (a.setPort (digitsValue 10 port)) := by
  have hle := hport.le
  have hpow : 2 ^ 32 ≤ 2 ^ p.ulongBits := Nat.pow_le_pow_right (by decide) p.le_ulongBits
  have hint : (BitVec.ofNat 32 (digitsValue 10 port)).toInt = digitsValue 10 port := by
    rw [BitVec.toInt_ofNat', Int.bmod_eq_of_le (by omega) (by omega)]
  rw [setPortText, strtoul_digits hport.ne_nil hport.digits (by omega), Option.map_some, hint]

theorem exists_setPortText (p : TextPlatform) (a : SocketAddress) (text : List Char) :
    ∃ a', a.setPortText p text = some a' := by
  obtain ⟨n, hn⟩ := exists_strtoul p.ulongBits text
  exact ⟨_, by rw [setPortText, hn, Option.map_some]⟩

theorem fromString_of_closebracket {closebracket colon : ℕ} (hs : s[0]? = some '[')
    (hclose : rfindChar ']' s = some closebracket)
    (hcolon : findChar ':' s closebracket = some colon) (hlt : closebracket < colon) :
    a.fromString p s = (a.setPortText p (s.drop (colon + 1))).map fun a =>
      (true, a.setHost p ((s.drop 1).take (closebracket - 1))) := by
  rw [fromString, hs, Option.bind_eq_bind, Option.bind_some, if_pos rfl, hclose]
  simp only [hcolon, hlt, if_true]
  cases a.setPortText p (s.drop (colon + 1)) <;> rfl

/-- With a bracket in front and a colon somewhere behind the last one that closes. -/
theorem fromString_bracketed (hbehind : ']' ∉ junk ++ ':' :: port) (hjunk : ':' ∉ junk) :
    a.fromString p ('[' :: (host ++ ']' :: (junk ++ ':' :: port))) =
      (a.setPortText p port).map fun a => (true, a.setHost p host) := by
  have hjunk' : ':' ∉ ']' :: junk := by simp [hjunk]
  have hport : ('[' :: (host ++ ']' :: (junk ++ ':' :: port))).drop
      ((']' :: junk).length + ('[' :: host).length + 1) = port := by
    have hsplit : '[' :: (host ++ ']' :: (junk ++ ':' :: port)) =
        ('[' :: host ++ ']' :: junk ++ [':']) ++ port := by simp
    rw [hsplit]
    exact List.drop_left' (by simp; omega)
  have hhost : (('[' :: (host ++ ']' :: (junk ++ ':' :: port))).drop 1).take
      (('[' :: host).length - 1) = host := List.take_left' (by simp)
  have hread := fromString_of_closebracket (p := p) (a := a)
    (s := '[' :: (host ++ ']' :: (junk ++ ':' :: port))) rfl
    (rfindChar_append hbehind ('[' :: host)) (findChar_append hjunk' ('[' :: host) port) (by simp)
  rwa [hport, hhost] at hread

theorem fromString_bracketed_of_not_mem (hbehind : ']' ∉ behind) (hcolon : ':' ∉ behind) :
    a.fromString p ('[' :: (host ++ ']' :: behind)) = some (false, a) := by
  have hcolon' : ':' ∉ ']' :: behind := by simp [hcolon]
  have hclose : rfindChar ']' ('[' :: (host ++ ']' :: behind)) = some ('[' :: host).length :=
    rfindChar_append hbehind ('[' :: host)
  have hnone : findChar ':' ('[' :: (host ++ ']' :: behind)) ('[' :: host).length = none :=
    findChar_eq_none hcolon' ('[' :: host)
  rw [fromString, hclose, List.getElem?_cons_zero, Option.bind_eq_bind, Option.bind_some,
    if_pos rfl]
  simp only [hnone]

theorem fromString_unbalanced (hs : ']' ∉ s) : a.fromString p ('[' :: s) = some (true, a) := by
  have hnone : rfindChar ']' ('[' :: s) = none := rfindChar_eq_none (by simp [hs])
  rw [fromString, hnone, List.getElem?_cons_zero, Option.bind_eq_bind, Option.bind_some,
    if_pos rfl]

theorem fromString_of_colon {c : Char} {pos : ℕ} (hc : s[0]? = some c) (hne : c ≠ '[')
    (hpos : findChar ':' s 0 = some pos) :
    a.fromString p s = (a.setPortText p (s.drop (pos + 1))).map fun a =>
      (true, a.setHost p (s.take pos)) := by
  rw [fromString, hc, Option.bind_eq_bind, Option.bind_some, if_neg hne, hpos]
  simp only
  cases a.setPortText p (s.drop (pos + 1)) <;> rfl

/-- Without a bracket in front. -/
theorem fromString_plain (hhost : ':' ∉ host) (hhead : host.head? ≠ some '[') :
    a.fromString p (host ++ ':' :: port) =
      (a.setPortText p port).map fun a => (true, a.setHost p host) := by
  have hcolon := findChar_append hhost [] port
  rw [List.nil_append, List.length_nil, Nat.add_zero] at hcolon
  have hport : (host ++ ':' :: port).drop (host.length + 1) = port := by
    rw [← List.drop_drop, List.drop_left]
    rfl
  obtain ⟨c, hc, hne⟩ : ∃ c, (host ++ ':' :: port)[0]? = some c ∧ c ≠ '[' := by
    cases host with
    | nil => exact ⟨':', rfl, by decide⟩
    | cons c cs => exact ⟨c, rfl, by simpa using hhead⟩
  rw [fromString_of_colon hc hne hcolon, hport, List.take_left]

theorem fromString_plain_of_not_mem (hne : s ≠ []) (hs : ':' ∉ s) (hhead : s.head? ≠ some '[') :
    a.fromString p s = some (false, a) := by
  obtain ⟨c, cs, rfl⟩ := List.exists_cons_of_ne_nil hne
  have hnone := findChar_eq_none hs []
  rw [List.nil_append, List.length_nil] at hnone
  have hbracket : c ≠ '[' := by simpa using hhead
  rw [fromString, List.getElem?_cons_zero, Option.bind_eq_bind, Option.bind_some,
    if_neg hbracket, hnone]

/-! ## What should be read -/

/-- `host:port` or `[host]:port`, with a decimal port. -/
inductive IsHostPort : List Char → List Char → List Char → Prop
  | plain {host port : List Char} : ':' ∉ host → host.head? ≠ some '[' → IsPort port →
      IsHostPort (host ++ ':' :: port) host port
  | bracketed {host port : List Char} : IsPort port →
      IsHostPort ('[' :: (host ++ ']' :: ':' :: port)) host port

/-- What is said is what was done: the host and the port are set if the text has the form, and
otherwise it is refused and nothing is changed. -/
def Reports (p : TextPlatform) (s : List Char) (a : SocketAddress) : Prop :=
  ∃ result, a.fromString p s = some result ∧
    ((∃ host port, IsHostPort s host port ∧
      result = (true, (a.setHost p host).setPort (digitsValue 10 port))) ∨
    (¬ ∃ host port, IsHostPort s host port) ∧ result = (false, a))

/-- The texts that are treated so. Behind the bracket that closes last there is no colon, or the
port; without a bracket in front there is no colon, or the port behind the first. -/
structure IsReported (s : List Char) : Prop where
  ne_nil : s ≠ []
  bracketed : s.head? = some '[' → ∃ host behind, s = '[' :: (host ++ ']' :: behind) ∧
    ']' ∉ behind ∧ (':' ∈ behind → ∃ port, behind = ':' :: port ∧ IsPort port)
  plain : s.head? ≠ some '[' → ':' ∈ s →
    ∃ host port, s = host ++ ':' :: port ∧ ':' ∉ host ∧ IsPort port

theorem IsPort.bracket_not_mem (hport : IsPort port) : ']' ∉ port := hport.not_mem (by decide)

theorem IsPort.colon_not_mem (hport : IsPort port) : ':' ∉ port := hport.not_mem (by decide)

/-- A text of the form is read as it should be. -/
theorem IsHostPort.fromString (h : IsHostPort s host port) : a.fromString p s =
    some (true, (a.setHost p host).setPort (digitsValue 10 port)) := by
  cases h with
  | plain hhost hhead hport =>
    rw [fromString_plain hhost hhead, setPortText_of_isPort hport, Option.map_some]
    rfl
  | bracketed hport =>
    have hread : a.fromString p ('[' :: (host ++ ']' :: ([] ++ ':' :: port))) =
        (a.setPortText p port).map fun a => (true, a.setHost p host) :=
      fromString_bracketed (by simp [hport.bracket_not_mem]) (by simp)
    rw [List.nil_append] at hread
    rw [hread, setPortText_of_isPort hport, Option.map_some]
    rfl

theorem IsHostPort.isReported (h : IsHostPort s host port) : IsReported s := by
  cases h with
  | plain hhost hhead hport =>
    refine ⟨by simp, fun hbracket => ?_, fun _ _ => ⟨host, port, rfl, hhost, hport⟩⟩
    cases host with
    | nil => cases hbracket
    | cons c cs => exact absurd hbracket hhead
  | bracketed hport =>
    refine ⟨by simp, fun _ => ⟨host, ':' :: port, rfl, ?_, fun _ => ⟨port, rfl, hport⟩⟩, ?_⟩
    · simp [hport.bracket_not_mem]
    · exact fun hhead => absurd rfl hhead

/-- A text that is reported as it should be has the form, or is refused. -/
theorem IsReported.isHostPort_or (h : IsReported s) :
    (∃ host port, IsHostPort s host port) ∨
      (∀ a : SocketAddress, a.fromString p s = some (false, a)) := by
  by_cases hhead : s.head? = some '['
  · obtain ⟨host, behind, rfl, hbehind, hport⟩ := h.bracketed hhead
    by_cases hcolon : ':' ∈ behind
    · obtain ⟨port, rfl, hdigits⟩ := hport hcolon
      exact .inl ⟨host, port, .bracketed hdigits⟩
    · exact .inr fun a => fromString_bracketed_of_not_mem hbehind hcolon
  · by_cases hcolon : ':' ∈ s
    · obtain ⟨host, port, rfl, hhost, hport⟩ := h.plain hhead hcolon
      refine .inl ⟨host, port, .plain hhost ?_ hport⟩
      cases host with
      | nil => decide
      | cons c cs => exact hhead
    · exact .inr fun a => fromString_plain_of_not_mem h.ne_nil hcolon hhead

/-- A text that is not is read all the same, or throws. -/
theorem fromString_of_not_isReported (h : ¬ IsReported s) :
    a.fromString p s = none ∨ ∃ a', a.fromString p s = some (true, a') := by
  by_cases hne : s = []
  · subst hne
    exact .inl rfl
  · refine .inr ?_
    by_cases hhead : s.head? = some '['
    · obtain ⟨t, rfl⟩ := List.head?_eq_some_iff.1 hhead
      by_cases hclose : ']' ∈ t
      · obtain ⟨host, behind, rfl, hbehind⟩ := exists_append_cons_right hclose
        by_cases hcolon : ':' ∈ behind
        · obtain ⟨junk, port, rfl, hjunk⟩ := List.eq_append_cons_of_mem hcolon
          obtain ⟨a', ha'⟩ := exists_setPortText p a port
          rw [fromString_bracketed hbehind hjunk, ha']
          exact ⟨_, rfl⟩
        · refine absurd ⟨hne, fun _ => ?_, fun hnot => absurd hhead hnot⟩ h
          exact ⟨host, behind, rfl, hbehind, fun hmem => absurd hmem hcolon⟩
      · exact ⟨a, fromString_unbalanced hclose⟩
    · by_cases hcolon : ':' ∈ s
      · obtain ⟨host, port, rfl, hhost⟩ := List.eq_append_cons_of_mem hcolon
        obtain ⟨a', ha'⟩ := exists_setPortText p a port
        have hhost' : host.head? ≠ some '[' := by
          cases host with
          | nil => decide
          | cons c cs => exact hhead
        rw [fromString_plain hhost hhost', ha']
        exact ⟨_, rfl⟩
      · exact absurd ⟨hne, fun h => absurd h hhead, fun _ h => absurd h hcolon⟩ h

theorem Reports.isReported (h : Reports p s a) : IsReported s := by
  obtain ⟨result, hresult, ⟨host, port, hform, -⟩ | ⟨-, rfl⟩⟩ := h
  · exact hform.isReported
  · by_contra hnot
    rcases fromString_of_not_isReported (p := p) (a := a) hnot with hthrow | ⟨a', htrue⟩
    · rw [hthrow] at hresult
      cases hresult
    · rw [htrue] at hresult
      cases hresult

theorem IsReported.reports (h : IsReported s) : Reports p s a := by
  by_cases hform : ∃ host port, IsHostPort s host port
  · obtain ⟨host, port, hform⟩ := hform
    exact ⟨_, hform.fromString, .inl ⟨host, port, hform, rfl⟩⟩
  · exact ⟨_, (h.isHostPort_or.resolve_left hform) a, .inr ⟨hform, rfl⟩⟩

/-- **Which texts are reported as they should be.** -/
theorem reports_iff (p : TextPlatform) (s : List Char) (a : SocketAddress) :
    Reports p s a ↔ IsReported s :=
  ⟨Reports.isReported, IsReported.reports⟩

/-- No text throws, and a bracket that is not closed is taken for an address that was read. -/
theorem not_reports : ¬ Reports .windows [] clear ∧ ¬ Reports .windows "[::1".toList clear := by
  refine ⟨fun h => h.isReported.ne_nil rfl, fun h => ?_⟩
  obtain ⟨host, behind, hs, -⟩ := h.isReported.bracketed rfl
  have hmem : ']' ∈ "[::1".toList := by
    rw [hs]
    simp
  revert hmem
  decide

end SocketAddress

end TQLib
