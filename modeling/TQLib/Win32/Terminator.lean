import TQLib.Win32.Denotation

/-!
# Where `inet_ntop_v6` leaves no terminator

The loop writes a colon without a terminator, since a group comes behind it whose `snprintf` writes
one. Behind the colons of a run that goes to the end no group comes, and the string goes on with
what was in the buffer.

## Main results

* `maxpos_eq_seven_iff` — when the run goes to the end
* `inetNtopV6_terminated_iff` — when there is a string, and it stands for the address
-/

namespace TQLib

namespace Win32

variable {e : Endian} {a : In6Addr} {t was : List Char} {size : ℕ}

/-! ## The run at the end -/

/-- How many groups at the end are zero. -/
def zerosAtEnd (zeros : List Bool) : ℕ := (zeros.reverse.takeWhile id).length

/-- There are some, and nowhere before are there as many in a row. -/
def RunsToEnd (zeros : List Bool) : Prop :=
  0 < zerosAtEnd zeros ∧ ∀ i < 8 - zerosAtEnd zeros,
    (zeros.drop i).take (zerosAtEnd zeros) ≠ List.replicate (zerosAtEnd zeros) true

instance (zeros : List Bool) : Decidable (RunsToEnd zeros) := inferInstanceAs (Decidable (_ ∧ _))

/-- **When the run goes to the end.** -/
theorem maxpos_eq_seven_iff (b0 b1 b2 b3 b4 b5 b6 b7 : Bool) :
    ((findRuns [b0, b1, b2, b3, b4, b5, b6, b7]).maxpos = 7 ↔
      RunsToEnd [b0, b1, b2, b3, b4, b5, b6, b7]) ∧
    ((findRuns [b0, b1, b2, b3, b4, b5, b6, b7]).maxpos = 7 →
      (findRuns [b0, b1, b2, b3, b4, b5, b6, b7]).max =
        zerosAtEnd [b0, b1, b2, b3, b4, b5, b6, b7]) := by
  revert b0 b1 b2 b3 b4 b5 b6 b7
  decide +kernel

theorem maxpos_zeroGroups (e : Endian) (a : In6Addr) :
    ((findRuns (zeroGroups e a)).maxpos = 7 ↔ RunsToEnd (zeroGroups e a)) ∧
    ((findRuns (zeroGroups e a)).maxpos = 7 →
      (findRuns (zeroGroups e a)).max = zerosAtEnd (zeroGroups e a)) :=
  maxpos_eq_seven_iff _ _ _ _ _ _ _ _

theorem groupValues_at_end (h : (findRuns (zeroGroups e a)).maxpos = 7) :
    (findRuns (zeroGroups e a)).max ≤ 8 ∧
      groupValues a (8 - (findRuns (zeroGroups e a)).max) (findRuns (zeroGroups e a)).max =
        List.replicate (findRuns (zeroGroups e a)).max 0 := by
  rcases findRuns_zeroGroups e a with ⟨start, -, hmarks⟩ | hnone
  · have hle := hmarks.2.1
    have hmaxpos := hmarks.2.2.1
    refine ⟨by omega, groupValues_eq_replicate fun k hk hk' => ?_⟩
    exact hmarks.eq_zero (by omega) (by omega)
  · rw [hnone] at h
    exact absurd h (by decide)

/-! ## The string -/

/-- How far the text goes, of an address with a run of `n` zeros at the end. -/
def frontLength (a : In6Addr) (n : ℕ) : ℕ := (colons (groupTexts a 0 (8 - n))).length + 2

/-- What was in the buffer behind it are zeros of that run, or nothing, up to a terminator. -/
def LeavesZeros (a : In6Addr) (was : List Char) (n : ℕ) : Prop :=
  ∃ g, cString (was.drop (frontLength a n)) = some g ∧
    frontLength a n + g.length < inet6Addrstrlen ∧ IsZeros n g

/-- What should be in the buffer: a string that stands for the address, in front of what is left as
it was. -/
def HoldsText (a : In6Addr) (was buf : List Char) : Prop :=
  (∃ s, cString buf = some s ∧ s.length < inet6Addrstrlen ∧ Denotes a s) ∧
    buf.length = was.length ∧ buf.drop inet6Addrstrlen = was.drop inet6Addrstrlen

/-- With a terminator it is there. -/
theorem holdsText_closed (hwas : inet6Addrstrlen ≤ was.length) (ht : Prints a t) :
    HoldsText a was (OutBuffer.atop was t true).buf := by
  have hlen := length_le_of_prints ht
  have hsize : inet6Addrstrlen = 65 := rfl
  exact ⟨⟨t, OutBuffer.cString_atop_closed ht.isIpv6Text.nul_not_mem, by omega, ht.denotes⟩,
    OutBuffer.length_buf_atop (by omega) true, OutBuffer.drop_buf_atop (by omega) (by omega) true⟩

/-- Without, it depends on what was there. -/
theorem holdsText_open_iff {n : ℕ} (hwas : inet6Addrstrlen ≤ was.length) (hn : n ≤ 8)
    (hzero : groupValues a (8 - n) n = List.replicate n 0) (ht : Prints a t)
    (hfront : t = colons (groupTexts a 0 (8 - n)) ++ [':', ':']) :
    HoldsText a was (OutBuffer.atop was t false).buf ↔ LeavesZeros a was n := by
  have hlen := length_le_of_prints ht
  have hsize : inet6Addrstrlen = 65 := rfl
  have hlength : frontLength a n = t.length := by
    rw [hfront, List.length_append]
    rfl
  have hdenotes (g : List Char) : Denotes a (t ++ g) ↔ IsZeros n g := by
    rw [hfront, List.append_assoc]
    exact denotes_run_iff hn hzero
  rw [HoldsText, LeavesZeros, OutBuffer.cString_atop_open ht.isIpv6Text.nul_not_mem, hlength]
  constructor
  · rintro ⟨⟨s, hs, hlt, hden⟩, -⟩
    obtain ⟨g, hg, rfl⟩ := Option.map_eq_some_iff.mp hs
    rw [List.length_append] at hlt
    exact ⟨g, hg, hlt, (hdenotes g).mp hden⟩
  · rintro ⟨g, hg, hlt, hzeros⟩
    refine ⟨⟨t ++ g, by rw [hg, Option.map_some], ?_, (hdenotes g).mpr hzeros⟩,
      OutBuffer.length_buf_atop (by omega) false,
      OutBuffer.drop_buf_atop (by omega) (by omega) false⟩
    rwa [List.length_append]

/-- **When there is a string that stands for the address**: always, if the run does not go to the
end; and where it does, if what was in the buffer goes on as zeros or ends. -/
theorem inetNtopV6_terminated_iff (e : Endian) (a : In6Addr) {was : List Char} {size : ℕ}
    (hwas : inet6Addrstrlen ≤ was.length) (hsize : inet6Addrstrlen ≤ size) :
    (∃ buf, (inetNtopV6 e a was size).map (Option.map OutBuffer.buf) = some (some buf) ∧
      HoldsText a was buf) ↔
    (RunsToEnd (zeroGroups e a) → LeavesZeros a was (zerosAtEnd (zeroGroups e a))) := by
  obtain ⟨t, ht, hbuf, hfront⟩ := inetNtopV6_atop e a hwas hsize
  obtain ⟨hends, hmax⟩ := maxpos_zeroGroups e a
  rw [hbuf, ← hends]
  simp only [Option.some.injEq, exists_eq_left']
  by_cases hrun : (findRuns (zeroGroups e a)).maxpos = 7
  · obtain ⟨hle, hzero⟩ := groupValues_at_end hrun
    have hopen := holdsText_open_iff hwas hle hzero ht (hfront hrun)
    rw [decide_eq_false (not_not.mpr hrun), ← hmax hrun, hopen]
    exact ⟨fun h _ => h, fun h => h hrun⟩
  · rw [decide_eq_true hrun]
    exact iff_of_true (holdsText_closed hwas ht) fun h => absurd h hrun

/-- The address of zeros, in a buffer of zeros. -/
theorem inetNtopV6_terminated_iff_zeros :
    ∃ buf, (inetNtopV6 .little (fun _ => 0) (List.replicate 65 '\x00') 65).map
        (Option.map OutBuffer.buf) = some (some buf) ∧
      HoldsText (fun _ => 0) (List.replicate 65 '\x00') buf := by
  refine (inetNtopV6_terminated_iff .little (fun _ => 0) (by decide) (by decide)).mpr fun _ => ?_
  exact ⟨[], by decide, by decide, .inl ⟨[], by simp, by decide, rfl⟩⟩

/-- In a buffer without a zero nothing ends the string. -/
theorem not_holdsText : ¬ ∃ buf, (inetNtopV6 .little (fun _ => 0) (List.replicate 65 'x') 65).map
        (Option.map OutBuffer.buf) = some (some buf) ∧
      HoldsText (fun _ => 0) (List.replicate 65 'x') buf := by
  rintro ⟨buf, hbuf, ⟨s, hs, -⟩, -⟩
  have heval : (inetNtopV6 .little (fun _ => 0) (List.replicate 65 'x') 65).map
      (Option.map OutBuffer.buf) = some (some (':' :: ':' :: List.replicate 63 'x')) := by
    decide
  rw [heval] at hbuf
  obtain rfl := Option.some.inj (Option.some.inj hbuf)
  have hnone : cString (':' :: ':' :: List.replicate 63 'x') = none := by decide
  rw [hnone] at hs
  cases hs

end Win32

end TQLib
