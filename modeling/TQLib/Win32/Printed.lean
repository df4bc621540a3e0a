import TQLib.Win32.InetNtop
import TQLib.Win32.TextForms
import Mathlib.Data.List.GetD

/-!
# What `win32_inet_ntop` prints

The groups in front of the longest run of zeros and behind it, and `::` for the run; all groups
where there is none; or the last four bytes as an address of the first family. A buffer of
`INET6_ADDRSTRLEN` has room for all of them. The terminator comes from the `snprintf` of a group or
of an address; behind the colons of a run there is none.

## Main results

* `inetNtopV4_atop`, `inetNtopV6_atop` — what is printed over what was in the buffer
* `inetNtopV6_eq` — into a buffer of zeros
-/

namespace TQLib

namespace Win32

variable {e : Endian} {a : In6Addr} {i n start max turns size : ℕ} {r : Runs} {t was : List Char}

/-! ## Groups -/

/-- The number that a group is. -/
def groupValue (a : In6Addr) (i : ℕ) : BitVec 16 := (a.get (2 * i) 2).value

/-- The digits that it is printed as. -/
def groupText (a : In6Addr) (i : ℕ) : List Char := Nat.toDigits 16 (groupValue a i).toNat

/-- So many groups from one on. -/
def groupTexts (a : In6Addr) (i n : ℕ) : List (List Char) := (List.range' i n).map (groupText a)

theorem networkToHost_asShorts (e : Endian) (a : In6Addr) (i : ℕ) :
    e.networkToHost (n := 2) (asShorts e a i) = groupValue a i :=
  e.networkToHost_load _

theorem length_groupText_le (a : In6Addr) (i : ℕ) : (groupText a i).length ≤ 4 := by
  rw [groupText, Nat.length_toDigits_le_iff (by decide) (by decide)]
  exact (groupValue a i).isLt

theorem isGroup_groupText (a : In6Addr) (i : ℕ) : IsGroup (groupText a i) :=
  ⟨Nat.toDigits_ne_nil, fun _ hc => isDigit_of_mem_toDigits (by decide) (by decide) hc,
    length_groupText_le a i⟩

theorem groupTexts_succ (a : In6Addr) (i n : ℕ) :
    groupTexts a i (n + 1) = groupText a i :: groupTexts a (i + 1) n := by
  rw [groupTexts, List.range'_succ, List.map_cons, groupTexts]

theorem length_groupTexts (a : In6Addr) (i n : ℕ) : (groupTexts a i n).length = n := by
  simp [groupTexts]

theorem isGroup_of_mem_groupTexts {g : List Char} (hg : g ∈ groupTexts a i n) : IsGroup g := by
  obtain ⟨j, -, rfl⟩ := List.mem_map.1 hg
  exact isGroup_groupText a j

theorem length_colons_groupTexts_le (a : In6Addr) (i n : ℕ) :
    (colons (groupTexts a i n)).length ≤ 5 * n := by
  induction n generalizing i with
  | zero => simp [groupTexts]
  | succ n ih =>
    have hlen := length_groupText_le a i
    rw [groupTexts_succ]
    cases n with
    | zero =>
      rw [groupTexts, List.range'_zero, List.map_nil, colons_singleton]
      omega
    | succ n =>
      have hrest := ih (i + 1)
      have hne : groupTexts a (i + 1) (n + 1) ≠ [] := by simp [groupTexts_succ]
      rw [colons_cons _ hne, List.length_append, List.length_cons]
      omega

/-! ## Turns of the loop -/

/-- A buffer with text in it. -/
def printed (t : List Char) : OutBuffer := .holding inet6Addrstrlen t

/-- One group, and the colon behind it if another one comes. -/
theorem inetNtopV6Loop_group (hwas : 65 ≤ was.length) (hi : i < 8)
    (hgroup : r.runpos.getD i 0 = -1) (ht : t.length ≤ 5 * i + 2) (closed : Bool) :
    inetNtopV6Loop e a r (turns + 1) i (.atop was t closed) =
      if i ≠ 7 ∧ r.runpos.getD (i + 1) 0 ≠ 1 then
        inetNtopV6Loop e a r turns (i + 1) (.atop was (t ++ groupText a i ++ [':']) false)
      else inetNtopV6Loop e a r turns (i + 1) (.atop was (t ++ groupText a i) true) := by
  have hlen := length_groupText_le a i
  have hwrite : (OutBuffer.atop was t closed).snprintf (inet6Addrstrlen - t.length)
      (Nat.toDigits 16 (e.networkToHost (n := 2) (asShorts e a i)).toNat) =
        some (.atop was (t ++ groupText a i) true) := by
    rw [networkToHost_asShorts]
    refine OutBuffer.snprintf_atop ?_ ?_ closed
    · show (groupText a i).length < 65 - t.length
      omega
    · show t.length + (groupText a i).length < was.length
      omega
  have hwidth : (t ++ groupText a i).length < was.length := by
    rw [List.length_append]
    omega
  rw [inetNtopV6Loop, if_neg (by omega), if_pos hgroup, OutBuffer.cursor_atop, hwrite,
    Option.bind_eq_bind, Option.bind_some, OutBuffer.putChar_atop hwidth]
  rfl

/-- The groups in front of the run, or of the end. -/
theorem inetNtopV6Loop_groups (hwas : 65 ≤ was.length) (hn : 0 < n)
    (hgroups : ∀ k < n, r.runpos.getD (i + k) 0 = -1)
    (hend : i + n = 8 ∨ i + n < 8 ∧ r.runpos.getD (i + n) 0 = 1) (ht : t.length ≤ 5 * i + 2)
    (turns : ℕ) (closed : Bool) :
    inetNtopV6Loop e a r (turns + n) i (.atop was t closed) =
      inetNtopV6Loop e a r turns (i + n) (.atop was (t ++ colons (groupTexts a i n)) true) := by
  induction n generalizing i t closed with
  | zero => cases hn
  | succ n ih =>
    have hfirst := hgroups 0 hn
    rw [Nat.add_zero] at hfirst
    rw [← Nat.add_assoc, inetNtopV6Loop_group hwas (by omega) hfirst ht, groupTexts_succ]
    by_cases hlast : n = 0
    · subst hlast
      have hnot : ¬ (i ≠ 7 ∧ r.runpos.getD (i + 1) 0 ≠ 1) := by
        rintro ⟨hi, hrun⟩
        rcases hend with hend | ⟨-, hend⟩
        · omega
        · exact hrun hend
      rw [if_neg hnot, groupTexts, List.range'_zero, List.map_nil, colons_singleton]
      rfl
    · have hmore : i ≠ 7 ∧ r.runpos.getD (i + 1) 0 ≠ 1 := by
        refine ⟨by omega, ?_⟩
        rw [hgroups 1 (by omega)]
        decide
      have hne : groupTexts a (i + 1) n ≠ [] := by
        rw [← List.length_pos_iff, length_groupTexts]
        omega
      have hlen := length_groupText_le a i
      have hrest : inetNtopV6Loop e a r (turns + n) (i + 1)
          (.atop was (t ++ groupText a i ++ [':']) false) =
          inetNtopV6Loop e a r turns (i + 1 + n)
            (.atop was (t ++ groupText a i ++ [':'] ++ colons (groupTexts a (i + 1) n)) true) := by
        refine ih (by omega) ?_ ?_ ?_ false
        · intro k hk
          have hk' := hgroups (k + 1) (by omega)
          rwa [Nat.add_comm k 1, ← Nat.add_assoc] at hk'
        · rwa [Nat.add_comm n 1, ← Nat.add_assoc] at hend
        · rw [List.length_append, List.length_append, List.length_singleton]
          omega
      rw [if_pos hmore, hrest, colons_cons _ hne, Nat.add_assoc, Nat.add_comm 1 n]
      simp

/-- The run. -/
theorem inetNtopV6Loop_run (hwas : 65 ≤ was.length) (hi : i < 8) (hrun : r.runpos.getD i 0 = 1)
    (hmax : 0 < r.max) (ht : t.length < 64) (closed : Bool) :
    inetNtopV6Loop e a r (turns + 1) i (.atop was t closed) =
      inetNtopV6Loop e a r turns (i + r.max) (.atop was (t ++ [':', ':']) false) := by
  have hnot : ¬ r.runpos.getD i 0 = -1 := by
    rw [hrun]
    decide
  have hwidth : (t ++ [':']).length < was.length := by
    rw [List.length_append, List.length_singleton]
    omega
  rw [inetNtopV6Loop, if_neg (by omega), if_neg hnot, if_pos hrun,
    OutBuffer.putChar_atop (by omega), Option.bind_eq_bind, Option.bind_some,
    OutBuffer.putChar_atop hwidth, Option.bind_some, List.append_assoc,
    show i + (r.max - 1) + 1 = i + r.max by omega]
  rfl

theorem inetNtopV6Loop_end (o : OutBuffer) : inetNtopV6Loop e a r (turns + 1) 8 o = some o := by
  rw [inetNtopV6Loop, if_pos (by decide)]

/-! ## The marks -/

variable {zeros : List Bool}

theorem MarksRun.before (h : MarksRun zeros r start) {k : ℕ} (hk : k < start) :
    r.runpos.getD k 0 = -1 := by
  rw [h.2.2.2.1, List.getD_append _ _ _ _ (by simpa using hk), List.getD_replicate _ hk]

theorem MarksRun.at_start (h : MarksRun zeros r start) : r.runpos.getD start 0 = 1 := by
  have hpos := h.1
  rw [h.2.2.2.1, List.getD_append_right _ _ _ _ (by simp), List.length_replicate, Nat.sub_self,
    List.getD_append _ _ _ _ (by simpa using hpos)]
  simp [List.getD_eq_getElem?_getD, hpos]

theorem MarksRun.behind (h : MarksRun zeros r start) {k : ℕ} (hk : start + r.max ≤ k)
    (hk8 : k < 8) : r.runpos.getD k 0 = -1 := by
  rw [h.2.2.2.1, List.getD_append_right _ _ _ _ (by simp; omega),
    List.getD_append_right _ _ _ _ (by simp; omega), List.getD_replicate _ (by simp; omega)]

theorem MarksRun.zero (h : MarksRun zeros r start) {k : ℕ} (hk : start ≤ k)
    (hk' : k < start + r.max) : zeros[k]? = some true := by
  have hget := congrArg (·[k - start]?) h.2.2.2.2
  simp only [List.getElem?_take, List.getElem?_drop, List.getElem?_replicate] at hget
  rwa [if_pos (by omega), if_pos (by omega), show start + (k - start) = k by omega] at hget

/-- Which groups are zero. -/
def zeroGroups (e : Endian) (a : In6Addr) : List Bool :=
  (List.range 8).map fun i => asShorts e a i == 0

theorem findRuns_zeroGroups (e : Endian) (a : In6Addr) :
    (∃ start < 8, MarksRun (zeroGroups e a) (findRuns (zeroGroups e a)) start) ∨
      findRuns (zeroGroups e a) = ⟨List.replicate 8 (-1), 0, -1⟩ :=
  findRuns_spec _ _ _ _ _ _ _ _

/-! ## Bytes -/

theorem get_eq_ofValue (a : In6Addr) (i : ℕ) : a.get (2 * i) 2 = .ofValue (groupValue a i) :=
  (Bytes.ofValue_value _).symm

/-- A byte stands in a group. -/
theorem apply_eq_ofValue (a : In6Addr) (k : Fin 16) : a k =
    Bytes.ofValue (n := 2) (groupValue a (k / 2)) ⟨k % 2, Nat.mod_lt _ (by decide)⟩ := by
  have hk : 2 * ((k : ℕ) / 2) + k % 2 = k := Nat.div_add_mod _ _
  rw [← get_eq_ofValue, Bytes.get]
  simp only [hk, k.isLt, dif_pos]

theorem apply_of_asShorts_five (hshort : asShorts e a 5 = 0xFFFF) : a 10 = 0xFF ∧ a 11 = 0xFF := by
  have hgroup : groupValue a 5 = 0xFFFF := by
    rw [← networkToHost_asShorts e, hshort]
    cases e <;> decide
  constructor
  · rw [apply_eq_ofValue a 10]
    show Bytes.ofValue (n := 2) (groupValue a 5) 0 = 0xFF
    rw [hgroup]
    decide
  · rw [apply_eq_ofValue a 11]
    show Bytes.ofValue (n := 2) (groupValue a 5) 1 = 0xFF
    rw [hgroup]
    decide

theorem MarksRun.eq_zero (h : MarksRun (zeroGroups e a) r start) {k : Fin 16}
    (hk : 2 * start ≤ k) (hk' : (k : ℕ) < 2 * (start + r.max)) : a k = 0 := by
  have hzero := h.zero (k := (k : ℕ) / 2) (by omega) (by omega)
  have hlt : (k : ℕ) / 2 < 8 := by omega
  have hgroup : asShorts e a (k / 2) = 0 := by simpa [zeroGroups, hlt] using hzero
  have hvalue : groupValue a (k / 2) = 0 := by
    rw [← networkToHost_asShorts e, hgroup, Endian.networkToHost_zero]
  rw [apply_eq_ofValue a k, hvalue]
  simp [Bytes.ofValue]

/-! ## What is printed -/

/-- The numbers of an address of the first family. -/
def numbers (a : InAddr) : List (List Char) := (List.ofFn a).map fun b => Nat.toDigits 10 b.toNat

theorem isNumber_toDigits (b : BitVec 8) : IsNumber (Nat.toDigits 10 b.toNat) := by
  refine ⟨Nat.toDigits_ne_nil,
    fun _ hc => isDigit_of_mem_toDigits (by decide) (by decide) hc, ?_⟩
  rw [digitsValue_toDigits (by decide) (by decide)]
  exact Nat.le_of_lt_succ b.isLt

theorem quad_toDigits (b : BitVec 8) : quad (Nat.toDigits 10 b.toNat) = b := by
  rw [quad, digitsValue_toDigits (by decide) (by decide), BitVec.ofNat_toNat, BitVec.setWidth_eq]

theorem length_of_mem_numbers {a : InAddr} {d : List Char} (hd : d ∈ numbers a) :
    d.length ≤ 3 := by
  obtain ⟨b, -, rfl⟩ := List.mem_map.1 hd
  rw [Nat.length_toDigits_le_iff (by decide) (by decide)]
  exact b.isLt.trans (by decide)

theorem isDottedQuad_v4Text (a : InAddr) : IsDottedQuad (v4Text a) := by
  refine ⟨numbers a, by simp [numbers], ?_, rfl⟩
  intro d hd
  refine ⟨?_, length_of_mem_numbers hd⟩
  obtain ⟨b, -, rfl⟩ := List.mem_map.1 hd
  exact isNumber_toDigits b

/-- It is read as it was printed. -/
theorem dotted_v4Text (a : InAddr) : dotted 4 (v4Text a) = some (List.ofFn a) := by
  rw [dotted_eq_some_iff]
  refine ⟨numbers a, by simp [numbers], ?_, ?_, .inl rfl⟩
  · intro d hd
    obtain ⟨b, -, rfl⟩ := List.mem_map.1 hd
    exact isNumber_toDigits b
  · rw [numbers, List.map_map]
    have hquad : quad ∘ (fun b : BitVec 8 => Nat.toDigits 10 b.toNat) = id :=
      funext quad_toDigits
    rw [hquad, List.map_id]

theorem length_periods_le {ns : List (List Char)} (hns : ∀ d ∈ ns, d.length ≤ 3) :
    (periods ns).length ≤ 4 * ns.length := by
  induction ns with
  | nil => simp [periods]
  | cons d ns ih =>
    obtain ⟨hd, hns⟩ := List.forall_mem_cons.1 hns
    have hrest := ih hns
    rw [List.length_cons]
    by_cases hne : ns = []
    · subst hne
      simp [periods]
      omega
    · rw [periods_cons d hne, List.length_append, List.length_cons]
      omega

theorem length_v4Text_le (a : InAddr) : (v4Text a).length ≤ 16 := by
  have hle := length_periods_le fun d (hd : d ∈ numbers a) => length_of_mem_numbers hd
  rwa [numbers, List.length_map, List.length_ofFn] at hle

/-- `"%d.%d.%d.%d"` goes into the buffer behind what is there. -/
theorem inetNtopV4_atop (a : InAddr) (hwas : 65 ≤ was.length) (hsize : 22 ≤ size)
    (ht : t.length < 49) (closed : Bool) :
    inetNtopV4 a (.atop was t closed) size =
      some (some ⟨(OutBuffer.atop was (t ++ v4Text a) true).buf, t.length⟩) := by
  have hlen := length_v4Text_le a
  have hwrite : (OutBuffer.atop was t closed).snprintf size (v4Text a) =
      some (.atop was (t ++ v4Text a) true) := by
    refine OutBuffer.snprintf_atop (by omega) ?_ closed
    omega
  rw [inetNtopV4, if_neg (by rw [inetAddrstrlen]; omega), hwrite]
  rfl

/-- The texts of an address. -/
inductive Prints (a : In6Addr) : List Char → Prop
  | groups : Prints a (colons (groupTexts a 0 8))
  | run {start max : ℕ} : 0 < max → start + max ≤ 8 →
      (∀ k : Fin 16, 2 * start ≤ k → (k : ℕ) < 2 * (start + max) → a k = 0) →
      Prints a (colons (groupTexts a 0 start) ++
        ':' :: ':' :: colons (groupTexts a (start + max) (8 - (start + max))))
  | compatible : (∀ k : Fin 16, (k : ℕ) < 12 → a k = 0) →
      Prints a (':' :: ':' :: v4Text (a.get 12 4))
  | mapped : (∀ k : Fin 16, (k : ℕ) < 10 → a k = 0) → a 10 = 0xFF → a 11 = 0xFF →
      Prints a (':' :: ':' :: ("ffff".toList ++ ':' :: v4Text (a.get 12 4)))

theorem length_le_of_prints (h : Prints a t) : t.length ≤ 42 := by
  cases h with
  | groups =>
    have hlen := length_colons_groupTexts_le a 0 8
    omega
  | @run start max hpos hle _ =>
    have hfront := length_colons_groupTexts_le a 0 start
    have hback := length_colons_groupTexts_le a (start + max) (8 - (start + max))
    rw [List.length_append, List.length_cons, List.length_cons]
    omega
  | compatible _ =>
    have hlen := length_v4Text_le (a.get 12 4)
    rw [List.length_cons, List.length_cons]
    omega
  | mapped _ _ _ =>
    have hlen := length_v4Text_le (a.get 12 4)
    have hffff : "ffff".toList.length = 4 := rfl
    rw [List.length_cons, List.length_cons, List.length_append, List.length_cons, hffff]
    omega

/-- The loop, where there is a run. -/
theorem inetNtopV6Loop_marksRun (hwas : 65 ≤ was.length) (h : MarksRun zeros r start) :
    inetNtopV6Loop e a r 9 0 ⟨was, 0⟩ = some (.atop was (colons (groupTexts a 0 start) ++
      ':' :: ':' :: colons (groupTexts a (start + r.max) (8 - (start + r.max))))
      (decide (start + r.max ≠ 8))) := by
  have hpos := h.1
  have hle := h.2.1
  obtain ⟨k, hk⟩ : ∃ k, 9 = k + 1 + (8 - (start + r.max)) + 1 + start := ⟨r.max - 1, by omega⟩
  obtain ⟨closed, hfront⟩ : ∃ closed,
      inetNtopV6Loop e a r (k + 1 + (8 - (start + r.max)) + 1 + start) 0 ⟨was, 0⟩ =
        inetNtopV6Loop e a r (k + 1 + (8 - (start + r.max)) + 1) start
          (.atop was (colons (groupTexts a 0 start)) closed) := by
    by_cases hstart : start = 0
    · subst hstart
      exact ⟨false, rfl⟩
    · have hgroups := inetNtopV6Loop_groups (e := e) (a := a) (t := [])
        (i := 0) hwas (Nat.pos_of_ne_zero hstart)
        (fun j hj => by rw [Nat.zero_add]; exact h.before hj)
        (.inr ⟨by omega, by rw [Nat.zero_add]; exact h.at_start⟩) (by simp)
        (k + 1 + (8 - (start + r.max)) + 1) false
      rw [Nat.zero_add, List.nil_append] at hgroups
      exact ⟨true, hgroups⟩
  have hwidth := length_colons_groupTexts_le a 0 start
  rw [hk, hfront, inetNtopV6Loop_run hwas (by omega) h.at_start hpos (by omega)]
  by_cases hend : start + r.max = 8
  · rw [hend, Nat.sub_self, Nat.add_zero, inetNtopV6Loop_end]
    rfl
  · have hgroups := inetNtopV6Loop_groups (e := e) (a := a) (r := r) (i := start + r.max)
      (n := 8 - (start + r.max)) (t := colons (groupTexts a 0 start) ++ [':', ':']) hwas (by omega)
      (fun j hj => h.behind (by omega) (by omega)) (.inl (by omega))
      (by rw [List.length_append]; simp; omega) (k + 1) false
    rw [hgroups, show start + r.max + (8 - (start + r.max)) = 8 by omega,
      inetNtopV6Loop_end, List.append_assoc, decide_eq_true hend]
    rfl

/-- Whether the last bytes are printed as an address of the first family. -/
def PrintsV4 (e : Endian) (a : In6Addr) (r : Runs) : Prop :=
  r.runpos.getD 0 0 = 1 ∧ (r.maxpos = 5 ∨ r.maxpos = 4 ∧ asShorts e a 5 = 0xFFFF)

theorem inetNtopV6_of_not {o : OutBuffer} (hsize : 65 ≤ size)
    (hr : findRuns (zeroGroups e a) = r) (hnot : ¬ PrintsV4 e a r)
    (hloop : inetNtopV6Loop e a r 9 0 ⟨was, 0⟩ = some o) :
    inetNtopV6 e a was size = some (some o) := by
  rw [PrintsV4, ← hr] at hnot
  rw [← hr] at hloop
  rw [inetNtopV6, if_neg (by rw [inet6Addrstrlen]; omega)]
  exact (if_neg hnot).trans (by rw [zeroGroups] at hloop; rw [hloop]; rfl)

theorem inetNtopV6_of_printsV4 (hwas : 65 ≤ was.length) (hsize : 65 ≤ size)
    (hr : findRuns (zeroGroups e a) = r) (hv4 : PrintsV4 e a r) :
    inetNtopV6 e a was size = some (some
      ⟨(OutBuffer.atop was (':' :: ':' :: ((if r.maxpos = 4 then "ffff:".toList else []) ++
        v4Text (a.get 12 4))) true).buf, 2 + (if r.maxpos = 4 then 5 else 0)⟩) := by
  have hbuf : (⟨was, 0⟩ : OutBuffer) = .atop was [] false := rfl
  rw [PrintsV4, ← hr] at hv4
  rw [inetNtopV6, if_neg (by rw [inet6Addrstrlen]; omega), hbuf]
  refine (if_pos hv4).trans ?_
  have hfirst : (OutBuffer.atop was [] false).putChar ':' = some (.atop was [':'] false) :=
    OutBuffer.putChar_atop (by simp; omega) false ':'
  have hsecond : (OutBuffer.atop was [':'] false).putChar ':' =
      some (.atop was [':', ':'] false) :=
    OutBuffer.putChar_atop (by simp; omega) false ':'
  rw [← hr, hfirst, Option.bind_eq_bind, Option.bind_some, hsecond, Option.bind_some, zeroGroups]
  generalize (findRuns ((List.range 8).map fun i => asShorts e a i == 0)).maxpos = maxpos
  by_cases hmapped : maxpos = 4
  · have hffff : (OutBuffer.atop was [':', ':'] false).snprintf (inet6Addrstrlen - 2)
        "ffff:".toList = some (.atop was (':' :: ':' :: "ffff:".toList) true) :=
      OutBuffer.snprintf_atop (by decide) (by simp; omega) false
    have hv4 := inetNtopV4_atop (t := ':' :: ':' :: "ffff:".toList) (a.get 12 4) hwas
      (by decide : 22 ≤ 58) (by decide) true
    rw [if_pos hmapped, if_pos hmapped, if_pos hmapped, hffff]
    have hroom : inet6Addrstrlen -
        (OutBuffer.atop was (':' :: ':' :: "ffff:".toList) true).cursor = 58 := rfl
    rw [Option.bind_some]
    beta_reduce
    rw [hroom, hv4]
    rfl
  · have hv4 := inetNtopV4_atop (t := [':', ':']) (a.get 12 4) hwas (by decide : 22 ≤ 63)
      (by decide) false
    rw [if_neg hmapped, if_neg hmapped, if_neg hmapped]
    have hroom : inet6Addrstrlen - (OutBuffer.atop was [':', ':'] false).cursor = 63 := rfl
    rw [Option.bind_some]
    beta_reduce
    rw [hroom, hv4]
    rfl

/-- An address without a zero group. -/
theorem inetNtopV6_of_none (hwas : 65 ≤ was.length) (hsize : 65 ≤ size)
    (hnone : findRuns (zeroGroups e a) = ⟨List.replicate 8 (-1), 0, -1⟩) :
    inetNtopV6 e a was size = some (some (.atop was (colons (groupTexts a 0 8)) true)) := by
  have hnot : ¬ PrintsV4 e a ⟨List.replicate 8 (-1), 0, -1⟩ := by
    rintro ⟨h, -⟩
    exact absurd h (by decide)
  have hloop : inetNtopV6Loop e a ⟨List.replicate 8 (-1), 0, -1⟩ 9 0 ⟨was, 0⟩ =
      some (.atop was (colons (groupTexts a 0 8)) true) := by
    have hgroups := inetNtopV6Loop_groups (e := e) (a := a) (i := 0) (n := 8) (t := [])
      (r := ⟨List.replicate 8 (-1), 0, -1⟩) hwas (by decide) (by decide) (.inl rfl) (by decide) 1
      false
    exact hgroups.trans (inetNtopV6Loop_end _)
  exact inetNtopV6_of_not hsize hnone hnot hloop

/-- What ends with a dotted quad is the text of an address. -/
theorem prints_of_printsV4 (hv4 : PrintsV4 e a r) (hmarks : MarksRun (zeroGroups e a) r start) :
    r.maxpos ≠ 7 ∧ Prints a (':' :: ':' :: ((if r.maxpos = 4 then "ffff:".toList else []) ++
      v4Text (a.get 12 4))) := by
  have hmaxpos := hmarks.2.2.1
  have hzero : start = 0 := by
    by_contra hne
    have hfirst := hmarks.before (Nat.pos_of_ne_zero hne)
    rw [hv4.1] at hfirst
    exact absurd hfirst (by decide)
  subst hzero
  rcases hv4.2 with hfive | ⟨hfour, hshort⟩
  · refine ⟨by omega, ?_⟩
    rw [if_neg (by omega), List.nil_append]
    exact .compatible fun k hk => hmarks.eq_zero (by omega) (by omega)
  · obtain ⟨hten, heleven⟩ := apply_of_asShorts_five hshort
    refine ⟨by omega, ?_⟩
    rw [if_pos hfour]
    exact .mapped (fun k hk => hmarks.eq_zero (by omega) (by omega)) hten heleven

/-- **What is printed** over what was in the buffer. There is a terminator behind it, except where
the run goes to the end. -/
theorem inetNtopV6_atop (e : Endian) (a : In6Addr) (hwas : 65 ≤ was.length) (hsize : 65 ≤ size) :
    ∃ t, Prints a t ∧ (inetNtopV6 e a was size).map (Option.map OutBuffer.buf) =
        some (some (OutBuffer.atop was t (decide ((findRuns (zeroGroups e a)).maxpos ≠ 7))).buf) ∧
      ((findRuns (zeroGroups e a)).maxpos = 7 →
        t = colons (groupTexts a 0 (8 - (findRuns (zeroGroups e a)).max)) ++ [':', ':']) := by
  rcases findRuns_zeroGroups e a with ⟨start, -, hmarks⟩ | hnone
  · obtain ⟨r, hr⟩ : ∃ r, findRuns (zeroGroups e a) = r := ⟨_, rfl⟩
    rw [hr] at hmarks ⊢
    have hpos := hmarks.1
    have hle := hmarks.2.1
    have hmaxpos := hmarks.2.2.1
    by_cases hv4 : PrintsV4 e a r
    · obtain ⟨hseven, hprints⟩ := prints_of_printsV4 hv4 hmarks
      refine ⟨_, hprints, ?_, fun h => absurd h hseven⟩
      rw [inetNtopV6_of_printsV4 hwas hsize hr hv4, decide_eq_true hseven]
      rfl
    · have hseven : (decide (start + r.max ≠ 8)) = decide (r.maxpos ≠ 7) :=
        decide_eq_decide.mpr (not_congr (by omega))
      refine ⟨_, .run hpos hle fun k hk hk' => hmarks.eq_zero hk hk', ?_, fun hend => ?_⟩
      · rw [inetNtopV6_of_not hsize hr hv4 (inetNtopV6Loop_marksRun hwas hmarks), hseven]
        rfl
      · have hstart : start + r.max = 8 := by omega
        rw [hstart, Nat.sub_self, show 8 - r.max = start by omega]
        rfl
  · refine ⟨_, .groups, ?_, ?_⟩
    · rw [inetNtopV6_of_none hwas hsize hnone, hnone]
      rfl
    · rw [hnone]
      exact fun h => absurd h (by decide)

/-- **What is printed**, into a buffer of zeros. -/
theorem inetNtopV6_eq (e : Endian) (a : In6Addr) : ∃ t, Prints a t ∧
    (inetNtopV6 e a (List.replicate 65 '\x00') 65).map (Option.map OutBuffer.buf) =
      some (some (printed t).buf) := by
  have hwas : 65 ≤ (List.replicate 65 '\x00').length := (List.length_replicate ..).ge
  obtain ⟨t, ht, hbuf, -⟩ := inetNtopV6_atop e a hwas (le_refl 65)
  have hlen := length_le_of_prints ht
  exact ⟨t, ht, by rw [hbuf, OutBuffer.atop_zeros (by omega)]; rfl⟩

end Win32

end TQLib
