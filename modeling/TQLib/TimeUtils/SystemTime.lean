import TQLib.Foundations.Machine
import TQLib.Foundations.Signed
import Mathlib.Tactic.NormNum
import Mathlib.Data.Fintype.Prod

/-!
# `rtc::SystemTimeNanos` on Windows

`timeGetTime` gives the milliseconds since the start of the system by their low 32 bits. What it
has given last is kept, and exchanged for what it gives now; a caller that finds that the count has
wrapped in between adds one to the number of wraps. The reading, the exchange, the addition and the
reading of the number of wraps are steps of their own, and other callers come between them.

A state remembers of a reading the time it was taken at. The code has only its low 32 bits.

## Main results

* `Counted.step` — a wrap has been counted, or a caller is about to count it
* `systemTimeNanos_right` — in a run where readings are exchanged in their order and the wraps are
  read when those before the reading have been counted, and no others
-/

namespace TQLib

namespace SystemTime

variable {ι : Type*}

/-! ## The data -/

/-- A `DWORD`. -/
def dword (ms : ℕ) : ℕ := ms % 2 ^ 32

/-- `kNumNanosecsPerMillisec`. -/
def kNumNanosecsPerMillisec : ℤ := 1000000

/-- `kNumNanosecsPerMicrosec`. -/
def kNumNanosecsPerMicrosec : ℤ := 1000

/-- Where a caller is. -/
inductive Caller
  /-- Not in the function. -/
  | idle
  /-- Before the exchange, with a reading. -/
  | exchange (now : ℕ)
  /-- Behind it, with what it has given. -/
  | increment (now old : ℕ)
  /-- About to read the number of wraps. -/
  | count (now : ℕ)
  deriving DecidableEq

/-- The clock, the static variables, and the callers. -/
structure State (ι : Type*) where
  /-- The true time, in milliseconds. -/
  clock : ℕ
  /-- The time at which `last_timegettime` was read. -/
  lastTimegettime : ℕ
  /-- `num_wrap_timegettime`. -/
  numWrapTimegettime : ℕ
  /-- Where each caller is. -/
  callers : ι → Caller
  /-- When each caller has taken its last step. -/
  moved : ι → ℕ

/-- The time goes on, a caller enters the function, or takes the next step in it. -/
inductive Action (ι : Type*)
  | tick (ms : ℕ)
  | call (i : ι)
  | resume (i : ι)

/-- A caller returns. -/
structure Observation (ι : Type*) where
  /-- The caller. -/
  caller : ι
  /-- When it has read the clock. -/
  now : ℕ
  /-- What it returns. -/
  nanos : Option ℤ
  deriving DecidableEq

/-! ## The function -/

/-- Whether the exchange shows that there was a wrap. -/
def wrapped (old now : ℕ) : Bool :=
  decide (now < old) && (decide (0xf0000000 < old) && decide (now < 0x0fffffff))

/-- The last lines. -/
def ticks (now numWrap : ℕ) : Option ℤ :=
  (signed 64 (numWrap * 2 ^ 32)).bind fun wraps =>
    (signed 64 (now + wraps)).bind fun ticks => signed 64 (ticks * kNumNanosecsPerMillisec)

/-- `TimeMillis` and `SystemTimeMillis`, from `TimeNanos`. -/
def timeMillis (nanos : ℤ) : ℤ := nanos.tdiv kNumNanosecsPerMillisec

/-- `TimeMicros`, from `TimeNanos`. -/
def timeMicros (nanos : ℤ) : ℤ := nanos.tdiv kNumNanosecsPerMicrosec

/-- A caller moves on. -/
def State.setCaller [DecidableEq ι] (s : State ι) (i : ι) (c : Caller) : State ι :=
  { s with callers := Function.update s.callers i c, moved := Function.update s.moved i s.clock }

/-- One step. -/
def State.step [DecidableEq ι] (s : State ι) : Action ι → Option (State ι × List (Observation ι))
  | .tick ms => some ({ s with clock := s.clock + ms }, [])
  | .call i =>
    match s.callers i with
    | .idle => some (s.setCaller i (.exchange s.clock), [])
    | _ => none
  | .resume i =>
    match s.callers i with
    | .idle => none
    | .exchange now =>
      some (({ s with lastTimegettime := now } : State ι).setCaller i
        (.increment now s.lastTimegettime), [])
    | .increment now old =>
      let numWrap :=
        if wrapped (dword old) (dword now) then s.numWrapTimegettime + 1 else s.numWrapTimegettime
      some (({ s with numWrapTimegettime := numWrap } : State ι).setCaller i (.count now), [])
    | .count now =>
      some (s.setCaller i .idle, [⟨i, now, ticks (dword now) s.numWrapTimegettime⟩])

/-- The process, from the first call on. The time is counted from the block of `2 ^ 32` that the
first exchange is in; `last_timegettime` is zero, as if it had been read at the start of it. -/
def machine (ι : Type*) [DecidableEq ι] (origin : ℕ) : Machine (State ι) (Action ι) (Observation ι)
    where
  start s := s.lastTimegettime = origin * 2 ^ 32 ∧ s.numWrapTimegettime = 0 ∧
    ∀ i, s.callers i = .idle
  step := State.step

/-- A caller does not wait long between its steps. -/
def Prompt (s : State ι) : Action ι → Prop
  | .resume i => s.clock < s.moved i + 0x0fffffff
  | _ => True

instance (s : State ι) (a : Action ι) : Decidable (Prompt s a) :=
  match a with
  | .resume _ => inferInstanceAs (Decidable (_ < _))
  | .tick _ => inferInstanceAs (Decidable True)
  | .call _ => inferInstanceAs (Decidable True)

/-- The true time. -/
def trueMillis (origin now : ℕ) : ℤ := now - origin * 2 ^ 32

/-- A caller returns the time at which it has read the clock. -/
def Observation.Right (origin : ℕ) (o : Observation ι) : Prop :=
  o.nanos = some (trueMillis origin o.now * kNumNanosecsPerMillisec)

/-! ## Wraps that are counted in time -/

/-- The caller is about to count a wrap. -/
def Caller.counts : Caller → Bool
  | .increment now old => wrapped (dword old) (dword now)
  | _ => false

/-- The callers that are about to count a wrap. -/
def State.pending (s : State ι) : Set ι := {i | (s.callers i).counts = true}

/-- A reading is exchanged for one of the same block, or for one of the next block that is so near
to it that the wrap is seen. -/
def Follows (old now : ℕ) : Prop :=
  now / 2 ^ 32 = old / 2 ^ 32 + if wrapped (dword old) (dword now) then 1 else 0

/-- The readings are exchanged in their order. When a caller reads the number of wraps, as many are
still to be counted as the readings that were exchanged have gone past its own. -/
def InOrder (origin : ℕ) (s : State ι) : Action ι → Prop
  | .resume i =>
    match s.callers i with
    | .exchange now => Follows s.lastTimegettime now
    | .count now =>
      now / 2 ^ 32 + s.pending.ncard = s.lastTimegettime / 2 ^ 32 ∧
        InSigned 64 (trueMillis origin now * kNumNanosecsPerMillisec)
    | _ => True
  | _ => True

/-! ## The function returns the time -/

/-- Where the time in nanoseconds is a value of the type, so is all that it is computed from. -/
theorem ticks_eq {origin now numWrap : ℕ} (hcount : numWrap + origin = now / 2 ^ 32)
    (hfits : InSigned 64 (trueMillis origin now * kNumNanosecsPerMillisec)) :
    ticks (dword now) numWrap = some (trueMillis origin now * kNumNanosecsPerMillisec) := by
  have hsum : ((dword now : ℕ) : ℤ) + numWrap * 2 ^ 32 = trueMillis origin now := by
    rw [dword, trueMillis]
    omega
  have hlow : (0 : ℤ) ≤ (dword now : ℕ) := Int.natCast_nonneg _
  have hbound : trueMillis origin now < 9223372036855 := by
    have := hfits.2
    rw [kNumNanosecsPerMillisec] at this
    norm_num at this
    omega
  have hwraps : InSigned 64 (numWrap * 2 ^ 32 : ℤ) := by
    rw [InSigned]
    norm_num
    omega
  have hmillis : InSigned 64 (trueMillis origin now) := by
    rw [InSigned]
    norm_num
    omega
  rw [ticks, signed_of hwraps, Option.bind_some, hsum, signed_of hmillis, Option.bind_some,
    signed_of hfits]

theorem timeMillis_of_nanos (millis : ℤ) : timeMillis (millis * kNumNanosecsPerMillisec) = millis :=
  Int.mul_tdiv_cancel _ (by rw [kNumNanosecsPerMillisec]; norm_num)

theorem timeMicros_of_nanos (millis : ℤ) :
    timeMicros (millis * kNumNanosecsPerMillisec) = millis * 1000 := by
  have hsplit : millis * kNumNanosecsPerMillisec = millis * 1000 * kNumNanosecsPerMicrosec := by
    rw [kNumNanosecsPerMillisec, kNumNanosecsPerMicrosec]
    omega
  rw [hsplit]
  exact Int.mul_tdiv_cancel _ (by rw [kNumNanosecsPerMicrosec]; norm_num)

/-! ## The invariant -/

/-- Every wrap up to the last reading that was exchanged has been counted, or a caller is about to
count it. -/
structure Counted (origin : ℕ) (s : State ι) : Prop where
  /-- Only finitely many callers are about to count. -/
  finite : s.pending.Finite
  /-- The count. -/
  count : s.numWrapTimegettime + s.pending.ncard + origin = s.lastTimegettime / 2 ^ 32

variable [DecidableEq ι] {origin : ℕ} {s s' : State ι} {a : Action ι}
  {out : List (Observation ι)}

/-- A caller moves on, after it has written to the static variables: what it has still to count goes
with the last reading less what is counted. -/
theorem Counted.setCaller (hs : Counted origin s) (s₁ : State ι)
    (hcallers : s₁.callers = s.callers) (i : ι) {c : Caller}
    (hcount : s₁.numWrapTimegettime + (if c.counts = true then 1 else 0) +
        s.lastTimegettime / 2 ^ 32 =
      s.numWrapTimegettime + (if (s.callers i).counts = true then 1 else 0) +
        s₁.lastTimegettime / 2 ^ 32) : Counted origin (s₁.setCaller i c) := by
  have hpending : (s₁.setCaller i c).pending =
      {j | (Function.update s.callers i c j).counts = true} := by
    rw [← hcallers]
    rfl
  have hmoved := ncard_update (fun c : Caller => c.counts = true) hs.finite i c
  constructor
  · rw [hpending]
    exact finite_update (P := fun c : Caller => c.counts = true) hs.finite i c
  · have hold := hs.count
    rw [hpending]
    show s₁.numWrapTimegettime + _ + origin = s₁.lastTimegettime / 2 ^ 32
    rw [State.pending] at hold
    omega

theorem Counted.start (hs : (machine ι origin).start s) : Counted origin s := by
  obtain ⟨hlast, hcount, hidle⟩ := hs
  have hempty : s.pending = ∅ := by
    ext i
    simp [State.pending, hidle, Caller.counts]
  constructor
  · rw [hempty]
    exact Set.finite_empty
  · rw [hempty, Set.ncard_empty, hcount, hlast]
    omega

/-- **One step.** An exchange that goes on to the next block owes an addition, and the addition pays
for it. -/
theorem Counted.step (hs : Counted origin s) (hguard : InOrder origin s a)
    (hstep : s.step a = some (s', out)) : Counted origin s' := by
  cases a with
  | tick ms =>
    cases hstep
    exact ⟨hs.finite, hs.count⟩
  | call i =>
    cases hi : s.callers i <;> simp only [State.step, hi] at hstep <;> cases hstep
    exact hs.setCaller s rfl i (by simp [hi, Caller.counts])
  | resume i =>
    cases hi : s.callers i with
    | idle =>
      simp only [State.step, hi] at hstep
      cases hstep
    | exchange now =>
      simp only [InOrder, hi, Follows] at hguard
      simp only [State.step, hi] at hstep
      cases hstep
      refine hs.setCaller { s with lastTimegettime := now } rfl i ?_
      by_cases hwrapped : wrapped (dword s.lastTimegettime) (dword now) = true <;>
        simp [hwrapped, hi, Caller.counts] at hguard ⊢ <;> omega
    | increment now old =>
      simp only [State.step, hi] at hstep
      cases hstep
      refine hs.setCaller { s with
        numWrapTimegettime := if wrapped (dword old) (dword now) then s.numWrapTimegettime + 1
          else s.numWrapTimegettime } rfl i ?_
      by_cases hwrapped : wrapped (dword old) (dword now) = true <;>
        simp [hwrapped, hi, Caller.counts]
    | count now =>
      simp only [State.step, hi] at hstep
      cases hstep
      exact hs.setCaller s rfl i (by simp [hi, Caller.counts])

/-- **A step that shows something.** What a caller returns is the time of its reading. -/
theorem Counted.right (hs : Counted origin s) (hguard : InOrder origin s a)
    (hstep : s.step a = some (s', out)) : ∀ o ∈ out, o.Right origin := by
  cases a with
  | tick ms =>
    cases hstep
    simp
  | call i =>
    cases hi : s.callers i <;> simp only [State.step, hi] at hstep <;> cases hstep
    simp
  | resume i =>
    cases hi : s.callers i with
    | idle =>
      simp only [State.step, hi] at hstep
      cases hstep
    | exchange now =>
      simp only [State.step, hi] at hstep
      cases hstep
      simp
    | increment now old =>
      simp only [State.step, hi] at hstep
      cases hstep
      simp
    | count now =>
      simp only [InOrder, hi] at hguard
      simp only [State.step, hi] at hstep
      cases hstep
      obtain ⟨hpending, hfits⟩ := hguard
      have hcount := hs.count
      simpa [Observation.Right] using ticks_eq (by omega) hfits

/-- In a run where the readings are exchanged in their order, and the wraps are read when those
before the reading have been counted and no others, every caller returns the time at which it has
read the clock. -/
theorem systemTimeNanos_right (origin : ℕ) {h : List (Observation ι)} {s : State ι}
    (hr : (machine ι origin).ReachesVia (InOrder origin) h s) : ∀ o ∈ h,
      o.nanos = some (trueMillis origin o.now * kNumNanosecsPerMillisec) ∧
      o.nanos.map timeMillis = some (trueMillis origin o.now) ∧
      o.nanos.map timeMicros = some (trueMillis origin o.now * 1000) := by
  have hright : Counted origin s ∧ ∀ o ∈ h, o.Right origin := by
    refine hr.induction (fun h s => Counted origin s ∧ ∀ o ∈ h, o.Right origin) ?_ ?_
    · intro s hs
      exact ⟨Counted.start hs, by simp⟩
    · rintro h s a s' out ⟨hs, hright⟩ hguard hstep
      refine ⟨hs.step hguard hstep, ?_⟩
      intro o ho
      rcases List.mem_append.1 ho with hold | hnew
      · exact hright o hold
      · exact hs.right hguard hstep o hnew
  intro o ho
  have hnanos := hright.2 o ho
  rw [Observation.Right] at hnanos
  refine ⟨hnanos, ?_, ?_⟩
  · rw [hnanos, Option.map_some, timeMillis_of_nanos]
  · rw [hnanos, Option.map_some, timeMicros_of_nanos]

/-! ## Runs -/

instance (old now : ℕ) : Decidable (Follows old now) := inferInstanceAs (Decidable (_ = _))

omit [DecidableEq ι] in
theorem State.ncard_pending [Fintype ι] (s : State ι) :
    s.pending.ncard = (Finset.univ.filter fun i => (s.callers i).counts = true).card := by
  rw [← Set.ncard_coe_finset]
  simp [State.pending]

instance [Fintype ι] (origin : ℕ) (s : State ι) (a : Action ι) : Decidable (InOrder origin s a) :=
  match a with
  | .tick _ => inferInstanceAs (Decidable True)
  | .call _ => inferInstanceAs (Decidable True)
  | .resume i =>
    match hi : s.callers i with
    | .idle => isTrue (by simp only [InOrder, hi])
    | .increment _ _ => isTrue (by simp only [InOrder, hi])
    | .exchange now =>
      decidable_of_iff (Follows s.lastTimegettime now) (by simp only [InOrder, hi])
    | .count now =>
      decidable_of_iff (now / 2 ^ 32 + (Finset.univ.filter fun j =>
          (s.callers j).counts = true).card = s.lastTimegettime / 2 ^ 32 ∧
        InSigned 64 (trueMillis origin now * kNumNanosecsPerMillisec))
        (by simp only [InOrder, hi, s.ncard_pending])

/-- A process that starts at the given time. -/
def State.started (clock : ℕ) : State ι := ⟨clock, 0, 0, fun _ => .idle, fun _ => 0⟩

/-- A whole call. -/
def aCall (i : ι) : List (Action ι) := [.call i, .resume i, .resume i, .resume i]

/-- What is returned in a run that starts at the given time. -/
def returned (guard : State ι → Action ι → Prop) [∀ s a, Decidable (guard s a)] (clock : ℕ)
    (as : List (Action ι)) : Option (List (Observation ι)) :=
  ((machine ι 0).execVia guard (State.started clock) as).map Prod.snd

theorem reachesVia_of_returned {guard : State ι → Action ι → Prop} [∀ s a, Decidable (guard s a)]
    {clock : ℕ} {as : List (Action ι)} {h : List (Observation ι)}
    (hreturned : returned guard clock as = some h) : ∃ s, (machine ι 0).ReachesVia guard h s := by
  obtain ⟨⟨s, h⟩, hex, rfl⟩ := Option.map_eq_some_iff.1 hreturned
  have hstart : (machine ι 0).start (State.started clock) := by simp [machine, State.started]
  exact ⟨s, .of_execVia hstart hex⟩

/-- Two calls on the two sides of a wrap. -/
theorem systemTimeNanos_right_two : ∃ s, (machine Bool 0).ReachesVia (InOrder 0)
      [⟨true, 4294967290, some 4294967290000000⟩, ⟨false, 4294967300, some 4294967300000000⟩] s ∧
    ∀ o ∈ ([⟨true, 4294967290, some 4294967290000000⟩,
        ⟨false, 4294967300, some 4294967300000000⟩] : List (Observation Bool)),
      o.nanos = some (trueMillis 0 o.now * kNumNanosecsPerMillisec) ∧
      o.nanos.map timeMillis = some (trueMillis 0 o.now) ∧
      o.nanos.map timeMicros = some (trueMillis 0 o.now * 1000) := by
  have hex : returned (InOrder 0) 4294967290 (aCall true ++ .tick 10 :: aCall false) =
      some [⟨true, 4294967290, some 4294967290000000⟩,
        ⟨false, 4294967300, some 4294967300000000⟩] := by
    decide +kernel
  obtain ⟨s, hr⟩ := reachesVia_of_returned hex
  exact ⟨s, hr, systemTimeNanos_right 0 hr⟩

/-- One caller reads the clock before a wrap and exchanges behind one that has read it after. The
number of wraps is one too high for it, and for every call from the next on. -/
theorem not_right_of_prompt : ¬ ∀ (ι : Type) [DecidableEq ι] (origin : ℕ) h s,
    (machine ι origin).ReachesVia Prompt h s → ∀ o ∈ h, o.Right origin := by
  intro hright
  have hex : returned Prompt 4294967290 (aCall false ++ [.call true, .tick 10] ++ aCall false ++
        [.resume true, .resume true, .resume true] ++ aCall false) =
      some [⟨false, 4294967290, some 4294967290000000⟩, ⟨false, 4294967300, some 4294967300000000⟩,
        ⟨true, 4294967290, some 8589934586000000⟩, ⟨false, 4294967300, some 8589934596000000⟩] := by
    decide +kernel
  obtain ⟨s, hr⟩ := reachesVia_of_returned hex
  have hwrong := hright Bool 0 _ s hr ⟨false, 4294967300, some 8589934596000000⟩ (by simp)
  simp [Observation.Right, trueMillis, kNumNanosecsPerMillisec] at hwrong

end SystemTime

end TQLib
