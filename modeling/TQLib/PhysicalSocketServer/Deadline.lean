import TQLib.Foundations.Signed
import TQLib.PhysicalSocketServer.Wait
import TQLib.Units.Time

/-!
# How long `Wait` waits

The timing of `WaitSelect` and `WaitEpoll`. What the descriptors and the handlers do is in the
module on `Wait`; here a round is how the system call returns, whether `fWait_` is still true when
the handlers are done, and what the clock says then.

The clock counts nanoseconds in an `int64_t`. `WaitSelect` reads it in microseconds and `WaitEpoll`
in milliseconds, rounded towards zero, and both take the duration in whole milliseconds.

`WaitEpoll` returns when there is no time left. `WaitSelect` goes on with a timeout of zero, and
leaves it to `select` to find nothing.

## Main results

* `waitLoop_spec` — the calls a loop makes and where it stops, for any rule about the time left
* `waitSelect_honours_iff`, `waitEpoll_honours_iff` — when a back end honours the deadline
-/

namespace TQLib

namespace PhysicalSocketServer

/-! ## The source -/

/-- `kForeverMs`. -/
def kForeverMs : ℤ := -1

/-- `ToCmsWait`. `RoundUpTo` adds in `int64_t`, and what `ms` gives is converted to `int`. -/
def toCmsWait (d : TimeDelta) : Option ℤ :=
  if d.isPlusInfinity then some kForeverMs
  else (signed 64 (d.us + 1000)).map fun _ => staticCastSigned 32 (d.roundUpTo (.millis 1)).ms

/-- `TimeMillis()`, of `TimeNanos()`. -/
def timeMillis (ns : ℤ) : ℤ := ns.tdiv 1000000

/-- `TimeMicros()`, of `TimeNanos()`. -/
def timeMicros (ns : ℤ) : ℤ := ns.tdiv 1000

/-- `struct timeval`. -/
structure Timeval where
  /-- `tv_sec`. -/
  sec : ℤ
  /-- `tv_usec`. -/
  usec : ℤ
  deriving DecidableEq

/-- One round of a loop. -/
structure Round where
  /-- How the system call returns. -/
  result : Returned Unit
  /-- `fWait_` after the handlers. -/
  fWait : Bool
  /-- `TimeNanos()` at the end. -/
  now : ℤ

/-- What is seen of a loop. -/
structure Waited (τ : Type*) where
  /-- The timeouts of the system calls, each with `TimeNanos()` when it was computed. -/
  calls : List (ℤ × τ)
  /-- What is returned, or none while the last of them has not returned. -/
  returned : Option Bool

variable {τ : Type*}

/-- The loop of either function. `timeLeft` is what it does at the end of a round: it computes the
timeout for the next, or returns, or overflows. -/
def waitLoop (timeLeft : ℤ → Option (Option τ)) : ℤ → τ → List Round → Option (Waited τ)
  | now, timeout, [] => some ⟨[(now, timeout)], none⟩
  | now, timeout, r :: rounds =>
    match r.result with
    | .error => some ⟨[(now, timeout)], some false⟩
    | .timeout => some ⟨[(now, timeout)], some true⟩
    | .interrupted | .ready _ =>
      match timeLeft r.now with
      | none => none
      | some none => some ⟨[(now, timeout)], some true⟩
      | some (some timeout') =>
        if r.fWait then
          (waitLoop timeLeft r.now timeout' rounds).map fun o =>
            { o with calls := (now, timeout) :: o.calls }
        else some ⟨[(now, timeout)], some true⟩

/-- `WaitSelect`. -/
def waitSelect (cmsWait start : ℤ) (rounds : List Round) : Option (Waited (Option Timeval)) :=
  if cmsWait = kForeverMs then waitLoop (fun _ => some (some none)) start none rounds
  else do
    let product ← signed 32 (cmsWait * 1000)
    let stopUs ← signed 64 (timeMicros start + product)
    let timeLeft (now : ℤ) : Option (Option (Option Timeval)) := do
      let timeLeftUs ← signed 64 (stopUs - timeMicros now)
      some (some (some (if timeLeftUs > 0 then ⟨timeLeftUs.tdiv 1000000, timeLeftUs.tmod 1000000⟩
        else ⟨0, 0⟩)))
    waitLoop timeLeft start (some ⟨cmsWait.tdiv 1000, cmsWait.tmod 1000 * 1000⟩) rounds

/-- `WaitEpoll`. -/
def waitEpoll (cmsWait start : ℤ) (rounds : List Round) : Option (Waited ℤ) :=
  if cmsWait = kForeverMs then
    let tvWait := staticCastSigned 32 (-1)
    waitLoop (fun _ => some (some tvWait)) start tvWait rounds
  else do
    let tvStop ← signed 64 (timeMillis start + cmsWait)
    let timeLeft (now : ℤ) : Option (Option ℤ) := do
      let tvWait ← signed 64 (tvStop - timeMillis now)
      some (if tvWait ≤ 0 then none else some (staticCastSigned 32 tvWait))
    waitLoop timeLeft start (staticCastSigned 32 cmsWait) rounds

/-! ## What honouring the deadline is -/

/-- How long `select` waits, in microseconds, or none where it waits for ever. -/
def selectTimeout (ptvWait : Option Timeval) : Option ℤ :=
  ptvWait.map fun tv => tv.sec * 1000000 + tv.usec

/-- How long `epoll_wait` waits, in microseconds, or none where it waits for ever. -/
def epollTimeout (timeout : ℤ) : Option ℤ := if timeout < 0 then none else some (timeout * 1000)

/-- The clock as `WaitEpoll` reads it, in microseconds. -/
def epollClock (ns : ℤ) : ℤ := timeMillis ns * 1000

/-- A back end whose clock reads `clock` honours the deadline. Each timeout is the time left,
rounded up at most to the next millisecond, and when a round finishes at or after the deadline the
wait is over. -/
def Honours (timeoutUs : τ → Option ℤ) (clock : ℤ → ℤ) (deadline : ℤ) (rounds : List Round)
    (w : Option (Waited τ)) : Prop :=
  ∃ o, w = some o ∧
    (∀ c ∈ o.calls, ∃ us, timeoutUs c.2 = some us ∧
      max 0 (deadline - clock c.1) ≤ us ∧ us < max 0 (deadline - clock c.1) + 1000) ∧
    ∀ (k : ℕ) r, rounds[k]? = some r → deadline ≤ clock r.now →
      o.calls.length ≤ k + 1 ∧ o.returned.isSome

/-- `WaitSelect` honours the deadline. -/
def SelectHonours (d : TimeDelta) (start : ℤ) (rounds : List Round) : Prop :=
  Honours selectTimeout timeMicros (timeMicros start + d.us) rounds
    ((toCmsWait d).bind fun cmsWait => waitSelect cmsWait start rounds)

/-- `WaitEpoll` honours the deadline. -/
def EpollHonours (d : TimeDelta) (start : ℤ) (rounds : List Round) : Prop :=
  Honours epollTimeout epollClock (epollClock start + d.us) rounds
    ((toCmsWait d).bind fun cmsWait => waitEpoll cmsWait start rounds)

/-- The clock is an `int64_t` and does not go back. -/
def Nondecreasing (start : ℤ) (rounds : List Round) : Prop :=
  InSigned 64 start ∧ (∀ r ∈ rounds, InSigned 64 r.now) ∧
    (start :: rounds.map Round.now).Pairwise (· ≤ ·)

/-- The round ends with descriptors that are ready, or with an interruption, and `fWait_` is still
true. -/
def Round.goesOn (r : Round) : Bool :=
  r.fWait && match r.result with
    | .interrupted | .ready _ => true
    | _ => false

/-! ## The loop -/

section Loop

variable {timeLeft : ℤ → Option (Option τ)} {next : ℤ → Option τ} {rounds : List Round}

/-- The round is followed by another, by a rule that gives no timeout where there is to be none. -/
def Round.again (next : ℤ → Option τ) (r : Round) : Bool := r.goesOn && (next r.now).isSome

theorem waitLoop_cons_of_again {r : Round} (hleft : timeLeft r.now = some (next r.now))
    (h : r.again next = true) (now : ℤ) (timeout : τ) :
    ∃ timeout', next r.now = some timeout' ∧ waitLoop timeLeft now timeout (r :: rounds) =
      (waitLoop timeLeft r.now timeout' rounds).map fun o =>
        { o with calls := (now, timeout) :: o.calls } := by
  obtain ⟨result, fWait, now'⟩ := r
  rw [Round.again, Bool.and_eq_true, Option.isSome_iff_exists] at h
  obtain ⟨hgoes, timeout', hnext⟩ := h
  rw [Round.goesOn, Bool.and_eq_true] at hgoes
  obtain ⟨rfl, hresult⟩ := hgoes
  refine ⟨timeout', hnext, ?_⟩
  rw [hnext] at hleft
  cases result with
  | error => cases hresult
  | timeout => cases hresult
  | interrupted =>
    rw [waitLoop, hleft]
    rfl
  | ready =>
    rw [waitLoop, hleft]
    rfl

theorem waitLoop_cons_of_not_again {r : Round} (hleft : timeLeft r.now = some (next r.now))
    (h : r.again next = false) (now : ℤ) (timeout : τ) :
    ∃ b, waitLoop timeLeft now timeout (r :: rounds) = some ⟨[(now, timeout)], some b⟩ := by
  obtain ⟨result, fWait, now'⟩ := r
  -- An error or a timeout ends the loop; the others do when there is no time left, or `fWait_` is.
  cases result with
  | error => exact ⟨false, rfl⟩
  | timeout => exact ⟨true, rfl⟩
  | interrupted =>
    rw [waitLoop, hleft]
    cases hnext : next now' with
    | none => exact ⟨true, rfl⟩
    | some timeout' =>
      cases fWait with
      | false => exact ⟨true, rfl⟩
      | true => simp [Round.again, Round.goesOn, hnext] at h
  | ready =>
    rw [waitLoop, hleft]
    cases hnext : next now' with
    | none => exact ⟨true, rfl⟩
    | some timeout' =>
      cases fWait with
      | false => exact ⟨true, rfl⟩
      | true => simp [Round.again, Round.goesOn, hnext] at h

/-- **What a loop does** when the time left is always defined: each timeout but the first is the one
computed at the end of a round, and the loop is over by the end of a round if this round or an
earlier one is not followed by another. -/
theorem waitLoop_spec (hleft : ∀ r ∈ rounds, timeLeft r.now = some (next r.now)) (now : ℤ)
    (timeout : τ) : ∃ o, waitLoop timeLeft now timeout rounds = some o ∧
      (now, timeout) ∈ o.calls ∧
      (∀ c ∈ o.calls, c = (now, timeout) ∨
        ∃ r ∈ rounds, c.1 = r.now ∧ next r.now = some c.2) ∧
      ∀ (k : ℕ) r, rounds[k]? = some r →
        (o.calls.length ≤ k + 1 ∧ o.returned.isSome ↔
          ∃ q ∈ rounds.take (k + 1), q.again next = false) := by
  induction rounds generalizing now timeout with
  | nil => exact ⟨_, rfl, by simp, by simp, by simp⟩
  | cons r rounds ih =>
    obtain ⟨hr, hrounds⟩ := List.forall_mem_cons.mp hleft
    by_cases hagain : r.again next = true
    · obtain ⟨timeout', hnext, hloop⟩ := waitLoop_cons_of_again hr hagain now timeout
      obtain ⟨o, ho, hmem, hcalls, hover⟩ := ih hrounds r.now timeout'
      rw [hloop, ho]
      refine ⟨_, rfl, List.mem_cons_self, ?_, ?_⟩
      · intro c hc
        obtain rfl | hc := List.mem_cons.mp hc
        · exact .inl rfl
        · obtain rfl | ⟨q, hq, hcq⟩ := hcalls c hc
          · exact .inr ⟨r, List.mem_cons_self, rfl, hnext⟩
          · exact .inr ⟨q, List.mem_cons_of_mem _ hq, hcq⟩
      · intro k q hq
        cases k with
        | zero =>
          have hpos := List.length_pos_of_mem hmem
          refine iff_of_false (fun h => ?_) (fun h => ?_)
          · have hlen : o.calls.length + 1 ≤ 1 := h.1
            omega
          · obtain ⟨q, hq, hnot⟩ := h
            obtain rfl := List.mem_singleton.mp hq
            exact Bool.eq_false_iff.mp hnot hagain
        | succ k =>
          rw [List.length_cons, Nat.add_le_add_iff_right, hover k q hq, List.take_succ_cons]
          refine ⟨fun ⟨p, hp, hnot⟩ => ⟨p, List.mem_cons_of_mem _ hp, hnot⟩, ?_⟩
          rintro ⟨p, hp, hnot⟩
          obtain rfl | hp := List.mem_cons.mp hp
          · exact absurd hagain (Bool.eq_false_iff.mp hnot)
          · exact ⟨p, hp, hnot⟩
    · rw [Bool.not_eq_true] at hagain
      obtain ⟨b, hloop⟩ : ∃ b, waitLoop timeLeft now timeout (r :: rounds) =
          some ⟨[(now, timeout)], some b⟩ := waitLoop_cons_of_not_again hr hagain now timeout
      rw [hloop]
      refine ⟨_, rfl, List.mem_cons_self, fun c hc => .inl (List.mem_singleton.mp hc), ?_⟩
      intro k q hq
      exact iff_of_true ⟨by simp, rfl⟩ ⟨r, by simp, hagain⟩

/-- The first timeout is the one the loop is given. -/
theorem mem_calls_of_waitLoop {now : ℤ} {timeout : τ} {o : Waited τ}
    (h : waitLoop timeLeft now timeout rounds = some o) : (now, timeout) ∈ o.calls := by
  cases rounds with
  | nil =>
    cases h
    exact List.mem_cons_self
  | cons r rounds =>
    rw [waitLoop] at h
    split at h
    · cases h
      exact List.mem_cons_self
    · cases h
      exact List.mem_cons_self
    all_goals
      split at h
      · cases h
      · cases h
        exact List.mem_cons_self
      · split at h
        · obtain ⟨o', -, rfl⟩ := Option.map_eq_some_iff.mp h
          exact List.mem_cons_self
        · cases h
          exact List.mem_cons_self

end Loop

/-! ## The numbers -/

variable {d : TimeDelta} {start ns : ℤ} {rounds : List Round}

/-- A duration that is not negative and not infinite. -/
def FiniteWait (d : TimeDelta) : Prop := 0 ≤ d.us ∧ d.us < TimeDelta.plusInfinityVal

/-- A duration in milliseconds, rounded up. -/
def millisUp (d : TimeDelta) : ℤ := (d.us + 999) / 1000

theorem isPlusInfinity_of_finite (hd : FiniteWait d) : d.isPlusInfinity = false :=
  beq_false_of_ne hd.2.ne

/-- `ToCmsWait`, of a duration whose milliseconds are an `int`. -/
theorem toCmsWait_of_lt (hd : FiniteWait d) (h : millisUp d < 2 ^ 31) :
    toCmsWait d = some (millisUp d) := by
  have hinf := isPlusInfinity_of_finite hd
  obtain ⟨hnonneg, -⟩ := hd
  have hsum : InSigned 64 (d.us + 1000) := by
    rw [millisUp] at h
    constructor <;> omega
  have hint : InSigned 32 (millisUp d) := by
    refine ⟨?_, h⟩
    rw [millisUp]
    omega
  rw [toCmsWait, hinf, signed_of hsum, TimeDelta.ms_roundUpTo hnonneg]
  exact congrArg some (bmod_of_inSigned (by decide) hint)

/-- `ToCmsWait`, of a duration whose milliseconds are none, makes it shorter by the range of `int`
or overflows. -/
theorem toCmsWait_of_le (hd : FiniteWait d) (h : 2 ^ 31 ≤ millisUp d) :
    toCmsWait d = none ∨
      ∃ c, InSigned 32 c ∧ c ≤ millisUp d - 2 ^ 32 ∧ toCmsWait d = some c := by
  have hinf := isPlusInfinity_of_finite hd
  rw [toCmsWait, hinf, TimeDelta.ms_roundUpTo hd.1]
  by_cases hsum : InSigned 64 (d.us + 1000)
  · rw [signed_of hsum]
    exact .inr ⟨_, inSigned_bmod (by decide) _, bmod_of_le (by decide) h, rfl⟩
  · rw [signed_of_not hsum]
    exact .inl rfl

/-- The clock in microseconds leaves room for the sums. -/
theorem timeMicros_bounds (h : InSigned 64 ns) :
    -2 ^ 60 ≤ timeMicros ns ∧ timeMicros ns ≤ 2 ^ 60 := by
  constructor
  · calc (-2 ^ 60 : ℤ) ≤ (-2 ^ 63 : ℤ).tdiv 1000 := by decide
      _ ≤ timeMicros ns := Int.tdiv_le_tdiv (by decide) h.1
  · calc timeMicros ns ≤ (2 ^ 63 : ℤ).tdiv 1000 := Int.tdiv_le_tdiv (by decide) h.2.le
      _ ≤ 2 ^ 60 := by decide

/-- So does the clock in milliseconds. -/
theorem timeMillis_bounds (h : InSigned 64 ns) :
    -2 ^ 60 ≤ timeMillis ns ∧ timeMillis ns ≤ 2 ^ 60 := by
  constructor
  · calc (-2 ^ 60 : ℤ) ≤ (-2 ^ 63 : ℤ).tdiv 1000000 := by decide
      _ ≤ timeMillis ns := Int.tdiv_le_tdiv (by decide) h.1
  · calc timeMillis ns ≤ (2 ^ 63 : ℤ).tdiv 1000000 := Int.tdiv_le_tdiv (by decide) h.2.le
      _ ≤ 2 ^ 60 := by decide

theorem Nondecreasing.start_le (h : Nondecreasing start rounds) {r : Round} (hr : r ∈ rounds) :
    start ≤ r.now :=
  (List.pairwise_cons.mp h.2.2).1 _ (List.mem_map_of_mem hr)

/-! ## `WaitSelect` -/

/-- The `timeval` of some microseconds. -/
def toTimeval (us : ℤ) : Timeval := ⟨us.tdiv 1000000, us.tmod 1000000⟩

theorem selectTimeout_toTimeval (us : ℤ) : selectTimeout (some (toTimeval us)) = some us := by
  refine congrArg some ?_
  show us.tdiv 1000000 * 1000000 + us.tmod 1000000 = us
  rw [mul_comm, Int.mul_tdiv_add_tmod]

/-- The first `timeval` is that of the milliseconds too. -/
theorem selectTimeout_cmsWait (c : ℤ) :
    selectTimeout (some ⟨c.tdiv 1000, c.tmod 1000 * 1000⟩) = some (c * 1000) := by
  have hsplit := Int.mul_tdiv_add_tmod c 1000
  refine congrArg some ?_
  show c.tdiv 1000 * 1000000 + c.tmod 1000 * 1000 = c * 1000
  omega

/-- The timeout that `WaitSelect` computes at the end of a round. -/
def selectNext (stopUs now : ℤ) : Option (Option Timeval) :=
  some (some (toTimeval (max 0 (stopUs - timeMicros now))))

/-- `WaitSelect`, where no sum overflows. -/
theorem waitSelect_of_lt {c : ℤ} (hc : 0 ≤ c) (h : c * 1000 < 2 ^ 31)
    (hclock : Nondecreasing start rounds) :
    ∃ timeLeft, (∀ r ∈ rounds,
        timeLeft r.now = some (selectNext (timeMicros start + c * 1000) r.now)) ∧
      waitSelect c start rounds =
        waitLoop timeLeft start (some ⟨c.tdiv 1000, c.tmod 1000 * 1000⟩) rounds := by
  have hstart := timeMicros_bounds hclock.1
  have hproduct : InSigned 32 (c * 1000) := ⟨by omega, h⟩
  have hstop : InSigned 64 (timeMicros start + c * 1000) := by
    constructor <;> omega
  have hforever : c ≠ kForeverMs := by
    rw [kForeverMs]
    omega
  rw [waitSelect, if_neg hforever, signed_of hproduct, Option.bind_eq_bind, Option.bind_some,
    signed_of hstop]
  refine ⟨_, fun r hr => ?_, rfl⟩
  have hnow := timeMicros_bounds (hclock.2.1 r hr)
  have hleft : InSigned 64 (timeMicros start + c * 1000 - timeMicros r.now) := by
    constructor <;> omega
  rw [signed_of hleft]
  refine congrArg (fun tv => some (some (some tv))) ?_
  split
  · rename_i hpos
    rw [max_eq_right hpos.le]
    rfl
  · rename_i hpos
    rw [max_eq_left (not_lt.mp hpos)]
    rfl

/-- The rounded time left brackets the time left. -/
theorem millisUp_bounds (d : TimeDelta) :
    d.us ≤ millisUp d * 1000 ∧ millisUp d * 1000 < d.us + 1000 := by
  rw [millisUp]
  constructor <;> omega

/-- Rounding up the duration rounds up the time left. -/
theorem max_bounds {left left' : ℤ} (hle : left ≤ left') (hlt : left' < left + 1000) :
    max 0 left ≤ max 0 left' ∧ max 0 left' < max 0 left + 1000 := by
  constructor <;> omega

/-- Where a back end makes a first call with too short a timeout, or one that is for ever, it does
not honour the deadline. -/
theorem not_honours_of_first {timeoutUs : τ → Option ℤ} {clock : ℤ → ℤ} {w : Option (Waited τ)}
    {timeout : τ} (hd : 0 ≤ d.us) (hw : ∀ o, w = some o → (start, timeout) ∈ o.calls)
    (ht : ∀ us, timeoutUs timeout = some us → us < d.us) :
    ¬ Honours timeoutUs clock (clock start + d.us) rounds w := by
  rintro ⟨o, ho, hcalls, -⟩
  obtain ⟨us, hus, hle, -⟩ := hcalls _ (hw o ho)
  have hshort := ht us hus
  have hleft : clock start + d.us - clock start = d.us := add_sub_cancel_left _ _
  rw [hleft] at hle
  exact absurd (max_eq_right hd ▸ hle) (not_le.mpr hshort)

theorem not_honours_none {timeoutUs : τ → Option ℤ} {clock : ℤ → ℤ} {deadline : ℤ} :
    ¬ Honours timeoutUs clock deadline rounds none := by
  rintro ⟨o, ho, -⟩
  cases ho

/-- A duration that comes out too short is not honoured by `WaitSelect`. -/
theorem not_honours_waitSelect {c : ℤ} (hd : 0 ≤ d.us) (h : c * 1000 < d.us) :
    ¬ Honours selectTimeout timeMicros (timeMicros start + d.us) rounds
      (waitSelect c start rounds) := by
  rw [waitSelect]
  split
  · refine not_honours_of_first hd (fun o ho => mem_calls_of_waitLoop ho) fun us hus => ?_
    cases hus
  · rw [Option.bind_eq_bind]
    cases signed 32 (c * 1000) with
    | none => exact not_honours_none
    | some product =>
      rw [Option.bind_some]
      cases signed 64 (timeMicros start + product) with
      | none => exact not_honours_none
      | some stopUs =>
        refine not_honours_of_first hd (fun o ho => mem_calls_of_waitLoop ho) fun us hus => ?_
        rw [selectTimeout_cmsWait, Option.some_inj] at hus
        exact hus ▸ h

/-- No round that has been reached finishes at or after the deadline and goes on. -/
def NoLateRound (clock : ℤ → ℤ) (deadline : ℤ) (rounds : List Round) : Prop :=
  ∀ (k : ℕ) r, rounds[k]? = some r → deadline ≤ clock r.now →
    ∃ q ∈ rounds.take (k + 1), q.goesOn = false

/-- **When `WaitSelect` honours the deadline.** -/
theorem waitSelect_honours_iff (hd : FiniteWait d) (hclock : Nondecreasing start rounds) :
    SelectHonours d start rounds ↔ millisUp d * 1000 < 2 ^ 31 ∧
      NoLateRound timeMicros (timeMicros start + d.us) rounds := by
  have hup := millisUp_bounds d
  have hnonneg := hd.1
  by_cases hlt : millisUp d * 1000 < 2 ^ 31
  · rw [SelectHonours, toCmsWait_of_lt hd (by omega), Option.bind_some]
    obtain ⟨timeLeft, hleft, hwait⟩ := waitSelect_of_lt (by omega) hlt hclock
    obtain ⟨o, ho, -, hcalls, hover⟩ := waitLoop_spec hleft start
      (some ⟨(millisUp d).tdiv 1000, (millisUp d).tmod 1000 * 1000⟩)
    rw [hwait, ho]
    -- The timeouts are right, whatever the rounds do.
    have htimeouts : ∀ c ∈ o.calls, ∃ us, selectTimeout c.2 = some us ∧
        max 0 (timeMicros start + d.us - timeMicros c.1) ≤ us ∧
          us < max 0 (timeMicros start + d.us - timeMicros c.1) + 1000 := by
      intro c hc
      obtain rfl | ⟨r, -, hr, hnext⟩ := hcalls c hc
      · refine ⟨_, selectTimeout_cmsWait _, ?_⟩
        rw [add_sub_cancel_left, max_eq_right hnonneg]
        exact hup
      · rw [selectNext, Option.some_inj] at hnext
        rw [← hnext, ← hr]
        exact ⟨_, selectTimeout_toTimeval _, max_bounds (by omega) (by omega)⟩
    have hagain (q : Round) :
        q.again (selectNext (timeMicros start + millisUp d * 1000)) = q.goesOn :=
      Bool.and_true _
    simp only [hagain] at hover
    refine ⟨fun ⟨o', ho', _, hlate⟩ => ⟨hlt, fun k r hr hr' => ?_⟩, fun ⟨_, hlate⟩ => ?_⟩
    · cases ho'
      exact (hover k r hr).mp (hlate k r hr hr')
    · exact ⟨o, rfl, htimeouts, fun k r hr hr' => (hover k r hr).mpr (hlate k r hr hr')⟩
  · refine iff_of_false ?_ fun h => hlt h.1
    rw [SelectHonours]
    by_cases hint : millisUp d < 2 ^ 31
    · -- The microseconds overflow.
      have hforever : millisUp d ≠ kForeverMs := by
        rw [kForeverMs]
        omega
      have hproduct : ¬ InSigned 32 (millisUp d * 1000) := fun hin => hlt hin.2
      rw [toCmsWait_of_lt hd hint, Option.bind_some, waitSelect, if_neg hforever,
        signed_of_not hproduct]
      exact not_honours_none
    · obtain hnone | ⟨c, -, hc, hsome⟩ := toCmsWait_of_le hd (by omega)
      · rw [hnone]
        exact not_honours_none
      · rw [hsome]
        exact not_honours_waitSelect hnonneg (by omega)

/-! ## `WaitEpoll` -/

theorem epollTimeout_of_nonneg {timeout : ℤ} (h : 0 ≤ timeout) :
    epollTimeout timeout = some (timeout * 1000) := if_neg (not_lt.mpr h)

/-- The timeout that `WaitEpoll` computes at the end of a round, if it does not return. -/
def epollNext (tvStop now : ℤ) : Option ℤ :=
  if tvStop - timeMillis now ≤ 0 then none
  else some (staticCastSigned 32 (tvStop - timeMillis now))

/-- `WaitEpoll`, whose sums do not overflow. -/
theorem waitEpoll_of_lt {c : ℤ} (hc : 0 ≤ c) (h : c < 2 ^ 31)
    (hclock : Nondecreasing start rounds) :
    ∃ timeLeft, (∀ r ∈ rounds,
        timeLeft r.now = some (epollNext (timeMillis start + c) r.now)) ∧
      waitEpoll c start rounds = waitLoop timeLeft start c rounds := by
  have hstart := timeMillis_bounds hclock.1
  have hstop : InSigned 64 (timeMillis start + c) := by
    constructor <;> omega
  have hforever : c ≠ kForeverMs := by
    rw [kForeverMs]
    omega
  have hcast : staticCastSigned 32 c = c := bmod_of_inSigned (by decide) ⟨by omega, h⟩
  rw [waitEpoll, if_neg hforever, signed_of hstop, Option.bind_eq_bind, Option.bind_some, hcast]
  refine ⟨_, fun r hr => ?_, rfl⟩
  have hnow := timeMillis_bounds (hclock.2.1 r hr)
  have hleft : InSigned 64 (timeMillis start + c - timeMillis r.now) := by
    constructor <;> omega
  rw [signed_of hleft]
  rfl

/-- A duration that comes out too short is not honoured by `WaitEpoll`. -/
theorem not_honours_waitEpoll {c : ℤ} (hd : 0 ≤ d.us) (hc : InSigned 32 c)
    (h : c * 1000 < d.us) :
    ¬ Honours epollTimeout epollClock (epollClock start + d.us) rounds
      (waitEpoll c start rounds) := by
  rw [waitEpoll]
  split
  · refine not_honours_of_first hd (fun o ho => mem_calls_of_waitLoop ho) fun us hus => ?_
    cases hus
  · rw [Option.bind_eq_bind]
    cases signed 64 (timeMillis start + c) with
    | none => exact not_honours_none
    | some tvStop =>
      refine not_honours_of_first hd (fun o ho => mem_calls_of_waitLoop ho) fun us hus => ?_
      rw [staticCastSigned, bmod_of_inSigned (by decide) hc] at hus
      obtain ⟨-, hus⟩ := Option.ite_none_left_eq_some.mp hus
      rw [← Option.some_inj.mp hus]
      exact h

/-- **When `WaitEpoll` honours the deadline.** -/
theorem waitEpoll_honours_iff (hd : FiniteWait d) (hclock : Nondecreasing start rounds) :
    EpollHonours d start rounds ↔ millisUp d < 2 ^ 31 := by
  have hup := millisUp_bounds d
  have hnonneg := hd.1
  by_cases hlt : millisUp d < 2 ^ 31
  · refine iff_of_true ?_ hlt
    rw [EpollHonours, toCmsWait_of_lt hd hlt, Option.bind_some]
    obtain ⟨timeLeft, hleft, hwait⟩ := waitEpoll_of_lt (by omega) hlt hclock
    obtain ⟨o, ho, -, hcalls, hover⟩ := waitLoop_spec hleft start (millisUp d)
    rw [hwait, ho]
    refine ⟨o, rfl, fun c hc => ?_, fun k r hr hr' => ?_⟩
    · obtain rfl | ⟨r, hr, hnow, hnext⟩ := hcalls c hc
      · refine ⟨_, epollTimeout_of_nonneg (by omega), ?_⟩
        rw [add_sub_cancel_left, max_eq_right hnonneg]
        exact hup
      · obtain ⟨hpos, hcast⟩ := Option.ite_none_left_eq_some.mp hnext
        have hafter : timeMillis start ≤ timeMillis r.now :=
          Int.tdiv_le_tdiv (by decide) (hclock.start_le hr)
        have hint : InSigned 32 (timeMillis start + millisUp d - timeMillis r.now) := by
          constructor <;> omega
        rw [staticCastSigned, bmod_of_inSigned (by decide) hint, Option.some_inj] at hcast
        rw [hnow, epollClock, epollClock, ← hcast]
        refine ⟨_, epollTimeout_of_nonneg (by omega), ?_⟩
        constructor <;> omega
    · refine (hover k r hr).mpr ⟨r, ?_, ?_⟩
      · rw [← List.getElem?_take_of_lt (Nat.lt_succ_self k)] at hr
        exact List.mem_of_getElem? hr
      · have hlate : timeMillis start + millisUp d - timeMillis r.now ≤ 0 := by
          rw [epollClock, epollClock] at hr'
          omega
        rw [Round.again, epollNext, if_pos hlate]
        exact Bool.and_false _
  · refine iff_of_false ?_ hlt
    rw [EpollHonours]
    obtain hnone | ⟨c, hint, hc, hsome⟩ := toCmsWait_of_le hd (by omega)
    · rw [hnone]
      exact not_honours_none
    · rw [hsome]
      exact not_honours_waitEpoll hnonneg hint (by omega)

/-! ## Both -/

/-- **When the back ends honour the deadline.** `WaitEpoll` does for every duration whose
milliseconds are an `int`. `WaitSelect` does for those whose microseconds are one, as long as no
round that finishes too late goes on. -/
theorem wait_honours_iff (hd : FiniteWait d) (hclock : Nondecreasing start rounds) :
    (SelectHonours d start rounds ↔ millisUp d * 1000 < 2 ^ 31 ∧
        NoLateRound timeMicros (timeMicros start + d.us) rounds) ∧
      (EpollHonours d start rounds ↔ millisUp d < 2 ^ 31) :=
  ⟨waitSelect_honours_iff hd hclock, waitEpoll_honours_iff hd hclock⟩

/-- A second, of which the first half is over when descriptors are ready. -/
theorem wait_honours_iff_second :
    SelectHonours ⟨1000000⟩ 0 [⟨.ready (), true, 500000000⟩, ⟨.timeout, true, 1000000000⟩] ∧
      EpollHonours ⟨1000000⟩ 0 [⟨.ready (), true, 500000000⟩, ⟨.timeout, true, 1000000000⟩] := by
  have hclock : Nondecreasing 0
      [⟨.ready (), true, 500000000⟩, ⟨.timeout, true, 1000000000⟩] :=
    ⟨by decide, by decide, by decide⟩
  have hiff := wait_honours_iff (d := ⟨1000000⟩) ⟨by decide, by decide⟩ hclock
  refine ⟨hiff.1.mpr ⟨by decide, ?_⟩, hiff.2.mpr (by decide)⟩
  rintro (_ | _ | k) r hr hlate
  · cases hr
    exact absurd hlate (by decide)
  · cases hr
    exact ⟨_, List.mem_cons_of_mem _ List.mem_cons_self, rfl⟩
  · cases hr

/-- `WaitSelect` goes on after the millisecond is over, since there is a descriptor that is always
ready, and overflows on an hour. `WaitEpoll` waits for ever where it should for `2 ^ 31`
milliseconds. -/
theorem wait_past_deadline :
    ¬ SelectHonours ⟨1000⟩ 0 [⟨.ready (), true, 1000000⟩, ⟨.ready (), true, 2000000⟩] ∧
      ¬ SelectHonours ⟨3600000000⟩ 0 [] ∧ ¬ EpollHonours ⟨2 ^ 31 * 1000⟩ 0 [] := by
  refine ⟨fun h => ?_, fun h => ?_, fun h => ?_⟩
  · obtain ⟨-, hlate⟩ :=
      (waitSelect_honours_iff ⟨by decide, by decide⟩ ⟨by decide, by decide, by decide⟩).mp h
    obtain ⟨q, hq, hgoes⟩ := hlate 0 _ rfl (by decide)
    obtain rfl := List.mem_singleton.mp hq
    cases hgoes
  · have hlt := ((waitSelect_honours_iff ⟨by decide, by decide⟩
      ⟨by decide, by decide, by decide⟩).mp h).1
    exact absurd hlt (by decide)
  · have hlt := (waitEpoll_honours_iff ⟨by decide, by decide⟩
      ⟨by decide, by decide, by decide⟩).mp h
    exact absurd hlt (by decide)

end PhysicalSocketServer

end TQLib
