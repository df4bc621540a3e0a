import TQLib.Foundations.Signed
import Mathlib.Data.List.Chain
import Mathlib.Tactic.NormNum

/-!
# `rtc::TimestampWrapAroundHandler`

Timestamps that are known by their low 32 bits. The handler keeps the last one it has accepted and
how often the count has wrapped. One that lies before the last wrap is told from its distance to the
last accepted one, and is not accepted, so the handler can go forwards from there; but it can not
follow the timestamps backwards.

## Main results

* `unwrap_of_behind`, `unwrap_of_far_behind`, `unwrap_of_ahead` — what one call does
* `run_iff` — when the timestamps are unwrapped right, after the first
* `trueTimes_iff` — and from the first on
-/

namespace TQLib

namespace TimestampWrapAround

/-- `rtc::TimestampWrapAroundHandler`. -/
structure Handler where
  /-- `last_ts_`. -/
  lastTs : ℤ
  /-- `num_wrap_`. -/
  numWrap : ℤ
  deriving DecidableEq

/-- `TimestampWrapAroundHandler::TimestampWrapAroundHandler`. -/
def Handler.init : Handler := ⟨0, -1⟩

/-- The end of `Unwrap`. -/
def Handler.accept (h : Handler) (ts : ℤ) : Option (ℤ × Handler) := do
  let wraps ← signed 64 (h.numWrap * 2 ^ 32)
  let sum ← signed 64 (ts + wraps)
  some (sum, { h with lastTs := ts })

/-- `Unwrap`. -/
def Handler.unwrap (h : Handler) (ts : ℤ) : Option (ℤ × Handler) :=
  if h.numWrap = -1 then some (ts, ⟨ts, 0⟩)
  else if ts < h.lastTs then
    if 0xf0000000 ≤ h.lastTs ∧ ts < 0x0fffffff then
      (signed 64 (h.numWrap + 1)).bind fun numWrap => { h with numWrap }.accept ts
    else h.accept ts
  else if 0xf0000000 < ts - h.lastTs then do
    let wraps ← signed 64 ((h.numWrap - 1) * 2 ^ 32)
    let sum ← signed 64 (ts + wraps)
    some (sum, h)
  else h.accept ts

/-- What a sequence of calls returns. -/
def run : Handler → List ℤ → Option (List ℤ)
  | _, [] => some []
  | h, ts :: tss => do
    let (x, h') ← h.unwrap ts
    (run h' tss).map (x :: ·)

/-- The low 32 bits of a timestamp. -/
def low (t : ℤ) : ℤ := t % 2 ^ 32

/-- What is left of a timestamp without its low 32 bits. -/
def base (t : ℤ) : ℤ := t / 2 ^ 32 * 2 ^ 32

/-- No timestamp that lies before the last wrap is `2 ^ 28` or more below the last one that does
not, which `last` is at first. -/
def Close : ℤ → List ℤ → Prop
  | _, [] => True
  | last, t :: ts =>
    if t / 2 ^ 32 < last / 2 ^ 32 then last < t + 2 ^ 28 ∧ Close last ts else Close t ts

/-- The steps are shorter than `2 ^ 28`. -/
def SmallSteps (ts : List ℤ) : Prop := ts.IsChain fun t t' => |t' - t| < 2 ^ 28

/-! ## One call -/

variable {h : Handler} {t₀ t last prev : ℤ} {ts : List ℤ}

/-- The handler has accepted `last`, and counts the wraps from `t₀` on. -/
structure Handler.Has (h : Handler) (t₀ last : ℤ) : Prop where
  lastTs : h.lastTs = low last
  numWrap : h.numWrap = last / 2 ^ 32 - t₀ / 2 ^ 32
  le : t₀ / 2 ^ 32 ≤ last / 2 ^ 32

/-- The timestamp before is the last that has been accepted, or a little below it. -/
def Recent (last prev : ℤ) : Prop :=
  prev = last ∨ prev / 2 ^ 32 < last / 2 ^ 32 ∧ last < prev + 2 ^ 28

theorem inSigned_iff {x : ℤ} :
    InSigned 64 x ↔ -9223372036854775808 ≤ x ∧ x < 9223372036854775808 := by
  rw [InSigned]
  norm_num

/-- Where the sum is a value of the type, so is the part of it that counts the wraps. -/
theorem signed_wraps_bind {α : Type} {wraps x : ℤ} (hsum : low t + wraps * 2 ^ 32 = x)
    (k : ℤ → Option α) :
    ((signed 64 (wraps * 2 ^ 32)).bind fun w => (signed 64 (low t + w)).bind k) =
      (signed 64 x).bind k := by
  by_cases hwraps : InSigned 64 (wraps * 2 ^ 32)
  · rw [signed_of hwraps, Option.bind_some, hsum]
  · have hfits : ¬ InSigned 64 x := fun hfits => by
      rw [inSigned_iff] at hfits hwraps
      rw [low] at hsum
      omega
    rw [signed_of_not hwraps, signed_of_not hfits]
    rfl

/-- A timestamp that is accepted is returned with the wraps of its block. -/
theorem accept_eq (hwrap : h.numWrap = t / 2 ^ 32 - t₀ / 2 ^ 32) :
    h.accept (low t) =
      (signed 64 (t - base t₀)).bind fun x => some (x, { h with lastTs := low t }) := by
  have hsum : low t + h.numWrap * 2 ^ 32 = t - base t₀ := by
    rw [low, base, hwrap]
    omega
  exact signed_wraps_bind hsum _

/-- The first timestamp is returned as it is. -/
theorem unwrap_init (t : ℤ) :
    Handler.init.unwrap (low t) = some (t - base t, ⟨low t, 0⟩) := by
  have hlow : low t = t - base t := by
    rw [low, base]
    omega
  simp [Handler.unwrap, Handler.init, hlow]

/-- On the other side of the last wrap the low bits of a timestamp are above those of the last. -/
theorem low_sub_low (hblock : t / 2 ^ 32 < last / 2 ^ 32) (hnear : last < t + 2 ^ 29) :
    low t - low last = t - last + 2 ^ 32 := by
  rw [low, low]
  omega

/-- A timestamp that lies a little below the last that was accepted, and on the other side of the
last wrap, is counted back, and the handler stays as it is. -/
theorem unwrap_of_behind (hh : h.Has t₀ last) (hblock : t / 2 ^ 32 < last / 2 ^ 32)
    (hclose : last < t + 2 ^ 28) :
    h.unwrap (low t) = (signed 64 (t - base t₀)).bind fun x => some (x, h) := by
  obtain ⟨hlast, hwrap, hle⟩ := hh
  have hdiff := low_sub_low hblock (by omega)
  have hsum : low t + (h.numWrap - 1) * 2 ^ 32 = t - base t₀ := by
    rw [low, base, hwrap]
    omega
  have hne : h.numWrap ≠ -1 := by omega
  have hge : ¬ low t < h.lastTs := by omega
  have hfar : 0xf0000000 < low t - h.lastTs := by omega
  rw [Handler.unwrap, if_neg hne, if_neg hge, if_pos hfar]
  exact signed_wraps_bind hsum _

/-- One that lies further below is taken for one of the block of the last. -/
theorem unwrap_of_far_behind (hh : h.Has t₀ last) (hrecent : Recent last prev)
    (hstep : |t - prev| < 2 ^ 28) (hblock : t / 2 ^ 32 < last / 2 ^ 32)
    (hfar : t + 2 ^ 28 ≤ last) :
    h.unwrap (low t) = (signed 64 (t - base t₀ + 2 ^ 32)).bind fun x =>
      some (x, { h with lastTs := low t }) := by
  obtain ⟨hlast, hwrap, hle⟩ := hh
  rw [abs_lt] at hstep
  have hnear : last < t + 2 ^ 29 := by
    rcases hrecent with rfl | hbehind <;> omega
  have hdiff := low_sub_low hblock hnear
  have hsum : low t + h.numWrap * 2 ^ 32 = t - base t₀ + 2 ^ 32 := by
    rw [low, base, hwrap]
    omega
  have hne : h.numWrap ≠ -1 := by omega
  have hge : ¬ low t < h.lastTs := by omega
  have hnotFar : ¬ 0xf0000000 < low t - h.lastTs := by omega
  rw [Handler.unwrap, if_neg hne, if_neg hge, if_neg hnotFar]
  exact signed_wraps_bind hsum _

/-- Any other is accepted, with one more wrap if it is the first of its block. -/
theorem unwrap_of_ahead (hh : h.Has t₀ last) (hrecent : Recent last prev)
    (hstep : |t - prev| < 2 ^ 28) (hblock : last / 2 ^ 32 ≤ t / 2 ^ 32) :
    ∃ h' : Handler, h'.Has t₀ t ∧
      h.unwrap (low t) = (signed 64 (t - base t₀)).bind fun x => some (x, h') := by
  obtain ⟨hlast, hwrap, hle⟩ := hh
  rw [abs_lt] at hstep
  have hne : h.numWrap ≠ -1 := by omega
  refine ⟨⟨low t, t / 2 ^ 32 - t₀ / 2 ^ 32⟩, ⟨rfl, rfl, by omega⟩, ?_⟩
  rw [Handler.unwrap, if_neg hne]
  rcases hblock.lt_or_eq with hnext | hsame
  · -- the timestamp before is the last, and this one is just behind the wrap
    have hprev : prev = last := by
      rcases hrecent with hprev | hbehind
      · exact hprev
      · omega
    have hlt : low t < h.lastTs := by
      rw [hlast, low, low]
      omega
    have hwrapped : 0xf0000000 ≤ h.lastTs ∧ low t < 0x0fffffff := by
      rw [hlast, low, low]
      omega
    have hcount : h.numWrap + 1 = t / 2 ^ 32 - t₀ / 2 ^ 32 := by omega
    rw [if_pos hlt, if_pos hwrapped, hcount]
    by_cases hfits : InSigned 64 (t / 2 ^ 32 - t₀ / 2 ^ 32)
    · rw [signed_of hfits, Option.bind_some, accept_eq rfl]
    · have hnot : ¬ InSigned 64 (t - base t₀) := fun hin => by
        rw [inSigned_iff] at hin hfits
        rw [base] at hin
        omega
      rw [signed_of_not hfits, signed_of_not hnot]
      rfl
  · have hcount : h.numWrap = t / 2 ^ 32 - t₀ / 2 ^ 32 := by omega
    have haccept := accept_eq hcount
    rw [hcount] at haccept
    by_cases hlt : low t < h.lastTs
    · have hinside : ¬ (0xf0000000 ≤ h.lastTs ∧ low t < 0x0fffffff) := by
        rw [hlast, low, low]
        rcases hrecent with rfl | hbehind <;> omega
      rw [if_pos hlt, if_neg hinside, haccept]
    · have hinside : ¬ 0xf0000000 < low t - h.lastTs := by
        rw [hlast, low, low]
        rcases hrecent with rfl | hbehind <;> omega
      rw [if_neg hlt, if_neg hinside, haccept]

/-! ## A sequence of calls -/

/-- What the first call returns is fixed, so the rest is right exactly if each of it is. -/
theorem run_cons_eq_some_iff {x : ℤ} {h' : Handler} {ts : List ℤ}
    (hunwrap : h.unwrap (low t) = (signed 64 x).bind fun y => some (y, h')) :
    run h ((t :: ts).map low) = some ((t :: ts).map (· - base t₀)) ↔
      x = t - base t₀ ∧ InSigned 64 x ∧ run h' (ts.map low) = some (ts.map (· - base t₀)) := by
  simp only [List.map_cons, run, hunwrap, Option.bind_eq_bind]
  by_cases hfits : InSigned 64 x
  · simp [signed_of hfits, hfits, and_comm]
  · simp [signed_of_not hfits, hfits]

/-- Behind the first timestamp they come out right exactly if none is too far below the last that
was accepted, and each is a value of the type. -/
theorem run_iff (hh : h.Has t₀ last) (hrecent : Recent last prev)
    (hsmall : SmallSteps (prev :: ts)) :
    run h (ts.map low) = some (ts.map (· - base t₀)) ↔
      Close last ts ∧ ∀ t ∈ ts, InSigned 64 (t - base t₀) := by
  induction ts generalizing h last prev with
  | nil => simp [run, Close]
  | cons t ts ih =>
    rw [SmallSteps, List.isChain_cons_cons] at hsmall
    obtain ⟨hstep, hsmall⟩ := hsmall
    rw [List.forall_mem_cons]
    by_cases hblock : t / 2 ^ 32 < last / 2 ^ 32
    · rw [Close, if_pos hblock]
      by_cases hclose : last < t + 2 ^ 28
      · rw [run_cons_eq_some_iff (unwrap_of_behind hh hblock hclose),
          ih hh (.inr ⟨hblock, hclose⟩) hsmall]
        tauto
      · have hfar := unwrap_of_far_behind hh hrecent hstep hblock (not_lt.1 hclose)
        rw [run_cons_eq_some_iff hfar]
        constructor
        · rintro ⟨hwrong, -⟩
          omega
        · rintro ⟨⟨hlt, -⟩, -⟩
          exact absurd hlt hclose
    · obtain ⟨h', hh', hunwrap⟩ := unwrap_of_ahead hh hrecent hstep (not_lt.1 hblock)
      rw [Close, if_neg hblock, run_cons_eq_some_iff hunwrap, ih hh' (.inl rfl) hsmall]
      tauto

/-- Timestamps with small steps between them are unwrapped up to the block of the first, exactly if
none lies on the other side of a wrap and too far below the last that was accepted. -/
theorem trueTimes_iff (t : ℤ) (ts : List ℤ) (hsmall : SmallSteps (t :: ts)) :
    run .init ((t :: ts).map low) = some ((t :: ts).map (· - base t)) ↔
      Close t ts ∧ ∀ t' ∈ ts, InSigned 64 (t' - base t) := by
  have hhas : (⟨low t, 0⟩ : Handler).Has t t := ⟨rfl, (sub_self _).symm, le_rfl⟩
  have hfits : InSigned 64 (t - base t) := by
    rw [inSigned_iff, base]
    omega
  have hunwrap : Handler.init.unwrap (low t) =
      (signed 64 (t - base t)).bind fun x => some (x, ⟨low t, 0⟩) := by
    rw [unwrap_init, signed_of hfits]
    rfl
  rw [run_cons_eq_some_iff hunwrap, run_iff hhas (.inl rfl) hsmall]
  tauto

/-- One timestamp a little below the wrap before it, and one more below that. -/
theorem trueTimes_iff_back : run .init ([4294967306, 4026531851].map low) =
    some ([4294967306, 4026531851].map (· - base 4294967306)) := by
  refine (trueTimes_iff 4294967306 [4026531851] ?_).2 ⟨?_, ?_⟩
  · simp [SmallSteps]
  · simp [Close]
  · simp [InSigned, base]

/-- With steps backwards across a wrap the result is one block off once they add up. -/
theorem not_unwrap_of_smallSteps : ¬ ∀ (t : ℤ) (ts : List ℤ),
    (∀ t' ∈ t :: ts, InSigned 64 t') → SmallSteps (t :: ts) →
      run .init ((t :: ts).map low) = some ((t :: ts).map (· - base t)) := by
  intro hright
  have := hright 4294967306 [4026531851, 3758096396] (by simp [InSigned]) (by simp [SmallSteps])
  revert this
  decide

end TimestampWrapAround

end TQLib
