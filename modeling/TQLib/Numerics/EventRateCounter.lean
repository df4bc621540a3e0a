import TQLib.Foundations.Signed
import TQLib.Units.Time
import Mathlib.Data.List.Basic

/-!
# `EventRateCounter`

The counter of `rtc_base/numerics/event_rate_counter.cc`, without the statistics of the intervals.
The first and the last time begin at the two infinities, the wrong way round, so that the smaller
and the larger of times are right at once.

A counter is taken for empty if the first and the last time are the same. They are not if there was
no event, and they are if all events were at one time. The number of events is an `int64_t` inside
and an `int` outside. A history is a tree: a counter can be added to another at any time.

## Main results

* `EventRateCounter.counter_agrees`, `EventRateCounter.exists_counter` — what a counter knows
* `EventRateCounter.says_iff` — where it says so
-/

namespace TQLib

/-- The state. -/
structure EventRateCounter where
  /-- `first_time_`. -/
  firstTime : Timestamp
  /-- `last_time_`. -/
  lastTime : Timestamp
  /-- `event_count_`. -/
  eventCount : ℤ

namespace EventRateCounter

/-- A counter to begin with. -/
def new : EventRateCounter := ⟨Timestamp.plusInfinity, Timestamp.minusInfinity, 0⟩

/-- `AddEvent`. -/
def addEvent (c : EventRateCounter) (eventTime : Timestamp) : Option EventRateCounter := do
  let eventCount ← signed 64 (c.eventCount + 1)
  return ⟨c.firstTime.min eventTime, c.lastTime.max eventTime, eventCount⟩

/-- `AddEvents`. -/
def addEvents (c other : EventRateCounter) : Option EventRateCounter := do
  let eventCount ← signed 64 (c.eventCount + other.eventCount)
  return ⟨c.firstTime.min other.firstTime, c.lastTime.max other.lastTime, eventCount⟩

/-- `IsEmpty`. -/
def isEmpty (c : EventRateCounter) : Bool := c.firstTime = c.lastTime

/-- `TotalDuration`. -/
def totalDuration (c : EventRateCounter) : TimeDelta :=
  if c.firstTime.isInfinite then TimeDelta.zero else c.lastTime.sub c.firstTime

/-- `Count`. -/
def count (c : EventRateCounter) : ℤ := staticCastSigned 32 c.eventCount

/-! ## Histories -/

/-- How a counter came about. -/
inductive History
  | new
  | addEvent (h : History) (eventTime : { t : Timestamp // t.IsValue })
  | addEvents (h other : History)

/-- The counter. -/
def History.counter : History → Option EventRateCounter
  | new => some .new
  | addEvent h t => h.counter.bind fun c => c.addEvent t
  | addEvents h other => h.counter.bind fun c => other.counter.bind fun d => c.addEvents d

/-- The times of all events. -/
def History.times : History → List Timestamp
  | new => []
  | addEvent h t => h.times ++ [t.1]
  | addEvents h other => h.times ++ other.times

/-- What a counter knows of the events. -/
structure Agrees (c : EventRateCounter) (times : List Timestamp) : Prop where
  eventCount_eq : c.eventCount = times.length
  first_le : ∀ t ∈ times, c.firstTime.us ≤ t.us
  le_last : ∀ t ∈ times, t.us ≤ c.lastTime.us
  first_mem : times ≠ [] → c.firstTime ∈ times
  last_mem : times ≠ [] → c.lastTime ∈ times
  first_of_nil : times = [] → c.firstTime = Timestamp.plusInfinity
  last_of_nil : times = [] → c.lastTime = Timestamp.minusInfinity

variable {c d e : EventRateCounter} {xs ys : List Timestamp} {t : Timestamp}

/-! ## What a counter knows -/

theorem agrees_new : Agrees new [] := by
  constructor <;> simp [new]

theorem agrees_singleton (t : Timestamp) : Agrees ⟨t, t, 1⟩ [t] := by
  constructor <;> simp

/-- The first time is not above infinity, and the last is not below it. -/
theorem Agrees.bounds (h : Agrees c xs) (hv : ∀ t ∈ xs, t.IsValue) :
    c.firstTime.us ≤ Timestamp.plusInfinity.us ∧ Timestamp.minusInfinity.us ≤ c.lastTime.us := by
  by_cases hxs : xs = []
  · rw [h.first_of_nil hxs, h.last_of_nil hxs]
    exact ⟨le_rfl, le_rfl⟩
  · exact ⟨(hv _ (h.first_mem hxs)).bounds.2, (hv _ (h.last_mem hxs)).bounds.1⟩

/-- Of no event a counter knows nothing that counts. -/
theorem Agrees.firstTime_min (h : Agrees c []) (ht : t.us ≤ Timestamp.plusInfinity.us) :
    c.firstTime.min t = t := by
  refine Timestamp.eq_of_us_eq ?_
  rw [Timestamp.us_min, h.first_of_nil rfl, min_eq_right ht]

theorem Agrees.lastTime_max (h : Agrees c []) (ht : Timestamp.minusInfinity.us ≤ t.us) :
    c.lastTime.max t = t := by
  refine Timestamp.eq_of_us_eq ?_
  rw [Timestamp.us_max, h.last_of_nil rfl, max_eq_right ht]

/-- What is one of two times is a time of one of two counters. -/
theorem mem_append_of_eq_or {s r : Timestamp} (h : t = s ∨ t = r) (hs : s ∈ xs) (hr : r ∈ ys) :
    t ∈ xs ++ ys := by
  rcases h with rfl | rfl
  · exact List.mem_append_left _ hs
  · exact List.mem_append_right _ hr

/-- **Two counters make one.** -/
theorem Agrees.append (hc : Agrees c xs) (hd : Agrees d ys) (hxs : ∀ t ∈ xs, t.IsValue)
    (hys : ∀ t ∈ ys, t.IsValue) :
    Agrees ⟨c.firstTime.min d.firstTime, c.lastTime.max d.lastTime, c.eventCount + d.eventCount⟩
      (xs ++ ys) where
  eventCount_eq := by
    rw [hc.eventCount_eq, hd.eventCount_eq, List.length_append]
    push_cast
    rfl
  first_le t ht := by
    rw [Timestamp.us_min]
    rcases List.mem_append.mp ht with h | h
    · exact min_le_of_left_le (hc.first_le t h)
    · exact min_le_of_right_le (hd.first_le t h)
  le_last t ht := by
    rw [Timestamp.us_max]
    rcases List.mem_append.mp ht with h | h
    · exact le_max_of_le_left (hc.le_last t h)
    · exact le_max_of_le_right (hd.le_last t h)
  first_mem hne := by
    by_cases hx : xs = []
    · subst hx
      rw [hc.firstTime_min (hd.bounds hys).1]
      exact hd.first_mem hne
    · by_cases hy : ys = []
      · subst hy
        rw [Timestamp.min_comm, hd.firstTime_min (hc.bounds hxs).1, List.append_nil]
        exact hc.first_mem hx
      · exact mem_append_of_eq_or (Timestamp.min_eq_or _ _) (hc.first_mem hx) (hd.first_mem hy)
  last_mem hne := by
    by_cases hx : xs = []
    · subst hx
      rw [hc.lastTime_max (hd.bounds hys).2]
      exact hd.last_mem hne
    · by_cases hy : ys = []
      · subst hy
        rw [Timestamp.max_comm, hd.lastTime_max (hc.bounds hxs).2, List.append_nil]
        exact hc.last_mem hx
      · exact mem_append_of_eq_or (Timestamp.max_eq_or _ _) (hc.last_mem hx) (hd.last_mem hy)
  first_of_nil hnil := by
    obtain ⟨rfl, rfl⟩ := List.append_eq_nil_iff.mp hnil
    rw [hc.firstTime_min (hd.bounds hys).1]
    exact hd.first_of_nil rfl
  last_of_nil hnil := by
    obtain ⟨rfl, rfl⟩ := List.append_eq_nil_iff.mp hnil
    rw [hc.lastTime_max (hd.bounds hys).2]
    exact hd.last_of_nil rfl

/-- All times are what a point in time can be. -/
theorem History.isValue (h : History) : ∀ t ∈ h.times, t.IsValue := by
  induction h with
  | new => simp [times]
  | addEvent h t ih =>
    intro s hs
    rcases List.mem_append.mp hs with hs | hs
    · exact ih s hs
    · rw [List.mem_singleton.mp hs]
      exact t.2
  | addEvents h other ih iho =>
    intro s hs
    rcases List.mem_append.mp hs with hs | hs
    · exact ih s hs
    · exact iho s hs

/-- An event is a counter of one event. -/
theorem addEvent_eq (c : EventRateCounter) (t : Timestamp) :
    c.addEvent t = c.addEvents ⟨t, t, 1⟩ := rfl

theorem addEvents_eq_some (h : c.addEvents d = some e) :
    e = ⟨c.firstTime.min d.firstTime, c.lastTime.max d.lastTime, c.eventCount + d.eventCount⟩ := by
  obtain ⟨n, hn, he⟩ := Option.bind_eq_some_iff.mp h
  obtain ⟨-, hn⟩ := Option.ite_none_right_eq_some.mp hn
  rw [← Option.some.inj he, ← Option.some.inj hn]

theorem exists_addEvents (h : InSigned 64 (c.eventCount + d.eventCount)) :
    ∃ e, c.addEvents d = some e :=
  ⟨_, by rw [addEvents, signed_of h]; rfl⟩

/-- **What a counter knows**, in every history. -/
theorem counter_agrees (h : History) : ∀ c, h.counter = some c → Agrees c h.times := by
  induction h with
  | new =>
    intro c hc
    rw [← Option.some.inj hc]
    exact agrees_new
  | addEvent h t ih =>
    intro e he
    obtain ⟨c, hc, hadd⟩ := Option.bind_eq_some_iff.mp he
    rw [addEvent_eq] at hadd
    rw [addEvents_eq_some hadd]
    exact (ih c hc).append (agrees_singleton t.1) h.isValue (by simpa using t.2)
  | addEvents h other ih iho =>
    intro e he
    obtain ⟨c, hc, hadd⟩ := Option.bind_eq_some_iff.mp he
    obtain ⟨d, hd, hadd⟩ := Option.bind_eq_some_iff.mp hadd
    rw [addEvents_eq_some hadd]
    exact (ih c hc).append (iho d hd) h.isValue other.isValue

/-- There is one while the number of events fits inside. -/
theorem exists_counter (h : History) (hlen : h.times.length < 2 ^ 63) :
    ∃ c, h.counter = some c := by
  induction h with
  | new => exact ⟨_, rfl⟩
  | addEvent h t ih =>
    rw [History.times, List.length_append, List.length_singleton] at hlen
    obtain ⟨c, hc⟩ := ih (by omega)
    have hcount := (counter_agrees h c hc).eventCount_eq
    rw [History.counter, hc, Option.bind_some, addEvent_eq]
    exact exists_addEvents (by constructor <;> dsimp only <;> omega)
  | addEvents h other ih iho =>
    rw [History.times, List.length_append] at hlen
    obtain ⟨c, hc⟩ := ih (by omega)
    obtain ⟨d, hd⟩ := iho (by omega)
    have hcount := (counter_agrees h c hc).eventCount_eq
    have hcount' := (counter_agrees other d hd).eventCount_eq
    rw [History.counter, hc, hd, Option.bind_some, Option.bind_some]
    exact exists_addEvents (by constructor <;> omega)

/-! ## Where it says so -/

/-- What a counter should say of its events. -/
structure Says (c : EventRateCounter) (times : List Timestamp) : Prop where
  count : c.count = times.length
  isEmpty : c.isEmpty = true ↔ times.length = 0
  duration_of_nil : times = [] → c.totalDuration = TimeDelta.zero
  duration : ∀ first ∈ times, ∀ last ∈ times, (∀ t ∈ times, first.us ≤ t.us ∧ t.us ≤ last.us) →
    c.totalDuration = last.sub first

/-- The number of events fits into an `int`. -/
theorem Agrees.count_iff (h : Agrees c xs) : c.count = xs.length ↔ xs.length < 2 ^ 31 := by
  rw [count, staticCastSigned, h.eventCount_eq]
  constructor
  · intro heq
    by_contra hlen
    have hle := bmod_of_le (w := 32) (x := xs.length) (by decide) (by omega)
    omega
  · intro hlen
    exact bmod_of_inSigned (by decide) (by constructor <;> omega)

/-- The first and the last time are the same if all are, but not if there is none. -/
theorem Agrees.isEmpty_iff (h : Agrees c xs) :
    c.isEmpty = true ↔ xs ≠ [] ∧ ∀ s ∈ xs, ∀ t ∈ xs, s = t := by
  rw [isEmpty, decide_eq_true_eq]
  constructor
  · intro heq
    have hne : xs ≠ [] := fun hnil => by
      rw [h.first_of_nil hnil, h.last_of_nil hnil] at heq
      exact absurd heq (by decide)
    refine ⟨hne, fun s hs t ht => Timestamp.eq_of_us_eq ?_⟩
    have hs1 := h.first_le s hs
    have hs2 := h.le_last s hs
    have ht1 := h.first_le t ht
    have ht2 := h.le_last t ht
    rw [heq] at hs1 ht1
    omega
  · rintro ⟨hne, hall⟩
    exact hall _ (h.first_mem hne) _ (h.last_mem hne)

/-- The first time is the earliest, and the last the latest. -/
theorem Agrees.extremes (h : Agrees c xs) {first last : Timestamp} (hfirst : first ∈ xs)
    (hlast : last ∈ xs) (hall : ∀ t ∈ xs, first.us ≤ t.us ∧ t.us ≤ last.us) :
    c.firstTime = first ∧ c.lastTime = last := by
  have hne : xs ≠ [] := List.ne_nil_of_mem hfirst
  exact ⟨Timestamp.eq_of_us_eq
      (le_antisymm (h.first_le first hfirst) (hall _ (h.first_mem hne)).1),
    Timestamp.eq_of_us_eq (le_antisymm (hall _ (h.last_mem hne)).2 (h.le_last last hlast))⟩

/-- Of events at different times the first is finite, unless it is at minus infinity. -/
theorem Agrees.firstTime_finite (h : Agrees c xs) (hv : ∀ t ∈ xs, t.IsValue) {s : Timestamp}
    (hs : s ∈ xs) (ht : t ∈ xs) (hne : s ≠ t) (hminus : Timestamp.minusInfinity ∉ xs) :
    c.firstTime.isInfinite = false := by
  have hmem := h.first_mem (List.ne_nil_of_mem hs)
  have hfinite : c.firstTime.InRange := by
    obtain hrange | hplus | hm := hv _ hmem
    · exact hrange
    · -- Nothing is later, so that there would be one time only.
      have heq (r : Timestamp) (hr : r ∈ xs) : r = Timestamp.plusInfinity := by
        have hle := h.first_le r hr
        rw [hplus] at hle
        exact Timestamp.eq_of_us_eq (le_antisymm (hv r hr).bounds.2 hle)
      exact absurd ((heq s hs).trans (heq t ht).symm) hne
    · exact absurd (hm ▸ hmem) hminus
  rw [Timestamp.isInfinite, hfinite.finite.1, hfinite.finite.2, Bool.or_false]

/-- An event at minus infinity takes the duration for that of an empty counter. -/
theorem Agrees.minusInfinity_not_mem (h : Agrees c xs) (hv : ∀ t ∈ xs, t.IsValue)
    (hright : Says c xs) : Timestamp.minusInfinity ∉ xs := by
  intro hminus
  have hne : xs ≠ [] := List.ne_nil_of_mem hminus
  have hfirst : c.firstTime = Timestamp.minusInfinity := by
    refine Timestamp.eq_of_us_eq (le_antisymm (h.first_le _ hminus) ?_)
    exact (hv _ (h.first_mem hne)).bounds.1
  have hduration := hright.duration c.firstTime (h.first_mem hne) c.lastTime (h.last_mem hne)
    fun t ht => ⟨h.first_le t ht, h.le_last t ht⟩
  rw [totalDuration, hfirst, Timestamp.sub] at hduration
  simp [Timestamp.isInfinite, Timestamp.isMinusInfinity, Timestamp.minusInfinity,
    TimeDelta.zero, TimeDelta.plusInfinity, TimeDelta.plusInfinityVal] at hduration

/-- A counter that is right about being empty has events at different times. -/
theorem Agrees.exists_ne (h : Agrees c xs) (hright : Says c xs) : ∃ s ∈ xs, ∃ t ∈ xs, s ≠ t := by
  by_contra hall
  push Not at hall
  by_cases hnil : xs = []
  · have hempty := hright.isEmpty.mpr (List.length_eq_zero_iff.mpr hnil)
    exact (h.isEmpty_iff.mp hempty).1 hnil
  · have hempty := hright.isEmpty.mp (h.isEmpty_iff.mpr ⟨hnil, hall⟩)
    exact hnil (List.length_eq_zero_iff.mp hempty)

/-- **Where a counter agrees with its events**: there are events at different times, none at minus
infinity, and not more than an `int` can count. -/
theorem says_iff (h : History) : (∃ c, h.counter = some c ∧ Says c h.times) ↔
    (∃ s ∈ h.times, ∃ t ∈ h.times, s ≠ t) ∧ Timestamp.minusInfinity ∉ h.times ∧
      h.times.length < 2 ^ 31 := by
  constructor
  · rintro ⟨c, hc, hright⟩
    have hagrees := counter_agrees h c hc
    exact ⟨hagrees.exists_ne hright, hagrees.minusInfinity_not_mem h.isValue hright,
      hagrees.count_iff.mp hright.count⟩
  · rintro ⟨⟨s, hs, t, ht, hne⟩, hminus, hlen⟩
    obtain ⟨c, hc⟩ := exists_counter h (by omega)
    have hagrees := counter_agrees h c hc
    refine ⟨c, hc, hagrees.count_iff.mpr hlen, ?_, fun hnil => ?_, fun first hf last hl hall => ?_⟩
    · refine iff_of_false (fun hempty => ?_) (List.length_pos_of_mem hs).ne'
      exact hne ((hagrees.isEmpty_iff.mp hempty).2 s hs t ht)
    · rw [hnil] at hs
      cases hs
    · obtain ⟨rfl, rfl⟩ := hagrees.extremes hf hl hall
      rw [totalDuration, hagrees.firstTime_finite h.isValue hs ht hne hminus]
      rfl

/-- A new counter is not taken for empty, and one with an event is. -/
theorem not_says_new : (¬ ∃ c, History.new.counter = some c ∧ Says c History.new.times) ∧
    ¬ ∃ c, (History.new.addEvent ⟨⟨5⟩, .inl ⟨by decide, by decide⟩⟩).counter = some c ∧
      Says c (History.new.addEvent ⟨⟨5⟩, .inl ⟨by decide, by decide⟩⟩).times := by
  constructor
  · rintro ⟨c, hc, hright⟩
    have hempty := hright.isEmpty.mpr rfl
    rw [← Option.some.inj hc] at hempty
    exact absurd hempty (by decide)
  · rintro ⟨c, hc, hright⟩
    have hempty : c.isEmpty = true := by
      rw [← Option.some.inj hc]
      decide
    exact absurd (hright.isEmpty.mp hempty) (by decide)

end EventRateCounter

end TQLib
