import TQLib.Logging.Model

/-!
# The list of sinks

`AddLogToStream` puts a sink in front of the list without looking whether it is there. If it is, its
own pointer now leads round to it, and the walk for the least severity, which follows at once and
under the lock, has no end. In all other cases the list is that of the sinks that are installed.

## Main results

* `run_inv`, `exists_run` — what is in the variables after some calls
* `fresh_of_run` — calls that return never add a sink again
* `staysFinite_iff` — when the list stays a list
-/

namespace TQLib

namespace Logging

variable {ι : Type*} [DecidableEq ι] {kDefaultLoggingSeverity : LoggingSeverity}
  {minSeverity : ι → LoggingSeverity} {calls : List (Call ι)} {s : State ι} {turns : ℕ}

open State

/-- The state after some calls. -/
def run (turns : ℕ) (kDefaultLoggingSeverity : LoggingSeverity) (minSeverity : ι → LoggingSeverity)
    (calls : List (Call ι)) : Option (State ι) :=
  Calls.run (step turns) (init kDefaultLoggingSeverity minSeverity) calls

theorem run_inv (hfresh : Fresh calls)
    (h : run turns kDefaultLoggingSeverity minSeverity calls = some s) :
    Inv (installed calls) s := by
  induction calls using List.reverseRecOn generalizing s with
  | nil =>
    cases h
    exact inv_init ..
  | append_singleton calls call ih =>
    rw [run, Calls.run_concat] at h
    obtain ⟨s', hs', h⟩ := Option.bind_eq_some_iff.mp h
    rw [installed_concat]
    refine step_inv (ih hfresh.of_append hs') (fun stream minSev hcall => ?_) h
    subst hcall
    exact hfresh.not_mem

/-- **Calls that never add a sink again** return, and more turns than calls are enough. -/
theorem exists_run (hfresh : Fresh calls) (hturns : calls.length < turns) :
    ∃ s, run turns kDefaultLoggingSeverity minSeverity calls = some s := by
  induction calls using List.reverseRecOn with
  | nil => exact ⟨_, rfl⟩
  | append_singleton calls call ih =>
    rw [List.length_append, List.length_singleton] at hturns
    obtain ⟨s, hs⟩ := ih hfresh.of_append (Nat.lt_of_succ_lt hturns)
    have hlen : (installed calls).length + 1 < turns :=
      (Nat.succ_le_succ (length_installed_le calls)).trans_lt hturns
    have hcall : ∀ stream minSev, call = .addLogToStream stream minSev →
        stream ∉ installed calls := by
      rintro stream minSev rfl
      exact hfresh.not_mem
    obtain ⟨s', hs'⟩ := exists_step (run_inv hfresh.of_append hs) hcall hlen
    refine ⟨s', ?_⟩
    rw [run, Calls.run_concat]
    exact Option.bind_eq_some_iff.mpr ⟨s, hs, hs'⟩

/-- **Calls that return** never add a sink again. -/
theorem fresh_of_run (h : run turns kDefaultLoggingSeverity minSeverity calls = some s) :
    Fresh calls := by
  induction calls using List.reverseRecOn generalizing s with
  | nil => exact .nil
  | append_singleton calls call ih =>
    rw [run, Calls.run_concat] at h
    obtain ⟨s', hs', h⟩ := Option.bind_eq_some_iff.mp h
    refine (ih hs').concat fun stream minSev hcall => ?_
    subst hcall
    exact not_mem_of_step (run_inv (ih hs') hs') h

/-! ## Sinks that are removed -/

/-- A sink has been removed and not been added since. -/
def Removed (calls : List (Call ι)) (stream : ι) : Prop :=
  ∃ before after, calls = before ++ .removeLogToStream stream :: after ∧
    ∀ minSev, .addLogToStream stream minSev ∉ after

theorem not_mem_installed {stream : ι}
    (hnodup : ∀ before, before <+: calls → (installed before).Nodup) (h : Removed calls stream) :
    stream ∉ installed calls := by
  obtain ⟨before, after, rfl, hadd⟩ := h
  induction after using List.reverseRecOn with
  | nil =>
    rw [installed_concat]
    exact fun hmem => (hnodup before (List.prefix_append ..)).not_mem_erase hmem
  | append_singleton after call ih =>
    rw [← List.cons_append, ← List.append_assoc] at hnodup ⊢
    have hrest : stream ∉ installed (before ++ .removeLogToStream stream :: after) :=
      ih (fun minSev hmem => hadd minSev (List.mem_append_left _ hmem))
        fun before' hb => hnodup before' (hb.trans (List.prefix_append ..))
    rw [installed_concat]
    cases call with
    | addLogToStream stream' minSev =>
      refine List.not_mem_cons_of_ne_of_not_mem ?_ hrest
      rintro rfl
      exact hadd minSev (List.mem_append_right _ List.mem_cons_self)
    | removeLogToStream stream' => exact fun hmem => hrest (List.mem_of_mem_erase hmem)
    | logToDebug minSev => exact hrest

/-! ## Messages -/

omit [DecidableEq ι] in
/-- The sinks that receive a message, in the order of the list. -/
theorem foldl_received (severity : LoggingSeverity) (minSeverity : ι → LoggingSeverity)
    (received sinks : List ι) :
    sinks.foldl
        (fun received entry =>
          if severity ≥ minSeverity entry then received ++ [entry] else received) received =
      received ++ sinks.filter fun entry => severity ≥ minSeverity entry := by
  induction sinks generalizing received with
  | nil => exact (List.append_nil _).symm
  | cons entry sinks ih =>
    rw [List.foldl_cons, ih, List.filter_cons]
    by_cases h : severity ≥ minSeverity entry
    · rw [if_pos h, if_pos (decide_eq_true h), List.append_assoc, List.singleton_append]
    · rw [if_neg h, if_neg (by rwa [decide_eq_true_iff])]

omit [DecidableEq ι] in
theorem logMessage_eq {sinks : List ι} (h : Linked s.streams.next s.streams.head sinks)
    {severity : LoggingSeverity} {wrote : Bool} {received : List ι}
    (hmessage : s.logMessage turns severity = some (wrote, received)) :
    received = sinks.filter fun entry => severity ≥ s.minSeverity entry := by
  obtain ⟨received', hreceived, heq⟩ := Option.map_eq_some_iff.mp hmessage
  cases heq
  rw [forEach_eq h hreceived, foldl_received, List.nil_append]

omit [DecidableEq ι] in
/-- **A message** is written to the debug output and received as the severities say. -/
theorem exists_logMessage {sinks : List ι} (h : Linked s.streams.next s.streams.head sinks)
    (hturns : sinks.length < turns) (severity : LoggingSeverity) :
    s.logMessage turns severity = some (decide (severity ≥ s.dbgSev),
      sinks.filter fun entry => severity ≥ s.minSeverity entry) := by
  rw [logMessage, exists_forEach h hturns, foldl_received, List.nil_append]
  rfl

/-! ## The list -/

/-- What the list is to be after some calls. -/
structure Sound (calls : List (Call ι)) (s : State ι) : Prop where
  /-- It ends, and no sink is there twice. -/
  linked : ∃ sinks, Linked s.streams.next s.streams.head sinks ∧ sinks.Nodup
  updateMinLogSeverity : ∃ turns s', s.updateMinLogSeverity turns = some s'
  getLogToStream : ∀ stream, ∃ turns sev, s.getLogToStream turns stream = some sev
  removeLogToStream : ∀ stream, ∃ turns s', s.removeLogToStream turns stream = some s'
  logMessage : ∀ severity, ∃ turns r, s.logMessage turns severity = some r
  /-- A sink that has been removed is not there. -/
  removed : ∀ stream, Removed calls stream →
    ∀ sinks, Linked s.streams.next s.streams.head sinks → stream ∉ sinks
  /-- And receives nothing. -/
  silent : ∀ stream, Removed calls stream →
    ∀ turns severity wrote received,
      s.logMessage turns severity = some (wrote, received) → stream ∉ received

theorem sound_of_inv (hinv : Inv (installed calls) s)
    (hnodup : ∀ before, before <+: calls → (installed before).Nodup) : Sound calls s := by
  have hturns : (installed calls).length < (installed calls).length + 1 + 1 :=
    (Nat.lt_succ_self _).trans (Nat.lt_succ_self _)
  have hremoved : ∀ stream, Removed calls stream →
      ∀ sinks, Linked s.streams.next s.streams.head sinks → stream ∉ sinks := by
    intro stream h sinks hsinks
    rw [hsinks.unique hinv.linked]
    exact not_mem_installed hnodup h
  refine ⟨⟨_, hinv.linked, hinv.linked.nodup⟩, ?_, fun stream => ?_, fun stream => ?_,
    fun severity => ?_, hremoved, ?_⟩
  · exact ⟨_, _, exists_updateMinLogSeverity hinv.linked hturns⟩
  · exact ⟨_, _, exists_forEach hinv.linked hturns _⟩
  · have hcall : ∃ s', s.step ((installed calls).length + 1 + 1) (.removeLogToStream stream) =
        some s' := exists_step hinv nofun (Nat.lt_succ_self _)
    exact ⟨_, hcall⟩
  · exact ⟨_, _, exists_logMessage hinv.linked hturns severity⟩
  · intro stream h turns severity wrote received hmessage hmem
    rw [logMessage_eq hinv.linked hmessage] at hmem
    exact hremoved stream h _ hinv.linked (List.mem_of_mem_filter hmem)

/-- After each of some calls the list is what it is to be. -/
def StaysFinite (kDefaultLoggingSeverity : LoggingSeverity) (minSeverity : ι → LoggingSeverity)
    (calls : List (Call ι)) : Prop :=
  ∀ before, before <+: calls →
    ∃ turns s, run turns kDefaultLoggingSeverity minSeverity before = some s ∧ Sound before s

/-- **The list of sinks** stays a list, which all loops get to the end of, and which a sink that is
removed is no longer in, exactly if a sink is added only while it is not installed. -/
theorem staysFinite_iff (kDefaultLoggingSeverity : LoggingSeverity)
    (minSeverity : ι → LoggingSeverity) (calls : List (Call ι)) :
    StaysFinite kDefaultLoggingSeverity minSeverity calls ↔ Fresh calls := by
  constructor
  · intro h
    obtain ⟨turns, s, hs, -⟩ := h calls List.prefix_rfl
    exact fresh_of_run hs
  · intro hfresh before hb
    have hfresh' : ∀ before', before' <+: before → Fresh before' := by
      intro before' hb'
      obtain ⟨rest, rfl⟩ := hb'.trans hb
      exact hfresh.of_append
    obtain ⟨s, hs⟩ := exists_run (hfresh' before List.prefix_rfl) (Nat.lt_succ_self _)
    refine ⟨_, s, hs, sound_of_inv (run_inv (hfresh' before List.prefix_rfl) hs) ?_⟩
    intro before' hb'
    obtain ⟨s', hs'⟩ : ∃ s', run (before'.length + 1) kDefaultLoggingSeverity minSeverity before' =
        some s' := exists_run (hfresh' before' hb') (Nat.lt_succ_self _)
    exact (run_inv (hfresh' before' hb') hs').linked.nodup

/-- A sink is added and then added with another severity. -/
theorem not_staysFinite_twice :
    ¬ StaysFinite .none (fun _ : Unit => .none)
      [.addLogToStream () .warning, .addLogToStream () .info] := by
  intro h
  obtain ⟨turns, s, hs, -⟩ := h _ List.prefix_rfl
  have hfresh := fresh_of_run hs
  have hnot : () ∉ installed [.addLogToStream () .warning] := Fresh.not_mem hfresh
  exact hnot List.mem_cons_self

end Logging

end TQLib
