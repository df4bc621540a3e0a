import TQLib.Logging.SinkList

/-!
# Messages that are skipped

`IsNoop` decides without the lock that a message goes nowhere. The emptiness flag alone is what it
may rely on: while a sink is installed nothing is skipped, whatever the least severity says.

## Main results

* `isNoop_iff` — when a message is skipped
* `skipped_lost_nothing` — what the variables say, and that nothing is lost
-/

namespace TQLib

namespace Logging

variable {ι : Type*} [DecidableEq ι] {s : State ι} {sinks : List ι}

open State

omit [DecidableEq ι] in
/-- **A message is skipped** exactly if no sink is installed and it is not for the debug output. -/
theorem isNoop_iff (hinv : Inv sinks s) (severity : LoggingSeverity) :
    s.isNoop severity = true ↔ sinks = [] ∧ severity < s.dbgSev := by
  rw [isNoop]
  by_cases hempty : sinks = []
  · have hmin : s.minSev = s.dbgSev := by
      rw [hinv.minSev, hempty]
      rfl
    rw [hmin, hinv.streamsEmpty.mpr hempty]
    by_cases h : severity ≥ s.dbgSev
    · rw [if_pos (.inl h)]
      exact iff_of_false Bool.false_ne_true fun hlt => hlt.2.not_ge h
    · rw [if_neg (or_self_iff.not.mpr h)]
      exact iff_of_true rfl ⟨hempty, lt_of_not_ge h⟩
  · have hstreams : s.streamsEmpty = false :=
      Bool.eq_false_iff.mpr fun h => hempty (hinv.streamsEmpty.mp h)
    rw [hstreams, ite_self]
    exact iff_of_false Bool.false_ne_true fun h => hempty h.1

/-- **Skipping a message loses nothing**: the least severity and the flag are those of the sinks
that are installed, and a message that is skipped would be written nowhere. -/
theorem skipped_lost_nothing (kDefaultLoggingSeverity : LoggingSeverity)
    (minSeverity : ι → LoggingSeverity) (calls : List (Call ι)) (hfresh : Fresh calls) :
    ∃ turns s, run turns kDefaultLoggingSeverity minSeverity calls = some s ∧
      s.minSev = ((installed calls).map s.minSeverity).foldl min s.dbgSev ∧
      (s.streamsEmpty = true ↔ installed calls = []) ∧
      ∀ severity, s.isNoop severity = true → s.logMessage turns severity = some (false, []) := by
  obtain ⟨s, hs⟩ : ∃ s, run (calls.length + 1) kDefaultLoggingSeverity minSeverity calls = some s :=
    exists_run hfresh (Nat.lt_succ_self _)
  have hinv := run_inv hfresh hs
  refine ⟨_, s, hs, hinv.minSev, hinv.streamsEmpty, fun severity h => ?_⟩
  obtain ⟨hempty, hlt⟩ := (isNoop_iff hinv severity).mp h
  have hlen : (installed calls).length < calls.length.succ :=
    Nat.lt_succ_of_le (length_installed_le calls)
  rw [exists_logMessage hinv.linked hlen, hempty, decide_eq_false hlt.not_ge]
  rfl

/-- A sink is added, and removed when the debug output has been set. -/
theorem skipped_lost_nothing_removed :
    ∃ turns s, run turns .info (fun _ => .none) [.addLogToStream true .warning,
        .logToDebug .error, .removeLogToStream true] = some s ∧
      s.minSev = s.dbgSev ∧ (s.streamsEmpty = true ↔ ([] : List Bool) = []) ∧
      ∀ severity, s.isNoop severity = true → s.logMessage turns severity = some (false, []) :=
  skipped_lost_nothing .info (fun _ : Bool => .none) _
    (((Fresh.nil.concat (by simp)).concat nofun).concat nofun)

end Logging

end TQLib
