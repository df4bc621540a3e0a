import TQLib.Foundations.Calls
import TQLib.Foundations.LinkedNodes
import Mathlib.Order.Lattice

/-!
# Where log messages go

The sinks of `rtc_base/logging.cc`, and how severe a message has to be. The sinks (`ι`) are nodes of
a list that is linked through themselves. Under the lock the list is changed, walked for the least
severity of the sinks, and walked for each message. The fast path, `IsNoop`, does not take the lock:
it looks at what the last change has left of the severities, and at a flag.

Loops over the list have a number of turns. What a call makes of the state is `none` if that is not
enough.

How a message is composed, and how it is printed for the debug output, is left out.

## Main results

* `State.step_inv`, `State.exists_step` — what a call does to the list and to what depends on it
* `State.not_mem_of_step` — no call adds a sink again and returns
-/

namespace TQLib

namespace Logging

/-- `LoggingSeverity`. -/
inductive LoggingSeverity
  /-- `LS_VERBOSE`. -/
  | verbose
  /-- `LS_INFO`. -/
  | info
  /-- `LS_WARNING`. -/
  | warning
  /-- `LS_ERROR`. -/
  | error
  /-- `LS_NONE`. -/
  | none
  deriving DecidableEq

namespace LoggingSeverity

/-- The value of the enumerator. -/
def toNat : LoggingSeverity → ℕ
  | verbose => 0
  | info => 1
  | warning => 2
  | error => 3
  | none => 4

theorem toNat_injective : Function.Injective toNat := by
  intro s t h
  cases s <;> cases t <;> first | rfl | cases h

/-- Enumerators are compared by their values. -/
instance : LinearOrder LoggingSeverity := LinearOrder.lift' toNat toNat_injective

end LoggingSeverity

/-- The variables of the log subsystem, and the members of its sinks. -/
structure State (ι : Type*) where
  /-- `streams_`, and `next_` of each sink. -/
  streams : Nodes ι
  /-- `min_severity_` of each sink. -/
  minSeverity : ι → LoggingSeverity
  /-- `streams_empty_`. -/
  streamsEmpty : Bool
  /-- `g_min_sev`. -/
  minSev : LoggingSeverity
  /-- `g_dbg_sev`. -/
  dbgSev : LoggingSeverity

/-- What configures it. -/
inductive Call (ι : Type*)
  /-- `AddLogToStream`. -/
  | addLogToStream (stream : ι) (minSev : LoggingSeverity)
  /-- `RemoveLogToStream`. -/
  | removeLogToStream (stream : ι)
  /-- `LogToDebug`. -/
  | logToDebug (minSev : LoggingSeverity)
  deriving DecidableEq

variable {ι : Type*} [DecidableEq ι]

namespace State

/-- At the start of the program, where the sinks have been given some severity. -/
def init (kDefaultLoggingSeverity : LoggingSeverity) (minSeverity : ι → LoggingSeverity) :
    State ι where
  streams := ⟨none, fun _ => none⟩
  minSeverity := minSeverity
  streamsEmpty := true
  minSev := kDefaultLoggingSeverity
  dbgSev := kDefaultLoggingSeverity

/-! ## Configuration -/

/-- `UpdateMinLogSeverity`. -/
def updateMinLogSeverity (turns : ℕ) (s : State ι) : Option (State ι) :=
  (forEach s.streams.next (fun minSev entry => min minSev (s.minSeverity entry)) turns
    s.streams.head s.dbgSev).map fun minSev => { s with minSev := minSev }

/-- `LogToDebug`. -/
def logToDebug (turns : ℕ) (s : State ι) (minSev : LoggingSeverity) : Option (State ι) :=
  updateMinLogSeverity turns { s with dbgSev := minSev }

/-- `AddLogToStream`. -/
def addLogToStream (turns : ℕ) (s : State ι) (stream : ι) (minSev : LoggingSeverity) :
    Option (State ι) :=
  updateMinLogSeverity turns
    { s with
      minSeverity := Function.update s.minSeverity stream minSev
      streams := s.streams.push stream
      streamsEmpty := false }

/-- `RemoveLogToStream`. -/
def removeLogToStream (turns : ℕ) (s : State ι) (stream : ι) : Option (State ι) :=
  (s.streams.unlink stream turns none).bind fun streams =>
    updateMinLogSeverity turns
      { s with streams := streams, streamsEmpty := streams.head.isNone }

/-- A call. -/
def step (turns : ℕ) (s : State ι) : Call ι → Option (State ι)
  | .addLogToStream stream minSev => s.addLogToStream turns stream minSev
  | .removeLogToStream stream => s.removeLogToStream turns stream
  | .logToDebug minSev => s.logToDebug turns minSev

/-! ## Messages -/

/-- `GetLogToStream`. -/
def getLogToStream (turns : ℕ) (s : State ι) (stream : Option ι) : Option LoggingSeverity :=
  forEach s.streams.next
    (fun sev entry =>
      if stream = none ∨ stream = some entry then min sev (s.minSeverity entry) else sev)
    turns s.streams.head LoggingSeverity.none

/-- `~LogMessage`: whether a message is written to the debug output, and the sinks whose
`OnLogMessage` is called. -/
def logMessage (turns : ℕ) (s : State ι) (severity : LoggingSeverity) : Option (Bool × List ι) :=
  (forEach s.streams.next
    (fun received entry =>
      if severity ≥ s.minSeverity entry then received ++ [entry] else received)
    turns s.streams.head []).map fun received => (severity ≥ s.dbgSev, received)

/-- `IsNoop`. -/
def isNoop (s : State ι) (severity : LoggingSeverity) : Bool :=
  if severity ≥ s.dbgSev ∨ severity ≥ s.minSev then false else s.streamsEmpty

end State

/-! ## The sinks that are installed -/

/-- What a call makes of the sinks that are installed, the last in front. -/
def afterCall (sinks : List ι) : Call ι → List ι
  | .addLogToStream stream _ => stream :: sinks
  | .removeLogToStream stream => sinks.erase stream
  | .logToDebug _ => sinks

/-- The sinks that some calls have installed. -/
def installed (calls : List (Call ι)) : List ι := calls.foldl afterCall []

/-- A sink is added only while it is not installed. -/
def Fresh (calls : List (Call ι)) : Prop :=
  ∀ before stream minSev, before ++ [.addLogToStream stream minSev] <+: calls →
    stream ∉ installed before

@[simp] theorem installed_nil : installed ([] : List (Call ι)) = [] := rfl

@[simp] theorem installed_concat (calls : List (Call ι)) (call : Call ι) :
    installed (calls ++ [call]) = afterCall (installed calls) call :=
  List.foldl_concat ..

theorem length_installed_le (calls : List (Call ι)) : (installed calls).length ≤ calls.length := by
  induction calls using List.reverseRecOn with
  | nil => exact le_rfl
  | append_singleton calls call ih =>
    rw [installed_concat, List.length_append, List.length_singleton]
    cases call with
    | addLogToStream stream minSev => exact Nat.succ_le_succ ih
    | removeLogToStream stream => exact (List.length_erase_le.trans ih).trans (Nat.le_succ _)
    | logToDebug minSev => exact ih.trans (Nat.le_succ _)

namespace Fresh

variable {calls : List (Call ι)} {call : Call ι}

theorem nil : Fresh ([] : List (Call ι)) := by
  intro before stream minSev h
  exact absurd (List.prefix_nil.mp h) (by simp)

theorem of_append {calls' : List (Call ι)} (h : Fresh (calls ++ calls')) : Fresh calls :=
  fun before stream minSev hb => h before stream minSev (hb.trans (List.prefix_append ..))

theorem not_mem {stream : ι} {minSev : LoggingSeverity}
    (h : Fresh (calls ++ [.addLogToStream stream minSev])) : stream ∉ installed calls :=
  h calls stream minSev List.prefix_rfl

theorem concat (h : Fresh calls)
    (hcall : ∀ stream minSev, call = .addLogToStream stream minSev → stream ∉ installed calls) :
    Fresh (calls ++ [call]) := by
  intro before stream minSev hb
  rcases List.prefix_concat_iff.mp hb with heq | hb
  · obtain ⟨rfl, hlast⟩ := List.append_inj' heq rfl
    exact hcall stream minSev (List.singleton_injective hlast).symm
  · exact h before stream minSev hb

end Fresh

/-! ## What a call does -/

namespace State

variable {s s' : State ι} {sinks : List ι} {turns : ℕ}

/-- The least severity that some sinks and the debug output ask for. -/
def leastSeverity (s : State ι) (sinks : List ι) : LoggingSeverity :=
  (sinks.map s.minSeverity).foldl min s.dbgSev

/-- What is in the variables while some sinks are installed. -/
structure Inv (sinks : List ι) (s : State ι) : Prop where
  /-- The list is theirs. -/
  linked : Linked s.streams.next s.streams.head sinks
  minSev : s.minSev = s.leastSeverity sinks
  streamsEmpty : s.streamsEmpty = true ↔ sinks = []

omit [DecidableEq ι] in
theorem inv_init (kDefaultLoggingSeverity : LoggingSeverity) (minSeverity : ι → LoggingSeverity) :
    Inv [] (init kDefaultLoggingSeverity minSeverity) :=
  ⟨.nil, rfl, iff_of_true rfl rfl⟩

omit [DecidableEq ι] in
theorem exists_updateMinLogSeverity (h : Linked s.streams.next s.streams.head sinks)
    (hturns : sinks.length < turns) :
    s.updateMinLogSeverity turns = some { s with minSev := s.leastSeverity sinks } := by
  rw [updateMinLogSeverity, exists_forEach h hturns, leastSeverity, List.foldl_map]
  rfl

omit [DecidableEq ι] in
/-- **The severity is the least**, where the list is that of the sinks. -/
theorem inv_of_updateMinLogSeverity (hlinked : Linked s.streams.next s.streams.head sinks)
    (hempty : s.streamsEmpty = true ↔ sinks = []) (h : s.updateMinLogSeverity turns = some s') :
    Inv sinks s' := by
  obtain ⟨minSev, hminSev, rfl⟩ := Option.map_eq_some_iff.mp h
  refine ⟨hlinked, ?_, hempty⟩
  change minSev = s.leastSeverity sinks
  rw [forEach_eq hlinked hminSev, leastSeverity, List.foldl_map]

/-- The list after the pointers of a sink that is added. -/
theorem Inv.linked_push {stream : ι} (hinv : Inv sinks s) (hnew : stream ∉ sinks) :
    Linked (s.streams.push stream).next (s.streams.push stream).head (stream :: sinks) :=
  Nodes.linked_push hinv.linked hnew

omit [DecidableEq ι] in
theorem isNone_head_iff {streams : Nodes ι} (h : Linked streams.next streams.head sinks) :
    streams.head.isNone = true ↔ sinks = [] := by
  generalize streams.head = p at h
  cases h with
  | nil => exact iff_of_true rfl rfl
  | cons _ => exact iff_of_false (by simp) (by simp)

/-- **A call** keeps what is in the variables, unless it adds a sink again. -/
theorem step_inv {call : Call ι} (hinv : Inv sinks s)
    (hnew : ∀ stream minSev, call = .addLogToStream stream minSev → stream ∉ sinks)
    (h : s.step turns call = some s') : Inv (afterCall sinks call) s' := by
  cases call with
  | addLogToStream stream minSev =>
    exact inv_of_updateMinLogSeverity (hinv.linked_push (hnew stream minSev rfl))
      (iff_of_false Bool.false_ne_true (List.cons_ne_nil _ _)) h
  | removeLogToStream stream =>
    obtain ⟨streams, hunlink, h⟩ := Option.bind_eq_some_iff.mp h
    have hlinked := Nodes.linked_unlink hinv.linked hunlink
    exact inv_of_updateMinLogSeverity hlinked (isNone_head_iff hlinked) h
  | logToDebug minSev =>
    exact inv_of_updateMinLogSeverity (s := { s with dbgSev := minSev }) hinv.linked
      hinv.streamsEmpty h

/-- **A call returns**, unless it adds a sink again. -/
theorem exists_step {call : Call ι} (hinv : Inv sinks s)
    (hnew : ∀ stream minSev, call = .addLogToStream stream minSev → stream ∉ sinks)
    (hturns : sinks.length + 1 < turns) : ∃ s', s.step turns call = some s' := by
  cases call with
  | addLogToStream stream minSev =>
    exact ⟨_, exists_updateMinLogSeverity (hinv.linked_push (hnew stream minSev rfl)) hturns⟩
  | removeLogToStream stream =>
    have hlen : sinks.length < turns := Nat.lt_of_succ_lt hturns
    obtain ⟨streams, hunlink⟩ := Nodes.exists_unlink (a := stream) hinv.linked hlen
    have hupdate := exists_updateMinLogSeverity
      (s := { s with streams := streams, streamsEmpty := streams.head.isNone })
      (Nodes.linked_unlink hinv.linked hunlink) (List.length_erase_le.trans_lt hlen)
    exact ⟨_, Option.bind_eq_some_iff.mpr ⟨streams, hunlink, hupdate⟩⟩
  | logToDebug minSev =>
    exact ⟨_, exists_updateMinLogSeverity (s := { s with dbgSev := minSev }) hinv.linked
      (Nat.lt_of_succ_lt hturns)⟩

/-- **A sink that is added again** is never done being added. -/
theorem not_mem_of_step {stream : ι} {minSev : LoggingSeverity} (hinv : Inv sinks s)
    (h : s.step turns (.addLogToStream stream minSev) = some s') : stream ∉ sinks := by
  intro hmem
  obtain ⟨minSev', hminSev', -⟩ := Option.map_eq_some_iff.mp h
  obtain ⟨l, hl, -⟩ := linked_of_forEach hminSev'
  exact Nodes.not_linked_push hinv.linked hmem hl

end State

end Logging

end TQLib
