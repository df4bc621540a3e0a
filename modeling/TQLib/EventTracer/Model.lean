import TQLib.Foundations.Machine

/-!
# `EventLogger`

Threads append what they trace to a buffer, and a thread of the logger takes the buffer away from
time to time and writes what is in it to a file. `Start` and `Stop` are called by one thread. They
set and clear a flag that the threads look at before they append, and `Stop` is to make the logging
thread write what is left and to wait for it.

`shutdown_event_` is reset by the wait that it ends. A wait can also time out, even if the event has
been set by then. How an event is printed is left out.
-/

namespace TQLib

namespace EventTracer

variable {ι α : Type*}

/-- Where the logging thread is in `Log`. -/
inductive Logger (α : Type*)
  /-- There is none. -/
  | none
  /-- About to write the head of the file. -/
  | opening
  /-- In `shutdown_event_.Wait`. -/
  | waiting
  /-- About to swap `trace_events_`, with `shutting_down`. -/
  | swapping (shuttingDown : Bool)
  /-- Writing `events`. -/
  | writing (events : List α) (shuttingDown : Bool)
  /-- About to close the file. -/
  | closing
  /-- Over. -/
  | finished
  deriving DecidableEq

/-- Where the thread that starts and stops is. -/
inductive Owner
  /-- In neither. -/
  | idle
  /-- In `Start`, about to clear `trace_events_`. -/
  | clearing
  /-- About to set `g_event_logging_active`. -/
  | activating
  /-- About to spawn the logging thread. -/
  | spawning
  /-- In `Stop`, about to clear `g_event_logging_active`. -/
  | exchanging
  /-- About to set `shutdown_event_`. -/
  | setting
  /-- In `logging_thread_.Finalize`. -/
  | joining
  deriving DecidableEq

/-- A logger, its thread, and the threads that trace. -/
structure State (ι α : Type*) where
  /-- `g_event_logging_active`. -/
  active : Bool
  /-- `trace_events_`. -/
  traceEvents : List α
  /-- Whether `shutdown_event_` is set. -/
  shutdownEvent : Bool
  /-- The logging thread. -/
  logger : Logger α
  /-- Whether `logging_thread_` has it. -/
  loggingThread : Bool
  /-- Whether there is an `output_file_`. -/
  outputFile : Bool
  /-- The thread that starts and stops. -/
  owner : Owner
  /-- What each thread is about to append. The one that starts and stops is among them. -/
  tracing : ι → Option α

/-- What a run shows. -/
inductive Observation (α : Type*)
  /-- `Start` has cleared `trace_events_`. -/
  | cleared
  /-- An event has been appended. -/
  | added (e : α)
  /-- An event has been written to the file. -/
  | written (e : α)
  /-- `Stop` is called. -/
  | stopping
  /-- `Stop` returns. -/
  | stopped
  deriving DecidableEq

/-- One step. -/
inductive Action (ι α : Type*)
  /-- `Start` is called. -/
  | start
  /-- `Stop` is called. -/
  | stop
  /-- The thread that starts and stops goes on. -/
  | goOn
  /-- The logging thread goes on, if it waits because of the event or because the time is over. -/
  | log (shuttingDown : Bool)
  /-- `InternalAddTraceEvent` is called. -/
  | addTraceEvent (i : ι) (e : α)
  /-- It appends. -/
  | append (i : ι)

/-- Whether the logging thread does nothing any more, or is not there. -/
def Logger.ended : Logger α → Bool
  | .none => true
  | .finished => true
  | _ => false

namespace State

/-- The start: a logger has been constructed. -/
def initial : State ι α := ⟨false, [], false, .none, false, false, .idle, fun _ => none⟩

/-- Move the thread that starts and stops. -/
def setOwner (s : State ι α) (owner : Owner) : State ι α := { s with owner }

/-- Move the logging thread. -/
def setLogger (s : State ι α) (logger : Logger α) : State ι α := { s with logger }

/-- `Start` and `Stop`. -/
def goOn (s : State ι α) : Option (State ι α × List (Observation α)) :=
  match s.owner with
  | .idle => none
  | .clearing => some ({ s with traceEvents := [] }.setOwner .activating, [.cleared])
  | .activating =>
    -- a logger that is active makes the check fail
    if s.active then none else some ({ s with active := true }.setOwner .spawning, [])
  | .spawning =>
    -- the assignment to `logging_thread_` waits for the thread that was there
    if s.logger.ended then
      some (({ s with loggingThread := true }.setLogger .opening).setOwner .idle, [])
    else none
  | .exchanging =>
    if s.active then some ({ s with active := false }.setOwner .idle, [.stopped])
    else some (s.setOwner .setting, [])
  | .setting => some ({ s with shutdownEvent := true }.setOwner .joining, [])
  | .joining =>
    if s.loggingThread then
      if s.logger.ended then some ({ s with loggingThread := false }.setOwner .idle, [.stopped])
      else none
    else some (s.setOwner .idle, [.stopped])

/-- `Log`. -/
def log (s : State ι α) (shuttingDown : Bool) : Option (State ι α × List (Observation α)) :=
  match s.logger with
  | .none => none
  | .opening => some (s.setLogger .waiting, [])
  | .waiting =>
    if shuttingDown then
      if s.shutdownEvent then
        some ({ s with shutdownEvent := false }.setLogger (.swapping true), [])
      else none
    else some (s.setLogger (.swapping false), [])
  | .swapping shuttingDown =>
    some ({ s with traceEvents := [] }.setLogger (.writing s.traceEvents shuttingDown), [])
  | .writing (e :: events) shuttingDown =>
    some (s.setLogger (.writing events shuttingDown), [.written e])
  | .writing [] shuttingDown =>
    some (s.setLogger (if shuttingDown then .closing else .waiting), [])
  | .closing => some ({ s with outputFile := false }.setLogger .finished, [])
  | .finished => none

variable [DecidableEq ι]

/-- One step. -/
def step (s : State ι α) : Action ι α → Option (State ι α × List (Observation α))
  | .start =>
    match s.owner with
    | .idle =>
      -- `RTC_DCHECK(!output_file_)`
      if s.outputFile then none
      else some ({ s with outputFile := true }.setOwner .clearing, [])
    | _ => none
  | .stop =>
    match s.owner with
    | .idle => some (s.setOwner .exchanging, [.stopping])
    | _ => none
  | .goOn => s.goOn
  | .log shuttingDown => s.log shuttingDown
  | .addTraceEvent i e =>
    match s.tracing i with
    | none =>
      if s.active then some ({ s with tracing := Function.update s.tracing i (some e) }, [])
      else some (s, [])
    | some _ => none
  | .append i =>
    match s.tracing i with
    | some e =>
      some ({ s with
        traceEvents := s.traceEvents ++ [e], tracing := Function.update s.tracing i none },
        [.added e])
    | none => none

end State

/-- The logger as a machine. -/
def machine (ι α : Type*) [DecidableEq ι] : Machine (State ι α) (Action ι α) (Observation α) where
  start s := s = .initial
  step := State.step

/-! ## What a step can do -/

/-- What a step does. -/
inductive Step [DecidableEq ι] (s : State ι α) :
    Action ι α → State ι α → List (Observation α) → Prop
  | start : s.owner = .idle → s.outputFile = false →
      Step s .start ({ s with outputFile := true }.setOwner .clearing) []
  | stop : s.owner = .idle → Step s .stop (s.setOwner .exchanging) [.stopping]
  | clear : s.owner = .clearing →
      Step s .goOn ({ s with traceEvents := [] }.setOwner .activating) [.cleared]
  | activate : s.owner = .activating → s.active = false →
      Step s .goOn ({ s with active := true }.setOwner .spawning) []
  | spawn : s.owner = .spawning → s.logger.ended = true →
      Step s .goOn (({ s with loggingThread := true }.setLogger .opening).setOwner .idle) []
  | abort : s.owner = .exchanging → s.active = true →
      Step s .goOn ({ s with active := false }.setOwner .idle) [.stopped]
  | exchange : s.owner = .exchanging → s.active = false → Step s .goOn (s.setOwner .setting) []
  | set : s.owner = .setting →
      Step s .goOn ({ s with shutdownEvent := true }.setOwner .joining) []
  | join : s.owner = .joining → s.loggingThread = true → s.logger.ended = true →
      Step s .goOn ({ s with loggingThread := false }.setOwner .idle) [.stopped]
  | joinNone : s.owner = .joining → s.loggingThread = false →
      Step s .goOn (s.setOwner .idle) [.stopped]
  | openFile {b : Bool} : s.logger = .opening → Step s (.log b) (s.setLogger .waiting) []
  | wake : s.logger = .waiting → s.shutdownEvent = true →
      Step s (.log true) ({ s with shutdownEvent := false }.setLogger (.swapping true)) []
  | timeout : s.logger = .waiting → Step s (.log false) (s.setLogger (.swapping false)) []
  | swap {b shuttingDown : Bool} : s.logger = .swapping shuttingDown →
      Step s (.log b)
        ({ s with traceEvents := [] }.setLogger (.writing s.traceEvents shuttingDown)) []
  | write {b shuttingDown : Bool} {e : α} {events : List α} :
      s.logger = .writing (e :: events) shuttingDown →
      Step s (.log b) (s.setLogger (.writing events shuttingDown)) [.written e]
  | written {b shuttingDown : Bool} : s.logger = .writing [] shuttingDown →
      Step s (.log b) (s.setLogger (if shuttingDown then .closing else .waiting)) []
  | close {b : Bool} : s.logger = .closing →
      Step s (.log b) ({ s with outputFile := false }.setLogger .finished) []
  | inactive {i : ι} {e : α} : s.tracing i = none → s.active = false →
      Step s (.addTraceEvent i e) s []
  | add {i : ι} {e : α} : s.tracing i = none → s.active = true →
      Step s (.addTraceEvent i e) { s with tracing := Function.update s.tracing i (some e) } []
  | append {i : ι} {e : α} : s.tracing i = some e →
      Step s (.append i) { s with
        traceEvents := s.traceEvents ++ [e], tracing := Function.update s.tracing i none }
        [.added e]

section

variable [DecidableEq ι] {s s' : State ι α} {a : Action ι α} {out : List (Observation α)}

theorem step_goOn (h : s.goOn = some (s', out)) : Step s .goOn s' out := by
  unfold State.goOn at h
  cases ho : s.owner <;> simp only [ho] at h
  case idle => cases h
  case clearing =>
    cases h
    exact .clear ho
  case activating =>
    split at h
    · cases h
    · cases h
      exact .activate ho (Bool.eq_false_iff.mpr ‹_›)
  case spawning =>
    split at h
    · cases h
      exact .spawn ho ‹_›
    · cases h
  case exchanging =>
    split at h
    · cases h
      exact .abort ho ‹_›
    · cases h
      exact .exchange ho (Bool.eq_false_iff.mpr ‹_›)
  case setting =>
    cases h
    exact .set ho
  case joining =>
    split at h
    · split at h
      · cases h
        exact .join ho ‹_› ‹_›
      · cases h
    · cases h
      exact .joinNone ho (Bool.eq_false_iff.mpr ‹_›)

theorem step_log {b : Bool} (h : s.log b = some (s', out)) : Step s (.log b) s' out := by
  unfold State.log at h
  split at h
  case h_1 => cases h
  case h_2 hl =>
    cases h
    exact .openFile hl
  case h_3 hl =>
    cases b with
    | false =>
      cases h
      exact .timeout hl
    | true =>
      simp only [if_true] at h
      split at h
      · cases h
        exact .wake hl ‹_›
      · cases h
  case h_4 hl =>
    cases h
    exact .swap hl
  case h_5 hl =>
    cases h
    exact .write hl
  case h_6 hl =>
    cases h
    exact .written hl
  case h_7 hl =>
    cases h
    exact .close hl
  case h_8 => cases h

theorem step_cases (h : s.step a = some (s', out)) : Step s a s' out := by
  cases a with
  | start =>
    simp only [State.step] at h
    split at h
    · split at h
      · cases h
      · cases h
        exact .start ‹_› (Bool.eq_false_iff.mpr ‹_›)
    · cases h
  | stop =>
    simp only [State.step] at h
    split at h
    · cases h
      exact .stop ‹_›
    · cases h
  | goOn => exact step_goOn h
  | log b => exact step_log h
  | addTraceEvent i e =>
    simp only [State.step] at h
    split at h
    · split at h
      · cases h
        exact .add ‹_› ‹_›
      · cases h
        exact .inactive ‹_› (Bool.eq_false_iff.mpr ‹_›)
    · cases h
  | append i =>
    simp only [State.step] at h
    split at h
    · cases h
      exact .append ‹_›
    · cases h

end

end EventTracer

end TQLib
