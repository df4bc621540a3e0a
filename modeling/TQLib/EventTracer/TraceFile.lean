import TQLib.Foundations.Decimal
import TQLib.Foundations.Json

/-!
# The trace file

What `EventLogger::Log` of `rtc_base/event_tracer.cc` writes. The events come in batches, each of
which is written when the logging thread wakes up. The arguments of an event are put together in a
string, and that is printed as a C string. A string argument is copied character by character, by a
loop that looks for the end of the string only behind the first. Arguments of other types are
printed into a buffer that cuts them off.

A string argument is the memory from a pointer on, and what reads behind the end of the memory has
no result. Names and categories are literals in the code that traces, with no quotation mark,
backslash or control character in them. Of a number in floating point there is what `"%f"` prints,
and of a pointer what `"%p"` does.

## Main results

* `escapeLoop_eq`, `escapeLoop_prefix` — the loop over a string
* `isFaithful_iff` — when a string argument is a literal for the string
-/

namespace TQLib

namespace EventTracer

open Json

/-! ## Arguments -/

/-- A name, as it stands in the code. -/
abbrev Name := { s : List Char // ∀ c ∈ s, isPlain c = true }

/-- The characters of a string in memory. -/
abbrev CChars := { s : List Char // '\x00' ∉ s }

/-- A number in floating point, as `"%f"` prints it. -/
inductive Double
  /-- A sign, a whole part, and millionths. -/
  | finite (negative : Bool) (whole : ℕ) (millionths : Fin (10 ^ 6))
  /-- Infinity. -/
  | infinite (negative : Bool)
  /-- No number. -/
  | nan (negative : Bool)

namespace Double

/-- The sign that is printed. -/
def sign (negative : Bool) : List Char := if negative then ['-'] else []

/-- What is printed. -/
def text : Double → List Char
  | finite negative whole millionths =>
    sign negative ++ (Nat.toDigits 10 whole ++ '.' :: padded 6 millionths)
  | infinite negative => sign negative ++ "inf".toList
  | nan negative => sign negative ++ "nan".toList

end Double

/-- A pointer, as `"%p"` prints it. -/
abbrev Pointer := { s : List Char // (∀ c ∈ s, isPlain c = true) ∧ s.length ≤ 29 }

/-- `TraceArgValue`, by its type. -/
inductive TraceArgValue
  /-- `TRACE_VALUE_TYPE_BOOL`. -/
  | asBool (b : Bool)
  /-- `TRACE_VALUE_TYPE_UINT`. -/
  | asUint (v : UInt64)
  /-- `TRACE_VALUE_TYPE_INT`. -/
  | asInt (v : { v : ℤ // InSigned 64 v })
  /-- `TRACE_VALUE_TYPE_DOUBLE`. -/
  | asDouble (d : Double)
  /-- `TRACE_VALUE_TYPE_POINTER`. -/
  | asPointer (p : Pointer)
  /-- `TRACE_VALUE_TYPE_STRING`, with what is in memory behind the terminator. -/
  | asString (s : CChars) (beyond : List Char)
  /-- `TRACE_VALUE_TYPE_COPY_STRING`. The copy ends with the terminator. -/
  | copyString (s : CChars)

/-- `TraceArg`. -/
structure TraceArg where
  /-- `name`. -/
  name : Name
  /-- `type` and `value`. -/
  value : TraceArgValue

/-- `TraceEvent`. -/
structure TraceEvent where
  /-- `name`. -/
  name : Name
  /-- `category_enabled`. -/
  categoryEnabled : Name
  /-- `phase`. -/
  phase : { c : Char // isPlain c = true }
  /-- `args`. -/
  args : List TraceArg
  /-- `timestamp`. -/
  timestamp : UInt64
  /-- `pid`. -/
  pid : ℤ
  /-- `tid`. -/
  tid : ℤ

/-! ## Printing -/

/-- `kTraceArgBufferLength`. -/
def kTraceArgBufferLength : ℕ := 32

/-- The loop over a string: what is put out, and the place that was read last. -/
def escapeLoop : List Char → List Char → ℕ → Option (List Char × ℕ)
  | [], _, _ => none
  | c :: memory, output, pos =>
    let output := output ++ if c = '"' ∨ c = '\\' then ['\\', c] else [c]
    match memory with
    | [] => none
    | d :: _ =>
      if d ≠ '\x00' then escapeLoop memory output (pos + 1) else some (output, pos + 1)

/-- `TraceArgValueAsString`, of a string, and the place that was read last. -/
def traceStringAsString (memory : List Char) : Option (List Char × ℕ) :=
  (escapeLoop memory ['"'] 0).map fun (output, last) => (output ++ ['"'], last)

/-- What the buffer has of a text that is printed into it. -/
def inBuffer (text : List Char) : List Char :=
  text.take
    (if text.length < kTraceArgBufferLength then text.length else kTraceArgBufferLength - 1)

/-- `TraceArgValueAsString`. -/
def traceArgValueAsString : TraceArgValue → Option (List Char)
  | .asBool b => some (inBuffer (if b then "true".toList else "false".toList))
  | .asUint v => some (inBuffer (printed v.toNat))
  | .asInt v => some (inBuffer (printed v.1))
  | .asDouble d => some (inBuffer d.text)
  | .asPointer p => some (inBuffer ('"' :: (p.1 ++ ['"'])))
  | .asString s beyond => (traceStringAsString (s.1 ++ '\x00' :: beyond)).map Prod.fst
  | .copyString s => (traceStringAsString (s.1 ++ ['\x00'])).map Prod.fst

/-- The loop over the arguments. -/
def appendArgs : List TraceArg → Bool → List Char → Option (List Char)
  | [], _, argsStr => some argsStr
  | arg :: args, isFirstArgument, argsStr => do
    let value ← traceArgValueAsString arg.value
    appendArgs args false (argsStr ++ ((if isFirstArgument then [] else [',']) ++
      (" \"".toList ++ arg.name.1 ++ "\": ".toList ++ value)))

/-- `args_str`. -/
def argsStr (e : TraceEvent) : Option (List Char) :=
  if e.args = [] then some []
  else (appendArgs e.args true ", \"args\": \x7b".toList).map (· ++ " \x7d".toList)

/-- `c_str`, as `"%s"` takes it. -/
def cStr (s : List Char) : List Char := s.takeWhile (· ≠ '\x00')

/-- An event is written behind others, or as the first. -/
def logEvent (file : Bool × List Char) (e : TraceEvent) : Option (Bool × List Char) :=
  let (hasLoggedEvent, text) := file
  (argsStr e).map fun args =>
    (true, text ++ ((if hasLoggedEvent then [','] else [' ']) ++
      ("\x7b \"name\": \"".toList ++ e.name.1 ++
      "\", \"cat\": \"".toList ++ e.categoryEnabled.1 ++
      "\", \"ph\": \"".toList ++ [e.phase.1] ++
      "\", \"ts\": ".toList ++ printed e.timestamp.toNat ++
      ", \"pid\": ".toList ++ printed e.pid ++
      ", \"tid\": ".toList ++ printed e.tid ++
      cStr args ++
      "\x7d\n".toList)))

/-- The events of a batch. -/
def logBatch (file : Bool × List Char) (events : List TraceEvent) : Option (Bool × List Char) :=
  events.foldlM logEvent file

/-- `Log`: the file, from the batches of events. -/
def log (batches : List (List TraceEvent)) : Option (List Char) :=
  (batches.foldlM logBatch (false, "\x7b \"traceEvents\": [\n".toList)).map
    fun (_, text) => text ++ "]\x7d\n".toList

/-! ## Strings -/

theorem escapeLoop_eq {c : Char} {s : List Char} (hs : '\x00' ∉ s) (beyond output : List Char)
    (pos : ℕ) : escapeLoop (c :: (s ++ '\x00' :: beyond)) output pos =
      some (output ++ (c :: s).flatMap escape, pos + (s.length + 1)) := by
  induction s generalizing c output pos with
  | nil =>
    rw [List.nil_append, escapeLoop]
    simp [escape]
  | cons d s ih =>
    obtain ⟨hd, hs⟩ := List.ne_and_not_mem_of_not_mem_cons hs
    have hlast : pos + 1 + (s.length + 1) = pos + ((d :: s).length + 1) := by
      rw [List.length_cons]
      omega
    rw [List.cons_append, escapeLoop, if_pos hd.symm, ih hs, hlast, List.append_assoc]
    rfl

/-- What has been put out stays, and the place goes on. -/
theorem escapeLoop_prefix {memory output output' : List Char} {c : Char} {pos last : ℕ}
    (h : escapeLoop (c :: memory) output pos = some (output', last)) :
    output ++ escape c <+: output' ∧ pos < last := by
  induction memory generalizing c output pos with
  | nil => cases h
  | cons d memory ih =>
    rw [escapeLoop] at h
    split at h
    · obtain ⟨hpre, hlt⟩ := ih h
      exact ⟨(List.prefix_append ..).trans hpre, Nat.lt_of_succ_lt hlt⟩
    · cases h
      exact ⟨List.prefix_rfl, Nat.lt_succ_self pos⟩

theorem traceStringAsString_eq {s : List Char} (hs : '\x00' ∉ s) (hne : s ≠ [])
    (beyond : List Char) :
    traceStringAsString (s ++ '\x00' :: beyond) = some (literal s, s.length) := by
  obtain ⟨c, s, rfl⟩ := List.exists_cons_of_ne_nil hne
  have hs' : '\x00' ∉ s := fun h => hs (List.mem_cons_of_mem _ h)
  rw [traceStringAsString, List.cons_append, escapeLoop_eq hs', Option.map_some, Nat.zero_add]
  rfl

/-- **The empty string** is read behind its terminator, which is put out. -/
theorem traceStringAsString_nil {beyond text : List Char} {last : ℕ}
    (h : traceStringAsString ('\x00' :: beyond) = some (text, last)) :
    (∃ rest, text = '"' :: '\x00' :: rest) ∧ 0 < last := by
  obtain ⟨⟨output, last'⟩, hloop, heq⟩ := Option.map_eq_some_iff.mp h
  obtain ⟨hpre, hlt⟩ := escapeLoop_prefix hloop
  cases heq
  obtain ⟨rest, rfl⟩ := hpre
  exact ⟨⟨rest ++ ['"'], rfl⟩, hlt⟩

/-- A string that JSON has as it is, and that is not empty. -/
def IsGoodString (s : List Char) : Prop := s ≠ [] ∧ ∀ c ∈ s, isControl c = false

/-- A string argument is read up to its terminator and becomes a literal for the string. -/
def IsFaithful (s beyond : List Char) : Prop :=
  ∃ text last, traceStringAsString (s ++ '\x00' :: beyond) = some (text, last) ∧
    last ≤ s.length ∧ decode text = some (s.map Char.toNat)

/-- **A string argument.** -/
theorem isFaithful_iff {s : List Char} (hs : '\x00' ∉ s) (beyond : List Char) :
    IsFaithful s beyond ↔ IsGoodString s := by
  by_cases hne : s = []
  · subst hne
    refine iff_of_false ?_ fun h => h.1 rfl
    rintro ⟨text, last, htext, hlast, -⟩
    exact absurd (traceStringAsString_nil htext).2 (Nat.not_lt.mpr hlast)
  · rw [IsFaithful, traceStringAsString_eq hs hne]
    constructor
    · rintro ⟨text, last, heq, -, hdecode⟩
      cases heq
      refine ⟨hne, fun c hc => Bool.eq_false_iff.mpr fun hcontrol => ?_⟩
      rw [decode_literal_of_control ⟨c, hc, hcontrol⟩] at hdecode
      cases hdecode
    · rintro ⟨-, hcontrol⟩
      exact ⟨_, _, rfl, le_rfl, decode_literal hcontrol⟩

end EventTracer

end TQLib
