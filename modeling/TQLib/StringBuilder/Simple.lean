import TQLib.Foundations.Calls
import TQLib.StringEncode.Numbers

/-!
# `rtc::SimpleStringBuilder`

The string builder of `rtc_base/strings/string_builder.cc` that writes into a buffer it is given, as
it is where `RTC_DCHECK` is off. Strings and characters are copied, as far as there is room.
Everything else goes through `vsnprintf`, which ends what it writes with a zero, and returns how
long it would have been.

A write outside of the buffer and a difference of sizes that wraps have no result.

## Main results

* `step_view`, `step_appendFormat` — both ways to append
* `truncates_safely` — the string after any sequence of appends
-/

namespace TQLib

/-- The members. -/
structure SimpleStringBuilder where
  /-- `buffer_`. -/
  buffer : List Char
  /-- `size_`. -/
  size : ℕ

namespace SimpleStringBuilder

/-- What `vsnprintf` makes of a format and its arguments. -/
inductive Formatted
  /-- A text whose length is an `int`. -/
  | text (t : { t : List Char // t.length < 2 ^ 31 })
  /-- An error, and what has been written by then. -/
  | error (written : List Char)

/-- What is appended. -/
inductive Append
  /-- `operator<<(char)`. -/
  | char (ch : Char)
  /-- `operator<<(absl::string_view)`. -/
  | view (str : List Char)
  /-- `operator<<` of an integer type. -/
  | integer (T : StringEncode.IntegerType) (i : T.Value)
  /-- `AppendFormat`. -/
  | format (fmt : Formatted)

/-- A difference of `size_t`s. -/
def sizeSub (m n : ℕ) : Option ℕ := if n ≤ m then some (m - n) else none

/-- Characters are written from a position on. -/
def writeAt (buffer : List Char) (pos : ℕ) (cs : List Char) : Option (List Char) :=
  if pos + cs.length ≤ buffer.length then
    some (buffer.take pos ++ cs ++ buffer.drop (pos + cs.length))
  else none

/-- The constructor. -/
def init (buffer : List Char) : Option SimpleStringBuilder :=
  (writeAt buffer 0 ['\x00']).map fun buffer => ⟨buffer, 0⟩

/-- `operator<<(absl::string_view)`. -/
def appendView (s : SimpleStringBuilder) (str : List Char) : Option SimpleStringBuilder := do
  let room ← sizeSub s.buffer.length s.size
  let room ← sizeSub room 1
  let charsAdded := min str.length room
  let buffer ← writeAt s.buffer s.size (str.take charsAdded)
  let size := s.size + charsAdded
  let buffer ← writeAt buffer size ['\x00']
  return ⟨buffer, size⟩

/-- `AppendFormat`. -/
def appendFormat (s : SimpleStringBuilder) (fmt : Formatted) : Option SimpleStringBuilder := do
  let room ← sizeSub s.buffer.length s.size
  match fmt with
  | .text t =>
    let out ← (OutBuffer.mk s.buffer s.size).snprintf room t
    let left ← sizeSub s.buffer.length 1
    let left ← sizeSub left s.size
    let charsAdded := min t.1.length left
    return ⟨out.buf, s.size + charsAdded⟩
  | .error written =>
    let buffer ← writeAt s.buffer s.size (written.take room)
    let buffer ← writeAt buffer s.size ['\x00']
    return ⟨buffer, s.size⟩

theorem length_printed_lt {T : StringEncode.IntegerType} (i : T.Value) :
    (printed i.1).length < 2 ^ 31 := by
  have hlen := length_printed_le (k := 20) (by decide) (StringEncode.natAbs_lt i)
  omega

/-- What is appended, at one time. -/
def step (s : SimpleStringBuilder) : Append → Option SimpleStringBuilder
  | .char ch => s.appendView [ch]
  | .view str => s.appendView str
  | .integer _ i => s.appendFormat (.text ⟨printed i.1, length_printed_lt i⟩)
  | .format fmt => s.appendFormat fmt

/-- A builder over a buffer, after some appends. -/
def build (buffer : List Char) (appends : List Append) : Option SimpleStringBuilder :=
  (init buffer).bind fun s => Calls.run step s appends

/-- The text that is appended. An error appends none. -/
def Append.text : Append → List Char
  | .char ch => [ch]
  | .view str => str
  | .integer _ i => printed i.1
  | .format (.text t) => t
  | .format (.error _) => []

/-! ## A step -/

/-- A builder that holds a text, with a zero behind it and more of the buffer behind that. -/
def holding (held rest : List Char) : SimpleStringBuilder := ⟨held ++ '\x00' :: rest, held.length⟩

variable {held rest : List Char}

theorem sizeSub_holding (held rest : List Char) :
    sizeSub (holding held rest).buffer.length (holding held rest).size =
      some (rest.length + 1) := by
  have hlen : (holding held rest).buffer.length = held.length + (rest.length + 1) := by
    rw [holding, List.length_append, List.length_cons]
  have hsize : (holding held rest).size = held.length := rfl
  rw [hlen, hsize, sizeSub, if_pos (Nat.le_add_right ..), Nat.add_sub_cancel_left]

/-- What is written behind a text. -/
theorem writeAt_append {tail cs : List Char} (hle : cs.length ≤ tail.length) :
    writeAt (held ++ tail) held.length cs = some (held ++ cs ++ tail.drop cs.length) := by
  rw [writeAt, if_pos (by simpa using hle), List.take_left, ← List.drop_drop, List.drop_left]

/-- The zero behind a text. -/
theorem writeAt_nul (held : List Char) {tail : List Char} (hne : tail ≠ []) :
    writeAt (held ++ tail) held.length ['\x00'] = some (held ++ '\x00' :: tail.tail) := by
  have hone : ['\x00'].length ≤ tail.length := List.length_pos_iff.mpr hne
  rw [writeAt_append hone, List.append_assoc]
  simp

/-- **Characters are copied**, as far as there is room. -/
theorem appendView_holding (held rest str : List Char) :
    (holding held rest).appendView str =
      some (holding (held ++ str.take rest.length) (rest.drop str.length)) := by
  have hroom : sizeSub (rest.length + 1) 1 = some rest.length := if_pos (Nat.le_add_left ..)
  have hmin : str.take (min str.length rest.length) = str.take rest.length := by
    rw [List.take_eq_take_iff]
    omega
  have hcopied : (str.take rest.length).length = min str.length rest.length := by
    rw [List.length_take, min_comm]
  have hsize : (holding held rest).size + min str.length rest.length =
      (held ++ str.take rest.length).length := by
    rw [List.length_append, hcopied]
    rfl
  have hne : ('\x00' :: rest).drop (str.take rest.length).length ≠ [] := by
    rw [← List.length_pos_iff, List.length_drop, List.length_cons]
    omega
  have htail : (('\x00' :: rest).drop (str.take rest.length).length).tail =
      rest.drop str.length := by
    rw [List.tail_drop, List.drop_succ_cons, hcopied]
    rcases Nat.le_total str.length rest.length with h | h
    · rw [Nat.min_eq_left h]
    · rw [Nat.min_eq_right h, List.drop_length, List.drop_eq_nil_of_le h]
  have hwrite : writeAt (holding held rest).buffer (holding held rest).size
      (str.take rest.length) = some (held ++ str.take rest.length ++
        ('\x00' :: rest).drop (str.take rest.length).length) :=
    writeAt_append (by rw [hcopied, List.length_cons]; omega)
  rw [appendView, sizeSub_holding]
  simp only [Option.bind_eq_bind, Option.bind_some, hroom]
  rw [hmin, hwrite, Option.bind_some, hsize, writeAt_nul _ hne, htail]
  rfl

/-- **A format** is printed as far as there is room, and the zero behind it. -/
theorem appendFormat_text (held rest : List Char) (t : { t : List Char // t.length < 2 ^ 31 }) :
    (holding held rest).appendFormat (.text t) =
      some (holding (held ++ t.1.take rest.length) (rest.drop t.1.length)) := by
  have hlen : (holding held rest).buffer.length = held.length + (rest.length + 1) := by
    rw [holding, List.length_append, List.length_cons]
  have hleft : sizeSub (holding held rest).buffer.length 1 = some (held.length + rest.length) := by
    rw [hlen, sizeSub, if_pos (by omega)]
    rfl
  have hleft' : sizeSub (held.length + rest.length) (holding held rest).size =
      some rest.length := by
    rw [holding, sizeSub, if_pos (Nat.le_add_right ..), Nat.add_sub_cancel_left]
  have hprinted : (t.1.take rest.length).length = min t.1.length rest.length := by
    rw [List.length_take, min_comm]
  have hwritten : (terminated (t.1.take rest.length)).length = min t.1.length rest.length + 1 := by
    rw [terminated, List.length_append, hprinted, List.length_singleton]
  have hdrop : ('\x00' :: rest).drop (min t.1.length rest.length + 1) = rest.drop t.1.length := by
    rw [List.drop_succ_cons]
    rcases Nat.le_total t.1.length rest.length with h | h
    · rw [Nat.min_eq_left h]
    · rw [Nat.min_eq_right h, List.drop_length, List.drop_eq_nil_of_le h]
  have hprint : (OutBuffer.mk (holding held rest).buffer (holding held rest).size).snprintf
      (rest.length + 1) t = some ⟨held ++ t.1.take rest.length ++ '\x00' :: rest.drop t.1.length,
        held.length + t.1.length⟩ := by
    rw [OutBuffer.snprintf]
    simp only [if_neg (Nat.succ_ne_zero rest.length), Nat.add_sub_cancel, hwritten]
    rw [if_pos (by rw [hlen, holding]; dsimp only; omega), holding, List.take_left,
      ← List.drop_drop, List.drop_left, hdrop, terminated]
    simp
  rw [appendFormat, sizeSub_holding]
  simp only [Option.bind_eq_bind, Option.bind_some, hprint, hleft, hleft']
  rw [holding, holding, List.length_append, hprinted]
  rfl

/-- **An error** appends nothing. -/
theorem exists_appendFormat_error (held rest written : List Char) :
    ∃ rest', (holding held rest).appendFormat (.error written) = some (holding held rest') ∧
      rest'.length = rest.length := by
  have hle : (written.take (rest.length + 1)).length ≤ ('\x00' :: rest).length :=
    List.length_take_le ..
  have hwrite : writeAt (holding held rest).buffer (holding held rest).size
      (written.take (rest.length + 1)) = some (held ++ (written.take (rest.length + 1) ++
        ('\x00' :: rest).drop (written.take (rest.length + 1)).length)) := by
    rw [← List.append_assoc]
    exact writeAt_append hle
  have hall : (written.take (rest.length + 1) ++
      ('\x00' :: rest).drop (written.take (rest.length + 1)).length).length = rest.length + 1 := by
    rw [List.length_append, List.length_drop, Nat.add_sub_cancel' hle, List.length_cons]
  generalize written.take (rest.length + 1) ++
    ('\x00' :: rest).drop (written.take (rest.length + 1)).length = tail at hwrite hall
  have hnul : writeAt (held ++ tail) (holding held rest).size ['\x00'] =
      some (held ++ '\x00' :: tail.tail) :=
    writeAt_nul held (List.ne_nil_of_length_eq_add_one hall)
  refine ⟨tail.tail, ?_, by rw [List.length_tail, hall, Nat.add_sub_cancel]⟩
  rw [appendFormat, sizeSub_holding]
  simp only [Option.bind_eq_bind, Option.bind_some, hwrite, hnul]
  rfl

/-- **What is appended** comes behind what is held, as far as there is room. -/
theorem exists_step (held rest : List Char) (a : Append) :
    ∃ rest', step (holding held rest) a = some (holding (held ++ a.text.take rest.length) rest') ∧
      rest'.length = rest.length - a.text.length := by
  cases a with
  | char ch => exact ⟨_, appendView_holding held rest [ch], List.length_drop⟩
  | view str => exact ⟨_, appendView_holding held rest str, List.length_drop⟩
  | integer T i => exact ⟨_, appendFormat_text held rest _, List.length_drop⟩
  | format fmt =>
    cases fmt with
    | text t => exact ⟨_, appendFormat_text held rest t, List.length_drop⟩
    | error written =>
      obtain ⟨rest', hrest', hlen⟩ := exists_appendFormat_error held rest written
      refine ⟨rest', ?_, hlen⟩
      rw [step, hrest', Append.text, List.take_nil, List.append_nil]

/-! ## All of them -/

theorem exists_run (held rest : List Char) (appends : List Append) :
    ∃ rest', Calls.run step (holding held rest) appends =
        some (holding (held ++ (appends.flatMap Append.text).take rest.length) rest') ∧
      rest'.length = rest.length - (appends.flatMap Append.text).length := by
  induction appends generalizing held rest with
  | nil => exact ⟨rest, by simp, rfl⟩
  | cons a appends ih =>
    obtain ⟨rest', hstep, hlen⟩ := exists_step held rest a
    obtain ⟨rest'', hrun, hlen'⟩ := ih (held ++ a.text.take rest.length) rest'
    refine ⟨rest'', ?_, ?_⟩
    · have hcons : Calls.run step (holding held rest) (a :: appends) =
          (step (holding held rest) a).bind fun s => Calls.run step s appends := rfl
      rw [hcons, hstep, Option.bind_some, hrun, hlen, List.flatMap_cons, List.take_append,
        List.append_assoc]
    · rw [hlen', hlen, List.flatMap_cons, List.length_append]
      omega

theorem exists_init {buffer : List Char} (hbuffer : 1 ≤ buffer.length) :
    ∃ rest, init buffer = some (holding [] rest) ∧ rest.length = buffer.length - 1 := by
  have hnul := writeAt_nul [] (List.length_pos_iff.mp hbuffer)
  refine ⟨buffer.tail, ?_, List.length_tail⟩
  rw [List.nil_append, List.nil_append] at hnul
  rw [init, ← List.length_nil, hnul]
  rfl

/-- **The builder truncates safely**: whatever is appended, the buffer holds as much of the text as
fits in front of a zero, and nothing is written outside of it. -/
theorem truncates_safely (buffer : List Char) (appends : List Append)
    (hbuffer : 1 ≤ buffer.length) :
    ∃ s, build buffer appends = some s ∧ s.buffer.length = buffer.length ∧
      s.size < buffer.length ∧ s.buffer[s.size]? = some '\x00' ∧
      s.buffer.take s.size =
        (appends.flatMap Append.text).take
          (min (appends.flatMap Append.text).length (buffer.length - 1)) := by
  obtain ⟨rest, hinit, hlen⟩ := exists_init hbuffer
  obtain ⟨rest', hrun, hlen'⟩ := exists_run [] rest appends
  refine ⟨_, by rw [build, hinit, Option.bind_some, hrun], ?_⟩
  rw [List.nil_append, hlen]
  generalize appends.flatMap Append.text = text at hlen' ⊢
  have hheld : (text.take (buffer.length - 1)).length = min (buffer.length - 1) text.length :=
    List.length_take
  have htake : text.take (min text.length (buffer.length - 1)) = text.take (buffer.length - 1) := by
    rw [List.take_eq_take_iff]
    omega
  refine ⟨?_, ?_, ?_, ?_⟩
  · rw [holding, List.length_append, List.length_cons, hheld, hlen', hlen]
    omega
  · rw [holding, hheld]
    dsimp only
    omega
  · rw [holding, List.getElem?_append_right (Nat.le_refl _), Nat.sub_self]
    rfl
  · rw [holding, List.take_left, htake]

/-- A character, a number that does not fit, and an error behind it. -/
theorem truncates_safely_full :
    ∃ s, build (List.replicate 3 '?') [.char 'a', .integer ⟨true, 32, by decide, by decide⟩
        ⟨-12, by decide⟩, .format (.error ['?'])] = some s ∧ s.buffer.length = 3 ∧ s.size < 3 ∧
      s.buffer[s.size]? = some '\x00' ∧ s.buffer.take s.size = ['a', '-'] :=
  truncates_safely (List.replicate 3 '?') _ (by decide)

end SimpleStringBuilder

end TQLib
