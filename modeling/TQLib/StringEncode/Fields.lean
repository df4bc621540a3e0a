import TQLib.Foundations.CText

/-!
# Fields of a string

`split`, `tokenize` and `tokenize_first` of `rtc_base/string_encode.cc`. Two of them go over the
positions of a string with the start of the field they are in, and differ in whether a field that is
empty counts. A view of a part of the string that starts behind its end has no result.

What they do is said by `List.splitOn`, which takes a list apart at each place of an element.

## Main results

* `fieldsLoop_eq` — the loop, inside of a field
* `tokenizeFirst_eq` — the first field, and what is behind the delimiters that follow it
* `fields_agree` — the three together
-/

namespace TQLib

namespace StringEncode

/-- `substr`. -/
def substr (s : List Char) (pos n : ℕ) : Option (List Char) :=
  if pos ≤ s.length then some ((s.drop pos).take n) else none

/-- The loop over the positions: `last` is where the field starts, and `keeps i last` whether the
one up to `i` counts. -/
def fieldsLoop (keeps : ℕ → ℕ → Bool) (source : List Char) (delimiter : Char) (i last : ℕ)
    (fields : List (List Char)) : Option (List (List Char)) :=
  if i < source.length then do
    let c ← source[i]?
    if c = delimiter then
      if keeps i last then
        let field ← substr source last (i - last)
        fieldsLoop keeps source delimiter (i + 1) (i + 1) (fields ++ [field])
      else
        fieldsLoop keeps source delimiter (i + 1) (i + 1) fields
    else
      fieldsLoop keeps source delimiter (i + 1) last fields
  else if keeps source.length last then
    (substr source last (source.length - last)).map fun field => fields ++ [field]
  else some fields
  termination_by source.length - i

/-- `tokenize`: the fields, whose number is what is returned. -/
def tokenize (source : List Char) (delimiter : Char) : Option (List (List Char)) :=
  fieldsLoop (fun i last => i ≠ last) source delimiter 0 0 []

/-- `split`. -/
def split (source : List Char) (delimiter : Char) : Option (List (List Char)) :=
  fieldsLoop (fun _ _ => true) source delimiter 0 0 []

/-- The loop of `tokenize_first`, which leaves out further delimiters. -/
def skipDelimiters (source : List Char) (delimiter : Char) (rightPos : ℕ) : ℕ :=
  if rightPos < source.length ∧ source[rightPos]? = some delimiter then
    skipDelimiters source delimiter (rightPos + 1)
  else rightPos
  termination_by source.length - rightPos

/-- `tokenize_first`: the token and the rest, if it returns true. -/
def tokenizeFirst (source : List Char) (delimiter : Char) :
    Option (Option (List Char × List Char)) :=
  match findChar delimiter source 0 with
  | none => some none
  | some leftPos => do
    let rightPos := skipDelimiters source delimiter (leftPos + 1)
    let token ← substr source 0 leftPos
    let rest ← substr source rightPos (source.length - rightPos)
    return some (token, rest)

variable {delimiter : Char} {source token rest : List Char}

/-! ## Pieces -/

/-- No piece has the delimiter in it. -/
theorem not_mem_of_mem_splitOn {piece : List Char} (h : piece ∈ source.splitOn delimiter) :
    delimiter ∉ piece := by
  induction source generalizing piece with
  | nil =>
    rw [List.splitOn_nil, List.mem_singleton] at h
    rw [h]
    exact List.not_mem_nil
  | cons c source ih =>
    rw [List.splitOn_cons_eq_if_modifyHead] at h
    by_cases hc : c = delimiter
    · rw [if_pos (beq_iff_eq.mpr hc), List.mem_cons] at h
      rcases h with rfl | h
      · exact List.not_mem_nil
      · exact ih h
    · rw [if_neg (mt beq_iff_eq.mp hc)] at h
      obtain ⟨first, others, heq⟩ :=
        List.exists_cons_of_ne_nil (List.splitOn_ne_nil delimiter source)
      rw [heq] at h ih
      rcases List.mem_cons.mp h with rfl | h
      · rintro hmem
        rcases List.mem_cons.mp hmem with rfl | hmem
        · exact hc rfl
        · exact ih List.mem_cons_self hmem
      · exact ih (List.mem_cons_of_mem _ h)

theorem substr_append (s t u : List Char) {pos n : ℕ} (hpos : pos = s.length) (hn : n = t.length) :
    substr (s ++ (t ++ u)) pos n = some t := by
  subst hpos hn
  rw [substr, if_pos (by simp), List.drop_left, List.take_left]

/-- **The loop, inside of a field**, whose start it shares with the piece of the string. -/
theorem fieldsLoop_eq {keeps : ℕ → ℕ → Bool} {counts : List Char → Bool}
    (hkeeps : ∀ last field, keeps (last + field.length) last = counts field)
    {before field rest : List Char} {i last : ℕ} (hlast : last = before.length)
    (hi : i = last + field.length) (hfield : delimiter ∉ field) (fields : List (List Char)) :
    fieldsLoop keeps (before ++ (field ++ rest)) delimiter i last fields =
      some (fields ++ ((field ++ rest).splitOn delimiter).filter counts) := by
  induction rest generalizing before field i last fields with
  | nil =>
    have hlen : (before ++ (field ++ [])).length = last + field.length := by simp [hlast]
    rw [fieldsLoop, if_neg (by omega), hlen, hkeeps,
      substr_append before field [] hlast (by omega), List.append_nil,
      List.splitOn_eq_singleton hfield, List.filter_cons, List.filter_nil]
    cases counts field <;> simp
  | cons c rest ih =>
    have hlt : i < (before ++ (field ++ c :: rest)).length := by
      simp only [List.length_append, List.length_cons]
      omega
    have hc : (before ++ (field ++ c :: rest))[i]? = some c := by
      rw [← List.append_assoc, List.getElem?_append_right (by simp; omega)]
      simp [hi, hlast]
    rw [fieldsLoop, if_pos hlt, hc, Option.bind_eq_bind, Option.bind_some]
    by_cases hd : c = delimiter
    · subst hd
      have hnext : before ++ (field ++ c :: rest) = (before ++ (field ++ [c])) ++ ([] ++ rest) := by
        simp
      have hpos : i + 1 = (before ++ (field ++ [c])).length := by
        simp only [List.length_append, List.length_singleton]
        omega
      have hstart : ∀ fields', fieldsLoop keeps (before ++ (field ++ [c]) ++ ([] ++ rest)) c (i + 1)
          (i + 1) fields' = some (fields' ++ (rest.splitOn c).filter counts) :=
        ih hpos rfl List.not_mem_nil
      rw [if_pos rfl, List.splitOn_append_cons_self_of_not_mem hfield, List.filter_cons, hi, hkeeps,
        ← hi, substr_append before field _ hlast (by omega), Option.bind_eq_bind,
        Option.bind_some, hnext, hstart, hstart]
      cases counts field <;> simp
    · have hnext : before ++ (field ++ c :: rest) = before ++ ((field ++ [c]) ++ rest) := by simp
      rw [if_neg hd, hnext, ih hlast (by simp [hi, Nat.add_assoc]) (by simp [hfield, Ne.symm hd])]
      simp

theorem tokenize_eq (source : List Char) (delimiter : Char) :
    tokenize source delimiter = some ((source.splitOn delimiter).filter (· ≠ [])) := by
  have hkeeps : ∀ (last : ℕ) (field : List Char),
      decide (last + field.length ≠ last) = decide (field ≠ []) := by
    intro last field
    simp
  have hnil : ([] : List Char).length = 0 := rfl
  exact fieldsLoop_eq hkeeps hnil.symm rfl List.not_mem_nil []

theorem split_eq (source : List Char) (delimiter : Char) :
    split source delimiter = some (source.splitOn delimiter) := by
  have hnil : ([] : List Char).length = 0 := rfl
  have hsplit : split source delimiter =
      some ([] ++ (source.splitOn delimiter).filter fun _ => true) :=
    fieldsLoop_eq (fun _ _ => rfl) hnil.symm rfl List.not_mem_nil []
  rwa [List.filter_eq_self.mpr fun _ _ => rfl] at hsplit

/-! ## The first piece -/

theorem skipDelimiters_eq {before : List Char} {pos k : ℕ} (hpos : pos = before.length)
    (hrest : rest.head? ≠ some delimiter) :
    skipDelimiters (before ++ (List.replicate k delimiter ++ rest)) delimiter pos = pos + k := by
  induction k generalizing before pos with
  | zero =>
    rw [skipDelimiters, if_neg]
    · rfl
    · rintro ⟨-, h⟩
      rw [List.replicate_zero, List.nil_append, List.getElem?_append_right (by omega), hpos,
        Nat.sub_self, ← List.head?_eq_getElem?] at h
      exact hrest h
  | succ k ih =>
    have hhead : before ++ (List.replicate (k + 1) delimiter ++ rest) =
        (before ++ [delimiter]) ++ (List.replicate k delimiter ++ rest) := by
      simp [List.replicate_succ]
    have hlt : pos < (before ++ (List.replicate (k + 1) delimiter ++ rest)).length := by
      simp only [List.length_append, List.length_replicate]
      omega
    have hc : (before ++ (List.replicate (k + 1) delimiter ++ rest))[pos]? = some delimiter := by
      rw [List.getElem?_append_right (by omega), hpos, Nat.sub_self, List.replicate_succ]
      rfl
    rw [skipDelimiters, if_pos ⟨hlt, hc⟩, hhead, ih (by simp [hpos])]
    omega

/-- **The first piece**, in front of so many delimiters. -/
theorem tokenizeFirst_eq {k : ℕ} (htoken : delimiter ∉ token)
    (hrest : rest.head? ≠ some delimiter) :
    tokenizeFirst (token ++ (List.replicate (k + 1) delimiter ++ rest)) delimiter =
      some (some (token, rest)) := by
  have hsource : token ++ (List.replicate (k + 1) delimiter ++ rest) =
      (token ++ [delimiter]) ++ (List.replicate k delimiter ++ rest) := by
    simp [List.replicate_succ]
  have hfind : findChar delimiter (token ++ (List.replicate (k + 1) delimiter ++ rest)) 0 =
      some token.length := by
    have h := findChar_append htoken [] (List.replicate k delimiter ++ rest)
    rwa [List.length_nil, Nat.add_zero] at h
  have hskip : skipDelimiters (token ++ (List.replicate (k + 1) delimiter ++ rest)) delimiter
      (token.length + 1) = (token ++ List.replicate (k + 1) delimiter).length := by
    rw [hsource, skipDelimiters_eq (by simp) hrest, List.length_append, List.length_replicate]
    omega
  have htoken' : substr (token ++ (List.replicate (k + 1) delimiter ++ rest)) 0 token.length =
      some token := substr_append [] token _ rfl rfl
  have hrest' := substr_append (token ++ List.replicate (k + 1) delimiter) rest [] rfl
    (n := (token ++ (List.replicate (k + 1) delimiter ++ rest)).length -
      (token ++ List.replicate (k + 1) delimiter).length) (by simp; omega)
  rw [List.append_nil, List.append_assoc] at hrest'
  rw [tokenizeFirst, hfind]
  dsimp only
  rw [hskip, htoken', hrest']
  rfl

theorem tokenizeFirst_of_not_mem (h : delimiter ∉ source) :
    tokenizeFirst source delimiter = some none := by
  have hfind : findChar delimiter source 0 = none := findChar_eq_none h []
  rw [tokenizeFirst, hfind]

/-- A string with a delimiter, taken apart behind the first piece. -/
theorem exists_first_piece (h : delimiter ∈ source) :
    ∃ token k rest, source = token ++ (List.replicate (k + 1) delimiter ++ rest) ∧
      delimiter ∉ token ∧ rest.head? ≠ some delimiter := by
  obtain ⟨token, tail, rfl, htoken⟩ := List.eq_append_cons_of_mem h
  refine ⟨token, (tail.takeWhile (· = delimiter)).length, tail.dropWhile (· = delimiter), ?_,
    htoken, ?_⟩
  · have hrun : tail.takeWhile (· = delimiter) =
        List.replicate (tail.takeWhile (· = delimiter)).length delimiter := by
      refine List.eq_replicate_iff.mpr ⟨rfl, fun c hc => ?_⟩
      simpa using List.mem_takeWhile_imp hc
    rw [List.replicate_succ, List.cons_append, ← hrun, List.takeWhile_append_dropWhile]
  · intro hhead
    have hnot := List.head?_dropWhile_not (· = delimiter) tail
    rw [hhead] at hnot
    simp at hnot

/-- The pieces behind the first, without those between delimiters. -/
theorem filter_splitOn_replicate (k : ℕ) (rest : List Char) (delimiter : Char) :
    ((List.replicate k delimiter ++ rest).splitOn delimiter).filter (· ≠ []) =
      (rest.splitOn delimiter).filter (· ≠ []) := by
  induction k with
  | zero => rfl
  | succ k ih =>
    rw [List.replicate_succ, List.cons_append, List.splitOn_cons_eq_if_modifyHead,
      if_pos (beq_self_eq_true _), List.filter_cons, if_neg (by simp), ih]

/-- **Fields of a string**: the pieces, those that are not empty, and the first of them with what is
left behind it. -/
theorem fields_agree (source : List Char) (delimiter : Char) :
    ∃ pieces, split source delimiter = some pieces ∧
      [delimiter].intercalate pieces = source ∧ (∀ piece ∈ pieces, delimiter ∉ piece) ∧
      tokenize source delimiter = some (pieces.filter (· ≠ [])) ∧
      ∃ first, tokenizeFirst source delimiter = some first ∧
        (first = none ↔ delimiter ∉ source) ∧
        ∀ token rest, first = some (token, rest) →
          pieces.head? = some token ∧
          (∃ k, source = token ++ (List.replicate (k + 1) delimiter ++ rest)) ∧
          rest.head? ≠ some delimiter ∧
          ∃ tokens, tokenize rest delimiter = some tokens ∧
            tokenize source delimiter = some (if token = [] then tokens else token :: tokens) := by
  refine ⟨_, split_eq .., List.intercalate_splitOn .., fun _ => not_mem_of_mem_splitOn,
    tokenize_eq .., ?_⟩
  by_cases hmem : delimiter ∈ source
  · obtain ⟨token, k, rest, rfl, htoken, hrest⟩ := exists_first_piece hmem
    refine ⟨_, tokenizeFirst_eq htoken hrest, iff_of_false nofun (not_not.mpr hmem), ?_⟩
    rintro token' rest' heq
    cases heq
    have hsplit : (token ++ (List.replicate (k + 1) delimiter ++ rest)).splitOn delimiter =
        token :: (List.replicate k delimiter ++ rest).splitOn delimiter := by
      rw [List.replicate_succ, List.cons_append, List.splitOn_append_cons_self_of_not_mem htoken]
    refine ⟨by rw [hsplit]; rfl, ⟨k, rfl⟩, hrest, _, tokenize_eq .., ?_⟩
    rw [tokenize_eq, hsplit, List.filter_cons, filter_splitOn_replicate]
    by_cases hempty : token = [] <;> simp [hempty]
  · exact ⟨none, tokenizeFirst_of_not_mem hmem, iff_of_true rfl hmem, nofun⟩

end StringEncode

end TQLib
