import Mathlib.Data.List.Basic
import Mathlib.Data.List.Infix

/-!
# A log in several files

A log is kept in files. Data goes to the end of the newest of them; when that is full the files are
rotated: one of them is deleted and a new one is begun. How large a file may become, and which one
is deleted, depends on how often they have been rotated before.

Where the oldest files are kept for good from some rotation on, the others are a window onto the end
of what has been written since.

## Main results

* `write_of_lt`, `write_of_eq` — what is written up to the end of a file in one go
* `Tail.write` — the window
* `Tail.length_le`, `Tail.le_length` — how large it is
* `write_empty` — where one file is kept, it holds the beginning
* `files_write_after_iff` — when a log that is begun after some rotations is like a new one
-/

namespace TQLib

/-- A log in files. -/
structure RotatingLog (β : Type*) where
  /-- The file that is written to. -/
  newest : List β
  /-- The others, the newest of them first. -/
  older : List (List β)
  /-- How often they have been rotated. -/
  rotations : ℕ

namespace RotatingLog

/-- How a log is rotated, by the number of rotations before. -/
structure Policy where
  /-- How much a file takes. -/
  limit : ℕ → ℕ
  /-- Which file is deleted. -/
  last : ℕ → ℕ

variable {β : Type*} {P : Policy} {l : RotatingLog β}

/-- The log before anything has been written. -/
def empty : RotatingLog β := ⟨[], [], 0⟩

/-- Begin a new file. -/
def rotate (P : Policy) (l : RotatingLog β) : RotatingLog β :=
  ⟨[], (l.newest :: l.older).eraseIdx (P.last l.rotations), l.rotations + 1⟩

/-- Write one byte. -/
def put (P : Policy) (l : RotatingLog β) (b : β) : RotatingLog β :=
  if l.newest.length + 1 < P.limit l.rotations then { l with newest := l.newest ++ [b] }
  else { l with newest := l.newest ++ [b] }.rotate P

/-- Write data. -/
def write (P : Policy) (l : RotatingLog β) (data : List β) : RotatingLog β := data.foldl (put P) l

/-- All that is in the files, from the oldest on. -/
def chronicle (l : RotatingLog β) : List β := l.older.reverse.flatten ++ l.newest

@[simp] theorem write_nil : l.write P [] = l := rfl

theorem write_append (data data' : List β) :
    l.write P (data ++ data') = (l.write P data).write P data' := List.foldl_append

/-- What leaves room in the file is written to its end. -/
theorem write_of_lt {data : List β}
    (h : l.newest.length + data.length < P.limit l.rotations) :
    l.write P data = { l with newest := l.newest ++ data } := by
  induction data generalizing l with
  | nil => simp
  | cons b data ih =>
    rw [List.length_cons] at h
    change (l.put P b).write P data = _
    have hput : l.put P b = { l with newest := l.newest ++ [b] } := if_pos (by omega)
    rw [hput, ih (by simp; omega), List.append_assoc]
    rfl

theorem write_empty_of_lt {data : List β} (h : data.length < P.limit 0) :
    empty.write P data = ⟨data, [], 0⟩ :=
  write_of_lt (l := empty) (by simpa [empty] using h)

/-- What fills the file is written to its end, and then the files are rotated. -/
theorem write_of_eq {data : List β} (hdata : data ≠ [])
    (h : l.newest.length + data.length = P.limit l.rotations) :
    l.write P data = { l with newest := l.newest ++ data }.rotate P := by
  obtain ⟨data, b, rfl⟩ := (List.eq_nil_or_concat' data).resolve_left hdata
  rw [List.length_append, List.length_singleton] at h
  have hlt : l.newest.length + data.length < P.limit l.rotations := by omega
  rw [write_append, write_of_lt hlt]
  change RotatingLog.put P _ b = _
  rw [RotatingLog.put, if_neg (by simp; omega), List.append_assoc]

/-- There is room in the newest file. -/
def Room (P : Policy) (l : RotatingLog β) : Prop := l.newest.length < P.limit l.rotations

/-- There is room again after every byte. -/
theorem room_put (hP : ∀ k, 0 < P.limit k) (b : β) : (l.put P b).Room P := by
  unfold RotatingLog.put
  split
  · rename_i hlt
    simpa [Room] using hlt
  · exact hP _

theorem Room.write (hroom : l.Room P) (hP : ∀ k, 0 < P.limit k) (data : List β) :
    (l.write P data).Room P := by
  induction data generalizing l with
  | nil => exact hroom
  | cons b data ih => exact ih (room_put hP b)

theorem Room.older_put {L : ℕ} (hroom : l.Room P) (hL : ∀ k, P.limit k ≤ L)
    (hl : ∀ f ∈ l.older, f.length ≤ L) (b : β) : ∀ f ∈ (l.put P b).older, f.length ≤ L := by
  unfold RotatingLog.put
  split
  · exact hl
  · intro f hf
    rcases List.mem_cons.mp (List.mem_of_mem_eraseIdx hf) with rfl | hf
    · rw [List.length_append, List.length_singleton]
      exact le_trans hroom (hL _)
    · exact hl f hf

/-- No file becomes larger than files may become. -/
theorem Room.older_write {L : ℕ} (hroom : l.Room P) (hP : ∀ k, 0 < P.limit k)
    (hL : ∀ k, P.limit k ≤ L) (hl : ∀ f ∈ l.older, f.length ≤ L) (data : List β) :
    ∀ f ∈ (l.write P data).older, f.length ≤ L := by
  induction data generalizing l with
  | nil => exact hl
  | cons b data ih => exact ih (room_put hP b) (hroom.older_put hL hl b)

/-! ## A window onto the end -/

/-- After `m` rotations files take `L`, and the `m` oldest of them are not deleted any more: there
are `c` others, and that which is written to. -/
structure Policy.Pins (P : Policy) (m c L : ℕ) : Prop where
  /-- How much a file takes. -/
  limit : ∀ k, m ≤ k → P.limit k = L
  /-- Nothing is deleted before there are `c` of them, and then the oldest one. -/
  last : ∀ k, m ≤ k → P.last k = if k < m + c then m + c else c

/-- Since there have been the oldest files `pinned`, `w` has been written: the files in `window` and
the newest one hold the end of it. -/
structure Tail (pinned : List (List β)) (c L : ℕ) (w : List β) (l : RotatingLog β)
    (window : List (List β)) : Prop where
  /-- The other files. -/
  older : l.older = window ++ pinned
  /-- How often they have been rotated since. -/
  since : pinned.length ≤ l.rotations
  /-- How many there are. -/
  count : window.length = min (l.rotations - pinned.length) c
  /-- There is room in the newest. -/
  room : l.newest.length < L
  /-- There is none in the others. -/
  full : ∀ f ∈ window, f.length = L
  /-- They hold the end of what has been written. -/
  suffix : window.reverse.flatten ++ l.newest <:+ w
  /-- And all of it, as long as not all of them are there. -/
  all : window.length < c → window.reverse.flatten ++ l.newest = w

variable {pinned window : List (List β)} {c L : ℕ} {w : List β}

/-- The newest ones of some files hold the end of what all of them hold. -/
theorem flatten_take_suffix (files : List (List β)) (n : ℕ) :
    (files.take n).reverse.flatten <:+ files.reverse.flatten := by
  conv_rhs => rw [← List.take_append_drop n files]
  rw [List.reverse_append, List.flatten_append]
  exact List.suffix_append _ _

/-- What the last rotation has left. -/
theorem Tail.eraseIdx (ht : Tail pinned c L w l window) (hP : P.Pins pinned.length c L)
    (x : List β) :
    (x :: l.older).eraseIdx (P.last l.rotations) = (x :: window).take c ++ pinned := by
  have hcount := ht.count
  have hsince := ht.since
  rw [ht.older, hP.last _ hsince, ← List.cons_append]
  split
  · rename_i hlt
    rw [List.eraseIdx_of_length_le (by simp; omega), List.take_of_length_le (by simp; omega)]
  · rename_i hge
    have hc : window.length = c := by omega
    rw [List.eraseIdx_append_of_lt_length (by simp; omega),
      List.eraseIdx_eq_dropLast (by simp; omega), List.dropLast_eq_take]
    simp [hc]

theorem Tail.put (ht : Tail pinned c L w l window) (hP : P.Pins pinned.length c L) (b : β) :
    ∃ window', Tail pinned c L (w ++ [b]) (l.put P b) window' := by
  have hlimit := hP.limit _ ht.since
  unfold RotatingLog.put
  split
  · rename_i hroom
    refine ⟨window, ht.older, ht.since, ht.count, ?_, ht.full, ?_, fun hc => ?_⟩
    · simpa using hlimit ▸ hroom
    · obtain ⟨before, hbefore⟩ := ht.suffix
      exact ⟨before, by rw [← hbefore]; simp⟩
    · rw [← ht.all hc]
      simp
  · rename_i hfull
    have hroom := ht.room
    have hcount := ht.count
    have hsince := ht.since
    have hlen : (l.newest ++ [b]).length = L := by
      rw [List.length_append, List.length_singleton]
      omega
    -- the file that was written to is in the window now, and the oldest may have left it
    have hall : ((l.newest ++ [b]) :: window).reverse.flatten =
        window.reverse.flatten ++ l.newest ++ [b] := by simp
    refine ⟨((l.newest ++ [b]) :: window).take c, ht.eraseIdx hP _, ?_, ?_, ?_, ?_, ?_, ?_⟩
    · change _ ≤ l.rotations + 1
      omega
    · change _ = min (l.rotations + 1 - _) c
      rw [List.length_take, List.length_cons]
      omega
    · exact hlen ▸ (by simp : 0 < (l.newest ++ [b]).length)
    · intro f hf
      rcases List.mem_cons.mp (List.mem_of_mem_take hf) with rfl | hf
      · exact hlen
      · exact ht.full f hf
    · change _ ++ [] <:+ _
      rw [List.append_nil]
      refine (flatten_take_suffix _ c).trans ?_
      rw [hall]
      obtain ⟨before, hbefore⟩ := ht.suffix
      exact ⟨before, by rw [← hbefore]; simp⟩
    · intro hc
      rw [List.length_take, List.length_cons] at hc
      change _ ++ [] = _
      rw [List.append_nil, List.take_of_length_le (by simp; omega), hall, ht.all (by omega)]

/-- **The window.** Whatever is written, the files hold the end of it. -/
theorem Tail.write (ht : Tail pinned c L w l window) (hP : P.Pins pinned.length c L)
    (data : List β) : ∃ window', Tail pinned c L (w ++ data) (l.write P data) window' := by
  induction data generalizing l w window with
  | nil => exact ⟨window, by simpa using ht⟩
  | cons b data ih =>
    obtain ⟨window', ht'⟩ := ht.put hP b
    rw [List.append_cons]
    exact ih ht'

theorem length_flatten_of_full {files : List (List β)} (h : ∀ f ∈ files, f.length = L) :
    files.flatten.length = files.length * L := by
  rw [List.length_flatten, List.map_congr_left h]
  simp

/-- The window is bounded. -/
theorem Tail.length_le (ht : Tail pinned c L w l window) :
    (window.reverse.flatten ++ l.newest).length ≤ (c + 1) * L := by
  have hroom := ht.room
  have hwindow : window.length ≤ c := by
    rw [ht.count]
    exact min_le_right _ _
  rw [List.length_append, length_flatten_of_full fun f hf => ht.full f (List.mem_reverse.mp hf),
    List.length_reverse, Nat.succ_mul]
  have := Nat.mul_le_mul_right L hwindow
  omega

/-- And it holds all that has been written, or as much as fits into `c` files. -/
theorem Tail.le_length (ht : Tail pinned c L w l window) :
    min w.length (c * L) ≤ (window.reverse.flatten ++ l.newest).length := by
  by_cases hc : window.length < c
  · rw [ht.all hc]
    exact min_le_left _ _
  · have hcount : window.length = c := by
      have := ht.count
      omega
    refine (min_le_right _ _).trans ?_
    rw [List.length_append, length_flatten_of_full fun f hf => ht.full f (List.mem_reverse.mp hf),
      List.length_reverse, hcount]
    exact Nat.le_add_right _ _

/-- Where the first file is kept, it holds the beginning of what is written. -/
theorem write_empty (hP : P.Pins 1 c L) (hL : 0 < L) (hfirst : 0 < P.limit 0)
    (hlast : 0 < P.last 0) (w : List β) :
    (w.length < P.limit 0 → empty.write P w = ⟨w, [], 0⟩) ∧
      (P.limit 0 ≤ w.length → ∃ window,
        Tail [w.take (P.limit 0)] c L (w.drop (P.limit 0)) (empty.write P w) window) := by
  constructor
  · exact write_empty_of_lt
  · intro hge
    have hlen : (w.take (P.limit 0)).length = P.limit 0 := by
      rw [List.length_take]
      omega
    have hne : w.take (P.limit 0) ≠ [] := by
      rw [← List.length_pos_iff]
      omega
    -- the first rotation deletes nothing
    have hwrite : empty.write P (w.take (P.limit 0)) = ⟨[], [w.take (P.limit 0)], 1⟩ := by
      rw [write_of_eq hne (by simpa [empty] using hlen), rotate]
      simp [empty, Nat.one_le_iff_ne_zero, hlast.ne']
    conv =>
      enter [1, window, 5]
      rw [← List.take_append_drop (P.limit 0) w, write_append, hwrite]
    have ht : Tail [w.take (P.limit 0)] c L [] ⟨[], [w.take (P.limit 0)], 1⟩ [] := by
      constructor <;> simp [hL]
    simpa using ht.write hP (w.drop (P.limit 0))

/-! ## Beginning again -/

/-- How a log is rotated that is begun after `k` rotations. -/
def Policy.after (P : Policy) (k : ℕ) : Policy where
  limit j := P.limit (k + j)
  last j := P.last (k + j)

@[simp] theorem Policy.after_zero (P : Policy) : P.after 0 = P := by
  show Policy.mk (fun j => P.limit (0 + j)) (fun j => P.last (0 + j)) = P
  simp only [Nat.zero_add]

/-- The files of a log, the newest first. -/
def files (l : RotatingLog β) : List (List β) := l.newest :: l.older

/-- Whether a log has been rotated. -/
theorem rotations_write_empty (hP : P.Pins 1 c L) (hL : 0 < L) (hfirst : 0 < P.limit 0)
    (hlast : 0 < P.last 0) (w : List β) :
    (empty.write P w).rotations = 0 ↔ w.length < P.limit 0 := by
  obtain ⟨hlt, hge⟩ := write_empty hP hL hfirst hlast w
  constructor
  · intro hzero
    by_contra hnot
    obtain ⟨window, ht⟩ := hge (not_lt.mp hnot)
    have hsince := ht.since
    rw [hzero] at hsince
    exact absurd hsince (by simp)
  · intro h
    rw [hlt h]

/-- **Beginning again.** Where the first file takes more than the others, a log that is begun after
some rotations has the files of a new one only as long as the first of the smaller files is not
full. -/
theorem files_write_after_iff (hP : P.Pins 1 c L) (hL : 0 < L) (hfirst : L < P.limit 0)
    (hlast : 0 < P.last 0) (k : ℕ) (w : List β) :
    (empty.write (P.after k) w).files = (empty.write P w).files ↔ k = 0 ∨ w.length < L := by
  by_cases hk : k = 0
  · simp [hk]
  have hlimit : ∀ j, (P.after k).limit j = L := fun j => hP.limit (k + j) (by omega)
  have hpos : ∀ j, 0 < (P.after k).limit j := fun j => (hlimit j).symm ▸ hL
  have hnew := write_empty hP hL (hL.trans hfirst) hlast w
  constructor
  · intro hfiles
    by_contra hnot
    rw [not_or, not_lt] at hnot
    rw [files, files, List.cons.injEq] at hfiles
    have hempty : (empty : RotatingLog β).Room (P.after k) := hpos 0
    rcases Nat.lt_or_ge w.length (P.limit 0) with hlt | hge
    · -- the new log has all of it in its first file
      have hroom := hempty.write hpos w
      rw [Room, hlimit, hfiles.1, hnew.1 hlt] at hroom
      exact absurd hroom (not_lt.mpr hnot.2)
    · -- the new log has kept its first file, which is too large
      obtain ⟨window, ht⟩ := hnew.2 hge
      have hle := hempty.older_write hpos (fun j => (hlimit j).le) (by simp [empty]) w
        (w.take (P.limit 0)) (by rw [hfiles.2, ht.older]; simp)
      rw [List.length_take] at hle
      omega
  · rintro (hzero | hlt)
    · exact absurd hzero hk
    · rw [write_empty_of_lt (hlt.trans_eq (hlimit 0).symm), hnew.1 (hlt.trans hfirst)]

end RotatingLog

end TQLib
