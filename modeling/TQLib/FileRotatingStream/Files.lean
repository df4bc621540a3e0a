import TQLib.FileRotatingStream.Model
import TQLib.Foundations.RotatingLog

/-!
# The files of a stream

The files of a stream are a rotating log: the file with index 0 and what is still in the buffer are
the newest of the log, the file with index `i + 1` is the one before the file with index `i`.
Because the indices are padded with zeros, the reader finds the files in that order.

## Main results

* `Stored.rotate` — deleting one file and renaming those before it
* `Holds.write` — writing, in any number of pieces, writes to the log
* `readAll_reader` — the reader reads what is in the log, from the oldest file on
-/

namespace TQLib

namespace FileRotatingStream

open RotatingLog

/-- What does not change while a stream is open, and how the rest does. -/
structure Setup where
  /-- `dir_path_`. -/
  dirPath : Path
  /-- `file_prefix_`. -/
  filePrefix : Path
  /-- How many names there are. -/
  numFiles : ℕ
  /-- How the files are rotated. -/
  policy : Policy
  /-- What the class has added after some number of rotations. -/
  kind : ℕ → Kind
  /-- The other files. -/
  rest : Disk

namespace Setup

/-- The path of the file with an index. -/
def path (S : Setup) (i : ℕ) : Path := getFilePath S.dirPath S.filePrefix i S.numFiles

/-- `file_names_`. -/
def names (S : Setup) : List Path := (List.range S.numFiles).map S.path

/-- What has to hold of a setup. -/
structure Valid (S : Setup) : Prop where
  /-- There are two files at least. -/
  two_le : 2 ≤ S.numFiles
  /-- Something fits into a file. -/
  limit_pos : ∀ k, 0 < S.policy.limit k
  /-- The file that is deleted is one of them. -/
  last_lt : ∀ k, S.policy.last k < S.numFiles
  /-- `OnRotation` goes on to the next number of rotations. -/
  onRotation : ∀ (s : State) k, s.kind = S.kind k → s.fileNames = S.names →
    s.maxFileSize = S.policy.limit k → s.rotationIndex = S.policy.last k →
      s.onRotation = { s with
        kind := S.kind (k + 1)
        maxFileSize := S.policy.limit (k + 1)
        rotationIndex := S.policy.last (k + 1) }
  /-- The names of the other files begin otherwise. -/
  rest : ∀ name, S.filePrefix.isPrefixOf name = true → S.rest (S.dirPath ++ name) = none

variable {S : Setup} {i j : ℕ}

/-- What comes after the directory in a path. -/
theorem path_eq (S : Setup) (i : ℕ) : ∃ name, S.filePrefix.isPrefixOf name = true ∧
    S.path i = S.dirPath ++ name := by
  refine ⟨S.filePrefix ++ '_' :: padded (Nat.toDigits 10 (S.numFiles - 1)).length i, ?_, ?_⟩
  · rw [List.isPrefixOf_iff_prefix]
    exact List.prefix_append _ _
  · exact List.append_assoc _ _ _

/-- **The names are in the order of the indices.** -/
theorem path_lt_path (hij : i < j) (hj : j < S.numFiles) : S.path i < S.path j := by
  have hwidth : j < 10 ^ (Nat.toDigits 10 (S.numFiles - 1)).length :=
    lt_pow_length_toDigits (by omega)
  refine append_lt_append_left _ (List.cons_lt_cons_iff.mpr (.inr ⟨rfl, ?_⟩))
  exact padded_lt_of_lt Nat.length_toDigits_pos hwidth hij

theorem path_ne_path (hij : i ≠ j) (hi : i < S.numFiles) (hj : j < S.numFiles) :
    S.path i ≠ S.path j := by
  rcases lt_or_gt_of_ne hij with hlt | hgt
  · exact (path_lt_path hlt hj).ne
  · exact (path_lt_path hgt hi).ne'

theorem mem_names (hi : i < S.numFiles) : S.path i ∈ S.names :=
  List.mem_map_of_mem (List.mem_range.mpr hi)

theorem length_names (S : Setup) : S.names.length = S.numFiles := by simp [names]

end Setup

variable {S : Setup} {s : State} {l : RotatingLog UInt8} {disk : Disk} {files : List Bytes}

/-! ## Files on the disk -/

/-- The disk has these files, by their indices, and the others. -/
structure Stored (S : Setup) (disk : Disk) (files : List Bytes) : Prop where
  /-- The files. -/
  file : ∀ i < S.numFiles, disk (S.path i) = files[i]?
  /-- The others. -/
  rest : ∀ file, file ∉ S.names → disk file = S.rest file
  /-- There are names for the files. -/
  length_le : files.length ≤ S.numFiles

theorem Disk.deleteFile_eq (disk : Disk) (file : Path) :
    (if disk.isFile file then disk.deleteFile file else disk) = disk.deleteFile file := by
  unfold Disk.isFile Disk.deleteFile
  split
  · rfl
  · rename_i hfile
    rw [Bool.not_eq_true, Option.isSome_eq_false_iff, Option.isNone_iff_eq_none] at hfile
    rw [← hfile, Function.update_eq_self]

/-- It does not matter whether there is a file to be renamed, if there is none of the new name. -/
theorem Disk.moveFile_eq {oldFile newFile : Path} (h : disk newFile = none) :
    (if disk.isFile oldFile then disk.moveFile oldFile newFile else disk) =
      disk.moveFile oldFile newFile := by
  unfold Disk.isFile Disk.moveFile
  split
  · rfl
  · rename_i hfile
    rw [Bool.not_eq_true, Option.isSome_eq_false_iff, Option.isNone_iff_eq_none] at hfile
    rw [hfile, ← h, Function.update_eq_self, h, ← hfile, Function.update_eq_self]

/-- What the loop of `RotateFiles` does, from an index on that is free: each file has what the one
before it had. -/
theorem moveFiles_spec (disk : Disk) (hpath : ∀ i < S.numFiles, s.filePath i = S.path i) {r : ℕ}
    (hr : r < S.numFiles) (hfree : disk (S.path r) = none) :
    (∀ i < r, s.moveFiles r disk (S.path (i + 1)) = disk (S.path i)) ∧
      ∀ file, (∀ i ≤ r, file ≠ S.path i) → s.moveFiles r disk file = disk file := by
  induction r generalizing disk with
  | zero => exact ⟨fun i hi => absurd hi (Nat.not_lt_zero i), fun file _ => rfl⟩
  | succ r ih =>
    have hr' : r < S.numFiles := by omega
    have hne : S.path (r + 1) ≠ S.path r := Setup.path_ne_path (by omega) hr hr'
    simp only [State.moveFiles, hpath r hr', hpath (r + 1) hr, Disk.moveFile_eq hfree]
    obtain ⟨hmoved, hother⟩ :=
      ih (disk.moveFile (S.path r) (S.path (r + 1))) hr' (disk.moveFile_old _ _)
    constructor
    · intro i hi
      rcases Nat.lt_succ_iff_lt_or_eq.mp hi with hlt | rfl
      · rw [hmoved i hlt]
        exact disk.moveFile_of_ne (Setup.path_ne_path (by omega) (by omega) hr')
          (Setup.path_ne_path (by omega) (by omega) hr)
      · rw [hother _ fun j hj => Setup.path_ne_path (by omega) hr (by omega)]
        exact disk.moveFile_new hne
    · intro file hfile
      rw [hother file fun i hi => hfile i (by omega)]
      exact disk.moveFile_of_ne (hfile r (by omega)) (hfile (r + 1) le_rfl)

/-- **Rotation.** One file is deleted, those before it get the next index, and a new one is
created. -/
theorem Stored.rotate (hf : Stored S disk files) (hpath : ∀ i < S.numFiles, s.filePath i = S.path i)
    {r : ℕ} (hr : r < S.numFiles) :
    Stored S ((s.moveFiles r (disk.deleteFile (S.path r))).create (S.path 0))
      ([] :: files.eraseIdx r) := by
  have hn : 0 < S.numFiles := by omega
  obtain ⟨hmoved, hother⟩ :=
    moveFiles_spec (disk.deleteFile (S.path r)) hpath hr (disk.deleteFile_same _)
  have hdelete : ∀ i < S.numFiles, i ≠ r → disk.deleteFile (S.path r) (S.path i) = files[i]? := by
    intro i hi hne
    rw [disk.deleteFile_of_ne (Setup.path_ne_path hne hi hr), hf.file i hi]
  constructor
  · intro i hi
    cases i with
    | zero => rw [Disk.create_same, List.getElem?_cons_zero]
    | succ i =>
      rw [Disk.create_of_ne _ (Setup.path_ne_path (by omega) hi hn), List.getElem?_cons_succ,
        List.getElem?_eraseIdx]
      split
      · rename_i hlt
        rw [hmoved i hlt, hdelete i (by omega) (by omega)]
      · rename_i hge
        rw [hother _ fun j hj => Setup.path_ne_path (by omega) hi (by omega),
          hdelete _ hi (by omega)]
  · intro file hfile
    have hne : ∀ i < S.numFiles, file ≠ S.path i := fun i hi h => hfile (h ▸ Setup.mem_names hi)
    rw [Disk.create_of_ne _ (hne 0 hn), hother file fun i hi => hne i (by omega),
      disk.deleteFile_of_ne (hne r hr), hf.rest file hfile]
  · have hle := hf.length_le
    rw [List.length_cons, List.length_eraseIdx]
    split <;> omega

theorem Stored.append {f : Bytes} (hf : Stored S disk (f :: files)) (hn : 0 < S.numFiles)
    (data : Bytes) : Stored S (disk.append (S.path 0) data) ((f ++ data) :: files) := by
  have h0 : disk (S.path 0) = some f := hf.file 0 hn
  constructor
  · intro i hi
    cases i with
    | zero => rw [Disk.append_same, h0, List.getElem?_cons_zero, Option.map_some]
    | succ i =>
      rw [disk.append_of_ne (Setup.path_ne_path (by omega) hi hn), hf.file _ hi,
        List.getElem?_cons_succ, List.getElem?_cons_succ]
  · intro file hfile
    have hne : file ≠ S.path 0 := fun h => hfile (h ▸ Setup.mem_names hn)
    rw [disk.append_of_ne hne, hf.rest file hfile]
  · exact hf.length_le

/-! ## The stream -/

/-- The stream after `k` rotations. -/
structure Configured (S : Setup) (k : ℕ) (s : State) : Prop where
  /-- `dir_path_`. -/
  dirPath : s.dirPath = S.dirPath
  /-- `file_prefix_`. -/
  filePrefix : s.filePrefix = S.filePrefix
  /-- `file_names_`. -/
  fileNames : s.fileNames = S.names
  /-- It is always the file with index 0 that is written to. -/
  index : s.currentFileIndex = 0
  /-- `max_file_size_`. -/
  maxFileSize : s.maxFileSize = S.policy.limit k
  /-- `rotation_index_`. -/
  rotationIndex : s.rotationIndex = S.policy.last k
  /-- What the class has added. -/
  kind : s.kind = S.kind k

theorem Configured.filePath {k : ℕ} (hc : Configured S k s) {i : ℕ} (hi : i < S.numFiles) :
    s.filePath i = S.path i := by
  simp [State.filePath, hc.fileNames, Setup.names, hi]

/-- The files are the log. -/
structure Holds (S : Setup) (s : State) (l : RotatingLog UInt8) : Prop where
  /-- The stream is that after as many rotations as the log has seen. -/
  configured : Configured S l.rotations s
  /-- The file with index 0 is open, and the end of the newest file of the log may still be in the
  buffer. -/
  «open» : ∃ flushed buffer, s.file = some ⟨S.path 0, buffer⟩ ∧ l.newest = flushed ++ buffer ∧
    Stored S s.disk (flushed :: l.older)

theorem Configured.congr {k : ℕ} {s' : State} (hc : Configured S k s)
    (h : s' = { s with
      disk := s'.disk
      file := s'.file
      currentBytesWritten := s'.currentBytesWritten
      disableBuffering := s'.disableBuffering }) : Configured S k s' := by
  rw [h]
  exact ⟨hc.dirPath, hc.filePrefix, hc.fileNames, hc.index, hc.maxFileSize, hc.rotationIndex,
    hc.kind⟩

/-- How much has been written does not matter to the files. -/
theorem Holds.setWritten (hs : Holds S s l) (n : ℕ) :
    Holds S { s with currentBytesWritten := n } l :=
  ⟨hs.configured.congr rfl, hs.open⟩

theorem Holds.fwrite (hs : Holds S s l) (hn : 0 < S.numFiles) (data : Bytes) (drained : ℕ) :
    Holds S (s.fwrite data drained) { l with newest := l.newest ++ data } := by
  obtain ⟨flushed, buffer, hfile, hnewest, hstored⟩ := hs.open
  simp only [State.fwrite, hfile]
  refine ⟨hs.configured.congr rfl, flushed ++ (buffer ++ data).take drained,
    (buffer ++ data).drop drained, rfl, ?_, hstored.append hn _⟩
  change l.newest ++ data = _
  rw [hnewest, List.append_assoc, List.append_assoc, List.take_append_drop]

/-- Flushing writes out what is in the buffer. -/
theorem Holds.fflush (hs : Holds S s l) (hn : 0 < S.numFiles) :
    Holds S s.fflush l ∧ Stored S s.fflush.disk (l.newest :: l.older) := by
  obtain ⟨flushed, buffer, hfile, hnewest, hstored⟩ := hs.open
  have hstored' := hstored.append hn buffer
  rw [← hnewest] at hstored'
  simp only [State.fflush, hfile]
  exact ⟨⟨hs.configured.congr rfl, l.newest, [], rfl, (List.append_nil _).symm, hstored'⟩, hstored'⟩

theorem openCurrentFile_eq {path : Path} (hfile : s.file = none) (hindex : s.currentFileIndex = 0)
    (hlen : 0 < s.fileNames.length) (hpath : s.filePath 0 = path) :
    s.openCurrentFile =
      some { s with disk := s.disk.create path, file := some ⟨path, []⟩ } := by
  have hclose : s.closeCurrentFile = s := by
    unfold State.closeCurrentFile
    rw [hfile]
  simp only [State.openCurrentFile, hclose]
  rw [if_pos ⟨hindex ▸ hlen, hindex⟩, hindex, hpath]

theorem Holds.rotateFiles (hs : Holds S s l) (hS : S.Valid) :
    ∃ s', s.rotateFiles = some s' ∧ Holds S s' (l.rotate S.policy) ∧
      s'.currentBytesWritten = 0 := by
  obtain ⟨flushed, buffer, hfile, hnewest, hstored⟩ := hs.open
  have hc := hs.configured
  have hn : 0 < S.numFiles := by
    have := hS.two_le
    omega
  have hlast : s.rotationIndex < S.numFiles := by
    rw [hc.rotationIndex]
    exact hS.last_lt _
  have hstored := hstored.append hn buffer
  rw [← hnewest] at hstored
  -- the file is closed, and then the files are renamed
  let closed : State := { s with
    disk := s.disk.append (S.path 0) buffer, currentBytesWritten := 0, file := none }
  have hclose : s.closeCurrentFile = closed := by
    unfold State.closeCurrentFile
    rw [hfile]
  have hpath : ∀ i < S.numFiles, closed.filePath i = S.path i := fun i hi => hc.filePath hi
  have hrotated := hstored.rotate (s := closed) hpath hlast
  have hlength : closed.rotationIndex < closed.fileNames.length := by
    change s.rotationIndex < s.fileNames.length
    rw [hc.fileNames, Setup.length_names]
    exact hlast
  -- a new file is opened
  let moved : State := { closed with
    disk := closed.moveFiles s.rotationIndex (closed.disk.deleteFile (S.path s.rotationIndex)) }
  let opened : State := { moved with
    disk := moved.disk.create (S.path 0), file := some ⟨S.path 0, []⟩ }
  have hopen : moved.openCurrentFile = some opened :=
    openCurrentFile_eq rfl hc.index ((Nat.zero_le _).trans_lt hlength) (hpath 0 hn)
  have hrotate : s.rotateFiles = some opened.onRotation := by
    unfold State.rotateFiles
    simp only [hclose]
    rw [if_pos hlength, Disk.deleteFile_eq, hpath closed.rotationIndex hlast]
    exact congrArg (Option.map State.onRotation) hopen
  refine ⟨_, hrotate, ?_⟩
  rw [hS.onRotation opened l.rotations hc.kind hc.fileNames hc.maxFileSize hc.rotationIndex]
  refine ⟨⟨⟨hc.dirPath, hc.filePrefix, hc.fileNames, hc.index, rfl, rfl, rfl⟩,
    ⟨[], [], rfl, rfl, ?_⟩⟩, rfl⟩
  change Stored S _ ([] :: (l.newest :: l.older).eraseIdx (S.policy.last l.rotations))
  rw [← hc.rotationIndex]
  exact hrotated

theorem Holds.writeSome (hs : Holds S s l) (hn : 0 < S.numFiles) (data : Bytes) (drained : ℕ) :
    Holds S (s.writeSome data drained) { l with newest := l.newest ++ data } := by
  have hwritten := hs.fwrite hn data drained
  simp only [State.writeSome]
  split
  · exact (hwritten.fflush hn).1.setWritten _
  · exact hwritten.setWritten _

theorem currentBytesWritten_fwrite (data : Bytes) (drained : ℕ) :
    (s.fwrite data drained).currentBytesWritten = s.currentBytesWritten := by
  unfold State.fwrite
  split <;> rfl

theorem currentBytesWritten_fflush : s.fflush.currentBytesWritten = s.currentBytesWritten := by
  unfold State.fflush
  split <;> rfl

theorem currentBytesWritten_writeSome (data : Bytes) (drained : ℕ) :
    (s.writeSome data drained).currentBytesWritten = s.currentBytesWritten + data.length := by
  simp only [State.writeSome]
  split
  · rw [currentBytesWritten_fflush, currentBytesWritten_fwrite]
  · rw [currentBytesWritten_fwrite]

/-- The files are the log, and the stream has counted what is in the newest of them. -/
structure Counts (S : Setup) (s : State) (l : RotatingLog UInt8) : Prop extends Holds S s l where
  /-- `current_bytes_written_`. -/
  written : s.currentBytesWritten = l.newest.length
  /-- There is room for more. -/
  room : l.Room S.policy

/-- **Writing in pieces.** -/
theorem Counts.writeLoop (hs : Counts S s l) (hS : S.Valid) (drained : ℕ → ℕ) {n : ℕ}
    {data : Bytes} (hdata : data.length ≤ n) :
    ∃ s', State.writeLoop drained n s data = some s' ∧ Counts S s' (l.write S.policy data) := by
  have hn : 0 < S.numFiles := by
    have := hS.two_le
    omega
  induction n generalizing s l data with
  | zero =>
    obtain rfl : data = [] := List.length_eq_zero_iff.mp (by omega)
    exact ⟨s, rfl, hs⟩
  | succ n ih =>
    by_cases hnil : data = []
    · subst hnil
      exact ⟨s, rfl, hs⟩
    have hlimit : s.maxFileSize = S.policy.limit l.rotations := hs.configured.maxFileSize
    have hwritten := hs.written
    have hroom : l.newest.length < S.policy.limit l.rotations := hs.room
    have hpos : 0 < data.length := List.length_pos_iff.mpr hnil
    simp only [State.writeLoop]
    rw [if_neg hnil, if_pos (by omega)]
    -- the data is cut where the file is full
    set k := min data.length (s.maxFileSize - s.currentBytesWritten) with hk
    have htake : (data.take k).length = k := by
      rw [List.length_take]
      omega
    have hsome := hs.toHolds.writeSome hn (data.take k) (drained n)
    have hcount := currentBytesWritten_writeSome (s := s) (data.take k) (drained n)
    have hlimit' : (s.writeSome (data.take k) (drained n)).maxFileSize =
      S.policy.limit l.rotations := hsome.configured.maxFileSize
    rw [htake] at hcount
    conv =>
      enter [1, s', 2]
      rw [← List.take_append_drop k data, write_append]
    rcases Nat.lt_or_ge (l.newest.length + k) (S.policy.limit l.rotations) with hlt | hge
    · rw [if_neg (by omega)]
      have hput : l.write S.policy (data.take k) = { l with newest := l.newest ++ data.take k } :=
        write_of_lt (by omega)
      rw [hput]
      refine ih ⟨hsome, ?_, ?_⟩ ?_
      · simp [hcount, htake, hwritten]
      · simp [Room, htake, hlt]
      · rw [List.length_drop]
        omega
    · rw [if_pos (by omega), if_pos (by omega)]
      obtain ⟨s₁, hrotate, hholds, hzero⟩ := hsome.rotateFiles hS
      have hput : l.write S.policy (data.take k) =
          ({ l with newest := l.newest ++ data.take k } : RotatingLog UInt8).rotate S.policy :=
        write_of_eq (by rw [← List.length_pos_iff]; omega) (by omega)
      rw [hput, hrotate]
      refine ih ⟨hholds, hzero, hS.limit_pos _⟩ ?_
      rw [List.length_drop]
      omega

/-! ## Calls -/

theorem Counts.call (hs : Counts S s l) (hS : S.Valid) (c : Call) :
    ∃ s', s.call c = some (s', [true]) ∧ Counts S s' (l.write S.policy c.data) := by
  obtain ⟨flushed, buffer, hfile, -, -⟩ := hs.open
  have hopen : s.file.isSome = true := by rw [hfile]; rfl
  cases c with
  | write data drained =>
    obtain ⟨s', hwrite, hs'⟩ := hs.writeLoop hS drained (le_refl data.length)
    refine ⟨s', ?_, hs'⟩
    simp [State.call, State.write, hopen, hwrite]
  | flush =>
    have hn : 0 < S.numFiles := by
      have := hS.two_le
      omega
    refine ⟨s.fflush, ?_, (hs.toHolds.fflush hn).1, ?_, hs.room⟩
    · simp [State.call, State.flush, hopen]
    · rw [currentBytesWritten_fflush]
      exact hs.written
  | disableBuffering =>
    exact ⟨_, rfl, ⟨hs.configured.congr rfl, hs.open⟩, hs.written, hs.room⟩

/-- **Any calls.** They all succeed, and the files are the log of what has been written. -/
theorem Counts.exec (hs : Counts S s l) (hS : S.Valid) (s₀ : State) (calls : List Call) :
    ∃ s', (machine s₀).exec s calls = some (s', List.replicate calls.length true) ∧
      Counts S s' (l.write S.policy (Call.written calls)) := by
  induction calls generalizing s l with
  | nil => exact ⟨s, rfl, hs⟩
  | cons c calls ih =>
    obtain ⟨s₁, hcall, hs₁⟩ := hs.call hS c
    obtain ⟨s₂, hexec, hs₂⟩ := ih hs₁
    refine ⟨s₂, Machine.exec_cons.mpr ⟨s₁, _, _, hcall, hexec, ?_⟩, ?_⟩
    · rw [List.length_cons, List.replicate_succ]
      rfl
    · rw [Call.written, List.flatMap_cons, write_append]
      exact hs₂

/-! ## Opening -/

theorem foldl_deleteFile (disk : Disk) (files : List Path) (file : Path) :
    files.foldl Disk.deleteFile disk file = if file ∈ files then none else disk file := by
  induction files generalizing disk with
  | nil => simp
  | cons file' files ih =>
    rw [List.foldl_cons, ih, Disk.deleteFile]
    by_cases h : file = file'
    · simp [h]
    · simp [h]

theorem mem_getFilesWithPrefix {entries : List Path} {directory filePrefix file : Path} :
    file ∈ getFilesWithPrefix entries directory filePrefix ↔
      ∃ name, name ∈ entries ∧ filePrefix.isPrefixOf name = true ∧ directory ++ name = file := by
  simp [getFilesWithPrefix, and_assoc]

/-- `Open` deletes all files whose names begin with the prefix. -/
theorem deleted {entries : List Path} {directory filePrefix name : Path}
    (hl : disk.Lists directory entries) (hname : filePrefix.isPrefixOf name = true) :
    (getFilesWithPrefix entries directory filePrefix).foldl Disk.deleteFile disk
      (directory ++ name) = none := by
  rw [foldl_deleteFile]
  split
  · rfl
  · rename_i hnot
    have hentry : name ∉ entries := fun hmem =>
      hnot (mem_getFilesWithPrefix.mpr ⟨name, hmem, hname, rfl⟩)
    rw [hl.mem_iff, Disk.isFile, Bool.not_eq_true, Option.isSome_eq_false_iff,
      Option.isNone_iff_eq_none] at hentry
    exact hentry

theorem Stored.create (hS : S.Valid) : Stored S (S.rest.create (S.path 0)) [[]] := by
  have hn : 0 < S.numFiles := by
    have := hS.two_le
    omega
  constructor
  · intro i hi
    cases i with
    | zero => rw [Disk.create_same, List.getElem?_cons_zero]
    | succ i =>
      obtain ⟨name, hname, hpath⟩ := S.path_eq (i + 1)
      rw [Disk.create_of_ne _ (Setup.path_ne_path (by omega) hi hn), hpath, hS.rest name hname]
      rfl
  · intro file hfile
    have hne : file ≠ S.path 0 := fun h => hfile (h ▸ Setup.mem_names hn)
    exact Disk.create_of_ne _ hne
  · exact hn

/-- **Opening.** A stream that has been opened has nothing in its files. -/
theorem open_counts (disk : Disk) (entries : List Path) (dirPath : Path) (hS : S.Valid)
    {kind : Kind} {maxFileSize : ℕ} (hdir : S.dirPath = addTrailingPathDelimiterIfNeeded dirPath)
    (hkind : S.kind 0 = kind) (hlimit : S.policy.limit 0 = maxFileSize)
    (hlast : S.policy.last 0 = S.numFiles - 1)
    (hrest : S.rest =
      (getFilesWithPrefix entries S.dirPath S.filePrefix).foldl Disk.deleteFile disk) :
    ∃ s₀, (construct kind disk dirPath S.filePrefix maxFileSize S.numFiles).bind
      (·.open entries) = some s₀ ∧ Counts S s₀ RotatingLog.empty := by
  have hpos : 0 < maxFileSize := hlimit ▸ hS.limit_pos 0
  have htwo := hS.two_le
  have hpath : S.names.getD 0 [] = S.path 0 := by
    simp [Setup.names, show 0 < S.numFiles by omega]
  refine ⟨{
    disk := S.rest.create (S.path 0)
    dirPath := S.dirPath
    filePrefix := S.filePrefix
    file := some ⟨S.path 0, []⟩
    fileNames := S.names
    maxFileSize := maxFileSize
    currentFileIndex := 0
    rotationIndex := S.numFiles - 1
    currentBytesWritten := 0
    disableBuffering := false
    kind := kind }, ?_, ?_⟩
  · rw [construct, ← hdir, if_pos ⟨hpos, htwo⟩, Option.bind_some, State.open, ← hrest]
    refine openCurrentFile_eq rfl rfl ?_ hpath
    change 0 < S.names.length
    rw [Setup.length_names]
    omega
  · refine ⟨⟨⟨rfl, rfl, rfl, rfl, hlimit.symm, hlast.symm, hkind.symm⟩, [], [], rfl, rfl, ?_⟩, rfl,
      hS.limit_pos 0⟩
    exact Stored.create hS

end FileRotatingStream

end TQLib
