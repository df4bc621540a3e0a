import TQLib.FileRotatingStream.CallSession

/-!
# Opening a stream again

`Close` closes the file, and `Open` deletes all of them and opens the first. How often the files
have been rotated, how large they may become and which one is deleted is kept from one to the other,
so the files of a `CallSessionFileRotatingStream` that has been rotated are all small ones.

## Main results

* `Configured.open` — opening a stream that has been rotated
* `reopen_iff` — when the files are those of a new stream
-/

namespace TQLib

namespace FileRotatingStream

open RotatingLog

/-- `Close`. -/
def State.close (s : State) : State := s.closeCurrentFile

/-- `Open`, and then some calls. -/
def State.session (s : State) (entries : List Path) (calls : List Call) : Option State :=
  (s.open entries).bind fun s => ((machine s).exec s calls).map Prod.fst

/-- How the files are rotated of a stream that is opened after `k` rotations. -/
def Setup.after (S : Setup) (k : ℕ) : Setup :=
  { S with policy := S.policy.after k, kind := fun j => S.kind (k + j) }

variable {S : Setup} {s : State} {l : RotatingLog UInt8} {disk : Disk} {files : List Bytes}
variable {entries : List Path} {dirPath : Path} {maxTotalLogSize k : ℕ} {w : Bytes}

theorem Setup.Valid.after (hS : S.Valid) (k : ℕ) : (S.after k).Valid where
  two_le := hS.two_le
  limit_pos j := hS.limit_pos (k + j)
  last_lt j := hS.last_lt (k + j)
  onRotation s j hkind hnames hlimit hlast := hS.onRotation s (k + j) hkind hnames hlimit hlast
  rest := hS.rest

theorem Configured.after (hc : Configured S k s) : Configured (S.after k) 0 s :=
  ⟨hc.dirPath, hc.filePrefix, hc.fileNames, hc.index, hc.maxFileSize, hc.rotationIndex, hc.kind⟩

/-- How the files are rotated does not matter to the disk. -/
theorem Stored.of_after (hf : Stored (S.after k) disk files) : Stored S disk files :=
  ⟨hf.file, hf.rest, hf.length_le⟩

/-- The files are all that is on the disk. -/
theorem Stored.eq_iff {disk' : Disk} {files' : List Bytes} (hf : Stored S disk files)
    (hf' : Stored S disk' files') : disk = disk' ↔ files = files' := by
  constructor
  · rintro rfl
    refine List.ext_getElem? fun i => ?_
    by_cases hi : i < S.numFiles
    · rw [← hf.file i hi, hf'.file i hi]
    · rw [List.getElem?_eq_none (hf.length_le.trans (not_lt.mp hi)),
        List.getElem?_eq_none (hf'.length_le.trans (not_lt.mp hi))]
  · rintro rfl
    funext file
    by_cases hfile : file ∈ S.names
    · obtain ⟨i, hi, rfl⟩ := List.mem_map.mp hfile
      have hi : i < S.numFiles := List.mem_range.mp hi
      rw [hf.file i hi, hf'.file i hi]
    · rw [hf.rest file hfile, hf'.rest file hfile]

/-- What `readdir` finds when there are no other files. -/
theorem Stored.lists (hf : Stored S disk files) (hrest : ∀ file, S.rest file = none)
    (name : ℕ → Path) (hname : ∀ i, S.path i = S.dirPath ++ name i) :
    disk.Lists S.dirPath ((List.range files.length).map name) := by
  have hfile : ∀ i < files.length, i < S.numFiles := fun i hi => hi.trans_le hf.length_le
  constructor
  · rw [List.Nodup, List.pairwise_map]
    refine List.nodup_range.imp_of_mem fun {i j} hi hj hij heq => ?_
    have hi := hfile i (List.mem_range.mp hi)
    have hj := hfile j (List.mem_range.mp hj)
    refine Setup.path_ne_path hij hi hj ?_
    rw [hname, hname, heq]
  · intro entry
    rw [List.mem_map]
    constructor
    · rintro ⟨i, hi, rfl⟩
      have hi := List.mem_range.mp hi
      rw [Disk.isFile, ← hname, hf.file i (hfile i hi), List.getElem?_eq_getElem hi]
      rfl
    · intro hentry
      by_cases hmem : S.dirPath ++ entry ∈ S.names
      · obtain ⟨i, hi, hpath⟩ := List.mem_map.mp hmem
        rw [Disk.isFile, ← hpath, hf.file i (List.mem_range.mp hi)] at hentry
        refine ⟨i, ?_, List.append_cancel_left ((hname i).symm.trans hpath)⟩
        rw [List.mem_range]
        by_contra hnot
        rw [List.getElem?_eq_none (not_lt.mp hnot)] at hentry
        exact absurd hentry (by simp)
      · rw [Disk.isFile, hf.rest _ hmem, hrest] at hentry
        exact absurd hentry (by simp)

/-- There is nothing to be found in an empty directory. -/
theorem lists_nil (dirPath : Path) :
    Disk.Lists (fun _ => none) (addTrailingPathDelimiterIfNeeded dirPath) [] :=
  ⟨List.nodup_nil, by simp [Disk.isFile]⟩

/-- **Opening again.** The stream begins a new log, but rotates it as it would have rotated the old
one. -/
theorem Configured.open (hc : Configured S k s) (hS : S.Valid) (hfile : s.file = none)
    (hwritten : s.currentBytesWritten = 0)
    (hrest : S.rest =
      (getFilesWithPrefix entries S.dirPath S.filePrefix).foldl Disk.deleteFile s.disk) :
    ∃ s', s.open entries = some s' ∧ Counts (S.after k) s' RotatingLog.empty := by
  have hn : 0 < S.numFiles := by
    have := hS.two_le
    omega
  have hlen : 0 < s.fileNames.length := by
    rw [hc.fileNames, Setup.length_names]
    exact hn
  refine ⟨{ s with disk := S.rest.create (S.path 0), file := some ⟨S.path 0, []⟩ }, ?_, ?_⟩
  · rw [State.open, hc.dirPath, hc.filePrefix, ← hrest]
    exact openCurrentFile_eq hfile hc.index hlen (hc.filePath hn)
  · refine ⟨⟨hc.after.congr rfl, [], [], rfl, rfl, ?_⟩, hwritten, hS.limit_pos k⟩
    exact Stored.create (hS.after k)

theorem contents_eq (s : State) : s.contents = s.close.disk := by
  cases hfile : s.file with
  | none => simp [State.contents, State.close, State.closeCurrentFile, hfile]
  | some f => simp [State.contents, State.close, State.closeCurrentFile, hfile]

theorem Holds.contents (hs : Holds S s l) (hn : 0 < S.numFiles) :
    Stored S s.contents l.files := by
  obtain ⟨flushed, buffer, hfile, hnewest, hstored⟩ := hs.open
  have hcontents : s.contents = s.fflush.disk := by simp [State.contents, State.fflush, hfile]
  rw [hcontents]
  exact (hs.fflush hn).2

/-- After `Close` nothing is open, and the stream is rotated as before. -/
theorem Holds.close (hs : Holds S s l) : Configured S l.rotations s.close ∧ s.close.file = none ∧
    s.close.currentBytesWritten = 0 := by
  obtain ⟨flushed, buffer, hfile, -, -⟩ := hs.open
  simp only [State.close, State.closeCurrentFile, hfile]
  exact ⟨hs.configured.congr rfl, trivial, trivial⟩

theorem Counts.session {entries : List Path} (hS : S.Valid)
    (hopen : ∃ s', s.open entries = some s' ∧ Counts S s' RotatingLog.empty) (calls : List Call) :
    ∃ s', s.session entries calls = some s' ∧
      Counts S s' (RotatingLog.empty.write S.policy (Call.written calls)) := by
  obtain ⟨s₀, hs₀, hcounts⟩ := hopen
  obtain ⟨s', hexec, hs'⟩ := hcounts.exec hS s₀ calls
  refine ⟨s', ?_, hs'⟩
  rw [State.session, hs₀, Option.bind_some, hexec, Option.map_some]

/-- The log of a session in which `w` is written. -/
def sessionLog (maxTotalLogSize : ℕ) (w : Bytes) : RotatingLog UInt8 :=
  RotatingLog.empty.write (sessionPolicy maxTotalLogSize) w

/-- A new stream, opened and written to. -/
theorem constructCallSession_session (h : 4 ≤ maxTotalLogSize)
    (hl : disk.Lists (addTrailingPathDelimiterIfNeeded dirPath) entries) (calls : List Call) :
    ∃ s, (constructCallSession disk dirPath maxTotalLogSize).bind (·.session entries calls) =
        some s ∧
      Holds (sessionSetup disk entries dirPath maxTotalLogSize) s
        (sessionLog maxTotalLogSize (Call.written calls)) := by
  have hS := sessionSetup_valid h hl
  obtain ⟨s₀, hopen, hs₀⟩ := open_counts disk entries dirPath hS rfl rfl rfl last_zero rfl
  obtain ⟨s₁, hconstruct, hs₁⟩ := Option.bind_eq_some_iff.mp hopen
  obtain ⟨s, hsession, hs⟩ := Counts.session hS ⟨s₀, hs₁, hs₀⟩ calls
  refine ⟨s, ?_, hs.toHolds⟩
  rw [constructCallSession, if_pos h]
  exact Option.bind_eq_some_iff.mpr ⟨s₁, hconstruct, hsession⟩

theorem getRotatingLogSize_lt (h : 4 ≤ maxTotalLogSize) :
    getRotatingLogSize maxTotalLogSize < maxTotalLogSize / 2 := by
  have hpos := getRotatingLogSize_pos h
  have hshare := rotating_le maxTotalLogSize
  have htwo := Nat.mul_le_mul_right (getRotatingLogSize maxTotalLogSize)
    (two_le_getNumRotatingLogFiles maxTotalLogSize)
  omega

/-- What is written after a stream has been opened again is kept as in a new session, if the files
have not been rotated before or are not rotated now. -/
theorem session_write_after (h : 4 ≤ maxTotalLogSize)
    (hk : k = 0 ∨ w.length < getRotatingLogSize maxTotalLogSize) :
    Session maxTotalLogSize w
      (RotatingLog.empty.write ((sessionPolicy maxTotalLogSize).after k) w) := by
  by_cases hzero : k = 0
  · rw [hzero, Policy.after_zero]
    exact session_write h w
  · have hlt := hk.resolve_left hzero
    have hlimit : ((sessionPolicy maxTotalLogSize).after k).limit 0 =
        getRotatingLogSize maxTotalLogSize :=
      sessionPolicy_pins.limit (k + 0) (by omega)
    exact .inl ⟨hlt.trans (getRotatingLogSize_lt h), write_empty_of_lt (hlt.trans_eq hlimit.symm)⟩

/-- A stream that is opened again, and a new one that is opened instead of it. The one rotates its
files as it would have rotated those of the first session. -/
theorem reopen (h : 4 ≤ maxTotalLogSize)
    (hl : disk.Lists (addTrailingPathDelimiterIfNeeded dirPath) entries)
    (calls calls' : List Call) :
    ∃ s, (constructCallSession disk dirPath maxTotalLogSize).bind (·.session entries calls) =
        some s ∧
      Stored (sessionSetup disk entries dirPath maxTotalLogSize) s.close.disk
        (sessionLog maxTotalLogSize (Call.written calls)).files ∧
      ∀ entries', s.close.disk.Lists (addTrailingPathDelimiterIfNeeded dirPath) entries' →
        ∃ reopened fresh, s.close.session entries' calls' = some reopened ∧
          (constructCallSession s.close.disk dirPath maxTotalLogSize).bind
            (·.session entries' calls') = some fresh ∧
          Holds ((sessionSetup s.close.disk entries' dirPath maxTotalLogSize).after
              (sessionLog maxTotalLogSize (Call.written calls)).rotations) reopened
            (RotatingLog.empty.write ((sessionPolicy maxTotalLogSize).after
              (sessionLog maxTotalLogSize (Call.written calls)).rotations)
              (Call.written calls')) ∧
          Holds (sessionSetup s.close.disk entries' dirPath maxTotalLogSize) fresh
            (sessionLog maxTotalLogSize (Call.written calls')) := by
  obtain ⟨s, hsession, hs⟩ := constructCallSession_session h hl calls
  refine ⟨s, hsession, ?_, fun entries' hl' => ?_⟩
  · rw [← contents_eq]
    exact hs.contents (Nat.succ_pos _)
  · have hS := sessionSetup_valid h hl'
    -- nothing of what says how the files are rotated is changed by closing them
    obtain ⟨hc, hfile, hwritten⟩ := hs.close
    have hc' : Configured (sessionSetup s.close.disk entries' dirPath maxTotalLogSize)
        (sessionLog maxTotalLogSize (Call.written calls)).rotations s.close :=
      ⟨hc.dirPath, hc.filePrefix, hc.fileNames, hc.index, hc.maxFileSize, hc.rotationIndex,
        hc.kind⟩
    obtain ⟨reopened, hreopened, hs'⟩ :=
      Counts.session (hS.after _) (hc'.open hS hfile hwritten rfl) calls'
    obtain ⟨fresh, hfresh, hs''⟩ := constructCallSession_session h hl' calls'
    exact ⟨reopened, fresh, hreopened, hfresh, hs'.toHolds, hs''⟩

/-- The names of the files where there are three. -/
theorem path_small (i : ℕ) : (sessionSetup disk entries ['/'] 8).path i =
    ['/'] ++ (kCallSessionLogPrefix ++ '_' :: padded 1 i) := by
  have hwidth : (Nat.toDigits 10 (getNumRotatingLogFiles 8)).length = 1 := by decide
  rw [Setup.path, getFilePath, List.append_assoc]
  simp only [sessionSetup, Nat.add_sub_cancel, hwidth]
  rfl

end FileRotatingStream

end TQLib
