import TQLib.FileRotatingStream.Reader

/-!
# The first and the last of a log

The files of a `CallSessionFileRotatingStream`: the first takes half of what the log may take, and
is never deleted; the others share the other half and hold the end of what has been written after.

## Main results

* `session_law` — what is in the files, and what a reader reads, after any writes
-/

namespace TQLib

namespace FileRotatingStream

open RotatingLog

/-- What is in the files, with what is still in the buffer. -/
def State.contents (s : State) : Disk :=
  match s.file with
  | none => s.disk
  | some f => s.disk.append f.path f.buffer

/-- What holds of the files after `w` has been written. -/
structure SessionLaw (dirPath : Path) (maxTotalLogSize : ℕ) (w : Bytes) (s : State) : Prop where
  /-- Together they are not larger than they may be. -/
  total : ∀ entries, s.disk.Lists (addTrailingPathDelimiterIfNeeded dirPath) entries →
    filesSize s.disk (reader entries dirPath kCallSessionLogPrefix) ≤ maxTotalLogSize
  /-- The oldest holds the beginning, with nothing of it in the buffer when it is full, and the
  others hold the end of what comes after. -/
  kept : ∀ entries, s.disk.Lists (addTrailingPathDelimiterIfNeeded dirPath) entries →
    ∃ (oldest : Path) (others : List Path) (datas : List Bytes),
      reader entries dirPath kCallSessionLogPrefix = oldest :: others ∧
      s.contents oldest = some (w.take (maxTotalLogSize / 2)) ∧
      (maxTotalLogSize / 2 ≤ w.length → s.disk oldest = s.contents oldest) ∧
      others.map s.contents = datas.map some ∧
      datas.flatten <:+ w.drop (maxTotalLogSize / 2)
  /-- After a flush a reader reads just that. -/
  read : ∀ entries, s.flush.1.disk.Lists (addTrailingPathDelimiterIfNeeded dirPath) entries →
    ∃ (oldest : Path) (others : List Path) (datas : List Bytes),
      reader entries dirPath kCallSessionLogPrefix = oldest :: others ∧
      s.flush.1.disk oldest = some (w.take (maxTotalLogSize / 2)) ∧
      others.map s.flush.1.disk = datas.map some ∧
      datas.flatten <:+ w.drop (maxTotalLogSize / 2) ∧
      readAll s.flush.1.disk
          (getSize s.flush.1.disk (reader entries dirPath kCallSessionLogPrefix))
          (reader entries dirPath kCallSessionLogPrefix) [] =
        w.take (maxTotalLogSize / 2) ++ datas.flatten

/-- The first file takes half of it all. When all files are there, the one with the last index is
the first, and the one before it is deleted. -/
def sessionPolicy (maxTotalLogSize : ℕ) : Policy where
  limit k := if k = 0 then maxTotalLogSize / 2 else getRotatingLogSize maxTotalLogSize
  last k :=
    if k < getNumRotatingLogFiles maxTotalLogSize then getNumRotatingLogFiles maxTotalLogSize
    else getNumRotatingLogFiles maxTotalLogSize - 1

/-- How the files of a session are rotated. -/
def sessionSetup (disk : Disk) (entries : List Path) (dirPath : Path) (maxTotalLogSize : ℕ) :
    Setup where
  dirPath := addTrailingPathDelimiterIfNeeded dirPath
  filePrefix := kCallSessionLogPrefix
  numFiles := getNumRotatingLogFiles maxTotalLogSize + 1
  policy := sessionPolicy maxTotalLogSize
  kind k := .callSession maxTotalLogSize k
  rest := (getFilesWithPrefix entries (addTrailingPathDelimiterIfNeeded dirPath)
    kCallSessionLogPrefix).foldl Disk.deleteFile disk

variable {disk : Disk} {entries : List Path} {dirPath : Path} {maxTotalLogSize : ℕ}
variable {S : Setup} {s : State} {l : RotatingLog UInt8} {w : Bytes}

theorem two_le_getNumRotatingLogFiles (maxTotalLogSize : ℕ) :
    2 ≤ getNumRotatingLogFiles maxTotalLogSize := le_max_left _ _

theorem getRotatingLogSize_pos (h : 4 ≤ maxTotalLogSize) :
    0 < getRotatingLogSize maxTotalLogSize := by
  unfold getRotatingLogSize
  split
  · decide
  · omega

/-- The files that are rotated share one half. -/
theorem rotating_le (maxTotalLogSize : ℕ) :
    getNumRotatingLogFiles maxTotalLogSize * getRotatingLogSize maxTotalLogSize ≤
      maxTotalLogSize / 2 := by
  unfold getRotatingLogSize
  split
  · rename_i hlt
    have hnum : getNumRotatingLogFiles maxTotalLogSize =
        maxTotalLogSize / 2 / kRotatingLogFileDefaultSize := by
      unfold getNumRotatingLogFiles at hlt ⊢
      omega
    rw [hnum]
    exact Nat.div_mul_le_self _ _
  · rename_i hge
    have hnum : getNumRotatingLogFiles maxTotalLogSize = 2 :=
      le_antisymm (not_lt.mp hge) (two_le_getNumRotatingLogFiles _)
    rw [hnum]
    omega

theorem limit_zero : (sessionPolicy maxTotalLogSize).limit 0 = maxTotalLogSize / 2 := rfl

theorem last_zero :
    (sessionPolicy maxTotalLogSize).last 0 = getNumRotatingLogFiles maxTotalLogSize := by
  have htwo := two_le_getNumRotatingLogFiles maxTotalLogSize
  exact if_pos (by omega)

theorem sessionPolicy_pins : (sessionPolicy maxTotalLogSize).Pins 1
    (getNumRotatingLogFiles maxTotalLogSize - 1) (getRotatingLogSize maxTotalLogSize) where
  limit k hk := if_neg (by omega)
  last k hk := by
    have htwo := two_le_getNumRotatingLogFiles maxTotalLogSize
    change (if _ then _ else _) = _
    rw [show 1 + (getNumRotatingLogFiles maxTotalLogSize - 1) =
      getNumRotatingLogFiles maxTotalLogSize by omega]

/-- `OnRotation` makes the files smaller the first time, and keeps the first file from then on when
it has got the last index. -/
theorem onRotation_session {k : ℕ} (htwo : 2 ≤ getNumRotatingLogFiles maxTotalLogSize)
    (hkind : s.kind = .callSession maxTotalLogSize k)
    (hnum : s.fileNames.length - 1 = getNumRotatingLogFiles maxTotalLogSize)
    (hlimit : s.maxFileSize = (sessionPolicy maxTotalLogSize).limit k)
    (hlast : s.rotationIndex = (sessionPolicy maxTotalLogSize).last k) :
    s.onRotation = { s with
      kind := .callSession maxTotalLogSize (k + 1)
      maxFileSize := (sessionPolicy maxTotalLogSize).limit (k + 1)
      rotationIndex := (sessionPolicy maxTotalLogSize).last (k + 1) } := by
  simp only [State.onRotation, hkind, hnum, sessionPolicy] at hlimit hlast ⊢
  rw [if_neg (Nat.succ_ne_zero k)]
  by_cases hfirst : k = 0
  · rw [if_pos (by omega), if_pos (by omega), hlast, if_pos (by omega)]
  · rw [if_neg hfirst] at hlimit
    rw [if_neg (by omega)]
    by_cases hfull : k + 1 = getNumRotatingLogFiles maxTotalLogSize
    · rw [if_pos hfull, if_neg (by omega), hlast, if_pos (by omega), hlimit]
    · rw [if_neg hfull, ← hlimit]
      by_cases hk : k < getNumRotatingLogFiles maxTotalLogSize
      · rw [if_pos (by omega), ← hlast.trans (if_pos hk)]
      · rw [if_neg (by omega), ← hlast.trans (if_neg hk)]

theorem sessionSetup_valid (h : 4 ≤ maxTotalLogSize)
    (hl : disk.Lists (addTrailingPathDelimiterIfNeeded dirPath) entries) :
    (sessionSetup disk entries dirPath maxTotalLogSize).Valid where
  two_le := by
    have htwo := two_le_getNumRotatingLogFiles maxTotalLogSize
    change 2 ≤ _ + 1
    omega
  limit_pos k := by
    cases k with
    | zero =>
      change 0 < maxTotalLogSize / 2
      omega
    | succ k => exact getRotatingLogSize_pos h
  last_lt k := by
    refine Nat.lt_succ_of_le ?_
    change (if _ then _ else _) ≤ _
    split
    · exact le_rfl
    · exact Nat.sub_le _ _
  onRotation := by
    intro s k hkind hnames hlimit hlast
    have htwo := two_le_getNumRotatingLogFiles maxTotalLogSize
    have hnum : s.fileNames.length - 1 = getNumRotatingLogFiles maxTotalLogSize := by
      rw [hnames, Setup.length_names]
      rfl
    exact onRotation_session htwo hkind hnum hlimit hlast
  rest _ hname := deleted hl hname

/-- What the log of a session is: before the first rotation, and after it. -/
def Session (maxTotalLogSize : ℕ) (w : Bytes) (l : RotatingLog UInt8) : Prop :=
  (w.length < maxTotalLogSize / 2 ∧ l = ⟨w, [], 0⟩) ∨
    maxTotalLogSize / 2 ≤ w.length ∧ ∃ window, Tail [w.take (maxTotalLogSize / 2)]
      (getNumRotatingLogFiles maxTotalLogSize - 1) (getRotatingLogSize maxTotalLogSize)
      (w.drop (maxTotalLogSize / 2)) l window

theorem session_write (h : 4 ≤ maxTotalLogSize) (w : Bytes) :
    Session maxTotalLogSize w (empty.write (sessionPolicy maxTotalLogSize) w) := by
  have htwo := two_le_getNumRotatingLogFiles maxTotalLogSize
  have hwrite := write_empty sessionPolicy_pins (getRotatingLogSize_pos h)
    (by rw [limit_zero]; omega) (by rw [last_zero]; omega) w
  rw [limit_zero] at hwrite
  rcases Nat.lt_or_ge w.length (maxTotalLogSize / 2) with hlt | hge
  · exact .inl ⟨hlt, hwrite.1 hlt⟩
  · exact .inr ⟨hge, hwrite.2 hge⟩

/-- The files of a session, from the oldest on. -/
theorem Session.files (hl : Session maxTotalLogSize w l) :
    ∃ datas : List Bytes,
      (l.newest :: l.older).reverse = w.take (maxTotalLogSize / 2) :: datas ∧
      datas.flatten <:+ w.drop (maxTotalLogSize / 2) ∧
      (w.take (maxTotalLogSize / 2)).length + datas.flatten.length ≤ maxTotalLogSize ∧
      (maxTotalLogSize / 2 ≤ w.length →
        ∃ window, l.older = window ++ [w.take (maxTotalLogSize / 2)]) := by
  have hhalf : (w.take (maxTotalLogSize / 2)).length ≤ maxTotalLogSize / 2 := by
    rw [List.length_take]
    exact min_le_left _ _
  rcases hl with ⟨hlt, rfl⟩ | ⟨hge, window, ht⟩
  · refine ⟨[], by simp [List.take_of_length_le hlt.le], by simp, ?_, fun hge => by omega⟩
    rw [List.flatten_nil, List.length_nil]
    omega
  · refine ⟨window.reverse ++ [l.newest], by simp [ht.older], ?_, ?_, fun _ => ⟨window, ht.older⟩⟩
    · rw [List.flatten_append, List.flatten_singleton]
      exact ht.suffix
    · have htwo := two_le_getNumRotatingLogFiles maxTotalLogSize
      have hle := ht.length_le
      rw [Nat.sub_add_cancel (by omega)] at hle
      have hshare := rotating_le maxTotalLogSize
      rw [List.flatten_append, List.flatten_singleton]
      omega

theorem Disk.Lists.append {directory : Path} (hl : disk.Lists directory entries) (file : Path)
    (data : Bytes) : (disk.append file data).Lists directory entries := by
  refine ⟨hl.nodup, fun name => ?_⟩
  rw [hl.mem_iff, Disk.isFile, Disk.isFile, Disk.append]
  by_cases h : directory ++ name = file
  · subst h
    simp
  · rw [Function.update_of_ne h]

theorem Holds.sessionLaw (hs : Holds S s l) (hS : S.Valid)
    (hdir : S.dirPath = addTrailingPathDelimiterIfNeeded dirPath)
    (hname : S.filePrefix = kCallSessionLogPrefix) (hlt : maxTotalLogSize < sizeWords)
    (hl : Session maxTotalLogSize w l) : SessionLaw dirPath maxTotalLogSize w s := by
  have hn : 0 < S.numFiles := by
    have := hS.two_le
    omega
  obtain ⟨flushed, buffer, hfile, hnewest, hstored⟩ := hs.open
  obtain ⟨datas, hfiles, hsuffix, htotal, holder⟩ := hl.files
  have hflushed := (hs.fflush hn).2
  have hflush : s.flush.1 = s.fflush := by simp [State.flush, hfile]
  have hcontents : s.contents = s.fflush.disk := by simp [State.contents, State.fflush, hfile]
  have hlength : (l.newest :: l.older).reverse.flatten.length ≤ maxTotalLogSize := by
    rw [hfiles, List.flatten_cons, List.length_append]
    exact htotal
  -- the reader finds the oldest file first
  have hfound : ∀ entries, s.fflush.disk.Lists (addTrailingPathDelimiterIfNeeded dirPath) entries →
      ∃ (oldest : Path) (others : List Path),
        reader entries dirPath kCallSessionLogPrefix = oldest :: others ∧
        s.fflush.disk oldest = some (w.take (maxTotalLogSize / 2)) ∧
        others.map s.fflush.disk = datas.map some := by
    intro entries hl
    have hmap := hflushed.map_reader hS hdir (hdir ▸ hl)
    rw [hfiles, hname] at hmap
    cases hr : reader entries dirPath kCallSessionLogPrefix with
    | nil => simp [hr] at hmap
    | cons oldest others =>
      rw [hr, List.map_cons, List.map_cons, List.cons.injEq] at hmap
      exact ⟨oldest, others, rfl, hmap.1, hmap.2⟩
  constructor
  · intro entries hl
    have hmap := hstored.map_reader hS hdir (hdir ▸ hl)
    rw [hname] at hmap
    rw [filesSize_eq hmap]
    -- what is in the buffer is not on the disk yet
    refine le_trans ?_ hlength
    simp [List.length_flatten, hnewest]
  · intro entries hl
    rw [hcontents]
    have hl' : s.fflush.disk.Lists (addTrailingPathDelimiterIfNeeded dirPath) entries := by
      simp only [State.fflush, hfile]
      exact hl.append _ _
    obtain ⟨oldest, others, hr, holdest, hothers⟩ := hfound entries hl'
    refine ⟨oldest, others, datas, hr, holdest, fun hge => ?_, hothers, hsuffix⟩
    -- when there are other files the oldest has been closed
    obtain ⟨window, hwindow⟩ := holder hge
    have hmap := hstored.map_reader hS hdir (hdir ▸ hl)
    rw [hname, hr, hwindow, List.map_cons, List.reverse_cons, List.reverse_append,
      List.reverse_singleton] at hmap
    exact (List.cons.inj hmap).1.trans holdest.symm
  · rw [hflush]
    intro entries hl
    obtain ⟨oldest, others, hr, holdest, hothers⟩ := hfound entries hl
    refine ⟨oldest, others, datas, hr, holdest, hothers, hsuffix, ?_⟩
    have hsize : filesSize s.fflush.disk (reader entries dirPath S.filePrefix) < sizeWords := by
      rw [filesSize_eq (hflushed.map_reader hS hdir (hdir ▸ hl))]
      exact hlength.trans_lt hlt
    have hread := readAll_reader hflushed hS hdir (hdir ▸ hl) hsize
    rw [hfiles, hname] at hread
    exact hread

end FileRotatingStream

end TQLib
