import Mathlib.Data.List.Sort
import TQLib.Foundations.Decimal
import TQLib.Foundations.Machine

/-!
# `rtc::FileRotatingStream`, `rtc::CallSessionFileRotatingStream` and their readers

A stream writes to the first of a number of files. When that is full the files are renamed, each to
the name of the next, and a new first file is opened. Operations on files succeed. Between the
stream and a file there is the buffer of the C library, which is written to the file when it is
flushed or closed, and whenever else the library sees fit.

Something that a `RTC_DCHECK` excludes has no result.

## Main definitions

* `State.writeLoop`, `State.rotateFiles` — writing and rotating
* `reader`, `getSize`, `readAll` — reading what is in the files
-/

namespace TQLib

namespace FileRotatingStream

/-- A path, or a part of one. -/
abbrev Path := List Char

/-- What is in a file. -/
abbrev Bytes := List UInt8

/-! ## Files -/

/-- The files, by their paths. -/
abbrev Disk := Path → Option Bytes

/-- `IsFile`. -/
def Disk.isFile (disk : Disk) (file : Path) : Bool := (disk file).isSome

/-- `DeleteFile`. -/
def Disk.deleteFile (disk : Disk) (file : Path) : Disk := Function.update disk file none

/-- `MoveFile`. -/
def Disk.moveFile (disk : Disk) (oldFile newFile : Path) : Disk :=
  Function.update (Function.update disk newFile (disk oldFile)) oldFile none

/-- `GetFileSize`. -/
def Disk.getFileSize (disk : Disk) (file : Path) : Option ℕ := (disk file).map List.length

/-- `fopen` with `"wb"`. -/
def Disk.create (disk : Disk) (file : Path) : Disk := Function.update disk file (some [])

/-- What the library writes out. -/
def Disk.append (disk : Disk) (file : Path) (data : Bytes) : Disk :=
  Function.update disk file ((disk file).map (· ++ data))

section Disk

variable (disk : Disk) {file oldFile newFile : Path}

@[simp] theorem Disk.deleteFile_same (file : Path) : disk.deleteFile file file = none :=
  Function.update_self ..

theorem Disk.deleteFile_of_ne {other : Path} (hne : other ≠ file) :
    disk.deleteFile file other = disk other := Function.update_of_ne hne ..

@[simp] theorem Disk.create_same (file : Path) : disk.create file file = some [] :=
  Function.update_self ..

theorem Disk.create_of_ne {other : Path} (hne : other ≠ file) :
    disk.create file other = disk other := Function.update_of_ne hne ..

@[simp] theorem Disk.append_same (file : Path) (data : Bytes) :
    disk.append file data file = (disk file).map (· ++ data) := Function.update_self ..

theorem Disk.append_of_ne {other : Path} (hne : other ≠ file) (data : Bytes) :
    disk.append file data other = disk other := Function.update_of_ne hne ..

@[simp] theorem Disk.moveFile_old (oldFile newFile : Path) :
    disk.moveFile oldFile newFile oldFile = none := Function.update_self ..

theorem Disk.moveFile_new (hne : newFile ≠ oldFile) :
    disk.moveFile oldFile newFile newFile = disk oldFile := by
  rw [Disk.moveFile, Function.update_of_ne hne, Function.update_self]

theorem Disk.moveFile_of_ne (hold : file ≠ oldFile) (hnew : file ≠ newFile) :
    disk.moveFile oldFile newFile file = disk file := by
  rw [Disk.moveFile, Function.update_of_ne hold, Function.update_of_ne hnew]

end Disk

/-- What `readdir` finds in a directory, below which there are no others: all the names in it, in
some order. -/
structure Disk.Lists (disk : Disk) (directory : Path) (entries : List Path) : Prop where
  /-- No name is found twice. -/
  nodup : entries.Nodup
  /-- They are the names of the files. -/
  mem_iff : ∀ name, name ∈ entries ↔ disk.isFile (directory ++ name) = true

/-- `AddTrailingPathDelimiterIfNeeded`. -/
def addTrailingPathDelimiterIfNeeded (directory : Path) : Path :=
  if directory.getLast? = some '/' then directory else directory ++ ['/']

/-- `GetFilesWithPrefix`, when `readdir` finds `entries`. -/
def getFilesWithPrefix (entries : List Path) (directory filePrefix : Path) : List Path :=
  (entries.filter (filePrefix.isPrefixOf ·)).map (directory ++ ·)

/-! ## The stream -/

/-- A `FileWrapper` that is open. -/
structure FileWrapper where
  /-- The path it has been opened with. -/
  path : Path
  /-- What has not been written out. -/
  buffer : Bytes

/-- What is added by the class of a stream. -/
inductive Kind
  /-- A `FileRotatingStream`. -/
  | plain
  /-- A `CallSessionFileRotatingStream`. -/
  | callSession (maxTotalLogSize numRotations : ℕ)

/-- A stream and the files. -/
structure State where
  /-- The files. -/
  disk : Disk
  /-- `dir_path_`. -/
  dirPath : Path
  /-- `file_prefix_`. -/
  filePrefix : Path
  /-- `file_`. -/
  file : Option FileWrapper
  /-- `file_names_`. -/
  fileNames : List Path
  /-- `max_file_size_`. -/
  maxFileSize : ℕ
  /-- `current_file_index_`. -/
  currentFileIndex : ℕ
  /-- `rotation_index_`. -/
  rotationIndex : ℕ
  /-- `current_bytes_written_`. -/
  currentBytesWritten : ℕ
  /-- `disable_buffering_`. -/
  disableBuffering : Bool
  /-- What the class adds. -/
  kind : Kind

/-- `GetFilePath(index, num_files)`. -/
def getFilePath (dirPath filePrefix : Path) (index numFiles : ℕ) : Path :=
  dirPath ++ filePrefix ++ '_' :: padded (Nat.toDigits 10 (numFiles - 1)).length index

/-- `FileRotatingStream::FileRotatingStream`. -/
def construct (kind : Kind) (disk : Disk) (dirPath filePrefix : Path) (maxFileSize numFiles : ℕ) :
    Option State :=
  let dirPath := addTrailingPathDelimiterIfNeeded dirPath
  if 0 < maxFileSize ∧ 1 < numFiles then
    some {
      disk
      dirPath
      filePrefix
      file := none
      fileNames := (List.range numFiles).map fun i => getFilePath dirPath filePrefix i numFiles
      maxFileSize
      currentFileIndex := 0
      rotationIndex := numFiles - 1
      currentBytesWritten := 0
      disableBuffering := false
      kind }
  else none

/-- `kCallSessionLogPrefix`. -/
def kCallSessionLogPrefix : Path := "webrtc_log".toList

/-- `kRotatingLogFileDefaultSize`. -/
def kRotatingLogFileDefaultSize : ℕ := 1024 * 1024

/-- `GetNumRotatingLogFiles`. -/
def getNumRotatingLogFiles (maxTotalLogSize : ℕ) : ℕ :=
  max 2 (maxTotalLogSize / 2 / kRotatingLogFileDefaultSize)

/-- `GetRotatingLogSize`. -/
def getRotatingLogSize (maxTotalLogSize : ℕ) : ℕ :=
  if 2 < getNumRotatingLogFiles maxTotalLogSize then kRotatingLogFileDefaultSize
  else maxTotalLogSize / 4

/-- `CallSessionFileRotatingStream::CallSessionFileRotatingStream`. -/
def constructCallSession (disk : Disk) (dirPath : Path) (maxTotalLogSize : ℕ) : Option State :=
  if 4 ≤ maxTotalLogSize then
    construct (.callSession maxTotalLogSize 0) disk dirPath kCallSessionLogPrefix
      (maxTotalLogSize / 2) (getNumRotatingLogFiles maxTotalLogSize + 1)
  else none

namespace State

/-- `GetFilePath(index)`. -/
def filePath (s : State) (index : ℕ) : Path := s.fileNames.getD index []

/-- `FileWrapper::Write`. The library writes out the first `drained` bytes of what is in the buffer
then. -/
def fwrite (s : State) (data : Bytes) (drained : ℕ) : State :=
  match s.file with
  | none => s
  | some f =>
    { s with
      disk := s.disk.append f.path ((f.buffer ++ data).take drained)
      file := some { f with buffer := (f.buffer ++ data).drop drained } }

/-- `FileWrapper::Flush`. -/
def fflush (s : State) : State :=
  match s.file with
  | none => s
  | some f =>
    { s with disk := s.disk.append f.path f.buffer, file := some { f with buffer := [] } }

/-- `CloseCurrentFile`. -/
def closeCurrentFile (s : State) : State :=
  match s.file with
  | none => s
  | some f =>
    { s with disk := s.disk.append f.path f.buffer, currentBytesWritten := 0, file := none }

/-- `OpenCurrentFile`. -/
def openCurrentFile (s : State) : Option State :=
  let s := s.closeCurrentFile
  if s.currentFileIndex < s.fileNames.length ∧ s.currentFileIndex = 0 then
    let path := s.filePath s.currentFileIndex
    some { s with disk := s.disk.create path, file := some ⟨path, []⟩ }
  else none

/-- `OnRotation`. -/
def onRotation (s : State) : State :=
  match s.kind with
  | .plain => s
  | .callSession maxTotalLogSize numRotations =>
    let numRotations := numRotations + 1
    let s := { s with kind := .callSession maxTotalLogSize numRotations }
    if numRotations = 1 then { s with maxFileSize := getRotatingLogSize maxTotalLogSize }
    else if numRotations = s.fileNames.length - 1 then
      { s with rotationIndex := s.rotationIndex - 1 }
    else s

/-- The loop of `RotateFiles`, from `i` down. -/
def moveFiles (s : State) : ℕ → Disk → Disk
  | 0, disk => disk
  | i + 1, disk =>
    s.moveFiles i
      (if disk.isFile (s.filePath i) then disk.moveFile (s.filePath i) (s.filePath (i + 1))
      else disk)

/-- `RotateFiles`. -/
def rotateFiles (s : State) : Option State :=
  let s := s.closeCurrentFile
  if s.rotationIndex < s.fileNames.length then
    let fileToDelete := s.filePath s.rotationIndex
    let disk := if s.disk.isFile fileToDelete then s.disk.deleteFile fileToDelete else s.disk
    ({ s with disk := s.moveFiles s.rotationIndex disk }.openCurrentFile).map onRotation
  else none

/-- Write as much as fits into the current file. -/
def writeSome (s : State) (data : Bytes) (drained : ℕ) : State :=
  let s := s.fwrite data drained
  let s := if s.disableBuffering then s.fflush else s
  { s with currentBytesWritten := s.currentBytesWritten + data.length }

/-- The loop of `Write`. What the library writes out is given for each number of iterations that
are left at most. -/
def writeLoop (drained : ℕ → ℕ) : ℕ → State → Bytes → Option State
  | 0, s, data => if data = [] then some s else none
  | n + 1, s, data =>
    if data = [] then some s
    else if s.currentBytesWritten < s.maxFileSize then
      let writeLength := min data.length (s.maxFileSize - s.currentBytesWritten)
      let s := s.writeSome (data.take writeLength) (drained n)
      (if s.maxFileSize ≤ s.currentBytesWritten then
          if s.currentBytesWritten = s.maxFileSize then s.rotateFiles else none
        else some s).bind fun s => writeLoop drained n s (data.drop writeLength)
    else none

/-- `Write`. Every iteration writes something, so there are at most as many as there are bytes. -/
def write (s : State) (data : Bytes) (drained : ℕ → ℕ) : Option (State × Bool) :=
  if s.file.isSome then (writeLoop drained data.length s data).map (·, true)
  else some (s, false)

/-- `Flush`. -/
def flush (s : State) : State × Bool := if s.file.isSome then (s.fflush, true) else (s, false)

/-- `DisableBuffering`. -/
def disableBuffer (s : State) : State × Bool := ({ s with disableBuffering := true }, true)

/-- `Open`, when `readdir` finds `entries`. -/
def «open» (s : State) (entries : List Path) : Option State :=
  { s with
    disk := (getFilesWithPrefix entries s.dirPath s.filePrefix).foldl Disk.deleteFile
      s.disk }.openCurrentFile

end State

/-- A call. -/
inductive Call
  /-- `Write`. -/
  | write (data : Bytes) (drained : ℕ → ℕ)
  /-- `Flush`. -/
  | flush
  /-- `DisableBuffering`. -/
  | disableBuffering

/-- What a call writes. -/
def Call.data : Call → Bytes
  | .write data _ => data
  | _ => []

/-- What some calls write. -/
def Call.written (calls : List Call) : Bytes := calls.flatMap Call.data

/-- One call. -/
def State.call (s : State) : Call → Option (State × List Bool)
  | .write data drained => (s.write data drained).map fun r => (r.1, [r.2])
  | .flush => some (s.flush.1, [s.flush.2])
  | .disableBuffering => some (s.disableBuffer.1, [s.disableBuffer.2])

/-- A stream that has been opened. -/
def machine (s₀ : State) : Machine State Call Bool where
  start s := s = s₀
  step := State.call

/-! ## The reader -/

/-- `SIZE_MAX + 1`. -/
def sizeWords : ℕ := 2 ^ 64

/-- `FileRotatingStreamReader::FileRotatingStreamReader`, when `readdir` finds `entries`. -/
def reader (entries : List Path) (dirPath filePrefix : Path) : List Path :=
  (getFilesWithPrefix entries (addTrailingPathDelimiterIfNeeded dirPath) filePrefix).mergeSort
    fun file file' => decide (file' ≤ file)

/-- `FileRotatingStreamReader::GetSize`. -/
def getSize (disk : Disk) (fileNames : List Path) : ℕ :=
  fileNames.foldl (fun total file => (total + (disk.getFileSize file).getD 0) % sizeWords) 0

/-- `FileRotatingStreamReader::ReadAll`, with what has been read. -/
def readAll (disk : Disk) (size : ℕ) : List Path → Bytes → Bytes
  | [], done => done
  | file :: fileNames, done =>
    if done.length < size then
      match disk file with
      | none => done
      | some data => readAll disk size fileNames (done ++ data.take (size - done.length))
    else done

end FileRotatingStream

end TQLib
