import TQLib.FileRotatingStream.Files

/-!
# What the reader reads

A reader lists the files with the prefix, in whatever order, sorts their paths in descending order
and reads them one after the other. That is the order from the oldest file to the newest.

## Main results

* `reader_eq` — the files the reader finds, in their order
* `readAll_reader` — what it reads
-/

namespace TQLib

namespace FileRotatingStream

/-- What is in some files together. -/
def filesSize (disk : Disk) (fileNames : List Path) : ℕ :=
  (fileNames.map fun file => (disk.getFileSize file).getD 0).sum

variable {S : Setup} {disk : Disk} {files : List Bytes} {entries : List Path}

/-- The paths of the files there are. -/
def Setup.existing (S : Setup) (n : ℕ) : List Path := (List.range n).map S.path

theorem Setup.length_existing (S : Setup) (n : ℕ) : (S.existing n).length = n := by
  simp [Setup.existing]

theorem existing_sorted (hn : files.length ≤ S.numFiles) :
    (S.existing files.length).Pairwise (· < ·) := by
  rw [Setup.existing, List.pairwise_map]
  refine List.pairwise_lt_range.imp_of_mem fun _ hj hij => ?_
  exact Setup.path_lt_path hij ((List.mem_range.mp hj).trans_le hn)

/-- The files with the prefix are those of the stream. -/
theorem Stored.mem_getFilesWithPrefix (hf : Stored S disk files) (hS : S.Valid)
    (hl : disk.Lists S.dirPath entries) (file : Path) :
    file ∈ getFilesWithPrefix entries S.dirPath S.filePrefix ↔ file ∈ S.existing files.length := by
  have hle := hf.length_le
  rw [FileRotatingStream.mem_getFilesWithPrefix]
  constructor
  · rintro ⟨name, hentry, hname, rfl⟩
    rw [hl.mem_iff, Disk.isFile] at hentry
    have hours : S.dirPath ++ name ∈ S.names := by
      by_contra hnot
      rw [hf.rest _ hnot, hS.rest name hname] at hentry
      cases hentry
    obtain ⟨i, hi, hpath⟩ := List.mem_map.mp hours
    rw [← hpath, hf.file i (List.mem_range.mp hi), Option.isSome_iff_exists] at hentry
    obtain ⟨data, hdata⟩ := hentry
    rw [← hpath]
    exact List.mem_map_of_mem (List.mem_range.mpr (List.getElem?_eq_some_iff.mp hdata).1)
  · intro hfile
    obtain ⟨i, hi, rfl⟩ := List.mem_map.mp hfile
    have hi := List.mem_range.mp hi
    obtain ⟨name, hname, hpath⟩ := S.path_eq i
    refine ⟨name, ?_, hname, hpath.symm⟩
    rw [hl.mem_iff, ← hpath, Disk.isFile, hf.file i (by omega), List.getElem?_eq_getElem hi]
    rfl

theorem Stored.perm (hf : Stored S disk files) (hS : S.Valid)
    (hl : disk.Lists S.dirPath entries) :
    (getFilesWithPrefix entries S.dirPath S.filePrefix).Perm (S.existing files.length) := by
  refine (List.perm_ext_iff_of_nodup ?_ ?_).mpr (hf.mem_getFilesWithPrefix hS hl)
  · exact (hl.nodup.filter _).map fun _ _ h => List.append_cancel_left h
  · exact (existing_sorted hf.length_le).imp ne_of_lt

/-- What is found is one of the files. -/
theorem Stored.exists_of_mem (hf : Stored S disk files) (hS : S.Valid)
    (hl : disk.Lists S.dirPath entries) {file : Path}
    (hfile : file ∈ getFilesWithPrefix entries S.dirPath S.filePrefix) :
    ∃ f ∈ files, disk.getFileSize file = some f.length := by
  rw [hf.mem_getFilesWithPrefix hS hl] at hfile
  obtain ⟨i, hi, rfl⟩ := List.mem_map.mp hfile
  have hi := List.mem_range.mp hi
  have hle := hf.length_le
  refine ⟨files[i], List.getElem_mem hi, ?_⟩
  rw [Disk.getFileSize, hf.file i (by omega), List.getElem?_eq_getElem hi]
  rfl

/-- **The order of the files.** -/
theorem reader_eq (hf : Stored S disk files) (hS : S.Valid) {dirPath : Path}
    (hdir : S.dirPath = addTrailingPathDelimiterIfNeeded dirPath)
    (hl : disk.Lists S.dirPath entries) :
    reader entries dirPath S.filePrefix = (S.existing files.length).reverse := by
  unfold reader
  rw [← hdir]
  refine @List.Perm.eq_of_pairwise _ (fun file file' => file' ≤ file) _ _ ?_ ?_ ?_ ?_
  · exact fun _ _ _ _ h h' => le_antisymm h' h
  · refine (List.pairwise_mergeSort ?_ ?_ _).imp fun h => by simpa using h
    · simpa using fun a b c hab hbc => le_trans hbc hab
    · simpa using fun a b => le_total b a
  · rw [List.pairwise_reverse]
    exact (existing_sorted hf.length_le).imp le_of_lt
  · exact (List.mergeSort_perm _ _).trans ((hf.perm hS hl).trans (List.reverse_perm _).symm)

/-- What is in the files. -/
theorem Stored.map_existing (hf : Stored S disk files) :
    (S.existing files.length).map disk = files.map some := by
  refine List.ext_getElem (by simp [Setup.existing]) fun i hi hi' => ?_
  have hlt : i < files.length := by simpa using hi'
  have hle := hf.length_le
  simp only [Setup.existing, List.map_map, List.getElem_map, List.getElem_range,
    Function.comp_apply]
  rw [hf.file i (by omega), List.getElem?_eq_getElem hlt]

theorem Stored.map_reader (hf : Stored S disk files) (hS : S.Valid) {dirPath : Path}
    (hdir : S.dirPath = addTrailingPathDelimiterIfNeeded dirPath)
    (hl : disk.Lists S.dirPath entries) :
    (reader entries dirPath S.filePrefix).map disk = files.reverse.map some := by
  rw [reader_eq hf hS hdir hl, List.map_reverse, hf.map_existing, List.map_reverse]

theorem readAll_eq {fileNames : List Path} {size : ℕ} (h : fileNames.map disk = files.map some)
    {done : Bytes} (hsize : done.length + files.flatten.length ≤ size) :
    readAll disk size fileNames done = done ++ files.flatten := by
  induction fileNames generalizing files done with
  | nil =>
    obtain rfl : files = [] := by simpa using h.symm
    simp [readAll]
  | cons file fileNames ih =>
    cases files with
    | nil => simp at h
    | cons data files =>
      rw [List.map_cons, List.map_cons, List.cons.injEq] at h
      rw [List.flatten_cons, List.length_append] at hsize
      rw [readAll]
      split
      · simp only [h.1]
        rw [List.take_of_length_le (by omega), ih h.2 (by rw [List.length_append]; omega)]
        simp
      · -- there is nothing left to be read
        have hnil : (data :: files).flatten = [] := by
          rw [← List.length_eq_zero_iff, List.flatten_cons, List.length_append]
          omega
        rw [hnil, List.append_nil]

theorem filesSize_eq {fileNames : List Path} (h : fileNames.map disk = files.map some) :
    filesSize disk fileNames = files.flatten.length := by
  unfold filesSize
  induction fileNames generalizing files with
  | nil =>
    obtain rfl : files = [] := by simpa using h.symm
    rfl
  | cons file fileNames ih =>
    cases files with
    | nil => simp at h
    | cons data files =>
      rw [List.map_cons, List.map_cons, List.cons.injEq] at h
      rw [List.map_cons, List.sum_cons, ih h.2, Disk.getFileSize, h.1, Option.map_some,
        Option.getD_some, List.flatten_cons, List.length_append]

/-- The sum is taken in a `size_t`. -/
theorem getSize_eq_filesSize (disk : Disk) (fileNames : List Path) :
    getSize disk fileNames = filesSize disk fileNames % sizeWords := by
  have hfold (total : ℕ) : fileNames.foldl (fun total file =>
      (total + (disk.getFileSize file).getD 0) % sizeWords) (total % sizeWords) =
        (total + filesSize disk fileNames) % sizeWords := by
    unfold filesSize
    induction fileNames generalizing total with
    | nil => rfl
    | cons file fileNames ih =>
      rw [List.foldl_cons, Nat.mod_add_mod, ih, List.map_cons, List.sum_cons, Nat.add_assoc]
  simpa [getSize] using hfold 0

theorem getSize_eq {fileNames : List Path} (h : fileNames.map disk = files.map some) :
    getSize disk fileNames = files.flatten.length % sizeWords := by
  rw [getSize_eq_filesSize, filesSize_eq h]

/-- **Reading.** The reader reads all that is in the files, from the oldest on, as long as its size
is a `size_t`. -/
theorem readAll_reader (hf : Stored S disk files) (hS : S.Valid) {dirPath : Path}
    (hdir : S.dirPath = addTrailingPathDelimiterIfNeeded dirPath)
    (hl : disk.Lists S.dirPath entries)
    (hsize : filesSize disk (reader entries dirPath S.filePrefix) < sizeWords) :
    readAll disk (getSize disk (reader entries dirPath S.filePrefix))
      (reader entries dirPath S.filePrefix) [] = files.reverse.flatten := by
  have hmap := hf.map_reader hS hdir hl
  rw [filesSize_eq hmap] at hsize
  rw [getSize_eq hmap, Nat.mod_eq_of_lt hsize]
  exact readAll_eq hmap (by rw [List.length_nil, Nat.zero_add])

end FileRotatingStream

end TQLib
