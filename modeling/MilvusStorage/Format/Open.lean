import MilvusStorage.Common.RecordBatch
import MilvusStorage.Foundations.Except
import MilvusStorage.Manifest.Basic

/-!
# Opening a column group

`ColumnGroupReaderImpl::open` of one column group. A group is a list of files, and of each file the
rows from `start_index` to `end_index` are visible. The format reader of a file knows its row
groups. `append_file_metadata` cuts the visible rows at the row groups into chunks; a chunk knows
its rows in the file and where it ends among the rows of all files, `global_row_end`.

Row counts are added up in `size_t`. A batch is given by its rows: the code here never looks at
columns.
-/

namespace MilvusStorage.Format

/-! ## Formats -/

structure RowGroupInfo where
  startOffset : ℕ
  endOffset : ℕ
  memorySize : ℕ
  memorySizeAvailable : Bool := true

def loonFormatParquet : String := "parquet"

def loonFormatVortex : String := "vortex"

/-- `FormatReader`, of an open file. The range reads return the batches of the stream they open. -/
structure FormatReader (Row : Type) where
  rowGroupInfos : Except Status (List RowGroupInfo)
  getChunk : ℕ → Except Status (List Row)
  readWithRange : ℕ → ℕ → Except Status (List (List Row))
  readWithRangeAsync : ℕ → ℕ → Except Status (List (List Row))

/-- What the reader of a column group is created with. Opening a file asynchronously can also throw;
then the inner result is missing and the message is what is left. -/
structure Source (Row : Type) where
  columnGroup : ColumnGroup
  /-- Empty if there is none. The format readers get it when they are opened. -/
  predicate : String := ""
  openReaderForFile : ColumnGroupFile → Except Status (FormatReader Row)
  openReaderForFileAsync : ColumnGroupFile → Except String (Except Status (FormatReader Row))

abbrev Source.files {Row : Type} (S : Source Row) : List ColumnGroupFile := S.columnGroup.files

structure ChunkInfo where
  fileIndex : ℕ
  rowOffsetInRowGroup : ℕ
  rowOffsetInFile : ℕ
  numberOfRows : ℕ
  rowGroupIndexInFile : ℕ
  globalRowEnd : ℕ
  avgMemorySize : ℕ
  memorySizeAvailable : Bool

/-! ## `append_file_metadata` -/

/-- The visible rows of a row group. -/
structure Fragment where
  rowOffsetInRowGroup : ℕ
  rowOffsetInFile : ℕ
  numberOfRows : ℕ
  memorySize : ℕ

/-- The loop body for a file of which only some rows are visible. The memory size is computed in 128
bits. -/
def overlap (startIndex endIndex : ℕ) (rg : RowGroupInfo) : Option Fragment :=
  let overlapStart := max startIndex rg.startOffset
  let overlapEnd := min endIndex rg.endOffset
  if overlapStart < overlapEnd then
    let overlapRows := overlapEnd - overlapStart
    let rowGroupRows := toUnsigned 64 (rg.endOffset - rg.startOffset)
    some {
      rowOffsetInRowGroup := toUnsigned 64 (overlapStart - rg.startOffset)
      rowOffsetInFile := overlapStart
      numberOfRows := overlapRows
      memorySize :=
        if rg.memorySizeAvailable then rg.memorySize * overlapRows / rowGroupRows % 2 ^ 64 else 0 }
  else none

/-- The loop body for a file all of whose rows are visible. -/
def whole (rg : RowGroupInfo) : Option Fragment :=
  let rowGroupRows := toUnsigned 64 (rg.endOffset - rg.startOffset)
  if rowGroupRows = 0 then none
  else some ⟨0, rg.startOffset, rowGroupRows, rg.memorySize⟩

/-- The loop over the row groups from the `j`-th on: the chunks and the number of their rows. -/
def appendChunks (fileIdx rowsInAllFiles : ℕ) (fragment : RowGroupInfo → Option Fragment) :
    ℕ → ℕ → List RowGroupInfo → List ChunkInfo × ℕ
  | _, rowsInFile, [] => ([], rowsInFile)
  | j, rowsInFile, rg :: rgs =>
    match fragment rg with
    | none => appendChunks fileIdx rowsInAllFiles fragment (j + 1) rowsInFile rgs
    | some f =>
      let rowsInFile := (rowsInFile + f.numberOfRows) % 2 ^ 64
      let rest := appendChunks fileIdx rowsInAllFiles fragment (j + 1) rowsInFile rgs
      ({
        fileIndex := fileIdx
        rowOffsetInRowGroup := f.rowOffsetInRowGroup
        rowOffsetInFile := f.rowOffsetInFile
        numberOfRows := f.numberOfRows
        rowGroupIndexInFile := j
        globalRowEnd := (rowsInAllFiles + rowsInFile) % 2 ^ 64
        avgMemorySize := f.memorySize
        memorySizeAvailable := rg.memorySizeAvailable } :: rest.1, rest.2)

/-- The chunks of a file, and the number of rows with those of this file. -/
def appendFileMetadata (fileIdx : ℕ) (file : ColumnGroupFile) (rgs : List RowGroupInfo)
    (rowsInAllFiles : ℕ) : Except Fault (List ChunkInfo × ℕ) :=
  match rgs.getLast? with
  | none => .ok ([], rowsInAllFiles)
  | some last =>
    if file.startIndex ≠ 0 ∨ toUnsigned 64 file.endIndex ≠ last.endOffset then
      if 0 ≤ file.startIndex ∧ 0 < file.endIndex ∧ file.startIndex < file.endIndex then
        let (chunks, rowsInFile) := appendChunks fileIdx rowsInAllFiles
          (overlap (toUnsigned 64 file.startIndex) (toUnsigned 64 file.endIndex)) 0 0 rgs
        .ok (chunks, (rowsInAllFiles + rowsInFile) % 2 ^ 64)
      else .error .assertionFailed
    else
      let (chunks, rowsInFile) := appendChunks fileIdx rowsInAllFiles whole 0 0 rgs
      .ok (chunks, (rowsInAllFiles + rowsInFile) % 2 ^ 64)

/-! ## `open` -/

/-- `ColumnGroupReaderImpl`, as `open` leaves it. -/
structure ColumnGroupReader (Row : Type) where
  source : Source Row
  chunkInfos : List ChunkInfo
  totalRows : ℕ
  formatReaders : List (FormatReader Row)

variable {Row : Type}

/-- The visible rows of the file are given by valid indices. -/
def checkIndices (fileIdx : ℕ) (file : ColumnGroupFile) : Except Fault Unit :=
  let path := file.path
  if file.startIndex < 0 ∨ file.endIndex < 0 ∨ file.endIndex ≤ file.startIndex then
    .error (.status (.invalid s!"Invalid start/end index in [file_index={fileIdx}, path={path}]"))
  else .ok ()

/-- The part of a call that returns an error status. -/
def orStatus {α : Type} (x : Except Status α) : Except Fault α := x.mapError .status

/-- The chunks and the format readers of some files, and the number of rows with theirs. -/
structure Opened (Row : Type) where
  chunkInfos : List ChunkInfo
  formatReaders : List (FormatReader Row)
  rowsInAllFiles : ℕ

/-- The loop of `open` over the files from the `fileIdx`-th on. -/
def openFiles (S : Source Row) : ℕ → ℕ → List ColumnGroupFile → Except Fault (Opened Row)
  | _, rowsInAllFiles, [] => .ok ⟨[], [], rowsInAllFiles⟩
  | fileIdx, rowsInAllFiles, file :: files => do
    checkIndices fileIdx file
    let reader ← orStatus (S.openReaderForFile file)
    let rowGroups ← orStatus reader.rowGroupInfos
    let (chunks, rowsInAllFiles) ← appendFileMetadata fileIdx file rowGroups rowsInAllFiles
    let rest ← openFiles S (fileIdx + 1) rowsInAllFiles files
    return ⟨chunks ++ rest.chunkInfos, reader :: rest.formatReaders, rest.rowsInAllFiles⟩

/-- `ColumnGroupReaderImpl::open`. -/
def «open» (S : Source Row) : Except Fault (ColumnGroupReader Row) := do
  let opened ← openFiles S 0 0 S.files
  return ⟨S, opened.chunkInfos, opened.rowsInAllFiles, opened.formatReaders⟩

/-! ## `open_async` -/

/-- The files are opened independently: a format reader with its row groups. -/
def openFileAsync (S : Source Row) (file : ColumnGroupFile) :
    Except String (Except Status (FormatReader Row × List RowGroupInfo)) := do
  let reader ← S.openReaderForFileAsync file
  return do
    let reader ← reader
    let rowGroups ← reader.rowGroupInfos
    return (reader, rowGroups)

/-- The loop over the results of the opened files. -/
def collectFiles : ℕ → ℕ →
    List (ColumnGroupFile × Except String (Except Status (FormatReader Row × List RowGroupInfo))) →
    Except Fault (Opened Row)
  | _, rowsInAllFiles, [] => .ok ⟨[], [], rowsInAllFiles⟩
  | fileIdx, rowsInAllFiles, (file, result) :: results => do
    let result ← result.mapError fun what => Fault.status (.ioError what)
    let (reader, rowGroups) ← orStatus result
    let (chunks, rowsInAllFiles) ← appendFileMetadata fileIdx file rowGroups rowsInAllFiles
    let rest ← collectFiles (fileIdx + 1) rowsInAllFiles results
    return ⟨chunks ++ rest.chunkInfos, reader :: rest.formatReaders, rest.rowsInAllFiles⟩

/-- The loop of `open_async` that checks all files before any is opened. -/
def checkFiles : ℕ → List ColumnGroupFile → Except Fault Unit
  | _, [] => .ok ()
  | fileIdx, file :: files => do
    checkIndices fileIdx file
    checkFiles (fileIdx + 1) files

/-- `ColumnGroupReaderImpl::open_async`; `collectAll` returns the results in the order of the
files. -/
def openAsync (S : Source Row) : Except Fault (ColumnGroupReader Row) := do
  checkFiles 0 S.files
  let opened ← collectFiles 0 0 (S.files.map fun file => (file, openFileAsync S file))
  return ⟨S, opened.chunkInfos, opened.rowsInAllFiles, opened.formatReaders⟩

/-! ## `get_chunk_indices` -/

/-- `std::upper_bound`, in a list whose ends increase: the first chunk that ends after the row. The
row index is converted to `size_t` for the comparison. -/
def upperBound (chunkInfos : List ChunkInfo) (rowIndex : ℤ) : ℕ :=
  chunkInfos.findIdx fun c => toUnsigned 64 rowIndex < c.globalRowEnd

/-- The loop over the row indices; `chunkIndices` are the chunks found so far. -/
def chunkIndicesFrom (chunkInfos : List ChunkInfo) (chunkIndices : List ℕ) :
    List ℤ → Except Fault (List ℕ)
  | [] => .ok chunkIndices
  | rowIndex :: rowIndices =>
    let chunkIndex := upperBound chunkInfos rowIndex
    if chunkInfos.length ≤ chunkIndex then
      .error (.status (.invalid s!"Row index out of range: {rowIndex}"))
    else if chunkIndex ∈ chunkIndices then chunkIndicesFrom chunkInfos chunkIndices rowIndices
    else chunkIndicesFrom chunkInfos (chunkIndices ++ [chunkIndex]) rowIndices

def ColumnGroupReader.getChunkIndices (r : ColumnGroupReader Row) (rowIndices : List ℤ) :
    Except Fault (List ℕ) := chunkIndicesFrom r.chunkInfos [] rowIndices

end MilvusStorage.Format
