import MilvusStorage.Format.Backend
import MilvusStorage.Take.Table

/-!
# Taking rows of a column group

`ColumnGroupLazyReader` takes the rows of one column group. A row index counts the visible rows of
all files, and `get_index_and_offset_of_file` finds the file of a row and its place there.

The synchronous `take` sorts the indices by file; with parallelism it first divides them into as
many lists as the pool has threads. The asynchronous take is planned for all column groups at once:
a `TakeTask` has rows of one file of one group, together with their positions in the request.
-/

namespace MilvusStorage.Take

open Format

variable {V : Type}

/-- What a take needs of a `FormatReader`. An asynchronous call can also throw; then the inner
result is missing and the message is what is left. -/
structure FileReader (V : Type) where
  take : List ℤ → Except Status (Table V)
  takeAsync : List ℤ → Except String (Except Status (Table V))

/-! ## The file of a row -/

/-- The loop over the files from the `i`-th on. -/
def fileOfRow (globalRowIndex : ℤ) : ℕ → ℤ → List ColumnGroupFile → Except Fault (ℕ × ℤ)
  | _, _, [] => .error (.status (.invalid
      s!"Row index is greater than the maximum range, [row_index={globalRowIndex}]"))
  | i, rowIndexRemain, file :: files =>
    let path := file.path
    if file.startIndex < 0 ∨ file.endIndex < 0 then
      .error (.status (.invalid s!"Invalid start/end index in [file_index={i}, path={path}]"))
    else
      let numOfRowsInFile := file.endIndex - file.startIndex
      if rowIndexRemain < numOfRowsInFile then .ok (i, rowIndexRemain + file.startIndex)
      else fileOfRow globalRowIndex (i + 1) (rowIndexRemain - numOfRowsInFile) files

def getIndexAndOffsetOfFile (files : List ColumnGroupFile) (globalRowIndex : ℤ) :
    Except Fault (ℕ × ℤ) := fileOfRow globalRowIndex 0 globalRowIndex files

/-! ## The checks -/

def notSorted (index : ℕ) (rowIndex : ℤ) : Fault :=
  .status (.invalid ("Input row indices is not sorted or not unique," ++
    s!"[index={index}, row_index={rowIndex}]"))

def lessThanZero (rowIndex : ℤ) : Fault :=
  .status (.invalid s!"Row index is less than 0, [row_index={rowIndex}]")

/-- The loop over the row indices from the `i`-th on; `prev` is the one before. -/
def sortedFrom : ℕ → ℤ → List ℤ → Except Fault Unit
  | _, _, [] => .ok ()
  | i, prev, rowIndex :: rowIndices =>
    if rowIndex ≤ prev then .error (notSorted i rowIndex)
    else sortedFrom (i + 1) rowIndex rowIndices

def validateSortedUniqueRowIndices : List ℤ → Except Fault Unit
  | [] => .ok ()
  | rowIndex :: rowIndices => sortedFrom 1 rowIndex rowIndices

def validateRowIndices (files : List ColumnGroupFile) : List ℤ → Except Fault Unit
  | [] => .ok ()
  | rowIndex :: rowIndices =>
    if rowIndex < 0 then .error (lessThanZero rowIndex)
    else do
      let _ ← getIndexAndOffsetOfFile files rowIndex
      validateRowIndices files rowIndices

/-! ## `take` -/

def splitRowIndices (rowIndices : List ℤ) (parallelDegree : ℕ) : List (List ℤ) :=
  if parallelDegree = 0 ∨ rowIndices.length < parallelDegree then [rowIndices]
  else
    let avgRows := rowIndices.length / parallelDegree
    (List.range parallelDegree).map fun i =>
      slice rowIndices (i * avgRows)
        (if i = parallelDegree - 1 then rowIndices.length else (i + 1) * avgRows)

/-- `ColumnGroupLazyReader`: a column group, and how its files are opened for the needed columns. -/
structure ColumnGroupLazyReader (V : Type) where
  files : List ColumnGroupFile
  openFile : ColumnGroupFile → Except Status (FileReader V)
  openFileAsync : ColumnGroupFile → Except String (Except Status (FileReader V))

namespace ColumnGroupLazyReader

variable (r : ColumnGroupLazyReader V)

def fileIndexOutOfRange (fileIndex : ℕ) : Status :=
  let numberOfFiles := r.files.length
  .invalid s!"Column group file index out of range: {fileIndex} >= {numberOfFiles}"

def openReaderForFile (fileIndex : ℕ) : Except Status (FileReader V) :=
  match r.files[fileIndex]? with
  | none => .error (r.fileIndexOutOfRange fileIndex)
  | some file => r.openFile file

def openReaderForFileAsync (fileIndex : ℕ) : Except String (Except Status (FileReader V)) :=
  match r.files[fileIndex]? with
  | none => .ok (.error (r.fileIndexOutOfRange fileIndex))
  | some file => r.openFileAsync file

/-- The rows of one file. -/
def takeRowsFromFile (fileIndex : ℕ) (indicesInFile : List ℤ) : Except Status (Table V) := do
  let reader ← r.openReaderForFile fileIndex
  reader.take indicesInFile

def takeRowsFromFiles (rowIndices : List ℤ) : Except Fault (Table V) := do
  let located ← rowIndices.mapM (getIndexAndOffsetOfFile r.files)
  let indicesInFiles := (List.range r.files.length).map fun fileIndex =>
    (fileIndex, (located.filter fun l => l.1 = fileIndex).map Prod.snd)
  let tables ← (indicesInFiles.filter fun indices => indices.2 ≠ []).mapM fun indices =>
    orStatus (r.takeRowsFromFile indices.1 indices.2)
  concatenateTables tables

/-- `take`, with a pool of `numThreads` threads. The results are waited for in the order of the
lists. -/
def take (rowIndices : List ℤ) (parallelism numThreads : ℕ) : Except Fault (Table V) := do
  validateSortedUniqueRowIndices rowIndices
  validateRowIndices r.files rowIndices
  if parallelism ≤ 1 then r.takeRowsFromFiles rowIndices
  else
    let resultTables ← (splitRowIndices rowIndices numThreads).mapM r.takeRowsFromFiles
    concatenateTables resultTables

end ColumnGroupLazyReader

/-! ## `TakeTask` -/

/-- Rows of a file of a group, with their positions in the request. -/
structure TakeTask where
  readerIndex : ℕ
  fileIndex : ℕ
  rowIndices : List ℤ
  originalPositions : List ℕ
  length_eq : originalPositions.length = rowIndices.length

namespace TakeTask

/-- A row is put into a task together with its position. -/
def ofRows (readerIndex fileIndex : ℕ) (rowsAndPositions : List (ℤ × ℕ)) : TakeTask where
  readerIndex := readerIndex
  fileIndex := fileIndex
  rowIndices := rowsAndPositions.map Prod.fst
  originalPositions := rowsAndPositions.map Prod.snd
  length_eq := by simp

/-- The rows with their positions. -/
def rowsAndPositions (task : TakeTask) : List (ℤ × ℕ) := task.rowIndices.zip task.originalPositions

/-- `TakeTask::SplitTraits::split`. -/
def split (task : TakeTask) : TakeTask × TakeTask :=
  let mid := task.rowIndices.length / 2
  ({ task with
      rowIndices := task.rowIndices.take mid
      originalPositions := task.originalPositions.take mid
      length_eq := by simp [task.length_eq] },
    { task with
      rowIndices := task.rowIndices.drop mid
      originalPositions := task.originalPositions.drop mid
      length_eq := by simp [task.length_eq] })

/-- `TakeTask::SplitTraits`. -/
def traits : SplitTraits TakeTask where
  size task := task.rowIndices.length
  canSplit task := 1 < task.rowIndices.length
  split task := .ok task.split

/-- The loop of `TakeTask::Build` that checks the row indices, from the `i`-th on. -/
def checkRows : ℕ → Option ℤ → List ℤ → Except Fault Unit
  | _, _, [] => .ok ()
  | i, prev, rowIndex :: rowIndices =>
    if rowIndex < 0 then .error (lessThanZero rowIndex)
    else if prev.any fun prev => rowIndex ≤ prev then .error (notSorted i rowIndex)
    else checkRows (i + 1) (some rowIndex) rowIndices

/-- The tasks of a group. The loop over the files is that of `get_index_and_offset_of_file`, and the
groups of a `std::map` are in the order of the files. -/
def buildGroup (readerIndex : ℕ) (files : List ColumnGroupFile) (rowIndices : List ℤ) :
    Except Fault (List TakeTask) := do
  let located ← rowIndices.zipIdx.mapM fun (rowIndex, pos) => do
    let (fileIndex, _) ← getIndexAndOffsetOfFile files rowIndex
    return (fileIndex, rowIndex, pos)
  return (sortUnique (located.map Prod.fst)).map fun fileIndex =>
    .ofRows readerIndex fileIndex ((located.filter fun l => l.1 = fileIndex).map Prod.snd)

/-- `TakeTask::Build`. -/
def build (columnGroups : List (List ColumnGroupFile)) (rowIndices : List ℤ) :
    Except Fault (List TakeTask) := do
  checkRows 0 none rowIndices
  let tasks ← columnGroups.zipIdx.mapM fun (files, readerIndex) =>
    buildGroup readerIndex files rowIndices
  return tasks.flatten

end TakeTask

/-! ## `take_async` -/

namespace ColumnGroupLazyReader

variable (r : ColumnGroupLazyReader V)

/-- The place in the file of a row of a task. -/
def rowInTaskFile (task : TakeTask) (globalRow : ℤ) : Except Fault ℤ := do
  let (actualFile, offset) ← getIndexAndOffsetOfFile r.files globalRow
  let expectedFile := task.fileIndex
  if actualFile ≠ expectedFile then
    .error (.status (.invalid ("TakeTask row does not belong to task file. " ++
      s!"[row={globalRow}, expected_file={expectedFile}, actual_file={actualFile}]")))
  else return offset

def takeAsync (task : TakeTask) : Except String (Except Fault (Table V)) :=
  match task.rowIndices.mapM (r.rowInTaskFile task) with
  | .error e => .ok (.error e)
  | .ok rowsInFile => do
    match ← r.openReaderForFileAsync task.fileIndex with
    | .error s => return .error (.status s)
    | .ok reader => return orStatus (← reader.takeAsync rowsInFile)

end ColumnGroupLazyReader

end MilvusStorage.Take
