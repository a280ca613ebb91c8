import MilvusStorage.Foundations.Commands
import MilvusStorage.Manifest.Basic

/-!
# The Parquet writer

Batches are cached. A flush slices all cached batches into row groups of about
`DEFAULT_MAX_ROW_GROUP_SIZE` bytes, hands every full row group to the Parquet library, and keeps the
last one as the new cache. How many rows of a batch fit into a row group, and how large a slice is,
is estimated in floating-point arithmetic: the estimates are arbitrary here. Rows are values of a
type `α`, and a batch is a list of rows.

The calls of a loop over row groups to the library form a phase. The environment says which call of
which phase fails.
-/

namespace MilvusStorage.Parquet

open Command

variable {α : Type}

structure Environment where
  /-- The `j`-th call of `NewBufferedRowGroup` and `WriteRecordBatch` in the `p`-th phase. -/
  library : ℕ → ℕ → Option Status
  /-- The calls that finish a file, in their order. -/
  finish : ℕ → Option Status
  /-- `remain_size / avg_row_size`, from the bytes that remain in the row group, the size of the
  batch and its number of rows. -/
  maxRows : UInt64 → UInt64 → ℕ → ℤ
  /-- `avg_row_size * slice_len`. -/
  sliceSize : UInt64 → ℕ → ℕ → UInt64

structure RowGroupMetadata where
  memorySize : UInt64
  rowNum : ℕ
  rowOffset : ℕ
  deriving DecidableEq, Repr

/-- Batches with their memory sizes. -/
abbrev SizedBatches (α : Type) := List (List α × UInt64)

structure ParquetFileWriter (α : Type) where
  filePath : String
  /-- The row groups the library has been given; the last one is being written. -/
  rowGroups : List (List α) := []
  rowGroupMetadata : List RowGroupMetadata := []
  /-- The values of `ROW_GROUP_META_KEY` in the key-value metadata. -/
  kvMetadata : List (List RowGroupMetadata) := []
  cachedBatches : SizedBatches α := []
  cachedSize : UInt64 := 0
  closed : Bool := false
  writtenRows : ℕ := 0
  /-- How many phases there have been, and how many calls in the current one. -/
  phase : ℕ := 0
  libraryCalls : ℕ := 0
  finishCalls : ℕ := 0

abbrev Step (α β : Type) := Command (ParquetFileWriter α) Fault β

variable (env : Environment)

def defaultMaxRowGroupSize : UInt64 := 1024 * 1024

/-! ## The library -/

def libraryCall : Step α Unit := fun w =>
  let w' := { w with libraryCalls := w.libraryCalls + 1 }
  match env.library w.phase w.libraryCalls with
  | some s => (w', .error (.status s))
  | none => (w', .ok ())

def finishCall : Step α Unit := fun w =>
  let w' := { w with finishCalls := w.finishCalls + 1 }
  match env.finish w.finishCalls with
  | some s => (w', .error (.status s))
  | none => (w', .ok ())

def newBufferedRowGroup : Step α Unit := do
  libraryCall env
  modify fun w => { w with rowGroups := w.rowGroups ++ [[]] }

def writeRecordBatch (batch : List α) : Step α Unit := do
  libraryCall env
  modify fun w => { w with rowGroups := w.rowGroups.modifyLast (· ++ batch) }

/-! ## Row groups -/

def write (record : Option (List α × UInt64)) : Step α Unit :=
  match record with
  | none => pure ()
  | some (batch, batchSize) => modify fun w => { w with
      cachedBatches := w.cachedBatches ++ [(batch, batchSize)]
      cachedSize := w.cachedSize + batchSize }

def writeRowGroup (batches : SizedBatches α) (rowGroupSize : UInt64) : Step α Unit := do
  newBufferedRowGroup env
  let _ ← forEach (writeRecordBatch env) (batches.map Prod.fst)
  let numRows := (batches.map fun b => b.1.length).sum
  modify fun w => { w with
    rowGroupMetadata := w.rowGroupMetadata ++ [⟨rowGroupSize, numRows, w.writtenRows⟩]
    writtenRows := w.writtenRows + numRows }

/-- A row group that is full is written, and the next one is empty. -/
def writeFullRowGroup (rowGroup : SizedBatches α) (rgSize : UInt64) :
    Step α (SizedBatches α × UInt64) :=
  if rgSize ≥ defaultMaxRowGroupSize then do
    writeRowGroup env rowGroup rgSize
    return ([], 0)
  else return (rowGroup, rgSize)

/-- The length of the next slice. -/
def sliceLen (rgSize batchSize : UInt64) (totalRows remainingRows : ℕ) : ℕ :=
  let remainSize :=
    if rgSize < defaultMaxRowGroupSize then defaultMaxRowGroupSize - rgSize else 0
  let maxRows := env.maxRows remainSize batchSize totalRows
  min (if maxRows ≤ 0 then 1 else maxRows.toNat) remainingRows

theorem sliceLen_pos {rgSize batchSize : UInt64} {totalRows remainingRows : ℕ}
    (h : 0 < remainingRows) : 0 < sliceLen env rgSize batchSize totalRows remainingRows := by
  rw [sliceLen]
  split_ifs <;> omega

/-- The loop over the rows of one batch. Every slice has a row, so that the loop ends. -/
def sliceBatch (batchSize : UInt64) (totalRows : ℕ) (rows : List α) (rowGroup : SizedBatches α)
    (rgSize : UInt64) : Step α (SizedBatches α × UInt64) :=
  if h : rows = [] then pure (rowGroup, rgSize)
  else do
    let (rowGroup, rgSize) ← writeFullRowGroup env rowGroup rgSize
    let n := sliceLen env rgSize batchSize totalRows rows.length
    let sliceSize := env.sliceSize batchSize totalRows n
    have : 0 < n := sliceLen_pos env (List.length_pos_iff.mpr h)
    sliceBatch batchSize totalRows (rows.drop n) (rowGroup ++ [(rows.take n, sliceSize)])
      (rgSize + sliceSize)
termination_by rows.length
decreasing_by
  rw [List.length_drop]
  have := List.length_pos_iff.mpr h
  omega

def sliceBatches : SizedBatches α → SizedBatches α → UInt64 → Step α (SizedBatches α × UInt64)
  | [], rowGroup, rgSize => pure (rowGroup, rgSize)
  | (batch, batchSize) :: batches, rowGroup, rgSize => do
    let (rowGroup, rgSize) ← sliceBatch env batchSize batch.length batch rowGroup rgSize
    sliceBatches batches rowGroup rgSize

/-- The library calls from here on are those of the next phase. -/
def startPhase : Step α Unit :=
  modify fun w => { w with phase := w.phase + 1, libraryCalls := 0 }

def flush : Step α Unit := do
  startPhase
  let w ← get
  let (rowGroup, rgSize) ← sliceBatches env w.cachedBatches [] 0
  modify fun w => { w with cachedBatches := rowGroup, cachedSize := rgSize }

/-! ## Closing -/

/-- The last row group, which need not be full. -/
def writeRemaining : Step α Unit := do
  startPhase
  let w ← get
  if w.cachedBatches = [] then return ()
  else
    writeRowGroup env w.cachedBatches w.cachedSize
    modify fun w => { w with cachedBatches := [], cachedSize := 0 }

/-- The footer is written and the file is closed. -/
def finishFile : Step α Unit := do
  modify fun w => { w with kvMetadata := w.kvMetadata ++ [w.rowGroupMetadata] }
  finishCall env -- `writer_->AddKeyValueMetadata`
  finishCall env -- `writer_->Close`
  finishCall env -- `sink_->Tell`
  finishCall env -- `BufferOutputStream::Create`
  finishCall env -- `meta_sink->Finish`
  finishCall env -- `sink_->Flush`
  finishCall env -- `sink_->Tell`
  finishCall env -- `sink_->Close`

def close : Step α ColumnGroupFile := do
  let w ← get
  let filePath := w.filePath
  if w.closed then
    fail (.status (.invalid
      s!"Current writer is closed or writer is not initialized. [file_path={filePath}]"))
  else
    flush env
    writeRemaining env
    finishFile env
    modify fun w => { w with closed := true }
    let w ← get
    return ⟨w.filePath, 0, w.writtenRows, []⟩

end MilvusStorage.Parquet
