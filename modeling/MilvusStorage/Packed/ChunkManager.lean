import MilvusStorage.Common.RecordBatch
import MilvusStorage.Common.Status
import MilvusStorage.Foundations.Segments

/-!
# The chunk manager of the packed reader

The packed reader queues the tables it has read, one queue for each path. The columns of a table are
stored in chunks, and the chunks of different columns need not end at the same rows. The chunk
manager keeps a chunk state for each needed column: a chunk of the table at the front of its queue
and an offset in it.

`sliceChunksByMaxContiguousSlice` returns the rows that are contiguous in all columns, moves the
chunk states over them and pops the tables it has used up.
-/

namespace MilvusStorage.Packed

/-- A column of `n` cells in chunks. -/
abbrev ChunkedArray (V : Type) (n : ℕ) :=
  { chunks : List (List (Option V)) // chunks.flatten.length = n }

/-- `arrow::Table`. -/
structure Table (V : Type) where
  numRows : ℕ
  columns : List (ChunkedArray V numRows)

/-- The place of a column: the index of its path in the paths of the caller, and its index in the
file. -/
structure ColumnOffset where
  pathIndex : ℕ
  colIndex : ℕ
  deriving DecidableEq

/-- The chunk in use and the offset in it. -/
abbrev ChunkState := Segments.Cursor

/-- The rows of a batch are at most `DEFAULT_READ_BATCH_SIZE`. -/
def defaultReadBatchSize : ℕ := 1024

variable {V : Type}

/-- The chunks of the column at a position; no chunks if there is no such column. -/
def Table.chunks (t : Table V) (j : ℕ) : List (List (Option V)) :=
  match t.columns[j]? with
  | some column => column.1
  | none => []

/-- A column that is being sliced: its current chunk, and the number of its chunks. -/
structure Front (V : Type) where
  offset : ColumnOffset
  state : ChunkState
  chunk : List (Option V)
  numChunks : ℕ

namespace Front

variable (f : Front V) (chunksize : ℕ)

/-- What is left of the chunk. -/
def remaining : ℕ := f.chunk.length - f.state.offset

/-- The last chunk is used up. -/
def finished : Bool := f.remaining = chunksize ∧ f.state.chunk + 1 = f.numChunks

/-- The chunk state after the slice. -/
def next : ChunkState :=
  if f.finished chunksize then {} else Segments.step f.chunk f.state chunksize

/-- `chunk->Slice(offset, chunksize_)`. -/
def slice : Except Fault (Cells V chunksize) :=
  if h : ((f.chunk.drop f.state.offset).take chunksize).length = chunksize then .ok ⟨_, h⟩
  else .error .assertionFailed

end Front

/-- The errors of the chunk manager are thrown, and `ReadNext` returns them as a status. -/
def chunkLayoutCorrupted (what : String) : Fault :=
  .status (.makeExtendError .packedFileCorrupted
    ("Packed file chunk layout is corrupted: " ++ what))

/-- The current chunk of a column. A chunk index that is out of range is not checked. -/
def front (tables : ℕ → List (Table V)) (chunkStates : ℕ → ChunkState) (entry : ColumnOffset × ℕ) :
    Except Fault (Front V) :=
  let (offset, i) := entry
  let pathIndex := offset.pathIndex
  let colIndex := offset.colIndex
  match tables pathIndex with
  | [] => .error (chunkLayoutCorrupted s!"Table is empty for path_index: {pathIndex}")
  | table :: _ =>
    let numColumns := table.columns.length
    match table.columns[colIndex]? with
    | none => .error (chunkLayoutCorrupted
        s!"Column index {colIndex} out of bounds for table with {numColumns} columns")
    | some column =>
      match column.1[(chunkStates i).chunk]? with
      | none => .error .nullDereference
      | some chunk => .ok ⟨offset, chunkStates i, chunk, column.1.length⟩

/-- The rows that are contiguous in all columns, and what is left. -/
structure Slice (V : Type) where
  batch : RecordBatch V
  chunkStates : ℕ → ChunkState
  tables : ℕ → List (Table V)

/-- The largest number of rows that all chunks have left. -/
def maxContiguous (fronts : List (Front V)) (chunksize : ℕ) : ℕ :=
  fronts.foldl (fun n f => min n f.remaining) (min chunksize defaultReadBatchSize)

/-- Move the chunk states over the rows of a slice and pop the tables that are used up. -/
def Slice.take (chunkStates : ℕ → ChunkState) (tables : ℕ → List (Table V))
    (fronts : List (Front V)) {chunksize : ℕ} (columns : List (Cells V chunksize)) : Slice V :=
  let tableToPop := (fronts.filter fun f => f.finished chunksize).map fun f => f.offset.pathIndex
  { batch := ⟨chunksize, columns⟩
    chunkStates := fun i => (fronts[i]?.map fun f => f.next chunksize).getD (chunkStates i)
    tables := fun p => if p ∈ tableToPop then (tables p).tail else tables p }

def sliceChunksByMaxContiguousSlice (columnOffsets : List ColumnOffset)
    (chunkStates : ℕ → ChunkState) (tables : ℕ → List (Table V)) (chunksize : ℕ) :
    Except Fault (Slice V) := do
  let fronts ← columnOffsets.zipIdx.mapM (front tables chunkStates)
  let chunksize := maxContiguous fronts chunksize
  let columns ← fronts.mapM fun f => f.slice chunksize
  return .take chunkStates tables fronts columns

/-- `ResetChunkState`: the columns of a path start at the front of its tables. -/
def resetChunkState (columnOffsets : List ColumnOffset) (pathIndex : ℕ)
    (chunkStates : ℕ → ChunkState) : ℕ → ChunkState := fun i =>
  if columnOffsets[i]?.map ColumnOffset.pathIndex = some pathIndex then {} else chunkStates i

end MilvusStorage.Packed
