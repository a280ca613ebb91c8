import Mathlib.Algebra.BigOperators.Group.Finset.Basic
import MilvusStorage.Packed.Open

/-!
# Reading record batches from packed files

`ReadNext` of the packed reader. When the rows up to the row limit are delivered, `advanceBuffer`
reads further row groups: one for every file that has no rows beyond the limit, and then, as long as
the buffer allows, one more for the file that is behind the others. The row limit becomes the
smallest row offset. Then the chunk manager slices a batch.

* The row groups of a file are counted when they are planned, before they are read.
* A file that gets a row group for having none has its chunk states reset. `ResetChunkState`
  compares the path index of a column with the index of the file reader.
* If one file ends, the others must end as well.

A call of `ReadRowGroups` can fail: `Io` says for which file readers it does in a call of
`ReadNext`.
-/

namespace MilvusStorage.Packed

/-- The statuses of the calls of `ReadRowGroups` that fail. -/
abbrev Io := ℕ → Option Status

/-- No call fails. -/
def Io.noFailure : Io := fun _ => none

/-- `ColumnGroupState` of a file reader. -/
structure ColumnGroupState where
  rowOffset : ℕ := 0
  /-- `row_group_offset` plus one. -/
  nextRowGroup : ℕ := 0
  memorySize : ℤ := 0

structure State (V : Type) where
  /-- By file reader. -/
  columnGroupStates : ℕ → ColumnGroupState := fun _ => {}
  /-- By path. -/
  tables : ℕ → List (Table V) := fun _ => []
  /-- By needed column. -/
  chunkStates : ℕ → ChunkState := fun _ => {}
  memoryUsed : ℕ := 0
  rowLimit : ℤ := 0
  absoluteRowPosition : ℕ := 0

/-- The row groups to read, by file reader, and their size. -/
structure Plan where
  rgsToRead : ℕ → List ℕ := fun _ => []
  planBufferSize : ℕ := 0

variable {V : Type}

namespace PackedReader

variable (R : PackedReader V) (heap : RowOffsetMinHeap) (io : Io)

def rowGroups (i : ℕ) : List (RowGroup V) :=
  match R.fileReaders[i]? with
  | some f => f.rowGroups
  | none => []

/-- The path of a file reader, for messages. -/
def pathName (i : ℕ) : String := R.neededPaths.getD i "unknown"

/-! ## Planning -/

def getNextRowGroupSize (S : State V) (i : ℕ) : ℤ :=
  match (R.rowGroups i)[(S.columnGroupStates i).nextRowGroup]? with
  | none => -1
  | some g => toSigned 64 g.memorySize

/-- The row group counts as read when it is planned. -/
def countRowGroup (i : ℕ) (rg : RowGroup V) (S : State V) : State V :=
  let g := S.columnGroupStates i
  { S with
    columnGroupStates := Function.update S.columnGroupStates i {
      rowOffset := g.rowOffset + rg.content.numRows
      nextRowGroup := g.nextRowGroup + 1
      memorySize := toSigned 64 (g.memorySize + toSigned 64 rg.memorySize) } }

/-- Add a row group to the plan. -/
def planRowGroup (i rg : ℕ) (rgSize : ℤ) (P : Plan) : Plan where
  rgsToRead := Function.update P.rgsToRead i (P.rgsToRead i ++ [rg])
  planBufferSize := toUnsigned 64 (P.planBufferSize + rgSize)

/-- `advance_row_group`: plan the next row group of a file; its size, or `-1` if there is none. -/
def advanceRowGroup (i : ℕ) (S : State V) (P : Plan) : State V × Plan × ℤ :=
  let rg := (S.columnGroupStates i).nextRowGroup
  match (R.rowGroups i)[rg]? with
  | none => (S, P, -1)
  | some g =>
    let rgSize := toSigned 64 g.memorySize
    (countRowGroup i g S, planRowGroup i rg rgSize P, rgSize)

/-- The memory of a file whose rows are all delivered is free. -/
def releaseMemory (i : ℕ) (S : State V) : State V :=
  let g := S.columnGroupStates i
  { S with
    memoryUsed := toUnsigned 64 (S.memoryUsed - toUnsigned 64 g.memorySize)
    columnGroupStates := Function.update S.columnGroupStates i { g with memorySize := 0 } }

/-- The loop that fills in tables that have no rows available; it ends with the index of a file that
has no more row groups, or with `none`. -/
def fillTables : List ℕ → State V → Plan → State V × Plan × Option ℕ
  | [], S, P => (S, P, none)
  | i :: is, S, P =>
    if S.rowLimit < (S.columnGroupStates i).rowOffset then fillTables is S P
    else match R.advanceRowGroup i (releaseMemory i S) P with
      | (S, P, nextRowGroupSize) =>
        if nextRowGroupSize < 0 then (S, P, some i)
        else fillTables is
          { S with chunkStates := resetChunkState R.neededColumnOffsets i S.chunkStates } P

/-- The entry of a file reader in the heap; row offsets are narrowed to `int`. -/
def heapEntry (S : State V) (i : ℕ) : ℕ × ℤ := (i, toSigned 32 (S.columnGroupStates i).rowOffset)

/-- The loop that fills the buffer. `fuel` bounds the number of iterations. -/
def fillBuffer : ℕ → List (ℕ × ℤ) → State V → Plan → List (ℕ × ℤ) × State V × Plan
  | 0, sortedOffsets, S, P => (sortedOffsets, S, P)
  | fuel + 1, sortedOffsets, S, P =>
    if sortedOffsets = [] ∨
        R.memoryLimit ≤ toUnsigned 64 (P.planBufferSize + S.memoryUsed) then (sortedOffsets, S, P)
    else
      let top := heap.top sortedOffsets
      let i := top.1
      let nextRowGroupSize := R.getNextRowGroupSize S i
      if nextRowGroupSize < 0 ∨
          R.memoryLimit < toUnsigned 64 (P.planBufferSize + S.memoryUsed + nextRowGroupSize) then
        (sortedOffsets, S, P)
      else match R.advanceRowGroup i S P with
        | (S, P, _) => fillBuffer fuel (heapEntry S i :: sortedOffsets.erase top) S P

/-- Each iteration of the loop but the last plans a row group. -/
def bufferFuel : ℕ := (∑ i ∈ Finset.range R.size, (R.rowGroups i).length) + 1

/-! ## Reading -/

/-- `tables_[path_index].push`. -/
def pushTable (S : State V) (p : ℕ) (readTable : List (Table V)) : State V :=
  { S with tables := Function.update S.tables p (S.tables p ++ readTable) }

/-- The loop that reads what is planned. -/
def readTables (P : Plan) : List ℕ → State V → State V × Option Fault
  | [], S => (S, none)
  | i :: is, S =>
    if P.rgsToRead i = [] then readTables P is S
    else match io i with
      | some readStatus =>
        let path := R.pathName i
        (S, some (.status (.wrapExtendError ExtendStatusCode.packedStorageIO
          s!"Failed to read packed row groups. [path={path}]" readStatus)))
      | none =>
        let readTable := (R.fileReaders[i]?.map fun f => f.readRowGroups (P.rgsToRead i)).toList
        readTables P is (pushTable S (R.pathIndex i) readTable)

/-- One file has ended and others have not. -/
def fileBroken (S : State V) (i : ℕ) : Fault :=
  let path := R.pathName i
  let rowOffset := (S.columnGroupStates i).rowOffset
  let rowLimit := S.rowLimit
  .status (.makeExtendError .packedFileCorrupted
    s!"File broken at index {i}. [path={path}, row_offset={rowOffset}, row_limit={rowLimit}]")

def advanceBuffer (S : State V) : State V × Option Fault :=
  match R.fillTables (List.range R.size) S {} with
  | (S, P, some drainedIndex) =>
    if P.planBufferSize = 0 then (S, none) else (S, some (R.fileBroken S drainedIndex))
  | (S, P, none) =>
    match R.fillBuffer heap R.bufferFuel ((List.range R.size).map (heapEntry S)) S P with
    | (sortedOffsets, S, P) =>
      match R.readTables io P (List.range R.size) S with
      | (S, some e) => (S, some e)
      | (S, none) =>
        ({ S with
            memoryUsed := toUnsigned 64 (S.memoryUsed + P.planBufferSize)
            rowLimit := if sortedOffsets = [] then S.rowLimit else (heap.top sortedOffsets).2 },
          none)

/-! ## `ReadNext` -/

/-- The columns of a batch: those of the files in the order of the requested fields, and null arrays
for the fields that no file has. -/
def arrays {n : ℕ} : List ℤ → List (Cells V n) → Except Fault (List (Cells V n))
  | [], _ => .ok []
  | fieldId :: fieldIds, batch =>
    match R.fieldIdMapping fieldId, batch with
    | none, batch => do
      let rest ← arrays fieldIds batch
      return .nulls n :: rest
    | some _, column :: batch => do
      let rest ← arrays fieldIds batch
      return column :: rest
    | some _, [] => .error .nullDereference

/-- Slice the next batch. -/
def deliver (S : State V) : State V × ReadResult V :=
  match sliceChunksByMaxContiguousSlice R.neededColumnOffsets S.chunkStates S.tables
      (S.rowLimit - S.absoluteRowPosition).toNat with
  | .error e => (S, .error e)
  | .ok slice =>
    let chunkSize := slice.batch.numRows
    let S := { S with
      chunkStates := slice.chunkStates
      tables := slice.tables
      absoluteRowPosition := S.absoluteRowPosition + chunkSize }
    match R.arrays R.fieldIdList slice.batch.columns with
    | .error e => (S, .error e)
    | .ok arrays => (S, .ok (some ⟨chunkSize, arrays⟩))

/-- The rows up to the row limit are delivered. -/
def refillDue (S : State V) : Bool := S.rowLimit ≤ S.absoluteRowPosition

/-- `ReadNext`: the next batch, or null at the end of the data. -/
def readNext (S : State V) : State V × ReadResult V :=
  if refillDue S then
    match R.advanceBuffer heap io S with
    | (S, some e) => (S, .error e)
    | (S, none) => if refillDue S then (S, .ok none) else R.deliver S
  else R.deliver S

end PackedReader

end MilvusStorage.Packed
