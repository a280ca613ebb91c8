import Mathlib.Logic.Function.Basic
import MilvusStorage.Common.SelectedRows
import MilvusStorage.Format.Open
import MilvusStorage.Foundations.Commands

/-!
# The parquet reader

`ParquetFormatReader` of an open file: `read_with_range` and `take`, and their asynchronous
versions. The parquet library decodes whole row groups. `ReadRowGroups` returns them as a table, a
list of chunks, and the generator behind the asynchronous reads returns record batches. What is not
asked for is cut off afterwards.

A row is opaque here, so a chunk and a batch are lists of rows. Of a schema the names of its fields
are kept.
-/

namespace MilvusStorage.Parquet

open Format (RowGroupInfo)

variable {Row : Type}

/-- `arrow::Schema::GetFieldIndex`: no index if the name is not unique. -/
def getFieldIndex (schema : List String) (name : String) : Option ℕ :=
  if schema.count name = 1 then some (schema.idxOf name) else none

/-- An open file, and what the parquet and arrow libraries do with it. -/
structure ParquetFormatReader (Row : Type) where
  path : String
  schema : List String
  neededColumns : List String := []
  /-- Opening a file fails if a needed column is not found. -/
  needed : ∀ c ∈ neededColumns, (getFieldIndex schema c).isSome
  rowGroupInfos : List RowGroupInfo
  /-- `ReadRowGroups`: the chunks of the table. -/
  readRowGroups : List ℕ → Except Fault (List (List Row))
  /-- `GetRecordBatchGenerator` and `CollectAsyncGenerator`: the batches. -/
  collectGenerator : List ℕ → Except Fault (List (List Row))
  /-- `ConvertTableToRecordBatchs`: the chunks of the columns need not be aligned. -/
  tableBatches : List (List Row) → List (List Row)
  /-- The builders of the columns, which append slices of rows, or refuse them. -/
  build : List (List Row) → Except Status (List Row)

/-! ## Rows in a range -/

/-- `arrow::Table::Slice`. -/
def sliceTable : ℕ → ℕ → List (List Row) → List (List Row)
  | _, _, [] => []
  | offset, length, chunk :: chunks =>
    (chunk.drop offset).take length ::
      sliceTable (offset - chunk.length) (length - (chunk.length - offset)) chunks

structure RangeRecordBatchReader (Row : Type) where
  schema : List String
  rgIndices : List ℕ
  firstRgSliceOffset : ℕ
  totalRows : ℕ
  loaded : Bool := false
  batches : List (List Row) := []
  currentBatchIndex : ℕ := 0

namespace RangeRecordBatchReader

def loadData (f : ParquetFormatReader Row) : Command (RangeRecordBatchReader Row) Fault Unit :=
  fun r =>
    match f.readRowGroups r.rgIndices with
    | .error e => (r, .error e)
    | .ok table =>
      if r.firstRgSliceOffset > 0 ∨
          table.flatten.length > (r.totalRows + r.firstRgSliceOffset) % 2 ^ 64 then
        -- arrow aborts if the slice starts after the end
        if r.firstRgSliceOffset > table.flatten.length then (r, .error .assertionFailed)
        else
          let table := sliceTable r.firstRgSliceOffset r.totalRows table
          ({ r with loaded := true, batches := f.tableBatches table }, .ok ())
      else ({ r with loaded := true, batches := f.tableBatches table }, .ok ())

def readNext (f : ParquetFormatReader Row) :
    Command (RangeRecordBatchReader Row) Fault (Option (List Row)) := fun r =>
  match (if r.loaded then (r, .ok ()) else loadData f r) with
  | (r, .error e) => (r, .error e)
  | (r, .ok ()) =>
    match r.batches[r.currentBatchIndex]? with
    | none => (r, .ok none)
    | some rb => ({ r with currentBatchIndex := r.currentBatchIndex + 1 }, .ok (some rb))

end RangeRecordBatchReader

namespace ParquetFormatReader

variable (f : ParquetFormatReader Row)

/-- The row groups that a range overlaps. -/
def overlapping (startOffset endOffset : ℕ) : List ℕ :=
  (f.rowGroupInfos.zipIdx.filter fun p =>
    p.1.endOffset > startOffset ∧ p.1.startOffset < endOffset).map Prod.snd

/-- The start of the first row group that a range overlaps. -/
def firstRgStartOffset (startOffset endOffset : ℕ) : ℕ :=
  ((f.rowGroupInfos.find? fun rg => rg.endOffset > startOffset ∧ rg.startOffset < endOffset).map
    RowGroupInfo.startOffset).getD 0

/-- The checks of both range reads. -/
def checkRange (startOffset endOffset : ℕ) : Except Fault Unit :=
  match f.rowGroupInfos.head?, f.rowGroupInfos.getLast? with
  | some front, some back =>
    if startOffset ≥ endOffset ∨ startOffset < front.startOffset ∨ endOffset > back.endOffset then
      .error (.status (.invalid
        (s!"Invalid range: start_offset={startOffset}, end_offset={endOffset}. [path={f.path}, "
          ++ s!"valid_range=[{front.startOffset}, {back.endOffset}]]")))
    else .ok ()
  | _, _ => .error (.status (.invalid s!"Empty row group infos. [path={f.path}]"))

/-- The schema of the batches. -/
def projectedSchema : Except Fault (List String) :=
  if f.neededColumns = [] then .ok f.schema
  else f.neededColumns.mapM fun c =>
    match (getFieldIndex f.schema c).bind fun i => f.schema[i]? with
    | none => .error (.status (.invalid s!"Column '{c}' not found in schema. [path={f.path}]"))
    | some field => .ok field

def readWithRange (startOffset endOffset : ℕ) : Except Fault (RangeRecordBatchReader Row) := do
  f.checkRange startOffset endOffset
  let rgIndices := f.overlapping startOffset endOffset
  match rgIndices.getLast?.bind fun last => f.rowGroupInfos[last]? with
  | none => .error .outOfBounds
  | some back =>
    if endOffset ≤ back.endOffset then do
      let schema ← f.projectedSchema
      return { schema
               rgIndices
               firstRgSliceOffset :=
                 toUnsigned 64 (startOffset - f.firstRgStartOffset startOffset endOffset)
               totalRows := toUnsigned 64 (endOffset - startOffset) }
    else .error .assertionFailed

/-- The last batch may extend past the end of the range. -/
def trimLast (totalRows : ℕ) (batches : List (List Row)) : Except Fault (List (List Row)) :=
  let excess : ℤ := toSigned 64 batches.flatten.length - toSigned 64 totalRows
  if excess > 0 then
    match batches.getLast? with
    | none => .error .outOfBounds
    | some last =>
      if excess > last.length then .error .outOfBounds
      else .ok (batches.dropLast ++ [last.take (last.length - excess).toNat])
  else .ok batches

/-- What `read_with_range_async` does with the batches of the generator. -/
def trimBatches (firstRgSliceOffset totalRows : ℕ) :
    List (List Row) → Except Fault (List (List Row))
  | [] => .ok []
  | first :: rest =>
    if firstRgSliceOffset > 0 then
      -- arrow aborts if the slice starts after the end
      if firstRgSliceOffset > first.length then .error .assertionFailed
      else trimLast totalRows (first.drop firstRgSliceOffset :: rest)
    else trimLast totalRows (first :: rest)

/-- `read_with_range_async`: the schema and the batches of the reader that the future yields. -/
def readWithRangeAsync (startOffset endOffset : ℕ) :
    Except Fault (List String × List (List Row)) := do
  f.checkRange startOffset endOffset
  let schema ← f.projectedSchema
  let batches ← f.collectGenerator (f.overlapping startOffset endOffset)
  let batches ←
    trimBatches (toUnsigned 64 (startOffset - f.firstRgStartOffset startOffset endOffset))
      (toUnsigned 64 (endOffset - startOffset)) batches
  return (schema, batches)

/-! ## Selected rows -/

/-- `std::upper_bound` over the starts of the row groups. They do not decrease, so it is the first
row group that starts after the row. The row is compared as a `size_t`. -/
def upperBound (rowIndex : ℤ) : ℕ :=
  f.rowGroupInfos.findIdx fun rg => toUnsigned 64 rowIndex < rg.startOffset

/-- The row group of a row. -/
def chunkIndex (rowIndex : ℤ) : Except Fault ℕ :=
  let outOfRange := .error (.status (.invalid
    (s!"Row index out of range: {rowIndex}. [path={f.path}, valid_range=[0, "
      ++ (f.rowGroupInfos.getLast?.elim "0" fun rg => toString rg.endOffset) ++ "]]")))
  match f.upperBound rowIndex with
  | 0 => outOfRange
  | prev + 1 =>
    match f.rowGroupInfos[prev]? with
    | none => .error .outOfBounds
    | some rg => if toUnsigned 64 rowIndex < rg.endOffset then .ok prev else outOfRange

def getChunkIndices (rowIndices : List ℤ) : Except Fault (List ℕ) :=
  rowIndices.mapM f.chunkIndex

/-- `std::unique`: adjacent equal entries are one entry. -/
def unique : List ℕ → List ℕ
  | [] => []
  | [c] => [c]
  | c :: d :: cs => if c = d then unique (d :: cs) else c :: unique (d :: cs)

/-- `chunk_base_offsets`: where each row group starts in the table. -/
def baseOffsets : ℤ → List ℕ → (ℕ → ℤ) → Except Fault (ℕ → ℤ)
  | _, [], offsets => .ok offsets
  | rows, c :: cs, offsets =>
    match f.rowGroupInfos[c]? with
    | none => .error .outOfBounds
    | some rg => baseOffsets (toSigned 64 (rows + (rg.endOffset - rg.startOffset))) cs
        (Function.update offsets c rows)

/-- The place of a row in the table. -/
def tableTakeIndex (offsets : ℕ → ℤ) (rowIndex : ℤ) (c : ℕ) : Except Fault ℤ :=
  match f.rowGroupInfos[c]? with
  | none => .error .outOfBounds
  | some rg => .ok (toSigned 64 (offsets c + (rowIndex - rg.startOffset)))

/-- Copy the rows out of the table of their row groups. -/
def takeFromTable (rowIndices : List ℤ) (chunkIndices : List ℕ) (table : List (List Row)) :
    Except Fault (List Row) := do
  let offsets ← f.baseOffsets 0 (unique chunkIndices) fun _ => 0
  let tableTakeIndices ← (rowIndices.zip chunkIndices).mapM fun p =>
    f.tableTakeIndex offsets p.1 p.2
  let columns ← copySelectedRows (fun () => f.build) table.flatten.length [((), table)]
    tableTakeIndices
  return columns.flatMap Prod.snd

def take (rowIndices : List ℤ) : Except Fault (List Row) := do
  let chunkIndices ← f.getChunkIndices rowIndices
  let table ← f.readRowGroups (unique chunkIndices)
  f.takeFromTable rowIndices chunkIndices table

/-- `arrow::Table::FromRecordBatches`. -/
def fromRecordBatches (batches : List (List Row)) : Except Fault (List (List Row)) :=
  if batches = [] then
    .error (.status (.invalid "Must pass at least one record batch or an explicit Schema"))
  else .ok batches

def takeAsync (rowIndices : List ℤ) : Except Fault (List Row) := do
  let chunkIndices ← f.getChunkIndices rowIndices
  let batches ← f.collectGenerator (unique chunkIndices)
  let table ← fromRecordBatches batches
  f.takeFromTable rowIndices chunkIndices table

end ParquetFormatReader

end MilvusStorage.Parquet
