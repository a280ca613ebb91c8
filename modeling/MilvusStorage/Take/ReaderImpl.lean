import MilvusStorage.Format.Scan
import MilvusStorage.Foundations.Scatter
import MilvusStorage.Take.LazyReader

/-!
# `take` of a reader

`ReaderImpl` reads the columns of a projection from several column groups, by a scan or by taking
rows. A take reads the rows of every group that holds a needed column, and `build_take_table` puts
the columns side by side; a column that no group holds is null, if a schema has a field for it.

`take_tables_async` starts the tasks of all groups at once. The rows of a group come back in the
order of its tasks, and their positions tell how to put them in order.
-/

namespace MilvusStorage.Take

open Format

variable {V : Type}

/-- The files of the column groups: their rows, and what opening one for some columns gives. -/
structure Environment (V : Type) where
  storage : String → List (NamedRow V)
  openForTake : ColumnGroup → List String → ColumnGroupFile → Except Status (FileReader V)
  openForTakeAsync : ColumnGroup → List String → ColumnGroupFile →
    Except String (Except Status (FileReader V))
  openForScan : ColumnGroup → ColumnGroupFile → Except Status (FormatReader (NamedRow V))
  /-- The fields of the schema that the reader of a group has. -/
  fields : ColumnGroup → List String
  /-- The columns that a file opened for the needed ones returns: these, but if none is needed it
  depends on the format. -/
  columnsOf : ColumnGroup → List String → List String
  /-- The builders that `CopySelectedRows` makes for the columns. -/
  build : ColumnBuilder String (Option V)

/-- What the scan opens a column group with. -/
def Environment.source (E : Environment V) (g : ColumnGroup) : Source (NamedRow V) where
  columnGroup := g
  openReaderForFile := E.openForScan g
  openReaderForFileAsync file := .ok (E.openForScan g file)

/-- `ReaderImpl`. A group can be null, and the schema and the projection can be missing. -/
structure ReaderImpl where
  cgs : List (Option ColumnGroup)
  schema : Option (List String)
  neededColumns : Option (List String)
  /-- The value of `reader.async.task_split_strategy`. -/
  taskSplitStrategy : String
  properties : Reader.Properties

/-! ## The projection -/

/-- `GetFieldIndex`, or `GetFieldByName`, finds the field; a name that occurs twice is not found. -/
def hasField (schema : List String) (name : String) : Bool := schema.count name = 1

/-- The first name that occurs again. -/
def firstDuplicate : List String → List String → Option String
  | _, [] => none
  | seen, name :: names => if name ∈ seen then some name else firstDuplicate (name :: seen) names

namespace ReaderImpl

variable (E : Environment V) (R : ReaderImpl)

def effectiveNeededColumns (perCall : Option (List String)) : Option (List String) :=
  match perCall with
  | some (name :: names) => some (name :: names)
  | _ => R.neededColumns

/-- The columns to read: those asked for, else those of the schema, else those of all groups. -/
def requestedColumns (neededColumns : Option (List String)) : List String :=
  match neededColumns, R.schema with
  | some (name :: names), _ => name :: names
  | _, some schema => schema
  | _, none => (R.cgs.flatMap fun cg => cg.elim [] ColumnGroup.columns).eraseDups

def resolveNeededColumns (neededColumns : Option (List String)) : Except Fault (List String) :=
  match firstDuplicate [] (neededColumns.getD []) with
  | some name => .error (.status (.invalid
      s!"needed_columns contains duplicate column name: '{name}'"))
  | none =>
    let resolved := R.requestedColumns neededColumns
    match R.schema.bind fun schema => resolved.find? fun name => !hasField schema name with
    | some name => .error (.status (.invalid s!"Column [name={name}] not found in schema"))
    | none => .ok resolved

/-- The first group that has the column. -/
def groupOfColumn (name : String) : Option ℕ :=
  R.cgs.findIdx? fun cg => cg.any fun cg => name ∈ cg.columns

/-- `collect_required_column_group_indices`: if no group has any of the columns, the first group is
read for its number of rows. -/
def collectRequiredColumnGroupIndices (neededColumns : List String) : List ℕ :=
  match (neededColumns.filterMap R.groupOfColumn).eraseDups with
  | [] => if R.cgs = [] then [] else [0]
  | indices => indices

def columnGroupsFromIndices (indices : List ℕ) : Except Fault (List ColumnGroup) :=
  indices.mapM fun index =>
    let size := R.cgs.length
    match R.cgs[index]? with
    | none => .error (.status (.invalid
        s!"Column group index out of range: {index} (size: {size})"))
    | some none => .error (.status (.invalid s!"Column group at index {index} is null"))
    | some (some cg) => .ok cg

/-- The groups that are read. -/
def requiredColumnGroups (neededColumns : List String) : Except Fault (List ColumnGroup) :=
  R.columnGroupsFromIndices (R.collectRequiredColumnGroupIndices neededColumns)

/-! ## The scan -/

end ReaderImpl

/-- What `get_record_batch_reader` returns. -/
inductive RecordBatchReader (V : Type)
  /-- A reader of a table without rows. -/
  | empty
  | packed (reader : Reader.PackedReader V)

/-- Without failures, these batches are returned and then null. -/
def RecordBatchReader.Drains (heap : RowOffsetMinHeap) (bs : List (RecordBatch V)) :
    RecordBatchReader V → Prop
  | empty => bs = []
  | packed reader => reader.Drains heap bs

namespace ReaderImpl

variable (E : Environment V) (R : ReaderImpl)

/-- `get_record_batch_reader`, without a predicate. -/
def getRecordBatchReader : Except Fault (RecordBatchReader V) :=
  if R.cgs = [] then
    match R.schema with
    | some _ => .ok .empty
    | none => .error (.status (.invalid "Cannot read from empty column groups without a schema"))
  else do
    let resolvedColumns ← R.resolveNeededColumns R.neededColumns
    let groups ← R.requiredColumnGroups resolvedColumns
    if resolvedColumns = [] then .error .assertionFailed
    else
      let readers ← groups.mapM fun g => Format.open (E.source g)
      let reader ← Reader.openReader (R.schema.map fun _ => resolvedColumns)
        (readers.map fun r => r.answers E.storage (E.fields r.source.columnGroup))
        resolvedColumns false R.properties
      return .packed reader

/-! ## Putting the columns together -/

/-- `create_lazy_readers`: a group is opened for the needed columns that it has. -/
def lazyReader (resolvedColumns : List String) (g : ColumnGroup) : ColumnGroupLazyReader V where
  files := g.files
  openFile := E.openForTake g (resolvedColumns.filter fun name => name ∈ g.columns)
  openFileAsync := E.openForTakeAsync g (resolvedColumns.filter fun name => name ∈ g.columns)

end ReaderImpl

/-- All tables have the same number of rows. -/
def checkRowCounts (lastRowCounts : Option ℕ) : List (Table V) → Except Fault Unit
  | [] => .ok ()
  | t :: tables =>
    if lastRowCounts.any fun rows => rows ≠ t.numRows then
      .error (.status (.invalid "Logical error, different row counts in column groups"))
    else checkRowCounts (some t.numRows) tables

/-- An output column: of a table, or null. In `colname_to_index` a later entry replaces an earlier
one. -/
def takeColumn (tables : List (Table V)) (numRows : ℕ) (schema : Option (List String))
    (name : String) : Except Fault (String × ChunkedArray V) :=
  match (tables.flatMap Table.columns).reverse.lookup name with
  | some chunks => .ok (name, chunks)
  | none =>
    match schema with
    | none => .error (.status (.invalid (s!"Column '{name}' not found in any column group and " ++
        "no schema provided for null filling")))
    | some schema =>
      if hasField schema name then .ok (name, [List.replicate numRows none])
      else .error .nullDereference

def buildTakeTable (tables : List (Table V)) (rowIndices : List ℤ) (resolvedColumns : List String)
    (schema : Option (List String)) : Except Fault (Table V) := do
  checkRowCounts none tables
  let columns ← resolvedColumns.mapM (takeColumn tables rowIndices.length schema)
  return ⟨columns, rowIndices.length⟩

/-- `build_empty_projected_schema`, and a table with it that has no rows. -/
def emptyTable (schema resolvedColumns : List String) : Except Fault (Table V) :=
  if resolvedColumns.all (hasField schema) then
    .ok ⟨resolvedColumns.map fun name => (name, [[]]), 0⟩
  else .error .assertionFailed

/-! ## `take` -/

namespace ReaderImpl

variable (E : Environment V) (R : ReaderImpl)

/-- A take of no rows, which reads no group. -/
def takeNothing (neededColumns : Option (List String)) : Except Fault (Table V) :=
  match R.schema with
  | none => .error (.status (.invalid "Cannot create empty table without a schema"))
  | some schema => do
    let resolvedColumns ← R.resolveNeededColumns (R.effectiveNeededColumns neededColumns)
    emptyTable schema resolvedColumns

/-- What a take of some rows starts with: the needed columns, and the groups that are read. -/
def plan (neededColumns : Option (List String)) : Except Fault (List String × List ColumnGroup) :=
  if R.cgs = [] then
    .error (.status (.invalid "Empty column groups without empty input row indices"))
  else do
    let resolvedColumns ← R.resolveNeededColumns (R.effectiveNeededColumns neededColumns)
    let groups ← R.requiredColumnGroups resolvedColumns
    return (resolvedColumns, groups)

/-- `take`, with a pool of `numThreads` threads. -/
def take (rowIndices : List ℤ) (parallelism : ℕ) (neededColumns : Option (List String))
    (numThreads : ℕ) : Except Fault (Table V) :=
  if rowIndices = [] then R.takeNothing neededColumns
  else do
    let (resolvedColumns, groups) ← R.plan neededColumns
    let tables ← groups.mapM fun g =>
      (lazyReader E resolvedColumns g).take rowIndices parallelism numThreads
    buildTakeTable tables rowIndices resolvedColumns R.schema

/-! ## `take_async` -/

/-- The tasks of a request. -/
def takeTasks (groups : List ColumnGroup) (rowIndices : List ℤ) (parallelism : ℕ) :
    Except Fault (List TakeTask) := do
  let tasks ← TakeTask.build (groups.map ColumnGroup.files) rowIndices
  splitAsyncTasks TakeTask.traits tasks (max parallelism 1)
    (getAsyncTaskSplitStrategy R.taskSplitStrategy)

end ReaderImpl

/-- The call of `take_async` for a task. -/
def runTask (readers : List (ColumnGroupLazyReader V)) (task : TakeTask) :
    Except String (Except Fault (Table V)) :=
  match readers[task.readerIndex]? with
  | none => .ok (.error .outOfBounds)
  | some reader => reader.takeAsync task

/-- The results of the tasks; the first failure is returned. -/
def collectTables (results : List (TakeTask × Except String (Except Fault (Table V)))) :
    Except Fault (List (TakeTask × Table V)) :=
  results.mapM fun (task, result) => do
    let result ← result.mapError fun what => Fault.status (.ioError what)
    let t ← result
    return (task, t)

/-- `reorder[positions[i]] = i`, for all positions. -/
def reorder (numRows : ℕ) (positions : List ℕ) : Except Fault (List ℤ) :=
  match Scatter.scatter (List.replicate numRows 0)
    (positions.zipIdx.map fun (p, i) => (p, (i : ℤ))) with
  | none => .error .outOfBounds
  | some places => .ok places

section

variable (build : ColumnBuilder String (Option V))

/-- The table of a group, from the tables of its tasks; `none` if it has no task. -/
def groupTable (numRows : ℕ) (tables : List (TakeTask × Table V)) :
    Except Fault (Option (Table V)) :=
  if tables = [] then .ok none
  else do
    let concatenated ← concatenateTables (tables.map Prod.snd)
    let positions := tables.flatMap fun t => t.1.originalPositions
    let numPositions := positions.length
    if numPositions ≠ numRows then
      .error (.status (.invalid
        s!"Async take returned {numPositions} row positions for {numRows} requested rows"))
    else
      let places ← reorder numRows positions
      some <$> concatenated.copySelectedRows build places

/-- The loop over the groups. -/
def groupTables (numReaders numRows : ℕ) (tables : List (TakeTask × Table V)) :
    Except Fault (List (Table V)) := do
  let groups ← (List.range numReaders).mapM fun cg =>
    groupTable build numRows (tables.filter fun t => t.1.readerIndex = cg)
  return groups.filterMap id

def takeTablesAsync (rowIndices : List ℤ) (readers : List (ColumnGroupLazyReader V))
    (tasks : List TakeTask) (order : List ℕ) : Option (Except Fault (List (Table V))) := do
  let results ← collectAll (tasks.map (runTask readers)) order
  return do
    let tables ← collectTables (tasks.zip results)
    groupTables build readers.length rowIndices.length tables

end

namespace ReaderImpl

variable (E : Environment V) (R : ReaderImpl)

/-- `take_async`, with tasks that complete in the given order. -/
def takeAsync (rowIndices : List ℤ) (parallelism : ℕ) (neededColumns : Option (List String))
    (order : List ℕ) : Option (Except Fault (Table V)) :=
  if rowIndices = [] then some (R.takeNothing neededColumns)
  else
    match R.plan neededColumns with
    | .error e => some (.error e)
    | .ok (resolvedColumns, groups) =>
      match R.takeTasks groups rowIndices parallelism with
      | .error e => some (.error e)
      | .ok tasks => do
        let tables ← takeTablesAsync E.build rowIndices
          (groups.map (lazyReader E resolvedColumns)) tasks order
        return do
          let tables ← tables
          buildTakeTable tables rowIndices resolvedColumns R.schema

end ReaderImpl

end MilvusStorage.Take
