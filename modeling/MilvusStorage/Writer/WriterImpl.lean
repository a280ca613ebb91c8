import Mathlib.Data.UInt
import MilvusStorage.Writer.ColumnGroupWriter
import MilvusStorage.Writer.Policy

/-!
# The writer of a data set

The first batch decides the column groups, and a writer is created for each. A batch is distributed
to the groups: first groups are flushed until there is room for it, then every group is given its
columns of the batch, one group after the other. `close` closes the writers and returns the groups
with their files.

The heap of the memory usage holds pairs of a group and a number of bytes, and its top is the last
of them: the group with the greatest index, not the one with the most bytes.
-/

namespace MilvusStorage.Writer

open Command

variable {V P : Type}

/-- The interface of a policy with states `P`. -/
structure ColumnGroupPolicy (V P : Type) where
  requiresSample : Bool
  sample : Batch V → Command P Fault Unit
  getColumnGroups : P → Except Fault (List ColumnGroup)

/-- The three policies of the library. -/
def singlePolicy (config : Config) (format : String) : ColumnGroupPolicy V Unit where
  requiresSample := false
  sample _ := pure ()
  getColumnGroups _ := .ok [⟨config.schema, format, []⟩]

def schemaBasedPolicy (regexMatch : SchemaBasedColumnGroupPolicy.RegexMatch) :
    ColumnGroupPolicy V SchemaBasedColumnGroupPolicy where
  requiresSample := false
  sample _ := pure ()
  getColumnGroups p := p.getColumnGroups regexMatch

def sizeBasedPolicy : ColumnGroupPolicy V SizeBasedColumnGroupPolicy where
  requiresSample := true
  sample batch := fun p =>
    match p.sample (some (batch.numRows,
      (List.range batch.columns.length).map fun i => (batch.memorySize [i]).toNat)) with
    | .error e => (p, .error e)
    | .ok p' => (p', .ok ())
  getColumnGroups := SizeBasedColumnGroupPolicy.getColumnGroups

/-- A column group with the files it has been written to. -/
structure WrittenGroup (V : Type) where
  columns : List String
  format : String
  files : List (DataFile V)

def WrittenGroup.toColumnGroup (g : WrittenGroup V) : ColumnGroup :=
  ⟨g.columns, g.format, g.files.map DataFile.toColumnGroupFile⟩

structure WriterImpl (V P : Type) where
  world : World := {}
  closed : Bool := false
  initialized : Bool := false
  columnGroupPolicy : P
  cgs : List (WrittenGroup V) := []
  columnGroups : List ColumnGroup := []
  columnGroupWriters : List (ColumnGroupWriter V) := []
  currentMemoryUsage : UInt64 := 0
  memoryHeap : List (ℕ × UInt64) := []
  /-- How often the creation of the writers has been attempted. -/
  attempts : ℕ := 0
  /-- How many batches have been distributed. -/
  distributed : ℕ := 0

abbrev Step (V P α : Type) := Command (WriterImpl V P) Fault α

variable (env : Environment V) (config : Config) (policy : ColumnGroupPolicy V P)

/-- A command of the writer of the `i`-th group. -/
def atGroup {α : Type} (i : ℕ) (x : GroupStep V α) : Step V P α := fun w =>
  match w.columnGroupWriters[i]? with
  | none => (w, .error .outOfBounds)
  | some g =>
    let r := x (w.world, g)
    ({ w with world := r.1.1, columnGroupWriters := w.columnGroupWriters.set i r.1.2 }, r.2)

def assert (condition : Prop) [Decidable condition] : Step V P Unit :=
  if config.asserts ∧ ¬ condition then fail .assertionFailed else pure ()

/-! ## Initialization -/

/-- The policy is given a sample, if it requires one. -/
def sample (batch : Batch V) : Step V P Unit := fun w =>
  if policy.requiresSample then
    let r := policy.sample batch w.columnGroupPolicy
    ({ w with columnGroupPolicy := r.1 }, r.2)
  else (w, .ok ())

def getColumnGroups : Step V P (List ColumnGroup) := fun w =>
  match policy.getColumnGroups w.columnGroupPolicy with
  | .error e => (w, .error e)
  | .ok groups => ({ w with columnGroups := groups }, .ok groups)

/-- The writer of the `i`-th group in the `k`-th attempt. -/
def createWriter (k : ℕ) (columnGroup : ColumnGroup) (i : ℕ) : Step V P Unit := fun w =>
  match missingColumn config.schema columnGroup.columns with
  | some columnName =>
    let schemaText := config.schemaText
    (w, .error (.status (.invalid
      s!"Column [col_name={columnName}] not found in schema, schema details: {schemaText}")))
  | none =>
    let world := { w.world with uuidCount := w.world.uuidCount + 1 }
    match ColumnGroupWriter.create config (env.create k i) i columnGroup
      (env.uuid w.world.uuidCount) with
    | .error e => ({ w with world }, .error e)
    | .ok writer =>
      ({ w with world, columnGroupWriters := w.columnGroupWriters ++ [writer] }, .ok ())

def initializeColumnGroupWriters (batch : Batch V) : Step V P Unit := do
  sample policy batch
  let columnGroups ← getColumnGroups policy
  if columnGroups = [] then
    let schemaFields := config.schema.length
    let schemaText := config.schemaText
    fail (.status (.invalid ("Column group policy returned no column groups. " ++
      s!"[schema_fields={schemaFields}, schema={schemaText}]")))
  else
    let w ← get
    modify fun w => { w with attempts := w.attempts + 1 }
    let _ ← forEach (fun gi : ColumnGroup × ℕ => createWriter env config w.attempts gi.1 gi.2)
      columnGroups.zipIdx
    let w ← get
    assert config (w.columnGroupWriters.length = w.columnGroups.length)

/-! ## Distribution -/

/-- The order of `std::pair`. -/
def heapLt (a b : ℕ × UInt64) : Bool := a.1 < b.1 || (a.1 == b.1 && a.2 < b.2)

def heapTop : List (ℕ × UInt64) → Option (ℕ × UInt64)
  | [] => none
  | e :: heap =>
    match heapTop heap with
    | none => some e
    | some top => if heapLt top e then some e else some top

/-- The flush of a group of the heap. -/
def flushGroup (i : ℕ) : Step V P Unit := do
  let w ← get
  assert config (i < w.columnGroupWriters.length)
  if i < w.columnGroupWriters.length then atGroup i (ColumnGroupWriter.flush env config)
  else pure ()

/-- The loop that flushes groups until there is room for the next batch. It pops an entry of the
heap in each round, so that there are at most as many rounds as entries. -/
def makeRoom (nextBatchSize : UInt64) : ℕ → Step V P Unit
  | 0 => pure ()
  | rounds + 1 => do
    let w ← get
    match heapTop w.memoryHeap with
    | none => pure ()
    | some maxGroup =>
      if w.currentMemoryUsage + nextBatchSize < config.bufferSize then pure ()
      else
        modify fun w => { w with
          memoryHeap := w.memoryHeap.erase maxGroup
          currentMemoryUsage := w.currentMemoryUsage - maxGroup.2 }
        flushGroup env config maxGroup.1
        makeRoom nextBatchSize rounds

def getFieldIndex (schema : List String) (columnName : String) : Option ℕ :=
  if schema.count columnName = 1 then some (schema.idxOf columnName) else none

/-- The positions of the columns of a group in a batch. -/
def columnPositions (schema : List String) (batch : Batch V) (columnGroup : ColumnGroup) : List ℕ :=
  columnGroup.columns.filterMap fun columnName =>
    (getFieldIndex schema columnName).filter (· < batch.columns.length)

/-- The batch of the columns at these positions. -/
def Batch.project (batch : Batch V) (positions : List ℕ) : RecordBatch V :=
  ⟨batch.numRows, positions.filterMap fun i => batch.columns[i]?⟩

def groupBatch (schema : List String) (columnGroup : ColumnGroup) (batch : Batch V) :
    RecordBatch V :=
  batch.project (columnPositions schema batch columnGroup)

/-- The `k`-th batch is written to the `i`-th group. -/
def writeGroup (k : ℕ) (batch : Batch V) (columnGroup : ColumnGroup) (i : ℕ) : Step V P Unit :=
  let positions := columnPositions config.schema batch columnGroup
  if positions = [] then pure ()
  else do
    let groupMemory := batch.memorySize positions
    modify fun w => { w with
      currentMemoryUsage := w.currentMemoryUsage + groupMemory
      memoryHeap := (i, groupMemory) :: w.memoryHeap }
    let w ← get
    let size := w.columnGroupWriters.length
    if i ≥ size then
      fail (.status (.invalid ("Logical error, current column group index out of range. " ++
        s!"[index={i}, size={size}]")))
    else
      atGroup i (ColumnGroupWriter.write (env.write k i) groupMemory
        (groupBatch config.schema columnGroup batch))

/-- `balanceMemoryHeap`: one entry for each group. -/
def balanceMemoryHeap (heap : List (ℕ × UInt64)) : List (ℕ × UInt64) :=
  (heap.map Prod.fst).dedup.map fun i => (i, ((heap.filter (·.1 = i)).map Prod.snd).sum)

def distributeBatch (batch : Batch V) : Step V P Unit := do
  let w ← get
  if w.columnGroups = [] then
    fail (.status (.invalid "Fail to distribute record batchs, no column groups initialized"))
  else
    modify fun w => { w with distributed := w.distributed + 1 }
    makeRoom env config (batch.memorySize (List.range batch.columns.length)) w.memoryHeap.length
    let _ ← forEach
      (fun gi : ColumnGroup × ℕ => writeGroup env config w.distributed batch gi.1 gi.2)
      w.columnGroups.zipIdx
    modify fun w => { w with memoryHeap := balanceMemoryHeap w.memoryHeap }

/-! ## The calls -/

/-- The column group writers, before the first batch is distributed. -/
def ensureInitialized (batch : Batch V) : Step V P Unit := do
  let w ← get
  if w.initialized then pure ()
  else
    initializeColumnGroupWriters env config policy batch
    modify fun w => { w with initialized := true }

def write (batch : Option (Batch V)) : Step V P Unit := do
  let w ← get
  if w.closed then
    let basePath := config.basePath
    let schemaText := config.schemaText
    fail (.status (.invalid
      s!"Cannot write to closed writer. [base_path={basePath}, schema={schemaText}]"))
  else
    match batch with
    | none => pure ()
    | some batch =>
      ensureInitialized env config policy batch
      distributeBatch env config batch

def flush : Step V P Unit := do
  let w ← get
  if w.closed then
    let basePath := config.basePath
    let schemaText := config.schemaText
    fail (.status (.invalid
      s!"Cannot flush closed writer. [base_path={basePath}, schema={schemaText}]"))
  else
    let _ ← forEach (fun i => atGroup i (ColumnGroupWriter.flush env config))
      (List.range w.columnGroupWriters.length)
    modify fun w => { w with currentMemoryUsage := 0, memoryHeap := [] }

/-- The writer of a group is closed, and the group is returned with its files. -/
def closeGroup (columnGroup : ColumnGroup) (i : ℕ) : Step V P Unit := do
  let files ← atGroup i (ColumnGroupWriter.close env)
  modify fun w => { w with cgs := w.cgs ++ [⟨columnGroup.columns, columnGroup.format, files⟩] }

def close : Step V P (List (WrittenGroup V)) := do
  let w ← get
  let basePath := config.basePath
  let schemaText := config.schemaText
  let writers := w.columnGroupWriters.length
  let groups := w.columnGroups.length
  if w.closed then
    fail (.status (.invalid s!"Writer already closed. [base_path={basePath}, schema={schemaText}]"))
  else if writers > groups then
    fail (.status (.invalid ("Internal error: More column group writers than column groups. " ++
      s!"[base_path={basePath}, schema={schemaText}, writers={writers}, groups={groups}]")))
  else
    let _ ← forEach (fun gi : ColumnGroup × ℕ => closeGroup env gi.1 gi.2)
      (w.columnGroups.take writers).zipIdx
    modify fun w => { w with closed := true }
    if writers < groups then
      modify fun w => { w with cgs := [] }
      return []
    else
      let w ← get
      return w.cgs

end MilvusStorage.Writer
