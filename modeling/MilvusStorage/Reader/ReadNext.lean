import Mathlib.Algebra.BigOperators.Group.Finset.Basic
import MilvusStorage.Common.Stream
import MilvusStorage.Reader.Open

/-!
# Reading record batches from column groups

`ReadNext` of the column-group reader. A call first loads: when some group has no batch queued and
chunks left, a round plans the next chunks of all groups, reads them and queues their batches. Then
it returns as many rows as every group has at the front of its queue.

* The cursor of a group and its list of planned chunks move while the round is planned, before
  anything is read. A call that fails leaves them where they are.
* The plan takes the group with the smallest row offset first, and stops at the memory limit once
  every group has a batch queued or planned.
* With a predicate, chunks are read one by one and may turn out empty; the call then loads again.

The calls to the readers of the groups can fail at any time: `Io` says which ones do in a call of
`ReadNext`, and none is made twice in one.
-/

namespace MilvusStorage.Reader

/-- The calls of a reader of a column group. -/
inductive IoCall
  | chunkEstimatedSize (i c : ℕ)
  | chunkRows (i c : ℕ)
  | chunks (i : ℕ)
  | chunk (i c : ℕ)
  deriving DecidableEq

/-- The statuses of the calls that fail. -/
abbrev Io := IoCall → Option Status

/-- No call fails. -/
def Io.noFailure : Io := fun _ => none

/-- The state of one column group. -/
structure Cursor (V : Type) where
  /-- `current_rbs_` -/
  rbs : List (RecordBatch V) := []
  /-- `current_cg_offsets_` -/
  offset : ℕ := 0
  /-- `current_cg_chunk_indices_` -/
  chunkIndex : ℕ := 0
  /-- `loaded_chunk_indices_`: the chunks that are planned and not yet read. -/
  loaded : List ℕ := []

structure State (V : Type) where
  cg : ℕ → Cursor V := fun _ => {}
  memoryUsed : ℤ := 0
  currentOffset : ℕ := 0

variable {V : Type}

def State.set (S : State V) (i : ℕ) (c : Cursor V) : State V :=
  { S with cg := Function.update S.cg i c }

namespace PackedReader

variable (R : PackedReader V) (heap : RowOffsetMinHeap) (io : Io)

def size : ℕ := R.readers.length

/-- The chunks of a group. -/
def chunks (i : ℕ) : List (Chunk V) :=
  match R.readers[i]? with
  | some r => r.chunks
  | none => []

/-- The columns of the batches of a group. -/
def names (i : ℕ) : List String :=
  match R.readers[i]? with
  | some r => projection R.neededColumns r
  | none => []

/-- `number_of_chunks_per_cg_` -/
def numberOfChunks (i : ℕ) : ℕ := (R.chunks i).length

/-- What reading a chunk queues: its batch, or with a predicate the rows that are left, if any. -/
def fetched (i : ℕ) (c : Chunk V) : List (RecordBatch V) :=
  if R.predicate then
    match c.filtered with
    | some r => if 0 < r.count then [r.project (R.names i)] else []
    | none => []
  else [c.content.project (R.names i)]

/-- What reading the `c`-th chunk queues. -/
def fetchedAt (i c : ℕ) : List (RecordBatch V) :=
  match (R.chunks i)[c]? with
  | some chunk => R.fetched i chunk
  | none => []

/-! ## Planning -/

/-- Some group has nothing queued and chunks left to plan. -/
def needLoad (S : State V) : Bool :=
  (List.range R.size).any fun i =>
    (S.cg i).rbs.isEmpty && (S.cg i).chunkIndex < R.numberOfChunks i

/-- Every group with chunks left has a batch queued or planned. -/
def allCgsHaveData (S : State V) : Bool :=
  (List.range R.size).all fun i =>
    !((S.cg i).rbs.isEmpty && (S.cg i).loaded.isEmpty && (S.cg i).chunkIndex < R.numberOfChunks i)

/-- `get_chunk_estimated_size`; `none` if it is not implemented. -/
def chunkEstimatedSize (i c : ℕ) (chunk : Chunk V) : Except Status (Option ℕ) :=
  match io (.chunkEstimatedSize i c) with
  | some s => if s.code = .notImplemented then .ok none else .error s
  | none => .ok chunk.estimatedSize

/-- `memory_used_` is a signed 64-bit integer. -/
def addMemory (S : State V) (size : Option ℕ) : State V :=
  match size with
  | some n => { S with memoryUsed := toSigned 64 (S.memoryUsed + n) }
  | none => S

/-- `preload_column_group`: the planned chunk, and whether the size of the chunk is unavailable. -/
def preloadColumnGroup (i : ℕ) (S : State V) : State V × Except Fault (ℕ × Bool) :=
  let c := (S.cg i).chunkIndex
  match (R.chunks i)[c]? with
  | none => (S, .error .assertionFailed)
  | some chunk =>
    match chunkEstimatedSize io i c chunk with
    | .error s => (S, .error (.status s))
    | .ok size =>
      let S := addMemory S size
      match io (.chunkRows i c) with
      | some s => (S, .error (.status s))
      | none =>
        (S.set i { S.cg i with
          offset := (S.cg i).offset + chunk.content.count
          chunkIndex := c + 1 }, .ok (c, size.isNone))

/-- The entry of a group in the heap, if it has chunks left; row offsets are narrowed to `int`. -/
def heapEntry (S : State V) (i : ℕ) : List (ℕ × ℤ) :=
  if (S.cg i).chunkIndex < R.numberOfChunks i then [(i, toSigned 32 (S.cg i).offset)] else []

/-- The planning loop. `fuel` bounds the number of iterations. -/
def plan : ℕ → List (ℕ × ℤ) → Bool → State V → State V × Option Fault
  | 0, _, _, S => (S, none)
  | fuel + 1, sortedOffsets, memorySizeUnavailable, S =>
    if sortedOffsets = [] ∨ ¬ (((!memorySizeUnavailable && S.memoryUsed < R.memoryUsageLimit) ||
        !R.allCgsHaveData S) = true) then (S, none)
    else
      let top := heap.top sortedOffsets
      let sortedOffsets := sortedOffsets.erase top
      let i := top.1
      if R.numberOfChunks i ≤ (S.cg i).chunkIndex then
        plan fuel sortedOffsets memorySizeUnavailable S
      else match R.preloadColumnGroup io i S with
        | (S, .error e) => (S, some e)
        | (S, .ok (c, unavailable)) =>
          let S := S.set i { S.cg i with loaded := (S.cg i).loaded ++ [c] }
          plan fuel (R.heapEntry S i ++ sortedOffsets) (memorySizeUnavailable || unavailable) S

/-- The iterations of the planning loop: each takes a chunk or an entry of the heap. -/
def planFuel : ℕ := (∑ i ∈ Finset.range R.size, R.numberOfChunks i) + R.size

/-! ## Loading -/

/-- Queue batches of a group. -/
def push (S : State V) (i : ℕ) (rbs : List (RecordBatch V)) : State V :=
  S.set i { S.cg i with rbs := (S.cg i).rbs ++ rbs }

/-- With a predicate, `get_chunk` reads the planned chunks one by one. -/
def fetchEach (i : ℕ) : List ℕ → State V → State V × Option Fault
  | [], S => (S, none)
  | c :: cs, S =>
    match io (.chunk i c) with
    | some s => (S, some (.status s))
    | none => fetchEach i cs (push S i (R.fetchedAt i c))

/-- Read the planned chunks of a group. -/
def fetch (i : ℕ) (S : State V) : State V × Option Fault :=
  if R.predicate then R.fetchEach io i (S.cg i).loaded S
  else match io (.chunks i) with
    | some s => (S, some (.status s))
    | none => (push S i ((S.cg i).loaded.flatMap (R.fetchedAt i)), none)

/-- The loop that reads what is planned, over the groups from some one on. -/
def execute : List ℕ → State V → State V × Option Fault
  | [], S => (S, none)
  | i :: is, S =>
    if (S.cg i).loaded = [] then execute is S
    else match R.fetch io i S with
      | (S, some e) => (S, some e)
      | (S, none) => execute is (S.set i { S.cg i with loaded := [] })

def loadInternal (S : State V) : State V × Option Fault :=
  if !R.needLoad S then (S, none)
  else
    let S := { S with memoryUsed := 0 }
    let sortedOffsets := (List.range R.size).flatMap (R.heapEntry S)
    match R.plan heap io R.planFuel sortedOffsets false S with
    | (S, some e) => (S, some e)
    | (S, none) => R.execute io (List.range R.size) S

/-! ## `ReadNext` -/

/-- The loop that loads until some batch is queued (`true`) or the data ends (`false`). -/
def loadLoop : ℕ → State V → State V × Except Fault Bool
  | 0, S => (S, .error .assertionFailed)
  | fuel + 1, S =>
    match R.loadInternal heap io S with
    | (S, some e) => (S, .error e)
    | (S, none) =>
      if !R.predicate && R.endOfOffset < S.currentOffset then (S, .error .assertionFailed)
      else if !R.predicate && S.currentOffset = R.endOfOffset then (S, .ok false)
      else if (List.range R.size).any fun i => !(S.cg i).rbs.isEmpty then (S, .ok true)
      else if (List.range R.size).any fun i => (S.cg i).chunkIndex < R.numberOfChunks i then
        loadLoop fuel S
      else (S, .ok false)

/-- Each iteration of the loop but the last reads a chunk. -/
def loadFuel : ℕ := (∑ i ∈ Finset.range R.size, R.numberOfChunks i) + 1

/-- The front batches of all groups; a group without one fails an assertion. -/
def fronts (S : State V) : Except Fault (List (RecordBatch V)) :=
  (List.range R.size).mapM fun i =>
    match (S.cg i).rbs with
    | [] => .error .assertionFailed
    | rb :: _ => .ok rb

/-- The rows to return: `number_of_row_limit_` is converted to `size_t`. -/
def minRows (fronts : List (RecordBatch V)) : ℕ :=
  fronts.foldl (fun n rb => min n rb.numRows) (R.numberOfRowLimit % 2 ^ 64).toNat

/-- An output column: the first rows of its column at the front of its group. -/
def outArray (fronts : List (RecordBatch V)) (minRows : ℕ) :
    Option (ℕ × ℕ) → Except Fault (Cells V minRows)
  | none => .ok (.nulls minRows)
  | some (i, j) =>
    match fronts[i]? with
    | none => .error .assertionFailed
    | some rb =>
      if h : minRows ≤ rb.numRows then
        match rb.columns[j]? with
        | none =>
          let numColumns := rb.columns.length
          .error (.status (.invalid s!"Column index out of range: {j} >= {numColumns}"))
        | some column => .ok (column.take minRows h)
      else .error .assertionFailed

/-- Return a batch and remove its rows from the queues. -/
def deliver (S : State V) : State V × Except Fault (RecordBatch V) :=
  match R.fronts S with
  | .error e => (S, .error e)
  | .ok fronts =>
    let minRows := R.minRows fronts
    match R.outFieldMap.mapM (outArray fronts minRows) with
    | .error e => (S, .error e)
    | .ok outArrays =>
      ({ S with
          cg := fun i => if i < R.size
            then { S.cg i with rbs := advance minRows (S.cg i).rbs } else S.cg i
          currentOffset := S.currentOffset + minRows },
        .ok { numRows := minRows, columns := outArrays })

/-- `ReadNext`: the next batch, or null at the end of the data. -/
def readNext (S : State V) : State V × ReadResult V :=
  match R.loadLoop heap io R.loadFuel S with
  | (S, .error e) => (S, .error e)
  | (S, .ok false) => (S, .ok none)
  | (S, .ok true) =>
    match R.deliver S with
    | (S, .error e) => (S, .error e)
    | (S, .ok rb) => (S, .ok (some rb))

end PackedReader

end MilvusStorage.Reader
