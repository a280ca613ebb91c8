import Mathlib.Data.List.Dedup
import MilvusStorage.Format.Cut
import MilvusStorage.Format.Split

/-!
# Reading chunks

The three ways to read chunks of a column group.

* `get_chunk` reads the row group of one chunk and slices it.
* `get_chunks` sorts the chunks, splits them into blocks for the threads of a pool, and reads the
  chunks of a block file by file, adjacent ones in one range.
* `get_chunks_async` makes tasks of adjacent chunks of a file, splits these, and reads the range of
  each task.

The last two put the batches back in the order of the request. `order` is the order in which threads
or tasks complete; while some are missing there is no result.
-/

namespace MilvusStorage.Format

variable {Row : Type}

/-- `std::sort`, `std::unique` and `erase`. -/
def sortUnique {α : Type} [LinearOrder α] (l : List α) : List α :=
  (l.mergeSort fun a b => decide (a ≤ b)).dedup

/-! ## Waiting for results -/

/-- The results of completed tasks, in the places of the tasks. -/
def complete {α : Type} (results : List α) (order : List ℕ) : ℕ → Option α :=
  order.foldl (fun slots i => Function.update slots i results[i]?) fun _ => none

/-- `folly::collectAll`, or the loop over `future.get()`: all results, in the order of the tasks. -/
def collectAll {α : Type} (results : List α) (order : List ℕ) : Option (List α) :=
  (List.range results.length).mapM (complete results order)

namespace ColumnGroupReader

variable (r : ColumnGroupReader Row)

/-! ## `get_chunk` -/

/-- The metadata of a chunk; an `int64_t` index may be out of range. -/
def chunkInfo? (chunkIndex : ℤ) : Option ChunkInfo :=
  if chunkIndex < 0 then none else r.chunkInfos[chunkIndex.toNat]?

def chunkIndexOutOfRange (chunkIndex : ℤ) : Status :=
  let numberOfChunks := r.chunkInfos.length
  .invalid s!"Chunk index out of range: {chunkIndex} out of {numberOfChunks}"

/-- The rows that `get_chunk` of the format reader returns are those under the predicate. -/
def predicateApplied : Bool :=
  r.source.predicate ≠ "" && r.source.columnGroup.format = loonFormatVortex

/-- `rb->Slice(row_offset_in_row_group, number_of_rows)`, unless it would change nothing. -/
def sliceChunk (chunkInfo : ChunkInfo) (rb : List Row) : List Row :=
  if chunkInfo.rowOffsetInRowGroup ≠ 0 ∨ chunkInfo.numberOfRows ≠ rb.length then
    (rb.drop chunkInfo.rowOffsetInRowGroup).take chunkInfo.numberOfRows
  else rb

def getChunk (chunkIndex : ℤ) : Except Fault (List Row) :=
  match r.chunkInfo? chunkIndex with
  | none => .error (.status (r.chunkIndexOutOfRange chunkIndex))
  | some chunkInfo =>
    match r.formatReaders[chunkInfo.fileIndex]? with
    | none => .error .outOfBounds
    | some reader => do
      let rb ← orStatus (reader.getChunk chunkInfo.rowGroupIndexInFile)
      return if r.predicateApplied then rb else sliceChunk chunkInfo rb

/-! ## `read_chunks_from_files` -/

/-- A map from chunk indices to batches. -/
abbrev ChunkRBMap (Row : Type) := ℤ → Option (List Row)

def openReaderForFile (fileIndex : ℕ) : Except Fault (FormatReader Row) :=
  match r.source.files[fileIndex]? with
  | none =>
    let numberOfFiles := r.source.files.length
    .error (.status (.invalid
      s!"Column group file index out of range: {fileIndex} >= {numberOfFiles}"))
  | some file => orStatus (r.source.openReaderForFile file)

/-- The chunk of an index of a task, which is put into the list of its file. -/
def taskChunk (chunkIndex : ℤ) : Except Fault (ℤ × ChunkInfo) :=
  match r.chunkInfo? chunkIndex with
  | none => .error (.status (r.chunkIndexOutOfRange chunkIndex))
  | some chunkInfo =>
    if chunkInfo.fileIndex < r.source.files.length then .ok (chunkIndex, chunkInfo)
    else .error .outOfBounds

end ColumnGroupReader

/-- The end of a chunk in its file. -/
def ChunkInfo.endInFile (chunkInfo : ChunkInfo) : ℕ :=
  (chunkInfo.rowOffsetInFile + chunkInfo.numberOfRows) % 2 ^ 64

/-- The loop that combines adjacent chunks of a file; `(start, stop)` is the last range so far. -/
def rangesFrom (start stop : ℕ) : List ChunkInfo → Except Fault (List (ℕ × ℕ))
  | [] => .ok [(start, stop)]
  | chunkInfo :: chunkInfos =>
    if chunkInfo.rowOffsetInFile < stop then .error .assertionFailed
    else if chunkInfo.rowOffsetInFile = stop then rangesFrom start chunkInfo.endInFile chunkInfos
    else do
      let ranges ← rangesFrom chunkInfo.rowOffsetInFile chunkInfo.endInFile chunkInfos
      return (start, stop) :: ranges

def rangesInFile : List ChunkInfo → Except Fault (List (ℕ × ℕ))
  | [] => .ok []
  | chunkInfo :: chunkInfos =>
    rangesFrom chunkInfo.rowOffsetInFile chunkInfo.endInFile chunkInfos

/-- `chunk_rb_map[chunk_idx] = rb`, for some chunks. -/
def insertAll (chunkRBMap : ColumnGroupReader.ChunkRBMap Row) (chunkIndices : List ℤ)
    (rbs : List (List Row)) : ColumnGroupReader.ChunkRBMap Row :=
  (chunkIndices.zip rbs).foldl (fun m (i, rb) => Function.update m i (some rb)) chunkRBMap

namespace ColumnGroupReader

variable (r : ColumnGroupReader Row)

/-- The batches that are read for some chunks of a file. -/
def readBatches (fileIdx : ℕ) (chunkInfos : List ChunkInfo) : Except Fault (List (List Row)) := do
  let ranges ← rangesInFile chunkInfos
  let reader ← r.openReaderForFile fileIdx
  let rbs ← ranges.mapM fun range => orStatus (reader.readWithRange range.1 range.2)
  return rbs.flatten

/-- The body of the loop over the files. -/
def readFile (chunks : List (ℤ × ChunkInfo)) (chunkRBMap : ChunkRBMap Row) (fileIdx : ℕ) :
    Except Fault (ChunkRBMap Row) :=
  let chunksInFile := chunks.filter fun c => c.2.fileIndex = fileIdx
  if chunksInFile = [] then .ok chunkRBMap
  else do
    let rbsInFile ← r.readBatches fileIdx (chunksInFile.map Prod.snd)
    let rbs ← cutSync rbsInFile (chunksInFile.map Prod.snd)
    return insertAll chunkRBMap (chunksInFile.map Prod.fst) rbs

def readChunksFromFiles (taskIndices : List ℤ) : Except Fault (ChunkRBMap Row) := do
  let chunks ← taskIndices.mapM r.taskChunk
  (List.range r.source.files.length).foldlM (r.readFile chunks) fun _ => none

/-! ## `get_chunks` -/

end ColumnGroupReader

def iota (start : ℤ) (count : ℕ) : List ℤ := (List.range count).map fun k : ℕ => start + (k : ℤ)

/-- `create_continuous_blocks`, from the second chunk on; the block so far has `currentCount` chunks
from `currentStart` on. -/
def continuousBlocks (maxBlockSize : ℕ) (currentStart : ℤ) (currentCount : ℕ) :
    List ℤ → List (List ℤ)
  | [] => [iota currentStart currentCount]
  | nextChunk :: chunks =>
    if nextChunk = currentStart + currentCount ∧ currentCount < maxBlockSize then
      continuousBlocks maxBlockSize currentStart (currentCount + 1) chunks
    else
      iota currentStart currentCount :: continuousBlocks maxBlockSize nextChunk 1 chunks

/-- `split_chunks`, of a list of chunks that is not empty. -/
def splitChunks (parallelDegree : ℕ) : List ℤ → List (List ℤ)
  | [] => []
  | first :: chunks =>
    let size := chunks.length + 1
    let actualParallelDegree := max (min parallelDegree size) 1
    if size ≤ actualParallelDegree then continuousBlocks (2 ^ 64 - 1) first 1 chunks
    else
      let avgBlockSize := (size + actualParallelDegree - 1) / actualParallelDegree
      continuousBlocks avgBlockSize first 1 chunks

/-- The first fault in a list of results that does not only return an error. -/
def fatal {α : Type} (results : List (Except Fault α)) : Option Fault :=
  results.findSome? fun
    | .error (.status _) => none
    | .error e => some e
    | .ok _ => none

namespace ColumnGroupReader

variable (r : ColumnGroupReader Row)

/-- The lists of chunks that are read independently, for a pool of `numThreads` threads. -/
def taskBlocks (chunkIndices : List ℤ) (parallelism numThreads : ℕ) : List (List ℤ) :=
  let uniqueChunkIndices := sortUnique chunkIndices
  if parallelism ≤ 1 then [uniqueChunkIndices] else splitChunks numThreads uniqueChunkIndices

/-- The result of each list; without parallelism the calling thread reads. -/
def readBlocks (chunkIndices : List ℤ) (parallelism numThreads : ℕ) (order : List ℕ) :
    Option (List (Except Fault (ChunkRBMap Row))) :=
  let results := (taskBlocks chunkIndices parallelism numThreads).map r.readChunksFromFiles
  if parallelism ≤ 1 then some results else collectAll results order

/-- The batches of the requested chunks. -/
def requested (chunkIndices : List ℤ) (chunkRBMap : ChunkRBMap Row) :
    Except Fault (List (List Row)) :=
  chunkIndices.mapM fun chunkIdx =>
    match chunkRBMap chunkIdx with
    | none => .error .assertionFailed
    | some rb => .ok rb

/-- `emplace` of all entries of the results, in the order of the blocks. -/
def mergeResults (results : List (Except Fault (ChunkRBMap Row))) : Except Fault (ChunkRBMap Row) :=
  results.foldlM (fun chunkRBMap result => do
    let res ← result
    return fun i => (chunkRBMap i).or (res i)) fun _ => none

/-- What `get_chunks` makes of the results of all blocks. -/
def assemble (chunkIndices : List ℤ) (results : List (Except Fault (ChunkRBMap Row))) :
    Except Fault (List (List Row)) :=
  match fatal results with
  | some e => .error e
  | none => do
    let chunkRBMap ← mergeResults results
    requested chunkIndices chunkRBMap

/-- `get_chunks`. All blocks are read before a result is looked at. -/
def getChunks (chunkIndices : List ℤ) (parallelism numThreads : ℕ) (order : List ℕ) :
    Option (Except Fault (List (List Row))) :=
  if sortUnique chunkIndices = [] then some (.ok [])
  else do
    let results ← r.readBlocks chunkIndices parallelism numThreads order
    return assemble chunkIndices results

end ColumnGroupReader

/-! ## `ChunkTask` -/

/-- Adjacent chunks of a file, and their range in the file. -/
structure ChunkTask where
  fileIndex : ℕ
  chunkIndices : List ℤ
  rangeStart : ℕ
  rangeEnd : ℕ

/-- The loop over the chunks of a file; `prev` is the chunk before. -/
def buildTasks (current : ChunkTask) (prev : ChunkInfo) : List (ℤ × ChunkInfo) → List ChunkTask
  | [] => [current]
  | (i, curr) :: chunks =>
    if curr.rowOffsetInFile = prev.endInFile then
      buildTasks { current with
        chunkIndices := current.chunkIndices ++ [i]
        rangeEnd := curr.endInFile } curr chunks
    else
      current ::
        buildTasks ⟨current.fileIndex, [i], curr.rowOffsetInFile, curr.endInFile⟩ curr chunks

/-- The tasks of a file. -/
def buildFileTasks (fileIdx : ℕ) : List (ℤ × ChunkInfo) → List ChunkTask
  | [] => []
  | (i, first) :: chunks =>
    buildTasks ⟨fileIdx, [i], first.rowOffsetInFile, first.endInFile⟩ first chunks

namespace ColumnGroupReader

variable (r : ColumnGroupReader Row)

/-- `get_chunk_info`, which asserts that the index is in range. -/
def getChunkInfo (chunkIndex : ℤ) : Except Fault ChunkInfo :=
  match r.chunkInfo? chunkIndex with
  | none => .error .assertionFailed
  | some chunkInfo => .ok chunkInfo

/-- `ChunkTask::Build`; the groups of a `std::map` are in the order of the files. -/
def buildChunkTasks (chunkIndices : List ℤ) : Except Fault (List ChunkTask) := do
  let chunks ← chunkIndices.mapM fun i => do
    let chunkInfo ← r.getChunkInfo i
    return (i, chunkInfo)
  return (sortUnique (chunks.map fun c => c.2.fileIndex)).flatMap fun fileIdx =>
    buildFileTasks fileIdx (chunks.filter fun c => c.2.fileIndex = fileIdx)

/-- `ChunkTask::SplitTraits::split`. -/
def splitChunkTask (task : ChunkTask) : Except Fault (ChunkTask × ChunkTask) :=
  let mid := task.chunkIndices.length / 2
  match task.chunkIndices[mid]? with
  | none => .error .outOfBounds
  | some midIndex => do
    let midInfo ← r.getChunkInfo midIndex
    return ({ task with
        chunkIndices := task.chunkIndices.take mid
        rangeEnd := midInfo.rowOffsetInFile },
      { task with
        chunkIndices := task.chunkIndices.drop mid
        rangeStart := midInfo.rowOffsetInFile })

/-- `ChunkTask::SplitTraits`. -/
def chunkTaskTraits : SplitTraits ChunkTask where
  size task := task.chunkIndices.length
  canSplit task := 1 < task.chunkIndices.length
  split := r.splitChunkTask

/-! ## `get_chunks_async` -/

/-- The planner contract of a task. -/
def checkTaskChunk (task : ChunkTask) (chunkIndex : ℤ) : Except Status ChunkInfo :=
  match r.chunkInfo? chunkIndex with
  | none => .error (r.chunkIndexOutOfRange chunkIndex)
  | some chunkInfo =>
    let fileIndex := chunkInfo.fileIndex
    let taskFile := task.fileIndex
    if fileIndex ≠ taskFile then
      .error (.invalid s!"Chunk {chunkIndex} belongs to file {fileIndex}, not task file {taskFile}")
    else .ok chunkInfo

/-- `open_reader_for_file_async`; an exception is kept apart. -/
def openReaderForFileAsync (fileIndex : ℕ) : Except String (Except Status (FormatReader Row)) :=
  match r.source.files[fileIndex]? with
  | none =>
    let numberOfFiles := r.source.files.length
    .ok (.error (.invalid s!"Column group file index out of range: {fileIndex} >= {numberOfFiles}"))
  | some file => r.source.openReaderForFileAsync file

/-- `get_chunks_async` of a task. -/
def getTaskChunks (task : ChunkTask) : Except String (Except Fault (List (List Row))) :=
  match task.chunkIndices.mapM (r.checkTaskChunk task) with
  | .error s => .ok (.error (.status s))
  | .ok chunkInfos => do
    let reader ← r.openReaderForFileAsync task.fileIndex
    return do
      let reader ← orStatus reader
      let rbs ← orStatus (reader.readWithRangeAsync task.rangeStart task.rangeEnd)
      cutAsync rbs chunkInfos

end ColumnGroupReader

/-! ## Chunk readers -/

/-- `ChunkReaderImpl`: an opened column group, and the value of
`reader.async.task_split_strategy`. -/
structure ChunkReader (Row : Type) where
  reader : ColumnGroupReader Row
  taskSplitStrategy : String

def validateNeededColumns (columnGroup : ColumnGroup) (neededColumns : List String) :
    Except Fault Unit :=
  if neededColumns.any fun column => column ∈ columnGroup.columns then .ok ()
  else .error (.status (.invalid "No needed columns found in column group"))

namespace ChunkReader

/-- `ChunkReaderImpl::open`: a chunk reader has no predicate. -/
def «open» (S : Source Row) (neededColumns : List String) (taskSplitStrategy : String) :
    Except Fault (ChunkReader Row) := do
  validateNeededColumns S.columnGroup neededColumns
  let reader ← Format.open { S with predicate := "" }
  return ⟨reader, taskSplitStrategy⟩

/-- `ChunkReaderImpl::open_async`. -/
def openAsync (S : Source Row) (neededColumns : List String) (taskSplitStrategy : String) :
    Except Fault (ChunkReader Row) := do
  validateNeededColumns S.columnGroup neededColumns
  let reader ← Format.openAsync { S with predicate := "" }
  return ⟨reader, taskSplitStrategy⟩

variable (R : ChunkReader Row)

def getChunk (chunkIndex : ℤ) : Except Fault (List Row) := R.reader.getChunk chunkIndex

/-- The loop of `get_chunks_sync` that slices the batches again if there are not as many as chunks
were requested. -/
def sliceResults (results : List (List Row)) :
    Segments.Cursor → List ℤ → Except Fault (List (List Row))
  | _, [] => .ok []
  | c, target :: targets => do
    let chunkInfo ← match R.reader.chunkInfo? target with
      | none => .error (.status (R.reader.chunkIndexOutOfRange target))
      | some chunkInfo => .ok chunkInfo
    let currIndex := c.chunk
    let currOffset := c.offset
    let numberOfRows := chunkInfo.numberOfRows
    match results[currIndex]? with
    | none =>
      .error (.status (.invalid ("Failed to slice the record batch, Invalid result from " ++
        "chunk_reader, the row size of result not " ++
        s!"match. [target_chunk_index={target}]")))
    | some rb =>
      let rbRows := rb.length
      if rbRows < currOffset + numberOfRows then
        .error (.status (.invalid ("Failed to slice the record batch, current record batch is " ++
          s!"discontinuous. [target_chunk_index={target}] [curr_rb_index={currIndex}]" ++
          s!" [curr_rb_offset={currOffset}] [target_number_of_rows={numberOfRows}]" ++
          s!" [rb_num_rows={rbRows}]")))
      else
        let rest ← sliceResults results (advanceRows rb c numberOfRows) targets
        return (rb.drop currOffset).take numberOfRows :: rest

/-- `ChunkReaderImpl::get_chunks`. -/
def getChunks (chunkIndices : List ℤ) (parallelism numThreads : ℕ) (order : List ℕ) :
    Option (Except Fault (List (List Row))) := do
  let results ← R.reader.getChunks chunkIndices parallelism numThreads order
  return do
    let results ← results
    if results.length = chunkIndices.length then return results
    else R.sliceResults results ⟨0, 0⟩ chunkIndices

/-- The loop over the results of the tasks. -/
def collectTasks : List (ChunkTask × Except String (Except Fault (List (List Row)))) →
    ColumnGroupReader.ChunkRBMap Row → Except Fault (ColumnGroupReader.ChunkRBMap Row)
  | [], allRbs => .ok allRbs
  | (task, result) :: results, allRbs => do
    let result ← result.mapError fun what => Fault.status (.ioError what)
    let rbs ← result
    let batches := rbs.length
    let chunks := task.chunkIndices.length
    if batches ≠ chunks then
      .error (.status (.invalid
        s!"Async chunk task returned {batches} batches for {chunks} chunks"))
    else collectTasks results (insertAll allRbs task.chunkIndices rbs)

/-- The tasks of a request. -/
def chunkTasks (chunkIndices : List ℤ) (parallelism : ℕ) : Except Fault (List ChunkTask) := do
  let tasks ← R.reader.buildChunkTasks (sortUnique chunkIndices)
  splitAsyncTasks R.reader.chunkTaskTraits tasks (max parallelism 1)
    (getAsyncTaskSplitStrategy R.taskSplitStrategy)

/-- `ChunkReaderImpl::get_chunks_async`. -/
def getChunksAsync (chunkIndices : List ℤ) (parallelism : ℕ) (order : List ℕ) :
    Option (Except Fault (List (List Row))) :=
  match (sortUnique chunkIndices).head?, (sortUnique chunkIndices).getLast? with
  | some front, some back =>
    if front < 0 then some (.error (.status (R.reader.chunkIndexOutOfRange front)))
    else if R.reader.chunkInfos.length ≤ back.toNat then
      some (.error (.status (R.reader.chunkIndexOutOfRange back)))
    else
      match R.chunkTasks chunkIndices parallelism with
      | .error e => some (.error e)
      | .ok tasks => do
        let results ← collectAll (tasks.map R.reader.getTaskChunks) order
        return do
          let allRbs ← collectTasks (tasks.zip results) fun _ => none
          chunkIndices.mapM fun idx =>
            match allRbs idx with
            | none =>
              .error (.status (.invalid s!"Missing async chunk result for chunk {idx}"))
            | some rb => .ok rb
  | _, _ => some (.ok [])

end ChunkReader

end MilvusStorage.Format
