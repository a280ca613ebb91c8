import MilvusStorage.Common.Status
import MilvusStorage.Foundations.Commands
import MilvusStorage.Lob.Reference

/-!
# Writing large objects

`LobColumnWriterImpl`. Values below a threshold are returned inline. Longer ones are collected in an
Arrow builder and written to a Vortex file when enough bytes are pending; when the file is large
enough it is closed, and the next value goes to a file with a new UUID. The reference of a value is
returned before the value is written.

The calls to the file system and to the Vortex writer can fail: `Environment.io` says which ones do.
A Vortex writer does not do anything any more after an error of the library. But `Write` can also
fail before it calls the library, in `ToStructArray` or `ExportArray` (`Environment.exportArray`),
and then the Vortex writer stays open. A Vortex file can be read once it is closed.
-/

namespace MilvusStorage.Lob

open Command

structure LobColumnConfig where
  lobBasePath : String
  inlineThreshold : ℕ
  maxLobFileBytes : ℕ
  flushThresholdBytes : ℕ

structure LobFileResult where
  path : String
  totalRows : ℕ
  validRows : ℕ
  fileSizeBytes : ℕ
  deriving DecidableEq

structure LobColumnWriterStats where
  totalEntries : ℕ := 0
  inlineEntries : ℕ := 0
  lobEntries : ℕ := 0
  totalBytes : ℕ := 0
  lobFilesCreated : ℕ := 0

/-- `arrow::BinaryBuilder`: the values appended since it was last finished. -/
structure BinaryBuilder where
  values : List Bytes := []

namespace BinaryBuilder

def bytes (b : BinaryBuilder) : ℕ := (b.values.map List.length).sum

/-- `kBinaryMemoryLimit`. -/
def memoryLimit : ℕ := 2 ^ 31 - 2

/-- `Append`: a binary array has 32-bit offsets. A length that is not positive appends an empty
value. -/
def append (b : BinaryBuilder) (value : Bytes) (length : ℤ) : Option BinaryBuilder :=
  if length ≤ 0 then some ⟨b.values ++ [[]]⟩
  else if memoryLimit < b.bytes + length then none
  else some ⟨b.values ++ [value.take length.toNat]⟩

/-- The error of an `Append` over the limit. -/
def overflow (b : BinaryBuilder) (value : Bytes) : Fault :=
  let newSize := b.bytes + value.length
  .status (.capacityError s!"array cannot contain more than 2147483646 bytes, have {newSize}")

end BinaryBuilder

/-- `vortex::VortexFileWriter`. -/
structure VortexFileWriter where
  filePath : String
  closed : Bool := false
  rows : List Bytes := []

structure Environment where
  /-- `IsLocalFileSystem`. -/
  localFileSystem : Bool
  /-- The status of the `n`-th call to the file system or to a Vortex writer, if it fails. -/
  io : ℕ → Option Status
  /-- The status of `ToStructArray` and `ExportArray` in the `n`-th call, if one of them fails. -/
  exportArray : ℕ → Option Status
  /-- The `n`-th UUID that is generated. -/
  uuid : ℕ → UUID
  /-- What a failed `Append` leaves in the builder. -/
  afterFailedAppend : BinaryBuilder → BinaryBuilder

/-- What the calls have done to the environment. -/
structure World where
  /-- The rows of the Vortex files that are closed. -/
  files : String → Option (List Bytes) := fun _ => none
  /-- The paths with which `VortexFileWriter::Open` has returned OK. -/
  opened : List String := []
  ioCount : ℕ := 0
  uuidCount : ℕ := 0

structure LobColumnWriter extends World where
  closed : Bool := false
  writtenRows : ℕ := 0
  currentFileId : UUID
  currentFileRows : ℕ := 0
  currentFileBytes : ℕ := 0
  vortexWriter : Option VortexFileWriter := none
  pendingBuilder : BinaryBuilder := {}
  pendingBytes : ℕ := 0
  createdFiles : List LobFileResult := []
  stats : LobColumnWriterStats := {}

abbrev Step (α : Type) := Command LobColumnWriter Fault α

variable (env : Environment) (config : LobColumnConfig)

/-- The constructor: the UUID of the first file. -/
def LobColumnWriter.create : LobColumnWriter where
  currentFileId := env.uuid 0
  uuidCount := 1

/-! ## The environment -/

/-- A call to the file system. -/
def fileSystemCall : Step Unit := fun w =>
  match env.io w.ioCount with
  | some s => ({ w with ioCount := w.ioCount + 1 }, .error (.status s))
  | none => ({ w with ioCount := w.ioCount + 1 }, .ok ())

/-- `VortexFileWriter::Open`. -/
def vortexOpen (filePath : String) : Step Unit := do
  fileSystemCall env
  modify fun w => { w with
    vortexWriter := some { filePath }
    files := Function.update w.files filePath none
    opened := w.opened ++ [filePath] }

/-- A call to the Vortex writer. An `early` error is returned before the library is called. -/
def vortexCall (early : ℕ → Option Status)
    (effect : VortexFileWriter → LobColumnWriter → LobColumnWriter) : Step Unit := fun w =>
  match w.vortexWriter with
  | none => (w, .error .nullDereference)
  | some vx =>
    let filePath := vx.filePath
    if vx.closed then
      (w, .error (.status (.invalid s!"Vortex writer is closed. [file_path={filePath}]")))
    else
      let w' := { w with ioCount := w.ioCount + 1 }
      match early w.ioCount, env.io w.ioCount with
      | some s, _ => (w', .error (.status s))
      | none, some s =>
        ({ w' with vortexWriter := some { vx with closed := true } }, .error (.status s))
      | none, none => (effect vx w', .ok ())

/-- `VortexFileWriter::Write`. -/
def vortexWrite (batch : List Bytes) : Step Unit :=
  vortexCall env env.exportArray fun vx w =>
    { w with vortexWriter := some { vx with rows := vx.rows ++ batch } }

/-- `VortexFileWriter::Flush`. -/
def vortexFlush : Step Unit := vortexCall env (fun _ => none) fun _ w => w

/-- `VortexFileWriter::Close`. -/
def vortexClose : Step Unit :=
  vortexCall env (fun _ => none) fun vx w => { w with
    vortexWriter := some { vx with closed := true }
    files := Function.update w.files vx.filePath (some vx.rows) }

/-- What `Append` leaves in the pending builder, and its status. -/
def appended (data : Bytes) : Option BinaryBuilder → Step Unit
  | some builder => modify fun w => { w with pendingBuilder := builder }
  | none => do
    let w ← get
    modify fun w => { w with pendingBuilder := env.afterFailedAppend w.pendingBuilder }
    fail (w.pendingBuilder.overflow data)

/-- `pending_builder_.Append`. -/
def pendingAppend (data : Bytes) : Step Unit := do
  let w ← get
  appended env data (w.pendingBuilder.append data (toSigned 32 data.length))

/-! ## Files -/

/-- `CreateDir` of the parent directory, which only a local file system needs. -/
def createParentDir : Step Unit :=
  if env.localFileSystem then fileSystemCall env else pure ()

def ensureVortexWriter : Step Unit := do
  let w ← get
  if w.vortexWriter.isSome then return ()
  else
    let filePath := lobFilePath config.lobBasePath w.currentFileId
    createParentDir env
    vortexOpen env filePath
    modify fun w => { w with
      createdFiles := w.createdFiles ++ [⟨filePath, 0, 0, 0⟩]
      stats.lobFilesCreated := w.stats.lobFilesCreated + 1 }

def flushPending : Step Unit := do
  let w ← get
  if w.pendingBuilder.values = [] then return ()
  else
    let array := w.pendingBuilder.values
    modify fun w => { w with pendingBuilder := {} } -- `Finish`
    vortexWrite env array
    vortexFlush env
    modify fun w => { w with
      currentFileBytes := (w.currentFileBytes + w.pendingBytes) % 2 ^ 64
      pendingBytes := 0 }

def closeCurrentFile : Step Unit := do
  let w ← get
  if w.vortexWriter.isNone then return ()
  else
    vortexClose env
    modify fun w => { w with
      createdFiles := w.createdFiles.modifyLast fun lastFile => { lastFile with
        totalRows := w.currentFileRows
        validRows := w.currentFileRows
        fileSizeBytes := w.currentFileBytes }
      vortexWriter := none }

def maybeRollFile : Step Unit := do
  let w ← get
  if w.currentFileBytes < config.maxLobFileBytes then return ()
  else
    closeCurrentFile env
    modify fun w => { w with
      currentFileId := env.uuid w.uuidCount
      uuidCount := w.uuidCount + 1
      currentFileRows := 0
      currentFileBytes := 0 }

/-! ## Writing -/

/-- The part of `WriteData` and `WriteBatchData` that appends a value to the current file. -/
def appendLob (data : Bytes) : Step Bytes := do
  ensureVortexWriter env config
  let w ← get
  let rowOffset := toSigned 32 w.currentFileRows
  pendingAppend env data
  modify fun w => { w with
    pendingBytes := (w.pendingBytes + data.length) % 2 ^ 64
    currentFileRows := w.currentFileRows + 1 }
  return encodeLOBReference w.currentFileId rowOffset

/-- The part of `WriteData` and `WriteBatchData` that flushes when enough is pending. -/
def flushFull : Step Unit := do
  let w ← get
  if config.flushThresholdBytes ≤ w.pendingBytes then
    flushPending env
    maybeRollFile env config
  else return ()

def writerIsClosed : Fault := .status (.invalid "writer is closed")

def writeData (data : Bytes) : Step Bytes := do
  let w ← get
  if w.closed then fail writerIsClosed
  else if data.length < config.inlineThreshold then
    modify fun w => { w with
      stats.inlineEntries := w.stats.inlineEntries + 1
      stats.totalEntries := w.stats.totalEntries + 1
      stats.totalBytes := w.stats.totalBytes + data.length
      writtenRows := w.writtenRows + 1 }
    return encodeInlineData data
  else
    let ref ← appendLob env config data
    modify fun w => { w with
      stats.lobEntries := w.stats.lobEntries + 1
      stats.totalEntries := w.stats.totalEntries + 1
      stats.totalBytes := w.stats.totalBytes + data.length
      writtenRows := w.writtenRows + 1 }
    flushFull env config
    return ref

/-- The branch of the loop body of `WriteBatchData`. -/
def itemReference (data : Bytes) : Step Bytes :=
  if data.length < config.inlineThreshold then do
    modify fun w => { w with stats.inlineEntries := w.stats.inlineEntries + 1 }
    return encodeInlineData data
  else do
    let ref ← appendLob env config data
    modify fun w => { w with stats.lobEntries := w.stats.lobEntries + 1 }
    flushFull env config
    return ref

/-- The loop body of `WriteBatchData`. -/
def writeItem (data : Bytes) : Step Bytes := do
  let ref ← itemReference env config data
  modify fun w => { w with
    stats.totalEntries := w.stats.totalEntries + 1
    stats.totalBytes := w.stats.totalBytes + data.length }
  return ref

def writeBatchData (items : List Bytes) : Step (List Bytes) := do
  let w ← get
  if w.closed then fail writerIsClosed
  else
    let results ← forEach (writeItem env config) items
    modify fun w => { w with writtenRows := w.writtenRows + items.length }
    return results

/-- A null value is only counted. -/
def LobColumnWriter.countNull (w : LobColumnWriter) : LobColumnWriter :=
  { w with stats.totalEntries := w.stats.totalEntries + 1, writtenRows := w.writtenRows + 1 }

/-- The loop body of `WriteArrowArray`, with the builder of its result. -/
def writeArrowValue (builder : BinaryBuilder) : Option Bytes → Step (BinaryBuilder × Option Bytes)
  | none => do
    modify LobColumnWriter.countNull
    return (⟨builder.values ++ [[]]⟩, none)
  | some value => do
    let ref ← writeData env config value
    let builder ← ofOption (builder.overflow ref) (builder.append ref (toSigned 32 ref.length))
    return (builder, some ref)

def writeArrowArray (dataArray : List (Option Bytes)) : Step (List (Option Bytes)) := do
  let w ← get
  if w.closed then fail writerIsClosed
  else forEachFrom (writeArrowValue env config) {} dataArray

def flush : Step Unit := do
  let w ← get
  if w.closed then fail writerIsClosed
  else
    flushPending env
    maybeRollFile env config

def close : Step (List LobFileResult) := do
  let w ← get
  if w.closed then fail (.status (.invalid "writer is already closed"))
  else
    flushPending env
    closeCurrentFile env
    modify fun w => { w with closed := true }
    let w ← get
    return w.createdFiles

/-! ## Sequences of calls -/

inductive Call
  | writeData (data : Bytes)
  | writeBatchData (items : List Bytes)
  | writeArrowArray (dataArray : List (Option Bytes))
  | flush
  | close

/-- The values of a call. -/
def Call.values : Call → List Bytes
  | writeData data => [data]
  | writeBatchData items => items
  | writeArrowArray dataArray => dataArray.reduceOption
  | flush => []
  | close => []

/-- The references that a call returns, one for each value. -/
def Call.references : Call → Step (List Bytes)
  | writeData data => do return [← Lob.writeData env config data]
  | writeBatchData items => Lob.writeBatchData env config items
  | writeArrowArray dataArray => do
    return (← Lob.writeArrowArray env config dataArray).reduceOption
  | flush => do
    Lob.flush env config
    return []
  | close => do
    let _ ← Lob.close env
    return []

/-- A writer with the results of the calls made so far. -/
structure Session where
  writer : LobColumnWriter
  /-- The values written by the calls that returned OK, with the references they returned. -/
  issued : List (Bytes × Bytes) := []
  /-- The errors of the calls that failed. -/
  failures : List Fault := []

def Session.start : Session := { writer := .create env }

def Session.next (s : Session) (call : Call) : Option Session :=
  match call.references env config s.writer with
  | (w, .ok refs) => some { s with writer := w, issued := s.issued ++ call.values.zip refs }
  | (w, .error e) => some { s with writer := w, failures := s.failures ++ [e] }

end MilvusStorage.Lob
