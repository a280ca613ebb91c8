import MilvusStorage.Common.RecordBatch
import MilvusStorage.Foundations.Commands
import MilvusStorage.Manifest.Basic

/-!
# The writer of a column group

A column group is written to files of a format. Its writer hands every batch to the format writer of
the current file, and rolls to the next file in a flush once enough bytes have been written. The
format writers are not modelled: a `FormatWriter` is the batches that its file will have, each of
its calls succeeds or fails as the `Environment` says, and a failed `Write` takes nothing. A failed
`Flush` or `Close` can have stored rows that are still cached and will be stored again
(`Environment.afterFailure`). A format writer that is closed refuses to be closed again.

The contents of a column group are the batches in its files and in the current format writer. Every
command adds some batches to them (`Extends`), unless the format writer is closed and has not been
replaced: nothing is claimed then, since the writer cannot be closed any more.
-/

namespace MilvusStorage.Writer

open Command

/-- A record batch, with what `GetRecordBatchMemorySize` reports for the columns at given positions.
Buffers that several of the columns share are counted once. -/
structure Batch (V : Type) extends RecordBatch V where
  memorySize : List ℕ → UInt64

structure FormatWriter (V : Type) where
  path : String
  batches : List (RecordBatch V) := []
  closed : Bool := false

/-- A file that a format writer has closed. -/
structure DataFile (V : Type) where
  path : String
  batches : List (RecordBatch V)

variable {V : Type}

/-- What the `Close` of a format writer returns. -/
def DataFile.toColumnGroupFile (f : DataFile V) : ColumnGroupFile := ⟨f.path, 0, rows f.batches, []⟩

structure ColumnGroupWriter (V : Type) where
  columnGroupId : ℕ
  columnGroup : ColumnGroup
  formatWriter : FormatWriter V
  maxBytesLimit : UInt64
  writtenBytes : UInt64 := 0
  writtenFiles : List (DataFile V) := []

/-- The outcomes of the calls to the format writers. -/
structure Environment (V : Type) where
  /-- In the `k`-th attempt to create the writers of all groups, the creation of the `i`-th fails.
  -/
  create : ℕ → ℕ → Option Status
  /-- The `k`-th batch that is distributed is not taken by the format writer of the `i`-th group. -/
  write : ℕ → ℕ → Option Status
  /-- The other calls, in their order: to flush, to close and to replace a format writer. -/
  io : ℕ → Option Status
  /-- The batches that the file will have after this call has failed, given those before. -/
  afterFailure : ℕ → List (RecordBatch V) → List (RecordBatch V)
  /-- Whether a format writer can be closed after it could not be closed in this call. -/
  canRetry : ℕ → Bool
  /-- How a format writer refuses to be closed. -/
  refusal : String → Status
  uuid : ℕ → String

/-- Calls that fail store nothing. -/
def Environment.Atomic (env : Environment V) : Prop :=
  ∀ n, env.io n ≠ none → ∀ batches, env.afterFailure n batches = batches

/-- What the calls have done to the environment. -/
structure World where
  ioCount : ℕ := 0
  uuidCount : ℕ := 0

structure Config where
  basePath : String
  dataPath : String
  /-- The names of the fields of the schema. -/
  schema : List String
  /-- `schema_->ToString(true)`. -/
  schemaText : String
  bufferSize : UInt64
  fileRollingSize : UInt64
  /-- The asserts are compiled in. -/
  asserts : Bool

abbrev GroupStep (V α : Type) := Command (World × ColumnGroupWriter V) Fault α

variable (env : Environment V) (config : Config)

/-- `get_data_filename`. -/
def getDataFilename (columnGroupId : ℕ) (uuid format : String) : String :=
  s!"{columnGroupId}_{uuid}.{format}"

/-- The column that `GetFieldByName` does not find: a name that is in the schema more than once is
not found either. -/
def missingColumn (schema columns : List String) : Option String :=
  columns.find? fun columnName => schema.count columnName ≠ 1

/-- `create_format_writer`, with the outcome of the calls it makes. The schema is that of the
group. -/
def createFormatWriter (outcome : Option Status) (columnGroupId : ℕ) (columnGroup : ColumnGroup)
    (uuid : String) : Except Fault (FormatWriter V) :=
  match missingColumn columnGroup.columns columnGroup.columns with
  | some columnName =>
    let basePath := config.basePath
    .error (.status (.invalid (s!"Column '{columnName}' not found in schema. " ++
      s!"[base_path={basePath}, column_group_id={columnGroupId}]")))
  | none =>
    match outcome with
    | some s => .error (.status s)
    | none => .ok
      { path := config.dataPath ++ "/" ++ getDataFilename columnGroupId uuid columnGroup.format }

namespace ColumnGroupWriter

/-- `ColumnGroupWriter::create`. -/
def create (outcome : Option Status) (columnGroupId : ℕ) (columnGroup : ColumnGroup)
    (uuid : String) : Except Fault (ColumnGroupWriter V) := do
  let formatWriter ← createFormatWriter config outcome columnGroupId columnGroup uuid
  return { columnGroupId, columnGroup, formatWriter, maxBytesLimit := config.fileRollingSize }

/-- The `Write` of the format writer. -/
def formatWrite (outcome : Option Status) (record : RecordBatch V) : GroupStep V Unit :=
  match outcome with
  | some s => fail (.status s)
  | none => modify fun (σ, g) =>
    (σ, { g with formatWriter.batches := g.formatWriter.batches ++ [record] })

/-- The writer after the `n`-th call to the format writer has failed. -/
def afterFailure (n : ℕ) (g : ColumnGroupWriter V) : ColumnGroupWriter V :=
  { g with formatWriter.batches := env.afterFailure n g.formatWriter.batches }

/-- The `Flush` of the format writer. -/
def formatFlush : GroupStep V Unit := fun (σ, g) =>
  let σ' := { σ with ioCount := σ.ioCount + 1 }
  match env.io σ.ioCount with
  | some s => ((σ', g.afterFailure env σ.ioCount), .error (.status s))
  | none => ((σ', g), .ok ())

/-- The `Close` of the format writer. -/
def formatClose : GroupStep V (DataFile V) := fun (σ, g) =>
  if g.formatWriter.closed then ((σ, g), .error (.status (env.refusal g.formatWriter.path)))
  else
    let σ' := { σ with ioCount := σ.ioCount + 1 }
    match env.io σ.ioCount with
    | some s =>
      ((σ', { g.afterFailure env σ.ioCount with
        formatWriter.closed := !env.canRetry σ.ioCount }), .error (.status s))
    | none =>
      ((σ', { g with formatWriter.closed := true }),
        .ok ⟨g.formatWriter.path, g.formatWriter.batches⟩)

/-- The next format writer. If it cannot be created, the closed one stays. -/
def replaceFormatWriter : GroupStep V Unit := fun (σ, g) =>
  let σ' := { σ with ioCount := σ.ioCount + 1, uuidCount := σ.uuidCount + 1 }
  match createFormatWriter config (env.io σ.ioCount) g.columnGroupId g.columnGroup
    (env.uuid σ.uuidCount) with
  | .error e => ((σ', g), .error e)
  | .ok formatWriter => ((σ', { g with formatWriter }), .ok ())

def write (outcome : Option Status) (memorySize : UInt64) (record : RecordBatch V) :
    GroupStep V Unit := do
  modify fun (σ, g) => (σ, { g with writtenBytes := g.writtenBytes + memorySize })
  formatWrite outcome record

def flush : GroupStep V Unit := do
  formatFlush env
  let (_, g) ← get
  if g.writtenBytes = 0 ∨ g.writtenBytes < g.maxBytesLimit then return ()
  else
    let columnGroupFile ← formatClose env
    modify fun (σ, g) =>
      (σ, { g with writtenFiles := g.writtenFiles ++ [columnGroupFile], writtenBytes := 0 })
    replaceFormatWriter env config

/-- The last file is kept if bytes have been written. -/
def keepFile (columnGroupFile : DataFile V) (g : ColumnGroupWriter V) : ColumnGroupWriter V :=
  if g.writtenBytes ≠ 0 then { g with writtenFiles := g.writtenFiles ++ [columnGroupFile] } else g

def close : GroupStep V (List (DataFile V)) := do
  let columnGroupFile ← formatClose env
  modify fun (σ, g) => (σ, keepFile columnGroupFile g)
  let (_, g) ← get
  return g.writtenFiles

/-! ## Contents -/

/-- The batches in the files, and those the format writer has been given since. -/
def contents (g : ColumnGroupWriter V) : List (RecordBatch V) :=
  g.writtenFiles.flatMap DataFile.batches ++ g.formatWriter.batches

/-- The writer of the same column group with some more batches. If it can be closed, it could be
closed before. If `intact` holds, the converse does. -/
structure Extends (intact : Prop) (records : List (RecordBatch V)) (g g' : ColumnGroupWriter V) :
    Prop where
  columnGroupId_eq : g'.columnGroupId = g.columnGroupId
  columnGroup_eq : g'.columnGroup = g.columnGroup
  open_of_open : g'.formatWriter.closed = false → g.formatWriter.closed = false
  contents_eq : g'.formatWriter.closed = false → g'.contents = g.contents ++ records
  stays_open : intact → missingColumn g.columnGroup.columns g.columnGroup.columns = none →
    g.formatWriter.closed = false → g'.formatWriter.closed = false

variable {env config} {intact : Prop}

theorem Extends.refl (g : ColumnGroupWriter V) : Extends intact [] g g :=
  ⟨rfl, rfl, id, fun _ => (List.append_nil _).symm, fun _ _ => id⟩

theorem Extends.trans {records records' : List (RecordBatch V)} {g g1 g2 : ColumnGroupWriter V}
    (h : Extends intact records g g1) (h' : Extends intact records' g1 g2) :
    Extends intact (records ++ records') g g2 where
  columnGroupId_eq := h'.columnGroupId_eq.trans h.columnGroupId_eq
  columnGroup_eq := h'.columnGroup_eq.trans h.columnGroup_eq
  open_of_open hopen := h.open_of_open (h'.open_of_open hopen)
  contents_eq hopen := by
    rw [h'.contents_eq hopen, h.contents_eq (h'.open_of_open hopen), List.append_assoc]
  stays_open hintact hcols hopen := by
    apply h'.stays_open hintact (h.columnGroup_eq ▸ hcols)
    exact h.stays_open hintact hcols hopen

/-- A writer that cannot be closed any more. -/
theorem Extends.of_closed {g g' : ColumnGroupWriter V} (hid : g'.columnGroupId = g.columnGroupId)
    (hgroup : g'.columnGroup = g.columnGroup) (hclosed : g'.formatWriter.closed = true)
    (hintact : ¬ intact) : Extends intact [] g g' :=
  ⟨hid, hgroup, by simp [hclosed], by simp [hclosed], fun h => absurd h hintact⟩

theorem afterFailure_eq (hatomic : env.Atomic) {n : ℕ} (hn : env.io n ≠ none)
    (g : ColumnGroupWriter V) : g.afterFailure env n = g := by
  rw [afterFailure, hatomic n hn]

/-- A batch is taken if its `Write` succeeds, and only then. -/
theorem write_spec (outcome : Option Status) (memorySize : UInt64) (record : RecordBatch V)
    (σ : World) (g : ColumnGroupWriter V) :
    Spec (· = (σ, g)) (write outcome memorySize record)
      (fun _ s => outcome = none ∧ Extends intact [record] g s.2)
      (fun _ s => outcome ≠ none ∧ Extends intact [] g s.2) := by
  refine spec_modify_bind fun s hs => ?_
  subst hs
  cases outcome with
  | some status =>
    refine spec_fail fun s hs => ⟨nofun, ?_⟩
    subst hs
    exact ⟨rfl, rfl, id, fun _ => (List.append_nil _).symm, fun _ _ => id⟩
  | none =>
    refine spec_modify fun s hs => ⟨rfl, ?_⟩
    subst hs
    exact ⟨rfl, rfl, id, fun _ => (List.append_assoc ..).symm, fun _ _ => id⟩

theorem formatFlush_spec (σ : World) (g : ColumnGroupWriter V) :
    Spec (· = (σ, g)) (formatFlush env) (fun _ s => s.2 = g)
      (fun _ s => env.Atomic → s.2 = g) := by
  rintro s rfl
  rw [formatFlush]
  split
  · next status hio =>
    refine ⟨fun s' a h => by simp at h, fun s' e h hatomic => ?_⟩
    cases h
    exact afterFailure_eq hatomic (by simp [hio]) g
  · simp

/-- What the format writer has been given is in the file it returns. -/
theorem formatClose_spec (hintact : intact → ∀ n, env.io n = none) (σ : World)
    (g : ColumnGroupWriter V) :
    Spec (· = (σ, g)) (formatClose env)
      (fun file s => g.formatWriter.closed = false ∧ file.batches = g.formatWriter.batches ∧
        s.2 = { g with formatWriter.closed := true })
      (fun _ s => (env.Atomic → Extends intact [] g s.2) ∧
        (g.formatWriter.closed = true ∨ ∃ n, env.io n ≠ none)) := by
  rintro s rfl
  rw [formatClose]
  split_ifs with hclosed
  · refine ⟨fun s' a h => by simp at h, fun s' e h => ?_⟩
    cases h
    exact ⟨fun _ => Extends.refl g, .inl hclosed⟩
  · have hopen : g.formatWriter.closed = false := by simpa using hclosed
    split
    · next status hio =>
      refine ⟨fun s' a h => by simp at h, fun s' e h => ?_⟩
      cases h
      have hne : env.io σ.ioCount ≠ none := by simp [hio]
      refine ⟨fun hatomic => ?_, .inr ⟨_, hne⟩⟩
      rw [afterFailure_eq hatomic hne]
      exact ⟨rfl, rfl, fun _ => hopen, fun _ => (List.append_nil _).symm,
        fun h => absurd (hintact h _) hne⟩
    · refine ⟨fun s' a h => ?_, fun s' e h => by simp at h⟩
      obtain ⟨rfl, rfl⟩ := h
      exact ⟨hopen, rfl, rfl⟩

theorem replaceFormatWriter_spec (σ : World) (g : ColumnGroupWriter V) :
    Spec (· = (σ, g)) (replaceFormatWriter env config)
      (fun _ s => ∃ path, s.2 = { g with formatWriter := ⟨path, [], false⟩ })
      (fun _ s => s.2 = g ∧ (missingColumn g.columnGroup.columns g.columnGroup.columns ≠ none ∨
        ∃ n, env.io n ≠ none)) := by
  rintro s rfl
  simp only [replaceFormatWriter, createFormatWriter]
  cases hmiss : missingColumn g.columnGroup.columns g.columnGroup.columns with
  | some columnName => simp
  | none =>
    cases hio : env.io σ.ioCount with
    | some status => simpa using ⟨σ.ioCount, by simp [hio]⟩
    | none => simp

section

variable (hintact : intact → ∀ n, env.io n = none) (σ : World) (g : ColumnGroupWriter V)
include hintact σ g

/-- A flush keeps the contents. -/
theorem flush_spec : Spec (· = (σ, g)) (flush env config) (fun _ s => Extends intact [] g s.2)
      (fun _ s => env.Atomic → Extends intact [] g s.2) := by
  have hrefl : ∀ (e : Fault) (s : World × ColumnGroupWriter V), (env.Atomic → s.2 = g) →
      env.Atomic → Extends intact [] g s.2 :=
    fun _ s hs hatomic => by rw [hs hatomic]; exact Extends.refl g
  refine ((formatFlush_spec σ g).onError hrefl).bind fun _ => ?_
  refine spec_get_bind fun s hs => ?_
  obtain ⟨σ1, g1⟩ := s
  obtain rfl : g1 = g := hs
  refine spec_ite (fun _ => spec_pure fun s hs => hs ▸ Extends.refl g1) fun _ => ?_
  refine ((formatClose_spec hintact σ1 g1).onError fun _ _ h => h.1).bind fun file => ?_
  refine spec_modify_bind fun s ⟨hopen, hfile, hs⟩ => ?_
  obtain ⟨σ2, g2⟩ := s
  obtain rfl : g2 = _ := hs
  refine (replaceFormatWriter_spec _ _).post (fun _ s hs => ?_) fun _ s hs => ?_
  · obtain ⟨path, hs⟩ := hs
    rw [hs]
    exact ⟨rfl, rfl, fun _ => hopen, fun _ => by simp [contents, hfile], fun _ _ _ => rfl⟩
  · obtain ⟨hs, hcause⟩ := hs
    rw [hs]
    refine fun _ => ⟨rfl, rfl, nofun, nofun, fun h hcols => ?_⟩
    obtain hmiss | ⟨n, hn⟩ := hcause
    · exact absurd hcols hmiss
    · exact absurd (hintact h n) hn

/-- The files of a writer that has been closed hold its contents, unless the last one is dropped. -/
theorem close_spec : Spec (· = (σ, g)) (close env)
      (fun files s => g.formatWriter.closed = false ∧ s.2.formatWriter.closed = true ∧
        s.2.columnGroupId = g.columnGroupId ∧ s.2.columnGroup = g.columnGroup ∧
        files.flatMap DataFile.batches = g.writtenFiles.flatMap DataFile.batches ++
          (if g.writtenBytes ≠ 0 then g.formatWriter.batches else []))
      (fun _ s => (env.Atomic → Extends intact [] g s.2) ∧
        (g.formatWriter.closed = true ∨ ∃ n, env.io n ≠ none)) := by
  refine (formatClose_spec hintact σ g).bind fun file => ?_
  refine spec_modify_bind fun s ⟨hopen, hfile, hs⟩ => ?_
  obtain ⟨σ1, g1⟩ := s
  obtain rfl : g1 = _ := hs
  refine spec_get_bind fun s hs => ?_
  subst hs
  refine spec_pure fun s hs => ?_
  subst hs
  by_cases hbytes : g.writtenBytes = 0 <;> simp [keepFile, hbytes, hfile, hopen]

end

end ColumnGroupWriter

end MilvusStorage.Writer
