import MilvusStorage.Segment.Writer

/-!
# Reading segments

`SegmentReaderImpl`. Some of the columns are extracted. The table is read with the schema of the
storage, in which the columns of large objects are binary, and the references of those columns are
resolved batch by batch (`ResolveLobColumns`). The readers of large objects are kept by the index of
the column in the extracted schema.

The reader of the table and the readers of large objects are parameters.
-/

namespace MilvusStorage.Segment

open Except List Command Lob

variable {V : Type}

/-- A batch with the extracted schema. -/
structure ResolvedBatch (V : Type) extends StorageBatch V where
  schema : List Field

/-- `arrow::Table`, with the columns in one piece. -/
structure Table (V : Type) where
  schema : List Field
  columns : List (Column V)

namespace Table

/-- `Table::MakeEmpty`. -/
def makeEmpty (schema : List Field) : Table V := ⟨schema, schema.map fun _ => []⟩

/-- `Table::FromRecordBatches`. -/
def fromRecordBatches (schema : List Field) (batches : List (ResolvedBatch V)) : Table V :=
  ⟨schema, (List.range schema.length).map fun k => batches.flatMap fun b => b.column k⟩

end Table

/-- `ReadArrowArray` of a reader of large objects. -/
abbrev ReadArrowArray := List (Option Bytes) → Except Fault (List (Option Bytes))

/-- `api::Reader`. -/
structure TableReader (V : Type) where
  /-- `get_record_batch_reader`. -/
  getRecordBatchReader : Except Fault Unit
  /-- The `n`-th `ReadNext` of the record batch reader. -/
  readNext : ℕ → Except Fault (Option (StorageBatch V))
  /-- `take`, with the batches that `TableBatchReader` makes of the table. -/
  take : List ℤ → ℕ → Except Fault (List (StorageBatch V))

structure ReaderEnvironment (V : Type) where
  /-- `original_schema_`. -/
  schema : List Field
  /-- `config_.lob_columns`, by field id, with the result of `CreateLobColumnReader`. -/
  lobColumns : ℤ → Option (Except Fault ReadArrowArray)
  /-- `api::Reader::create`, for a schema of the storage. -/
  table : List Field → TableReader V

structure SegmentReader (V : Type) where
  closed : Bool := false
  totalRows : ℕ := 0
  extractedSchema : List Field
  reader : TableReader V
  /-- The number of batches that have been asked for. -/
  position : ℕ := 0
  /-- By the index in the extracted schema. -/
  lobReaders : List (ℕ × ReadArrowArray)

variable (R : ReaderEnvironment V)

/-! ## Creation -/

structure ExtractionSchemas where
  extractedFields : List Field := []
  storageFields : List Field := []
  lobColumnIndices : List ℕ := []

/-- The field of the storage. -/
def storageField (field : Field) : Field :=
  if (R.lobColumns field.fieldId).isSome then { field with type := .binary } else field

/-- The loop body of `BuildSchemasForExtraction`. -/
def extractField (columns : List String) (acc : ExtractionSchemas) (field : Field) :
    Except Fault ExtractionSchemas :=
  if columns ≠ [] ∧ field.name ∉ columns then .ok acc
  else if (R.lobColumns field.fieldId).isSome then
    if field.hasMetadata then
      .ok {
        extractedFields := acc.extractedFields ++ [field]
        storageFields := acc.storageFields ++ [storageField R field]
        lobColumnIndices := acc.lobColumnIndices ++ [acc.extractedFields.length] }
    else .error .nullDereference
  else
    .ok { acc with
      extractedFields := acc.extractedFields ++ [field]
      storageFields := acc.storageFields ++ [storageField R field] }

def buildSchemasForExtraction (columns : List String) : Except Fault ExtractionSchemas := do
  let schemas ← R.schema.foldlM (extractField R columns) {}
  if schemas.extractedFields = [] then .error (.status (.invalid "no columns to extract"))
  else return schemas

/-- The loop body of `Init`. -/
def createReader (extractedSchema : List Field) (k : ℕ) : Except Fault (ℕ × ReadArrowArray) :=
  match extractedSchema[k]? with
  | none => .error .outOfBounds
  | some field =>
    if field.fieldId < 0 then
      .error (.status (.invalid "TEXT column must have a valid field_id in metadata"))
    else
      match R.lobColumns field.fieldId with
      | none =>
        .error (.status (.invalid
          ("TEXT column config not found for field_id: " ++ toString field.fieldId)))
      | some reader => do
        let read ← reader
        return (k, read)

/-- `SegmentReader::Create`. -/
def SegmentReader.create (columns : List String) : Except Fault (SegmentReader V) := do
  let extractedColumns := if columns = [] then R.schema.map Field.name else columns
  let schemas ← buildSchemasForExtraction R extractedColumns
  let reader := R.table schemas.storageFields
  let lobReaders ← schemas.lobColumnIndices.mapM (createReader R schemas.extractedFields)
  reader.getRecordBatchReader
  return { extractedSchema := schemas.extractedFields, reader, lobReaders }

/-! ## Reading -/

namespace SegmentReader

/-- The loop body of `ResolveLobColumns`. -/
def resolveColumn (r : SegmentReader V) (k : ℕ) (column : Column V) : Except Fault (Column V) :=
  match r.lobReaders.lookup k with
  | none => .ok column
  | some read =>
    match asBinary column with
    | none => .error (.status (.invalid "expected BinaryArray for LOB column reference"))
    | some refs => do
      let values ← read refs
      return ofBinary values

def resolveLobColumns (r : SegmentReader V) (batch : StorageBatch V) :
    Except Fault (ResolvedBatch V) :=
  if r.lobReaders = [] then .ok { batch with schema := r.extractedSchema }
  else do
    let columns ← batch.columns.zipIdx.mapM fun c => r.resolveColumn c.2 c.1
    return { numRows := batch.numRows, columns, schema := r.extractedSchema }

def readerIsClosed : Fault := .status (.invalid "reader is closed")

/-- `ReadNext` of the record batch reader. -/
def nextBatch : Command (SegmentReader V) Fault (Option (StorageBatch V)) := fun r =>
  ({ r with position := r.position + 1 }, r.reader.readNext r.position)

def readNext : Command (SegmentReader V) Fault (Option (ResolvedBatch V)) := do
  let r ← get
  if r.closed then fail readerIsClosed
  else
    let storageBatch ← nextBatch
    match storageBatch with
    | none => return none
    | some storageBatch =>
      modify fun r => { r with totalRows := r.totalRows + storageBatch.numRows }
      let batch ← ofExcept (r.resolveLobColumns storageBatch)
      return some batch

def take (rowIndices : List ℤ) (parallelism : ℕ) : Command (SegmentReader V) Fault (Table V) := do
  let r ← get
  if r.closed then fail readerIsClosed
  else if rowIndices = [] then return .makeEmpty r.extractedSchema
  else
    let batches ← ofExcept (r.reader.take rowIndices parallelism)
    let resolved ← ofExcept (batches.mapM r.resolveLobColumns)
    if resolved.isEmpty then return .makeEmpty r.extractedSchema
    else return .fromRecordBatches r.extractedSchema resolved

end SegmentReader

/-! ## The extracted columns -/

section Extraction

variable (columns : List String)

/-- The fields that are extracted, with their positions. -/
def extracted : List (Field × ℕ) :=
  R.schema.zipIdx.filter fun p => columns = [] ∨ p.1.name ∈ columns

/-- The indices of the columns of large objects among some fields. -/
def lobIndices (n : ℕ) (fields : List Field) : List ℕ :=
  ((fields.zipIdx n).filter fun p => (R.lobColumns p.1.fieldId).isSome).map Prod.snd

variable {R} {fields : List Field} {k : ℕ} {f : Field}

theorem mem_lobIndices :
    k ∈ lobIndices R 0 fields ↔ ∃ f, fields[k]? = some f ∧ (R.lobColumns f.fieldId).isSome := by
  simp [lobIndices, mem_zipIdx_iff_getElem?]

theorem foldlM_extractField
    (hmetadata : ∀ f ∈ fields, (R.lobColumns f.fieldId).isSome → f.hasMetadata)
    (acc : ExtractionSchemas) :
    fields.foldlM (extractField R columns) acc =
      let wanted := fields.filter fun f => columns = [] ∨ f.name ∈ columns
      .ok {
        extractedFields := acc.extractedFields ++ wanted
        storageFields := acc.storageFields ++ wanted.map (storageField R)
        lobColumnIndices :=
          acc.lobColumnIndices ++ lobIndices R acc.extractedFields.length wanted } := by
  induction fields generalizing acc with
  | nil => simp [lobIndices]; rfl
  | cons f fields ih =>
    obtain ⟨hf, hfields⟩ := forall_mem_cons.mp hmetadata
    rw [foldlM_cons]
    by_cases hwanted : columns = [] ∨ f.name ∈ columns
    · have hskip : ¬ (columns ≠ [] ∧ f.name ∉ columns) := by tauto
      by_cases hlob : (R.lobColumns f.fieldId).isSome
      · rw [extractField, if_neg hskip, if_pos hlob, if_pos (hf hlob), ok_bind, ih hfields]
        simp [hwanted, lobIndices, hlob]
      · rw [extractField, if_neg hskip, if_neg hlob, ok_bind, ih hfields]
        simp [hwanted, lobIndices, hlob]
    · have hskip : columns ≠ [] ∧ f.name ∉ columns := by tauto
      rw [extractField, if_pos hskip, ok_bind, ih hfields]
      simp [hwanted]

/-- The extracted schema. -/
def extractedFields (R : ReaderEnvironment V) : List Field := (extracted R columns).map Prod.fst

theorem extractedFields_eq : extractedFields columns R =
    R.schema.filter fun f => columns = [] ∨ f.name ∈ columns := by
  have hfst : R.schema.zipIdx.map Prod.fst = R.schema := zipIdx_map_fst ..
  rw [extractedFields, extracted, ← hfst, filter_map, hfst]
  rfl

variable {columns}

theorem mem_extracted {i : ℕ} : (f, i) ∈ extracted R columns ↔
    R.schema[i]? = some f ∧ (columns = [] ∨ f.name ∈ columns) := by
  simp [extracted, mem_zipIdx_iff_getElem?]

theorem getElem?_extractedFields :
    (extractedFields columns R)[k]? = some f ↔ ∃ i, (extracted R columns)[k]? = some (f, i) := by
  simp [extractedFields]

theorem buildSchemasForExtraction_ok (hmetadata : ∀ f ∈ R.schema,
    (R.lobColumns f.fieldId).isSome → f.hasMetadata) (hsome : extracted R columns ≠ []) :
    buildSchemasForExtraction R (if columns = [] then R.schema.map Field.name else columns) =
      .ok {
        extractedFields := extractedFields columns R
        storageFields := (extractedFields columns R).map (storageField R)
        lobColumnIndices := lobIndices R 0 (extractedFields columns R) } := by
  have hne : extractedFields columns R ≠ [] := by simpa [extractedFields] using hsome
  have hwanted : (R.schema.filter fun f => decide
      ((if columns = [] then R.schema.map Field.name else columns) = [] ∨
        f.name ∈ if columns = [] then R.schema.map Field.name else columns)) =
      extractedFields columns R := by
    rw [extractedFields_eq]
    refine filter_congr fun f hf => ?_
    by_cases hall : columns = []
    · simp [hall, mem_map_of_mem hf]
    · simp [hall]
  rw [buildSchemasForExtraction, foldlM_extractField _ hmetadata, hwanted]
  exact if_neg (by simpa using hne)

/-- What `Create` returns. -/
structure Created (R : ReaderEnvironment V) (columns : List String) (r : SegmentReader V) :
    Prop where
  closed : r.closed = false
  position : r.position = 0
  extractedSchema : r.extractedSchema = extractedFields columns R
  reader : r.reader = R.table ((extractedFields columns R).map (storageField R))
  lobReaders : ∀ k f, (extractedFields columns R)[k]? = some f →
    r.lobReaders.lookup k = (R.lobColumns f.fieldId).bind Except.toOption

theorem createReader_ok {read : ReadArrowArray} (hf : fields[k]? = some f) (hid : 0 ≤ f.fieldId)
    (hread : R.lobColumns f.fieldId = some (.ok read)) :
    createReader R fields k = .ok (k, read) := by
  simp only [createReader, hf, hread, if_neg (not_lt.mpr hid)]
  rfl

/-- `Create` succeeds if there is a column to extract and the readers can be opened. -/
theorem SegmentReader.create_ok (hmetadata : ∀ f ∈ R.schema,
    (R.lobColumns f.fieldId).isSome → f.hasMetadata) (hsome : extracted R columns ≠ [])
    (hreaders : ∀ f ∈ extractedFields columns R, ∀ reader, R.lobColumns f.fieldId = some reader →
      0 ≤ f.fieldId ∧ ∃ read, reader = .ok read)
    (hopen : (R.table ((extractedFields columns R).map (storageField R))).getRecordBatchReader =
      .ok ()) :
    ∃ r, SegmentReader.create R columns = .ok r ∧ Created R columns r := by
  have hreader : ∀ k ∈ lobIndices R 0 (extractedFields columns R), ∃ f read,
      (extractedFields columns R)[k]? = some f ∧ R.lobColumns f.fieldId = some (.ok read) ∧
        createReader R (extractedFields columns R) k = .ok (k, read) := by
    intro k hk
    obtain ⟨f, hf, hlob⟩ := mem_lobIndices.mp hk
    obtain ⟨reader, hlob⟩ := Option.isSome_iff_exists.mp hlob
    obtain ⟨hid, read, rfl⟩ := hreaders f (mem_of_getElem? hf) reader hlob
    exact ⟨f, read, hf, hlob, createReader_ok hf hid hlob⟩
  obtain ⟨readers, hreaders⟩ := exists_mapM_ok fun k hk => by
    obtain ⟨f, read, -, -, hcreate⟩ := hreader k hk
    exact ⟨_, hcreate⟩
  refine ⟨{
    extractedSchema := extractedFields columns R
    reader := R.table ((extractedFields columns R).map (storageField R))
    lobReaders := readers }, ?_, rfl, rfl, rfl, rfl, fun k f hf => ?_⟩
  · rw [SegmentReader.create]
    simp only [buildSchemasForExtraction_ok hmetadata hsome, ok_bind, hreaders, hopen]
    rfl
  · have hentries : Forall₂ (fun k p => ∃ read, (∃ f, (extractedFields columns R)[k]? = some f ∧
          R.lobColumns f.fieldId = some (.ok read)) ∧ p = (k, read))
        (lobIndices R 0 (extractedFields columns R)) readers := by
      refine ((forall₂_and_left _ _).mpr ⟨hreader, forall₂_of_mapM_ok hreaders⟩).imp ?_
      rintro k p ⟨⟨f, read, hf, hlob, hcreate⟩, hp⟩
      exact ⟨read, ⟨f, hf, hlob⟩, ok.inj (hp.symm.trans hcreate)⟩
    obtain ⟨hkeys, hvalue⟩ := lookup_forall₂ hentries k
    rw [mem_lobIndices] at hkeys
    cases hlookup : readers.lookup k with
    | none =>
      have hnone : ¬ (R.lobColumns f.fieldId).isSome := fun h => by
        simpa [hlookup] using hkeys.mpr ⟨f, hf, h⟩
      simp [Option.not_isSome_iff_eq_none.mp hnone]
    | some read =>
      obtain ⟨f', hf', hread⟩ := hvalue read hlookup
      cases hf.symm.trans hf'
      rw [hread]
      rfl

end Extraction

end MilvusStorage.Segment
