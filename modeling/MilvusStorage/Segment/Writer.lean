import MilvusStorage.Foundations.Except
import MilvusStorage.Lob.Writer
import MilvusStorage.Manifest.Basic

/-!
# Writing segments

`SegmentWriterImpl`. The columns of large objects go through a writer of their own, one for each
column, and the references it returns are stored with the other columns by the writer of the table.
A column in rewrite mode arrives as references, which are resolved first.

The writers of the columns are given by the operations of the interface `LobColumnWriter`, on states
of a type `W`. Of the writer of the table only its calls are modelled, which can fail, and the rows
that it has taken.
-/

namespace MilvusStorage.Segment

open Except Command Lob Function

/-! ## Data -/

inductive DataType
  | utf8
  | binary
  | other (name : String)
  deriving DecidableEq, Repr

/-- A field of an Arrow schema. The field id is the one of `GetFieldId`. -/
structure Field where
  name : String
  type : DataType
  nullable : Bool := true
  fieldId : ℤ
  hasMetadata : Bool := true
  deriving DecidableEq, Repr

/-- `Schema::Equals`, which does not look at metadata. -/
def sameSchema (schema schema' : List Field) : Bool :=
  schema.map (fun f => (f.name, f.type, f.nullable)) =
    schema'.map fun f => (f.name, f.type, f.nullable)

/-- The cells of a column: nulls, values of binary types, and other values. -/
abbrev Column (V : Type) := List (Option (Bytes ⊕ V))

variable {V : Type}

/-- The column as a `BinaryArray`, if it is one. -/
def asBinary (column : Column V) : Option (List (Option Bytes)) :=
  column.mapM fun
    | none => some none
    | some (.inl value) => some (some value)
    | some (.inr _) => none

def ofBinary (values : List (Option Bytes)) : Column V := values.map (Option.map .inl)

/-- `arrow::RecordBatch`. -/
structure Batch (V : Type) where
  schema : List Field
  numRows : ℕ
  columns : List (Column V)
  length_columns : columns.length = schema.length
  length_column : ∀ column ∈ columns, column.length = numRows

/-- A batch with the schema of the storage. -/
structure StorageBatch (V : Type) where
  numRows : ℕ
  columns : List (Column V)

def StorageBatch.column (b : StorageBatch V) (k : ℕ) : Column V := b.columns.getD k []

/-! ## The environment -/

/-- The interface `LobColumnWriter`, and the reader that resolves references in rewrite mode, for
the configuration of a column. -/
structure LobColumn (W : Type) where
  rewriteMode : Bool
  /-- `CreateLobColumnWriter`, and in rewrite mode `CreateLobColumnReader`. -/
  create : Except Fault W
  writeArrowArray : List (Option Bytes) → Command W Fault (List (Option Bytes))
  flush : Command W Fault Unit
  close : Command W Fault (List LobFileResult)
  /-- `Abort`, with the files that it deletes. -/
  abort : W → W × List String
  /-- `ReadArrowArray`, in the `n`-th call. -/
  decode : ℕ → List (Option Bytes) → Except Fault (List (Option Bytes))

structure Environment (W : Type) where
  /-- `original_schema_`. -/
  schema : List Field
  /-- `config_.lob_columns`, by field id. -/
  lobColumns : ℤ → Option (LobColumn W)
  /-- The order in which an unordered map with these keys is iterated. -/
  order : List ℕ → List ℕ
  order_perm : ∀ keys, (order keys).Perm keys
  /-- `create_column_group_policy`. -/
  createPolicy : Except Fault Unit
  /-- The fault of the `n`-th call to the writer of the table or to a reader, if it fails. -/
  io : ℕ → Option Fault

namespace Environment

variable {W : Type} (E : Environment W)

/-- The configuration of the column with this index, if it is one of large objects. -/
def lobAt (i : ℕ) : Option (LobColumn W) :=
  E.schema[i]?.bind fun field => E.lobColumns field.fieldId

def lobColumnIndices : List ℕ :=
  (List.range E.schema.length).filter fun i => (E.lobAt i).isSome

/-- The keys of `lob_writers_`, as they are iterated. -/
def keys : List ℕ := E.order E.lobColumnIndices

def rewriteColumns : List ℕ := E.keys.filter fun i => (E.lobAt i).any LobColumn.rewriteMode

end Environment

structure SegmentWriter (W V : Type) where
  closed : Bool := false
  writtenRows : ℕ := 0
  lobWriters : ℕ → Option W
  /-- The batches that the writer of the table has taken. -/
  stored : List (StorageBatch V) := []
  ioCount : ℕ := 0
  /-- The files that have been deleted. -/
  deletedFiles : List String := []

variable {W : Type} (E : Environment W)

abbrev Step (W V α : Type) := Command (SegmentWriter W V) Fault α

/-- A call to the writer of the table, or to a reader that is closed. -/
def ioCall : Step W V Unit := fun w =>
  ({ w with ioCount := w.ioCount + 1 }, (E.io w.ioCount).elim (.ok ()) .error)

/-- A call to the writer of a column. -/
def onWriter {α : Type} (i : ℕ) (call : Command W Fault α) : Step W V α := fun w =>
  match w.lobWriters i with
  | none => (w, .error .nullDereference)
  | some lw =>
    ({ w with lobWriters := update w.lobWriters i (some (call lw).1) }, (call lw).2)

/-- A call of the interface to the writer of a column. -/
def onColumn {α : Type} (i : ℕ) (call : LobColumn W → Command W Fault α) : Step W V α :=
  match E.lobAt i with
  | none => fail .nullDereference
  | some lob => onWriter i (call lob)

/-! ## Creation -/

/-- The loop body of `Init`. -/
def createWriter (i : ℕ) : Except Fault (ℕ × W) :=
  match E.schema[i]? with
  | none => .error .outOfBounds
  | some field =>
    if field.fieldId < 0 then
      .error (.status (.invalid "LOB column must have a valid field_id in metadata"))
    else
      match E.lobColumns field.fieldId with
      | none =>
        .error (.status (.invalid
          ("LOB column config not found for field_id: " ++ toString field.fieldId)))
      | some lob => do
        let writer ← lob.create
        return (i, writer)

/-- The metadata of a column of large objects is copied to the schema of the storage. -/
def copyMetadata (i : ℕ) : Except Fault Unit :=
  if E.schema[i]?.all Field.hasMetadata then .ok () else .error .nullDereference

/-- `SegmentWriter::Create`. -/
def create : Except Fault (SegmentWriter W V) := do
  let _ ← E.lobColumnIndices.mapM (copyMetadata E)
  let writers ← E.lobColumnIndices.mapM (createWriter E)
  E.createPolicy
  return { lobWriters := fun i => writers.lookup i }

section Create

variable {E} {i : ℕ}

theorem mem_lobColumnIndices : i ∈ E.lobColumnIndices ↔ (E.lobAt i).isSome := by
  rw [Environment.lobColumnIndices, List.mem_filter, List.mem_range, and_iff_right_iff_imp]
  intro hi
  by_contra hlen
  simp [Environment.lobAt, List.getElem?_eq_none (Nat.le_of_not_lt hlen)] at hi

theorem mem_keys : i ∈ E.keys ↔ (E.lobAt i).isSome :=
  (E.order_perm _).mem_iff.trans mem_lobColumnIndices

theorem nodup_keys (E : Environment W) : E.keys.Nodup :=
  (E.order_perm _).nodup_iff.mpr (List.nodup_range.filter _)

theorem createWriter_eq_ok {p : ℕ × W} (h : createWriter E i = .ok p) :
    ∃ lob lw, E.lobAt i = some lob ∧ lob.create = .ok lw ∧ p = (i, lw) := by
  unfold createWriter at h
  cases hfield : E.schema[i]? with
  | none => simp [hfield] at h
  | some field =>
    simp only [hfield] at h
    split_ifs at h
    cases hlob : E.lobColumns field.fieldId with
    | none => simp [hlob] at h
    | some lob =>
      simp only [hlob] at h
      obtain ⟨lw, hlw, hp⟩ := bind_eq_ok.mp h
      exact ⟨lob, lw, by simp [Environment.lobAt, hfield, hlob], hlw, (pure_eq_ok_iff.mp hp).symm⟩

/-- A table of values that are computed for a list of keys. -/
theorem lookup_forall₂ {Q : ℕ → W → Prop} {keys : List ℕ} {entries : List (ℕ × W)}
    (h : List.Forall₂ (fun i p => ∃ lw, Q i lw ∧ p = (i, lw)) keys entries) (i : ℕ) :
    ((entries.lookup i).isSome ↔ i ∈ keys) ∧ ∀ lw, entries.lookup i = some lw → Q i lw := by
  induction h with
  | nil => simp
  | @cons k p keys entries hp _ ih =>
    obtain ⟨lw, hQ, rfl⟩ := hp
    by_cases hik : i = k
    · subst hik
      simp [hQ]
    · have hne : (i == k) = false := by simpa using hik
      simpa [List.lookup_cons, hne, hik] using ih

variable {w : SegmentWriter W V}

/-- A new writer has a writer for each column of large objects. -/
theorem create_eq_ok (h : create E = .ok w) :
    w = { lobWriters := w.lobWriters } ∧ ∀ i, ((w.lobWriters i).isSome ↔ (E.lobAt i).isSome) ∧
      ∀ lw, w.lobWriters i = some lw → ∃ lob, E.lobAt i = some lob ∧ lob.create = .ok lw := by
  obtain ⟨-, -, h⟩ := bind_eq_ok.mp h
  obtain ⟨writers, hwriters, h⟩ := bind_eq_ok.mp h
  obtain ⟨-, -, rfl⟩ := bind_pure_eq_ok.mp h
  have hentries : List.Forall₂ (fun i p => ∃ lw, (∃ lob, E.lobAt i = some lob ∧
      lob.create = .ok lw) ∧ p = (i, lw)) E.lobColumnIndices writers := by
    refine (forall₂_of_mapM_ok hwriters).imp fun i p hp => ?_
    obtain ⟨lob, lw, hlob, hlw, rfl⟩ := createWriter_eq_ok hp
    exact ⟨lw, ⟨lob, hlob, hlw⟩, rfl⟩
  refine ⟨rfl, fun i => ?_⟩
  obtain ⟨hsome, hlw⟩ := lookup_forall₂ hentries i
  exact ⟨hsome.trans mem_lobColumnIndices, hlw⟩

/-- The fields of the columns of large objects. -/
theorem create_fields (h : create E = .ok w) {field : Field} (hfield : E.schema[i]? = some field)
    (hlob : (E.lobColumns field.fieldId).isSome) : field.hasMetadata ∧ 0 ≤ field.fieldId := by
  obtain ⟨_, hmetadata, h⟩ := bind_eq_ok.mp h
  obtain ⟨writers, hwriters, -⟩ := bind_eq_ok.mp h
  have hi : i ∈ E.lobColumnIndices :=
    mem_lobColumnIndices.mpr (by simpa [Environment.lobAt, hfield])
  obtain ⟨_, -, hcopy⟩ := (forall₂_of_mapM_ok hmetadata).exists_right hi
  obtain ⟨_, -, hcreate⟩ := (forall₂_of_mapM_ok hwriters).exists_right hi
  constructor
  · by_contra hnone
    simp [copyMetadata, hfield, hnone] at hcopy
  · by_contra hneg
    simp [createWriter, hfield, not_le.mp hneg] at hcreate

end Create

/-! ## Writing -/

/-- `ReadArrowArray` in rewrite mode. -/
def decodeReferences (lob : LobColumn W) (refs : List (Option Bytes)) :
    Step W V (List (Option Bytes)) := fun w =>
  ({ w with ioCount := w.ioCount + 1 }, lob.decode w.ioCount refs)

/-- The values that are written: in rewrite mode those of the references. -/
def columnValues (lob : LobColumn W) (data : List (Option Bytes)) :
    Step W V (List (Option Bytes)) :=
  if lob.rewriteMode then decodeReferences lob data else pure data

/-- The loop body of `Write`. The column is cast to a `BinaryArray` without a check. -/
def writeColumn (i : ℕ) (column : Column V) : Step W V (Column V) :=
  match E.lobAt i with
  | none => pure column
  | some lob => do
    let data ← ofOption .outOfBounds (asBinary column)
    let values ← columnValues lob data
    let refs ← onWriter i (lob.writeArrowArray values)
    return ofBinary refs

def writeBatch (batch : Batch V) : Step W V Unit := do
  let columns ← forEach (fun c => writeColumn E c.2 c.1) batch.columns.zipIdx
  ioCall E
  modify fun w => { w with
    stored := w.stored ++ [⟨batch.numRows, columns⟩]
    writtenRows := w.writtenRows + batch.numRows }

def writerIsClosed : Fault := .status (.invalid "writer is closed")

/-- The check of the schema, which in rewrite mode only counts the columns. -/
def schemaError (batch : Batch V) : Option Fault :=
  if E.rewriteColumns ≠ [] then
    if batch.columns.length ≠ E.schema.length then
      some (.status (.invalid "batch column count does not match writer schema"))
    else none
  else if sameSchema batch.schema E.schema then none
  else some (.status (.invalid "batch schema does not match writer schema"))

def write (batch : Option (Batch V)) : Step W V Unit := do
  let w ← get
  if w.closed then fail writerIsClosed
  else
    match batch with
    | none => return ()
    | some batch =>
      if batch.numRows = 0 then return ()
      else
        match schemaError E batch with
        | some e => fail e
        | none => writeBatch E batch

def flush : Step W V Unit := do
  let w ← get
  if w.closed then fail writerIsClosed
  else
    let _ ← forEach (fun i => onColumn E i LobColumn.flush) E.keys
    ioCall E

/-! ## The end of a segment -/

structure SegmentWriteOutput (V : Type) where
  /-- The rows of the column groups. -/
  columnGroups : List (StorageBatch V)
  lobFiles : List LobFileInfo
  rowsWritten : ℕ

/-- The entry of a file in the output. -/
def lobFileInfo (i : ℕ) (result : LobFileResult) : LobFileInfo where
  path := result.path
  fieldId := (E.schema[i]?.map Field.fieldId).getD (-1)
  totalRows := result.totalRows
  validRows := result.validRows
  fileSizeBytes := result.fileSizeBytes

def close : Step W V (SegmentWriteOutput V) := do
  let w ← get
  if w.closed then fail (.status (.invalid "writer is already closed"))
  else
    flush E
    let lobFileResults ← forEach (fun i => onColumn E i LobColumn.close) E.keys
    let _ ← forEach (fun _ => ioCall E) E.rewriteColumns
    ioCall E
    modify fun w => { w with closed := true }
    let w ← get
    return {
      columnGroups := w.stored
      lobFiles := (E.keys.zip lobFileResults).flatMap fun (i, results) =>
        results.map (lobFileInfo E i)
      rowsWritten := w.writtenRows }

/-- The loop body of `Abort`. -/
def abortColumn (w : SegmentWriter W V) (i : ℕ) : SegmentWriter W V :=
  match E.lobAt i, w.lobWriters i with
  | some lob, some lw =>
    { w with
      lobWriters := update w.lobWriters i (some (lob.abort lw).1)
      deletedFiles := w.deletedFiles ++ (lob.abort lw).2 }
  | _, _ => w

def abort (w : SegmentWriter W V) : SegmentWriter W V :=
  if w.closed then w else { E.keys.foldl (abortColumn E) w with closed := true }

/-! ## Commands on columns -/

section Keeps

variable {E}

/-- The writer of a column has a property. -/
def At (i : ℕ) (P : W → Prop) (w : SegmentWriter W V) : Prop :=
  ∃ lw, w.lobWriters i = some lw ∧ P lw

variable {α : Type}

theorem onWriter_run {i : ℕ} {call : Command W Fault α} {w : SegmentWriter W V} {lw : W}
    (h : w.lobWriters i = some lw) : onWriter i call w =
      ({ w with lobWriters := update w.lobWriters i (some (call lw).1) }, (call lw).2) := by
  rw [onWriter, h]

/-- The parts of the calls keep `P`. -/
structure Stable (E : Environment W) (P : SegmentWriter W V → Prop) : Prop where
  of_eq : ∀ w w', w'.closed = w.closed → w'.lobWriters = w.lobWriters →
    w'.deletedFiles = w.deletedFiles → P w → P w'
  writeArrowArray : ∀ i lob values, E.lobAt i = some lob →
    Keeps P (onWriter i (lob.writeArrowArray values))
  flush : ∀ i lob, E.lobAt i = some lob → Keeps P (onWriter i lob.flush)
  close : ∀ i lob, E.lobAt i = some lob → Keeps P (onWriter i lob.close)

namespace Stable

variable {P : SegmentWriter W V → Prop} (h : Stable E P)
include h

theorem ioCall : Keeps P (ioCall E) := keeps_iff.mpr fun w => h.of_eq w _ rfl rfl rfl

theorem columnValues (lob : LobColumn W) (data : List (Option Bytes)) :
    Keeps P (columnValues lob data) :=
  Keeps.ite (keeps_iff.mpr fun w => h.of_eq w _ rfl rfl rfl) (keeps_pure data)

theorem writeColumn (i : ℕ) (column : Column V) : Keeps P (writeColumn E i column) := by
  rw [Segment.writeColumn]
  cases hlob : E.lobAt i with
  | none => exact keeps_pure column
  | some lob =>
    refine (keeps_ofOption _ _).bind fun data => (h.columnValues lob data).bind fun values => ?_
    exact (h.writeArrowArray i lob values hlob).bind fun _ => keeps_pure _

theorem writeBatch (batch : Batch V) : Keeps P (writeBatch E batch) := by
  refine (keeps_forEach (fun (c : Column V × ℕ) => h.writeColumn c.2 c.1) _).bind fun columns => ?_
  exact h.ioCall.bind fun _ => keeps_modify fun w hw => h.of_eq w _ rfl rfl rfl hw

theorem write (batch : Option (Batch V)) : Keeps P (write E batch) := by
  refine keeps_get.bind fun w => Keeps.ite (keeps_fail _) ?_
  cases batch with
  | none => exact keeps_pure ()
  | some batch =>
    apply Keeps.ite (keeps_pure ())
    cases schemaError E batch with
    | some e => exact keeps_fail e
    | none => exact h.writeBatch batch

omit h in
theorem onColumn {call : LobColumn W → Command W Fault α}
    (hcall : ∀ i lob, E.lobAt i = some lob → Keeps P (onWriter i (call lob))) (i : ℕ) :
    Keeps P (onColumn E i call) := by
  rw [Segment.onColumn]
  cases hlob : E.lobAt i with
  | none => exact keeps_fail _
  | some lob => exact hcall i lob hlob

theorem flushAll : Keeps P (Segment.flush E) := by
  refine keeps_get.bind fun w => Keeps.ite (keeps_fail _) ?_
  exact (keeps_forEach (onColumn h.flush) _).bind fun _ => h.ioCall

/-- The flag is set when nothing can fail any more. -/
theorem closeAll : Spec P (Segment.close E) (fun _ _ => True) (fun _ => P) := by
  refine spec_get_bind fun w hw => spec_ite (fun _ => spec_fail ?_) fun _ => ?_
  · rintro _ rfl
    exact hw
  · refine (h.flushAll.from hw).bind fun _ => ?_
    refine Spec.bind (keeps_forEach (onColumn h.close) _) fun _ => ?_
    refine Spec.bind (keeps_forEach (fun _ => h.ioCall) _) fun _ => Spec.bind h.ioCall fun _ => ?_
    refine Spec.bind (Q := fun _ _ => True) (spec_modify fun _ _ => trivial) fun _ => ?_
    exact spec_get_bind fun _ _ => spec_pure fun _ _ => trivial

end Stable

end Keeps

end MilvusStorage.Segment
