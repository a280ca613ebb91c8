import MilvusStorage.Common.Status
import MilvusStorage.Foundations.Commands
import MilvusStorage.Lob.Reference

/-!
# Reading large objects

`LobColumnReaderImpl::ReadData`. The reader opens the Vortex file that a reference names, unless it
has it open, and takes one row. A reference `Resolves` to a value in some files if every reader
returns the value for it.
-/

namespace MilvusStorage.Lob

open Command

structure LobColumnReader where
  closed : Bool := false
  /-- `reader_cache_`: the rows of the files that are open, by file id. -/
  readerCache : String → Option (List Bytes) := fun _ => none

variable (openFile : String → Except Fault (List Bytes)) (lobBasePath : String)

def getOrOpenReader (fileIdStr : String) : Command LobColumnReader Fault (List Bytes) := do
  let r ← get
  match r.readerCache fileIdStr with
  | some rows => return rows
  | none =>
    match openFile (buildLOBFilePath lobBasePath fileIdStr) with
    | .error e => fail e
    | .ok rows =>
      modify fun r =>
        { r with readerCache := Function.update r.readerCache fileIdStr (some rows) }
      return rows

/-- `VortexFormatReader::take` of one row. -/
def takeRow (path : String) (rows : List Bytes) (rowIndex : ℤ) : Except Fault Bytes :=
  match rows[rowIndex.toNat]? with
  | some row => if rowIndex < 0 then outOfRange else .ok row
  | none => outOfRange
where
  outOfRange : Except Fault Bytes :=
    let rowCount := rows.length
    .error (.status (.invalid
      s!"Row index out of range: {rowIndex}. [path={path}, valid_range=[0, {rowCount}]]"))

def readData (encodedRef : Bytes) : Command LobColumnReader Fault Bytes := do
  let r ← get
  if r.closed then fail (.status (.invalid "reader is closed"))
  else if encodedRef = [] then fail (.status (.invalid "invalid encoded reference"))
  else if isInlineData encodedRef then return decodeInlineData encodedRef
  else if encodedRef.length ≠ lobReferenceSize then
    let refSize := encodedRef.length
    fail (.status (.invalid
      s!"invalid LOB reference size: {refSize}, expected: {lobReferenceSize}"))
  else
    let ref := decodeLOBReference encodedRef
    let rows ← getOrOpenReader openFile lobBasePath ref.fileId
    match takeRow (buildLOBFilePath lobBasePath ref.fileId) rows ref.rowOffset with
    | .error e => fail e
    | .ok row => return row

/-- What the reader has open is what opening the file gives. -/
def LobColumnReader.Current (r : LobColumnReader) : Prop :=
  ∀ fileIdStr rows, r.readerCache fileIdStr = some rows →
    openFile (buildLOBFilePath lobBasePath fileIdStr) = .ok rows

/-- Every reader of these files returns the value. A file returns its rows in the order in which
they were written. -/
def Resolves (files : String → Option (List Bytes)) (encodedRef data : Bytes) : Prop :=
  ∀ (openFile : String → Except Fault (List Bytes)) (r : LobColumnReader),
    (∀ path rows, files path = some rows → openFile path = .ok rows) →
    r.closed = false → r.Current openFile lobBasePath →
    (readData openFile lobBasePath encodedRef r).2 = .ok data

variable {lobBasePath} {files : String → Option (List Bytes)}

theorem resolves_inline (data : Bytes) :
    Resolves lobBasePath files (encodeInlineData data) data := by
  intro openFile r _ hclosed _
  have hinline : isInlineData (encodeInlineData data) = true := rfl
  simp [readData, hclosed, encodeInlineData_ne_nil, hinline, decodeInlineData_encode]

/-- The reader gets the rows of the file, whether it has it open or not. -/
theorem getOrOpenReader_ok {openFile : String → Except Fault (List Bytes)} {r : LobColumnReader}
    (hcur : r.Current openFile lobBasePath) {fileIdStr : String} {rows : List Bytes}
    (hopen : openFile (buildLOBFilePath lobBasePath fileIdStr) = .ok rows) :
    ∃ r', getOrOpenReader openFile lobBasePath fileIdStr r = (r', .ok rows) := by
  rw [getOrOpenReader, get_bind_run]
  cases hcache : r.readerCache fileIdStr with
  | some rows' =>
    obtain rfl := Except.ok.inj (hopen.symm.trans (hcur fileIdStr rows' hcache))
    exact ⟨r, rfl⟩
  | none =>
    rw [hopen]
    exact ⟨_, rfl⟩

/-- A row of a file. -/
theorem resolves_row {fileId : UUID} {rows : List Bytes} {n : ℕ} {data : Bytes}
    (hfile : files (lobFilePath lobBasePath fileId) = some rows) (hrow : rows[n]? = some data)
    (hn : n < 2 ^ 31) :
    Resolves lobBasePath files (encodeLOBReference fileId (toSigned 32 n)) data := by
  intro openFile r hopen hclosed hcur
  have hoff := toSigned_natCast hn
  obtain ⟨r', hreader⟩ := getOrOpenReader_ok hcur (hopen _ rows hfile)
  have htake : takeRow (buildLOBFilePath lobBasePath (uuidToString fileId.1)) rows n =
      .ok data := by
    rw [takeRow, Int.toNat_natCast, hrow]
    exact if_neg (by omega)
  have hdec : decodeLOBReference (encodeLOBReference fileId n) = ⟨uuidToString fileId.1, n⟩ :=
    decodeLOBReference_encode fileId (by omega) (by omega)
  simp [readData, hclosed, encodeLOBReference_ne_nil, isInlineData_encodeLOBReference,
    length_encodeLOBReference, hoff, hdec, bind_run_ok hreader, htake]

theorem Resolves.unique {lobBasePath : String} {files : String → Option (List Bytes)}
    {encodedRef a b : Bytes} (ha : Resolves lobBasePath files encodedRef a)
    (hb : Resolves lobBasePath files encodedRef b) : a = b := by
  have hopen : ∀ path rows, files path = some rows →
      (files path).elim (.error .nullDereference) .ok = (.ok rows : Except Fault (List Bytes)) := by
    intro path rows h
    simp [h]
  have hcur : LobColumnReader.Current
      (fun path => (files path).elim (.error .nullDereference) .ok) lobBasePath {} :=
    fun _ _ h => by cases h
  exact Except.ok.inj ((ha _ {} hopen rfl hcur).symm.trans (hb _ {} hopen rfl hcur))

end MilvusStorage.Lob
