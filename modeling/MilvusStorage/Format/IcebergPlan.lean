import MilvusStorage.Common.StorageUri
import MilvusStorage.Format.IcebergReads

/-!
# Planning an Iceberg scan

`explore` stores for each data file how many rows it has, and the delete files that apply to it.
The planner, which is written in Rust, counts the rows of the delete files that name the data file.
The reader collects their positions in a set, and recognises the data file by its path in one of
three forms.
-/

namespace MilvusStorage.Format.Iceberg

open List

variable {Row : Type}

/-! ## Paths -/

/-- A string before and after the first `://`. -/
def splitScheme : List Char → Option (List Char × List Char)
  | [] => none
  | c :: cs =>
    if "://".toList.isPrefixOf (c :: cs) then some ([], cs.drop 2)
    else (splitScheme cs).map fun (scheme, rest) => (c :: scheme, rest)

/-- `abfss://container@endpoint/path` without its endpoint. -/
def dropEndpoint (uri : String) : String :=
  match splitScheme uri.toList with
  | none => uri
  | some (scheme, rest) =>
    if scheme = "abfss".toList ∨ scheme = "abfs".toList then
      let authority := rest.takeWhile (· ≠ '/')
      if '@' ∈ authority then
        .ofList (scheme ++ "://".toList ++ authority.takeWhile (· ≠ '@') ++
          rest.dropWhile (· ≠ '/'))
      else uri
    else uri

/-- `denormalize_uri` of the planner. -/
def denormalizeUri : String → String := dropEndpoint

/-- `StripAbfssEndpoint` of the reader. -/
def stripAbfssEndpoint : String → String := dropEndpoint

def toMilvusUri (parseUri : UriParser) (standardUri address : String) : String :=
  if address = "" then standardUri
  else
    match StorageUri.parse parseUri standardUri false with
    | .error _ => standardUri
    | .ok parsed =>
      if parsed.scheme = "" then standardUri
      else
        match StorageUri.make parseUri { parsed with address } with
        | .error _ => standardUri
        | .ok uri => uri

def milvusURIToIcebergURI (parseUri : UriParser) (uri : String) : String :=
  let stripped := stripAbfssEndpoint uri
  if stripped ≠ uri then stripped
  else
    match StorageUri.parse parseUri uri with
    | .error _ => uri
    | .ok parsed =>
      if parsed.scheme ≠ "" ∧ parsed.address ≠ "" then
        match StorageUri.make parseUri parsed false with
        | .error _ => uri
        | .ok icebergUri => icebergUri
      else uri

/-! ## The planner -/

inductive DataContentType
  | data
  | positionDeletes
  | equalityDeletes
  deriving DecidableEq, Repr

/-- A delete file of a scan task, and `DeleteFileRef`, its entry in the JSON text that is stored. -/
structure DeleteFileRef where
  path : String
  fileType : DataContentType
  deriving DecidableEq, Repr

structure FileScanTask where
  dataFilePath : String
  recordCount : Option ℕ
  deletes : List DeleteFileRef

/-- A row of a positional delete file. -/
structure DeleteRow where
  filePath : Option String
  pos : Option ℤ
  deriving DecidableEq, Repr

/-- What the planner and the reader find under a path, and how paths are converted. -/
structure Storage where
  parseUri : UriParser
  address : String
  plannerFiles : String → Except Fault (List DeleteRow)
  readerFiles : String → Except Fault (List DeleteRow)

/-- The rows that name the data file. -/
def matchingRows (dataFilePath : String) (rows : List DeleteRow) : ℕ :=
  rows.countP fun row => row.filePath = some dataFilePath

/-- `count_positional_deletes`. A total that is not a `u64` is an overflow. -/
def countPositionalDeletes (S : Storage) (dataFilePath : String) (total : ℕ) :
    List DeleteFileRef → Except Fault ℕ
  | [] => .ok total
  | delRef :: delRefs =>
    if delRef.fileType ≠ .positionDeletes then
      countPositionalDeletes S dataFilePath total delRefs
    else do
      let rows ← S.plannerFiles delRef.path
      let total := total + matchingRows dataFilePath rows
      if 2 ^ 64 ≤ total then .error (.thrown "attempt to add with overflow")
      else countPositionalDeletes S dataFilePath total delRefs

structure IcebergFileInfo where
  dataFilePath : String
  recordCount : ℕ
  numDeletedRows : ℕ
  deleteMetadata : List DeleteFileRef

/-- The delete files are read only if there are any. -/
def numDeletedRows (S : Storage) (task : FileScanTask) : Except Fault ℕ :=
  if task.deletes = [] then .ok 0
  else countPositionalDeletes S task.dataFilePath 0 task.deletes

/-- `iceberg_plan_files`, for one task. -/
def planFile (S : Storage) (task : FileScanTask) : Except Fault IcebergFileInfo :=
  match task.deletes.find? fun delRef => delRef.fileType = .equalityDeletes with
  | some delRef =>
    .error (.thrown ("Equality deletes are not supported. Data file: " ++ task.dataFilePath ++
      ", delete file: " ++ delRef.path ++
      ". Equality deletes must be converted to positional deletes before explore."))
  | none => do
    let numDeletedRows ← numDeletedRows S task
    return {
      dataFilePath := denormalizeUri task.dataFilePath
      recordCount := task.recordCount.getD 0
      numDeletedRows
      deleteMetadata := task.deletes.map fun r => { r with path := denormalizeUri r.path } }

/-- A file that `explore` returns. The delete metadata is one of its properties, as JSON text. -/
structure ExploredFile where
  file : ColumnGroupFile
  deleteMetadata : List DeleteFileRef

/-- The path of an entry in `ConvertDeleteMetadataPaths`. -/
def convertPath (S : Storage) (path : String) : String :=
  if S.address = "" ∨ path = "" then path else toMilvusUri S.parseUri path S.address

/-- `explore`, for one file. -/
def exploreFile (S : Storage) (info : IcebergFileInfo) : ExploredFile where
  file := {
    path := toMilvusUri S.parseUri info.dataFilePath S.address
    startIndex := 0
    endIndex := toSigned 64 (info.recordCount - info.numDeletedRows) }
  deleteMetadata := info.deleteMetadata.map fun r => { r with path := convertPath S r.path }

def explore (S : Storage) (task : FileScanTask) : Except Fault ExploredFile := do
  let info ← planFile S task
  return exploreFile S info

/-! ## The reader -/

/-- Whether a row of a delete file is about the data file. -/
def matchesDataFile (parseUri : UriParser) (dataFileUri rowFilePath : String) : Bool :=
  let normalizedDataUri := milvusURIToIcebergURI parseUri dataFileUri
  rowFilePath = dataFileUri ∨ rowFilePath = normalizedDataUri ∨
    stripAbfssEndpoint rowFilePath = normalizedDataUri

/-- The loop of `ReadPositionalDeleteFile`. -/
def collectPositions (parseUri : UriParser) (dataFileUri : String) (deletedPositions : List ℤ) :
    List DeleteRow → List ℤ
  | [] => deletedPositions
  | row :: rows =>
    match row.filePath, row.pos with
    | some rowFilePath, some pos =>
      if matchesDataFile parseUri dataFileUri rowFilePath then
        collectPositions parseUri dataFileUri (deletedPositions.insert pos) rows
      else collectPositions parseUri dataFileUri deletedPositions rows
    | _, _ => collectPositions parseUri dataFileUri deletedPositions rows

def loadPositionalDeletes (S : Storage) (dataFileUri : String) (deletedPositions : List ℤ) :
    List DeleteFileRef → Except Fault (List ℤ)
  | [] => .ok deletedPositions
  | entry :: entries =>
    match entry.fileType with
    | .equalityDeletes =>
      .error (.status (.invalid ("Equality deletes not supported at read time. Delete file: " ++
        entry.path ++
        ". Equality deletes must be converted to positional deletes before explore.")))
    | .positionDeletes => do
      let rows ← S.readerFiles entry.path
      loadPositionalDeletes S dataFileUri
        (collectPositions S.parseUri dataFileUri deletedPositions rows) entries
    | .data => loadPositionalDeletes S dataFileUri deletedPositions entries

/-- `create_reader`, with the reader of the data file. -/
def createReader (S : Storage) (inner : PhysicalReader Row) (file : ExploredFile) :
    Except Fault (IcebergFormatReader Row) := do
  let deletedPositions ← loadPositionalDeletes S file.file.path [] file.deleteMetadata
  openReader inner deletedPositions

/-- The rows that the reader exposes. -/
def IcebergFormatReader.exposedRows (r : IcebergFormatReader Row) : ℕ :=
  r.logicalRowGroupInfos.getLast?.elim 0 RowGroupInfo.endOffset

/-! ## Counting and collecting -/

/-- The delete files that apply to a data file with `n` rows. Each row of them names the file and
one of its rows, and the planner and the reader find the same rows. -/
structure Applies (S : Storage) (task : FileScanTask) (n : ℕ)
    (positions : DeleteFileRef → List ℤ) : Prop where
  recordCount : task.recordCount = some n
  positional : ∀ d ∈ task.deletes, d.fileType = .positionDeletes
  planner : ∀ d ∈ task.deletes, S.plannerFiles d.path =
    .ok ((positions d).map fun p => ⟨some task.dataFilePath, some p⟩)
  reader : ∀ d ∈ task.deletes, S.readerFiles (convertPath S (denormalizeUri d.path)) =
    .ok ((positions d).map fun p => ⟨some task.dataFilePath, some p⟩)
  inRange : ∀ d ∈ task.deletes, ∀ p ∈ positions d, 0 ≤ p ∧ p < n

/-- The reader recognises the path of the data file. -/
def Recognizes (S : Storage) (dataFilePath : String) : Prop :=
  matchesDataFile S.parseUri (toMilvusUri S.parseUri (denormalizeUri dataFilePath) S.address)
    dataFilePath = true

instance (S : Storage) (dataFilePath : String) : Decidable (Recognizes S dataFilePath) :=
  inferInstanceAs (Decidable (_ = true))

@[simp] theorem matchingRows_map (path : String) (ps : List ℤ) :
    matchingRows path (ps.map fun p => ⟨some path, some p⟩) = ps.length := by
  rw [matchingRows]
  simp

variable {path : String} {positions : DeleteFileRef → List ℤ} {refs : List DeleteFileRef}

/-- The planner counts every row. -/
theorem countPositionalDeletes_eq {S : Storage}
    (hpositional : ∀ d ∈ refs, d.fileType = .positionDeletes)
    (hfiles : ∀ d ∈ refs, S.plannerFiles d.path =
      .ok ((positions d).map fun p => ⟨some path, some p⟩)) (total : ℕ) (htotal : total < 2 ^ 64) :
    countPositionalDeletes S path total refs =
      if total + (refs.flatMap positions).length < 2 ^ 64 then
        .ok (total + (refs.flatMap positions).length)
      else .error (.thrown "attempt to add with overflow") := by
  induction refs generalizing total with
  | nil => exact (if_pos htotal).symm
  | cons d refs ih =>
    obtain ⟨hd, hpositional⟩ := forall_mem_cons.mp hpositional
    obtain ⟨hfile, hfiles⟩ := forall_mem_cons.mp hfiles
    rw [countPositionalDeletes, if_neg (not_not.mpr hd), hfile, Except.ok_bind, matchingRows_map,
      flatMap_cons, length_append, ← add_assoc]
    by_cases hover : 2 ^ 64 ≤ total + (positions d).length
    · rw [if_pos hover, if_neg (by omega)]
    · rw [if_neg hover, ih hpositional hfiles _ (by omega)]

theorem collectPositions_map {parseUri : UriParser} {uri : String} (deleted ps : List ℤ) :
    collectPositions parseUri uri deleted (ps.map fun p => ⟨some path, some p⟩) =
      if matchesDataFile parseUri uri path then ps.foldl (fun l p => l.insert p) deleted
      else deleted := by
  induction ps generalizing deleted with
  | nil => simp [collectPositions]
  | cons p ps ih =>
    rw [map_cons, collectPositions]
    dsimp only
    rw [ih, ih]
    split_ifs <;> rfl

/-- The reader collects the positions, if it recognises the path. -/
theorem loadPositionalDeletes_eq {S : Storage} (uri : String)
    (hpositional : ∀ d ∈ refs, d.fileType = .positionDeletes)
    (hfiles : ∀ d ∈ refs, S.readerFiles (convertPath S (denormalizeUri d.path)) =
      .ok ((positions d).map fun p => ⟨some path, some p⟩)) (deleted : List ℤ) :
    loadPositionalDeletes S uri deleted (refs.map fun r =>
        { r with path := convertPath S (denormalizeUri r.path) }) =
      .ok (if matchesDataFile S.parseUri uri path then
        (refs.flatMap positions).foldl (fun l p => l.insert p) deleted else deleted) := by
  induction refs generalizing deleted with
  | nil => simp [loadPositionalDeletes]
  | cons d refs ih =>
    obtain ⟨hd, hpositional⟩ := forall_mem_cons.mp hpositional
    obtain ⟨hfile, hfiles⟩ := forall_mem_cons.mp hfiles
    rw [map_cons, loadPositionalDeletes]
    simp only [hd, hfile, Except.ok_bind, collectPositions_map, ih hpositional hfiles,
      flatMap_cons, foldl_append]
    split_ifs <;> rfl

theorem mem_foldl_insert (deleted ps : List ℤ) (q : ℤ) :
    q ∈ ps.foldl (fun l p => l.insert p) deleted ↔ q ∈ deleted ∨ q ∈ ps := by
  induction ps generalizing deleted with
  | nil => simp
  | cons p ps ih =>
    rw [foldl_cons, ih, mem_insert_iff, mem_cons]
    tauto

theorem nodup_foldl_insert {deleted : List ℤ} (h : deleted.Nodup) (ps : List ℤ) :
    (ps.foldl (fun l p => l.insert p) deleted).Nodup := by
  induction ps generalizing deleted with
  | nil => exact h
  | cons p ps ih => exact ih (h.insert)

/-- The set has as many elements as the list if and only if the list has no duplicates. -/
theorem length_foldl_insert_eq_iff (ps : List ℤ) :
    (ps.foldl (fun l p => l.insert p) []).length = ps.length ↔ ps.Nodup := by
  have hperm : (ps.foldl (fun l p => l.insert p) []).Perm ps.dedup := by
    refine (perm_ext_iff_of_nodup (nodup_foldl_insert .nil ps) ps.nodup_dedup).mpr fun q => ?_
    simp [mem_foldl_insert]
  rw [hperm.length_eq, ← dedup_eq_self]
  exact ⟨ps.dedup_sublist.eq_of_length, congrArg length⟩

/-! ## The number of rows -/

section Explored

variable {S : Storage} {task : FileScanTask} {n : ℕ} {positions : DeleteFileRef → List ℤ}
  (h : Applies S task n positions)
include h

theorem explore_eq : explore S task =
      if (task.deletes.flatMap positions).length < 2 ^ 64 then
        .ok (exploreFile S ⟨denormalizeUri task.dataFilePath, n,
          (task.deletes.flatMap positions).length,
          task.deletes.map fun r => { r with path := denormalizeUri r.path }⟩)
      else .error (.thrown "attempt to add with overflow") := by
  have hnone : (task.deletes.find? fun delRef => delRef.fileType = .equalityDeletes) = none := by
    rw [find?_eq_none]
    intro d hd
    simp [h.positional d hd]
  have hcount : numDeletedRows S task = _ :=
    (ite_eq_right_iff.mpr fun hnil => by rw [hnil]; rfl).trans
      (countPositionalDeletes_eq h.positional h.planner 0 (by decide))
  rw [explore, planFile, hnone, hcount, h.recordCount, zero_add]
  split_ifs <;> rfl

/-- The positions that the reader of the explored file has. -/
def readPositions (S : Storage) (task : FileScanTask) (positions : DeleteFileRef → List ℤ) :
    List ℤ :=
  if Recognizes S task.dataFilePath then
    (task.deletes.flatMap positions).foldl (fun l p => l.insert p) []
  else []

theorem loadPositionalDeletes_explored (k : ℕ) :
    let file := exploreFile S ⟨denormalizeUri task.dataFilePath, n, k,
      task.deletes.map fun r => { r with path := denormalizeUri r.path }⟩
    loadPositionalDeletes S file.file.path [] file.deleteMetadata =
      .ok (readPositions S task positions) := by
  have hload := loadPositionalDeletes_eq
    (toMilvusUri S.parseUri (denormalizeUri task.dataFilePath) S.address) h.positional h.reader []
  simp only [exploreFile, map_map]
  exact hload

/-- The reader exposes the rows that it has no position of. -/
theorem exposedRows_explored {f : PhysicalReader Row} (hf : Contiguous f.rowGroupInfos n)
    (hn : n < 2 ^ 63) (k : ℕ) :
    ∃ r, createReader S f (exploreFile S ⟨denormalizeUri task.dataFilePath, n, k,
        task.deletes.map fun r => { r with path := denormalizeUri r.path }⟩) = .ok r ∧
      r.exposedRows + (readPositions S task positions).length = n := by
  have hnodup : (readPositions S task positions).Nodup := by
    rw [readPositions]
    split_ifs
    · exact nodup_foldl_insert .nil _
    · exact .nil
  have hrange : ∀ p ∈ readPositions S task positions, 0 ≤ p ∧ p < n := by
    intro p hp
    rw [readPositions] at hp
    split_ifs at hp
    · have hmem := ((mem_foldl_insert [] _ p).mp hp).resolve_left not_mem_nil
      obtain ⟨d, hd, hpd⟩ := mem_flatMap.mp hmem
      exact h.inRange d hd p hpd
    · simp at hp
  obtain ⟨r, ds, hopen, ho⟩ := openReader_ok hf hn hnodup fun p hp => by
    have := hrange p hp
    omega
  refine ⟨r, ?_, ?_⟩
  · rw [createReader, loadPositionalDeletes_explored h k, Except.ok_bind, hopen]
  · have hall : ds.countP (· < n) = ds.length := by
      rw [countP_eq_length]
      intro d hd
      have := hrange d (ho.perm.mem_iff.mp (mem_int64s.mpr hd))
      simp only [decide_eq_true_eq]
      omega
    have hcount := Live.count_live (ho.sorted.imp fun h => h.ne) n
    have hlast := (ho.logical.contiguous hf).getLast?_endOffset
    rw [IcebergFormatReader.exposedRows, ← ho.perm.length_eq, length_int64s]
    omega

omit h in
theorem length_readPositions_eq_iff :
    (readPositions S task positions).length = (task.deletes.flatMap positions).length ↔
      (task.deletes.flatMap positions).Nodup ∧
        (task.deletes.flatMap positions = [] ∨ Recognizes S task.dataFilePath) := by
  rw [readPositions]
  split_ifs with hrecognizes
  · rw [length_foldl_insert_eq_iff]
    simp [hrecognizes]
  · constructor
    · intro hlen
      have hnil := length_eq_zero_iff.mp hlen.symm
      rw [hnil]
      exact ⟨.nil, .inl rfl⟩
    · rintro ⟨-, hnil⟩
      rw [hnil.resolve_right hrecognizes]

end Explored

/-- **Row counts of Iceberg files.** The end index that is stored for a data file is the number of
rows that the reader exposes if and only if no position is listed twice and the reader recognises
the path of the file in the delete files. -/
theorem endIndex_eq_iff {S : Storage} {task : FileScanTask} {n : ℕ}
    {positions : DeleteFileRef → List ℤ} {f : PhysicalReader Row}
    (hf : Contiguous f.rowGroupInfos n) (hn : n < 2 ^ 63) (h : Applies S task n positions) :
    (∃ file r, explore S task = .ok file ∧ createReader S f file = .ok r ∧
      file.file.endIndex = r.exposedRows) ↔
      (task.deletes.flatMap positions).Nodup ∧
        (task.deletes.flatMap positions = [] ∨ Recognizes S task.dataFilePath) := by
  rw [← length_readPositions_eq_iff]
  obtain ⟨r, hcreate, hrows⟩ := exposedRows_explored h hf hn (task.deletes.flatMap positions).length
  have hend : ∀ k : ℕ, k < 2 ^ 64 → (toSigned 64 (n - k) = r.exposedRows ↔
      (readPositions S task positions).length = k) := by
    intro k hk
    rw [toSigned, Int.bmod]
    omega
  rw [explore_eq h]
  constructor
  · rintro ⟨file, r', hfile, hr', heq⟩
    split_ifs at hfile with hlt
    cases hfile
    cases hcreate.symm.trans hr'
    exact (hend _ hlt).mp heq
  · intro heq
    have hlt : (task.deletes.flatMap positions).length < 2 ^ 64 := by omega
    rw [if_pos hlt]
    exact ⟨_, r, rfl, hcreate, (hend _ hlt).mpr heq⟩

/-- A file with two rows, the first of which is deleted by two delete files. -/
def deletedTwice : FileScanTask where
  dataFilePath := "data.parquet"
  recordCount := some 2
  deletes := [⟨"a.parquet", .positionDeletes⟩, ⟨"b.parquet", .positionDeletes⟩]

/-- A table on the local disk. All paths are relative, and all delete files have this row. -/
def localStorage (rows : List DeleteRow) : Storage where
  parseUri _ := none
  address := ""
  plannerFiles _ := .ok rows
  readerFiles _ := .ok rows

theorem endIndex_eq_localStorage : ∃ file r, explore (localStorage [⟨some "data.parquet", some 0⟩])
        { deletedTwice with deletes := [⟨"a.parquet", .positionDeletes⟩] } = .ok file ∧
      createReader (localStorage [⟨some "data.parquet", some 0⟩]) twoRows file = .ok r ∧
      file.file.endIndex = r.exposedRows := by
  have hf : Contiguous twoRows.rowGroupInfos 2 :=
    ⟨by decide, by simp [twoRows, listReader, Tiling.Chained, RowGroupInfo.numRows], by decide⟩
  have h : Applies (localStorage [⟨some "data.parquet", some 0⟩])
      { deletedTwice with deletes := [⟨"a.parquet", .positionDeletes⟩] } 2 fun _ => [0] :=
    ⟨rfl, by decide, fun _ _ => rfl, fun _ _ => rfl, by decide⟩
  exact (endIndex_eq_iff hf (by decide) h).mpr ⟨by decide, .inr (by decide)⟩

/-- The planner counts the position twice, and hides the row that is left. -/
theorem explore_deletedTwice :
    ∃ file r, explore (localStorage [⟨some "data.parquet", some 0⟩]) deletedTwice = .ok file ∧
      createReader (localStorage [⟨some "data.parquet", some 0⟩]) twoRows file = .ok r ∧
      file.file.endIndex = 0 ∧ r.exposedRows = 1 :=
  ⟨_, ⟨twoRows, [0], [0], [⟨0, 1, 10, true⟩]⟩, rfl, rfl, rfl, rfl⟩

end MilvusStorage.Format.Iceberg
