import Mathlib.Data.List.Dedup
import Mathlib.Data.List.GetD
import Mathlib.Data.List.Sort
import Mathlib.Data.String.Basic
import MilvusStorage.Common.Stream
import MilvusStorage.Foundations.Except
import MilvusStorage.Foundations.Positions
import MilvusStorage.Packed.ChunkManager

/-!
# Opening the packed reader

`PackedRecordBatchReader::Make` of the packed format. The first file of the caller's paths names the
fields of all files. The requested fields determine which paths are needed; these are opened in the
order of a `std::set`, while columns and tables keep the indices of the caller's paths.
`file_reader_to_path_index_` goes from the one to the other.

A file is what its metadata says of the row groups and what `ReadRowGroups` returns: the rows of the
row groups asked for, in chunks of any size.
-/

namespace MilvusStorage.Packed

open List

variable {V : Type}

/-! ## Files -/

/-- A row group with its metadata; `row_num` is the number of its rows. -/
structure RowGroup (V : Type) where
  content : RecordBatch V
  memorySize : ℕ

/-- The rows of the row groups at some indices. -/
def selected (rowGroups : List (RowGroup V)) (rgs : List ℕ) : List (RecordBatch V) :=
  rgs.filterMap fun rg => rowGroups[rg]?.map RowGroup.content

structure PackedFile (V : Type) where
  /-- The field ids of the columns of all files, by path. -/
  groupFieldIds : List (List ℤ)
  numColumns : ℕ
  rowGroups : List (RowGroup V)
  width : ∀ g ∈ rowGroups, g.content.columns.length = numColumns
  /-- `ReadRowGroups` -/
  readRowGroups : List ℕ → Table V
  length_columns_readRowGroups : ∀ rgs, (readRowGroups rgs).columns.length = numColumns
  numRows_readRowGroups : ∀ rgs, (readRowGroups rgs).numRows = rows (selected rowGroups rgs)
  flatten_chunks_readRowGroups : ∀ rgs j,
    ((readRowGroups rgs).chunks j).flatten = cells (selected rowGroups rgs) j

namespace PackedFile

/-- All rows of the file. -/
def content (f : PackedFile V) : List (RecordBatch V) := f.rowGroups.map RowGroup.content

/-- Every row group has rows, the memory sizes are those of `int64_t`, and no column of a table ends
in an empty chunk. -/
structure Regular (f : PackedFile V) : Prop where
  numRows_pos : ∀ g ∈ f.rowGroups, 0 < g.content.numRows
  memorySize_lt : ∀ g ∈ f.rowGroups, g.memorySize < 2 ^ 63
  getLast?_ne : ∀ rgs j, ((f.readRowGroups rgs).chunks j).getLast? ≠ some []

end PackedFile

/-- What opening the file at a path returns. -/
abbrev FileSystem (V : Type) := String → Except Status (PackedFile V)

/-- The place of a field; a later entry replaces an earlier one. -/
def getFieldIDMapping (groupFieldIds : List (List ℤ)) (fieldId : ℤ) : Option ColumnOffset :=
  (Positions.find groupFieldIds fieldId).map fun (pathIndex, colIndex) => ⟨pathIndex, colIndex⟩

/-! ## `Make` -/

/-- `PackedRecordBatchReader`, as `init` leaves it; these fields do not change any more. -/
structure PackedReader (V : Type) where
  fieldIdList : List ℤ
  fieldIdMapping : ℤ → Option ColumnOffset
  neededColumnOffsets : List ColumnOffset
  neededPaths : List String
  /-- `file_readers_` and `metadata_list_` -/
  fileReaders : List (PackedFile V)
  fileReaderToPathIndex : List ℕ
  memoryLimit : ℕ

def makeArrowFileReader (fs : FileSystem V) (path : String) : Except Status (PackedFile V) :=
  match fs path with
  | .ok f => .ok f
  | .error s =>
    .error (.wrapExtendError ExtendStatusCode.packedStorageIO
      s!"Error making file reader with path {path}" s)

/-- The loop of `schemaMatching` over the requested fields: the places of those that exist. -/
def schemaMatching (fieldIdMapping : ℤ → Option ColumnOffset) (numPaths : ℕ) :
    List ℤ → Except Status (List ColumnOffset)
  | [] => .ok []
  | fieldId :: fieldIds =>
    match fieldIdMapping fieldId with
    | none => schemaMatching fieldIdMapping numPaths fieldIds
    | some columnOffset =>
      let pathIndex := columnOffset.pathIndex
      if numPaths ≤ pathIndex then
        .error (.makeExtendError .packedMetadataCorrupted
          ("Packed field id metadata references path index outside provided paths. " ++
            s!"[field_id={fieldId}, path_index={pathIndex}, num_paths={numPaths}]"))
      else do
        let columnOffsets ← schemaMatching fieldIdMapping numPaths fieldIds
        return columnOffset :: columnOffsets

/-- The needed paths, each once and in order. -/
def neededPathSet (paths : List String) (columnOffsets : List ColumnOffset) : List String :=
  (columnOffsets.map fun o => paths.getD o.pathIndex "").dedup.insertionSort (· ≤ ·)

/-- `PackedRecordBatchReader::Make`; the schema is given by its field ids. -/
def make (fs : Option (FileSystem V)) (paths : List String) (schema : Option (List ℤ))
    (bufferSize : ℤ) : Except Status (PackedReader V) :=
  match fs with
  | none =>
    .error (.makeExtendError .packedInvalidArgs "Packed reader null file system provided")
  | some fs =>
    match paths with
    | [] => .error (.makeExtendError .packedInvalidArgs "Packed reader empty paths provided")
    | path :: _ =>
      match schema with
      | none => .error (.makeExtendError .packedInvalidArgs "Packed reader null schema provided")
      | some fieldIdList => do
        let first ← makeArrowFileReader fs path
        let fieldIdMapping := getFieldIDMapping first.groupFieldIds
        let neededColumnOffsets ← schemaMatching fieldIdMapping paths.length fieldIdList
        let neededPaths := neededPathSet paths neededColumnOffsets
        let fileReaders ← neededPaths.mapM (makeArrowFileReader fs)
        return {
          fieldIdList, fieldIdMapping, neededColumnOffsets, neededPaths, fileReaders
          fileReaderToPathIndex := neededPaths.map fun path => paths.idxOf path
          memoryLimit := if bufferSize ≤ 0 then 2 ^ 63 - 1 else bufferSize.toNat }

/-! ## What `Make` establishes -/

namespace PackedReader

variable (R : PackedReader V)

def size : ℕ := R.fileReaders.length

/-- The path of a file reader. -/
def pathIndex (i : ℕ) : ℕ := R.fileReaderToPathIndex.getD i 0

/-- How the fields of the reader were computed. -/
structure Opened (fs : FileSystem V) (paths : List String) : Prop where
  neededColumnOffsets_eq : R.neededColumnOffsets = R.fieldIdList.filterMap R.fieldIdMapping
  pathIndex_lt : ∀ o ∈ R.neededColumnOffsets, o.pathIndex < paths.length
  neededPaths_eq : R.neededPaths = neededPathSet paths R.neededColumnOffsets
  fileReaders : Forall₂ (fun path f => fs path = .ok f) R.neededPaths R.fileReaders
  fileReaderToPathIndex_eq :
    R.fileReaderToPathIndex = R.neededPaths.map fun path => paths.idxOf path

/-- What the rest of the reader relies on. -/
structure Valid : Prop where
  pathIndex_injective : ∀ i < R.size, ∀ j < R.size, R.pathIndex i = R.pathIndex j → i = j
  exists_pathIndex : ∀ o ∈ R.neededColumnOffsets, ∃ i < R.size, R.pathIndex i = o.pathIndex
  neededColumnOffsets_eq : R.neededColumnOffsets = R.fieldIdList.filterMap R.fieldIdMapping

end PackedReader

theorem schemaMatching_eq {fieldIdMapping : ℤ → Option ColumnOffset} {numPaths : ℕ}
    {fieldIds : List ℤ} {columnOffsets : List ColumnOffset}
    (h : schemaMatching fieldIdMapping numPaths fieldIds = .ok columnOffsets) :
    columnOffsets = fieldIds.filterMap fieldIdMapping ∧
      ∀ o ∈ columnOffsets, o.pathIndex < numPaths := by
  induction fieldIds generalizing columnOffsets with
  | nil =>
    cases h
    exact ⟨rfl, forall_mem_nil _⟩
  | cons fieldId fieldIds ih =>
    rw [schemaMatching] at h
    cases hmap : fieldIdMapping fieldId with
    | none =>
      rw [hmap] at h
      rw [filterMap_cons_none hmap]
      exact ih h
    | some o =>
      rw [hmap] at h
      dsimp only at h
      split_ifs at h with hlt
      obtain ⟨os, hos, rfl⟩ := Except.bind_pure_eq_ok.mp h
      obtain ⟨rfl, hall⟩ := ih hos
      rw [filterMap_cons_some hmap]
      exact ⟨rfl, forall_mem_cons.mpr ⟨not_le.mp hlt, hall⟩⟩

variable {path : String} {fs : FileSystem V} {f : PackedFile V}

theorem makeArrowFileReader_eq_ok : makeArrowFileReader fs path = .ok f ↔ fs path = .ok f := by
  unfold makeArrowFileReader
  split <;> simp_all

section NeededPaths

variable {paths : List String} {columnOffsets : List ColumnOffset}

theorem mem_neededPathSet : path ∈ neededPathSet paths columnOffsets ↔
      ∃ o ∈ columnOffsets, paths.getD o.pathIndex "" = path := by
  rw [neededPathSet, mem_insertionSort, mem_dedup, mem_map]

theorem nodup_neededPathSet : (neededPathSet paths columnOffsets).Nodup :=
  (perm_insertionSort ..).nodup_iff.mpr (nodup_dedup _)

theorem neededPathSet_subset (hlt : ∀ o ∈ columnOffsets, o.pathIndex < paths.length) :
    ∀ path ∈ neededPathSet paths columnOffsets, path ∈ paths := by
  intro path hpath
  obtain ⟨o, ho, rfl⟩ := mem_neededPathSet.mp hpath
  rw [getD_eq_getElem _ _ (hlt o ho)]
  exact getElem_mem _

end NeededPaths

theorem make_opened {paths : List String} {schema : List ℤ} {bufferSize : ℤ} {R : PackedReader V}
    (h : make (some fs) (path :: paths) (some schema) bufferSize = .ok R) :
    R.Opened fs (path :: paths) ∧ R.fieldIdList = schema ∧ ∃ first, fs path = .ok first ∧
      R.fieldIdMapping = getFieldIDMapping first.groupFieldIds := by
  obtain ⟨first, hfirst, h⟩ := Except.bind_eq_ok.mp h
  obtain ⟨offsets, hoffs, h⟩ := Except.bind_eq_ok.mp h
  obtain ⟨files, hfiles, rfl⟩ := Except.bind_pure_eq_ok.mp h
  obtain ⟨hoffsets_eq, hlt⟩ := schemaMatching_eq hoffs
  refine ⟨⟨hoffsets_eq, hlt, rfl, ?_, rfl⟩, rfl, first, makeArrowFileReader_eq_ok.mp hfirst, rfl⟩
  exact (Except.forall₂_of_mapM_ok hfiles).imp fun path f hf => makeArrowFileReader_eq_ok.mp hf

namespace PackedReader.Opened

variable {R : PackedReader V} {fs : FileSystem V} {paths : List String} (h : R.Opened fs paths)

include h

variable {i : ℕ}

/-- The path of a file reader is the first of the caller's paths that is equal to its own. -/
theorem pathIndex_eq (hi : R.neededPaths[i]? = some path) : R.pathIndex i = paths.idxOf path := by
  simp [pathIndex, h.fileReaderToPathIndex_eq, hi]

theorem mem_paths (hi : R.neededPaths[i]? = some path) : path ∈ paths := by
  apply neededPathSet_subset h.pathIndex_lt
  rw [← h.neededPaths_eq]
  exact mem_of_getElem? hi

theorem getElem?_neededPaths (hi : i < R.size) : ∃ path, R.neededPaths[i]? = some path :=
  ⟨_, getElem?_eq_getElem (h.fileReaders.length_eq ▸ hi)⟩

/-- The file of a file reader is the one at its path. -/
theorem exists_path (hf : R.fileReaders[i]? = some f) :
    ∃ path, paths[R.pathIndex i]? = some path ∧ fs path = .ok f := by
  obtain ⟨path, hpath, hopen⟩ := h.fileReaders.exists_getElem? hf
  refine ⟨path, ?_, hopen⟩
  simp [h.pathIndex_eq hpath, getElem?_idxOf (h.mem_paths hpath)]

theorem valid (hpaths : paths.Nodup) : R.Valid := by
  refine ⟨fun i hi j hj hij => ?_, fun o ho => ?_, h.neededColumnOffsets_eq⟩
  · obtain ⟨p, hp⟩ := h.getElem?_neededPaths hi
    obtain ⟨q, hq⟩ := h.getElem?_neededPaths hj
    rw [h.pathIndex_eq hp, h.pathIndex_eq hq, idxOf_inj (h.mem_paths hp)] at hij
    have hnodup : R.neededPaths.Nodup := h.neededPaths_eq ▸ nodup_neededPathSet
    exact (getElem?_inj (lt_of_getElem? hp) hnodup).mp (by rw [hp, hq, hij])
  · have hlt := h.pathIndex_lt o ho
    have hmem : paths.getD o.pathIndex "" ∈ R.neededPaths := by
      rw [h.neededPaths_eq]
      exact mem_neededPathSet.mpr ⟨o, ho, rfl⟩
    obtain ⟨i, hi, hpath⟩ := getElem_of_mem hmem
    have hsize : i < R.size := lt_of_lt_of_eq hi h.fileReaders.length_eq
    refine ⟨i, hsize, ?_⟩
    rw [h.pathIndex_eq (List.getElem?_eq_some_iff.mpr ⟨hi, hpath⟩), getD_eq_getElem _ _ hlt]
    exact hpaths.idxOf_getElem o.pathIndex hlt

end PackedReader.Opened

end MilvusStorage.Packed
