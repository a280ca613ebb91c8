import MilvusStorage.Common.Status
import Mathlib.Algebra.BigOperators.Group.List.Basic

/-!
# Manifests and the column groups they point to

The data model of a table version: a `Manifest` lists column groups, delta logs, statistics,
indexes and LOB files.

The column groups of a manifest are shared pointers, and which object a pointer leads to matters:
a transaction that puts a caller's column group into a manifest and then appends files to it also
changes what the caller holds. A `Store` gives the current contents of the column groups that
callers hold; a `Slot` of a manifest is null, a group of which the manifest is the only owner, or a
pointer into the store. `copyColumnGroups` is the deep copy the copy constructor of `Manifest`
makes, and `Manifest.groups` is what a reader of the manifest sees.
-/

namespace MilvusStorage

/-- A file of a column group; rows `[startIndex, endIndex)` of it are visible. -/
structure ColumnGroupFile where
  path : String
  startIndex : ℤ
  endIndex : ℤ
  properties : List (String × String) := []
  deriving DecidableEq, Repr

/-- Columns stored together in the same files. -/
structure ColumnGroup where
  columns : List String
  format : String
  files : List ColumnGroupFile
  deriving DecidableEq, Repr

namespace ColumnGroup

/-- The total row count: the sum of `end_index - start_index` over the files. -/
def rows (g : ColumnGroup) : ℤ := (g.files.map fun f => f.endIndex - f.startIndex).sum

/-- Push files to the end of the file list. -/
def pushFiles (g : ColumnGroup) (fs : List ColumnGroupFile) : ColumnGroup :=
  { g with files := g.files ++ fs }

@[simp] theorem pushFiles_files (g : ColumnGroup) (fs : List ColumnGroupFile) :
    (g.pushFiles fs).files = g.files ++ fs := rfl

@[simp] theorem pushFiles_nil (g : ColumnGroup) : g.pushFiles [] = g := by
  simp [pushFiles]

theorem pushFiles_pushFiles (g : ColumnGroup) (fs fs' : List ColumnGroupFile) :
    (g.pushFiles fs).pushFiles fs' = g.pushFiles (fs ++ fs') := by
  simp [pushFiles]

end ColumnGroup

inductive DeltaLogType
  | primaryKey
  | positional
  | equality
  deriving DecidableEq, Repr

structure DeltaLog where
  path : String
  type : DeltaLogType
  numEntries : ℤ
  deriving DecidableEq, Repr

/-- Metadata of an index of a column. -/
structure Index where
  columnName : String
  indexName : String := ""
  indexType : String
  path : String := ""
  fieldId : ℤ := 0
  indexId : ℤ := 0
  buildId : ℤ := 0
  indexVersion : ℤ := 0
  numRows : ℤ := 0
  serializedSize : ℤ := 0
  memSize : ℤ := 0
  currentIndexVersion : ℤ := 0
  currentScalarIndexVersion : ℤ := 0
  indexStorePathVersion : ℤ := 0
  indexFileKeys : List String := []
  properties : List (String × String) := []
  deriving DecidableEq, Repr

/-- File paths and metadata under one statistics key. -/
structure Statistics where
  paths : List String
  metadata : List (String × String) := []
  deriving DecidableEq, Repr

structure LobFileInfo where
  path : String
  fieldId : ℤ
  totalRows : ℤ
  validRows : ℤ
  fileSizeBytes : ℤ
  deriving DecidableEq, Repr

/-! ## Shared column groups -/

/-- The identity of a column group that callers share. -/
abbrev Ref := ℕ

/-- The contents of the shared column groups. -/
abbrev Store := Ref → ColumnGroup

/-- `ColumnGroups`, a vector of shared pointers, as a caller passes it. -/
abbrev ColumnGroups := List (Option Ref)

/-- A column group pointer of a manifest. -/
inductive Slot
  | null
  /-- A group only the manifest points to. -/
  | own (g : ColumnGroup)
  /-- A group that callers point to as well. -/
  | shared (r : Ref)
  deriving DecidableEq, Repr

namespace Slot

/-- What the pointer leads to. -/
def get (σ : Store) : Slot → Option ColumnGroup
  | null => none
  | own g => some g
  | shared r => some (σ r)

/-- Copying a caller's pointer shares the group. -/
def ofPtr : Option Ref → Slot
  | none => null
  | some r => shared r

/-- A pointer to a fresh copy. -/
def ofCopy : Option ColumnGroup → Slot
  | none => null
  | some g => own g

@[simp] theorem get_own (σ : Store) (g : ColumnGroup) : (own g).get σ = some g := rfl

@[simp] theorem get_ofCopy (σ : Store) (g : Option ColumnGroup) : (ofCopy g).get σ = g := by
  cases g <;> rfl

@[simp] theorem get_ofPtr (σ : Store) (p : Option Ref) : (ofPtr p).get σ = p.map σ := by
  cases p <;> rfl

end Slot

/-- The groups a caller's pointers lead to. -/
def ColumnGroups.deref (σ : Store) (cgs : ColumnGroups) : List (Option ColumnGroup) :=
  cgs.map (Option.map σ)

theorem ColumnGroups.deref_append (σ : Store) (cgs cgs' : ColumnGroups) :
    ColumnGroups.deref σ (cgs ++ cgs') = ColumnGroups.deref σ cgs ++ ColumnGroups.deref σ cgs' :=
  List.map_append

/-- `copy_column_groups`: every group is copied, null pointers stay null. -/
def copyColumnGroups (σ : Store) (source : List Slot) : List (Option ColumnGroup) :=
  source.map (Slot.get σ)

@[simp] theorem copyColumnGroups_append (σ : Store) (l1 l2 : List Slot) :
    copyColumnGroups σ (l1 ++ l2) = copyColumnGroups σ l1 ++ copyColumnGroups σ l2 :=
  List.map_append

@[simp] theorem copyColumnGroups_ofCopy (σ : Store) (gs : List (Option ColumnGroup)) :
    copyColumnGroups σ (gs.map Slot.ofCopy) = gs := by
  simp [copyColumnGroups, Function.comp_def]

@[simp] theorem copyColumnGroups_ofPtr (σ : Store) (cgs : ColumnGroups) :
    copyColumnGroups σ (cgs.map Slot.ofPtr) = ColumnGroups.deref σ cgs := by
  simp [copyColumnGroups, ColumnGroups.deref]

/-! ## Manifests -/

structure Manifest where
  version : ℤ := 6
  columnGroups : List Slot := []
  deltaLogs : List DeltaLog := []
  stats : List (String × Statistics) := []
  indexes : List Index := []
  lobFiles : List LobFileInfo := []
  deriving DecidableEq, Repr

namespace Manifest

/-- The column groups a reader of the manifest sees. -/
def groups (σ : Store) (m : Manifest) : List (Option ColumnGroup) :=
  copyColumnGroups σ m.columnGroups

/-- The copy constructor: the copy owns all its groups. -/
def copy (σ : Store) (m : Manifest) : Manifest :=
  { m with columnGroups := (m.groups σ).map Slot.ofCopy }

end Manifest

/-- The column group of `cgs` that holds a column, as `Manifest::getColumnGroup` finds it: the
groups before it are dereferenced on the way. -/
def getColumnGroup (columnName : String) :
    List (Option ColumnGroup) → Except Fault (Option ColumnGroup)
  | [] => .ok none
  | none :: _ => .error .nullDereference
  | some g :: cgs => if columnName ∈ g.columns then .ok (some g) else getColumnGroup columnName cgs

end MilvusStorage
