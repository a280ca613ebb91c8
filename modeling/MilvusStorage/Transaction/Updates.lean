import MilvusStorage.Manifest.Basic
import Mathlib.Data.Finset.Dedup
import Mathlib.Data.Finset.Card

/-!
# Applying updates to a manifest

`Updates` records what a transaction changes and `applyUpdates` computes the manifest it would
write. The function works in two halves.

* `prepare` copies the base manifest, drops columns, validates the added and the appended column
  groups against what is left, and resolves the indexes. It only reads the store, and every error
  status is returned here.
* `install` appends the files and adds the groups. It works on the pointers the caller handed over:
  while no group is left, the first list of appended groups becomes the manifest's own list without
  a copy, so a later append writes into the caller's groups.
-/

namespace MilvusStorage

/-- `std::map::operator[]` followed by an assignment: entries are kept in key order. -/
def mapAssign {β : Type*} (key : String) (value : β) : List (String × β) → List (String × β)
  | [] => [(key, value)]
  | (k, v) :: entries =>
    if key = k then (key, value) :: entries
    else if key < k then (key, value) :: (k, v) :: entries
    else (k, v) :: mapAssign key value entries

/-- The changes a transaction records. -/
structure Updates where
  droppedColumns : List String := []
  addedColumnGroups : ColumnGroups := []
  appendedFiles : List ColumnGroups := []
  addedDeltaLogs : List DeltaLog := []
  addedStats : List (String × Statistics) := []
  addedIndexes : List Index := []
  droppedIndexes : List ℤ := []
  addedLobFiles : List LobFileInfo := []
  deriving DecidableEq, Repr

def Updates.hasChanges (u : Updates) : Bool :=
  !u.droppedColumns.isEmpty || !u.addedColumnGroups.isEmpty || !u.appendedFiles.isEmpty ||
    !u.addedDeltaLogs.isEmpty || !u.addedStats.isEmpty || !u.addedIndexes.isEmpty ||
    !u.droppedIndexes.isEmpty || !u.addedLobFiles.isEmpty

/-! ## Dropping columns -/

/-- Drop one column: its name goes from every group, groups left without columns go, and so do the
indexes of the column. -/
def dropColumn (colName : String) (cgs : List (Option ColumnGroup)) (indexes : List Index) :
    Except Fault (List (Option ColumnGroup) × List Index) :=
  if none ∈ cgs then
    .error (.status (.invalid "Unexpected null column group in manifest"))
  else
    let erased := cgs.map (Option.map fun g =>
      { g with columns := g.columns.filter (· ≠ colName) })
    .ok (erased.filter fun cg => cg.any fun g => g.columns ≠ [],
      indexes.filter fun idx => idx.columnName ≠ colName)

/-- Drop the columns of a list, one after the other. -/
def dropColumns : List String → List (Option ColumnGroup) → List Index →
    Except Fault (List (Option ColumnGroup) × List Index)
  | [], cgs, indexes => .ok (cgs, indexes)
  | colName :: colNames, cgs, indexes => do
    let (cgs, indexes) ← dropColumn colName cgs indexes
    dropColumns colNames cgs indexes

/-! ## Validating added and appended groups -/

/-- The row count as the code adds it up, in a `size_t`. -/
def ColumnGroup.sizeRows (g : ColumnGroup) : ℤ := g.rows % 2 ^ 64

/-- No column of an added group may be in an existing group. -/
def checkNewColumns (cgs : List (Option ColumnGroup)) : List String → Except Fault Unit
  | [] => .ok ()
  | columnName :: columnNames => do
    match ← getColumnGroup columnName cgs with
    | some _ =>
      .error (.status (.invalid s!"Column '{columnName}' already exists in existing column groups"))
    | none => checkNewColumns cgs columnNames

/-- An added group must have as many rows as column group 0, if there is one. -/
def checkNewRows (cgs : List (Option ColumnGroup)) (newCg : ColumnGroup) : Except Fault Unit :=
  match cgs with
  | [] => .ok ()
  | none :: _ => .error .nullDereference
  | some g :: _ =>
    if g.sizeRows = newCg.sizeRows then .ok ()
    else
      .error (.status (.invalid ("Column group size mismatch: existing(column group 0) has " ++
        toString g.sizeRows ++ " rows, but appended column group has " ++
        toString newCg.sizeRows ++ " rows")))

def validateAdded (cgs : List (Option ColumnGroup)) : List (Option ColumnGroup) → Except Fault Unit
  | [] => .ok ()
  | none :: _ => .error (.status (.invalid "Cannot add null column group"))
  | some newCg :: added => do
    checkNewColumns cgs newCg.columns
    checkNewRows cgs newCg
    validateAdded cgs added

/-- An appended group must have the columns, in any order, and the format of the group at its
index. -/
def checkAppendedGroup (i : ℕ) (cg newCg : Option ColumnGroup) : Except Fault Unit :=
  match cg, newCg with
  | some g, some g' =>
    if g.columns.length ≠ g'.columns.length then
      .error (.status (.invalid (s!"Column count mismatch at index {i}: existing has " ++
        toString g.columns.length ++ " columns, but appended has " ++
        toString g'.columns.length ++ " columns")))
    else if g.format ≠ g'.format then
      .error (.status (.invalid (s!"Format mismatch at index {i}: existing format is '" ++
        g.format ++ "', but appended format is '" ++ g'.format ++ "'")))
    else if g.columns.toFinset ≠ g'.columns.toFinset then
      .error (.status (.invalid s!"Column mismatch at index {i}: columns do not match"))
    else .ok ()
  | _, _ => .error (.status (.invalid s!"Null column group at index {i}"))

def checkAppendedGroups (i : ℕ) :
    List (Option ColumnGroup) → List (Option ColumnGroup) → Except Fault Unit
  | cg :: cgs, newCg :: newCgs => do
    checkAppendedGroup i cg newCg
    checkAppendedGroups (i + 1) cgs newCgs
  | _, _ => .ok ()

def validateAppended (cgs : List (Option ColumnGroup)) :
    List (List (Option ColumnGroup)) → Except Fault Unit
  | [] => .ok ()
  | newCgs :: appended =>
    if cgs ≠ [] ∧ cgs.length ≠ newCgs.length then
      .error (.status (.invalid ("Column group size mismatch: existing has " ++
        toString cgs.length ++ " groups, but appended has " ++ toString newCgs.length ++
        " groups")))
    else do
      checkAppendedGroups 0 cgs newCgs
      validateAppended cgs appended

/-! ## Indexes -/

/-- The columns that get a file from `AppendFiles`. -/
def affectedColumns (appended : List (List (Option ColumnGroup))) : List String :=
  appended.flatten.flatMap fun cg =>
    match cg with
    | some g => if g.files = [] then [] else g.columns
    | none => []

/-- Whether adding `newIdx` replaces `idx`: an index with an id replaces the one with that id, an
index without one the entry without one for its column and type. -/
def replacesIndex (newIdx idx : Index) : Bool :=
  if newIdx.indexId ≠ 0 then idx.indexId = newIdx.indexId
  else idx.indexId = 0 ∧ idx.columnName = newIdx.columnName ∧ idx.indexType = newIdx.indexType

def addIndex (indexes : List Index) (newIdx : Index) : List Index :=
  (indexes.filter fun idx => !replacesIndex newIdx idx) ++ [newIdx]

def resolveIndexes (affected : List String) (u : Updates) (indexes : List Index) : List Index :=
  let kept := indexes.filter fun idx => idx.columnName ∉ affected
  let kept := u.droppedIndexes.foldl
    (fun kept dropped => kept.filter fun idx => idx.indexId ≠ dropped) kept
  u.addedIndexes.foldl addIndex kept

/-! ## The first half: copy, drop, validate -/

/-- The manifest after everything but the append and the add of column groups, whose groups are
still the private copies `columnGroups`. -/
structure Prepared where
  columnGroups : List (Option ColumnGroup)
  rest : Manifest
  deriving DecidableEq, Repr

def prepare (σ : Store) (m : Manifest) (u : Updates) : Except Fault Prepared := do
  let (cgs, indexes) ← dropColumns u.droppedColumns (copyColumnGroups σ m.columnGroups) m.indexes
  validateAdded cgs (ColumnGroups.deref σ u.addedColumnGroups)
  validateAppended cgs (u.appendedFiles.map (ColumnGroups.deref σ))
  let affected := affectedColumns (u.appendedFiles.map (ColumnGroups.deref σ))
  return {
    columnGroups := cgs
    rest := {
      version := m.version
      deltaLogs := m.deltaLogs ++ u.addedDeltaLogs
      stats := u.addedStats.foldl (fun stats kv => mapAssign kv.1 kv.2 stats) m.stats
      indexes := resolveIndexes affected u indexes
      lobFiles := m.lobFiles ++ u.addedLobFiles } }

/-! ## The second half: append and add -/

/-- `cgs[i]->files.push_back(file)` for every file of `new_cgs[i]`. When both pointers lead to the
same group the loop appends to the vector it runs over. -/
def appendGroup (σ : Store) (cg : Slot) (newCg : Option Ref) : Except Fault (Store × Slot) :=
  match cg, newCg with
  | .own g, some r => .ok (σ, .own (g.pushFiles (σ r).files))
  | .shared q, some r =>
    if q = r then
      if (σ r).files = [] then .ok (σ, .shared q) else .error .iteratorInvalidated
    else .ok (Function.update σ q ((σ q).pushFiles (σ r).files), .shared q)
  | cg, _ => .ok (σ, cg)

/-- Append the groups of one list, as far as both lists go. -/
def appendGroups (σ : Store) : List Slot → ColumnGroups → Except Fault (Store × List Slot)
  | cg :: cgs, newCg :: newCgs => do
    let (σ, cg) ← appendGroup σ cg newCg
    let (σ, cgs) ← appendGroups σ cgs newCgs
    return (σ, cg :: cgs)
  | cgs, _ => .ok (σ, cgs)

/-- Append the lists one after the other; while there is no group yet, a list is adopted as it
is. -/
def appendAll (σ : Store) (cgs : List Slot) : List ColumnGroups → Except Fault (Store × List Slot)
  | [] => .ok (σ, cgs)
  | newCgs :: appended =>
    if cgs = [] then appendAll σ (newCgs.map Slot.ofPtr) appended
    else do
      let (σ, cgs) ← appendGroups σ cgs newCgs
      appendAll σ cgs appended

def install (σ : Store) (p : Prepared) (u : Updates) : Except Fault (Store × Manifest) := do
  let (σ, cgs) ← appendAll σ (p.columnGroups.map Slot.ofCopy) u.appendedFiles
  return (σ, { p.rest with columnGroups := cgs ++ u.addedColumnGroups.map Slot.ofPtr })

/-- `applyUpdates`: the manifest that results from the updates, and the store after the call. -/
def applyUpdates (σ : Store) (m : Manifest) (u : Updates) : Except Fault (Store × Manifest) := do
  let p ← prepare σ m u
  install σ p u

end MilvusStorage
