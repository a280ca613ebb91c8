import MilvusStorage.Vortex.RowGroups
import Mathlib.Data.List.Nodup
import Mathlib.Data.List.Sort

/-!
# Cells

A cell is what the cache loads and evicts at a time: the segments of a physical unit of a field, or
of the same unit of all fields of a column group. The units come from the footer, in any order.
`ValidateCellMetas` sorts the cells by their rows and numbers them, `ValidateCellMetasReady` checks
cells that have been numbered.

* `Built.valid`, `Built.uniform`, `Built.located`: what cells that are built are like.
-/

namespace MilvusStorage.Vortex

open Except List Tiling

structure ByteRange where
  offset : ℕ := 0
  length : ℕ := 0
  deriving DecidableEq, Repr

inductive VortexPhysicalGranularity
  | unknown
  | flat
  | rowGroup
  deriving DecidableEq, Repr

structure VortexFlatSegmentRange where
  flatSegmentId : ℕ
  byteRange : ByteRange
  deriving DecidableEq, Repr

/-- A `VortexFlatUnit` or a `VortexRowGroupUnit`. They differ in the name of the index. -/
structure VortexUnit where
  physicalUnitIndex : ℕ
  rowOffset : ℕ
  rowCount : ℕ
  flatSegments : List VortexFlatSegmentRange
  deriving DecidableEq, Repr

structure VortexFieldLayout where
  granularity : VortexPhysicalGranularity
  flats : List VortexUnit := []
  rowGroups : List VortexUnit := []
  deriving DecidableEq, Repr

structure VortexCellMeta where
  cellId : ℕ := 0
  granularity : VortexPhysicalGranularity
  physicalUnitIndex : ℕ
  rowOffset : ℕ
  rowCount : ℕ
  flatSegmentIds : List ℕ := []
  flatSegmentRanges : List ByteRange := []
  memoryBytes : ℕ := 0
  storageBytes : ℕ := 0
  deriving DecidableEq, Repr

/-- What the planner asks of a `VortexFooterReader` that has been opened. -/
structure VortexFooterReader where
  path : String
  rows : ℕ
  getFieldLayout : String → Except Fault VortexFieldLayout
  pruneRowGroups : String → List ℕ → Except Fault (List ℕ)

def invalid {α : Type} (message : String) : Except Fault α :=
  .error (.status (.invalid message))

/-- The end of a row range, as a `uint64_t`. -/
def rowEnd (rowOffset rowCount : ℕ) : ℕ := (rowOffset + rowCount) % 2 ^ 64

/-! ## Byte sizes -/

/-- Add sizes, unless the sum overflows. -/
def addOrFail (e : Fault) (total value : ℕ) : Except Fault ℕ :=
  if u64Max - value < total then .error e else .ok (total + value)

def checkedAdd (key : String) : ℕ → ℕ → Except Fault ℕ :=
  addOrFail (.status (.invalid s!"Vortex field {key} byte size overflows"))

def checkedSum (key : String) (sizes : List ℕ) : Except Fault ℕ := sizes.foldlM (checkedAdd key) 0

def sumFlatSegmentBytes (key : String) (ranges : List VortexFlatSegmentRange) : Except Fault ℕ :=
  checkedSum key (ranges.map (·.byteRange.length))

def sumByteRanges (key : String) (ranges : List ByteRange) : Except Fault ℕ :=
  checkedSum key (ranges.map (·.length))

def sumCellBytes (key : String) (metas : List VortexCellMeta) : Except Fault ℕ :=
  checkedSum key (metas.map fun m => max m.memoryBytes m.storageBytes)

/-! ## Validation -/

def checkSegmentIds (key : String) (seen : List ℕ) (id : ℕ) : Except Fault (List ℕ) :=
  if id ∈ seen then invalid s!"Vortex field {key} flat segment {id} is shared by multiple cells"
  else .ok (id :: seen)

/-- The checks of the segments of a cell, given those of the cells before it. -/
def checkSegments (key : String) (totalRows : ℕ) (seen : List ℕ) (m : VortexCellMeta) :
    Except Fault (List ℕ) :=
  let index := m.physicalUnitIndex
  let ids := m.flatSegmentIds.length
  let ranges := m.flatSegmentRanges.length
  if ids ≠ ranges then
    invalid (s!"Vortex field {key} physical unit {index} has mismatched flat segment ids and " ++
      s!"byte ranges, ids={ids}, ranges={ranges}")
  else if m.flatSegmentIds.isEmpty && !(totalRows == 0 && m.rowCount == 0) then
    invalid s!"Vortex field {key} physical unit {index} has no flat segments"
  else m.flatSegmentIds.foldlM (checkSegmentIds key) seen

/-- The checks of the rows of the `i`th cell, which are to start at `nextRowOffset`: where those of
the next cell are to start. -/
def checkRows (key : String) (totalRows i nextRowOffset : ℕ) (m : VortexCellMeta) :
    Except Fault ℕ :=
  let rowOffset := m.rowOffset
  let rowCount := m.rowCount
  if rowCount = 0 ∧ totalRows ≠ 0 then invalid s!"Vortex field {key} cell {i} has zero rows"
  else if rowOffset ≠ nextRowOffset then
    invalid (s!"Vortex field {key} cell rows are not contiguous at cell {i}, " ++
      s!"got row_offset={rowOffset}, expected={nextRowOffset}")
  else if u64Max - nextRowOffset < rowCount then
    invalid (s!"Vortex field {key} cell {i} row range overflows, row_offset={rowOffset}, " ++
      s!"row_count={rowCount}")
  else .ok (nextRowOffset + rowCount)

def checkCovered (key : String) (totalRows nextRowOffset : ℕ) : Except Fault Unit :=
  if nextRowOffset ≠ totalRows then
    invalid s!"Vortex field {key} cells cover {nextRowOffset} rows, expected {totalRows}"
  else .ok ()

/-- The second loop of `ValidateCellMetas`. -/
def numberCells (key : String) (totalRows : ℕ) : ℕ → ℕ → List VortexCellMeta →
    Except Fault (List VortexCellMeta)
  | _, nextRowOffset, [] => do
    checkCovered key totalRows nextRowOffset
    return []
  | i, nextRowOffset, m :: metas => do
    let nextRowOffset ← checkRows key totalRows i nextRowOffset m
    let metas ← numberCells key totalRows (i + 1) nextRowOffset metas
    return { m with cellId := i } :: metas

/-- `std::sort` by row offset is a parameter: it does not say in which order cells with the same
offset come. -/
def validateCellMetas (sort : List VortexCellMeta → List VortexCellMeta)
    (metas : List VortexCellMeta) (totalRows : ℕ) (key : String) :
    Except Fault (List VortexCellMeta) :=
  if metas.isEmpty then
    if totalRows = 0 then .ok [] else invalid s!"Vortex field {key} has no cells"
  else do
    let _ ← metas.foldlM (checkSegments key totalRows) []
    numberCells key totalRows 0 0 (sort metas)

/-- The loop of `ValidateCellMetasReady`. -/
def checkReady (key : String) (totalRows : ℕ) : ℕ → ℕ → List ℕ → List VortexCellMeta →
    Except Fault Unit
  | _, nextRowOffset, _, [] => checkCovered key totalRows nextRowOffset
  | i, nextRowOffset, seen, m :: metas =>
    let id := m.cellId
    if id ≠ i then invalid s!"Vortex field {key} cell {i} has mismatched cell id {id}"
    else do
      let nextRowOffset ← checkRows key totalRows i nextRowOffset m
      let seen ← checkSegments key totalRows seen m
      checkReady key totalRows (i + 1) nextRowOffset seen metas

def validateCellMetasReady (metas : List VortexCellMeta) (totalRows : ℕ) (key : String) :
    Except Fault Unit :=
  if metas.isEmpty then
    if totalRows = 0 then .ok () else invalid s!"Vortex field {key} has no cells"
  else checkReady key totalRows 0 0 [] metas

/-! ## The cells of a field -/

/-- The cell of a unit of one field. -/
def unitCell (key : String) (granularity : VortexPhysicalGranularity) (u : VortexUnit) :
    Except Fault VortexCellMeta := do
  let storageBytes ← sumFlatSegmentBytes key u.flatSegments
  return {
    granularity
    physicalUnitIndex := u.physicalUnitIndex
    rowOffset := u.rowOffset
    rowCount := u.rowCount
    flatSegmentIds := u.flatSegments.map (·.flatSegmentId)
    flatSegmentRanges := u.flatSegments.map (·.byteRange)
    memoryBytes := storageBytes
    storageBytes }

section Build

variable (sort : List VortexCellMeta → List VortexCellMeta)

def buildCellMetas (granularity : VortexPhysicalGranularity) (units : List VortexUnit)
    (totalRows : ℕ) (key : String) : Except Fault (List VortexCellMeta) := do
  let metas ← units.mapM (unitCell key granularity)
  validateCellMetas sort metas totalRows key

def buildCellMetasFromFlats : List VortexUnit → ℕ → String → Except Fault (List VortexCellMeta) :=
  buildCellMetas sort .flat

def buildCellMetasFromRowGroups :
    List VortexUnit → ℕ → String → Except Fault (List VortexCellMeta) :=
  buildCellMetas sort .rowGroup

def buildVortexCellMetas (footerReader : VortexFooterReader) (fieldName : String) :
    Except Fault (List VortexCellMeta) := do
  let path := footerReader.path
  let key := s!"{path}:{fieldName}"
  let layout ← footerReader.getFieldLayout fieldName
  match layout.granularity with
  | .flat => buildCellMetasFromFlats sort layout.flats footerReader.rows key
  | .rowGroup => buildCellMetasFromRowGroups sort layout.rowGroups footerReader.rows key
  | .unknown => invalid s!"Unsupported vortex field granularity for {key}"

end Build

/-- A way to sort cells. -/
def sortByRowOffset (metas : List VortexCellMeta) : List VortexCellMeta :=
  metas.insertionSort fun m m' => m.rowOffset ≤ m'.rowOffset

/-! ## The cells of a column group -/

def VortexCellMeta.appendSegment (m : VortexCellMeta) (s : VortexFlatSegmentRange) :
    VortexCellMeta :=
  { m with
    flatSegmentIds := m.flatSegmentIds ++ [s.flatSegmentId]
    flatSegmentRanges := m.flatSegmentRanges ++ [s.byteRange] }

/-- A cell that is being merged, and the segments it has. -/
structure GroupCell where
  cell : VortexCellMeta
  seenFlatSegments : List ℕ := []

namespace GroupCell

def appendUniqueFlatSegment (g : GroupCell) (s : VortexFlatSegmentRange) : GroupCell :=
  if s.flatSegmentId ∈ g.seenFlatSegments then g
  else {
    cell := g.cell.appendSegment s
    seenFlatSegments := s.flatSegmentId :: g.seenFlatSegments }

def appendUniqueFlatSegments (g : GroupCell) (flatSegments : List VortexFlatSegmentRange) :
    GroupCell :=
  flatSegments.foldl appendUniqueFlatSegment g

def initMeta (granularity : VortexPhysicalGranularity) (u : VortexUnit) : VortexCellMeta where
  granularity
  physicalUnitIndex := u.physicalUnitIndex
  rowOffset := u.rowOffset
  rowCount := u.rowCount

/-- The cell of a unit of the first field. -/
def init (granularity : VortexPhysicalGranularity) (u : VortexUnit) : GroupCell :=
  appendUniqueFlatSegments { cell := initMeta granularity u } u.flatSegments

/-- The body of `merge_units`. -/
def merge (key fieldName : String) (granularity : VortexPhysicalGranularity)
    (p : (VortexUnit × GroupCell) × ℕ) : Except Fault GroupCell :=
  let u := p.1.1
  let m := p.1.2.cell
  let i := p.2
  let unitStart := u.rowOffset
  let unitEnd := rowEnd u.rowOffset u.rowCount
  let groupStart := m.rowOffset
  let groupEnd := rowEnd m.rowOffset m.rowCount
  let unitIndex := u.physicalUnitIndex
  let groupIndex := m.physicalUnitIndex
  if u.rowOffset ≠ m.rowOffset ∨ u.rowCount ≠ m.rowCount then
    invalid (s!"Vortex group {key} field {fieldName} unit {i} row range " ++
      s!"[{unitStart}, {unitEnd}) does not match group [{groupStart}, {groupEnd})")
  else if granularity = .rowGroup ∧ unitIndex ≠ groupIndex then
    invalid (s!"Vortex group {key} field {fieldName} unit {i} physical index {unitIndex} " ++
      s!"does not match group {groupIndex}")
  else .ok (appendUniqueFlatSegments p.1.2 u.flatSegments)

end GroupCell

/-- The units of a layout, by its granularity. -/
def VortexFieldLayout.units (layout : VortexFieldLayout) : List VortexUnit :=
  match layout.granularity with
  | .flat => layout.flats
  | .rowGroup => layout.rowGroups
  | .unknown => []

def mergeUnits (key fieldName : String) (granularity : VortexPhysicalGranularity)
    (metas : List GroupCell) (units : List VortexUnit) : Except Fault (List GroupCell) :=
  let size := units.length
  let expected := metas.length
  if size ≠ expected then
    invalid s!"Vortex group {key} field {fieldName} has {size} units, expected {expected}"
  else (units.zip metas).zipIdx.mapM (GroupCell.merge key fieldName granularity)

/-- Merge the units of another field. -/
def mergeField (key : String) (granularity : VortexPhysicalGranularity) (metas : List GroupCell)
    (field : String × VortexFieldLayout) : Except Fault (List GroupCell) :=
  let fieldName := field.1
  if field.2.granularity ≠ granularity then
    invalid s!"Vortex group {key} field {fieldName} granularity does not match group"
  else mergeUnits key fieldName granularity metas field.2.units

/-- The byte sizes of a merged cell. -/
def GroupCell.finish (key : String) (g : GroupCell) : Except Fault VortexCellMeta := do
  let storageBytes ← sumByteRanges key g.cell.flatSegmentRanges
  return { g.cell with storageBytes, memoryBytes := storageBytes }

def buildGroupCellMetas (layouts : List VortexFieldLayout) (fieldNames : List String)
    (key : String) : Except Fault (List VortexCellMeta) :=
  let size := layouts.length
  let expected := fieldNames.length
  if fieldNames.isEmpty then invalid "Vortex group planner requires at least one field"
  else if size ≠ expected then
    invalid s!"Vortex group {key} has {size} layouts, expected {expected}"
  else match layouts with
    | [] => .error .outOfBounds
    | first :: layouts =>
      if first.granularity = .unknown then
        invalid s!"Unsupported vortex group granularity for {key}"
      else do
        let metas ← (fieldNames.tail.zip layouts).foldlM (mergeField key first.granularity)
          (first.units.map (GroupCell.init first.granularity))
        metas.mapM (GroupCell.finish key)

def buildVortexGroupCellMetas (sort : List VortexCellMeta → List VortexCellMeta)
    (footerReader : VortexFooterReader) (fieldNames : List String) :
    Except Fault (List VortexCellMeta) :=
  if fieldNames.isEmpty then
    invalid "Vortex group cell meta builder requires at least one field"
  else do
    let path := footerReader.path
    let key := s!"{path}:<column_group>"
    let layouts ← fieldNames.mapM footerReader.getFieldLayout
    let cellMetas ← buildGroupCellMetas layouts fieldNames key
    validateCellMetas sort cellMetas footerReader.rows key

/-! ## What is checked -/

/-- What is checked of the segments of a cell alone. -/
structure VortexCellMeta.SegmentsOk (m : VortexCellMeta) (rows : ℕ) : Prop where
  length_eq : m.flatSegmentIds.length = m.flatSegmentRanges.length
  nonempty : m.flatSegmentIds = [] → rows = 0 ∧ m.rowCount = 0

/-- Cells that are numbered in the order of their rows, follow each other from row 0 to the last row
of the file, and do not share segments. -/
structure ValidCells (metas : List VortexCellMeta) (rows : ℕ) : Prop where
  cellId_eq : ∀ (i : ℕ) (m : VortexCellMeta), metas[i]? = some m → m.cellId = i
  chained : Chained VortexCellMeta.rowOffset VortexCellMeta.rowCount 0 metas rows
  rows_eq_zero : ∀ m ∈ metas, m.rowCount = 0 → rows = 0
  rows_le : rows ≤ u64Max
  segmentsOk : ∀ m ∈ metas, m.SegmentsOk rows
  nodup : (metas.flatMap (·.flatSegmentIds)).Nodup

section Checks

variable {key : String} {totalRows i next : ℕ} {seen seen' : List ℕ} {m : VortexCellMeta}
  {metas metas' : List VortexCellMeta}

theorem ok_of_invalid_ite {α : Type} {p : Prop} [Decidable p] {message : String}
    {x : Except Fault α} {a : α} : (if p then invalid message else x) = .ok a ↔ ¬p ∧ x = .ok a := by
  split <;> simp_all [invalid]

theorem foldlM_addOrFail {e : Fault} {total : ℕ} {sizes : List ℕ} (h : total + sizes.sum ≤ u64Max) :
    sizes.foldlM (addOrFail e) total = .ok (total + sizes.sum) := by
  induction sizes generalizing total with
  | nil => rfl
  | cons size sizes ih =>
    rw [sum_cons, ← add_assoc] at h ⊢
    rw [foldlM_cons, addOrFail, if_neg (by omega), ok_bind, ih h]

theorem checkedSum_eq {sizes : List ℕ} (h : sizes.sum ≤ u64Max) :
    checkedSum key sizes = .ok sizes.sum := by
  rw [checkedSum, checkedAdd, foldlM_addOrFail (by rwa [zero_add]), zero_add]

theorem foldlM_checkSegmentIds_iff {ids : List ℕ} (hseen : seen.Nodup) :
    ids.foldlM (checkSegmentIds key) seen = .ok seen' ↔
      seen' = ids.reverse ++ seen ∧ seen'.Nodup := by
  induction ids generalizing seen with
  | nil =>
    simp only [foldlM_nil, pure_eq_ok_iff]
    exact ⟨fun h => ⟨h.symm, h ▸ hseen⟩, fun h => h.1.symm⟩
  | cons id ids ih =>
    rw [foldlM_cons, bind_eq_ok]
    simp only [checkSegmentIds, ok_of_invalid_ite, ok.injEq, reverse_cons, append_assoc]
    constructor
    · rintro ⟨seen1, ⟨hid, rfl⟩, h⟩
      exact (ih (nodup_cons.mpr ⟨hid, hseen⟩)).mp h
    · rintro ⟨rfl, hnodup⟩
      have hcons : (id :: seen).Nodup := hnodup.of_append_right
      exact ⟨id :: seen, ⟨(nodup_cons.mp hcons).1, rfl⟩, (ih hcons).mpr ⟨rfl, hnodup⟩⟩

theorem checkSegments_iff (hseen : seen.Nodup) : checkSegments key totalRows seen m = .ok seen' ↔
      m.SegmentsOk totalRows ∧ seen' = m.flatSegmentIds.reverse ++ seen ∧ seen'.Nodup := by
  simp only [checkSegments, ok_of_invalid_ite, foldlM_checkSegmentIds_iff hseen]
  constructor
  · rintro ⟨hlen, hne, h⟩
    refine ⟨⟨not_not.mp hlen, fun hnil => ?_⟩, h⟩
    simpa [hnil] using hne
  · rintro ⟨hok, h⟩
    refine ⟨not_not.mpr hok.length_eq, ?_, h⟩
    simpa using hok.nonempty

/-- The first loop of `ValidateCellMetas`. -/
theorem foldlM_checkSegments_iff (hseen : seen.Nodup) :
    metas.foldlM (checkSegments key totalRows) seen = .ok seen' ↔
      (∀ m ∈ metas, m.SegmentsOk totalRows) ∧
        seen' = (metas.flatMap (·.flatSegmentIds)).reverse ++ seen ∧ seen'.Nodup := by
  induction metas generalizing seen with
  | nil =>
    simp only [foldlM_nil, pure_eq_ok_iff]
    exact ⟨fun h => ⟨by simp, h.symm, h ▸ hseen⟩, fun h => h.2.1.symm⟩
  | cons m metas ih =>
    rw [foldlM_cons, bind_eq_ok]
    simp only [checkSegments_iff hseen, forall_mem_cons, flatMap_cons, reverse_append, append_assoc]
    constructor
    · rintro ⟨seen1, ⟨hm, rfl, hnodup⟩, h⟩
      obtain ⟨hmetas, h⟩ := (ih hnodup).mp h
      exact ⟨⟨hm, hmetas⟩, h⟩
    · rintro ⟨⟨hm, hmetas⟩, rfl, hnodup⟩
      have hright := hnodup.of_append_right
      exact ⟨_, ⟨hm, rfl, hright⟩, (ih hright).mpr ⟨hmetas, rfl, hnodup⟩⟩

theorem checkRows_iff {next' : ℕ} : checkRows key totalRows i next m = .ok next' ↔
      (m.rowCount = 0 → totalRows = 0) ∧ m.rowOffset = next ∧ m.rowCount ≤ u64Max - next ∧
        next' = next + m.rowCount := by
  simp only [checkRows, ok_of_invalid_ite, ok.injEq]
  omega

theorem checkCovered_iff : checkCovered key totalRows next = .ok () ↔ next = totalRows := by
  simp only [checkCovered, ok_of_invalid_ite, not_not, and_true]

/-- What the loops check of the rows of the cells. -/
structure RowsOk (totalRows next : ℕ) (metas : List VortexCellMeta) : Prop where
  chained : Chained VortexCellMeta.rowOffset VortexCellMeta.rowCount next metas totalRows
  rows_eq_zero : ∀ m ∈ metas, m.rowCount = 0 → totalRows = 0
  rows_le : totalRows ≤ u64Max

theorem rowsOk_nil (hnext : next ≤ u64Max) : RowsOk totalRows next [] ↔ next = totalRows :=
  ⟨fun h => h.chained, fun h => ⟨h, by simp, h ▸ hnext⟩⟩

theorem rowsOk_cons (key : String) (i : ℕ) (hnext : next ≤ u64Max) :
    RowsOk totalRows next (m :: metas) ↔
      (∃ next', checkRows key totalRows i next m = .ok next' ∧ next' ≤ u64Max ∧
        RowsOk totalRows next' metas) := by
  simp only [checkRows_iff]
  constructor
  · rintro ⟨⟨hoff, hchain⟩, hzero, hle⟩
    obtain ⟨hm, hmetas⟩ := forall_mem_cons.mp hzero
    have := hchain.le
    exact ⟨_, ⟨hm, hoff, by omega, rfl⟩, by omega, hchain, hmetas, hle⟩
  · rintro ⟨next', ⟨hm, hoff, hcount, rfl⟩, -, hchain, hmetas, hle⟩
    exact ⟨⟨hoff, hchain⟩, forall_mem_cons.mpr ⟨hm, hmetas⟩, hle⟩

/-- The cells, numbered from `i` on. -/
def number (i : ℕ) (metas : List VortexCellMeta) : List VortexCellMeta :=
  (metas.zipIdx i).map fun p => { p.1 with cellId := p.2 }

theorem numberCells_iff (hnext : next ≤ u64Max) :
    numberCells key totalRows i next metas = .ok metas' ↔
      metas' = number i metas ∧ RowsOk totalRows next metas := by
  induction metas generalizing i next metas' with
  | nil =>
    simp only [numberCells, bind_eq_ok, pure_eq_ok_iff, rowsOk_nil hnext, number,
      zipIdx_nil, map_nil]
    exact ⟨fun ⟨_, h, hnil⟩ => ⟨hnil.symm, checkCovered_iff.mp h⟩,
      fun ⟨hnil, h⟩ => ⟨(), checkCovered_iff.mpr h, hnil.symm⟩⟩
  | cons m metas ih =>
    simp only [numberCells, bind_eq_ok, pure_eq_ok_iff]
    rw [rowsOk_cons key i hnext]
    constructor
    · rintro ⟨next', hrows, rest, hrest, rfl⟩
      have hnext' : next' ≤ u64Max := by
        have := checkRows_iff.mp hrows
        omega
      obtain ⟨rfl, hok⟩ := (ih hnext').mp hrest
      exact ⟨rfl, next', hrows, hnext', hok⟩
    · rintro ⟨rfl, next', hrows, hnext', hok⟩
      exact ⟨next', hrows, _, (ih hnext').mpr ⟨rfl, hok⟩, rfl⟩

theorem checkReady_iff (hnext : next ≤ u64Max) (hseen : seen.Nodup) :
    checkReady key totalRows i next seen metas = .ok () ↔
      (∀ j m, metas[j]? = some m → m.cellId = i + j) ∧ RowsOk totalRows next metas ∧
        (∀ m ∈ metas, m.SegmentsOk totalRows) ∧
          ((metas.flatMap (·.flatSegmentIds)).reverse ++ seen).Nodup := by
  induction metas generalizing i next seen with
  | nil => simp [checkReady, checkCovered_iff, rowsOk_nil hnext, hseen]
  | cons m metas ih =>
    simp only [checkReady, ok_of_invalid_ite, not_not, bind_eq_ok, forall_mem_cons,
      flatMap_cons, reverse_append, append_assoc, checkSegments_iff hseen]
    rw [rowsOk_cons key i hnext]
    constructor
    · rintro ⟨hid, next', hrows, seen', ⟨hm, rfl, hnodup⟩, h⟩
      have hnext' : next' ≤ u64Max := by
        have := checkRows_iff.mp hrows
        omega
      obtain ⟨hids, hok, hmetas, hseen'⟩ := (ih hnext' hnodup).mp h
      refine ⟨fun j m' hj => ?_, ⟨next', hrows, hnext', hok⟩, ⟨hm, hmetas⟩, hseen'⟩
      cases j with
      | zero =>
        obtain rfl : m = m' := by simpa using hj
        exact hid
      | succ j =>
        rw [hids j m' (by simpa using hj)]
        omega
    · rintro ⟨hids, ⟨next', hrows, hnext', hok⟩, ⟨hm, hmetas⟩, hnodup⟩
      refine ⟨hids 0 m rfl, next', hrows, _, ⟨hm, rfl, hnodup.of_append_right⟩, ?_⟩
      refine (ih hnext' hnodup.of_append_right).mpr ⟨fun j m' hj => ?_, hok, hmetas, hnodup⟩
      rw [hids (j + 1) m' (by simpa using hj)]
      omega

/-- **Cells are ready** if and only if they are valid. -/
theorem validateCellMetasReady_iff :
    validateCellMetasReady metas totalRows key = .ok () ↔ ValidCells metas totalRows := by
  have hready : checkReady key totalRows 0 0 [] metas = .ok () ↔ ValidCells metas totalRows := by
    rw [checkReady_iff (Nat.zero_le _) nodup_nil]
    simp only [zero_add, append_nil, nodup_reverse]
    exact ⟨fun ⟨hid, ⟨hchain, hzero, hle⟩, hok, hnodup⟩ =>
        ⟨hid, hchain, hzero, hle, hok, hnodup⟩,
      fun ⟨hid, hchain, hzero, hle, hok, hnodup⟩ =>
        ⟨hid, ⟨hchain, hzero, hle⟩, hok, hnodup⟩⟩
  rw [← hready, validateCellMetasReady]
  cases metas with
  | nil =>
    rw [checkReady, checkCovered_iff]
    split <;> simp_all [invalid, eq_comm]
  | cons m metas => rfl

@[simp] theorem number_cons (i : ℕ) (m : VortexCellMeta) (metas : List VortexCellMeta) :
    number i (m :: metas) = { m with cellId := i } :: number (i + 1) metas := rfl

theorem getElem?_number {j : ℕ} (hm : (number i metas)[j]? = some m) : m.cellId = i + j := by
  simp only [number, getElem?_map, getElem?_zipIdx, Option.map_map, Option.map_eq_some_iff] at hm
  obtain ⟨m', -, rfl⟩ := hm
  rfl

/-- Only the identifiers of the cells change. -/
theorem map_number {β : Type} {f : VortexCellMeta → β} (i : ℕ) (metas : List VortexCellMeta)
    (hf : ∀ m i, f { m with cellId := i } = f m) : (number i metas).map f = metas.map f := by
  induction metas generalizing i with
  | nil => rfl
  | cons m metas ih => rw [number_cons, map_cons, map_cons, hf, ih]

theorem forall_mem_number {P : VortexCellMeta → Prop} (i : ℕ) (metas : List VortexCellMeta)
    (hP : ∀ m i, P { m with cellId := i } ↔ P m) :
    (∀ m ∈ number i metas, P m) ↔ ∀ m ∈ metas, P m := by
  have h := map_number i metas fun m i => propext (hP m i)
  rw [← forall_mem_map (f := P) (P := fun p => p), h, forall_mem_map]

theorem validCells_number_iff (metas : List VortexCellMeta) (totalRows : ℕ) :
    ValidCells (number 0 metas) totalRows ↔ RowsOk totalRows 0 metas ∧
      (∀ m ∈ metas, m.SegmentsOk totalRows) ∧ (metas.flatMap (·.flatSegmentIds)).Nodup := by
  have hrows := map_number (f := fun m => (m.rowOffset, m.rowCount)) 0 metas fun _ _ => rfl
  have hsegs := map_number (f := (·.flatSegmentIds)) 0 metas fun _ _ => rfl
  have hzero := forall_mem_number 0 metas
    (P := fun m => m.rowCount = 0 → totalRows = 0) fun m i => Iff.rfl
  have hok := forall_mem_number 0 metas (P := fun m => m.SegmentsOk totalRows) fun m i =>
    ⟨fun ⟨h, h'⟩ => ⟨h, h'⟩, fun ⟨h, h'⟩ => ⟨h, h'⟩⟩
  constructor
  · rintro ⟨-, hchain, hz, hle, hs, hnodup⟩
    refine ⟨⟨chained_of_map_eq hrows.symm hchain, hzero.mp hz, hle⟩, hok.mp hs, ?_⟩
    rwa [flatMap_def, hsegs, ← flatMap_def] at hnodup
  · rintro ⟨⟨hchain, hz, hle⟩, hs, hnodup⟩
    refine ⟨fun i m hm => ?_, chained_of_map_eq hrows hchain, hzero.mpr hz, hle, hok.mpr hs, ?_⟩
    · rw [getElem?_number hm, zero_add]
    · rwa [flatMap_def, hsegs, ← flatMap_def]

variable {sort : List VortexCellMeta → List VortexCellMeta}

/-- Without cells the loops accept what the early exit accepts. -/
theorem validateCellMetas_eq_ok (hsort : ∀ l, (sort l).Perm l) :
    validateCellMetas sort metas totalRows key = .ok metas' ↔
      ∃ seen, metas.foldlM (checkSegments key totalRows) [] = .ok seen ∧
        numberCells key totalRows 0 0 (sort metas) = .ok metas' := by
  cases metas with
  | nil =>
    rw [(hsort []).eq_nil, numberCells_iff (Nat.zero_le _), rowsOk_nil (Nat.zero_le _)]
    by_cases hrows : totalRows = 0
    · simp [validateCellMetas, hrows, number, pure, Except.pure, eq_comm]
    · simp [validateCellMetas, hrows, invalid, eq_comm]
  | cons m metas =>
    rw [validateCellMetas, if_neg (by simp)]
    exact bind_eq_ok

/-- **Validation** returns the cells in the order of their rows, with their numbers, if these are
valid. -/
theorem validateCellMetas_iff (hsort : ∀ l, (sort l).Perm l) :
    validateCellMetas sort metas totalRows key = .ok metas' ↔
      metas' = number 0 (sort metas) ∧ ValidCells metas' totalRows := by
  have hperm := hsort metas
  have hvalid := validCells_number_iff (sort metas) totalRows
  simp only [hperm.mem_iff, (hperm.flatMap_right _).nodup_iff] at hvalid
  rw [validateCellMetas_eq_ok hsort]
  constructor
  · rintro ⟨seen, hseen, h⟩
    obtain ⟨hok, rfl, hnodup⟩ := (foldlM_checkSegments_iff nodup_nil).mp hseen
    obtain ⟨rfl, hrows⟩ := (numberCells_iff (Nat.zero_le _)).mp h
    exact ⟨rfl, hvalid.mpr ⟨hrows, hok, by simpa using hnodup⟩⟩
  · rintro ⟨rfl, h⟩
    obtain ⟨hrows, hok, hnodup⟩ := hvalid.mp h
    exact ⟨_, (foldlM_checkSegments_iff nodup_nil).mpr ⟨hok, rfl, by simpa using hnodup⟩,
      (numberCells_iff (Nat.zero_le _)).mpr ⟨rfl, hrows⟩⟩

end Checks

section Built

variable {key : String} {sort : List VortexCellMeta → List VortexCellMeta}
  {footerReader : VortexFooterReader} {granularity : VortexPhysicalGranularity}
  {metas metas' : List VortexCellMeta} {totalRows : ℕ} {Q : VortexCellMeta → Prop}

/-- Different cells do not share segments. -/
theorem ValidCells.disjoint {m m' : VortexCellMeta} (h : ValidCells metas totalRows) {i j : ℕ}
    (hm : metas[i]? = some m) (hm' : metas[j]? = some m') (hne : i ≠ j) :
    m.flatSegmentIds.Disjoint m'.flatSegmentIds := by
  have hpairwise := (nodup_flatMap.mp h.nodup).2
  obtain hlt | hlt := lt_or_gt_of_ne hne
  · exact hpairwise.rel_of_getElem? hm hm' hlt
  · exact fun id hid hid' => hpairwise.rel_of_getElem? hm' hm hlt hid' hid

/-! What all cells that are built have in common, as a property `Q` that the builders keep. -/

namespace GroupCell

theorem appendUniqueFlatSegments_induct {segments : List VortexFlatSegmentRange} {g : GroupCell}
    (happend : ∀ m, Q m → ∀ s ∈ segments, Q (m.appendSegment s)) (hg : Q g.cell) :
    Q (g.appendUniqueFlatSegments segments).cell := by
  rw [appendUniqueFlatSegments]
  induction segments generalizing g with
  | nil => exact hg
  | cons s segments ih =>
    rw [foldl_cons]
    apply ih (fun m hm s' hs' => happend m hm s' (mem_cons_of_mem _ hs'))
    rw [appendUniqueFlatSegment]
    split
    · exact hg
    · exact happend g.cell hg s mem_cons_self

theorem merge_induct {fieldName : String} {p : (VortexUnit × GroupCell) × ℕ} {g : GroupCell}
    (happend : ∀ m, Q m → ∀ s ∈ p.1.1.flatSegments, Q (m.appendSegment s)) (hg : Q p.1.2.cell)
    (h : merge key fieldName granularity p = .ok g) : Q g.cell := by
  obtain ⟨-, h⟩ := ok_of_invalid_ite.mp h
  obtain ⟨-, h⟩ := ok_of_invalid_ite.mp h
  cases h
  exact appendUniqueFlatSegments_induct happend hg

end GroupCell

theorem mergeField_induct {groups groups' : List GroupCell} {field : String × VortexFieldLayout}
    (happend : ∀ m, Q m → ∀ u ∈ field.2.units, ∀ s ∈ u.flatSegments, Q (m.appendSegment s))
    (hgroups : ∀ g ∈ groups, Q g.cell) (h : mergeField key granularity groups field = .ok groups') :
    ∀ g ∈ groups', Q g.cell := by
  obtain ⟨-, h⟩ := ok_of_invalid_ite.mp h
  obtain ⟨-, h⟩ := ok_of_invalid_ite.mp h
  intro g hg
  obtain ⟨p, hp, hmerge⟩ := (forall₂_of_mapM_ok h).exists_left hg
  obtain ⟨hunit, hgroup⟩ := of_mem_zip (fst_mem_of_mem_zipIdx hp)
  exact GroupCell.merge_induct (fun m hm => happend m hm _ hunit) (hgroups _ hgroup) hmerge

variable {fieldNames : List String}

theorem buildGroupCellMetas_induct {layouts : List VortexFieldLayout}
    (hinit : ∀ first, layouts.head? = some first → ∀ u, Q (GroupCell.initMeta first.granularity u))
    (happend : ∀ m, Q m → ∀ layout ∈ layouts, ∀ u ∈ layout.units, ∀ s ∈ u.flatSegments,
      Q (m.appendSegment s))
    (hbytes : ∀ m n, Q m → Q { m with storageBytes := n, memoryBytes := n })
    (h : buildGroupCellMetas layouts fieldNames key = .ok metas) : ∀ m ∈ metas, Q m := by
  obtain ⟨-, h⟩ := ok_of_invalid_ite.mp h
  obtain ⟨-, h⟩ := ok_of_invalid_ite.mp h
  cases layouts with
  | nil => cases h
  | cons first layouts =>
    obtain ⟨-, h⟩ := ok_of_invalid_ite.mp h
    obtain ⟨groups, hgroups, h⟩ := bind_eq_ok.mp h
    have hmerged : ∀ g ∈ groups, Q g.cell := by
      refine foldlM_invariant
        (fun groups hP field hfield _ => mergeField_induct (fun m hm => ?_) hP)
        (forall_mem_map.mpr fun u hu => ?_) hgroups
      · exact happend m hm field.2 (mem_cons_of_mem _ (of_mem_zip hfield).2)
      · exact GroupCell.appendUniqueFlatSegments_induct
          (fun m hm => happend m hm first mem_cons_self u hu) (hinit first rfl u)
    intro m hm
    obtain ⟨g, hg, hfinish⟩ := (forall₂_of_mapM_ok h).exists_left hm
    obtain ⟨n, -, hfinish⟩ := bind_eq_ok.mp hfinish
    cases hfinish
    exact hbytes g.cell n (hmerged g hg)

theorem validateCellMetas_induct (hsort : ∀ l, (sort l).Perm l)
    (hid : ∀ m i, Q { m with cellId := i } ↔ Q m) (hQ : ∀ m ∈ metas, Q m)
    (h : validateCellMetas sort metas totalRows key = .ok metas') : ∀ m ∈ metas', Q m := by
  obtain ⟨rfl, -⟩ := (validateCellMetas_iff hsort).mp h
  rw [forall_mem_number 0 (sort metas) hid]
  exact fun m hm => hQ m ((hsort metas).mem_iff.mp hm)

theorem unitCell_eq_ok {u : VortexUnit} {m : VortexCellMeta}
    (h : unitCell key granularity u = .ok m) :
    m.granularity = granularity ∧ m.flatSegmentIds = u.flatSegments.map (·.flatSegmentId) ∧
      m.flatSegmentRanges = u.flatSegments.map (·.byteRange) := by
  obtain ⟨_, -, h⟩ := bind_eq_ok.mp h
  cases h
  exact ⟨rfl, rfl, rfl⟩

/-- The cells of a field are those of the units of its layout. -/
theorem buildVortexCellMetas_eq_ok {fieldName : String}
    (h : buildVortexCellMetas sort footerReader fieldName = .ok metas) :
    ∃ layout key cells, footerReader.getFieldLayout fieldName = .ok layout ∧
      layout.units.mapM (unitCell key layout.granularity) = .ok cells ∧
        validateCellMetas sort cells footerReader.rows key = .ok metas := by
  obtain ⟨layout, hlayout, h⟩ := bind_eq_ok.mp h
  simp only [VortexFieldLayout.units]
  cases hgran : layout.granularity with
  | unknown => simp [hgran, invalid] at h
  | flat | rowGroup =>
    rw [hgran] at h
    obtain ⟨cells, hcells, h⟩ := bind_eq_ok.mp h
    refine ⟨layout, _, cells, hlayout, ?_, h⟩
    rwa [hgran]

theorem buildVortexGroupCellMetas_eq_ok
    (h : buildVortexGroupCellMetas sort footerReader fieldNames = .ok metas) : ∃ layouts key cells,
      Forall₂ (fun name layout => footerReader.getFieldLayout name = .ok layout) fieldNames
        layouts ∧
      buildGroupCellMetas layouts fieldNames key = .ok cells ∧
        validateCellMetas sort cells footerReader.rows key = .ok metas := by
  obtain ⟨-, h⟩ := ok_of_invalid_ite.mp h
  obtain ⟨layouts, hlayouts, h⟩ := bind_eq_ok.mp h
  obtain ⟨cells, hcells, h⟩ := bind_eq_ok.mp h
  exact ⟨layouts, _, cells, forall₂_of_mapM_ok hlayouts, hcells, h⟩

/-- The cells are those of a field, or those of a column group. -/
def Built (sort : List VortexCellMeta → List VortexCellMeta) (footerReader : VortexFooterReader)
    (metas : List VortexCellMeta) : Prop :=
  (∃ fieldName, buildVortexCellMetas sort footerReader fieldName = .ok metas) ∨
    ∃ fieldNames, buildVortexGroupCellMetas sort footerReader fieldNames = .ok metas

/-- **Cells that are built** are valid. -/
theorem Built.valid (hsort : ∀ l, (sort l).Perm l) (h : Built sort footerReader metas) :
    ValidCells metas footerReader.rows := by
  obtain ⟨_, h⟩ | ⟨_, h⟩ := h
  · obtain ⟨_, _, _, -, -, h⟩ := buildVortexCellMetas_eq_ok h
    exact ((validateCellMetas_iff hsort).mp h).2
  · obtain ⟨_, _, _, -, -, h⟩ := buildVortexGroupCellMetas_eq_ok h
    exact ((validateCellMetas_iff hsort).mp h).2

/-- Cells that have one granularity. -/
def Uniform (metas : List VortexCellMeta) : Prop :=
  ∃ granularity, ∀ m ∈ metas, m.granularity = granularity

theorem Built.uniform (hsort : ∀ l, (sort l).Perm l) (h : Built sort footerReader metas) :
    Uniform metas := by
  obtain ⟨_, h⟩ | ⟨_, h⟩ := h
  · obtain ⟨layout, _, cells, -, hcells, h⟩ := buildVortexCellMetas_eq_ok h
    refine ⟨layout.granularity, validateCellMetas_induct hsort (fun _ _ => Iff.rfl) ?_ h⟩
    intro m hm
    obtain ⟨u, -, hu⟩ := (forall₂_of_mapM_ok hcells).exists_left hm
    exact (unitCell_eq_ok hu).1
  · obtain ⟨layouts, _, cells, -, hcells, h⟩ := buildVortexGroupCellMetas_eq_ok h
    cases layouts with
    | nil =>
      obtain ⟨-, hcells⟩ := ok_of_invalid_ite.mp hcells
      obtain ⟨-, hcells⟩ := ok_of_invalid_ite.mp hcells
      cases hcells
    | cons first layouts =>
      refine ⟨first.granularity, validateCellMetas_induct hsort (fun _ _ => Iff.rfl) ?_ h⟩
      refine buildGroupCellMetas_induct (fun first' hfirst _ => ?_) (fun _ hm _ _ _ _ _ _ => hm)
        (fun _ _ => id) hcells
      cases hfirst
      rfl

/-- The segments of the cell are where `P` says. -/
def VortexCellMeta.Located (P : ℕ → ByteRange → Prop) (m : VortexCellMeta) : Prop :=
  Forall₂ P m.flatSegmentIds m.flatSegmentRanges

theorem Built.located {P : ℕ → ByteRange → Prop} (hsort : ∀ l, (sort l).Perm l)
    (hP : ∀ fieldName layout, footerReader.getFieldLayout fieldName = .ok layout →
      ∀ u ∈ layout.units, ∀ s ∈ u.flatSegments, P s.flatSegmentId s.byteRange)
    (h : Built sort footerReader metas) : ∀ m ∈ metas, m.Located P := by
  obtain ⟨_, h⟩ | ⟨_, h⟩ := h
  · obtain ⟨layout, _, cells, hlayout, hcells, h⟩ := buildVortexCellMetas_eq_ok h
    refine validateCellMetas_induct hsort (fun _ _ => Iff.rfl) (fun m hm => ?_) h
    obtain ⟨u, hu, hm⟩ := (forall₂_of_mapM_ok hcells).exists_left hm
    obtain ⟨-, hids, hranges⟩ := unitCell_eq_ok hm
    rw [VortexCellMeta.Located, hids, hranges, forall₂_map_left_iff, forall₂_map_right_iff,
      forall₂_same]
    exact hP _ layout hlayout u hu
  · obtain ⟨layouts, _, cells, hlayouts, hcells, h⟩ := buildVortexGroupCellMetas_eq_ok h
    refine validateCellMetas_induct hsort (fun _ _ => Iff.rfl) ?_ h
    refine buildGroupCellMetas_induct (fun _ _ _ => .nil) (fun m hm layout hlayout u hu s hs => ?_)
      (fun _ _ => id) hcells
    obtain ⟨name, -, hname⟩ := hlayouts.exists_left hlayout
    exact rel_append hm (.cons (hP name layout hname u hu s hs) .nil)

end Built

end MilvusStorage.Vortex
