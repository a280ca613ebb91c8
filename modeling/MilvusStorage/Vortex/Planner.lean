import MilvusStorage.Common.RecordBatch
import MilvusStorage.Vortex.CellMetas

/-!
# Plans

A `VortexPlanner` says which cells a read needs, and which row ranges it reads in them.
`apply_row_ranges_selection` is the check that the scan makes of these ranges.

* `planForOffsets_eq`: a take needs the cells that contain one of its rows.
-/

namespace MilvusStorage.Vortex

open Except List Tiling

/-- The row at `stop` is not in the range. -/
structure RowRange where
  start : ℕ
  stop : ℕ
  deriving DecidableEq, Repr

inductive ReadOp
  | rangeScan (ranges : List RowRange)
  | take (rowIndices : List ℤ) (ranges : List RowRange)
  deriving DecidableEq, Repr

structure VortexReadPlan where
  op : ReadOp
  predicate : String := ""
  applyPredicate : Bool := true
  deriving DecidableEq, Repr

structure VortexPlan where
  cellIds : List ℕ
  readPlan : VortexReadPlan
  deriving DecidableEq, Repr

structure VortexPlanner where
  footerReader : VortexFooterReader
  fieldName : String
  rows : ℕ
  cellMetas : List VortexCellMeta
  memoryBytes : ℕ

def VortexCellMeta.stop (m : VortexCellMeta) : ℕ := rowEnd m.rowOffset m.rowCount

/-- `std::upper_bound`, on cells that are sorted. -/
def findCellIndexForRow (metas : List VortexCellMeta) (row : ℕ) : ℕ :=
  let it := metas.findIdx fun m => row < m.rowOffset
  if it = 0 then 0 else it - 1

/-- The loop of `SelectCellIdsForRowRange`. -/
def selectCells (rowStart rowEnd : ℕ) : List VortexCellMeta → List ℕ
  | [] => []
  | m :: metas =>
    if rowEnd ≤ m.rowOffset then []
    else if m.rowOffset < rowEnd ∧ rowStart < m.stop then
      m.cellId :: selectCells rowStart rowEnd metas
    else selectCells rowStart rowEnd metas

/-- The cells from the current one on, and the cells that have been selected. -/
structure OffsetCursor where
  cells : List VortexCellMeta
  cellIds : List ℕ := []

/-- Append a cell, unless it is the last one. -/
def pushCell (cellIds : List ℕ) (cellId : ℕ) : List ℕ :=
  if cellIds.getLast? = some cellId then cellIds else cellIds ++ [cellId]

/-- The body of the loop of `SelectCellIdsForOffsets`. -/
def OffsetCursor.select (c : OffsetCursor) (offset : ℤ) : Except Fault OffsetCursor :=
  let row := toUnsigned 64 offset
  match c.cells.dropWhile fun m => m.stop ≤ row with
  | [] => invalid s!"Vortex take offset {offset} has no resident cell"
  | m :: cells =>
    let cellStart := m.rowOffset
    let cellEnd := m.stop
    if ¬(cellStart ≤ row ∧ row < cellEnd) then
      invalid s!"Vortex take offset {offset} is outside selected cell [{cellStart}, {cellEnd})"
    else .ok { cells := m :: cells, cellIds := pushCell c.cellIds m.cellId }

def validateSortedUniqueOffsets (totalRows : ℕ) : ℕ → Option ℤ → List ℤ → Except Fault Unit
  | _, _, [] => .ok ()
  | i, previous, offset :: offsets =>
    if offset < 0 ∨ totalRows ≤ toUnsigned 64 offset then
      invalid s!"Vortex take offset {offset} out of file rows {totalRows}"
    else match previous with
      | none => validateSortedUniqueOffsets totalRows (i + 1) (some offset) offsets
      | some last =>
        if offset ≤ last then
          invalid (s!"Vortex take offsets must be sorted and unique, index={i}, " ++
            s!"previous={last}, current={offset}")
        else validateSortedUniqueOffsets totalRows (i + 1) (some offset) offsets

/-- The row groups of the cells, or nothing if a cell is not a row group. -/
def candidateRowGroupIds (metas : List VortexCellMeta) : List ℕ → Except Fault (Option (List ℕ))
  | [] => .ok (some [])
  | cellId :: cellIds =>
    let size := metas.length
    match metas[cellId]? with
    | none => invalid s!"Vortex cell id {cellId} out of range {size}"
    | some m =>
      if m.granularity ≠ .rowGroup then .ok none
      else do
        let ids ← candidateRowGroupIds metas cellIds
        return ids.map (m.physicalUnitIndex :: ·)

/-- The part of a row range in a cell. -/
def readRangeOfCell (metas : List VortexCellMeta) (rowStart rowEnd cellId : ℕ) :
    Except Fault (Option RowRange) :=
  let size := metas.length
  match metas[cellId]? with
  | none => invalid s!"Vortex cell id {cellId} out of range {size}"
  | some m =>
    let start := max m.rowOffset rowStart
    let stop := min m.stop rowEnd
    .ok (if stop ≤ start then none else some ⟨start, stop⟩)

namespace VortexPlanner

/-- The planner for a field or a column group, with the name that it has in messages. -/
def makeNamed (footerReader : VortexFooterReader) (fieldName : String)
    (cellMetas : List VortexCellMeta) : Except Fault VortexPlanner := do
  let path := footerReader.path
  let key := s!"{path}:{fieldName}"
  validateCellMetasReady cellMetas footerReader.rows key
  let memoryBytes ← sumCellBytes key cellMetas
  return { footerReader, fieldName, rows := footerReader.rows, cellMetas, memoryBytes }

def make : VortexFooterReader → String → List VortexCellMeta → Except Fault VortexPlanner :=
  makeNamed

def makeGroup (footerReader : VortexFooterReader) (cellMetas : List VortexCellMeta) :
    Except Fault VortexPlanner :=
  makeNamed footerReader "<column_group>" cellMetas

variable (p : VortexPlanner)

def selectCellIdsForRowRange (rowStart rowEnd : ℕ) : Except Fault (List ℕ) :=
  let rows := p.rows
  if rowEnd < rowStart ∨ rows < rowEnd then
    invalid s!"Vortex row range [{rowStart}, {rowEnd}) is out of rows {rows}"
  else if rowStart = rowEnd then .ok []
  else
    let cellIds := selectCells rowStart rowEnd
      (p.cellMetas.drop (findCellIndexForRow p.cellMetas rowStart))
    if cellIds.isEmpty then
      invalid s!"Vortex row range [{rowStart}, {rowEnd}) has no resident cells"
    else .ok cellIds

def buildReadRangesForCells (cellIds : List ℕ) (rowStart rowEnd : ℕ) :
    Except Fault (List RowRange) :=
  let rows := p.rows
  if rowEnd < rowStart ∨ rows < rowEnd then
    invalid s!"Vortex read range [{rowStart}, {rowEnd}) is out of rows {rows}"
  else do
    let ranges ← cellIds.mapM (readRangeOfCell p.cellMetas rowStart rowEnd)
    return ranges.reduceOption

def pruneCellsByPredicate (cellIds : List ℕ) (predicate : String) : Except Fault (List ℕ) :=
  if predicate = "" ∨ cellIds = [] then .ok cellIds
  else do
    match ← candidateRowGroupIds p.cellMetas cellIds with
    | none => return cellIds
    | some candidates =>
      let kept ← p.footerReader.pruneRowGroups predicate candidates
      return cellIds.filter fun cellId =>
        p.cellMetas[cellId]?.any fun m => m.physicalUnitIndex ∈ kept

def planForRowRange (rowStart rowEnd : ℕ) (predicate : String := "") : Except Fault VortexPlan := do
  let candidateCellIds ← p.selectCellIdsForRowRange rowStart rowEnd
  let cellIds ← p.pruneCellsByPredicate candidateCellIds predicate
  let ranges ← p.buildReadRangesForCells cellIds rowStart rowEnd
  return { cellIds, readPlan := { op := .rangeScan ranges, predicate } }

def selectCellIdsForOffsets (offsets : List ℤ) : Except Fault (List ℕ) :=
  if offsets.isEmpty then .ok []
  else do
    validateSortedUniqueOffsets p.rows 0 none offsets
    let c ← offsets.foldlM OffsetCursor.select { cells := p.cellMetas }
    return c.cellIds

def planForOffsets (offsets : List ℤ) : Except Fault VortexPlan := do
  let cellIds ← p.selectCellIdsForOffsets offsets
  let ranges ← p.buildReadRangesForCells cellIds 0 p.rows
  return { cellIds, readPlan := { op := .take offsets ranges, applyPredicate := false } }

end VortexPlanner

/-- The loop of `apply_row_ranges_selection`, with the end of the previous range if there is one:
the ranges the scan reads. -/
def applyRowRangesSelection (rowCount : ℕ) : Option ℕ → List RowRange → Except Fault (List RowRange)
  | _, [] => .ok []
  | previousEnd, r :: ranges =>
    let start := r.start
    let stop := r.stop
    if stop < start ∨ rowCount < stop then
      invalid s!"Vortex read row range [{start}, {stop}) out of rows {rowCount}"
    else if start = stop then applyRowRangesSelection rowCount previousEnd ranges
    else if previousEnd.any (start < ·) then
      invalid "Vortex read row ranges must be sorted and non-overlapping"
    else do
      let rest ← applyRowRangesSelection rowCount (some stop) ranges
      return r :: rest

/-! ## Range reads -/

/-- The cell has a row of the range. -/
def Meets (rowStart rowEnd : ℕ) (m : VortexCellMeta) : Prop :=
  max m.rowOffset rowStart < min (m.rowOffset + m.rowCount) rowEnd

instance (rowStart rowEnd : ℕ) : DecidablePred (Meets rowStart rowEnd) :=
  fun _ => inferInstanceAs (Decidable (_ < _))

/-- The rows of a range that are in a cell. -/
def rangeIn (rowStart rowEnd : ℕ) (m : VortexCellMeta) : Option RowRange :=
  if Meets rowStart rowEnd m then
    some ⟨max m.rowOffset rowStart, min (m.rowOffset + m.rowCount) rowEnd⟩
  else none

def RowRange.size (r : RowRange) : ℕ := r.stop - r.start

section Ranges

variable {metas ms : List VortexCellMeta} {m : VortexCellMeta} {rows rowStart rowEnd a : ℕ}

theorem ValidCells.stop_eq (h : ValidCells metas rows) (hm : m ∈ metas) :
    m.stop = m.rowOffset + m.rowCount ∧ m.stop ≤ rows := by
  have := (h.chained.mem hm).2
  have hle := h.rows_le
  have hstop : m.stop = m.rowOffset + m.rowCount :=
    Nat.mod_eq_of_lt (by unfold u64Max at hle; omega)
  exact ⟨hstop, hstop ▸ this⟩

theorem filter_meets_eq_nil (h : ∀ m ∈ metas, ¬Meets rowStart rowEnd m) :
    metas.filter (fun m => Meets rowStart rowEnd m) = [] := by
  simpa using h

theorem selectCells_eq (hstop : ∀ m ∈ ms, m.stop = m.rowOffset + m.rowCount)
    (hpos : ∀ m ∈ ms, m.rowCount ≠ 0) (hlt : rowStart < rowEnd)
    (hchain : Chained VortexCellMeta.rowOffset VortexCellMeta.rowCount a ms rows) :
    selectCells rowStart rowEnd ms =
      (ms.filter fun m => Meets rowStart rowEnd m).map (·.cellId) := by
  induction ms generalizing a with
  | nil => rfl
  | cons m ms ih =>
    obtain ⟨hm, hms⟩ := forall_mem_cons.mp hstop
    obtain ⟨hmpos, hmspos⟩ := forall_mem_cons.mp hpos
    have ih := ih hms hmspos hchain.2
    rw [selectCells, ih, hm]
    by_cases hend : rowEnd ≤ m.rowOffset
    · -- no later cell starts before the end of the range
      rw [if_pos hend, filter_meets_eq_nil, map_nil]
      intro m' hm'
      have hge := (hchain.mem hm').1
      rw [← hchain.1] at hge
      unfold Meets
      omega
    · rw [if_neg hend, filter_cons]
      by_cases hstart : rowStart < m.rowOffset + m.rowCount
      · rw [if_pos ⟨by omega, hstart⟩, if_pos (decide_eq_true (by unfold Meets; omega)), map_cons]
      · rw [if_neg (by omega), if_neg (by rw [decide_eq_true_iff]; unfold Meets; omega)]

section

variable (h : ValidCells metas rows)
include h

/-- The search finds the cell with the first row of the range. The cells before it do not meet the
range. -/
theorem ValidCells.findCellIndexForRow (hstart : rowStart < rows) :
    ∃ before m after, metas = before ++ m :: after ∧
      findCellIndexForRow metas rowStart = before.length ∧
        m.rowOffset ≤ rowStart ∧ rowStart < m.rowOffset + m.rowCount := by
  obtain ⟨k, m, hk, hm, hmem⟩ := h.chained.findIdx_start (Nat.zero_le _) hstart fun _ _ => rfl
  obtain ⟨hlt, rfl⟩ := List.getElem?_eq_some_iff.mp hm
  refine ⟨metas.take k, metas[k], metas.drop (k + 1), ?_, ?_, hmem⟩
  · rw [← drop_eq_getElem_cons hlt, take_append_drop]
  · simp [Vortex.findCellIndexForRow, hk, hlt.le]

theorem ValidCells.selectCells (hlt : rowStart < rowEnd) (hend : rowEnd ≤ rows) :
    Vortex.selectCells rowStart rowEnd (metas.drop (Vortex.findCellIndexForRow metas rowStart)) =
        (metas.filter fun m => Meets rowStart rowEnd m).map (·.cellId) ∧
      (metas.filter fun m => Meets rowStart rowEnd m) ≠ [] := by
  obtain ⟨before, m, after, hmetas, hidx, hmem⟩ := h.findCellIndexForRow (hlt.trans_le hend)
  have hchain := h.chained
  rw [hmetas] at hchain
  obtain ⟨hbefore, hafter⟩ := hchain.split
  have hsub : ∀ m' ∈ m :: after, m' ∈ metas := fun m' hm' =>
    hmetas ▸ mem_append_right before hm'
  constructor
  · rw [hidx, hmetas, drop_left, filter_append, filter_meets_eq_nil]
    · refine selectCells_eq (fun m' hm' => (h.stop_eq (hsub m' hm')).1) (fun m' hm' hzero => ?_) hlt
        hafter
      have := h.rows_eq_zero m' (hsub m' hm') hzero
      omega
    · intro m' hm'
      have := (hbefore.mem hm').2
      unfold Meets
      omega
  · refine ne_nil_of_mem (mem_filter.mpr ⟨hsub m mem_cons_self, ?_⟩)
    rw [decide_eq_true_iff]
    unfold Meets
    omega

theorem ValidCells.getElem?_cellId (hm : m ∈ metas) : metas[m.cellId]? = some m := by
  obtain ⟨i, hi⟩ := mem_iff_getElem?.mp hm
  rwa [h.cellId_eq i m hi]

theorem ValidCells.readRangeOfCell (hm : m ∈ metas) :
    Vortex.readRangeOfCell metas rowStart rowEnd m.cellId = .ok (rangeIn rowStart rowEnd m) := by
  simp only [Vortex.readRangeOfCell, h.getElem?_cellId hm, (h.stop_eq hm).1, rangeIn]
  by_cases hmeets : Meets rowStart rowEnd m
  · rw [if_pos hmeets, if_neg (not_le.mpr hmeets)]
  · rw [if_neg hmeets, if_pos (not_lt.mp hmeets)]

end

/-- The rows of a range in the cells that do not meet it are none. -/
theorem filterMap_filter_meets :
    (metas.filter fun m => Meets rowStart rowEnd m).filterMap (rangeIn rowStart rowEnd) =
      metas.filterMap (rangeIn rowStart rowEnd) := by
  rw [filterMap_filter]
  congr
  funext m
  by_cases h : Meets rowStart rowEnd m
  · simp [h]
  · simp [rangeIn]

/-- The parts of a range in the cells tile the range. -/
theorem ValidCells.tiles (h : ValidCells metas rows) (hle : rowStart ≤ rowEnd)
    (hend : rowEnd ≤ rows) :
    Tiles RowRange.start RowRange.size rowStart (metas.filterMap (rangeIn rowStart rowEnd))
      rowEnd := by
  have htiles : Tiles RowRange.start RowRange.size (clamp rowStart rowEnd 0)
      (metas.filterMap (rangeIn rowStart rowEnd)) (clamp rowStart rowEnd rows) :=
    chained_filterMap _ _ (fun m _ r hr => ?_) (fun m _ hnone => ?_) h.chained
  · rwa [clamp, clamp, Nat.min_zero, Nat.max_zero, min_eq_left hend, max_eq_right hle] at htiles
  · rw [rangeIn, Option.ite_none_right_eq_some, Option.some.injEq] at hr
    obtain ⟨hmeets, rfl⟩ := hr
    unfold Meets at hmeets
    simp only [clamp, RowRange.size]
    omega
  · rw [rangeIn, ite_eq_right_iff] at hnone
    have hmeets : ¬Meets rowStart rowEnd m := fun hm => nomatch hnone hm
    unfold Meets at hmeets
    unfold clamp
    omega

/-- Ranges that a scan accepts: they are not empty, and in order. -/
structure Scannable (rows : ℕ) (ranges : List RowRange) : Prop where
  bounds : ∀ r ∈ ranges, r.start < r.stop ∧ r.stop ≤ rows
  sorted : ranges.Pairwise fun r r' => r.stop ≤ r'.start

theorem ValidCells.scannable (h : ValidCells metas rows) (hms : ms.Sublist metas) :
    Scannable rows (ms.filterMap (rangeIn rowStart rowEnd)) := by
  constructor
  · intro r hr
    obtain ⟨m, hm, hr⟩ := mem_filterMap.mp hr
    rw [rangeIn, Option.ite_none_right_eq_some, Option.some.injEq] at hr
    obtain ⟨hmeets, rfl⟩ := hr
    have := (h.chained.mem (hms.subset hm)).2
    exact ⟨hmeets, (min_le_left ..).trans this⟩
  · refine (h.chained.pairwise.sublist hms).filterMap _ fun m m' hle r hr r' hr' => ?_
    simp only [rangeIn, Option.ite_none_right_eq_some, Option.some.injEq] at hr hr'
    obtain ⟨-, rfl⟩ := hr
    obtain ⟨-, rfl⟩ := hr'
    simp only
    omega

/-- The scan reads the ranges as they are. -/
theorem Scannable.applyRowRangesSelection {ranges : List RowRange} {previousEnd : Option ℕ}
    (h : Scannable rows ranges) (hprev : ∀ n ∈ previousEnd, ∀ r ∈ ranges, n ≤ r.start) :
    applyRowRangesSelection rows previousEnd ranges = .ok ranges := by
  induction ranges generalizing previousEnd with
  | nil => rfl
  | cons r ranges ih =>
    obtain ⟨hr, hbounds⟩ := forall_mem_cons.mp h.bounds
    obtain ⟨hsorted, hpairwise⟩ := pairwise_cons.mp h.sorted
    have hany : ¬previousEnd.any (r.start < ·) = true := by
      simp only [Option.any_eq_true, decide_eq_true_eq, not_exists, not_and, not_lt]
      exact fun n hn => hprev n hn r mem_cons_self
    rw [Vortex.applyRowRangesSelection, if_neg (by omega), if_neg (by omega), if_neg hany,
      ih ⟨hbounds, hpairwise⟩ (by simpa using hsorted)]
    rfl

end Ranges

namespace VortexPlanner

variable {p : VortexPlanner} {ms : List VortexCellMeta} {rowStart rowEnd : ℕ}

section

variable (h : ValidCells p.cellMetas p.rows) (hle : rowStart ≤ rowEnd) (hend : rowEnd ≤ p.rows)
include h hle hend

theorem selectCellIdsForRowRange_eq : p.selectCellIdsForRowRange rowStart rowEnd =
      .ok ((p.cellMetas.filter fun m => Meets rowStart rowEnd m).map (·.cellId)) := by
  rw [selectCellIdsForRowRange, if_neg (by omega)]
  obtain rfl | hlt := hle.eq_or_lt
  · rw [if_pos rfl, filter_meets_eq_nil, map_nil]
    intro m _
    unfold Meets
    omega
  · obtain ⟨hselect, hne⟩ := h.selectCells hlt hend
    rw [if_neg hlt.ne, hselect, if_neg (by simpa using hne)]

theorem buildReadRangesForCells_eq (hms : ms ⊆ p.cellMetas) :
    p.buildReadRangesForCells (ms.map (·.cellId)) rowStart rowEnd =
      .ok (ms.filterMap (rangeIn rowStart rowEnd)) := by
  have hmap : (ms.map (·.cellId)).mapM (readRangeOfCell p.cellMetas rowStart rowEnd) =
      .ok (ms.map (rangeIn rowStart rowEnd)) := by
    rw [mapM_map]
    exact mapM_eq_ok_map fun m hm => h.readRangeOfCell (hms hm)
  rw [buildReadRangesForCells, if_neg (by omega), hmap, ok_bind, pure_eq_ok]
  exact congrArg ok filterMap_map

end

/-- The plan that reads the rows of a range in these cells. -/
def rangePlan (rowStart rowEnd : ℕ) (predicate : String) (ms : List VortexCellMeta) :
    VortexPlan where
  cellIds := ms.map (·.cellId)
  readPlan := { op := .rangeScan (ms.filterMap (rangeIn rowStart rowEnd)), predicate }

section

variable (h : ValidCells p.cellMetas p.rows)

include h

theorem planForRowRange_of_prune {predicate : String} (hle : rowStart ≤ rowEnd)
    (hend : rowEnd ≤ p.rows) (hms : ms ⊆ p.cellMetas) (hprune : p.pruneCellsByPredicate
      ((p.cellMetas.filter fun m => Meets rowStart rowEnd m).map (·.cellId)) predicate =
        .ok (ms.map (·.cellId))) :
    p.planForRowRange rowStart rowEnd predicate = .ok (rangePlan rowStart rowEnd predicate ms) := by
  rw [planForRowRange, selectCellIdsForRowRange_eq h hle hend, ok_bind, hprune,
    ok_bind, buildReadRangesForCells_eq h hle hend hms]
  rfl

/-- **Range reads without a predicate** need the cells that meet the range. -/
theorem planForRowRange_eq (hle : rowStart ≤ rowEnd) (hend : rowEnd ≤ p.rows) :
    p.planForRowRange rowStart rowEnd = .ok (rangePlan rowStart rowEnd ""
      (p.cellMetas.filter fun m => Meets rowStart rowEnd m)) :=
  planForRowRange_of_prune h hle hend (filter_subset_self _) (if_pos (.inl rfl))

section

variable (hms : ms ⊆ p.cellMetas)
include hms

theorem candidateRowGroupIds_eq : candidateRowGroupIds p.cellMetas (ms.map (·.cellId)) =
      .ok (if ∀ m ∈ ms, m.granularity = .rowGroup then some (ms.map (·.physicalUnitIndex))
        else none) := by
  induction ms with
  | nil => simp [candidateRowGroupIds]
  | cons m ms ih =>
    obtain ⟨hm, hms⟩ := cons_subset.mp hms
    rw [map_cons, candidateRowGroupIds, h.getElem?_cellId hm, ih hms]
    by_cases hgroup : m.granularity = .rowGroup
    · simp only [hgroup, ne_eq, not_true_eq_false, if_false, ok_bind, pure_eq_ok]
      by_cases hgroups : ∀ m ∈ ms, m.granularity = .rowGroup
      · have hall : ∀ m' ∈ m :: ms, m'.granularity = .rowGroup :=
          forall_mem_cons.mpr ⟨hgroup, hgroups⟩
        rw [if_pos hgroups, if_pos hall]
        rfl
      · rw [if_neg hgroups, if_neg fun hall => hgroups (forall_mem_cons.mp hall).2]
        rfl
    · simp [hgroup]

theorem filter_cellIds (kept : List ℕ) : ((ms.map (·.cellId)).filter fun cellId =>
      p.cellMetas[cellId]?.any fun m => m.physicalUnitIndex ∈ kept) =
        (ms.filter fun m => m.physicalUnitIndex ∈ kept).map (·.cellId) := by
  rw [filter_map]
  congr 1
  refine filter_congr fun m hm => ?_
  simp [h.getElem?_cellId (hms hm)]

/-- **Pruning** keeps the cells whose row group is kept. -/
theorem pruneCellsByPredicate_eq {predicate : String} (hpred : predicate ≠ "") (hne : ms ≠ []) :
    p.pruneCellsByPredicate (ms.map (·.cellId)) predicate =
      if ∀ m ∈ ms, m.granularity = .rowGroup then do
        let kept ← p.footerReader.pruneRowGroups predicate (ms.map (·.physicalUnitIndex))
        return (ms.filter fun m => m.physicalUnitIndex ∈ kept).map (·.cellId)
      else .ok (ms.map (·.cellId)) := by
  rw [pruneCellsByPredicate, if_neg (by simp [hpred, hne]), candidateRowGroupIds_eq h hms, ok_bind]
  by_cases hgroups : ∀ m ∈ ms, m.granularity = .rowGroup
  · rw [if_pos hgroups, if_pos hgroups]
    simp only [filter_cellIds h hms]
  · rw [if_neg hgroups, if_neg hgroups]
    rfl

end

end

end VortexPlanner

/-! ## Takes -/

/-- The cell contains one of the rows. -/
def Holds (offsets : List ℤ) (m : VortexCellMeta) : Prop :=
  ∃ o ∈ offsets, (m.rowOffset : ℤ) ≤ o ∧ o < m.rowOffset + m.rowCount

instance (offsets : List ℤ) : DecidablePred (Holds offsets) :=
  fun _ => inferInstanceAs (Decidable (∃ _ ∈ _, _))

/-- The cells that contain one of the rows. -/
def cellsOf (offsets : List ℤ) (metas : List VortexCellMeta) : List ℕ :=
  (metas.filter fun m => Holds offsets m).map (·.cellId)

/-- What the cursor knows of the cells from the current one on. -/
structure OffsetCursor.Ok (c : OffsetCursor) (start rows : ℕ) : Prop where
  chained : Chained VortexCellMeta.rowOffset VortexCellMeta.rowCount start c.cells rows
  stop_eq : ∀ m ∈ c.cells, m.stop = m.rowOffset + m.rowCount
  ids : c.cells.Pairwise fun m m' => m.cellId < m'.cellId
  last : ∀ m ∈ c.cells.tail, c.cellIds.getLast? ≠ some m.cellId

section Offsets

variable {metas before after : List VortexCellMeta} {m : VortexCellMeta} {rows start : ℕ} {o : ℤ}
  {offsets : List ℤ} {c : OffsetCursor}

theorem holds_cons : Holds (o :: offsets) m ↔
    ((m.rowOffset : ℤ) ≤ o ∧ o < m.rowOffset + m.rowCount) ∨ Holds offsets m := by
  simp [Holds]

theorem cellsOf_cons_of_holds (h : Holds offsets m) :
    cellsOf offsets (m :: metas) = m.cellId :: cellsOf offsets metas := by
  simp [cellsOf, h]

theorem cellsOf_cons_of_not_holds (h : ¬Holds offsets m) :
    cellsOf offsets (m :: metas) = cellsOf offsets metas := by
  simp [cellsOf, h]

theorem exists_of_mem_cellsOf {id : ℕ} (h : id ∈ cellsOf offsets metas) :
    ∃ m ∈ metas, m.cellId = id := by
  obtain ⟨m, hm, rfl⟩ := mem_map.mp h
  exact ⟨m, (mem_filter.mp hm).1, rfl⟩

theorem cellsOf_append : cellsOf offsets (before ++ after) =
    cellsOf offsets before ++ cellsOf offsets after := by
  simp [cellsOf]

theorem cellsOf_eq_nil (h : ∀ m ∈ metas, ∀ o ∈ offsets, m.rowOffset + m.rowCount ≤ o ∨
    o < m.rowOffset) : cellsOf offsets metas = [] := by
  rw [cellsOf, map_eq_nil_iff, filter_eq_nil_iff]
  intro m hm hholds
  obtain ⟨o, ho, hmem⟩ := of_decide_eq_true hholds
  have := h m hm o ho
  omega

/-- The cells up to the one with the row are skipped. -/
theorem OffsetCursor.Ok.dropWhile (h : c.Ok start rows) {row : ℕ} (hstart : start ≤ row)
    (hrow : row < rows) :
    ∃ before m after, c.cells = before ++ m :: after ∧
      c.cells.dropWhile (fun m => m.stop ≤ row) = m :: after ∧
      (∀ m ∈ before, m.rowOffset + m.rowCount ≤ row) ∧
      m.rowOffset ≤ row ∧ row < m.rowOffset + m.rowCount := by
  obtain ⟨m, hm, hmem⟩ := h.chained.findIdx hstart hrow
    (p := fun m => !decide (m.stop ≤ row)) fun m hm => by
      rw [h.stop_eq m hm, ← decide_not, decide_eq_decide, not_le]
  set k := c.cells.findIdx fun m => !decide (m.stop ≤ row) with hk
  obtain ⟨hlt, rfl⟩ := List.getElem?_eq_some_iff.mp hm
  refine ⟨c.cells.take k, c.cells[k], c.cells.drop (k + 1), ?_, ?_, fun m hm => ?_, hmem⟩
  · rw [← drop_eq_getElem_cons hlt, take_append_drop]
  · rw [dropWhile_eq_drop_findIdx_not, ← hk, drop_eq_getElem_cons hlt]
  · obtain ⟨i, hi, rfl⟩ := mem_take_iff_getElem.mp hm
    have hnot := not_of_lt_findIdx (show i < _ by rw [← hk]; omega)
    rw [← h.stop_eq _ (getElem_mem _)]
    simpa using hnot

theorem getLast?_pushCell (cellIds : List ℕ) (cellId : ℕ) :
    (pushCell cellIds cellId).getLast? = some cellId := by
  rw [pushCell]
  split
  · assumption
  · rw [getLast?_concat]

theorem pushCell_append {cellIds ids : List ℕ} (cellId : ℕ)
    (h : ∀ id ∈ ids, cellIds.getLast? ≠ some id) :
    pushCell cellIds cellId ++ ids =
      cellIds ++ (cellId :: ids).filter fun id => cellIds.getLast? ≠ some id := by
  have hids : ids.filter (fun id => cellIds.getLast? ≠ some id) = ids :=
    filter_eq_self.mpr fun id hid => decide_eq_true (h id hid)
  by_cases hlast : cellIds.getLast? = some cellId
  · rw [pushCell, if_pos hlast, filter_cons_of_neg (by simp [hlast]), hids]
  · rw [pushCell, if_neg hlast, filter_cons_of_pos (by simpa using hlast), hids,
      append_assoc, singleton_append]

/-- One row of a take: its cell is selected, unless it was the last one that was. -/
theorem OffsetCursor.Ok.select (h : c.Ok start rows) (hrows : rows ≤ u64Max) (hstart : start ≤ o)
    (ho : o < rows) :
    ∃ before m after, c.cells = before ++ m :: after ∧
      (∀ m ∈ before, (m.rowOffset + m.rowCount : ℤ) ≤ o) ∧
      m.rowOffset ≤ o ∧ o < m.rowOffset + m.rowCount ∧
      c.select o = .ok { cells := m :: after, cellIds := pushCell c.cellIds m.cellId } := by
  have hrow : toUnsigned 64 o = o.toNat := by
    unfold toUnsigned u64Max at *
    omega
  obtain ⟨before, m, after, hcells, hdrop, hbefore, hmem⟩ := h.dropWhile
    (show start ≤ o.toNat by omega) (by omega)
  have hstop := h.stop_eq m (by simp [hcells])
  refine ⟨before, m, after, hcells, fun m hm => ?_, by omega, by omega, ?_⟩
  · have := hbefore m hm
    omega
  · rw [OffsetCursor.select, hrow]
    simp only [hdrop, hstop]
    rw [if_neg (not_not.mpr hmem)]

/-- The cells from the one of the first row on, for rows in order. -/
theorem cellsOf_cons (hchain : Chained VortexCellMeta.rowOffset VortexCellMeta.rowCount start
    (before ++ m :: after) rows) (hsorted : ∀ o' ∈ offsets, o < o')
    (hbefore : ∀ m ∈ before, (m.rowOffset + m.rowCount : ℤ) ≤ o) (hle : m.rowOffset ≤ o)
    (hlt : o < m.rowOffset + m.rowCount) :
    cellsOf (o :: offsets) (before ++ m :: after) = m.cellId :: cellsOf offsets after := by
  have hskip : cellsOf (o :: offsets) before = [] := cellsOf_eq_nil fun m' hm' o' ho' => by
    have := hbefore m' hm'
    obtain rfl | ho' := mem_cons.mp ho'
    · exact .inl this
    · exact .inl (this.trans (hsorted o' ho').le)
  have hafter : cellsOf (o :: offsets) after = cellsOf offsets after := by
    rw [cellsOf, cellsOf]
    congr 1
    refine filter_congr fun m' hm' => ?_
    have := (hchain.split.2.2.mem hm').1
    rw [decide_eq_decide, holds_cons, or_iff_right_iff_imp]
    omega
  have hholds : Holds (o :: offsets) m := holds_cons.mpr (.inl ⟨hle, hlt⟩)
  rw [cellsOf_append, hskip, nil_append, cellsOf_cons_of_holds hholds, hafter]

/-- **The loop over the rows of a take.** The cell that was selected last is not selected again. -/
theorem OffsetCursor.Ok.foldlM_select (h : c.Ok start rows) (hrows : rows ≤ u64Max)
    (hbounds : ∀ o ∈ offsets, start ≤ o ∧ o < rows) (hsorted : offsets.Pairwise (· < ·)) :
    ∃ c', offsets.foldlM OffsetCursor.select c = .ok c' ∧ c'.cellIds = c.cellIds ++
        (cellsOf offsets c.cells).filter fun id => c.cellIds.getLast? ≠ some id := by
  induction offsets generalizing c start with
  | nil => exact ⟨c, rfl, by simp [cellsOf, Holds]⟩
  | cons o offsets ih =>
    obtain ⟨⟨hstart, ho⟩, hbounds⟩ := forall_mem_cons.mp hbounds
    obtain ⟨hmin, hsorted⟩ := pairwise_cons.mp hsorted
    obtain ⟨before, m, after, hcells, hbefore, hle, hlt, hselect⟩ := h.select hrows hstart ho
    have hchain := hcells ▸ h.chained
    have hids : (m :: after).Pairwise fun m m' => m.cellId < m'.cellId :=
      (pairwise_append.mp (hcells ▸ h.ids)).2.1
    have hgt := (pairwise_cons.mp hids).1
    have hnext : OffsetCursor.Ok { cells := m :: after, cellIds := pushCell c.cellIds m.cellId }
        m.rowOffset rows := by
      refine ⟨hchain.split.2, fun m' hm' => h.stop_eq m' ?_, hids, fun m' hm' => ?_⟩
      · rw [hcells]
        exact mem_append_right _ hm'
      · rw [getLast?_pushCell, ne_eq, Option.some.injEq]
        exact (hgt m' hm').ne
    obtain ⟨c', hc', hcellIds⟩ := ih hnext
      (fun o' ho' => ⟨hle.trans (hmin o' ho').le, (hbounds o' ho').2⟩) hsorted
    refine ⟨c', by rw [foldlM_cons, hselect, ok_bind, hc'], ?_⟩
    -- the cells after the current one have larger numbers
    have hafter : (cellsOf offsets (m :: after)).filter (fun id => some m.cellId ≠ some id) =
        cellsOf offsets after := by
      have hkeep : (cellsOf offsets after).filter (fun id => some m.cellId ≠ some id) =
          cellsOf offsets after := by
        refine filter_eq_self.mpr fun id hid => ?_
        obtain ⟨m', hm', rfl⟩ := exists_of_mem_cellsOf hid
        simpa using (hgt m' hm').ne
      by_cases hholds : Holds offsets m
      · rw [cellsOf_cons_of_holds hholds, filter_cons_of_neg (by simp), hkeep]
      · rw [cellsOf_cons_of_not_holds hholds, hkeep]
    have hlast : ∀ id ∈ cellsOf offsets after, c.cellIds.getLast? ≠ some id := by
      intro id hid
      obtain ⟨m', hm', rfl⟩ := exists_of_mem_cellsOf hid
      apply h.last m'
      rw [hcells]
      cases before with
      | nil => exact hm'
      | cons => exact mem_append_right _ (mem_cons_of_mem _ hm')
    simp only [getLast?_pushCell] at hcellIds
    rw [hcellIds, hafter, hcells, cellsOf_cons hchain hmin hbefore hle hlt,
      pushCell_append m.cellId hlast]

theorem validateSortedUniqueOffsets_eq {i : ℕ} {previous : Option ℤ} (hrows : rows ≤ u64Max)
    (hbounds : ∀ o ∈ offsets, 0 ≤ o ∧ o < rows) (hsorted : offsets.Pairwise (· < ·))
    (hprev : ∀ last ∈ previous, ∀ o ∈ offsets, last < o) :
    validateSortedUniqueOffsets rows i previous offsets = .ok () := by
  induction offsets generalizing i previous with
  | nil => rfl
  | cons o offsets ih =>
    obtain ⟨ho, hbounds⟩ := forall_mem_cons.mp hbounds
    obtain ⟨hmin, hsorted⟩ := pairwise_cons.mp hsorted
    have ih : ∀ i, validateSortedUniqueOffsets rows i (some o) offsets = .ok () := fun i =>
      ih hbounds hsorted (by simpa using hmin)
    have hrow : ¬(o < 0 ∨ rows ≤ toUnsigned 64 o) := by
      unfold toUnsigned u64Max at *
      omega
    cases previous with
    | none => rw [validateSortedUniqueOffsets, if_neg hrow, ih]
    | some last =>
      have := hprev last rfl o mem_cons_self
      rw [validateSortedUniqueOffsets, if_neg hrow, if_neg (not_le.mpr this), ih]

theorem ValidCells.cursor_ok (h : ValidCells metas rows) :
    OffsetCursor.Ok { cells := metas } 0 rows := by
  refine ⟨h.chained, fun m hm => (h.stop_eq hm).1, ?_, by simp⟩
  rw [pairwise_iff_getElem]
  intro i j hi hj hlt
  rwa [h.cellId_eq i _ (getElem?_eq_getElem hi), h.cellId_eq j _ (getElem?_eq_getElem hj)]

end Offsets

namespace VortexPlanner

variable {p : VortexPlanner} {offsets : List ℤ}

section

variable (h : ValidCells p.cellMetas p.rows) (hsorted : offsets.Pairwise (· < ·))
  (hbounds : ∀ o ∈ offsets, 0 ≤ o ∧ o < p.rows)
include h hsorted hbounds

/-- **Takes** need the cells that contain one of the rows. -/
theorem selectCellIdsForOffsets_eq :
    p.selectCellIdsForOffsets offsets = .ok (cellsOf offsets p.cellMetas) := by
  rw [selectCellIdsForOffsets]
  by_cases hnil : offsets = []
  · subst hnil
    rw [cellsOf_eq_nil (by simp)]
    rfl
  · obtain ⟨c, hc, hcellIds⟩ := h.cursor_ok.foldlM_select h.rows_le (by simpa using hbounds) hsorted
    rw [if_neg (by simpa using hnil),
      validateSortedUniqueOffsets_eq h.rows_le hbounds hsorted (by simp), ok_bind, hc,
      ok_bind, hcellIds]
    simp [pure, Except.pure]

theorem planForOffsets_eq : ∃ ranges, p.planForOffsets offsets = .ok {
      cellIds := cellsOf offsets p.cellMetas
      readPlan := { op := .take offsets ranges, applyPredicate := false } } := by
  rw [planForOffsets, selectCellIdsForOffsets_eq h hsorted hbounds, ok_bind, cellsOf,
    buildReadRangesForCells_eq h (Nat.zero_le _) (le_rfl) (filter_subset_self _)]
  exact ⟨_, rfl⟩

end

variable {footerReader : VortexFooterReader} {fieldName : String} {metas : List VortexCellMeta}

theorem makeNamed_eq (h : ValidCells metas footerReader.rows)
    (hbytes : (metas.map fun m => max m.memoryBytes m.storageBytes).sum ≤ u64Max) :
    makeNamed footerReader fieldName metas = .ok {
      footerReader, fieldName, rows := footerReader.rows, cellMetas := metas,
      memoryBytes := (metas.map fun m => max m.memoryBytes m.storageBytes).sum } := by
  simp [makeNamed, validateCellMetasReady_iff.mpr h, ok_bind, sumCellBytes, checkedSum_eq hbytes]

theorem makeNamed_ok (h : makeNamed footerReader fieldName metas = .ok p) :
    p.footerReader = footerReader ∧ p.rows = footerReader.rows ∧ p.cellMetas = metas := by
  obtain ⟨_, -, h⟩ := bind_eq_ok.mp h
  obtain ⟨_, -, h⟩ := bind_eq_ok.mp h
  cases h
  exact ⟨rfl, rfl, rfl⟩

end VortexPlanner

/-! ## Planners of cells that are built -/

/-- The planner is one of these cells. -/
def Made (footerReader : VortexFooterReader) (metas : List VortexCellMeta) (p : VortexPlanner) :
    Prop :=
  (∃ fieldName, VortexPlanner.make footerReader fieldName metas = .ok p) ∨
    VortexPlanner.makeGroup footerReader metas = .ok p

open VortexPlanner

theorem Made.eq {footerReader : VortexFooterReader} {metas : List VortexCellMeta}
    {p : VortexPlanner} (h : Made footerReader metas p) :
    p.footerReader = footerReader ∧ p.rows = footerReader.rows ∧ p.cellMetas = metas := by
  obtain ⟨_, h⟩ | h := h
  · exact makeNamed_ok h
  · exact makeNamed_ok h

variable {sort : List VortexCellMeta → List VortexCellMeta} {footerReader : VortexFooterReader}
  {metas : List VortexCellMeta}

/-- With a predicate the cells that meet the range remain whose row group is kept, or all of them if
they are not row groups. -/
def Pruned (p : VortexPlanner) (metas : List VortexCellMeta) (rowStart rowEnd : ℕ)
    (predicate : String) : Prop :=
  let candidates := metas.filter fun m => Meets rowStart rowEnd m
  ((∀ m ∈ metas, m.granularity = .rowGroup) ∧
    ∀ kept, p.footerReader.pruneRowGroups predicate (candidates.map (·.physicalUnitIndex)) =
      .ok kept → p.planForRowRange rowStart rowEnd predicate = .ok (rangePlan rowStart rowEnd
        predicate (candidates.filter fun m => m.physicalUnitIndex ∈ kept))) ∨
  ((∀ m ∈ metas, m.granularity ≠ .rowGroup) ∧ p.planForRowRange rowStart rowEnd predicate =
      .ok (rangePlan rowStart rowEnd predicate candidates))

theorem planForRowRange_pruned {p : VortexPlanner} (h : ValidCells p.cellMetas p.rows)
    (huniform : Uniform p.cellMetas) {rowStart rowEnd : ℕ} (hle : rowStart ≤ rowEnd)
    (hend : rowEnd ≤ p.rows) {predicate : String} (hpred : predicate ≠ "") :
    Pruned p p.cellMetas rowStart rowEnd predicate := by
  have hsub : p.cellMetas.filter (fun m => Meets rowStart rowEnd m) ⊆ p.cellMetas :=
    filter_subset_self _
  obtain ⟨granularity, huniform⟩ := huniform
  by_cases hgroup : granularity = .rowGroup
  · subst hgroup
    refine .inl ⟨huniform, fun kept hkept => planForRowRange_of_prune h hle hend
      (fun m hm => hsub (filter_subset_self _ hm)) ?_⟩
    by_cases hnil : p.cellMetas.filter (fun m => Meets rowStart rowEnd m) = []
    · rw [hnil]
      exact if_pos (.inr rfl)
    · rw [pruneCellsByPredicate_eq h hsub hpred hnil,
        if_pos fun m hm => huniform m (hsub hm), hkept]
      rfl
  · have hne : ∀ m ∈ p.cellMetas, m.granularity ≠ .rowGroup := fun m hm hm' =>
      hgroup ((huniform m hm).symm.trans hm')
    refine .inr ⟨hne, planForRowRange_of_prune h hle hend hsub ?_⟩
    cases hms : p.cellMetas.filter (fun m => Meets rowStart rowEnd m) with
    | nil => exact if_pos (.inr rfl)
    | cons m ms =>
      rw [hms] at hsub
      obtain ⟨hm, -⟩ := cons_subset.mp hsub
      rw [pruneCellsByPredicate_eq h hsub hpred (by simp),
        if_neg fun hall => hne m hm (hall m mem_cons_self)]

/-- **The planner reads exactly the rows that are needed.** -/
theorem planner_reads_needed_rows (hsort : ∀ l, (sort l).Perm l)
    (hbuilt : Built sort footerReader metas) :
    (∀ (i : ℕ) (m : VortexCellMeta), metas[i]? = some m → m.cellId = i) ∧
    Chained VortexCellMeta.rowOffset VortexCellMeta.rowCount 0 metas footerReader.rows ∧
    (metas.Pairwise fun m m' => m.flatSegmentIds.Disjoint m'.flatSegmentIds) ∧
    ((metas.map fun m => max m.memoryBytes m.storageBytes).sum ≤ u64Max →
      (∀ fieldName, ∃ p, VortexPlanner.make footerReader fieldName metas = .ok p) ∧
        ∃ p, VortexPlanner.makeGroup footerReader metas = .ok p) ∧
    ∀ p, Made footerReader metas p →
      (∀ rowStart rowEnd, rowStart ≤ rowEnd → rowEnd ≤ footerReader.rows →
        (∃ ranges, p.planForRowRange rowStart rowEnd = .ok {
            cellIds := (metas.filter fun m => Meets rowStart rowEnd m).map (·.cellId)
            readPlan := { op := .rangeScan ranges } } ∧
          Tiles RowRange.start RowRange.size rowStart ranges rowEnd ∧
          applyRowRangesSelection footerReader.rows none ranges = .ok ranges) ∧
        ∀ predicate, predicate ≠ "" → Pruned p metas rowStart rowEnd predicate) ∧
      ∀ offsets : List ℤ, offsets.Pairwise (· < ·) →
        (∀ o ∈ offsets, 0 ≤ o ∧ o < footerReader.rows) →
        ∃ ranges, p.planForOffsets offsets = .ok {
          cellIds := cellsOf offsets metas
          readPlan := { op := .take offsets ranges, applyPredicate := false } } := by
  have hvalid := hbuilt.valid hsort
  have huniform := hbuilt.uniform hsort
  refine ⟨hvalid.cellId_eq, hvalid.chained, (nodup_flatMap.mp hvalid.nodup).2, fun hbytes =>
    ⟨fun fieldName => ⟨_, makeNamed_eq hvalid hbytes⟩, _, makeNamed_eq hvalid hbytes⟩,
    fun p hp => ?_⟩
  obtain ⟨-, hrows, hmetas⟩ := hp.eq
  subst hmetas
  rw [← hrows] at hvalid ⊢
  refine ⟨fun rowStart rowEnd hle hend => ⟨⟨_, planForRowRange_eq hvalid hle hend, ?_, ?_⟩,
    fun predicate => planForRowRange_pruned hvalid huniform hle hend⟩,
    fun offsets hsorted hbounds => planForOffsets_eq hvalid hsorted hbounds⟩
  · rw [filterMap_filter_meets]
    exact hvalid.tiles hle hend
  · exact (hvalid.scannable filter_sublist).applyRowRangesSelection (by simp)

/-- A footer with two fields and two row groups, which are listed out of order. -/
def twoFieldsFooter : VortexFooterReader where
  path := "a.vx"
  rows := 5
  getFieldLayout fieldName := .ok {
    granularity := .rowGroup
    rowGroups := [
      { physicalUnitIndex := 1, rowOffset := 3, rowCount := 2,
        flatSegments := [⟨if fieldName = "x" then 2 else 3, ⟨20, 5⟩⟩] },
      { physicalUnitIndex := 0, rowOffset := 0, rowCount := 3, flatSegments := [⟨0, ⟨0, 10⟩⟩] }] }
  pruneRowGroups _ ids := .ok (ids.filter (· ≠ 0))

def twoFieldsCells : List VortexCellMeta := [
  { cellId := 0, granularity := .rowGroup, physicalUnitIndex := 0, rowOffset := 0, rowCount := 3,
    flatSegmentIds := [0], flatSegmentRanges := [⟨0, 10⟩], memoryBytes := 10, storageBytes := 10 },
  { cellId := 1, granularity := .rowGroup, physicalUnitIndex := 1, rowOffset := 3, rowCount := 2,
    flatSegmentIds := [2, 3], flatSegmentRanges := [⟨20, 5⟩, ⟨20, 5⟩], memoryBytes := 10,
    storageBytes := 10 }]

theorem planner_reads_needed_rows_twoFields :
    Chained VortexCellMeta.rowOffset VortexCellMeta.rowCount 0 twoFieldsCells 5 ∧
      ∃ p, VortexPlanner.makeGroup twoFieldsFooter twoFieldsCells = .ok p ∧
        ∃ ranges, p.planForRowRange 2 4 = .ok {
          cellIds := [0, 1], readPlan := { op := .rangeScan ranges } } := by
  have hbuilt : Built sortByRowOffset twoFieldsFooter twoFieldsCells :=
    .inr ⟨["x", "y"], by decide⟩
  obtain ⟨-, hchain, -, hmade, hplans⟩ :=
    planner_reads_needed_rows (fun l => perm_insertionSort _ l) hbuilt
  obtain ⟨-, p, hp⟩ := hmade (by decide)
  obtain ⟨⟨ranges, hranges, -⟩, -⟩ := (hplans p (.inr hp)).1 2 4 (by decide) (by decide)
  exact ⟨hchain, p, hp, ranges, hranges⟩

end MilvusStorage.Vortex
