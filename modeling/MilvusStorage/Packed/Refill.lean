import MilvusStorage.Packed.Planning
import MilvusStorage.Packed.Slices

/-!
# Refilling the buffer

What a call of `advanceBuffer` does to the queues when no read fails. The cells of a column that are
queued are always those of the planned row groups from the row position on (`Consistent`). A refill
queues a table with the row groups it has planned for a file, and so keeps this, as long as the
chunk states it resets are at the start of their tables.

At the end of the data a refill plans nothing (`advanceBuffer_drained`); before it, the row limit
moves beyond the row position (`advanceBuffer_refilled`).
-/

namespace MilvusStorage.Packed

open List Function

variable {V : Type}

/-! ## Queues that grow -/

theorem queued_append {q : List (Table V)} {c : ChunkState} {j : ℕ} (h : Fits q c j)
    (new : List (Table V)) : queued (q ++ new) c j = queued q c j ++ tableCells new j := by
  cases q with
  | nil =>
    obtain rfl : c = {} := h
    exact queued_zero new j
  | cons t ts =>
    simp [cons_append, queued, tableCells]

theorem Fits.append {q new : List (Table V)} {c : ChunkState} {n j : ℕ} (h : Fits q c j)
    (hnew : ∀ t ∈ new, t.Regular n) (hj : j < n) : Fits (q ++ new) c j := by
  cases q with
  | nil =>
    obtain rfl : c = {} := h
    exact fits_zero hnew hj
  | cons t ts => exact h

/-- The row groups from one on. -/
theorem selected_range' (rowGroups : List (RowGroup V)) (n m : ℕ) :
    selected rowGroups (List.range' n m) = ((rowGroups.map RowGroup.content).drop n).take m := by
  induction m generalizing n with
  | zero => rfl
  | succ m ih =>
    rw [range'_succ, selected]
    cases hg : rowGroups[n]? with
    | none =>
      have hle := getElem?_eq_none_iff.mp hg
      rw [filterMap_cons_none (by rw [hg]; rfl), ← selected, ih,
        drop_eq_nil_of_le (by rw [length_map]; omega),
        drop_eq_nil_of_le (by rw [length_map]; omega), take_nil, take_nil]
    | some g =>
      obtain ⟨hlt, rfl⟩ := List.getElem?_eq_some_iff.mp hg
      have hlt' : n < (rowGroups.map RowGroup.content).length := by rwa [length_map]
      rw [filterMap_cons_some (by rw [hg]; rfl), ← selected, ih,
        drop_eq_getElem_cons hlt', take_succ_cons, getElem_map]

theorem rows_take_le (q : List (RecordBatch V)) (n : ℕ) : rows (q.take n) ≤ rows q := by
  conv_rhs => rw [← take_append_drop n q, rows_append]
  exact Nat.le_add_right ..

namespace PackedReader

variable {R : PackedReader V} {heap : RowOffsetMinHeap} {S : State V}

/-! ## Reading what is planned -/

variable (R) in
/-- The table that a refill queues for a file. -/
def newTables (P : Plan) (i : ℕ) : List (Table V) :=
  if P.rgsToRead i = [] then []
  else (R.fileReaders[i]?.map fun f => f.readRowGroups (P.rgsToRead i)).toList

theorem tables_pushTable_of_ne {p p' : ℕ} (h : p' ≠ p) (new : List (Table V)) :
    (pushTable S p new).tables p' = S.tables p' := update_of_ne h ..

/-- Each path gets the table of its file. -/
theorem readTables_ok (hv : R.Valid) (P : Plan) {is : List ℕ} (hnodup : is.Nodup)
    (hsize : ∀ i ∈ is, i < R.size) (S : State V) :
    ∃ T, R.readTables .noFailure P is S = ({ S with tables := T }, none) ∧
      (∀ i ∈ is, T (R.pathIndex i) = S.tables (R.pathIndex i) ++ R.newTables P i) ∧
      ∀ p, (∀ i ∈ is, R.pathIndex i ≠ p) → T p = S.tables p := by
  induction is generalizing S with
  | nil => exact ⟨S.tables, rfl, forall_mem_nil _, fun _ _ => rfl⟩
  | cons i is ih =>
    obtain ⟨hi, hnodup⟩ := nodup_cons.mp hnodup
    obtain ⟨hsizei, hsize⟩ := forall_mem_cons.mp hsize
    -- a file without planned row groups adds no table
    have hstep : R.readTables .noFailure P (i :: is) S =
        R.readTables .noFailure P is (pushTable S (R.pathIndex i) (R.newTables P i)) := by
      rw [readTables, newTables]
      split_ifs
      · rw [pushTable, append_nil, update_eq_self]
      · rfl
    obtain ⟨T, hT, hnew, hframe⟩ := ih hnodup hsize _
    have hne : ∀ j ∈ is, R.pathIndex j ≠ R.pathIndex i := by
      intro j hj heq
      exact hi (hv.pathIndex_injective j (hsize j hj) i hsizei heq ▸ hj)
    refine ⟨T, hstep.trans hT, forall_mem_cons.mpr ⟨?_, fun j hj => ?_⟩, fun p hp => ?_⟩
    · rw [hframe _ hne]
      exact update_self ..
    · rw [hnew j hj, tables_pushTable_of_ne (hne j hj)]
    · obtain ⟨hpi, hp⟩ := forall_mem_cons.mp hp
      rw [hframe p hp, tables_pushTable_of_ne hpi.symm]

/-! ## The queues of a consistent state -/

variable (R) in
def numColumns (i : ℕ) : ℕ :=
  match R.fileReaders[i]? with
  | some f => f.numColumns
  | none => 0

variable (R) in
/-- The files have `total` rows each, and the needed columns. -/
structure Aligned (total : ℕ) : Prop where
  valid : R.Valid
  size_pos : 0 < R.size
  regular : ∀ f ∈ R.fileReaders, f.Regular
  rows_whole : ∀ i < R.size, rows (R.whole i) = total
  total_lt : total < 2 ^ 31
  colIndex_lt : ∀ o ∈ R.neededColumnOffsets, ∀ i < R.size, R.pathIndex i = o.pathIndex →
    o.colIndex < R.numColumns i

variable (R) in
/-- What is queued are the planned row groups from the row position on. -/
structure Consistent (S : State V) : Prop where
  counted : R.Counted S
  position_le : (S.absoluteRowPosition : ℤ) ≤ S.rowLimit
  rowLimit_le : ∀ i < R.size, S.rowLimit ≤ (S.columnGroupStates i).rowOffset
  regular : ∀ i < R.size, ∀ t ∈ S.tables (R.pathIndex i), t.Regular (R.numColumns i)
  fits : ∀ (k : ℕ) o i, R.neededColumnOffsets[k]? = some o → i < R.size →
    R.pathIndex i = o.pathIndex → Fits (S.tables o.pathIndex) (S.chunkStates k) o.colIndex
  queued_eq : ∀ (k : ℕ) o i, R.neededColumnOffsets[k]? = some o → i < R.size →
    R.pathIndex i = o.pathIndex → queued (S.tables o.pathIndex) (S.chunkStates k) o.colIndex =
      (cells ((R.whole i).take (S.columnGroupStates i).nextRowGroup) o.colIndex).drop
        S.absoluteRowPosition

section Aligned

variable {total : ℕ} {i : ℕ} {P : Plan}

theorem exists_file (hi : i < R.size) : ∃ f, R.fileReaders[i]? = some f ∧
    f ∈ R.fileReaders ∧ R.rowGroups i = f.rowGroups ∧ R.numColumns i = f.numColumns := by
  have hf : R.fileReaders[i]? = some _ := getElem?_eq_getElem hi
  refine ⟨_, hf, mem_of_getElem? hf, ?_, ?_⟩
  · simp [rowGroups, hf]
  · simp [numColumns, hf]

theorem Aligned.regularRowGroups (ha : R.Aligned total) : R.RegularRowGroups := by
  intro i g hg
  by_cases hi : i < R.size
  · obtain ⟨f, -, hmem, hgroups, -⟩ := exists_file hi
    rw [hgroups] at hg
    exact ⟨(ha.regular f hmem).numRows_pos g hg, (ha.regular f hmem).memorySize_lt g hg⟩
  · have hnone : R.fileReaders[i]? = none := getElem?_eq_none (not_lt.mp hi)
    simp only [rowGroups, hnone] at hg
    cases hg

theorem Aligned.rowOffset_le (ha : R.Aligned total) (hc : R.Counted S) (hi : i < R.size) :
    (S.columnGroupStates i).rowOffset ≤ total := by
  rw [(hc i).2, ← ha.rows_whole i hi]
  exact rows_take_le ..

/-- A file whose row groups are all planned has all its rows planned. -/
theorem Aligned.rowOffset_eq (ha : R.Aligned total) (hc : R.Counted S) (hi : i < R.size)
    (hend : (R.rowGroups i).length ≤ (S.columnGroupStates i).nextRowGroup) :
    (S.columnGroupStates i).rowOffset = total := by
  rw [(hc i).2, ← ha.rows_whole i hi, take_of_length_le]
  rwa [whole, length_map]

/-- The columns of a file have all its rows. -/
theorem length_cells_take {j : ℕ} (hi : i < R.size) (hj : j < R.numColumns i) (n : ℕ) :
    (cells ((R.whole i).take n) j).length = rows ((R.whole i).take n) := by
  obtain ⟨f, -, -, hgroups, hnum⟩ := exists_file hi
  have hwidth : ∀ b ∈ (R.whole i).take n, j < b.columns.length := by
    intro b hb
    obtain ⟨g, hg, rfl⟩ := mem_map.mp (mem_of_mem_take hb)
    rwa [f.width g (hgroups ▸ hg), ← hnum]
  generalize (R.whole i).take n = q at hwidth
  induction q with
  | nil => rfl
  | cons b q ih =>
    obtain ⟨hb, hq⟩ := forall_mem_cons.mp hwidth
    rw [cells_cons, rows_cons, length_append, RecordBatch.length_column hb, ih hq]

/-- As many cells of a column are queued as there are planned rows from the row position on. -/
theorem Consistent.length_queued (ha : R.Aligned total) (h : R.Consistent S) {k : ℕ}
    {o : ColumnOffset} (hk : R.neededColumnOffsets[k]? = some o) (hi : i < R.size)
    (hpath : R.pathIndex i = o.pathIndex) :
    (queued (S.tables o.pathIndex) (S.chunkStates k) o.colIndex).length =
      (S.columnGroupStates i).rowOffset - S.absoluteRowPosition := by
  have hlt := ha.colIndex_lt o (mem_of_getElem? hk) i hi hpath
  rw [h.queued_eq k o i hk hi hpath, length_drop, length_cells_take hi hlt, ← (h.counted i).2]

/-! ## The table of a refill -/

/-- The new table holds the planned row groups. -/
theorem tableCells_newTables (hi : i < R.size) {n m : ℕ} (hrgs : P.rgsToRead i = List.range' n m)
    (j : ℕ) :
    tableCells (R.newTables P i) j = cells (((R.whole i).drop n).take m) j := by
  obtain ⟨f, hf, -, hgroups, -⟩ := exists_file hi
  rw [whole, hgroups, ← selected_range', ← hrgs, newTables]
  split_ifs with hnil
  · rw [hnil]
    rfl
  · rw [hf, Option.map_some, Option.toList_some, tableCells, flatMap_singleton]
    exact f.flatten_chunks_readRowGroups _ j

theorem regular_newTables (ha : R.Aligned total) (hi : i < R.size) {n m : ℕ}
    (hrgs : P.rgsToRead i = List.range' n m) (hle : n + m ≤ (R.rowGroups i).length) :
    ∀ t ∈ R.newTables P i, t.Regular (R.numColumns i) := by
  obtain ⟨f, hf, hmem, hgroups, hnum⟩ := exists_file hi
  have hreg := ha.regular f hmem
  intro t ht
  rw [newTables] at ht
  split_ifs at ht with hnil
  · cases ht
  rw [hf, Option.map_some, Option.toList_some] at ht
  obtain rfl := mem_singleton.mp ht
  refine ⟨?_, ?_, fun j => hreg.getLast?_ne _ j⟩
  · -- the first of the row groups has rows
    rw [f.numRows_readRowGroups, hrgs, selected_range']
    obtain ⟨m, rfl⟩ : ∃ m', m = m' + 1 := by
      apply Nat.exists_eq_succ_of_ne_zero
      rintro rfl
      exact hnil hrgs
    rw [hgroups] at hle
    have hlt : n < (f.rowGroups.map RowGroup.content).length := by
      rw [length_map]
      omega
    rw [drop_eq_getElem_cons hlt, take_succ_cons, rows_cons, getElem_map]
    have := hreg.numRows_pos _ (getElem_mem (by omega : n < f.rowGroups.length))
    omega
  · rw [f.length_columns_readRowGroups, hnum]

theorem Consistent.position_le_rowOffset (h : R.Consistent S) (hi : i < R.size) :
    S.absoluteRowPosition ≤ (S.columnGroupStates i).rowOffset := by
  have := h.position_le
  have := h.rowLimit_le i hi
  omega

/-- Queueing the tables of the planned row groups. -/
theorem Consistent.refilled (ha : R.Aligned total) (h : R.Consistent S) {S1 S2 : State V}
    (hplan : R.Planned S {} S1 P) (hgroups : S2.columnGroupStates = S1.columnGroupStates)
    (hstates : S2.chunkStates = S.chunkStates) (htables : ∀ i < R.size,
      S2.tables (R.pathIndex i) = S.tables (R.pathIndex i) ++ R.newTables P i)
    (hposition : S2.absoluteRowPosition = S.absoluteRowPosition)
    (hpos : (S.absoluteRowPosition : ℤ) ≤ S2.rowLimit)
    (hlimit : ∀ i < R.size, S2.rowLimit ≤ (S2.columnGroupStates i).rowOffset) :
    R.Consistent S2 := by
  have hcounted := hplan.counted h.counted
  have hnew : ∀ i < R.size, ∀ t ∈ R.newTables P i, t.Regular (R.numColumns i) := by
    intro i hi
    have hle := hplan.nextRowGroup_le i
    have hbound := (hcounted i).1
    exact regular_newTables ha hi (hplan.rgsToRead_eq i) (by omega)
  refine ⟨?_, hposition ▸ hpos, hlimit, fun i hi t ht => ?_, fun k o i hk hi hpath => ?_,
    fun k o i hk hi hpath => ?_⟩
  · intro i
    rw [hgroups]
    exact hcounted i
  · rw [htables i hi] at ht
    obtain ht | ht := mem_append.mp ht
    · exact h.regular i hi t ht
    · exact hnew i hi t ht
  all_goals
    have hfits := h.fits k o i hk hi hpath
    have hlt := ha.colIndex_lt o (mem_of_getElem? hk) i hi hpath
    rw [← hpath] at hfits
    rw [← hpath, htables i hi, hstates]
  · exact hfits.append (hnew i hi) hlt
  · have hle := hplan.nextRowGroup_le i
    have hqueued := h.queued_eq k o i hk hi hpath
    have hlen := length_cells_take hi hlt (S.columnGroupStates i).nextRowGroup
    have hpos' := h.position_le_rowOffset hi
    rw [← hpath] at hqueued
    rw [(h.counted i).2, ← hlen] at hpos'
    rw [queued_append hfits, hqueued, tableCells_newTables hi (hplan.rgsToRead_eq i), hposition,
      hgroups, ← drop_append_of_le_length hpos', ← cells_append, ← take_add,
      Nat.add_sub_cancel' hle]

/-! ## `advanceBuffer` -/

theorem Consistent.releaseMemory (h : R.Consistent S) (i : ℕ) :
    R.Consistent (releaseMemory i S) := by
  have hgroups := fun j => releaseMemory_columnGroupStates i j S
  refine ⟨(Planned.releaseMemory i S {}).counted h.counted, h.position_le, fun j hj => ?_,
    h.regular, h.fits, fun k o j hk hj hpath => ?_⟩
  · rw [(hgroups j).2]
    exact h.rowLimit_le j hj
  · rw [(hgroups j).1]
    exact h.queued_eq k o j hk hj hpath

/-- At the end of the data, the first file has no row groups and nothing is planned. -/
theorem advanceBuffer_drained (ha : R.Aligned total) (h : R.Consistent S)
    (hend : S.rowLimit = total) :
    R.advanceBuffer heap .noFailure S = (PackedReader.releaseMemory 0 S, none) := by
  obtain ⟨n, hn⟩ := Nat.exists_eq_succ_of_ne_zero ha.size_pos.ne'
  have hlimit := h.rowLimit_le 0 ha.size_pos
  have hle := ha.rowOffset_le h.counted ha.size_pos
  have hfill : R.fillTables (range R.size) S {} =
      (PackedReader.releaseMemory 0 S, {}, some 0) := by
    rw [hn, range_succ_eq_map]
    obtain ⟨-, hstep⟩ | ⟨S', P', -, hplan, hoff, -⟩ :=
      fillTables_step ha.regularRowGroups 0 ((range n).map Nat.succ) S {} (by omega)
    · exact hstep
    · have := ha.rowOffset_le (hplan.counted h.counted) ha.size_pos
      omega
  simp [advanceBuffer, hfill]

/-- The top of the heap is the smallest row offset. -/
theorem HeapOf.top_eq (heap : RowOffsetMinHeap) (ha : R.Aligned total) (hc : R.Counted S)
    {sortedOffsets : List (ℕ × ℤ)} (h : R.HeapOf S sortedOffsets) : sortedOffsets ≠ [] ∧
      (∃ i < R.size, (heap.top sortedOffsets).2 = (S.columnGroupStates i).rowOffset) ∧
      ∀ i < R.size, (heap.top sortedOffsets).2 ≤ (S.columnGroupStates i).rowOffset := by
  have hentry : ∀ i < R.size, (heapEntry S i).2 = (S.columnGroupStates i).rowOffset := by
    intro i hi
    have := ha.rowOffset_le hc hi
    have := ha.total_lt
    have hlt : (S.columnGroupStates i).rowOffset * 2 < 2 ^ 32 := by omega
    rw [heapEntry, toSigned_of_lt hlt]
  have hmem : ∀ i < R.size, heapEntry S i ∈ sortedOffsets :=
    fun i hi => h.mem_iff.mpr (mem_map_of_mem (mem_range.mpr hi))
  have hne : sortedOffsets ≠ [] := ne_nil_of_mem (hmem 0 ha.size_pos)
  refine ⟨hne, ?_, fun i hi => ?_⟩
  · obtain ⟨i, hi, htop⟩ := mem_map.mp (h.mem_iff.mp (heap.top_mem _ hne))
    have hi := mem_range.mp hi
    exact ⟨i, hi, by rw [← htop, hentry i hi]⟩
  · rw [← hentry i hi]
    exact heap.top_le _ _ (hmem i hi)

/-- **Before the end of the data**, a refill moves the row limit beyond the row position. -/
theorem advanceBuffer_refilled (heap : RowOffsetMinHeap) (ha : R.Aligned total)
    (h : R.Consistent S) (hdue : refillDue S = true) (hreset : R.ResetHarmless S)
    (hend : S.rowLimit < total) :
    ∃ S', R.advanceBuffer heap .noFailure S = (S', none) ∧ R.Consistent S' ∧
      S'.absoluteRowPosition = S.absoluteRowPosition ∧ refillDue S' = false := by
  have hdue' : S.rowLimit ≤ S.absoluteRowPosition := of_decide_eq_true hdue
  rcases hfill : R.fillTables (range R.size) S {} with ⟨S1, P1, d⟩
  obtain ⟨hplanned1, hfillEnd⟩ := fillTables_spec ha.regularRowGroups
    (fun i hi => h.rowLimit_le i (mem_range.mp hi)) hfill
  have hstates1 := fillTables_chunkStates ha.regularRowGroups
    (fun i hi => hreset hdue i (mem_range.mp hi)) hfill
  cases hfillEnd with
  | drained i hi hle hlen =>
    -- a file that has ended has no rows beyond the limit only at the end of the data
    have := ha.rowOffset_eq (hplanned1.counted h.counted) (mem_range.mp hi) hlen
    have := hplanned1.rowLimit_eq
    omega
  | filled hfilled =>
    rcases hbuffer : R.fillBuffer heap R.bufferFuel ((range R.size).map (heapEntry S1)) S1 P1
      with ⟨sortedOffsets, S2, P2⟩
    obtain ⟨hheap, hplanned2, hstates2⟩ := fillBuffer_spec (List.Perm.refl _) hbuffer
    have hplan := hplanned1.trans hplanned2
    have hcounted := hplan.counted h.counted
    obtain ⟨T, hread, hT, -⟩ := readTables_ok ha.valid P2 nodup_range
      (fun i hi => mem_range.mp hi) S2
    obtain ⟨hne, ⟨i, hi, htop⟩, hle⟩ := hheap.top_eq heap ha hcounted
    have hlt : (S.absoluteRowPosition : ℤ) < (heap.top sortedOffsets).2 := by
      have := hfilled i (mem_range.mpr hi)
      have := hplanned1.rowLimit_eq
      have := hplanned2.rowOffset_le i
      have := h.position_le
      omega
    let S' : State V := { S2 with
      tables := T
      memoryUsed := toUnsigned 64 (S2.memoryUsed + P2.planBufferSize)
      rowLimit := (heap.top sortedOffsets).2 }
    have hS' : R.Consistent S' := by
      refine h.refilled ha hplan rfl (hstates2.trans hstates1) (fun j hj => ?_)
        hplan.position_eq hlt.le hle
      rw [← hplan.tables_eq]
      exact hT j (mem_range.mpr hj)
    refine ⟨S', ?_, hS', hplan.position_eq, ?_⟩
    · rw [advanceBuffer, hfill]
      dsimp only
      rw [hbuffer]
      dsimp only
      rw [hread]
      dsimp only
      rw [if_neg hne]
    · apply decide_eq_false
      show ¬ (heap.top sortedOffsets).2 ≤ S2.absoluteRowPosition
      have := hplan.position_eq
      omega

end Aligned

end PackedReader

end MilvusStorage.Packed
