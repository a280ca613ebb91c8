import MilvusStorage.Packed.Refill

/-!
# One call of `ReadNext`

From a consistent state in which a refill resets nothing that is in use, a call without failures
returns null if all rows are delivered, and otherwise a batch with the rows from the row position on
(`readNext_read`). A batch may have no rows, where a column has an empty chunk; the calls still come
to an end (`Before`).
-/

namespace MilvusStorage.Packed

open List

variable {V : Type}

namespace PackedReader

variable {R : PackedReader V} {heap : RowOffsetMinHeap} {S : State V} {total : ℕ}

/-! ## The columns of a batch -/

variable (R) in
/-- The place of a requested field among those that exist. -/
def batchIndex (k : ℕ) : ℕ := ((R.fieldIdList.take k).filterMap R.fieldIdMapping).length

theorem arrays_ok {n : ℕ} {fieldIds : List ℤ} (columns : List (Cells V n))
    (hlen : columns.length = (fieldIds.filterMap R.fieldIdMapping).length) :
    ∃ out, R.arrays fieldIds columns = .ok out ∧ out.length = fieldIds.length ∧
      ∀ (k : ℕ) fieldId, fieldIds[k]? = some fieldId →
        (R.fieldIdMapping fieldId = none → out[k]? = some (.nulls n)) ∧
        (R.fieldIdMapping fieldId ≠ none →
          out[k]? = columns[((fieldIds.take k).filterMap R.fieldIdMapping).length]?) := by
  induction fieldIds generalizing columns with
  | nil => exact ⟨[], rfl, rfl, fun k fieldId hk => by cases hk⟩
  | cons fieldId fieldIds ih =>
    cases hmap : R.fieldIdMapping fieldId with
    | none =>
      rw [filterMap_cons_none hmap] at hlen
      obtain ⟨out, hout, hlength, hget⟩ := ih columns hlen
      refine ⟨.nulls n :: out, ?_, congrArg (· + 1) hlength, fun k fieldId' hk => ?_⟩
      · simp [arrays, hmap, hout]
      · cases k with
        | zero =>
          cases hk
          exact ⟨fun _ => rfl, fun hne => absurd hmap hne⟩
        | succ k =>
          rw [take_succ_cons, filterMap_cons_none hmap]
          exact hget k fieldId' hk
    | some o =>
      rw [filterMap_cons_some hmap] at hlen
      obtain _ | ⟨column, columns⟩ := columns
      · cases hlen
      obtain ⟨out, hout, hlength, hget⟩ := ih columns (Nat.succ.inj hlen)
      refine ⟨column :: out, ?_, congrArg (· + 1) hlength, fun k fieldId' hk => ?_⟩
      · simp [arrays, hmap, hout]
      · cases k with
        | zero =>
          cases hk
          exact ⟨fun hnone => absurd (hmap.symm.trans hnone) (Option.some_ne_none o), fun _ => rfl⟩
        | succ k =>
          rw [take_succ_cons, filterMap_cons_some hmap]
          exact hget k fieldId' hk

/-- The needed column of a requested field. -/
theorem getElem?_neededColumnOffsets (hv : R.Valid) {k : ℕ} {fieldId : ℤ} {o : ColumnOffset}
    (hk : R.fieldIdList[k]? = some fieldId) (ho : R.fieldIdMapping fieldId = some o) :
    R.neededColumnOffsets[R.batchIndex k]? = some o := by
  obtain ⟨hlt, rfl⟩ := List.getElem?_eq_some_iff.mp hk
  rw [hv.neededColumnOffsets_eq, batchIndex]
  conv_lhs => rw [← take_append_drop k R.fieldIdList, filterMap_append]
  rw [take_append_drop, getElem?_append_right le_rfl, Nat.sub_self,
    drop_eq_getElem_cons hlt, filterMap_cons_some ho, getElem?_cons_zero]

/-! ## Slicing a batch -/

theorem refillDue_eq_false : refillDue S = false ↔ (S.absoluteRowPosition : ℤ) < S.rowLimit := by
  rw [refillDue, decide_eq_false_iff_not, not_le]

theorem Consistent.sliceable (ha : R.Aligned total) (h : R.Consistent S)
    (hdue : refillDue S = false) :
    Sliceable R.neededColumnOffsets S.chunkStates S.tables := by
  have hdue := refillDue_eq_false.mp hdue
  refine ⟨fun k o hk hnil => ?_, fun k o hk => ?_, fun k o hk => ?_,
    fun k o k' o' hk hk' hpath => ?_⟩
  all_goals obtain ⟨i, hi, hpathi⟩ := ha.valid.exists_pathIndex o (mem_of_getElem? hk)
  · have hlen := h.length_queued ha hk hi hpathi
    have := h.rowLimit_le i hi
    rw [hnil, queued, length_nil] at hlen
    omega
  · refine ⟨R.numColumns i, ha.colIndex_lt o (mem_of_getElem? hk) i hi hpathi, ?_⟩
    rw [← hpathi]
    exact h.regular i hi
  · exact h.fits k o i hk hi hpathi
  · rw [h.length_queued ha hk hi hpathi, h.length_queued ha hk' hi (hpathi.trans hpath)]

variable (R) in
/-- What delivering a batch does. -/
structure Delivered (S S' : State V) (rb : RecordBatch V) : Prop where
  consistent : R.Consistent S'
  position_eq : S'.absoluteRowPosition = S.absoluteRowPosition + rb.numRows
  rowLimit_eq : S'.rowLimit = S.rowLimit
  length_columns : rb.columns.length = R.fieldIdList.length
  column_eq : ∀ (k : ℕ) fieldId o i, R.fieldIdList[k]? = some fieldId →
    R.fieldIdMapping fieldId = some o → i < R.size → R.pathIndex i = o.pathIndex →
    rb.column k = ((cells (R.whole i) o.colIndex).drop S.absoluteRowPosition).take rb.numRows
  column_eq_nulls : ∀ (k : ℕ) fieldId, R.fieldIdList[k]? = some fieldId →
    R.fieldIdMapping fieldId = none → rb.column k = List.replicate rb.numRows none
  chunksLeft_lt : rb.numRows = 0 → chunksLeft R.neededColumnOffsets S'.chunkStates S'.tables <
    chunksLeft R.neededColumnOffsets S.chunkStates S.tables

/-- The rows from some position on do not depend on the row groups that are not planned. -/
theorem take_drop_cells {i j n pos m : ℕ} (hi : i < R.size) (hj : j < R.numColumns i)
    (hle : pos + m ≤ rows ((R.whole i).take n)) :
    ((cells ((R.whole i).take n) j).drop pos).take m = ((cells (R.whole i) j).drop pos).take m := by
  have hlen := length_cells_take hi hj n
  conv_rhs => rw [← take_append_drop n (R.whole i), cells_append]
  rw [drop_append_of_le_length (by omega), take_append_of_le_length]
  rw [length_drop]
  omega

/-- **Delivering a batch**, if there are rows before the row limit. -/
theorem deliver_spec (ha : R.Aligned total) (h : R.Consistent S) (hdue : refillDue S = false) :
    ∃ S' rb, R.deliver S = (S', .ok (some rb)) ∧ R.Delivered S S' rb := by
  have hlt := refillDue_eq_false.mp hdue
  obtain ⟨slice, hslice, hsliced⟩ :=
    (h.sliceable ha hdue).sliced (S.rowLimit - S.absoluteRowPosition).toNat
  have hrows := hsliced.numRows_le
  obtain ⟨out, harrays, hlen, hout⟩ := arrays_ok slice.batch.columns
    (by rw [hsliced.length_columns, ha.valid.neededColumnOffsets_eq])
  have hdeliver : R.deliver S = ({ S with
      chunkStates := slice.chunkStates
      tables := slice.tables
      absoluteRowPosition := S.absoluteRowPosition + slice.batch.numRows },
      .ok (some ⟨slice.batch.numRows, out⟩)) := by
    rw [deliver, hslice]
    dsimp only
    rw [harrays]
  refine ⟨_, _, hdeliver, ?_, rfl, rfl, hlen, ?_, ?_, ?_⟩
  · refine ⟨h.counted, ?_, h.rowLimit_le,
      fun i hi t ht => h.regular i hi t (hsliced.tables_subset _ ht),
      fun k o i hk _ _ => hsliced.fits k o hk, fun k o i hk hi hpath => ?_⟩
    · show ((S.absoluteRowPosition + slice.batch.numRows : ℕ) : ℤ) ≤ S.rowLimit
      omega
    · rw [hsliced.queued_eq k o hk, h.queued_eq k o i hk hi hpath, drop_drop]
  · intro k fieldId o i hk ho hi hpath
    have hneeded := getElem?_neededColumnOffsets ha.valid hk ho
    have hidx : R.batchIndex k < slice.batch.columns.length := by
      rw [hsliced.length_columns]
      exact lt_of_getElem? hneeded
    have hcol := getElem?_eq_getElem hidx
    have hlimit := h.rowLimit_le i hi
    rw [RecordBatch.column_of_getElem? (((hout k fieldId hk).2 (by rw [ho]; simp)).trans hcol),
      ← RecordBatch.column_of_getElem? hcol, hsliced.column_eq _ o hneeded,
      h.queued_eq _ o i hneeded hi hpath]
    apply take_drop_cells hi (ha.colIndex_lt o (mem_of_getElem? hneeded) i hi hpath)
    rw [← (h.counted i).2]
    omega
  · intro k fieldId hk hnone
    rw [RecordBatch.column_of_getElem? ((hout k fieldId hk).1 hnone)]
    rfl
  · exact hsliced.chunksLeft_lt (by omega)

/-! ## `ReadNext` -/

variable (R total) in
/-- The rows that are not delivered, whether a refill is due, and the chunks that are not used up.
-/
def progress (S : State V) : ℕ × ℕ × ℕ :=
  (total - S.absoluteRowPosition, (refillDue S).toNat,
    chunksLeft R.neededColumnOffsets S.chunkStates S.tables)

variable (R total) in
/-- A later state: further rows are delivered, or else a due refill is done, or else further chunks
are used up. -/
def Before (S' S : State V) : Prop :=
  Prod.Lex (· < ·) (Prod.Lex (· < ·) (· < ·)) (R.progress total S') (R.progress total S)

variable (R total) in
theorem before_wf : WellFounded (R.Before total) :=
  InvImage.wf (R.progress total)
    (WellFounded.prod_lex wellFounded_lt (WellFounded.prod_lex wellFounded_lt wellFounded_lt))

variable (R total) in
/-- What a call of `ReadNext` can do. -/
inductive Read (S S' : State V) : ReadResult V → Prop
  | endOfData (h : R.Consistent S') (hposition : S'.absoluteRowPosition = S.absoluteRowPosition)
      (hend : S.absoluteRowPosition = total) : Read S S' (.ok none)
  | batch (S₁ : State V) (rb : RecordBatch V)
      (hposition : S₁.absoluteRowPosition = S.absoluteRowPosition) (h : R.Delivered S₁ S' rb)
      (hbefore : R.Before total S' S) : Read S S' (.ok (some rb))

theorem Delivered.position_le (ha : R.Aligned total) {S' : State V} {rb : RecordBatch V}
    (h : R.Delivered S S' rb) : S.absoluteRowPosition + rb.numRows ≤ total := by
  have hle := h.consistent.position_le_rowOffset ha.size_pos
  rw [h.position_eq] at hle
  exact hle.trans (ha.rowOffset_le h.consistent.counted ha.size_pos)

/-- A batch with rows delivers them, and one without rows uses up a chunk. -/
theorem Delivered.before (ha : R.Aligned total) {S₁ S' : State V} {rb : RecordBatch V}
    (h : R.Delivered S₁ S' rb) (hposition : S₁.absoluteRowPosition = S.absoluteRowPosition)
    (hdue : refillDue S₁ = false) (hsame : refillDue S = true ∨ S₁ = S) : R.Before total S' S := by
  have hle := h.position_le ha
  have hpos := h.position_eq
  rw [Before, progress, progress]
  obtain hzero | hrows := eq_zero_or_pos rb.numRows
  · have hsame' : S'.absoluteRowPosition = S.absoluteRowPosition := by omega
    have hdue' : refillDue S' = false := by
      rwa [refillDue, h.rowLimit_eq, hsame', ← hposition]
    rw [hsame', hdue']
    apply Prod.Lex.right
    obtain hdueS | rfl := hsame
    · rw [hdueS]
      exact Prod.Lex.left _ _ zero_lt_one
    · rw [hdue]
      exact Prod.Lex.right _ (h.chunksLeft_lt hzero)
  · apply Prod.Lex.left
    omega

/-- **One call**, without failures. -/
theorem readNext_read (heap : RowOffsetMinHeap) (ha : R.Aligned total) (h : R.Consistent S)
    (hreset : R.ResetHarmless S) :
    ∃ S' r, R.readNext heap .noFailure S = (S', r) ∧ R.Read total S S' r := by
  cases hdue : refillDue S with
  | false =>
    obtain ⟨S', rb, hdeliver, hd⟩ := deliver_spec ha h hdue
    refine ⟨S', _, ?_, .batch S rb rfl hd (hd.before ha rfl hdue (.inr rfl))⟩
    rwa [readNext, hdue]
  | true =>
    have hdue' : S.rowLimit ≤ S.absoluteRowPosition := of_decide_eq_true hdue
    have hle := h.rowLimit_le 0 ha.size_pos
    have htotal := ha.rowOffset_le h.counted ha.size_pos
    have hposition := h.position_le
    by_cases hend : S.rowLimit = total
    · refine ⟨PackedReader.releaseMemory 0 S, .ok none, ?_,
        .endOfData (h.releaseMemory 0) rfl (by omega)⟩
      rw [readNext, if_pos hdue, advanceBuffer_drained ha h hend]
      exact if_pos hdue
    · obtain ⟨S₁, hadvance, h1, hposition1, hdue1⟩ :=
        advanceBuffer_refilled heap ha h hdue hreset (by omega)
      obtain ⟨S', rb, hdeliver, hd⟩ := deliver_spec ha h1 hdue1
      refine ⟨S', _, ?_, .batch S₁ rb hposition1 hd (hd.before ha hposition1 hdue1 (.inl hdue))⟩
      rw [readNext, if_pos hdue, hadvance]
      dsimp only
      rwa [hdue1]

end PackedReader

end MilvusStorage.Packed
