import Mathlib.Algebra.Order.BigOperators.Group.Finset
import MilvusStorage.Packed.ReadNext

/-!
# Planning row groups

The two loops of `advanceBuffer` that plan row groups. Row groups are planned in order, and the row
offset of a file counts the rows of those that are planned (`Counted`, `Planned`).

* `fillTables_spec`: every file that has no rows beyond the row limit gets a row group, unless the
  loop meets a file that has ended.
* `fillBuffer_spec`: the heap always holds the row offsets of all files.
-/

namespace MilvusStorage.Packed

open List Function

variable {V : Type}

namespace PackedReader

variable {R : PackedReader V} {heap : RowOffsetMinHeap}

variable (R) in
/-- All rows of a file. -/
def whole (i : ℕ) : List (RecordBatch V) := (R.rowGroups i).map RowGroup.content

variable (R) in
/-- The row offset of a file is the number of rows of its planned row groups. -/
def Counted (S : State V) : Prop :=
  ∀ i, (S.columnGroupStates i).nextRowGroup ≤ (R.rowGroups i).length ∧
    (S.columnGroupStates i).rowOffset =
      rows ((R.whole i).take (S.columnGroupStates i).nextRowGroup)

variable (R) in
/-- Row groups have rows, and their memory sizes are those of `int64_t`. -/
def RegularRowGroups : Prop :=
  ∀ i, ∀ g ∈ R.rowGroups i, 0 < g.content.numRows ∧ g.memorySize < 2 ^ 63

variable (R) in
/-- What planning does: the plan gets the next row groups. -/
structure Planned (S : State V) (P : Plan) (S' : State V) (P' : Plan) : Prop where
  tables_eq : S'.tables = S.tables
  rowLimit_eq : S'.rowLimit = S.rowLimit
  position_eq : S'.absoluteRowPosition = S.absoluteRowPosition
  counted : R.Counted S → R.Counted S'
  nextRowGroup_le : ∀ i,
    (S.columnGroupStates i).nextRowGroup ≤ (S'.columnGroupStates i).nextRowGroup
  rowOffset_le : ∀ i, (S.columnGroupStates i).rowOffset ≤ (S'.columnGroupStates i).rowOffset
  rgsToRead_eq : ∀ i, P'.rgsToRead i = P.rgsToRead i ++ List.range'
    (S.columnGroupStates i).nextRowGroup
    ((S'.columnGroupStates i).nextRowGroup - (S.columnGroupStates i).nextRowGroup)

theorem Planned.refl (S : State V) (P : Plan) : R.Planned S P S P := by
  refine ⟨rfl, rfl, rfl, id, fun _ => le_rfl, fun _ => le_rfl, fun i => ?_⟩
  rw [Nat.sub_self, range'_zero, append_nil]

/-- Row groups that follow each other. -/
theorem range'_glue {a b c : ℕ} (hab : a ≤ b) (hbc : b ≤ c) :
    List.range' a (b - a) ++ List.range' b (c - b) = List.range' a (c - a) := by
  obtain ⟨m, rfl⟩ := Nat.exists_eq_add_of_le hab
  obtain ⟨n, rfl⟩ := Nat.exists_eq_add_of_le hbc
  rw [Nat.add_sub_cancel_left, Nat.add_sub_cancel_left, range'_append_1, add_assoc,
    Nat.add_sub_cancel_left]

theorem Planned.trans {S1 S2 S3 : State V} {P1 P2 P3 : Plan} (h : R.Planned S1 P1 S2 P2)
    (h' : R.Planned S2 P2 S3 P3) : R.Planned S1 P1 S3 P3 := by
  refine ⟨h'.tables_eq.trans h.tables_eq, h'.rowLimit_eq.trans h.rowLimit_eq,
    h'.position_eq.trans h.position_eq, fun hc => h'.counted (h.counted hc),
    fun i => (h.nextRowGroup_le i).trans (h'.nextRowGroup_le i),
    fun i => (h.rowOffset_le i).trans (h'.rowOffset_le i), fun i => ?_⟩
  rw [h'.rgsToRead_eq, h.rgsToRead_eq, append_assoc,
    range'_glue (h.nextRowGroup_le i) (h'.nextRowGroup_le i)]

/-! ## One row group -/

variable {i : ℕ} {S S' : State V} {P P' : Plan} {g : RowGroup V} {is : List ℕ} {d : Option ℕ}
  {sortedOffsets : List (ℕ × ℤ)}

theorem take_whole_succ {n : ℕ} (h : (R.rowGroups i)[n]? = some g) :
    (R.whole i).take (n + 1) = (R.whole i).take n ++ [g.content] := by
  have hget : (R.whole i)[n]? = some g.content := by
    rw [whole, getElem?_map, h, Option.map_some]
  rw [take_add_one, hget, Option.toList_some]

@[simp] theorem countRowGroup_self (i : ℕ) (g : RowGroup V) (S : State V) :
    ((countRowGroup i g S).columnGroupStates i).nextRowGroup =
        (S.columnGroupStates i).nextRowGroup + 1 ∧
      ((countRowGroup i g S).columnGroupStates i).rowOffset =
        (S.columnGroupStates i).rowOffset + g.content.numRows := by
  simp [countRowGroup]

@[simp] theorem countRowGroup_of_ne {j : ℕ} (hj : j ≠ i) (g : RowGroup V) (S : State V) :
    (countRowGroup i g S).columnGroupStates j = S.columnGroupStates j := update_of_ne hj ..

theorem Planned.rowGroup (hg : (R.rowGroups i)[(S.columnGroupStates i).nextRowGroup]? = some g)
    (P : Plan) (rgSize : ℤ) :
    R.Planned S P (countRowGroup i g S)
      (planRowGroup i (S.columnGroupStates i).nextRowGroup rgSize P) := by
  obtain ⟨hnext, hoff⟩ := countRowGroup_self i g S
  refine ⟨rfl, rfl, rfl, fun hc j => ?_, fun j => ?_, fun j => ?_, fun j => ?_⟩
  all_goals obtain rfl | hj := eq_or_ne j i
  · rw [hnext, hoff, take_whole_succ hg, rows_append, ← (hc j).2]
    exact ⟨lt_of_getElem? hg, rfl⟩
  · rw [countRowGroup_of_ne hj]
    exact hc j
  · omega
  · rw [countRowGroup_of_ne hj]
  · omega
  · rw [countRowGroup_of_ne hj]
  · rw [hnext, Nat.add_sub_cancel_left]
    exact update_self ..
  · rw [countRowGroup_of_ne hj, Nat.sub_self, range'_zero, append_nil]
    exact update_of_ne hj ..

/-- `advance_row_group` plans the next row group, if there is one. -/
theorem advanceRowGroup_cases (i : ℕ) (S : State V) (P : Plan) :
    ((R.rowGroups i).length ≤ (S.columnGroupStates i).nextRowGroup ∧
      R.advanceRowGroup i S P = (S, P, -1)) ∨
    ∃ g P', (R.rowGroups i)[(S.columnGroupStates i).nextRowGroup]? = some g ∧
      R.advanceRowGroup i S P = (countRowGroup i g S, P', toSigned 64 g.memorySize) ∧
      R.Planned S P (countRowGroup i g S) P' := by
  cases hg : (R.rowGroups i)[(S.columnGroupStates i).nextRowGroup]? with
  | none =>
    refine .inl ⟨getElem?_eq_none_iff.mp hg, ?_⟩
    simp [advanceRowGroup, hg]
  | some g =>
    refine .inr ⟨g, _, rfl, ?_, .rowGroup hg P (toSigned 64 g.memorySize)⟩
    simp [advanceRowGroup, hg]

theorem releaseMemory_columnGroupStates (i j : ℕ) (S : State V) :
    ((releaseMemory i S).columnGroupStates j).nextRowGroup = (S.columnGroupStates j).nextRowGroup ∧
      ((releaseMemory i S).columnGroupStates j).rowOffset = (S.columnGroupStates j).rowOffset := by
  obtain rfl | hj := eq_or_ne j i
  · simp [releaseMemory]
  · simp [releaseMemory, update_of_ne hj]

theorem Planned.releaseMemory (i : ℕ) (S : State V) (P : Plan) :
    R.Planned S P (releaseMemory i S) P := by
  have h := fun j => releaseMemory_columnGroupStates i j S
  refine ⟨rfl, rfl, rfl, fun hc j => ?_, fun j => (h j).1.ge, fun j => (h j).2.ge, fun j => ?_⟩
  · rw [(h j).1, (h j).2]
    exact hc j
  · rw [(h j).1, Nat.sub_self, range'_zero, append_nil]

theorem Planned.resetChunkState (f : ℕ → ChunkState) (S : State V) (P : Plan) :
    R.Planned S P { S with chunkStates := f } P := by
  obtain ⟨-, -, -, hc, hnext, hoff, hrgs⟩ := Planned.refl S P
  exact ⟨rfl, rfl, rfl, hc, hnext, hoff, hrgs⟩

/-! ## Filling the tables -/

theorem RegularRowGroups.size_nonneg (h : R.RegularRowGroups) (hg : g ∈ R.rowGroups i) :
    0 ≤ toSigned 64 g.memorySize := by
  have := (h i g hg).2
  rw [toSigned_of_lt (by omega)]
  exact Int.natCast_nonneg _

/-- How the loop ends: all its files have rows beyond the limit, or one of them has ended. -/
inductive FillEnd (R : PackedReader V) (is : List ℕ) (S' : State V) : Option ℕ → Prop
  | filled (h : ∀ i ∈ is, S'.rowLimit < (S'.columnGroupStates i).rowOffset) : FillEnd R is S' none
  | drained (i : ℕ) (hi : i ∈ is) (hle : (S'.columnGroupStates i).rowOffset ≤ S'.rowLimit)
      (hend : (R.rowGroups i).length ≤ (S'.columnGroupStates i).nextRowGroup) :
      FillEnd R is S' (some i)

theorem FillEnd.cons (h : FillEnd R is S' d)
    (hi : S'.rowLimit < (S'.columnGroupStates i).rowOffset) : FillEnd R (i :: is) S' d := by
  cases h with
  | filled h => exact .filled (forall_mem_cons.mpr ⟨hi, h⟩)
  | drained j hj hle hend => exact .drained j (mem_cons_of_mem _ hj) hle hend

/-- What one iteration of the loop does with a file that has no rows beyond the limit. -/
theorem fillTables_step (hreg : R.RegularRowGroups) (i : ℕ) (is : List ℕ) (S : State V) (P : Plan)
    (hle : ¬ S.rowLimit < (S.columnGroupStates i).rowOffset) :
    ((R.rowGroups i).length ≤ (S.columnGroupStates i).nextRowGroup ∧
      R.fillTables (i :: is) S P = (releaseMemory i S, P, some i)) ∨
    ∃ S' P', R.fillTables (i :: is) S P = R.fillTables is S' P' ∧ R.Planned S P S' P' ∧
      (S.columnGroupStates i).rowOffset < (S'.columnGroupStates i).rowOffset ∧
      S'.chunkStates = Packed.resetChunkState R.neededColumnOffsets i S.chunkStates := by
  have hrelease := releaseMemory_columnGroupStates i i S
  rw [fillTables, if_neg hle]
  obtain ⟨hend, hadvance⟩ | ⟨g, P', hg, hadvance, hplan⟩ :=
    R.advanceRowGroup_cases i (releaseMemory i S) P
  · refine .inl ⟨hrelease.1 ▸ hend, ?_⟩
    simp [hadvance]
  · have hmem := mem_of_getElem? hg
    have hrelease' := Planned.releaseMemory (R := R) i S P
    refine .inr ⟨_, P', ?_, hrelease'.trans (hplan.trans (.resetChunkState _ _ _)), ?_, rfl⟩
    · rw [hadvance]
      exact if_neg (not_lt.mpr (hreg.size_nonneg hmem))
    · have hpos := (hreg i g hmem).1
      rw [(countRowGroup_self ..).2]
      omega

theorem fillTables_spec (hreg : R.RegularRowGroups)
    (hlimit : ∀ i ∈ is, S.rowLimit ≤ (S.columnGroupStates i).rowOffset)
    (h : R.fillTables is S P = (S', P', d)) : R.Planned S P S' P' ∧ FillEnd R is S' d := by
  induction is generalizing S P with
  | nil =>
    cases h
    exact ⟨.refl .., .filled fun i hi => absurd hi not_mem_nil⟩
  | cons i is ih =>
    have hi := hlimit i mem_cons_self
    by_cases hlt : S.rowLimit < (S.columnGroupStates i).rowOffset
    · rw [fillTables, if_pos hlt] at h
      obtain ⟨hplan, hend⟩ := ih (fun j hj => hlimit j (mem_cons_of_mem _ hj)) h
      refine ⟨hplan, hend.cons ?_⟩
      have := hplan.rowOffset_le i
      rw [hplan.rowLimit_eq]
      omega
    · obtain ⟨hend, hstep⟩ | ⟨S1, P1, hstep, hplanned1, hoff, -⟩ :=
        fillTables_step hreg i is S P hlt
      · rw [hstep] at h
        cases h
        have hrelease := releaseMemory_columnGroupStates i i S
        refine ⟨.releaseMemory i S _, .drained i mem_cons_self ?_ ?_⟩
        · rw [hrelease.2]
          exact not_lt.mp hlt
        · rwa [hrelease.1]
      · rw [hstep] at h
        have hlimit1 : ∀ j ∈ is, S1.rowLimit ≤ (S1.columnGroupStates j).rowOffset := by
          intro j hj
          have := hlimit j (mem_cons_of_mem _ hj)
          have := hplanned1.rowOffset_le j
          rw [hplanned1.rowLimit_eq]
          omega
        obtain ⟨hplan, hend⟩ := ih hlimit1 h
        refine ⟨hplanned1.trans hplan, hend.cons ?_⟩
        have := hplan.rowOffset_le i
        rw [hplan.rowLimit_eq, hplanned1.rowLimit_eq]
        omega

variable (R) in
/-- The chunk states that a refill resets are at the start of their tables. -/
def ResetHarmless (S : State V) : Prop :=
  refillDue S = true → ∀ i < R.size, ((S.columnGroupStates i).rowOffset : ℤ) ≤ S.rowLimit →
    ∀ (k : ℕ) o, R.neededColumnOffsets[k]? = some o → o.pathIndex = i → S.chunkStates k = {}

theorem fillTables_chunkStates (hreg : R.RegularRowGroups)
    (hreset : ∀ i ∈ is, ((S.columnGroupStates i).rowOffset : ℤ) ≤ S.rowLimit →
      ∀ (k : ℕ) o, R.neededColumnOffsets[k]? = some o → o.pathIndex = i → S.chunkStates k = {})
    (h : R.fillTables is S P = (S', P', d)) : S'.chunkStates = S.chunkStates := by
  induction is generalizing S P with
  | nil =>
    cases h
    rfl
  | cons i is ih =>
    by_cases hlt : S.rowLimit < (S.columnGroupStates i).rowOffset
    · rw [fillTables, if_pos hlt] at h
      exact ih (fun j hj => hreset j (mem_cons_of_mem _ hj)) h
    · obtain ⟨-, hstep⟩ | ⟨S1, P1, hstep, hplanned1, -, hstates⟩ :=
        fillTables_step hreg i is S P hlt
      · rw [hstep] at h
        cases h
        rfl
      · have hsame : S1.chunkStates = S.chunkStates := by
          rw [hstates]
          funext k
          unfold Packed.resetChunkState
          split_ifs with hk
          · obtain ⟨o, ho, hpath⟩ := Option.map_eq_some_iff.mp hk
            exact (hreset i mem_cons_self (not_lt.mp hlt) k o ho hpath).symm
          · rfl
        rw [hstep] at h
        rw [← hsame]
        apply ih _ h
        intro j hj hle k o ho hpath
        have := hplanned1.rowOffset_le j
        rw [hplanned1.rowLimit_eq] at hle
        rw [hsame]
        exact hreset j (mem_cons_of_mem _ hj) (by omega) k o ho hpath

/-! ## Filling the buffer -/

variable (R) in
/-- The heap holds the row offsets of all files. -/
def HeapOf (S : State V) (sortedOffsets : List (ℕ × ℤ)) : Prop :=
  sortedOffsets.Perm ((List.range R.size).map (heapEntry S))

variable (R) in
/-- The row groups that are not planned. -/
def unplanned (S : State V) : ℕ :=
  ∑ i ∈ Finset.range R.size, ((R.rowGroups i).length - (S.columnGroupStates i).nextRowGroup)

/-- Advancing the file of an entry replaces the entry. -/
theorem HeapOf.countRowGroup (h : R.HeapOf S sortedOffsets) (hi : i < R.size) (g : RowGroup V) :
    R.HeapOf (countRowGroup i g S)
      (heapEntry (countRowGroup i g S) i :: sortedOffsets.erase (heapEntry S i)) := by
  have hrange := perm_cons_erase (mem_range.mpr hi)
  have hmem : heapEntry S i ∈ sortedOffsets :=
    h.mem_iff.mpr (mem_map_of_mem (mem_range.mpr hi))
  -- the entries of the other files stay
  have hothers : ((range R.size).erase i).map (heapEntry (PackedReader.countRowGroup i g S)) =
      ((range R.size).erase i).map (heapEntry S) := by
    apply map_congr_left
    intro j hj
    have hne : j ≠ i := by
      rintro rfl
      exact nodup_range.not_mem_erase hj
    rw [heapEntry, heapEntry, countRowGroup_of_ne hne]
  have herase : (sortedOffsets.erase (heapEntry S i)).Perm
      (((range R.size).erase i).map (heapEntry S)) := by
    apply List.Perm.cons_inv
    exact (perm_cons_erase hmem).symm.trans (h.trans (hrange.map _))
  refine List.Perm.trans ?_ (hrange.map _).symm
  rw [map_cons, hothers]
  exact herase.cons _

theorem unplanned_countRowGroup (hi : i < R.size)
    (hlt : (S.columnGroupStates i).nextRowGroup < (R.rowGroups i).length) (g : RowGroup V) :
    R.unplanned (countRowGroup i g S) < R.unplanned S := by
  apply sum_lt_sum
  · intro j _
    obtain rfl | hj := eq_or_ne j i
    · rw [(countRowGroup_self ..).1]
      omega
    · rw [countRowGroup_of_ne hj]
  · refine ⟨i, mem_range.mpr hi, ?_⟩
    rw [(countRowGroup_self ..).1]
    omega

/-- What one iteration of the loop does: nothing, or it plans a row group. -/
theorem fillBuffer_step (heap : RowOffsetMinHeap) (h : R.HeapOf S sortedOffsets) :
    (∀ fuel, R.fillBuffer heap (fuel + 1) sortedOffsets S P = (sortedOffsets, S, P)) ∨
    ∃ sortedOffsets' S' P', (∀ fuel, R.fillBuffer heap (fuel + 1) sortedOffsets S P =
        R.fillBuffer heap fuel sortedOffsets' S' P') ∧ R.HeapOf S' sortedOffsets' ∧
      R.Planned S P S' P' ∧ S'.chunkStates = S.chunkStates ∧ R.unplanned S' < R.unplanned S := by
  by_cases hfull : sortedOffsets = [] ∨
      R.memoryLimit ≤ toUnsigned 64 (P.planBufferSize + S.memoryUsed)
  · refine .inl fun fuel => ?_
    rw [fillBuffer, if_pos hfull]
  have hmem := heap.top_mem sortedOffsets fun hnil => hfull (.inl hnil)
  obtain ⟨i, hi, htop⟩ := mem_map.mp (h.mem_iff.mp hmem)
  have hi := mem_range.mp hi
  by_cases hstop : R.getNextRowGroupSize S i < 0 ∨ R.memoryLimit <
      toUnsigned 64 (P.planBufferSize + S.memoryUsed + R.getNextRowGroupSize S i)
  · refine .inl fun fuel => ?_
    rw [fillBuffer, if_neg hfull, ← htop]
    exact if_pos hstop
  · obtain ⟨hend, -⟩ | ⟨g, P', hg, hadvance, hplan⟩ := R.advanceRowGroup_cases i S P
    · refine absurd (.inl ?_) hstop
      rw [getNextRowGroupSize, getElem?_eq_none hend]
      show (-1 : ℤ) < 0
      omega
    · refine .inr ⟨_, _, _, fun fuel => ?_, h.countRowGroup hi g, hplan, rfl,
        unplanned_countRowGroup hi (lt_of_getElem? hg) g⟩
      rw [fillBuffer, if_neg hfull, ← htop]
      dsimp only
      rw [show (heapEntry S i).1 = i from rfl, if_neg hstop, hadvance]

theorem fillBuffer_spec {fuel : ℕ} {sortedOffsets' : List (ℕ × ℤ)} (h : R.HeapOf S sortedOffsets)
    (hfill : R.fillBuffer heap fuel sortedOffsets S P = (sortedOffsets', S', P')) :
    R.HeapOf S' sortedOffsets' ∧ R.Planned S P S' P' ∧ S'.chunkStates = S.chunkStates := by
  induction fuel generalizing sortedOffsets S P with
  | zero =>
    cases hfill
    exact ⟨h, .refl .., rfl⟩
  | succ fuel ih =>
    obtain hstop | ⟨h1, S1, P1, hstep, hheap, hplan, hstates, -⟩ := fillBuffer_step heap h
    · rw [hstop fuel] at hfill
      cases hfill
      exact ⟨h, .refl .., rfl⟩
    · rw [hstep fuel] at hfill
      obtain ⟨hheap', hplan', hstates'⟩ := ih hheap hfill
      exact ⟨hheap', hplan.trans hplan', hstates'.trans hstates⟩

end PackedReader

end MilvusStorage.Packed
