import MilvusStorage.Common.RecordBatch
import MilvusStorage.Common.Status
import MilvusStorage.Foundations.Except
import MilvusStorage.Foundations.Positions

/-!
# Opening the column-group reader

`PackedRecordBatchReader::open` takes the column groups that hold the needed columns. It checks that
every group has chunks and that all have the same number of rows, and computes which column of which
group each output column comes from.

A column group is what its `ColumnGroupReader` answers: the chunks with their rows, and for each an
estimate of its size unless there is none. Of a chunk, the reader returns the needed columns that
the group holds, in the order of the needed columns.
-/

namespace MilvusStorage.Reader

open List

variable {V : Type}

/-! ## Column groups -/

/-- Some rows of named columns. -/
structure Rows (V : Type) where
  count : ℕ
  column : String → Cells V count

/-- The record batch of the named columns. -/
def Rows.project (r : Rows V) (names : List String) : RecordBatch V where
  numRows := r.count
  columns := names.map r.column

structure Chunk (V : Type) where
  /-- The rows of the chunk; `get_chunk_rows` reports their number. -/
  content : Rows V
  /-- What is left of them under the predicate, or a null batch. -/
  filtered : Option (Rows V)
  /-- The result of `get_chunk_estimated_size`, unless it is not implemented. -/
  estimatedSize : Option ℕ

structure ColumnGroupReader (V : Type) where
  columns : List String
  /-- The fields of the reader's schema. -/
  fields : List String
  chunks : List (Chunk V)

/-- `total_rows`. -/
def ColumnGroupReader.totalRows (r : ColumnGroupReader V) : ℕ :=
  (r.chunks.map fun c => c.content.count).sum

/-- The cells of a column of the group, in order. -/
def ColumnGroupReader.cells (r : ColumnGroupReader V) (name : String) : List (Option V) :=
  r.chunks.flatMap fun c => (c.content.column name).1

/-- `PackedRecordBatchReader`, as `open` leaves it; these fields do not change any more. -/
structure PackedReader (V : Type) where
  readers : List (ColumnGroupReader V)
  neededColumns : List String
  /-- The column group of each output column and the column's place in it; `none` is the pair
  `(-1, -1)` of a column that no group holds. -/
  outFieldMap : List (Option (ℕ × ℕ))
  /-- There is a predicate. -/
  predicate : Bool
  endOfOffset : ℕ
  numberOfRowLimit : ℤ
  memoryUsageLimit : ℤ

/-! ## `open` -/

/-- The properties of a reader. -/
structure Properties where
  recordBatchMaxSize : ℤ
  recordBatchMaxRows : ℤ

/-- The loop over the column groups, from the `i`-th on; `endOfOffset` is the number of rows of the
groups before. -/
def checkColumnGroups (i : ℕ) (endOfOffset : Option ℕ) :
    List (ColumnGroupReader V) → Except Fault (Option ℕ)
  | [] => .ok endOfOffset
  | r :: readers =>
    let cgRows := r.totalRows
    if r.chunks.length = 0 then
      .error (.status (.invalid
        s!"Failed to open record batch reader, No chunk to read for column group index: {i}"))
    else match endOfOffset with
      | none => checkColumnGroups (i + 1) (some cgRows) readers
      | some expected =>
        if cgRows ≠ expected then
          .error (.status (.invalid ("Failed to open record batch reader, " ++
            s!"Column groups have different number of rows: {expected} vs {cgRows}")))
        else checkColumnGroups (i + 1) (some expected) readers

/-- The needed columns that a group holds. -/
def projection (neededColumns : List String) (r : ColumnGroupReader V) : List String :=
  neededColumns.filter fun column => column ∈ r.columns

/-- The group of a column and its place in it; a later entry replaces an earlier one. -/
def columnMap (columnsAfterProjection : List (List String)) (column : String) : Option (ℕ × ℕ) :=
  Positions.find columnsAfterProjection column

/-- An output column needs a field: of the schema, or without a schema of some group. -/
def checkField (schema : Option (List String)) (readers : List (ColumnGroupReader V))
    (column : String) : Except Fault Unit :=
  match schema with
  | some fields => if column ∈ fields then .ok () else .error .assertionFailed
  | none =>
    if column ∈ readers.flatMap ColumnGroupReader.fields then .ok ()
    else .error (.status (.invalid
      s!"Column '{column}' not found in any column group and no schema provided"))

/-- `PackedRecordBatchReader::open`. A predicate is ignored if there are several groups. -/
def openReader (schema : Option (List String)) (readers : List (ColumnGroupReader V))
    (neededColumns : List String) (predicate : Bool) (properties : Properties) :
    Except Fault (PackedReader V) :=
  if neededColumns = [] ∨ readers = [] then .error .assertionFailed
  else do
    let endOfOffset ← checkColumnGroups 0 none readers
    let columnsAfterProjection := readers.map (projection neededColumns)
    neededColumns.forM (checkField schema readers)
    return {
      readers, neededColumns,
      outFieldMap := neededColumns.map (columnMap columnsAfterProjection)
      predicate := predicate && readers.length ≤ 1
      endOfOffset := endOfOffset.getD 0
      numberOfRowLimit := properties.recordBatchMaxRows
      memoryUsageLimit := properties.recordBatchMaxSize }

/-! ## What `open` establishes -/

/-- What the rest of the reader relies on. -/
structure PackedReader.Valid (R : PackedReader V) : Prop where
  readers_ne_nil : R.readers ≠ []
  chunks_ne_nil : ∀ r ∈ R.readers, r.chunks ≠ []
  totalRows_eq : ∀ r ∈ R.readers, r.totalRows = R.endOfOffset
  /-- An output column is the column of its name in its group. -/
  mem_outFieldMap : ∀ k i j : ℕ, R.outFieldMap[k]? = some (some (i, j)) → ∃ r,
    R.readers[i]? = some r ∧ (projection R.neededColumns r)[j]? = R.neededColumns[k]?
  /-- An output column without a group is in no group. -/
  notMem_columns : ∀ (k : ℕ) (name : String), R.outFieldMap[k]? = some none →
    R.neededColumns[k]? = some name →
    ∀ r ∈ R.readers, name ∉ r.columns
  length_outFieldMap : R.outFieldMap.length = R.neededColumns.length
  length_readers : R.predicate = true → R.readers.length = 1

variable {readers : List (ColumnGroupReader V)}

theorem checkColumnGroups_ok {i : ℕ} {expected endOfOffset : Option ℕ}
    (h : checkColumnGroups i expected readers = .ok endOfOffset) :
    (∀ r ∈ readers, r.chunks ≠ [] ∧ some r.totalRows = endOfOffset) ∧
      (∀ rows, expected = some rows → endOfOffset = some rows) := by
  induction readers generalizing i expected with
  | nil =>
    cases h
    exact ⟨forall_mem_nil _, fun rows hrows => hrows⟩
  | cons r readers ih =>
    simp only [checkColumnGroups] at h
    split_ifs at h with hchunks
    cases expected with
    | none =>
      obtain ⟨hreaders, hrows⟩ := ih h
      refine ⟨forall_mem_cons.mpr ⟨⟨?_, (hrows _ rfl).symm⟩, hreaders⟩, fun rows h => by cases h⟩
      exact fun hnil => hchunks (by rw [hnil]; rfl)
    | some rows =>
      simp only [ne_eq] at h
      split_ifs at h with hrows
      obtain ⟨hreaders, hend⟩ := ih h
      refine ⟨forall_mem_cons.mpr ⟨⟨?_, ?_⟩, hreaders⟩, hend⟩
      · exact fun hnil => hchunks (by rw [hnil]; rfl)
      · rw [hrows, hend rows rfl]

/-- **Opening.** -/
theorem openReader_valid {schema : Option (List String)} {neededColumns : List String}
    {predicate : Bool} {properties : Properties} {R : PackedReader V}
    (h : openReader schema readers neededColumns predicate properties = .ok R) :
    R.Valid ∧ R.readers = readers ∧ R.neededColumns = neededColumns ∧
      R.predicate = (predicate && readers.length ≤ 1) ∧
      R.numberOfRowLimit = properties.recordBatchMaxRows := by
  unfold openReader at h
  split_ifs at h with hne
  rw [Except.bind_eq_ok] at h
  obtain ⟨endOfOffset, hcheck, h⟩ := h
  obtain ⟨-, -, rfl⟩ := Except.bind_pure_eq_ok.mp h
  obtain ⟨hreaders, -⟩ := checkColumnGroups_ok hcheck
  refine ⟨⟨fun hnil => hne (.inr hnil), fun r hr => (hreaders r hr).1, fun r hr => ?_,
    fun k i j hk => ?_, fun k name hk hname r hr hmem => ?_, by simp, fun hp => ?_⟩, rfl, rfl, rfl,
    rfl⟩
  · rw [← (hreaders r hr).2, Option.getD_some]
  · rw [getElem?_map, Option.map_eq_some_iff] at hk
    obtain ⟨name, hname, hmap⟩ := hk
    obtain ⟨cgap, hi, hj⟩ := Positions.getElem?_of_find hmap
    rw [getElem?_map, Option.map_eq_some_iff] at hi
    obtain ⟨r, hr, rfl⟩ := hi
    exact ⟨r, hr, hj.trans hname.symm⟩
  · rw [getElem?_map, hname] at hk
    apply Positions.notMem_of_find (Option.some.inj hk) _ (mem_map_of_mem hr)
    exact mem_filter.mpr ⟨mem_of_getElem? hname, decide_eq_true hmem⟩
  · have hpos := length_pos_of_ne_nil fun hnil => hne (.inr hnil)
    have hle : readers.length ≤ 1 := by simpa using (Bool.and_eq_true_iff.mp hp).2
    show readers.length = 1
    omega

end MilvusStorage.Reader
