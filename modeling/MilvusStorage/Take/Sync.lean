import MilvusStorage.Take.Locate

/-!
# The synchronous take of a column group

The format readers return the rows that are asked for (`Serves`). Then `take` of a column group
succeeds exactly for row indices in range, and returns these rows (`Serves.take_ok`,
`Serves.take_error`): the indices that are sorted by file and put together again, or divided among
the threads, are the same indices in the same order.
-/

namespace MilvusStorage.Take

open List Format

variable {V : Type}

/-- The table has these rows. -/
def Table.Holds (t : Table V) (names : List String) (rows : List (NamedRow V)) : Prop :=
  t.content = tabulate names rows ∧ t.numRows = rows.length

/-- A request for rows of a file. -/
structure Request (rows : List (NamedRow V)) (indices : List ℤ) : Prop where
  ne_nil : indices ≠ []
  sorted : indices.Pairwise (· < ·)
  inside : ∀ i ∈ indices, 0 ≤ i ∧ i < rows.length

/-- The format readers of a column group return the requested rows of the files, in order. -/
structure Serves (storage : String → List (NamedRow V)) (r : ColumnGroupLazyReader V)
    (names : List String) : Prop where
  visible : ∀ file ∈ r.files, Visible storage file
  take : ∀ file ∈ r.files, ∃ reader, r.openFile file = .ok reader ∧
    ∀ indices, Request (storage file.path) indices → ∃ t, reader.take indices = .ok t ∧
      t.Holds names (indices.map (rowAt (storage file.path)))
  takeAsync : ∀ file ∈ r.files, ∃ reader, r.openFileAsync file = .ok (.ok reader) ∧
    ∀ indices, Request (storage file.path) indices → ∃ t, reader.takeAsync indices = .ok (.ok t) ∧
      t.Holds names (indices.map (rowAt (storage file.path)))

/-! ## The checks -/

variable {rowIndices : List ℤ}

theorem sortedFrom_ok {prev : ℤ} (i : ℕ) (h : (prev :: rowIndices).Pairwise (· < ·)) :
    sortedFrom i prev rowIndices = .ok () := by
  induction rowIndices generalizing i prev with
  | nil => rfl
  | cons rowIndex rowIndices ih =>
    obtain ⟨hprev, hrest⟩ := pairwise_cons.mp h
    have := hprev rowIndex mem_cons_self
    rw [sortedFrom, if_neg (by omega)]
    exact ih (i + 1) hrest

theorem validateSortedUniqueRowIndices_ok (h : rowIndices.Pairwise (· < ·)) :
    validateSortedUniqueRowIndices rowIndices = .ok () := by
  cases rowIndices with
  | nil => rfl
  | cons rowIndex rowIndices => exact sortedFrom_ok 1 h

section Range

variable {storage : String → List (NamedRow V)} {files : List ColumnGroupFile}

/-- The row indices are in range. -/
def InRange (total : ℤ) (rowIndices : List ℤ) : Prop := ∀ row ∈ rowIndices, 0 ≤ row ∧ row < total

section

variable (h : ∀ file ∈ files, Visible storage file)
include h

theorem validateRowIndices_iff :
    validateRowIndices files rowIndices = .ok () ↔ InRange (totalRows files) rowIndices := by
  induction rowIndices with
  | nil => simp [validateRowIndices, InRange]
  | cons row rowIndices ih =>
    rw [InRange, forall_mem_cons, ← InRange, ← ih, validateRowIndices]
    by_cases hneg : row < 0
    · simp [hneg]
    · rw [if_neg hneg]
      by_cases hlt : row < totalRows files
      · obtain ⟨i, offset, hok, -⟩ := getIndexAndOffsetOfFile_ok h (by omega) hlt
        rw [hok]
        exact ⟨fun hrest => ⟨⟨by omega, hlt⟩, hrest⟩, And.right⟩
      · obtain ⟨e, he⟩ := fileOfRow_error h row 0 (not_lt.mp hlt)
        rw [getIndexAndOffsetOfFile, he]
        exact ⟨(by cases ·), fun hrest => absurd hrest.1.2 hlt⟩

/-- The file and the place of every row. -/
theorem exists_locate (hrange : InRange (totalRows files) rowIndices) :
    ∃ locate : ℤ → ℕ × ℤ, ∀ row ∈ rowIndices, getIndexAndOffsetOfFile files row = .ok (locate row) ∧
        Located files row (locate row).1 (locate row).2 := by
  have hall : ∀ row ∈ rowIndices, ∃ l : ℕ × ℤ, getIndexAndOffsetOfFile files row = .ok l ∧
      Located files row l.1 l.2 := by
    intro row hrow
    obtain ⟨i, offset, hok, hloc⟩ :=
      getIndexAndOffsetOfFile_ok h (hrange row hrow).1 (hrange row hrow).2
    exact ⟨(i, offset), hok, hloc⟩
  choose! locate hlocate using hall
  exact ⟨locate, hlocate⟩

/-- The rows of a file, at their places there, are a request. -/
theorem request_of_located {rows : List ℤ} (hne : rows ≠ []) (hsorted : rows.Pairwise (· < ·))
    (locate : ℤ → ℕ × ℤ) {i : ℕ} {file : ColumnGroupFile} (hfile : files[i]? = some file)
    (hlocate : ∀ row ∈ rows, Located files row i (locate row).2) :
    Request (storage file.path) (rows.map fun row => (locate row).2) ∧
      (rows.map fun row => (locate row).2).map (rowAt (storage file.path)) =
        rows.map (rowAt (visibleRows storage files)) := by
  refine ⟨⟨by simpa using hne, ?_, ?_⟩, ?_⟩
  · rw [pairwise_map]
    exact hsorted.imp_of_mem fun hrow hrow' hlt => (hlocate _ hrow).lt (hlocate _ hrow') hlt rfl
  · rw [forall_mem_map]
    intro row hrow
    obtain ⟨file', hfile', hle, hlt, -⟩ := (hlocate row hrow).exists_file
    cases hfile.symm.trans hfile'
    obtain ⟨hstart, -, hend⟩ := h file (mem_of_getElem? hfile)
    omega
  · rw [map_map]
    apply map_congr_left
    intro row hrow
    exact ((hlocate row hrow).rowAt_eq h hfile).symm

end

end Range

/-! ## `take_rows_from_files` -/

theorem flatMap_filter_of_nil {α β : Type} {l : List α} {p : α → Bool} {f : α → List β}
    (h : ∀ a ∈ l, p a = false → f a = []) : (l.filter p).flatMap f = l.flatMap f := by
  induction l with
  | nil => rfl
  | cons a l ih =>
    obtain ⟨ha, hl⟩ := forall_mem_cons.mp h
    cases hp : p a with
    | true => simp [hp, ih hl]
    | false => simp [hp, ih hl, ha hp]

section Serves

variable {storage : String → List (NamedRow V)} {r : ColumnGroupLazyReader V}
  {names : List String} (hr : Serves storage r names)

include hr

theorem Serves.takeRowsFromFile_ok {i : ℕ} {file : ColumnGroupFile}
    (hfile : r.files[i]? = some file)
    {indices : List ℤ} (hindices : Request (storage file.path) indices) :
    ∃ t, r.takeRowsFromFile i indices = .ok t ∧
      t.Holds names (indices.map (rowAt (storage file.path))) := by
  obtain ⟨reader, hopen, htake⟩ := hr.take file (mem_of_getElem? hfile)
  obtain ⟨t, ht, hholds⟩ := htake indices hindices
  refine ⟨t, ?_, hholds⟩
  rw [ColumnGroupLazyReader.takeRowsFromFile, ColumnGroupLazyReader.openReaderForFile, hfile]
  dsimp only
  rwa [hopen]

variable {rowIndices : List ℤ}

/-- **The rows of the files** are put together in the order of the request. -/
theorem Serves.takeRowsFromFiles_ok (hne : rowIndices ≠ []) (hsorted : rowIndices.Pairwise (· < ·))
    (hrange : InRange (totalRows r.files) rowIndices) :
    ∃ t, r.takeRowsFromFiles rowIndices = .ok t ∧
      t.content = tabulate names (rowIndices.map (rowAt (visibleRows storage r.files))) ∧
      t.numRows = if names = [] then 0 else rowIndices.length := by
  obtain ⟨locate, hlocate⟩ := exists_locate hr.visible hrange
  -- the rows of a file
  let rowsOf := fun i => rowIndices.filter fun row => (locate row).1 = i
  have hindices : ∀ i, ((rowIndices.map locate).filter fun l => l.1 = i).map Prod.snd =
      (rowsOf i).map fun row => (locate row).2 := by
    intro i
    rw [filter_map, map_map]
    rfl
  let files := ((range r.files.length).map fun i =>
    (i, (rowsOf i).map fun row => (locate row).2)).filter fun indices => indices.2 ≠ []
  have hfiles : files ≠ [] := by
    obtain ⟨row, hrow⟩ := exists_mem_of_ne_nil _ hne
    have hmem : row ∈ rowsOf (locate row).1 :=
      mem_filter.mpr ⟨hrow, decide_eq_true rfl⟩
    refine ne_nil_of_mem (mem_filter.mpr ⟨mem_map.mpr ⟨(locate row).1,
      mem_range.mpr (hlocate row hrow).2.lt_length, rfl⟩, ?_⟩)
    simpa using ne_nil_of_mem hmem
  obtain ⟨t, ht, hcontent, hnumRows⟩ := mapM_concatenateTables_ok
    (fun indices => orStatus (r.takeRowsFromFile indices.1 indices.2))
    (fun indices => (rowsOf indices.1).map (rowAt (visibleRows storage r.files))) hfiles (by
      intro indices hmem
      obtain ⟨hmem, hnonempty⟩ := mem_filter.mp hmem
      obtain ⟨i, hi, rfl⟩ := mem_map.mp hmem
      have hfile := getElem?_eq_getElem (mem_range.mp hi)
      have hrowsOf : rowsOf i ≠ [] := by simpa using hnonempty
      obtain ⟨hreq, hrows⟩ := request_of_located hr.visible hrowsOf (hsorted.filter _)
        locate hfile fun row hrow => by
          obtain ⟨hrow, hi⟩ := mem_filter.mp hrow
          exact of_decide_eq_true hi ▸ (hlocate row hrow).2
      obtain ⟨t, ht, hholds, -⟩ := hr.takeRowsFromFile_ok hfile hreq
      exact ⟨t, by rw [ht]; rfl, hrows ▸ hholds⟩)
  have hrows : files.flatMap (fun indices =>
      (rowsOf indices.1).map (rowAt (visibleRows storage r.files))) =
        rowIndices.map (rowAt (visibleRows storage r.files)) := by
    rw [flatMap_filter_of_nil, flatMap_map, ← map_flatMap, Scatter.flatMap_filter_key]
    · exact hsorted.imp_of_mem fun hrow hrow' hlt =>
        (hlocate _ hrow).2.le hr.visible (hlocate _ hrow').2 hlt
    · exact fun row hrow => (hlocate row hrow).2.lt_length
    · intro indices hmem hnil
      obtain ⟨i, -, rfl⟩ := mem_map.mp hmem
      simpa using hnil
  rw [hrows] at hcontent hnumRows
  rw [length_map] at hnumRows
  refine ⟨t, ?_, hcontent, hnumRows⟩
  rw [ColumnGroupLazyReader.takeRowsFromFiles,
    Except.mapM_eq_ok_map fun row hrow => (hlocate row hrow).1, Except.ok_bind]
  simp only [hindices]
  exact ht

/-! ## `take` -/

omit hr in
/-- Slices of the same size. -/
theorem flatten_slices {rows : List ℤ} {avgRows m : ℕ} (h : m * avgRows ≤ rows.length) :
    ((List.range m).map fun i => slice rows (i * avgRows) ((i + 1) * avgRows)).flatten =
      slice rows 0 (m * avgRows) := by
  induction m with
  | zero => simp [slice]
  | succ m ih =>
    have hle : m * avgRows ≤ (m + 1) * avgRows := Nat.mul_le_mul_right _ (Nat.le_succ m)
    rw [range_succ, map_append, flatten_append, ih (hle.trans h), map_singleton,
      flatten_singleton, slice_append (Nat.zero_le _) hle]

omit hr in
/-- The lists for the threads are the row indices, divided. -/
theorem splitRowIndices_spec (hne : rowIndices ≠ []) (parallelDegree : ℕ) :
    (splitRowIndices rowIndices parallelDegree).flatten = rowIndices ∧
      ∀ split ∈ splitRowIndices rowIndices parallelDegree, split ≠ [] := by
  unfold splitRowIndices
  split_ifs with hdegree
  · simpa using hne
  · obtain ⟨n, rfl⟩ : ∃ n, parallelDegree = n + 1 := ⟨parallelDegree - 1, by omega⟩
    have havg : 0 < rowIndices.length / (n + 1) := Nat.div_pos (by omega) (by omega)
    have hle : (n + 1) * (rowIndices.length / (n + 1)) ≤ rowIndices.length := Nat.mul_div_le ..
    generalize rowIndices.length / (n + 1) = avgRows at havg hle ⊢
    have hlast : n * avgRows < rowIndices.length := by
      rw [Nat.succ_mul] at hle
      omega
    have hsplits : ((range (n + 1)).map fun i => slice rowIndices (i * avgRows)
        (if i = n + 1 - 1 then rowIndices.length else (i + 1) * avgRows)) =
        ((range n).map fun i => slice rowIndices (i * avgRows) ((i + 1) * avgRows)) ++
          [slice rowIndices (n * avgRows) rowIndices.length] := by
      rw [range_succ, map_append, map_singleton, if_pos (Nat.add_sub_cancel ..).symm]
      congr 1
      apply map_congr_left
      intro i hi
      rw [if_neg (by have := mem_range.mp hi; omega)]
    dsimp only
    rw [hsplits]
    constructor
    · rw [flatten_append, flatten_slices hlast.le, flatten_singleton,
        slice_append (Nat.zero_le _) hlast.le, slice, drop_zero, take_length]
    · have hslice : ∀ a b, a < b → b ≤ rowIndices.length → slice rowIndices a b ≠ [] := by
        intro a b hlt hb
        rw [← length_pos_iff, length_slice hb]
        omega
      rw [forall_mem_append, forall_mem_map, forall_mem_singleton]
      refine ⟨fun i hi => hslice _ _ ?_ ?_, hslice _ _ hlast le_rfl⟩
      · rw [Nat.succ_mul]
        omega
      · exact (Nat.mul_le_mul_right _ (mem_range.mp hi)).trans hlast.le

/-- **Taking rows.** -/
theorem Serves.take_ok (hne : rowIndices ≠ []) (hsorted : rowIndices.Pairwise (· < ·))
    (hrange : InRange (totalRows r.files) rowIndices) (parallelism numThreads : ℕ) :
    ∃ t, r.take rowIndices parallelism numThreads = .ok t ∧
      t.content = tabulate names (rowIndices.map (rowAt (visibleRows storage r.files))) ∧
      t.numRows = if names = [] then 0 else rowIndices.length := by
  rw [ColumnGroupLazyReader.take, validateSortedUniqueRowIndices_ok hsorted, Except.ok_bind,
    (validateRowIndices_iff hr.visible).mpr hrange, Except.ok_bind]
  by_cases hparallel : parallelism ≤ 1
  · rw [if_pos hparallel]
    exact hr.takeRowsFromFiles_ok hne hsorted hrange
  · rw [if_neg hparallel]
    obtain ⟨hflat, hnonempty⟩ := splitRowIndices_spec hne numThreads
    have hsub : ∀ split ∈ splitRowIndices rowIndices numThreads, split.Sublist rowIndices :=
      fun split hsplit => hflat ▸ sublist_flatten_of_mem hsplit
    have hsplits : splitRowIndices rowIndices numThreads ≠ [] :=
      fun hnil => hne (by rw [← hflat, hnil, flatten_nil])
    obtain ⟨t, ht, hcontent, hnumRows⟩ := mapM_concatenateTables_ok r.takeRowsFromFiles
      (fun split => split.map (rowAt (visibleRows storage r.files))) hsplits fun split hsplit => by
        obtain ⟨t, ht, hcontent, -⟩ := hr.takeRowsFromFiles_ok (hnonempty split hsplit)
          (hsorted.sublist (hsub split hsplit))
          fun row hrow => hrange row ((hsub split hsplit).subset hrow)
        exact ⟨t, ht, hcontent⟩
    have hrows : (splitRowIndices rowIndices numThreads).flatMap
        (fun split => split.map (rowAt (visibleRows storage r.files))) =
          rowIndices.map (rowAt (visibleRows storage r.files)) := by
      conv_rhs => rw [← hflat, map_flatten]
      rw [flatMap_def]
    rw [hrows] at hcontent hnumRows
    rw [length_map] at hnumRows
    exact ⟨t, ht, hcontent, hnumRows⟩

theorem Serves.take_error (hsorted : rowIndices.Pairwise (· < ·))
    (hrange : ¬ InRange (totalRows r.files) rowIndices) (parallelism numThreads : ℕ) :
    ∃ e, r.take rowIndices parallelism numThreads = .error e := by
  rw [ColumnGroupLazyReader.take, validateSortedUniqueRowIndices_ok hsorted, Except.ok_bind]
  cases hvalidate : validateRowIndices r.files rowIndices with
  | error e => exact ⟨e, rfl⟩
  | ok u => exact absurd ((validateRowIndices_iff hr.visible).mp hvalidate) hrange

end Serves

end MilvusStorage.Take
