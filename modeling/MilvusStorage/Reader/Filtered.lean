import MilvusStorage.Reader.Zip

/-!
# The stream under a predicate

With a predicate the column-group reader reads a single group, chunk by chunk. `readNext_filtered`:
it returns what is left of the chunks, one after the other, and then null.
-/

namespace MilvusStorage.Reader

open List

variable {V : Type}

/-- What is left of a chunk in a column. -/
def Chunk.filteredCells (c : Chunk V) (name : String) : List (Option V) :=
  match c.filtered with
  | some r => (r.column name).1
  | none => []

/-- How many rows are left of a chunk. -/
def Chunk.filteredRows (c : Chunk V) : ℕ :=
  match c.filtered with
  | some r => r.count
  | none => 0

variable {R : PackedReader V} {g : ColumnGroupReader V}

theorem fetched_filtered (hp : R.predicate = true) (i : ℕ) (c : Chunk V) :
    rows (R.fetched i c) = c.filteredRows ∧ ∀ j name, (R.names i)[j]? = some name →
      cells (R.fetched i c) j = c.filteredCells name := by
  simp only [PackedReader.fetched, Chunk.filteredRows, Chunk.filteredCells, hp, if_true]
  cases c.filtered with
  | none => exact ⟨rfl, fun j name _ => rfl⟩
  | some r =>
    dsimp only
    split_ifs with hpos
    · refine ⟨add_zero _, fun j name hj => ?_⟩
      rw [cells_cons, cells_nil, append_nil]
      exact column_project hj
    · -- a batch without rows is not queued
      have hzero : r.count = 0 := by omega
      refine ⟨hzero.symm, fun j name _ => ?_⟩
      exact (length_eq_zero_iff.mp ((r.column name).2.trans hzero)).symm

theorem whole_filtered (hp : R.predicate = true) (hreaders : R.readers = [g]) :
    rows (R.whole 0) = (g.chunks.map Chunk.filteredRows).sum ∧
      ∀ j name, (projection R.neededColumns g)[j]? = some name →
        cells (R.whole 0) j = g.chunks.flatMap fun c => c.filteredCells name := by
  have hchunks : R.chunks 0 = g.chunks := by simp only [PackedReader.chunks, hreaders]; rfl
  have hnames : R.names 0 = projection R.neededColumns g := by
    simp only [PackedReader.names, hreaders]; rfl
  rw [PackedReader.whole, hchunks, ← hnames]
  generalize g.chunks = chunks
  induction chunks with
  | nil => exact ⟨rfl, fun j name _ => rfl⟩
  | cons c chunks ih =>
    obtain ⟨hrows, hcells⟩ := fetched_filtered hp 0 c
    refine ⟨?_, fun j name hj => ?_⟩
    · rw [flatMap_cons, rows_append, hrows, ih.1, map_cons, sum_cons]
    · rw [flatMap_cons, cells_append, hcells j name hj, ih.2 j name hj, flatMap_cons]

/-- **The stream under a predicate.** -/
theorem readNext_filtered (heap : RowOffsetMinHeap) {schema : Option (List String)}
    {neededColumns : List String} {properties : Properties}
    (hopen : openReader schema [g] neededColumns true properties = .ok R)
    (hlimit : 1 ≤ properties.recordBatchMaxRows ∧ properties.recordBatchMaxRows < 2 ^ 63) :
    ∃ bs, R.Drains heap bs ∧ rows bs = (g.chunks.map Chunk.filteredRows).sum ∧
      ∀ k name, neededColumns[k]? = some name →
        (name ∈ g.columns → cells bs k = g.chunks.flatMap fun c => c.filteredCells name) ∧
        (name ∉ g.columns → cells bs k = List.replicate (rows bs) none) := by
  obtain ⟨hv, hreaders, rfl, hp, hrowLimit⟩ := openReader_valid hopen
  have hpos : 0 < (R.numberOfRowLimit % 2 ^ 64).toNat := by
    omega
  obtain ⟨hrows, hwhole⟩ := whole_filtered hp hreaders
  obtain ⟨bs, hdrains, hbs, -, hcells⟩ := hv.exists_drains heap hpos
  refine ⟨bs, hdrains, hbs.trans hrows, fun k name hk => ?_⟩
  have hlt : k < R.outFieldMap.length := by
    rw [hv.length_outFieldMap]
    exact lt_of_getElem? hk
  have hentry := getElem?_eq_getElem hlt
  rw [hcells k, PackedReader.stream]
  cases hmap : R.outFieldMap[k] with
  | none =>
    rw [hmap] at hentry
    have hnot := hv.notMem_columns k name hentry hk g (hreaders ▸ mem_singleton_self g)
    rw [hentry, hbs]
    exact ⟨fun hmem => absurd hmem hnot, fun _ => rfl⟩
  | some entry =>
    obtain ⟨i, j⟩ := entry
    rw [hmap] at hentry
    obtain ⟨r, hr, hj⟩ := hv.mem_outFieldMap k i j hentry
    rw [hreaders] at hr
    obtain ⟨hi, rfl⟩ := List.getElem?_eq_some_iff.mp hr
    obtain rfl : i = 0 := Nat.lt_one_iff.mp hi
    rw [hk] at hj
    have hmem : name ∈ g.columns :=
      of_decide_eq_true (mem_filter.mp (mem_of_getElem? hj)).2
    rw [hentry]
    exact ⟨fun _ => hwhole j name hj, fun hnot => absurd hmem hnot⟩

end MilvusStorage.Reader
