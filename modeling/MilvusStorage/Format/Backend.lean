import MilvusStorage.Format.Bounds

/-!
# Backends that return what is asked for

The rows of the files, and a backend that returns them: `get_chunk` returns a row group, and a range
read returns the rows of the range, in batches that are not empty and do not end inside a chunk.
With such a backend `get_chunk` returns the rows of a chunk (`Backend.getChunk_eq`), and the batches
of a range of adjacent chunks are cut into the rows of the chunks (`Backend.grouped`).
-/

namespace MilvusStorage.Format

open List Grouping Tiling ColumnGroupReader

variable {Row : Type}

/-- The rows from `a` to `b`. -/
def slice (rows : List Row) (a b : ℕ) : List Row := (rows.take b).drop a

section Slice

variable {rows : List Row} {a b c : ℕ}

theorem length_slice (h : b ≤ rows.length) : (slice rows a b).length = b - a := by
  rw [slice, length_drop, length_take, min_eq_left h]

theorem slice_self : slice rows a a = [] := by
  rw [slice, drop_eq_nil_iff, length_take]
  exact min_le_left ..

theorem slice_append (hab : a ≤ b) (hbc : b ≤ c) :
    slice rows a b ++ slice rows b c = slice rows a c := by
  have htake : rows.take b = (rows.take c).take b := by
    rw [take_take, min_eq_left hbc]
  rw [slice, htake, slice, slice, drop_take]
  conv_rhs => rw [← take_append_drop (b - a) ((rows.take c).drop a), drop_drop]
  congr 2
  omega

theorem take_drop_slice {k n : ℕ} (h : a + k + n ≤ b) :
    ((slice rows a b).drop k).take n = slice rows (a + k) (a + k + n) := by
  rw [slice, slice, drop_drop, take_drop, take_take, min_eq_left (by omega)]

end Slice

section Backend

variable (content : ℕ → List Row)

/-- The rows of a chunk. -/
def chunkRows (c : ChunkInfo) : List Row :=
  slice (content c.fileIndex) c.rowOffsetInFile (c.rowOffsetInFile + c.numberOfRows)

/-- The rows are those of the chunk at an index. -/
def ColumnGroupReader.IsChunk (r : ColumnGroupReader Row) (idx : ℤ) (rows : List Row) : Prop :=
  ∃ c, r.chunkInfo? idx = some c ∧ rows = chunkRows content c

/-- The batches are the rows from `a` to `b` of the `i`-th file. None is empty, and no two of them
meet inside a chunk. -/
structure ReadsRange (r : ColumnGroupReader Row) (i a b : ℕ) (rbs : List (List Row)) : Prop where
  flatten_eq : rbs.flatten = slice (content i) a b
  ne_nil : ∀ rb ∈ rbs, rb ≠ []
  boundaries : ∀ done rest, rbs = done ++ rest → done ≠ [] → rest ≠ [] →
    ∀ c ∈ r.chunkInfos, c.fileIndex = i → ¬ (c.rowOffsetInFile < a + done.flatten.length ∧
      a + done.flatten.length < c.rowOffsetInFile + c.numberOfRows)

/-- A backend that returns the rows that are asked for. -/
structure Backend (r : ColumnGroupReader Row) : Prop where
  rowGroups : ∀ (i : ℕ) file reader, r.source.files[i]? = some file →
    r.formatReaders[i]? = some reader → ∃ rgs, reader.rowGroupInfos = .ok rgs ∧
      Contiguous rgs (content i).length ∧ file.endIndex ≤ (content i).length ∧
      ∀ (j : ℕ) rg, rgs[j]? = some rg →
        reader.getChunk j = .ok (slice (content i) rg.startOffset rg.endOffset)
  readWithRange : ∀ (i : ℕ) file, r.source.files[i]? = some file → ∃ reader,
    r.source.openReaderForFile file = .ok reader ∧ ∀ a b, a < b → b ≤ (content i).length →
      ∃ rbs, reader.readWithRange a b = .ok rbs ∧ ReadsRange content r i a b rbs
  readWithRangeAsync : ∀ (i : ℕ) file, r.source.files[i]? = some file → ∃ reader,
    r.source.openReaderForFileAsync file = .ok (.ok reader) ∧
      ∀ a b, a < b → b ≤ (content i).length →
        ∃ rbs, reader.readWithRangeAsync a b = .ok rbs ∧ ReadsRange content r i a b rbs

variable {content} {r : ColumnGroupReader Row} {group : List ChunkInfo}

/-- The rows of adjacent chunks are adjacent. -/
theorem flatten_chunkRows {i a b : ℕ} (hfile : ∀ c ∈ group, c.fileIndex = i)
    (h : Chained ChunkInfo.rowOffsetInFile ChunkInfo.numberOfRows a group b) :
    (group.map (chunkRows content)).flatten = slice (content i) a b := by
  induction group generalizing a with
  | nil =>
    obtain rfl : a = b := h
    exact slice_self.symm
  | cons c group ih =>
    obtain ⟨hc, hfile⟩ := forall_mem_cons.mp hfile
    obtain ⟨hstart, h⟩ := h
    rw [map_cons, flatten_cons, ih hfile h, chunkRows, hc, hstart]
    exact slice_append (Nat.le_add_right ..) h.le

theorem Backend.layouts (hback : Backend content r) : Layouts r := by
  intro i file reader hfile hreader
  obtain ⟨rgs, hrgs, hcontig, hend, -⟩ := hback.rowGroups i file reader hfile hreader
  exact ⟨rgs, _, hrgs, hcontig, hend⟩

variable (h : IsOpen r) (hback : Backend content r)

include h hback

variable {c : ChunkInfo}

/-- The rows of a chunk exist. -/
theorem Backend.end_le (hc : c ∈ r.chunkInfos) :
    c.rowOffsetInFile + c.numberOfRows ≤ (content c.fileIndex).length := by
  obtain ⟨file, hfile, hle⟩ := h.mem_file hback.layouts hc
  obtain ⟨reader, -, hreader, -⟩ := h.inside hback.layouts hc
  obtain ⟨rgs, -, -, hend, -⟩ := hback.rowGroups _ file reader hfile hreader
  omega

theorem Backend.length_chunkRows (hc : c ∈ r.chunkInfos) :
    (chunkRows content c).length = c.numberOfRows := by
  rw [chunkRows, length_slice (hback.end_le h hc), Nat.add_sub_cancel_left]

/-- `get_chunk` slices the row group to the rows of the chunk. -/
theorem Backend.getChunk_eq (hpred : r.predicateApplied = false) {idx : ℤ}
    (hidx : r.chunkInfo? idx = some c) : r.getChunk idx = .ok (chunkRows content c) := by
  have hc := mem_chunkInfos hidx
  obtain ⟨file, hfile, -⟩ := h.mem_file hback.layouts hc
  obtain ⟨reader, rgs, hreader, hrgs, rg, hrg, hoff, hle⟩ := h.inside hback.layouts hc
  obtain ⟨rgs', hrgs', hcontig, -, hchunk⟩ := hback.rowGroups _ file reader hfile hreader
  cases hrgs.symm.trans hrgs'
  have hend : rg.endOffset ≤ (content c.fileIndex).length := by
    have := (hcontig.chained.mem (mem_of_getElem? hrg)).2
    rw [RowGroupInfo.numRows] at *
    omega
  have hslice : sliceChunk c (slice (content c.fileIndex) rg.startOffset rg.endOffset) =
      chunkRows content c := by
    rw [sliceChunk, chunkRows, length_slice hend]
    split_ifs with hpart
    · rw [take_drop_slice (by omega), ← hoff]
    · congr 1
      · omega
      · omega
  rw [getChunk, hidx]
  dsimp only
  rw [hreader]
  dsimp only
  rw [hchunk _ rg hrg, hpred]
  change (Except.ok (sliceChunk c _) : Except Fault _) = _
  rw [hslice]

/-- **The batches of adjacent chunks** are groups of chunks and hold their rows. -/
theorem Backend.grouped {i a b : ℕ} {rbs : List (List Row)}
    (hgroup : ∀ c ∈ group, c ∈ r.chunkInfos ∧ c.fileIndex = i)
    (hchain : Chained ChunkInfo.rowOffsetInFile ChunkInfo.numberOfRows a group b)
    (hb : b ≤ (content i).length) (hrbs : ReadsRange content r i a b rbs) :
    Grouped (rbs.map List.length) (sizes group) ∧
      rbs.flatten = (group.map (chunkRows content)).flatten := by
  have hsum : a + (sizes group).sum = b := hchain.sum_eq
  constructor
  · have htotal : rbs.flatten.length = (sizes group).sum := by
      rw [hrbs.flatten_eq, length_slice hb]
      omega
    refine grouped_of_boundaries ?_ ?_ ?_ ?_
    · exact forall_mem_map.mpr fun rb hrb => length_pos_iff.mpr (hrbs.ne_nil rb hrb)
    · exact forall_sizes_pos fun c hc => h.numberOfRows_pos hback.layouts (hgroup c hc).1
    · rw [← length_flatten, htotal]
    · intro ms1 ms2 ns1 n ns2 hms hns
      obtain ⟨done, rest, rfl, rfl, rfl⟩ := map_eq_append_iff.mp hms
      obtain ⟨before, after, rfl, rfl, hafter⟩ := map_eq_append_iff.mp hns
      obtain ⟨c, after, rfl, rfl, rfl⟩ := map_eq_cons_iff.mp hafter
      obtain ⟨hmem, hfile⟩ := hgroup c (mem_append_right _ mem_cons_self)
      have hbefore := (hchain.split).1.sum_eq
      rw [← length_flatten]
      rintro ⟨hlt, hgt⟩
      -- The boundary is neither the start nor the end of the range.
      have hdone : done ≠ [] := by
        rintro rfl
        exact Nat.not_lt_zero _ hlt
      have hrest : rest ≠ [] := by
        rintro rfl
        rw [append_nil] at htotal
        simp only [sizes, map_append, map_cons, sum_append, sum_cons] at htotal
        omega
      have := hrbs.boundaries done rest rfl hdone hrest c hmem hfile
      omega
  · rw [hrbs.flatten_eq, flatten_chunkRows (fun c hc => (hgroup c hc).2) hchain]

end Backend

end MilvusStorage.Format
