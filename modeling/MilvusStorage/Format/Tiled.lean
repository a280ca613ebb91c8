import MilvusStorage.Format.Chunks

/-!
# The rows of a column group

The chunks of a column group tile its visible rows, and `get_chunk_indices` finds the chunks of some
rows, as long as there are at most `2 ^ 63` rows (`open_tiled_iff`). Beyond that, the comparison of
a negative row index with the ends of the chunks, in which it is converted to `size_t`, can find a
chunk.
-/

namespace MilvusStorage.Format

open List Tiling

variable {Row : Type}

/-- The files have contiguous row groups from row 0 on, and their visible rows exist. -/
def Layouts (r : ColumnGroupReader Row) : Prop :=
  ∀ (i : ℕ) file reader, r.source.files[i]? = some file → r.formatReaders[i]? = some reader →
    ∃ (rgs : List RowGroupInfo) (n : ℕ),
      reader.rowGroupInfos = .ok rgs ∧ Contiguous rgs n ∧ file.endIndex ≤ n

/-- The chunks of the `i`-th file. -/
def fileChunks (chunkInfos : List ChunkInfo) (i : ℕ) : List ChunkInfo :=
  chunkInfos.filter fun c => c.fileIndex = i

/-! ## All files -/

section Appends

variable {fileIdx rows rows' : ℕ} {entries : List (ColumnGroupFile × List RowGroupInfo)}
  {chunks : List ChunkInfo}

/-- A file with its row groups, whose visible rows exist. -/
def Entry (e : ColumnGroupFile × List RowGroupInfo) : Prop :=
  0 ≤ e.1.startIndex ∧ e.1.startIndex < e.1.endIndex ∧ ∃ n : ℕ, Contiguous e.2 n ∧ e.1.endIndex ≤ n

variable {e : ColumnGroupFile × List RowGroupInfo}

theorem Entry.fileChunks (he : Entry e)
    (h : appendFileMetadata fileIdx e.1 e.2 rows = .ok (chunks, rows')) :
    FileChunks fileIdx e.1 e.2 rows chunks rows' := by
  obtain ⟨hstart, hlt, n, hrgs, hend⟩ := he
  exact appendFileMetadata_spec hrgs hstart hlt hend h

/-- A chunk of one of the files. -/
structure ChunkOf (fileIdx : ℕ) (entries : List (ColumnGroupFile × List RowGroupInfo))
    (c : ChunkInfo) : Prop where
  fileIdx_le : fileIdx ≤ c.fileIndex
  globalRowEnd_lt : c.globalRowEnd < 2 ^ 64
  numberOfRows_pos : 0 < c.numberOfRows
  inside : ∃ e, entries[c.fileIndex - fileIdx]? = some e ∧ Inside e.2 c

theorem Appends.mem (h : Appends fileIdx rows entries chunks rows')
    (hentries : ∀ e ∈ entries, Entry e) : ∀ c ∈ chunks, ChunkOf fileIdx entries c := by
  induction h with
  | nil => exact forall_mem_nil _
  | @cons fileIdx rows rows' rows'' file rgs entries chunks chunks' hchunks hrest ih =>
    obtain ⟨he, hentries⟩ := forall_mem_cons.mp hentries
    have hfile := he.fileChunks hchunks
    intro c hc
    obtain hc | hc := mem_append.mp hc
    · obtain ⟨hidx, hlt, hinside⟩ := hfile.mem c hc
      refine ⟨hidx.ge, hlt, hfile.tiles.size_pos c hc, (file, rgs), ?_, hinside⟩
      simp [hidx]
    · obtain ⟨hle, hlt, hpos, e, he, hinside⟩ := ih hentries c hc
      refine ⟨by omega, hlt, hpos, e, ?_, hinside⟩
      rwa [show c.fileIndex - fileIdx = c.fileIndex - (fileIdx + 1) + 1 by omega]

theorem fileChunks_eq_nil {i : ℕ} (h : ∀ c ∈ chunks, c.fileIndex ≠ i) :
    fileChunks chunks i = [] := by
  simpa [fileChunks] using h

theorem fileChunks_append_of_lt {chunks chunks' : List ChunkInfo} {i : ℕ}
    (h : ∀ c ∈ chunks, c.fileIndex = fileIdx) (hlt : fileIdx < i) :
    fileChunks (chunks ++ chunks') i = fileChunks chunks' i := by
  have hnil := fileChunks_eq_nil fun c hc => (h c hc).trans_ne hlt.ne
  rw [fileChunks, filter_append]
  exact congrArg (· ++ _) hnil

theorem fileChunks_append_self {chunks chunks' : List ChunkInfo}
    (h : ∀ c ∈ chunks, c.fileIndex = fileIdx) (h' : ∀ c ∈ chunks', fileIdx < c.fileIndex) :
    fileChunks (chunks ++ chunks') fileIdx = chunks := by
  have hnil := fileChunks_eq_nil fun c hc => (h' c hc).ne'
  rw [fileChunks, filter_append, filter_eq_self.mpr fun c hc => decide_eq_true (h c hc)]
  exact (congrArg (_ ++ ·) hnil).trans (append_nil _)

/-- The chunks of each file tile its visible rows. -/
theorem Appends.tiles (h : Appends fileIdx rows entries chunks rows')
    (hentries : ∀ e ∈ entries, Entry e) {k : ℕ} (hk : entries[k]? = some e) :
    Tiles ChunkInfo.rowOffsetInFile ChunkInfo.numberOfRows e.1.startIndex.toNat
      (fileChunks chunks (fileIdx + k)) e.1.endIndex.toNat := by
  induction h generalizing k with
  | nil => cases hk
  | @cons fileIdx rows rows' rows'' file rgs entries chunks chunks' hchunks hrest ih =>
    obtain ⟨he, hentries⟩ := forall_mem_cons.mp hentries
    have hfile := he.fileChunks hchunks
    have hidx : ∀ c ∈ chunks, c.fileIndex = fileIdx := fun c hc => (hfile.mem c hc).1
    cases k with
    | zero =>
      cases hk
      rw [add_zero, fileChunks_append_self hidx]
      · exact hfile.tiles
      · exact fun c hc => (hrest.mem hentries c hc).fileIdx_le
    | succ k =>
      have hidx' : fileIdx + (k + 1) = fileIdx + 1 + k := by omega
      rw [fileChunks_append_of_lt hidx (by omega), hidx']
      exact ih hentries hk

section

variable (h : Appends fileIdx rows entries chunks rows') (hentries : ∀ e ∈ entries, Entry e)
include h hentries

/-- The chunks are in the order of the files. -/
theorem Appends.flatMap_fileChunks :
    (List.range' fileIdx entries.length).flatMap (fileChunks chunks) = chunks := by
  induction h with
  | nil => rfl
  | @cons fileIdx rows rows' rows'' file rgs entries chunks chunks' hchunks hrest ih =>
    obtain ⟨he, hentries⟩ := forall_mem_cons.mp hentries
    have hfile := he.fileChunks hchunks
    have hidx : ∀ c ∈ chunks, c.fileIndex = fileIdx := fun c hc => (hfile.mem c hc).1
    rw [length_cons, range'_succ, flatMap_cons, fileChunks_append_self hidx
      fun c hc => (hrest.mem hentries c hc).fileIdx_le]
    congr 1
    rw [← ih hentries]
    apply flatMap_congr
    intro i hi
    rw [ih hentries]
    exact fileChunks_append_of_lt hidx (by have := mem_range'_1.mp hi; omega)

/-- As long as `size_t` does not wrap around, the chunks tile the rows of all files. -/
theorem Appends.global (hlt : rows + (entries.map fun e => visibleRows e.1).sum < 2 ^ 64) :
    Chained ChunkInfo.globalRowStart ChunkInfo.numberOfRows rows chunks rows' ∧
      rows' = rows + (entries.map fun e => visibleRows e.1).sum ∧
      ∀ c ∈ chunks, c.numberOfRows ≤ c.globalRowEnd := by
  induction h with
  | nil => exact ⟨rfl, rfl, forall_mem_nil _⟩
  | @cons fileIdx rows rows' rows'' file rgs entries chunks chunks' hchunks hrest ih =>
    obtain ⟨he, hentries⟩ := forall_mem_cons.mp hentries
    rw [map_cons, sum_cons] at hlt ⊢
    obtain ⟨hchain, hrows, hle⟩ := (he.fileChunks hchunks).global (by omega)
    obtain ⟨hchain', hrows', hle'⟩ := ih hentries (by omega)
    exact ⟨chained_append hchain hchain', by omega, forall_mem_append.mpr ⟨hle, hle'⟩⟩

end

end Appends

/-! ## Finding rows -/

/-- The values of a list, each at its first occurrence. -/
def firstOccurrences (l : List ℕ) : List ℕ := l.reverse.dedup.reverse

theorem firstOccurrences_append (l : List ℕ) (k : ℕ) : firstOccurrences (l ++ [k]) =
    if k ∈ firstOccurrences l then firstOccurrences l else firstOccurrences l ++ [k] := by
  have hmem : k ∈ firstOccurrences l ↔ k ∈ l.reverse := by
    rw [firstOccurrences, mem_reverse, mem_dedup]
  rw [firstOccurrences, reverse_append, reverse_singleton, singleton_append]
  split_ifs with h
  · rw [dedup_cons_of_mem (hmem.mp h), firstOccurrences]
  · rw [dedup_cons_of_notMem (mt hmem.mpr h), reverse_cons, firstOccurrences]

theorem chunkIndicesFrom_eq_ok {chunkInfos : List ChunkInfo} (hits : List ℕ) {rowIndices : List ℤ}
    {ks : List ℕ} :
    chunkIndicesFrom chunkInfos (firstOccurrences hits) rowIndices = .ok ks ↔
      (∀ x ∈ rowIndices, upperBound chunkInfos x < chunkInfos.length) ∧
        ks = firstOccurrences (hits ++ rowIndices.map (upperBound chunkInfos)) := by
  induction rowIndices generalizing hits with
  | nil => simp [chunkIndicesFrom, eq_comm]
  | cons x rowIndices ih =>
    have happend : hits ++ (x :: rowIndices).map (upperBound chunkInfos) =
        hits ++ [upperBound chunkInfos x] ++ rowIndices.map (upperBound chunkInfos) := by
      rw [map_cons, append_assoc, singleton_append]
    rw [chunkIndicesFrom, forall_mem_cons, happend]
    by_cases hrange : chunkInfos.length ≤ upperBound chunkInfos x
    · rw [if_pos hrange]
      simp only [reduceCtorEq, false_iff]
      omega
    · have hstep := firstOccurrences_append hits (upperBound chunkInfos x)
      split_ifs at hstep ⊢ with hmem
      all_goals
        rw [← hstep, ih]
        exact and_congr_left fun _ => (and_iff_right (not_le.mp hrange)).symm

namespace ColumnGroupReader

variable (r : ColumnGroupReader Row)

def visibleRows : ℕ := (r.source.files.map Format.visibleRows).sum

/-- The rows that the chunks show, in order: a file and the row in the file. -/
def positions : List (ℕ × ℕ) :=
  r.chunkInfos.flatMap fun c => (List.range' c.rowOffsetInFile c.numberOfRows).map (c.fileIndex, ·)

/-- The row of all files is in the `k`-th chunk. -/
def RowIn (x : ℤ) (k : ℕ) : Prop :=
  ∃ c, r.chunkInfos[k]? = some c ∧ c.globalRowStart ≤ x ∧ x < c.globalRowEnd

/-- The chunks of a column group tile its visible rows, and `get_chunk_indices` finds them. -/
structure Tiled : Prop where
  inOrder : (List.range r.source.files.length).flatMap (fileChunks r.chunkInfos) = r.chunkInfos
  tiles : ∀ (i : ℕ) file, r.source.files[i]? = some file →
    Tiles ChunkInfo.rowOffsetInFile ChunkInfo.numberOfRows file.startIndex.toNat
      (fileChunks r.chunkInfos i) file.endIndex.toNat
  inside : ∀ c ∈ r.chunkInfos, ∃ reader rgs, r.formatReaders[c.fileIndex]? = some reader ∧
    reader.rowGroupInfos = .ok rgs ∧ Inside rgs c
  increasing : r.chunkInfos.Pairwise fun c d => c.globalRowEnd < d.globalRowEnd
  last_eq : r.chunkInfos.getLast?.elim 0 ChunkInfo.globalRowEnd = r.visibleRows
  /-- All rows are found or there is an error. -/
  isOk_iff : ∀ rowIndices : List ℤ, (∀ x ∈ rowIndices, -2 ^ 63 ≤ x ∧ x < 2 ^ 63) →
    ((∃ ks, r.getChunkIndices rowIndices = .ok ks) ↔ ∀ x ∈ rowIndices, 0 ≤ x ∧ x < r.visibleRows)
  chunkIndices_eq : ∀ rowIndices : List ℤ, (∀ x ∈ rowIndices, -2 ^ 63 ≤ x ∧ x < 2 ^ 63) →
    ∀ ks, r.getChunkIndices rowIndices = .ok ks →
      ∃ hits, Forall₂ r.RowIn rowIndices hits ∧ ks = firstOccurrences hits

end ColumnGroupReader

/-! ## Opened column groups -/

theorem overlap_rowOffsetInFile {startIndex endIndex : ℕ} {rg : RowGroupInfo} {f : Fragment}
    (h : overlap startIndex endIndex rg = some f) :
    f.rowOffsetInFile = max startIndex rg.startOffset := by
  obtain ⟨-, h⟩ := Option.ite_none_right_eq_some.mp h
  rw [← Option.some.inj h]

variable {r : ColumnGroupReader Row} {c : ChunkInfo} {chunks : List ChunkInfo}
  {file : ColumnGroupFile}

/-- A chunk does not start before the visible rows, whatever the row groups are. -/
theorem appendFileMetadata_start {fileIdx rows rows' : ℕ} {rgs : List RowGroupInfo}
    (h : appendFileMetadata fileIdx file rgs rows = .ok (chunks, rows')) (hc : c ∈ chunks) :
    c.fileIndex = fileIdx ∧ toUnsigned 64 file.startIndex ≤ c.rowOffsetInFile := by
  unfold appendFileMetadata at h
  split at h
  · cases h
    cases hc
  · split_ifs at h with hpart hindices
    · cases h
      obtain ⟨hfile, -, k, rg, f, -, hf, -, -, hoff, -⟩ := appendChunks_mem hc
      rw [hoff, overlap_rowOffsetInFile hf]
      exact ⟨hfile, le_max_left ..⟩
    · cases h
      obtain ⟨hfile, -⟩ := appendChunks_mem hc
      have hzero := not_not.mp (not_or.mp hpart).1
      rw [hzero]
      exact ⟨hfile, Nat.zero_le _⟩

theorem Appends.startIndex_le {fileIdx rows rows' : ℕ}
    {entries : List (ColumnGroupFile × List RowGroupInfo)}
    (h : Appends fileIdx rows entries chunks rows') (hc : c ∈ chunks) :
    ∃ k e, c.fileIndex = fileIdx + k ∧ entries[k]? = some e ∧
      toUnsigned 64 e.1.startIndex ≤ c.rowOffsetInFile := by
  induction h with
  | nil => cases hc
  | @cons fileIdx rows rows' rows'' file rgs entries chunks chunks' hchunks hrest ih =>
    obtain hc | hc := mem_append.mp hc
    · obtain ⟨hfile, hle⟩ := appendFileMetadata_start hchunks hc
      exact ⟨0, (file, rgs), hfile, rfl, hle⟩
    · obtain ⟨k, e, hfile, he, hle⟩ := ih hc
      exact ⟨k + 1, e, by omega, he, hle⟩

theorem IsOpen.startIndex_le (h : IsOpen r) (hc : c ∈ r.chunkInfos) :
    ∃ file, r.source.files[c.fileIndex]? = some file ∧
      (toUnsigned 64 file.startIndex : ℤ) ≤ c.rowOffsetInFile := by
  obtain ⟨rgss, -, happends⟩ := h.appends
  obtain ⟨k, e, hfile, he, hle⟩ := happends.startIndex_le hc
  obtain ⟨he', -⟩ := getElem?_zip_eq_some.mp he
  refine ⟨e.1, ?_, by omega⟩
  rw [hfile, zero_add, he']

/-- The files of an opened column group with their row groups. -/
theorem IsOpen.entries (h : IsOpen r) (hlayouts : Layouts r) :
    ∃ entries, (∀ e ∈ entries, Entry e) ∧ entries.map Prod.fst = r.source.files ∧
      RowGroups r.formatReaders (entries.map Prod.snd) ∧
      Appends 0 0 entries r.chunkInfos r.totalRows := by
  obtain ⟨rgss, hrgss, happends⟩ := h.appends
  have hlen : r.source.files.length = rgss.length :=
    h.readers.length_eq.trans hrgss.length_eq
  have hfst : (r.source.files.zip rgss).map Prod.fst = r.source.files := map_fst_zip hlen.le
  have hsnd : (r.source.files.zip rgss).map Prod.snd = rgss := map_snd_zip hlen.ge
  refine ⟨r.source.files.zip rgss, ?_, hfst, hsnd.symm ▸ hrgss, happends⟩
  rintro ⟨file, rgs⟩ he
  obtain ⟨i, hi, hget⟩ := getElem_of_mem he
  rw [length_zip] at hi
  cases getElem_zip.symm.trans hget
  obtain ⟨hstart, hlt⟩ := h.valid _ (getElem_mem (by omega : i < r.source.files.length))
  have hreader : i < r.formatReaders.length := by rw [← h.readers.length_eq]; omega
  obtain ⟨rgs, n, hrgs, hcontig, hend⟩ := hlayouts i _ _
    (getElem?_eq_getElem (by omega)) (getElem?_eq_getElem hreader)
  have hrgs' := hrgss.get hreader (by omega : i < rgss.length)
  cases hrgs.symm.trans hrgs'
  exact ⟨hstart, hlt, n, hcontig, hend⟩

/-- The format reader of a file with these row groups. -/
theorem RowGroups.exists_reader {readers : List (FormatReader Row)}
    {entries : List (ColumnGroupFile × List RowGroupInfo)}
    (h : RowGroups readers (entries.map Prod.snd)) {i : ℕ}
    {e : ColumnGroupFile × List RowGroupInfo} (he : entries[i]? = some e) :
    ∃ reader, readers[i]? = some reader ∧ reader.rowGroupInfos = .ok e.2 := by
  have hrgs : (entries.map Prod.snd)[i]? = some e.2 := by simp [he]
  exact h.exists_getElem? hrgs

section IsOpen

variable {r : ColumnGroupReader Row} (h : IsOpen r) (hlayouts : Layouts r)

include h hlayouts

theorem IsOpen.inOrder :
    (List.range r.source.files.length).flatMap (fileChunks r.chunkInfos) = r.chunkInfos := by
  obtain ⟨entries, hentries, hfiles, -, happends⟩ := h.entries hlayouts
  rw [← hfiles, length_map, range_eq_range']
  exact happends.flatMap_fileChunks hentries

theorem IsOpen.tiles {i : ℕ} (hi : r.source.files[i]? = some file) :
    Tiles ChunkInfo.rowOffsetInFile ChunkInfo.numberOfRows file.startIndex.toNat
      (fileChunks r.chunkInfos i) file.endIndex.toNat := by
  obtain ⟨entries, hentries, hfiles, -, happends⟩ := h.entries hlayouts
  rw [← hfiles, getElem?_map, Option.map_eq_some_iff] at hi
  obtain ⟨e, he, rfl⟩ := hi
  have htiles := happends.tiles hentries he
  rwa [zero_add] at htiles

variable {c : ChunkInfo}

theorem IsOpen.inside (hc : c ∈ r.chunkInfos) :
    ∃ reader rgs, r.formatReaders[c.fileIndex]? = some reader ∧ reader.rowGroupInfos = .ok rgs ∧
      Inside rgs c := by
  obtain ⟨entries, hentries, -, hrgss, happends⟩ := h.entries hlayouts
  obtain ⟨e, he, hinside⟩ := (happends.mem hentries c hc).inside
  obtain ⟨reader, hreader, hrgs⟩ := hrgss.exists_reader he
  exact ⟨reader, e.2, hreader, hrgs, hinside⟩

/-- The chunks show the visible rows. -/
theorem IsOpen.positions_eq : r.positions = r.source.files.zipIdx.flatMap fun (file, i) =>
    (List.range' file.startIndex.toNat (visibleRows file)).map (i, ·) := by
  have hrange : range r.source.files.length = r.source.files.zipIdx.map Prod.snd := by
    rw [zipIdx_map_snd, range_eq_range']
  rw [ColumnGroupReader.positions]
  conv_lhs => rw [← h.inOrder hlayouts, flatMap_assoc, hrange, flatMap_map]
  apply flatMap_congr
  rintro ⟨file, i⟩ hmem
  have hi : r.source.files[i]? = some file := mem_zipIdx_iff_getElem?.mp hmem
  have htiles := h.tiles hlayouts hi
  have hfile : ∀ c ∈ fileChunks r.chunkInfos i, c.fileIndex = i := fun c hc =>
    of_decide_eq_true (mem_filter.mp hc).2
  calc (fileChunks r.chunkInfos i).flatMap
        (fun c => (range' c.rowOffsetInFile c.numberOfRows).map (c.fileIndex, ·))
      = (fileChunks r.chunkInfos i).flatMap
          (fun c => (range' c.rowOffsetInFile c.numberOfRows).map (i, ·)) := by
        apply flatMap_congr
        intro c hc
        rw [hfile c hc]
    _ = (range' file.startIndex.toNat (visibleRows file)).map (i, ·) := by
        rw [← map_flatMap, htiles.chained.flatMap_range']
        congr 2
        have := h.valid file (mem_of_getElem? hi)
        unfold visibleRows
        omega

theorem IsOpen.numberOfRows_pos (hc : c ∈ r.chunkInfos) : 0 < c.numberOfRows := by
  obtain ⟨entries, hentries, -, -, happends⟩ := h.entries hlayouts
  exact (happends.mem hentries c hc).numberOfRows_pos

theorem IsOpen.globalRowEnd_lt (hc : c ∈ r.chunkInfos) : c.globalRowEnd < 2 ^ 64 := by
  obtain ⟨entries, hentries, -, -, happends⟩ := h.entries hlayouts
  exact (happends.mem hentries c hc).globalRowEnd_lt

/-- As long as `size_t` does not wrap around, the chunks tile the rows of the column group. -/
theorem IsOpen.global (hlt : r.visibleRows < 2 ^ 64) :
    Chained ChunkInfo.globalRowStart ChunkInfo.numberOfRows 0 r.chunkInfos r.visibleRows ∧
      r.totalRows = r.visibleRows ∧ ∀ c ∈ r.chunkInfos,
        c.globalRowStart + c.numberOfRows = c.globalRowEnd := by
  obtain ⟨entries, hentries, hfiles, -, happends⟩ := h.entries hlayouts
  have hsum : r.visibleRows = (entries.map fun e => visibleRows e.1).sum := by
    rw [ColumnGroupReader.visibleRows, ← hfiles, map_map]
    rfl
  obtain ⟨hchain, hrows, hle⟩ := happends.global hentries (by omega)
  rw [zero_add, ← hsum] at hrows
  refine ⟨hrows ▸ hchain, hrows, fun c hc => ?_⟩
  have := hle c hc
  unfold ChunkInfo.globalRowStart
  omega

/-- The chunk that `upper_bound` finds for a row. -/
theorem IsOpen.upperBound_lt (hle : r.visibleRows ≤ 2 ^ 63) {x : ℤ} (hx : -2 ^ 63 ≤ x)
    (hx' : x < 2 ^ 63) (hfound : upperBound r.chunkInfos x < r.chunkInfos.length) :
    0 ≤ x ∧ x < r.visibleRows := by
  obtain ⟨hchain, -, hend⟩ := h.global hlayouts (by omega)
  obtain ⟨c, hc, hlt⟩ := findIdx_lt_length.mp hfound
  have hcle := (hchain.mem hc).2
  rw [hend c hc] at hcle
  rw [decide_eq_true_eq] at hlt
  unfold toUnsigned at hlt
  omega

theorem IsOpen.upperBound_rowIn (hle : r.visibleRows ≤ 2 ^ 63) {x : ℤ} (hx : 0 ≤ x)
    (hx' : x < r.visibleRows) : r.RowIn x (upperBound r.chunkInfos x) := by
  obtain ⟨hchain, -, hend⟩ := h.global hlayouts (by omega)
  obtain ⟨c, hc, hstart, hlt⟩ := hchain.findIdx (Nat.zero_le x.toNat) (by omega)
    (p := fun c => toUnsigned 64 x < c.globalRowEnd) fun c hc => by
      rw [toUnsigned_of_nonneg hx (by omega), hend c hc]
  rw [hend c (mem_of_getElem? hc)] at hlt
  exact ⟨c, hc, by omega, by omega⟩

/-- With more rows, the least row index becomes `2 ^ 63` in the comparison, which is before the end
of the last chunk. -/
theorem IsOpen.le_of_tiled (htiled : r.Tiled) : r.visibleRows ≤ 2 ^ 63 := by
  by_contra hgt
  have hlast := htiled.last_eq
  cases hget : r.chunkInfos.getLast? with
  | none =>
    simp only [hget, Option.elim_none] at hlast
    omega
  | some c =>
    simp only [hget, Option.elim_some] at hlast
    have hc := mem_of_getLast? hget
    have hlt := h.globalRowEnd_lt hlayouts hc
    have hfound : upperBound r.chunkInfos (-2 ^ 63) < r.chunkInfos.length := by
      apply findIdx_lt_length.mpr
      refine ⟨c, hc, decide_eq_true ?_⟩
      unfold toUnsigned
      omega
    have hok : ∃ ks, r.getChunkIndices [-2 ^ 63] = .ok ks := by
      refine ⟨_, (chunkIndicesFrom_eq_ok []).mpr ⟨?_, rfl⟩⟩
      exact fun x hx => mem_singleton.mp hx ▸ hfound
    have := (htiled.isOk_iff [-2 ^ 63] (by simp)).mp hok _ (mem_singleton_self _)
    omega

theorem IsOpen.tiled (hle : r.visibleRows ≤ 2 ^ 63) : r.Tiled := by
  obtain ⟨hchain, -, hend⟩ := h.global hlayouts (by omega)
  refine ⟨h.inOrder hlayouts, fun i file hi => h.tiles hlayouts hi,
    fun c hc => h.inside hlayouts hc, ?_, ?_, fun rowIndices hrange => ⟨?_, ?_⟩,
    fun rowIndices hrange ks hks => ?_⟩
  · refine hchain.pairwise.imp_of_mem fun {c d} hc hd hcd => ?_
    have := h.numberOfRows_pos hlayouts hd
    have := hend c hc
    have := hend d hd
    omega
  · cases hget : r.chunkInfos.getLast? with
    | none =>
      rwa [getLast?_eq_none_iff.mp hget] at hchain
    | some c => exact (hend c (mem_of_getLast? hget)).symm.trans (hchain.getLast? hget)
  · rintro ⟨ks, hks⟩ x hx
    obtain ⟨hfound, -⟩ := (chunkIndicesFrom_eq_ok []).mp hks
    exact h.upperBound_lt hlayouts hle (hrange x hx).1 (hrange x hx).2 (hfound x hx)
  · intro hrows
    refine ⟨_, (chunkIndicesFrom_eq_ok []).mpr ⟨fun x hx => ?_, rfl⟩⟩
    obtain ⟨c, hc, -⟩ := h.upperBound_rowIn hlayouts hle (hrows x hx).1 (hrows x hx).2
    exact lt_of_getElem? hc
  · obtain ⟨hfound, rfl⟩ := (chunkIndicesFrom_eq_ok []).mp hks
    refine ⟨rowIndices.map (upperBound r.chunkInfos), ?_, rfl⟩
    rw [forall₂_map_right_iff, forall₂_same]
    intro x hx
    have hrow := h.upperBound_lt hlayouts hle (hrange x hx).1 (hrange x hx).2 (hfound x hx)
    exact h.upperBound_rowIn hlayouts hle hrow.1 hrow.2

end IsOpen

theorem isOpen_of_opens {S : Source Row} (h : «open» S = .ok r ∨ openAsync S = .ok r) :
    IsOpen r ∧ r.source = S :=
  h.elim isOpen_of_open isOpen_of_openAsync

/-- **When the chunks tile the rows**: `get_chunk_indices` compares row indices and ends in
`size_t`, so a column group must not have more rows than there are row indices. -/
theorem open_tiled_iff {S : Source Row} {r : ColumnGroupReader Row}
    (hopen : «open» S = .ok r ∨ openAsync S = .ok r) (hlayouts : Layouts r) :
    r.Tiled ↔ r.visibleRows ≤ 2 ^ 63 := by
  obtain ⟨h, -⟩ := isOpen_of_opens hopen
  exact ⟨h.le_of_tiled hlayouts, h.tiled hlayouts⟩

/-! ## Examples -/

/-- A file whose rows are in memory. -/
def FormatReader.ofRows (rgs : List RowGroupInfo) (rows : List Row) : FormatReader Row where
  rowGroupInfos := .ok rgs
  getChunk i :=
    match rgs[i]? with
    | none => .error (.invalid s!"Row group index out of range: {i}")
    | some rg => .ok ((rows.take rg.endOffset).drop rg.startOffset)
  readWithRange a b := .ok [(rows.take b).drop a]
  readWithRangeAsync a b := .ok [(rows.take b).drop a]

/-- A column group of files in memory that all have the same content. -/
def Source.ofReader (format predicate : String) (files : List ColumnGroupFile)
    (reader : FormatReader Row) : Source Row where
  columnGroup := ⟨[], format, files⟩
  predicate := predicate
  openReaderForFile _ := .ok reader
  openReaderForFileAsync _ := .ok (.ok reader)

theorem layouts_ofRows (rgs : List RowGroupInfo) (rows : List Row) (n : ℕ)
    (hreaders : ∀ reader ∈ r.formatReaders, reader = .ofRows rgs rows) (hrgs : Contiguous rgs n)
    (hfiles : ∀ file ∈ r.source.files, file.endIndex ≤ n) :
    Layouts r := by
  intro i file reader hfile hreader
  obtain rfl := hreaders _ (mem_of_getElem? hreader)
  exact ⟨rgs, n, rfl, hrgs, hfiles _ (mem_of_getElem? hfile)⟩

/-- A file of six rows in three row groups, one of which is empty. -/
def smallFile : FormatReader ℕ :=
  .ofRows [⟨0, 3, 24, true⟩, ⟨3, 3, 0, true⟩, ⟨3, 6, 24, true⟩] (List.range 6)

/-- Two files, of which the rows from the second to the fifth are visible. -/
def smallSource : Source ℕ :=
  Source.ofReader loonFormatParquet "" [⟨"a", 1, 5, []⟩, ⟨"b", 1, 5, []⟩] smallFile

def smallReader : ColumnGroupReader ℕ where
  source := smallSource
  chunkInfos := [⟨0, 1, 1, 2, 0, 2, 16, true⟩, ⟨0, 0, 3, 2, 2, 4, 16, true⟩,
    ⟨1, 1, 1, 2, 0, 6, 16, true⟩, ⟨1, 0, 3, 2, 2, 8, 16, true⟩]
  totalRows := 8
  formatReaders := [smallFile, smallFile]

theorem open_smallSource : «open» smallSource = .ok smallReader := rfl

theorem smallReader_layouts : Layouts smallReader :=
  layouts_ofRows [⟨0, 3, 24, true⟩, ⟨3, 3, 0, true⟩, ⟨3, 6, 24, true⟩] (range 6) 6
    (forall_mem_cons.mpr ⟨rfl, forall_mem_singleton.mpr rfl⟩)
    ⟨by decide, by decide, by decide⟩ (by decide)

theorem smallReader_tiled : smallReader.Tiled :=
  (open_tiled_iff (.inl open_smallSource) smallReader_layouts).mpr (by decide)

/-- Two files of `2 ^ 63 - 1` rows. -/
def largeSource : Source Unit :=
  Source.ofReader loonFormatParquet "" [⟨"a", 0, 2 ^ 63 - 1, []⟩, ⟨"b", 0, 2 ^ 63 - 1, []⟩]
    (.ofRows [⟨0, 2 ^ 63 - 1, 0, true⟩] (List.replicate (2 ^ 63 - 1) ()))

/-- The row with index `-2 ^ 63` is found in the second file. -/
theorem open_largeSource_not_tiled : ∃ r, «open» largeSource = .ok r ∧ Layouts r ∧
    r.getChunkIndices [-2 ^ 63] = .ok [1] ∧ ¬ r.Tiled := by
  have hok : ∃ r, «open» largeSource = .ok r ∧ Layouts r ∧
      r.getChunkIndices [-2 ^ 63] = .ok [1] := by
    refine ⟨_, rfl, ?_, (chunkIndicesFrom_eq_ok []).mpr ⟨by decide +kernel, by decide +kernel⟩⟩
    exact layouts_ofRows [⟨0, 2 ^ 63 - 1, 0, true⟩] (replicate (2 ^ 63 - 1) ()) (2 ^ 63 - 1)
      (forall_mem_cons.mpr ⟨rfl, forall_mem_singleton.mpr rfl⟩)
      ⟨by decide +kernel, by decide +kernel, by decide⟩ (by decide +kernel)
  obtain ⟨r, hopen, hlayouts, hks⟩ := hok
  refine ⟨r, hopen, hlayouts, hks, fun htiled => ?_⟩
  have := (htiled.isOk_iff [-2 ^ 63] (by simp)).mp ⟨_, hks⟩ _ (mem_singleton_self _)
  omega

end MilvusStorage.Format
