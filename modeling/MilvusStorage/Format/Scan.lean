import MilvusStorage.Format.Backend
import MilvusStorage.Reader.Filtered

/-!
# Scans with a predicate

The record-batch scan of a column group with a predicate. A Vortex reader returns of a row group the
rows that satisfy the predicate, and `get_chunk` then no longer cuts the row group to the rows of
the chunk. So the scan also returns the rows of a row group that are not visible.
`scan_filtered_iff`: the scan returns the visible rows that satisfy the predicate if and only if no
other row satisfies it, in the row groups with visible rows.
-/

namespace MilvusStorage.Format

open List Tiling ColumnGroupReader

/-! ## Chunks and row groups -/

section Window

variable {Row : Type}

/-- The chunk shows what is visible of a row group. -/
def Window (file : ColumnGroupFile) (rgs : List RowGroupInfo) (c : ChunkInfo) (rg : RowGroupInfo) :
    Prop :=
  rgs[c.rowGroupIndexInFile]? = some rg ∧
    c.rowOffsetInFile = clamp file.startIndex.toNat file.endIndex.toNat rg.startOffset ∧
    c.rowOffsetInFile + c.numberOfRows =
      clamp file.startIndex.toNat file.endIndex.toNat rg.endOffset

variable {c : ChunkInfo} {chunks : List ChunkInfo}

theorem Entry.window {fileIdx rows rows' : ℕ} {e : ColumnGroupFile × List RowGroupInfo}
    (he : Entry e) (h : appendFileMetadata fileIdx e.1 e.2 rows = .ok (chunks, rows'))
    (hc : c ∈ chunks) : ∃ rg, Window e.1 e.2 c rg := by
  obtain ⟨hstart, hlt, n, hrgs, hend⟩ := he
  obtain ⟨fragment, rfl, -, hcuts⟩ := appendFileMetadata_cuts hrgs hstart hlt hend h
  obtain ⟨-, -, k, rg, f, hk, hf, hj, -, hoff, hrows⟩ := appendChunks_mem hc
  have hrg := mem_of_getElem? hk
  have hord := hrgs.ordered rg hrg
  obtain ⟨hfirst, hlast, -⟩ := (hcuts rg hrg).of_some f hf
  refine ⟨rg, ?_, hoff.trans hfirst, ?_⟩
  · rw [hj, zero_add, hk]
  · rw [hoff, hrows, hlast, RowGroupInfo.numRows]
    congr 1
    omega

theorem Appends.window {fileIdx rows rows' : ℕ}
    {entries : List (ColumnGroupFile × List RowGroupInfo)}
    (h : Appends fileIdx rows entries chunks rows') (hentries : ∀ e ∈ entries, Entry e)
    (hc : c ∈ chunks) :
    ∃ k e rg, c.fileIndex = fileIdx + k ∧ entries[k]? = some e ∧ Window e.1 e.2 c rg := by
  induction h with
  | nil => cases hc
  | @cons fileIdx rows rows' rows'' file rgs entries chunks chunks' hchunks hrest ih =>
    obtain ⟨he, hentries⟩ := forall_mem_cons.mp hentries
    obtain hc | hc := mem_append.mp hc
    · obtain ⟨rg, hrg⟩ := he.window hchunks hc
      exact ⟨0, (file, rgs), rg, ((he.fileChunks hchunks).mem c hc).1, rfl, hrg⟩
    · obtain ⟨k, e, rg, hfile, he, hrg⟩ := ih hentries hc
      exact ⟨k + 1, e, rg, by omega, he, hrg⟩

variable {r : ColumnGroupReader Row} (h : IsOpen r) (hlayouts : Layouts r)

include h hlayouts

theorem IsOpen.window (hc : c ∈ r.chunkInfos) :
    ∃ file reader rgs rg, r.source.files[c.fileIndex]? = some file ∧
      r.formatReaders[c.fileIndex]? = some reader ∧ reader.rowGroupInfos = .ok rgs ∧
      Window file rgs c rg := by
  obtain ⟨entries, hentries, hfiles, hrgss, happends⟩ := h.entries hlayouts
  obtain ⟨k, e, rg, hfile, he, hrg⟩ := happends.window hentries hc
  rw [zero_add] at hfile
  subst hfile
  obtain ⟨reader, hreader, hrgs⟩ := hrgss.exists_reader he
  refine ⟨e.1, reader, e.2, rg, ?_, hreader, hrgs, hrg⟩
  simp [← hfiles, he]

/-- A row group with visible rows has a chunk. -/
theorem IsOpen.exists_window {i j : ℕ} {file : ColumnGroupFile} {reader : FormatReader Row}
    {rgs : List RowGroupInfo} {rg : RowGroupInfo} (hfile : r.source.files[i]? = some file)
    (hreader : r.formatReaders[i]? = some reader) (hrgs : reader.rowGroupInfos = .ok rgs)
    (hj : rgs[j]? = some rg)
    (hvisible : max file.startIndex.toNat rg.startOffset < min file.endIndex.toNat rg.endOffset) :
    ∃ c ∈ r.chunkInfos, c.fileIndex = i ∧ Window file rgs c rg := by
  have htiles := h.tiles hlayouts hfile
  obtain ⟨c, hmem, hle, hlt⟩ := htiles.chained.exists_mem
    (n := max file.startIndex.toNat rg.startOffset) (by omega) (by omega)
  obtain ⟨hc, hci⟩ := mem_filter.mp hmem
  obtain rfl := of_decide_eq_true hci
  obtain ⟨file', reader', rgs', rg', hfile', hreader', hrgs', hwindow⟩ := h.window hlayouts hc
  cases hfile.symm.trans hfile'
  cases hreader.symm.trans hreader'
  cases hrgs.symm.trans hrgs'
  refine ⟨c, hc, rfl, ?_⟩
  -- The chunk has a row in common with the row group, so it is its chunk.
  suffices hsame : c.rowGroupIndexInFile = j by
    obtain rfl := Option.some.inj ((hsame ▸ hj).symm.trans hwindow.1)
    exact hwindow
  obtain ⟨rgs', n, hrgs', hcontig, -⟩ := hlayouts _ file reader hfile hreader
  cases hrgs.symm.trans hrgs'
  obtain ⟨hget, hstart, hend⟩ := hwindow
  rw [clamp] at hstart hend
  obtain hlt' | heq | hlt' := lt_trichotomy c.rowGroupIndexInFile j
  · have := hcontig.chained.pairwise.rel_of_getElem? hget hj hlt'
    rw [RowGroupInfo.numRows] at this
    omega
  · exact heq
  · have := hcontig.chained.pairwise.rel_of_getElem? hj hget hlt'
    rw [RowGroupInfo.numRows] at this
    omega

end Window

/-! ## Filtered slices -/

section Slice

variable {Row : Type} {rows : List Row} {a b : ℕ}

theorem mem_slice {row : Row} :
    row ∈ slice rows a b ↔ ∃ x, a ≤ x ∧ x < b ∧ rows[x]? = some row := by
  rw [slice, mem_iff_getElem?]
  constructor
  · rintro ⟨k, hk⟩
    rw [getElem?_drop, getElem?_take] at hk
    split_ifs at hk with hlt
    exact ⟨a + k, by omega, hlt, hk⟩
  · rintro ⟨x, ha, hb, hx⟩
    refine ⟨x - a, ?_⟩
    rw [getElem?_drop, Nat.add_sub_cancel' ha, getElem?_take_of_lt hb, hx]

theorem slice_sublist {a' b' : ℕ} (ha : a' ≤ a) (hab : a ≤ b) (hb : b ≤ b') :
    (slice rows a b).Sublist (slice rows a' b') := by
  rw [← slice_append ha (hab.trans hb), ← slice_append hab hb]
  exact (sublist_append_left ..).trans (sublist_append_right ..)

/-- A wider slice has no other rows that satisfy the predicate. -/
theorem filter_slice_eq_iff {p : Row → Bool} {a' b' : ℕ} (ha : a' ≤ a) (hab : a ≤ b)
    (hb : b ≤ b') : (slice rows a b).filter p = (slice rows a' b').filter p ↔
      ∀ x row, a' ≤ x → x < b' → (x < a ∨ b ≤ x) → rows[x]? = some row → p row = false := by
  have hsplit : (slice rows a' b').filter p = (slice rows a' a).filter p ++
      ((slice rows a b).filter p ++ (slice rows b b').filter p) := by
    rw [← filter_append, ← filter_append, slice_append hab hb, slice_append ha (hab.trans hb)]
  have hnil : ∀ {c d}, (slice rows c d).filter p = [] ↔
      ∀ x row, c ≤ x → x < d → rows[x]? = some row → p row = false := by
    intro c d
    simp only [filter_eq_nil_iff, mem_slice, Bool.not_eq_true]
    exact ⟨fun h x row hc hd hx => h row ⟨x, hc, hd, hx⟩,
      fun h row ⟨x, hc, hd, hx⟩ => h x row hc hd hx⟩
  constructor
  · intro heq
    have hlen := congrArg length (heq.trans hsplit)
    simp only [length_append] at hlen
    have hbefore := hnil.mp (length_eq_zero_iff.mp (by omega :
      ((slice rows a' a).filter p).length = 0))
    have hafter := hnil.mp (length_eq_zero_iff.mp (by omega :
      ((slice rows b b').filter p).length = 0))
    rintro x row hx hx' (hlt | hle) hget
    · exact hbefore x row hx hlt hget
    · exact hafter x row hle hx' hget
  · intro h
    rw [hsplit, hnil.mpr fun x row hx hlt => h x row hx (by omega) (.inl hlt),
      hnil.mpr fun x row hle hx' => h x row (by omega) hx' (.inr hle), nil_append,
      append_nil]

end Slice

/-- Lists that are shorter nowhere are equal everywhere if they have the same total length. -/
theorem eq_of_length_flatMap_le {α β : Type} {l : List α} {f g : α → List β}
    (h : ∀ x ∈ l, (f x).Sublist (g x)) (hle : (l.flatMap g).length ≤ (l.flatMap f).length) :
    ∀ x ∈ l, f x = g x := by
  induction l with
  | nil => exact forall_mem_nil _
  | cons x l ih =>
    obtain ⟨hx, hl⟩ := forall_mem_cons.mp h
    have hrest : (l.flatMap f).length ≤ (l.flatMap g).length := by
      rw [length_flatMap, length_flatMap]
      exact sum_le_sum fun y hy => (hl y hy).length_le
    have hfirst := hx.length_le
    rw [flatMap_cons, flatMap_cons, length_append, length_append] at hle
    exact forall_mem_cons.mpr ⟨hx.eq_of_length (by omega), ih hl (by omega)⟩

/-! ## The scan -/

/-- A row of named columns. -/
abbrev NamedRow (V : Type) := String → Option V

/-- Rows as the scan sees them. -/
def scannedRows {V : Type} (rows : List (NamedRow V)) : Reader.Rows V where
  count := rows.length
  column name := ⟨rows.map fun row => row name, length_map ..⟩

section Scan

variable {V : Type} (storage : String → List (NamedRow V)) (p : NamedRow V → Bool)

/-- The rows of the `i`-th file. -/
def ColumnGroupReader.content (r : ColumnGroupReader (NamedRow V)) (i : ℕ) : List (NamedRow V) :=
  match r.source.files[i]? with
  | some file => storage file.path
  | none => []

/-- The visible rows of a column group, in order. -/
def Source.visible (S : Source (NamedRow V)) : List (NamedRow V) :=
  S.files.flatMap fun file =>
    slice (storage file.path) file.startIndex.toNat file.endIndex.toNat

/-- What the reader of a column group answers to the scan: `get_chunk_rows`, `get_chunk` and
`get_chunk_estimated_size` of the chunks. -/
def ColumnGroupReader.answers (r : ColumnGroupReader (NamedRow V)) (fields : List String) :
    Reader.ColumnGroupReader V where
  columns := r.source.columnGroup.columns
  fields := fields
  chunks := r.chunkInfos.zipIdx.map fun (c, k) => {
    content := scannedRows (chunkRows (r.content storage) c)
    filtered := (r.getChunk k).toOption.map scannedRows
    estimatedSize := if c.memorySizeAvailable then some c.avgMemorySize else none }

/-- The rows that `get_chunk` returns. -/
def ColumnGroupReader.returned (r : ColumnGroupReader (NamedRow V)) (k : ℕ) : List (NamedRow V) :=
  (r.getChunk k).toOption.getD []

/-- Vortex files: of a row group, the rows are returned that satisfy the predicate. -/
def Filters (r : ColumnGroupReader (NamedRow V)) : Prop :=
  ∀ (i : ℕ) file reader, r.source.files[i]? = some file → r.formatReaders[i]? = some reader →
    ∃ rgs, reader.rowGroupInfos = .ok rgs ∧ Contiguous rgs (storage file.path).length ∧
      file.endIndex ≤ (storage file.path).length ∧ ∀ (j : ℕ) rg, rgs[j]? = some rg →
        reader.getChunk j =
          .ok ((slice (storage file.path) rg.startOffset rg.endOffset).filter p)

/-- In the row groups with visible rows, no other row satisfies the predicate. -/
def NoHiddenMatch (r : ColumnGroupReader (NamedRow V)) : Prop :=
  ∀ (i j : ℕ) file reader rgs rg, r.source.files[i]? = some file →
    r.formatReaders[i]? = some reader → reader.rowGroupInfos = .ok rgs → rgs[j]? = some rg →
    max file.startIndex.toNat rg.startOffset < min file.endIndex.toNat rg.endOffset →
    ∀ x row, rg.startOffset ≤ x → x < rg.endOffset →
      (x < file.startIndex.toNat ∨ file.endIndex.toNat ≤ x) →
      (storage file.path)[x]? = some row → p row = false

/-- The batches hold these rows, in order; a column that the group does not have is null. -/
def Scans (columns neededColumns : List String) (bs : List (RecordBatch V))
    (rows : List (NamedRow V)) : Prop :=
  MilvusStorage.rows bs = rows.length ∧ ∀ (k : ℕ) name, neededColumns[k]? = some name →
    cells bs k = rows.map fun row => if name ∈ columns then row name else none

variable {storage p} {r : ColumnGroupReader (NamedRow V)}

theorem Filters.layouts (hfilters : Filters storage p r) : Layouts r := by
  intro i file reader hfile hreader
  obtain ⟨rgs, hrgs, hcontig, hend, -⟩ := hfilters i file reader hfile hreader
  exact ⟨rgs, _, hrgs, hcontig, hend⟩

/-- The chunks show the visible rows. -/
theorem IsOpen.flatMap_chunkRows (h : IsOpen r) (storage : String → List (NamedRow V))
    (hlayouts : Layouts r) :
    r.chunkInfos.flatMap (chunkRows (r.content storage)) = r.source.visible storage := by
  have hrange : range r.source.files.length = r.source.files.zipIdx.map Prod.snd := by
    rw [zipIdx_map_snd, range_eq_range']
  have hfiles : r.source.files = r.source.files.zipIdx.map Prod.fst := by
    rw [zipIdx_map_fst]
  rw [Source.visible]
  conv_lhs => rw [← h.inOrder hlayouts, flatMap_assoc, hrange, flatMap_map]
  conv_rhs => rw [hfiles, flatMap_map]
  apply flatMap_congr
  rintro ⟨file, i⟩ hmem
  have hi : r.source.files[i]? = some file := mem_zipIdx_iff_getElem?.mp hmem
  have hfile : ∀ c ∈ fileChunks r.chunkInfos i, c.fileIndex = i := fun c hc =>
    of_decide_eq_true (mem_filter.mp hc).2
  have hcontent : r.content storage i = storage file.path := by
    simp only [ColumnGroupReader.content, hi]
  rw [flatMap_def, flatten_chunkRows hfile (h.tiles hlayouts hi).chained, hcontent]

variable {reader : FormatReader (NamedRow V)} {rgs : List RowGroupInfo} {file : ColumnGroupFile}
  {rg : RowGroupInfo}

/-- `get_chunk` returns what is left of the whole row group. -/
theorem Filters.getChunk_eq (hfilters : Filters storage p r)
    (hpred : r.predicateApplied = true) {k : ℕ} {c : ChunkInfo}
    (hk : r.chunkInfos[k]? = some c) (hfile : r.source.files[c.fileIndex]? = some file)
    (hreader : r.formatReaders[c.fileIndex]? = some reader) (hrgs : reader.rowGroupInfos = .ok rgs)
    (hwindow : Window file rgs c rg) :
    r.getChunk k = .ok ((slice (storage file.path) rg.startOffset rg.endOffset).filter p) := by
  obtain ⟨rgs', hrgs', -, -, hchunk⟩ := hfilters _ file reader hfile hreader
  cases hrgs.symm.trans hrgs'
  have hinfo : r.chunkInfo? k = some c := chunkInfo?_eq_some.mpr ⟨Int.natCast_nonneg k, hk⟩
  rw [getChunk, hinfo]
  dsimp only
  rw [hreader]
  dsimp only
  rw [hchunk _ rg hwindow.1, hpred]
  rfl

variable (h : IsOpen r) (hfilters : Filters storage p r) (hpred : r.predicateApplied = true)

include h hfilters hpred

/-- What is left of a chunk is returned, and nothing else if no hidden row of its row group
satisfies the predicate. -/
theorem Filters.returned_chunk {k : ℕ} {c : ChunkInfo} (hk : r.chunkInfos[k]? = some c)
    (hfile : r.source.files[c.fileIndex]? = some file)
    (hreader : r.formatReaders[c.fileIndex]? = some reader) (hrgs : reader.rowGroupInfos = .ok rgs)
    (hwindow : Window file rgs c rg) :
    max file.startIndex.toNat rg.startOffset < min file.endIndex.toNat rg.endOffset ∧
    ((chunkRows (r.content storage) c).filter p).Sublist (r.returned k) ∧
      ((chunkRows (r.content storage) c).filter p = r.returned k ↔
        ∀ x row, rg.startOffset ≤ x → x < rg.endOffset →
          (x < file.startIndex.toNat ∨ file.endIndex.toNat ≤ x) →
          (storage file.path)[x]? = some row → p row = false) := by
  have hcontent : r.content storage c.fileIndex = storage file.path := by
    simp only [ColumnGroupReader.content, hfile]
  have hpos := h.numberOfRows_pos hfilters.layouts (mem_of_getElem? hk)
  have hchunk := hfilters.getChunk_eq hpred hk hfile hreader hrgs hwindow
  obtain ⟨-, hstart, hend⟩ := hwindow
  rw [clamp] at hstart hend
  rw [chunkRows, hcontent, returned, hchunk]
  refine ⟨by omega, ?_, ?_⟩
  · exact (slice_sublist (by omega) (by omega) (by omega)).filter p
  · apply (filter_slice_eq_iff (by omega) (by omega) (by omega)).trans
    constructor <;> exact fun hhidden x row hx hx' hout => hhidden x row hx hx' (by omega)

theorem Filters.sublist_returned : ∀ ck ∈ r.chunkInfos.zipIdx,
    ((chunkRows (r.content storage) ck.1).filter p).Sublist (r.returned ck.2) := by
  rintro ⟨c, k⟩ hck
  have hk : r.chunkInfos[k]? = some c := mem_zipIdx_iff_getElem?.mp hck
  obtain ⟨file, reader, rgs, rg, hfile, hreader, hrgs, hwindow⟩ :=
    h.window hfilters.layouts (mem_of_getElem? hk)
  exact (hfilters.returned_chunk h hpred hk hfile hreader hrgs hwindow).2.1

theorem Filters.returned_eq_iff : (∀ ck ∈ r.chunkInfos.zipIdx,
    (chunkRows (r.content storage) ck.1).filter p = r.returned ck.2) ↔
      NoHiddenMatch storage p r := by
  constructor
  · intro heq i j file reader rgs rg hfile hreader hrgs hj hvisible
    obtain ⟨c, hc, rfl, hwindow⟩ :=
      h.exists_window hfilters.layouts hfile hreader hrgs hj hvisible
    obtain ⟨k, hk⟩ := mem_iff_getElem?.mp hc
    exact (hfilters.returned_chunk h hpred hk hfile hreader hrgs hwindow).2.2.mp
      (heq (c, k) (mem_zipIdx_iff_getElem?.mpr hk))
  · rintro hhidden ⟨c, k⟩ hck
    have hk : r.chunkInfos[k]? = some c := mem_zipIdx_iff_getElem?.mp hck
    obtain ⟨file, reader, rgs, rg, hfile, hreader, hrgs, hwindow⟩ :=
      h.window hfilters.layouts (mem_of_getElem? hk)
    obtain ⟨hvisible, -, hiff⟩ :=
      hfilters.returned_chunk h hpred hk hfile hreader hrgs hwindow
    exact hiff.mpr (hhidden _ _ file reader rgs rg hfile hreader hrgs hwindow.1 hvisible)

end Scan

section Answers

variable {V : Type} (storage : String → List (NamedRow V)) (r : ColumnGroupReader (NamedRow V))
  (fields : List String)

/-- The rows that are left of the chunks are those that `get_chunk` returns. -/
theorem filteredRows_answers :
    ((r.answers storage fields).chunks.map Reader.Chunk.filteredRows).sum =
      (r.chunkInfos.zipIdx.flatMap fun ck => r.returned ck.2).length := by
  rw [answers, map_map, length_flatMap]
  congr 1
  apply map_congr_left
  rintro ⟨c, k⟩ -
  simp only [Function.comp_apply, Reader.Chunk.filteredRows, returned]
  cases r.getChunk k <;> rfl

theorem filteredCells_answers (name : String) :
    ((r.answers storage fields).chunks.flatMap fun c => c.filteredCells name) =
      (r.chunkInfos.zipIdx.flatMap fun ck => r.returned ck.2).map fun row => row name := by
  rw [answers, flatMap_map, map_flatMap]
  apply flatMap_congr
  rintro ⟨c, k⟩ -
  simp only [Reader.Chunk.filteredCells, returned]
  cases r.getChunk k <;> rfl

end Answers

section Scan

variable {V : Type} {storage : String → List (NamedRow V)} {p : NamedRow V → Bool}
  {r : ColumnGroupReader (NamedRow V)}

/-- **Scans with a predicate.** -/
theorem scan_filtered_iff (heap : RowOffsetMinHeap) {S : Source (NamedRow V)}
    (hopen : «open» S = .ok r ∨ openAsync S = .ok r)
    (hformat : S.columnGroup.format = loonFormatVortex) (hpred : S.predicate ≠ "")
    (hfilters : Filters storage p r) {schema : Option (List String)} {fields : List String}
    {neededColumns : List String} {properties : Reader.Properties} {R : Reader.PackedReader V}
    (hscan : Reader.openReader schema [r.answers storage fields] neededColumns true properties =
      .ok R)
    (hlimit : 1 ≤ properties.recordBatchMaxRows ∧ properties.recordBatchMaxRows < 2 ^ 63) :
    ∃ bs, R.Drains heap bs ∧
      (Scans S.columnGroup.columns neededColumns bs ((S.visible storage).filter p) ↔
        NoHiddenMatch storage p r) := by
  obtain ⟨h, rfl⟩ := isOpen_of_opens hopen
  have hp : r.predicateApplied = true := by
    simp [predicateApplied, hformat, decide_eq_true hpred]
  have hvisible : (r.source.visible storage).filter p =
      r.chunkInfos.zipIdx.flatMap fun ck => (chunkRows (r.content storage) ck.1).filter p := by
    rw [← h.flatMap_chunkRows storage hfilters.layouts, filter_flatMap]
    conv_lhs => rw [← zipIdx_map_fst 0 r.chunkInfos, flatMap_map]
  obtain ⟨bs, hdrains, hrows, hcells⟩ := Reader.readNext_filtered heap hscan hlimit
  rw [filteredRows_answers] at hrows
  refine ⟨bs, hdrains, ?_⟩
  rw [← hfilters.returned_eq_iff h hp, hvisible]
  constructor
  · rintro ⟨hlen, -⟩
    exact eq_of_length_flatMap_le (hfilters.sublist_returned h hp) (hrows.symm.trans hlen).le
  · intro heq
    rw [flatMap_congr heq]
    refine ⟨hrows, fun k name hk => ?_⟩
    obtain ⟨hmem, hnot⟩ := hcells k name hk
    by_cases hname : name ∈ r.source.columnGroup.columns
    · simp only [hname, if_true]
      rw [hmem hname, filteredCells_answers]
    · simp only [hname, if_false, map_const']
      rw [hnot hname, hrows]

/-- Three rows of one column. -/
def idRows : List (NamedRow ℕ) := [0, 1, 2].map fun n name => if name = "id" then some n else none

/-- A file with these rows in one row group. -/
def idFile (p : NamedRow ℕ → Bool) : FormatReader (NamedRow ℕ) :=
  .ofRows [⟨0, 3, 24, true⟩] (idRows.filter p)

/-- The file appears twice, with the first two rows and with the second one. -/
def idSource (p : NamedRow ℕ → Bool) : Source (NamedRow ℕ) where
  columnGroup := ⟨["id"], loonFormatVortex, [⟨"a", 0, 2, []⟩, ⟨"a", 1, 2, []⟩]⟩
  predicate := "p"
  openReaderForFile _ := .ok (idFile p)
  openReaderForFileAsync _ := .ok (.ok (idFile p))

def idReader (p : NamedRow ℕ → Bool) : ColumnGroupReader (NamedRow ℕ) where
  source := idSource p
  chunkInfos := [⟨0, 0, 0, 2, 0, 2, 16, true⟩, ⟨1, 1, 1, 1, 0, 3, 8, true⟩]
  totalRows := 3
  formatReaders := [idFile p, idFile p]

theorem open_idSource (p : NamedRow ℕ → Bool) : «open» (idSource p) = .ok (idReader p) := rfl

theorem idReader_filters (p : NamedRow ℕ → Bool) : Filters (fun _ => idRows) p (idReader p) := by
  have hfiles : ∀ file ∈ (idReader p).source.files, file.endIndex ≤ 3 :=
    forall_mem_cons.mpr ⟨by decide, forall_mem_singleton.mpr (by decide)⟩
  intro i file reader hfile hreader
  obtain rfl : reader = idFile p := by
    have := mem_of_getElem? hreader
    simpa [idReader] using this
  have hcontig : Contiguous [⟨0, 3, 24, true⟩] 3 := ⟨by decide, by decide, by decide⟩
  refine ⟨_, rfl, hcontig, hfiles _ (mem_of_getElem? hfile), ?_⟩
  rintro (_ | j) rg hrg
  · cases hrg
    refine congrArg Except.ok (take_of_length_le ?_)
    exact (length_filter_le ..).trans (by decide)
  · cases hrg

/-- The row with id 1 is visible wherever the file appears. -/
theorem scan_filtered_visible_match : ∃ R bs,
    Reader.openReader (some ["id"]) [(idReader fun row => row "id" == some 1).answers
      (fun _ => idRows) []] ["id"] true ⟨0, 1⟩ = .ok R ∧ R.Drains .first bs ∧
    cells bs 0 = [some 1, some 1] := by
  obtain ⟨R, hR⟩ : ∃ R, Reader.openReader (some ["id"])
      [(idReader fun row => row "id" == some 1).answers (fun _ => idRows) []] ["id"] true ⟨0, 1⟩ =
        .ok R := ⟨_, rfl⟩
  obtain ⟨bs, hdrains, hiff⟩ := scan_filtered_iff .first (.inl (open_idSource _)) rfl (by decide)
    (idReader_filters _) hR (by decide)
  have hhidden : NoHiddenMatch (fun _ => idRows) (fun row => row "id" == some 1)
      (idReader fun row => row "id" == some 1) := by
    have hfiles : ∀ file ∈ (idSource fun row => row "id" == some 1).files,
        file.startIndex.toNat ≤ 1 ∧ 1 < file.endIndex.toNat := by decide
    intro i j file reader rgs rg hfile hreader hrgs hj hvisible x row hx hx' hout hrow
    have hone := hfiles file (mem_of_getElem? hfile)
    rcases x with _ | _ | _ | x
    · simp [← Option.some.inj hrow]
    · omega
    · simp [← Option.some.inj hrow]
    · cases hrow
  exact ⟨R, bs, hR, hdrains, (hiff.mpr hhidden).2 0 "id" rfl⟩

/-- All rows of the file satisfy the predicate, and all are returned wherever it appears. -/
theorem scan_filtered_hidden_match : ∃ R bs,
    «open» (idSource fun _ => true) = .ok (idReader fun _ => true) ∧
    Filters (fun _ => idRows) (fun _ => true) (idReader fun _ => true) ∧
    Reader.openReader (some ["id"]) [(idReader fun _ => true).answers (fun _ => idRows) []]
      ["id"] true ⟨0, 3⟩ = .ok R ∧ R.Drains .first bs ∧
    cells bs 0 = [some 0, some 1, some 2, some 0, some 1, some 2] ∧
    ¬ Scans ["id"] ["id"] bs (((idSource fun _ => true).visible fun _ => idRows).filter
      fun _ => true) := by
  obtain ⟨R, hR⟩ : ∃ R, Reader.openReader (some ["id"]) [(idReader fun _ => true).answers
      (fun _ => idRows) []] ["id"] true ⟨0, 3⟩ = .ok R := ⟨_, rfl⟩
  obtain ⟨bs, hdrains, hrows, hcells⟩ := Reader.readNext_filtered .first hR (by decide)
  refine ⟨R, bs, rfl, idReader_filters _, hR, hdrains, ?_, fun hscans => ?_⟩
  · exact (hcells 0 "id" rfl).1 (mem_singleton_self _)
  · exact absurd (hrows.symm.trans hscans.1) (by decide)

end Scan

end MilvusStorage.Format
