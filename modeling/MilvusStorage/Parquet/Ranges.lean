import MilvusStorage.Format.Chunks
import MilvusStorage.Parquet.Reader

/-!
# Range reads of a parquet file

The row groups of a file follow each other from row 0 on, and some of them may be empty. A range
read decodes the row groups that overlap the range. They are adjacent, the first contains the first
row of the range and the last contains its last row (`Chained.filter`), so what has to be cut off is
in the first and in the last batch, and neither batch is missing.
-/

namespace MilvusStorage.Parquet

open List Format Tiling

variable {Row : Type}

/-- What the generator returns for these row groups: a batch for each, or none if it is empty. -/
inductive Generates : List (List Row) → List (List Row) → Prop
  | nil : Generates [] []
  | batch (g : List Row) {gs bs : List (List Row)} : Generates gs bs → Generates (g :: gs) (g :: bs)
  | skip {gs bs : List (List Row)} : Generates gs bs → Generates ([] :: gs) bs

/-- A generator that skips every empty row group. -/
theorem generates_filter (gs : List (List Row)) [DecidableEq Row] :
    Generates gs (gs.filter (· ≠ [])) := by
  induction gs with
  | nil => exact .nil
  | cons g gs ih =>
    by_cases hg : g = []
    · subst hg
      exact .skip ih
    · rw [filter_cons_of_pos (by simpa using hg)]
      exact .batch g ih

namespace Generates

variable {g : List Row} {gs bs : List (List Row)}

theorem flatten_eq (h : Generates gs bs) : bs.flatten = gs.flatten := by
  induction h with
  | nil => rfl
  | batch g h ih => rw [flatten_cons, flatten_cons, ih]
  | skip h ih => simpa using ih

theorem uncons (h : Generates (g :: gs) bs) (hg : g ≠ []) :
    ∃ bs', bs = g :: bs' ∧ Generates gs bs' := by
  cases h with
  | batch g h => exact ⟨_, rfl, h⟩
  | skip h => exact absurd rfl hg

theorem getLast? (h : Generates gs bs) (hg : gs.getLast? = some g) (hne : g ≠ []) :
    bs.getLast? = some g := by
  induction h with
  | nil => exact nomatch hg
  | @batch g' gs bs h ih =>
    cases gs with
    | nil =>
      cases h
      exact hg
    | cons g'' gs =>
      have := ih (by simpa using hg)
      cases bs with
      | nil => exact nomatch this
      | cons b bs => simpa using this
  | @skip gs bs h ih =>
    cases gs with
    | nil =>
      simp at hg
      exact absurd hg hne
    | cons g'' gs => exact ih (by simpa using hg)

end Generates

namespace ParquetFormatReader

variable {f : ParquetFormatReader Row} {rows : List Row}

/-- The columns of the batches. -/
def projection (f : ParquetFormatReader Row) : List String :=
  if f.neededColumns = [] then f.schema else f.neededColumns

/-- The needed columns are found again. -/
theorem projectedSchema_eq (f : ParquetFormatReader Row) :
    f.projectedSchema = .ok f.projection := by
  rw [projectedSchema, projection]
  split_ifs with hnil
  · rfl
  · rw [Except.mapM_eq_ok_map, map_id]
    intro c hc
    have hfound := f.needed c hc
    rw [getFieldIndex] at hfound ⊢
    split_ifs at hfound ⊢ with hcount
    · have hmem : c ∈ f.schema := count_pos_iff.mp (by omega)
      simp [getElem?_idxOf hmem]
    · cases hfound

/-- The rows of a row group of a file with these rows. -/
def rowsOf (rows : List Row) (rg : RowGroupInfo) : List Row :=
  (rows.drop rg.startOffset).take rg.numRows

/-- The rows of the row group with this index. -/
def rowsAt (f : ParquetFormatReader Row) (rows : List Row) (i : ℕ) : List Row :=
  f.rowGroupInfos[i]?.elim [] (rowsOf rows)

/-- The file has these rows, in adjacent row groups, and the libraries return the rows of the row
groups that they are asked for. The number of rows is an `int64_t` of the file's metadata. -/
structure Decodes (f : ParquetFormatReader Row) (rows : List Row) : Prop where
  contiguous : Contiguous f.rowGroupInfos rows.length
  lt : rows.length < 2 ^ 63
  readRowGroups : ∀ indices : List ℕ, (∀ i ∈ indices, i < f.rowGroupInfos.length) →
    ∃ table, f.readRowGroups indices = .ok table ∧ table.flatten = indices.flatMap (f.rowsAt rows)
  collectGenerator : ∀ indices : List ℕ, (∀ i ∈ indices, i < f.rowGroupInfos.length) →
    ∃ bs, f.collectGenerator indices = .ok bs ∧ Generates (indices.map (f.rowsAt rows)) bs
  tableBatches : ∀ table, (f.tableBatches table).flatten = table.flatten

namespace Decodes

theorem endOffset_eq (h : f.Decodes rows) {rg : RowGroupInfo} (hrg : rg ∈ f.rowGroupInfos) :
    rg.endOffset = rg.startOffset + rg.numRows ∧ rg.endOffset ≤ rows.length := by
  have hle := h.contiguous.ordered rg hrg
  have := (h.contiguous.chained.mem hrg).2
  rw [RowGroupInfo.numRows] at this ⊢
  omega

/-- The range is checked against the rows of the file. -/
theorem checkRange_eq (h : f.Decodes rows) (lo hi : ℕ) :
    if lo < hi ∧ hi ≤ rows.length then f.checkRange lo hi = .ok ()
    else ∃ s, f.checkRange lo hi = .error (.status s) := by
  have hchain := h.contiguous.chained
  rw [checkRange]
  cases hrgs : f.rowGroupInfos with
  | nil =>
    rw [hrgs] at hchain
    have hzero : 0 = rows.length := hchain
    rw [if_neg (by omega)]
    exact ⟨_, rfl⟩
  | cons front rgs =>
    obtain ⟨back, hback⟩ : ∃ back, (front :: rgs).getLast? = some back := ⟨_, getLast?_cons ..⟩
    have hend := (h.endOffset_eq (hrgs ▸ mem_of_getLast? hback)).1
    rw [hrgs] at hchain
    rw [hchain.getLast? hback] at hend
    have hstart : front.startOffset = 0 := hchain.1
    simp only [hback, head?_cons]
    split_ifs with hrange hbad hbad
    · omega
    · rfl
    · exact ⟨_, rfl⟩
    · omega

/-! ## The row groups of a range -/

/-- Whether a row group overlaps a range. -/
def overlaps (lo hi : ℕ) (rg : RowGroupInfo) : Bool := rg.endOffset > lo ∧ rg.startOffset < hi

theorem map_overlapping {β : Type} (lo hi : ℕ) (k : Option RowGroupInfo → β) :
    (f.overlapping lo hi).map (fun i => k f.rowGroupInfos[i]?) =
      (f.rowGroupInfos.filter (overlaps lo hi)).map fun rg => k (some rg) := by
  have hfilter : f.rowGroupInfos.filter (overlaps lo hi) =
      (f.rowGroupInfos.zipIdx.filter fun p => overlaps lo hi p.1).map Prod.fst := by
    conv_lhs => rw [← zipIdx_map_fst 0 f.rowGroupInfos, filter_map]
    rfl
  rw [hfilter, overlapping, map_map, map_map]
  apply map_congr_left
  intro p hp
  have := mem_zipIdx_iff_getElem?.mp (mem_of_mem_filter hp)
  simp [this]

theorem lt_of_mem_overlapping {lo hi i : ℕ} (hi : i ∈ f.overlapping lo hi) :
    i < f.rowGroupInfos.length := by
  obtain ⟨p, hp, rfl⟩ := mem_map.mp hi
  have := mem_zipIdx_iff_getElem?.mp (mem_of_mem_filter hp)
  exact lt_of_getElem? this

theorem map_rowsAt_overlapping (rows : List Row) (lo hi : ℕ) :
    (f.overlapping lo hi).map (f.rowsAt rows) =
      (f.rowGroupInfos.filter (overlaps lo hi)).map (rowsOf rows) :=
  map_overlapping lo hi fun rg => rg.elim [] (rowsOf rows)

theorem getLast?_overlapping (lo hi : ℕ) :
    ((f.overlapping lo hi).getLast?.bind fun last => f.rowGroupInfos[last]?) =
      (f.rowGroupInfos.filter (overlaps lo hi)).getLast? := by
  have := congrArg getLast? (map_overlapping (f := f) lo hi id)
  cases hlast : (f.overlapping lo hi).getLast? <;>
    cases hback : (f.rowGroupInfos.filter (overlaps lo hi)).getLast? <;> simp_all

/-- The row groups of a range: those from `first` on, up to the row `upTo`. -/
structure Window (f : ParquetFormatReader Row) (n lo hi : ℕ) (first : RowGroupInfo)
    (rest : List RowGroupInfo) (upTo : ℕ) : Prop where
  filter_eq : f.rowGroupInfos.filter (overlaps lo hi) = first :: rest
  le_lo : first.startOffset ≤ lo
  lo_lt : lo < first.startOffset + first.numRows
  chained : Chained RowGroupInfo.startOffset RowGroupInfo.numRows first.startOffset
    (first :: rest) upTo
  hi_le : hi ≤ upTo
  upTo_le : upTo ≤ n

theorem exists_window (h : f.Decodes rows) {lo hi : ℕ} (hlt : lo < hi) (hle : hi ≤ rows.length) :
    ∃ first rest upTo, Window f rows.length lo hi first rest upTo := by
  have hp : ∀ rg ∈ f.rowGroupInfos, overlaps lo hi rg =
      decide (lo < rg.startOffset + rg.numRows ∧ rg.startOffset < hi) := by
    intro rg hrg
    rw [overlaps, (h.endOffset_eq hrg).1]
  obtain ⟨first, rest, upTo, hfilter, hle_lo, hlo_lt, hchain, hhi, hupTo⟩ :=
    h.contiguous.chained.filter (Nat.zero_le lo) hlt hle hp
  exact ⟨first, rest, upTo, hfilter, hle_lo, hlo_lt, hchain, hhi, hupTo⟩

section Window

variable {lo hi upTo : ℕ} {first : RowGroupInfo} {rest : List RowGroupInfo}

theorem Window.firstRgStartOffset_eq (w : Window f rows.length lo hi first rest upTo) :
    f.firstRgStartOffset lo hi = first.startOffset := by
  have hfind : f.rowGroupInfos.find? (overlaps lo hi) = some first := by
    simp [← head?_filter, w.filter_eq]
  exact congrArg (fun rg => (Option.map RowGroupInfo.startOffset rg).getD 0) hfind

/-- The last row group of the range contains its last row. -/
theorem Window.getLast? (h : f.Decodes rows) (w : Window f rows.length lo hi first rest upTo)
    {back : RowGroupInfo} (hback : (first :: rest).getLast? = some back) :
    back.startOffset < hi ∧ back.endOffset = upTo ∧ back.startOffset + back.numRows = upTo := by
  have hmem : back ∈ f.rowGroupInfos.filter (overlaps lo hi) :=
    w.filter_eq ▸ mem_of_getLast? hback
  obtain ⟨hrgs, hover⟩ := mem_filter.mp hmem
  have hend := (h.endOffset_eq hrgs).1
  have hlast := w.chained.getLast? hback
  rw [overlaps, decide_eq_true_iff] at hover
  omega

theorem Window.flatten_eq (w : Window f rows.length lo hi first rest upTo) :
    ((f.overlapping lo hi).map (f.rowsAt rows)).flatten =
      (rows.drop first.startOffset).take (upTo - first.startOffset) := by
  rw [map_rowsAt_overlapping, w.filter_eq]
  exact w.chained.flatMap_take_drop w.upTo_le

end Window

end Decodes

end ParquetFormatReader

/-! ## The synchronous read -/

theorem flatten_sliceTable (offset length : ℕ) (chunks : List (List Row)) :
    (sliceTable offset length chunks).flatten = (chunks.flatten.drop offset).take length := by
  induction chunks generalizing offset length with
  | nil => simp [sliceTable]
  | cons chunk chunks ih =>
    rw [sliceTable, flatten_cons, flatten_cons, ih, drop_append, take_append, length_drop]

namespace RangeRecordBatchReader

variable {f : ParquetFormatReader Row}

/-- The results of repeated calls of `ReadNext`. -/
def results (f : ParquetFormatReader Row) :
    ℕ → RangeRecordBatchReader Row → List (Except Fault (Option (List Row)))
  | 0, _ => []
  | n + 1, r => (readNext f r).2 :: results f n (readNext f r).1

/-- Repeated calls of `ReadNext` return these batches and then null. -/
def Yields (f : ParquetFormatReader Row) (r : RangeRecordBatchReader Row) (bs : List (List Row)) :
    Prop :=
  results f (bs.length + 1) r = bs.map (fun rb => .ok (some rb)) ++ [.ok none]

theorem results_of_loaded {r : RangeRecordBatchReader Row} (hloaded : r.loaded = true)
    {bs : List (List Row)} (hbs : r.batches.drop r.currentBatchIndex = bs) : r.Yields f bs := by
  rw [Yields]
  induction bs generalizing r with
  | nil =>
    have hnone : r.batches[r.currentBatchIndex]? = none := by
      rw [getElem?_eq_none_iff]
      exact drop_eq_nil_iff.mp hbs
    simp [results, readNext, hloaded, hnone]
  | cons b bs ih =>
    obtain ⟨hget, hdrop⟩ : r.batches[r.currentBatchIndex]? = some b ∧
        r.batches.drop (r.currentBatchIndex + 1) = bs := by
      rw [← head?_drop, ← tail_drop, hbs]
      exact ⟨rfl, rfl⟩
    have hnext : readNext f r =
        ({ r with currentBatchIndex := r.currentBatchIndex + 1 }, .ok (some b)) := by
      simp [readNext, hloaded, hget]
    rw [length_cons, results, hnext,
      ih (r := { r with currentBatchIndex := r.currentBatchIndex + 1 }) hloaded hdrop]
    rfl

/-- The first call loads the row groups. -/
theorem yields_of_load {r r' : RangeRecordBatchReader Row} {bs : List (List Row)}
    (hr : r.loaded = false) (hload : loadData f r = (r', .ok ())) (hr' : r'.loaded = true)
    (hbs : r'.batches.drop r'.currentBatchIndex = bs) : r.Yields f bs := by
  have hnext : readNext f r = readNext f r' := by
    rw [readNext, readNext, hr, hr', if_neg Bool.false_ne_true, if_pos rfl, hload]
  have := results_of_loaded (f := f) hr' hbs
  rw [Yields, results] at this ⊢
  rw [hnext, this]

end RangeRecordBatchReader

namespace ParquetFormatReader

namespace Decodes

variable {f : ParquetFormatReader Row} {rows : List Row} {lo hi upTo : ℕ} {first : RowGroupInfo}
  {rest : List RowGroupInfo}

/-- The reader of a range whose first row group is `first`. -/
def rangeReader (f : ParquetFormatReader Row) (lo hi : ℕ) (first : RowGroupInfo) :
    RangeRecordBatchReader Row where
  schema := f.projection
  rgIndices := f.overlapping lo hi
  firstRgSliceOffset := lo - first.startOffset
  totalRows := hi - lo

theorem Window.readWithRange_eq (h : f.Decodes rows)
    (w : Window f rows.length lo hi first rest upTo) (hlt : lo < hi) (hle : hi ≤ rows.length) :
    f.readWithRange lo hi = .ok (rangeReader f lo hi first) := by
  have hcheck := h.checkRange_eq lo hi
  rw [if_pos ⟨hlt, hle⟩] at hcheck
  obtain ⟨back, hback⟩ : ∃ back, (first :: rest).getLast? = some back := ⟨_, getLast?_cons ..⟩
  have hend : hi ≤ back.endOffset := by
    rw [(w.getLast? h hback).2.1]
    exact w.hi_le
  have hlt' := h.lt
  have hle_lo := w.le_lo
  rw [readWithRange, hcheck, Except.ok_bind]
  simp only [getLast?_overlapping, w.filter_eq, hback, hend, f.projectedSchema_eq,
    w.firstRgStartOffset_eq, toUnsigned_sub hle_lo (by omega), toUnsigned_sub hlt.le (by omega)]
  rfl

theorem Window.loadData_eq (h : f.Decodes rows) (w : Window f rows.length lo hi first rest upTo)
    (hlt : lo < hi) (hle : hi ≤ rows.length) :
    ∃ table, table.flatten = (rows.drop lo).take (hi - lo) ∧
      RangeRecordBatchReader.loadData f (rangeReader f lo hi first) =
        ({ rangeReader f lo hi first with loaded := true, batches := f.tableBatches table },
          .ok ()) := by
  obtain ⟨table, hread, hflat⟩ :=
    h.readRowGroups (f.overlapping lo hi) fun i => lt_of_mem_overlapping
  rw [flatMap_def, w.flatten_eq] at hflat
  have hlen : table.flatten.length = upTo - first.startOffset := by
    rw [hflat, length_take, length_drop]
    have := w.upTo_le
    omega
  have hle_lo := w.le_lo
  have hhi := w.hi_le
  have hlt' := h.lt
  have hslice : (table.flatten.drop (lo - first.startOffset)).take (hi - lo) =
      (rows.drop lo).take (hi - lo) := by
    rw [hflat, drop_take, drop_drop, take_take]
    congr 1
    · omega
    · congr 1
      omega
  unfold rangeReader
  rw [RangeRecordBatchReader.loadData]
  simp only [hread]
  split_ifs with hcut hoff
  · omega
  · exact ⟨sliceTable _ _ table, (flatten_sliceTable ..).trans hslice, rfl⟩
  · refine ⟨table, ?_, rfl⟩
    rw [← hslice, take_of_length_le, show lo - first.startOffset = 0 by omega, drop_zero]
    rw [length_drop]
    omega

/-- **A range read** returns the rows of the range. -/
theorem readWithRange_yields (h : f.Decodes rows) (hlt : lo < hi) (hle : hi ≤ rows.length) :
    ∃ r bs, f.readWithRange lo hi = .ok r ∧ r.schema = f.projection ∧ r.Yields f bs ∧
      bs.flatten = (rows.drop lo).take (hi - lo) := by
  obtain ⟨first, rest, upTo, w⟩ := h.exists_window hlt hle
  obtain ⟨table, hflat, hload⟩ := w.loadData_eq h hlt hle
  exact ⟨_, f.tableBatches table, w.readWithRange_eq h hlt hle, rfl,
    RangeRecordBatchReader.yields_of_load rfl hload rfl rfl, (h.tableBatches table).trans hflat⟩

/-! ## The asynchronous read -/

variable {bs : List (List Row)} {last : List Row}

theorem flatten_dropLast_take (hlast : bs.getLast? = some last) {k : ℕ} (hk : k ≤ last.length) :
    (bs.dropLast ++ [last.take (last.length - k)]).flatten =
      bs.flatten.take (bs.flatten.length - k) := by
  obtain ⟨init, rfl⟩ := getLast?_eq_some_iff.mp hlast
  rw [dropLast_concat, flatten_concat, flatten_concat, length_append,
    show init.flatten.length + last.length - k = init.flatten.length + (last.length - k) by omega,
    take_length_add_append]

/-- The last batch is cut where the range ends. -/
theorem trimLast_eq (total : ℕ) (hlast : bs.getLast? = some last) (hlt : bs.flatten.length < 2 ^ 63)
    (htotal : total ≤ bs.flatten.length) (hexcess : bs.flatten.length - total ≤ last.length) :
    ∃ bs', trimLast total bs = .ok bs' ∧ bs'.flatten = bs.flatten.take total := by
  rw [trimLast, toSigned_of_lt (by omega), toSigned_of_lt (by omega)]
  simp only [hlast]
  split_ifs with hpos hbad
  · omega
  · refine ⟨_, rfl, ?_⟩
    have hk : ((last.length : ℤ) - ((bs.flatten.length : ℤ) - total)).toNat =
        last.length - (bs.flatten.length - total) := by
      omega
    rw [hk, flatten_dropLast_take hlast hexcess]
    congr 1
    omega
  · exact ⟨bs, rfl, (take_of_length_le (by omega)).symm⟩

theorem trimBatches_eq_trimLast {offset total : ℕ} {b : List Row} (hoff : offset ≤ b.length) :
    trimBatches offset total (b :: bs) = trimLast total (b.drop offset :: bs) := by
  rw [trimBatches]
  split_ifs with hpos hbad
  · omega
  · rfl
  · rw [show offset = 0 by omega, drop_zero]

theorem length_rowsOf (h : f.Decodes rows) {rg : RowGroupInfo} (hrg : rg ∈ f.rowGroupInfos) :
    (rowsOf rows rg).length = rg.numRows := by
  have := h.endOffset_eq hrg
  rw [rowsOf, length_take, length_drop]
  omega

section

variable (h : f.Decodes rows) (w : Window f rows.length lo hi first rest upTo) (hlt : lo < hi)
include h w hlt

/-- The last batch is long enough to be cut. -/
theorem Window.exists_last : ∃ last, ((rowsOf rows first).drop (lo - first.startOffset) ::
      rest.map (rowsOf rows)).getLast? = some last ∧ upTo - hi < last.length := by
  have hmem : ∀ rg ∈ first :: rest, (rowsOf rows rg).length = rg.numRows := fun rg hrg =>
    h.length_rowsOf (mem_of_mem_filter (w.filter_eq ▸ hrg))
  have hle_lo := w.le_lo
  have hlo_lt := w.lo_lt
  have hhi := w.hi_le
  cases hrest : rest.getLast? with
  | none =>
    rw [getLast?_eq_none_iff.mp hrest] at w ⊢
    refine ⟨(rowsOf rows first).drop (lo - first.startOffset), rfl, ?_⟩
    obtain ⟨-, -, hend⟩ := w.getLast? h (getLast?_singleton (a := first))
    rw [length_drop, hmem first mem_cons_self]
    omega
  | some back =>
    have hback : (first :: rest).getLast? = some back := by
      simp [getLast?_cons, hrest]
    obtain ⟨hstart, -, hend⟩ := w.getLast? h hback
    refine ⟨rowsOf rows back, ?_, ?_⟩
    · simp [getLast?_cons, getLast?_map, hrest]
    · rw [hmem back (mem_of_getLast? hback)]
      omega

theorem Window.trimBatches_eq (hbs : Generates ((f.overlapping lo hi).map (f.rowsAt rows)) bs) :
    ∃ bs', trimBatches (lo - first.startOffset) (hi - lo) bs = .ok bs' ∧
      bs'.flatten = (rows.drop lo).take (hi - lo) := by
  have hflat := w.flatten_eq
  rw [map_rowsAt_overlapping, w.filter_eq, map_cons] at hbs hflat
  have hlen : (rowsOf rows first).length = first.numRows :=
    h.length_rowsOf (mem_of_mem_filter (w.filter_eq ▸ mem_cons_self))
  have hle_lo := w.le_lo
  have hlo_lt := w.lo_lt
  have hhi := w.hi_le
  have hupTo := w.upTo_le
  have hlt' := h.lt
  obtain ⟨bs, rfl, hgen⟩ := hbs.uncons (ne_nil_of_length_pos (by omega))
  have hgen := hgen.batch ((rowsOf rows first).drop (lo - first.startOffset))
  obtain ⟨last, hlast, hexcess⟩ := w.exists_last h hlt
  have hlast := hgen.getLast? hlast (ne_nil_of_length_pos (by omega))
  -- the rows from the start of the range to the end of the last row group
  have hrows : ((rowsOf rows first).drop (lo - first.startOffset) :: bs).flatten =
      (rows.drop lo).take (upTo - lo) := by
    rw [hgen.flatten_eq, flatten_cons,
      ← drop_append_of_le_length (by omega), ← flatten_cons, hflat, drop_take,
      drop_drop]
    congr 1
    · omega
    · congr 1
      omega
  have hrowsLength : ((rowsOf rows first).drop (lo - first.startOffset) :: bs).flatten.length =
      upTo - lo := by
    rw [hrows, length_take, length_drop]
    omega
  rw [trimBatches_eq_trimLast (by omega)]
  obtain ⟨bs', htrim, hbs'⟩ := trimLast_eq (hi - lo) hlast (by omega) (by omega) (by omega)
  refine ⟨bs', htrim, ?_⟩
  rw [hbs', hrows, take_take, min_eq_left (by omega)]

end

/-- **An asynchronous range read** returns the rows of the range. -/
theorem readWithRangeAsync_eq (h : f.Decodes rows) (hlt : lo < hi) (hle : hi ≤ rows.length) :
    ∃ bs, f.readWithRangeAsync lo hi = .ok (f.projection, bs) ∧
      bs.flatten = (rows.drop lo).take (hi - lo) := by
  obtain ⟨first, rest, upTo, w⟩ := h.exists_window hlt hle
  have hcheck := h.checkRange_eq lo hi
  rw [if_pos ⟨hlt, hle⟩] at hcheck
  obtain ⟨bs, hcollect, hbs⟩ :=
    h.collectGenerator (f.overlapping lo hi) fun i => lt_of_mem_overlapping
  obtain ⟨bs', htrim, hflat⟩ := w.trimBatches_eq h hlt hbs
  have hlt' := h.lt
  refine ⟨bs', ?_, hflat⟩
  rw [readWithRangeAsync, hcheck, Except.ok_bind, f.projectedSchema_eq, Except.ok_bind, hcollect,
    Except.ok_bind, w.firstRgStartOffset_eq, toUnsigned_sub w.le_lo (by omega),
    toUnsigned_sub hlt.le (by omega), htrim]
  rfl

/-- A range that is empty or not in the file. -/
theorem range_error (h : f.Decodes rows) (hbad : ¬(lo < hi ∧ hi ≤ rows.length)) :
    (∃ s, f.readWithRange lo hi = .error (.status s)) ∧
      ∃ s, f.readWithRangeAsync lo hi = .error (.status s) := by
  have hcheck := h.checkRange_eq lo hi
  rw [if_neg hbad] at hcheck
  obtain ⟨s, hs⟩ := hcheck
  rw [readWithRange, readWithRangeAsync, hs]
  exact ⟨⟨s, rfl⟩, ⟨s, rfl⟩⟩

end Decodes

end ParquetFormatReader

end MilvusStorage.Parquet
