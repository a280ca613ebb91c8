import MilvusStorage.Format.Iceberg

/-!
# The live rows of an Iceberg data file

All four ways to read a data file through `IcebergFormatReader` show the rows of the file that are
not deleted, and refuse what is not there, unless a position is computed that is not an `int64_t`
(`reads_live_iff`). The logical offsets are not compared with the number of live rows before they
are mapped, so that this can happen for offsets that are far beyond the end.
-/

namespace MilvusStorage.Format.Iceberg

open List

variable {Row : Type} {f : PhysicalReader Row} {rows : List Row} {K : Requests}
  {combineChunks : List (List Row) → Except Fault (List Row)}

/-! ## Opening -/

/-- The reader of a file with these deleted positions. -/
structure Opened (f : PhysicalReader Row) (deleted : List ℤ) (ds : List ℕ)
    (r : IcebergFormatReader Row) : Prop where
  inner : r.inner = f
  deletedPositions : r.deletedPositions = deleted
  sortedDeletions : r.sortedDeletions = int64s ds
  sorted : ds.Pairwise (· < ·)
  perm : (int64s ds).Perm deleted
  lt : ∀ d ∈ ds, d < 2 ^ 63
  logical : IsLogical (· ∉ ds) r.logicalRowGroupInfos f.rowGroupInfos

theorem buildLogicalRowGroupInfos_ok {physical : List RowGroupInfo} {n : ℕ}
    (h : Contiguous physical n) (hn : n < 2 ^ 63) {ds : List ℕ} (hds : ds.Pairwise (· < ·)) :
    ∃ groups, buildLogicalRowGroupInfos physical (int64s ds) = .ok groups ∧
      IsLogical (· ∉ ds) groups physical := by
  rw [buildLogicalRowGroupInfos]
  split_ifs with hnil
  · obtain rfl : ds = [] := map_eq_nil_iff.mp hnil
    exact ⟨physical, rfl, isLogical_self (by simp) physical⟩
  · refine ⟨_, ?_, isLogical_map physical⟩
    have hdels : ∀ rg ∈ physical, Live.lowerBound (int64s ds) (toSigned 64 rg.endOffset) -
          Live.lowerBound (int64s ds) (toSigned 64 rg.startOffset) +
          (Nat.count (· ∉ ds) rg.endOffset - Nat.count (· ∉ ds) rg.startOffset) = rg.numRows := by
      intro rg hrg
      have hle := h.ordered rg hrg
      have hend := h.endOffset_le hrg
      rw [toSigned_of_lt (by omega), toSigned_of_lt (by omega), lowerBound_int64s hds,
        lowerBound_int64s hds]
      exact Live.lowerBound_sub_add hds hle
    have hcount := logicalRowGroups_ok
      (fun prg => .invalid ("Invalid physical row group offsets: " ++ prg.render))
      (fun deletions rows => .invalid ("Invalid deletion count for physical row group: " ++
        s!"deletions={deletions}, rows={rows}")) h.ordered h.chained hdels
    rwa [Nat.count_zero] at hcount

theorem openReader_ok {n : ℕ} (h : Contiguous f.rowGroupInfos n) (hn : n < 2 ^ 63)
    {deleted : List ℤ} (hnodup : deleted.Nodup)
    (hrange : ∀ d ∈ deleted, 0 ≤ d ∧ d < 2 ^ 63) :
    ∃ r ds, openReader f deleted = .ok r ∧ Opened f deleted ds r := by
  have hperm := perm_insertionSort (· ≤ ·) deleted
  have hcast : int64s ((makeSortedDeletions deleted).map Int.toNat) =
      makeSortedDeletions deleted := by
    rw [int64s, map_map]
    nth_rewrite 2 [← map_id (makeSortedDeletions deleted)]
    apply map_congr_left
    intro d hd
    have := hrange d (hperm.mem_iff.mp hd)
    simp only [Function.comp_apply, id_eq]
    omega
  have hsorted : (makeSortedDeletions deleted).Pairwise (· < ·) := by
    have hle := pairwise_insertionSort (· ≤ ·) deleted
    have hne : (makeSortedDeletions deleted).Nodup := hperm.nodup_iff.mpr hnodup
    exact (hle.and hne).imp fun h => lt_of_le_of_ne h.1 h.2
  have hds : ((makeSortedDeletions deleted).map Int.toNat).Pairwise (· < ·) := by
    rw [pairwise_map]
    refine hsorted.imp_of_mem fun {a b} ha _ hlt => ?_
    have := hrange a (hperm.mem_iff.mp ha)
    omega
  obtain ⟨groups, hgroups, hlog⟩ := buildLogicalRowGroupInfos_ok h hn hds
  refine ⟨⟨f, deleted, makeSortedDeletions deleted, groups⟩,
    (makeSortedDeletions deleted).map Int.toNat, ?_, rfl, rfl, hcast.symm, hds, ?_, ?_, hlog⟩
  · rw [openReader, ← hcast, hgroups]
    rfl
  · rwa [hcast]
  · intro d hd
    obtain ⟨x, hx, rfl⟩ := mem_map.mp hd
    have := hrange x (hperm.mem_iff.mp hx)
    omega

/-! ## Positions that are computed -/

section Fits

variable {ds : List ℕ} (hds : ds.Pairwise (· < ·)) (hlt : ∀ d ∈ ds, d < 2 ^ 63)
include hds hlt

theorem isInt64_physicalOf_iff {i : ℤ} (hi : IsInt64 i) :
    IsInt64 (physicalOf ds i) ↔ i + ds.length < 2 ^ 63 := by
  have hnodup : ds.Nodup := hds.imp fun h => h.ne
  have hall : ds.countP (· < 2 ^ 63) = ds.length := countP_eq_length.mpr (by simpa using hlt)
  have hnth := Live.nth_lt_iff hnodup (l := i.toNat) (b := 2 ^ 63)
  have hcount := Live.count_live hnodup (2 ^ 63)
  obtain ⟨hi, hi'⟩ := hi
  rw [physicalOf, IsInt64]
  split_ifs <;> omega

/-- The positions that are computed to read a range. -/
def Computes (ds : List ℕ) (lo hi : ℕ) : Prop :=
  IsInt64 (physicalOf ds (toSigned 64 lo)) ∧ IsInt64 (toSigned 64 hi - 1) ∧
    IsInt64 (physicalOf ds (toSigned 64 hi - 1)) ∧ IsInt64 (physicalOf ds (toSigned 64 hi - 1) + 1)

end Fits

theorem toSigned_of_ge {x : ℕ} (hge : 2 ^ 63 ≤ x) (hlt : x < 2 ^ 64) :
    toSigned 64 x = x - 2 ^ 64 := by
  rw [toSigned, Int.bmod]
  omega

theorem isInt64_toSigned (x : ℤ) : IsInt64 (toSigned 64 x) := by
  rw [toSigned, Int.bmod, IsInt64]
  omega

theorem toUnsigned_succ {x : ℕ} (h : x + 1 < 2 ^ 64) : toUnsigned 64 (x + 1) = x + 1 := by
  rw [toUnsigned]
  omega

theorem toUnsigned_lt (x : ℤ) : toUnsigned 64 x < 2 ^ 64 := by
  rw [toUnsigned]
  omega

/-- A range of this file can be computed. Otherwise a position is not an `int64_t`. -/
def RangeFits (deleted : List ℤ) (lo hi : ℕ) : Prop :=
  deleted = [] ∨ hi ≤ lo ∨ hi + deleted.countP (· < 2 ^ 63 - 1) < 2 ^ 63 ∨
    2 ^ 63 < hi ∧ (2 ^ 63 ≤ lo ∨ lo + deleted.length < 2 ^ 63)

theorem computes_iff {ds : List ℕ} (hds : ds.Pairwise (· < ·)) (hlt : ∀ d ∈ ds, d < 2 ^ 63)
    {lo hi : ℕ} (hlo : lo < hi) (hhi : hi < 2 ^ 64) :
    Computes ds lo hi ↔ hi + ds.countP (· < 2 ^ 63 - 1) < 2 ^ 63 ∨
      2 ^ 63 < hi ∧ (2 ^ 63 ≤ lo ∨ lo + ds.length < 2 ^ 63) := by
  have hnodup : ds.Nodup := hds.imp fun h => h.ne
  rcases lt_trichotomy hi (2 ^ 63) with hsmall | rfl | hlarge
  · have hcast : ((hi : ℤ) - 1) = (hi - 1 : ℕ) := by omega
    have hlast := Live.nth_lt_iff hnodup (l := hi - 1) (b := 2 ^ 63 - 1)
    have hmono : Nat.nth (· ∉ ds) lo ≤ Nat.nth (· ∉ ds) (hi - 1) :=
      Nat.nth_monotone (Live.infinite_live ds) (by omega)
    rw [Computes, toSigned_of_lt (by omega), toSigned_of_lt (by omega), hcast, physicalOf_natCast,
      physicalOf_natCast]
    simp only [IsInt64]
    omega
  · -- the offset before the end is not an `int64_t`
    rw [Computes, toSigned_of_ge le_rfl hhi]
    simp only [IsInt64]
    omega
  · -- the end is negative, and is not mapped
    have hfirst := isInt64_physicalOf_iff hds hlt (isInt64_toSigned lo)
    have hbound := Live.count_live hnodup (2 ^ 63)
    have hlast : ∀ x : ℤ, x < 0 → physicalOf ds x = x := fun x hx => if_pos hx
    rw [Computes, hfirst, toSigned_of_ge hlarge.le hhi, hlast _ (by omega)]
    simp only [IsInt64]
    by_cases hneg : 2 ^ 63 ≤ lo
    · rw [toSigned_of_ge hneg (by omega)]
      have hall : ds.countP (· < 2 ^ 63) = ds.length :=
        countP_eq_length.mpr (by simpa using hlt)
      omega
    · rw [toSigned_of_lt (by omega)]
      omega

/-! ## Reads -/

/-- The list is taken: the rows are those that are asked for, and other indices are refused. -/
structure TakesLive (r : IcebergFormatReader Row) (K : Requests) (live : List Row)
    (is : List ℤ) : Prop where
  ok : K.rows is → (∀ i ∈ is, 0 ≤ i ∧ i < live.length) →
    ∃ table, take r is = .ok table ∧ table.map some = is.map fun i => live[i.toNat]?
  error : (∃ i ∈ is, ¬(0 ≤ i ∧ i < live.length)) → ∃ s, take r is = .error (.status s)

/-- `CombineChunksToBatch` puts the batches of a range of the data file together. -/
def Combines (f : PhysicalReader Row) (combineChunks : List (List Row) → Except Fault (List Row)) :
    Prop :=
  ∀ lo hi bs, f.readWithRange lo hi = .ok bs → combineChunks bs = .ok bs.flatten

/-- The range is read: the rows are those from `lo` to `hi`, and a range that is not empty and not
in the file is refused. -/
structure ReadsRange (r : IcebergFormatReader Row)
    (combineChunks : List (List Row) → Except Fault (List Row)) (live : List Row) (lo hi : ℕ) :
    Prop where
  ok : hi ≤ live.length ∨ hi ≤ lo →
    ∃ bs, readWithRange r combineChunks lo hi = .ok bs ∧
      bs.flatten = (live.drop lo).take (hi - lo)
  error : lo < hi → live.length < hi →
    ∃ s, readWithRange r combineChunks lo hi = .error (.status s)

/-- The row groups tile the live rows, and each is read without its deleted rows. -/
structure ReadsChunks (r : IcebergFormatReader Row) (K : Requests) (live : List Row) : Prop where
  rowGroups : Contiguous r.logicalRowGroupInfos live.length
  chunk : ∀ i lrg, rowGroup? i r.logicalRowGroupInfos = some lrg →
    getChunk r i = .ok (groupRows live lrg)
  chunk_error : ∀ i : ℤ, ¬(0 ≤ i ∧ i < r.logicalRowGroupInfos.length) →
    ∃ s, getChunk r i = .error (.status s)
  chunks : ∀ is lrgs, K.chunks is →
    Forall₂ (fun i lrg => rowGroup? i r.logicalRowGroupInfos = some lrg) is lrgs →
    getChunks r is = .ok (lrgs.map (groupRows live))

section Reads

variable (h : ReadsRows f rows K) {deleted : List ℤ} {ds : List ℕ} {r : IcebergFormatReader Row}
  (ho : Opened f deleted ds r)
include h ho

omit h in
theorem Opened.mem (p : ℕ) : (p : ℤ) ∈ r.deletedPositions ↔ p ∈ ds := by
  rw [ho.deletedPositions, ← ho.perm.mem_iff, mem_int64s]

omit h in
theorem Opened.nil_iff : r.deletedPositions = [] ↔ ds = [] := by
  rw [ho.deletedPositions, ← length_eq_zero_iff, ← ho.perm.length_eq, length_int64s,
    length_eq_zero_iff]

variable {lo hi : ℕ} {i : ℤ} {lrg : RowGroupInfo} {is : List ℤ}

omit h in
/-- The row group of the data file that belongs to a logical row group. -/
theorem Opened.rowGroup? (hlrg : rowGroup? i r.logicalRowGroupInfos = some lrg) :
    ∃ prg ∈ f.rowGroupInfos, rowGroup? i f.rowGroupInfos = some prg ∧
      lrg.startOffset = Nat.count (· ∉ ds) prg.startOffset ∧
      lrg.endOffset = Nat.count (· ∉ ds) prg.endOffset := by
  obtain ⟨hi, hlrg⟩ := rowGroup?_eq_some.mp hlrg
  obtain ⟨prg, hprg, hstart, hend⟩ := ho.logical.getElem? hlrg
  exact ⟨prg, mem_of_getElem? hprg, rowGroup?_eq_some.mpr ⟨hi, hprg⟩, hstart, hend⟩

theorem filterBatch_groupRows {prg : RowGroupInfo} (hprg : prg ∈ f.rowGroupInfos)
    (hstart : lrg.startOffset = Nat.count (· ∉ ds) prg.startOffset)
    (hend : lrg.endOffset = Nat.count (· ∉ ds) prg.endOffset) :
    filterBatch r.deletedPositions (groupRows rows prg) prg.startOffset =
      groupRows (Live.select (· ∉ ds) 0 rows) lrg := by
  have hle := h.contiguous.ordered prg hprg
  have hend' := h.contiguous.endOffset_le hprg
  have hlt := h.lt
  rw [filterBatch_eq ho.mem _ (by omega)]
  exact select_groupRows hstart hend hle hend'

theorem filteredChunk_ok (hlrg : Format.rowGroup? i r.logicalRowGroupInfos = some lrg) :
    filteredChunk r i = .ok (groupRows (Live.select (· ∉ ds) 0 rows) lrg) := by
  obtain ⟨prg, hmem, hprg, hstart, hend⟩ := ho.rowGroup? hlrg
  have hfilter := filterBatch_groupRows h ho hmem hstart hend
  obtain ⟨hi, hget⟩ := rowGroup?_eq_some.mp hprg
  have hchunk := h.getChunk i.toNat prg hget
  rw [Int.toNat_of_nonneg hi] at hchunk
  rw [filteredChunk, ho.inner, hchunk, Except.ok_bind, hprg]
  split_ifs with hnil
  · rw [filterBatch, if_pos hnil] at hfilter
    rw [hfilter]
    rfl
  · rw [← hfilter]
    rfl

theorem getChunk_ok (hlrg : Format.rowGroup? i r.logicalRowGroupInfos = some lrg) :
    getChunk r i = .ok (groupRows (Live.select (· ∉ ds) 0 rows) lrg) := by
  rw [getChunk, hlrg]
  dsimp only
  split_ifs with hempty
  · rw [groupRows, RowGroupInfo.numRows, hempty, Nat.sub_self, take_zero]
  · exact filteredChunk_ok h ho hlrg

theorem getChunk_error (hi : ¬(0 ≤ i ∧ i < r.logicalRowGroupInfos.length)) :
    ∃ s, getChunk r i = .error (.status s) := by
  obtain ⟨s, hs⟩ := h.getChunk_error i (ho.logical.length_eq ▸ hi)
  rw [getChunk, rowGroup?_eq_none hi, filteredChunk, ho.inner, hs]
  exact ⟨s, rfl⟩

theorem filterChunks_ok {lrgs : List RowGroupInfo}
    (hlrgs : Forall₂ (fun i lrg => Format.rowGroup? i r.logicalRowGroupInfos = some lrg) is lrgs) :
    ∃ prgs, Forall₂ (fun i prg => 0 ≤ i ∧ f.rowGroupInfos[i.toNat]? = some prg) is prgs ∧
      filterChunks r (prgs.map (groupRows rows)) is =
        .ok (lrgs.map (groupRows (Live.select (· ∉ ds) 0 rows))) ∧
      prgs.map (fun prg => filterBatch r.deletedPositions (groupRows rows prg) prg.startOffset) =
        lrgs.map (groupRows (Live.select (· ∉ ds) 0 rows)) := by
  induction hlrgs with
  | nil => exact ⟨[], .nil, rfl, rfl⟩
  | @cons i lrg is lrgs hlrg _ ih =>
    obtain ⟨prgs, hprgs, hchunks, hfilter⟩ := ih
    obtain ⟨prg, hmem, hprg, hstart, hend⟩ := ho.rowGroup? hlrg
    have hfirst := filterBatch_groupRows h ho hmem hstart hend
    refine ⟨prg :: prgs, .cons (rowGroup?_eq_some.mp hprg) hprgs, ?_, ?_⟩
    · rw [map_cons, filterChunks, ho.inner, hprg]
      simp only [hchunks, Except.ok_bind, hfirst]
      rfl
    · rw [map_cons, map_cons, hfirst, hfilter]

theorem getChunks_ok {lrgs : List RowGroupInfo} (hK : K.chunks is)
    (hlrgs : Forall₂ (fun i lrg => Format.rowGroup? i r.logicalRowGroupInfos = some lrg) is lrgs) :
    getChunks r is = .ok (lrgs.map (groupRows (Live.select (· ∉ ds) 0 rows))) := by
  obtain ⟨prgs, hprgs, hchunks, hfilter⟩ := filterChunks_ok h ho hlrgs
  rw [getChunks, ho.inner, h.getChunks is prgs hK hprgs, Except.ok_bind]
  split_ifs with hnil
  · simp only [filterBatch, if_pos hnil] at hfilter
    rw [← hfilter]
    rfl
  · exact hchunks

theorem readsChunks : ReadsChunks r K (Live.select (· ∉ ds) 0 rows) where
  rowGroups := by
    rw [Live.length_select_zero]
    exact ho.logical.contiguous h.contiguous
  chunk _ _ := getChunk_ok h ho
  chunk_error _ := getChunk_error h ho
  chunks _ _ := getChunks_ok h ho

omit h in
theorem take_eq (his : ∀ i ∈ is, IsInt64 i) : take r is = if is = [] then .ok []
      else (is.mapM fun i => int64 (physicalOf ds i)) >>= f.take := by
  rw [take, ho.inner, ho.sortedDeletions]
  split_ifs with hempty hnil
  · rfl
  · have hself : (is.mapM fun i => int64 (physicalOf ds i)) = .ok is := by
      rw [ho.nil_iff.mp hnil]
      simp only [physicalOf_nil]
      have := Except.mapM_eq_ok_map (f := int64) (g := id) (l := is) fun i hi => if_pos (his i hi)
      rwa [map_id] at this
    rw [hself, Except.ok_bind]
  · have hmap : is.mapM (logicalToPhysical (int64s ds)) =
        is.mapM fun i => int64 (physicalOf ds i) :=
      Except.mapM_congr fun i hi => logicalToPhysical_eq ho.sorted (his i hi)
    rw [hmap]

omit h ho in
/-- A row that is not among the live rows is not in the file. -/
theorem physicalOf_range_iff (i : ℤ) : 0 ≤ physicalOf ds i ∧ physicalOf ds i < rows.length ↔
      0 ≤ i ∧ i < (Live.select (· ∉ ds) 0 rows).length := by
  have hnth := Live.le_nth_iff (D := ds) (n := rows.length) (i := i.toNat)
  rw [Live.length_select_zero, physicalOf]
  split_ifs <;> omega

/-- A list is taken as it should be if and only if all its positions can be computed. -/
theorem takesLive_iff (his : ∀ i ∈ is, IsInt64 i) :
    TakesLive r K (Live.select (· ∉ ds) 0 rows) is ↔ ∀ i ∈ is, i + ds.length < 2 ^ 63 := by
  have hfits : ∀ i ∈ is, (IsInt64 (physicalOf ds i) ↔ i + ds.length < 2 ^ 63) := fun i hi =>
    isInt64_physicalOf_iff ho.sorted ho.lt (his i hi)
  constructor
  · intro htakes i hi
    by_contra hover
    have hnot : ¬IsInt64 (physicalOf ds i) := mt (hfits i hi).mp hover
    obtain ⟨e, hmap, rfl⟩ := Except.exists_mapM_error (P := fun e => e = .signedOverflow)
      (f := fun i => int64 (physicalOf ds i)) (l := is) (by
        intro j _ e he
        rw [int64] at he
        split_ifs at he
        exact (Except.error.inj he).symm) ⟨i, hi, _, if_neg hnot⟩
    -- the position is beyond the end of the file
    have hrange : ¬(0 ≤ i ∧ i < (Live.select (· ∉ ds) 0 rows).length) := by
      rw [← physicalOf_range_iff]
      intro hrange
      have hlt := h.lt
      exact hnot ⟨by omega, by omega⟩
    obtain ⟨s, hs⟩ := htakes.error ⟨i, hi, hrange⟩
    rw [take_eq ho his, if_neg (ne_nil_of_mem hi), hmap] at hs
    cases hs
  · intro hall
    have hmap : (is.mapM fun i => int64 (physicalOf ds i)) = .ok (is.map (physicalOf ds)) :=
      Except.mapM_eq_ok_map fun i hi => if_pos ((hfits i hi).mpr (hall i hi))
    have hint : ∀ p ∈ is.map (physicalOf ds), IsInt64 p := by
      rw [forall_mem_map]
      exact fun i hi => (hfits i hi).mpr (hall i hi)
    constructor
    · intro hK hrange
      rw [take_eq ho his]
      split_ifs with hnil
      · exact ⟨[], rfl, by rw [hnil]; rfl⟩
      · obtain ⟨table, htake, hrows⟩ := h.take (is.map (physicalOf ds))
          (K.rows_map _ _ (physicalOf_strictMono ds) hK) (by
            rw [forall_mem_map]
            exact fun i hi => (physicalOf_range_iff i).mpr (hrange i hi))
        refine ⟨table, by rw [hmap, Except.ok_bind, htake], ?_⟩
        rw [hrows, map_map]
        apply map_congr_left
        intro i hi
        obtain ⟨hi0, hi1⟩ := hrange i hi
        rw [Live.length_select_zero] at hi1
        rw [Function.comp_apply, physicalOf, if_neg (not_lt.mpr hi0), Int.toNat_natCast]
        exact (Live.getElem?_nth (by omega)).2
    · rintro ⟨i, hi, hbad⟩
      rw [take_eq ho his, if_neg (ne_nil_of_mem hi), hmap, Except.ok_bind]
      exact h.take_error _ hint ⟨physicalOf ds i, mem_map_of_mem hi,
        (physicalOf_range_iff i).not.mpr hbad⟩

variable (combineChunks) in
omit h in
theorem readWithRange_computes (hlo : lo < hi) (hne : r.deletedPositions ≠ [])
    (hcomputes : Computes ds lo hi) :
    readWithRange r combineChunks lo hi =
      (do
        let batches ← f.readWithRange (toUnsigned 64 (physicalOf ds (toSigned 64 lo)))
          (toUnsigned 64 (physicalOf ds (toSigned 64 hi - 1) + 1))
        let batch ← combineChunks batches
        return [filterBatch r.deletedPositions batch
          (toUnsigned 64 (physicalOf ds (toSigned 64 lo)))]) := by
  obtain ⟨hfirst, hlast, hmapped, hend⟩ := hcomputes
  rw [readWithRange, if_neg (by omega), if_neg hne, ho.inner, ho.sortedDeletions,
    logicalToPhysical_eq ho.sorted (isInt64_toSigned _), int64, if_pos hfirst, Except.ok_bind,
    int64, if_pos hlast, Except.ok_bind, logicalToPhysical_eq ho.sorted hlast, int64,
    if_pos hmapped, Except.ok_bind, int64, if_pos hend, Except.ok_bind]

omit h in
theorem readWithRange_overflow (hlo : lo < hi) (hne : r.deletedPositions ≠ [])
    (hcomputes : ¬Computes ds lo hi) :
    readWithRange r combineChunks lo hi = .error .signedOverflow := by
  rw [readWithRange, if_neg (by omega), if_neg hne, ho.sortedDeletions,
    logicalToPhysical_eq ho.sorted (isInt64_toSigned _), int64]
  split_ifs with hfirst
  · rw [Except.ok_bind, int64]
    split_ifs with hlast
    · rw [Except.ok_bind, logicalToPhysical_eq ho.sorted hlast, int64]
      split_ifs with hmapped
      · rw [Except.ok_bind, int64, if_neg fun hend => hcomputes ⟨hfirst, hlast, hmapped, hend⟩]
        rfl
      · rfl
    · rfl
  · rfl

omit h in
theorem rangeFits_iff (hlo : lo < hi) (hhi : hi < 2 ^ 64) (hne : r.deletedPositions ≠ []) :
    RangeFits deleted lo hi ↔ Computes ds lo hi := by
  have hcount : deleted.countP (· < 2 ^ 63 - 1) = ds.countP (· < 2 ^ 63 - 1) := by
    have hbound : (2 ^ 63 - 1 : ℤ) = (2 ^ 63 - 1 : ℕ) := by omega
    rw [← ho.perm.countP_eq, hbound, countP_int64s]
  have hlen : deleted.length = ds.length := by rw [← ho.perm.length_eq, length_int64s]
  rw [ho.deletedPositions] at hne
  rw [computes_iff ho.sorted ho.lt hlo hhi, RangeFits, hcount, hlen, or_iff_right hne,
    or_iff_right (by omega)]

/-- The positions of a range in the file can be computed. -/
theorem computes_of_le (hlo : lo < hi) (hhi : hi ≤ (Live.select (· ∉ ds) 0 rows).length) :
    Computes ds lo hi := by
  rw [Live.length_select_zero] at hhi
  have hle := Nat.count_le (· ∉ ds) (n := rows.length)
  have hlt := h.lt
  have hnth : Nat.nth (· ∉ ds) (hi - 1) < rows.length := Nat.nth_lt_of_lt_count (by omega)
  have hlast := Live.nth_lt_iff (ho.sorted.imp fun h => h.ne) (l := hi - 1) (b := 2 ^ 63 - 1)
  exact (computes_iff ho.sorted ho.lt hlo (by omega)).mpr (.inl (by omega))

theorem readsRange_of_computes (hcombine : Combines f combineChunks) (hlo : lo < hi)
    (hhi : hi < 2 ^ 64) (hne : r.deletedPositions ≠ []) (hcomputes : Computes ds lo hi) :
    ReadsRange r combineChunks (Live.select (· ∉ ds) 0 rows) lo hi := by
  have hlt := h.lt
  have hread := readWithRange_computes combineChunks ho hlo hne hcomputes
  have hcast : 0 < hi → ((hi : ℤ) - 1) = (hi - 1 : ℕ) := by omega
  constructor
  · intro hle
    have hle := hle.resolve_right (by omega)
    rw [Live.length_select_zero] at hle
    have hcount := Nat.count_le (· ∉ ds) (n := rows.length)
    have hmono : Nat.nth (· ∉ ds) lo ≤ Nat.nth (· ∉ ds) (hi - 1) :=
      Nat.nth_monotone (Live.infinite_live ds) (by omega)
    have hlast : Nat.nth (· ∉ ds) (hi - 1) < rows.length := Nat.nth_lt_of_lt_count (by omega)
    obtain ⟨bs, hbs, hflat⟩ := h.readWithRange (Nat.nth (· ∉ ds) lo)
      (Nat.nth (· ∉ ds) (hi - 1) + 1) (by omega) (by omega)
    rw [toSigned_of_lt (by omega), toSigned_of_lt (by omega), hcast (by omega), physicalOf_natCast,
      physicalOf_natCast, toUnsigned_succ (by omega), toUnsigned_natCast (by omega), hbs,
      Except.ok_bind, hcombine _ _ bs hbs, Except.ok_bind] at hread
    refine ⟨_, hread, ?_⟩
    rw [filterBatch_eq ho.mem _ (by omega), hflat, flatten_singleton, Live.select_nth hlo hle]
  · intro _ hlarge
    have hend : rows.length < toUnsigned 64 (physicalOf ds (toSigned 64 hi - 1) + 1) := by
      rw [Live.length_select_zero] at hlarge
      by_cases hsmall : hi < 2 ^ 63
      · have hnth := Live.le_nth_iff (D := ds) (n := rows.length) (i := hi - 1)
        obtain ⟨-, -, hint⟩ := hcomputes
        rw [toSigned_of_lt (by omega), hcast (by omega), physicalOf_natCast] at hint ⊢
        have hfits := hint.2.2
        rw [toUnsigned_succ (by omega)]
        omega
      · have hself : physicalOf ds (toSigned 64 hi - 1) + 1 = hi - 2 ^ 64 := by
          rw [toSigned_of_ge (by omega) hhi, physicalOf, if_pos (by omega)]
          omega
        rw [hself, toUnsigned]
        omega
    obtain ⟨s, hs⟩ := h.readWithRange_error (toUnsigned 64 (physicalOf ds (toSigned 64 lo)))
      (toUnsigned 64 (physicalOf ds (toSigned 64 hi - 1) + 1)) (toUnsigned_lt _) (by omega)
    rw [hs] at hread
    exact ⟨s, hread⟩

/-- A range is read as it should be if and only if its positions can be computed. -/
theorem readsRange_iff (hcombine : Combines f combineChunks) (hhi : hi < 2 ^ 64) :
    ReadsRange r combineChunks (Live.select (· ∉ ds) 0 rows) lo hi ↔ RangeFits deleted lo hi := by
  by_cases hle : hi ≤ lo
  · refine ⟨fun _ => .inr (.inl hle), fun _ => ⟨fun _ => ⟨[[]], if_pos hle, ?_⟩, ?_⟩⟩
    · simp [Nat.sub_eq_zero_of_le hle, take_zero]
    · exact fun hlo => absurd hlo (by omega)
  have hlo : lo < hi := not_le.mp hle
  by_cases hnil : r.deletedPositions = []
  · -- nothing is deleted, and the data file is read
    obtain rfl := ho.nil_iff.mp hnil
    have hread : readWithRange r combineChunks lo hi = f.readWithRange lo hi := by
      rw [readWithRange, if_neg (by omega), if_pos hnil, ho.inner]
    rw [Live.select_of_forall (by simp)]
    refine ⟨fun _ => .inl (ho.deletedPositions.symm.trans hnil), fun _ => ⟨fun hle' => ?_, ?_⟩⟩
    · rw [hread]
      exact h.readWithRange lo hi hlo (hle'.resolve_right hle)
    · intro _ hlarge
      rw [hread]
      exact h.readWithRange_error lo hi hhi (by omega)
  · rw [rangeFits_iff ho hlo hhi hnil]
    refine ⟨fun hreads => ?_, readsRange_of_computes h ho hcombine hlo hhi hnil⟩
    by_contra hcomputes
    have hlarge : (Live.select (· ∉ ds) 0 rows).length < hi :=
      not_le.mp fun hle' => hcomputes (computes_of_le h ho hlo hle')
    obtain ⟨s, hs⟩ := hreads.error hlo hlarge
    rw [readWithRange_overflow ho hlo hnil hcomputes] at hs
    cases hs

end Reads

/-! ## The live rows -/

/-- The rows of a file that are not deleted. -/
def liveRows (deleted : List ℤ) (rows : List Row) : List Row :=
  Live.select (fun p : ℕ => (p : ℤ) ∉ deleted) 0 rows

/-- **Iceberg data files.** The row groups show the live rows. The search for a position ends at
one, a list of rows is taken and a range is read as it should be if and only if the positions are
`int64_t`. -/
theorem reads_live_iff (h : ReadsRows f rows K) (hcombine : Combines f combineChunks)
    {deleted : List ℤ} (hnodup : deleted.Nodup) (hrange : ∀ d ∈ deleted, 0 ≤ d ∧ d < 2 ^ 63) :
    ∃ r, openReader f deleted = .ok r ∧ ReadsChunks r K (liveRows deleted rows) ∧
      (∀ i, IsInt64 i → ((∃ p, searchPhysical r.sortedDeletions i (deleted.length + 1) i =
        some (.ok p)) ↔ i + deleted.length < 2 ^ 63)) ∧
      (∀ is : List ℤ, (∀ i ∈ is, IsInt64 i) → (TakesLive r K (liveRows deleted rows) is ↔
        ∀ i ∈ is, i + deleted.length < 2 ^ 63)) ∧
      ∀ lo hi, hi < 2 ^ 64 →
        (ReadsRange r combineChunks (liveRows deleted rows) lo hi ↔ RangeFits deleted lo hi) := by
  obtain ⟨r, ds, hopen, ho⟩ := openReader_ok h.contiguous h.lt hnodup hrange
  have hlen : deleted.length = ds.length := by rw [← ho.perm.length_eq, length_int64s]
  have hlive : liveRows deleted rows = Live.select (· ∉ ds) 0 rows := by
    refine Live.select_congr (fun p => not_congr ?_) 0 rows
    rw [← ho.mem, ho.deletedPositions]
  rw [hlive, hlen]
  refine ⟨r, hopen, readsChunks h ho, fun i hi => ?_, fun is his => takesLive_iff h ho his,
    fun lo hi hhi => readsRange_iff h ho hcombine hhi⟩
  rw [ho.sortedDeletions, searchPhysical_start ho.sorted hi,
    ← isInt64_physicalOf_iff ho.sorted ho.lt hi, int64]
  split_ifs with hint <;> simp [hint]

/-- A file with one row group, whose first row is deleted. -/
def twoRows : PhysicalReader ℕ := listReader [10, 20] [⟨0, 2, 20, true⟩]

theorem reads_live_twoRows :
    ∃ r, openReader twoRows [0] = .ok r ∧ TakesLive r allRequests [20] [0] ∧
      ReadsRange r (.ok ·.flatten) [20] 0 1 ∧ ReadsRange r (.ok ·.flatten) [20] 0 7 := by
  have hreads : ReadsRows twoRows [10, 20] allRequests :=
    readsRows_listReader ⟨by decide, by simp [Tiling.Chained, RowGroupInfo.numRows], by decide⟩
      (by decide)
  obtain ⟨r, hopen, -, -, htake, hrange⟩ := reads_live_iff hreads
    (fun _ _ _ _ => rfl) (show Nodup [(0 : ℤ)] by decide) (by decide)
  refine ⟨r, hopen, (htake [0] (by decide)).mpr (by decide), (hrange 0 1 (by decide)).mpr ?_,
    (hrange 0 7 (by decide)).mpr ?_⟩
  · exact .inr (.inr (.inl (by decide)))
  · exact .inr (.inr (.inl (by decide)))

/-- The last `int64_t` is not refused: the search would look at the next one. -/
theorem take_twoRows_overflow : ∃ r, openReader twoRows [0] = .ok r ∧ liveRows [0] [10, 20] = [20] ∧
      searchPhysical r.sortedDeletions (2 ^ 63 - 1) 2 (2 ^ 63 - 1) =
        some (.error .signedOverflow) ∧
      take r [2 ^ 63 - 1] = .error .signedOverflow :=
  ⟨⟨twoRows, [0], [0], [⟨0, 1, 10, true⟩]⟩, rfl, rfl, rfl, rfl⟩

end MilvusStorage.Format.Iceberg
