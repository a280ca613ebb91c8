import MilvusStorage.Format.Paimon

/-!
# The live rows of a Paimon data file

All four ways to read a data file through `PaimonFormatReader` show one sequence, the rows of the
file that are not deleted. It has as many rows as the descriptor says (`direct_reads`).
-/

namespace MilvusStorage.Format.Paimon

open Except List

variable {Row : Type} {f : PhysicalReader Row} {rows : List Row} {K : Requests}

/-! ## The metadata -/

/-- What the metadata of a file with these row groups and rows is. -/
structure Loaded (physicalGroups : List RowGroupInfo) (n : ℕ) (metadata : Metadata) : Prop where
  sorted : metadata.sortedDeletions.Pairwise (· < ·)
  physicalRowCount : metadata.physicalRowCount = n
  physicalRowGroups : metadata.physicalRowGroups = physicalGroups
  logical : IsLogical (· ∉ metadata.sortedDeletions) metadata.rowGroupInfos physicalGroups
  recordCount : metadata.recordCount = Nat.count (· ∉ metadata.sortedDeletions) n

theorem pairwise_lt_of_isChain_ne {ds : List ℕ} (hle : ds.Pairwise (· ≤ ·))
    (hne : ds.IsChain (· ≠ ·)) : ds.Pairwise (· < ·) := by
  induction ds with
  | nil => exact .nil
  | cons d ds ih =>
    obtain ⟨hd, hds⟩ := pairwise_cons.mp hle
    have hlt := ih hds hne.tail
    refine pairwise_cons.mpr ⟨fun x hx => ?_, hlt⟩
    cases ds with
    | nil => simp at hx
    | cons d' ds =>
      have hfirst : d < d' :=
        lt_of_le_of_ne (hd d' mem_cons_self) (isChain_cons_cons.mp hne).1
      rcases mem_cons.mp hx with rfl | hx
      · exact hfirst
      · exact hfirst.trans ((pairwise_cons.mp hlt).1 x hx)

theorem makeDirectLogicalRowGroups_ok {physical : List RowGroupInfo} {n : ℕ}
    (h : Contiguous physical n) {deletions : List ℕ} (hD : deletions.Pairwise (· < ·)) :
    ∃ groups, makeDirectLogicalRowGroups physical deletions = .ok groups ∧
      IsLogical (· ∉ deletions) groups physical := by
  rw [makeDirectLogicalRowGroups]
  split_ifs with hnil
  · exact ⟨physical, rfl, isLogical_self (by simp [hnil]) physical⟩
  · refine ⟨_, ?_, isLogical_map physical⟩
    have hdels : ∀ rg ∈ physical, Live.lowerBound deletions rg.endOffset -
        Live.lowerBound deletions rg.startOffset + (Nat.count (· ∉ deletions) rg.endOffset -
          Nat.count (· ∉ deletions) rg.startOffset) = rg.numRows := by
      intro rg hrg
      exact Live.lowerBound_sub_add hD (h.ordered rg hrg)
    have hcount := logicalRowGroups_ok
      (fun group => .invalid ("Invalid physical Paimon row group: " ++ group.render))
      (fun _ _ => .invalid "Paimon deletion count exceeds physical row group size")
      h.ordered h.chained hdels
    rwa [Nat.count_zero] at hcount

variable {metadata : Metadata}

theorem loaded_of_loadMetadata {readDeletionVector : String → ℕ → ℕ → ℤ → Except Fault (List ℕ)}
    {physicalGroups : List RowGroupInfo} {n : ℕ} (h : Contiguous physicalGroups n)
    {deletionFile : DeletionFile} {recordCount : ℕ}
    (hload : loadMetadata readDeletionVector physicalGroups deletionFile recordCount = .ok metadata)
    {positions : List ℕ}
    (hpositions : loadDeletions readDeletionVector n deletionFile = .ok positions) :
    Loaded physicalGroups n metadata ∧ metadata.recordCount = recordCount ∧
      ∀ p, p ∈ metadata.sortedDeletions ↔ p ∈ positions := by
  rw [loadMetadata, h.getLast?_endOffset, hpositions, ok_bind] at hload
  dsimp only at hload
  split_ifs at hload with hchain
  have hD := pairwise_lt_of_isChain_ne (pairwise_insertionSort (· ≤ ·) positions) hchain
  obtain ⟨groups, hgroups, hlog⟩ := makeDirectLogicalRowGroups_ok h hD
  rw [hgroups, ok_bind] at hload
  have hlast := (hlog.contiguous h).getLast?_endOffset
  split_ifs at hload with hrecord
  cases hload
  refine ⟨⟨hD, rfl, rfl, hlog, ?_⟩, rfl, fun p => (perm_insertionSort _ _).mem_iff⟩
  rw [← not_not.mp hrecord, hlast]

/-! ## Reads -/

section Reads

variable {metadata : Metadata}

variable (h : ReadsRows f rows K) (hl : Loaded f.rowGroupInfos rows.length metadata)
include h hl

variable {lrg : RowGroupInfo} {is : List ℤ}

omit h in
theorem rowGroup?_physical {i : ℤ} (hlrg : rowGroup? i metadata.rowGroupInfos = some lrg) :
    ∃ prg ∈ f.rowGroupInfos, 0 ≤ i ∧ f.rowGroupInfos[i.toNat]? = some prg ∧
      lrg.startOffset = Nat.count (· ∉ metadata.sortedDeletions) prg.startOffset ∧
      lrg.endOffset = Nat.count (· ∉ metadata.sortedDeletions) prg.endOffset := by
  rw [rowGroup?] at hlrg
  split_ifs at hlrg with hi
  obtain ⟨prg, hprg, hstart, hend⟩ := hl.logical.getElem? hlrg
  exact ⟨prg, mem_of_getElem? hprg, not_lt.mp hi, hprg, hstart, hend⟩

theorem filterBatch_groupRows {prg : RowGroupInfo} (hprg : prg ∈ f.rowGroupInfos)
    (hstart : lrg.startOffset = Nat.count (· ∉ metadata.sortedDeletions) prg.startOffset)
    (hend : lrg.endOffset = Nat.count (· ∉ metadata.sortedDeletions) prg.endOffset) :
    filterBatch (groupRows rows prg) prg.startOffset metadata.sortedDeletions =
      groupRows (Live.select (· ∉ metadata.sortedDeletions) 0 rows) lrg := by
  rw [filterBatch_eq hl.sorted]
  exact select_groupRows hstart hend (h.contiguous.ordered prg hprg)
    (h.contiguous.endOffset_le hprg)

theorem getChunk_ok {i : ℤ} (hlrg : rowGroup? i metadata.rowGroupInfos = some lrg) :
    getChunk f metadata i =
      .ok (groupRows (Live.select (· ∉ metadata.sortedDeletions) 0 rows) lrg) := by
  obtain ⟨prg, hmem, hi, hprg, hstart, hend⟩ := rowGroup?_physical hl hlrg
  rw [getChunk, hlrg]
  dsimp only
  split_ifs with hempty
  · rw [groupRows, RowGroupInfo.numRows, hempty, Nat.sub_self, take_zero]
  · have hphys : rowGroup? i metadata.physicalRowGroups = some prg := by
      rw [rowGroup?, if_neg (not_lt.mpr hi), hl.physicalRowGroups, hprg]
    have hchunk := h.getChunk i.toNat prg hprg
    rw [Int.toNat_of_nonneg hi] at hchunk
    rw [hphys]
    simp only [hchunk, ok_bind, filterBatch_groupRows h hl hmem hstart hend]
    rfl

theorem getChunks_ok {lrgs : List RowGroupInfo} (hK : K.chunks is)
    (hlrgs : Forall₂ (fun i lrg => rowGroup? i metadata.rowGroupInfos = some lrg) is lrgs) :
    getChunks f metadata is =
      .ok (lrgs.map (groupRows (Live.select (· ∉ metadata.sortedDeletions) 0 rows))) := by
  rw [getChunks]
  split_ifs with hnil
  · subst hnil
    cases hlrgs
    rfl
  obtain ⟨prgs, hprgs, hphys, hfilter⟩ : ∃ prgs,
      Forall₂ (fun i prg => 0 ≤ i ∧ f.rowGroupInfos[i.toNat]? = some prg) is prgs ∧
      (is.mapM fun index => rowGroup? index metadata.physicalRowGroups) = some prgs ∧
      prgs.map (fun prg => filterBatch (groupRows rows prg) prg.startOffset
        metadata.sortedDeletions) =
        lrgs.map (groupRows (Live.select (· ∉ metadata.sortedDeletions) 0 rows)) := by
    clear hK hnil
    induction hlrgs with
    | nil => exact ⟨[], .nil, rfl, rfl⟩
    | @cons i lrg is lrgs hlrg _ ih =>
      obtain ⟨prgs, hprgs, hphys, hfilter⟩ := ih
      obtain ⟨prg, hmem, hi, hprg, hstart, hend⟩ := rowGroup?_physical hl hlrg
      refine ⟨prg :: prgs, .cons ⟨hi, hprg⟩ hprgs, ?_, ?_⟩
      · have hfirst : rowGroup? i metadata.physicalRowGroups = some prg := by
          rw [rowGroup?, if_neg (not_lt.mpr hi), hl.physicalRowGroups, hprg]
        simp [hfirst, hphys]
      · rw [map_cons, map_cons, filterBatch_groupRows h hl hmem hstart hend, hfilter]
  rw [hphys]
  simp only [h.getChunks is prgs hK hprgs, ok_bind, length_map, hprgs.length_eq, ne_eq]
  have hzip : (prgs.map (groupRows rows)).zip prgs =
      prgs.map fun prg => (groupRows rows prg, prg) := by
    simpa using zip_map' (g := id)
  rw [← hfilter, hzip, map_map]
  rfl

theorem logicalToPhysical_ok {offsets : List ℤ} (hsorted : offsets.Pairwise (· ≤ ·))
    (hrange : ∀ l ∈ offsets, 0 ≤ l ∧ l < metadata.recordCount) :
    logicalToPhysical metadata offsets =
      .ok (offsets.map fun l => (Nat.nth (· ∉ metadata.sortedDeletions) l.toNat : ℤ)) := by
  rw [logicalToPhysical, if_pos hsorted]
  exact logicalToPhysicalFrom_ok hl.sorted (hl.physicalRowCount ▸ hl.recordCount)
    (hl.physicalRowCount ▸ h.lt) hsorted hrange (by simp) (Nat.zero_le _)

theorem take_ok (hK : K.rows is) (hsorted : is.Pairwise (· ≤ ·))
    (hrange : ∀ i ∈ is, 0 ≤ i ∧ i < metadata.recordCount) :
    ∃ table, take f metadata is = .ok table ∧ table.map some = is.map fun i =>
      (Live.select (· ∉ metadata.sortedDeletions) 0 rows)[i.toNat]? := by
  rw [take]
  split_ifs with hnil
  · exact ⟨[], rfl, by rw [hnil]; rfl⟩
  · have hnth : ∀ i ∈ is, _ := fun i hi => Live.getElem?_nth (i := i.toNat) (by
        rw [← hl.recordCount]
        have := hrange i hi
        omega)
    rw [logicalToPhysical_ok h hl hsorted hrange]
    obtain ⟨table, htake, hrows⟩ := h.take
      (is.map fun l => (Nat.nth (· ∉ metadata.sortedDeletions) l.toNat : ℤ)) (by
        rw [map_physicalOf fun i hi => (hrange i hi).1]
        exact K.rows_map _ _ (physicalOf_strictMono _) hK) (by
        rw [forall_mem_map]
        intro i hi
        have := (hnth i hi).1
        omega)
    refine ⟨table, htake, ?_⟩
    rw [hrows, map_map]
    apply map_congr_left
    intro i hi
    exact (hnth i hi).2

theorem readWithRange_ok {lo hi : ℕ} (hle : lo ≤ hi) (hhi : hi ≤ metadata.recordCount) :
    ∃ r bs, readWithRange f metadata lo hi = .ok r ∧
      r.Shows metadata.sortedDeletions bs ∧ bs.flatten =
        ((Live.select (· ∉ metadata.sortedDeletions) 0 rows).drop lo).take (hi - lo) := by
  rw [readWithRange, if_neg (by omega)]
  split_ifs with heq
  · exact ⟨.empty, [[]], rfl, rfl, by simp [heq]⟩
  have hcount : metadata.recordCount ≤ rows.length := by
    rw [hl.recordCount]
    exact Nat.count_le _
  have hlt := h.lt
  have hlast := (Live.getElem?_nth (D := metadata.sortedDeletions) (l := rows) (i := hi - 1) (by
    rw [← hl.recordCount]
    omega)).1
  have hmono : Nat.nth (· ∉ metadata.sortedDeletions) lo ≤
      Nat.nth (· ∉ metadata.sortedDeletions) (hi - 1) :=
    Nat.nth_monotone (Live.infinite_live _) (by omega)
  obtain ⟨source, hsource, hrows⟩ := h.readWithRange (Nat.nth (· ∉ metadata.sortedDeletions) lo)
    (Nat.nth (· ∉ metadata.sortedDeletions) (hi - 1) + 1) (by omega) (by omega)
  obtain ⟨bs, hbs, -, hflat⟩ := DirectDeletionReader.exists_yields hl.sorted source
    (Nat.nth (· ∉ metadata.sortedDeletions) lo)
  refine ⟨.deletion ⟨source, Nat.nth (· ∉ metadata.sortedDeletions) lo⟩, bs, ?_, hbs, ?_⟩
  · have hpositions := logicalToPhysical_ok h hl
      (show Pairwise (· ≤ ·) [(lo : ℤ), (hi - 1 : ℕ)] by simp; omega) (by simp; omega)
    rw [toSigned_of_lt (by omega), toSigned_of_lt (by omega), hpositions, ok_bind]
    simp only [map_cons, map_nil, head?_cons, getLast?_cons_cons,
      getLast?_singleton, Int.toNat_natCast, hsource, ok_bind]
    rfl
  · rw [hflat, hrows, Live.select_nth (by omega) (hl.recordCount ▸ hhi)]

omit h in
theorem getChunks_error (hbad : ∃ i ∈ is, ¬(0 ≤ i ∧ i < metadata.rowGroupInfos.length)) :
    ∃ s, getChunks f metadata is = .error (.status s) := by
  obtain ⟨i, hi, hbad⟩ := hbad
  have hlen := hl.logical.length_eq
  have hnone : (is.mapM fun index => rowGroup? index metadata.physicalRowGroups) = none := by
    rw [hl.physicalRowGroups]
    induction is with
    | nil => simp at hi
    | cons j is ih =>
      rw [mapM_cons]
      rcases mem_cons.mp hi with rfl | hi
      · simp [rowGroup?_eq_none (hlen ▸ hbad)]
      · rw [ih hi]
        cases rowGroup? j f.rowGroupInfos <;> rfl
  rw [getChunks, if_neg (ne_nil_of_mem hi), hnone]
  exact ⟨_, rfl⟩

omit h hl in
theorem logicalToPhysical_error {offsets : List ℤ} (hsorted : offsets.Pairwise (· ≤ ·))
    (hbad : ∃ l ∈ offsets, ¬(0 ≤ l ∧ l < metadata.recordCount)) :
    ∃ s, logicalToPhysical metadata offsets = .error (.status s) := by
  rw [logicalToPhysical, if_pos hsorted]
  exact logicalToPhysicalFrom_error hbad 0

end Reads

/-! ## One sequence of rows -/

/-- All reads of a file show one sequence of rows, whose row `l` is at the `l`-th position that is
not deleted. What is not in the sequence is refused. -/
structure ReadsLive (f : PhysicalReader Row) (metadata : Metadata) (K : Requests)
    (deletions : List ℕ) (live : List Row) : Prop where
  rowGroups : Contiguous metadata.rowGroupInfos live.length
  chunk : ∀ i lrg, rowGroup? i metadata.rowGroupInfos = some lrg →
    getChunk f metadata i = .ok (groupRows live lrg)
  chunk_error : ∀ i : ℤ, ¬(0 ≤ i ∧ i < metadata.rowGroupInfos.length) →
    ∃ s, getChunk f metadata i = .error (.status s)
  chunks : ∀ is lrgs, K.chunks is →
    Forall₂ (fun i lrg => rowGroup? i metadata.rowGroupInfos = some lrg) is lrgs →
    getChunks f metadata is = .ok (lrgs.map (groupRows live))
  chunks_error : ∀ is : List ℤ, (∃ i ∈ is, ¬(0 ≤ i ∧ i < metadata.rowGroupInfos.length)) →
    ∃ s, getChunks f metadata is = .error (.status s)
  positions : ∀ is : List ℤ, is.Pairwise (· ≤ ·) → (∀ i ∈ is, 0 ≤ i ∧ i < live.length) →
    logicalToPhysical metadata is = .ok (is.map fun i => (Nat.nth (· ∉ deletions) i.toNat : ℤ))
  rows : ∀ is : List ℤ, is.Pairwise (· ≤ ·) → K.rows is → (∀ i ∈ is, 0 ≤ i ∧ i < live.length) →
    ∃ table, take f metadata is = .ok table ∧ table.map some = is.map fun i => live[i.toNat]?
  rows_error : ∀ is : List ℤ, is.Pairwise (· ≤ ·) → (∃ i ∈ is, ¬(0 ≤ i ∧ i < live.length)) →
    ∃ s, take f metadata is = .error (.status s)
  range : ∀ lo hi, lo ≤ hi → hi ≤ live.length → ∃ r bs, readWithRange f metadata lo hi = .ok r ∧
    r.Shows metadata.sortedDeletions bs ∧ bs.flatten = (live.drop lo).take (hi - lo)
  range_error : ∀ lo hi, ¬(lo ≤ hi ∧ hi ≤ live.length) →
    ∃ s, readWithRange f metadata lo hi = .error (.status s)

theorem Loaded.readsLive (h : ReadsRows f rows K)
    (hl : Loaded f.rowGroupInfos rows.length metadata) :
    ReadsLive f metadata K metadata.sortedDeletions
      (Live.select (· ∉ metadata.sortedDeletions) 0 rows) := by
  have hlen : (Live.select (· ∉ metadata.sortedDeletions) 0 rows).length =
      metadata.recordCount := by
    rw [Live.length_select_zero, hl.recordCount]
  constructor
  case rowGroups =>
    rw [Live.length_select_zero]
    exact hl.logical.contiguous h.contiguous
  case chunk => exact fun _ _ => getChunk_ok h hl
  case chunk_error =>
    intro i hi
    rw [getChunk, rowGroup?_eq_none hi]
    exact ⟨_, rfl⟩
  case chunks => exact fun _ _ => getChunks_ok h hl
  case chunks_error => exact fun _ => getChunks_error hl
  all_goals rw [hlen]
  case positions => exact fun _ => logicalToPhysical_ok h hl
  case rows => exact fun _ hsorted hK => take_ok h hl hK hsorted
  case rows_error =>
    intro is hsorted hbad
    obtain ⟨s, hs⟩ := logicalToPhysical_error hsorted hbad
    obtain ⟨i, hi, -⟩ := hbad
    rw [take, if_neg (ne_nil_of_mem hi), hs]
    exact ⟨s, rfl⟩
  case range => exact fun _ _ => readWithRange_ok h hl
  case range_error =>
    intro lo hi hbad
    rw [readWithRange, if_pos (by omega)]
    exact ⟨_, rfl⟩

theorem ReadsLive.congr {D D' : List ℕ} {live : List Row} (h : ∀ p, p ∈ D ↔ p ∈ D')
    (hreads : ReadsLive f metadata K D live) :
    ReadsLive f metadata K D' live := by
  have hdeleted : (· ∉ D) = (· ∉ D') := funext fun p => propext (not_congr (h p))
  exact { hreads with
    positions := by
      rw [← hdeleted]
      exact hreads.positions }

/-- **Paimon data files.** If the metadata of a file is loaded, all reads show the rows that are not
in its deletion vector, and the descriptor has their number. -/
theorem direct_reads {readDeletionVector : String → ℕ → ℕ → ℤ → Except Fault (List ℕ)}
    {deletionFile : DeletionFile} {recordCount : ℕ} {metadata : Metadata}
    (h : ReadsRows f rows K)
    (hload : loadMetadata readDeletionVector f.rowGroupInfos deletionFile recordCount =
      .ok metadata) :
    ∃ positions, loadDeletions readDeletionVector rows.length deletionFile = .ok positions ∧
      (Live.select (· ∉ positions) 0 rows).length = recordCount ∧
      ReadsLive f metadata K positions (Live.select (· ∉ positions) 0 rows) := by
  obtain ⟨positions, hpositions⟩ : ∃ positions,
      loadDeletions readDeletionVector rows.length deletionFile = .ok positions := by
    rw [loadMetadata, h.contiguous.getLast?_endOffset] at hload
    obtain ⟨positions, hpositions, -⟩ := bind_eq_ok.mp hload
    exact ⟨positions, hpositions⟩
  obtain ⟨hl, hcount, hmem⟩ := loaded_of_loadMetadata h.contiguous hload hpositions
  have hlive := Live.select_congr (fun p => not_congr (hmem p)) 0 rows
  refine ⟨positions, hpositions, ?_⟩
  rw [← hlive, Live.length_select_zero, ← hl.recordCount, hcount]
  exact ⟨rfl, (hl.readsLive h).congr hmem⟩

/-- Two row groups of five rows. The positions 3 and 1 are deleted. -/
def fiveRows : PhysicalReader ℕ :=
  listReader [10, 20, 30, 40, 50] [⟨0, 3, 30, true⟩, ⟨3, 5, 20, true⟩]

theorem direct_reads_fiveRows :
    ∃ metadata, loadMetadata (fun _ _ _ _ => .ok [3, 1]) fiveRows.rowGroupInfos
        (.object "deletions" 0 2 2) 3 = .ok metadata ∧
      ReadsLive fiveRows metadata allRequests [3, 1] [10, 30, 50] := by
  have hreads : ReadsRows fiveRows [10, 20, 30, 40, 50] allRequests :=
    readsRows_listReader ⟨by decide, by simp [Tiling.Chained, RowGroupInfo.numRows], by decide⟩
      (by decide)
  have hload : loadMetadata (fun _ _ _ _ => .ok [3, 1]) fiveRows.rowGroupInfos
      (.object "deletions" 0 2 2) 3 =
      .ok ⟨3, 5, fiveRows.rowGroupInfos, [1, 3], [⟨0, 2, 20, true⟩, ⟨2, 3, 10, true⟩]⟩ := rfl
  obtain ⟨positions, hpositions, -, hlive⟩ := direct_reads hreads hload
  cases hpositions
  exact ⟨_, hload, hlive⟩

end MilvusStorage.Format.Paimon
