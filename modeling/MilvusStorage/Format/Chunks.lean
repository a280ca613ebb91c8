import Mathlib.Data.List.Dedup
import MilvusStorage.Format.Open
import MilvusStorage.Foundations.Tiling

/-!
# The chunks of a column group

What `open` and `open_async` compute. The chunks of a file tile its visible rows, each inside one
row group (`FileChunks`), and the chunks of all files tile the rows of the column group, as long as
the number of rows fits into `size_t` (`IsOpen.global`).
-/

namespace MilvusStorage.Format

open Except List Tiling

variable {Row : Type}

theorem toUnsigned_natCast {a : ℕ} (h : a < 2 ^ 64) : toUnsigned 64 a = a := by
  unfold toUnsigned
  omega

theorem toUnsigned_sub {a b : ℕ} (hle : b ≤ a) (h : a < 2 ^ 64) :
    toUnsigned 64 (a - b : ℤ) = a - b := by
  unfold toUnsigned
  omega

theorem toUnsigned_of_nonneg {x : ℤ} (h : 0 ≤ x) (hlt : x < 2 ^ 64) :
    toUnsigned 64 x = x.toNat := by
  unfold toUnsigned
  omega

def RowGroupInfo.numRows (rg : RowGroupInfo) : ℕ := rg.endOffset - rg.startOffset

/-- Row groups that follow each other from row 0 on, of a file with `n` rows. -/
structure Contiguous (rgs : List RowGroupInfo) (n : ℕ) : Prop where
  ordered : ∀ rg ∈ rgs, rg.startOffset ≤ rg.endOffset
  chained : Chained RowGroupInfo.startOffset RowGroupInfo.numRows 0 rgs n
  lt : n < 2 ^ 64

/-- The rows of the file that are visible. -/
def visibleRows (file : ColumnGroupFile) : ℕ :=
  (file.endIndex - file.startIndex).toNat

/-- Where a chunk starts among the rows of all files. -/
def ChunkInfo.globalRowStart (c : ChunkInfo) : ℕ := c.globalRowEnd - c.numberOfRows

/-- The rows of the chunk are rows of its row group. -/
def Inside (rgs : List RowGroupInfo) (c : ChunkInfo) : Prop :=
  ∃ rg, rgs[c.rowGroupIndexInFile]? = some rg ∧
    c.rowOffsetInFile = rg.startOffset + c.rowOffsetInRowGroup ∧
    c.rowOffsetInFile + c.numberOfRows ≤ rg.endOffset

/-! ## Fragments -/

/-- The fragment of a row group is what a window leaves of it. -/
structure Cuts (fragment : RowGroupInfo → Option Fragment) (lo hi : ℕ) (rg : RowGroupInfo) :
    Prop where
  of_some : ∀ f, fragment rg = some f → f.rowOffsetInFile = clamp lo hi rg.startOffset ∧
    f.rowOffsetInFile + f.numberOfRows = clamp lo hi (rg.startOffset + rg.numRows) ∧
    0 < f.numberOfRows ∧ f.rowOffsetInFile = rg.startOffset + f.rowOffsetInRowGroup ∧
    f.rowOffsetInFile + f.numberOfRows ≤ rg.endOffset
  of_none : fragment rg = none →
    clamp lo hi rg.startOffset = clamp lo hi (rg.startOffset + rg.numRows)

theorem cuts_overlap {lo hi : ℕ} (hlo : lo ≤ hi) {rg : RowGroupInfo}
    (hrg : rg.startOffset ≤ rg.endOffset) (hlt : rg.endOffset < 2 ^ 64) :
    Cuts (overlap lo hi) lo hi rg := by
  by_cases hover : max lo rg.startOffset < min hi rg.endOffset
  · refine ⟨fun f hf => ?_, fun hf => ?_⟩
    · rw [overlap, if_pos hover] at hf
      cases hf
      have hstart := toUnsigned_sub (le_max_right lo rg.startOffset) (by omega)
      simp only [clamp, RowGroupInfo.numRows]
      omega
    · rw [overlap, if_pos hover] at hf
      cases hf
  · refine ⟨fun f hf => ?_, fun _ => ?_⟩
    · rw [overlap, if_neg hover] at hf
      cases hf
    · simp only [clamp, RowGroupInfo.numRows]
      omega

variable {fileIdx rows n rowsInAllFiles : ℕ} {file : ColumnGroupFile} {S : Source Row}
  {rgs : List RowGroupInfo} {files : List ColumnGroupFile} {chunks : List ChunkInfo}
  {r : ColumnGroupReader Row} {reader : FormatReader Row}

theorem cuts_whole {rg : RowGroupInfo} (hrg : rg.startOffset ≤ rg.endOffset)
    (hle : rg.endOffset ≤ n) (hlt : n < 2 ^ 64) : Cuts whole 0 n rg := by
  have hrows : toUnsigned 64 (rg.endOffset - rg.startOffset : ℤ) = rg.endOffset - rg.startOffset :=
    toUnsigned_sub hrg (by omega)
  refine ⟨fun f hf => ?_, fun hf => ?_⟩
  · simp only [whole] at hf
    split_ifs at hf with hzero
    cases hf
    simp only [clamp, RowGroupInfo.numRows]
    omega
  · simp only [whole] at hf
    split_ifs at hf with hzero
    simp only [clamp, RowGroupInfo.numRows]
    omega

/-! ## The chunks of a file -/

section File

variable {fileIdx rowsInAllFiles : ℕ} {fragment : RowGroupInfo → Option Fragment}

/-- A chunk is the fragment of a row group. -/
theorem appendChunks_mem {j rowsInFile : ℕ} {rgs : List RowGroupInfo} {c : ChunkInfo}
    (hc : c ∈ (appendChunks fileIdx rowsInAllFiles fragment j rowsInFile rgs).1) :
    c.fileIndex = fileIdx ∧ c.globalRowEnd < 2 ^ 64 ∧ ∃ k rg f, rgs[k]? = some rg ∧
      fragment rg = some f ∧ c.rowGroupIndexInFile = j + k ∧
      c.rowOffsetInRowGroup = f.rowOffsetInRowGroup ∧ c.rowOffsetInFile = f.rowOffsetInFile ∧
      c.numberOfRows = f.numberOfRows := by
  induction rgs generalizing j rowsInFile with
  | nil => cases hc
  | cons rg rgs ih =>
    rw [appendChunks] at hc
    cases hf : fragment rg with
    | none =>
      rw [hf] at hc
      obtain ⟨hfile, hlt, k, rg', f, hk, hf', hj, hrest⟩ := ih hc
      exact ⟨hfile, hlt, k + 1, rg', f, hk, hf', by omega, hrest⟩
    | some f =>
      rw [hf] at hc
      obtain rfl | hc := mem_cons.mp hc
      · exact ⟨rfl, Nat.mod_lt _ (Nat.two_pow_pos 64), 0, rg, f, rfl, hf, rfl, rfl, rfl, rfl⟩
      · obtain ⟨hfile, hlt, k, rg', f', hk, hf', hj, hrest⟩ := ih hc
        exact ⟨hfile, hlt, k + 1, rg', f', hk, hf', by omega, hrest⟩

variable (fileIdx rowsInAllFiles fragment)

theorem appendChunks_map (j rowsInFile : ℕ) (rgs : List RowGroupInfo) :
    (appendChunks fileIdx rowsInAllFiles fragment j rowsInFile rgs).1.map
        (fun c => (c.rowOffsetInFile, c.numberOfRows)) =
      (rgs.filterMap fragment).map fun f => (f.rowOffsetInFile, f.numberOfRows) := by
  induction rgs generalizing j rowsInFile with
  | nil => rfl
  | cons rg rgs ih =>
    rw [appendChunks]
    cases hf : fragment rg with
    | none =>
      rw [filterMap_cons_none hf]
      exact ih _ _
    | some f =>
      rw [filterMap_cons_some hf, map_cons, map_cons, ih]

/-- As long as `size_t` does not wrap around, the ends of the chunks add up. -/
theorem appendChunks_global (j rowsInFile : ℕ) (rgs : List RowGroupInfo)
    (h : rowsInAllFiles + rowsInFile + ((rgs.filterMap fragment).map Fragment.numberOfRows).sum <
      2 ^ 64) :
    Chained ChunkInfo.globalRowStart ChunkInfo.numberOfRows (rowsInAllFiles + rowsInFile)
        (appendChunks fileIdx rowsInAllFiles fragment j rowsInFile rgs).1
        (rowsInAllFiles + (appendChunks fileIdx rowsInAllFiles fragment j rowsInFile rgs).2) ∧
      (appendChunks fileIdx rowsInAllFiles fragment j rowsInFile rgs).2 =
        rowsInFile + ((rgs.filterMap fragment).map Fragment.numberOfRows).sum ∧
      ∀ c ∈ (appendChunks fileIdx rowsInAllFiles fragment j rowsInFile rgs).1,
        c.numberOfRows ≤ c.globalRowEnd := by
  induction rgs generalizing j rowsInFile with
  | nil => exact ⟨rfl, rfl, forall_mem_nil _⟩
  | cons rg rgs ih =>
    rw [appendChunks]
    cases hf : fragment rg with
    | none =>
      rw [filterMap_cons_none hf] at h ⊢
      exact ih _ _ h
    | some f =>
      rw [filterMap_cons_some hf, map_cons, sum_cons] at h ⊢
      have hmod : (rowsInFile + f.numberOfRows) % 2 ^ 64 = rowsInFile + f.numberOfRows :=
        Nat.mod_eq_of_lt (by omega)
      dsimp only
      rw [hmod]
      obtain ⟨hchain, hrows, hle⟩ := ih (j + 1) (rowsInFile + f.numberOfRows) (by omega)
      refine ⟨⟨?_, ?_⟩, by omega, forall_mem_cons.mpr ⟨?_, hle⟩⟩
      · simp only [ChunkInfo.globalRowStart]
        omega
      · rwa [add_assoc]
      · dsimp only
        omega

end File

/-- The chunks of the `fileIdx`-th file, and the number of rows with those of this file. -/
structure FileChunks (fileIdx : ℕ) (file : ColumnGroupFile) (rgs : List RowGroupInfo)
    (rowsInAllFiles : ℕ) (chunks : List ChunkInfo) (rows : ℕ) : Prop where
  tiles : Tiles ChunkInfo.rowOffsetInFile ChunkInfo.numberOfRows file.startIndex.toNat chunks
    file.endIndex.toNat
  mem : ∀ c ∈ chunks, c.fileIndex = fileIdx ∧ c.globalRowEnd < 2 ^ 64 ∧ Inside rgs c
  global : rowsInAllFiles + visibleRows file < 2 ^ 64 →
    Chained ChunkInfo.globalRowStart ChunkInfo.numberOfRows rowsInAllFiles chunks rows ∧
      rows = rowsInAllFiles + visibleRows file ∧ ∀ c ∈ chunks, c.numberOfRows ≤ c.globalRowEnd

section

variable (hrgs : Contiguous rgs n) (hstart : 0 ≤ file.startIndex)
  (hlt : file.startIndex < file.endIndex) (hend : file.endIndex ≤ n)
include hrgs hstart hlt hend

theorem fileChunks_of_cuts {fragment : RowGroupInfo → Option Fragment}
    (hcuts : ∀ rg ∈ rgs, Cuts fragment file.startIndex.toNat file.endIndex.toNat rg) :
    FileChunks fileIdx file rgs rowsInAllFiles
      (appendChunks fileIdx rowsInAllFiles fragment 0 0 rgs).1
      ((rowsInAllFiles + (appendChunks fileIdx rowsInAllFiles fragment 0 0 rgs).2) % 2 ^ 64) := by
  have htiles : Tiles Fragment.rowOffsetInFile Fragment.numberOfRows file.startIndex.toNat
      (rgs.filterMap fragment) file.endIndex.toNat := by
    have hlo : clamp file.startIndex.toNat file.endIndex.toNat 0 = file.startIndex.toNat := by
      unfold clamp
      omega
    have hhi : clamp file.startIndex.toNat file.endIndex.toNat n = file.endIndex.toNat := by
      unfold clamp
      omega
    have hwindow := chained_filterMap Fragment.rowOffsetInFile Fragment.numberOfRows
      (fun rg hrg f hf => ?_) (fun rg hrg => (hcuts rg hrg).of_none) hrgs.chained
    · rwa [hlo, hhi] at hwindow
    · obtain ⟨hstart, hend, hpos, -⟩ := (hcuts rg hrg).of_some f hf
      exact ⟨hstart, hend, hpos⟩
  have hmap := appendChunks_map fileIdx rowsInAllFiles fragment 0 0 rgs
  refine ⟨⟨chained_of_map_eq hmap htiles.chained, fun c hc => ?_⟩, fun c hc => ?_, fun hlt => ?_⟩
  · obtain ⟨-, -, k, rg, f, hk, hf, -, -, -, hrows⟩ := appendChunks_mem hc
    rw [hrows]
    exact ((hcuts rg (mem_of_getElem? hk)).of_some f hf).2.2.1
  · obtain ⟨hfile, hlt, k, rg, f, hk, hf, hj, hrg, hoff, hrows⟩ := appendChunks_mem hc
    obtain ⟨-, -, -, hinside, hle⟩ := (hcuts rg (mem_of_getElem? hk)).of_some f hf
    refine ⟨hfile, hlt, rg, ?_, by omega, by omega⟩
    rw [hj, zero_add, hk]
  · have hsum := htiles.chained.sum_eq
    rw [visibleRows] at hlt ⊢
    obtain ⟨hchain, hrows, hle⟩ :=
      appendChunks_global fileIdx rowsInAllFiles fragment 0 0 rgs (by omega)
    rw [Nat.mod_eq_of_lt (by omega)]
    exact ⟨hchain, by omega, hle⟩

section

variable (h : appendFileMetadata fileIdx file rgs rowsInAllFiles = .ok (chunks, rows))
include h

/-- Whether or not all rows of the file are visible, its row groups are cut to the visible rows. -/
theorem appendFileMetadata_cuts :
    ∃ fragment, chunks = (appendChunks fileIdx rowsInAllFiles fragment 0 0 rgs).1 ∧
      rows = (rowsInAllFiles + (appendChunks fileIdx rowsInAllFiles fragment 0 0 rgs).2) % 2 ^ 64 ∧
      ∀ rg ∈ rgs, Cuts fragment file.startIndex.toNat file.endIndex.toNat rg := by
  have hn := hrgs.lt
  have hle : ∀ rg ∈ rgs, rg.endOffset ≤ n := by
    intro rg hrg
    have := (hrgs.chained.mem hrg).2
    have := hrgs.ordered rg hrg
    rw [RowGroupInfo.numRows] at *
    omega
  unfold appendFileMetadata at h
  cases hlast : rgs.getLast? with
  | none =>
    -- a file without row groups has no rows
    rw [getLast?_eq_none_iff.mp hlast] at hrgs
    have : 0 = n := hrgs.chained
    omega
  | some last =>
    rw [hlast] at h
    dsimp only at h
    split_ifs at h with hpart hvalid
    · cases h
      refine ⟨_, rfl, rfl, fun rg hrg => ?_⟩
      rw [toUnsigned_of_nonneg hstart (by omega), toUnsigned_of_nonneg (by omega) (by omega)]
      exact cuts_overlap (by omega) (hrgs.ordered rg hrg) ((hle rg hrg).trans_lt hn)
    · cases h
      obtain ⟨hzero, hall⟩ := not_or.mp hpart
      rw [ne_eq, not_not] at hzero hall
      rw [toUnsigned_of_nonneg (by omega) (by omega)] at hall
      refine ⟨_, rfl, rfl, fun rg hrg => ?_⟩
      have hmem := mem_of_getLast? hlast
      have hlast := hrgs.chained.getLast? hlast
      have hord := hrgs.ordered last hmem
      rw [RowGroupInfo.numRows] at hlast
      rw [hzero, hall]
      exact cuts_whole (hrgs.ordered rg hrg) (by have := hle rg hrg; omega) (by omega)

theorem appendFileMetadata_spec : FileChunks fileIdx file rgs rowsInAllFiles chunks rows := by
  obtain ⟨fragment, rfl, rfl, hcuts⟩ := appendFileMetadata_cuts hrgs hstart hlt hend h
  exact fileChunks_of_cuts hrgs hstart hlt hend hcuts

end

end

/-! ## The chunks of all files -/

/-- The chunks of the files from the `fileIdx`-th on, and the number of rows with theirs. -/
inductive Appends : ℕ → ℕ → List (ColumnGroupFile × List RowGroupInfo) → List ChunkInfo → ℕ → Prop
  | nil (fileIdx rows : ℕ) : Appends fileIdx rows [] [] rows
  | cons {fileIdx rows rows' rows'' : ℕ} {file : ColumnGroupFile} {rgs : List RowGroupInfo}
      {entries : List (ColumnGroupFile × List RowGroupInfo)} {chunks chunks' : List ChunkInfo} :
      appendFileMetadata fileIdx file rgs rows = .ok (chunks, rows') →
      Appends (fileIdx + 1) rows' entries chunks' rows'' →
      Appends fileIdx rows ((file, rgs) :: entries) (chunks ++ chunks') rows''

/-- The row groups of the files, as their format readers report them. -/
def RowGroups (readers : List (FormatReader Row)) (rgss : List (List RowGroupInfo)) : Prop :=
  Forall₂ (fun reader rgs => reader.rowGroupInfos = .ok rgs) readers rgss

/-- The file can be opened with this format reader. -/
def Source.CanOpen (S : Source Row) (file : ColumnGroupFile) (reader : FormatReader Row) : Prop :=
  S.openReaderForFile file = .ok reader ∨ S.openReaderForFileAsync file = .ok (.ok reader)

/-- What `open` and `open_async` establish. -/
structure IsOpen (r : ColumnGroupReader Row) : Prop where
  valid : ∀ file ∈ r.source.files, 0 ≤ file.startIndex ∧ file.startIndex < file.endIndex
  readers : Forall₂ r.source.CanOpen r.source.files r.formatReaders
  appends : ∃ rgss, RowGroups r.formatReaders rgss ∧
    Appends 0 0 (r.source.files.zip rgss) r.chunkInfos r.totalRows

theorem IsOpen.canOpen (h : IsOpen r) {i : ℕ} (hfile : r.source.files[i]? = some file)
    (hreader : r.formatReaders[i]? = some reader) : r.source.CanOpen file reader :=
  h.readers.rel_of_getElem? hfile hreader

theorem checkIndices_ok (h : checkIndices fileIdx file = .ok ()) :
    0 ≤ file.startIndex ∧ file.startIndex < file.endIndex := by
  unfold checkIndices at h
  split_ifs at h with hbad
  omega

theorem orStatus_eq_ok {α : Type} {x : Except Status α} {a : α} :
    orStatus x = .ok a ↔ x = .ok a := by
  cases x <;> simp [orStatus, Except.mapError]

/-- What a loop over the files has opened. -/
structure Opens (S : Source Row) (fileIdx rows : ℕ) (files : List ColumnGroupFile)
    (opened : Opened Row) : Prop where
  readers : Forall₂ S.CanOpen files opened.formatReaders
  appends : ∃ rgss, RowGroups opened.formatReaders rgss ∧
    Appends fileIdx rows (files.zip rgss) opened.chunkInfos opened.rowsInAllFiles

theorem Opens.nil (S : Source Row) (fileIdx rows : ℕ) : Opens S fileIdx rows [] ⟨[], [], rows⟩ :=
  ⟨.nil, [], .nil, .nil fileIdx rows⟩

theorem Opens.cons {rows' : ℕ} {rest : Opened Row} (hreader : S.CanOpen file reader)
    (hrgs : reader.rowGroupInfos = .ok rgs)
    (hchunks : appendFileMetadata fileIdx file rgs rows = .ok (chunks, rows'))
    (hrest : Opens S (fileIdx + 1) rows' files rest) :
    Opens S fileIdx rows (file :: files)
      ⟨chunks ++ rest.chunkInfos, reader :: rest.formatReaders, rest.rowsInAllFiles⟩ := by
  obtain ⟨rgss, hrgss, happends⟩ := hrest.appends
  exact ⟨.cons hreader hrest.readers, rgs :: rgss, .cons hrgs hrgss, .cons hchunks happends⟩

theorem openFiles_opens {opened : Opened Row} (h : openFiles S fileIdx rows files = .ok opened) :
    Opens S fileIdx rows files opened ∧
      ∀ file ∈ files, 0 ≤ file.startIndex ∧ file.startIndex < file.endIndex := by
  induction files generalizing fileIdx rows opened with
  | nil =>
    cases h
    exact ⟨.nil S fileIdx rows, forall_mem_nil _⟩
  | cons file files ih =>
    obtain ⟨⟨⟩, hcheck, h⟩ := bind_eq_ok.mp h
    obtain ⟨reader, hreader, h⟩ := bind_eq_ok.mp h
    obtain ⟨rgs, hrgs, h⟩ := bind_eq_ok.mp h
    obtain ⟨⟨chunks, rows'⟩, hchunks, h⟩ := bind_eq_ok.mp h
    obtain ⟨rest, hrest, rfl⟩ := bind_pure_eq_ok.mp h
    obtain ⟨hopens, hvalid⟩ := ih hrest
    exact ⟨.cons (.inl (orStatus_eq_ok.mp hreader)) (orStatus_eq_ok.mp hrgs) hchunks hopens,
      forall_mem_cons.mpr ⟨checkIndices_ok hcheck, hvalid⟩⟩

/-- The check in `append_file_metadata` cannot fail after the one in `open`. -/
theorem appendFileMetadata_isOk (fileIdx rows : ℕ) (rgs : List RowGroupInfo)
    (hstart : 0 ≤ file.startIndex) (hlt : file.startIndex < file.endIndex) :
    ∃ result, appendFileMetadata fileIdx file rgs rows = .ok result := by
  unfold appendFileMetadata
  cases rgs.getLast? with
  | none => exact ⟨_, rfl⟩
  | some last =>
    dsimp only
    split_ifs with hpart hindices
    · exact ⟨_, rfl⟩
    · exact absurd ⟨hstart, by omega, hlt⟩ hindices
    · exact ⟨_, rfl⟩

theorem openFiles_isOk (fileIdx rows : ℕ)
    (h : ∀ file ∈ files, (0 ≤ file.startIndex ∧ file.startIndex < file.endIndex) ∧
      ∃ reader rgs, S.openReaderForFile file = .ok reader ∧ reader.rowGroupInfos = .ok rgs) :
    ∃ opened, openFiles S fileIdx rows files = .ok opened := by
  induction files generalizing fileIdx rows with
  | nil => exact ⟨_, rfl⟩
  | cons file files ih =>
    obtain ⟨⟨⟨hstart, hlt⟩, reader, rgs, hreader, hrgs⟩, hfiles⟩ := forall_mem_cons.mp h
    obtain ⟨⟨chunks, rows'⟩, hchunks⟩ := appendFileMetadata_isOk fileIdx rows rgs hstart hlt
    obtain ⟨rest, hrest⟩ := ih (fileIdx + 1) rows' hfiles
    have hcheck : checkIndices fileIdx file = .ok () := if_neg (by omega)
    refine ⟨⟨chunks ++ rest.chunkInfos, reader :: rest.formatReaders, rest.rowsInAllFiles⟩, ?_⟩
    rw [openFiles, hcheck, hreader]
    change orStatus reader.rowGroupInfos >>= _ = _
    rw [hrgs]
    change appendFileMetadata fileIdx file rgs rows >>= _ = _
    rw [hchunks]
    change openFiles S (fileIdx + 1) rows' files >>= _ = _
    simp [hrest]

/-- Files with valid indices are opened. -/
theorem open_isOk (h : ∀ file ∈ S.files, (0 ≤ file.startIndex ∧ file.startIndex < file.endIndex) ∧
      ∃ reader rgs, S.openReaderForFile file = .ok reader ∧ reader.rowGroupInfos = .ok rgs) :
    ∃ r, «open» S = .ok r := by
  obtain ⟨opened, hopened⟩ := openFiles_isOk 0 0 h
  refine ⟨⟨S, opened.chunkInfos, opened.rowsInAllFiles, opened.formatReaders⟩, ?_⟩
  simp [«open», hopened]

theorem isOpen_of_open (h : «open» S = .ok r) : IsOpen r ∧ r.source = S := by
  obtain ⟨opened, hopened, rfl⟩ := bind_pure_eq_ok.mp h
  obtain ⟨hopens, hvalid⟩ := openFiles_opens hopened
  exact ⟨⟨hvalid, hopens.readers, hopens.appends⟩, rfl⟩

theorem checkFiles_ok (h : checkFiles fileIdx files = .ok ()) :
    ∀ file ∈ files, 0 ≤ file.startIndex ∧ file.startIndex < file.endIndex := by
  induction files generalizing fileIdx with
  | nil => exact forall_mem_nil _
  | cons file files ih =>
    obtain ⟨⟨⟩, hcheck, h⟩ := bind_eq_ok.mp h
    exact forall_mem_cons.mpr ⟨checkIndices_ok hcheck, ih h⟩

theorem openFileAsync_ok {result : Except Status (FormatReader Row × List RowGroupInfo)}
    (h : openFileAsync S file = .ok result) (hres : result = .ok (reader, rgs)) :
    S.CanOpen file reader ∧ reader.rowGroupInfos = .ok rgs := by
  subst hres
  obtain ⟨opened, hopened, h⟩ := bind_eq_ok.mp h
  obtain ⟨reader', hreader, h⟩ := bind_eq_ok.mp (pure_eq_ok_iff.mp h)
  obtain ⟨rgs', hrgs, h⟩ := bind_eq_ok.mp h
  obtain ⟨rfl, rfl⟩ := Prod.mk.inj (pure_eq_ok_iff.mp h)
  exact ⟨.inr (hreader ▸ hopened), hrgs⟩

theorem collectFiles_opens {opened : Opened Row}
    (h : collectFiles fileIdx rows (files.map fun file => (file, openFileAsync S file)) =
      .ok opened) : Opens S fileIdx rows files opened := by
  induction files generalizing fileIdx rows opened with
  | nil =>
    cases h
    exact .nil S fileIdx rows
  | cons file files ih =>
    obtain ⟨result, hres, h⟩ := bind_eq_ok.mp h
    obtain ⟨⟨reader, rgs⟩, hreader, h⟩ := bind_eq_ok.mp h
    obtain ⟨⟨chunks, rows'⟩, hchunks, h⟩ := bind_eq_ok.mp h
    obtain ⟨rest, hrest, rfl⟩ := bind_pure_eq_ok.mp h
    have hopen : openFileAsync S file = .ok result := by
      cases hfile : openFileAsync S file with
      | error what =>
        rw [hfile] at hres
        cases hres
      | ok result' =>
        rw [hfile] at hres
        exact congrArg _ (ok.inj hres)
    obtain ⟨hcan, hrgs⟩ := openFileAsync_ok hopen (orStatus_eq_ok.mp hreader)
    exact .cons hcan hrgs hchunks (ih hrest)

theorem isOpen_of_openAsync (h : openAsync S = .ok r) : IsOpen r ∧ r.source = S := by
  obtain ⟨⟨⟩, hcheck, h⟩ := bind_eq_ok.mp h
  obtain ⟨opened, hopened, rfl⟩ := bind_pure_eq_ok.mp h
  have hopens := collectFiles_opens hopened
  exact ⟨⟨checkFiles_ok hcheck, hopens.readers, hopens.appends⟩, rfl⟩

end MilvusStorage.Format
