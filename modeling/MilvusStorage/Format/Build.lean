import MilvusStorage.Format.Tiled

/-!
# Column groups built from row counts

`BuildLoonColumnGroups` makes the column groups of the V2 read path from the paths of the files and
their row counts, as C arrays with their lengths, and `column_groups_import` turns them into the
column groups a reader is opened on.

The builder numbers the rows of a group through, so that the second file starts where the first one
ends; a reader takes the same numbers as rows of the file. They agree on the first file only
(`buildLoonColumnGroups_readable_iff`).
-/

namespace MilvusStorage.Format

open List

variable {Row : Type}

/-! ## `BuildLoonColumnGroups` -/

structure LoonColumnGroup where
  numOfColumns : ℕ
  columns : List String
  format : String
  numOfFiles : ℕ
  files : List ColumnGroupFile

structure LoonColumnGroups where
  numOfColumnGroups : ℕ
  columnGroupArray : List LoonColumnGroup

/-- The loop over the files of a group with their row counts. -/
def buildFiles : ℤ → List (String × ℤ) → Except Fault (List ColumnGroupFile)
  | _, [] => .ok []
  | cumulative, (path, rowCount) :: files => do
    let endIndex := cumulative + rowCount
    if endIndex < -2 ^ 63 ∨ 2 ^ 63 ≤ endIndex then .error .signedOverflow
    else
      let rest ← buildFiles endIndex files
      return ⟨path, cumulative, endIndex, []⟩ :: rest

/-- The body of the loop over the groups. -/
def buildGroup (g : ℕ) (columns files : List String) (rowCounts : List ℤ) :
    Except Fault LoonColumnGroup :=
  let rowCountsLength := rowCounts.length
  let filesLength := files.length
  if columns = [] ∨ files = [] then
    .error (.thrown s!"group[{g}]: columns/files must be non-empty")
  else if rowCountsLength ≠ filesLength then
    .error (.thrown
      s!"group[{g}]: rowCounts.length ({rowCountsLength}) != files.length ({filesLength})")
  else do
    let out ← buildFiles 0 (files.zip rowCounts)
    return {
      numOfColumns := columns.length % 2 ^ 32
      columns := columns
      format := loonFormatParquet
      numOfFiles := filesLength % 2 ^ 32
      files := out }

def buildLoonColumnGroups (columnsPerGroup filesPerGroup : List (List String))
    (rowCountsPerGroup : List (List ℤ)) : Except Fault LoonColumnGroups :=
  let numGroups := columnsPerGroup.length
  let filesLength := filesPerGroup.length
  let rowCountsLength := rowCountsPerGroup.length
  if numGroups ≠ filesLength ∨ numGroups ≠ rowCountsLength then
    .error (.thrown (s!"per-group array length mismatch: cols={numGroups}" ++
      s!", files={filesLength}, rowCounts={rowCountsLength}"))
  else if numGroups = 0 then .error (.thrown "at least one column group is required")
  else do
    let columnGroupArray ← (columnsPerGroup.zip (filesPerGroup.zip rowCountsPerGroup)).zipIdx.mapM
      fun ((columns, files, rowCounts), g) => buildGroup g columns files rowCounts
    return ⟨numGroups % 2 ^ 32, columnGroupArray⟩

/-! ## `column_groups_import` -/

def importColumnGroup (ccg : LoonColumnGroup) : ColumnGroup where
  columns := ccg.columns.take ccg.numOfColumns
  format := ccg.format
  files := ccg.files.take ccg.numOfFiles

def columnGroupsImport (ccgs : LoonColumnGroups) : List ColumnGroup :=
  (ccgs.columnGroupArray.take ccgs.numOfColumnGroups).map importColumnGroup

/-! ## The built groups -/

section

variable {cumulative : ℤ} {files : List (String × ℤ)} {out : List ColumnGroupFile}
  (h : buildFiles cumulative files = .ok out)
include h

/-- The files of a group get consecutive intervals. -/
theorem buildFiles_getElem? (k : ℕ) : out[k]? = files[k]?.map fun (path, rowCount) =>
      let start := cumulative + ((files.take k).map Prod.snd).sum
      ⟨path, start, start + rowCount, []⟩ := by
  induction files generalizing cumulative out k with
  | nil =>
    cases h
    rfl
  | cons file files ih =>
    obtain ⟨path, rowCount⟩ := file
    rw [buildFiles] at h
    split_ifs at h
    obtain ⟨rest, hrest, rfl⟩ := Except.bind_pure_eq_ok.mp h
    cases k with
    | zero => simp
    | succ k => simp [ih hrest, add_assoc]

/-- Without overflow, the indices are those of an `int64_t`. -/
theorem buildFiles_endIndex_lt : ∀ file ∈ out, file.endIndex < 2 ^ 63 := by
  induction files generalizing cumulative out with
  | nil =>
    cases h
    exact forall_mem_nil _
  | cons file files ih =>
    obtain ⟨path, rowCount⟩ := file
    rw [buildFiles] at h
    split_ifs at h with hoverflow
    obtain ⟨rest, hrest, rfl⟩ := Except.bind_pure_eq_ok.mp h
    exact forall_mem_cons.mpr ⟨by dsimp only; omega, ih hrest⟩

end

variable {rowCounts : List ℤ} {ccg : LoonColumnGroup}

theorem buildGroup_ok {g : ℕ} {columns files : List String}
    (h : buildGroup g columns files rowCounts = .ok ccg) :
    files ≠ [] ∧ rowCounts.length = files.length ∧ ∃ out,
      buildFiles 0 (files.zip rowCounts) = .ok out ∧
        (importColumnGroup ccg).files = out.take (files.length % 2 ^ 32) := by
  unfold buildGroup at h
  dsimp only at h
  split_ifs at h with hempty hlen
  obtain ⟨out, hout, rfl⟩ := Except.bind_pure_eq_ok.mp h
  exact ⟨(not_or.mp hempty).2, not_not.mp hlen, out, hout, rfl⟩

section Groups

variable {columnsPerGroup filesPerGroup : List (List String)} {rowCountsPerGroup : List (List ℤ)}
  {cgroups : LoonColumnGroups}
  (h : buildLoonColumnGroups columnsPerGroup filesPerGroup rowCountsPerGroup = .ok cgroups)

include h

theorem buildLoonColumnGroups_ok : filesPerGroup.length = rowCountsPerGroup.length ∧
    cgroups.numOfColumnGroups = rowCountsPerGroup.length % 2 ^ 32 ∧
    ∀ (g : ℕ) files rowCounts, filesPerGroup[g]? = some files →
      rowCountsPerGroup[g]? = some rowCounts → ∃ columns ccg,
        cgroups.columnGroupArray[g]? = some ccg ∧
          buildGroup g columns files rowCounts = .ok ccg := by
  unfold buildLoonColumnGroups at h
  dsimp only at h
  split_ifs at h with hlen hzero
  obtain ⟨array, harray, rfl⟩ := Except.bind_pure_eq_ok.mp h
  obtain ⟨hfiles, hcounts⟩ := not_or.mp hlen
  rw [not_not] at hfiles hcounts
  refine ⟨by omega, congrArg (· % 2 ^ 32) hcounts, fun g files rowCounts hg hg' => ?_⟩
  have hlt := lt_of_getElem? hg
  have hcols := getElem?_eq_getElem (show g < columnsPerGroup.length by omega)
  have hentry : (columnsPerGroup.zip (filesPerGroup.zip rowCountsPerGroup)).zipIdx[g]? =
      some ((columnsPerGroup[g], files, rowCounts), g) := by
    have hzip : (filesPerGroup.zip rowCountsPerGroup)[g]? = some (files, rowCounts) :=
      getElem?_zip_eq_some.mpr ⟨hg, hg'⟩
    have hzip' : (columnsPerGroup.zip (filesPerGroup.zip rowCountsPerGroup))[g]? =
        some (columnsPerGroup[g], files, rowCounts) :=
      getElem?_zip_eq_some.mpr ⟨hcols, hzip⟩
    rw [getElem?_zipIdx, hzip', Option.map_some, zero_add]
  obtain ⟨ccg, hccg, hbuild⟩ := Except.getElem?_of_mapM_ok harray hentry
  exact ⟨_, ccg, hccg, hbuild⟩

end Groups

/-! ## Reading the built groups -/

/-- How the files of column groups are opened. -/
structure Storage (Row : Type) where
  openReaderForFile : ColumnGroupFile → Except Status (FormatReader Row)
  openReaderForFileAsync : ColumnGroupFile → Except String (Except Status (FormatReader Row))

namespace Storage

variable (D : Storage Row)

def source (g : ColumnGroup) : Source Row where
  columnGroup := g
  openReaderForFile := D.openReaderForFile
  openReaderForFileAsync := D.openReaderForFileAsync

/-- The file at the path can be opened and has `n` rows. -/
def HasRows (path : String) (n : ℕ) : Prop :=
  ∀ g file, file.path = path → (∃ reader, D.openReaderForFile file = .ok reader) ∧
    ∀ reader, (D.source g).CanOpen file reader →
      ∃ rgs, reader.rowGroupInfos = .ok rgs ∧ Contiguous rgs n

/-- The group can be opened, and then all rows of the files are read, once and in order. -/
def Readable (g : ColumnGroup) (rowCounts : List ℤ) : Prop :=
  (∃ r, «open» (D.source g) = .ok r) ∧
    ∀ r, «open» (D.source g) = .ok r ∨ openAsync (D.source g) = .ok r →
      r.positions = (rowCounts.zipIdx.flatMap fun (n, i) => (List.range n.toNat).map (i, ·)) ∧
        (r.totalRows : ℤ) = rowCounts.sum

variable {D} {g : ColumnGroup}

theorem not_readable {n : ℤ} (hn : rowCounts[1]? = some n) (hpos : 0 < n)
    (hstart : ∀ file, g.files[1]? = some file → 0 < toUnsigned 64 file.startIndex) :
    ¬ D.Readable g rowCounts := by
  rintro ⟨⟨r, hopen⟩, hread⟩
  obtain ⟨hpositions, -⟩ := hread r (.inl hopen)
  obtain ⟨h, hsource⟩ := isOpen_of_open hopen
  have hmem : (1, 0) ∈ r.positions := by
    rw [hpositions, mem_flatMap]
    refine ⟨(n, 1), mem_zipIdx_iff_getElem?.mpr hn, mem_map.mpr ⟨0, ?_, rfl⟩⟩
    rw [mem_range]
    omega
  obtain ⟨c, hc, hmem⟩ := mem_flatMap.mp hmem
  obtain ⟨k, hk, hck⟩ := mem_map.mp hmem
  obtain ⟨hidx, rfl⟩ := Prod.mk.inj hck
  obtain ⟨file, hfile, hle⟩ := h.startIndex_le hc
  rw [hidx, hsource] at hfile
  have := hstart file hfile
  have := mem_range'_1.mp hk
  omega

theorem readable_singleton {path : String} {n : ℤ} (hpos : 0 < n) (hlt : n < 2 ^ 63)
    (hrows : D.HasRows path n.toNat) (hfiles : g.files = [⟨path, 0, n, []⟩]) :
    D.Readable g [n] := by
  obtain ⟨⟨reader, hreader⟩, hcan⟩ := hrows g ⟨path, 0, n, []⟩ rfl
  refine ⟨open_isOk fun file hfile => ?_, fun r hopen => ?_⟩
  · rw [Source.files, source, hfiles, mem_singleton] at hfile
    subst hfile
    obtain ⟨rgs, hrgs, -⟩ := hcan reader (.inl hreader)
    exact ⟨⟨le_refl 0, hpos⟩, reader, rgs, hreader, hrgs⟩
  · obtain ⟨h, hsource⟩ := isOpen_of_opens hopen
    have hfiles' : r.source.files = [⟨path, 0, n, []⟩] := by rw [hsource]; exact hfiles
    have hlayouts : Layouts r := by
      intro i file reader hfile hreader
      have hopens := h.canOpen hfile hreader
      have hmem := mem_of_getElem? hfile
      rw [hfiles', mem_singleton] at hmem
      subst hmem
      rw [hsource] at hopens
      obtain ⟨rgs, hrgs, hcontig⟩ := hcan reader hopens
      exact ⟨rgs, n.toNat, hrgs, hcontig, by dsimp only; omega⟩
    have hvisible : r.visibleRows = n.toNat := by
      simp [ColumnGroupReader.visibleRows, hfiles', visibleRows]
    obtain ⟨-, htotal, -⟩ := h.global hlayouts (by omega)
    constructor
    · rw [h.positions_eq hlayouts, hfiles']
      simp [visibleRows, range_eq_range']
    · rw [sum_singleton]
      omega

end Storage

/-- A built group can be read in full only if it has one file. -/
theorem readable_iff_length {D : Storage Row} {g : ℕ} {columns files : List String}
    (h : buildGroup g columns files rowCounts = .ok ccg) (hpos : ∀ n ∈ rowCounts, 0 < n)
    (hrows : Forall₂ (fun path n => D.HasRows path n.toNat) files rowCounts) :
    D.Readable (importColumnGroup ccg) rowCounts ↔ files.length = 1 := by
  obtain ⟨hempty, hlen, out, hout, hfiles⟩ := buildGroup_ok h
  cases hrows with
  | nil => exact absurd rfl hempty
  | @cons path n files rowCounts hpath hrows =>
    obtain ⟨hn, hpos⟩ := forall_mem_cons.mp hpos
    cases hrows with
    | nil =>
      have hout' : out = [⟨path, 0, n, []⟩] := by
        apply ext_getElem?
        rintro (_ | k)
        · simp [buildFiles_getElem? hout]
        · simp [buildFiles_getElem? hout]
      have hlt : n < 2 ^ 63 := buildFiles_endIndex_lt hout ⟨path, 0, n, []⟩ (by simp [hout'])
      exact iff_of_true (Storage.readable_singleton hn hlt hpath (by simp [hfiles, hout'])) rfl
    | @cons path' n' files rowCounts hpath' hrows =>
      apply iff_of_false
      · refine Storage.not_readable rfl (hpos n' mem_cons_self) fun file hfile => ?_
        rw [hfiles] at hfile
        have hfile' : out[1]? = some file := by
          rw [getElem?_take] at hfile
          split_ifs at hfile
          exact hfile
        have hlt := buildFiles_endIndex_lt hout file (mem_of_getElem? hfile')
        have hpos' := hpos n' mem_cons_self
        rw [buildFiles_getElem? hout] at hfile'
        simp only [zip_cons_cons, getElem?_cons_succ, getElem?_cons_zero,
          Option.map_some, take_succ_cons, take_zero, map_cons, map_nil,
          sum_singleton, Option.some.injEq] at hfile'
        subst hfile'
        dsimp only at hlt ⊢
        unfold toUnsigned
        omega
      · simp

theorem columnGroupsImport_getElem? (ccgs : LoonColumnGroups) (g : ℕ) :
    (columnGroupsImport ccgs)[g]? = if g < ccgs.numOfColumnGroups then
      ccgs.columnGroupArray[g]?.map importColumnGroup else none := by
  rw [columnGroupsImport, getElem?_map, getElem?_take]
  split_ifs <;> rfl

/-- **When built column groups can be read.** All of them are imported, and each of them is read in
full, only if each has one file: the indices of a later file are not its own rows. The lengths of
the arrays are `uint32_t`. -/
theorem buildLoonColumnGroups_readable_iff (D : Storage Row)
    {columnsPerGroup filesPerGroup : List (List String)} {rowCountsPerGroup : List (List ℤ)}
    {cgroups : LoonColumnGroups}
    (h : buildLoonColumnGroups columnsPerGroup filesPerGroup rowCountsPerGroup = .ok cgroups)
    (hpos : ∀ rowCounts ∈ rowCountsPerGroup, ∀ n ∈ rowCounts, 0 < n)
    (hrows : Forall₂ (Forall₂ fun path n => D.HasRows path n.toNat)
      filesPerGroup rowCountsPerGroup) :
    (∀ (g : ℕ) rowCounts, rowCountsPerGroup[g]? = some rowCounts →
      ∃ cg, (columnGroupsImport cgroups)[g]? = some cg ∧ D.Readable cg rowCounts) ↔
    rowCountsPerGroup.length < 2 ^ 32 ∧ ∀ files ∈ filesPerGroup, files.length = 1 := by
  obtain ⟨hlen, hnum, hgroups⟩ := buildLoonColumnGroups_ok h
  -- the group at an index, with its files
  have hgroup : ∀ (g : ℕ) files rowCounts, filesPerGroup[g]? = some files →
      rowCountsPerGroup[g]? = some rowCounts → ∃ ccg, cgroups.columnGroupArray[g]? = some ccg ∧
        (D.Readable (importColumnGroup ccg) rowCounts ↔ files.length = 1) := by
    intro g files rowCounts hfiles hcounts
    obtain ⟨columns, ccg, hccg, hbuild⟩ := hgroups g files rowCounts hfiles hcounts
    have hpos' := hpos rowCounts (mem_of_getElem? hcounts)
    exact ⟨ccg, hccg, readable_iff_length hbuild hpos' (hrows.rel_of_getElem? hfiles hcounts)⟩
  constructor
  · intro hread
    have hlt : rowCountsPerGroup.length < 2 ^ 32 := by
      by_contra hge
      have hnum' : cgroups.numOfColumnGroups < rowCountsPerGroup.length := by omega
      obtain ⟨cg, hcg, -⟩ := hread _ _ (getElem?_eq_getElem hnum')
      rw [columnGroupsImport_getElem?, if_neg (lt_irrefl _)] at hcg
      cases hcg
    refine ⟨hlt, fun files hfiles => ?_⟩
    obtain ⟨g, hg, rfl⟩ := getElem_of_mem hfiles
    have hcounts := getElem?_eq_getElem (show g < rowCountsPerGroup.length by omega)
    obtain ⟨ccg, hccg, hiff⟩ := hgroup g _ _ (getElem?_eq_getElem hg) hcounts
    obtain ⟨cg, hcg, hreadable⟩ := hread g _ hcounts
    rw [columnGroupsImport_getElem?, hnum, Nat.mod_eq_of_lt hlt, if_pos (by omega), hccg] at hcg
    exact hiff.mp (Option.some.inj hcg ▸ hreadable)
  · rintro ⟨hlt, hone⟩ g rowCounts hcounts
    have hg := lt_of_getElem? hcounts
    have hfiles := getElem?_eq_getElem (show g < filesPerGroup.length by omega)
    obtain ⟨ccg, hccg, hiff⟩ := hgroup g _ _ hfiles hcounts
    refine ⟨importColumnGroup ccg, ?_, hiff.mpr (hone _ (mem_of_getElem? hfiles))⟩
    rw [columnGroupsImport_getElem?, hnum, Nat.mod_eq_of_lt hlt, if_pos hg, hccg]
    rfl

/-- Every file has two rows. -/
def twoRowStorage : Storage ℕ where
  openReaderForFile _ := .ok (.ofRows [⟨0, 2, 16, true⟩] [10, 20])
  openReaderForFileAsync _ := .ok (.ok (.ofRows [⟨0, 2, 16, true⟩] [10, 20]))

theorem twoRowStorage_hasRows (path : String) : twoRowStorage.HasRows path 2 := by
  intro g file hpath
  refine ⟨⟨_, rfl⟩, fun reader hreader => ⟨[⟨0, 2, 16, true⟩], ?_, ?_⟩⟩
  · obtain hreader | hreader := hreader
    · rw [← Except.ok.inj hreader]
      rfl
    · rw [← Except.ok.inj (Except.ok.inj hreader)]
      rfl
  · exact ⟨by decide, by decide, by decide⟩

theorem buildLoonColumnGroups_readable_one_file : ∃ cgroups,
    buildLoonColumnGroups [["id"], ["vec"]] [["id0"], ["vec0"]] [[2], [2]] = .ok cgroups ∧
      ∀ (g : ℕ) rowCounts, [[2], [2]][g]? = some rowCounts → ∃ cg,
        (columnGroupsImport cgroups)[g]? = some cg ∧ twoRowStorage.Readable cg rowCounts := by
  have hbuild : ∃ cgroups,
      buildLoonColumnGroups [["id"], ["vec"]] [["id0"], ["vec0"]] [[2], [2]] = .ok cgroups :=
    ⟨_, rfl⟩
  obtain ⟨cgroups, hbuild⟩ := hbuild
  refine ⟨cgroups, hbuild, (buildLoonColumnGroups_readable_iff twoRowStorage hbuild ?_ ?_).mpr ?_⟩
  · decide
  · have := twoRowStorage_hasRows
    exact .cons (.cons (this _) .nil) (.cons (.cons (this _) .nil) .nil)
  · decide

/-- The second file of a group gets the rows from 2 to 4, and has no such rows: a reader shows the
first file only. -/
theorem buildLoonColumnGroups_two_files_not_readable : ∃ cgroups cg r,
    buildLoonColumnGroups [["id"]] [["id0", "id1"]] [[2, 2]] = .ok cgroups ∧
      twoRowStorage.HasRows "id0" 2 ∧ twoRowStorage.HasRows "id1" 2 ∧
      columnGroupsImport cgroups = [cg] ∧ «open» (twoRowStorage.source cg) = .ok r ∧
      r.positions = [(0, 0), (0, 1)] ∧ r.totalRows = 2 ∧
      ¬ twoRowStorage.Readable cg [2, 2] := by
  have hopen : ∃ cgroups cg r,
      buildLoonColumnGroups [["id"]] [["id0", "id1"]] [[2, 2]] = .ok cgroups ∧
        columnGroupsImport cgroups = [cg] ∧ «open» (twoRowStorage.source cg) = .ok r ∧
        r.positions = [(0, 0), (0, 1)] ∧ r.totalRows = 2 :=
    ⟨_, _, _, rfl, rfl, rfl, rfl, rfl⟩
  obtain ⟨cgroups, cg, r, hbuild, hcg, hopen, hpositions, htotal⟩ := hopen
  refine ⟨cgroups, cg, r, hbuild, twoRowStorage_hasRows _, twoRowStorage_hasRows _, hcg, hopen,
    hpositions, htotal, fun hread => ?_⟩
  have hsum := (hread.2 r (.inl hopen)).2
  rw [htotal] at hsum
  exact absurd hsum (by decide)

end MilvusStorage.Format
