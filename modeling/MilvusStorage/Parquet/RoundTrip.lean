import MilvusStorage.Parquet.Selected
import MilvusStorage.Parquet.Session

/-!
# Parquet files are read back

The reader takes the row groups of a file from the metadata that the writer has stored under
`ROW_GROUP_META_KEY`, or from the footer if there is none. What it reads is what has been written
(`reads_written_rows`). The text of the metadata, `RowGroupMetadataVector::Serialize` and
`Deserialize`, is a parameter.
-/

namespace MilvusStorage.Parquet

open List Tiling
open Format (RowGroupInfo)

variable {α : Type}

/-- Row groups with these rows and bytes, from an offset on. -/
def rowGroupInfosFrom (offset : ℕ) : List (ℕ × ℕ) → List RowGroupInfo
  | [] => []
  | (numRows, memorySize) :: rest =>
    { startOffset := offset, endOffset := offset + numRows, memorySize } ::
      rowGroupInfosFrom (offset + numRows) rest

/-- The values of `ROW_GROUP_META_KEY`, and the rows and bytes of the row groups in the footer. -/
structure FileMetaData where
  kvMetadata : List String
  rowGroups : List (ℕ × ℤ)

variable (deserialize : String → Except Fault (List RowGroupMetadata))

def tryBuildRowGroupInfos (metadata : FileMetaData) : Except Fault (List RowGroupInfo) :=
  match metadata.kvMetadata with
  | [] => .ok []
  | text :: _ => do
    let rowGroupMetadatas ← deserialize text
    return rowGroupInfosFrom 0 (rowGroupMetadatas.map fun m => (m.rowNum, m.memorySize.toNat))

def createRowGroupInfosFromMetadata (metadata : FileMetaData) (path : String) :
    Except Fault (List RowGroupInfo) := do
  let infos ← tryBuildRowGroupInfos deserialize metadata
  let infos ← match infos, metadata.rowGroups.findIdx? (·.2 < 0) with
    | [], some i => .error (.status (.invalid
        s!"Parquet row-group total byte size is negative. [path={path}, row_group={i}]"))
    | [], none => .ok (rowGroupInfosFrom 0 (metadata.rowGroups.map fun rg => (rg.1, rg.2.toNat)))
    | infos, _ => .ok infos
  if infos.length ≠ metadata.rowGroups.length then
    .error (.status (.invalid
      s!"Parquet row-group metadata count does not match the footer. [path={path}]"))
  else return infos

theorem createRowGroupInfosFromMetadata_ok {metadata : FileMetaData} {infos : List RowGroupInfo}
    (htry : tryBuildRowGroupInfos deserialize metadata = .ok infos)
    (h : infos.length = metadata.rowGroups.length) (path : String) :
    createRowGroupInfosFromMetadata deserialize metadata path = .ok infos := by
  rw [createRowGroupInfosFromMetadata, htry, Except.ok_bind]
  cases infos with
  | nil =>
    rw [length_eq_zero_iff.mp h.symm]
    rfl
  | cons rg rgs => exact if_neg (by simpa using h)

theorem chained_rowGroupInfosFrom (a : ℕ) (l : List (ℕ × ℕ)) :
    Chained RowGroupInfo.startOffset RowGroupInfo.numRows a (rowGroupInfosFrom a l)
      (a + (l.map Prod.fst).sum) ∧
    (rowGroupInfosFrom a l).map RowGroupInfo.numRows = l.map Prod.fst ∧
    ∀ rg ∈ rowGroupInfosFrom a l, rg.startOffset ≤ rg.endOffset := by
  induction l generalizing a with
  | nil => exact ⟨rfl, rfl, nofun⟩
  | cons x l ih =>
    obtain ⟨hchain, hmap, hle⟩ := ih (a + x.1)
    have hrows : (⟨a, a + x.1, x.2, true⟩ : RowGroupInfo).numRows = x.1 :=
      Nat.add_sub_cancel_left ..
    refine ⟨⟨rfl, ?_⟩, ?_, forall_mem_cons.mpr ⟨Nat.le_add_right .., hle⟩⟩
    · rw [hrows, map_cons, sum_cons, ← Nat.add_assoc]
      exact hchain
    · rw [rowGroupInfosFrom, map_cons, hmap, hrows, map_cons]

/-- The libraries return the row groups of a file. -/
structure ParquetFormatReader.Serves (f : ParquetFormatReader α) (groups : List (List α)) :
    Prop where
  readRowGroups : ∀ indices : List ℕ, (∀ i ∈ indices, i < groups.length) →
    ∃ table, f.readRowGroups indices = .ok table ∧
      table.flatten = indices.flatMap fun i => groups[i]?.getD []
  collectGenerator : ∀ indices : List ℕ, (∀ i ∈ indices, i < groups.length) →
    ∃ bs, f.collectGenerator indices = .ok bs ∧
      Generates (indices.map fun i => groups[i]?.getD []) bs
  tableBatches : ∀ table, (f.tableBatches table).flatten = table.flatten

theorem ParquetFormatReader.Serves.decodes {f : ParquetFormatReader α} {groups : List (List α)}
    (h : f.Serves groups) (hlt : groups.flatten.length < 2 ^ 63) {l : List (ℕ × ℕ)}
    (hl : l.map Prod.fst = groups.map length) (hinfos : f.rowGroupInfos = rowGroupInfosFrom 0 l) :
    f.Decodes groups.flatten := by
  obtain ⟨hchain, hmap, hle⟩ := chained_rowGroupInfosFrom 0 l
  rw [← hinfos, hl] at hchain hmap
  rw [← length_flatten, Nat.zero_add] at hchain
  rw [← hinfos] at hle
  have hlen : f.rowGroupInfos.length = groups.length := by simpa using congrArg length hmap
  have hat : ∀ i < groups.length, f.rowsAt groups.flatten i = groups[i]?.getD [] := by
    intro i hi
    have hrg := getElem?_eq_getElem (hlen ▸ hi)
    have hstart := hchain.start_eq hrg
    have hrows : f.rowGroupInfos[i].numRows = groups[i].length := by
      simpa [hi, hlen] using congrArg (·[i]?) hmap
    rw [map_take, hmap, Nat.zero_add] at hstart
    rw [rowsAt, hrg, Option.elim_some, rowsOf, hrows, hstart, drop_sum_flatten,
      drop_eq_getElem_cons hi, flatten_cons, take_left, getElem?_eq_getElem hi, Option.getD_some]
  refine ⟨⟨hle, hchain, by omega⟩, hlt, fun is his => ?_, fun is his => ?_, h.tableBatches⟩
  · obtain ⟨table, hread, htable⟩ := h.readRowGroups is (hlen ▸ his)
    exact ⟨table, hread, htable.trans (flatMap_congr fun i hi => (hat i (hlen ▸ his i hi)).symm)⟩
  · rw [map_congr_left fun i hi => hat i (hlen ▸ his i hi)]
    exact h.collectGenerator is (hlen ▸ his)

/-- **What has been written to a file is read from it.** All calls of the writer return OK. -/
theorem reads_written_rows {env : Environment} {filePath : String} {calls : List (Call α)}
    {s : Session α}
    (hrun : Runs.run (Session.next env) (.start filePath) calls = some s) (hok : s.failures = [])
    {w : ParquetFileWriter α} {file : ColumnGroupFile}
    (hclose : close env s.writer = (w, .ok file)) (hlt : s.rows.length < 2 ^ 63)
    (serialize : List RowGroupMetadata → String)
    (hround : deserialize (serialize w.rowGroupMetadata) = .ok w.rowGroupMetadata)
    (bytes : List α → ℤ) (path : String) :
    ∃ infos, createRowGroupInfosFromMetadata deserialize
        ⟨w.kvMetadata.map serialize, w.rowGroups.map fun g => (g.length, bytes g)⟩ path =
          .ok infos ∧
      ∀ f : ParquetFormatReader α, f.rowGroupInfos = infos → f.Serves w.rowGroups →
        ∀ lo hi, lo < hi → hi ≤ s.rows.length →
          (∃ r bs, f.readWithRange lo hi = .ok r ∧ r.schema = f.projection ∧ r.Yields f bs ∧
            bs.flatten = (s.rows.drop lo).take (hi - lo)) ∧
          ∃ bs, f.readWithRangeAsync lo hi = .ok (f.projection, bs) ∧
            bs.flatten = (s.rows.drop lo).take (hi - lo) := by
  rw [Session.run_eq, Option.some.injEq] at hrun
  subst hrun
  obtain hclosed | ⟨hopen, hinv, hexact, hkvs⟩ :=
    (Session.sound_start filePath).foldl calls (.inl hok)
  · exact ((close_closed hclosed _ rfl).1 _ _ hclose).elim
  obtain ⟨-, hrows, -, hexact', hkv, -⟩ := (close_spec hinv hopen _ rfl).1 _ _ hclose
  have hlengths := hexact' (hexact (.inl hok))
  rw [hkvs hok, nil_append] at hkv
  rw [← hrows] at hlt ⊢
  set l := w.rowGroupMetadata.map fun m => (m.rowNum, m.memorySize.toNat) with hl
  have hfst : l.map Prod.fst = w.rowGroups.map length := by rw [hl, map_map]; exact hlengths
  have hcount : (rowGroupInfosFrom 0 l).length = w.rowGroups.length := by
    simpa [hfst] using congrArg length (chained_rowGroupInfosFrom 0 l).2.1
  refine ⟨rowGroupInfosFrom 0 l, ?_, fun f hf hserves lo hi hlo hhi => ?_⟩
  · refine createRowGroupInfosFromMetadata_ok deserialize ?_ (by rw [hcount, length_map]) path
    simp only [tryBuildRowGroupInfos, hkv, map_cons, hround, Except.ok_bind]
    rfl
  · have h := hserves.decodes hlt hfst hf
    exact ⟨h.readWithRange_yields hlo hhi, h.readWithRangeAsync_eq hlo hhi⟩

theorem serves_groupReader (groups : List (List ℕ)) (infos : List RowGroupInfo) :
    (ParquetFormatReader.groupReader groups infos).Serves groups := by
  have hmap : ∀ indices : List ℕ, (indices.map fun i => groups.getD i []) =
      indices.map fun i => groups[i]?.getD [] := by simp
  refine ⟨fun indices _ => ⟨_, rfl, ?_⟩, fun indices _ => ⟨_, rfl, ?_⟩, fun _ => rfl⟩
  · rw [hmap, flatMap_def]
  · rw [hmap]
    exact generates_filter _

/-- The metadata of three row groups with one row each, whatever the text. -/
def deserializeThree (_ : String) : Except Fault (List RowGroupMetadata) :=
  .ok ((List.range 3).map fun i => ⟨1024 * 1024, 1, i⟩)

theorem reads_written_rows_threeRows : ∃ w file infos bs,
    close (rowPerGroup fun _ _ => none) (sessionOf (rowPerGroup fun _ _ => none)
      [.write (some ([1, 2, 3], 100)), .flush]).writer = (w, .ok file) ∧
    createRowGroupInfosFromMetadata deserializeThree
      ⟨w.kvMetadata.map fun _ => "", w.rowGroups.map fun g => (g.length, 0)⟩ "file" = .ok infos ∧
    (ParquetFormatReader.groupReader w.rowGroups infos).readWithRangeAsync 1 3 = .ok (["a"], bs) ∧
    bs.flatten = [2, 3] := by
  obtain ⟨file, hclose⟩ := @close_sessionOf (rowPerGroup fun _ _ => none)
    [.write (some ([1, 2, 3], 100)), .flush] (by decide +kernel)
  obtain ⟨infos, hinfos, hreads⟩ := reads_written_rows deserializeThree (Session.run_eq _ _)
    (isEmpty_iff.mp (by decide +kernel)) hclose (by decide +kernel) (fun _ => "")
    (by decide +kernel) (fun _ => 0) "file"
  obtain ⟨-, bs, hread, hflat⟩ := hreads _ rfl (serves_groupReader _ infos) 1 3 (by decide)
    (by decide +kernel)
  exact ⟨_, file, infos, bs, hclose, hinfos, hread, hflat.trans (by decide +kernel)⟩

end MilvusStorage.Parquet
