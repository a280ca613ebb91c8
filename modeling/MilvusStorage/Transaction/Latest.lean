import MilvusStorage.Common.Layout
import MilvusStorage.Common.Status

/-!
# The latest version of a table

`get_latest_version` lists the metadata directory and takes the largest number it reads off a name.
A name is read as a version if it starts as a manifest's name does and has digits up to five
characters before its end. The suffix is not compared, the number need not be in the form the file
names are written in, and a directory counts like a file. So the largest number can be that of an
entry that is no manifest (`getLatestVersion_stray`), and it is the largest version unless such an
entry exceeds all versions (`isLatest_iff`).
-/

namespace MilvusStorage

open List

/-- `arrow::fs::FileType`. -/
inductive FileType
  | notFound
  | unknown
  | file
  | directory
  deriving DecidableEq, Repr

/-- An entry of a directory. -/
structure FileInfo where
  baseName : String
  type : FileType
  deriving DecidableEq, Repr

/-- `Transaction::get_latest_version`. The arguments are the type of the metadata directory and its
listing, as the file system returns them. -/
def getLatestVersion (dirInfo : Except Fault FileType) (listing : Except Fault (List FileInfo)) :
    Except Fault ℕ := do
  let type ← dirInfo
  if type = .notFound then return 0
  let fileInfos ← listing
  return latestVersion (fileInfos.map FileInfo.baseName)

/-! ## Reading the listing -/

/-- The latest version is read off a name. -/
theorem latestVersion_eq_zero_or (fileNames : List String) : latestVersion fileNames = 0 ∨
    ∃ name ∈ fileNames, manifestVersion name = some (latestVersion fileNames : ℤ) := by
  induction fileNames with
  | nil => exact .inl rfl
  | cons name fileNames ih =>
    rw [latestVersion_cons]
    rcases Nat.le_total ((manifestVersion name).elim 0 Int.toNat) (latestVersion fileNames)
      with hle | hle
    · rw [Nat.max_eq_right hle]
      exact ih.imp_right fun ⟨name', hmem, h⟩ => ⟨name', mem_cons_of_mem _ hmem, h⟩
    · rw [Nat.max_eq_left hle]
      cases hv : manifestVersion name with
      | none => exact .inl rfl
      | some v =>
        rw [Option.elim_some]
        by_cases hpos : 0 < v
        · refine .inr ⟨name, mem_cons_self, ?_⟩
          rw [hv, Int.toNat_of_nonneg (by omega)]
        · exact .inl (by omega)

/-- Every version read off a name is at most the latest one. -/
theorem version_le_latestVersion {fileNames : List String} {name : String} {v : ℤ}
    (hmem : name ∈ fileNames) (hv : manifestVersion name = some v) :
    v ≤ latestVersion fileNames := by
  induction fileNames with
  | nil => cases hmem
  | cons name' fileNames ih =>
    rw [latestVersion_cons]
    rcases mem_cons.mp hmem with rfl | hmem
    · simp only [hv, Option.elim_some]
      omega
    · have := ih hmem
      omega

/-! ## Committed versions -/

/-- The manifest of a version is in the directory. -/
def Committed (files : List FileInfo) (version : ℕ) : Prop :=
  version < 2 ^ 64 ∧ ⟨getManifestFilename version, .file⟩ ∈ files

/-- The largest committed version, 0 if there is none. -/
def IsLatest (files : List FileInfo) (version : ℕ) : Prop :=
  (∀ v, Committed files v → v ≤ version) ∧ (Committed files version ∨ version = 0)

/-- **The latest version** is the largest committed one if and only if all committed versions fit an
`int64_t` and no other entry of the directory is read as a larger version. -/
theorem isLatest_iff {type : FileType} {files : List FileInfo}
    (habsent : type = .notFound → files = []) :
    (∃ version, getLatestVersion (.ok type) (.ok files) = .ok version ∧ IsLatest files version) ↔
      (∀ v, Committed files v → v < 2 ^ 63) ∧
      ∀ entry ∈ files, ∀ v : ℤ, manifestVersion entry.baseName = some v → 0 < v →
        ∃ w, Committed files w ∧ v ≤ w := by
  have hlatest : getLatestVersion (.ok type) (.ok files) =
      .ok (latestVersion (files.map FileInfo.baseName)) := by
    by_cases htype : type = .notFound
    · rw [habsent htype, htype]
      rfl
    · exact if_neg htype
  have hlt := latestVersion_lt (files.map FileInfo.baseName)
  have hread : ∀ entry ∈ files, ∀ v : ℤ, manifestVersion entry.baseName = some v →
      v ≤ latestVersion (files.map FileInfo.baseName) := fun entry hentry v hv =>
    version_le_latestVersion (mem_map_of_mem hentry) hv
  simp only [hlatest, Except.ok.injEq, exists_eq_left']
  constructor
  · rintro ⟨hupper, hcomm⟩
    refine ⟨fun v hv => Nat.lt_of_le_of_lt (hupper v hv) hlt, fun entry hentry v hv hpos => ?_⟩
    have hle := hread entry hentry v hv
    rcases hcomm with hcomm | hzero
    · exact ⟨_, hcomm, hle⟩
    · omega
  · rintro ⟨hfits, hdominated⟩
    have hupper : ∀ v, Committed files v → v ≤ latestVersion (files.map FileInfo.baseName) :=
      fun v hv => le_latestVersion (hfits v hv) (mem_map_of_mem hv.2)
    refine ⟨hupper, ?_⟩
    rcases latestVersion_eq_zero_or (files.map FileInfo.baseName) with hzero | ⟨name, hmem, hv⟩
    · exact .inr hzero
    · obtain ⟨entry, hentry, rfl⟩ := mem_map.mp hmem
      rcases Nat.eq_zero_or_pos (latestVersion (files.map FileInfo.baseName)) with hzero | hpos
      · exact .inr hzero
      · obtain ⟨w, hw, hle⟩ := hdominated entry hentry _ hv (by omega)
        have := hupper w hw
        rw [show latestVersion (files.map FileInfo.baseName) = w by omega]
        exact .inl hw

/-! ## Directories -/

theorem getLast?_getManifestFilename (v : ℕ) :
    (getManifestFilename v).toList.getLast? = some 'o' := by
  rw [toList_getManifestFilename, ← append_assoc, getLast?_append]
  rfl

/-- Two versions and a temporary file. -/
def twoVersions : List FileInfo :=
  [⟨"manifest-1.avro", .file⟩, ⟨"manifest-2.avro", .file⟩, ⟨"manifest-2.avro.tmp", .file⟩]

theorem committed_twoVersions {v : ℕ} : Committed twoVersions v ↔ v = 1 ∨ v = 2 := by
  constructor
  · rintro ⟨-, hmem⟩
    simp only [twoVersions, mem_cons, FileInfo.mk.injEq, not_mem_nil, or_false, and_true] at hmem
    rcases hmem with h | h | h
    · exact .inl (getManifestFilename_injective (h.trans (by decide : _ = getManifestFilename 1)))
    · exact .inr (getManifestFilename_injective (h.trans (by decide : _ = getManifestFilename 2)))
    · have hlast := getLast?_getManifestFilename v
      rw [h] at hlast
      exact absurd hlast (by decide)
  · rintro (rfl | rfl)
    · exact ⟨by decide, by decide⟩
    · exact ⟨by decide, by decide⟩

theorem isLatest_twoVersions : ∃ version,
    getLatestVersion (.ok .directory) (.ok twoVersions) = .ok version ∧
      IsLatest twoVersions version := by
  have habsent : FileType.directory = .notFound → twoVersions = [] := nofun
  refine (isLatest_iff habsent).mpr ⟨fun v hv => ?_, fun entry hentry v hv hpos => ?_⟩
  · rcases committed_twoVersions.mp hv with rfl | rfl <;> decide
  · refine ⟨2, committed_twoVersions.mpr (.inr rfl), ?_⟩
    have hle := version_le_latestVersion (mem_map_of_mem hentry) hv
    rwa [show latestVersion (twoVersions.map FileInfo.baseName) = 2 by decide] at hle

/-- A file with another suffix is read as version 7. -/
theorem getLatestVersion_stray : ∃ version,
    getLatestVersion (.ok .directory) (.ok [⟨"manifest-7.json", .file⟩]) = .ok version ∧
      ¬ IsLatest [⟨"manifest-7.json", .file⟩] version := by
  refine ⟨7, by decide, ?_⟩
  rintro ⟨-, ⟨-, hmem⟩ | hzero⟩
  · exact absurd hmem (by decide)
  · exact absurd hzero (by decide)

end MilvusStorage
