import MilvusStorage.Common.StorageUri
import MilvusStorage.Foundations.Except
import MilvusStorage.Foundations.LexicalPath
import MilvusStorage.Manifest.Basic

/-!
# Relative paths of a manifest

A manifest is stored with the paths inside the table's directories made relative. Writing strips the
directory off a path that starts with it and keeps every other path, and reading puts the directory
in front of every path that is neither a URI nor absolute. The stored form does not say which of the
two it is, so that reading a manifest back does not always give the paths that were written.
-/

namespace MilvusStorage

open List LexicalPath Function

/-- The directories of a table. -/
inductive TableDirectory
  | data
  | delta
  | stats
  | index
  | lob
  deriving DecidableEq, Repr

/-- The path of a directory from the base path of the table. LOB files are shared by the segments of
a partition, one level further up. -/
def TableDirectory.path : TableDirectory → String
  | data => "_data/"
  | delta => "_delta/"
  | stats => "_stats/"
  | index => "_index/"
  | lob => "../lobs/"

/-- The path of a directory of a table. -/
def fullDirPath (base : String) (dir : TableDirectory) : List Char :=
  join base.toList dir.path.toList

/-- Whether `StorageUri::Parse` finds a scheme. -/
def hasScheme (parseUri : UriParser) (path : String) : Bool :=
  match StorageUri.parse parseUri path with
  | .ok uri => uri.scheme ≠ ""
  | .error _ => false

def toRelative (path : String) (base : Option String) (dir : TableDirectory) : String :=
  match base with
  | none => path
  | some base =>
    let dirPath := normal (fullDirPath base dir)
    if dirPath.isPrefixOf path.toList then .ofList (path.toList.drop dirPath.length)
    -- an external table keeps the absolute path
    else path

def toAbsolute (parseUri : UriParser) (path : String) (base : Option String)
    (dir : TableDirectory) : String :=
  match base with
  | none => path
  | some base =>
    if hasScheme parseUri path then path
    else if isAbsolute path.toList then path
    else .ofList (normal (join (fullDirPath base dir) path.toList))

namespace ColumnGroup

def mapPaths (convert : String → String) (g : ColumnGroup) : ColumnGroup :=
  { g with files := g.files.map fun file => { file with path := convert file.path } }

end ColumnGroup

/-- Convert the file paths of all column groups in place, through the pointers. -/
def convertGroups (convert : String → String) : Store → List Slot → Except Fault (Store × List Slot)
  | σ, [] => .ok (σ, [])
  | _, .null :: _ => .error .nullDereference
  | σ, .own g :: slots => do
    let (σ, slots) ← convertGroups convert σ slots
    return (σ, .own (g.mapPaths convert) :: slots)
  | σ, .shared r :: slots => do
    let (σ, slots) ← convertGroups convert (update σ r ((σ r).mapPaths convert)) slots
    return (σ, .shared r :: slots)

namespace Manifest

/-- Convert the paths outside the column groups. -/
def mapPaths (convert : TableDirectory → String → String) (m : Manifest) : Manifest :=
  { m with
    deltaLogs := m.deltaLogs.map fun log => { log with path := convert .delta log.path }
    stats := m.stats.map fun stat =>
      (stat.1, { stat.2 with paths := stat.2.paths.map (convert .stats) })
    indexes := m.indexes.map fun idx => { idx with path := convert .index idx.path }
    lobFiles := m.lobFiles.map fun file => { file with path := convert .lob file.path } }

/-- Convert every path of a manifest in place. -/
def convertPaths (convert : TableDirectory → String → String) (σ : Store) (m : Manifest) :
    Except Fault (Store × Manifest) := do
  let (σ, columnGroups) ← convertGroups (convert .data) σ m.columnGroups
  return (σ, { m.mapPaths convert with columnGroups })

/-- `Manifest::toRelativePaths`, on a copy. -/
def toRelativePaths (base : String) (σ : Store) (m : Manifest) : Except Fault (Store × Manifest) :=
  convertPaths (fun dir path => toRelative path (some base) dir) σ (m.copy σ)

/-- `Manifest::ToAbsolutePaths`. -/
def toAbsolutePaths (parseUri : UriParser) (base : String) (σ : Store) (m : Manifest) :
    Except Fault (Store × Manifest) :=
  convertPaths (fun dir path => toAbsolute parseUri path (some base) dir) σ m

/-- Every path of a manifest, with the directory it is relative to. -/
def paths (σ : Store) (m : Manifest) : List (TableDirectory × String) :=
  (m.groups σ).reduceOption.flatMap (fun g => g.files.map fun file => (.data, file.path)) ++
    (m.deltaLogs.map fun log => (.delta, log.path)) ++
    m.stats.flatMap (fun stat => stat.2.paths.map fun path => (.stats, path)) ++
    (m.indexes.map fun idx => (.index, idx.path)) ++
    (m.lobFiles.map fun file => (.lob, file.path))

end Manifest

/-! ## One path -/

/-- A path that a caller may put into a manifest: a lexically normal one, or one with a scheme. -/
def Normalized (path : String) : Prop :=
  path ≠ "" ∧ (normal path.toList = path.toList ∨
    ∃ scheme rest, '/' ∉ scheme ∧ path.toList = scheme ++ "://".toList ++ rest)

/-- Reading recognises the stored form of a path: what is left of a path in the directory does not
look like a URI, and a path anywhere else is a URI that the library can read, or absolute, or starts
with so many `..` that it does not matter from where it is taken. -/
def Survives (parseUri : UriParser) (base : String) (dir : TableDirectory) (path : String) : Prop :=
  let dirPath := fullDirPath base dir
  if normal dirPath <+: path.toList then
    hasScheme parseUri (.ofList (path.toList.drop (normal dirPath).length)) = false
  else hasScheme parseUri path = true ∨ isAbsolute path.toList = true ∨
    (normal path.toList = path.toList ∧ (walk dirPath).ups = (walk dirPath).names.length ∧
      (walk dirPath).names.length ≤ (walk path.toList).ups)

instance (parseUri : UriParser) (base : String) (dir : TableDirectory) (path : String) :
    Decidable (Survives parseUri base dir path) := by
  unfold Survives
  infer_instance

/-- The walk along the path of a directory ends with its name. -/
theorem foldl_path (dir : TableDirectory) (root : Bool) (p : Place) : ∃ name names, ':' ∉ name ∧
      ((segments dir.path.toList).foldl (step root) p).names = name :: names := by
  cases dir with
  | data => exact ⟨"_data".toList, p.names, by decide, rfl⟩
  | delta => exact ⟨"_delta".toList, p.names, by decide, rfl⟩
  | stats => exact ⟨"_stats".toList, p.names, by decide, rfl⟩
  | index => exact ⟨"_index".toList, p.names, by decide, rfl⟩
  | lob => exact ⟨"lobs".toList, (step root p dotDot).names, by decide, rfl⟩

theorem getLast?_path (dir : TableDirectory) : dir.path.toList.getLast? = some '/' := by
  cases dir <;> rfl

section

variable (base : String) (dir : TableDirectory)
include base dir

/-- The path of a directory is that of its parent and its own. -/
theorem fullDirPath_eq : fullDirPath base dir = dir.path.toList ∨
      ∃ cs, fullDirPath base dir = cs ++ '/' :: dir.path.toList := by
  have hrelative : ¬ isAbsolute dir.path.toList = true := by
    cases dir <;> decide
  rw [fullDirPath, join]
  by_cases hbase : base.toList = []
  · exact .inl (if_pos (.inr hbase))
  rw [if_neg (not_or.mpr ⟨hrelative, hbase⟩)]
  by_cases hslash : base.toList.getLast? = some '/'
  · obtain ⟨cs, hcs⟩ := getLast?_eq_some_iff.mp hslash
    exact .inr ⟨cs, by rw [if_pos hslash, hcs, append_assoc]; rfl⟩
  · exact .inr ⟨base.toList, if_neg hslash⟩

theorem walk_fullDirPath :
    ∃ name names, ':' ∉ name ∧ (walk (fullDirPath base dir)).names = name :: names := by
  rcases fullDirPath_eq base dir with h | ⟨cs, h⟩
  · rw [h]
    exact foldl_path dir _ _
  · rw [h, walk_append]
    exact foldl_path dir _ _

theorem exists_fullDirPath_eq : ∃ cs, fullDirPath base dir = cs ++ ['/'] := by
  rw [← getLast?_eq_some_iff]
  rcases fullDirPath_eq base dir with h | ⟨cs, h⟩
  · rw [h, getLast?_path]
  · simp [h, getLast?_cons, getLast?_path]

end

theorem join_relative {es : List Char} (h : isAbsolute es = false) (cs : List Char) :
    join (cs ++ ['/']) es = cs ++ '/' :: es := by
  simp [join, h]

/-- A URI is not in a directory of the table: the first slash of a URI comes after a colon. -/
theorem not_prefix_of_scheme (base : String) (dir : TableDirectory) {scheme : List Char}
    (hscheme : '/' ∉ scheme) (rest : List Char) :
    ¬ normal (fullDirPath base dir) <+: scheme ++ "://".toList ++ rest := by
  rintro ⟨es, hes⟩
  obtain ⟨name, names, hname, hwalk⟩ := walk_fullDirPath base dir
  obtain ⟨cs, hcs⟩ := exists_fullDirPath_eq base dir
  obtain ⟨ds, hds⟩ := @exists_normal_eq cs (by rw [← hcs, hwalk]; exact cons_ne_nil _ _)
  rw [hcs, hds] at hes
  have hcolon : '/' ∉ scheme ++ [':'] := by
    simpa using hscheme
  have heq : ds ++ '/' :: es = (scheme ++ [':']) ++ '/' :: '/' :: rest := by
    simpa using hes
  -- the directory ends at the first slash
  obtain rfl : ds = scheme ++ [':'] := by
    rcases append_slash_eq hcolon heq with hds' | ⟨gs, hgs, htail⟩
    · exact hds'
    · obtain ⟨gs', hslash⟩ : ∃ gs', gs ++ ['/'] = '/' :: gs' := by
        cases gs with
        | nil => exact ⟨[], rfl⟩
        | cons g gs =>
          obtain ⟨rfl, -⟩ := cons.inj htail
          exact ⟨gs ++ ['/'], rfl⟩
      rw [hgs, append_assoc, cons_append, hslash] at hds
      exact absurd hds (normal_ne_of_slashes _ _ _)
  have hne : ∀ s, ':' ∉ s → scheme ++ [':'] ≠ s := by
    rintro s hs rfl
    simp at hs
  rw [hcs, ← walk_normal, hds, walk, segments_append, segments_eq_singleton hcolon, foldl_append,
    foldl_cons, step_name (hne _ (by decide)) (hne _ (by decide)) (hne _ (by decide))] at hwalk
  exact hne name hname (cons.inj hwalk).1

variable {path : String} {σ : Store} {m : Manifest} {gs : List ColumnGroup}

theorem Normalized.normal_of_prefix {base : String} {dir : TableDirectory} (h : Normalized path)
    (hpre : normal (fullDirPath base dir) <+: path.toList) :
    normal path.toList = path.toList := by
  rcases h.2 with hnormal | ⟨scheme, rest, hscheme, hpath⟩
  · exact hnormal
  · rw [hpath] at hpre
    exact absurd hpre (not_prefix_of_scheme base dir hscheme rest)

/-- Reading puts back what writing stripped, if it takes it for a relative path. -/
theorem toAbsolute_of_prefix (parseUri : UriParser) {base : String} {dir : TableDirectory}
    (hnormal : normal path.toList = path.toList)
    (hpre : normal (fullDirPath base dir) <+: path.toList) :
    let rest := String.ofList (path.toList.drop (normal (fullDirPath base dir)).length)
    toAbsolute parseUri rest (some base) dir = path ↔ hasScheme parseUri rest = false := by
  obtain ⟨name, names, hname, hwalk⟩ := walk_fullDirPath base dir
  obtain ⟨cs, hcs⟩ := exists_fullDirPath_eq base dir
  obtain ⟨ds, hds⟩ := @exists_normal_eq cs (by rw [← hcs, hwalk]; exact cons_ne_nil _ _)
  obtain ⟨es, hes⟩ := hpre
  rw [← hes, drop_left]
  rw [hcs, hds] at hes
  have hrelative : isAbsolute es = false := by
    rw [isAbsolute, decide_eq_false_iff_not, head?_eq_some_iff]
    rintro ⟨es', rfl⟩
    apply normal_ne_of_slashes path.toList ds es'
    rw [hnormal, ← hes]
    simp
  have hback : normal (join (fullDirPath base dir) es) = path.toList := by
    rw [hcs, join_relative hrelative, ← normal_append_eq hds, ← hnormal, ← hes]
    simp
  simp only [toAbsolute, String.toList_ofList, hrelative, hback, String.ofList_toList]
  cases hasScheme parseUri (String.ofList es)
  · simp
  · simp only [if_true, Bool.true_eq_false, iff_false]
    intro h
    have hlen := congrArg length (String.toList_ofList ▸ congrArg String.toList h)
    rw [← hes] at hlen
    simp only [length_append, length_singleton] at hlen
    omega

section

variable (parseUri : UriParser) (base : String) (dir : TableDirectory) (h : Normalized path)
include parseUri base dir h

/-- A path outside the directory is taken as it is, or from the directory. -/
theorem toAbsolute_of_not_prefix : toAbsolute parseUri path (some base) dir = path ↔
      hasScheme parseUri path = true ∨ isAbsolute path.toList = true ∨
        (normal path.toList = path.toList ∧
          (walk (fullDirPath base dir)).ups = (walk (fullDirPath base dir)).names.length ∧
          (walk (fullDirPath base dir)).names.length ≤ (walk path.toList).ups) := by
  obtain ⟨name, names, hname, hwalk⟩ := walk_fullDirPath base dir
  obtain ⟨cs, hcs⟩ := exists_fullDirPath_eq base dir
  have hnil : path.toList ≠ [] := by
    simpa using h.1
  rw [toAbsolute]
  by_cases hscheme : hasScheme parseUri path = true
  · simp [hscheme]
  by_cases habsolute : isAbsolute path.toList = true
  · simp [habsolute]
  simp only [hscheme, habsolute, Bool.false_eq_true, if_false, false_or]
  rw [hcs] at hwalk ⊢
  rw [← String.toList_inj, String.toList_ofList, join_relative (by simpa using habsolute)]
  rcases h.2 with hnormal | ⟨scheme, rest, -, hpath⟩
  · rw [normal_append_eq_self_iff (by rw [hwalk]; exact cons_ne_nil _ _) hnil hnormal
      (by simpa using habsolute)]
    simp [hnormal]
  · have hslashes : ∀ cs, normal cs ≠ path.toList := by
      intro cs
      rw [hpath,
        show scheme ++ "://".toList ++ rest = (scheme ++ [':']) ++ '/' :: '/' :: rest by simp]
      exact normal_ne_of_slashes cs _ rest
    simp [hslashes]

/-- A path survives being written and read if and only if reading recognises its stored form. -/
theorem toAbsolute_toRelative_eq_iff :
    toAbsolute parseUri (toRelative path (some base) dir) (some base) dir = path ↔
      Survives parseUri base dir path := by
  rw [toRelative, Survives]
  by_cases hpre : normal (fullDirPath base dir) <+: path.toList
  · simp only [ isPrefixOf_iff_prefix, hpre, if_true]
    exact toAbsolute_of_prefix parseUri (h.normal_of_prefix hpre) hpre
  · simp only [ isPrefixOf_iff_prefix, hpre, if_false]
    exact toAbsolute_of_not_prefix parseUri base dir h

end

/-! ## A whole manifest -/

theorem map_eq_self_iff {α : Type*} {f : α → α} {l : List α} : l.map f = l ↔ ∀ a ∈ l, f a = a := by
  simpa using map_inj_left (l := l) (f := f) (g := id)

@[simp] theorem mapPaths_mapPaths (f f' : String → String) (g : ColumnGroup) :
    (g.mapPaths f).mapPaths f' = g.mapPaths (f' ∘ f) := by
  simp [ColumnGroup.mapPaths, comp_def]

theorem mapPaths_eq_self_iff {f : String → String} {g : ColumnGroup} :
    g.mapPaths f = g ↔ ∀ file ∈ g.files, f file.path = file.path := by
  obtain ⟨columns, format, files⟩ := g
  simp only [ColumnGroup.mapPaths, ColumnGroup.mk.injEq, true_and, map_eq_self_iff]
  refine forall₂_congr fun file _ => ?_
  obtain ⟨path, _, _, _⟩ := file
  simp

/-- The groups of a copy are converted without touching the store. -/
theorem convertGroups_own (f : String → String) (σ : Store) (gs : List ColumnGroup) :
    convertGroups f σ (gs.map .own) = .ok (σ, (gs.map (ColumnGroup.mapPaths f)).map .own) := by
  induction gs with
  | nil => rfl
  | cons g gs ih =>
    simp only [map_cons, convertGroups, ih]
    rfl

theorem convertGroups_none {gs : List (Option ColumnGroup)} (h : none ∈ gs) (f : String → String)
    (σ : Store) : convertGroups f σ (gs.map Slot.ofCopy) = .error .nullDereference := by
  induction gs with
  | nil => simp at h
  | cons g gs ih =>
    cases g with
    | none => rfl
    | some g =>
      simp only [map_cons, Slot.ofCopy, convertGroups, ih (by simpa using h)]
      rfl

/-- A manifest that points to these groups and owns them. -/
def Manifest.withGroups (m : Manifest) (gs : List ColumnGroup) : Manifest :=
  { m with columnGroups := gs.map .own }

theorem copy_eq_withGroups (h : m.groups σ = gs.map some) : m.copy σ = m.withGroups gs := by
  simp [Manifest.copy, Manifest.withGroups, h, comp_def, Slot.ofCopy]

theorem convertPaths_withGroups (f : TableDirectory → String → String) (σ : Store) (m : Manifest)
    (gs : List ColumnGroup) : (m.withGroups gs).convertPaths f σ =
      .ok (σ, (m.mapPaths f).withGroups (gs.map (ColumnGroup.mapPaths (f .data)))) := by
  simp only [Manifest.convertPaths, Manifest.withGroups, convertGroups_own]
  rfl

theorem mapPaths_mapPaths_manifest (f f' : TableDirectory → String → String) (m : Manifest) :
    (m.mapPaths f).mapPaths f' = m.mapPaths fun dir => f' dir ∘ f dir := by
  simp [Manifest.mapPaths, comp_def]

theorem own_injective : Injective Slot.own := fun _ _ h => Slot.own.inj h

/-- A conversion keeps a manifest if and only if it keeps every path. -/
theorem mapPaths_eq_iff {f : TableDirectory → String → String} (hgs : m.groups σ = gs.map some) :
    (m.mapPaths f).withGroups (gs.map (ColumnGroup.mapPaths (f .data))) = m.withGroups gs ↔
      ∀ q ∈ m.paths σ, f q.1 q.2 = q.2 := by
  have hgroups : (m.groups σ).reduceOption = gs := by
    rw [hgs]
    exact filterMap_map.trans filterMap_some
  have hlog (log : DeltaLog) (path : String) :
      ({ log with path } : DeltaLog) = log ↔ path = log.path := by
    cases log
    simp
  have hstat (stat : String × Statistics) (paths : List String) :
      ((stat.1, { stat.2 with paths }) : String × Statistics) = stat ↔ paths = stat.2.paths := by
    obtain ⟨key, paths, metadata⟩ := stat
    simp
  have hidx (idx : Index) (path : String) :
      ({ idx with path } : Index) = idx ↔ path = idx.path := by
    cases idx
    simp
  have hlob (file : LobFileInfo) (path : String) :
      ({ file with path } : LobFileInfo) = file ↔ path = file.path := by
    cases file
    simp
  simp only [Manifest.withGroups, Manifest.mapPaths, Manifest.mk.injEq, true_and,
    (map_injective_iff.mpr own_injective).eq_iff, map_eq_self_iff, mapPaths_eq_self_iff,
    hlog, hstat, hidx, hlob]
  simp only [Manifest.paths, hgroups, forall_mem_append, forall_mem_flatMap,
    forall_mem_map, and_assoc]

/-! ## Reading a manifest back -/

/-- Write a manifest with relative paths, and read it with absolute ones. -/
def Manifest.storePaths (parseUri : UriParser) (base : String) (σ : Store) (m : Manifest) :
    Except Fault (Store × Manifest) := do
  let (σ, stored) ← m.toRelativePaths base σ
  stored.toAbsolutePaths parseUri base σ

theorem toRelativePaths_eq (base : String) (hgs : m.groups σ = gs.map some) :
    let convert := fun dir path => toRelative path (some base) dir
    m.toRelativePaths base σ =
      .ok (σ, (m.mapPaths convert).withGroups (gs.map (ColumnGroup.mapPaths (convert .data)))) := by
  simp only [Manifest.toRelativePaths, copy_eq_withGroups hgs, convertPaths_withGroups]

theorem toRelativePaths_of_none (base : String) (h : none ∈ m.groups σ) :
    m.toRelativePaths base σ = .error .nullDereference := by
  simp only [Manifest.toRelativePaths, Manifest.convertPaths, Manifest.copy, convertGroups_none h]
  rfl

theorem storePaths_eq (parseUri : UriParser) (base : String) (hgs : m.groups σ = gs.map some) :
    let convert := fun dir path =>
      toAbsolute parseUri (toRelative path (some base) dir) (some base) dir
    m.storePaths parseUri base σ =
      .ok (σ, (m.mapPaths convert).withGroups (gs.map (ColumnGroup.mapPaths (convert .data)))) := by
  simp only [Manifest.storePaths, toRelativePaths_eq base hgs, convertPaths_withGroups,
    Except.ok_bind, Manifest.toAbsolutePaths, mapPaths_mapPaths_manifest, map_map]
  congr 3
  simp [comp_def]

theorem exists_groups_eq (h : none ∉ m.groups σ) :
    ∃ gs : List ColumnGroup, m.groups σ = gs.map some := by
  generalize m.groups σ = groups at h
  induction groups with
  | nil => exact ⟨[], rfl⟩
  | cons g groups ih =>
    rw [mem_cons, not_or] at h
    obtain ⟨gs, hgs⟩ := ih h.2
    obtain ⟨g, rfl⟩ := Option.ne_none_iff_exists'.mp (Ne.symm h.1)
    exact ⟨g :: gs, by rw [hgs, map_cons]⟩

/-- **Reading gives back the paths that were written** if and only if no column group is missing and
reading recognises the stored form of every path. -/
theorem storePaths_eq_copy_iff (parseUri : UriParser) (base : String) (σ : Store) (m : Manifest)
    (hpaths : ∀ q ∈ m.paths σ, Normalized q.2) :
    m.storePaths parseUri base σ = .ok (σ, m.copy σ) ↔
      none ∉ m.groups σ ∧ ∀ q ∈ m.paths σ, Survives parseUri base q.1 q.2 := by
  by_cases hnone : none ∈ m.groups σ
  · simp [Manifest.storePaths, toRelativePaths_of_none base hnone, hnone, bind, Except.bind]
  obtain ⟨gs, hgs⟩ := exists_groups_eq hnone
  rw [storePaths_eq parseUri base hgs, copy_eq_withGroups hgs]
  simp only [hnone, not_false_eq_true, true_and, Except.ok.injEq, Prod.mk.injEq]
  rw [mapPaths_eq_iff hgs]
  exact forall₂_congr fun q hq => toAbsolute_toRelative_eq_iff parseUri base q.1 (hpaths q hq)

/-- A manifest whose paths are read back as they were written. -/
structure Manifest.KeepsPaths (parseUri : UriParser) (base : String) (σ : Store) (m : Manifest) :
    Prop where
  groups : none ∉ m.groups σ
  paths : ∀ q ∈ m.paths σ, Normalized q.2 ∧ Survives parseUri base q.1 q.2

/-- A parser for `scheme:path` and `scheme://host/path`. -/
def schemeParser : UriParser := fun uri =>
  let cs := uri.toList
  if ':' ∈ cs ∧ '/' ∉ cs.takeWhile (· ≠ ':') then
    let scheme := String.ofList (cs.takeWhile (· ≠ ':'))
    match (cs.dropWhile (· ≠ ':')).drop 1 with
    | '/' :: '/' :: rest => some {
        scheme
        host := .ofList (rest.takeWhile (· ≠ '/'))
        port := -1
        path := .ofList (rest.dropWhile (· ≠ '/')) }
    | rest => some { scheme, host := "", port := -1, path := .ofList rest }
  else none

/-- One data file in a directory whose name has a colon. -/
def partitionGroup : ColumnGroup where
  columns := ["id"]
  format := "parquet"
  files := [{ path := "/table/_data/part:1/0.parquet", startIndex := 0, endIndex := 1 }]

def partitionManifest : Manifest := { columnGroups := [.own partitionGroup] }

def noGroups : Store := fun _ => { columns := [], format := "", files := [] }

/-- What is left of the path looks like a URI, and stays relative. -/
theorem storePaths_colon :
    (∀ q ∈ partitionManifest.paths noGroups, normal q.2.toList = q.2.toList) ∧
    (partitionManifest.storePaths schemeParser "/table" noGroups).map (fun r => r.2.paths r.1) =
      .ok [(.data, "part:1/0.parquet")] := by
  constructor
  · decide
  · rfl

/-- A file in the table and one of another table, with a scheme. -/
def externalManifest : Manifest :=
  { columnGroups := [.own {
      columns := ["id"]
      format := "parquet"
      files := [{ path := "/table/_data/0.parquet", startIndex := 0, endIndex := 1 },
        { path := "s3://host/bucket/0.parquet", startIndex := 0, endIndex := 1 }] }] }

theorem storePaths_external : externalManifest.storePaths schemeParser "/table" noGroups =
      .ok (noGroups, externalManifest.copy noGroups) := by
  refine (storePaths_eq_copy_iff schemeParser "/table" noGroups externalManifest ?_).mpr ?_
  · intro q hq
    change q ∈ [(.data, "/table/_data/0.parquet"), (.data, "s3://host/bucket/0.parquet")] at hq
    simp only [mem_cons, not_mem_nil, or_false] at hq
    rcases hq with rfl | rfl
    · exact ⟨by decide, .inl (by decide)⟩
    · exact ⟨by decide, .inr ⟨"s3".toList, "host/bucket/0.parquet".toList, by decide, rfl⟩⟩
  · exact ⟨by decide, by decide⟩

/-- One delta log in its directory. -/
def deltaManifest : Manifest := { deltaLogs := [⟨"/table/_delta/0", .primaryKey, 1⟩] }

theorem deltaManifest_keepsPaths (σ : Store) :
    deltaManifest.KeepsPaths schemeParser "/table" σ where
  groups := not_mem_nil
  paths q hq := by
    rw [mem_singleton.mp hq]
    exact ⟨⟨by decide, .inl (by decide)⟩, by decide⟩

end MilvusStorage
