import Mathlib.Data.List.Nodup
import Mathlib.Data.List.Perm.Basic
import MilvusStorage.Common.StorageUri
import MilvusStorage.Foundations.Except

/-!
# External filesystems

The properties `extfs.<name>.<property>` configure external filesystems. An absolute URI is served
by the first of their groups whose address and bucket match it, in the order in which an unordered
map enumerates the groups.
-/

namespace MilvusStorage

open List

/-- The operations on maps of properties, of type `Q`, and the configurations, of type `C`, that are
made of them. -/
structure PropertyTable (Q C : Type) where
  empty : Q
  /-- The properties, in the order of the map, with their values if these are strings. -/
  entries : Q → List (String × Option String)
  setValue : Q → String → String → Except String Q
  /-- `GetValue<std::string>`. -/
  getValue : Q → String → Except Fault String
  createFileSystemConfig : Q → Except Fault C

/-- `ArrowFileSystemConfig`, with its alias. -/
structure FileSystemConfig (C : Type) where
  fsAlias : String := ""
  config : C
  deriving DecidableEq

namespace PropertyTable

variable {Q C : Type} (table : PropertyTable Q C)

/-- The names of the filesystem and of its property in `extfs.<name>.<property>`. -/
def splitKey (key : String) : Option (Except Fault (String × String)) :=
  let start := "extfs.".toList
  if start.length < key.toList.length ∧ start <+: key.toList then
    let remainder := key.toList.drop start.length
    some <|
      if '.' ∉ remainder then
        .error (.status (.invalid (s!"Invalid external filesystem property format: '{key}'" ++
          ". Expected format: extfs.<name>.<property>")))
      else
        let fsName := remainder.takeWhile (· ≠ '.')
        let fsProperty := (remainder.dropWhile (· ≠ '.')).drop 1
        if fsName = [] then
          .error (.status (.invalid s!"Empty external filesystem name in property: '{key}'"))
        else if fsProperty = [] then
          .error (.status (.invalid
            s!"Empty property name in external filesystem property: '{key}'"))
        else .ok (.ofList fsName, .ofList fsProperty)
  else none

/-- A property is set in the group with this name. -/
def setProperty (groups : List (String × Q)) (fsName standardKey value : String) :
    Except Fault (List (String × Q)) :=
  match table.setValue ((groups.lookup fsName).getD table.empty) standardKey value with
  | .error e => .error (.status (.invalid
      s!"Failed to set external fs property '{standardKey}': {e}"))
  | .ok q => .ok ((fsName, q) :: groups.filter (·.1 ≠ fsName))

/-- The body of the loop of `ExtractExternalFsProperties`. -/
def extractProperty (groups : List (String × Q)) (entry : String × Option String) :
    Except Fault (List (String × Q)) :=
  match splitKey entry.1 with
  | none => .ok groups
  | some (.error e) => .error e
  | some (.ok (fsName, fsProperty)) =>
    match entry.2 with
    | none => .error (.thrown "std::bad_variant_access")
    | some value => table.setProperty groups fsName ("fs." ++ fsProperty) value

def extractExternalFsProperties (properties : Q) : Except Fault (List (String × Q)) :=
  (table.entries properties).foldlM table.extractProperty []

def createExternalFsConfig (fsAlias : String) (props : Q) : Except Fault (FileSystemConfig C) := do
  let config ← table.createFileSystemConfig props
  return { fsAlias, config }

/-- Whether a group matches a URI. -/
def matchesUri (parseUri : UriParser) (uri : StorageUri) (fsProps : Q) : Bool :=
  (uri.address = "" || match table.getValue fsProps "fs.address" with
    | .error _ => false
    | .ok address => StorageUri.resolveAddress parseUri address = uri.address) &&
  match table.getValue fsProps "fs.bucket_name" with
  | .error _ => false
  | .ok bucketName => bucketName = uri.bucketName

/-- The loop over the groups. -/
def firstMatch (parseUri : UriParser) (path : String) (uri : StorageUri) :
    List (String × Q) → Except Fault (FileSystemConfig C)
  | [] =>
    let address := uri.address
    let bucketName := uri.bucketName
    .error (.status (.invalid ("No matching external filesystem config (extfs.*) found " ++
      s!"for URI '{path}' (address='{address}', bucket='{bucketName}" ++
      "'). Please check your extfs.* properties.")))
  | (fsAlias, fsProps) :: groups =>
    if table.matchesUri parseUri uri fsProps then table.createExternalFsConfig fsAlias fsProps
    else firstMatch parseUri path uri groups

/-- `resolve_config`, with the order in which the groups are enumerated. -/
def resolveConfig (parseUri : UriParser) (enumerate : List (String × Q) → List (String × Q))
    (properties : Q) (path : String) : Except Fault (FileSystemConfig C) := do
  let uri ← if path = "" then .ok {} else StorageUri.parse parseUri path
  if uri.scheme = "" then
    let config ← table.createFileSystemConfig properties
    return { config }
  else
    let groups ← table.extractExternalFsProperties properties
    table.firstMatch parseUri path uri (enumerate groups)

variable {table} {parseUri : UriParser} {path : String} {uri : StorageUri} {g g' : String × Q}
  {groups groups' : List (String × Q)}

/-- What the loop returns is the outcome of a group that matches. -/
theorem firstMatch_mem (hg : g ∈ groups.filter fun g => table.matchesUri parseUri uri g.2) :
    ∃ g ∈ groups.filter fun g => table.matchesUri parseUri uri g.2,
      table.firstMatch parseUri path uri groups = table.createExternalFsConfig g.1 g.2 := by
  induction groups with
  | nil => cases hg
  | cons g' groups ih =>
    rw [firstMatch]
    by_cases hmatches : table.matchesUri parseUri uri g'.2
    · exact ⟨g', by simp [hmatches], if_pos hmatches⟩
    · simp only [filter_cons, hmatches] at hg ⊢
      exact ih hg

theorem firstMatch_none (h : groups.filter (fun g => table.matchesUri parseUri uri g.2) = []) :
    table.firstMatch parseUri path uri groups = table.firstMatch parseUri path uri [] := by
  induction groups with
  | nil => rfl
  | cons g groups ih =>
    obtain ⟨hg, hgroups⟩ := forall_mem_cons.mp (filter_eq_nil_iff.mp h)
    rw [← ih (filter_eq_nil_iff.mpr hgroups)]
    exact if_neg hg

/-- Each group that matches is the first one in some order. -/
theorem exists_perm_firstMatch (hg : g ∈ groups.filter fun g => table.matchesUri parseUri uri g.2) :
    ∃ groups', groups'.Perm groups ∧
      table.firstMatch parseUri path uri groups' = table.createExternalFsConfig g.1 g.2 := by
  obtain ⟨hg, hmatches⟩ := mem_filter.mp hg
  obtain ⟨before, after, rfl⟩ := append_of_mem hg
  exact ⟨g :: (before ++ after), perm_middle.symm, if_pos hmatches⟩

/-- Groups with different names have the same outcome only if no configuration can be made. -/
theorem createExternalFsConfig_eq (hne : g.1 ≠ g'.1)
    (h : table.createExternalFsConfig g.1 g.2 = table.createExternalFsConfig g'.1 g'.2) :
    ∃ e, table.createExternalFsConfig g.1 g.2 = .error e := by
  cases hc : table.createExternalFsConfig g.1 g.2 with
  | error e => exact ⟨e, rfl⟩
  | ok c =>
    obtain ⟨_, -, hc1⟩ := Except.bind_pure_eq_ok.mp hc
    obtain ⟨_, -, hc2⟩ := Except.bind_pure_eq_ok.mp (h.symm.trans hc)
    exact absurd (congrArg FileSystemConfig.fsAlias (hc1.trans hc2.symm)) hne

/-- There is one group for a name. -/
theorem nodup_extractExternalFsProperties {properties : Q}
    (h : table.extractExternalFsProperties properties = .ok groups) :
    (groups.map Prod.fst).Nodup := by
  refine Except.foldlM_invariant (P := fun groups => (groups.map Prod.fst).Nodup) ?_ nodup_nil h
  intro groups hnodup entry _ groups' hstep
  unfold extractProperty setProperty at hstep
  split at hstep
  · cases hstep
    exact hnodup
  · cases hstep
  · split at hstep
    · cases hstep
    · split at hstep
      · cases hstep
      · cases hstep
        refine nodup_cons.mpr ⟨?_, (filter_sublist.map Prod.fst).nodup hnodup⟩
        simp [mem_map, mem_filter]

/-- **The choice of the external filesystem.** It does not depend on the order of the groups, and a
URI that groups with different credentials match is not served, if and only if at most one group
matches, or all that match fail with the same error. -/
theorem resolveConfig_unambiguous_iff {K : Type} (credentials : Q → K) {properties : Q}
    (hpath : path ≠ "") (huri : StorageUri.parse parseUri path = .ok uri) (habs : uri.scheme ≠ "")
    (hgroups : table.extractExternalFsProperties properties = .ok groups) :
    let choose := fun enumerate => table.resolveConfig parseUri enumerate properties path
    let candidates := groups.filter fun g => table.matchesUri parseUri uri g.2
    ((∀ e e', (e groups).Perm groups → (e' groups).Perm groups → choose e = choose e') ∧
        ((∃ g ∈ candidates, ∃ g' ∈ candidates, credentials g.2 ≠ credentials g'.2) →
          ∀ e, (e groups).Perm groups → ∃ s, choose e = .error s)) ↔
      (∀ g ∈ candidates, ∀ g' ∈ candidates, g = g') ∨
        ∃ s, ∀ g ∈ candidates, table.createExternalFsConfig g.1 g.2 = .error s := by
  intro choose candidates
  have hchoose : ∀ e, choose e = table.firstMatch parseUri path uri (e groups) := by
    intro e
    simp [choose, resolveConfig, if_neg hpath, huri, Except.ok_bind, if_neg habs, hgroups]
  have hmem : ∀ e, (e groups).Perm groups → ∀ g ∈ candidates,
      ∃ g ∈ candidates, choose e = table.createExternalFsConfig g.1 g.2 := by
    intro e he g hg
    obtain ⟨g', hg', heq⟩ := firstMatch_mem ((he.filter _).mem_iff.mpr hg)
    exact ⟨g', (he.filter _).subset hg', (hchoose e).trans heq⟩
  constructor
  · rintro ⟨horder, -⟩
    -- every candidate is chosen in some order
    have hsame : ∀ g ∈ candidates, ∀ g' ∈ candidates,
        table.createExternalFsConfig g.1 g.2 = table.createExternalFsConfig g'.1 g'.2 := by
      intro g hg g' hg'
      obtain ⟨l, hperm, heq⟩ := exists_perm_firstMatch hg
      obtain ⟨l', hperm', heq'⟩ := exists_perm_firstMatch hg'
      rw [← heq, ← heq', ← hchoose fun _ => l, ← hchoose fun _ => l']
      exact horder _ _ hperm hperm'
    by_contra hnot
    obtain ⟨hdistinct, herror⟩ := not_or.mp hnot
    push Not at hdistinct
    obtain ⟨g, hg, g', hg', hne⟩ := hdistinct
    have hname : g.1 ≠ g'.1 := fun heq => hne (inj_on_of_nodup_map
      (nodup_extractExternalFsProperties hgroups) (mem_filter.mp hg).1 (mem_filter.mp hg').1 heq)
    obtain ⟨s, hs⟩ := createExternalFsConfig_eq hname (hsame g hg g' hg')
    exact herror ⟨s, fun g1 hg1 => (hsame g1 hg1 g hg).trans hs⟩
  · intro h
    refine ⟨fun e e' he he' => ?_, fun ⟨g, hg, g', hg', hne⟩ e he => ?_⟩
    · by_cases hnil : candidates = []
      · rw [hchoose, hchoose, firstMatch_none ((he.filter _).trans (.of_eq hnil)).eq_nil,
          firstMatch_none ((he'.filter _).trans (.of_eq hnil)).eq_nil]
      · obtain ⟨g, hg⟩ := exists_mem_of_ne_nil _ hnil
        obtain ⟨g1, hg1, heq⟩ := hmem e he g hg
        obtain ⟨g2, hg2, heq'⟩ := hmem e' he' g hg
        rcases h with hone | ⟨s, hs⟩
        · rw [heq, heq', hone g1 hg1 g2 hg2]
        · rw [heq, heq', hs g1 hg1, hs g2 hg2]
    · rcases h with hone | ⟨s, hs⟩
      · exact absurd (congrArg (credentials ·.2) (hone g hg g' hg')) hne
      · obtain ⟨g1, hg1, heq⟩ := hmem e he g hg
        exact ⟨s, heq.trans (hs g1 hg1)⟩

/-- Properties are lists, and their own configuration. -/
def listTable : PropertyTable (List (String × String)) (List (String × String)) where
  empty := []
  entries q := q.map fun e => (e.1, some e.2)
  setValue q k v := .ok (q ++ [(k, v)])
  getValue q k := match q.lookup k with
    | none => .error (.status (.invalid k))
    | some v => .ok v
  createFileSystemConfig := .ok

def oneUri : UriParser := fun s => if s = "s3://h/b/k" then some ⟨"s3", "h", -1, "/b/k"⟩ else none

def twoAccounts : List (String × String) := [
  ("extfs.x.address", "h"), ("extfs.x.bucket_name", "b"), ("extfs.x.access_key_id", "1"),
  ("extfs.y.address", "h"), ("extfs.y.bucket_name", "b"), ("extfs.y.access_key_id", "2")]

/-- Two accounts for one bucket: the order decides which one is used. -/
theorem resolveConfig_twoAccounts :
    (listTable.resolveConfig oneUri id twoAccounts "s3://h/b/k").map (·.fsAlias) = .ok "y" ∧
      (listTable.resolveConfig oneUri reverse twoAccounts "s3://h/b/k").map (·.fsAlias) =
        .ok "x" := by
  decide +kernel

/-- Two accounts for two buckets. -/
def twoBuckets : List (String × String) := twoAccounts.set 4 ("extfs.y.bucket_name", "c")

theorem resolveConfig_unambiguous_twoBuckets :
    listTable.resolveConfig oneUri reverse twoBuckets "s3://h/b/k" =
        listTable.resolveConfig oneUri id twoBuckets "s3://h/b/k" ∧
      (listTable.resolveConfig oneUri id twoBuckets "s3://h/b/k").map (·.fsAlias) = .ok "x" :=
  ⟨((resolveConfig_unambiguous_iff id (by decide) rfl (by decide) rfl).mpr
    (.inl (by decide +kernel))).1 reverse id (reverse_perm _) (.refl _), by decide +kernel⟩

end PropertyTable

end MilvusStorage
