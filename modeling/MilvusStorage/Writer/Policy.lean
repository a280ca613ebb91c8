import Mathlib.Data.List.Nodup
import Mathlib.Data.List.ReduceOption
import MilvusStorage.Common.RecordBatch
import MilvusStorage.Foundations.Except
import MilvusStorage.Manifest.Basic

/-!
# Column group policies

How a writer splits the columns of its schema into column groups. The schema-based policy puts each
column into the group of the first pattern that matches its name. The size-based policy goes through
the columns in order, and begins a new group at a column that is too wide or when the group is full.
-/

namespace MilvusStorage.Writer

open List

/-- Every column is in one group, and no group is empty. -/
structure Partition (schema : List String) (groups : List ColumnGroup) : Prop where
  perm : (groups.flatMap ColumnGroup.columns).Perm schema
  disjoint : groups.Pairwise fun g h => g.columns.Disjoint h.columns
  ne_nil : ∀ g ∈ groups, g.columns ≠ []

variable {groups : List ColumnGroup}

/-- Groups of distinct columns are disjoint. -/
theorem pairwise_disjoint {schema : List String} (hnodup : schema.Nodup)
    (hperm : (groups.flatMap ColumnGroup.columns).Perm schema) :
    groups.Pairwise fun g h => g.columns.Disjoint h.columns := by
  have h := hperm.nodup_iff.mpr hnodup
  rw [nodup_flatMap] at h
  exact h.2

/-! ## The schema-based policy -/

structure SchemaBasedColumnGroupPolicy where
  schema : List String
  defaultFormat : String
  columnNamePatterns : List String
  columnNameFormats : List String
  /-- `create_column_group_policy` checks this. -/
  length_formats : columnNameFormats = [] ∨ columnNameFormats.length = columnNamePatterns.length

/-- The branch of `create_column_group_policy` for the schema-based policy. -/
def createSchemaBased (schema : List String) (fallbackFormat : String)
    (patterns formats : List String) : Except Fault SchemaBasedColumnGroupPolicy :=
  if h : formats ≠ [] ∧ formats.length ≠ patterns.length then
    let patternsSize := patterns.length
    let formatsSize := formats.length
    .error (.status (.invalid ("Schema-based writer formats size must match patterns size. " ++
      s!"[patterns_size={patternsSize}, formats_size={formatsSize}]")))
  else .ok {
    schema, defaultFormat := fallbackFormat
    columnNamePatterns := patterns, columnNameFormats := formats
    length_formats := by tauto }

namespace SchemaBasedColumnGroupPolicy

/-- `std::regex_match(name, std::regex(pattern))`, which is `none` if the pattern is not a regular
expression: then the constructor throws. -/
abbrev RegexMatch := String → String → Option Bool

variable (regexMatch : RegexMatch) (p : SchemaBasedColumnGroupPolicy)

/-- The first pattern that matches the name, or the number of patterns. -/
def matchPattern (fieldName : String) : List String → Except Fault ℕ
  | [] => .ok 0
  | pattern :: patterns =>
    match regexMatch fieldName pattern with
    | none => .error (.thrown "regex_error")
    | some true => .ok 0
    | some false => do return (← matchPattern fieldName patterns) + 1

/-- The format of a new group. -/
def formatOf (j : ℕ) : Except Fault String :=
  if j = p.columnNamePatterns.length ∨ p.columnNameFormats = [] then .ok p.defaultFormat
  else
    match p.columnNameFormats[j]? with
    | some format => .ok format
    | none => .error .outOfBounds

/-- A column is pushed to its group, which is created if it is null. -/
def pushColumn (columnGroups : List (Option ColumnGroup)) (j : ℕ) (fieldName : String) :
    Except Fault (List (Option ColumnGroup)) :=
  match columnGroups[j]? with
  | none => .error .outOfBounds
  | some none => do
    let format ← p.formatOf j
    return columnGroups.set j (some ⟨[fieldName], format, []⟩)
  | some (some g) => return columnGroups.set j (some { g with columns := g.columns ++ [fieldName] })

def pushColumns : List (Option ColumnGroup) → List String → Except Fault (List (Option ColumnGroup))
  | columnGroups, [] => .ok columnGroups
  | columnGroups, fieldName :: names => do
    let j ← matchPattern regexMatch fieldName p.columnNamePatterns
    let columnGroups ← p.pushColumn columnGroups j fieldName
    pushColumns columnGroups names

def getColumnGroups : Except Fault (List ColumnGroup) := do
  let columnGroups ← p.pushColumns regexMatch
    (List.replicate (p.columnNamePatterns.length + 1) none) p.schema
  return columnGroups.reduceOption

variable {j : ℕ} {columnGroups : List (Option ColumnGroup)} {patterns : List String}
  {fieldName : String}

theorem matchPattern_le (h : matchPattern regexMatch fieldName patterns = .ok j) :
    j ≤ patterns.length := by
  induction patterns generalizing j with
  | nil =>
    cases h
    exact le_rfl
  | cons pattern patterns ih =>
    rw [matchPattern] at h
    split at h
    · cases h
    · cases h
      exact Nat.zero_le _
    · obtain ⟨k, hk, rfl⟩ := Except.bind_pure_eq_ok.mp h
      exact Nat.succ_le_succ (ih hk)

theorem exists_matchPattern (hvalid : ∀ name, ∀ pattern ∈ patterns, regexMatch name pattern ≠ none)
    (fieldName : String) : ∃ j, matchPattern regexMatch fieldName patterns = .ok j := by
  induction patterns with
  | nil => exact ⟨0, rfl⟩
  | cons pattern patterns ih =>
    obtain ⟨j, hj⟩ := ih fun name pattern hmem => hvalid name pattern (mem_cons_of_mem _ hmem)
    have hne := hvalid fieldName pattern mem_cons_self
    rw [matchPattern]
    cases hmatch : regexMatch fieldName pattern with
    | none => exact absurd hmatch hne
    | some matched =>
      cases matched with
      | false => exact ⟨j + 1, by simp only [hj]; rfl⟩
      | true => exact ⟨0, rfl⟩

variable {p}

theorem exists_formatOf (h : j ≤ p.columnNamePatterns.length) :
    ∃ format, p.formatOf j = .ok format := by
  rw [formatOf]
  split_ifs with hdefault
  · exact ⟨_, rfl⟩
  · rw [not_or] at hdefault
    have hlen := p.length_formats.resolve_left hdefault.2
    rw [getElem?_eq_getElem (by omega)]
    exact ⟨_, rfl⟩

/-- The columns of the groups so far. -/
def columnsOf (columnGroups : List (Option ColumnGroup)) : List String :=
  columnGroups.reduceOption.flatMap ColumnGroup.columns

theorem columnsOf_append_cons (l1 l2 : List (Option ColumnGroup)) (g : Option ColumnGroup) :
    columnsOf (l1 ++ g :: l2) = columnsOf l1 ++ g.elim [] ColumnGroup.columns ++ columnsOf l2 := by
  cases g <;> simp [columnsOf, reduceOption_append]

/-- No group that exists is empty. -/
def Filled (columnGroups : List (Option ColumnGroup)) : Prop :=
  ∀ g, some g ∈ columnGroups → g.columns ≠ []

theorem filled_set (h : Filled columnGroups) (j : ℕ) {g : ColumnGroup} (hg : g.columns ≠ []) :
    Filled (columnGroups.set j (some g)) := by
  intro g' hg'
  obtain hmem | heq := mem_or_eq_of_mem_set hg'
  · exact h g' hmem
  · rwa [Option.some.inj heq]

/-- A column is added to the columns of the group at `j`. -/
theorem columnsOf_set_perm (hj : j < columnGroups.length) {g : ColumnGroup}
    (hg : g.columns = columnGroups[j].elim [] ColumnGroup.columns ++ [fieldName]) :
    (columnsOf (columnGroups.set j (some g))).Perm (columnsOf columnGroups ++ [fieldName]) := by
  obtain ⟨l1, l2, hl, -, hset⟩ : ∃ l1 l2, columnGroups = l1 ++ columnGroups[j] :: l2 ∧
    l1.length = j ∧ columnGroups.set j (some g) = l1 ++ some g :: l2 := exists_of_set hj
  have hall := congrArg columnsOf hl
  rw [columnsOf_append_cons] at hall
  rw [hset, columnsOf_append_cons, hall, Option.elim_some, hg, perm_iff_count]
  intro name
  simp only [count_append]
  omega

/-- One column of the schema goes to one group. -/
theorem pushColumn_spec (fieldName : String)
    (hlen : columnGroups.length = p.columnNamePatterns.length + 1)
    (hj : j ≤ p.columnNamePatterns.length) (hfilled : Filled columnGroups) :
    ∃ columnGroups', p.pushColumn columnGroups j fieldName = .ok columnGroups' ∧
      columnGroups'.length = columnGroups.length ∧ Filled columnGroups' ∧
      (columnsOf columnGroups').Perm (columnsOf columnGroups ++ [fieldName]) := by
  have hlt : j < columnGroups.length := by omega
  obtain ⟨format, hformat⟩ := exists_formatOf hj
  rw [pushColumn, getElem?_eq_getElem hlt]
  cases hg : columnGroups[j] with
  | none =>
    refine ⟨columnGroups.set j (some ⟨[fieldName], format, []⟩), by simp only [hformat]; rfl,
      length_set, filled_set hfilled j (cons_ne_nil _ _), columnsOf_set_perm hlt ?_⟩
    simp [hg]
  | some g =>
    refine ⟨_, rfl, length_set, filled_set hfilled j (by simp), columnsOf_set_perm hlt ?_⟩
    simp [hg]

/-- The whole loop, if the patterns are regular expressions. -/
theorem pushColumns_spec {names : List String}
    (hlen : columnGroups.length = p.columnNamePatterns.length + 1)
    (hfilled : Filled columnGroups) :
    (∀ columnGroups', p.pushColumns regexMatch columnGroups names = .ok columnGroups' →
      Filled columnGroups' ∧ (columnsOf columnGroups').Perm (columnsOf columnGroups ++ names)) ∧
    ((∀ name, ∀ pattern ∈ p.columnNamePatterns, regexMatch name pattern ≠ none) →
      ∃ columnGroups', p.pushColumns regexMatch columnGroups names = .ok columnGroups') := by
  induction names generalizing columnGroups with
  | nil =>
    refine ⟨fun columnGroups' h => ?_, fun _ => ⟨columnGroups, rfl⟩⟩
    cases h
    simp [hfilled]
  | cons name names ih =>
    rw [pushColumns]
    cases hmatch : matchPattern regexMatch name p.columnNamePatterns with
    | error e =>
      refine ⟨fun columnGroups' h => (nomatch h), fun hvalid => ?_⟩
      obtain ⟨j, hj⟩ := exists_matchPattern regexMatch hvalid name
      simp [hmatch] at hj
    | ok j =>
      obtain ⟨columnGroups1, hpush, hlength1, hfilled1, hperm1⟩ :=
        pushColumn_spec name hlen (matchPattern_le regexMatch hmatch) hfilled
      obtain ⟨hok, hexists⟩ := ih (hlength1.trans hlen) hfilled1
      simp only [Except.ok_bind, hpush]
      refine ⟨fun columnGroups' h => ?_, hexists⟩
      obtain ⟨hfilled', hperm'⟩ := hok columnGroups' h
      refine ⟨hfilled', hperm'.trans ?_⟩
      simpa using hperm1.append_right names

/-- **The groups of the schema-based policy** partition the schema. -/
theorem partition (hnodup : p.schema.Nodup) (h : p.getColumnGroups regexMatch = .ok groups) :
    Partition p.schema groups := by
  obtain ⟨columnGroups, hpush, rfl⟩ := Except.bind_pure_eq_ok.mp h
  have hnone : Filled (replicate (p.columnNamePatterns.length + 1) none) := by
    intro g hg
    simp at hg
  obtain ⟨hfilled, hperm⟩ :=
    (pushColumns_spec regexMatch length_replicate hnone).1 columnGroups hpush
  have hnil : columnsOf (replicate (p.columnNamePatterns.length + 1) none) = [] := by
    simp [columnsOf]
  rw [hnil] at hperm
  exact ⟨hperm, pairwise_disjoint hnodup hperm, fun g hg => hfilled g (reduceOption_mem_iff.mp hg)⟩

theorem exists_getColumnGroups
    (hvalid : ∀ name, ∀ pattern ∈ p.columnNamePatterns, regexMatch name pattern ≠ none) :
    ∃ groups, p.getColumnGroups regexMatch = .ok groups := by
  have hnone : Filled (replicate (p.columnNamePatterns.length + 1) none) := by
    intro g hg
    simp at hg
  obtain ⟨columnGroups, hpush⟩ : ∃ columnGroups, p.pushColumns regexMatch _ p.schema =
    .ok columnGroups := (pushColumns_spec regexMatch length_replicate hnone).2 hvalid
  exact ⟨_, by rw [getColumnGroups, hpush]; rfl⟩

end SchemaBasedColumnGroupPolicy

/-! ## The size-based policy -/

structure SizeBasedColumnGroupPolicy where
  schema : List String
  defaultFormat : String
  maxAvgColumnSize : ℤ
  maxColumnsInGroup : ℤ
  /-- The average sizes of the columns of the sample. -/
  columnSizes : List ℤ

namespace SizeBasedColumnGroupPolicy

/-- `sample`, from the number of rows of the batch and the memory sizes of its columns. -/
def sample (p : SizeBasedColumnGroupPolicy) :
    Option (ℕ × List ℕ) → Except Fault SizeBasedColumnGroupPolicy
  | none => .error (.status (.invalid
      "Sample batch cannot be null for SizeBasedColumnGroupPolicy"))
  | some (numRows, memorySizes) =>
    if numRows = 0 then
      .error (.status (.invalid
        "Sample batch cannot be empty (0 rows) for SizeBasedColumnGroupPolicy"))
    else if memorySizes.length < p.schema.length then .error .outOfBounds
    else .ok { p with
      columnSizes := (memorySizes.take p.schema.length).map fun size : ℕ =>
        (toSigned 64 size).tdiv numRows }

variable (p : SizeBasedColumnGroupPolicy)

/-- The loop of `get_column_groups`: the groups so far, and the columns of the current one. -/
def groupColumns : List String → List ℤ → List ColumnGroup → List String →
    Except Fault (List ColumnGroup)
  | [], _, columnGroups, currentGroupColumns =>
    if currentGroupColumns = [] then .ok columnGroups
    else .ok (columnGroups ++ [⟨currentGroupColumns, p.defaultFormat, []⟩])
  | _ :: _, [], _, _ => .error .outOfBounds
  | name :: names, size :: sizes, columnGroups, currentGroupColumns =>
    if size < p.maxAvgColumnSize ∧
        currentGroupColumns.length < toUnsigned 64 p.maxColumnsInGroup then
      groupColumns names sizes columnGroups (currentGroupColumns ++ [name])
    else
      groupColumns names sizes (columnGroups ++ [⟨currentGroupColumns, p.defaultFormat, []⟩]) [name]

def getColumnGroups : Except Fault (List ColumnGroup) :=
  p.groupColumns p.schema p.columnSizes [] []

variable {p}

/-- The loop keeps the order of the columns. A group is at most as long as it may be, and none is
empty once the current one is not. -/
theorem groupColumns_spec (hmax : 1 ≤ toUnsigned 64 p.maxColumnsInGroup) (names : List String)
    (sizes : List ℤ) (columnGroups : List ColumnGroup) (current : List String)
    (hlen : sizes.length = names.length)
    (hcurrent : current.length ≤ toUnsigned 64 p.maxColumnsInGroup)
    (hgroups : ∀ g ∈ columnGroups, g.columns.length ≤ toUnsigned 64 p.maxColumnsInGroup) :
    ∃ groups, p.groupColumns names sizes columnGroups current = .ok groups ∧
      groups.flatMap ColumnGroup.columns =
        columnGroups.flatMap ColumnGroup.columns ++ current ++ names ∧
      (∀ g ∈ groups, g.columns.length ≤ toUnsigned 64 p.maxColumnsInGroup) ∧
      (current ≠ [] → ((∀ g ∈ groups, g.columns ≠ []) ↔ ∀ g ∈ columnGroups, g.columns ≠ [])) := by
  induction names generalizing sizes columnGroups current with
  | nil =>
    rw [groupColumns]
    split_ifs with hnil
    · exact ⟨_, rfl, by simp [hnil], hgroups, fun h => absurd hnil h⟩
    · refine ⟨_, rfl, by simp, ?_, fun _ => ?_⟩
      · simpa [or_imp, forall_and] using ⟨hgroups, hcurrent⟩
      · simp [or_imp, forall_and, hnil]
  | cons name names ih =>
    cases sizes with
    | nil => simp at hlen
    | cons size sizes =>
      rw [groupColumns]
      split_ifs with hgroup
      · obtain ⟨groups, hok, hcols, hle, hne⟩ := ih sizes columnGroups
          (current ++ [name]) (by simpa using hlen) (by simp; omega) hgroups
        exact ⟨groups, hok, by simpa using hcols, hle, fun _ => hne (by simp)⟩
      · obtain ⟨groups, hok, hcols, hle, hne⟩ := ih sizes
          (columnGroups ++ [⟨current, p.defaultFormat, []⟩]) [name]
          (by simpa using hlen) hmax (by simpa [or_imp, forall_and] using ⟨hgroups, hcurrent⟩)
        refine ⟨groups, hok, by simpa using hcols, hle, fun hcur => (hne (by simp)).trans ?_⟩
        simp [or_imp, forall_and, hcur]

/-- **The groups of the size-based policy** partition the schema, and none is too long, unless the
first column is too wide. -/
theorem partition_iff (hnodup : p.schema.Nodup) (hmax : 1 ≤ p.maxColumnsInGroup)
    (hmax' : p.maxColumnsInGroup < 2 ^ 63) (hlen : p.columnSizes.length = p.schema.length) :
    ∃ groups, p.getColumnGroups = .ok groups ∧
      ((Partition p.schema groups ∧ ∀ g ∈ groups, (g.columns.length : ℤ) ≤ p.maxColumnsInGroup) ↔
        ∀ size ∈ p.columnSizes.head?, size < p.maxAvgColumnSize) := by
  have hunsigned : (toUnsigned 64 p.maxColumnsInGroup : ℤ) = p.maxColumnsInGroup := by
    rw [toUnsigned]
    omega
  have hone : 1 ≤ toUnsigned 64 p.maxColumnsInGroup := by omega
  have hpart : ∀ groups : List ColumnGroup, groups.flatMap ColumnGroup.columns = p.schema →
      (∀ g ∈ groups, g.columns.length ≤ toUnsigned 64 p.maxColumnsInGroup) →
      ((Partition p.schema groups ∧ ∀ g ∈ groups, (g.columns.length : ℤ) ≤ p.maxColumnsInGroup) ↔
        ∀ g ∈ groups, g.columns ≠ []) := by
    intro groups hcols hle
    refine ⟨fun h => h.1.ne_nil, fun hne => ⟨⟨hcols ▸ .rfl, ?_, hne⟩, fun g hg => ?_⟩⟩
    · exact pairwise_disjoint hnodup (hcols ▸ .rfl)
    · have := hle g hg
      omega
  rw [getColumnGroups]
  cases hschema : p.schema with
  | nil =>
    rw [hschema, length_nil, length_eq_zero_iff] at hlen
    refine ⟨[], rfl, ?_⟩
    rw [← hschema, hpart [] (by simp [hschema]) (by simp), hlen]
    simp
  | cons name names =>
    cases hsizes : p.columnSizes with
    | nil => simp [hschema, hsizes] at hlen
    | cons size sizes =>
      rw [hschema, hsizes, length_cons, length_cons] at hlen
      rw [groupColumns, ← hschema]
      have hfirst : ([] : List String).length < toUnsigned 64 p.maxColumnsInGroup := hone
      by_cases hsize : size < p.maxAvgColumnSize
      · rw [if_pos ⟨hsize, hfirst⟩]
        obtain ⟨groups, hok, hcols, hle, hne⟩ := groupColumns_spec (p := p) hone names
          sizes [] [name] (by omega) (by simpa using hone) (by simp)
        refine ⟨groups, hok, ?_⟩
        rw [hpart groups (by simpa [hschema] using hcols) hle, hne (by simp)]
        simp [hsize]
      · rw [if_neg fun h => hsize h.1]
        obtain ⟨groups, hok, hcols, hle, hne⟩ := groupColumns_spec (p := p) hone names
          sizes [⟨[], p.defaultFormat, []⟩] [name] (by omega) (by simpa using hone) (by simp)
        refine ⟨groups, hok, ?_⟩
        rw [hpart groups (by simpa [hschema] using hcols) hle, hne (by simp)]
        simp [hsize]

end SizeBasedColumnGroupPolicy

/-- **The groups of a policy** partition the schema. The schema-based policy always gives such
groups (and it gives groups, if its patterns are regular expressions). The size-based policy gives
such groups of at most `maxColumnsInGroup` columns if and only if the first column is not too wide.
-/
theorem policies_partition (regexMatch : SchemaBasedColumnGroupPolicy.RegexMatch)
    (p : SchemaBasedColumnGroupPolicy) (q : SizeBasedColumnGroupPolicy) :
    (p.schema.Nodup →
      (∀ groups, p.getColumnGroups regexMatch = .ok groups → Partition p.schema groups) ∧
      ((∀ name, ∀ pattern ∈ p.columnNamePatterns, regexMatch name pattern ≠ none) →
        ∃ groups, p.getColumnGroups regexMatch = .ok groups)) ∧
    (q.schema.Nodup → 1 ≤ q.maxColumnsInGroup → q.maxColumnsInGroup < 2 ^ 63 →
      q.columnSizes.length = q.schema.length →
      ∃ groups, q.getColumnGroups = .ok groups ∧ ((Partition q.schema groups ∧
          ∀ g ∈ groups, (g.columns.length : ℤ) ≤ q.maxColumnsInGroup) ↔
        ∀ size ∈ q.columnSizes.head?, size < q.maxAvgColumnSize)) :=
  ⟨fun hnodup => ⟨fun _ => SchemaBasedColumnGroupPolicy.partition regexMatch hnodup,
      SchemaBasedColumnGroupPolicy.exists_getColumnGroups regexMatch⟩,
    SizeBasedColumnGroupPolicy.partition_iff⟩

def vectorPattern : SchemaBasedColumnGroupPolicy := ⟨["id", "vector"], "parquet", ["vector"], [],
  .inl rfl⟩

def narrowColumns : SizeBasedColumnGroupPolicy := ⟨["id", "vector"], "parquet", 10, 2, [8, 64]⟩

theorem policies_partition_narrow :
    (∃ groups, vectorPattern.getColumnGroups (fun name pattern => some (name == pattern)) =
      .ok groups ∧ Partition ["id", "vector"] groups) ∧
    ∃ groups, narrowColumns.getColumnGroups = .ok groups ∧ Partition ["id", "vector"] groups := by
  have hpolicies := policies_partition (fun name pattern => some (name == pattern)) vectorPattern
    narrowColumns
  constructor
  · obtain ⟨hpart, hexists⟩ := hpolicies.1 (by decide)
    obtain ⟨groups, hok⟩ := hexists fun name pattern _ => by simp
    exact ⟨groups, hok, hpart groups hok⟩
  · obtain ⟨groups, hok, hiff⟩ := hpolicies.2 (by decide) (by decide) (by decide) rfl
    exact ⟨groups, hok, (hiff.mpr (by decide)).1⟩

def wideColumns : SizeBasedColumnGroupPolicy := ⟨["vector", "id"], "parquet", 10, 2, [64, 8]⟩

theorem getColumnGroups_wideColumns : ∃ groups, wideColumns.getColumnGroups = .ok groups ∧
    ∃ g ∈ groups, g.columns = [] :=
  ⟨[⟨[], "parquet", []⟩, ⟨["vector", "id"], "parquet", []⟩], by decide, _, mem_cons_self, rfl⟩

end MilvusStorage.Writer
