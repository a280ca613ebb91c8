import MilvusStorage.Transaction.Append
import Mathlib.Tactic.Linarith

/-!
# Row alignment

Readers put the column groups of a table side by side, so all groups must have the same total row
count. `applyUpdates` compares the rows of an added group with column group 0 before the appended
files are applied, and compares appended groups by columns and format only. Whether a successful
call keeps the groups aligned is therefore a condition on the row counts in the updates,
`Updates.RowsBalanced`, and `applyUpdates_rowAligned_iff` says that it is the exact one.
-/

namespace MilvusStorage

open List

/-- All groups have the same total row count. -/
def RowAligned (gs : List (Option ColumnGroup)) : Prop :=
  ∀ g g', some g ∈ gs → some g' ∈ gs → g.rows = g'.rows

/-- The rows that the groups at index `i` of several lists hold together. -/
def rowsAt (i : ℕ) (lists : List (List (Option ColumnGroup))) : ℤ :=
  (lists.map fun l => l[i]?.join.elim 0 ColumnGroup.rows).sum

theorem rows_pushFiles_flatMap (g : ColumnGroup) (i : ℕ)
    (lists : List (List (Option ColumnGroup))) :
    (g.pushFiles (lists.flatMap (filesAt i))).rows = g.rows + rowsAt i lists := by
  induction lists generalizing g with
  | nil => simp [rowsAt]
  | cons l lists ih =>
    rw [flatMap_cons, ← ColumnGroup.pushFiles_pushFiles, ih]
    have hhead : (g.pushFiles (filesAt i l)).rows =
        g.rows + l[i]?.join.elim 0 ColumnGroup.rows := by
      simp only [filesAt]
      cases l[i]?.join <;> simp [ColumnGroup.rows]
    rw [hhead, rowsAt, rowsAt, map_cons, sum_cons, add_assoc]

/-- The row counts in the updates go together. When groups of the base are left, the appended lists
bring the same number `t` of rows to each of them, and an added group has `t` rows more than they
had. When none is left, the adopted groups, with the rows that later lists append to them, have the
row count of the added groups. -/
def Updates.RowsBalanced (σ : Store) (base : List (Option ColumnGroup)) (u : Updates) : Prop :=
  if survivors u.droppedColumns base = [] then
    ∃ n : ℤ, ∀ r, some r ∈ u.adopted ++ u.addedColumnGroups →
      Transfers.tally (fun x => (σ x).rows) u.adoptedTransfers r = n
  else
    ∃ t : ℤ, (∀ i g, (survivors u.droppedColumns base)[i]? = some (some g) →
        rowsAt i (u.appendedFiles.map (ColumnGroups.deref σ)) = t) ∧
      ∀ g a, some g ∈ base → some a ∈ ColumnGroups.deref σ u.addedColumnGroups → a.rows = g.rows + t

/-! ## Alignment by value -/

theorem rows_withFiles_pushAll (σ : Store) (ts : List (Ref × Ref)) (x : Ref) :
    (σ.withFiles (Transfers.pushAll σ.files ts) x).rows =
      Transfers.tally (fun y => (σ y).rows) ts x :=
  Transfers.map_pushAll
    (fun fs => (fs.map fun f : ColumnGroupFile => f.endIndex - f.startIndex).sum)
    (fun a b => by rw [map_append, sum_append]) σ.files ts x

/-- Groups are aligned exactly when one row count fits them all. -/
theorem rowAligned_iff (gs : List (Option ColumnGroup)) :
    RowAligned gs ↔ ∃ n : ℤ, ∀ g, some g ∈ gs → g.rows = n := by
  refine ⟨fun hal => ?_, fun ⟨n, hn⟩ g g' hg hg' => by rw [hn g hg, hn g' hg']⟩
  by_cases hex : ∃ g0, some g0 ∈ gs
  · obtain ⟨g0, hg0⟩ := hex
    exact ⟨g0.rows, fun g hg => hal g g0 hg hg0⟩
  · exact ⟨0, fun g hg => absurd ⟨g, hg⟩ hex⟩

theorem rowAligned_deref (σ : Store) (cgs : ColumnGroups) :
    RowAligned (ColumnGroups.deref σ cgs) ↔ ∃ n : ℤ, ∀ r, some r ∈ cgs → (σ r).rows = n := by
  rw [rowAligned_iff]
  refine exists_congr fun n => ⟨fun h r hr => ?_, fun h g hg => ?_⟩
  · exact h (σ r) (mem_map.mpr ⟨some r, hr, rfl⟩)
  · obtain ⟨p, hp, hg⟩ := mem_map.mp hg
    obtain ⟨r, rfl, rfl⟩ := Option.map_eq_some_iff.mp hg
    exact h r hp

/-- Alignment of groups that appended lists were pushed to, followed by added groups. -/
theorem rowAligned_foldl_pushGroups (start added : List (Option ColumnGroup))
    (lists : List (List (Option ColumnGroup))) :
    RowAligned (lists.foldl pushGroups start ++ added) ↔
      ∃ n : ℤ, (∀ i g, start[i]? = some (some g) → g.rows + rowsAt i lists = n) ∧
        ∀ a, some a ∈ added → a.rows = n := by
  -- the groups after the pushes, index by index
  have hpush : ∀ (i : ℕ) (g : ColumnGroup), start[i]? = some (some g) →
      some (g.pushFiles (lists.flatMap (filesAt i))) ∈ lists.foldl pushGroups start := by
    intro i g hg
    apply mem_of_getElem? (i := i)
    simp [getElem?_foldl_pushGroups, hg]
  have hpull : ∀ g', some g' ∈ lists.foldl pushGroups start →
      ∃ i g, start[i]? = some (some g) ∧ g'.rows = g.rows + rowsAt i lists := by
    intro g' hg'
    obtain ⟨i, hi⟩ := mem_iff_getElem?.mp hg'
    rw [getElem?_foldl_pushGroups] at hi
    obtain ⟨cg, hcg, hmap⟩ := Option.map_eq_some_iff.mp hi
    obtain ⟨g, rfl, rfl⟩ := Option.map_eq_some_iff.mp hmap
    exact ⟨i, g, hcg, rows_pushFiles_flatMap g i lists⟩
  rw [rowAligned_iff]
  refine exists_congr fun n => ⟨fun hall => ⟨fun i g hg => ?_, fun a ha => ?_⟩, ?_⟩
  · rw [← rows_pushFiles_flatMap]
    exact hall _ (mem_append_left _ (hpush i g hg))
  · exact hall a (mem_append_right _ ha)
  · intro ⟨hstart, hadded⟩ g hg
    rcases mem_append.mp hg with hg | hg
    · obtain ⟨i, g', hg', hrows⟩ := hpull g hg
      rw [hrows, hstart i g' hg']
    · exact hadded g hg

/-! ## The exact condition -/

/-- **When `applyUpdates` preserves row alignment**: a successful call on an aligned base gives
aligned groups if and only if the row counts in the updates are balanced. -/
theorem applyUpdates_rowAligned_iff {σ σ' : Store} {m m' : Manifest} {u : Updates}
    (hal : RowAligned (m.groups σ)) (h : applyUpdates σ m u = .ok (σ', m')) :
    RowAligned (m'.groups σ') ↔ u.RowsBalanced σ (m.groups σ) := by
  obtain ⟨hnil, hσ', hgroups⟩ | ⟨hnil, hσ', hgroups⟩ := applyUpdates_cases h
  · rw [hgroups, rowAligned_foldl_pushGroups, Updates.RowsBalanced, if_neg hnil]
    -- the surviving groups have the rows of the base, which are all the same
    obtain ⟨slots, ⟨-, hadd, -⟩, -⟩ := applyUpdates_ok h
    have hrows : ∀ g g', some g ∈ survivors u.droppedColumns (m.groups σ) →
        some g' ∈ m.groups σ → g.rows = g'.rows := by
      intro g g' hg hg'
      obtain ⟨g1, hg1, hfiles, -⟩ := exists_of_mem_survivors hg
      rw [ColumnGroup.rows, hfiles]
      exact hal g1 g' hg1 hg'
    constructor
    · rintro ⟨n, hstart, hadded⟩
      by_cases hex : ∃ g0, some g0 ∈ m.groups σ
      · obtain ⟨g0, hg0⟩ := hex
        refine ⟨n - g0.rows, fun i g hg => ?_, fun g a hg ha => ?_⟩
        · have h1 := hstart i g hg
          have h2 := hrows g g0 (mem_of_getElem? hg) hg0
          linarith
        · have h1 := hadded a ha
          have h2 := hal g g0 hg hg0
          linarith
      · refine ⟨0, fun i g hg => ?_, fun g a hg _ => absurd ⟨g, hg⟩ hex⟩
        obtain ⟨g1, hg1, -⟩ := exists_of_mem_survivors (mem_of_getElem? hg)
        exact absurd ⟨g1, hg1⟩ hex
    · rintro ⟨t, hstart, hadded⟩
      by_cases hex : ∃ g0, some g0 ∈ survivors u.droppedColumns (m.groups σ)
      · obtain ⟨g0, hg0⟩ := hex
        obtain ⟨g1, hg1, -⟩ := exists_of_mem_survivors hg0
        refine ⟨g1.rows + t, fun i g hg => ?_, fun a ha => hadded g1 a hg1 ha⟩
        rw [hstart i g hg, hrows g g1 (mem_of_getElem? hg) hg1]
      · refine ⟨0, fun i g hg => absurd ⟨g, mem_of_getElem? hg⟩ hex, fun a ha => ?_⟩
        -- an added group was compared with column group 0
        obtain ⟨newCg, -, -, hzero⟩ := validateAdded_ok hadd _ ha
        rcases hzero with hzero | ⟨g, rest, hzero, -⟩
        · exact absurd hzero hnil
        · exact absurd ⟨g, hzero ▸ mem_cons_self⟩ hex
  · rw [hgroups, ← ColumnGroups.deref_append, rowAligned_deref, Updates.RowsBalanced, if_pos hnil]
    simp [hσ', rows_withFiles_pushAll]

/-- A table of ten rows with the column `id`. -/
def tenRows : Manifest := { columnGroups := [.own ⟨["id"], "parquet", [⟨"a.parquet", 0, 10, []⟩]⟩] }

/-- Two groups of a caller: five more rows of `id`, and ten rows of the new column `vector`. -/
def fiveAndTenRows : Store
  | 0 => ⟨["id"], "parquet", [⟨"b.parquet", 0, 5, []⟩]⟩
  | _ => ⟨["vector"], "parquet", [⟨"c.parquet", 0, 10, []⟩]⟩

theorem rowAligned_tenRows : RowAligned (tenRows.groups fiveAndTenRows) := by
  intro g g' hg hg'
  simp only [Manifest.groups, tenRows, copyColumnGroups, map_cons, map_nil,
    Slot.get_own, mem_singleton, Option.some.injEq] at hg hg'
  rw [hg, hg']

/-- Adding the new column alone. -/
theorem applyUpdates_rowAligned_iff_add_vector : RowAligned (tenRows.groups fiveAndTenRows) ∧
      (RowAligned (Manifest.groups fiveAndTenRows
          { tenRows with columnGroups := tenRows.columnGroups ++ [.shared 1] }) ↔
        Updates.RowsBalanced fiveAndTenRows (tenRows.groups fiveAndTenRows)
          { addedColumnGroups := [some 1] }) :=
  ⟨rowAligned_tenRows, applyUpdates_rowAligned_iff rowAligned_tenRows rfl⟩

/-- Appending rows and adding a column in one transaction: the added group is compared with the
rows of the table before the append. -/
theorem applyUpdates_append_and_add : RowAligned (tenRows.groups fiveAndTenRows) ∧
      ∃ σ' m', applyUpdates fiveAndTenRows tenRows
          { appendedFiles := [[some 0]], addedColumnGroups := [some 1] } = .ok (σ', m') ∧
        ¬ RowAligned (m'.groups σ') := by
  refine ⟨rowAligned_tenRows, fiveAndTenRows,
    { columnGroups := [.own ⟨["id"], "parquet", [⟨"a.parquet", 0, 10, []⟩,
        ⟨"b.parquet", 0, 5, []⟩]⟩, .shared 1] }, rfl, fun hal => ?_⟩
  have := hal _ (fiveAndTenRows 1) mem_cons_self (by decide)
  revert this
  decide

end MilvusStorage
