import MilvusStorage.Take.Sync

/-!
# The columns of a take

A projection selects the groups that hold a needed column, or the first group if none does
(`requiredColumnGroups_ok`). `build_take_table` takes each needed column from the table of its group
and fills it with nulls if there is no such group (`buildTakeTable_ok`).
-/

namespace MilvusStorage.Take

open List Format

variable {V : Type}

/-- No column is in two groups. -/
def DisjointColumns (gs : List ColumnGroup) : Prop :=
  gs.Pairwise fun g g' => List.Disjoint g.columns g'.columns

/-- Some group holds the column. -/
def Stored (gs : List ColumnGroup) (name : String) : Prop := ∃ g ∈ gs, name ∈ g.columns

variable {name : String} {g : ColumnGroup}

theorem DisjointColumns.eq {gs : List ColumnGroup} (h : DisjointColumns gs) {g' : ColumnGroup}
    (hg : g ∈ gs) (hg' : g' ∈ gs) (hname : name ∈ g.columns) (hname' : name ∈ g'.columns) :
    g = g' := by
  by_contra hne
  have : Std.Symm fun g g' : ColumnGroup => List.Disjoint g.columns g'.columns :=
    ⟨fun _ _ h => h.symm⟩
  exact h.forall hg hg' hne hname hname'

/-! ## The needed columns -/

variable {resolved : List String}

theorem hasField_of_resolve {R : ReaderImpl} {neededColumns : Option (List String)}
    (h : R.resolveNeededColumns neededColumns = .ok resolved) {schema : List String}
    (hschema : R.schema = some schema) (hname : name ∈ resolved) : hasField schema name = true := by
  unfold ReaderImpl.resolveNeededColumns at h
  split at h
  · cases h
  · dsimp only at h
    split at h
    · cases h
    · rename_i hfind
      cases h
      rw [hschema, Option.bind_some, find?_eq_none] at hfind
      simpa using hfind name hname

/-! ## The groups -/

theorem nodup_eraseDups {α : Type} [DecidableEq α] (l : List α) : l.eraseDups.Nodup := by
  induction hn : l.length using Nat.strongRecOn generalizing l with
  | _ n ih =>
    cases l with
    | nil => exact nodup_nil
    | cons a l =>
      have hlen : (l.filter fun b => !b == a).length < n := by
        have := length_filter_le (fun b => !b == a) l
        rw [← hn, length_cons]
        omega
      rw [eraseDups_cons, nodup_cons]
      exact ⟨by simp, ih _ hlen _ rfl⟩

/-- What the groups that are read have to do with all groups. -/
structure Required (gs : List ColumnGroup) (resolved : List String) (groups : List ColumnGroup) :
    Prop where
  mem : ∀ g ∈ groups, g ∈ gs
  ne_nil : gs ≠ [] → groups ≠ []
  disjoint : DisjointColumns groups
  stored : ∀ name ∈ resolved, ∀ g ∈ gs, name ∈ g.columns → g ∈ groups
  /-- Every group that is read has a needed column, or it is the first group. -/
  needed : (∀ g ∈ groups, ∃ name ∈ resolved, name ∈ g.columns) ∨
    (∀ name ∈ resolved, ¬ Stored gs name) ∧ ∃ g, gs.head? = some g ∧ groups = [g]

section Groups

variable {R : ReaderImpl} {gs : List ColumnGroup} (hcgs : R.cgs = gs.map some)

include hcgs

theorem groupOfColumn_eq (name : String) :
    R.groupOfColumn name = gs.findIdx? fun g => name ∈ g.columns := by
  rw [ReaderImpl.groupOfColumn, hcgs, findIdx?_map]
  rfl

theorem columnGroupsFromIndices_ok (indices : List ℕ) (h : ∀ i ∈ indices, i < gs.length) :
    ∃ groups, R.columnGroupsFromIndices indices = .ok groups ∧
      Forall₂ (fun i g => gs[i]? = some g) indices groups := by
  have hstep : ∀ i ∈ indices, ∃ g, gs[i]? = some g := fun i hi =>
    ⟨_, getElem?_eq_getElem (h i hi)⟩
  obtain ⟨groups, hgroups⟩ : ∃ groups, R.columnGroupsFromIndices indices = .ok groups := by
    apply Except.exists_mapM_ok
    intro i hi
    obtain ⟨g, hg⟩ := hstep i hi
    exact ⟨g, by simp [hcgs, hg]⟩
  refine ⟨groups, hgroups, (Except.forall₂_of_mapM_ok hgroups).imp fun i g hig => ?_⟩
  rw [hcgs, getElem?_map] at hig
  cases hg : gs[i]? with
  | none =>
    rw [hg] at hig
    cases hig
  | some g' =>
    rw [hg] at hig
    rw [Except.ok.inj hig]

omit hcgs in
theorem disjointColumns_of_nodup (hdisj : DisjointColumns gs) {indices : List ℕ}
    (hnodup : indices.Nodup) {groups : List ColumnGroup}
    (h : Forall₂ (fun i g => gs[i]? = some g) indices groups) : DisjointColumns groups := by
  induction h with
  | nil => exact Pairwise.nil
  | @cons i g indices groups hi hrest ih =>
    obtain ⟨hnot, hnodup⟩ := nodup_cons.mp hnodup
    refine pairwise_cons.mpr ⟨fun g' hg' => ?_, ih hnodup⟩
    obtain ⟨j, hmem, hj⟩ := hrest.exists_left hg'
    have hne : i ≠ j := fun heq => hnot (heq ▸ hmem)
    obtain hlt | hgt := lt_or_gt_of_ne hne
    · exact hdisj.rel_of_getElem? hi hj hlt
    · exact (hdisj.rel_of_getElem? hj hi hgt).symm

omit hcgs in
theorem mem_of_forall₂ {indices : List ℕ} {groups : List ColumnGroup}
    (h : Forall₂ (fun i g => gs[i]? = some g) indices groups) :
    g ∈ groups ↔ ∃ i ∈ indices, gs[i]? = some g := by
  induction h with
  | nil => simp
  | cons hi _ ih => simp [ih, hi, eq_comm]

/-- **The groups that are read.** -/
theorem requiredColumnGroups_ok (hdisj : DisjointColumns gs) (resolved : List String) :
    ∃ groups, R.requiredColumnGroups resolved = .ok groups ∧ Required gs resolved groups := by
  have hidx : ∀ i, i ∈ resolved.filterMap R.groupOfColumn ↔
      ∃ name ∈ resolved, gs.findIdx? (fun g => name ∈ g.columns) = some i := by
    intro i
    simp [groupOfColumn_eq hcgs]
  have hfind : ∀ {name i}, gs.findIdx? (fun g => name ∈ g.columns) = some i →
      ∃ g, gs[i]? = some g ∧ name ∈ g.columns := by
    intro name i hi
    obtain ⟨hlt, hname, -⟩ := findIdx?_eq_some_iff_getElem.mp hi
    exact ⟨_, getElem?_eq_getElem hlt, of_decide_eq_true hname⟩
  rw [ReaderImpl.requiredColumnGroups, ReaderImpl.collectRequiredColumnGroupIndices]
  split
  · -- no group has any of the columns
    rename_i hnil
    have hnot : ∀ name ∈ resolved, ¬ Stored gs name := by
      rintro name hname ⟨g, hg, hmem⟩
      cases hi : gs.findIdx? fun g => name ∈ g.columns with
      | none =>
        have := findIdx?_eq_none_iff.mp hi g hg
        exact absurd hmem (by simpa using this)
      | some i =>
        have hmem := mem_eraseDups.mpr ((hidx i).mpr ⟨name, hname, hi⟩)
        rw [hnil] at hmem
        cases hmem
    cases gs with
    | nil =>
      refine ⟨[], by rw [hcgs]; rfl, ?_, fun h => absurd rfl h, Pairwise.nil, ?_, .inl ?_⟩
      all_goals simp
    | cons g gs =>
      refine ⟨[g], by rw [hcgs]; simp [ReaderImpl.columnGroupsFromIndices, hcgs], by simp,
        by simp, pairwise_singleton _ _, fun name hname g' hg' hmem => ?_,
        .inr ⟨hnot, g, rfl, rfl⟩⟩
      exact absurd ⟨g', hg', hmem⟩ (hnot name hname)
  · rename_i indices hne
    obtain ⟨groups, hgroups, hforall⟩ := columnGroupsFromIndices_ok hcgs
      (resolved.filterMap R.groupOfColumn).eraseDups (by
        intro i hi
        obtain ⟨name, -, hi⟩ := (hidx i).mp (mem_eraseDups.mp hi)
        obtain ⟨g, hg, -⟩ := hfind hi
        exact lt_of_getElem? hg)
    have hmem : ∀ g, g ∈ groups ↔ ∃ name ∈ resolved, ∃ i,
        gs.findIdx? (fun g => name ∈ g.columns) = some i ∧ gs[i]? = some g := by
      intro g
      rw [mem_of_forall₂ hforall]
      simp only [mem_eraseDups, hidx]
      exact ⟨fun ⟨i, ⟨name, hname, hi⟩, hg⟩ => ⟨name, hname, i, hi, hg⟩,
        fun ⟨name, hname, i, hi, hg⟩ => ⟨i, ⟨name, hname, hi⟩, hg⟩⟩
    refine ⟨groups, hgroups, fun g hg => ?_, fun _ hnil => ?_,
      disjointColumns_of_nodup hdisj (nodup_eraseDups _) hforall,
      fun name hname g hg hcol => ?_, .inl fun g hg => ?_⟩
    · obtain ⟨name, -, i, -, hi⟩ := (hmem g).mp hg
      exact mem_of_getElem? hi
    · rw [hnil, forall₂_nil_right_iff] at hforall
      exact hne hforall
    · cases hi : gs.findIdx? fun g => name ∈ g.columns with
      | none =>
        have := findIdx?_eq_none_iff.mp hi g hg
        exact absurd hcol (by simpa using this)
      | some i =>
        obtain ⟨g', hg', hcol'⟩ := hfind hi
        obtain rfl := hdisj.eq (mem_of_getElem? hg') hg hcol' hcol
        exact (hmem g').mpr ⟨name, hname, i, hi, hg'⟩
    · obtain ⟨name, hname, i, hi, hg⟩ := (hmem g).mp hg
      obtain ⟨g', hg', hcol⟩ := hfind hi
      exact ⟨name, hname, Option.some.inj (hg'.symm.trans hg) ▸ hcol⟩

end Groups

/-! ## `build_take_table` -/

theorem checkRowCounts_ok {tables : List (Table V)} {count : ℕ}
    (h : ∀ t ∈ tables, t.numRows = count) {lastRowCounts : Option ℕ}
    (hlast : ∀ rows ∈ lastRowCounts, rows = count) :
    checkRowCounts lastRowCounts tables = .ok () := by
  induction tables generalizing lastRowCounts with
  | nil => rfl
  | cons t tables ih =>
    obtain ⟨ht, htables⟩ := forall_mem_cons.mp h
    have hany : (lastRowCounts.any fun rows => rows ≠ t.numRows) = false := by
      cases lastRowCounts with
      | none => rfl
      | some rows => simpa using (hlast rows rfl).trans ht.symm
    rw [checkRowCounts, hany]
    exact ih htables fun rows hrows => Option.mem_some.mp hrows ▸ ht

/-- The cells of a column: from the group that holds it, or nulls. -/
def columnCells (groups : List ColumnGroup) (rows : ColumnGroup → List (NamedRow V)) (numRows : ℕ)
    (name : String) : List (Option V) :=
  match groups.find? fun g => name ∈ g.columns with
  | some g => (rows g).map fun row => row name
  | none => List.replicate numRows none

section Build

variable {groups : List ColumnGroup} {tables : List (Table V)}
  {names : ColumnGroup → List String} {rows : ColumnGroup → List (NamedRow V)}
  (htables : Forall₂ (fun g t => t.content = tabulate (names g) (rows g)) groups tables)
  (hnames : ∀ g ∈ groups, ∀ name ∈ names g, name ∈ g.columns)

include htables

/-- The columns of the tables are columns of the groups. -/
theorem mem_columns {chunks : ChunkedArray V} (h : (name, chunks) ∈ tables.flatMap Table.columns) :
    ∃ g ∈ groups, name ∈ names g ∧ chunks.flatten = (rows g).map fun row => row name := by
  obtain ⟨t, ht, hmem⟩ := mem_flatMap.mp h
  obtain ⟨g, hg, hcontent⟩ := htables.exists_left ht
  have hmem : (name, chunks.flatten) ∈ tabulate (names g) (rows g) :=
    hcontent ▸ mem_map.mpr ⟨_, hmem, rfl⟩
  obtain ⟨name', hname', heq⟩ := mem_map.mp hmem
  obtain ⟨rfl, hcells⟩ := Prod.mk.inj heq
  exact ⟨g, hg, hname', hcells.symm⟩

include hnames

variable {schema : Option (List String)}

/-- An output column. -/
theorem takeColumn_ok (hdisj : DisjointColumns groups)
    (hneeded : ∀ g ∈ groups, name ∈ g.columns → name ∈ names g)
    (hschema : (∀ g ∈ groups, name ∉ g.columns) → ∃ s, schema = some s ∧ hasField s name = true)
    (numRows : ℕ) : ∃ chunks, takeColumn tables numRows schema name = .ok (name, chunks) ∧
      chunks.flatten = columnCells groups rows numRows name := by
  unfold takeColumn columnCells
  cases hlookup : (tables.flatMap Table.columns).reverse.lookup name with
  | some chunks =>
    refine ⟨chunks, rfl, ?_⟩
    obtain ⟨l1, l2, hl, -⟩ := lookup_eq_some_iff.mp hlookup
    have hmem : (name, chunks) ∈ tables.flatMap Table.columns := by
      rw [← mem_reverse, hl]
      simp
    obtain ⟨g, hg, hname, hcells⟩ := mem_columns htables hmem
    cases hfind : groups.find? fun g => name ∈ g.columns with
    | none => exact absurd (hnames g hg name hname) (by simpa using find?_eq_none.mp hfind g hg)
    | some g' =>
      have hg' := mem_of_find?_eq_some hfind
      have hname' : name ∈ g'.columns := by simpa using find?_some hfind
      obtain rfl := hdisj.eq hg hg' (hnames g hg name hname) hname'
      exact hcells
  | none =>
    -- no table has the column, so no group has it
    have hnot : ∀ g ∈ groups, name ∉ g.columns := by
      intro g hg hcol
      obtain ⟨t, ht, hcontent⟩ := htables.exists_right hg
      have hmem : name ∈ t.fields := by
        rw [Table.fields_eq hcontent]
        exact hneeded g hg hcol
      obtain ⟨column, hcols, rfl⟩ := mem_map.mp hmem
      have := lookup_eq_none_iff.mp hlookup column
        (mem_reverse.mpr (mem_flatMap.mpr ⟨t, ht, hcols⟩))
      simp at this
    have hfind : groups.find? (fun g => name ∈ g.columns) = none := by
      rw [find?_eq_none]
      intro g hg
      simpa using hnot g hg
    obtain ⟨s, rfl, hfield⟩ := hschema hnot
    exact ⟨[replicate numRows none], by simp [hfield], by simp [hfind]⟩

/-- **The table of a take.** -/
theorem buildTakeTable_ok (hdisj : DisjointColumns groups)
    (hneeded : ∀ g ∈ groups, ∀ name ∈ resolved, name ∈ g.columns → name ∈ names g) {count : ℕ}
    (hcount : ∀ t ∈ tables, t.numRows = count)
    (hschema : ∀ name ∈ resolved, (∀ g ∈ groups, name ∉ g.columns) →
      ∃ s, schema = some s ∧ hasField s name = true) (rowIndices : List ℤ) :
    ∃ t, buildTakeTable tables rowIndices resolved schema = .ok t ∧
      t.numRows = rowIndices.length ∧ t.content =
        resolved.map fun name => (name, columnCells groups rows rowIndices.length name) := by
  have hcol : ∀ name ∈ resolved, ∃ chunks,
      takeColumn tables rowIndices.length schema name = .ok (name, chunks) ∧
        chunks.flatten = columnCells groups rows rowIndices.length name := fun name hname =>
    takeColumn_ok htables hnames hdisj (fun g hg => hneeded g hg name hname)
      (hschema name hname) rowIndices.length
  choose! chunks hchunks hcells using hcol
  refine ⟨⟨resolved.map fun name => (name, chunks name), rowIndices.length⟩, ?_, rfl, ?_⟩
  · rw [buildTakeTable, checkRowCounts_ok hcount (by simp), Except.ok_bind,
      Except.mapM_eq_ok_map hchunks]
    rfl
  · rw [Table.content, map_map]
    apply map_congr_left
    intro name hname
    rw [Function.comp_apply, hcells name hname]

end Build

end MilvusStorage.Take
