import MilvusStorage.Transaction.Append

/-!
# Well-formed column groups

A table's column groups are well formed when none is null, none is without columns and no column
name occurs twice, in one group or in two. The validation in `applyUpdates` compares each added
group with the groups of the base and with nothing else. So the result of a successful call on a
well-formed base is well formed exactly when the groups the updates bring in are well formed taken
together (`applyUpdates_wellFormed_iff`), which nothing checks.
-/

namespace MilvusStorage

open List

/-- All column names of a list of groups, group by group. -/
def columnNames (gs : List (Option ColumnGroup)) : List String :=
  gs.flatMap fun cg => cg.elim [] ColumnGroup.columns

/-- No group is null or without columns, and no column name occurs in two groups or twice in a
group. -/
structure WellFormed (gs : List (Option ColumnGroup)) : Prop where
  notNull : none ∉ gs
  hasColumns : ∀ cg ∈ gs, ∀ g ∈ cg, g.columns ≠ []
  columnsNodup : (columnNames gs).Nodup

instance (gs : List (Option ColumnGroup)) : Decidable (WellFormed gs) :=
  decidable_of_iff ((∀ cg ∈ gs, cg ≠ none) ∧ (∀ cg ∈ gs, ∀ g ∈ cg, g.columns ≠ []) ∧
      (columnNames gs).Nodup)
    ⟨fun ⟨h₁, h₂, h₃⟩ => ⟨fun h => h₁ none h rfl, h₂, h₃⟩,
      fun h => ⟨fun _ hcg => ne_of_mem_of_not_mem hcg h.notNull, h.hasColumns, h.columnsNodup⟩⟩

@[simp] theorem columnNames_nil : columnNames [] = [] := rfl

@[simp] theorem columnNames_append (gs gs' : List (Option ColumnGroup)) :
    columnNames (gs ++ gs') = columnNames gs ++ columnNames gs' := by
  simp [columnNames]

variable {gs : List (Option ColumnGroup)}

theorem mem_columnNames {c : String} : c ∈ columnNames gs ↔ ∃ g, some g ∈ gs ∧ c ∈ g.columns := by
  simp only [columnNames, mem_flatMap]
  constructor
  · rintro ⟨cg, hcg, hc⟩
    cases cg with
    | none => simp at hc
    | some g => exact ⟨g, hcg, hc⟩
  · rintro ⟨g, hg, hc⟩
    exact ⟨some g, hg, hc⟩

/-! ## Well-formedness and the phases -/

variable {gs' : List (Option ColumnGroup)}

/-- Well-formedness only looks at the shapes. -/
theorem wellFormed_congr (h : shapes gs = shapes gs') : WellFormed gs ↔ WellFormed gs' := by
  have hcols : gs.map (Option.map ColumnGroup.columns) =
      gs'.map (Option.map ColumnGroup.columns) := by
    have := congrArg (map (Option.map Prod.fst)) h
    simpa [shapes, Function.comp_def, ColumnGroup.shape] using this
  have key : ∀ l : List (Option ColumnGroup), WellFormed l ↔
      none ∉ l.map (Option.map ColumnGroup.columns) ∧
        (∀ cs ∈ l.map (Option.map ColumnGroup.columns), ∀ c ∈ cs, c ≠ []) ∧
        ((l.map (Option.map ColumnGroup.columns)).flatMap (·.elim [] id)).Nodup := by
    intro l
    have hnames : (l.map (Option.map ColumnGroup.columns)).flatMap (·.elim [] id) =
        columnNames l := by
      rw [flatMap_map]
      congr 1
      funext cg
      cases cg <;> rfl
    rw [hnames]
    constructor
    · rintro ⟨h₁, h₂, h₃⟩
      refine ⟨by simpa using h₁, ?_, h₃⟩
      intro cs hcs c hc
      obtain ⟨cg, hcg, rfl⟩ := mem_map.mp hcs
      obtain ⟨g, rfl, rfl⟩ := Option.map_eq_some_iff.mp hc
      exact h₂ _ hcg g rfl
    · rintro ⟨h₁, h₂, h₃⟩
      refine ⟨by simpa using h₁, ?_, h₃⟩
      intro cg hcg g hg
      exact h₂ _ (mem_map_of_mem hcg) g.columns (by rw [Option.mem_def.mp hg]; rfl)
  rw [key, key, hcols]

theorem wellFormed_append : WellFormed (gs ++ gs') ↔
      WellFormed gs ∧ WellFormed gs' ∧ (columnNames gs).Disjoint (columnNames gs') := by
  constructor
  · rintro ⟨h₁, h₂, h₃⟩
    rw [columnNames_append, nodup_append'] at h₃
    simp only [mem_append, not_or] at h₁
    exact ⟨⟨h₁.1, fun cg hcg => h₂ cg (mem_append_left _ hcg), h₃.1⟩,
      ⟨h₁.2, fun cg hcg => h₂ cg (mem_append_right _ hcg), h₃.2.1⟩, h₃.2.2⟩
  · rintro ⟨⟨h₁, h₂, h₃⟩, ⟨h1', h2', h3'⟩, hdis⟩
    refine ⟨by simp [h₁, h1'], ?_, ?_⟩
    · intro cg hcg
      rcases mem_append.mp hcg with hcg | hcg
      · exact h₂ cg hcg
      · exact h2' cg hcg
    · rw [columnNames_append, nodup_append']
      exact ⟨h₃, h3', hdis⟩

private theorem columnNames_survivors_sublist (cols : List String)
    (gs : List (Option ColumnGroup)) :
    (columnNames (survivors cols gs)).Sublist (columnNames gs) := by
  by_cases hc : cols = []
  · simp [survivors, hc]
  · simp only [survivors, if_neg hc]
    induction gs with
    | nil => exact List.Sublist.refl _
    | cons cg gs ih =>
      have hcons : columnNames (cg :: gs) = cg.elim [] ColumnGroup.columns ++ columnNames gs := rfl
      rw [hcons]
      cases cg with
      | none => simpa using ih
      | some g =>
        rw [map_cons, filter_cons]
        split_ifs
        · exact List.Sublist.append filter_sublist ih
        · exact ih.trans (sublist_append_right _ _)

/-- What the drops leave of well-formed groups is well formed. -/
theorem WellFormed.survivors (h : WellFormed gs) (cols : List String) :
    WellFormed (survivors cols gs) := by
  refine ⟨?_, ?_, h.columnsNodup.sublist (columnNames_survivors_sublist cols gs)⟩
  · by_cases hc : cols = []
    · simpa [MilvusStorage.survivors, hc] using h.notNull
    · intro hnone
      obtain ⟨g, -, heq, -⟩ := (mem_survivors hc).1 hnone
      cases heq
  · by_cases hc : cols = []
    · simpa [MilvusStorage.survivors, hc] using h.hasColumns
    · intro cg hcg g hg
      obtain ⟨g', -, rfl, hne⟩ := (mem_survivors hc).1 hcg
      cases hg
      exact hne

/-- Of well-formed groups nothing is left exactly when every column is dropped. -/
theorem WellFormed.survivors_eq_nil (h : WellFormed gs) (cols : List String) :
    MilvusStorage.survivors cols gs = [] ↔ ∀ c ∈ columnNames gs, c ∈ cols := by
  by_cases hc : cols = []
  · subst hc
    constructor
    · rintro rfl
      simp
    · intro hall
      cases gs with
      | nil => rfl
      | cons cg gs =>
        cases cg with
        | none => exact absurd mem_cons_self h.notNull
        | some g =>
          obtain ⟨c, hcg⟩ := exists_mem_of_ne_nil _ (h.hasColumns _ mem_cons_self g rfl)
          exact absurd (hall c (mem_columnNames.mpr ⟨g, mem_cons_self, hcg⟩)) (by simp)
  · rw [eq_nil_iff_forall_not_mem]
    constructor
    · intro hnone c hcol
      obtain ⟨g, hg, hcg⟩ := mem_columnNames.mp hcol
      by_contra hnot
      refine hnone _ ((mem_survivors hc).2 ⟨g, hg, rfl, ?_⟩)
      intro hemp
      have : c ∈ (g.eraseColumns cols).columns := mem_filter.mpr ⟨hcg, by simpa using hnot⟩
      simp [hemp] at this
    · intro hall cg hcg
      obtain ⟨g, hg, -, hne⟩ := (mem_survivors hc).1 hcg
      obtain ⟨c, hc'⟩ := exists_mem_of_ne_nil _ hne
      obtain ⟨hcg', hnot⟩ := mem_filter.mp hc'
      exact absurd (hall c (mem_columnNames.mpr ⟨g, hg, hcg'⟩)) (by simpa using hnot)

/-! ## The groups the updates bring in -/

/-- The groups that are new to the table: the added ones and, when every column of the base is
dropped, the appended list the table adopts. -/
def Updates.newGroups (σ : Store) (base : List (Option ColumnGroup)) (u : Updates) :
    List (Option ColumnGroup) :=
  (if ∀ c ∈ columnNames base, c ∈ u.droppedColumns then ColumnGroups.deref σ u.adopted else []) ++
    ColumnGroups.deref σ u.addedColumnGroups

/-- **When `applyUpdates` preserves well-formedness**: a successful call on a well-formed base
gives well-formed groups if and only if the new groups are well formed taken together. -/
theorem applyUpdates_wellFormed_iff {σ σ' : Store} {m m' : Manifest} {u : Updates}
    (hwf : WellFormed (m.groups σ)) (h : applyUpdates σ m u = .ok (σ', m')) :
    WellFormed (m'.groups σ') ↔ WellFormed (u.newGroups σ (m.groups σ)) := by
  rw [wellFormed_congr (shapes_applyUpdates h)]
  simp only [startGroups, Updates.newGroups, ← hwf.survivors_eq_nil u.droppedColumns]
  split_ifs with hnil
  · rfl
  · rw [wellFormed_append]
    refine ⟨fun hw => hw.2.1, fun hw => ⟨hwf.survivors _, hw, ?_⟩⟩
    -- the validation kept the added columns apart from the surviving ones
    obtain ⟨slots, ⟨-, hadd, -⟩, -⟩ := applyUpdates_ok h
    intro c hc hc'
    obtain ⟨g, hg, hcg⟩ := mem_columnNames.mp hc
    obtain ⟨g', hg', hcg'⟩ := mem_columnNames.mp hc'
    obtain ⟨newCg, heq, hnew, -⟩ := validateAdded_ok hadd _ hg'
    cases heq
    obtain ⟨g'', heq', hnot⟩ := hnew c hcg' _ hg
    cases heq'
    exact hnot hcg

/-- A table with the column `id` and no rows. -/
def idTable : Manifest := { columnGroups := [.own ⟨["id"], "parquet", []⟩] }

/-- Groups that all hold the column `vector` and no rows. -/
def vectorGroups : Store := fun _ => ⟨["vector"], "parquet", []⟩

/-- Adding one group with a new column to a table. -/
theorem applyUpdates_wellFormed_iff_add_vector : WellFormed (idTable.groups vectorGroups) ∧
      (WellFormed (Manifest.groups vectorGroups
          { idTable with columnGroups := idTable.columnGroups ++ [.shared 0] }) ↔
        WellFormed (Updates.newGroups vectorGroups (idTable.groups vectorGroups)
          { addedColumnGroups := [some 0] })) :=
  ⟨by decide, applyUpdates_wellFormed_iff (by decide) rfl⟩

/-- Two added groups are not compared with each other: both bring the column `vector`. -/
theorem applyUpdates_add_vector_twice : WellFormed (idTable.groups vectorGroups) ∧
      ∃ σ' m', applyUpdates vectorGroups idTable { addedColumnGroups := [some 0, some 1] } =
        .ok (σ', m') ∧ ¬ WellFormed (m'.groups σ') :=
  ⟨by decide, vectorGroups,
    { idTable with columnGroups := idTable.columnGroups ++ [.shared 0, .shared 1] }, rfl, by decide⟩

/-- The columns that the drops leave. -/
theorem mem_columnNames_survivors {c : String} (cols : List String)
    (gs : List (Option ColumnGroup)) :
    c ∈ columnNames (survivors cols gs) ↔ c ∈ columnNames gs ∧ c ∉ cols := by
  by_cases hcols : cols = []
  · simp [survivors, hcols]
  · simp only [mem_columnNames, mem_survivors hcols]
    constructor
    · rintro ⟨_, ⟨g, hg, heq, -⟩, hc⟩
      cases heq
      obtain ⟨hc, hnot⟩ := mem_filter.mp hc
      exact ⟨⟨g, hg, hc⟩, by simpa using hnot⟩
    · rintro ⟨⟨g, hg, hc⟩, hnot⟩
      have hmem : c ∈ (g.eraseColumns cols).columns := mem_filter.mpr ⟨hc, by simpa using hnot⟩
      exact ⟨_, ⟨g, hg, rfl, ne_nil_of_mem hmem⟩, hmem⟩

/-- **The columns of the result** of a successful `applyUpdates` are those of the base that are not
dropped and those of the new groups. -/
theorem applyUpdates_columns {σ σ' : Store} {m m' : Manifest} {u : Updates}
    (hwf : WellFormed (m.groups σ)) (h : applyUpdates σ m u = .ok (σ', m')) (c : String) :
    c ∈ columnNames (m'.groups σ') ↔ c ∈ columnNames (m.groups σ) ∧ c ∉ u.droppedColumns ∨
      c ∈ columnNames (u.newGroups σ (m.groups σ)) := by
  have hnames : ∀ gs, columnNames gs = (shapes gs).flatMap fun s => s.elim [] Prod.fst := by
    intro gs
    rw [shapes, columnNames, flatMap_map]
    congr 1
    funext cg
    cases cg <;> rfl
  rw [hnames, shapes_applyUpdates h, ← hnames]
  rw [Updates.newGroups]
  simp only [startGroups, ← hwf.survivors_eq_nil u.droppedColumns]
  rw [← mem_columnNames_survivors]
  split_ifs with hnil
  · simp [hnil]
  · simp

theorem applyUpdates_columns_add_vector : ∃ σ m, applyUpdates vectorGroups idTable
    { addedColumnGroups := [some 0] } = .ok (σ, m) ∧ "vector" ∈ columnNames (m.groups σ) :=
  ⟨_, _, rfl, (applyUpdates_columns (σ := vectorGroups) (m := idTable)
    (u := { addedColumnGroups := [some 0] }) (by decide) rfl _).mpr (by decide)⟩

end MilvusStorage
