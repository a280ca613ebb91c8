import MilvusStorage.Foundations.Keyed
import MilvusStorage.Transaction.Phases

/-!
# Indexes across updates

`applyUpdates` filters the indexes of the base manifest three times, by the dropped columns, by the
columns that get a file and by the dropped ids, and then adds the new ones. An added index replaces
the one with its identity: its id if it has one, its column and type otherwise. What is left of the
base and what is left of the added indexes is `indexes_of_applyUpdates`.
-/

namespace MilvusStorage

open List

/-! ## Identity -/

/-- What an added index has in common with the one it replaces. -/
def Index.identity (idx : Index) : ℤ × Option (String × String) :=
  if idx.indexId ≠ 0 then (idx.indexId, none) else (0, some (idx.columnName, idx.indexType))

theorem replacesIndex_eq (newIdx idx : Index) :
    replacesIndex newIdx idx = decide (idx.identity = newIdx.identity) := by
  rw [replacesIndex, Index.identity, Index.identity]
  by_cases hnew : newIdx.indexId = 0
  · by_cases hold : idx.indexId = 0 <;> simp [hnew, hold]
  · by_cases hold : idx.indexId = 0
    · simp [hnew, hold, Ne.symm hnew]
    · simp [hnew, hold]

theorem addIndex_eq (indexes : List Index) (newIdx : Index) :
    addIndex indexes newIdx = Keyed.put Index.identity indexes newIdx := by
  simp [addIndex, Keyed.put, Keyed.erase, replacesIndex_eq]

/-- Non-zero ids are distinct, and there is at most one index without an id for a column and a
type. -/
structure UniqueIndexes (indexes : List Index) : Prop where
  ids : indexes.Pairwise fun a b => a.indexId ≠ 0 → a.indexId ≠ b.indexId
  types : indexes.Pairwise fun a b => a.indexId = 0 → b.indexId = 0 →
    (a.columnName, a.indexType) ≠ (b.columnName, b.indexType)

theorem uniqueIndexes_iff {indexes : List Index} :
    UniqueIndexes indexes ↔ (indexes.map Index.identity).Nodup := by
  have hne : ∀ a b : Index, a.identity ≠ b.identity ↔ (a.indexId ≠ 0 → a.indexId ≠ b.indexId) ∧
      (a.indexId = 0 → b.indexId = 0 →
        (a.columnName, a.indexType) ≠ (b.columnName, b.indexType)) := by
    intro a b
    rw [Index.identity, Index.identity]
    by_cases ha : a.indexId = 0
    · by_cases hb : b.indexId = 0
      · simp [ha, hb]
      · simp [ha, hb]
    · by_cases hb : b.indexId = 0 <;> simp [ha, hb]
  rw [Nodup, pairwise_map]
  simp only [hne, pairwise_and_iff]
  exact ⟨fun h => ⟨h.ids, h.types⟩, fun h => ⟨h.1, h.2⟩⟩

/-! ## The indexes of the result -/

theorem indexes_of_dropColumns {colNames : List String} {cgs cgs' : List (Option ColumnGroup)}
    {indexes indexes' : List Index}
    (h : dropColumns colNames cgs indexes = .ok (cgs', indexes')) :
    indexes' = indexes.filter fun idx => idx.columnName ∉ colNames := by
  induction colNames generalizing cgs indexes with
  | nil =>
    simp only [dropColumns, Except.ok.injEq, Prod.mk.injEq] at h
    simp [h.2]
  | cons c cs ih =>
    simp only [dropColumns, Except.bind_eq_ok] at h
    obtain ⟨⟨cgs1, indexes1⟩, h1, h2⟩ := h
    rw [dropColumn] at h1
    split_ifs at h1
    simp only [Except.ok.injEq, Prod.mk.injEq] at h1
    rw [ih h2, ← h1.2]
    exact Keyed.filter_erase Index.columnName c cs indexes

theorem mem_affectedColumns {appended : List (List (Option ColumnGroup))} {column : String} :
    column ∈ affectedColumns appended ↔
      ∃ cgs ∈ appended, ∃ g, some g ∈ cgs ∧ g.files ≠ [] ∧ column ∈ g.columns := by
  simp only [affectedColumns, mem_flatMap, mem_flatten]
  constructor
  · rintro ⟨cg, ⟨cgs, hcgs, hcg⟩, hmem⟩
    cases cg with
    | none => cases hmem
    | some g =>
      dsimp only at hmem
      split_ifs at hmem with hfiles
      · cases hmem
      · exact ⟨cgs, hcgs, g, hcg, hfiles, hmem⟩
  · rintro ⟨cgs, hcgs, g, hcg, hfiles, hmem⟩
    exact ⟨some g, ⟨cgs, hcgs, hcg⟩, by simpa [hfiles] using hmem⟩

/-- Neither the column of an index nor its id is dropped, and its column gets no file. -/
def Updates.Keeps (u : Updates) (σ : Store) (idx : Index) : Prop :=
  idx.columnName ∉ u.droppedColumns ∧
  (∀ cgs ∈ u.appendedFiles, ∀ g, some g ∈ ColumnGroups.deref σ cgs → g.files ≠ [] →
    idx.columnName ∉ g.columns) ∧
  idx.indexId ∉ u.droppedIndexes

/-- The new indexes are added to what is left of those of the base. -/
theorem indexes_of_applyUpdates {σ σ' : Store} {m m' : Manifest} {u : Updates}
    (h : applyUpdates σ m u = .ok (σ', m')) :
    ∃ base, m'.indexes = u.addedIndexes.foldl (Keyed.put Index.identity) base ∧
      base.Sublist m.indexes ∧ ∀ idx ∈ base, u.Keeps σ idx := by
  simp only [applyUpdates, prepare, install, Except.bind_eq_ok, Except.pure_eq_ok_iff] at h
  obtain ⟨_, ⟨⟨cgs, indexes⟩, hdrop, -, -, -, -, rfl⟩, ⟨_, _⟩, -, hres⟩ := h
  rw [← (Prod.mk.inj hres).2]
  have hadd : addIndex = Keyed.put Index.identity := funext₂ addIndex_eq
  have hdropIndex := Keyed.foldl_erase Index.indexId u.droppedIndexes
  simp only [Keyed.erase] at hdropIndex
  simp only [resolveIndexes, hadd, hdropIndex, indexes_of_dropColumns hdrop]
  refine ⟨_, rfl, filter_sublist.trans (filter_sublist.trans filter_sublist), fun idx hidx => ?_⟩
  · simp only [mem_filter, decide_eq_true_eq, mem_affectedColumns] at hidx
    obtain ⟨⟨⟨-, hcol⟩, haffected⟩, hid⟩ := hidx
    refine ⟨hcol, fun cgs hcgs g hg hfiles hmem => haffected ?_, hid⟩
    exact ⟨_, mem_map_of_mem hcgs, g, hg, hfiles, hmem⟩

/-- **Indexes stay valid and unique.** What is left of the base was not touched by the updates, and
the last index added with an identity is there. -/
theorem applyUpdates_indexes {σ σ' : Store} {m m' : Manifest} {u : Updates}
    (h : applyUpdates σ m u = .ok (σ', m')) (hunique : UniqueIndexes m.indexes) :
    UniqueIndexes m'.indexes ∧
    (∃ kept added, m'.indexes = kept ++ added ∧ kept.Sublist m.indexes ∧
      added.Sublist u.addedIndexes ∧
      ∀ idx ∈ kept, u.Keeps σ idx ∧
        (idx.indexId ≠ 0 → ∀ newIdx ∈ u.addedIndexes, newIdx.indexId ≠ idx.indexId)) ∧
    ∀ before newIdx after, u.addedIndexes = before ++ newIdx :: after →
      (∀ later ∈ after, later.identity ≠ newIdx.identity) → newIdx ∈ m'.indexes := by
  obtain ⟨base, hindexes, hbase, hkeeps⟩ := indexes_of_applyUpdates h
  refine ⟨?_, ⟨_, _, hindexes.trans (Keyed.foldl_put _ _ _), filter_sublist.trans hbase,
    Keyed.latest_sublist _ _, fun idx hidx => ?_⟩, ?_⟩
  · rw [uniqueIndexes_iff] at hunique ⊢
    rw [hindexes]
    exact Keyed.nodup_foldl_put _ (hunique.sublist (hbase.map _)) _
  · simp only [mem_filter, decide_eq_true_eq] at hidx
    refine ⟨hkeeps idx hidx.1, fun hne newIdx hnew heq => hidx.2 ?_⟩
    exact mem_map.mpr ⟨newIdx, hnew, by simp [Index.identity, heq, hne]⟩
  · intro before newIdx after hadded hlast
    rw [hindexes, Keyed.foldl_put, hadded]
    refine mem_append_right _ (Keyed.mem_latest _ ?_)
    simpa using hlast

/-- A table with two indexes on one column. -/
def vectorIndexes : Manifest :=
  { indexes := [{ columnName := "vector", indexType := "hnsw", indexId := 1 },
      { columnName := "vector", indexType := "flat" }] }

/-- Index 1 is replaced, and index 2 is added twice. -/
def vectorUpdates : Updates :=
  { addedIndexes := [{ columnName := "id", indexType := "sort", indexId := 2 },
      { columnName := "vector", indexType := "ivf", indexId := 1 },
      { columnName := "id", indexType := "bitmap", indexId := 2 }] }

theorem applyUpdates_indexes_vector : ∃ σ' m',
    applyUpdates (fun _ => ⟨[], "parquet", []⟩) vectorIndexes vectorUpdates = .ok (σ', m') ∧
      UniqueIndexes m'.indexes := by
  have hunique : UniqueIndexes vectorIndexes.indexes := ⟨by decide, by decide⟩
  obtain ⟨⟨σ', m'⟩, h⟩ : ∃ result,
      applyUpdates (fun _ => ⟨[], "parquet", []⟩) vectorIndexes vectorUpdates = .ok result :=
        ⟨_, rfl⟩
  exact ⟨σ', m', h, (applyUpdates_indexes h hunique).1⟩

end MilvusStorage
