import MilvusStorage.Foundations.Runs
import MilvusStorage.Writer.Advances

/-!
# Aligned column groups

The writer is `Aligned` if the `i`-th group writer was created for the `i`-th group and holds the
parts of the batches that have been accepted. The invariant `Sound` of a session says that the
writer is closed, or `Blank` (no group writer has been created), or aligned.
-/

namespace MilvusStorage.Writer

open List Command

variable {V P : Type} {env : Environment V} {config : Config} {policy : ColumnGroupPolicy V P}
  {intact : Prop}

/-! ## Groups that partition the schema -/

variable {w : WriterImpl V P} {schema : List String} {accepted : List (Batch V)}

theorem missingColumn_eq_none {columns : List String} (hnodup : schema.Nodup)
    (hsubset : columns ⊆ schema) : missingColumn schema columns = none := by
  rw [missingColumn, find?_eq_none]
  intro columnName hmem
  simpa using count_eq_one_of_mem hnodup (hsubset hmem)

namespace Partition

variable {schema : List String} {groups : List ColumnGroup} (h : Partition schema groups)
  (hnodup : schema.Nodup)

include h

variable {g : ColumnGroup}

theorem subset (hg : g ∈ groups) : g.columns ⊆ schema := fun _ hname =>
  h.perm.subset (mem_flatMap.mpr ⟨g, hg, hname⟩)

include hnodup

theorem nodup (hg : g ∈ groups) : g.columns.Nodup :=
  (nodup_flatMap.mp (h.perm.nodup_iff.mpr hnodup)).1 g hg

theorem missingColumn_schema (hg : g ∈ groups) : missingColumn schema g.columns = none :=
  missingColumn_eq_none hnodup (h.subset hg)

theorem missingColumn_columns (hg : g ∈ groups) : missingColumn g.columns g.columns = none :=
  missingColumn_eq_none (h.nodup hnodup hg) (List.Subset.refl _)

/-- The part of a batch for a group has the columns of the group. -/
theorem columnPositions_eq (hg : g ∈ groups) {batch : Batch V}
    (hbatch : batch.columns.length = schema.length) :
    columnPositions schema batch g = g.columns.map schema.idxOf := by
  rw [← filterMap_eq_map]
  apply filterMap_congr
  intro name hname
  have hmem := h.subset hg hname
  have hlt := idxOf_lt_length_of_mem hmem
  simp [getFieldIndex, count_eq_one_of_mem hnodup hmem, hbatch, hlt]

theorem reaches {batch : Batch V} (hbatch : batch.columns.length = schema.length) :
    Reaches schema groups batch := by
  intro g hg
  rw [h.columnPositions_eq hnodup hg hbatch]
  simpa using h.ne_nil g hg

end Partition

/-! ## The creation of the writers -/

/-- A writer that has been created for a group and holds nothing. -/
structure Fresh (gi : ColumnGroup × ℕ) (g : ColumnGroupWriter V) : Prop where
  columnGroupId_eq : g.columnGroupId = gi.2
  columnGroup_eq : g.columnGroup = gi.1
  no_missing : missingColumn g.columnGroup.columns g.columnGroup.columns = none
  closed_eq : g.formatWriter.closed = false
  contents_eq : g.contents = []

theorem createWriter_spec (k i : ℕ) (columnGroup : ColumnGroup) (w : WriterImpl V P) :
    Spec (· = w) (createWriter env config k columnGroup i)
      (fun _ w' => env.create k i = none ∧ ∃ σ g, Fresh (columnGroup, i) g ∧
        w' = { w with world := σ, columnGroupWriters := w.columnGroupWriters ++ [g] })
      (fun _ w' => (∃ σ, w' = { w with world := σ }) ∧
        (missingColumn config.schema columnGroup.columns = none →
          missingColumn columnGroup.columns columnGroup.columns = none →
          env.create k i ≠ none)) := by
  rintro w rfl
  simp only [createWriter, ColumnGroupWriter.create, createFormatWriter]
  cases hschema : missingColumn config.schema columnGroup.columns with
  | some columnName =>
    refine ⟨fun _ _ h => by simp at h, fun w' e h => ?_⟩
    cases h
    exact ⟨⟨w.world, rfl⟩, by simp⟩
  | none =>
    cases hcols : missingColumn columnGroup.columns columnGroup.columns with
    | some columnName =>
      refine ⟨fun _ _ h => by simp at h, fun w' e h => ?_⟩
      cases h
      exact ⟨⟨_, rfl⟩, by simp⟩
    | none =>
      cases hcreate : env.create k i with
      | some status =>
        refine ⟨fun _ _ h => by simp at h, fun w' e h => ?_⟩
        cases h
        exact ⟨⟨_, rfl⟩, by simp⟩
      | none =>
        refine ⟨fun w' _ h => ?_, fun _ _ h => by simp [bind, Except.bind, pure, Except.pure] at h⟩
        cases h
        exact ⟨rfl, _, _, ⟨rfl, rfl, hcols, rfl, rfl⟩, rfl⟩

variable {columnGroups : List ColumnGroup}

/-- The creation fails before any writer has been created, or the creation of a later one fails. -/
theorem createWriters_spec {k n : ℕ}
    (hcols : ∀ g ∈ columnGroups, missingColumn config.schema g.columns = none ∧
      missingColumn g.columns g.columns = none) (w : WriterImpl V P) :
    Spec (· = w) (forEach (fun gi : ColumnGroup × ℕ => createWriter env config k gi.1 gi.2)
        (columnGroups.zipIdx n))
      (fun _ w' => ∃ σ writers, Forall₂ Fresh (columnGroups.zipIdx n) writers ∧
        w' = { w with world := σ, columnGroupWriters := w.columnGroupWriters ++ writers })
      (fun _ w' => ∃ σ writers, (∃ i, env.create k i ≠ none) ∧
        (env.create k n ≠ none → writers = []) ∧
        w' = { w with world := σ, columnGroupWriters := w.columnGroupWriters ++ writers }) := by
  induction columnGroups generalizing n w with
  | nil => exact spec_pure fun w' hw' => ⟨w.world, [], .nil, by simp [hw']⟩
  | cons columnGroup columnGroups ih =>
    obtain ⟨hhead, htail⟩ := forall_mem_cons.mp hcols
    refine Spec.bind ((createWriter_spec k n columnGroup w).onError
      fun _ w' hw' => ?_) fun _ => spec_of_forall fun w1 hw1 => ?_
    · obtain ⟨⟨σ, rfl⟩, hcause⟩ := hw'
      exact ⟨σ, [], ⟨n, hcause hhead.1 hhead.2⟩, fun _ => rfl, by simp⟩
    · obtain ⟨hcreated, σ, g, hfresh, rfl⟩ := hw1
      refine ((ih htail _).onError fun _ w' hw' => ?_).bind fun _ => spec_pure fun w' hw' => ?_
      · obtain ⟨σ', writers, hcause, -, rfl⟩ := hw'
        exact ⟨σ', g :: writers, hcause, fun h => absurd hcreated h, by simp⟩
      · obtain ⟨σ', writers, hforall, rfl⟩ := hw'
        exact ⟨σ', g :: writers, .cons hfresh hforall, by simp⟩

/-- The state of the policy after samples of these batches. -/
def ColumnGroupPolicy.sampled (policy : ColumnGroupPolicy V P) (p : P) (samples : List (Batch V)) :
    P :=
  samples.foldl (fun p batch => (policy.sample batch p).1) p

/-- The policy's groups partition the schema, whichever of the batches it has been given. -/
def Partitions (policy : ColumnGroupPolicy V P) (schema : List String) (batches : List (Batch V))
    (p : P) : Prop :=
  ∀ samples ⊆ batches, ∀ groups, policy.getColumnGroups (policy.sampled p samples) = .ok groups →
    Partition schema groups

variable {batches : List (Batch V)}

theorem Partitions.sample {p : P} (h : Partitions policy schema batches p) {batch : Batch V}
    (hbatch : batch ∈ batches) : Partitions policy schema batches (policy.sample batch p).1 :=
  fun samples hsub => h (batch :: samples) (cons_subset.mpr ⟨hbatch, hsub⟩)

theorem partitions_singlePolicy (hne : config.schema ≠ []) (format : String) :
    Partitions (singlePolicy config format) config.schema batches () := by
  rintro samples - groups h
  cases h
  exact ⟨by simp, by simp, by simpa using hne⟩

theorem partitions_schemaBasedPolicy (hnodup : schema.Nodup) {format : String}
    {patterns formats : List String} {p : SchemaBasedColumnGroupPolicy}
    (hp : createSchemaBased schema format patterns formats = .ok p)
    (regexMatch : SchemaBasedColumnGroupPolicy.RegexMatch) :
    Partitions (schemaBasedPolicy regexMatch) schema batches p := by
  intro samples _ groups h
  have hsampled : (schemaBasedPolicy regexMatch).sampled p samples = p := foldl_fixed samples
  have hschema : p.schema = schema := by
    rw [createSchemaBased] at hp
    split at hp <;> cases hp
    rfl
  rw [hsampled] at h
  exact hschema ▸ SchemaBasedColumnGroupPolicy.partition regexMatch (hschema ▸ hnodup) h

/-- The size-based policy, if the first column of every batch is narrow. -/
theorem partitions_sizeBasedPolicy {p : SizeBasedColumnGroupPolicy} (hnodup : p.schema.Nodup)
    (hmax : 1 ≤ p.maxColumnsInGroup) (hmax' : p.maxColumnsInGroup < 2 ^ 63)
    (hsizes : p.columnSizes = [])
    (hnarrow : ∀ batch ∈ batches, ∀ size ∈ (sizeBasedPolicy.sample batch p).1.columnSizes.head?,
      size < p.maxAvgColumnSize) : Partitions sizeBasedPolicy p.schema batches p := by
  -- the sizes are those of the last batch that could be sampled
  have hsampled : ∀ samples ⊆ batches, ∃ sizes,
      sizeBasedPolicy.sampled p samples = { p with columnSizes := sizes } ∧ (sizes = [] ∨
        sizes.length = p.schema.length ∧ ∀ size ∈ sizes.head?, size < p.maxAvgColumnSize) := by
    intro samples
    induction samples using reverseRecOn with
    | nil => exact fun _ => ⟨[], by rw [← hsizes]; rfl, .inl rfl⟩
    | append_singleton samples batch ih =>
      intro hsub
      obtain ⟨hsamples, hbatch⟩ := append_subset.mp hsub
      obtain ⟨sizes, heq, hor⟩ := ih hsamples
      have hfirst := hnarrow batch (hbatch mem_cons_self)
      simp only [ColumnGroupPolicy.sampled, foldl_append, foldl_cons, foldl_nil] at heq ⊢
      rw [heq]
      simp only [sizeBasedPolicy, SizeBasedColumnGroupPolicy.sample] at hfirst ⊢
      split_ifs at hfirst ⊢ with hrows hshort
      · exact ⟨sizes, rfl, hor⟩
      · exact ⟨sizes, rfl, hor⟩
      · refine ⟨_, rfl, .inr ⟨?_, hfirst⟩⟩
        rw [length_map, length_take]
        omega
  intro samples hsub groups h
  obtain ⟨sizes, heq, hor⟩ := hsampled samples hsub
  rw [heq] at h
  have hlen : sizes.length = p.schema.length ∧ ∀ size ∈ sizes.head?, size < p.maxAvgColumnSize := by
    obtain rfl | hlen := hor
    · cases hschema : p.schema with
      | nil => simp
      | cons name names =>
        simp only [sizeBasedPolicy, SizeBasedColumnGroupPolicy.getColumnGroups, hschema] at h
        cases h
    · exact hlen
  obtain ⟨groups', hok, hiff⟩ := SizeBasedColumnGroupPolicy.partition_iff
    (p := { p with columnSizes := sizes }) hnodup hmax hmax' hlen.1
  obtain rfl : groups' = groups := Except.ok.inj (hok.symm.trans h)
  exact (hiff.mpr hlen.2).1

/-- No group writer has been created, and the policy's groups will partition the schema. -/
structure Blank (policy : ColumnGroupPolicy V P) (schema : List String) (batches : List (Batch V))
    (w : WriterImpl V P) : Prop where
  initialized_eq : w.initialized = false
  closed_eq : w.closed = false
  cgs_eq : w.cgs = []
  writers_eq : w.columnGroupWriters = []
  partitions : Partitions policy schema batches w.columnGroupPolicy

/-- The group writers have been created, one for each group. -/
structure Created (schema : List String) (w : WriterImpl V P) : Prop where
  closed_eq : w.closed = false
  cgs_eq : w.cgs = []
  partition : Partition schema w.columnGroups
  writers : Forall₂ Fresh w.columnGroups.zipIdx w.columnGroupWriters

/-- Whether the creation of the writers leaves some of them behind if it fails. -/
def LeavesWriters (env : Environment V) (k : ℕ) : Prop :=
  env.create k 0 = none ∧ ∃ i, env.create k i ≠ none

theorem sample_spec (hblank : Blank policy schema batches w) {batch : Batch V}
    (hbatch : batch ∈ batches) :
    Spec (· = w) (sample policy batch)
      (fun _ w' => Blank policy schema batches w' ∧ w'.attempts = w.attempts)
      (fun _ => Blank policy schema batches) := by
  rintro w rfl
  rw [sample]
  split_ifs
  · refine ⟨fun w' _ h => ?_, fun w' _ h => ?_⟩ <;> obtain rfl := (Prod.ext_iff.mp h).1
    · exact ⟨⟨hblank.1, hblank.2, hblank.3, hblank.4, hblank.5.sample hbatch⟩, rfl⟩
    · exact ⟨hblank.1, hblank.2, hblank.3, hblank.4, hblank.5.sample hbatch⟩
  · refine ⟨fun w' _ h => ?_, fun w' _ h => ?_⟩ <;> obtain rfl := (Prod.ext_iff.mp h).1
    · exact ⟨hblank, rfl⟩
    · exact hblank

theorem getColumnGroups_spec (hblank : Blank policy schema batches w) :
    Spec (· = w) (getColumnGroups policy)
      (fun groups w' => Blank policy schema batches w' ∧ w'.attempts = w.attempts ∧
        w'.columnGroups = groups ∧ Partition schema groups)
      (fun _ => Blank policy schema batches) := by
  rintro w rfl
  rw [getColumnGroups]
  cases hgroups : policy.getColumnGroups w.columnGroupPolicy with
  | error e => simpa using hblank
  | ok groups =>
    refine ⟨fun w' _ h => ?_, fun _ _ h => by simp at h⟩
    obtain ⟨rfl, rfl⟩ := h
    exact ⟨⟨hblank.1, hblank.2, hblank.3, hblank.4, hblank.5⟩, rfl, rfl,
      hblank.5 [] (nil_subset _) _ hgroups⟩

/-- **Initialization** creates a writer for every group. If it fails, it has created none, or it
leaves writers behind. -/
theorem initializeColumnGroupWriters_spec (hnodup : config.schema.Nodup)
    (hblank : Blank policy config.schema batches w) {batch : Batch V} (hbatch : batch ∈ batches) :
    Spec (· = w) (initializeColumnGroupWriters env config policy batch)
      (fun _ => Created config.schema)
      (fun _ w' => Blank policy config.schema batches w' ∨ LeavesWriters env w.attempts) := by
  refine ((sample_spec hblank hbatch).onError fun _ _ => .inl).bind
    fun _ => spec_of_forall fun w1 ⟨hblank1, hattempts1⟩ => ?_
  refine ((getColumnGroups_spec hblank1).onError fun _ _ => .inl).bind fun groups => ?_
  refine spec_of_forall fun w2 ⟨hblank2, hattempts2, hgroups, hpart⟩ => ?_
  refine spec_ite (fun _ => spec_fail fun w' hw' => .inl (hw' ▸ hblank2)) fun _ => ?_
  refine spec_get_bind fun w3 hw3 => spec_modify_bind fun w4 hw4 => ?_
  subst hw3 hw4
  have hcols : ∀ g ∈ groups, missingColumn config.schema g.columns = none ∧
      missingColumn g.columns g.columns = none := fun g hg =>
    ⟨hpart.missingColumn_schema hnodup hg, hpart.missingColumn_columns hnodup hg⟩
  refine ((createWriters_spec hcols _).onError fun _ w' hw' => ?_).bind fun _ => ?_
  · obtain ⟨σ, writers, hcause, hnil, rfl⟩ := hw'
    by_cases hzero : env.create w4.attempts 0 = none
    · exact .inr ((hattempts2.trans hattempts1) ▸ ⟨hzero, hcause⟩)
    · refine .inl ⟨hblank2.1, hblank2.2, hblank2.3, ?_, hblank2.5⟩
      simp [hnil hzero, hblank2.writers_eq]
  · refine spec_get_bind fun w₅ ⟨σ, writers, hforall, hw₅⟩ => ?_
    have hwriters : w₅.columnGroupWriters = writers := by simp [hw₅, hblank2.writers_eq]
    have hcreated : Created config.schema w₅ := by
      refine ⟨?_, ?_, ?_, ?_⟩
      · rw [hw₅]
        exact hblank2.closed_eq
      · rw [hw₅]
        exact hblank2.cgs_eq
      · rwa [hw₅, hgroups]
      · rwa [hwriters, hw₅, hgroups]
    have hlen : w₅.columnGroupWriters.length = w₅.columnGroups.length := by
      simpa using hcreated.writers.length_eq.symm
    refine spec_ite (fun h => absurd hlen h.2) fun _ => spec_pure fun w' hw' => ?_
    exact hw' ▸ hcreated

/-! ## Alignment -/

/-- The writer of the `i`-th group was created for it, and holds its part of every batch. -/
structure Holds (intact : Prop) (schema : List String) (columnGroups : List ColumnGroup)
    (accepted : List (Batch V)) (i : ℕ) (g : ColumnGroupWriter V) : Prop where
  columnGroupId_eq : g.columnGroupId = i
  columnGroup_eq : columnGroups[i]? = some g.columnGroup
  no_missing : missingColumn g.columnGroup.columns g.columnGroup.columns = none
  open_of_intact : intact → g.formatWriter.closed = false
  contents_eq : g.formatWriter.closed = false →
    g.contents = accepted.map (groupBatch schema g.columnGroup)

structure Aligned (intact : Prop) (schema : List String) (accepted : List (Batch V))
    (w : WriterImpl V P) : Prop where
  initialized_eq : w.initialized = true
  closed_eq : w.closed = false
  partition : Partition schema w.columnGroups
  length_eq : w.columnGroupWriters.length = w.columnGroups.length
  writers : ∀ i g, w.columnGroupWriters[i]? = some g →
    Holds intact schema w.columnGroups accepted i g
  /-- A failed `close` has closed a writer if it has left a group behind. -/
  cgs_eq : w.cgs = [] ∨ ∃ g ∈ w.columnGroupWriters, g.formatWriter.closed = true

theorem Created.aligned (h : Created schema w) :
    Aligned intact schema [] { w with initialized := true } where
  initialized_eq := rfl
  closed_eq := h.closed_eq
  partition := h.partition
  length_eq := by simpa using h.writers.length_eq.symm
  cgs_eq := .inl h.cgs_eq
  writers i g hg := by
    obtain ⟨hlt, hget⟩ := List.getElem?_eq_some_iff.mp hg
    have hlt' : i < w.columnGroups.zipIdx.length := h.writers.length_eq ▸ hlt
    have hfresh := h.writers.get hlt' hlt
    simp only [get_eq_getElem, hget, getElem_zipIdx, zero_add] at hfresh
    refine ⟨hfresh.columnGroupId_eq, ?_, hfresh.no_missing, fun _ => hfresh.closed_eq,
      fun _ => hfresh.contents_eq⟩
    rw [hfresh.columnGroup_eq]
    exact getElem?_eq_getElem (by simpa using hlt')

variable {added : List (Batch V)}

theorem Holds.extends {i : ℕ} {g g' : ColumnGroupWriter V}
    (h : Holds intact schema columnGroups accepted i g)
    (hext : g.Extends intact (added.map (groupBatch schema g.columnGroup)) g') :
    Holds intact schema columnGroups (accepted ++ added) i g' where
  columnGroupId_eq := hext.columnGroupId_eq.trans h.columnGroupId_eq
  columnGroup_eq := by rw [hext.columnGroup_eq, h.columnGroup_eq]
  no_missing := by rw [hext.columnGroup_eq, h.no_missing]
  open_of_intact hintact := hext.stays_open hintact h.no_missing (h.open_of_intact hintact)
  contents_eq hopen := by
    rw [hext.contents_eq hopen, h.contents_eq (hext.open_of_open hopen), hext.columnGroup_eq,
      map_append]

/-- The batches that are added to the groups are accepted. -/
theorem Aligned.advances {records : ℕ → List (RecordBatch V)} {w' : WriterImpl V P}
    (h : Aligned intact schema accepted w) (hadv : Advances intact records w w')
    (hrecords : ∀ i g, w.columnGroups[i]? = some g → records i = added.map (groupBatch schema g)) :
    Aligned intact schema (accepted ++ added) w' where
  initialized_eq := hadv.initialized_eq.trans h.initialized_eq
  closed_eq := hadv.closed_eq.trans h.closed_eq
  partition := hadv.columnGroups_eq ▸ h.partition
  length_eq := by rw [hadv.length_eq, h.length_eq, hadv.columnGroups_eq]
  writers i g' hg' := by
    obtain ⟨g, hg, hext⟩ := hadv.writers i g' hg'
    have hholds := h.writers i g hg
    rw [hrecords i _ hholds.columnGroup_eq] at hext
    exact hadv.columnGroups_eq ▸ hholds.extends hext
  cgs_eq := by
    rw [hadv.cgs_eq]
    refine h.cgs_eq.imp_right fun ⟨g, hg, hclosed⟩ => ?_
    obtain ⟨i, hlt, rfl⟩ := mem_iff_getElem.mp hg
    have hlt' : i < w'.columnGroupWriters.length := hadv.length_eq ▸ hlt
    obtain ⟨g, hg, hext⟩ := hadv.writers i _ (getElem?_eq_getElem hlt')
    rw [getElem?_eq_getElem hlt, Option.some.injEq] at hg
    refine ⟨_, getElem_mem hlt', ?_⟩
    by_contra hopen
    rw [Bool.not_eq_true] at hopen
    simp [hg, hext.open_of_open hopen] at hclosed

theorem Aligned.advances_nil {w' : WriterImpl V P} (h : Aligned intact schema accepted w)
    (hadv : Advances intact (fun _ => []) w w') : Aligned intact schema accepted w' := by
  have h' : Aligned intact schema (accepted ++ []) w' := h.advances hadv fun _ _ _ => rfl
  simpa using h'

end MilvusStorage.Writer
