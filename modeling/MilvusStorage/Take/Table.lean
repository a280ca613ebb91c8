import MilvusStorage.Common.SelectedRows
import MilvusStorage.Foundations.Except

/-!
# Tables

The tables that a take puts together: named columns, in chunks, and a number of rows. Two tables are
the same if they have the same columns, whatever their chunks (`Table.content`).

A table that is made without a number of rows takes it from its first column, so that a table
without columns gets no rows. This is what `ConcatenateTables` does.
-/

namespace MilvusStorage.Take

open List Function

variable {V : Type}

/-- A column in chunks; a null cell is `none`. -/
abbrev ChunkedArray (V : Type) := List (List (Option V))

structure Table (V : Type) where
  columns : List (String × ChunkedArray V)
  numRows : ℕ
  deriving DecidableEq, Inhabited

namespace Table

/-- The names of the fields of the schema. -/
def fields (t : Table V) : List String := t.columns.map Prod.fst

/-- The chunks of the `j`-th column. -/
def chunks (t : Table V) (j : ℕ) : ChunkedArray V :=
  match t.columns[j]? with
  | some column => column.2
  | none => []

/-- `arrow::Table::Make` without a number of rows. -/
def make (columns : List (String × ChunkedArray V)) : Table V where
  columns := columns
  numRows :=
    match columns with
    | [] => 0
    | column :: _ => column.2.flatten.length

/-- The columns without their chunks, which `Table::Equals` compares. -/
def content (t : Table V) : List (String × List (Option V)) :=
  t.columns.map fun column => (column.1, column.2.flatten)

/-- `CopySelectedRows`: every column of the result is one array. -/
def copySelectedRows (build : ColumnBuilder String (Option V)) (t : Table V) (indices : List ℤ) :
    Except Fault (Table V) := do
  let columns ← MilvusStorage.copySelectedRows build t.numRows t.columns indices
  return ⟨columns.map fun column => (column.1, [column.2]), indices.length⟩

end Table

/-- `arrow::ConcatenateTables`. -/
def concatenateTables : List (Table V) → Except Fault (Table V)
  | [] => .error (.status (.invalid "Must pass at least one table"))
  | first :: tables =>
    match tables.findIdx? fun t => t.fields ≠ first.fields with
    | some i =>
      let index := i + 1
      .error (.status (.invalid s!"Schema at index {index} was different"))
    | none => .ok (.make (first.fields.zipIdx.map fun (name, j) =>
        (name, (first :: tables).flatMap fun t => t.chunks j)))

/-! ## Rows -/

/-- The columns of some rows. -/
def tabulate (names : List String) (rows : List (String → Option V)) :
    List (String × List (Option V)) :=
  names.map fun name => (name, rows.map fun row => row name)

variable {t : Table V} {names : List String} {rows : List (String → Option V)}

theorem Table.fields_eq (h : t.content = tabulate names rows) : t.fields = names := by
  have := congrArg (map Prod.fst) h
  simpa [Table.content, tabulate, Table.fields, comp_def] using this

theorem Table.flatten_chunks (h : t.content = tabulate names rows) {j : ℕ} {name : String}
    (hj : names[j]? = some name) : (t.chunks j).flatten = rows.map fun row => row name := by
  have hget := congrArg (fun l => l[j]?) h
  simp only [Table.content, tabulate, getElem?_map, hj] at hget
  obtain ⟨column, hcol, heq⟩ := Option.map_eq_some_iff.mp hget
  rw [Table.chunks, hcol]
  exact (Prod.mk.inj heq).2

variable {columns : List (String × ChunkedArray V)}

theorem Table.numRows_make (h : (make columns).content = tabulate names rows) :
    (make columns).numRows = if names = [] then 0 else rows.length := by
  cases columns with
  | nil =>
    obtain rfl := map_eq_nil_iff.mp h.symm
    rfl
  | cons column columns =>
    cases names with
    | nil => cases h
    | cons name names =>
      have hcells := (Prod.mk.inj (List.cons.inj h).1).2
      rw [if_neg (cons_ne_nil _ _)]
      show column.2.flatten.length = rows.length
      rw [hcells, length_map]

/-- **Concatenation.** -/
theorem concatenateTables_ok {α : Type} {l : List α} (hne : l ≠ []) {table : α → Table V}
    {rowss : α → List (String → Option V)}
    (h : ∀ a ∈ l, (table a).content = tabulate names (rowss a)) :
    ∃ t, concatenateTables (l.map table) = .ok t ∧ t.content = tabulate names (l.flatMap rowss) ∧
      t.numRows = if names = [] then 0 else (l.flatMap rowss).length := by
  obtain ⟨a, l, rfl⟩ := exists_cons_of_ne_nil hne
  obtain ⟨ha, hl⟩ := forall_mem_cons.mp h
  have hfields : (l.map table).findIdx? (fun t => t.fields ≠ (table a).fields) = none := by
    rw [findIdx?_eq_none_iff, forall_mem_map]
    intro b hb
    simp [Table.fields_eq ha, Table.fields_eq (hl b hb)]
  have hcontent : (Table.make ((table a).fields.zipIdx.map fun (name, j) =>
      (name, (table a :: l.map table).flatMap fun t => t.chunks j))).content =
        tabulate names ((a :: l).flatMap rowss) := by
    rw [Table.fields_eq ha, tabulate]
    conv_rhs => rw [← zipIdx_map_fst 0 names]
    show map _ (map _ _) = _
    rw [map_map, map_map]
    apply map_congr_left
    rintro ⟨name, j⟩ hname
    have hj : names[j]? = some name := mem_zipIdx_iff_getElem?.mp hname
    have hchunks : ∀ b ∈ a :: l, ((table b).chunks j).flatten = (rowss b).map fun row => row name :=
      fun b hb => Table.flatten_chunks (h b hb) hj
    simp only [comp_apply, ← map_cons, flatMap_map, map_flatMap]
    rw [← flatMap_id, flatMap_assoc]
    simp only [flatMap_id]
    rw [flatMap_congr hchunks]
  refine ⟨_, ?_, hcontent, Table.numRows_make hcontent⟩
  rw [map_cons, concatenateTables, hfields]

/-- Tables that are made one after the other and put together. -/
theorem mapM_concatenateTables_ok {α : Type} {l : List α} (f : α → Except Fault (Table V))
    (rowss : α → List (String → Option V)) (hne : l ≠ [])
    (h : ∀ a ∈ l, ∃ t, f a = .ok t ∧ t.content = tabulate names (rowss a)) :
    ∃ t, (l.mapM f >>= concatenateTables) = .ok t ∧ t.content = tabulate names (l.flatMap rowss) ∧
      t.numRows = if names = [] then 0 else (l.flatMap rowss).length := by
  choose! table htable using h
  rw [Except.mapM_eq_ok_map fun a ha => (htable a ha).1]
  exact concatenateTables_ok hne fun a ha => (htable a ha).2

variable {selected : List (String → Option V)} {build : ColumnBuilder String (Option V)}

section

variable {indices : List ℤ} (hindices : ∀ i ∈ indices, 0 ≤ i ∧ i < rows.length)
  (hselected : indices.map (fun i => rows[i.toNat]?) = selected.map some)
  (hbuild : ∀ name ∈ names, ∀ slices, slices.flatten = (selected.map fun row => row name) →
    build name slices = .ok slices.flatten)
include hindices hselected hbuild

/-- The selected cells of every column. -/
theorem mapM_copyColumn
    (h : columns.map (fun column => (column.1, column.2.flatten)) = tabulate names rows) :
    columns.mapM (copyColumn build indices) =
      .ok (names.map fun name => (name, selected.map fun row => row name)) := by
  induction columns generalizing names with
  | nil =>
    obtain rfl := map_eq_nil_iff.mp h.symm
    rfl
  | cons column columns ih =>
    cases names with
    | nil => cases h
    | cons name names =>
      obtain ⟨hcol, hcols⟩ := cons.inj h
      obtain ⟨rfl, hflat⟩ := Prod.mk.inj hcol
      obtain ⟨hfirst, hrest⟩ := forall_mem_cons.mp hbuild
      have hcells : ∀ cells : List (Option V),
          cells.map some = indices.map (fun i => column.2.flatten[i.toNat]?) →
            cells = selected.map fun row => row column.1 := by
        intro cells hmap
        have hsome :=
          congrArg (map (Option.map fun row : String → Option V => row column.1)) hselected
        apply map_injective_iff.mpr fun _ _ => Option.some.inj
        rw [hmap, hflat]
        simpa [comp_def] using hsome
      obtain ⟨cells, hcopy, hmap⟩ := exists_copyColumn (k := column.1) (by rwa [hflat, length_map])
        fun slices hslices => hfirst slices (hcells _ hslices)
      rw [mapM_cons, hcopy, ih hrest hcols, hcells cells hmap]
      rfl

/-- **Selection.** -/
theorem Table.copySelectedRows_ok (h : t.content = tabulate names rows)
    (hrows : t.numRows = rows.length) :
    ∃ t', t.copySelectedRows build indices = .ok t' ∧ t'.content = tabulate names selected ∧
      t'.numRows = selected.length := by
  have hlen : indices.length = selected.length := by
    have := congrArg List.length hselected
    simpa using this
  refine ⟨⟨names.map fun name => (name, [selected.map fun row => row name]), indices.length⟩,
    ?_, ?_, hlen⟩
  · rw [copySelectedRows, MilvusStorage.copySelectedRows, find?_outOfBounds.mpr (by rwa [hrows])]
    dsimp only
    rw [mapM_copyColumn hindices hselected hbuild h]
    simp [Except.ok_bind, Except.pure_eq_ok]
  · simp [content, tabulate, comp_def]

end

/-- **A selection** succeeds if and only if all indices are those of rows and the builder of every
column takes its slices. It returns the cells at the indices in every column, whatever its
chunks. -/
theorem Table.copySelectedRows_gathers (happends : build.Appends)
    (h : ∀ column ∈ t.columns, column.2.flatten.length = t.numRows) (indices : List ℤ) :
    ((∃ t', t.copySelectedRows build indices = .ok t') ↔
      (∀ i ∈ indices, 0 ≤ i ∧ i < t.numRows) ∧ ∀ column ∈ t.columns, ∀ slices,
        copyRuns column.2 indices = .ok slices → ∃ cells, build column.1 slices = .ok cells) ∧
    ∀ t', t.copySelectedRows build indices = .ok t' → t'.numRows = indices.length ∧
      Forall₂ (fun column column' => column'.1 = column.1 ∧ column'.2.flatten.map some =
        indices.map fun i => column.2.flatten[i.toNat]?) t.columns t'.columns := by
  rw [copySelectedRows, MilvusStorage.copySelectedRows]
  cases hfind : indices.find? fun index : ℤ => index < 0 ∨ index ≥ t.numRows with
  | some index =>
    have hbad : ¬ ∀ i ∈ indices, 0 ≤ i ∧ i < t.numRows := fun hindices => by
      rw [find?_outOfBounds.mpr hindices] at hfind
      cases hfind
    refine ⟨⟨?_, fun h => absurd h.1 hbad⟩, ?_⟩
    · rintro ⟨_, ht'⟩
      cases ht'
    · intro _ ht'
      cases ht'
  | none =>
    have hindices := find?_outOfBounds.mp hfind
    have hruns : ∀ column ∈ t.columns, ∃ slices, copyRuns column.2 indices = .ok slices ∧
        slices.flatten.map some = indices.map fun i => column.2.flatten[i.toNat]? :=
      fun column hcol => copyRuns_eq (by rwa [h column hcol])
    dsimp only
    refine ⟨⟨fun ⟨t', ht'⟩ => ⟨hindices, fun column hcol slices hslices => ?_⟩,
      fun ⟨_, hbuild⟩ => ?_⟩, fun t' ht' => ?_⟩
    · obtain ⟨columns, hcolumns, -⟩ := Except.bind_eq_ok.mp ht'
      obtain ⟨column', -, hcopy⟩ := (Except.forall₂_of_mapM_ok hcolumns).exists_right hcol
      obtain ⟨slices', hslices', cells, hcells, -⟩ := copyColumn_eq_ok.mp hcopy
      cases hslices.symm.trans hslices'
      exact ⟨cells, hcells⟩
    · obtain ⟨columns, hcolumns⟩ : ∃ columns, t.columns.mapM (copyColumn build indices) =
          .ok columns := Except.exists_mapM_ok fun column hcol => by
        obtain ⟨slices, hslices, -⟩ := hruns column hcol
        obtain ⟨cells, hcells⟩ := hbuild column hcol slices hslices
        exact ⟨_, copyColumn_eq_ok.mpr ⟨slices, hslices, cells, hcells, rfl⟩⟩
      rw [hcolumns]
      exact ⟨_, rfl⟩
    · obtain ⟨columns, hcolumns, ht'⟩ := Except.bind_eq_ok.mp ht'
      obtain rfl := Except.pure_eq_ok_iff.mp ht'
      have hcopied := (forall₂_and_left _ _).mpr ⟨hruns, Except.forall₂_of_mapM_ok hcolumns⟩
      refine ⟨rfl, forall₂_map_right_iff.mpr (hcopied.imp ?_)⟩
      rintro column column' ⟨⟨slices, hslices, hmap⟩, hcopy⟩
      obtain ⟨slices', hslices', cells, hcells, rfl⟩ := copyColumn_eq_ok.mp hcopy
      cases hslices.symm.trans hslices'
      simp [happends _ _ _ hcells, hmap]

/-- Builders for every column but those of an extension type. -/
def plainBuilder (extensions : List String) : ColumnBuilder String (Option Char) :=
  fun name slices =>
    if name ∈ extensions then .error (.notImplemented "MakeBuilder: cannot construct builder")
    else .ok slices.flatten

theorem appends_plainBuilder (extensions : List String) : (plainBuilder extensions).Appends := by
  intro name slices cells h
  unfold plainBuilder at h
  split_ifs at h
  exact (Except.ok.inj h).symm

/-- Two columns in chunks of their own. -/
def twoChunks : Table Char := ⟨[("x", [[some 'a'], [], [some 'b']]), ("y", [[some 'c', none]])], 2⟩

theorem twoChunks_lengths :
    ∀ column ∈ twoChunks.columns, column.2.flatten.length = twoChunks.numRows := by
  decide

theorem Table.copySelectedRows_gathers_twoChunks :
    (∃ t', twoChunks.copySelectedRows (plainBuilder []) [1, 0, 1] = .ok t' ∧
      t'.content = [("x", [some 'b', some 'a', some 'b']), ("y", [none, some 'c', none])]) ∧
    ¬ ∃ t', twoChunks.copySelectedRows (plainBuilder []) [1, 2] = .ok t' := by
  obtain ⟨hok, hrows⟩ := Table.copySelectedRows_gathers (appends_plainBuilder []) twoChunks_lengths
    [1, 0, 1]
  obtain ⟨hfail, -⟩ := Table.copySelectedRows_gathers (appends_plainBuilder []) twoChunks_lengths
    [1, 2]
  refine ⟨?_, fun h => absurd (hfail.mp h).1 (by decide)⟩
  obtain ⟨t', ht'⟩ := hok.mpr ⟨by decide, fun _ _ slices _ => ⟨slices.flatten, rfl⟩⟩
  refine ⟨t', ht', ?_⟩
  obtain ⟨-, hcols⟩ := hrows t' ht'
  rw [content]
  generalize t'.columns = columns at hcols
  obtain - | ⟨⟨hx, hxs⟩, - | ⟨⟨hy, hys⟩, - | -⟩⟩ := hcols
  have hsome : Injective (map some : List (Option Char) → List (Option (Option Char))) :=
    map_injective_iff.mpr (Option.some_injective _)
  rw [map_cons, map_cons, map_nil, hx, hy, @hsome _ [some 'b', some 'a', some 'b'] hxs,
    @hsome _ [none, some 'c', none] hys]

/-- A column of an extension type is refused, although the index is that of a row. -/
theorem Table.copySelectedRows_extension :
    twoChunks.copySelectedRows (plainBuilder ["y"]) [0] =
      .error (.status (.notImplemented "MakeBuilder: cannot construct builder")) := by
  simp [copySelectedRows, MilvusStorage.copySelectedRows, copyColumn, copyRuns, resolve, runLength,
    twoChunks, plainBuilder, mapM_cons]
  rfl

end MilvusStorage.Take
