import MilvusStorage.Take.Async
import MilvusStorage.Take.Scan

/-!
# A take agrees with the scan

`take_agrees`: `take` and `take_async` return the rows of the scan at the given indices, and succeed
exactly if all of them are in range. The projection must be one that the reader can answer: its
columns have fields in the schema or, without a schema, are stored. Without a schema there must also
be a row to take.

`take_async` copies the rows of every group into their order, and the builders of the columns have
to take them (`Environment.Builds`). It also needs the tables of the files to have columns. If no
group stores a needed column, the first group is read for no column at all, and then a format may
return a table without columns. Its rows get lost when the tables of the files are put together
(`takeAsync_noColumns`).
-/

namespace MilvusStorage.Take

open Except List Format

variable {V : Type}

/-- The tables have columns: a needed one, or those that the first group returns if none is
needed. -/
def Environment.HasColumns (E : Environment V) (gs : List ColumnGroup) (resolved : List String) :
    Prop :=
  (∃ name ∈ resolved, Stored gs name) ∨ ∀ g, gs.head? = some g → E.columnsOf g [] ≠ []

/-- The tasks of a call of `take_async` complete in this order. -/
def ReaderImpl.Completes (R : ReaderImpl) (rowIndices : List ℤ) (parallelism : ℕ)
    (neededColumns : Option (List String)) (order : List ℕ) : Prop :=
  ∀ resolved groups tasks, R.plan neededColumns = .ok (resolved, groups) →
    R.takeTasks groups rowIndices parallelism = .ok tasks →
    order.Perm (List.range tasks.length)

/-- The result of a take: it succeeds if and only if all rows are in range, and returns them. -/
structure ReturnsRows (storage : String → List (NamedRow V)) (gs : List ColumnGroup)
    (resolved : List String) (rowIndices : List ℤ) (result : Except Fault (Table V)) : Prop where
  isOk_iff : (∃ t, result = .ok t) ↔ InRange (total gs) rowIndices
  content_eq : ∀ t, result = .ok t → t.content =
    resolved.map fun name => (name, rowIndices.map (storedCell storage gs name))
  numRows_eq : ∀ t, result = .ok t → t.numRows = rowIndices.length

variable {storage : String → List (NamedRow V)} {gs : List ColumnGroup}

theorem returnsRows_of_ok
    {resolved : List String} {rowIndices : List ℤ} {result : Except Fault (Table V)}
    (hok : InRange (total gs) rowIndices → ∃ t, result = .ok t ∧ t.numRows = rowIndices.length ∧
      t.content = resolved.map fun name => (name, rowIndices.map (storedCell storage gs name)))
    (hrange : ∀ t, result = .ok t → InRange (total gs) rowIndices) :
    ReturnsRows storage gs resolved rowIndices result := by
  refine ⟨⟨fun ⟨t, ht⟩ => hrange t ht, fun h => ?_⟩, fun t ht => ?_, fun t ht => ?_⟩
  · obtain ⟨t, ht, -⟩ := hok h
    exact ⟨t, ht⟩
  · obtain ⟨t', ht', -, hcontent⟩ := hok (hrange t ht)
    cases ht.symm.trans ht'
    exact hcontent
  · obtain ⟨t', ht', hnumRows, -⟩ := hok (hrange t ht)
    cases ht.symm.trans ht'
    exact hnumRows

/-! ## The columns of the tables -/

section Columns

variable {E : Environment V} {gs : List ColumnGroup} {resolved : List String}

/-- The columns that the files of a group return. -/
def Environment.tableColumns (E : Environment V) (resolved : List String) (g : ColumnGroup) :
    List String := E.columnsOf g (resolved.filter fun name => name ∈ g.columns)

/-- The builders take the requested cells of the columns that are read. -/
def Environment.Builds (E : Environment V) (gs : List ColumnGroup) (resolved : List String)
    (rowIndices : List ℤ) : Prop :=
  ∀ g ∈ gs, ∀ name ∈ E.tableColumns resolved g, ∀ slices,
    slices.flatten = (rowIndices.map fun i => rowAt (visibleRows E.storage g.files) i name) →
      E.build name slices = .ok slices.flatten

variable (hE : E.Answers gs resolved) {groups : List ColumnGroup}
  (hreq : Required gs resolved groups)

include hE

variable {name : String} {g : ColumnGroup}

theorem Environment.Answers.mem_columns (hg : g ∈ gs) (hname : name ∈ E.tableColumns resolved g) :
    name ∈ g.columns := by
  by_cases hnil : resolved.filter (fun name => name ∈ g.columns) = []
  · rw [Environment.tableColumns, hnil] at hname
    exact hE.columnsOf_nil g hg name hname
  · rw [Environment.tableColumns, hE.columnsOf_needed g hg _ hnil] at hname
    exact of_decide_eq_true (mem_filter.mp hname).2

theorem Environment.Answers.mem_tableColumns (hg : g ∈ gs) (hname : name ∈ resolved)
    (hcol : name ∈ g.columns) : name ∈ E.tableColumns resolved g := by
  have hmem : name ∈ resolved.filter fun name => name ∈ g.columns :=
    mem_filter.mpr ⟨hname, decide_eq_true hcol⟩
  rwa [Environment.tableColumns, hE.columnsOf_needed g hg _ (ne_nil_of_mem hmem)]

include hreq

theorem Environment.Answers.tableColumns_ne_nil (hcols : E.HasColumns gs resolved) :
    ∀ g ∈ groups, E.tableColumns resolved g ≠ [] := by
  intro g hg
  obtain hneeded | ⟨hnot, g', hhead, rfl⟩ := hreq.needed
  · obtain ⟨name, hname, hcol⟩ := hneeded g hg
    exact ne_nil_of_mem (hE.mem_tableColumns (hreq.mem g hg) hname hcol)
  · obtain rfl := mem_singleton.mp hg
    obtain ⟨name, hname, hstored⟩ | hfirst := hcols
    · exact absurd hstored (hnot name hname)
    · have hnil : resolved.filter (fun name => name ∈ g.columns) = [] := by
        rw [filter_eq_nil_iff]
        intro name hname hcol
        exact hnot name hname ⟨g, hreq.mem g hg, of_decide_eq_true hcol⟩
      rw [Environment.tableColumns, hnil]
      exact hfirst g hhead

/-- All tables of a take have the same number of rows. -/
theorem Environment.Answers.exists_count (n : ℕ) : ∃ count, ∀ g ∈ groups,
    (if E.tableColumns resolved g = [] then 0 else n) = count := by
  obtain hneeded | ⟨-, g, -, rfl⟩ := hreq.needed
  · refine ⟨n, fun g hg => if_neg ?_⟩
    obtain ⟨name, hname, hcol⟩ := hneeded g hg
    exact ne_nil_of_mem (hE.mem_tableColumns (hreq.mem g hg) hname hcol)
  · exact ⟨_, fun g' hg' => by rw [mem_singleton.mp hg']⟩

omit hE in
/-- The columns of the groups that are read are the stored cells. -/
theorem columnCells_eq (hdisj : DisjointColumns gs) (hname : name ∈ resolved)
    (rowIndices : List ℤ) :
    columnCells groups (fun g => rowIndices.map (rowAt (visibleRows storage g.files)))
      rowIndices.length name = rowIndices.map (storedCell storage gs name) := by
  unfold columnCells
  cases hfind : groups.find? fun g => name ∈ g.columns with
  | some g =>
    have hcol : name ∈ g.columns := by simpa using find?_some hfind
    have hg := hreq.mem g (mem_of_find?_eq_some hfind)
    dsimp only
    rw [map_map]
    apply map_congr_left
    intro row _
    simp [storedCell_of_mem hdisj hg hcol]
  | none =>
    have hnot : ¬ Stored gs name := by
      rintro ⟨g, hg, hcol⟩
      have := find?_eq_none.mp hfind g (hreq.stored name hname g hg hcol)
      exact this (decide_eq_true hcol)
    have hnone : storedCell storage gs name = fun _ => none := by
      funext row
      exact storedCell_of_not_stored hnot row
    simp [hnone]

end Columns

/-! ## `take` and `take_async` -/

section Take

variable {E : Environment V} {R : ReaderImpl} {gs : List ColumnGroup} {resolved : List String}
  (hcgs : R.cgs = gs.map some) (hdisj : DisjointColumns gs)
  (htotal : ∀ g ∈ gs, totalRows g.files = total gs) {neededColumns : Option (List String)}
  (hres : R.resolveNeededColumns (R.effectiveNeededColumns neededColumns) = .ok resolved)
  (hE : E.Answers gs resolved) {rowIndices : List ℤ}

include hres in
/-- A take of no rows. -/
theorem takeNothing_ok (storage : String → List (NamedRow V)) (hschema : R.schema ≠ none) :
    ReturnsRows storage gs resolved [] (R.takeNothing neededColumns : Except Fault (Table V)) := by
  obtain ⟨schema, hschema⟩ := Option.ne_none_iff_exists'.mp hschema
  have hfields : resolved.all (hasField schema) = true :=
    all_eq_true.mpr fun name hname => hasField_of_resolve hres hschema hname
  refine returnsRows_of_ok (fun _ => ⟨⟨resolved.map fun name => (name, [[]]), 0⟩, ?_, rfl, ?_⟩)
    fun _ _ row hrow => absurd hrow not_mem_nil
  · rw [ReaderImpl.takeNothing, hschema]
    dsimp only
    rw [hres, ok_bind, emptyTable, if_pos hfields]
  · simp [Table.content]

include hres hcgs in
theorem plan_ok (hgs : gs ≠ []) {groups : List ColumnGroup}
    (hgroups : R.requiredColumnGroups resolved = .ok groups) :
    R.plan neededColumns = .ok (resolved, groups) := by
  rw [ReaderImpl.plan, if_neg (by simpa [hcgs] using hgs), hres, ok_bind, hgroups]
  rfl

/-- No row is in range without groups. -/
theorem not_inRange_nil (hne : rowIndices ≠ []) : ¬ InRange (total []) rowIndices := by
  intro hrange
  obtain ⟨row, hrow⟩ := exists_mem_of_ne_nil _ hne
  obtain ⟨hle, hlt⟩ := hrange row hrow
  exact absurd hle (not_le.mpr hlt)

variable (hstored : R.schema = none → ∀ name ∈ resolved, Stored gs name) {groups : List ColumnGroup}
  (hreq : Required gs resolved groups)

include hres hstored hreq in
/-- A column that is not read can be filled with nulls. -/
theorem exists_field {name : String} (hname : name ∈ resolved)
    (hnot : ∀ g ∈ groups, name ∉ g.columns) :
    ∃ schema, R.schema = some schema ∧ hasField schema name = true := by
  cases hschema : R.schema with
  | some schema => exact ⟨schema, rfl, hasField_of_resolve hres hschema hname⟩
  | none =>
    obtain ⟨g, hg, hcol⟩ := hstored hschema name hname
    exact absurd hcol (hnot g (hreq.stored name hname g hg hcol))

include hdisj hres hE hstored hreq in
/-- The tables of the groups are put together. -/
theorem buildTakeTable_rows {tables : List (Table V)}
    (htables : Forall₂ (fun g t => t.content = tabulate (E.tableColumns resolved g)
      (rowIndices.map (rowAt (visibleRows E.storage g.files)))) groups tables) {count : ℕ}
    (hcount : ∀ t ∈ tables, t.numRows = count) :
    ∃ t, buildTakeTable tables rowIndices resolved R.schema = .ok t ∧
      t.numRows = rowIndices.length ∧
      t.content = resolved.map fun name =>
        (name, rowIndices.map (storedCell E.storage gs name)) := by
  obtain ⟨t, ht, hnumRows, hcontent⟩ := buildTakeTable_ok htables
    (fun g hg name hname => hE.mem_columns (hreq.mem g hg) hname) hreq.disjoint
    (fun g hg name hname => hE.mem_tableColumns (hreq.mem g hg) hname) hcount
    (fun name hname => exists_field hres hstored hreq hname) rowIndices
  refine ⟨t, ht, hnumRows, ?_⟩
  rw [hcontent]
  apply map_congr_left
  intro name hname
  rw [columnCells_eq hreq hdisj hname]

variable (hsorted : rowIndices.Pairwise (· < ·)) (hne : rowIndices ≠ [])

include hcgs hdisj htotal hres hE hstored hsorted hne

/-- **The synchronous take.** -/
theorem take_returnsRows (parallelism numThreads : ℕ) : ReturnsRows E.storage gs resolved rowIndices
    (R.take E rowIndices parallelism neededColumns numThreads) := by
  rw [ReaderImpl.take, if_neg hne]
  by_cases hgs : gs = []
  · subst hgs
    have hplan : ∃ e, R.plan neededColumns = .error e := ⟨_, if_pos hcgs⟩
    obtain ⟨e, he⟩ := hplan
    rw [he]
    exact returnsRows_of_ok (fun h => absurd h (not_inRange_nil hne)) nofun
  obtain ⟨groups, hgroups, hreq⟩ := requiredColumnGroups_ok hcgs hdisj resolved
  have hserves : ∀ g ∈ groups, Serves E.storage (ReaderImpl.lazyReader E resolved g)
      (E.tableColumns resolved g) := fun g hg => hE.serves g (hreq.mem g hg)
  rw [plan_ok hcgs hres hgs hgroups, ok_bind]
  dsimp only
  apply returnsRows_of_ok
  · intro hrange
    have htake : ∀ g ∈ groups, ∃ t, (ReaderImpl.lazyReader E resolved g).take rowIndices parallelism
        numThreads = .ok t ∧ t.content = tabulate (E.tableColumns resolved g)
          (rowIndices.map (rowAt (visibleRows E.storage g.files))) ∧
        t.numRows = if E.tableColumns resolved g = [] then 0 else rowIndices.length := fun g hg =>
      (hserves g hg).take_ok hne hsorted ((htotal g (hreq.mem g hg)).symm ▸ hrange) _ _
    obtain ⟨count, hcount⟩ := hE.exists_count hreq rowIndices.length
    choose! table htable hcontent hnumRows using htake
    rw [mapM_eq_ok_map htable]
    have hcounts : ∀ t ∈ groups.map table, t.numRows = count :=
      forall_mem_map.mpr fun g hg => (hnumRows g hg).trans (hcount g hg)
    apply buildTakeTable_rows hdisj hres hE hstored hreq _ hcounts
    rwa [forall₂_map_right_iff, forall₂_same]
  · intro t ht
    obtain ⟨tables, htables, -⟩ := bind_eq_ok.mp ht
    obtain ⟨g, hg⟩ := exists_mem_of_ne_nil _ (hreq.ne_nil hgs)
    obtain ⟨i, hi⟩ := mem_iff_getElem?.mp hg
    obtain ⟨t', -, ht'⟩ := getElem?_of_mapM_ok htables hi
    by_contra hrange
    rw [← htotal g (hreq.mem g hg)] at hrange
    obtain ⟨e, he⟩ := (hserves g hg).take_error hsorted hrange parallelism numThreads
    cases ht'.symm.trans he

/-- **The asynchronous take.** -/
theorem takeAsync_returnsRows (hcols : E.HasColumns gs resolved)
    (hbuilds : E.Builds gs resolved rowIndices) (parallelism : ℕ)
    {order : List ℕ} (horder : R.Completes rowIndices parallelism neededColumns order) :
    ∃ result, R.takeAsync E rowIndices parallelism neededColumns order = some result ∧
      ReturnsRows E.storage gs resolved rowIndices result := by
  rw [ReaderImpl.takeAsync, if_neg hne]
  by_cases hgs : gs = []
  · subst hgs
    have hplan : ∃ e, R.plan neededColumns = .error e := ⟨_, if_pos hcgs⟩
    obtain ⟨e, he⟩ := hplan
    rw [he]
    exact ⟨_, rfl, returnsRows_of_ok (fun h => absurd h (not_inRange_nil hne)) nofun⟩
  obtain ⟨groups, hgroups, hreq⟩ := requiredColumnGroups_ok hcgs hdisj resolved
  have hplan := plan_ok hcgs hres hgs hgroups
  have hvisible : ∀ files ∈ groups.map ColumnGroup.files, ∀ file ∈ files, Visible E.storage file :=
    forall_mem_map.mpr fun g hg => hE.visible (hreq.mem g hg)
  rw [hplan]
  dsimp only
  by_cases hrange : InRange (total gs) rowIndices
  · obtain ⟨tasks, htasks, hok, hitems⟩ := TakeTask.split_build_ok hsorted hvisible
      (fun row hrow => (hrange row hrow).1)
      (forall_mem_map.mpr fun g hg => (htotal g (hreq.mem g hg)).symm ▸ hrange)
      (max parallelism 1) (getAsyncTaskSplitStrategy R.taskSplitStrategy)
    rw [length_map] at hitems
    have htakeTasks : R.takeTasks groups rowIndices parallelism = .ok tasks := htasks
    obtain ⟨tables, htables, hforall⟩ := takeTablesAsync_ok
      (fun g hg => hE.serves g (hreq.mem g hg)) (hE.tableColumns_ne_nil hreq hcols)
      hne hok hitems (horder _ _ _ hplan htakeTasks) fun g hg => hbuilds g (hreq.mem g hg)
    obtain ⟨t, ht, hnumRows, hcontent⟩ := buildTakeTable_rows hdisj hres hE hstored
      hreq (hforall.imp fun _ _ h => h.1) (show ∀ t ∈ tables, _ = rowIndices.length by
        intro t ht
        obtain ⟨i, hi⟩ := mem_iff_getElem?.mp ht
        obtain ⟨hlt, rfl⟩ := List.getElem?_eq_some_iff.mp hi
        have hholds := hforall.get (hforall.length_eq ▸ hlt) hlt
        rw [get_eq_getElem] at hholds
        exact hholds.2.trans (length_map ..))
    rw [htakeTasks]
    dsimp only
    rw [htables]
    refine ⟨_, rfl, returnsRows_of_ok (fun _ => ⟨t, ?_, hnumRows, hcontent⟩) fun _ _ => hrange⟩
    exact ht
  · cases htasks : R.takeTasks groups rowIndices parallelism with
    | error e => exact ⟨_, rfl, returnsRows_of_ok (fun h => absurd h hrange) nofun⟩
    | ok tasks =>
      obtain ⟨built, hbuilt, -⟩ := bind_eq_ok.mp htasks
      obtain ⟨g, hg⟩ := exists_mem_of_ne_nil _ (hreq.ne_nil hgs)
      have hin := TakeTask.inRange_of_build (mem_map_of_mem hg)
        (hvisible _ (mem_map_of_mem hg)) hbuilt
      rw [htotal g (hreq.mem g hg)] at hin
      exact absurd hin hrange

end Take

/-- The table of some rows. -/
def Table.ofRows (names : List String) (rows : List (NamedRow V)) : Table V where
  columns := names.map fun name => (name, [rows.map fun row => row name])
  numRows := rows.length

theorem Table.holds_ofRows (names : List String) (rows : List (NamedRow V)) :
    (Table.ofRows names rows).Holds names rows := by
  constructor
  · simp [Table.ofRows, Table.content, tabulate]
  · rfl

/-- A reader of these columns of rows in memory. -/
def FileReader.ofRows (columns : List String) (rows : List (NamedRow V)) : FileReader V where
  take indices := .ok (.ofRows columns (indices.map (rowAt rows)))
  takeAsync indices := .ok (.ok (.ofRows columns (indices.map (rowAt rows))))

/-- Files whose rows are in memory, in one row group. `unprojected` are the columns that are
returned if none is needed. -/
def Environment.ofRows (storage : String → List (NamedRow V))
    (unprojected : ColumnGroup → List String) : Environment V where
  storage := storage
  openForTake g needed file :=
    .ok (.ofRows (if needed = [] then unprojected g else needed) (storage file.path))
  openForTakeAsync g needed file :=
    .ok (.ok (.ofRows (if needed = [] then unprojected g else needed) (storage file.path)))
  openForScan _ file := .ok (.ofRows [⟨0, (storage file.path).length, 0, true⟩] (storage file.path))
  fields := ColumnGroup.columns
  columnsOf g needed := if needed = [] then unprojected g else needed
  build _ slices := .ok slices.flatten

theorem Environment.answers_ofRows {unprojected : ColumnGroup → List String}
    (hvisible : ∀ g ∈ gs, ∀ file ∈ g.files, Visible storage file)
    (hlen : ∀ path, (storage path).length < 2 ^ 64)
    (hunprojected : ∀ g ∈ gs, ∀ name ∈ unprojected g, name ∈ g.columns) (resolved : List String) :
    (Environment.ofRows storage unprojected).Answers gs resolved where
  serves g hg := ⟨hvisible g hg, fun file _ => ⟨_, rfl, fun indices _ =>
    ⟨_, rfl, Table.holds_ofRows ..⟩⟩, fun file _ => ⟨_, rfl, fun indices _ =>
    ⟨_, rfl, Table.holds_ofRows ..⟩⟩⟩
  columnsOf_needed g hg needed hneeded := if_neg hneeded
  columnsOf_nil g hg name hname := hunprojected g hg name hname
  rowGroups g hg file hfile := by
    refine ⟨_, _, rfl, rfl, ?_, ?_, hlen file.path⟩
    · simp
    · simp [Tiling.Chained, RowGroupInfo.numRows, Environment.ofRows]
  fields g hg name hname := hname

/-- The file with three rows, of which first the first two and then the last two are visible. -/
def idColumnGroup : ColumnGroup := ⟨["id"], loonFormatParquet, [⟨"a", 0, 2, []⟩, ⟨"a", 1, 3, []⟩]⟩

/-- A format that returns all columns if none is needed. -/
def allColumns : Environment ℕ := .ofRows (fun _ => idRows) ColumnGroup.columns

/-- A format that returns no columns if none is needed. -/
def noColumns : Environment ℕ := .ofRows (fun _ => idRows) fun _ => []

theorem idColumnGroup_visible : ∀ g ∈ [idColumnGroup], ∀ file ∈ g.files,
    Visible (fun _ => idRows) file := by
  rw [forall_mem_singleton]
  exact forall_mem_cons.mpr ⟨by unfold Visible; decide,
    forall_mem_singleton.mpr (by unfold Visible; decide)⟩

theorem allColumns_answers (resolved : List String) : allColumns.Answers [idColumnGroup] resolved :=
  Environment.answers_ofRows idColumnGroup_visible (fun _ => by decide) (fun _ _ _ h => h) resolved

theorem noColumns_answers (resolved : List String) : noColumns.Answers [idColumnGroup] resolved :=
  Environment.answers_ofRows idColumnGroup_visible (fun _ => by decide)
    (fun _ _ _ h => absurd h not_mem_nil) resolved

def idReaderImpl (schema : Option (List String)) : ReaderImpl where
  cgs := [some idColumnGroup]
  schema := schema
  neededColumns := none
  taskSplitStrategy := "all"
  properties := ⟨0, 1⟩

theorem buildGroup_idColumnGroup : TakeTask.buildGroup 0 idColumnGroup.files [1, 3] =
    .ok [.ofRows 0 0 [(1, 0)], .ofRows 0 1 [(3, 1)]] := by
  show ok ((sortUnique [0, 1]).map _) = _
  rw [sortUnique_eq_self (by decide)]
  rfl

theorem takeTasks_idReaderImpl (schema : Option (List String)) :
    (idReaderImpl schema).takeTasks [idColumnGroup] [1, 3] 1 =
      .ok [.ofRows 0 0 [(1, 0)], .ofRows 0 1 [(3, 1)]] := by
  show ((do
    let tasks ← TakeTask.buildGroup 0 idColumnGroup.files [1, 3]
    let rest ← pure []
    return tasks :: rest) >>= fun tasks =>
      splitAsyncTasks TakeTask.traits tasks.flatten 1 .splitAll) = _
  rw [buildGroup_idColumnGroup]
  rfl

end MilvusStorage.Take
