import MilvusStorage.Format.Tasks
import MilvusStorage.Take.Sync

/-!
# The asynchronous take

`TakeTask::Build` makes tasks of rows of one file, and splitting a task keeps this
(`TakeTask.traits_lawful`). Together the tasks of a group have every requested row once, with its
position (`split_build_ok`). So the positions tell how to put the rows in order, whatever the tasks
are and however they complete (`takeTablesAsync_ok`).

The rows are put in order by `CopySelectedRows`, which needs their number; a concatenated table
without columns does not have it. Therefore the tables of a group must have columns.
-/

namespace MilvusStorage.Take

open Except List Format Function

variable {V : Type}

/-! ## Tasks -/

namespace TakeTask

/-- The rows of a task with their positions and their group. -/
def items (task : TakeTask) : List (ℕ × ℤ × ℕ) :=
  task.rowsAndPositions.map fun row => (task.readerIndex, row)

/-- The rows of a group. -/
def itemsOf (i : ℕ) (tasks : List TakeTask) : List (ℤ × ℕ) :=
  (tasks.filter fun task => task.readerIndex = i).flatMap rowsAndPositions

/-- A task has rows of its file, in order. -/
structure Ok (groups : List (List ColumnGroupFile)) (task : TakeTask) : Prop where
  ne_nil : task.rowIndices ≠ []
  sorted : task.rowIndices.Pairwise (· < ·)
  located : ∃ files, groups[task.readerIndex]? = some files ∧ ∀ row ∈ task.rowIndices,
    ∃ offset, getIndexAndOffsetOfFile files row = .ok (task.fileIndex, offset) ∧
      Located files row task.fileIndex offset

@[simp] theorem rowsAndPositions_ofRows (i fileIndex : ℕ) (rows : List (ℤ × ℕ)) :
    (ofRows i fileIndex rows).rowsAndPositions = rows := by
  simp [ofRows, rowsAndPositions, zip_map']

@[simp] theorem map_fst_rowsAndPositions (task : TakeTask) :
    task.rowsAndPositions.map Prod.fst = task.rowIndices :=
  map_fst_zip task.length_eq.ge

@[simp] theorem map_snd_rowsAndPositions (task : TakeTask) :
    task.rowsAndPositions.map Prod.snd = task.originalPositions :=
  map_snd_zip task.length_eq.le

@[simp] theorem length_items (task : TakeTask) : task.items.length = task.rowIndices.length := by
  simp [items, rowsAndPositions, task.length_eq]

variable {groups : List (List ColumnGroupFile)}

theorem split_ok {task : TakeTask} (h : task.Ok groups) (hlt : 1 < task.rowIndices.length) :
    task.split.1.Ok groups ∧ task.split.2.Ok groups ∧
      task.items = task.split.1.items ++ task.split.2.items := by
  obtain ⟨files, hfiles, hloc⟩ := h.located
  refine ⟨⟨?_, h.sorted.sublist (take_sublist ..), files, hfiles, fun row hrow =>
    hloc row (mem_of_mem_take hrow)⟩, ⟨?_, h.sorted.sublist (drop_sublist ..), files,
    hfiles, fun row hrow => hloc row (mem_of_mem_drop hrow)⟩, ?_⟩
  · show task.rowIndices.take _ ≠ []
    rw [← length_pos_iff, length_take]
    omega
  · show task.rowIndices.drop _ ≠ []
    rw [← length_pos_iff, length_drop]
    omega
  · simp only [items, rowsAndPositions, split, ← map_append]
    rw [← zip_append (by simp [task.length_eq]), take_append_drop, take_append_drop]

theorem traits_lawful : traits.Lawful items (Ok groups) where
  size_eq task := (length_items task).symm
  canSplit_iff task := by simp [traits]
  items_ne_nil task h := by
    rw [← length_pos_iff, length_items, length_pos_iff]
    exact h.ne_nil
  split_ok task h hsplit := ⟨_, _, rfl, split_ok h (of_decide_eq_true hsplit)⟩

theorem itemsOf_eq (i : ℕ) (tasks : List TakeTask) :
    itemsOf i tasks = ((tasks.flatMap items).filter fun item => item.1 = i).map Prod.snd := by
  induction tasks with
  | nil => rfl
  | cons task tasks ih =>
    rw [flatMap_cons, filter_append, map_append, ← ih]
    by_cases hi : task.readerIndex = i <;> simp [itemsOf, items, hi, filter_map, comp_def]

/-! ## `Build` -/

theorem checkRows_ok {rowIndices : List ℤ} (h : rowIndices.Pairwise (· < ·))
    (hnn : ∀ row ∈ rowIndices, 0 ≤ row) (i : ℕ) {prev : Option ℤ}
    (hprev : ∀ p ∈ prev, ∀ row ∈ rowIndices, p < row) : checkRows i prev rowIndices = .ok () := by
  induction rowIndices generalizing i prev with
  | nil => rfl
  | cons row rowIndices ih =>
    obtain ⟨hrow, hrest⟩ := pairwise_cons.mp h
    obtain ⟨hzero, hnn⟩ := forall_mem_cons.mp hnn
    have hsorted : prev.any (fun prev => row ≤ prev) = false := by
      cases prev with
      | none => rfl
      | some p => simpa using hprev p rfl row mem_cons_self
    rw [checkRows, if_neg (by omega), hsorted]
    exact ih hrest hnn (i + 1) fun p hp => Option.mem_some.mp hp ▸ hrow

variable {i : ℕ}

theorem nonneg_of_checkRows {rowIndices : List ℤ} {prev : Option ℤ}
    (h : checkRows i prev rowIndices = .ok ()) : ∀ row ∈ rowIndices, 0 ≤ row := by
  induction rowIndices generalizing i prev with
  | nil => exact forall_mem_nil _
  | cons row rowIndices ih =>
    rw [checkRows] at h
    split_ifs at h with hneg
    exact forall_mem_cons.mpr ⟨by omega, ih h⟩

variable {storage : String → List (NamedRow V)} {rowIndices : List ℤ}
  (hsorted : rowIndices.Pairwise (· < ·))

include hsorted

variable {files : List ColumnGroupFile}

/-- **The tasks of a group** have the requested rows. -/
theorem buildGroup_ok (hi : groups[i]? = some files)
    (hvisible : ∀ file ∈ files, Visible storage file)
    (hrange : InRange (totalRows files) rowIndices) :
    ∃ tasks, buildGroup i files rowIndices = .ok tasks ∧
      (∀ task ∈ tasks, task.Ok groups ∧ task.readerIndex = i) ∧
      (tasks.flatMap rowsAndPositions).Perm rowIndices.zipIdx := by
  obtain ⟨locate, hlocate⟩ := exists_locate hvisible hrange
  have hmem : ∀ p ∈ rowIndices.zipIdx, p.1 ∈ rowIndices := fun p hp =>
    mem_of_getElem? (mem_zipIdx_iff_getElem?.mp hp)
  let located := rowIndices.zipIdx.map fun p => ((locate p.1).1, p)
  -- the rows of a file
  have hfile : ∀ fileIndex, (located.filter fun l => l.1 = fileIndex).map Prod.snd =
      rowIndices.zipIdx.filter fun p => (locate p.1).1 = fileIndex := by
    intro fileIndex
    simp only [located, filter_map, map_map, comp_def, map_id']
  have hbuild : buildGroup i files rowIndices =
      .ok ((sortUnique (located.map Prod.fst)).map fun fileIndex =>
        .ofRows i fileIndex ((located.filter fun l => l.1 = fileIndex).map Prod.snd)) := by
    rw [buildGroup, mapM_eq_ok_map (g := fun p => ((locate p.1).1, p))]
    · rfl
    · rintro ⟨row, pos⟩ hp
      dsimp only
      simp [(hlocate row (hmem _ hp)).1]
  refine ⟨_, hbuild, ?_, ?_⟩
  · rw [forall_mem_map]
    intro fileIndex hmemFile
    refine ⟨⟨?_, ?_, files, hi, ?_⟩, rfl⟩
    · obtain ⟨l, hl, rfl⟩ := mem_map.mp (mem_sortUnique.mp hmemFile)
      have hl' : l ∈ located.filter fun l' => l'.1 = l.1 :=
        mem_filter.mpr ⟨hl, decide_eq_true rfl⟩
      exact ne_nil_of_mem (mem_map_of_mem (mem_map_of_mem hl'))
    · rw [hfile]
      refine hsorted.sublist ?_
      conv_rhs => rw [← zipIdx_map_fst 0 rowIndices]
      exact filter_sublist.map _
    · intro row hrow
      rw [hfile] at hrow
      obtain ⟨p, hp, rfl⟩ := mem_map.mp hrow
      obtain ⟨hp, hfileIndex⟩ := mem_filter.mp hp
      obtain ⟨hok, hloc⟩ := hlocate p.1 (hmem p hp)
      have hfileIndex := of_decide_eq_true hfileIndex
      refine ⟨(locate p.1).2, ?_, ?_⟩
      · rw [hok, ← hfileIndex]
        rfl
      · exact hfileIndex ▸ hloc
  · rw [flatMap_map]
    simp only [rowsAndPositions_ofRows]
    rw [← map_flatMap]
    have hperm := Scatter.flatMap_filter_perm Prod.fst (l := located)
      (sortUnique_pairwise (l := located.map Prod.fst)).nodup
      fun l hl => mem_sortUnique.mpr (mem_map_of_mem hl)
    have hsnd := hperm.map Prod.snd
    rwa [show located.map Prod.snd = rowIndices.zipIdx by simp [located, comp_def]] at hsnd

omit hsorted in
/-- Only the `i`-th element contributes. -/
theorem flatMap_zipIdx_eq {α β : Type} {l : List α} {a : α} (h : l[i]? = some a) (k : ℕ)
    {f : α × ℕ → List β} (hf : ∀ p ∈ l.zipIdx k, p.2 ≠ k + i → f p = []) :
    (l.zipIdx k).flatMap f = f (a, k + i) := by
  induction l generalizing i k with
  | nil => cases h
  | cons b l ih =>
    rw [zipIdx_cons] at hf ⊢
    obtain ⟨hb, hl⟩ := forall_mem_cons.mp hf
    cases i with
    | zero =>
      cases h
      have hnil : (l.zipIdx (k + 1)).flatMap f = [] := by
        rw [flatMap_eq_nil_iff]
        intro p hp
        have := le_snd_of_mem_zipIdx hp
        exact hl p hp (by omega)
      rw [flatMap_cons, hnil, append_nil, add_zero]
    | succ i =>
      have hb := hb (by dsimp only; omega)
      rw [flatMap_cons, hb, nil_append, ih (i := i) (by simpa using h) (k + 1)]
      · rw [add_assoc, add_comm 1]
      · exact fun p hp hne => hl p hp (by omega)

/-- **The tasks of all groups.** -/
theorem build_ok (hvisible : ∀ files ∈ groups, ∀ file ∈ files, Visible storage file)
    (hnn : ∀ row ∈ rowIndices, 0 ≤ row)
    (hrange : ∀ files ∈ groups, InRange (totalRows files) rowIndices) :
    ∃ tasks, build groups rowIndices = .ok tasks ∧ (∀ task ∈ tasks, task.Ok groups) ∧
      ∀ i < groups.length, (itemsOf i tasks).Perm rowIndices.zipIdx := by
  have hgroup : ∀ p ∈ groups.zipIdx, ∃ tasks, buildGroup p.2 p.1 rowIndices = .ok tasks ∧
      (∀ task ∈ tasks, task.Ok groups ∧ task.readerIndex = p.2) ∧
      (tasks.flatMap rowsAndPositions).Perm rowIndices.zipIdx := by
    intro p hp
    have hi : groups[p.2]? = some p.1 := mem_zipIdx_iff_getElem?.mp hp
    have hmem := mem_of_getElem? hi
    exact buildGroup_ok hsorted hi (hvisible _ hmem) (hrange _ hmem)
  choose! tasksOf hok htasks hperm using hgroup
  refine ⟨groups.zipIdx.flatMap tasksOf, ?_, ?_, ?_⟩
  · rw [build, checkRows_ok hsorted hnn 0 (by simp), ok_bind,
      mapM_eq_ok_map hok, ok_bind, flatMap_def]
    rfl
  · intro task htask
    obtain ⟨p, hp, htask⟩ := mem_flatMap.mp htask
    exact (htasks p hp task htask).1
  · intro i hi
    have hget := getElem?_eq_getElem hi
    have hp : (groups[i], i) ∈ groups.zipIdx := mem_zipIdx_iff_getElem?.mpr hget
    have hsame : itemsOf i (groups.zipIdx.flatMap tasksOf) =
        groups.zipIdx.flatMap fun p => itemsOf i (tasksOf p) := by
      simp only [itemsOf, filter_flatMap, flatMap_assoc]
    have hself : itemsOf i (tasksOf (groups[i], i)) =
        (tasksOf (groups[i], i)).flatMap rowsAndPositions := by
      rw [itemsOf, filter_eq_self.mpr]
      exact fun task htask => decide_eq_true (htasks _ hp task htask).2
    rw [hsame, flatMap_zipIdx_eq hget 0]
    · rw [zero_add, hself]
      exact hperm _ hp
    · intro p hp hne
      rw [itemsOf, filter_eq_nil_iff.mpr, flatMap_nil]
      intro task htask
      rw [(htasks p hp task htask).2]
      simpa using hne

omit hsorted in
/-- A row that is not in range has no task. -/
theorem inRange_of_build (hfiles : files ∈ groups) (hvisible : ∀ file ∈ files, Visible storage file)
    {tasks : List TakeTask} (h : build groups rowIndices = .ok tasks) :
    InRange (totalRows files) rowIndices := by
  obtain ⟨⟨⟩, hcheck, h⟩ := bind_eq_ok.mp h
  obtain ⟨taskss, hgroups, -⟩ := bind_eq_ok.mp h
  intro row hrow
  refine ⟨nonneg_of_checkRows hcheck row hrow, not_le.mp fun hle => ?_⟩
  obtain ⟨i, hi⟩ := mem_iff_getElem?.mp hfiles
  obtain ⟨pos, hpos⟩ := mem_iff_getElem?.mp hrow
  have hp : groups.zipIdx[i]? = some (files, i) := by simp [hi]
  have hq : rowIndices.zipIdx[pos]? = some (row, pos) := by simp [hpos]
  obtain ⟨_, -, hgroup⟩ := getElem?_of_mapM_ok hgroups hp
  obtain ⟨located, hloc, -⟩ := bind_eq_ok.mp hgroup
  obtain ⟨_, -, hrowOk⟩ := getElem?_of_mapM_ok hloc hq
  obtain ⟨l, hl, -⟩ := bind_eq_ok.mp hrowOk
  obtain ⟨e, he⟩ := fileOfRow_error hvisible row 0 hle
  cases hl.symm.trans he

/-- **The tasks of a request**, with every strategy. -/
theorem split_build_ok (hvisible : ∀ files ∈ groups, ∀ file ∈ files, Visible storage file)
    (hnn : ∀ row ∈ rowIndices, 0 ≤ row)
    (hrange : ∀ files ∈ groups, InRange (totalRows files) rowIndices) (targetCount : ℕ)
    (strategy : AsyncTaskSplitStrategy) :
    ∃ tasks, (do
        let tasks ← build groups rowIndices
        splitAsyncTasks traits tasks targetCount strategy) = .ok tasks ∧
      (∀ task ∈ tasks, task.Ok groups) ∧
      ∀ i < groups.length, (itemsOf i tasks).Perm rowIndices.zipIdx := by
  obtain ⟨tasks, hbuild, hok, hitems⟩ := build_ok hsorted hvisible hnn hrange
  obtain ⟨tasks', hsplit, hok', hperm⟩ :=
    splitAsyncTasks_ok traits_lawful hok targetCount strategy
  refine ⟨tasks', by rw [hbuild, ok_bind, hsplit], hok', fun i hi => ?_⟩
  refine List.Perm.trans ?_ (hitems i hi)
  rw [itemsOf_eq, itemsOf_eq]
  exact (hperm.filter _).map _

end TakeTask

/-- **Splitting the tasks of a request**, of chunks or of rows, with every strategy and any number
of tasks asked for. -/
theorem async_tasks_split (targetCount : ℕ) (strategy : AsyncTaskSplitStrategy) :
    (∀ {Row : Type} (r : ColumnGroupReader Row) (chunkIndices : List ℤ), IsOpen r → Layouts r →
      r.AllExist chunkIndices → ∃ tasks tasks', r.buildChunkTasks chunkIndices = .ok tasks ∧
        Splits r.chunkTaskTraits ChunkTask.chunkIndices targetCount strategy tasks tasks' ∧
        ∀ task ∈ tasks', ∀ row, task.rangeStart ≤ row ∧ row < task.rangeEnd ↔
          ∃ idx ∈ task.chunkIndices, ∃ c, r.chunkInfo? idx = some c ∧
            c.fileIndex = task.fileIndex ∧ c.rowOffsetInFile ≤ row ∧
            row < c.rowOffsetInFile + c.numberOfRows) ∧
      ∀ (storage : String → List (NamedRow V)) (groups : List (List ColumnGroupFile))
        (rowIndices : List ℤ), (∀ files ∈ groups, ∀ file ∈ files, Visible storage file) →
        rowIndices.Pairwise (· < ·) → (∀ row ∈ rowIndices, 0 ≤ row) →
        (∀ files ∈ groups, InRange (totalRows files) rowIndices) →
        ∃ tasks tasks', TakeTask.build groups rowIndices = .ok tasks ∧
          Splits TakeTask.traits TakeTask.items targetCount strategy tasks tasks' := by
  constructor
  · intro Row r chunkIndices hopen hlayouts hall
    obtain ⟨tasks, hbuild, hok, -⟩ := hopen.buildChunkTasks_ok hlayouts hall
    obtain ⟨tasks', hsplits, hok'⟩ :=
      exists_splits (chunkTaskTraits_lawful r) hok targetCount strategy
    exact ⟨tasks, tasks', hbuild, hsplits, fun task htask => mem_range_iff (hok' task htask)⟩
  · intro storage groups rowIndices hvisible hsorted hnn hrange
    obtain ⟨tasks, hbuild, hok, -⟩ := TakeTask.build_ok hsorted hvisible hnn hrange
    obtain ⟨tasks', hsplits, -⟩ := exists_splits TakeTask.traits_lawful hok targetCount strategy
    exact ⟨tasks, tasks', hbuild, hsplits⟩

theorem async_tasks_split_small : (∃ tasks tasks',
    smallReader.buildChunkTasks [0, 1, 3] = .ok tasks ∧ Splits smallReader.chunkTaskTraits
      ChunkTask.chunkIndices 3 .splitToParallelism tasks tasks') ∧
    ∃ tasks tasks', TakeTask.build [[⟨"a", 0, 2, []⟩]] [0, 1] = .ok tasks ∧
      Splits TakeTask.traits TakeTask.items 2 .splitAll tasks tasks' := by
  constructor
  · obtain ⟨tasks, tasks', hbuild, hsplits, -⟩ := (async_tasks_split (V := ℕ) 3 _).1 smallReader
      [0, 1, 3] (isOpen_of_open open_smallSource).1 smallReader_layouts (by decide)
    exact ⟨tasks, tasks', hbuild, hsplits⟩
  · exact (async_tasks_split (V := ℕ) 2 _).2 (fun _ => replicate 2 fun _ => none) _ _
      (by simp [Visible]) (by decide) (by decide) (by simp [InRange, totalRows])

/-! ## Running the tasks -/

section Tasks

variable {storage : String → List (NamedRow V)} {r : ColumnGroupLazyReader V} {names : List String}

/-- A task returns its rows. -/
theorem Serves.takeAsync_ok (hr : Serves storage r names) {task : TakeTask}
    (hne : task.rowIndices ≠ []) (hsorted : task.rowIndices.Pairwise (· < ·))
    (hloc : ∀ row ∈ task.rowIndices, ∃ offset,
      getIndexAndOffsetOfFile r.files row = .ok (task.fileIndex, offset) ∧
        Located r.files row task.fileIndex offset) :
    ∃ t, r.takeAsync task = .ok (.ok t) ∧
      t.Holds names (task.rowIndices.map (rowAt (visibleRows storage r.files))) := by
  choose! offset hoff using hloc
  obtain ⟨row, hrow⟩ := exists_mem_of_ne_nil _ hne
  have hfile := getElem?_eq_getElem (hoff row hrow).2.lt_length
  obtain ⟨reader, hopen, htake⟩ := hr.takeAsync _ (mem_of_getElem? hfile)
  obtain ⟨hreq, hrows⟩ := request_of_located hr.visible hne hsorted
    (fun row => (task.fileIndex, offset row)) hfile fun row hrow => (hoff row hrow).2
  obtain ⟨t, ht, hholds⟩ := htake _ hreq
  have hmapM : task.rowIndices.mapM (r.rowInTaskFile task) = .ok (task.rowIndices.map offset) := by
    apply mapM_eq_ok_map
    intro row hrow
    rw [ColumnGroupLazyReader.rowInTaskFile, (hoff row hrow).1, ok_bind]
    exact if_neg (not_not.mpr rfl)
  refine ⟨t, ?_, hrows ▸ hholds⟩
  rw [ColumnGroupLazyReader.takeAsync, hmapM]
  dsimp only
  rw [ColumnGroupLazyReader.openReaderForFileAsync, hfile]
  dsimp only
  rw [hopen, ok_bind]
  dsimp only
  rw [ht]
  rfl

/-- **The table of a group** has the rows in the order of the request. -/
theorem groupTable_ok {rowIndices : List ℤ} (hne : rowIndices ≠ []) (hnames : names ≠ [])
    {tasks : List TakeTask}
    (hitems : (tasks.flatMap TakeTask.rowsAndPositions).Perm rowIndices.zipIdx)
    {table : TakeTask → Table V} (row : ℤ → NamedRow V)
    (htable : ∀ task ∈ tasks, (table task).content = tabulate names (task.rowIndices.map row))
    {build : ColumnBuilder String (Option V)} (hbuild : ∀ name ∈ names, ∀ slices,
      slices.flatten = (rowIndices.map fun i => row i name) →
        build name slices = .ok slices.flatten) :
    ∃ t, groupTable build rowIndices.length (tasks.map fun task => (task, table task)) =
        .ok (some t) ∧
      t.Holds names (rowIndices.map row) := by
  have hlen : (tasks.flatMap TakeTask.rowsAndPositions).length = rowIndices.length := by
    rw [hitems.length_eq, length_zipIdx]
  have htasks : tasks ≠ [] := by
    rintro rfl
    exact hne (length_eq_zero_iff.mp hlen.symm)
  have hpositions : (tasks.map fun task => (task, table task)).flatMap
      (fun t => t.1.originalPositions) =
        (tasks.flatMap TakeTask.rowsAndPositions).map Prod.snd := by
    simp [flatMap_map, map_flatMap]
  have hrows : tasks.flatMap (fun task => task.rowIndices.map row) =
      ((tasks.flatMap TakeTask.rowsAndPositions).map Prod.fst).map row := by
    simp [map_flatMap]
  obtain ⟨concatenated, hconcat, hcontent, hnumRows⟩ := concatenateTables_ok htasks htable
  rw [if_neg hnames] at hnumRows
  rw [hrows] at hcontent hnumRows
  obtain ⟨places, hplaces, hmem, hgather⟩ := Scatter.gather_scatter hitems
    (length_replicate : (replicate rowIndices.length (0 : ℤ)).length = _)
    (fun i => (i : ℤ)) Int.toNat fun i _ => Int.toNat_natCast i
  have hselected : places.map (fun i =>
      (((tasks.flatMap TakeTask.rowsAndPositions).map Prod.fst).map row)[i.toNat]?) =
        (rowIndices.map row).map some := by
    have := congrArg (map (Option.map row)) hgather
    simpa [comp_def] using this
  obtain ⟨t, ht, hholds⟩ := Table.copySelectedRows_ok (by
      intro i hi
      obtain ⟨k, hk, rfl⟩ := hmem i hi
      rw [length_map, length_map]
      omega) hselected
    (fun name hname slices hslices => hbuild name hname slices (hslices.trans (map_map ..)))
    hcontent hnumRows
  refine ⟨t, ?_, hholds⟩
  rw [groupTable, if_neg (by simpa using htasks), map_map, comp_def, hconcat, ok_bind]
  dsimp only
  rw [hpositions, if_neg (by rw [length_map, hlen]; exact not_not.mpr rfl), reorder, hplaces]
  dsimp only
  simp [ok_bind, ht]

end Tasks

/-- **The tables of all groups.** -/
theorem takeTablesAsync_ok {α : Type} {storage : String → List (NamedRow V)} {gs : List α}
    {reader : α → ColumnGroupLazyReader V} {names : α → List String}
    (hserves : ∀ g ∈ gs, Serves storage (reader g) (names g)) (hnames : ∀ g ∈ gs, names g ≠ [])
    {rowIndices : List ℤ} (hne : rowIndices ≠ []) {tasks : List TakeTask}
    (hok : ∀ task ∈ tasks, task.Ok (gs.map fun g => (reader g).files))
    (hitems : ∀ i < gs.length, (TakeTask.itemsOf i tasks).Perm rowIndices.zipIdx) {order : List ℕ}
    (horder : order.Perm (List.range tasks.length)) {build : ColumnBuilder String (Option V)}
    (hbuild : ∀ g ∈ gs, ∀ name ∈ names g, ∀ slices, slices.flatten =
      (rowIndices.map fun i => rowAt (visibleRows storage (reader g).files) i name) →
        build name slices = .ok slices.flatten) :
    ∃ tables, takeTablesAsync build rowIndices (gs.map reader) tasks order = some (.ok tables) ∧
      Forall₂ (fun g t => t.Holds (names g)
        (rowIndices.map (rowAt (visibleRows storage (reader g).files)))) gs tables := by
  have hrun : ∀ task ∈ tasks, ∃ t, runTask (gs.map reader) task = .ok (.ok t) ∧
      ∀ g, gs[task.readerIndex]? = some g → t.Holds (names g)
        (task.rowIndices.map (rowAt (visibleRows storage (reader g).files))) := by
    intro task htask
    obtain ⟨files, hfiles, hloc⟩ := (hok task htask).located
    rw [getElem?_map, Option.map_eq_some_iff] at hfiles
    obtain ⟨g, hg, rfl⟩ := hfiles
    obtain ⟨t, ht, hholds⟩ := (hserves g (mem_of_getElem? hg)).takeAsync_ok
      (hok task htask).ne_nil (hok task htask).sorted hloc
    refine ⟨t, ?_, fun g' hg' => Option.some.inj (hg.symm.trans hg') ▸ hholds⟩
    rwa [runTask, getElem?_map, hg]
  choose! table htable hholds using hrun
  have hresults : tasks.zip (tasks.map (runTask (gs.map reader))) =
      tasks.map fun task => (task, .ok (.ok (table task))) := by
    rw [map_congr_left htable]
    conv_lhs => rw [← map_id tasks, map_map, zip_map']
    rfl
  have hcollect : collectTables (tasks.zip (tasks.map (runTask (gs.map reader)))) =
      .ok (tasks.map fun task => (task, table task)) := by
    rw [hresults, collectTables, mapM_map]
    exact mapM_eq_ok_map fun task _ => rfl
  have hgroup : ∀ i ∈ range gs.length, ∃ t,
      groupTable build rowIndices.length ((tasks.map fun task => (task, table task)).filter fun t =>
        t.1.readerIndex = i) = .ok (some t) ∧ ∀ g, gs[i]? = some g → t.Holds (names g)
          (rowIndices.map (rowAt (visibleRows storage (reader g).files))) := by
    intro i hi
    have hi := mem_range.mp hi
    have hg := getElem?_eq_getElem hi
    have hgmem := mem_of_getElem? hg
    obtain ⟨t, ht, hholdsAll⟩ := groupTable_ok hne (hnames _ hgmem) (hitems i hi)
      (rowAt (visibleRows storage (reader gs[i]).files)) (by
        intro task htask
        obtain ⟨htask, hidx⟩ := mem_filter.mp htask
        refine (hholds task htask _ ?_).1
        rw [of_decide_eq_true hidx, hg]) (hbuild _ hgmem)
    refine ⟨t, ?_, fun g hg' => Option.some.inj (hg.symm.trans hg') ▸ hholdsAll⟩
    rwa [filter_map]
  choose! groupOf hgroupOf hheld using hgroup
  refine ⟨(range gs.length).map groupOf, ?_, ?_⟩
  · rw [takeTablesAsync, collectAll_of_perm (by rwa [length_map])]
    simp only [Option.bind_eq_bind, Option.bind_some, hcollect, ok_bind, groupTables,
      length_map, mapM_eq_ok_map hgroupOf]
    simp [pure_eq_ok, filterMap_map]
  · refine forall₂_iff_get.mpr ⟨by simp, fun i hi hi' => ?_⟩
    simp only [get_eq_getElem, getElem_map, getElem_range]
    exact hheld i (mem_range.mpr hi) _ (getElem?_eq_getElem hi)

end MilvusStorage.Take
