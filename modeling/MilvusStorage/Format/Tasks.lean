import MilvusStorage.Format.Requests

/-!
# Chunk tasks

`ChunkTask::Build` makes tasks of adjacent chunks of a file, and splitting a task keeps this
(`chunkTaskTraits_lawful`): a task always has the range of its chunks (`TaskOk`). Together the tasks
have the chunks of the request (`chunkTasks_ok`).
-/

namespace MilvusStorage.Format

open List Tiling ColumnGroupReader

variable {Row : Type} {r : ColumnGroupReader Row}

/-- A task has the range of its chunks, which are adjacent chunks of its file. -/
def ColumnGroupReader.TaskOk (r : ColumnGroupReader Row) (task : ChunkTask) : Prop :=
  ∃ infos ≠ [], Forall₂ (fun idx info => r.chunkInfo? idx = some info)
      task.chunkIndices infos ∧ (∀ info ∈ infos, info.fileIndex = task.fileIndex) ∧
    Chained ChunkInfo.rowOffsetInFile ChunkInfo.numberOfRows task.rangeStart infos task.rangeEnd

theorem chunkIndices_ne_nil {task : ChunkTask} (h : r.TaskOk task) : task.chunkIndices ≠ [] := by
  obtain ⟨infos, hne, hinfos, -⟩ := h
  intro hnil
  rw [hnil] at hinfos
  exact hne (forall₂_nil_left_iff.mp hinfos)

/-- The rows of a task are those of its chunks. -/
theorem mem_range_iff {task : ChunkTask} (h : r.TaskOk task) (row : ℕ) :
    task.rangeStart ≤ row ∧ row < task.rangeEnd ↔ ∃ idx ∈ task.chunkIndices, ∃ c,
      r.chunkInfo? idx = some c ∧ c.fileIndex = task.fileIndex ∧ c.rowOffsetInFile ≤ row ∧
        row < c.rowOffsetInFile + c.numberOfRows := by
  obtain ⟨infos, -, hinfos, hfile, hchain⟩ := h
  constructor
  · rintro ⟨hle, hlt⟩
    obtain ⟨c, hc, hrow⟩ := hchain.exists_mem hle hlt
    obtain ⟨idx, hidx, hget⟩ := hinfos.exists_left hc
    exact ⟨idx, hidx, c, hget, hfile c hc, hrow⟩
  · rintro ⟨idx, hidx, c, hget, -, hrow⟩
    obtain ⟨c', hc', hget'⟩ := hinfos.exists_right hidx
    cases hget.symm.trans hget'
    have := hchain.mem hc'
    omega

/-! ## Splitting -/

/-- The two halves of a task with several chunks. -/
theorem splitChunkTask_ok {task : ChunkTask} (h : r.TaskOk task)
    (hlt : 1 < task.chunkIndices.length) :
    ∃ left right, r.splitChunkTask task = .ok (left, right) ∧ r.TaskOk left ∧ r.TaskOk right ∧
      task.chunkIndices = left.chunkIndices ++ right.chunkIndices := by
  obtain ⟨infos, -, hinfos, hfile, hchain⟩ := h
  have hlen := hinfos.length_eq
  have hmid : task.chunkIndices.length / 2 < task.chunkIndices.length := by omega
  have hmid' : task.chunkIndices.length / 2 < infos.length := by omega
  have hinfo := hinfos.get hmid hmid'
  rw [get_eq_getElem] at hinfo
  have hdivide : infos = infos.take (task.chunkIndices.length / 2) ++
      infos[task.chunkIndices.length / 2] :: infos.drop (task.chunkIndices.length / 2 + 1) := by
    rw [← drop_eq_getElem_cons hmid', take_append_drop]
  rw [hdivide] at hchain
  obtain ⟨hleft, hright⟩ := hchain.split
  rw [← drop_eq_getElem_cons hmid'] at hright
  refine ⟨{ task with
      chunkIndices := task.chunkIndices.take (task.chunkIndices.length / 2)
      rangeEnd := infos[task.chunkIndices.length / 2].rowOffsetInFile },
    { task with
      chunkIndices := task.chunkIndices.drop (task.chunkIndices.length / 2)
      rangeStart := infos[task.chunkIndices.length / 2].rowOffsetInFile },
    ?_, ⟨infos.take (task.chunkIndices.length / 2), ?_,
    forall₂_take _ hinfos, fun info hmem => hfile info (mem_of_mem_take hmem), hleft⟩,
    ⟨infos.drop (task.chunkIndices.length / 2), ?_, forall₂_drop _ hinfos,
      fun info hmem => hfile info (mem_of_mem_drop hmem), hright⟩,
    (take_append_drop _ _).symm⟩
  · rw [splitChunkTask, getElem?_eq_getElem hmid]
    simp [getChunkInfo, hinfo]
  · rw [← length_pos_iff, length_take]
    omega
  · rw [← length_pos_iff, length_drop]
    omega

theorem chunkTaskTraits_lawful (r : ColumnGroupReader Row) :
    r.chunkTaskTraits.Lawful ChunkTask.chunkIndices r.TaskOk where
  size_eq _ := rfl
  canSplit_iff _ := decide_eq_true_iff
  items_ne_nil _ := chunkIndices_ne_nil
  split_ok _ h hsplit := splitChunkTask_ok h (of_decide_eq_true hsplit)

/-! ## Building -/

variable {chunks : List (ℤ × ChunkInfo)}

/-- The loop over the chunks of a file. -/
theorem buildTasks_ok {current : ChunkTask} {prev : ChunkInfo}
    (hcur : r.TaskOk current) (hprev : prev.endInFile = current.rangeEnd)
    (hchunks : ∀ p ∈ chunks, r.chunkInfo? p.1 = some p.2 ∧ p.2.fileIndex = current.fileIndex ∧
      p.2.endInFile = p.2.rowOffsetInFile + p.2.numberOfRows) :
    (∀ task ∈ buildTasks current prev chunks, r.TaskOk task) ∧
      (buildTasks current prev chunks).flatMap ChunkTask.chunkIndices =
        current.chunkIndices ++ chunks.map Prod.fst := by
  induction chunks generalizing current prev with
  | nil => exact ⟨forall_mem_singleton.mpr hcur, by simp [buildTasks]⟩
  | cons p chunks ih =>
    obtain ⟨i, c⟩ := p
    obtain ⟨⟨hc, hfile, hend⟩, hchunks⟩ := forall_mem_cons.mp hchunks
    rw [buildTasks]
    split_ifs with hadjacent
    · have hok : r.TaskOk { current with
          chunkIndices := current.chunkIndices ++ [i]
          rangeEnd := c.endInFile } := by
        obtain ⟨infos, -, hinfos, hfiles, hchain⟩ := hcur
        refine ⟨infos ++ [c], append_ne_nil_of_right_ne_nil _ (cons_ne_nil _ _),
          rel_append hinfos (.cons hc .nil),
          forall_mem_append.mpr ⟨hfiles, forall_mem_singleton.mpr hfile⟩,
          chained_append hchain ⟨hadjacent.trans hprev, ?_⟩⟩
        rw [← hprev, ← hadjacent]
        exact hend.symm
      obtain ⟨hall, hflatMap⟩ := ih hok rfl hchunks
      exact ⟨hall, by rw [hflatMap]; simp⟩
    · have hok : r.TaskOk ⟨current.fileIndex, [i], c.rowOffsetInFile, c.endInFile⟩ :=
        ⟨[c], cons_ne_nil _ _, .cons hc .nil, forall_mem_singleton.mpr hfile, rfl, hend.symm⟩
      obtain ⟨hall, hflatMap⟩ := ih hok rfl hchunks
      exact ⟨forall_mem_cons.mpr ⟨hcur, hall⟩, by simp [hflatMap]⟩

theorem buildFileTasks_ok {fileIdx : ℕ}
    (hchunks : ∀ p ∈ chunks, r.chunkInfo? p.1 = some p.2 ∧ p.2.fileIndex = fileIdx ∧
      p.2.endInFile = p.2.rowOffsetInFile + p.2.numberOfRows) :
    (∀ task ∈ buildFileTasks fileIdx chunks, r.TaskOk task) ∧
      (buildFileTasks fileIdx chunks).flatMap ChunkTask.chunkIndices = chunks.map Prod.fst := by
  cases chunks with
  | nil => exact ⟨nofun, rfl⟩
  | cons p chunks =>
    obtain ⟨⟨hc, hfile, hend⟩, hchunks⟩ := forall_mem_cons.mp hchunks
    have hok : r.TaskOk ⟨fileIdx, [p.1], p.2.rowOffsetInFile, p.2.endInFile⟩ :=
      ⟨[p.2], cons_ne_nil _ _, .cons hc .nil, forall_mem_singleton.mpr hfile, rfl, hend.symm⟩
    exact buildTasks_ok hok rfl hchunks

theorem mapM_getChunkInfo {chunkIndices : List ℤ} (hall : r.AllExist chunkIndices) :
    chunkIndices.mapM (fun i => do
      let chunkInfo ← r.getChunkInfo i
      return (i, chunkInfo)) = .ok (r.chunksOf chunkIndices) := by
  induction chunkIndices with
  | nil => rfl
  | cons i chunkIndices ih =>
    obtain ⟨hi, hall⟩ := forall_mem_cons.mp hall
    obtain ⟨c, hc⟩ := Option.isSome_iff_exists.mp hi
    have hcons : r.chunksOf (i :: chunkIndices) = (i, c) :: r.chunksOf chunkIndices :=
      filterMap_cons_some (by rw [hc]; rfl)
    rw [mapM_cons, getChunkInfo, hc, ih hall, hcons]
    rfl

section IsOpen

variable (h : IsOpen r) (hlayouts : Layouts r) {chunkIndices : List ℤ}

include h hlayouts

theorem IsOpen.fileTasks_ok (fileIdx : ℕ) : (∀ task ∈ buildFileTasks fileIdx
      ((r.chunksOf chunkIndices).filter fun c => c.2.fileIndex = fileIdx), r.TaskOk task) ∧
    (buildFileTasks fileIdx ((r.chunksOf chunkIndices).filter fun c => c.2.fileIndex = fileIdx)
      ).flatMap ChunkTask.chunkIndices =
        ((r.chunksOf chunkIndices).filter fun c => c.2.fileIndex = fileIdx).map Prod.fst := by
  refine buildFileTasks_ok fun p hp => ?_
  obtain ⟨hmem, hfile⟩ := mem_filter.mp hp
  have hp := (mem_chunksOf.mp hmem).2
  exact ⟨hp, of_decide_eq_true hfile, h.endInFile_eq hlayouts (mem_chunkInfos hp)⟩

theorem IsOpen.buildChunkTasks_ok (hall : r.AllExist chunkIndices) :
    ∃ tasks, r.buildChunkTasks chunkIndices = .ok tasks ∧ (∀ task ∈ tasks, r.TaskOk task) ∧
      ∀ idx ∈ chunkIndices, idx ∈ tasks.flatMap ChunkTask.chunkIndices := by
  refine ⟨_, Except.bind_eq_ok.mpr ⟨_, mapM_getChunkInfo hall, rfl⟩, ?_, ?_⟩
  · intro task htask
    obtain ⟨fileIdx, -, htask⟩ := mem_flatMap.mp htask
    exact (h.fileTasks_ok hlayouts fileIdx).1 task htask
  · intro idx hidx
    obtain ⟨c, hc⟩ := Option.isSome_iff_exists.mp (hall idx hidx)
    have hmem := mem_chunksOf.mpr ⟨hidx, hc⟩
    rw [flatMap_assoc, mem_flatMap]
    refine ⟨c.fileIndex, mem_sortUnique.mpr (mem_map.mpr ⟨_, hmem, rfl⟩), ?_⟩
    rw [(h.fileTasks_ok hlayouts c.fileIndex).2]
    exact mem_map.mpr ⟨_, mem_filter.mpr ⟨hmem, decide_eq_true rfl⟩, rfl⟩

/-- **The tasks of a request**, with every strategy. -/
theorem IsOpen.chunkTasks_ok (taskSplitStrategy : String) (parallelism : ℕ)
    (hall : r.AllExist chunkIndices) :
    ∃ tasks, ChunkReader.chunkTasks ⟨r, taskSplitStrategy⟩ chunkIndices parallelism = .ok tasks ∧
      (∀ task ∈ tasks, r.TaskOk task) ∧
      ∀ idx ∈ chunkIndices, idx ∈ tasks.flatMap ChunkTask.chunkIndices := by
  have hall' : r.AllExist (sortUnique chunkIndices) := fun idx hidx =>
    hall idx (mem_sortUnique.mp hidx)
  obtain ⟨tasks, htasks, hok, hmem⟩ := h.buildChunkTasks_ok hlayouts hall'
  obtain ⟨tasks', htasks', hok', hperm⟩ := splitAsyncTasks_ok (chunkTaskTraits_lawful r) hok
    (max parallelism 1) (getAsyncTaskSplitStrategy taskSplitStrategy)
  refine ⟨tasks', Except.bind_eq_ok.mpr ⟨tasks, htasks, htasks'⟩, hok', fun idx hidx => ?_⟩
  exact hperm.mem_iff.mpr (hmem idx (mem_sortUnique.mpr hidx))

end IsOpen

end MilvusStorage.Format
