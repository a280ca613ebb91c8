import MilvusStorage.Format.Backend
import MilvusStorage.Format.Tasks

/-!
# All chunk reads agree

With a backend that returns what is asked for, `get_chunk`, `get_chunks` and `get_chunks_async`
return the same batches: the rows of the requested chunks (`chunk_reads_agree`). It does not matter
how the request is ordered, how it is split into blocks or tasks, and in which order these complete.
-/

namespace MilvusStorage.Format

open Except List Grouping Tiling ColumnGroupReader

variable {Row : Type} {content : ℕ → List Row} {r : ColumnGroupReader Row} {rows : List Row}
  {infos : List ChunkInfo}

/-- The rows of the chunks, one chunk after the other, are cut into the rows of the chunks. -/
theorem CutAt.eq_chunkRows {rbs : List (List Row)} {k : ℕ}
    (hlen : ∀ c ∈ infos, (chunkRows content c).length = c.numberOfRows)
    (hflat : rbs.flatten = (infos.map (chunkRows content)).flatten)
    (hcut : CutAt rbs infos k rows) :
    ∃ info, infos[k]? = some info ∧ rows = chunkRows content info := by
  obtain ⟨info, hinfo, -, rfl⟩ := hcut
  refine ⟨info, hinfo, ?_⟩
  obtain ⟨hk, rfl⟩ := List.getElem?_eq_some_iff.mp hinfo
  have hsum : (sizes (infos.take k)).sum =
      ((infos.take k).map (chunkRows content)).flatten.length := by
    rw [length_flatten, map_map]
    congr 1
    exact map_congr_left fun c hc => (hlen c (mem_of_mem_take hc)).symm
  have hdivide : (infos.map (chunkRows content)).flatten =
      ((infos.take k).map (chunkRows content)).flatten ++
        (chunkRows content infos[k] ++ ((infos.drop (k + 1)).map (chunkRows content)).flatten) := by
    conv_lhs => rw [← take_append_drop k infos, drop_eq_getElem_cons hk]
    rw [map_append, flatten_append, map_cons, flatten_cons]
  rw [hflat, hdivide, hsum, drop_left, ← hlen _ (getElem_mem hk), take_left]

section Backend

variable (h : IsOpen r) (hbackend : Backend content r)

include h hbackend

variable {i : ℕ} {block : List ℤ}

/-- A range of adjacent chunks can be read. -/
theorem Backend.range_le {a b : ℕ} {group : List ChunkInfo} (hne : group ≠ [])
    (hgroup : ∀ c ∈ group, c ∈ r.chunkInfos ∧ c.fileIndex = i)
    (hchain : Chained ChunkInfo.rowOffsetInFile ChunkInfo.numberOfRows a group b) :
    a < b ∧ b ≤ (content i).length := by
  have hlast := getLast?_eq_some_getLast hne
  obtain ⟨hmem, rfl⟩ := hgroup _ (getLast_mem hne)
  have hend := hchain.getLast? hlast
  have hstart := (hchain.mem (getLast_mem hne)).1
  have hpos := h.numberOfRows_pos hbackend.layouts hmem
  have hle := hbackend.end_le h hmem
  omega

/-! ## The synchronous read -/

/-- The ranges of a file are read one after the other. -/
theorem Backend.readRanges {reader : FormatReader Row}
    (hreader : ∀ a b, a < b → b ≤ (content i).length →
      ∃ rbs, reader.readWithRange a b = .ok rbs ∧ ReadsRange content r i a b rbs)
    {ranges : List (ℕ × ℕ)} {groups : List (List ChunkInfo)}
    (hgroups : ∀ c ∈ groups.flatten, c ∈ r.chunkInfos ∧ c.fileIndex = i)
    (hranges : Forall₂ (fun range group => group ≠ [] ∧
      Chained ChunkInfo.rowOffsetInFile ChunkInfo.numberOfRows range.1 group range.2)
      ranges groups) :
    ∃ rbss, ranges.mapM (fun range => orStatus (reader.readWithRange range.1 range.2)) =
      .ok rbss ∧ Grouped (rbss.flatten.map List.length) (sizes groups.flatten) ∧
      rbss.flatten.flatten = (groups.flatten.map (chunkRows content)).flatten := by
  induction hranges with
  | nil => exact ⟨[], rfl, grouped_nil, rfl⟩
  | @cons range group ranges groups hrange _ ih =>
    obtain ⟨hne, hchain⟩ := hrange
    obtain ⟨hgroup, hgroups⟩ := forall_mem_append.mp hgroups
    obtain ⟨rbss, hrbss, hgrouped, hflat⟩ := ih hgroups
    obtain ⟨hlt, hle⟩ := hbackend.range_le h hne hgroup hchain
    obtain ⟨rbs, hrbs, hreads⟩ := hreader range.1 range.2 hlt hle
    obtain ⟨hgrouped', hflat'⟩ := hbackend.grouped h hgroup hchain hle hreads
    refine ⟨rbs :: rbss, ?_, ?_, ?_⟩
    · rw [mapM_cons, hrbs, hrbss]
      rfl
    · rw [flatten_cons, flatten_cons, map_append, sizes, map_append]
      exact grouped_append hgrouped' hgrouped
    · rw [flatten_cons, flatten_cons, flatten_append, map_append, flatten_append, hflat, hflat']

section

variable (hblock : block.Pairwise (· < ·))
include hblock

theorem Backend.readBatches (hi : i < r.source.files.length) :
    ∃ rbs, r.readBatches i (r.infosInFile block i) = .ok rbs ∧
      Grouped (rbs.map List.length) (sizes (r.infosInFile block i)) ∧
      rbs.flatten = ((r.infosInFile block i).map (chunkRows content)).flatten := by
  obtain ⟨ranges, groups, hranges, hgroups, hforall⟩ := h.ranges_ok hbackend.layouts hblock i
  have hfile := getElem?_eq_getElem hi
  obtain ⟨reader, hreader, hreads⟩ := hbackend.readWithRange i _ hfile
  have hmem : ∀ c ∈ r.infosInFile block i, c ∈ r.chunkInfos ∧ c.fileIndex = i := by
    intro c hc
    obtain ⟨p, hp, rfl⟩ := mem_map.mp hc
    exact ⟨(h.infosInFile_mem hbackend.layouts i _ hc).1, of_decide_eq_true (mem_filter.mp hp).2⟩
  rw [← hgroups] at hmem
  obtain ⟨rbss, hrbss, hgrouped, hflat⟩ := hbackend.readRanges h hreads hmem hforall
  refine ⟨rbss.flatten, ?_, hgroups ▸ hgrouped, hgroups ▸ hflat⟩
  refine bind_eq_ok.mpr ⟨ranges, hranges, bind_eq_ok.mpr
    ⟨reader, ?_, bind_eq_ok.mpr ⟨rbss, hrbss, rfl⟩⟩⟩
  rw [openReaderForFile, hfile]
  exact orStatus_eq_ok.mpr hreader

theorem Backend.served (hall : r.AllExist block) : r.Served block := by
  refine ⟨hall, fun i hi => .inr ?_⟩
  obtain ⟨rbs, hrbs, hgrouped, -⟩ := hbackend.readBatches h hblock hi
  exact ⟨rbs, hrbs, hgrouped.fits⟩

/-- An answer is the rows of the chunk. -/
theorem Backend.answered {idx : ℤ} {rows : List Row} (hanswered : r.Answered block idx rows) :
    r.IsChunk content idx rows := by
  obtain ⟨i, k, rbs, hk, hrbs, hcut⟩ := hanswered
  rw [getElem?_map, Option.map_eq_some_iff] at hk
  obtain ⟨⟨idx, c⟩, hk, rfl⟩ := hk
  obtain ⟨hmem, hfile⟩ := mem_filter.mp (mem_of_getElem? hk)
  have hc := (mem_chunksOf.mp hmem).2
  have hi : i < r.source.files.length := of_decide_eq_true hfile ▸ h.fileIndex_lt hc
  obtain ⟨rbs', hrbs', -, hflat⟩ := hbackend.readBatches h hblock hi
  cases hrbs.symm.trans hrbs'
  obtain ⟨info, hinfo, rfl⟩ := hcut.eq_chunkRows (fun c hc =>
    hbackend.length_chunkRows h (h.infosInFile_mem hbackend.layouts i c hc).1) hflat
  refine ⟨c, hc, ?_⟩
  rw [infosInFile, getElem?_map, hk] at hinfo
  rw [← Option.some.inj hinfo]

end

/-- `get_chunks` returns the rows of the chunks. -/
theorem Backend.getChunks_eq {chunkIndices : List ℤ} (hall : r.AllExist chunkIndices)
    {parallelism numThreads : ℕ} {order : List ℕ}
    (horder : order.Perm (List.range (taskBlocks chunkIndices parallelism numThreads).length)) :
    ∃ rowss, r.getChunks chunkIndices parallelism numThreads order = some (.ok rowss) ∧
      Forall₂ (r.IsChunk content) chunkIndices rowss := by
  have hserved : ∀ block ∈ taskBlocks chunkIndices parallelism numThreads, r.Served block := by
    intro block hblock
    refine hbackend.served h (taskBlocks_pairwise hblock) fun idx hidx => hall idx ?_
    rw [← mem_sortUnique, ← flatten_taskBlocks chunkIndices parallelism numThreads]
    exact mem_flatten.mpr ⟨block, hblock, hidx⟩
  obtain ⟨result, hres⟩ := getChunks_isSome r horder
  obtain ⟨⟨block, hblock, hover⟩, -⟩ | ⟨-, -, hok, hanswered⟩ :=
    h.getChunks_cases hbackend.layouts hres
  · exact absurd hover (h.not_overruns hbackend.layouts (hserved block hblock))
  · obtain ⟨rowss, rfl⟩ := hok hserved
    refine ⟨rowss, hres, (hanswered rowss rfl).imp ?_⟩
    rintro idx rows ⟨block, hblock, hrows⟩
    exact hbackend.answered h (taskBlocks_pairwise hblock) hrows

/-! ## The asynchronous read -/

omit h hbackend in
theorem mapM_checkTaskChunk {task : ChunkTask} {indices : List ℤ}
    (hinfos : Forall₂ (fun idx info => r.chunkInfo? idx = some info) indices infos)
    (hfile : ∀ info ∈ infos, info.fileIndex = task.fileIndex) :
    indices.mapM (r.checkTaskChunk task) = .ok infos := by
  induction hinfos with
  | nil => rfl
  | @cons idx info indices infos hinfo _ ih =>
    obtain ⟨hfile', hfile⟩ := forall_mem_cons.mp hfile
    have hcheck : r.checkTaskChunk task idx = .ok info := by
      rw [checkTaskChunk, hinfo]
      exact if_neg (not_not.mpr hfile')
    rw [mapM_cons, hcheck, ih hfile]
    rfl

/-- A task returns the rows of its chunks. -/
theorem Backend.getTaskChunks_eq {task : ChunkTask} (htask : r.TaskOk task) :
    ∃ rowss, r.getTaskChunks task = .ok (.ok rowss) ∧
      Forall₂ (r.IsChunk content) task.chunkIndices rowss := by
  obtain ⟨infos, hne, hinfos, hfile, hchain⟩ := htask
  have hgroup : ∀ c ∈ infos, c ∈ r.chunkInfos ∧ c.fileIndex = task.fileIndex := by
    intro c hc
    obtain ⟨k, hk, rfl⟩ := getElem_of_mem hc
    exact ⟨mem_chunkInfos (hinfos.get (hinfos.length_eq ▸ hk) hk), hfile _ hc⟩
  obtain ⟨file, hfile', -⟩ := h.startIndex_le (hgroup _ (head_mem hne)).1
  rw [hfile _ (head_mem hne)] at hfile'
  obtain ⟨reader, hreader, hreads⟩ := hbackend.readWithRangeAsync _ file hfile'
  obtain ⟨hlt, hle⟩ := hbackend.range_le h hne hgroup hchain
  obtain ⟨rbs, hrbs, hrange⟩ := hreads _ _ hlt hle
  obtain ⟨hgrouped, hflat⟩ := hbackend.grouped h hgroup hchain hle hrange
  have hpos : ∀ c ∈ infos, 0 < c.numberOfRows := fun c hc =>
    h.numberOfRows_pos hbackend.layouts (hgroup c hc).1
  obtain ⟨-, hcut⟩ | ⟨hnot, -⟩ := cutAsync_cases rbs hpos
  · refine ⟨(sizes infos).splitLengths rbs.flatten, ?_, ?_⟩
    · rw [getTaskChunks, mapM_checkTaskChunk hinfos hfile, openReaderForFileAsync, hfile']
      dsimp only
      rw [hreader]
      change ok (orStatus (reader.readWithRangeAsync task.rangeStart task.rangeEnd) >>=
        fun rbs => cutAsync rbs infos) = _
      rw [hrbs]
      exact congrArg ok hcut
    · have hlen : ((sizes infos).splitLengths rbs.flatten).length = infos.length := by
        rw [length_splitLengths, sizes, length_map]
      refine forall₂_iff_get.mpr ⟨hinfos.length_eq.trans hlen.symm, fun k hk hk' => ?_⟩
      have hcutAt := cutAt_of_fits hgrouped.fits (getElem?_eq_getElem hk')
      obtain ⟨info, hinfo, hrows⟩ := hcutAt.eq_chunkRows
        (fun c hc => hbackend.length_chunkRows h (hgroup c hc).1) hflat
      obtain ⟨hk'', rfl⟩ := List.getElem?_eq_some_iff.mp hinfo
      exact ⟨_, hinfos.get hk hk'', hrows⟩
  · exact absurd hgrouped.fits hnot

end Backend

/-- The results of the tasks are put into one map. -/
theorem collectTasks_ok {P : ℤ → List Row → Prop} {tasks : List ChunkTask}
    (htasks : ∀ task ∈ tasks, ∃ rowss, r.getTaskChunks task = .ok (.ok rowss) ∧
      Forall₂ P task.chunkIndices rowss) (m : ChunkRBMap Row) :
    ∃ m', ChunkReader.collectTasks (tasks.zip (tasks.map r.getTaskChunks)) m = .ok m' ∧
      (∀ idx rows, m' idx = some rows → m idx = some rows ∨ P idx rows) ∧
      ∀ idx, ((m idx).isSome ∨ idx ∈ tasks.flatMap ChunkTask.chunkIndices) → (m' idx).isSome := by
  induction tasks generalizing m with
  | nil => exact ⟨m, rfl, fun _ _ => .inl, fun _ hidx => hidx.resolve_right not_mem_nil⟩
  | cons task tasks ih =>
    obtain ⟨⟨rowss, hrowss, hforall⟩, htasks⟩ := forall_mem_cons.mp htasks
    have hlen := hforall.length_eq
    obtain ⟨m', hm', hsound, hcomplete⟩ := ih htasks (insertAll m task.chunkIndices rowss)
    refine ⟨m', ?_, fun idx rows hrows => ?_, fun idx hidx => hcomplete idx ?_⟩
    · rw [map_cons, zip_cons_cons, ChunkReader.collectTasks, hrowss]
      change (if rowss.length ≠ task.chunkIndices.length then _ else _) = _
      rwa [if_neg (not_not.mpr hlen.symm)]
    · obtain hinsert | hp := hsound idx rows hrows
      · obtain hm | ⟨k, hk, hk'⟩ := insertAll_eq_some hinsert
        · exact .inl hm
        · exact .inr (hforall.rel_of_getElem? hk hk')
      · exact .inr hp
    · rw [flatMap_cons, mem_append, ← or_assoc] at hidx
      exact hidx.imp_left (isSome_insertAll hlen)

section Backend

variable (h : IsOpen r) (hbackend : Backend content r)

include h hbackend

/-- `get_chunks_async` returns the rows of the chunks. -/
theorem Backend.getChunksAsync_eq {chunkIndices : List ℤ} (hall : r.AllExist chunkIndices)
    {taskSplitStrategy : String} {parallelism : ℕ} {tasks : List ChunkTask}
    (htasks : ChunkReader.chunkTasks ⟨r, taskSplitStrategy⟩ chunkIndices parallelism = .ok tasks)
    {order : List ℕ} (horder : order.Perm (List.range tasks.length)) :
    ∃ rowss, ChunkReader.getChunksAsync ⟨r, taskSplitStrategy⟩ chunkIndices parallelism order =
      some (.ok rowss) ∧ Forall₂ (r.IsChunk content) chunkIndices rowss := by
  obtain ⟨tasks', htasks', hok, hmem⟩ := h.chunkTasks_ok hbackend.layouts taskSplitStrategy
    parallelism hall
  cases htasks.symm.trans htasks'
  obtain ⟨m, hm, hsound, hcomplete⟩ := collectTasks_ok
    (fun task htask => hbackend.getTaskChunks_eq h (hok task htask)) fun _ => none
  have hsome : ∀ idx ∈ chunkIndices, (m idx).isSome := fun idx hidx =>
    hcomplete idx (.inr (hmem idx hidx))
  unfold ChunkReader.getChunksAsync
  split
  · rename_i front back hfront hback
    have hmem' : ∀ idx ∈ sortUnique chunkIndices, 0 ≤ idx ∧ idx.toNat < r.chunkInfos.length := by
      intro idx hidx
      obtain ⟨c, hc⟩ := Option.isSome_iff_exists.mp (hall idx (mem_sortUnique.mp hidx))
      obtain ⟨hidx, hc⟩ := chunkInfo?_eq_some.mp hc
      exact ⟨hidx, lt_of_getElem? hc⟩
    have hfront := hmem' front (mem_of_mem_head? hfront)
    have hback := hmem' back (mem_of_getLast? hback)
    obtain ⟨rowss, hrowss, hforall⟩ := mapM_lookup_ok (fun idx =>
      .status (.invalid s!"Missing async chunk result for chunk {idx}")) hsome
    refine ⟨rowss, ?_, hforall.imp fun idx rows hrows => ?_⟩
    · rw [if_neg (by omega), if_neg (by dsimp only; omega), htasks]
      dsimp only
      rw [collectAll_of_perm (by rwa [length_map])]
      exact congrArg some (bind_eq_ok.mpr ⟨m, hm, hrowss⟩)
    · exact (hsound idx rows hrows).resolve_left nofun
  · rename_i hnone
    have hnil : sortUnique chunkIndices = [] := by
      by_contra hne
      exact hnone _ _ (head?_eq_some_head hne) (getLast?_eq_some_getLast hne)
    rw [sortUnique_eq_nil.mp hnil]
    exact ⟨[], rfl, .nil⟩

end Backend

/-! ## All reads -/

/-- A chunk reader has no predicate. -/
theorem isOpen_chunkReader {S : Source Row} {neededColumns : List String}
    {taskSplitStrategy : String} {R : ChunkReader Row}
    (hopen : ChunkReader.open S neededColumns taskSplitStrategy = .ok R ∨
      ChunkReader.openAsync S neededColumns taskSplitStrategy = .ok R) :
    IsOpen R.reader ∧ R.reader.predicateApplied = false := by
  have hreader : ∀ reader, «open» { S with predicate := "" } = .ok reader ∨
      Format.openAsync { S with predicate := "" } = .ok reader →
      IsOpen reader ∧ reader.predicateApplied = false := by
    intro reader hreader
    obtain ⟨h, hsource⟩ := isOpen_of_opens hreader
    exact ⟨h, by rw [predicateApplied, hsource]; rfl⟩
  obtain hopen | hopen := hopen
  · obtain ⟨⟨⟩, -, hopen⟩ := bind_eq_ok.mp hopen
    obtain ⟨reader, hok, rfl⟩ := bind_pure_eq_ok.mp hopen
    exact hreader reader (.inl hok)
  · obtain ⟨⟨⟩, -, hopen⟩ := bind_eq_ok.mp hopen
    obtain ⟨reader, hok, rfl⟩ := bind_pure_eq_ok.mp hopen
    exact hreader reader (.inr hok)

theorem isChunk_unique : Relator.RightUnique (r.IsChunk content) := by
  rintro idx rows rows' ⟨c, hc, rfl⟩ ⟨c', hc', rfl⟩
  rw [Option.some.inj (hc.symm.trans hc')]

/-- What `get_chunk` returns are the rows of a chunk. -/
theorem Backend.isChunk_of_getChunk (h : IsOpen r) (hbackend : Backend content r)
    (hpred : r.predicateApplied = false) {idx : ℤ} (hrows : r.getChunk idx = .ok rows) :
    r.IsChunk content idx rows := by
  obtain hnone | ⟨c, hc⟩ := Option.eq_none_or_eq_some (r.chunkInfo? idx)
  · rw [getChunk, hnone] at hrows
    cases hrows
  · rw [hbackend.getChunk_eq h hpred hc] at hrows
    exact ⟨c, hc, (ok.inj hrows).symm⟩

/-- **All chunk reads agree.** -/
theorem chunk_reads_agree {S : Source Row} {neededColumns : List String}
    {taskSplitStrategy : String} {R : ChunkReader Row}
    (hopen : ChunkReader.open S neededColumns taskSplitStrategy = .ok R ∨
      ChunkReader.openAsync S neededColumns taskSplitStrategy = .ok R)
    (hbackend : Backend content R.reader) {chunkIndices : List ℤ}
    (hvalid : ∀ idx ∈ chunkIndices, 0 ≤ idx ∧ idx < R.reader.chunkInfos.length) :
    ∃ batches, chunkIndices.mapM R.getChunk = .ok batches ∧ (∀ parallelism numThreads order,
        order.Perm (List.range (taskBlocks chunkIndices parallelism numThreads).length) →
        R.getChunks chunkIndices parallelism numThreads order = some (.ok batches)) ∧
      (∀ parallelism, ∃ tasks, R.chunkTasks chunkIndices parallelism = .ok tasks ∧
        ∀ order, order.Perm (List.range tasks.length) →
          R.getChunksAsync chunkIndices parallelism order = some (.ok batches)) ∧
      Forall₂ (R.reader.IsChunk content) chunkIndices batches := by
  obtain ⟨h, hpred⟩ := isOpen_chunkReader hopen
  have hall : R.reader.AllExist chunkIndices := by
    intro idx hidx
    obtain ⟨hnn, hlt⟩ := hvalid idx hidx
    have hget := getElem?_eq_getElem (l := R.reader.chunkInfos) (i := idx.toNat) (by omega)
    exact Option.isSome_iff_exists.mpr ⟨_, chunkInfo?_eq_some.mpr ⟨hnn, hget⟩⟩
  have hgetChunk : ∀ idx ∈ chunkIndices, ∃ rows, R.getChunk idx = .ok rows := by
    intro idx hidx
    obtain ⟨c, hc⟩ := Option.isSome_iff_exists.mp (hall idx hidx)
    exact ⟨_, hbackend.getChunk_eq h hpred hc⟩
  obtain ⟨batches, hbatches⟩ := exists_mapM_ok hgetChunk
  have hchunks : Forall₂ (R.reader.IsChunk content) chunkIndices batches :=
    (forall₂_of_mapM_ok hbatches).imp fun _ _ => hbackend.isChunk_of_getChunk h hpred
  have hunique : ∀ rowss, Forall₂ (R.reader.IsChunk content) chunkIndices rowss →
      rowss = batches := fun rowss hrowss => isChunk_unique.forall₂ hrowss hchunks
  refine ⟨batches, hbatches, fun parallelism numThreads order horder => ?_,
    fun parallelism => ?_, hchunks⟩
  · obtain ⟨rowss, hrowss, hforall⟩ := hbackend.getChunks_eq h hall horder
    obtain rfl := hunique rowss hforall
    rw [ChunkReader.getChunks, hrowss]
    exact congrArg some (if_pos hforall.length_eq.symm)
  · obtain ⟨tasks, htasks, -⟩ := h.chunkTasks_ok hbackend.layouts R.taskSplitStrategy
      parallelism hall
    refine ⟨tasks, htasks, fun order horder => ?_⟩
    obtain ⟨rowss, hrowss, hforall⟩ := hbackend.getChunksAsync_eq h hall htasks horder
    obtain rfl := hunique rowss hforall
    exact hrowss

/-- Files in memory are such a backend. -/
theorem backend_ofRows {rgs : List RowGroupInfo}
    (hreaders : ∀ reader ∈ r.formatReaders, reader = .ofRows rgs rows)
    (hopen : ∀ file ∈ r.source.files, r.source.openReaderForFile file = .ok (.ofRows rgs rows) ∧
      r.source.openReaderForFileAsync file = .ok (.ok (.ofRows rgs rows)))
    (hrgs : Contiguous rgs rows.length)
    (hfiles : ∀ file ∈ r.source.files, file.endIndex ≤ rows.length) :
    Backend (fun _ => rows) r := by
  have hrange : ∀ i a b, a < b → b ≤ rows.length →
      ReadsRange (fun _ => rows) r i a b [slice rows a b] := by
    intro i a b hlt hle
    refine ⟨flatten_singleton, forall_mem_singleton.mpr ?_, ?_⟩
    · rw [← length_pos_iff, length_slice hle]
      omega
    · intro done rest hsplit hdone hrest
      obtain ⟨rfl, -⟩ | ⟨-, rfl⟩ := append_eq_singleton_iff.mp hsplit.symm
      · exact absurd rfl hdone
      · exact absurd rfl hrest
  refine ⟨fun i file reader hfile hreader => ?_, fun i file hfile => ?_, fun i file hfile => ?_⟩
  · obtain rfl := hreaders _ (mem_of_getElem? hreader)
    refine ⟨rgs, rfl, hrgs, hfiles _ (mem_of_getElem? hfile), fun j rg hrg => ?_⟩
    simp only [FormatReader.ofRows, hrg, slice]
  · exact ⟨_, (hopen _ (mem_of_getElem? hfile)).1,
      fun a b hlt hle => ⟨_, rfl, hrange i a b hlt hle⟩⟩
  · exact ⟨_, (hopen _ (mem_of_getElem? hfile)).2,
      fun a b hlt hle => ⟨_, rfl, hrange i a b hlt hle⟩⟩

/-- The files of `smallSource`, with a column. -/
def smallColumn : Source ℕ :=
  { smallSource with columnGroup := { smallSource.columnGroup with columns := ["a"] } }

def smallChunkReader : ChunkReader ℕ := ⟨{ smallReader with source := smallColumn }, ""⟩

theorem open_smallColumn : ChunkReader.open smallColumn ["a"] "" = .ok smallChunkReader := rfl

theorem smallChunkReader_reads_agree :
    ∃ batches, [1, 0, 1].mapM smallChunkReader.getChunk = .ok batches ∧
      (∀ parallelism numThreads order,
        order.Perm (List.range (taskBlocks [1, 0, 1] parallelism numThreads).length) →
        smallChunkReader.getChunks [1, 0, 1] parallelism numThreads order = some (.ok batches)) ∧
      (∀ parallelism, ∃ tasks, smallChunkReader.chunkTasks [1, 0, 1] parallelism = .ok tasks ∧
        ∀ order, order.Perm (List.range tasks.length) →
          smallChunkReader.getChunksAsync [1, 0, 1] parallelism order = some (.ok batches)) ∧
      Forall₂ (smallChunkReader.reader.IsChunk fun _ => List.range 6) [1, 0, 1] batches :=
  chunk_reads_agree (.inl open_smallColumn) (backend_ofRows
      (forall_mem_cons.mpr ⟨rfl, forall_mem_singleton.mpr rfl⟩)
      (fun _ _ => ⟨rfl, rfl⟩) ⟨by decide, by decide, by decide⟩ (by decide)) (by decide)

end MilvusStorage.Format
