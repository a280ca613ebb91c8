import MilvusStorage.Format.ReadFiles

/-!
# Range reads stay inside the batch list

Whatever batches a backend returns, the asynchronous chunk read returns an error or the rows of each
chunk. The synchronous one does so exactly if no file runs out of batches: there it looks at a batch
that does not exist (`getChunks_safe_iff`).
-/

namespace MilvusStorage.Format

open Except List Grouping ColumnGroupReader

variable {Row : Type}

namespace ColumnGroupReader

variable (r : ColumnGroupReader Row)

/-- A call of `get_chunks` returns an error or the rows of each chunk. -/
def SafeSync (chunkIndices : List ℤ) (parallelism numThreads : ℕ) (order : List ℕ) : Prop :=
  ∀ result, r.getChunks chunkIndices parallelism numThreads order = some result →
    Returns result ∧ ∀ rowss, result = .ok rowss → Forall₂ (fun idx rows =>
      ∃ block ∈ taskBlocks chunkIndices parallelism numThreads, r.Answered block idx rows)
      chunkIndices rowss

/-- A call of `get_chunks_async` returns an error or the rows of each chunk. -/
def SafeAsync (task : ChunkTask) : Prop :=
  ∀ result, r.getTaskChunks task = .ok result →
    Returns result ∧ ∀ rowss, result = .ok rowss → rowss.length = task.chunkIndices.length ∧
      ∃ infos reader rbs, Forall₂ (fun idx info => r.chunkInfo? idx = some info)
        task.chunkIndices infos ∧ r.openReaderForFileAsync task.fileIndex = .ok (.ok reader) ∧
        reader.readWithRangeAsync task.rangeStart task.rangeEnd = .ok rbs ∧
        ∀ (k : ℕ) rows, rowss[k]? = some rows → CutAt rbs infos k rows

variable {r} {chunkIndices : List ℤ} {parallelism numThreads : ℕ} {order : List ℕ}

/-- All blocks have been read when there is a result. -/
theorem getChunks_eq_some {result : Except Fault (List (List Row))}
    (h : r.getChunks chunkIndices parallelism numThreads order = some result) :
    chunkIndices = [] ∧ result = .ok [] ∨ chunkIndices ≠ [] ∧ result = assemble chunkIndices
        ((taskBlocks chunkIndices parallelism numThreads).map r.readChunksFromFiles) := by
  unfold getChunks at h
  split_ifs at h with hnil
  · exact .inl ⟨sortUnique_eq_nil.mp hnil, (Option.some.inj h).symm⟩
  · obtain ⟨results, hresults, h⟩ := Option.bind_eq_some_iff.mp h
    refine .inr ⟨fun h => hnil (sortUnique_eq_nil.mpr h), ?_⟩
    cases h
    unfold readBlocks at hresults
    split_ifs at hresults
    · rw [Option.some.inj hresults]
    · rw [eq_of_collectAll hresults]

/-- Looking up chunks that are in the map. -/
theorem mapM_lookup_ok {m : ChunkRBMap Row} (missing : ℤ → Fault)
    (h : ∀ idx ∈ chunkIndices, (m idx).isSome) :
    ∃ rowss, chunkIndices.mapM (fun idx =>
      match m idx with
      | none => Except.error (missing idx)
      | some rb => .ok rb) = .ok rowss ∧
      Forall₂ (fun idx rows => m idx = some rows) chunkIndices rowss := by
  obtain ⟨rowss, hrowss⟩ := exists_mapM_ok (f := fun idx =>
    match m idx with
    | none => error (missing idx)
    | some rb => .ok rb) fun idx hidx => by
      obtain ⟨rows, hrows⟩ := Option.isSome_iff_exists.mp (h idx hidx)
      exact ⟨rows, by rw [hrows]⟩
  refine ⟨rowss, hrowss, (forall₂_of_mapM_ok hrowss).imp fun idx rows hrows => ?_⟩
  split at hrows
  · cases hrows
  · rename_i heq
    rw [heq, ok.inj hrows]

theorem requested_ok {m : ChunkRBMap Row} (h : ∀ idx ∈ chunkIndices, (m idx).isSome) :
    ∃ rowss, requested chunkIndices m = .ok rowss ∧
      Forall₂ (fun idx rows => m idx = some rows) chunkIndices rowss :=
  mapM_lookup_ok (fun _ => .assertionFailed) h

end ColumnGroupReader

section IsOpen

variable {r : ColumnGroupReader Row} (h : IsOpen r) (hlayouts : Layouts r)
  {chunkIndices : List ℤ} {parallelism numThreads : ℕ} {order : List ℕ}

include h hlayouts

omit hlayouts h in
theorem not_overruns_nil : ¬ r.Overruns [] := by
  rintro ⟨-, i, -, -, rbs, -, hexhausted⟩
  exact not_exhausted_nil hexhausted

/-- What a block that is read has. -/
theorem IsOpen.answered_of_ok {block : List ℤ} (hblock : block.Pairwise (· < ·))
    {m : ChunkRBMap Row} (hm : r.readChunksFromFiles block = .ok m) :
    (∀ idx rows, m idx = some rows → r.Answered block idx rows) ∧
      ∀ idx ∈ block, (m idx).isSome := by
  obtain ⟨-, m', hm', hanswered⟩ | ⟨-, herror⟩ | ⟨-, -, s, herror⟩ :=
    h.readChunksFromFiles_cases hlayouts hblock
  · cases hm.symm.trans hm'
    exact hanswered
  · cases hm.symm.trans herror
  · cases hm.symm.trans herror

/-- The results of all blocks have the requested chunks. -/
theorem IsOpen.merged_answered {m : ChunkRBMap Row}
    (hm : mergeResults ((taskBlocks chunkIndices parallelism numThreads).map
      r.readChunksFromFiles) = .ok m) :
    (∀ idx rows, m idx = some rows →
      ∃ block ∈ taskBlocks chunkIndices parallelism numThreads, r.Answered block idx rows) ∧
    ∀ idx ∈ chunkIndices, (m idx).isSome := by
  obtain ⟨hsound, hcomplete, hok⟩ := mergeResults_ok hm
  constructor
  · intro idx rows hrows
    obtain hinit | ⟨m', hmem, hrows⟩ := hsound idx rows hrows
    · cases hinit
    · obtain ⟨block, hblock, hm'⟩ := mem_map.mp hmem
      exact ⟨block, hblock,
        (h.answered_of_ok hlayouts (taskBlocks_pairwise hblock) hm').1 idx rows hrows⟩
  · intro idx hidx
    rw [← mem_sortUnique, ← flatten_taskBlocks chunkIndices parallelism numThreads,
      mem_flatten] at hidx
    obtain ⟨block, hblock, hidx⟩ := hidx
    obtain ⟨m', hm'⟩ := hok _ (mem_map_of_mem hblock)
    refine hcomplete idx (.inr ⟨m', hm' ▸ mem_map_of_mem hblock, ?_⟩)
    exact (h.answered_of_ok hlayouts (taskBlocks_pairwise hblock) hm').2 idx hidx

/-- **A call of `get_chunks`.** -/
theorem IsOpen.getChunks_cases {result : Except Fault (List (List Row))}
    (hres : r.getChunks chunkIndices parallelism numThreads order = some result) :
    ((∃ block ∈ taskBlocks chunkIndices parallelism numThreads, r.Overruns block) ∧
      result = .error .outOfBounds) ∨
    (∀ block ∈ taskBlocks chunkIndices parallelism numThreads, ¬ r.Overruns block) ∧
      Returns result ∧
      ((∀ block ∈ taskBlocks chunkIndices parallelism numThreads, r.Served block) →
        ∃ rowss, result = .ok rowss) ∧
      ∀ rowss, result = .ok rowss → Forall₂ (fun idx rows =>
        ∃ block ∈ taskBlocks chunkIndices parallelism numThreads, r.Answered block idx rows)
        chunkIndices rowss := by
  have hcases : ∀ block ∈ taskBlocks chunkIndices parallelism numThreads, _ := fun block hblock =>
    h.readChunksFromFiles_cases hlayouts (taskBlocks_pairwise hblock)
  obtain ⟨rfl, rfl⟩ | ⟨-, rfl⟩ := getChunks_eq_some hres
  · right
    refine ⟨fun block hblock => ?_, returns_ok _, fun _ => ⟨[], rfl⟩, fun rowss hrowss => ?_⟩
    · have hnil : block = [] := by
        have hflat := flatten_taskBlocks [] parallelism numThreads
        rw [sortUnique_eq_nil.mpr rfl, flatten_eq_nil_iff] at hflat
        exact hflat block hblock
      exact hnil ▸ not_overruns_nil
    · exact ok.inj hrowss ▸ .nil
  · unfold assemble
    by_cases hover : ∃ block ∈ taskBlocks chunkIndices parallelism numThreads, r.Overruns block
    · left
      refine ⟨hover, ?_⟩
      obtain ⟨block, hblock, hover⟩ := hover
      rw [fatal_eq_some (e := .outOfBounds) nofun]
      · refine mem_map.mpr ⟨block, hblock, ?_⟩
        obtain ⟨hserved, -⟩ | ⟨-, herror⟩ | ⟨-, hnot, -⟩ := hcases block hblock
        · exact absurd hover (h.not_overruns hlayouts hserved)
        · exact herror
        · exact absurd hover hnot
      · refine forall_mem_map.mpr fun block hblock => ?_
        obtain ⟨-, m, hm, -⟩ | ⟨-, herror⟩ | ⟨-, -, s, hs⟩ := hcases block hblock
        · exact .inl (hm ▸ returns_ok m)
        · exact .inr herror
        · exact .inl (hs ▸ returns_status s)
    · right
      have hnot : ∀ block ∈ taskBlocks chunkIndices parallelism numThreads, ¬ r.Overruns block :=
        fun block hblock hblock' => hover ⟨block, hblock, hblock'⟩
      have hreturns : ∀ result ∈
          (taskBlocks chunkIndices parallelism numThreads).map r.readChunksFromFiles,
          Returns result := by
        refine forall_mem_map.mpr fun block hblock => ?_
        obtain ⟨-, m, hm, -⟩ | ⟨hover', -⟩ | ⟨-, -, s, hs⟩ := hcases block hblock
        · exact hm ▸ returns_ok m
        · exact absurd hover' (hnot block hblock)
        · exact hs ▸ returns_status s
      rw [fatal_eq_none hreturns]
      refine ⟨hnot, (returns_mergeResults hreturns).bind fun m hm => ?_, fun hserved => ?_,
        fun rowss hrowss => ?_⟩
      · obtain ⟨rowss, hrowss, -⟩ := requested_ok (h.merged_answered hlayouts hm).2
        exact hrowss ▸ returns_ok rowss
      · obtain ⟨m, hm⟩ := mergeResults_isOk (fun _ => none) (forall_mem_map.mpr
          fun block hblock => by
            obtain ⟨-, m, hm, -⟩ | ⟨hover', -⟩ | ⟨hnot', -⟩ := hcases block hblock
            · exact ⟨m, hm⟩
            · exact absurd hover' (hnot block hblock)
            · exact absurd (hserved block hblock) hnot')
        obtain ⟨rowss, hrowss, -⟩ := requested_ok (h.merged_answered hlayouts hm).2
        exact ⟨rowss, bind_eq_ok.mpr ⟨m, hm, hrowss⟩⟩
      · obtain ⟨m, hm, hrowss⟩ := bind_eq_ok.mp hrowss
        obtain ⟨hanswered, hsome⟩ := h.merged_answered hlayouts hm
        obtain ⟨rowss', hrowss', hforall⟩ := requested_ok hsome
        cases hrowss.symm.trans hrowss'
        exact hforall.imp fun idx rows hrows => hanswered idx rows hrows

omit h hlayouts in
theorem forall₂_chunkInfo {task : ChunkTask} {infos : List ChunkInfo}
    (hinfos : task.chunkIndices.mapM (r.checkTaskChunk task) = .ok infos) :
    Forall₂ (fun idx info => r.chunkInfo? idx = some info) task.chunkIndices infos := by
  refine (forall₂_of_mapM_ok hinfos).imp fun idx info hinfo => ?_
  unfold checkTaskChunk at hinfo
  split at hinfo
  · cases hinfo
  · rename_i info' hinfo'
    dsimp only at hinfo
    split_ifs at hinfo
    rw [hinfo', ok.inj hinfo]

/-- The asynchronous loop checks for the end of the batch list. -/
theorem IsOpen.safeAsync (task : ChunkTask) : r.SafeAsync task := by
  intro result hres
  unfold getTaskChunks at hres
  cases hinfos : task.chunkIndices.mapM (r.checkTaskChunk task) with
  | error s =>
    rw [hinfos] at hres
    cases hres
    exact ⟨returns_status s, nofun⟩
  | ok infos =>
    rw [hinfos] at hres
    have hforall := forall₂_chunkInfo hinfos
    have hpos : ∀ info ∈ infos, 0 < info.numberOfRows := by
      intro info hinfo
      obtain ⟨k, hk, rfl⟩ := getElem_of_mem hinfo
      exact h.numberOfRows_pos hlayouts (mem_chunkInfos (hforall.get (hforall.length_eq ▸ hk) hk))
    obtain ⟨reader, hreader, rfl⟩ := bind_pure_eq_ok.mp hres
    constructor
    · refine (returns_orStatus _).bind fun _ _ => (returns_orStatus _).bind fun rbs _ => ?_
      obtain ⟨-, hcut⟩ | ⟨-, s, hcut⟩ := cutAsync_cases rbs hpos
      · exact hcut ▸ returns_ok _
      · exact hcut ▸ returns_status s
    · intro rowss hrowss
      obtain ⟨reader', hreader', hread⟩ := bind_eq_ok.mp hrowss
      obtain ⟨rbs, hrbs, hok⟩ := bind_eq_ok.mp hread
      rw [orStatus_eq_ok.mp hreader'] at hreader
      obtain ⟨hfits, hcut⟩ | ⟨-, s, hcut⟩ := cutAsync_cases rbs hpos
      · have hrowss' := ok.inj (hcut.symm.trans hok)
        refine ⟨?_, infos, reader', rbs, hforall, hreader, orStatus_eq_ok.mp hrbs,
          fun k rows hk => cutAt_of_fits hfits (hrowss' ▸ hk)⟩
        rw [← hrowss', length_splitLengths, sizes, length_map, hforall.length_eq]
      · cases hcut.symm.trans hok

end IsOpen

/-- Once all blocks are read there is a result. -/
theorem getChunks_isSome (r : ColumnGroupReader Row) {chunkIndices : List ℤ}
    {parallelism numThreads : ℕ} {order : List ℕ}
    (horder : order.Perm (List.range (taskBlocks chunkIndices parallelism numThreads).length)) :
    ∃ result, r.getChunks chunkIndices parallelism numThreads order = some result := by
  unfold getChunks readBlocks
  split_ifs
  · exact ⟨_, rfl⟩
  · exact ⟨_, rfl⟩
  · rw [collectAll_of_perm (by rwa [length_map])]
    exact ⟨_, rfl⟩

/-- **When range reads stay inside the batch list**: in no block does a file run out of batches. The
asynchronous read always does. -/
theorem getChunks_safe_iff {S : Source Row} {r : ColumnGroupReader Row}
    (hopen : «open» S = .ok r ∨ openAsync S = .ok r) (hlayouts : Layouts r)
    (chunkIndices : List ℤ) (parallelism numThreads : ℕ) (order : List ℕ)
    (horder : order.Perm (List.range (taskBlocks chunkIndices parallelism numThreads).length)) :
    (r.SafeSync chunkIndices parallelism numThreads order ∧ ∀ task, r.SafeAsync task) ↔
      ∀ block ∈ taskBlocks chunkIndices parallelism numThreads, ¬ r.Overruns block := by
  obtain ⟨h, -⟩ := isOpen_of_opens hopen
  constructor
  · rintro ⟨hsafe, -⟩ block hblock hover
    obtain ⟨result, hres⟩ := getChunks_isSome r horder
    obtain ⟨-, rfl⟩ | ⟨hnot, -⟩ := h.getChunks_cases hlayouts hres
    · obtain ⟨s, hs⟩ := (hsafe _ hres).1 _ rfl
      cases hs
    · exact hnot block hblock hover
  · intro hnot
    refine ⟨fun result hres => ?_, h.safeAsync hlayouts⟩
    obtain ⟨⟨block, hblock, hover⟩, -⟩ | ⟨-, hreturns, -, hanswered⟩ :=
      h.getChunks_cases hlayouts hres
    · exact absurd hover (hnot block hblock)
    · exact ⟨hreturns, hanswered⟩

theorem smallReader_served : smallReader.Served [0, 1] := by
  refine ⟨by decide, ?_⟩
  rintro (_ | _ | i) hi
  · exact .inr ⟨[[1, 2, 3, 4]], rfl, Grouped.fits ⟨[[2, 2]], by decide, rfl, rfl⟩⟩
  · exact .inl rfl
  · exact absurd hi (by change ¬ i + 1 + 1 < 2; omega)

theorem smallReader_getChunks_safe :
    smallReader.SafeSync [0, 1] 1 1 [0] ∧ ∀ task, smallReader.SafeAsync task := by
  have hblocks : taskBlocks [0, 1] 1 1 = [[0, 1]] := by
    rw [taskBlocks, sortUnique_eq_self (by decide)]
    rfl
  refine (getChunks_safe_iff (.inl open_smallSource) smallReader_layouts [0, 1] 1 1 [0] ?_).mpr ?_
  · exact .refl _
  · rw [hblocks]
    exact forall_mem_singleton.mpr
      ((isOpen_of_open open_smallSource).1.not_overruns smallReader_layouts smallReader_served)

/-- A backend whose range reads stop after two rows. -/
def shortFile : FormatReader ℕ :=
  { FormatReader.ofRows [⟨0, 2, 16, true⟩, ⟨2, 4, 16, true⟩] [10, 20, 30, 40] with
    readWithRange := fun _ _ => .ok [[10, 20]]
    readWithRangeAsync := fun _ _ => .ok [[10, 20]] }

def shortSource : Source ℕ := Source.ofReader loonFormatParquet "" [⟨"a", 0, 4, []⟩] shortFile

def shortReader : ColumnGroupReader ℕ where
  source := shortSource
  chunkInfos := [⟨0, 0, 0, 2, 0, 2, 16, true⟩, ⟨0, 0, 2, 2, 1, 4, 16, true⟩]
  totalRows := 4
  formatReaders := [shortFile]

theorem shortReader_layouts : Layouts shortReader := by
  intro i file reader hfile hreader
  obtain rfl := mem_singleton.mp (mem_of_getElem? hfile)
  obtain rfl := mem_singleton.mp (mem_of_getElem? hreader)
  exact ⟨_, 4, rfl, ⟨by decide, by decide, by decide⟩, by decide⟩

/-- The first chunk uses up the only batch, and the second one is looked for in the batch after
it. -/
theorem shortReader_getChunks_unsafe : «open» shortSource = .ok shortReader ∧
    Layouts shortReader ∧ shortReader.getChunks [0, 1] 1 1 [0] = some (.error .outOfBounds) ∧
    ¬ shortReader.SafeSync [0, 1] 1 1 [0] := by
  have hres : shortReader.getChunks [0, 1] 1 1 [0] = some (.error .outOfBounds) := by
    rw [getChunks, readBlocks, taskBlocks, sortUnique_eq_self (by decide)]
    rfl
  refine ⟨rfl, shortReader_layouts, hres, fun hsafe => ?_⟩
  obtain ⟨s, hs⟩ := (hsafe _ hres).1 _ rfl
  cases hs

end MilvusStorage.Format
