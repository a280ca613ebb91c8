import MilvusStorage.Format.Requests

/-!
# Reading a block of chunks

`read_chunks_from_files` reads the chunks of a block file by file. A file is ready if its chunks can
be read and find their place in the batches that come back; it runs out if the batches are used up
before its last chunk. The loop over the files stops at the first one that is not ready, and leaves
the batch list exactly if that one runs out (`readChunksFromFiles_cases`).
-/

namespace MilvusStorage.Format

open List Grouping Function

variable {Row : Type}

/-! ## Inserting batches -/

section Insert

variable {m : ColumnGroupReader.ChunkRBMap Row} {is : List ℤ} {rbs : List (List Row)} {i : ℤ}

theorem insertAll_cons (j : ℤ) (rb : List Row) :
    insertAll m (j :: is) (rb :: rbs) = insertAll (update m j (some rb)) is rbs := rfl

/-- An entry was there or is inserted. -/
theorem insertAll_eq_some {rows : List Row} (h : insertAll m is rbs i = some rows) :
    m i = some rows ∨ ∃ k : ℕ, is[k]? = some i ∧ rbs[k]? = some rows := by
  induction is generalizing m rbs with
  | nil => exact .inl h
  | cons j is ih =>
    cases rbs with
    | nil => exact .inl h
    | cons rb rbs =>
      rw [insertAll_cons] at h
      obtain hm | ⟨k, hk, hrows⟩ := ih h
      · by_cases hij : i = j
        · subst hij
          rw [update_self] at hm
          exact .inr ⟨0, rfl, hm⟩
        · rw [update_of_ne hij] at hm
          exact .inl hm
      · exact .inr ⟨k + 1, hk, hrows⟩

theorem isSome_insertAll (hlen : is.length = rbs.length) (h : (m i).isSome ∨ i ∈ is) :
    (insertAll m is rbs i).isSome := by
  induction is generalizing m rbs with
  | nil => exact h.resolve_right not_mem_nil
  | cons j is ih =>
    cases rbs with
    | nil => cases hlen
    | cons rb rbs =>
      rw [insertAll_cons]
      apply ih (Nat.succ.inj hlen)
      by_cases hij : i = j
      · subst hij
        rw [update_self]
        exact .inl rfl
      · rw [update_of_ne hij]
        exact h.imp_right fun hmem => (mem_cons.mp hmem).resolve_left hij

end Insert

/-! ## The files of a block -/

theorem returns_orStatus {α : Type} (x : Except Status α) : Returns (orStatus x) := by
  cases x with
  | error s => exact returns_status s
  | ok a => exact returns_ok a

namespace ColumnGroupReader

variable (r : ColumnGroupReader Row) (block : List ℤ) (i : ℕ)

/-- The chunks of a block that are in the `i`-th file. -/
def inFile : List (ℤ × ChunkInfo) := (r.chunksOf block).filter fun c => c.2.fileIndex = i

/-- The metadata of these chunks. -/
def infosInFile : List ChunkInfo := (r.inFile block i).map Prod.snd

/-- The chunks of the file find their place in the batches that are read for them. -/
def Ready : Prop :=
  r.inFile block i = [] ∨ ∃ rbs, r.readBatches i (r.infosInFile block i) = .ok rbs ∧
    Fits (rbs.map List.length) (sizes (r.infosInFile block i))

/-- The batches are used up before the last chunk of the file. -/
def RunsOut : Prop :=
  ∃ rbs, r.readBatches i (r.infosInFile block i) = .ok rbs ∧
    Exhausted (rbs.map List.length) (sizes (r.infosInFile block i))

/-- All chunks can be read. -/
def Served : Prop := r.AllExist block ∧ ∀ i < r.source.files.length, r.Ready block i

/-- Some file runs out, and the files before it are ready. -/
def Overruns : Prop :=
  r.AllExist block ∧ ∃ i < r.source.files.length, (∀ j < i, r.Ready block j) ∧ r.RunsOut block i

/-- The rows are cut from the batches that are read for the chunks of a file. -/
def Answered (idx : ℤ) (rows : List Row) : Prop :=
  ∃ (i k : ℕ) (rbs : List (List Row)), ((r.inFile block i).map Prod.fst)[k]? = some idx ∧
    r.readBatches i (r.infosInFile block i) = .ok rbs ∧ CutAt rbs (r.infosInFile block i) k rows

/-- The map has the chunks of the first `n` files. -/
structure Filled (n : ℕ) (m : ChunkRBMap Row) : Prop where
  answered : ∀ idx rows, m idx = some rows → r.Answered block idx rows
  isSome : ∀ idx info, (idx, info) ∈ r.chunksOf block → info.fileIndex < n → (m idx).isSome

variable {r}

theorem returns_openReaderForFile (fileIndex : ℕ) : Returns (r.openReaderForFile fileIndex) := by
  unfold openReaderForFile
  split
  · exact returns_status _
  · exact returns_orStatus _

/-- The batches of a file are put into the map. -/
theorem Filled.insertAll {block : List ℤ} {i : ℕ} {m : ChunkRBMap Row} (hm : r.Filled block i m)
    {rbs : List (List Row)} (hrbs : r.readBatches i (r.infosInFile block i) = .ok rbs)
    (hfits : Fits (rbs.map List.length) (sizes (r.infosInFile block i))) :
    r.Filled block (i + 1) (Format.insertAll m ((r.inFile block i).map Prod.fst)
      ((sizes (r.infosInFile block i)).splitLengths rbs.flatten)) := by
  constructor
  · intro idx rows hinsert
    obtain hrows | ⟨k, hk, hrows⟩ := insertAll_eq_some hinsert
    · exact hm.answered idx rows hrows
    · exact ⟨i, k, rbs, hk, hrbs, cutAt_of_fits hfits hrows⟩
  · intro idx info hmem hlt
    apply isSome_insertAll
    · rw [length_map, length_splitLengths, sizes, length_map, infosInFile, length_map]
    · obtain hlt | heq := Nat.lt_succ_iff_lt_or_eq.mp hlt
      · exact .inl (hm.isSome idx info hmem hlt)
      · exact .inr (mem_map.mpr ⟨(idx, info), mem_filter.mpr ⟨hmem, decide_eq_true heq⟩, rfl⟩)

end ColumnGroupReader

open ColumnGroupReader

section IsOpen

variable {r : ColumnGroupReader Row} (h : IsOpen r) (hlayouts : Layouts r) {block : List ℤ}

include h hlayouts

theorem IsOpen.infosInFile_mem (i : ℕ) :
    ∀ info ∈ r.infosInFile block i, info ∈ r.chunkInfos ∧ 0 < info.numberOfRows := by
  intro info hinfo
  obtain ⟨⟨idx, info⟩, hmem, rfl⟩ := mem_map.mp hinfo
  have hmem' := mem_chunkInfos (mem_chunksOf.mp (mem_filter.mp hmem).1).2
  exact ⟨hmem', h.numberOfRows_pos hlayouts hmem'⟩

section

variable (hblock : block.Pairwise (· < ·))

include hblock

theorem IsOpen.infosInFile_pairwise (i : ℕ) : (r.infosInFile block i).Pairwise fun c d =>
      c.rowOffsetInFile + c.numberOfRows ≤ d.rowOffsetInFile := by
  refine pairwise_map.mpr (pairwise_filter.mpr ?_)
  exact (h.chunksOf_pairwise hlayouts hblock).imp fun hle hp hq =>
    hle ((of_decide_eq_true hp).trans (of_decide_eq_true hq).symm)

theorem IsOpen.ranges_ok (i : ℕ) : ∃ ranges groups,
    rangesInFile (r.infosInFile block i) = .ok ranges ∧
      groups.flatten = r.infosInFile block i ∧ Forall₂ (fun range group => group ≠ [] ∧
        Tiling.Chained ChunkInfo.rowOffsetInFile ChunkInfo.numberOfRows range.1 group range.2)
        ranges groups :=
  rangesInFile_ok (fun c hc => h.endInFile_eq hlayouts (h.infosInFile_mem hlayouts i c hc).1)
    (h.infosInFile_pairwise hlayouts hblock i)

/-- Reading the batches does not fail an assertion. -/
theorem IsOpen.returns_readBatches (i : ℕ) : Returns (r.readBatches i (r.infosInFile block i)) := by
  obtain ⟨ranges, -, hranges, -⟩ := h.ranges_ok hlayouts hblock i
  rw [readBatches, hranges]
  refine (returns_ok ranges).bind fun _ _ => (returns_openReaderForFile i).bind fun reader _ =>
    (Returns.mapM fun range _ => returns_orStatus _).bind fun rbs _ => returns_ok _

/-- **One file of a block.** -/
theorem IsOpen.readFile_cases {i : ℕ} {m : ChunkRBMap Row} (hm : r.Filled block i m) :
    (r.Ready block i ∧ ∃ m', r.readFile (r.chunksOf block) m i = .ok m' ∧
      r.Filled block (i + 1) m') ∨
    (¬ r.Ready block i ∧ r.RunsOut block i ∧
      r.readFile (r.chunksOf block) m i = .error .outOfBounds) ∨
    (¬ r.Ready block i ∧ ¬ r.RunsOut block i ∧ ∃ s,
      r.readFile (r.chunksOf block) m i = .error (.status s)) := by
  have hpos : ∀ info ∈ r.infosInFile block i, 0 < info.numberOfRows :=
    fun info hinfo => (h.infosInFile_mem hlayouts i info hinfo).2
  have hread : r.readFile (r.chunksOf block) m i = if r.inFile block i = [] then .ok m else do
      let rbs ← r.readBatches i (r.infosInFile block i)
      let rbs ← cutSync rbs (r.infosInFile block i)
      return insertAll m ((r.inFile block i).map Prod.fst) rbs := rfl
  rw [hread]
  by_cases hnil : r.inFile block i = []
  · rw [if_pos hnil]
    refine .inl ⟨.inl hnil, m, rfl, hm.answered, fun idx info hmem hlt => ?_⟩
    obtain hlt | heq := Nat.lt_succ_iff_lt_or_eq.mp hlt
    · exact hm.isSome idx info hmem hlt
    · have hmem' : (idx, info) ∈ r.inFile block i :=
        mem_filter.mpr ⟨hmem, decide_eq_true heq⟩
      rw [hnil] at hmem'
      cases hmem'
  · rw [if_neg hnil]
    cases hrbs : r.readBatches i (r.infosInFile block i) with
    | error e =>
      obtain ⟨s, rfl⟩ := h.returns_readBatches hlayouts hblock i e hrbs
      refine .inr (.inr ⟨?_, ?_, s, rfl⟩)
      · rintro (hnil' | ⟨rbs, hok, -⟩)
        · exact hnil hnil'
        · cases hrbs.symm.trans hok
      · rintro ⟨rbs, hok, -⟩
        cases hrbs.symm.trans hok
    | ok rbs =>
      have hready : r.Ready block i ↔ Fits (rbs.map length) (sizes (r.infosInFile block i)) := by
        rw [Ready, or_iff_right hnil, hrbs]
        simp
      have hrunsOut : r.RunsOut block i ↔
          Exhausted (rbs.map length) (sizes (r.infosInFile block i)) := by
        rw [RunsOut, hrbs]
        simp
      rw [hready, hrunsOut, Except.ok_bind]
      refine (cutSync_cases rbs hpos).imp ?_ (Or.imp ?_ ?_)
      · rintro ⟨hfits, hcut⟩
        exact ⟨hfits, _, by rw [hcut]; rfl, hm.insertAll hrbs hfits⟩
      · rintro ⟨hexhausted, hcut⟩
        exact ⟨hexhausted.not_fits (forall_sizes_pos hpos), hexhausted, by rw [hcut]; rfl⟩
      · rintro ⟨hfits, hexhausted, s, hcut⟩
        exact ⟨hfits, hexhausted, s, by rw [hcut]; rfl⟩

/-- The loop over the first `n` files ends, or stops at the first file that is not ready. -/
theorem IsOpen.readFiles_cases (n : ℕ) : ((∀ i < n, r.Ready block i) ∧ ∃ m,
      (List.range n).foldlM (r.readFile (r.chunksOf block)) (fun _ => none) = .ok m ∧
        r.Filled block n m) ∨
    ∃ i < n, (∀ j < i, r.Ready block j) ∧ ¬ r.Ready block i ∧
      ((r.RunsOut block i ∧ (List.range n).foldlM (r.readFile (r.chunksOf block))
        (fun _ => none) = .error .outOfBounds) ∨
      (¬ r.RunsOut block i ∧ ∃ s, (List.range n).foldlM (r.readFile (r.chunksOf block))
        (fun _ => none) = .error (.status s))) := by
  induction n with
  | zero => exact .inl ⟨nofun, _, rfl, nofun, fun _ _ _ hlt => absurd hlt (Nat.not_lt_zero _)⟩
  | succ n ih =>
    rw [range_succ, foldlM_append]
    obtain ⟨hready, m, hm, hfilled⟩ | ⟨i, hi, hready, hnot, hfail⟩ := ih
    · have hready' (hn : r.Ready block n) : ∀ i < n + 1, r.Ready block i := fun i hi =>
        (Nat.lt_succ_iff_lt_or_eq.mp hi).elim (hready i) fun heq => heq ▸ hn
      rw [hm, Except.ok_bind, foldlM_cons]
      obtain ⟨hn, m', hm', hfilled'⟩ | ⟨hn, hrunsOut, herror⟩ | ⟨hn, hrunsOut, s, herror⟩ :=
        h.readFile_cases hlayouts hblock hfilled
      · exact .inl ⟨hready' hn, m', by rw [hm']; rfl, hfilled'⟩
      · exact .inr ⟨n, Nat.lt_succ_self n, hready, hn, .inl ⟨hrunsOut, by rw [herror]; rfl⟩⟩
      · exact .inr ⟨n, Nat.lt_succ_self n, hready, hn, .inr ⟨hrunsOut, s, by rw [herror]; rfl⟩⟩
    · refine .inr ⟨i, by omega, hready, hnot, hfail.imp ?_ ?_⟩
      · rintro ⟨hrunsOut, herror⟩
        exact ⟨hrunsOut, by rw [herror]; rfl⟩
      · rintro ⟨hrunsOut, s, herror⟩
        exact ⟨hrunsOut, s, by rw [herror]; rfl⟩

end

omit hlayouts in
/-- The chunks of a block are looked up. -/
theorem IsOpen.mapM_taskChunk (block : List ℤ) :
    (r.AllExist block ∧ block.mapM r.taskChunk = .ok (r.chunksOf block)) ∨
      (¬ r.AllExist block ∧ ∃ s, block.mapM r.taskChunk = .error (.status s)) := by
  induction block with
  | nil => exact .inl ⟨nofun, rfl⟩
  | cons idx block ih =>
    rw [mapM_cons]
    cases hidx : r.chunkInfo? idx with
    | none =>
      refine .inr ⟨fun hall => ?_, r.chunkIndexOutOfRange idx, ?_⟩
      · have := hall idx mem_cons_self
        rw [hidx] at this
        cases this
      · rw [taskChunk, hidx]
        rfl
    | some info =>
      obtain ⟨file, hfile, -⟩ := h.startIndex_le (mem_chunkInfos hidx)
      have hlt := lt_of_getElem? hfile
      have htask : r.taskChunk idx = .ok (idx, info) := by
        rw [taskChunk, hidx]
        exact if_pos hlt
      have hcons : r.chunksOf (idx :: block) = (idx, info) :: r.chunksOf block :=
        filterMap_cons_some (by rw [hidx]; rfl)
      rw [htask, hcons, Except.ok_bind]
      obtain ⟨hall, hok⟩ | ⟨hnot, s, herror⟩ := ih
      · refine .inl ⟨forall_mem_cons.mpr ⟨by rw [hidx]; rfl, hall⟩, ?_⟩
        simp [hok]
      · refine .inr ⟨fun hall => hnot (forall_mem_cons.mp hall).2, s, ?_⟩
        simp [herror]

omit hlayouts in
theorem IsOpen.fileIndex_lt {idx : ℤ} {info : ChunkInfo} (hinfo : r.chunkInfo? idx = some info) :
    info.fileIndex < r.source.files.length := by
  obtain ⟨file, hfile, -⟩ := h.startIndex_le (mem_chunkInfos hinfo)
  exact lt_of_getElem? hfile

theorem IsOpen.not_ready_of_runsOut {i : ℕ} (hrunsOut : r.RunsOut block i) : ¬ r.Ready block i := by
  obtain ⟨rbs, hrbs, hexhausted⟩ := hrunsOut
  rintro (hnil | ⟨rbs', hrbs', hfits⟩)
  · rw [infosInFile, hnil] at hexhausted
    exact not_exhausted_nil hexhausted
  · cases hrbs.symm.trans hrbs'
    refine hexhausted.not_fits (forall_sizes_pos fun info hinfo => ?_) hfits
    exact (h.infosInFile_mem hlayouts i info hinfo).2

/-- **One block.** It leaves the batch list of a file exactly if that is the first file that is not
ready, and the file runs out. -/
theorem IsOpen.readChunksFromFiles_cases (hblock : block.Pairwise (· < ·)) :
    (r.Served block ∧ ∃ m, r.readChunksFromFiles block = .ok m ∧
      (∀ idx rows, m idx = some rows → r.Answered block idx rows) ∧
      ∀ idx ∈ block, (m idx).isSome) ∨
    (r.Overruns block ∧ r.readChunksFromFiles block = .error .outOfBounds) ∨
    (¬ r.Served block ∧ ¬ r.Overruns block ∧ ∃ s,
      r.readChunksFromFiles block = .error (.status s)) := by
  rw [readChunksFromFiles]
  obtain ⟨hall, hok⟩ | ⟨hnot, s, herror⟩ := h.mapM_taskChunk block
  · rw [hok, Except.ok_bind]
    obtain ⟨hready, m, hm, hfilled⟩ | ⟨i, hi, hready, hnot, hfail⟩ :=
      h.readFiles_cases hlayouts hblock r.source.files.length
    · refine .inl ⟨⟨hall, hready⟩, m, hm, hfilled.answered, fun idx hidx => ?_⟩
      obtain ⟨info, hinfo⟩ := Option.isSome_iff_exists.mp (hall idx hidx)
      exact hfilled.isSome idx info (mem_chunksOf.mpr ⟨hidx, hinfo⟩) (h.fileIndex_lt hinfo)
    · refine .inr (hfail.imp ?_ ?_)
      · rintro ⟨hrunsOut, herror⟩
        exact ⟨⟨hall, i, hi, hready, hrunsOut⟩, herror⟩
      · rintro ⟨hrunsOut, s, herror⟩
        refine ⟨fun hserved => hnot (hserved.2 i hi), ?_, s, herror⟩
        rintro ⟨-, j, hj, hready', hrunsOut'⟩
        -- both are the first file that is not ready
        obtain hlt | rfl | hlt := lt_trichotomy i j
        · exact hnot (hready' i hlt)
        · exact hrunsOut hrunsOut'
        · exact h.not_ready_of_runsOut hlayouts hrunsOut' (hready j hlt)
  · refine .inr (.inr ⟨fun hserved => hnot hserved.1, fun hover => hnot hover.1, s, ?_⟩)
    rw [herror]
    rfl

theorem IsOpen.not_overruns (hserved : r.Served block) : ¬ r.Overruns block := by
  rintro ⟨-, i, hlt, -, hrunsOut⟩
  exact h.not_ready_of_runsOut hlayouts hrunsOut (hserved.2 i hlt)

end IsOpen

/-! ## The results of all blocks -/

section Results

variable {results : List (Except Fault (ChunkRBMap Row))}

theorem fatal_eq_none {α : Type} {results : List (Except Fault α)}
    (h : ∀ result ∈ results, Returns result) : fatal results = none := by
  refine findSome?_eq_none_iff.mpr fun result hresult => ?_
  cases hres : result with
  | ok a => rfl
  | error e =>
    obtain ⟨s, rfl⟩ := h result hresult e hres
    rfl

/-- If all that goes wrong beyond an error status is the same fault, then it is found. -/
theorem fatal_eq_some {α : Type} {results : List (Except Fault α)} {e : Fault}
    (he : ∀ s, e ≠ .status s) (hmem : .error e ∈ results)
    (h : ∀ result ∈ results, Returns result ∨ result = .error e) : fatal results = some e := by
  induction results with
  | nil => cases hmem
  | cons result results ih =>
    obtain ⟨hres, hresults⟩ := forall_mem_cons.mp h
    rw [fatal, findSome?_cons]
    obtain hreturns | rfl := hres
    · have hmem' : .error e ∈ results := by
        apply (mem_cons.mp hmem).resolve_left
        rintro rfl
        obtain ⟨s, hs⟩ := hreturns e rfl
        exact he s hs
      have hnone : fatal [result] = none := fatal_eq_none (forall_mem_singleton.mpr hreturns)
      rw [fatal, findSome?_singleton] at hnone
      rw [hnone]
      exact ih hmem' hresults
    · cases e with
      | status s => exact absurd rfl (he s)
      | _ => rfl

/-- The merged map has the entries of all results. -/
theorem mergeResults_ok {init m : ChunkRBMap Row} (h : results.foldlM (fun chunkRBMap result => do
      let res ← result
      return fun i => (chunkRBMap i).or (res i)) init = .ok m) :
    (∀ idx rows, m idx = some rows → init idx = some rows ∨
      ∃ m', .ok m' ∈ results ∧ m' idx = some rows) ∧
    (∀ idx, ((init idx).isSome ∨ ∃ m', .ok m' ∈ results ∧ (m' idx).isSome) → (m idx).isSome) ∧
    ∀ result ∈ results, ∃ m', result = .ok m' := by
  induction results generalizing init with
  | nil =>
    cases h
    exact ⟨fun idx rows => .inl, fun idx h => h.resolve_right (by simp), nofun⟩
  | cons result results ih =>
    rw [foldlM_cons] at h
    obtain ⟨init', hinit', h⟩ := Except.bind_eq_ok.mp h
    obtain ⟨res, rfl, hinit'⟩ := Except.bind_eq_ok.mp hinit'
    cases hinit'
    obtain ⟨hsound, hcomplete, hok⟩ := ih h
    refine ⟨?_, ?_, forall_mem_cons.mpr ⟨⟨res, rfl⟩, hok⟩⟩
    · intro idx rows hrows
      obtain hor | ⟨m', hmem, hm'⟩ := hsound idx rows hrows
      · obtain hinit | ⟨-, hres⟩ := Option.or_eq_some_iff.mp hor
        · exact .inl hinit
        · exact .inr ⟨res, mem_cons_self, hres⟩
      · exact .inr ⟨m', mem_cons_of_mem _ hmem, hm'⟩
    · intro idx hidx
      apply hcomplete
      rw [Option.isSome_or, Bool.or_eq_true]
      obtain hinit | ⟨m', hmem, hm'⟩ := hidx
      · exact .inl (.inl hinit)
      · obtain heq | hmem := mem_cons.mp hmem
        · exact .inl (.inr (Except.ok.inj heq ▸ hm'))
        · exact .inr ⟨m', hmem, hm'⟩

theorem returns_mergeResults {init : ChunkRBMap Row} (h : ∀ result ∈ results, Returns result) :
    Returns (results.foldlM (fun chunkRBMap result => do
      let res ← result
      return fun i => (chunkRBMap i).or (res i)) init) := by
  induction results generalizing init with
  | nil => exact returns_ok init
  | cons result results ih =>
    obtain ⟨hres, hresults⟩ := forall_mem_cons.mp h
    exact (hres.bind fun res _ => returns_ok _).bind fun init' _ => ih hresults

theorem mergeResults_isOk (init : ChunkRBMap Row) (h : ∀ result ∈ results, ∃ m, result = .ok m) :
    ∃ m, results.foldlM (fun chunkRBMap result => do
      let res ← result
      return fun i => (chunkRBMap i).or (res i)) init = .ok m := by
  induction results generalizing init with
  | nil => exact ⟨init, rfl⟩
  | cons result results ih =>
    obtain ⟨⟨res, rfl⟩, hresults⟩ := forall_mem_cons.mp h
    exact ih _ hresults

end Results

end MilvusStorage.Format
