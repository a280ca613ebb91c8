import MilvusStorage.Foundations.Runs
import MilvusStorage.Vortex.Layout
import MilvusStorage.Vortex.RangeFile

/-!
# Loading and evicting cells

A `VortexTranslater` loads the cells of a field or of a column group into a range file, and hands
out a guard for each cell. When a guard is destroyed, the byte ranges of its cell are punched out.
Several translaters share one range file. The segments of a row-group unit are those of all columns,
so that the cells of two fields of one row group have the same segments.
-/

namespace MilvusStorage.Vortex

open List Command SparseFile

variable {β : Type}

def checkedAddByteSize (label : String) : ℕ → ℕ → Except Fault ℕ :=
  addOrFail (.thrown s!"{label} overflows uint64_t")

section Cells

variable (sort : List ByteRange → List ByteRange)

def mergedByteSize (flatSegmentRanges : List ByteRange) : Except Fault ℕ :=
  ((mergeByteRanges sort flatSegmentRanges).map (·.length)).foldlM
    (checkedAddByteSize "Merged vortex byte range size") 0

def pinnedByteSize (m : VortexCellMeta) : Except Fault ℕ := do
  return max m.storageBytes (← mergedByteSize sort m.flatSegmentRanges)

def mergeCellByteRanges (cellMetas : List VortexCellMeta) (cids : List ℕ) : List ByteRange :=
  mergeByteRanges sort (cids.flatMap fun cid => cellMetas[cid]?.elim [] (·.flatSegmentRanges))

/-- `~VortexCellGuard`. -/
def punchCell (cellMetas : List VortexCellMeta) (cid : ℕ) (f : SparseFile β) : SparseFile β :=
  punchRanges (mergeByteRanges sort (cellMetas[cid]?.elim [] (·.flatSegmentRanges))) f

/-- The guards of the cells. If one cannot be constructed, those before it are destroyed. -/
def makeGuards (cellMetas : List VortexCellMeta) : List ℕ → List ℕ →
    Command (SparseFile β) Fault Unit
  | _, [] => pure ()
  | guards, cid :: cids =>
    match cellMetas[cid]? with
    | none => fail .outOfBounds
    | some m =>
      match pinnedByteSize sort m with
      | .error e => do
        modify fun f => guards.foldl (fun f guard => punchCell sort cellMetas guard f) f
        fail e
      | .ok _ => makeGuards cellMetas (guards ++ [cid]) cids

/-- The exception that is thrown for a status. -/
def throwStatus : Fault → Fault
  | .status s => .thrown s.toString
  | e => e

/-- `get_cells`: the cells that have a guard then. -/
def getCells (source : List β) (io : ℕ → FillIo) (cellMetas : List VortexCellMeta)
    (cids : List ℤ) : Command (SparseFile β) Fault (List ℕ) := fun f =>
  let numCells := cellMetas.length
  match cids.find? fun cid => cid < 0 ∨ cellMetas.length ≤ cid.toNat with
  | some cid =>
    (f, .error (.thrown s!"Vortex cell id {cid} is out of range, num_cells={numCells}"))
  | none =>
    let cells := cids.map Int.toNat
    match fillRanges source io (mergeCellByteRanges sort cellMetas cells) f with
    | (f, .error e) => (f, .error (throwStatus e))
    | (f, .ok ()) => (makeGuards sort cellMetas [] cells >>= fun _ => pure cells) f

end Cells

/-! ## Runs -/

/-- The range file, and the cells that have a live guard, as pairs of a translater and a cell. -/
structure CacheState (β : Type) where
  file : SparseFile β
  live : List (ℕ × ℕ) := []

inductive CacheEvent
  | getCells (translater : ℕ) (cids : List ℤ) (io : ℕ → FillIo)
  | destroy (translater cell : ℕ)

/-- A step of the translaters. A cell has at most one live guard at a time. -/
def cacheStep (sort : List ByteRange → List ByteRange) (source : List β)
    (translaters : List (List VortexCellMeta)) (s : CacheState β) :
    CacheEvent → Option (CacheState β)
  | .getCells t cids io =>
    if ¬cids.Nodup ∨ ∃ g ∈ s.live, g.1 = t ∧ (g.2 : ℤ) ∈ cids then none
    else translaters[t]?.map fun cellMetas =>
      match getCells sort source io cellMetas cids s.file with
      | (file, .ok cells) => { file, live := s.live ++ cells.map (t, ·) }
      | (file, .error _) => { s with file }
  | .destroy t cell =>
    if (t, cell) ∈ s.live then translaters[t]?.map fun cellMetas =>
      { file := punchCell sort cellMetas cell s.file, live := s.live.erase (t, cell) }
    else none

/-- The bytes of a cell. -/
def VortexCellMeta.Bytes (m : VortexCellMeta) (i : ℕ) : Prop :=
  ∃ r ∈ m.flatSegmentRanges, r.Covers i

/-- Every byte of every cell that has a live guard is present. -/
def CacheState.Present (source : List β) (translaters : List (List VortexCellMeta))
    (s : CacheState β) : Prop :=
  ∀ t cell, (t, cell) ∈ s.live → ∀ metas, translaters[t]? = some metas →
    ∀ m, metas[cell]? = some m → SparseFile.Holds source s.file m.Bytes

/-- The segments of the file are in the source, apart from each other. -/
structure Stored (source : List β) (vxfile : VortexFile) : Prop where
  size_le : source.length ≤ int64Max
  fit : Fit source.length vxfile.segmentMap
  apart : ∀ (i j : ℕ) (r r' : ByteRange), vxfile.segmentMap[i]? = some r →
    vxfile.segmentMap[j]? = some r' → i ≠ j → ∀ k, r.Covers k → ¬r'.Covers k

section Loading

variable {sort : List ByteRange → List ByteRange} {source : List β} {vxfile : VortexFile}
  {m m' : VortexCellMeta} {metas : List VortexCellMeta} {f : SparseFile β} {i : ℕ}

theorem VortexCellMeta.Located.bytes_iff (h : m.Located vxfile.HasSegment) :
    m.Bytes i ↔ ∃ id ∈ m.flatSegmentIds, ∃ r, vxfile.HasSegment id r ∧ r.Covers i := by
  constructor
  · rintro ⟨r, hr, hi⟩
    obtain ⟨id, hid, hseg⟩ := h.exists_left hr
    exact ⟨id, hid, r, hseg, hi⟩
  · rintro ⟨id, hid, r, hseg, hi⟩
    obtain ⟨r', hr', hseg'⟩ := h.exists_right hid
    obtain rfl : r = r' := Option.some.inj (hseg.1.symm.trans hseg'.1)
    exact ⟨r, hr', hi⟩

section

variable (hstored : Stored source vxfile) (hm : m.Located vxfile.HasSegment)
include hstored hm

/-- Cells without a common segment have no common byte. -/
theorem Stored.not_bytes (hm' : m'.Located vxfile.HasSegment)
    (hdisj : m.flatSegmentIds.Disjoint m'.flatSegmentIds) (hi : m.Bytes i) : ¬m'.Bytes i := by
  intro hi'
  obtain ⟨id, hid, r, hr, hcov⟩ := hm.bytes_iff.mp hi
  obtain ⟨id', hid', r', hr', hcov'⟩ := hm'.bytes_iff.mp hi'
  have hne : id ≠ id' := fun heq => hdisj hid (heq ▸ hid')
  exact hstored.apart id id' r r' hr.1 hr'.1 hne i hcov hcov'

theorem Stored.fit_ranges : Fit source.length m.flatSegmentRanges := by
  intro r hr
  obtain ⟨id, -, hseg⟩ := hm.exists_left hr
  exact hstored.fit r (mem_of_getElem? hseg.1)

end

theorem Stored.size_le_u64Max (hstored : Stored source vxfile) : source.length ≤ u64Max :=
  hstored.size_le.trans (by decide)

theorem pinnedByteSize_ok (hsort : SortsByOffset sort) (hstored : Stored source vxfile)
    (hm : m.Located vxfile.HasSegment) : ∃ n, pinnedByteSize sort m = .ok n := by
  have hsum := (mergeByteRanges_fit hsort hstored.size_le_u64Max (hstored.fit_ranges hm)).2
  have hle : 0 + ((mergeByteRanges sort m.flatSegmentRanges).map (·.length)).sum ≤ u64Max := by
    have := hstored.size_le_u64Max
    omega
  rw [pinnedByteSize, mergedByteSize, checkedAddByteSize, foldlM_addOrFail hle]
  exact ⟨_, rfl⟩

variable {cids : List ℕ}

theorem makeGuards_eq (hpinned : ∀ m ∈ metas, ∃ n, pinnedByteSize sort m = .ok n)
    (hcids : ∀ cid ∈ cids, cid < metas.length) (guards : List ℕ) :
    makeGuards sort metas guards cids f = (f, .ok ()) := by
  induction cids generalizing guards with
  | nil => rfl
  | cons cid cids ih =>
    obtain ⟨hcid, hcids⟩ := forall_mem_cons.mp hcids
    obtain ⟨n, hn⟩ := hpinned _ (getElem_mem hcid)
    rw [makeGuards, getElem?_eq_getElem hcid]
    simp only [hn]
    exact ih hcids _

/-- The cells of a translater, and where their segments are. -/
structure CellsOf (vxfile : VortexFile) (metas : List VortexCellMeta) : Prop where
  located : ∀ m ∈ metas, m.Located vxfile.HasSegment
  apart : ∀ (i j : ℕ) (m m' : VortexCellMeta), metas[i]? = some m → metas[j]? = some m' → i ≠ j →
    m.flatSegmentIds.Disjoint m'.flatSegmentIds

theorem covers_mergeCellByteRanges (hsort : SortsByOffset sort) {cid : ℕ} (hcid : cid ∈ cids)
    (hm : metas[cid]? = some m) (hi : m.Bytes i) :
    ∃ r ∈ mergeCellByteRanges sort metas cids, r.Covers i := by
  obtain ⟨r, hr, hi⟩ := hi
  refine (covers_mergeByteRanges hsort).mpr ⟨r, mem_flatMap.mpr ⟨cid, hcid, ?_⟩, hi⟩
  rwa [hm]

theorem mergeCellByteRanges_fit (hsort : SortsByOffset sort) (hstored : Stored source vxfile)
    (hcells : CellsOf vxfile metas) (cids : List ℕ) :
    Fit source.length (mergeCellByteRanges sort metas cids) := by
  refine (mergeByteRanges_fit hsort hstored.size_le_u64Max fun r hr => ?_).1
  obtain ⟨cid, -, hr⟩ := mem_flatMap.mp hr
  cases hm : metas[cid]? with
  | none => simp [hm] at hr
  | some m =>
    rw [hm] at hr
    exact hstored.fit_ranges (hcells.located m (mem_of_getElem? hm)) r hr

/-- The cells of a call with cell ids in range. -/
theorem getCells_eq (sort : List ByteRange → List ByteRange) (source : List β) (io : ℕ → FillIo)
    (hcids : ∀ cid ∈ cids, cid < metas.length) (f : SparseFile β) :
    getCells sort source io metas (cids.map Int.ofNat) f =
      match fillRanges source io (mergeCellByteRanges sort metas cids) f with
      | (f, .error e) => (f, .error (throwStatus e))
      | (f, .ok ()) => (makeGuards sort metas [] cids >>= fun _ => pure cids) f := by
  have hfind : (cids.map Int.ofNat).find?
      (fun cid => cid < 0 ∨ metas.length ≤ cid.toNat) = none := by
    simpa using hcids
  have hmap : (cids.map Int.ofNat).map Int.toNat = cids := by
    rw [map_map]
    exact map_id cids
  rw [getCells, hfind]
  simp [hmap]

/-- **A call** keeps the bytes that are right. If it returns guards, the bytes of their cells are
right. -/
theorem getCells_spec (hsort : SortsByOffset sort) (hstored : Stored source vxfile)
    (hcells : CellsOf vxfile metas) (io : ℕ → FillIo) (cids : List ℤ) (f : SparseFile β) :
    ∃ f' r, getCells sort source io metas cids f = (f', r) ∧
      (∀ P, SparseFile.Holds source f P → SparseFile.Holds source f' P) ∧
      ∀ cells, r = .ok cells → cids = cells.map Int.ofNat ∧
        ∀ cell ∈ cells, ∀ m, metas[cell]? = some m → SparseFile.Holds source f' m.Bytes := by
  cases hfind : cids.find? (fun cid => cid < 0 ∨ metas.length ≤ cid.toNat) with
  | some cid =>
    obtain ⟨e, he⟩ : ∃ e, getCells sort source io metas cids f = (f, .error e) :=
      ⟨_, by rw [getCells, hfind]⟩
    exact ⟨f, .error e, he, fun _ => id, fun cells h => nomatch h⟩
  | none =>
    have hrange : ∀ cid ∈ cids, 0 ≤ cid ∧ cid.toNat < metas.length := by
      simpa using hfind
    obtain ⟨cells, rfl⟩ : ∃ cells : List ℕ, cids = cells.map Int.ofNat := by
      have hid : cids.map (Int.ofNat ∘ Int.toNat) = cids.map id :=
        map_congr_left fun cid hcid => Int.toNat_of_nonneg (hrange cid hcid).1
      exact ⟨cids.map Int.toNat, by rw [map_map, hid, map_id]⟩
    have hlt : ∀ cell ∈ cells, cell < metas.length := by
      simpa using hrange
    rw [getCells_eq sort source io hlt]
    have hkeeps := fun P => keeps_iff.mp
      (fillRanges_keeps source io (mergeCellByteRanges sort metas cells) P) f
    rcases hfill : fillRanges source io (mergeCellByteRanges sort metas cells) f with ⟨f', e | _⟩
    · rw [hfill] at hkeeps
      exact ⟨f', .error _, rfl, hkeeps, fun cells h => nomatch h⟩
    · rw [hfill] at hkeeps
      refine ⟨f', .ok cells, ?_, hkeeps, fun cells' hcells' => ?_⟩
      · exact bind_run_ok (makeGuards_eq
          (fun m hm => pinnedByteSize_ok hsort hstored (hcells.located m hm)) hlt [])
      · cases hcells'
        refine ⟨rfl, fun cell hcell m hm => (fillRanges_holds hfill).mono fun i hi => ?_⟩
        exact covers_mergeCellByteRanges hsort hcell hm hi

theorem punchCell_of_bytes (hsort : SortsByOffset sort) {cell : ℕ} (hm : metas[cell]? = some m)
    (hi : m.Bytes i) : punchCell sort metas cell f i = none := by
  rw [punchCell, hm, punchRanges_apply]
  exact if_pos ((covers_mergeByteRanges hsort).mpr hi)

theorem punchCell_of_not_bytes (hsort : SortsByOffset sort) {cell : ℕ}
    (hi : ∀ m, metas[cell]? = some m → ¬m.Bytes i) : punchCell sort metas cell f i = f i := by
  rw [punchCell, punchRanges_apply]
  refine if_neg fun hcov => ?_
  obtain ⟨r, hr, hcov⟩ := (covers_mergeByteRanges hsort).mp hcov
  cases hm : metas[cell]? with
  | none => simp [hm] at hr
  | some m =>
    rw [hm] at hr
    exact hi m hm ⟨r, hr, hcov⟩

end Loading

/-! ## No byte is lost -/

/-- No segment belongs to cells of two translaters. -/
def SegmentsApart (translaters : List (List VortexCellMeta)) : Prop :=
  ∀ (t t' : ℕ) (metas metas' : List VortexCellMeta), translaters[t]? = some metas →
    translaters[t']? = some metas' → t ≠ t' → ∀ m ∈ metas, ∀ m' ∈ metas',
      m.flatSegmentIds.Disjoint m'.flatSegmentIds

section Runs

variable {sort : List ByteRange → List ByteRange} {source : List β} {vxfile : VortexFile}
  {translaters : List (List VortexCellMeta)} {s s' : CacheState β} {t c : ℕ}

/-- Cells of different guards have no common byte. -/
theorem Stored.apart_of_segmentsApart (hstored : Stored source vxfile)
    (hcells : ∀ metas ∈ translaters, CellsOf vxfile metas) (hapart : SegmentsApart translaters)
    {t' c' : ℕ} (hne : (t', c') ≠ (t, c)) {metas metas' : List VortexCellMeta}
    (hmetas : translaters[t]? = some metas) (hmetas' : translaters[t']? = some metas')
    {m m' : VortexCellMeta} (hm : metas[c]? = some m) (hm' : metas'[c']? = some m') {i : ℕ}
    (hi : m'.Bytes i) : ¬m.Bytes i := by
  have hmem := hcells metas (mem_of_getElem? hmetas)
  have hmem' := hcells metas' (mem_of_getElem? hmetas')
  refine hstored.not_bytes (hmem'.located m' (mem_of_getElem? hm'))
    (hmem.located m (mem_of_getElem? hm)) ?_ hi
  by_cases ht : t' = t
  · subst ht
    obtain rfl : metas = metas' := Option.some.inj (hmetas.symm.trans hmetas')
    exact hmem.apart c' c m' m hm' hm fun hc => hne (by rw [hc])
  · exact hapart t' t metas' metas hmetas' hmetas ht m' (mem_of_getElem? hm') m (mem_of_getElem? hm)

/-- The guards are different, and their bytes are present. -/
structure CacheInv (source : List β) (translaters : List (List VortexCellMeta)) (s : CacheState β) :
    Prop where
  nodup : s.live.Nodup
  present : s.Present source translaters

section

variable (hsort : SortsByOffset sort) (hstored : Stored source vxfile)
include hsort hstored

theorem CacheInv.getCells (hcells : ∀ metas ∈ translaters, CellsOf vxfile metas)
    (h : CacheInv source translaters s) {cids : List ℤ} {io : ℕ → FillIo}
    (hstep : cacheStep sort source translaters s (.getCells t cids io) = some s') :
    CacheInv source translaters s' := by
  rw [cacheStep] at hstep
  split_ifs at hstep with hguards
  obtain ⟨hnodup, hfree⟩ := not_or.mp hguards
  obtain ⟨metas, hmetas, rfl⟩ := Option.map_eq_some_iff.mp hstep
  obtain ⟨file, r, hrun, hkeeps, hok⟩ := getCells_spec hsort hstored
    (hcells metas (mem_of_getElem? hmetas)) io cids s.file
  rw [hrun]
  cases r with
  | error e =>
    exact ⟨h.nodup, fun t' c hlive ms hms m hm => hkeeps _ (h.present t' c hlive ms hms m hm)⟩
  | ok cells =>
    obtain ⟨rfl, hholds⟩ := hok cells rfl
    refine ⟨nodup_append'.mpr ⟨h.nodup, ?_, ?_⟩, fun t' c hlive ms hms m hm => ?_⟩
    · exact ((not_not.mp hnodup).of_map _).map fun c c' hc => (Prod.mk.inj hc).2
    · rintro ⟨t', c⟩ hlive hmem
      obtain ⟨c', hc', heq⟩ := mem_map.mp hmem
      cases heq
      exact hfree ⟨_, hlive, rfl, mem_map_of_mem hc'⟩
    · obtain hlive | hlive := mem_append.mp hlive
      · exact hkeeps _ (h.present t' c hlive ms hms m hm)
      · obtain ⟨c', hc', heq⟩ := mem_map.mp hlive
        cases heq
        obtain rfl : metas = ms := Option.some.inj (hmetas.symm.trans hms)
        exact hholds c hc' m hm

theorem CacheInv.destroy (hcells : ∀ metas ∈ translaters, CellsOf vxfile metas)
    (hapart : SegmentsApart translaters) (h : CacheInv source translaters s)
    (hstep : cacheStep sort source translaters s (.destroy t c) = some s') :
    CacheInv source translaters s' := by
  rw [cacheStep] at hstep
  split_ifs at hstep with hlive
  obtain ⟨metas, hmetas, rfl⟩ := Option.map_eq_some_iff.mp hstep
  refine ⟨h.nodup.erase _, fun t' c' hlive' metas' hmetas' m' hm' i hi => ?_⟩
  obtain ⟨hne, hlive'⟩ := h.nodup.mem_erase_iff.mp hlive'
  obtain ⟨hlt, heq⟩ := h.present t' c' hlive' metas' hmetas' m' hm' i hi
  refine ⟨hlt, ?_⟩
  rw [← heq]
  exact punchCell_of_not_bytes hsort fun m hm =>
    hstored.apart_of_segmentsApart hcells hapart hne hmetas hmetas' hm hm' hi

/-- A call for one cell, with IO that succeeds. -/
theorem cacheStep_getCells {metas : List VortexCellMeta} (hcells : CellsOf vxfile metas)
    (hmetas : translaters[t]? = some metas) (hc : c < metas.length) (hfree : (t, c) ∉ s.live) :
    ∃ file, cacheStep sort source translaters s (.getCells t [(c : ℤ)] fun _ => {}) =
      some { file, live := s.live ++ [(t, c)] } := by
  obtain ⟨file, hfill⟩ := fillRanges_ok (mergeCellByteRanges_fit hsort hstored hcells [c])
    hstored.size_le s.file
  have hguards := makeGuards_eq (f := file)
    (fun m hm => pinnedByteSize_ok hsort hstored (hcells.located m hm))
    (forall_mem_singleton.mpr hc) []
  have hrun : getCells sort source (fun _ => {}) metas [(c : ℤ)] s.file = (file, .ok [c]) := by
    have heq := getCells_eq sort source (fun _ => {}) (forall_mem_singleton.mpr hc) s.file
    rw [hfill] at heq
    exact heq.trans (bind_run_ok hguards)
  refine ⟨file, ?_⟩
  rw [cacheStep, if_neg, hmetas]
  · simp [hrun]
  · rintro (hnodup | ⟨⟨t', c'⟩, hlive, rfl, hmem⟩)
    · exact hnodup (nodup_singleton _)
    · obtain rfl : c' = c := Int.ofNat.inj (mem_singleton.mp hmem)
      exact hfree hlive

/-- Two live cells with a common segment: the guard of the first is destroyed. -/
theorem exists_run_not_present (hcells : ∀ metas ∈ translaters, CellsOf vxfile metas)
    (hapart : ¬SegmentsApart translaters) (file : SparseFile β) :
    ∃ events s, Runs.run (cacheStep sort source translaters) { file } events = some s ∧
      ¬s.Present source translaters := by
  simp only [SegmentsApart, List.Disjoint, not_forall, exists_prop, not_false_eq_true, and_true]
    at hapart
  obtain ⟨t, t', metas, metas', hmetas, hmetas', hne, m, hm, m', hm', id, hid, hid'⟩ := hapart
  have hof := hcells metas (mem_of_getElem? hmetas)
  have hof' := hcells metas' (mem_of_getElem? hmetas')
  -- the first byte of the segment is a byte of both cells
  obtain ⟨r, -, hseg⟩ := (hof.located m hm).exists_right hid
  have hcov : r.Covers r.offset :=
    ⟨le_rfl, Nat.lt_add_of_pos_right (Nat.pos_of_ne_zero hseg.2)⟩
  have hi : m.Bytes r.offset := (hof.located m hm).bytes_iff.mpr ⟨id, hid, r, hseg, hcov⟩
  have hi' : m'.Bytes r.offset :=
    (hof'.located m' hm').bytes_iff.mpr ⟨id, hid', r, hseg, hcov⟩
  obtain ⟨c, hc⟩ := mem_iff_getElem?.mp hm
  obtain ⟨c', hc'⟩ := mem_iff_getElem?.mp hm'
  have hlt := lt_of_getElem? hc
  have hlt' := lt_of_getElem? hc'
  obtain ⟨file1, h1⟩ := cacheStep_getCells (s := { file }) hsort hstored hof hmetas hlt (by simp)
  obtain ⟨file2, h2⟩ := cacheStep_getCells (s := ⟨file1, [(t, c)]⟩) hsort hstored hof' hmetas' hlt'
    (by simp [hne.symm])
  have h3 : cacheStep sort source translaters ⟨file2, [(t, c), (t', c')]⟩ (.destroy t c) =
      some ⟨punchCell sort metas c file2, [(t', c')]⟩ := by
    simp [cacheStep, hmetas]
  refine ⟨[.getCells t [c] fun _ => {}, .getCells t' [c'] fun _ => {}, .destroy t c],
    ⟨punchCell sort metas c file2, [(t', c')]⟩, ?_, fun hpresent => ?_⟩
  · simp only [Runs.run, h1, h2, h3, nil_append, singleton_append, Option.bind_some]
  · have hholds := hpresent t' c' (mem_singleton_self _) metas' hmetas' m' hc'
    exact hholds.ne_none hi' (punchCell_of_bytes hsort hc hi)

end

end Runs

/-- **Evicting a cell** never removes a byte of another live cell, if and only if no segment belongs
to cells of two translaters. -/
theorem translaters_keep_bytes_iff {sortCells : List VortexCellMeta → List VortexCellMeta}
    {sort : List ByteRange → List ByteRange} (hsortCells : ∀ l, (sortCells l).Perm l)
    (hsort : SortsByOffset sort) {source : List β} {vxfile : VortexFile}
    (hstored : Stored source vxfile) {path : String}
    {prune : String → List ℕ → Except Fault (List ℕ)} {translaters : List (List VortexCellMeta)}
    (hbuilt : ∀ metas ∈ translaters, Built sortCells (vxfile.footerReader path prune) metas)
    (file : SparseFile β) :
    (∀ events s, Runs.run (cacheStep sort source translaters) { file } events = some s →
      s.Present source translaters) ↔ SegmentsApart translaters := by
  have hcells : ∀ metas ∈ translaters, CellsOf vxfile metas := fun metas hmetas => {
    located := (hbuilt metas hmetas).located hsortCells fun _ _ hlayout u hu s hs =>
      have ⟨_, _, _, hsegs⟩ := VortexFile.getFieldLayout_hasSegment hlayout
      (hsegs u hu s hs).2
    apart := fun _ _ _ _ => ((hbuilt metas hmetas).valid hsortCells).disjoint }
  constructor
  · intro hruns
    by_contra hapart
    obtain ⟨events, s, hrun, hpresent⟩ := exists_run_not_present hsort hstored hcells hapart file
    exact hpresent (hruns events s hrun)
  · intro hapart events s hrun
    have hstep : ∀ (s : CacheState β) event s', CacheInv source translaters s → True →
        cacheStep sort source translaters s event = some s' → CacheInv source translaters s' := by
      intro s event s' h _ hstep
      cases event with
      | getCells t cids io => exact h.getCells hsort hstored hcells hstep
      | destroy t c => exact h.destroy hsort hstored hcells hapart hstep
    exact (Runs.run_invariant hstep ⟨nodup_nil, by simp [CacheState.Present]⟩
      (fun _ _ => trivial) hrun).present

/-! A file with the columns `x` and `y` and one row group. Its segments have one byte each. -/

def flatLayout (rowCount segmentId : ℕ) : Layout :=
  .mk (.other "vortex.flat") rowCount [segmentId] .nil

def oneGroupFile : VortexFile where
  layout := .mk .rowGroupZoneMap 2 [] <|
    .cons (.transparent "data") (.mk (.other "vortex.chunked") 2 [] <|
      .cons (.chunk 0 0) (.mk (.other "vortex.struct") 2 [] <|
        .cons (.field "x") (flatLayout 2 0) <| .cons (.field "y") (flatLayout 2 1) .nil) .nil) <|
    .cons (.auxiliary "zones") (flatLayout 1 2) .nil
  segmentMap := [⟨0, 1⟩, ⟨1, 1⟩, ⟨2, 1⟩]
  fieldNames := ["x", "y"]

/-- The cells of `x`, and of `y`, and of both. -/
def oneGroupCells : List VortexCellMeta := [{
  granularity := .rowGroup, physicalUnitIndex := 0, rowOffset := 0, rowCount := 2,
  flatSegmentIds := [0, 1], flatSegmentRanges := [⟨0, 1⟩, ⟨1, 1⟩], memoryBytes := 2,
  storageBytes := 2 }]

def oneGroupFooter : VortexFooterReader := oneGroupFile.footerReader "a.vx" fun _ ids => .ok ids

/-- The guard of the cell of `x` is destroyed while the cell of `y` is in use. -/
theorem evicting_x_removes_y :
    buildVortexCellMetas sortByRowOffset oneGroupFooter "x" = .ok oneGroupCells ∧
      buildVortexCellMetas sortByRowOffset oneGroupFooter "y" = .ok oneGroupCells ∧
      ∃ s, Runs.run (cacheStep sortRanges ['a', 'b', 'c'] [oneGroupCells, oneGroupCells])
          { file := empty }
          [.getCells 0 [0] fun _ => {}, .getCells 1 [0] fun _ => {}, .destroy 0 0] = some s ∧
        s.live = [(1, 0)] ∧ s.file 0 = none ∧ s.file 1 = none :=
  ⟨by decide, by decide, _, rfl, rfl, rfl, rfl⟩

theorem oneGroupFile_segment {i k : ℕ} {r : ByteRange} (hr : oneGroupFile.segmentMap[i]? = some r)
    (hk : r.Covers k) : k = i := by
  have hone : r = ⟨i, 1⟩ := by
    match i, hr with
    | 0, rfl => rfl
    | 1, rfl => rfl
    | 2, rfl => rfl
  subst hone
  have hle := hk.1
  have hlt := hk.2
  dsimp only at hle hlt
  omega

theorem stored_oneGroupFile : Stored ['a', 'b', 'c'] oneGroupFile where
  size_le := by decide
  fit := show ∀ r ∈ oneGroupFile.segmentMap, r.offset + r.length ≤ 3 by decide
  apart _ _ _ _ hr hr' hne _ hk hk' :=
    hne ((oneGroupFile_segment hr hk).symm.trans (oneGroupFile_segment hr' hk'))

/-! The columns `x` and `y` in layouts of their own. -/

def structFile : VortexFile := { oneGroupFile with
  layout := .mk (.other "vortex.struct") 2 [] <|
    .cons (.field "x") (flatLayout 2 0) <| .cons (.field "y") (flatLayout 2 1) .nil }

/-- The cell of a column with one segment. -/
def columnCells (segmentId : ℕ) : List VortexCellMeta := [{
  granularity := .flat, physicalUnitIndex := 0, rowOffset := 0, rowCount := 2,
  flatSegmentIds := [segmentId], flatSegmentRanges := [⟨segmentId, 1⟩], memoryBytes := 1,
  storageBytes := 1 }]

theorem segmentsApart_columnCells : SegmentsApart [columnCells 0, columnCells 1] := by
  have hids : ∀ {t : ℕ} {metas : List VortexCellMeta}, [columnCells 0, columnCells 1][t]? =
      some metas → ∀ m ∈ metas, m.flatSegmentIds = [t] := by
    intro t metas ht m hm
    match t, ht with
    | 0, rfl => rw [mem_singleton.mp hm]
    | 1, rfl => rw [mem_singleton.mp hm]
  intro t t' metas metas' ht ht' hne m hm m' hm'
  rw [hids ht m hm, hids ht' m' hm']
  simpa using hne.symm

/-- After `x` has been evicted, `y` is still there. -/
theorem translaters_keep_bytes_columns :
    (∀ events s, Runs.run (cacheStep sortRanges ['a', 'b', 'c'] [columnCells 0, columnCells 1])
      { file := empty } events = some s →
        s.Present ['a', 'b', 'c'] [columnCells 0, columnCells 1]) ∧
    ∃ s, Runs.run (cacheStep sortRanges ['a', 'b', 'c'] [columnCells 0, columnCells 1])
        { file := empty }
        [.getCells 0 [0] fun _ => {}, .getCells 1 [0] fun _ => {}, .destroy 0 0] = some s ∧
      s.live = [(1, 0)] ∧ s.file 0 = none ∧ s.file 1 = some 'b' := by
  have hbuilt : ∀ metas ∈ [columnCells 0, columnCells 1], Built sortByRowOffset
      (structFile.footerReader "a.vx" fun _ ids => .ok ids) metas :=
    forall_mem_cons.mpr ⟨.inl ⟨"x", by decide⟩, forall_mem_singleton.mpr (.inl ⟨"y", by decide⟩)⟩
  have hstored : Stored ['a', 'b', 'c'] structFile :=
    ⟨stored_oneGroupFile.size_le, stored_oneGroupFile.fit, stored_oneGroupFile.apart⟩
  refine ⟨?_, _, rfl, rfl, rfl, rfl⟩
  exact (translaters_keep_bytes_iff (fun l => perm_insertionSort _ l)
    sortsByOffset_sortRanges hstored hbuilt empty).mpr segmentsApart_columnCells

end MilvusStorage.Vortex
