import MilvusStorage.Reader.Session

/-!
# The stream of the column-group reader

Without failures, repeated calls of `ReadNext` return the rows of the groups side by side and then
null. A call that delivers a batch either delivers rows or takes an empty batch from a queue, which
bounds the number of calls (`work_lt`); a state between calls has nothing planned (`Idle`), so it is
never stalled.

`readNext_zip` is the conclusion for a reader as `open` returns it.
-/

namespace MilvusStorage.Reader

open List

variable {V : Type}

namespace PackedReader

variable {R : PackedReader V} {heap : RowOffsetMinHeap}

variable (R) in
/-- Nothing is planned. -/
def Idle (S : State V) : Prop := ∀ i < R.size, (S.cg i).loaded = []

variable {S S' : State V}

theorem Idle.not_stalled (h : R.Idle S) : ¬ R.Stalled S :=
  fun ⟨_, i, hi, _, hloaded⟩ => hloaded (h i hi)

theorem earlyFailures_noFailure (S : State V) : R.EarlyFailures .noFailure S :=
  fun _ _ _ hc => absurd rfl hc

theorem Idle.loadInternal {e : Option Fault} (hok : R.Ok S) (hidle : R.Idle S)
    (h : R.loadInternal heap .noFailure S = (S', e)) : e = none ∧ R.Idle S' := by
  obtain rfl : e = none := by
    have := loadInternal_noFailure R heap S
    rwa [h] at this
  refine ⟨rfl, ?_⟩
  obtain ⟨-, rfl, -⟩ | ⟨-, S1, -, ⟨-, he⟩ | ⟨-, -, hall⟩⟩ :=
    loadInternal_cases hok (earlyFailures_noFailure S) h
  · exact hidle
  · exact absurd rfl he
  · exact hall rfl

theorem Idle.loadLoop {fuel : ℕ} {r : Except Fault Bool} (hok : R.Ok S) (hidle : R.Idle S)
    (h : R.loadLoop heap .noFailure fuel S = (S', r)) : R.Idle S' := by
  induction fuel generalizing S with
  | zero =>
    cases h
    exact hidle
  | succ fuel ih =>
    rw [loadLoop] at h
    rcases hload : R.loadInternal heap .noFailure S with ⟨S1, e⟩
    rw [hload] at h
    obtain ⟨rfl, hidle1⟩ := Idle.loadInternal hok hidle hload
    have hkept := loadInternal_kept hok (earlyFailures_noFailure S) hload
    dsimp only at h
    split_ifs at h
    all_goals first
      | exact ih hkept.ok hidle1 h
      | cases h
        exact hidle1

theorem Idle.deliver {r : Except Fault (RecordBatch V)} (hidle : R.Idle S)
    (h : R.deliver S = (S', r)) : R.Idle S' := by
  unfold PackedReader.deliver at h
  split at h
  · cases h
    exact hidle
  · dsimp only at h
    split at h
    · cases h
      exact hidle
    · cases h
      intro i hi
      show (if i < R.size then _ else _ : Cursor V).loaded = []
      rw [if_pos hi]
      exact hidle i hi

theorem Idle.readNext {r : Except Fault (Option (RecordBatch V))} (hok : R.Ok S) (hidle : R.Idle S)
    (h : R.readNext heap .noFailure S = (S', r)) : R.Idle S' := by
  unfold PackedReader.readNext at h
  rcases hloop : R.loadLoop heap .noFailure R.loadFuel S with ⟨S1, r1⟩
  have hidle1 := Idle.loadLoop hok hidle hloop
  rw [hloop] at h
  match r1 with
  | .error e | .ok false =>
    cases h
    exact hidle1
  | .ok true =>
    rcases hdeliver : R.deliver S1 with ⟨S2, r2⟩
    have hidle2 := hidle1.deliver hdeliver
    simp only [hdeliver] at h
    cases r2 with
    | error e | ok rb =>
      cases h
      exact hidle2

/-! ## The number of calls -/

variable (R) in
/-- The rows and the batches that are pending. -/
def work (S : State V) : ℕ :=
  rows (R.pending S 0) + ∑ i ∈ Finset.range R.size, (R.pending S i).length

theorem Kept.work_eq (h : Kept R S S') : R.work S' = R.work S := by
  unfold work
  simp [h.pending_eq]

/-- A batch takes rows or an empty batch from the queues. -/
theorem Delivered.work_lt (hsize : 0 < R.size) (hlimit : 0 < (R.numberOfRowLimit % 2 ^ 64).toNat)
    {rb : RecordBatch V} (h : Delivered R S S' rb) (hrbs : ∀ i < R.size, (S.cg i).rbs ≠ []) :
    R.work S' < R.work S := by
  have hlen : ∀ i < R.size, (R.pending S' i).length ≤ (R.pending S i).length := by
    intro i hi
    obtain ⟨b, q, hq⟩ := exists_cons_of_ne_nil (hrbs i hi)
    obtain ⟨p, hp, hp'⟩ := h.pending_eq hi hq
    rw [hp, hp']
    exact length_advance_le ..
  have hrows : rows (R.pending S 0) = rb.numRows + rows (R.pending S' 0) := by
    obtain ⟨b, q, hq⟩ := exists_cons_of_ne_nil (hrbs 0 hsize)
    obtain ⟨p, hp, hp'⟩ := h.pending_eq hsize hq
    rw [hp, hp']
    exact rows_advance (h.numRows_le 0 hsize b q hq) p
  have hsum : ∑ i ∈ Finset.range R.size, (R.pending S' i).length ≤
      ∑ i ∈ Finset.range R.size, (R.pending S i).length :=
    sum_le_sum fun i hi => hlen i (mem_range.mp hi)
  unfold work
  obtain hzero | hpos := eq_zero_or_pos rb.numRows
  · obtain hlim | ⟨i, hi, b, q, hq, hb⟩ := h.numRows_eq
    · omega
    · have hlt : ∑ i ∈ Finset.range R.size, (R.pending S' i).length <
          ∑ i ∈ Finset.range R.size, (R.pending S i).length := by
        apply Finset.sum_lt_sum fun i hi => hlen i (mem_range.mp hi)
        refine ⟨i, mem_range.mpr hi, ?_⟩
        obtain ⟨p, hp, hp'⟩ := h.pending_eq hi hq
        rw [hp, hp', advance, if_pos hb.symm]
        exact Nat.lt_succ_self _
      omega
  · omega

variable (R heap) in
/-- A reader without failures returns these batches and then null. -/
def Drains (bs : List (RecordBatch V)) : Prop :=
  ∃ s, Session.Drains (R.readNext heap) (.start {}) .noFailure bs s

variable {s : Session (State V) V}

theorem Inv.not_lt_currentOffset (hv : R.Valid) (h : Inv R s) (hp : R.predicate = false) :
    ¬ R.endOfOffset < s.state.currentOffset := by
  have hrows := h.rows_eq 0 (size_pos hv)
  rw [PackedReader.rows_whole hv hp (size_pos hv), ← h.currentOffset_eq] at hrows
  omega

variable (heap) in
/-- From any state between calls, the calls that follow end with null. -/
theorem Inv.exists_drain (hv : R.Valid) (hlimit : 0 < (R.numberOfRowLimit % 2 ^ 64).toNat)
    (h : Inv R s) (hidle : R.Idle s.state) :
    ∃ bs s', Session.Drains (R.readNext heap) s .noFailure bs s' ∧ Inv R s' ∧
      ∀ i < R.size, rows (R.pending s'.state i) = 0 := by
  refine Session.exists_drain (fun s => Inv R s ∧ R.Idle s.state) (measure R.work).wf
    (fun s ⟨h, hidle⟩ => ?_) ⟨h, hidle⟩
  rcases hread : R.readNext heap .noFailure s.state with ⟨S, r⟩
  have hearly := R.earlyFailures_noFailure s.state
  have hinv := h.next hv hearly hidle.not_stalled hread
  refine ⟨S, r, rfl, ?_⟩
  cases h.read hv hearly hidle.not_stalled hread with
  | failed e hkept hio =>
    exact hio.elim (absurd rfl) fun ⟨hp, hlt⟩ => absurd hlt (hinv.not_lt_currentOffset hv hp)
  | endOfData hkept hend => exact .inl ⟨rfl, hinv, hinv.rows_pending_eq_zero hv hend⟩
  | batch S1 rb hkept hrbs hd =>
    refine .inr ⟨⟨rb, rfl⟩, ?_, hinv, hidle.readNext h.ok hread⟩
    show R.work S < R.work s.state
    rw [← hkept.work_eq]
    exact hd.work_lt (size_pos hv) hlimit hrbs

variable (heap) in
/-- Without failures, the calls return the stream and then null. -/
theorem Valid.exists_drains (hv : R.Valid) (hlimit : 0 < (R.numberOfRowLimit % 2 ^ 64).toNat) :
    ∃ bs, R.Drains heap bs ∧ rows bs = rows (R.whole 0) ∧
      (∀ rb ∈ bs, rb.columns.length = R.outFieldMap.length) ∧ ∀ k, cells bs k = R.stream k := by
  obtain ⟨bs, s, hdrains, hinv, hend⟩ :=
    (initial_inv R).exists_drain heap hv hlimit (fun _ _ => rfl)
  have hdelivered : s.delivered = bs := Session.delivered_of_drains hdrains
  have hrows := hinv.rows_eq 0 (size_pos hv)
  rw [hend 0 (size_pos hv), hdelivered] at hrows
  refine ⟨bs, ⟨s, hdrains⟩, hrows, fun rb hrb => ?_, fun k => ?_⟩
  · exact hinv.length_columns rb (hdelivered ▸ hrb)
  · rw [← hdelivered]
    exact hinv.eq_stream hv hend k

end PackedReader

/-! ## The stream -/

variable {name : String}

theorem column_project {r : Rows V} {names : List String} {j : ℕ} (h : names[j]? = some name) :
    (r.project names).column j = (r.column name).1 := by
  apply RecordBatch.column_of_getElem?
  show (names.map r.column)[j]? = some (r.column name)
  rw [getElem?_map, h, Option.map_some]

theorem cells_whole {R : PackedReader V} (hp : R.predicate = false) {i j : ℕ}
    {r : ColumnGroupReader V} (hr : R.readers[i]? = some r)
    (hj : (projection R.neededColumns r)[j]? = some name) : cells (R.whole i) j = r.cells name := by
  rw [PackedReader.whole_eq_map hp hr, cells, flatMap_map]
  congr 1
  funext c
  exact column_project hj

/-- A needed column is taken from the group that holds it, and is null if none does. -/
theorem stream_eq {R : PackedReader V} (hv : R.Valid) (hp : R.predicate = false)
    (hdisj : R.readers.Pairwise fun r r' => List.Disjoint r.columns r'.columns) {k : ℕ}
    (hk : R.neededColumns[k]? = some name) :
    (∀ r ∈ R.readers, name ∈ r.columns → R.stream k = r.cells name) ∧
      ((∀ r ∈ R.readers, name ∉ r.columns) → R.stream k = List.replicate R.endOfOffset none) := by
  have hlt : k < R.outFieldMap.length := by
    rw [hv.length_outFieldMap]
    exact lt_of_getElem? hk
  have hentry := getElem?_eq_getElem hlt
  unfold PackedReader.stream
  cases hmap : R.outFieldMap[k] with
  | none =>
    rw [hmap] at hentry
    rw [hentry]
    have hnot := hv.notMem_columns k name hentry hk
    refine ⟨fun r hr hmem => absurd hmem (hnot r hr), fun _ => ?_⟩
    rw [← PackedReader.rows_whole hv hp (PackedReader.size_pos hv)]
  | some entry =>
    obtain ⟨i, j⟩ := entry
    rw [hmap] at hentry
    rw [hentry]
    obtain ⟨r', hr', hj⟩ := hv.mem_outFieldMap k i j hentry
    rw [hk] at hj
    have hmem' : name ∈ r'.columns := by
      have := (mem_filter.mp (mem_of_getElem? hj)).2
      exact of_decide_eq_true this
    refine ⟨fun r hr hmem => ?_, fun hnot => absurd hmem' (hnot r' (mem_of_getElem? hr'))⟩
    have : Std.Symm fun r r' : ColumnGroupReader V => List.Disjoint r.columns r'.columns :=
      ⟨fun _ _ h => h.symm⟩
    have hsame : r' = r := by
      by_contra hne
      exact hdisj.forall (mem_of_getElem? hr') hr hne hmem' hmem
    rw [← hsame]
    exact cells_whole hp hr' hj

/-- **The stream of the column-group reader** is the row-wise zip of its groups: without failures,
the calls of `ReadNext` return some batches and then null, and these batches are the rows of the
groups in order, each needed column from the group that holds it. -/
theorem readNext_zip (heap : RowOffsetMinHeap) {schema : Option (List String)}
    {readers : List (ColumnGroupReader V)} {neededColumns : List String} {properties : Properties}
    {R : PackedReader V}
    (hopen : openReader schema readers neededColumns false properties = .ok R)
    (hlimit : 1 ≤ properties.recordBatchMaxRows ∧ properties.recordBatchMaxRows < 2 ^ 63)
    (hdisj : readers.Pairwise fun r r' => List.Disjoint r.columns r'.columns) :
    ∃ bs, R.Drains heap bs ∧ (∀ r ∈ readers, rows bs = r.totalRows) ∧
      (∀ rb ∈ bs, rb.columns.length = neededColumns.length) ∧
      ∀ k name, neededColumns[k]? = some name →
        (∀ r ∈ readers, name ∈ r.columns → cells bs k = r.cells name) ∧
        ((∀ r ∈ readers, name ∉ r.columns) → cells bs k = List.replicate (rows bs) none) := by
  obtain ⟨hv, rfl, rfl, hp, hrowLimit⟩ := openReader_valid hopen
  have hpos : 0 < (R.numberOfRowLimit % 2 ^ 64).toNat := by
    omega
  obtain ⟨bs, hdrains, hrows, hlen, hcells⟩ := hv.exists_drains heap hpos
  rw [PackedReader.rows_whole hv hp (PackedReader.size_pos hv)] at hrows
  refine ⟨bs, hdrains, fun r hr => ?_, fun rb hrb => ?_, fun k name hk => ?_⟩
  · rw [hrows, hv.totalRows_eq r hr]
  · rw [hlen rb hrb, hv.length_outFieldMap]
  · rw [hcells k, hrows]
    exact stream_eq hv hp hdisj hk

/-- A chunk of one column without a size estimate. -/
def columnChunk (values : List (Option V)) : Chunk V where
  content := ⟨values.length, fun _ => .ofList values⟩
  filtered := none
  estimatedSize := none

/-- Three ids, in chunks of two and one rows. -/
def idGroup : ColumnGroupReader ℕ :=
  ⟨["id"], [], [columnChunk [some 1, some 2], columnChunk [some 3]]⟩

/-- Three scores, in chunks of one and two rows. -/
def scoreGroup : ColumnGroupReader ℕ :=
  ⟨["score"], [], [columnChunk [some 10], columnChunk [some 20, none]]⟩

/-- Groups with different chunks, read with a column that neither holds. -/
theorem readNext_zip_two_groups : ∃ R bs,
    openReader (some ["id", "score", "tag"]) [idGroup, scoreGroup] ["score", "tag", "id"] false
      ⟨0, 2⟩ = .ok R ∧ R.Drains .first bs ∧
    cells bs 0 = [some 10, some 20, none] ∧ cells bs 1 = [none, none, none] ∧
    cells bs 2 = [some 1, some 2, some 3] := by
  obtain ⟨R, hopen⟩ : ∃ R, openReader (some ["id", "score", "tag"]) [idGroup, scoreGroup]
    ["score", "tag", "id"] false ⟨0, 2⟩ = .ok R := ⟨_, rfl⟩
  obtain ⟨bs, hdrains, hrows, -, hcells⟩ := readNext_zip .first hopen (by decide)
    (by simp [idGroup, scoreGroup])
  have hthree : rows bs = 3 := hrows idGroup (by simp)
  refine ⟨R, bs, hopen, hdrains, ?_, ?_, ?_⟩
  · exact (hcells 0 "score" rfl).1 scoreGroup (by simp) (by simp [scoreGroup])
  · simp [(hcells 1 "tag" rfl).2 (by simp [idGroup, scoreGroup]), hthree]
  · exact (hcells 2 "id" rfl).1 idGroup (by simp) (by simp [idGroup])

end MilvusStorage.Reader
