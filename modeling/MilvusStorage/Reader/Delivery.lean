import MilvusStorage.Reader.Pending

/-!
# What `ReadNext` delivers

A sequence of calls of `ReadNext` whose states and failures meet the conditions of
`loadInternal_kept` and `loadInternal_ready` delivers the rows of the groups side by side.
-/

namespace MilvusStorage.Reader

open List

variable {V : Type}

namespace PackedReader

variable {R : PackedReader V} {heap : RowOffsetMinHeap} {io : Io}

/-! ## The loading loop -/

variable (R) in
/-- The number of chunks that are not yet read. -/
def unread (S : State V) : ℕ :=
  ∑ i ∈ Finset.range R.size, (R.numberOfChunks i - (S.cg i).read)

theorem unread_le (S : State V) : R.unread S + 1 ≤ R.loadFuel :=
  Nat.add_le_add_right (sum_le_sum fun _ _ => Nat.sub_le ..) 1

variable {S S' : State V} {i : ℕ} {b rb : RecordBatch V}

theorem Kept.unread_lt (h : Kept R S S') (hi : i < R.size) (hlt : (S.cg i).read < (S'.cg i).read) :
    R.unread S' < R.unread S := by
  apply sum_lt_sum
  · intro j _
    have := h.read_le j
    omega
  · refine ⟨i, mem_range.mpr hi, ?_⟩
    have hle : (S'.cg i).read ≤ (S'.cg i).chunkIndex := Nat.sub_le ..
    have := (h.ok i).chunkIndex_le
    omega

/-- A group without a queued batch has nothing pending once nothing is planned and no chunk left. -/
theorem pending_eq_nil (hrbs : (S.cg i).rbs = []) (hloaded : (S.cg i).loaded = [])
    (hle : R.numberOfChunks i ≤ (S.cg i).chunkIndex) :
    R.pending S i = [] := by
  have hdrop : (R.chunks i).drop (S.cg i).read = [] := by
    rwa [drop_eq_nil_iff, Cursor.read, hloaded]
  simp [pending, pendingOf, hrbs, hdrop]

variable (R) in
/-- How the loop can end. -/
inductive LoopEnd (io : Io) (S : State V) : Except Fault Bool → Prop
  | failed (e : Fault)
      (h : io ≠ .noFailure ∨ R.predicate = false ∧ R.endOfOffset < S.currentOffset) :
      LoopEnd io S (.error e)
  | endOfData (h : (∀ i < R.size, R.pending S i = []) ∨
      R.predicate = false ∧ S.currentOffset = R.endOfOffset) : LoopEnd io S (.ok false)
  | data (hready : R.Ready S) (hdata : ∃ i < R.size, (S.cg i).rbs ≠ [])
      (hoff : R.predicate = false → S.currentOffset ≠ R.endOfOffset) : LoopEnd io S (.ok true)

/-- **The loading loop** ends and keeps what is pending. -/
theorem loadLoop_spec {fuel : ℕ} {r : Except Fault Bool} (hfuel : R.unread S + 1 ≤ fuel)
    (hok : R.Ok S) (hearly : R.EarlyFailures io S) (hstalled : ¬ R.Stalled S)
    (h : R.loadLoop heap io fuel S = (S', r)) :
    Kept R S S' ∧ LoopEnd R io S' r := by
  induction fuel generalizing S with
  | zero => omega
  | succ fuel ih =>
    rw [loadLoop] at h
    rcases hload : R.loadInternal heap io S with ⟨S₁, e⟩
    rw [hload] at h
    have hkept := loadInternal_kept hok hearly hload
    cases e with
    | some e =>
      cases h
      refine ⟨hkept, .failed e (.inl ?_)⟩
      rintro rfl
      have := loadInternal_noFailure R heap S
      rw [hload] at this
      cases this
    | none =>
      have hready := loadInternal_ready hok hearly hstalled hload
      dsimp only at h
      split_ifs at h with hover hend hdata hmore
      · cases h
        exact ⟨hkept, .failed _ (.inr (by simpa using hover))⟩
      · cases h
        exact ⟨hkept, .endOfData (.inr (by simpa using hend))⟩
      · cases h
        refine ⟨hkept, .data hready (by simpa using hdata) fun hp hoff => hend ?_⟩
        simp [hp, hoff]
      · -- no group has a batch queued and some has chunks left, so this call has read one
        have hrbs : ∀ i < R.size, (S₁.cg i).rbs = [] := by simpa using hdata
        obtain ⟨i, hi, hlt⟩ : ∃ i < R.size, (S₁.cg i).chunkIndex < R.numberOfChunks i := by
          simpa using hmore
        have hneed1 : R.needLoad S₁ = true := mem_needLoad.mpr ⟨i, hi, hrbs i hi, hlt⟩
        have hneed : R.needLoad S = true := by
          obtain ⟨hnot, rfl, -⟩ | ⟨hneed, -⟩ := loadInternal_cases hok hearly hload
          · exact hneed1
          · exact hneed
        obtain ⟨j, hj, hread⟩ := loadInternal_progress hok hearly hneed hload
        have hunread := hkept.unread_lt hj hread
        obtain ⟨hkept', hend'⟩ := ih (by omega) hkept.ok (hearly.mono hkept.read_le)
          (fun hst => by rw [hst.1] at hneed1; cases hneed1) h
        exact ⟨hkept.trans hkept', hend'⟩
      · obtain ⟨rfl, rfl⟩ := Prod.mk.inj h
        refine ⟨hkept, .endOfData (.inl fun i hi => ?_)⟩
        have hrbs : ∀ i < R.size, (S₁.cg i).rbs = [] := by simpa using hdata
        have hle : ∀ i < R.size, R.numberOfChunks i ≤ (S₁.cg i).chunkIndex := by simpa using hmore
        exact pending_eq_nil (hrbs i hi) (hready i hi (hrbs i hi)).1 (hle i hi)

/-! ## Delivering a batch -/

/-- The front batches of all groups, if each has one. -/
theorem fronts_ok (h : ∀ i < R.size, (S.cg i).rbs ≠ []) :
    ∃ fs, R.fronts S = .ok fs ∧ fs.length = R.size ∧ ∀ i < R.size, fs[i]? = (S.cg i).rbs.head? := by
  obtain ⟨fs, hfs⟩ : ∃ fs, R.fronts S = .ok fs := by
    apply Except.exists_mapM_ok
    intro i hi
    obtain ⟨rb, q, hq⟩ := exists_cons_of_ne_nil (h i (mem_range.mp hi))
    exact ⟨rb, by rw [hq]⟩
  refine ⟨fs, hfs, (Except.length_of_mapM_ok hfs).trans length_range, fun i hi => ?_⟩
  obtain ⟨rb, hrb, hfront⟩ := Except.getElem?_of_mapM_ok hfs (getElem?_range hi)
  rw [hrb]
  split at hfront
  · cases hfront
  · next q hq =>
    rw [hq, head?_cons, Except.ok.inj hfront]

theorem outArray_some {fronts : List (RecordBatch V)} {m j : ℕ} (hb : fronts[i]? = some b)
    (hm : m ≤ b.numRows) (hj : j < b.columns.length) :
    ∃ c, outArray fronts m (some (i, j)) = .ok c ∧ c.1 = (b.column j).take m := by
  have hget := getElem?_eq_getElem hj
  refine ⟨(b.columns[j]).take m hm, ?_, ?_⟩
  · simp [outArray, hb, hm, hget]
  · rw [RecordBatch.column_of_getElem? hget]
    rfl

variable {r : ColumnGroupReader V}

theorem Valid.lt_size (h : R.readers[i]? = some r) : i < R.size := lt_of_getElem? h

/-- An output column is one of the columns of its group's batches. -/
theorem Valid.lt_names (hv : R.Valid) {k j : ℕ} (h : R.outFieldMap[k]? = some (some (i, j))) :
    i < R.size ∧ j < (R.names i).length := by
  obtain ⟨r, hr, hj⟩ := hv.mem_outFieldMap k i j h
  refine ⟨Valid.lt_size hr, ?_⟩
  have hk : k < R.neededColumns.length := by
    rw [← hv.length_outFieldMap]
    exact lt_of_getElem? h
  rw [getElem?_eq_getElem hk] at hj
  have hnames : R.names i = projection R.neededColumns r := by simp only [names, hr]
  rw [hnames]
  exact lt_of_getElem? hj

variable (R) in
/-- The batches of a group have its columns. -/
def Wide (S : State V) : Prop :=
  ∀ i < R.size, ∀ b ∈ R.pending S i, b.columns.length = (R.names i).length

variable (R) in
/-- What delivering a batch does. -/
structure Delivered (S S' : State V) (rb : RecordBatch V) : Prop where
  cg_eq : ∀ i, S'.cg i = if i < R.size
    then { S.cg i with rbs := advance rb.numRows (S.cg i).rbs } else S.cg i
  currentOffset_eq : S'.currentOffset = S.currentOffset + rb.numRows
  length_columns : rb.columns.length = R.outFieldMap.length
  numRows_le : ∀ i < R.size, ∀ b q, (S.cg i).rbs = b :: q → rb.numRows ≤ b.numRows
  column_eq : ∀ k i j : ℕ, R.outFieldMap[k]? = some (some (i, j)) → ∀ b q, (S.cg i).rbs = b :: q →
    rb.column k = (b.column j).take rb.numRows
  column_eq_nulls : ∀ k : ℕ, R.outFieldMap[k]? = some none →
    rb.column k = List.replicate rb.numRows none
  numRows_eq : rb.numRows = (R.numberOfRowLimit % 2 ^ 64).toNat ∨
    ∃ i < R.size, ∃ b q, (S.cg i).rbs = b :: q ∧ rb.numRows = b.numRows

/-- **Delivering a batch**, if every group has one queued. -/
theorem deliver_spec (hv : R.Valid) (hwide : R.Wide S) (hrbs : ∀ i < R.size, (S.cg i).rbs ≠ []) :
    ∃ S' rb, R.deliver S = (S', .ok rb) ∧ Delivered R S S' rb := by
  obtain ⟨fs, hfs, hlen, hfront⟩ := fronts_ok hrbs
  have hmem : ∀ i < R.size, ∀ b q, (S.cg i).rbs = b :: q → fs[i]? = some b := by
    intro i hi b q hq
    rw [hfront i hi, hq, head?_cons]
  have hle : ∀ i < R.size, ∀ b q, (S.cg i).rbs = b :: q → R.minRows fs ≤ b.numRows :=
    fun i hi b q hq => foldl_min_le RecordBatch.numRows (mem_of_getElem? (hmem i hi b q hq)) _
  have hout : ∀ k i j : ℕ, R.outFieldMap[k]? = some (some (i, j)) → ∀ b q, (S.cg i).rbs = b :: q →
      ∃ c, outArray fs (R.minRows fs) (some (i, j)) = .ok c ∧
        c.1 = (b.column j).take (R.minRows fs) := by
    intro k i j hk b q hq
    obtain ⟨hi, hj⟩ := hv.lt_names hk
    apply outArray_some (hmem i hi b q hq) (hle i hi b q hq)
    have hb : b ∈ R.pending S i := by
      rw [pending, pendingOf, hq]
      exact mem_append_left _ mem_cons_self
    rwa [hwide i hi b hb]
  obtain ⟨outArrays, harrays⟩ : ∃ outArrays,
      R.outFieldMap.mapM (outArray fs (R.minRows fs)) = .ok outArrays := by
    apply Except.exists_mapM_ok
    intro entry hentry
    obtain ⟨k, hk⟩ := mem_iff_getElem?.mp hentry
    cases entry with
    | none => exact ⟨_, rfl⟩
    | some entry =>
      obtain ⟨i, j⟩ := entry
      obtain ⟨b, q, hq⟩ := exists_cons_of_ne_nil (hrbs i (hv.lt_names hk).1)
      obtain ⟨c, hc, -⟩ := hout k i j hk b q hq
      exact ⟨c, hc⟩
  refine ⟨_, ⟨R.minRows fs, outArrays⟩, by rw [deliver, hfs]; simp only [harrays]; rfl,
    fun i => rfl, rfl, Except.length_of_mapM_ok harrays, hle, fun k i j hk b q hq => ?_,
    fun k hk => ?_, ?_⟩
  · obtain ⟨c, hc, hcol⟩ := Except.getElem?_of_mapM_ok harrays hk
    obtain ⟨c', hc', htake⟩ := hout k i j hk b q hq
    rw [hc'] at hcol
    cases hcol
    rwa [RecordBatch.column_of_getElem? hc]
  · obtain ⟨c, hc, hcol⟩ := Except.getElem?_of_mapM_ok harrays hk
    cases hcol
    rw [RecordBatch.column_of_getElem? hc]
    rfl
  · obtain h | ⟨rb, hrb, h⟩ :=
      foldl_min_eq RecordBatch.numRows fs (R.numberOfRowLimit % 2 ^ 64).toNat
    · exact .inl h
    · refine .inr ?_
      obtain ⟨i, hi⟩ := mem_iff_getElem?.mp hrb
      have hlt : i < R.size := hlen ▸ lt_of_getElem? hi
      obtain ⟨b, q, hq⟩ := exists_cons_of_ne_nil (hrbs i hlt)
      rw [hmem i hlt b q hq] at hi
      obtain rfl := Option.some.inj hi
      exact ⟨i, hlt, b, q, hq, h⟩

/-! ## `ReadNext` -/

variable (R) in
/-- All batches of a group. -/
def whole (i : ℕ) : List (RecordBatch V) := (R.chunks i).flatMap (R.fetched i)

theorem whole_eq_map (hp : R.predicate = false) (hr : R.readers[i]? = some r) :
    R.whole i = r.chunks.map fun c => c.content.project (projection R.neededColumns r) := by
  have hfetched : R.fetched i = fun c => [c.content.project (projection R.neededColumns r)] := by
    funext c
    simp [fetched, hp, names, hr]
  have hchunks : R.chunks i = r.chunks := by simp only [chunks, hr]
  rw [whole, hchunks, hfetched, map_eq_flatMap]

theorem rows_whole (hv : R.Valid) (hp : R.predicate = false) (hi : i < R.size) :
    rows (R.whole i) = R.endOfOffset := by
  obtain ⟨r, hr⟩ : ∃ r, R.readers[i]? = some r := ⟨_, getElem?_eq_getElem hi⟩
  rw [← hv.totalRows_eq r (mem_of_getElem? hr), whole_eq_map hp hr, rows, map_map]
  rfl

variable (R) in
/-- What a call of `ReadNext` can do. -/
inductive Read (io : Io) (S S' : State V) : Except Fault (Option (RecordBatch V)) → Prop
  | failed (e : Fault) (hkept : Kept R S S')
      (hio : io ≠ .noFailure ∨ R.predicate = false ∧ R.endOfOffset < S'.currentOffset) :
      Read io S S' (.error e)
  | endOfData (hkept : Kept R S S') (hend : (∀ i < R.size, R.pending S' i = []) ∨
      R.predicate = false ∧ S'.currentOffset = R.endOfOffset) : Read io S S' (.ok none)
  | batch (S₁ : State V) (rb : RecordBatch V) (hkept : Kept R S S₁)
      (hrbs : ∀ i < R.size, (S₁.cg i).rbs ≠ []) (h : Delivered R S₁ S' rb) :
      Read io S S' (.ok (some rb))

theorem Kept.wide (h : Kept R S S') (hwide : R.Wide S) : R.Wide S' :=
  fun i hi b hb => hwide i hi b (h.pending_eq i ▸ hb)

/-- When the loop ends with data, every group has a batch queued. -/
theorem rbs_ne_nil (hv : R.Valid) (hready : R.Ready S) (hdata : ∃ i < R.size, (S.cg i).rbs ≠ [])
    (hoff : R.predicate = false → S.currentOffset ≠ R.endOfOffset)
    (hrows : ∀ i < R.size, S.currentOffset + rows (R.pending S i) = rows (R.whole i)) :
    ∀ i < R.size, (S.cg i).rbs ≠ [] := by
  intro i hi hrbs
  cases hp : R.predicate with
  | true =>
    -- there is only one group
    obtain ⟨j, hj, hrbs'⟩ := hdata
    have hone : R.size = 1 := hv.length_readers hp
    obtain rfl : i = j := by omega
    exact hrbs' hrbs
  | false =>
    obtain ⟨hloaded, hle⟩ := hready i hi hrbs
    have := hrows i hi
    rw [pending_eq_nil hrbs hloaded (hle hp), rows_whole hv hp hi, rows_nil] at this
    exact hoff hp this

theorem readNext_read (hv : R.Valid) {r : Except Fault (Option (RecordBatch V))} (hok : R.Ok S)
    (hwide : R.Wide S)
    (hrows : ∀ i < R.size, S.currentOffset + rows (R.pending S i) = rows (R.whole i))
    (hearly : R.EarlyFailures io S) (hstalled : ¬ R.Stalled S)
    (h : R.readNext heap io S = (S', r)) : Read R io S S' r := by
  unfold readNext at h
  rcases hloop : R.loadLoop heap io R.loadFuel S with ⟨S₁, r1⟩
  rw [hloop] at h
  obtain ⟨hkept, hend⟩ := loadLoop_spec (unread_le S) hok hearly hstalled hloop
  cases hend with
  | failed e he =>
    cases h
    exact .failed e hkept he
  | endOfData he =>
    cases h
    exact .endOfData hkept he
  | data hready hdata hoff =>
    have hrows1 : ∀ i < R.size, S₁.currentOffset + rows (R.pending S₁ i) = rows (R.whole i) := by
      intro i hi
      rw [hkept.currentOffset_eq, hkept.pending_eq]
      exact hrows i hi
    have hrbs := rbs_ne_nil hv hready hdata hoff hrows1
    obtain ⟨S2, rb, hdeliver, hdelivered⟩ := deliver_spec hv (hkept.wide hwide) hrbs
    simp only [hdeliver] at h
    cases h
    exact .batch S₁ rb hkept hrbs hdelivered

/-! ## What is pending after a batch -/

theorem advance_append (n : ℕ) (b : RecordBatch V) (p q : List (RecordBatch V)) :
    advance n (b :: q) ++ p = advance n (b :: (q ++ p)) := by
  simp only [advance]
  split_ifs <;> rfl

theorem Delivered.pending_eq (h : Delivered R S S' rb) (hi : i < R.size) {q : List (RecordBatch V)}
    (hq : (S.cg i).rbs = b :: q) :
    ∃ p, R.pending S i = b :: p ∧ R.pending S' i = advance rb.numRows (b :: p) := by
  refine ⟨q ++ ((R.chunks i).drop (S.cg i).read).flatMap (R.fetched i), ?_, ?_⟩
  · rw [pending, pendingOf, hq, cons_append]
  · rw [pending, pendingOf, h.cg_eq, if_pos hi, ← advance_append, ← hq]
    rfl

theorem Delivered.ok (h : Delivered R S S' rb) (hok : R.Ok S) : R.Ok S' := by
  intro i
  rw [h.cg_eq]
  split_ifs
  · exact ⟨(hok i).length_loaded_le, (hok i).loaded_eq, (hok i).chunkIndex_le⟩
  · exact hok i

theorem mem_advance {n : ℕ} {b' : RecordBatch V} {p : List (RecordBatch V)}
    (h : b' ∈ advance n (b :: p)) : b' ∈ p ∨ b' = b.slice n := by
  rw [advance] at h
  split_ifs at h
  · exact .inl h
  · exact (mem_cons.mp h).symm

theorem Delivered.wide (h : Delivered R S S' rb) (hrbs : ∀ i < R.size, (S.cg i).rbs ≠ [])
    (hwide : R.Wide S) : R.Wide S' := by
  intro i hi b' hb'
  obtain ⟨b, q, hq⟩ := exists_cons_of_ne_nil (hrbs i hi)
  obtain ⟨p, hp, hp'⟩ := h.pending_eq hi hq
  have hwide := hwide i hi
  rw [hp] at hwide
  rw [hp'] at hb'
  obtain hb' | rfl := mem_advance hb'
  · exact hwide b' (mem_cons_of_mem _ hb')
  · rw [← hwide b mem_cons_self]
    exact length_map ..

end PackedReader

end MilvusStorage.Reader
