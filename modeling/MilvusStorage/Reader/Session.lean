import MilvusStorage.Reader.Delivery

/-!
# Sequences of calls of `ReadNext`

What a sequence of calls has delivered and what is pending make up the rows of the groups, side by
side (`PackedReader.Inv`). Every call keeps this if its state is not stalled and its failures come
early (`Inv.next`), so the batches delivered are always the beginning of the stream, and null is
only returned at its end.
-/

namespace MilvusStorage.Reader

open List

variable {V : Type}

/-- An output column of the whole stream. -/
def PackedReader.stream (R : PackedReader V) (k : ℕ) : List (Option V) :=
  match R.outFieldMap[k]? with
  | some (some (i, j)) => cells (R.whole i) j
  | some none => List.replicate (rows (R.whole 0)) none
  | none => []

namespace PackedReader

variable {R : PackedReader V} {heap : RowOffsetMinHeap} {io : Io} {s s' : Session (State V) V}

variable (R) in
/-- What is delivered and what is pending make up the rows of the groups. -/
structure Inv (s : Session (State V) V) : Prop where
  ok : R.Ok s.state
  wide : R.Wide s.state
  currentOffset_eq : s.state.currentOffset = rows s.delivered
  rows_eq : ∀ i < R.size, rows s.delivered + rows (R.pending s.state i) = rows (R.whole i)
  cells_eq : ∀ k i j : ℕ, R.outFieldMap[k]? = some (some (i, j)) →
    cells s.delivered k ++ cells (R.pending s.state i) j = cells (R.whole i) j
  nulls_eq : ∀ k : ℕ, R.outFieldMap[k]? = some none →
    cells s.delivered k = List.replicate (rows s.delivered) none
  length_columns : ∀ rb ∈ s.delivered, rb.columns.length = R.outFieldMap.length

theorem initial_inv (R : PackedReader V) : Inv R (.start {}) := by
  have hpending : ∀ i, R.pending ({} : State V) i = R.whole i := fun _ => rfl
  refine ⟨fun i => ⟨le_rfl, rfl, Nat.zero_le _⟩, fun i _ b hb => ?_, rfl, fun i _ => ?_,
    fun k i j _ => ?_, fun k _ => rfl, forall_mem_nil _⟩
  · obtain ⟨c, -, hb⟩ := mem_flatMap.mp hb
    unfold PackedReader.fetched at hb
    split_ifs at hb
    · split at hb
      · split_ifs at hb
        · rw [mem_singleton.mp hb]
          exact length_map ..
        · cases hb
      · cases hb
    · rw [mem_singleton.mp hb]
      exact length_map ..
  · show 0 + rows (R.pending ({} : State V) i) = _
    rw [hpending, zero_add]
  · show [] ++ cells (R.pending ({} : State V) i) j = _
    rw [hpending, nil_append]

/-! ## One call -/

variable {S : State V} {r : ReadResult V}

/-- A call that delivers nothing. -/
theorem Inv.kept (h : Inv R s) (hkept : R.Kept s.state S) (hr : batch r = none) :
    Inv R (s.append (S, r)) := by
  refine ⟨hkept.ok, hkept.wide h.wide, ?_, fun i hi => ?_, fun k i j hk => ?_, fun k hk => ?_, ?_⟩
  all_goals rw [s.delivered_append_none hr]
  · exact hkept.currentOffset_eq.trans h.currentOffset_eq
  · rw [Session.state_append, hkept.pending_eq]
    exact h.rows_eq i hi
  · rw [Session.state_append, hkept.pending_eq]
    exact h.cells_eq k i j hk
  · exact h.nulls_eq k hk
  · exact h.length_columns

/-- A call that delivers a batch. -/
theorem Inv.deliver (hv : R.Valid) (h : Inv R s) {S1 : State V} {rb : RecordBatch V}
    (hkept : R.Kept s.state S1) (hrbs : ∀ i < R.size, (S1.cg i).rbs ≠ [])
    (hd : R.Delivered S1 S rb) : Inv R (s.append (S, .ok (some rb))) := by
  have hwide1 := hkept.wide h.wide
  refine ⟨hd.ok hkept.ok, hd.wide hrbs hwide1, ?_, fun i hi => ?_, fun k i j hk => ?_,
    fun k hk => ?_, ?_⟩
  all_goals rw [Session.delivered_append_some]
  · rw [rows_append, ← h.currentOffset_eq, ← hkept.currentOffset_eq]
    exact hd.currentOffset_eq
  · obtain ⟨b, q, hq⟩ := exists_cons_of_ne_nil (hrbs i hi)
    obtain ⟨p, hp, hp'⟩ := hd.pending_eq hi hq
    have hrows := h.rows_eq i hi
    rw [← hkept.pending_eq, hp, rows_advance (hd.numRows_le i hi b q hq), ← hp'] at hrows
    rw [rows_append]
    show rows s.delivered + (rb.numRows + 0) + rows (R.pending S i) = _
    omega
  · obtain ⟨hi, hj⟩ := hv.lt_names hk
    obtain ⟨b, q, hq⟩ := exists_cons_of_ne_nil (hrbs i hi)
    obtain ⟨p, hp, hp'⟩ := hd.pending_eq hi hq
    have hb : j < b.columns.length := by
      rwa [hwide1 i hi b (hp ▸ mem_cons_self)]
    have hcells := h.cells_eq k i j hk
    rw [← hkept.pending_eq, hp, cells_advance hb rb.numRows, ← hp',
      ← hd.column_eq k i j hk b q hq] at hcells
    rwa [cells_append, cells_cons, cells_nil, append_nil, append_assoc]
  · rw [cells_append, cells_cons, cells_nil, h.nulls_eq k hk, hd.column_eq_nulls k hk, rows_append,
      rows_cons, rows_nil, append_nil, add_zero, replicate_append_replicate]
  · intro b hb
    obtain hb | hb := mem_append.mp hb
    · exact h.length_columns b hb
    · rw [mem_singleton.mp hb]
      exact hd.length_columns

section

variable (hv : R.Valid) (h : Inv R s) (hearly : R.EarlyFailures io s.state)
  (hstalled : ¬ R.Stalled s.state) (hread : R.readNext heap io s.state = (S, r))
include hv h hearly hstalled hread

theorem Inv.read : R.Read io s.state S r := by
  refine readNext_read hv h.ok h.wide ?_ hearly hstalled hread
  intro i hi
  rw [h.currentOffset_eq]
  exact h.rows_eq i hi

/-- **Every call keeps the invariant**, from a state that is not stalled and with failures that come
early. -/
theorem Inv.next : Inv R (s.append (S, r)) := by
  cases h.read hv hearly hstalled hread with
  | failed e hkept | endOfData hkept => exact h.kept hkept rfl
  | batch S1 rb hkept hrbs hd => exact h.deliver hv hkept hrbs hd

end

/-! ## What is delivered -/

theorem size_pos (hv : R.Valid) : 0 < R.size := length_pos_of_ne_nil hv.readers_ne_nil

theorem cells_eq_nil_of_le {q : List (RecordBatch V)} {n k : ℕ}
    (h : ∀ rb ∈ q, rb.columns.length = n) (hk : n ≤ k) : cells q k = [] := by
  rw [cells, flatMap_eq_nil_iff]
  intro rb hrb
  rw [RecordBatch.column, getElem?_eq_none (by rw [h rb hrb]; exact hk)]

/-- What is delivered is the beginning of the stream. -/
theorem Inv.isPrefix (hv : R.Valid) (h : Inv R s) (k : ℕ) : cells s.delivered k <+: R.stream k := by
  unfold PackedReader.stream
  split
  · next i j hk =>
    rw [← h.cells_eq k i j hk]
    exact prefix_append ..
  · next hk =>
    rw [h.nulls_eq k hk, ← h.rows_eq 0 (size_pos hv), ← replicate_append_replicate]
    exact prefix_append ..
  · next hk =>
    rw [cells_eq_nil_of_le h.length_columns (getElem?_eq_none_iff.mp hk)]

/-- When nothing is pending, the whole stream is delivered. -/
theorem Inv.eq_stream (hv : R.Valid) (h : Inv R s)
    (hend : ∀ i < R.size, rows (R.pending s.state i) = 0) (k : ℕ) :
    cells s.delivered k = R.stream k := by
  unfold PackedReader.stream
  split
  · next i j hk =>
    rw [← h.cells_eq k i j hk, cells_eq_nil (hend i (hv.lt_names hk).1), append_nil]
  · next hk =>
    have hrows := h.rows_eq 0 (size_pos hv)
    rw [hend 0 (size_pos hv), add_zero] at hrows
    rw [h.nulls_eq k hk, hrows]
  · next hk =>
    exact cells_eq_nil_of_le h.length_columns (getElem?_eq_none_iff.mp hk)

/-- At the end of the data, nothing is pending. -/
theorem Inv.rows_pending_eq_zero (hv : R.Valid) (h : Inv R s)
    (hend : (∀ i < R.size, R.pending s.state i = []) ∨
      R.predicate = false ∧ s.state.currentOffset = R.endOfOffset) :
    ∀ i < R.size, rows (R.pending s.state i) = 0 := by
  intro i hi
  obtain hnil | ⟨hp, hoff⟩ := hend
  · rw [hnil i hi, rows_nil]
  · have hrows := h.rows_eq i hi
    rw [PackedReader.rows_whole hv hp hi, ← h.currentOffset_eq] at hrows
    omega

end PackedReader

end MilvusStorage.Reader
