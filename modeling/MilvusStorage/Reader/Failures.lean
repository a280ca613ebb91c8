import MilvusStorage.Reader.Zip

/-!
# Calls of `ReadNext` that fail

A call that fails keeps what is pending, so the calls after it can go on where it stopped. There are
two ways in which this goes wrong.

* The chunks of a failed round stay planned, but a later call only reads them in a round of its own,
  and it starts one only for a group that has chunks left to plan. If there is none, the planned
  chunks are lost (`Stalled`).
* With a predicate, a `get_chunk` that fails after others of its round leaves the rows of the others
  queued and their chunks planned, so they are read twice (`EarlyFailures` excludes it).

`readNext_inOrder`: sequences of calls in which neither happens deliver the stream in order.
-/

namespace MilvusStorage.Reader

open List

variable {V : Type} {R : PackedReader V} {heap : RowOffsetMinHeap}

variable (R) in
/-- A call from a state that is not stalled, whose `get_chunk`s fail before rows are queued. -/
def Recoverable (s : Session (State V) V) (io : Io) : Prop :=
  ¬ R.Stalled s.state ∧ R.EarlyFailures io s.state

/-- The batches of the successful calls are the beginning of a stream, and a call returns null only
after all of the stream. -/
structure InOrder (whole : List (RecordBatch V)) (results : List (ReadResult V)) : Prop where
  isPrefix : ∀ k, cells (batches results) k <+: cells whole k
  rows_le : rows (batches results) ≤ rows whole
  eq_whole : ∀ before after, results = before ++ .ok none :: after →
    (∀ k, cells (batches before) k = cells whole k) ∧ rows (batches before) = rows whole

namespace PackedReader

variable {s s' : Session (State V) V}

variable (R) in
/-- The invariant, and that the whole stream was delivered before each null. -/
structure Ordered (s : Session (State V) V) : Prop where
  inv : Inv R s
  eq_stream : ∀ before after, s.results = before ++ .ok none :: after →
    (∀ k, cells (batches before) k = R.stream k) ∧ rows (batches before) = rows (R.whole 0)

theorem Ordered.next (hv : R.Valid) (h : Ordered R s) {io : Io} (hio : Recoverable R s io)
    (hnext : s.next (R.readNext heap) io = some s') : Ordered R s' := by
  cases hnext
  rcases hread : R.readNext heap io s.state with ⟨S, r⟩
  have hinv := h.inv.next hv hio.2 hio.1 hread
  refine ⟨hinv, fun before after hsplit => ?_⟩
  obtain rfl | ⟨after', r', rfl⟩ := eq_nil_or_concat after
  · -- the null is the result of this call
    obtain ⟨hbefore, hr⟩ := append_inj' hsplit rfl
    obtain rfl := singleton_inj.mp hr
    cases h.inv.read hv hio.2 hio.1 hread with
    | endOfData hkept hend =>
      have hzero := hinv.rows_pending_eq_zero hv hend
      have hdelivered : (s.append (S, .ok none)).delivered = batches before := by
        rw [s.delivered_append_none rfl, Session.delivered, hbefore]
      have hrows := hinv.rows_eq 0 (size_pos hv)
      rw [hzero 0 (size_pos hv)] at hrows
      rw [← hdelivered]
      exact ⟨hinv.eq_stream hv hzero, hrows⟩
  · rw [concat_eq_append, ← cons_append, ← append_assoc] at hsplit
    exact h.eq_stream before after' (append_inj' hsplit rfl).1

theorem initial_ordered (R : PackedReader V) : Ordered R (.start {}) :=
  ⟨initial_inv R, fun before after h => by cases before <;> cases h⟩

theorem ordered_of_run (hv : R.Valid) {ios : List Io}
    (hmeets : Runs.Meets (Session.next (R.readNext heap)) (Recoverable R) (.start {}) ios)
    (hrun : Runs.run (Session.next (R.readNext heap)) (.start {}) ios = some s) : Ordered R s :=
  Runs.run_invariant_of_meets (fun _ _ _ h hio hnext => h.next hv hio hnext) (initial_ordered R)
    hmeets hrun

variable (heap) in
/-- Calls without failures meet the condition. -/
theorem meets_noFailure (hv : R.Valid) (h : Inv R s) (hidle : R.Idle s.state) (n : ℕ) :
    Runs.Meets (Session.next (R.readNext heap)) (Recoverable R) s
      (List.replicate n .noFailure) := by
  induction n generalizing s with
  | zero => trivial
  | succ n ih =>
    have hearly := R.earlyFailures_noFailure s.state
    refine ⟨⟨hidle.not_stalled, hearly⟩, fun s' hnext => ?_⟩
    cases hnext
    exact ih (h.next hv hearly hidle.not_stalled rfl) (hidle.readNext h.ok rfl)

end PackedReader

/-- The batches of a reader without failures are the stream. -/
theorem PackedReader.Drains.eq_stream (hv : R.Valid) {whole : List (RecordBatch V)}
    (h : R.Drains heap whole) :
    (∀ k, cells whole k = R.stream k) ∧ rows whole = rows (R.whole 0) := by
  obtain ⟨s, hrun, hresults⟩ := h
  have hmeets := meets_noFailure heap hv (initial_inv R) (fun _ _ => rfl) (whole.length + 1)
  have hord := (ordered_of_run hv hmeets hrun).eq_stream _ [] hresults
  rwa [show Session.results (.start {} : Session (State V) V) = [] from rfl, nil_append,
    batches_map_some] at hord

/-- **Failed calls**: in every sequence of calls from states that are not stalled, in which a
`get_chunk` fails only before rows of its round are queued, the successful calls deliver the
beginning of the stream of a reader without failures, and null is returned only after all of it. -/
theorem readNext_inOrder {schema : Option (List String)} {readers : List (ColumnGroupReader V)}
    {neededColumns : List String} {predicate : Bool} {properties : Properties}
    (hopen : openReader schema readers neededColumns predicate properties = .ok R)
    {heap₀ : RowOffsetMinHeap} {whole : List (RecordBatch V)} (hwhole : R.Drains heap₀ whole)
    {ios : List Io} {s : Session (State V) V}
    (hmeets : Runs.Meets (Session.next (R.readNext heap)) (Recoverable R) (.start {}) ios)
    (hrun : Runs.run (Session.next (R.readNext heap)) (.start {}) ios = some s) :
    InOrder whole s.results := by
  obtain ⟨hv, -⟩ := openReader_valid hopen
  obtain ⟨hcells, hrows⟩ := hwhole.eq_stream hv
  obtain ⟨hinv, hend⟩ := PackedReader.ordered_of_run hv hmeets hrun
  refine ⟨fun k => ?_, ?_, fun before after hsplit => ?_⟩
  · rw [hcells k]
    exact hinv.isPrefix hv k
  · have := hinv.rows_eq 0 (PackedReader.size_pos hv)
    rw [hrows, ← this]
    exact Nat.le_add_right ..
  · obtain ⟨hk, hr⟩ := hend before after hsplit
    exact ⟨fun k => (hk k).trans (hcells k).symm, hr.trans hrows.symm⟩

/-- A call that starts a round recovers, unless a predicate is set. -/
theorem recoverable_of_needLoad (hp : R.predicate = false) {s : Session (State V) V} {io : Io}
    (hneed : R.needLoad s.state = true) : Recoverable R s io := by
  refine ⟨fun hstalled => ?_, fun hpred => ?_⟩
  · rw [hstalled.1] at hneed
    cases hneed
  · rw [hp] at hpred
    cases hpred

/-- The reads of the first group fail. -/
def failingReads : Io := fun call =>
  if call = .chunks 0 then some (.ioError "read failed") else none

/-- With a second chunk left to plan, the call after a failed one reads the first chunk again. -/
theorem readNext_inOrder_retry : ∃ R whole s,
    openReader (some ["id"]) [idGroup] ["id"] false ⟨0, 2⟩ = .ok R ∧ R.Drains .first whole ∧
    Runs.run (Session.next (R.readNext .first)) (.start {}) [failingReads, .noFailure] = some s ∧
    rows (batches s.results) = 2 ∧ InOrder whole s.results := by
  obtain ⟨R, whole, s, hopen, hdrains, hrun, hrows, hp, hneed, hneed'⟩ : ∃ R whole s,
      openReader (some ["id"]) [idGroup] ["id"] false ⟨0, 2⟩ = .ok R ∧ R.Drains .first whole ∧
      Runs.run (Session.next (R.readNext .first)) (.start {}) [failingReads, .noFailure] = some s ∧
      rows (batches s.results) = 2 ∧ R.predicate = false ∧ R.needLoad {} = true ∧
      R.needLoad (R.readNext .first failingReads {}).1 = true :=
    ⟨_, [⟨2, [⟨[some 1, some 2], rfl⟩]⟩, ⟨1, [⟨[some 3], rfl⟩]⟩], _, rfl, ⟨_, rfl, rfl⟩, rfl, rfl,
      rfl, rfl, rfl⟩
  refine ⟨R, whole, s, hopen, hdrains, hrun, hrows, readNext_inOrder hopen hdrains ?_ hrun⟩
  refine ⟨recoverable_of_needLoad hp hneed, fun s' hnext => ⟨?_, fun _ _ => trivial⟩⟩
  cases hnext
  exact recoverable_of_needLoad hp hneed'

/-- The only chunk of the only group fails to be read. The next call finds nothing to plan and
returns null, while a reader without failures returns the row. -/
theorem readNext_after_failed_read : ∃ R whole s,
    openReader (some ["score"]) [⟨["score"], [], [columnChunk [some 10]]⟩] ["score"] false ⟨0, 2⟩ =
      .ok R ∧ R.Drains .first whole ∧
    Runs.run (Session.next (R.readNext .first)) (.start {}) [failingReads, .noFailure] = some s ∧
    ¬ InOrder whole s.results := by
  refine ⟨_, [⟨1, [⟨[some 10], rfl⟩]⟩], _, rfl, ⟨_, rfl, rfl⟩, rfl, fun h => ?_⟩
  have hrows := (h.eq_whole [_] [] rfl).2
  cases hrows

end MilvusStorage.Reader
