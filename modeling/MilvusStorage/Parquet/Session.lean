import MilvusStorage.Foundations.Runs
import MilvusStorage.Parquet.Stored

/-!
# Sessions of the Parquet writer

Any calls of the writer, and then `Close`. If all of them return OK, the file has the rows that have
been written, and the metadata of every row group (`close_rows`). After failures it still has every
row once, unless a phase has failed after it had stored rows (`close_after_failures`,
`close_repeated_rows`).
-/

namespace MilvusStorage.Parquet

open Command

variable {α : Type} {env : Environment}

/-! ## Closed writers -/

section Closed

variable {b : Bool}

theorem keeps_libraryCall :
    Keeps (fun w : ParquetFileWriter α => w.closed = b) (libraryCall env) := by
  rintro w hw
  rw [libraryCall]
  split <;> simp [hw]

theorem keeps_writeRowGroup (batches : SizedBatches α) (size : UInt64) :
    Keeps (fun w : ParquetFileWriter α => w.closed = b) (writeRowGroup env batches size) := by
  refine Keeps.bind (Keeps.bind keeps_libraryCall fun _ => keeps_modify fun _ => id) fun _ => ?_
  refine Keeps.bind (keeps_forEach (fun batch => ?_) _) fun _ => keeps_modify fun _ => id
  exact Keeps.bind keeps_libraryCall fun _ => keeps_modify fun _ h => h

theorem keeps_sliceBatch (batchSize : UInt64) (totalRows : ℕ) (batch : List α)
    (rowGroup : SizedBatches α) (rgSize : UInt64) :
    Keeps (fun w : ParquetFileWriter α => w.closed = b)
      (sliceBatch env batchSize totalRows batch rowGroup rgSize) := by
  fun_induction sliceBatch env batchSize totalRows batch rowGroup rgSize with
  | case1 => exact keeps_pure _
  | case2 batch rowGroup rgSize hnil ih =>
    refine Keeps.bind (Keeps.ite ?_ (keeps_pure _)) fun r => ih r.1 r.2
    exact Keeps.bind (keeps_writeRowGroup _ _) fun _ => keeps_pure _

theorem keeps_sliceBatches (batches rowGroup : SizedBatches α) (rgSize : UInt64) :
    Keeps (fun w : ParquetFileWriter α => w.closed = b)
      (sliceBatches env batches rowGroup rgSize) := by
  induction batches generalizing rowGroup rgSize with
  | nil => exact keeps_pure _
  | cons batch batches ih =>
    exact Keeps.bind (keeps_sliceBatch _ _ _ _ _) fun r => ih r.1 r.2

theorem keeps_flush : Keeps (fun w : ParquetFileWriter α => w.closed = b) (flush env) := by
  refine Keeps.bind (keeps_modify fun _ => id) fun _ => keeps_get.bind fun w => ?_
  exact Keeps.bind (keeps_sliceBatches _ _ _) fun _ => keeps_modify fun _ h => h

end Closed

/-- A closed writer refuses to be closed. -/
theorem close_closed {w : ParquetFileWriter α} (h : w.closed = true) :
    Spec (· = w) (close env) (fun _ _ => False) (fun _ w' => w' = w) := by
  refine spec_get_bind fun w' hw' => ?_
  subst hw'
  exact spec_ite (fun _ => spec_fail fun _ => id) fun hopen => absurd h hopen

/-! ## Sessions -/

inductive Call (α : Type)
  | write (record : Option (List α × UInt64))
  | flush
  | close

namespace Call

/-- The rows of the call. -/
def rows : Call α → List α
  | write record => record.elim [] Prod.fst
  | flush => []
  | close => []

def run (env : Environment) : Call α → Step α Unit
  | write record => Parquet.write record
  | flush => Parquet.flush env
  | close => do
    let _ ← Parquet.close env
    return ()

end Call

structure Session (α : Type) where
  writer : ParquetFileWriter α
  /-- The rows that have been written. -/
  rows : List α := []
  failures : List Fault := []

namespace Session

def start (filePath : String) : Session α := { writer := { filePath } }

/-- The session after a call. A `Write` never fails. -/
def after (env : Environment) (s : Session α) (call : Call α) : Session α :=
  match call.run env s.writer with
  | (w, .ok _) => { s with writer := w, rows := s.rows ++ call.rows }
  | (w, .error e) => { s with writer := w, failures := s.failures ++ [e] }

def next (env : Environment) (s : Session α) (call : Call α) : Option (Session α) :=
  some (s.after env call)

theorem run_eq (s : Session α) (calls : List (Call α)) :
    Runs.run (next env) s calls = some (calls.foldl (after env) s) := by
  induction calls generalizing s with
  | nil => rfl
  | cons call calls ih => exact ih _

/-- The invariant of a session. -/
def Sound (env : Environment) (s : Session α) : Prop :=
  s.writer.closed = true ∨ s.writer.closed = false ∧ Inv s.rows s.writer ∧
    (s.failures = [] ∨ (∀ p, ¬ Late env p) → Exact s.writer) ∧
    (s.failures = [] → s.writer.kvMetadata = [])

theorem sound_start (filePath : String) : (start filePath : Session α).Sound env :=
  .inr ⟨rfl, ⟨rfl, ⟨rfl, rfl, by simp [start]⟩⟩, fun _ => rfl, fun _ => rfl⟩

variable {s : Session α}

/-- One call. -/
theorem Sound.call_spec (h : s.Sound env) (call : Call α) (e : Fault) :
    Spec (· = s.writer) (call.run env)
      (fun _ w' => Sound env { s with writer := w', rows := s.rows ++ call.rows })
      (fun _ w' => (∃ p, Torn env p) ∨
        Sound env { s with writer := w', failures := s.failures ++ [e] }) := by
  obtain hclosed | ⟨hopen, hinv, hexact, hkv⟩ := h
  · cases call with
    | write record =>
      cases record with
      | none => exact spec_pure fun w hw => .inl (hw ▸ hclosed)
      | some b => exact spec_modify fun w hw => .inl (hw ▸ hclosed)
    | flush =>
      exact (keeps_flush.from hclosed).post (fun _ _ h => .inl h) fun _ _ h => .inr (.inl h)
    | close =>
      refine Spec.bind_fails ((close_closed hclosed).onError ?_)
      exact fun _ w hw => .inr (.inl (hw ▸ hclosed))
  · have hfails : ∀ w', Fails env s.rows s.writer w' → (∃ p, Torn env p) ∨
        Sound env { s with writer := w', failures := s.failures ++ [e] } := by
      refine fun w' => Or.imp_right fun ⟨hinv', hclosed', hexact'⟩ =>
        .inr ⟨hclosed'.trans hopen, hinv', ?_, by simp⟩
      rintro (hok | hlate)
      · simp at hok
      · exact hexact'.resolve_left (fun ⟨p, hp⟩ => hlate p hp) (hexact (.inr hlate))
    cases call with
    | write record =>
      cases record with
      | none =>
        refine spec_pure fun w hw => .inr
          ⟨by rw [hw]; exact hopen, ?_, by rw [hw]; exact ⟨hexact, hkv⟩⟩
        simpa [hw, Call.rows] using hinv
      | some b =>
        refine spec_modify fun w hw => .inr ⟨by rw [hw]; exact hopen, ⟨?_, ?_⟩, ?_⟩
        · simp [hw, Call.rows, ← hinv.rows_eq]
        · rw [hw]
          exact ⟨hinv.recorded.1, hinv.recorded.2, hinv.recorded.3⟩
        · rw [hw]
          exact ⟨hexact, hkv⟩
    | flush =>
      refine (flush_spec hinv).post ?_ fun _ => hfails
      rintro _ w ⟨hinv', hframe, hexact'⟩
      exact .inr ⟨hframe.1.trans hopen, by simpa [Call.rows] using hinv',
        fun hok => hexact' (hexact hok), fun hok => hframe.2.1.trans (hkv hok)⟩
    | close =>
      exact ((close_spec hinv hopen).onError fun _ => hfails).bind fun _ =>
        spec_pure fun w hw => .inl hw.1

theorem Sound.after (h : s.Sound env) (call : Call α)
    (hfaults : (s.after env call).failures = [] ∨ ∀ p, ¬ Torn env p) :
    (s.after env call).Sound env := by
  rcases hrun : call.run env s.writer with ⟨w, e | a⟩
  · simp only [Session.after, hrun] at hfaults ⊢
    obtain ⟨p, hp⟩ | hsound := (h.call_spec call e _ rfl).2 _ _ hrun
    · obtain hnone | htorn := hfaults
      · simp at hnone
      · exact absurd hp (htorn p)
    · exact hsound
  · simp only [Session.after, hrun]
    exact (h.call_spec call .nullDereference _ rfl).1 _ _ hrun

theorem failures_after {call : Call α} (h : (s.after env call).failures = []) :
    s.failures = [] := by
  rcases hrun : call.run env s.writer with ⟨w, e | a⟩
  · simp [Session.after, hrun] at h
  · simpa [Session.after, hrun] using h

theorem failures_foldl {calls : List (Call α)}
    (h : (calls.foldl (Session.after env) s).failures = []) : s.failures = [] := by
  induction calls generalizing s with
  | nil => exact h
  | cons call calls ih => exact failures_after (ih h)

/-- **The invariant of a session** all of whose calls return OK, or in which no phase fails after it
has stored rows. -/
theorem Sound.foldl (h : s.Sound env) (calls : List (Call α))
    (hfaults : (calls.foldl (Session.after env) s).failures = [] ∨ ∀ p, ¬ Torn env p) :
    (calls.foldl (Session.after env) s).Sound env := by
  induction calls generalizing s with
  | nil => exact h
  | cons call calls ih => exact ih (h.after call (hfaults.imp_left failures_foldl)) hfaults

end Session

/-- **A file** that has been written by calls that all return OK. -/
theorem close_rows {filePath : String} {calls : List (Call α)} {s : Session α}
    (hrun : Runs.run (Session.next env) (.start filePath) calls = some s) (hok : s.failures = [])
    {w : ParquetFileWriter α} {file : ColumnGroupFile}
    (hclose : close env s.writer = (w, .ok file)) :
    w.rowGroups.flatten = s.rows ∧
    w.rowGroupMetadata.map RowGroupMetadata.rowNum = w.rowGroups.map List.length ∧
    (∀ (k : ℕ) e, w.rowGroupMetadata[k]? = some e →
      e.rowOffset = ((w.rowGroups.take k).map List.length).sum) ∧
    w.kvMetadata = [w.rowGroupMetadata] ∧ file.startIndex = 0 ∧ file.endIndex = s.rows.length := by
  rw [Session.run_eq, Option.some.injEq] at hrun
  subst hrun
  obtain hclosed | ⟨hopen, hinv, hexact, hkvs⟩ :=
    (Session.sound_start filePath).foldl calls (.inl hok)
  · exact ((close_closed hclosed _ rfl).1 _ _ hclose).elim
  · obtain ⟨-, hrows, hrecorded, hexact', hkv, hstart, hend⟩ :=
      (close_spec hinv hopen _ rfl).1 _ _ hclose
    have hlengths := hexact' (hexact (.inl hok))
    refine ⟨hrows, hlengths, fun k e he => ?_, by rw [hkv, hkvs hok]; rfl, hstart, hend⟩
    rw [hrecorded.offset_eq k e he, List.map_take, hlengths, ← List.map_take]

/-- Every row fills a row group. The calls of the library fail as given. -/
def rowPerGroup (library : ℕ → ℕ → Option Status) : Environment where
  library := library
  finish _ := none
  maxRows _ _ _ := 1
  sliceSize _ _ _ := 1024 * 1024

def sessionOf (env : Environment) (calls : List (Call ℕ)) : Session ℕ :=
  calls.foldl (Session.after env) (.start "file")

theorem close_sessionOf {env : Environment} {calls : List (Call ℕ)}
    (h : (close env (sessionOf env calls).writer).2.toOption.isSome) :
    ∃ file, close env (sessionOf env calls).writer =
      ((close env (sessionOf env calls).writer).1, .ok file) := by
  rcases hclose : close env (sessionOf env calls).writer with ⟨w, e | file⟩
  · simp [hclose, Except.toOption] at h
  · exact ⟨file, rfl⟩

theorem close_rows_threeRows : ∃ s w file,
    Runs.run (Session.next (rowPerGroup fun _ _ => none)) (.start "file")
      [.write (some ([1, 2, 3], 100)), .flush, .write (some ([], 8))] = some s ∧
    close (rowPerGroup fun _ _ => none) s.writer = (w, .ok file) ∧
    w.rowGroups.flatten = [1, 2, 3] ∧ file.endIndex = 3 := by
  obtain ⟨file, hclose⟩ : ∃ file, close _ (sessionOf (rowPerGroup fun _ _ => none)
    [.write (some ([1, 2, 3], 100)), .flush, .write (some ([], 8))]).writer = (_, .ok file) :=
    close_sessionOf (by decide +kernel)
  obtain ⟨hflat, -, -, -, -, hend⟩ :=
    close_rows (Session.run_eq _ _) (List.isEmpty_iff.mp (by decide +kernel)) hclose
  exact ⟨_, _, file, Session.run_eq _ _, hclose, hflat.trans (by decide +kernel),
    hend.trans (by decide +kernel)⟩

/-- **A file that has been closed after failures.** If no phase fails after it has stored rows,
every row is stored once. If none fails after its first call, every row group has its metadata. -/
theorem close_after_failures (hwhole : ∀ p, ¬ Torn env p) {filePath : String}
    {calls : List (Call α)} {s : Session α}
    (hrun : Runs.run (Session.next env) (.start filePath) calls = some s)
    {w : ParquetFileWriter α} {file : ColumnGroupFile}
    (hclose : close env s.writer = (w, .ok file)) :
    w.rowGroups.flatten = s.rows ∧
    (w.rowGroupMetadata.map RowGroupMetadata.rowNum).sum = (w.rowGroups.map List.length).sum ∧
    file.endIndex = s.rows.length ∧
    ((∀ p, ¬ Late env p) →
      w.rowGroupMetadata.map RowGroupMetadata.rowNum = w.rowGroups.map List.length) := by
  rw [Session.run_eq, Option.some.injEq] at hrun
  subst hrun
  obtain hclosed | ⟨hopen, hinv, hexact, -⟩ :=
    (Session.sound_start filePath).foldl calls (.inr hwhole)
  · exact ((close_closed hclosed _ rfl).1 _ _ hclose).elim
  · obtain ⟨-, hrows, hrecorded, hexact', -, -, hend⟩ := (close_spec hinv hopen _ rfl).1 _ _ hclose
    refine ⟨hrows, ?_, hend, fun hlate => hexact' (hexact (.inr hlate))⟩
    rw [hrecorded.total_eq, hrecorded.rows_eq, List.length_flatten]

/-- The `j`-th call of the first flush fails. -/
def failedFlush (j : ℕ) : Environment :=
  rowPerGroup fun p i => if p = 1 ∧ i = j then some (.ioError "write failed") else none

theorem close_after_failures_first : ∃ s w file,
    Runs.run (Session.next (failedFlush 0)) (.start "file")
      [.write (some ([1, 2, 3], 100)), .flush] = some s ∧ s.failures.length = 1 ∧
    close (failedFlush 0) s.writer = (w, .ok file) ∧ w.rowGroups.flatten = [1, 2, 3] ∧
    w.rowGroupMetadata.map RowGroupMetadata.rowNum = w.rowGroups.map List.length := by
  have hlate : ∀ p, ¬ Late (failedFlush 0) p := by
    rintro p ⟨hzero, j, hj⟩
    simp_all [failedFlush, rowPerGroup]
  have hwhole : ∀ p, ¬ Torn (failedFlush 0) p := by
    rintro p ⟨hzero, -, hj⟩
    exact hlate p ⟨hzero, hj⟩
  obtain ⟨file, hclose⟩ : ∃ file, close _ (sessionOf (failedFlush 0)
    [.write (some ([1, 2, 3], 100)), .flush]).writer = (_, .ok file) :=
    close_sessionOf (by decide +kernel)
  obtain ⟨hflat, -, -, hentries⟩ := close_after_failures hwhole (Session.run_eq _ _) hclose
  exact ⟨_, _, file, Session.run_eq _ _, by decide +kernel, hclose, hflat.trans (by decide +kernel),
    hentries hlate⟩

theorem close_repeated_rows : ∃ s w file, Runs.run (Session.next (failedFlush 2)) (.start "file")
      [.write (some ([1, 2, 3], 100)), .flush] = some s ∧ s.rows = [1, 2, 3] ∧
    close (failedFlush 2) s.writer = (w, .ok file) ∧ w.rowGroups.flatten = [1, 1, 2, 3] := by
  obtain ⟨file, hclose⟩ : ∃ file, close _ (sessionOf (failedFlush 2)
    [.write (some ([1, 2, 3], 100)), .flush]).writer = (_, .ok file) :=
    close_sessionOf (by decide +kernel)
  exact ⟨_, _, file, Session.run_eq _ _, by decide +kernel, hclose, by decide +kernel⟩

end MilvusStorage.Parquet
