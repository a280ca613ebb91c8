import MilvusStorage.Foundations.Runs
import MilvusStorage.Lob.Stable
import MilvusStorage.Segment.Writer

/-!
# Aborting a segment

`LobColumnWriterImpl::Abort` deletes the files in the list of the writer, unless the writer is
closed. `Close` of a segment closes the writers of the columns one after the other, and can fail
after that. Then `Abort` of the segment leaves the files of those that are closed
(`abort_deletes_iff`). It deletes no file that has not been opened (`abort_deletes_opened`).

A file is created when `VortexFileWriter::Open` returns OK. The environment keeps the paths of these
calls, apart from the lists of the writers (`Inv` relates the two). The deletions succeed.
-/

namespace MilvusStorage

open List

namespace Lob

/-- `Abort`, with the files that it deletes. -/
def abort (w : LobColumnWriter) : LobColumnWriter × List String :=
  if w.closed then (w, [])
  else
    ({ w with
        pendingBuilder := {}
        vortexWriter := none
        files := fun path => if path ∈ w.createdPaths then none else w.files path
        createdFiles := []
        closed := true },
      w.createdPaths)

end Lob

namespace Segment

open Command Lob

variable {V : Type}

/-! ## Segments of large objects -/

/-- A column whose writer is a `LobColumnWriterImpl`. -/
structure LobSettings where
  env : Lob.Environment
  config : LobColumnConfig
  rewriteMode : Bool
  decode : ℕ → List (Option Bytes) → Except Fault (List (Option Bytes))

def LobSettings.column (settings : LobSettings) : LobColumn LobColumnWriter where
  rewriteMode := settings.rewriteMode
  create := .ok (.create settings.env)
  writeArrowArray := Lob.writeArrowArray settings.env settings.config
  flush := Lob.flush settings.env settings.config
  close := Lob.close settings.env
  abort := Lob.abort
  decode := settings.decode

structure SegmentConfig where
  schema : List Field
  lobColumns : ℤ → Option LobSettings
  order : List ℕ → List ℕ
  order_perm : ∀ keys, (order keys).Perm keys
  createPolicy : Except Fault Unit
  io : ℕ → Option Fault

def SegmentConfig.environment (c : SegmentConfig) : Environment LobColumnWriter :=
  { c with lobColumns := fun fieldId => (c.lobColumns fieldId).map LobSettings.column }

variable (c : SegmentConfig)

inductive Call (V : Type)
  | write (batch : Option (Batch V))
  | flush
  | close

/-- A call of `Write` or `Flush`, or a call of `Close` that fails. -/
def next (w : SegmentWriter LobColumnWriter V) :
    Call V → Option (SegmentWriter LobColumnWriter V)
  | .write batch => some (write c.environment batch w).1
  | .flush => some (flush c.environment w).1
  | .close =>
    match close c.environment w with
    | (_, .ok _) => none
    | (w, .error _) => some w

/-- The files that the writers of the columns have opened. -/
def openedFiles (w : SegmentWriter LobColumnWriter V) : List String :=
  c.environment.keys.flatMap fun i => (w.lobWriters i).elim [] (·.opened)

/-! ## What stays -/

variable {c}

theorem lobAt_environment {i : ℕ} {lob : LobColumn LobColumnWriter}
    (h : c.environment.lobAt i = some lob) : ∃ settings : LobSettings,
      Lob.Stable settings.env settings.config Recorded ∧ lob = settings.column := by
  obtain ⟨field, -, hlob⟩ := Option.bind_eq_some_iff.mp h
  obtain ⟨settings, -, rfl⟩ := Option.map_eq_some_iff.mp hlob
  exact ⟨settings, stable_recorded, rfl⟩

/-- The writer has not been closed or aborted, and the lists of the writers of the columns have the
files that have been opened. -/
structure Inv (c : SegmentConfig) (w : SegmentWriter LobColumnWriter V) : Prop where
  not_closed : w.closed = false
  deletedFiles : w.deletedFiles = []
  keys : ∀ i lw, w.lobWriters i = some lw → i ∈ c.environment.keys
  recorded : ∀ i lw, w.lobWriters i = some lw → Recorded lw

theorem keeps_inv {α : Type} (i : ℕ) {call : Command LobColumnWriter Fault α}
    (hcall : Keeps Recorded call) : Keeps (Inv (V := V) c) (onWriter i call) := by
  refine keeps_iff.mpr fun w hw => ?_
  cases hi : w.lobWriters i with
  | none =>
    rwa [onWriter, hi]
  | some lw =>
    rw [onWriter_run hi]
    refine ⟨hw.not_closed, hw.deletedFiles, fun j lw' hj => ?_, fun j lw' hj => ?_⟩
    all_goals by_cases hij : j = i
    · exact hw.keys j lw (hij ▸ hi)
    · exact hw.keys j lw' ((Function.update_of_ne hij _ _).symm.trans hj)
    · subst hij
      cases (Function.update_self ..).symm.trans hj
      exact keeps_iff.mp hcall lw (hw.recorded j lw hi)
    · exact hw.recorded j lw' ((Function.update_of_ne hij _ _).symm.trans hj)

theorem stable_inv : Stable (V := V) c.environment (Inv c) where
  of_eq _ _ hclosed hwriters hdeleted h :=
    ⟨hclosed.trans h.not_closed, hdeleted.trans h.deletedFiles, hwriters ▸ h.keys,
      hwriters ▸ h.recorded⟩
  writeArrowArray i lob values hlob := by
    obtain ⟨settings, hstable, rfl⟩ := lobAt_environment hlob
    exact keeps_inv i (keeps_get.bind fun _ => Keeps.ite (keeps_fail _)
      (keeps_forEachFrom hstable.writeArrowValue {} values))
  flush i lob hlob := by
    obtain ⟨settings, hstable, rfl⟩ := lobAt_environment hlob
    exact keeps_inv i (keeps_get.bind fun _ => Keeps.ite (keeps_fail _)
      (hstable.flushPending.bind fun _ => hstable.maybeRollFile))
  close i lob hlob := by
    obtain ⟨settings, hstable, rfl⟩ := lobAt_environment hlob
    exact keeps_inv i hstable.close

variable {w w' : SegmentWriter LobColumnWriter V}

/-! ## Runs -/

theorem Inv.next {call : Call V} (h : Inv c w) (hnext : next c w call = some w') : Inv c w' := by
  cases call with
  | write batch =>
    cases hnext
    exact keeps_iff.mp (stable_inv.write batch) w h
  | flush =>
    cases hnext
    exact keeps_iff.mp stable_inv.flushAll w h
  | close =>
    rw [Segment.next] at hnext
    split at hnext
    · cases hnext
    · next w1 e hclose =>
      cases hnext
      exact (stable_inv.closeAll w h).2 w' e hclose

/-- A new writer has no files. -/
theorem Inv.create (h : create c.environment = .ok w) : Inv c w := by
  obtain ⟨hw, hwriters⟩ := create_eq_ok h
  refine ⟨by rw [hw], by rw [hw], fun i lw hlw => ?_, fun i lw hlw => ?_⟩
  · exact mem_keys.mpr ((hwriters i).1.mp (Option.isSome_of_eq_some hlw))
  · obtain ⟨lob, hlob, hnew⟩ := (hwriters i).2 lw hlw
    obtain ⟨settings, -, rfl⟩ := lobAt_environment hlob
    cases hnew
    rfl

theorem Inv.run (hcreate : Segment.create c.environment = .ok w) {calls : List (Call V)}
    (hrun : Runs.run (Segment.next c) w calls = some w') : Inv c w' :=
  Runs.run_invariant (fun _ _ _ h _ hnext => h.next hnext)
    (Inv.create hcreate) (fun _ _ => trivial) hrun

theorem Inv.mem_openedFiles (h : Inv c w) (path : String) :
    path ∈ openedFiles c w ↔ ∃ i, At i (path ∈ ·.opened) w := by
  rw [openedFiles, mem_flatMap]
  constructor
  · rintro ⟨i, -, hpath⟩
    cases hlw : w.lobWriters i with
    | none => simp [hlw] at hpath
    | some lw => exact ⟨i, lw, hlw, by simpa [hlw] using hpath⟩
  · rintro ⟨i, lw, hlw, hpath⟩
    exact ⟨i, h.keys i lw hlw, by simpa [hlw] using hpath⟩

/-! ## Aborting -/

section Abort

variable {W : Type} (E : Environment W)

/-- The files that the writer of a column deletes. -/
def abortedAt (w : SegmentWriter W V) (i : ℕ) : List String :=
  match E.lobAt i, w.lobWriters i with
  | some lob, some lw => (lob.abort lw).2
  | _, _ => []

theorem deletedFiles_abortColumn (w : SegmentWriter W V) (i : ℕ) :
    (abortColumn E w i).deletedFiles = w.deletedFiles ++ abortedAt E w i := by
  cases hlob : E.lobAt i <;> cases hlw : w.lobWriters i <;> simp [abortColumn, abortedAt, hlob, hlw]

theorem abortedAt_abortColumn {i j : ℕ} (h : j ≠ i) (w : SegmentWriter W V) :
    abortedAt E (abortColumn E w i) j = abortedAt E w j := by
  have hwriter : (abortColumn E w i).lobWriters j = w.lobWriters j := by
    unfold abortColumn
    split
    · exact Function.update_of_ne h _ _
    · rfl
  rw [abortedAt, abortedAt, hwriter]

/-- Each writer deletes its files. -/
theorem deletedFiles_foldl {keys : List ℕ} (h : keys.Nodup) (w : SegmentWriter W V) :
    (keys.foldl (abortColumn E) w).deletedFiles =
      w.deletedFiles ++ keys.flatMap (abortedAt E w) := by
  induction keys generalizing w with
  | nil => simp
  | cons i keys ih =>
    obtain ⟨hi, hkeys⟩ := nodup_cons.mp h
    have hrest : keys.flatMap (abortedAt E (abortColumn E w i)) = keys.flatMap (abortedAt E w) :=
      flatMap_congr fun j hj => abortedAt_abortColumn E (ne_of_mem_of_not_mem hj hi) w
    rw [foldl_cons, ih hkeys, hrest, deletedFiles_abortColumn, append_assoc, flatMap_cons]

end Abort

/-- `Abort` deletes the files that the writers that are not closed have opened. -/
theorem mem_deletedFiles_abort (h : Inv c w) (path : String) :
    path ∈ (abort c.environment w).deletedFiles ↔
      ∃ i, At i (fun lw => lw.closed = false ∧ path ∈ lw.opened) w := by
  have hdeleted : (abort c.environment w).deletedFiles =
      c.environment.keys.flatMap (abortedAt c.environment w) := by
    rw [abort, h.not_closed]
    exact (deletedFiles_foldl _ (nodup_keys _) w).trans (by rw [h.deletedFiles, nil_append])
  rw [hdeleted, mem_flatMap]
  constructor
  · rintro ⟨i, -, hpath⟩
    unfold abortedAt at hpath
    split at hpath
    · next lob lw hlob hlw =>
      obtain ⟨settings, -, rfl⟩ := lobAt_environment hlob
      have hrecorded : lw.createdPaths = lw.opened := h.recorded i lw hlw
      refine ⟨i, lw, hlw, ?_⟩
      cases hclosed : lw.closed <;> simp_all [LobSettings.column, Lob.abort]
    · simp at hpath
  · rintro ⟨i, lw, hlw, hclosed, hpath⟩
    have hkey := h.keys i lw hlw
    obtain ⟨lob, hlob⟩ := Option.isSome_iff_exists.mp (mem_keys.mp hkey)
    refine ⟨i, hkey, ?_⟩
    have habort : abortedAt c.environment w i = (lob.abort lw).2 := by
      rw [abortedAt, hlob, hlw]
    obtain ⟨settings, -, rfl⟩ := lobAt_environment hlob
    rw [habort]
    rw [← h.recorded i lw hlw] at hpath
    simpa [LobSettings.column, Lob.abort, hclosed] using hpath

/-! ## Every file -/

/-- One column of large objects, all of them out of line, and a table whose writer fails when it is
closed. -/
def failingClose : SegmentConfig where
  schema := [⟨"text", .utf8, true, 100, true⟩]
  lobColumns _ := some {
    env := {
      localFileSystem := true
      io := fun _ => none
      exportArray := fun _ => none
      uuid := fun n => ⟨List.replicate 16 (UInt8.ofNat n), by simp⟩
      afterFailedAppend := id }
    config := {
      lobBasePath := "lobs"
      inlineThreshold := 0
      maxLobFileBytes := 1024
      flushThresholdBytes := 1024 }
    rewriteMode := false
    decode := fun _ refs => .ok refs }
  order := id
  order_perm _ := .refl _
  createPolicy := .ok ()
  io n := if n = 2 then some (.status (.ioError "write failed")) else none

def oneText : Batch Unit where
  schema := failingClose.schema
  numRows := 1
  columns := [[some (.inl [104, 105])]]
  length_columns := rfl
  length_column := by simp

/-- `Abort` deletes every file that has been opened exactly if each file that was opened by a writer
of a column whose `Close` has returned OK was also opened by one that is not closed. If the names of
the files are distinct, this is to say that no writer that has opened a file is closed. -/
theorem abort_deletes_iff (c : SegmentConfig) {w w' : SegmentWriter LobColumnWriter V}
    (hcreate : create c.environment = .ok w) (calls : List (Call V))
    (hrun : Runs.run (next c) w calls = some w') :
    (∀ path ∈ openedFiles c w', path ∈ (abort c.environment w').deletedFiles) ↔
      ∀ i lw, w'.lobWriters i = some lw → lw.closed → ∀ path ∈ lw.opened,
        ∃ j lw', w'.lobWriters j = some lw' ∧ lw'.closed = false ∧ path ∈ lw'.opened := by
  have hinv := Inv.run hcreate hrun
  simp only [mem_deletedFiles_abort hinv, hinv.mem_openedFiles]
  constructor
  · intro h i lw hlw _ path hpath
    exact h path ⟨i, lw, hlw, hpath⟩
  · rintro h path ⟨i, lw, hlw, hpath⟩
    cases hclosed : lw.closed with
    | false => exact ⟨i, lw, hlw, hclosed, hpath⟩
    | true => exact h i lw hlw hclosed path hpath

/-- Before `Close` no writer of a column is closed. -/
theorem abort_deletes_oneText : ∃ w w', create failingClose.environment = .ok w ∧
    Runs.run (next failingClose) w [.write (some oneText)] = some w' ∧
      (openedFiles failingClose w').length = 1 ∧
        ∀ path ∈ openedFiles failingClose w',
          path ∈ (abort failingClose.environment w').deletedFiles := by
  refine ⟨_, _, rfl, rfl, rfl,
    (abort_deletes_iff failingClose rfl [.write (some oneText)] rfl).mpr fun i lw hlw hclosed => ?_⟩
  cases i with
  | zero =>
    cases hlw
    cases hclosed
  | succ i => cases hlw

/-- `Close` closes the writer of the column and fails at the writer of the table: the file of the
column stays. -/
theorem abort_keeps_closedColumn : ∃ w w', create failingClose.environment = .ok w ∧
    Runs.run (next failingClose) w [.write (some oneText), .close] = some w' ∧
      ∃ path ∈ openedFiles failingClose w',
        path ∉ (abort failingClose.environment w').deletedFiles := by
  refine ⟨_, _, rfl, rfl, _, mem_of_getElem? (i := 0) rfl, ?_⟩
  exact not_mem_nil

/-- **Aborting** deletes no file that the writers of the columns have not opened. -/
theorem abort_deletes_opened (c : SegmentConfig) {w w' : SegmentWriter LobColumnWriter V}
    (hcreate : create c.environment = .ok w) (calls : List (Call V))
    (hrun : Runs.run (next c) w calls = some w') :
    ∀ path ∈ (abort c.environment w').deletedFiles, path ∈ openedFiles c w' := by
  have hinv := Inv.run hcreate hrun
  intro path hpath
  obtain ⟨i, lw, hlw, -, hopened⟩ := (mem_deletedFiles_abort hinv path).mp hpath
  exact (hinv.mem_openedFiles path).mpr ⟨i, lw, hlw, hopened⟩

/-- After one text there is one file to delete. -/
theorem abort_deletes_opened_oneText : ∃ w w', create failingClose.environment = .ok w ∧
    Runs.run (next failingClose) w [.write (some oneText)] = some w' ∧
      (abort failingClose.environment w').deletedFiles ≠ [] ∧
        ∀ path ∈ (abort failingClose.environment w').deletedFiles,
          path ∈ openedFiles failingClose w' := by
  refine ⟨_, _, rfl, rfl, ?_, abort_deletes_opened failingClose rfl [.write (some oneText)] rfl⟩
  exact cons_ne_nil _ _

end Segment

end MilvusStorage
