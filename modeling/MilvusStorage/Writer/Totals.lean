import MilvusStorage.Writer.Session

/-!
# The rows of the groups that are returned

A group that is returned has the rows of the batches that have been accepted exactly if the last
file is not dropped with rows in it (`Returned.rows_iff`). So it is in a session all of whose calls
return OK (`close_rows_iff`), after attempts to create the group writers have failed
(`close_after_failed_creation`), and after writes, flushes and closes have failed
(`close_after_failed_writes`), as far as no call has failed halfway.
-/

namespace MilvusStorage.Writer

open List Command

variable {V P : Type} {env : Environment V} {config : Config} {policy : ColumnGroupPolicy V P}
  {intact : Prop} {accepted : List (Batch V)}

/-- The last file of the group is dropped only if it has no rows. -/
def ColumnGroupWriter.KeepsRows (g : ColumnGroupWriter V) : Prop :=
  g.writtenBytes = 0 → rows g.formatWriter.batches = 0

/-- The rows of the batches. -/
def totalRows (batches : List (Batch V)) : ℕ := (batches.map fun b => b.numRows).sum

theorem rows_groupBatch (schema : List String) (columnGroup : ColumnGroup)
    (batches : List (Batch V)) :
    rows (batches.map (groupBatch schema columnGroup)) = totalRows batches := by
  simp [rows, totalRows, groupBatch, Batch.project, Function.comp_def]

theorem sum_toColumnGroupFile (files : List (DataFile V)) :
    ((files.map DataFile.toColumnGroupFile).map fun f => f.endIndex - f.startIndex).sum =
      rows (files.flatMap DataFile.batches) := by
  induction files with
  | nil => rfl
  | cons f files ih => simpa [DataFile.toColumnGroupFile] using ih

theorem WrittenGroup.rows_toColumnGroup (g : WrittenGroup V) :
    g.toColumnGroup.rows = rows (g.files.flatMap DataFile.batches) :=
  sum_toColumnGroupFile g.files

section Group

variable {schema : List String} {columnGroups : List ColumnGroup} {i : ℕ}
  {g : ColumnGroupWriter V} {columnGroup : ColumnGroup} {r : WrittenGroup V}
  (hholds : Holds intact schema columnGroups accepted i g) (hret : Returned (columnGroup, g) r)

include hholds hret

theorem Returned.rows_iff : r.toColumnGroup.rows = totalRows accepted ↔ g.KeepsRows := by
  have htotal := congrArg rows (hholds.contents_eq hret.closed_eq)
  rw [rows_groupBatch, ColumnGroupWriter.contents] at htotal
  rw [WrittenGroup.rows_toColumnGroup, hret.files_eq, ← htotal, ColumnGroupWriter.KeepsRows]
  by_cases hbytes : g.writtenBytes = 0 <;> simp [hbytes]

/-- The cells of a group that keeps its rows. -/
theorem Returned.cells_eq (hgroup : columnGroups[i]? = some columnGroup) (hkeeps : g.KeepsRows)
    (j : ℕ) : cells (r.files.flatMap DataFile.batches) j =
      cells (accepted.map (groupBatch schema columnGroup)) j := by
  obtain rfl : columnGroup = g.columnGroup := by simpa [hgroup] using hholds.columnGroup_eq
  rw [← hholds.contents_eq hret.closed_eq, ColumnGroupWriter.contents, hret.files_eq]
  by_cases hbytes : g.writtenBytes = 0
  · simp [hbytes, cells_eq_nil (hkeeps hbytes)]
  · simp [hbytes]

end Group

variable {schema : List String} {w : WriterImpl V P} {groups : List (WrittenGroup V)}

/-- What holds of a group that is returned, from what holds of its writer. -/
theorem Aligned.forall₂ (h : Aligned intact schema accepted w)
    (hret : Forall₂ Returned (w.columnGroups.zip w.columnGroupWriters) groups)
    {R : ColumnGroup → WrittenGroup V → Prop}
    (hR : ∀ (i : ℕ) g columnGroup r, w.columnGroupWriters[i]? = some g →
      w.columnGroups[i]? = some columnGroup → Returned (columnGroup, g) r → R columnGroup r) :
    Forall₂ R w.columnGroups groups := by
  have hlen : (w.columnGroups.zip w.columnGroupWriters).length = w.columnGroups.length := by
    simp [h.length_eq]
  rw [forall₂_iff_get] at hret ⊢
  refine ⟨hlen ▸ hret.1, fun i hi hi' => ?_⟩
  have hwriter : i < w.columnGroupWriters.length := h.length_eq ▸ hi
  refine hR i _ _ _ (getElem?_eq_getElem hwriter) (getElem?_eq_getElem hi) ?_
  simpa using hret.2 i (hlen ▸ hi) hi'

/-- What a writer returns if it can be closed. -/
theorem Session.Sound.close_ok {batches : List (Batch V)} {s : Session V P}
    (h : s.Sound intact policy schema batches)
    (hclose : close env config s.writer = (w, .ok groups)) :
    Blank policy schema batches s.writer ∧ (s.failures = [] → s.writer.columnGroups = []) ∧
      groups = [] ∨
    Aligned intact schema s.accepted s.writer ∧
      Forall₂ Returned (s.writer.columnGroups.zip s.writer.columnGroupWriters) groups := by
  obtain ⟨-, hclosed⟩ | ⟨hblank, -, hgroups⟩ | haligned := h
  · exact ((close_closed hclosed _ rfl).1 _ _ hclose).elim
  · exact .inl ⟨hblank, hgroups, ((close_blank hblank _ rfl).1 _ _ hclose).2⟩
  · exact .inr ⟨haligned, ((close_spec haligned _ rfl).1 _ _ hclose).2⟩

variable {calls : List (Call V)} {p : P} {s : Session V P}

/-- **The rows of the groups** of a session all of whose calls return OK. -/
theorem close_rows_iff (hrun : s.Ran env config policy p calls) (hok : s.failures = [])
    (hclose : close env config s.writer = (w, .ok groups)) :
    Forall₂ (fun columnGroup g => g.columns = columnGroup.columns ∧
      g.toColumnGroup.rows = (totalRows s.accepted : ℤ)) s.writer.columnGroups groups ↔
    ∀ g ∈ s.writer.columnGroupWriters, g.KeepsRows := by
  have hsound := hrun.sound (fun h : False => h.elim) (fun _ => not_false) (.inl hok)
  obtain ⟨hblank, hgroups, rfl⟩ | ⟨haligned, hret⟩ := hsound.close_ok hclose
  · simp [hgroups hok, hblank.writers_eq]
  · constructor
    · intro hforall g hg
      obtain ⟨i, hi, rfl⟩ := mem_iff_getElem.mp hg
      have hi' : i < s.writer.columnGroups.length := haligned.length_eq ▸ hi
      rw [forall₂_iff_get] at hforall hret
      have hret := hret.2 i (by simp; omega) (by omega)
      simp only [get_eq_getElem, getElem_zip] at hret
      exact (hret.rows_iff (haligned.writers i _ (getElem?_eq_getElem hi))).mp
        (hforall.2 i hi' (by omega)).2
    · intro hkeeps
      refine haligned.forall₂ hret fun i g columnGroup r hg _ hr => ⟨hr.columns_eq, ?_⟩
      exact (hr.rows_iff (haligned.writers i g hg)).mpr (hkeeps g (mem_of_getElem? hg))

/-- An environment in which nothing fails. -/
def workingEnvironment : Environment ℕ where
  create _ _ := none
  write _ _ := none
  io _ := none
  afterFailure _ batches := batches
  canRetry _ := true
  refusal path := .invalid path
  uuid n := toString n

def twoColumns : Config where
  basePath := "table"
  dataPath := "table/_data"
  schema := ["id", "vector"]
  schemaText := "id: int64, vector: binary"
  bufferSize := 1024
  fileRollingSize := 1024
  asserts := false

/-- A group for each of the two columns. -/
def groupPerColumn : ColumnGroupPolicy ℕ Unit where
  requiresSample := false
  sample _ := pure ()
  getColumnGroups _ := .ok [⟨["id"], "parquet", []⟩, ⟨["vector"], "parquet", []⟩]

theorem partitions_groupPerColumn (batches : List (Batch ℕ)) :
    Partitions groupPerColumn twoColumns.schema batches () := by
  intro samples _ groups h
  cases h
  exact ⟨.rfl, by simp, by simp⟩

/-- A batch of one row, with the memory size of its parts. -/
def oneRow (memorySize : UInt64) : Batch ℕ where
  numRows := 1
  columns := [.ofList [some 1], .ofList [none]]
  memorySize _ := memorySize

/-- The session of these calls, and the groups that `close` then returns. -/
def sessionOf (env : Environment ℕ) (calls : List (Call ℕ)) : Session ℕ Unit :=
  calls.foldl (Session.after env twoColumns groupPerColumn) (.start ())

def groupsOf (env : Environment ℕ) (calls : List (Call ℕ)) : List (WrittenGroup ℕ) :=
  ((close env twoColumns (sessionOf env calls).writer).2.toOption).getD []

theorem close_sessionOf {env : Environment ℕ} {calls : List (Call ℕ)}
    (h : (close env twoColumns (sessionOf env calls).writer).2.toOption.isSome) :
    ∃ w, close env twoColumns (sessionOf env calls).writer = (w, .ok (groupsOf env calls)) := by
  rcases hclose : close env twoColumns (sessionOf env calls).writer with ⟨w, e | groups⟩
  · simp [hclose, Except.toOption] at h
  · exact ⟨w, by simp [groupsOf, hclose, Except.toOption]⟩

theorem close_rows_iff_oneRow : ∃ s w groups,
    Runs.run (Session.next workingEnvironment twoColumns groupPerColumn) (.start ())
      [.write (some (oneRow 8)), .flush] = some s ∧
    close workingEnvironment twoColumns s.writer = (w, .ok groups) ∧
    Forall₂ (fun columnGroup g => g.columns = columnGroup.columns ∧
      g.toColumnGroup.rows = (totalRows s.accepted : ℤ)) s.writer.columnGroups groups := by
  obtain ⟨w, hclose⟩ : ∃ w, close _ _ _ = (w, .ok (groupsOf workingEnvironment
    [.write (some (oneRow 8)), .flush])) := close_sessionOf (by decide +kernel)
  refine ⟨_, w, _, Session.run_eq _ _, hclose, (close_rows_iff
    ⟨by decide, partitions_groupPerColumn _, ?_, Session.run_eq _ _⟩ ?_ hclose).mpr ?_⟩
  · simp [Call.batches, oneRow, twoColumns]
  · exact isEmpty_iff.mp (by decide +kernel)
  · unfold ColumnGroupWriter.KeepsRows
    decide +kernel

theorem close_rows_dropped : ∃ s w groups,
    Runs.run (Session.next workingEnvironment twoColumns groupPerColumn) (.start ())
      [.write (some (oneRow 0))] = some s ∧ s.failures = [] ∧ totalRows s.accepted = 1 ∧
    close workingEnvironment twoColumns s.writer = (w, .ok groups) ∧
    groups.map (fun g => g.toColumnGroup.rows) = [0, 0] := by
  obtain ⟨w, hclose⟩ : ∃ w, close _ _ _ = (w, .ok (groupsOf workingEnvironment
    [.write (some (oneRow 0))])) := close_sessionOf (by decide +kernel)
  exact ⟨_, w, _, Session.run_eq _ _, isEmpty_iff.mp (by decide +kernel), by decide +kernel,
    hclose, by decide +kernel⟩

/-- The group has the rows of the batches. -/
def HasRows (schema : List String) (accepted : List (Batch V)) (columnGroup : ColumnGroup)
    (g : WrittenGroup V) : Prop :=
  g.columns = columnGroup.columns ∧ g.toColumnGroup.rows = (totalRows accepted : ℤ) ∧
    ∀ j, cells (g.files.flatMap DataFile.batches) j =
      cells (accepted.map (groupBatch schema columnGroup)) j

theorem Aligned.hasRows (h : Aligned intact schema accepted w)
    (hret : Forall₂ Returned (w.columnGroups.zip w.columnGroupWriters) groups)
    (hkeeps : ∀ g ∈ w.columnGroupWriters, g.KeepsRows) :
    Forall₂ (HasRows schema accepted) w.columnGroups groups := by
  refine h.forall₂ hret fun i g columnGroup r hg hgroup hr => ?_
  have hholds := h.writers i g hg
  have hkeep := hkeeps g (mem_of_getElem? hg)
  exact ⟨hr.columns_eq, (hr.rows_iff hholds).mpr hkeep, hr.cells_eq hholds hgroup hkeep⟩

/-- **After failed creations.** Only the creation of group writers fails, and an attempt that fails
has created none. -/
theorem close_after_failed_creation (hrun : s.Ran env config policy p calls)
    (hwrite : ∀ k i, env.write k i = none) (hio : ∀ n, env.io n = none)
    (hcreate : ∀ k, ¬ LeavesWriters env k) (hcalls : .close ∉ calls)
    (hinit : s.writer.initialized = true) :
    (∀ (i : ℕ) g, s.writer.columnGroupWriters[i]? = some g →
      g.columnGroupId = i ∧ s.writer.columnGroups[i]? = some g.columnGroup ∧
      g.contents = s.accepted.map (groupBatch config.schema g.columnGroup)) ∧
    ∃ w groups, close env config s.writer = (w, .ok groups) ∧
      ((∀ g ∈ s.writer.columnGroupWriters, g.KeepsRows) →
        Forall₂ (HasRows config.schema s.accepted) s.writer.columnGroups groups) := by
  have hsound := hrun.sound (fun _ : True => hio) (fun h => absurd h hcalls)
    (.inr ⟨fun n hn => absurd (hio n) hn, hcreate,
      fun k hsplits => hsplits.2.elim fun i hi => hi (hwrite k i)⟩)
  obtain ⟨hfalse, -⟩ | ⟨hblank, -⟩ | haligned := hsound
  · exact absurd trivial hfalse
  · simp [hblank.initialized_eq] at hinit
  · refine ⟨fun i g hg => ?_, ?_⟩
    · have hholds := haligned.writers i g hg
      exact ⟨hholds.columnGroupId_eq, hholds.columnGroup_eq,
        hholds.contents_eq (hholds.open_of_intact trivial)⟩
    · have hspec : Spec (· = s.writer) (close env config) (fun groups _ => Forall₂ Returned
          (s.writer.columnGroups.zip s.writer.columnGroupWriters) groups) (fun _ _ => False) := by
        apply (close_spec haligned).post fun _ _ h => h.2
        rintro _ _ (⟨g, hg, hclosed⟩ | ⟨n, hn⟩)
        · obtain ⟨i, hi, rfl⟩ := mem_iff_getElem.mp hg
          have hopen := (haligned.writers i _ (getElem?_eq_getElem hi)).open_of_intact trivial
          simp [hclosed] at hopen
        · exact hn (hio n)
      obtain ⟨w, groups, hclose, hret⟩ := hspec.exists_ok rfl
      exact ⟨w, groups, hclose, haligned.hasRows hret⟩

/-- The creation of the `i`-th writer fails in the first attempt. -/
def failedCreation (i : ℕ) : Environment ℕ :=
  { workingEnvironment with
    create := fun k j => if k = 0 ∧ j = i then some (.ioError "create failed") else none }

theorem close_after_failed_creation_retried : ∃ s w groups,
    Runs.run (Session.next (failedCreation 0) twoColumns groupPerColumn) (.start ())
      [.write (some (oneRow 8)), .write (some (oneRow 8))] = some s ∧
    s.failures.length = 1 ∧ s.accepted.length = 1 ∧
    close (failedCreation 0) twoColumns s.writer = (w, .ok groups) ∧
    Forall₂ (HasRows twoColumns.schema s.accepted) s.writer.columnGroups groups := by
  have hcreate : ∀ k, ¬ LeavesWriters (failedCreation 0) k := by
    rintro k ⟨hzero, i, hi⟩
    simp_all [failedCreation]
  obtain ⟨-, w, groups, hclose, hrows⟩ := close_after_failed_creation
    ⟨by decide, partitions_groupPerColumn _, by simp [Call.batches, oneRow, twoColumns],
      Session.run_eq (.start ()) [.write (some (oneRow 8)), .write (some (oneRow 8))]⟩
    (fun _ _ => rfl) (fun _ => rfl) hcreate (by simp) (by decide +kernel)
  refine ⟨_, w, groups, Session.run_eq _ _, by decide +kernel, by decide +kernel, hclose, hrows ?_⟩
  unfold ColumnGroupWriter.KeepsRows
  decide +kernel

theorem leftover_writers : ∃ s g w e,
    Runs.run (Session.next (failedCreation 1) twoColumns groupPerColumn) (.start ())
      [.write (some (oneRow 8)), .write (some (oneRow 8))] = some s ∧
    s.writer.initialized = true ∧ totalRows s.accepted = 1 ∧
    s.writer.columnGroupWriters[1]? = some g ∧ g.columnGroupId = 0 ∧ rows g.contents = 1 ∧
    close (failedCreation 1) twoColumns s.writer = (w, .error e) := by
  let s := sessionOf (failedCreation 1) [.write (some (oneRow 8)), .write (some (oneRow 8))]
  have hwriter : (s.writer.columnGroupWriters[1]?.map fun g => (g.columnGroupId, rows g.contents)) =
    some (0, 1) := by decide +kernel
  obtain ⟨g, hg, heq⟩ := Option.map_eq_some_iff.mp hwriter
  obtain ⟨hid, hrows⟩ := Prod.ext_iff.mp heq
  have hnone : (close (failedCreation 1) twoColumns s.writer).2.toOption.isNone := by
    decide +kernel
  rcases hclose : close (failedCreation 1) twoColumns s.writer with ⟨w, e | groups⟩
  · exact ⟨s, g, w, e, Session.run_eq _ _, by decide +kernel, by decide +kernel, hg, hid, hrows,
      hclose⟩
  · simp [hclose, Except.toOption] at hnone

/-- **After failed writes.** No batch is taken by the first group and refused by another, and no
call that fails stores rows. -/
theorem close_after_failed_writes (hrun : s.Ran env config policy p calls)
    (hcreate : ∀ k, ¬ LeavesWriters env k) (hwrite : ∀ k, ¬ Splits env k) (hatomic : env.Atomic)
    (hinit : s.writer.initialized = true) (hclose : close env config s.writer = (w, .ok groups))
    (hkeeps : ∀ g ∈ s.writer.columnGroupWriters, g.KeepsRows) :
    Forall₂ (HasRows config.schema s.accepted) s.writer.columnGroups groups := by
  have hsound := hrun.sound (fun h : False => h.elim) (fun _ => not_false)
    (.inr ⟨hatomic, hcreate, hwrite⟩)
  obtain ⟨hblank, -⟩ | ⟨haligned, hret⟩ := hsound.close_ok hclose
  · simp [hblank.initialized_eq] at hinit
  · exact haligned.hasRows hret hkeeps

/-- The second batch is refused by the groups from the `i`-th on. -/
def failedWrite (i : ℕ) : Environment ℕ :=
  { workingEnvironment with
    write := fun k j => if k = 1 ∧ i ≤ j then some (.ioError "write failed") else none }

/-- The second batch is refused by all groups, and the first flush fails. -/
def failedCalls : Environment ℕ :=
  { failedWrite 0 with io := fun n => if n = 0 then some (.ioError "flush failed") else none }

theorem close_after_failed_writes_refused : ∃ s w groups,
    Runs.run (Session.next failedCalls twoColumns groupPerColumn) (.start ())
      [.write (some (oneRow 8)), .write (some (oneRow 8)), .flush, .write (some (oneRow 8))] =
        some s ∧
    s.failures.length = 2 ∧ s.accepted.length = 2 ∧
    close failedCalls twoColumns s.writer = (w, .ok groups) ∧
    Forall₂ (HasRows twoColumns.schema s.accepted) s.writer.columnGroups groups := by
  have hwrite : ∀ k, ¬ Splits failedCalls k := by
    rintro k ⟨hzero, i, hi⟩
    simp_all [failedCalls, failedWrite]
  obtain ⟨w, hclose⟩ : ∃ w, close _ _ _ = (w, .ok (groupsOf failedCalls
    [.write (some (oneRow 8)), .write (some (oneRow 8)), .flush, .write (some (oneRow 8))])) :=
    close_sessionOf (by decide +kernel)
  refine ⟨_, w, _, Session.run_eq _ _, by decide +kernel, by decide +kernel, hclose,
    close_after_failed_writes ⟨by decide, partitions_groupPerColumn _, ?_, Session.run_eq _ _⟩
      (fun k h => h.2.elim fun i hi => hi rfl) hwrite (fun _ _ _ => rfl) (by decide +kernel) hclose
      ?_⟩
  · simp [Call.batches, oneRow, twoColumns]
  · unfold ColumnGroupWriter.KeepsRows
    decide +kernel

theorem split_batch : ∃ s w groups,
    Runs.run (Session.next (failedWrite 1) twoColumns groupPerColumn) (.start ())
      [.write (some (oneRow 8)), .write (some (oneRow 8))] = some s ∧
    s.writer.initialized = true ∧ totalRows s.accepted = 1 ∧
    close (failedWrite 1) twoColumns s.writer = (w, .ok groups) ∧
    groups.map (fun g => g.toColumnGroup.rows) = [2, 1] := by
  obtain ⟨w, hclose⟩ : ∃ w, close _ _ _ = (w, .ok (groupsOf (failedWrite 1)
    [.write (some (oneRow 8)), .write (some (oneRow 8))])) := close_sessionOf (by decide +kernel)
  exact ⟨_, w, _, Session.run_eq _ _, by decide +kernel, by decide +kernel, hclose,
    by decide +kernel⟩

end MilvusStorage.Writer
