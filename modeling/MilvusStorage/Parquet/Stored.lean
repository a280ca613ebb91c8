import Mathlib.Data.List.ModifyLast
import MilvusStorage.Parquet.Writer

/-!
# What the Parquet writer stores

The rows of the row groups, followed by those of the cache, are the rows that have been written
(`Inv`). Every slice of a flush moves on from the cache to a row group (`During`). If a call to the
library fails, nothing is lost. But the cache is replaced at the end of a flush only: a flush that
fails after it has stored rows is repeated from the start (`Torn`).
-/

namespace MilvusStorage.Parquet

open List Command

variable {α : Type} {env : Environment}

/-- The rows of the batches. -/
def written (batches : SizedBatches α) : List α := batches.flatMap Prod.fst

@[simp] theorem written_nil : written ([] : SizedBatches α) = [] := rfl

@[simp] theorem written_append (b b' : SizedBatches α) :
    written (b ++ b') = written b ++ written b' := flatMap_append

@[simp] theorem written_cons (b : List α × UInt64) (bs : SizedBatches α) :
    written (b :: bs) = b.1 ++ written bs := rfl

theorem length_written (batches : SizedBatches α) :
    (written batches).length = (batches.map fun b => b.1.length).sum := by
  simp [written]

theorem flatten_map_fst (batches : SizedBatches α) :
    (batches.map Prod.fst).flatten = written batches := flatMap_def.symm

/-! ## Row groups -/

theorem libraryCall_spec (w : ParquetFileWriter α) : Spec (· = w) (libraryCall env)
      (fun _ w' => env.library w.phase w.libraryCalls = none ∧
        w' = { w with libraryCalls := w.libraryCalls + 1 })
      (fun _ w' => env.library w.phase w.libraryCalls ≠ none ∧
        w' = { w with libraryCalls := w.libraryCalls + 1 }) := by
  rintro w rfl
  rw [libraryCall]
  cases h : env.library w.phase w.libraryCalls <;> simp

/-- The next `n` calls of the phase succeed. -/
def Succeed (env : Environment) (p c n : ℕ) : Prop := ∀ j < n, env.library p (c + j) = none

/-- The next `m` calls of the phase succeed, and the one after them fails. -/
def FailsAfter (env : Environment) (p c m : ℕ) : Prop :=
  Succeed env p c m ∧ env.library p (c + m) ≠ none

theorem Succeed.cons {p c n : ℕ} (hok : env.library p c = none) (h : Succeed env p (c + 1) n) :
    Succeed env p c (n + 1) := by
  intro j hj
  cases j with
  | zero => exact hok
  | succ j =>
    have hlt : j < n := by omega
    simpa [add_assoc, add_comm 1] using h j hlt

theorem FailsAfter.cons {p c m : ℕ} (hok : env.library p c = none)
    (h : FailsAfter env p (c + 1) m) : FailsAfter env p c (m + 1) :=
  ⟨h.1.cons hok, by simpa [add_assoc, add_comm 1] using h.2⟩

variable {w w₀ : ParquetFileWriter α} {rows stored : List α} {rowGroup : SizedBatches α}
  {rgSize : UInt64}

/-- The batches of a row group, up to the first one that fails. -/
theorem writeRecordBatches_spec {groups : List (List α)} {part : List α} (batches : List (List α))
    (hw : w.rowGroups = groups ++ [part]) :
    Spec (· = w) (forEach (writeRecordBatch env) batches)
      (fun _ w' => Succeed env w.phase w.libraryCalls batches.length ∧
        w' = { w with
          rowGroups := groups ++ [part ++ batches.flatten]
          libraryCalls := w.libraryCalls + batches.length })
      (fun _ w' => ∃ m rows, FailsAfter env w.phase w.libraryCalls m ∧ (m = 0 → rows = []) ∧
        w' = { w with
          rowGroups := groups ++ [part ++ rows], libraryCalls := w.libraryCalls + m + 1 }) := by
  induction batches generalizing part w with
  | nil =>
    refine spec_pure fun w' hw' => ⟨by simp [Succeed], ?_⟩
    simp [hw', ← hw]
  | cons batch batches ih =>
    refine Spec.bind (Q := fun _ w' => env.library w.phase w.libraryCalls = none ∧ w' = { w with
      rowGroups := groups ++ [part ++ batch], libraryCalls := w.libraryCalls + 1 })
      (Spec.bind ((libraryCall_spec w).onError ?_)
        fun _ => spec_modify ?_) fun _ => spec_of_forall ?_
    · rintro _ w' ⟨herror, rfl⟩
      exact ⟨0, [], ⟨by simp [Succeed], herror⟩, fun _ => rfl, by simp [← hw]⟩
    · rintro w' ⟨hok, rfl⟩
      simp only [hw, modifyLast_concat, and_true]
      exact hok
    · rintro w1 ⟨hok, rfl⟩
      refine ((ih rfl).onError ?_).bind fun _ => spec_pure ?_
      · rintro _ w' ⟨m, rows, hfails, -, rfl⟩
        exact ⟨m + 1, batch ++ rows, hfails.cons hok, by simp, by simp [add_assoc, add_comm 1]⟩
      · rintro w' ⟨hcalls, rfl⟩
        exact ⟨hcalls.cons hok, by simp [add_assoc, add_comm 1]⟩

/-- A row group and its metadata. If the first call fails, there is no new row group, and if the
second fails, no row has been stored. -/
theorem writeRowGroup_spec (batches : SizedBatches α) (size : UInt64) (w : ParquetFileWriter α) :
    Spec (· = w) (writeRowGroup env batches size)
      (fun _ w' => Succeed env w.phase w.libraryCalls (batches.length + 1) ∧
        w' = { w with
          rowGroups := w.rowGroups ++ [written batches]
          rowGroupMetadata := w.rowGroupMetadata ++
            [⟨size, (written batches).length, w.writtenRows⟩]
          writtenRows := w.writtenRows + (written batches).length
          libraryCalls := w.libraryCalls + (batches.length + 1) })
      (fun _ w' => ∃ m groups, FailsAfter env w.phase w.libraryCalls m ∧
        (m = 0 → groups = []) ∧ (m ≤ 1 → groups.flatten = []) ∧
        w' = { w with
          rowGroups := w.rowGroups ++ groups, libraryCalls := w.libraryCalls + m + 1 }) := by
  refine Spec.bind (Q := fun _ w' => env.library w.phase w.libraryCalls = none ∧ w' = { w with
    rowGroups := w.rowGroups ++ [[]], libraryCalls := w.libraryCalls + 1 })
    (Spec.bind ((libraryCall_spec w).onError ?_) fun _ => spec_modify ?_) fun _ => spec_of_forall ?_
  · rintro _ w' ⟨herror, rfl⟩
    exact ⟨0, [], ⟨by simp [Succeed], herror⟩, fun _ => rfl, fun _ => rfl, by simp⟩
  · rintro w' ⟨hok, rfl⟩
    exact ⟨hok, rfl⟩
  · rintro w1 ⟨hok, rfl⟩
    refine ((writeRecordBatches_spec _ rfl).onError ?_).bind fun _ => spec_modify ?_
    · rintro _ w' ⟨m, rows, hfails, hnil, rfl⟩
      refine ⟨m + 1, [rows], hfails.cons hok, by simp, fun hm => ?_,
        by simp [add_assoc, add_comm 1]⟩
      simp [hnil (by omega)]
    · rintro w' ⟨hcalls, rfl⟩
      refine ⟨by simpa using hcalls.cons hok, ?_⟩
      simp [flatten_map_fst, length_written, add_assoc, add_comm 1]

/-! ## Flushes -/

/-- The metadata of the row groups that have been completed. -/
structure Recorded (w : ParquetFileWriter α) : Prop where
  rows_eq : w.writtenRows = w.rowGroups.flatten.length
  total_eq : (w.rowGroupMetadata.map RowGroupMetadata.rowNum).sum = w.writtenRows
  offset_eq : ∀ (k : ℕ) e, w.rowGroupMetadata[k]? = some e →
    e.rowOffset = ((w.rowGroupMetadata.take k).map RowGroupMetadata.rowNum).sum

/-- Every row group has its metadata. -/
def Exact (w : ParquetFileWriter α) : Prop :=
  w.rowGroupMetadata.map RowGroupMetadata.rowNum = w.rowGroups.map List.length

/-- The phase fails after it has stored rows. -/
def Torn (env : Environment) (p : ℕ) : Prop :=
  env.library p 0 = none ∧ env.library p 1 = none ∧ ∃ j, env.library p j ≠ none

/-- The phase fails after its first call. A second call that fails leaves an empty row group, which
has no metadata. -/
def Late (env : Environment) (p : ℕ) : Prop :=
  env.library p 0 = none ∧ ∃ j, env.library p j ≠ none

/-- Nothing but the row groups has changed since `w₀`, and they have the rows `stored` in addition.
-/
structure Adds (w₀ : ParquetFileWriter α) (stored : List α) (w : ParquetFileWriter α) : Prop where
  eq : w = { w₀ with
    rowGroups := w.rowGroups
    rowGroupMetadata := w.rowGroupMetadata
    writtenRows := w.writtenRows
    libraryCalls := w.libraryCalls }
  flatten_eq : w.rowGroups.flatten = w₀.rowGroups.flatten ++ stored
  recorded : Recorded w

/-- A phase that began in `w₀` and has not failed. Two calls at least are needed to store rows. -/
structure During (env : Environment) (w₀ : ParquetFileWriter α) (stored : List α)
    (w : ParquetFileWriter α) : Prop extends Adds w₀ stored w where
  exact_of_exact : Exact w₀ → Exact w
  succeed : Succeed env w₀.phase 0 w.libraryCalls
  two_le : stored ≠ [] → 2 ≤ w.libraryCalls

/-- What a failed call of the phase leaves. -/
def Failed (env : Environment) (w₀ w : ParquetFileWriter α) : Prop :=
  Torn env w₀.phase ∨ Adds w₀ [] w ∧ (Late env w₀.phase ∨ (Exact w₀ → Exact w))

theorem Recorded.append (h : Recorded w) (rows : List α) (size : UInt64) (n : ℕ) : Recorded { w with
      rowGroups := w.rowGroups ++ [rows]
      rowGroupMetadata := w.rowGroupMetadata ++ [⟨size, rows.length, w.writtenRows⟩]
      writtenRows := w.writtenRows + rows.length
      libraryCalls := n } where
  rows_eq := by simp [h.rows_eq]
  total_eq := by simp [h.total_eq]
  offset_eq k e he := by
    have hk : k < w.rowGroupMetadata.length + 1 := by
      simpa using (List.getElem?_eq_some_iff.mp he).1
    obtain hlt | heq := Nat.lt_succ_iff_lt_or_eq.mp hk
    · rw [getElem?_append_left hlt] at he
      rw [take_append_of_le_length (Nat.le_of_lt hlt)]
      exact h.offset_eq k e he
    · subst heq
      simp only [getElem?_concat_length, Option.some.injEq] at he
      simp [← he, h.total_eq]

theorem During.succeed_append (h : During env w₀ stored w) {n : ℕ}
    (hn : Succeed env w.phase w.libraryCalls n) :
    Succeed env w₀.phase 0 (w.libraryCalls + n) := by
  have hphase : w.phase = w₀.phase := by rw [h.eq]
  intro j hj
  obtain hlt | hle := Nat.lt_or_ge j w.libraryCalls
  · exact h.succeed j hlt
  · obtain ⟨i, rfl⟩ := Nat.exists_eq_add_of_le hle
    rw [← hphase, zero_add]
    exact hn i (by omega)

theorem During.writeRowGroup (h : During env w₀ stored w) (batches : SizedBatches α)
    (size : UInt64) : Spec (· = w) (writeRowGroup env batches size)
      (fun _ => During env w₀ (stored ++ written batches))
      (fun _ => Failed env w₀) := by
  refine (writeRowGroup_spec batches size w).post ?_ ?_
  · rintro _ w' ⟨hsucceed, rfl⟩
    refine ⟨⟨?_, by simp [h.flatten_eq], h.recorded.append _ _ _⟩, fun hexact => ?_,
      h.succeed_append hsucceed, fun hne => ?_⟩
    · rw [h.eq]
    · simpa [Exact] using h.exact_of_exact hexact
    · simp only [ne_eq, append_eq_nil_iff, not_and_or] at hne
      obtain hstored | hbatches := hne
      · exact Nat.le_trans (h.two_le hstored) (Nat.le_add_right ..)
      · cases batches with
        | nil => exact absurd rfl hbatches
        | cons b bs => simp only [length_cons]; omega
  · rintro _ w' ⟨m, groups, ⟨hsucceed, hfails⟩, hnone, hnil, rfl⟩
    have hcalls := h.succeed_append hsucceed
    have hphase : w.phase = w₀.phase := by rw [h.eq]
    rw [hphase] at hfails
    obtain hle | hlt := Nat.lt_or_ge 1 (w.libraryCalls + m)
    · exact .inl ⟨by simpa using hcalls 0 (by omega), by simpa using hcalls 1 hle, _, hfails⟩
    · obtain rfl : stored = [] := by
        by_contra hne
        have := h.two_le hne
        omega
      have hflat : groups.flatten = [] := hnil (by omega)
      refine .inr ⟨⟨by rw [h.eq], by simp [h.flatten_eq, hflat],
        ⟨by simp [hflat, h.recorded.rows_eq], h.recorded.2, h.recorded.3⟩⟩, ?_⟩
      · by_cases hfirst : w.libraryCalls + m = 0
        · refine .inr fun hexact => ?_
          simpa [Exact, hnone (by omega)] using h.exact_of_exact hexact
        · exact .inl ⟨by simpa using hcalls 0 (by omega), _, hfails⟩

/-- The rows move on from the batches to the row groups. -/
def Moved (env : Environment) (w₀ : ParquetFileWriter α) (rows : List α)
    (r : SizedBatches α × UInt64) (w : ParquetFileWriter α) : Prop :=
  ∃ stored, During env w₀ stored w ∧ stored ++ written r.1 = rows

theorem Moved.writeFullRowGroup (h : Moved env w₀ rows (rowGroup, rgSize) w) :
    Spec (· = w) (writeFullRowGroup env rowGroup rgSize) (Moved env w₀ rows)
      (fun _ => Failed env w₀) := by
  obtain ⟨stored, hduring, hrows⟩ := h
  refine spec_ite (fun _ => ?_) fun _ => spec_pure fun w' hw' => ?_
  · refine (hduring.writeRowGroup rowGroup rgSize).bind fun _ => spec_pure fun w' hw' => ?_
    exact ⟨_, hw', by simpa using hrows⟩
  · subst hw'
    exact ⟨stored, hduring, hrows⟩

/-- The slices of a batch. -/
theorem Moved.sliceBatch (batchSize : UInt64) (totalRows : ℕ) (batch : List α)
    (h : Moved env w₀ rows (rowGroup, rgSize) w) :
    Spec (· = w) (sliceBatch env batchSize totalRows batch rowGroup rgSize)
      (Moved env w₀ (rows ++ batch)) (fun _ => Failed env w₀) := by
  induction hlen : batch.length using Nat.strongRecOn generalizing batch rows rowGroup rgSize w with
  | _ n ih =>
    rw [Parquet.sliceBatch]
    split_ifs with hnil
    · refine spec_pure fun w' hw' => ?_
      subst hw'
      simpa [hnil] using h
    · refine h.writeFullRowGroup.bind fun r => spec_of_forall fun w1 hw1 => ?_
      obtain ⟨stored, hduring, hrows⟩ := hw1
      have hlt := length_pos_iff.mpr hnil
      have hpos : 0 < sliceLen env r.2 batchSize totalRows batch.length := sliceLen_pos env hlt
      have hmoved : Moved env w₀
          (rows ++ batch.take (sliceLen env r.2 batchSize totalRows batch.length))
          (r.1 ++ [(batch.take (sliceLen env r.2 batchSize totalRows batch.length),
            env.sliceSize batchSize totalRows (sliceLen env r.2 batchSize totalRows batch.length))],
            r.2 + env.sliceSize batchSize totalRows
              (sliceLen env r.2 batchSize totalRows batch.length)) w1 :=
        ⟨stored, hduring, by simp [← hrows]⟩
      have hless : (batch.drop (sliceLen env r.2 batchSize totalRows batch.length)).length < n := by
        rw [length_drop]
        omega
      have hrest := ih _ hless _ hmoved rfl
      rwa [append_assoc, take_append_drop] at hrest

theorem Moved.sliceBatches (batches : SizedBatches α) (h : Moved env w₀ rows (rowGroup, rgSize) w) :
    Spec (· = w) (sliceBatches env batches rowGroup rgSize) (Moved env w₀ (rows ++ written batches))
      (fun _ => Failed env w₀) := by
  induction batches generalizing rows rowGroup rgSize w with
  | nil =>
    refine spec_pure fun w' hw' => ?_
    subst hw'
    simpa using h
  | cons b batches ih =>
    refine (h.sliceBatch b.2 b.1.length b.1).bind fun r => spec_of_forall fun w1 hw1 => ?_
    simpa using ih hw1

/-! ## The invariant -/

/-- The rows of the row groups and of the cache. -/
structure Inv (rows : List α) (w : ParquetFileWriter α) : Prop where
  rows_eq : w.rowGroups.flatten ++ written w.cachedBatches = rows
  recorded : Recorded w

theorem Inv.startPhase (h : Inv rows w) :
    During env { w with phase := w.phase + 1, libraryCalls := 0 } []
      { w with phase := w.phase + 1, libraryCalls := 0 } :=
  ⟨⟨rfl, by simp, ⟨h.recorded.1, h.recorded.2, h.recorded.3⟩⟩, id, by simp [Succeed], by simp⟩

/-- What a phase leaves as it was. -/
def Frame (w w' : ParquetFileWriter α) : Prop :=
  w'.closed = w.closed ∧ w'.kvMetadata = w.kvMetadata ∧ w'.filePath = w.filePath

theorem Adds.frame (h : Adds w₀ stored w) : Frame w₀ w := by
  rw [h.eq]
  exact ⟨rfl, rfl, rfl⟩

theorem Adds.inv {w' : ParquetFileWriter α} (h : Inv rows w)
    (hadds : Adds { w with phase := w.phase + 1, libraryCalls := 0 } [] w') : Inv rows w' := by
  refine ⟨?_, hadds.recorded⟩
  rw [hadds.flatten_eq, hadds.eq]
  simpa using h.rows_eq

/-- What a call that fails leaves. -/
def Fails (env : Environment) (rows : List α) (w w' : ParquetFileWriter α) : Prop :=
  (∃ p, Torn env p) ∨
    Inv rows w' ∧ w'.closed = w.closed ∧ ((∃ p, Late env p) ∨ (Exact w → Exact w'))

theorem Failed.fails {w' : ParquetFileWriter α} (h : Inv rows w)
    (hfailed : Failed env { w with phase := w.phase + 1, libraryCalls := 0 } w') :
    Fails env rows w w' :=
  hfailed.imp (fun htorn => ⟨_, htorn⟩) fun ⟨hadds, hexact⟩ =>
    ⟨hadds.inv h, hadds.frame.1, hexact.imp_left fun hlate => ⟨_, hlate⟩⟩

/-- **A flush** keeps the rows. -/
theorem flush_spec (h : Inv rows w) : Spec (· = w) (flush env)
      (fun _ w' => Inv rows w' ∧ Frame w w' ∧ (Exact w → Exact w'))
      (fun _ => Fails env rows w) := by
  refine spec_modify_bind fun w₀ hw0 => spec_get_bind fun w1 hw1 => ?_
  subst hw0 hw1
  have hmoved : Moved env { w₀ with phase := w₀.phase + 1, libraryCalls := 0 } [] ([], 0)
      { w₀ with phase := w₀.phase + 1, libraryCalls := 0 } := ⟨[], h.startPhase, rfl⟩
  refine ((hmoved.sliceBatches w₀.cachedBatches).onError fun _ _ => Failed.fails h).bind
    fun r => spec_modify ?_
  · rintro w' ⟨stored, hduring, hrows⟩
    refine ⟨⟨?_, hduring.recorded.1, hduring.recorded.2, hduring.recorded.3⟩, hduring.frame,
      hduring.exact_of_exact⟩
    rw [← h.rows_eq, hduring.flatten_eq, append_assoc, hrows, nil_append]

/-- The last row group empties the cache. -/
theorem writeRemaining_spec (h : Inv rows w) : Spec (· = w) (writeRemaining env)
      (fun _ w' => Inv rows w' ∧ Frame w w' ∧ (Exact w → Exact w') ∧ w'.cachedBatches = [])
      (fun _ => Fails env rows w) := by
  refine spec_modify_bind fun w₀ hw0 => spec_get_bind fun w1 hw1 => ?_
  subst hw0 hw1
  have hduring : During env { w₀ with phase := w₀.phase + 1, libraryCalls := 0 } []
    { w₀ with phase := w₀.phase + 1, libraryCalls := 0 } := h.startPhase
  refine spec_ite (fun hnil => spec_pure fun w' hw' => ?_) fun _ => ?_
  · subst hw'
    exact ⟨hduring.toAdds.inv h, ⟨rfl, rfl, rfl⟩, id, hnil⟩
  · refine ((hduring.writeRowGroup _ _).onError fun _ _ => Failed.fails h).bind
      fun _ => spec_modify fun w' hw' => ?_
    refine ⟨⟨?_, hw'.recorded.1, hw'.recorded.2, hw'.recorded.3⟩, hw'.frame,
      hw'.exact_of_exact, rfl⟩
    rw [← h.rows_eq, written_nil, append_nil, hw'.flatten_eq, nil_append]

theorem keeps_finishCall (w₀ : ParquetFileWriter α) :
    Keeps (fun w => ∃ n, w = { w₀ with finishCalls := n }) (finishCall env) := by
  rintro w ⟨n, rfl⟩
  simp only [finishCall]
  cases env.finish n <;> simp [eq_comm]

/-- Only the key-value metadata changes. -/
theorem finishFile_spec (w : ParquetFileWriter α) : Spec (· = w) (finishFile env)
      (fun _ w' => ∃ n, w' = { w with
        kvMetadata := w.kvMetadata ++ [w.rowGroupMetadata], finishCalls := n })
      (fun _ w' => ∃ n, w' = { w with
        kvMetadata := w.kvMetadata ++ [w.rowGroupMetadata], finishCalls := n }) := by
  refine spec_modify_bind fun w' hw' => ?_
  subst hw'
  have hcall : Keeps (fun w => ∃ n, w = { w' with
      kvMetadata := w'.kvMetadata ++ [w'.rowGroupMetadata], finishCalls := n }) (finishCall env) :=
    keeps_finishCall { w' with kvMetadata := w'.kvMetadata ++ [w'.rowGroupMetadata] }
  refine Spec.from (P := fun w => ∃ n, w = { w' with
    kvMetadata := w'.kvMetadata ++ [w'.rowGroupMetadata], finishCalls := n }) ?_
    ⟨w'.finishCalls, rfl⟩
  iterate 7 refine Spec.bind hcall fun _ => ?_
  exact hcall

/-- **Closing** stores all rows. -/
theorem close_spec (h : Inv rows w) (hopen : w.closed = false) : Spec (· = w) (close env)
      (fun file w' => w'.closed = true ∧ w'.rowGroups.flatten = rows ∧ Recorded w' ∧
        (Exact w → Exact w') ∧ w'.kvMetadata = w.kvMetadata ++ [w'.rowGroupMetadata] ∧
        file.startIndex = 0 ∧ file.endIndex = rows.length)
      (fun _ => Fails env rows w) := by
  refine spec_get_bind fun w' hw' => ?_
  subst hw'
  refine spec_ite (fun hclosed => by simp [hopen] at hclosed) fun _ => ?_
  refine (flush_spec h).bind fun _ => spec_of_forall ?_
  rintro w1 ⟨hinv1, hframe1, hexact1⟩
  refine ((writeRemaining_spec hinv1).onError ?_).bind fun _ => spec_of_forall ?_
  · exact fun _ w2 => Or.imp_right fun ⟨hinv, hclosed, hexact⟩ =>
      ⟨hinv, hclosed.trans hframe1.1, hexact.imp_right fun hexact h => hexact (hexact1 h)⟩
  rintro w2 ⟨hinv2, hframe2, hexact2, hnil⟩
  refine ((finishFile_spec w2).onError ?_).bind fun _ => ?_
  · rintro _ w3 ⟨n, rfl⟩
    exact .inr ⟨⟨hinv2.rows_eq, hinv2.recorded.1, hinv2.recorded.2, hinv2.recorded.3⟩,
      hframe2.1.trans hframe1.1, .inr fun hexact => hexact2 (hexact1 hexact)⟩
  refine spec_modify_bind fun w3 ⟨n, hw3⟩ => ?_
  subst hw3
  refine spec_get_bind fun w4 hw4 => spec_pure fun w₅ hw₅ => ?_
  subst hw4 hw₅
  have hrows : w2.rowGroups.flatten = rows := by simpa [hnil] using hinv2.rows_eq
  refine ⟨rfl, hrows, ⟨hinv2.recorded.1, hinv2.recorded.2, hinv2.recorded.3⟩,
    fun hexact => hexact2 (hexact1 hexact), ?_, rfl, ?_⟩
  · simp [hframe2.2.1, hframe1.2.1]
  · simp [hinv2.recorded.rows_eq, hrows]

end MilvusStorage.Parquet
