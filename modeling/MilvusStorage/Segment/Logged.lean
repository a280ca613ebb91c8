import MilvusStorage.Segment.Resolve

/-!
# What a segment has stored

The writer of a column only sees the values of its own column. Over the calls of a segment it has
taken all of them (`Wrote`), and the table has the references that it returned: every column is
followed on its own (`ColumnLogged`), and after all calls the columns are `Logged`.
-/

namespace MilvusStorage.Segment

open List Command Lob Function

variable {W V : Type} (E : Environment W)

/-! ## The writer of a column -/

/-- The values that have been written to a column, the references that were returned for them, and
the state of the writer. -/
inductive Wrote (lob : LobColumn W) (lw₀ : W) : List (Option Bytes) → List (Option Bytes) → W → Prop
  | start : Wrote lob lw₀ [] [] lw₀
  | write {values refs lw lw' values' refs'} (h : Wrote lob lw₀ values refs lw)
      (hrun : lob.writeArrowArray values' lw = (lw', .ok refs')) :
      Wrote lob lw₀ (values ++ values') (refs ++ refs') lw'
  | flush {values refs lw lw'} (h : Wrote lob lw₀ values refs lw)
      (hrun : lob.flush lw = (lw', .ok ())) : Wrote lob lw₀ values refs lw'

/-- `ReadArrowArray` returns what the references stand for. -/
def Decodes (lob : LobColumn W) (stands : Bytes → Bytes) : Prop :=
  ∀ n refs values, lob.decode n refs = .ok values → values = refs.map (Option.map stands)

/-! ## What is written -/

/-- The values of a column as they arrive: in rewrite mode what the references stand for. -/
def meaning (stands : ℕ → Bytes → Bytes) (i : ℕ) (column : Column V) : Column V :=
  if (E.lobAt i).any LobColumn.rewriteMode then
    column.map (Option.map (Sum.map (stands i) id))
  else column

/-- The values of a column that have been written. -/
def written (stands : ℕ → Bytes → Bytes) (batches : List (Batch V)) (i : ℕ) : Column V :=
  batches.flatMap fun b => meaning E stands i (b.columns.getD i [])

/-- The cells of a column that the table has. -/
def storedColumn (stored : List (StorageBatch V)) (i : ℕ) : Column V :=
  stored.flatMap fun b => b.column i

def totalRows (batches : List (Batch V)) : ℕ := (batches.map Batch.numRows).sum

/-- What has happened to a column in a batch. -/
def ColumnWritten (stands : ℕ → Bytes → Bytes) (i : ℕ) (column out : Column V)
    (before after : Option W) : Prop :=
  match E.lobAt i with
  | none => out = column ∧ after = before
  | some lob => ∃ values refs lw lw', meaning E stands i column = ofBinary values ∧
      out = ofBinary refs ∧ before = some lw ∧ after = some lw' ∧
        lob.writeArrowArray values lw = (lw', .ok refs)

variable {E} {stands : ℕ → Bytes → Bytes}

theorem ofBinary_of_asBinary {column : Column V} {values : List (Option Bytes)}
    (h : asBinary column = some values) : column = ofBinary values := by
  induction column generalizing values with
  | nil =>
    cases h
    rfl
  | cons cell column ih =>
    rw [asBinary, mapM_cons] at h
    obtain ⟨value, hvalue, h⟩ := Option.bind_eq_some_iff.mp h
    obtain ⟨rest, hrest, h⟩ := Option.bind_eq_some_iff.mp h
    cases h
    rw [ih hrest, ofBinary]
    rcases cell with _ | _ | _ <;> cases hvalue <;> rfl

variable {i : ℕ} {α : Type} {w' w : SegmentWriter W V}

theorem onWriter_ok {call : Command W Fault α} {a : α} (h : onWriter i call w = (w', .ok a)) :
    ∃ lw lw', w.lobWriters i = some lw ∧ call lw = (lw', .ok a) ∧
        w' = { w with lobWriters := update w.lobWriters i (some lw') } := by
  cases hlw : w.lobWriters i with
  | none =>
    rw [onWriter, hlw] at h
    cases h
  | some lw =>
    rw [onWriter_run hlw] at h
    obtain ⟨hw, ha⟩ := Prod.mk.inj h
    exact ⟨lw, (call lw).1, rfl, Prod.ext rfl ha, hw.symm⟩

theorem columnValues_ok {lob : LobColumn W} {stands : Bytes → Bytes}
    {data values : List (Option Bytes)} (hdec : lob.rewriteMode → Decodes lob stands)
    (h : columnValues lob data w = (w', .ok values)) :
    w'.lobWriters = w.lobWriters ∧ w'.stored = w.stored ∧
      values = if lob.rewriteMode then data.map (Option.map stands) else data := by
  rw [columnValues] at h
  split_ifs at h with hmode
  · obtain ⟨rfl, hvalues⟩ := Prod.mk.inj h
    exact ⟨rfl, rfl, by rw [if_pos hmode]; exact hdec hmode _ _ _ hvalues⟩
  · cases h
    exact ⟨rfl, rfl, by rw [if_neg hmode]⟩

theorem writeColumn_ok
    (hdec : ∀ i lob, E.lobAt i = some lob → lob.rewriteMode → Decodes lob (stands i))
    {column out : Column V} (h : writeColumn E i column w = (w', .ok out)) :
    ColumnWritten E stands i column out (w.lobWriters i) (w'.lobWriters i) ∧
      (∀ j, j ≠ i → w'.lobWriters j = w.lobWriters j) ∧ w'.stored = w.stored := by
  rw [ColumnWritten]
  cases hlob : E.lobAt i with
  | none =>
    simp only [writeColumn, hlob] at h
    cases h
    exact ⟨⟨rfl, rfl⟩, fun _ _ => rfl, rfl⟩
  | some lob =>
    simp only [writeColumn, hlob] at h
    obtain ⟨w1, data, hdata, h⟩ := bind_run_eq_ok h
    obtain ⟨w2, values, hvalues, h⟩ := bind_run_eq_ok h
    obtain ⟨w3, refs, hrefs, h⟩ := bind_run_eq_ok h
    cases h
    obtain ⟨lw, lw', hlw, hrun, rfl⟩ := onWriter_ok hrefs
    obtain ⟨hwriters, hstored, hvalues⟩ := columnValues_ok (hdec i lob hlob) hvalues
    obtain ⟨hcol, rfl⟩ := ofOption_run_eq_ok hdata
    refine ⟨⟨values, refs, lw, lw', ?_, rfl, hwriters ▸ hlw, update_self .., hrun⟩,
      fun j hj => (update_of_ne hj _ _).trans (congrFun hwriters j), hstored⟩
    rw [hvalues, ofBinary_of_asBinary hcol, meaning, hlob, Option.any_some]
    split_ifs
    · simp [ofBinary, comp_def]
    · rfl

/-! ## Batches -/

@[simp] theorem length_meaning (i : ℕ) (column : Column V) :
    (meaning E stands i column).length = column.length := by
  rw [meaning]
  split_ifs <;> simp

@[simp] theorem written_append (batches batches' : List (Batch V)) (i : ℕ) :
    written E stands (batches ++ batches') i =
      written E stands batches i ++ written E stands batches' i := flatMap_append

@[simp] theorem storedColumn_append (stored stored' : List (StorageBatch V)) (i : ℕ) :
    storedColumn (stored ++ stored') i = storedColumn stored i ++ storedColumn stored' i :=
  flatMap_append

@[simp] theorem storedColumn_singleton (b : StorageBatch V) (i : ℕ) :
    storedColumn [b] i = b.column i := flatMap_singleton ..

theorem written_singleton (b : Batch V) (i : ℕ) :
    written E stands [b] i = meaning E stands i (b.columns.getD i []) := flatMap_singleton ..

theorem length_written_singleton (b : Batch V) (hi : i < b.columns.length) :
    (written E stands [b] i).length = b.numRows := by
  rw [written_singleton, length_meaning, getD_eq_getElem?_getD, getElem?_eq_getElem hi]
  exact b.length_column _ (getElem_mem hi)

variable {b : Batch V}

/-- A batch without rows has no cells. -/
theorem written_singleton_eq_nil (h : b.numRows = 0) (i : ℕ) : written E stands [b] i = [] := by
  by_cases hi : i < b.columns.length
  · exact length_eq_zero_iff.mp ((length_written_singleton b hi).trans h)
  · rw [written_singleton, getD_eq_getElem?_getD, getElem?_eq_none (not_lt.mp hi)]
    exact length_eq_zero_iff.mp (length_meaning ..)

theorem length_columns_of_schemaError (h : schemaError E b = none) :
    b.columns.length = E.schema.length := by
  unfold schemaError at h
  split_ifs at h with hrewrite hcount hsame
  · exact not_not.mp hcount
  · rw [b.length_columns]
    simpa using congrArg length (of_decide_eq_true hsame)

theorem write_ok {batch : Option (Batch V)} (h : write E batch w = (w', .ok ())) :
    (batch = none ∧ w' = w) ∨ ∃ b, batch = some b ∧ ((b.numRows = 0 ∧ w' = w) ∨
        (b.columns.length = E.schema.length ∧ writeBatch E b w = (w', .ok ()))) := by
  unfold write at h
  rw [get_bind_run] at h
  split_ifs at h
  · cases h
  · cases batch with
    | none =>
      cases h
      exact .inl ⟨rfl, rfl⟩
    | some b =>
      refine .inr ⟨b, rfl, ?_⟩
      simp only [ite_run] at h
      split_ifs at h with hrows
      · cases h
        exact .inl ⟨hrows, rfl⟩
      · cases herror : schemaError E b with
        | some e =>
          rw [herror] at h
          cases h
        | none =>
          rw [herror] at h
          exact .inr ⟨length_columns_of_schemaError herror, h⟩

section Runs

variable (hdec : ∀ i lob, E.lobAt i = some lob → lob.rewriteMode → Decodes lob (stands i))
include hdec

theorem writeBatch_ok (h : writeBatch E b w = (w', .ok ())) : ∃ columns : List (Column V),
      w'.stored = w.stored ++ [⟨b.numRows, columns⟩] ∧ ∀ i < b.columns.length,
        ColumnWritten E stands i (b.columns.getD i []) (columns.getD i []) (w.lobWriters i)
          (w'.lobWriters i) := by
  obtain ⟨w1, columns, hcols, h⟩ := bind_run_eq_ok h
  obtain ⟨w2, _, hio, h⟩ := bind_run_eq_ok h
  obtain ⟨rfl, -⟩ := Prod.mk.inj hio
  cases h
  have hstored : w1.stored = w.stored :=
    forEach_const (fun c w w' out hrun => (writeColumn_ok hdec hrun).2.2) hcols
  refine ⟨columns, congrArg (· ++ [_]) hstored, fun i hi => ?_⟩
  have hframe : ∀ (c : Column V × ℕ) (w w' : SegmentWriter W V) out,
      writeColumn E c.2 c.1 w = (w', .ok out) → ∀ i, i ≠ c.2 → w'.lobWriters i = w.lobWriters i :=
    fun c w w' out hrun => (writeColumn_ok hdec hrun).2.1
  have hnodup : (b.columns.zipIdx.map fun c => c.2).Nodup := by
    rw [zipIdx_map_snd]
    exact nodup_range'
  have hrel := forEach_components hframe hcols hnodup
  have hi' : i < columns.length := by
    rw [← hrel.length_eq]
    simpa using hi
  obtain ⟨w1', w2', hrun, hbefore, hafter⟩ := hrel.get (by simpa using hi) hi'
  have hwritten := (writeColumn_ok hdec hrun).1
  rw [hbefore, hafter] at hwritten
  simpa [hi, hi'] using hwritten

/-! ## Runs -/

/-- What has happened to a column after some batches. -/
def ColumnLogged (E : Environment W) (stands : ℕ → Bytes → Bytes) (w₀ : SegmentWriter W V)
    (batches : List (Batch V)) (w : SegmentWriter W V) (i : ℕ) : Prop :=
  match E.lobAt i with
  | none => storedColumn w.stored i = written E stands batches i
  | some lob => ∃ lw₀ lw values refs, w₀.lobWriters i = some lw₀ ∧ w.lobWriters i = some lw ∧
      Wrote lob lw₀ values refs lw ∧ storedColumn w.stored i = ofBinary refs ∧
        written E stands batches i = ofBinary values

/-- The columns after some batches. -/
structure Logged (E : Environment W) (stands : ℕ → Bytes → Bytes) (w₀ : SegmentWriter W V)
    (batches : List (Batch V)) (w : SegmentWriter W V) : Prop where
  numRows : (w.stored.map StorageBatch.numRows).sum = totalRows batches
  length : ∀ i < E.schema.length, (written E stands batches i).length = totalRows batches
  column : ∀ i < E.schema.length, ColumnLogged E stands w₀ batches w i

/-- A call before `Close`. -/
inductive WriteCall (V : Type)
  | write (batch : Option (Batch V))
  | flush

def WriteCall.command (E : Environment W) : WriteCall V → Step W V Unit
  | write batch => Segment.write E batch
  | flush => Segment.flush E

/-- The batches that are written. -/
def WriteCall.batches : WriteCall V → List (Batch V)
  | write batch => batch.toList
  | flush => []

variable {w₀ : SegmentWriter W V} {batches : List (Batch V)}

omit hdec in
/-- The writers of the columns before the first call. -/
theorem Logged.create (h : Segment.create E = .ok w₀) : Logged E stands w₀ [] w₀ := by
  obtain ⟨hw, hwriters⟩ := create_eq_ok h
  have hstored : w₀.stored = [] := by rw [hw]
  refine ⟨by simp [hstored, totalRows], fun i _ => rfl, fun i _ => ?_⟩
  rw [ColumnLogged, hstored]
  cases hlob : E.lobAt i with
  | none => rfl
  | some lob =>
    obtain ⟨lw, hlw⟩ := Option.isSome_iff_exists.mp ((hwriters i).1.mpr (by simp [hlob]))
    exact ⟨lw, lw, [], [], hlw, hlw, .start, rfl, rfl⟩

theorem Logged.writeBatch (h : Logged E stands w₀ batches w)
    (hlen : b.columns.length = E.schema.length) (hrun : Segment.writeBatch E b w = (w', .ok ())) :
    Logged E stands w₀ (batches ++ [b]) w' := by
  obtain ⟨columns, hstored, hcols⟩ := writeBatch_ok hdec hrun
  refine ⟨?_, fun i hi => ?_, fun i hi => ?_⟩
  · simp [hstored, h.numRows, totalRows]
  · rw [written_append, length_append, h.length i hi, length_written_singleton b (hlen ▸ hi)]
    simp [totalRows]
  · have hwritten := hcols i (hlen ▸ hi)
    have hlogged := h.column i hi
    rw [ColumnWritten] at hwritten
    rw [ColumnLogged] at hlogged ⊢
    cases hlob : E.lobAt i with
    | none =>
      simp only [hlob] at hwritten hlogged ⊢
      rw [hstored, storedColumn_append, storedColumn_singleton, hlogged, written_append,
        written_singleton, meaning, hlob]
      exact congrArg _ hwritten.1
    | some lob =>
      simp only [hlob] at hwritten hlogged ⊢
      obtain ⟨values', refs', lw, lw', hvalues', hrefs', hbefore, hafter, hrun⟩ := hwritten
      obtain ⟨lw₀, lw1, values, refs, hlw0, hlw1, hwrote, hrefs, hvalues⟩ := hlogged
      cases hbefore.symm.trans hlw1
      refine ⟨lw₀, lw', values ++ values', refs ++ refs', hlw0, hafter, hwrote.write hrun, ?_, ?_⟩
      · rw [hstored, storedColumn_append, storedColumn_singleton, hrefs]
        exact (congrArg _ hrefs').trans map_append.symm
      · rw [written_append, written_singleton, hvalues, hvalues']
        exact map_append.symm

theorem Logged.write {batch : Option (Batch V)} (h : Logged E stands w₀ batches w)
    (hrun : Segment.write E batch w = (w', .ok ())) :
    Logged E stands w₀ (batches ++ batch.toList) w' := by
  obtain ⟨rfl, rfl⟩ | ⟨b, rfl, ⟨hrows, rfl⟩ | ⟨hlen, hrun⟩⟩ := write_ok hrun
  · simpa using h
  · have hwritten : ∀ i, written E stands (batches ++ [b]) i = written E stands batches i := by
      intro i
      rw [written_append, written_singleton_eq_nil hrows, append_nil]
    have htotal : totalRows (batches ++ [b]) = totalRows batches := by simp [totalRows, hrows]
    refine ⟨h.numRows.trans htotal.symm, fun i hi => ?_, fun i hi => ?_⟩
    · rw [Option.toList_some, hwritten, htotal, h.length i hi]
    · have hlogged := h.column i hi
      rw [ColumnLogged] at hlogged ⊢
      simpa only [Option.toList_some, hwritten] using hlogged
  · exact h.writeBatch hdec hlen hrun

omit hdec in
theorem onColumn_ok {call : LobColumn W → Command W Fault α} {i : ℕ} {a : α}
    (h : onColumn E i call w = (w', .ok a)) :
    ∃ lob lw lw', E.lobAt i = some lob ∧ w.lobWriters i = some lw ∧ call lob lw = (lw', .ok a) ∧
        w' = { w with lobWriters := update w.lobWriters i (some lw') } := by
  cases hlob : E.lobAt i with
  | none =>
    rw [onColumn, hlob] at h
    cases h
  | some lob =>
    rw [onColumn, hlob] at h
    obtain ⟨lw, lw', hlw, hrun, hw'⟩ := onWriter_ok h
    exact ⟨lob, lw, lw', rfl, hlw, hrun, hw'⟩

omit hdec in
/-- A call to all writers of columns. -/
theorem forEach_onColumn_ok {call : LobColumn W → Command W Fault α} {as : List α}
    (h : forEach (fun i => onColumn E i call) E.keys w = (w', .ok as)) :
    w'.stored = w.stored ∧ ∀ i lob, E.lobAt i = some lob → ∃ lw lw' a,
      w.lobWriters i = some lw ∧ call lob lw = (lw', .ok a) ∧ w'.lobWriters i = some lw' := by
  have hframe : ∀ (i : ℕ) (w w' : SegmentWriter W V) a, onColumn E i call w = (w', .ok a) →
      ∀ j, j ≠ i → w'.lobWriters j = w.lobWriters j := by
    intro i w w' a hrun j hj
    obtain ⟨lob, lw, lw', -, -, -, rfl⟩ := onColumn_ok hrun
    exact update_of_ne hj _ _
  refine ⟨forEach_const (fun i w w' a hrun => ?_) h, fun i lob hlob => ?_⟩
  · obtain ⟨lob, lw, lw', -, -, -, rfl⟩ := onColumn_ok hrun
    rfl
  · have hrel := forEach_components hframe h (by simpa using nodup_keys E)
    obtain ⟨a, -, w1, w2, hrun, hbefore, hafter⟩ :=
      hrel.exists_right (mem_keys.mpr (Option.isSome_of_eq_some hlob))
    obtain ⟨lob', lw, lw', hlob', hlw, hcall, rfl⟩ := onColumn_ok hrun
    cases hlob.symm.trans hlob'
    exact ⟨lw, lw', a, hbefore ▸ hlw, hcall, hafter ▸ update_self ..⟩

omit hdec in
theorem flush_ok (h : Segment.flush E w = (w', .ok ())) :
    w'.stored = w.stored ∧ ∀ i lob, E.lobAt i = some lob → ∃ lw lw',
      w.lobWriters i = some lw ∧ lob.flush lw = (lw', .ok ()) ∧ w'.lobWriters i = some lw' := by
  unfold Segment.flush at h
  rw [get_bind_run, ite_run] at h
  split_ifs at h
  · cases h
  · obtain ⟨w1, as, hflush, h⟩ := bind_run_eq_ok h
    obtain ⟨rfl, -⟩ := Prod.mk.inj h
    obtain ⟨hstored, hwriters⟩ := forEach_onColumn_ok hflush
    refine ⟨hstored, fun i lob hlob => ?_⟩
    obtain ⟨lw, lw', a, hlw, hrun, hlw'⟩ := hwriters i lob hlob
    exact ⟨lw, lw', hlw, hrun, hlw'⟩

omit hdec in
theorem Logged.flush (h : Logged E stands w₀ batches w) (hrun : Segment.flush E w = (w', .ok ())) :
    Logged E stands w₀ batches w' := by
  obtain ⟨hstored, hwriters⟩ := flush_ok hrun
  refine ⟨hstored ▸ h.numRows, h.length, fun i hi => ?_⟩
  have hlogged := h.column i hi
  rw [ColumnLogged] at hlogged ⊢
  rw [hstored]
  cases hlob : E.lobAt i with
  | none => simpa only [hlob] using hlogged
  | some lob =>
    simp only [hlob] at hlogged ⊢
    obtain ⟨lw₀, lw1, values, refs, hlw0, hlw1, hwrote, hcols⟩ := hlogged
    obtain ⟨lw, lw', hlw, hflush, hlw'⟩ := hwriters i lob hlob
    cases hlw.symm.trans hlw1
    exact ⟨lw₀, lw', values, refs, hlw0, hlw', hwrote.flush hflush, hcols⟩

theorem Logged.calls {calls : List (WriteCall V)} {rs : List Unit}
    (h : Logged E stands w₀ batches w)
    (hrun : forEach (WriteCall.command E) calls w = (w', .ok rs)) :
    Logged E stands w₀ (batches ++ calls.flatMap WriteCall.batches) w' := by
  induction calls generalizing w batches rs with
  | nil =>
    cases hrun
    simpa using h
  | cons call calls ih =>
    obtain ⟨w1, _, hcall, hrun⟩ := bind_run_eq_ok hrun
    obtain ⟨w2, rs', hcalls, hrun⟩ := bind_run_eq_ok hrun
    cases hrun
    rw [flatMap_cons, ← append_assoc]
    refine ih ?_ hcalls
    cases call with
    | write batch => exact h.write hdec hcall
    | flush => simpa [WriteCall.batches] using h.flush hcall

omit hdec in
/-- `Close` flushes the writers of the columns and closes them. -/
theorem close_ok {output : SegmentWriteOutput V} (h : Segment.close E w = (w', .ok output)) :
    ∃ w1, Segment.flush E w = (w1, .ok ()) ∧
      output.columnGroups = w1.stored ∧ ∀ i lob, E.lobAt i = some lob → ∃ lw lw' files,
        w1.lobWriters i = some lw ∧ lob.close lw = (lw', .ok files) ∧
          w'.lobWriters i = some lw' := by
  unfold Segment.close at h
  rw [get_bind_run, ite_run] at h
  split_ifs at h
  · cases h
  · obtain ⟨w1, _, hflush, h⟩ := bind_run_eq_ok h
    obtain ⟨w2, results, hclose, h⟩ := bind_run_eq_ok h
    obtain ⟨w3, _, hreaders, h⟩ := bind_run_eq_ok h
    obtain ⟨w4, _, htable, h⟩ := bind_run_eq_ok h
    obtain ⟨rfl, -⟩ := Prod.mk.inj htable
    cases h
    obtain ⟨hstored, hwriters⟩ := forEach_onColumn_ok hclose
    have hunchanged : (w3.stored, w3.lobWriters) = (w2.stored, w2.lobWriters) := by
      refine forEach_const (g := fun w => (w.stored, w.lobWriters)) (fun i w w' a hrun => ?_)
        hreaders
      obtain ⟨rfl, -⟩ := Prod.mk.inj hrun
      rfl
    obtain ⟨hstored', hwriters'⟩ := Prod.mk.inj hunchanged
    refine ⟨w1, hflush, hstored'.trans hstored, fun i lob hlob => ?_⟩
    obtain ⟨lw, lw', files, hlw, hrun, hlw'⟩ := hwriters i lob hlob
    exact ⟨lw, lw', files, hlw, hrun, (congrFun hwriters' i).trans hlw'⟩

end Runs

end MilvusStorage.Segment
