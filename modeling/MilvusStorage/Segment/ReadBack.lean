import MilvusStorage.Segment.Logged

/-!
# Segments are read back

What has been written to a segment that is closed is what a reader of the segment returns
(`reads_back`), if the table and the columns of large objects can be read back. The schema of the
segment, that of the table and the extracted one have their columns at different positions; each
column is followed through them on its own (`ColumnReads`).
-/

namespace MilvusStorage.Segment

open List Command Lob Function

variable {W V : Type} {E : Environment W} {stands : ℕ → Bytes → Bytes}

/-! ## Contracts -/

/-- **The round trip of a column**: after `Close`, the references stand for the values, in the lists
that are asked for. -/
def RoundTrip (lob : LobColumn W) (read : ReadArrowArray) (asked : List (Option Bytes) → Prop)
    (lw₀ lw : W) : Prop :=
  ∀ values refs lw₁ files, Wrote lob lw₀ values refs lw₁ → lob.close lw₁ = (lw, .ok files) →
    refs.length = values.length ∧ SegmentReader.ReadsBack read asked (refs.zip values)

/-- The references are a column of a batch that the table returns. -/
def TableReader.Returns (t : TableReader V) (refs : List (Option Bytes)) : Prop :=
  ∃ b : StorageBatch V, ofBinary refs ∈ b.columns ∧ ((∃ n, t.readNext n = .ok (some b)) ∨
    ∃ rows parallelism batches, t.take rows parallelism = .ok batches ∧ b ∈ batches)

/-- The reader of the table returns these columns. -/
structure Faithful (t : TableReader V) (columns : List (Column V)) (numRows : ℕ) : Prop where
  getRecordBatchReader : t.getRecordBatchReader = .ok ()
  reads : ∃ batches, (∀ n, t.readNext n = .ok batches[n]?) ∧ Holds batches columns
  takes : ∀ (rows : List ℕ) (parallelism : ℕ), rows.Pairwise (· < ·) →
    (∀ row ∈ rows, row < numRows) →
      ∃ batches, t.take (rows.map fun row : ℕ => (row : ℤ)) parallelism = .ok batches ∧
        Holds batches (columns.map fun c => rows.map (c.getD · none))

/-! ## Reading -/

theorem map_getD_ofBinary {α : Type} {g : α → Option Bytes} {d : α} (hd : g d = none) (l : List α)
    (rows : List ℕ) : rows.map ((ofBinary (V := V) (l.map g)).getD · none) =
      ofBinary ((rows.map (l.getD · d)).map g) := by
  rw [ofBinary, ofBinary, map_map, map_map, map_map]
  refine map_congr_left fun row _ => ?_
  simp only [getD_eq_getElem?_getD, getElem?_map, comp_apply]
  cases l[row]? <;> simp [hd]

/-- A column of the storage that is read back. -/
def ColumnReads (asked : List (Option Bytes) → Prop) (r : SegmentReader V) (k : ℕ)
    (stored values : Column V) : Prop :=
  (r.lobReaders.lookup k = none ∧ stored = values) ∨ ∃ read pairs,
    r.lobReaders.lookup k = some read ∧ SegmentReader.ReadsBack read asked pairs ∧
      stored = ofBinary (pairs.map Prod.fst) ∧ values = ofBinary (pairs.map Prod.snd)

namespace ColumnReads

variable {asked : List (Option Bytes) → Prop} {r : SegmentReader V} {k : ℕ}
  {stored values : Column V} (h : ColumnReads asked r k stored values)
include h

theorem resolvesTo : r.ResolvesTo asked k stored values := by
  obtain ⟨hnone, rfl⟩ | ⟨read, pairs, hread, hback, rfl, rfl⟩ := h
  · exact SegmentReader.resolvesTo_self hnone stored
  · exact SegmentReader.resolvesTo_ofBinary hread hback

/-- Rows of the column. -/
theorem rows {rows : List ℕ} (hrange : ∀ row ∈ rows, row < values.length) :
    ColumnReads asked r k (rows.map (stored.getD · none)) (rows.map (values.getD · none)) := by
  obtain ⟨hnone, rfl⟩ | ⟨read, pairs, hread, hback, rfl, rfl⟩ := h
  · exact .inl ⟨hnone, rfl⟩
  · have hsub : ∀ p ∈ rows.map (pairs.getD · (none, none)), p ∈ pairs := by
      refine forall_mem_map.mpr fun row hrow => ?_
      have hlt : row < pairs.length := by simpa [ofBinary] using hrange row hrow
      simp [hlt]
    exact .inr ⟨read, rows.map (pairs.getD · (none, none)), hread,
      fun l hl => hback l fun p hp => hsub p (hl hp), map_getD_ofBinary rfl pairs rows,
      map_getD_ofBinary rfl pairs rows⟩

end ColumnReads

section ReadBack

variable {R : ReaderEnvironment V} {w₀ w₁ w₂ : SegmentWriter W V} {output : SegmentWriteOutput V}
  {batches : List (Batch V)} {columns : List String} {r : SegmentReader V}
  {asked : List (Option Bytes) → Prop}

/-- The reader has the columns of the writer. -/
structure SameColumns (E : Environment W) (R : ReaderEnvironment V) : Prop where
  schema : R.schema = E.schema
  lobColumns : ∀ fieldId, (R.lobColumns fieldId).isSome = (E.lobColumns fieldId).isSome

/-- The readers of large objects read back what the writers of this segment have written. -/
def ColumnsRoundTrip (E : Environment W) (R : ReaderEnvironment V)
    (asked : List (Option Bytes) → Prop) (w₀ w : SegmentWriter W V) : Prop :=
  ∀ i field lob lw₀ lw, E.schema[i]? = some field → E.lobColumns field.fieldId = some lob →
    w₀.lobWriters i = some lw₀ → w.lobWriters i = some lw →
      ∃ read, R.lobColumns field.fieldId = some (.ok read) ∧ RoundTrip lob read asked lw₀ lw

/-- Every extracted column is read back. -/
theorem columnReads (hsame : SameColumns E R) (hlogged : Logged E stands w₀ batches w₁)
    (hclose : close E w₁ = (w₂, .ok output)) (hround : ColumnsRoundTrip E R asked w₀ w₂)
    (hr : Created R columns r) {k : ℕ} {field : Field} {i : ℕ}
    (hk : (extracted R columns)[k]? = some (field, i)) :
    ColumnReads asked r k (storedColumn output.columnGroups i) (written E stands batches i) := by
  have hfield : E.schema[i]? = some field :=
    hsame.schema ▸ (mem_extracted.mp (mem_of_getElem? hk)).1
  have hi := lt_of_getElem? hfield
  have hlookup := hr.lobReaders k field (getElem?_extractedFields.mpr ⟨i, hk⟩)
  have hlob : E.lobAt i = E.lobColumns field.fieldId := by
    simp [Environment.lobAt, hfield]
  obtain ⟨w, hflush, hstored, hclosed⟩ := close_ok hclose
  have hcol := (hlogged.flush hflush).column i hi
  rw [ColumnLogged, ← hstored] at hcol
  cases hcase : E.lobColumns field.fieldId with
  | none =>
    have hnone : R.lobColumns field.fieldId = none := by
      simpa [hcase] using hsame.lobColumns field.fieldId
    simp only [hlob, hcase] at hcol
    exact .inl ⟨by rw [hlookup, hnone]; rfl, hcol⟩
  | some lob =>
    simp only [hlob, hcase] at hcol
    obtain ⟨lw₀, lw, values, refs, hlw0, hlw, hwrote, hrefs, hvalues⟩ := hcol
    obtain ⟨lw', lw'', files, hlw', hrun, hlw''⟩ := hclosed i lob (hlob.trans hcase)
    cases hlw.symm.trans hlw'
    obtain ⟨read, hread, htrip⟩ := hround i field lob lw₀ lw'' hfield hcase hlw0 hlw''
    obtain ⟨hlen, hback⟩ := htrip values refs lw files hwrote hrun
    refine .inr ⟨read, refs.zip values, by rw [hlookup, hread]; rfl, hback, ?_, ?_⟩
    · rw [map_fst_zip hlen.le, hrefs]
    · rw [map_snd_zip hlen.ge, hvalues]

/-- A reader of large objects for every column. -/
theorem exists_reader (hsame : SameColumns E R) (hcreate : create E = .ok w₀)
    (hclose : close E w₁ = (w₂, .ok output)) (hround : ColumnsRoundTrip E R asked w₀ w₂)
    {i : ℕ} {field : Field} (hfield : E.schema[i]? = some field)
    (hlob : (R.lobColumns field.fieldId).isSome) :
    field.hasMetadata ∧ 0 ≤ field.fieldId ∧
      ∃ read, R.lobColumns field.fieldId = some (.ok read) := by
  rw [hsame.lobColumns] at hlob
  obtain ⟨hmetadata, hid⟩ := create_fields hcreate hfield hlob
  obtain ⟨lob, hlob⟩ := Option.isSome_iff_exists.mp hlob
  have hat : E.lobAt i = some lob := by simp [Environment.lobAt, hfield, hlob]
  obtain ⟨lw₀, hlw0⟩ := Option.isSome_iff_exists.mp
    (((create_eq_ok hcreate).2 i).1.mpr (Option.isSome_of_eq_some hat))
  obtain ⟨_, -, -, hclosed⟩ := close_ok hclose
  obtain ⟨_, lw, _, -, -, hlw⟩ := hclosed i lob hat
  obtain ⟨read, hread, -⟩ := hround i field lob lw₀ lw hfield hlob hlw0 hlw
  exact ⟨hmetadata, hid, read, hread⟩

theorem readNext_const {r r' : SegmentReader V} {out : Option (ResolvedBatch V)}
    (h : SegmentReader.readNext r = (r', .ok out)) :
    { r' with position := 0, totalRows := 0 } = { r with position := 0, totalRows := 0 } := by
  rw [SegmentReader.readNext, get_bind_run] at h
  split_ifs at h
  · cases h
  · obtain ⟨r1, b, hb, h⟩ := bind_run_eq_ok h
    obtain ⟨rfl, -⟩ := Prod.mk.inj hb
    cases b with
    | none =>
      cases h
      rfl
    | some b =>
      obtain ⟨r2, _, hr2, h⟩ := bind_run_eq_ok h
      cases hr2
      obtain ⟨r3, _, hr3, h⟩ := bind_run_eq_ok h
      rw [ofExcept_run] at hr3
      obtain ⟨rfl, -⟩ := Prod.mk.inj hr3
      cases h
      rfl

/-- Reading changes the position of the reader and the number of rows only. -/
theorem readBatches_const {n : ℕ} {r r' : SegmentReader V} {out : List (Option (ResolvedBatch V))}
    (h : SegmentReader.readBatches n r = (r', .ok out)) :
    r' = { r with position := r'.position, totalRows := r'.totalRows } := by
  have hconst := forEach_const (fun _ r r' out => readNext_const) h
  obtain ⟨closed, totalRows, extractedSchema, reader, position, lobReaders⟩ := r
  obtain ⟨closed', totalRows', extractedSchema', reader', position', lobReaders'⟩ := r'
  simpa using hconst

section Extracted

variable {stored values : ℕ → Column V} (hcreated : Created R columns r)
  (hreads : ∀ k field i, (extracted R columns)[k]? = some (field, i) →
    ColumnReads asked r k (stored i) (values i))

include hreads in
theorem resolvesTo_extracted (k : ℕ)
    (hk : k < ((extracted R columns).map fun p => stored p.2).length) :
    r.ResolvesTo asked k (((extracted R columns).map fun p => stored p.2).getD k [])
      (((extracted R columns).map fun p => values p.2).getD k []) := by
  rw [length_map] at hk
  have hget := getElem?_eq_getElem hk
  simpa [hget] using (hreads k _ _ hget).resolvesTo

include hcreated hreads

variable {batches : List (StorageBatch V)}

variable (hasked : ∀ b ∈ batches, ∀ refs, ofBinary refs ∈ b.columns → asked refs)
include hasked

theorem readBatches_extracted (hnext : ∀ n, r.reader.readNext n = .ok batches[n]?)
    (hholds : Holds batches ((extracted R columns).map fun p => stored p.2)) :
    ∃ (out : List (ResolvedBatch V)) (r' : SegmentReader V),
      SegmentReader.readBatches out.length r = (r', .ok (out.map some)) ∧
        (SegmentReader.readNext r').2 = .ok none ∧
        (∀ b ∈ out, b.schema = extractedFields columns R) ∧
        Holds (out.map ResolvedBatch.toStorageBatch)
          ((extracted R columns).map fun p => values p.2) := by
  obtain ⟨out, hout, hvalues, hschema⟩ := SegmentReader.mapM_resolveLobColumns hholds hasked
    (resolvesTo_extracted hreads) (by simp)
  obtain ⟨r', hrun, hend⟩ := SegmentReader.readBatches_ok hcreated.closed
    (by simpa [hcreated.position] using hnext) hout
  refine ⟨out, r', ?_, hend, fun b hb => (hschema b hb).trans hcreated.extractedSchema, hvalues⟩
  rw [Except.length_of_mapM_ok hout, hrun]

theorem take_extracted {rows : List ℕ} {parallelism : ℕ}
    (hrange : ∀ p ∈ extracted R columns, ∀ row ∈ rows, row < (values p.2).length)
    (htake : r.reader.take (rows.map fun row : ℕ => (row : ℤ)) parallelism = .ok batches)
    (hholds : Holds batches (((extracted R columns).map fun p => stored p.2).map fun c =>
      rows.map (c.getD · none))) :
    SegmentReader.take (rows.map fun row : ℕ => (row : ℤ)) parallelism r =
      (r, .ok ⟨extractedFields columns R,
        (extracted R columns).map fun p => rows.map ((values p.2).getD · none)⟩) := by
  by_cases hnil : rows = []
  · subst hnil
    rw [SegmentReader.take, get_bind_run, hcreated.closed, Table.makeEmpty,
      hcreated.extractedSchema, extractedFields, map_map]
    rfl
  · have hselected : ∀ k field i, (extracted R columns)[k]? = some (field, i) →
        ColumnReads asked r k (rows.map ((stored i).getD · none))
          (rows.map ((values i).getD · none)) :=
      fun k field i hk => (hreads k field i hk).rows (hrange _ (mem_of_getElem? hk))
    rw [map_map] at hholds
    obtain ⟨out, hout, hvalues, -⟩ := SegmentReader.mapM_resolveLobColumns hholds hasked
      (resolvesTo_extracted hselected) (by simp)
    rw [← hcreated.extractedSchema]
    exact SegmentReader.take_ok hcreated.closed (by simpa using hnil) htake hout hvalues
      (by simp [hcreated.extractedSchema, extractedFields])

end Extracted

/-- **Segments are read back.** A segment is created, written to and closed. If the columns of
large objects and the table have their round trips, then a reader of some of the columns can be
created, `ReadNext` until the end returns the values that were written, and `Take` returns rows of
them, at any point in between. -/
theorem reads_back (E : Environment W) (R : ReaderEnvironment V) (stands : ℕ → Bytes → Bytes)
    (hsame : SameColumns E R)
    (hdec : ∀ i lob, E.lobAt i = some lob → lob.rewriteMode → Decodes lob (stands i))
    {w₀ w₁ w₂ : SegmentWriter W V} {rs : List Unit} {output : SegmentWriteOutput V}
    (calls : List (WriteCall V)) (hcreate : create E = .ok w₀)
    (hcalls : forEach (WriteCall.command E) calls w₀ = (w₁, .ok rs))
    (hclose : close E w₁ = (w₂, .ok output)) (columns : List String)
    (hsome : extracted R columns ≠ []) {t : TableReader V}
    (ht : R.table ((extractedFields columns R).map (storageField R)) = t)
    (hround : ColumnsRoundTrip E R t.Returns w₀ w₂)
    (htable : Faithful t ((extracted R columns).map fun p => storedColumn output.columnGroups p.2)
      (output.columnGroups.map StorageBatch.numRows).sum) :
    let batches := calls.flatMap WriteCall.batches
    ∃ r, SegmentReader.create R columns = .ok r ∧
      (∃ (out : List (ResolvedBatch V)) (r' : SegmentReader V),
        SegmentReader.readBatches out.length r = (r', .ok (out.map some)) ∧
          (SegmentReader.readNext r').2 = .ok none ∧
          (∀ b ∈ out, b.schema = extractedFields columns R) ∧
          Holds (out.map ResolvedBatch.toStorageBatch)
            ((extracted R columns).map fun p => written E stands batches p.2)) ∧
      ∀ n r' out, SegmentReader.readBatches n r = (r', .ok out) →
        ∀ (rows : List ℕ) (parallelism : ℕ), rows.Pairwise (· < ·) →
          (∀ row ∈ rows, row < totalRows batches) →
            SegmentReader.take (rows.map fun row : ℕ => (row : ℤ)) parallelism r' =
              (r', .ok ⟨extractedFields columns R, (extracted R columns).map fun p =>
                rows.map ((written E stands batches p.2).getD · none)⟩) := by
  intro batches
  have hlogged : Logged E stands w₀ batches w₁ := by
    simpa using (Logged.create hcreate).calls hdec hcalls
  have hreader : ∀ field ∈ R.schema, (R.lobColumns field.fieldId).isSome →
      field.hasMetadata ∧ 0 ≤ field.fieldId ∧
        ∃ read, R.lobColumns field.fieldId = some (.ok read) := by
    intro field hfield hlob
    obtain ⟨i, hi⟩ := getElem?_of_mem (hsame.schema ▸ hfield)
    exact exists_reader hsame hcreate hclose hround hi hlob
  obtain ⟨r, hr, hcreated⟩ := SegmentReader.create_ok
    (fun field hfield hlob => (hreader field hfield hlob).1) hsome
    (fun field hfield reader hlob => by
      rw [extractedFields_eq] at hfield
      obtain ⟨-, hid, read, hread⟩ := hreader field (mem_of_mem_filter hfield)
        (Option.isSome_of_eq_some hlob)
      exact ⟨hid, read, Option.some.inj (hlob.symm.trans hread)⟩)
    (ht ▸ htable.getRecordBatchReader)
  obtain rfl : r.reader = t := hcreated.reader.trans ht
  have hreads : ∀ k field i, (extracted R columns)[k]? = some (field, i) →
      ColumnReads r.reader.Returns r k (storedColumn output.columnGroups i)
        (written E stands batches i) :=
    fun k field i hk => columnReads hsame hlogged hclose hround hcreated hk
  refine ⟨r, hr, ?_, fun n r' out hrun rows parallelism hrows hrange => ?_⟩
  · obtain ⟨stored, hnext, hholds⟩ := htable.reads
    refine readBatches_extracted hcreated hreads (fun b hb refs hrefs => ?_) hnext hholds
    obtain ⟨n, hn⟩ := getElem?_of_mem hb
    exact ⟨b, hrefs, .inl ⟨n, hn ▸ hnext n⟩⟩
  · have hrows' : (output.columnGroups.map StorageBatch.numRows).sum = totalRows batches := by
      obtain ⟨w, hflush, hstored, -⟩ := close_ok hclose
      rw [hstored, (hlogged.flush hflush).numRows]
    obtain ⟨taken, htake, hholds⟩ := htable.takes rows parallelism hrows (hrows' ▸ hrange)
    have hvalues : ∀ p ∈ extracted R columns, ∀ row ∈ rows,
        row < (written E stands batches p.2).length := by
      rintro ⟨field, i⟩ hp
      have hi := lt_of_getElem? (mem_extracted.mp hp).1
      rwa [hlogged.length i (hsame.schema ▸ hi)]
    rw [readBatches_const hrun, SegmentReader.take_position,
      take_extracted hcreated hreads (fun b hb refs hrefs => ⟨b, hrefs, .inr ⟨_, _, _, htake, hb⟩⟩)
        hvalues htake hholds]

end ReadBack

/-! ## A segment with a rewritten column -/

/-- References are the values behind a byte. -/
def tagged (rewriteMode : Bool) : LobColumn Unit where
  rewriteMode := rewriteMode
  create := .ok ()
  writeArrowArray values := pure (values.map (Option.map (7 :: ·)))
  flush := pure ()
  close := pure []
  abort lw := (lw, [])
  decode _ refs := .ok (refs.map (Option.map List.tail))

theorem wrote_tagged {rewriteMode : Bool} {lw₀ lw : Unit} {values refs : List (Option Bytes)}
    (h : Wrote (tagged rewriteMode) lw₀ values refs lw) :
    refs = values.map (Option.map (7 :: ·)) := by
  induction h with
  | start => rfl
  | write _ hrun ih =>
    cases hrun
    rw [ih, map_append]
  | flush _ _ ih => exact ih

theorem roundTrip_tagged (rewriteMode : Bool) (asked : List (Option Bytes) → Prop) (lw₀ lw : Unit) :
    RoundTrip (tagged rewriteMode) (fun refs => .ok (refs.map (Option.map List.tail))) asked
      lw₀ lw := by
  intro values refs lw₁ files hwrote _
  obtain rfl := wrote_tagged hwrote
  refine ⟨length_map .., fun l hl _ => ?_⟩
  refine congrArg Except.ok ((map_map ..).trans (map_congr_left fun p hp => ?_))
  have hpair : p.1 = p.2.map (7 :: ·) := by
    obtain ⟨i, hi, hget⟩ := mem_iff_getElem.mp (hl hp)
    rw [getElem_zip, getElem_map] at hget
    rw [← hget]
  rw [comp_apply, hpair, Option.map_map]
  exact Option.map_id' ..

/-- A table in one batch. -/
def listTable (numRows : ℕ) (columns : List (Column V)) : TableReader V where
  getRecordBatchReader := .ok ()
  readNext n := .ok [⟨numRows, columns⟩][n]?
  take rows _ := .ok [⟨rows.length, columns.map fun c => rows.map fun row => c.getD row.toNat none⟩]

theorem faithful_listTable {numRows : ℕ} {columns : List (Column V)}
    (h : ∀ c ∈ columns, c.length = numRows) :
    Faithful (listTable numRows columns) columns numRows where
  getRecordBatchReader := rfl
  reads := by
    refine ⟨[⟨numRows, columns⟩], fun n => rfl, ⟨by simp, by simpa using h, fun k => ?_⟩⟩
    exact flatMap_singleton ..
  takes rows parallelism _ _ := by
    refine ⟨_, rfl, ⟨by simp, by simp, fun k => ?_⟩⟩
    rw [flatMap_singleton, StorageBatch.column]
    simp [comp_def]

def twoTexts : Environment Unit where
  schema := [⟨"id", .other "int64", true, 1, true⟩, ⟨"text", .utf8, true, 100, true⟩,
    ⟨"doc", .binary, true, 101, true⟩]
  lobColumns fieldId :=
    if fieldId = 100 then some (tagged false)
    else if fieldId = 101 then some (tagged true)
    else none
  order := id
  order_perm := .refl
  createPolicy := .ok ()
  io _ := none

/-- Two rows; the texts of the second column are given, those of the third are references. -/
def twoTextRows : Batch ℕ where
  schema := twoTexts.schema
  numRows := 2
  columns := [[some (.inr 5), some (.inr 6)], [some (.inl [1]), none], [none, some (.inl [9, 2])]]
  length_columns := rfl
  length_column := by simp

/-- What the table has: references in the second and third column. -/
def twoTextsStored : List (StorageBatch ℕ) :=
  [⟨2, [[some (.inr 5), some (.inr 6)], [some (.inl [7, 1]), none], [none, some (.inl [7, 2])]]⟩]

def twoTextsReader : ReaderEnvironment ℕ where
  schema := twoTexts.schema
  lobColumns fieldId :=
    if fieldId = 100 ∨ fieldId = 101 then
      some (.ok fun refs => .ok (refs.map (Option.map List.tail)))
    else none
  table fields := listTable 2 (fields.map fun field =>
    storedColumn twoTextsStored (twoTexts.schema.findIdx (·.name = field.name)))

def twoTextsWritten : SegmentWriter Unit ℕ :=
  (write twoTexts (some twoTextRows) { lobWriters := fun i => [(1, ()), (2, ())].lookup i }).1

/-- Two of the columns are read back, the last one with the values of its references. -/
theorem reads_back_twoTexts : ∃ r, SegmentReader.create twoTextsReader ["id", "doc"] = .ok r ∧
    (∃ (out : List (ResolvedBatch ℕ)) (r' : SegmentReader ℕ),
      SegmentReader.readBatches out.length r = (r', .ok (out.map some)) ∧
        Holds (out.map ResolvedBatch.toStorageBatch) [[some (.inr 5), some (.inr 6)],
          [none, some (.inl [2])]]) ∧
    SegmentReader.take [1] 1 r = (r, .ok ⟨extractedFields ["id", "doc"] twoTextsReader,
      [[some (.inr 6)], [some (.inl [2])]]⟩) := by
  have hsame : SameColumns twoTexts twoTextsReader := by
    refine ⟨rfl, fun fieldId => ?_⟩
    simp only [twoTexts, twoTextsReader]
    split_ifs <;> simp_all
  have hcalls : forEach (WriteCall.command twoTexts) [.write (some twoTextRows)]
      { lobWriters := fun i => [(1, ()), (2, ())].lookup i } = (twoTextsWritten, .ok [()]) :=
    Prod.ext rfl rfl
  have hclose : close twoTexts twoTextsWritten =
      ((close twoTexts twoTextsWritten).1, .ok ⟨twoTextsStored, [], 2⟩) := Prod.ext rfl rfl
  have hlob : ∀ fieldId lob, twoTexts.lobColumns fieldId = some lob →
      (fieldId = 100 ∨ fieldId = 101) ∧ ∃ rewriteMode, lob = tagged rewriteMode := by
    intro fieldId lob hlob
    simp only [twoTexts] at hlob
    split_ifs at hlob with htext hdoc
    · exact ⟨.inl htext, false, (Option.some.inj hlob).symm⟩
    · exact ⟨.inr hdoc, true, (Option.some.inj hlob).symm⟩
  have hdec : ∀ i lob, twoTexts.lobAt i = some lob → lob.rewriteMode → Decodes lob tail := by
    intro i lob hi _ n refs values hvalues
    obtain ⟨field, -, hi⟩ := Option.bind_eq_some_iff.mp hi
    obtain ⟨-, rewriteMode, rfl⟩ := hlob _ lob hi
    exact (Except.ok.inj hvalues).symm
  have hround : ∀ asked (w₀ w : SegmentWriter Unit ℕ),
      ColumnsRoundTrip twoTexts twoTextsReader asked w₀ w := by
    intro asked w₀ w i field lob lw₀ lw _ hi _ _
    obtain ⟨hid, rewriteMode, rfl⟩ := hlob _ lob hi
    exact ⟨_, if_pos hid, roundTrip_tagged rewriteMode asked lw₀ lw⟩
  have htable : Faithful (listTable 2 ([0, 2].map (storedColumn twoTextsStored)))
      ([0, 2].map (storedColumn twoTextsStored)) 2 :=
    faithful_listTable (by decide)
  obtain ⟨r, hr, ⟨out, r', hrun, -, -, hholds⟩, htake⟩ := reads_back twoTexts twoTextsReader
    (fun _ => tail) hsame hdec [.write (some twoTextRows)] rfl hcalls hclose ["id", "doc"]
    (by decide) rfl (hround _ _ _) htable
  exact ⟨r, hr, ⟨out, r', hrun, hholds⟩, htake 0 r [] rfl [1] 1 (by decide) (by decide)⟩

end MilvusStorage.Segment
