import MilvusStorage.Segment.Reader

/-!
# Resolving columns in pieces

The table comes in batches of any sizes. A list of batches `Holds` some columns if its batches,
one after the other, have these columns. If each column, cut into these pieces, can be resolved
piece by piece (`ResolvesTo`), then `ReadNext` and `Take` return batches that hold the resolved
columns.
-/

namespace MilvusStorage.Segment

open Except List Command Lob

variable {V : Type}

/-- The batches have these columns, one after the other. -/
structure Holds (batches : List (StorageBatch V)) (columns : List (Column V)) : Prop where
  length_columns : ∀ b ∈ batches, b.columns.length = columns.length
  length_column : ∀ b ∈ batches, ∀ c ∈ b.columns, c.length = b.numRows
  column : ∀ k, (batches.flatMap fun b => b.column k) = columns.getD k []

namespace SegmentReader

variable {r : SegmentReader V}

/-- However the column with index `k` is cut into pieces whose references are `asked` for, they are
resolved to pieces of `resolved`. -/
def ResolvesTo (asked : List (Option Bytes) → Prop) (r : SegmentReader V) (k : ℕ)
    (column resolved : Column V) : Prop :=
  ∀ pieces : List (Column V), (∀ refs, ofBinary refs ∈ pieces → asked refs) →
    pieces.flatten = column → ∃ pieces',
    Forall₂ (fun piece piece' => r.resolveColumn k piece = .ok piece' ∧
      piece'.length = piece.length) pieces pieces' ∧ pieces'.flatten = resolved

variable {asked : List (Option Bytes) → Prop} {k : ℕ} {b : StorageBatch V}

theorem resolvesTo_self (h : r.lobReaders.lookup k = none) (column : Column V) :
    r.ResolvesTo asked k column column := by
  intro pieces _ hpieces
  have hresolve : ∀ piece, r.resolveColumn k piece = .ok piece := by
    intro piece
    rw [resolveColumn, h]
  exact ⟨pieces, forall₂_same.mpr fun piece _ => ⟨hresolve piece, rfl⟩, hpieces⟩

/-- The pieces of a mapped list are mapped pieces. -/
theorem exists_flatten_eq {α β : Type} {g : α → β} {pieces : List (List β)} {l : List α}
    (h : pieces.flatten = l.map g) :
    ∃ ls : List (List α), ls.flatten = l ∧ pieces = ls.map (List.map g) := by
  induction pieces generalizing l with
  | nil => exact ⟨[], by simpa using h, rfl⟩
  | cons piece pieces ih =>
    obtain ⟨l1, l2, rfl, hl1, hl2⟩ := map_eq_append_iff.mp h.symm
    obtain ⟨ls, rfl, hls⟩ := ih hl2.symm
    exact ⟨l1 :: ls, rfl, by rw [map_cons, hl1, hls]⟩

@[simp] theorem asBinary_ofBinary (values : List (Option Bytes)) :
    asBinary (ofBinary (V := V) values) = some values := by
  induction values with
  | nil => rfl
  | cons value values ih =>
    rw [asBinary, ofBinary, map_cons, mapM_cons, ← asBinary, ← ofBinary, ih]
    cases value <;> rfl

/-- The lists of the references that are asked for can be read. -/
def ReadsBack (read : ReadArrowArray) (asked : List (Option Bytes) → Prop)
    (pairs : List (Option Bytes × Option Bytes)) : Prop :=
  ∀ l ⊆ pairs, asked (l.map Prod.fst) → read (l.map Prod.fst) = .ok (l.map Prod.snd)

theorem resolvesTo_ofBinary {read : ReadArrowArray} {pairs : List (Option Bytes × Option Bytes)}
    (hk : r.lobReaders.lookup k = some read) (hread : ReadsBack read asked pairs) :
    r.ResolvesTo asked k (ofBinary (pairs.map Prod.fst)) (ofBinary (pairs.map Prod.snd)) := by
  intro pieces hasked hpieces
  rw [ofBinary, map_map] at hpieces
  obtain ⟨ls, rfl, rfl⟩ := exists_flatten_eq hpieces
  refine ⟨ls.map fun l => ofBinary (l.map Prod.snd), ?_, ?_⟩
  · rw [forall₂_map_left_iff, forall₂_map_right_iff, forall₂_same]
    intro l hl
    have hpiece : l.map (Option.map Sum.inl ∘ Prod.fst) = ofBinary (V := V) (l.map Prod.fst) :=
      (map_map ..).symm
    have hlookup := hread l (sublist_flatten_of_mem hl).subset
      (hasked _ (hpiece ▸ mem_map_of_mem hl))
    refine ⟨?_, by simp [ofBinary]⟩
    simp only [resolveColumn, hk, hpiece, asBinary_ofBinary, hlookup]
    rfl
  · simp [ofBinary]

/-! ## Batches -/

/-- The batch is resolved column by column. -/
structure ResolvedFrom (r : SegmentReader V) (n : ℕ) (b : StorageBatch V) (b' : ResolvedBatch V) :
    Prop where
  schema : b'.schema = r.extractedSchema
  numRows : b'.numRows = b.numRows
  length_columns : b'.columns.length = n
  column : ∀ k < n, r.resolveColumn k (b.column k) = .ok (b'.column k)
  length_column : ∀ k < n, (b'.column k).length = b.numRows

theorem getElem?_column (hk : k < b.columns.length) : b.columns[k]? = some (b.column k) := by
  simp [StorageBatch.column, hk]

/-- A batch all of whose columns can be resolved. -/
theorem resolveLobColumns_ok
    (h : ∀ k < b.columns.length, ∃ c, r.resolveColumn k (b.column k) = .ok c ∧
      c.length = b.numRows) :
    ∃ b', r.resolveLobColumns b = .ok b' ∧ r.ResolvedFrom b.columns.length b b' := by
  have hcols : ∃ columns : List (Column V), r.resolveLobColumns b =
      .ok ⟨⟨b.numRows, columns⟩, r.extractedSchema⟩ ∧ columns.length = b.columns.length ∧
        ∀ k < b.columns.length, r.resolveColumn k (b.column k) = .ok (columns.getD k []) := by
    by_cases hempty : r.lobReaders = []
    · refine ⟨b.columns, if_pos hempty, rfl, fun k hk => ?_⟩
      simp [resolveColumn, hempty, StorageBatch.column]
    · have hcol : ∀ c ∈ b.columns.zipIdx, ∃ c', r.resolveColumn c.2 c.1 = .ok c' := by
        rintro ⟨c, k⟩ hc
        have hget : b.columns[k]? = some c := mem_zipIdx_iff_getElem?.mp hc
        have hk := lt_of_getElem? hget
        obtain rfl := Option.some.inj ((getElem?_column hk).symm.trans hget)
        exact (h k hk).imp fun _ => And.left
      obtain ⟨columns, hcols⟩ := exists_mapM_ok hcol
      refine ⟨columns, ?_, by simpa using length_of_mapM_ok hcols, fun k hk => ?_⟩
      · simp [resolveLobColumns, if_neg hempty, hcols]
      · obtain ⟨c, hc, hresolve⟩ := getElem?_of_mapM_ok hcols (i := k)
          (a := (b.column k, k)) (by simp [getElem?_column hk])
        rwa [getD_eq_getElem?_getD, hc]
  obtain ⟨columns, hresolve, hlen, hcol⟩ := hcols
  refine ⟨_, hresolve, rfl, rfl, hlen, hcol, fun k hk => ?_⟩
  obtain ⟨c, hc, hlen⟩ := h k hk
  obtain rfl := ok.inj ((hcol k hk).symm.trans hc)
  exact hlen

section Holds

variable {batches : List (StorageBatch V)} {columns resolved : List (Column V)}
  (h : Holds batches columns)
  (hasked : ∀ b ∈ batches, ∀ refs, ofBinary refs ∈ b.columns → asked refs)
  (hresolve : ∀ k < columns.length, r.ResolvesTo asked k (columns.getD k []) (resolved.getD k []))
include h hasked hresolve

/-- The columns with one index, resolved. -/
theorem exists_pieces {k : ℕ} (hk : k < columns.length) : ∃ pieces, Forall₂ (fun b piece =>
    r.resolveColumn k (b.column k) = .ok piece ∧ piece.length = (b.column k).length)
      batches pieces ∧ pieces.flatten = resolved.getD k [] := by
  obtain ⟨pieces, hpieces, hflat⟩ := hresolve k hk
    (batches.map fun b : StorageBatch V => b.column k) (fun refs hrefs => by
      obtain ⟨b, hb, hcol⟩ := mem_map.mp hrefs
      refine hasked b hb refs (hcol ▸ mem_of_getElem? (getElem?_column ?_))
      rwa [h.length_columns b hb]) (h.column k)
  exact ⟨pieces, forall₂_map_left_iff.mp hpieces, hflat⟩

theorem exists_resolvedFrom : ∃ batches', batches.mapM r.resolveLobColumns = .ok batches' ∧
    Forall₂ (r.ResolvedFrom columns.length) batches batches' := by
  have hbatch : ∀ b ∈ batches, ∃ b', r.resolveLobColumns b = .ok b' ∧
      r.ResolvedFrom columns.length b b' := by
    intro b hb
    rw [← h.length_columns b hb]
    refine resolveLobColumns_ok fun k hk => ?_
    obtain ⟨pieces, hpieces, -⟩ := exists_pieces h hasked hresolve (h.length_columns b hb ▸ hk)
    obtain ⟨piece, -, hpiece, hlen⟩ := hpieces.exists_right hb
    have hcol := h.length_column b hb _ (mem_of_getElem? (getElem?_column hk))
    exact ⟨piece, hpiece, hlen.trans hcol⟩
  obtain ⟨batches', hbatches'⟩ := exists_mapM_ok fun b hb =>
    (hbatch b hb).imp fun _ => And.left
  refine ⟨batches', hbatches', ?_⟩
  refine ((forall₂_and_left _ _).mpr ⟨hbatch, forall₂_of_mapM_ok hbatches'⟩).imp ?_
  rintro b b' ⟨⟨b'', hb'', hspec⟩, hb'⟩
  exact ok.inj (hb''.symm.trans hb') ▸ hspec

/-- The batches of the resolved columns. -/
theorem mapM_resolveLobColumns (hlen : resolved.length = columns.length) :
    ∃ batches', batches.mapM r.resolveLobColumns = .ok batches' ∧
      Holds (batches'.map ResolvedBatch.toStorageBatch) resolved ∧
        ∀ b ∈ batches', b.schema = r.extractedSchema := by
  obtain ⟨batches', hbatches', hrel⟩ := exists_resolvedFrom h hasked hresolve
  refine ⟨batches', hbatches', ⟨?_, ?_, fun k => ?_⟩, fun b' hb' => ?_⟩
  · rw [forall_mem_map]
    intro b' hb'
    obtain ⟨b, -, hspec⟩ := hrel.exists_left hb'
    exact hspec.length_columns.trans hlen.symm
  · rw [forall_mem_map]
    intro b' hb' c hc
    obtain ⟨b, -, hspec⟩ := hrel.exists_left hb'
    obtain ⟨k, hk, rfl⟩ := mem_iff_getElem.mp hc
    have hcol := hspec.length_column k (hspec.length_columns ▸ hk)
    rw [hspec.numRows, ← hcol]
    simp [StorageBatch.column, hk]
  · rw [flatMap_map]
    by_cases hk : k < columns.length
    · obtain ⟨pieces, hpieces, hflat⟩ := exists_pieces h hasked hresolve hk
      have hmap : pieces = batches'.map fun b' => b'.column k := by
        have h1 := mapM_ok_of_forall₂ (hpieces.imp fun _ _ => And.left)
        have h2 := mapM_ok_of_forall₂
          (forall₂_map_right_iff.mpr (hrel.imp fun b b' hspec => hspec.column k hk))
        exact ok.inj (h1.symm.trans h2)
      rw [← hflat, hmap]
      rfl
    · have hnil : ∀ b' ∈ batches', b'.column k = [] := by
        intro b' hb'
        obtain ⟨b, -, hspec⟩ := hrel.exists_left hb'
        have hnone : b'.columns[k]? = none :=
          getElem?_eq_none (by rw [hspec.length_columns]; omega)
        simp [StorageBatch.column, hnone]
      have hres : resolved[k]? = none := getElem?_eq_none (by omega)
      rw [flatMap_congr hnil, getD_eq_getElem?_getD, hres]
      simp
  · obtain ⟨b, -, hspec⟩ := hrel.exists_left hb'
    exact hspec.schema

end Holds

/-! ## Calls -/

/-- `n` calls of `ReadNext`. -/
def readBatches (n : ℕ) : Command (SegmentReader V) Fault (List (Option (ResolvedBatch V))) :=
  forEach (fun _ => readNext) (List.replicate n ())

section

variable (hclosed : r.closed = false)
include hclosed

theorem readNext_ok {b' : ResolvedBatch V} (hnext : r.reader.readNext r.position = .ok (some b))
    (hb : r.resolveLobColumns b = .ok b') : readNext r = ({ r with
      position := r.position + 1
      totalRows := r.totalRows + b.numRows }, .ok (some b')) := by
  have hbatch : nextBatch r = ({ r with position := r.position + 1 }, .ok (some b)) := by
    rw [nextBatch, hnext]
  rw [readNext, get_bind_run, if_neg (by simp [hclosed]), bind_run_ok hbatch]
  apply (modify_bind_run ..).trans
  rw [hb]
  rfl

theorem readNext_end (hnext : r.reader.readNext r.position = .ok none) :
    (readNext r).2 = .ok none := by
  have hbatch : nextBatch r = ({ r with position := r.position + 1 }, .ok none) := by
    rw [nextBatch, hnext]
  simp [readNext, get_bind_run, hclosed, bind_run_ok hbatch]

variable {out : List (ResolvedBatch V)}

/-- **`ReadNext` until the end** returns the resolved batches. -/
theorem readBatches_ok {rest : List (StorageBatch V)}
    (hnext : ∀ m, r.reader.readNext (r.position + m) = .ok rest[m]?)
    (hout : rest.mapM r.resolveLobColumns = .ok out) :
    ∃ r', readBatches rest.length r = (r', .ok (out.map some)) ∧ (readNext r').2 = .ok none := by
  induction rest generalizing r out with
  | nil =>
    cases hout
    exact ⟨r, rfl, readNext_end hclosed (hnext 0)⟩
  | cons b rest ih =>
    rw [mapM_cons] at hout
    obtain ⟨b', hb', hout⟩ := bind_eq_ok.mp hout
    obtain ⟨out', hout', rfl⟩ := bind_pure_eq_ok.mp hout
    have hfirst := readNext_ok hclosed (hnext 0) hb'
    have hrest : ∀ m, r.reader.readNext (r.position + 1 + m) = .ok rest[m]? := fun m => by
      rw [add_assoc, add_comm 1]
      exact hnext (m + 1)
    obtain ⟨r', hrun, hend⟩ := ih (r := { r with
      position := r.position + 1
      totalRows := r.totalRows + b.numRows }) hclosed hrest hout'
    refine ⟨r', ?_, hend⟩
    rw [readBatches, length_cons, replicate_succ, forEach, bind_run_ok hfirst,
      ← readBatches, bind_run_ok hrun]
    rfl

/-- `Take` returns the resolved columns. -/
theorem take_ok {rowIndices : List ℤ} {parallelism : ℕ} {batches : List (StorageBatch V)}
    {columns : List (Column V)} (hne : rowIndices ≠ [])
    (htake : r.reader.take rowIndices parallelism = .ok batches)
    (hout : batches.mapM r.resolveLobColumns = .ok out)
    (hcols : Holds (out.map ResolvedBatch.toStorageBatch) columns)
    (hlen : columns.length = r.extractedSchema.length) :
    take rowIndices parallelism r = (r, .ok ⟨r.extractedSchema, columns⟩) := by
  have hall : (range r.extractedSchema.length).map (fun k => out.flatMap (·.column k)) =
      columns := by
    refine ext_getElem? fun k => ?_
    have hcol : out.flatMap (·.column k) = columns.getD k [] :=
      (flatMap_map ..).symm.trans (hcols.column k)
    by_cases hk : k < columns.length
    · simp [← hlen, hk, hcol, getD_eq_getElem?_getD]
    · simp [← hlen, hk]
  rw [take, get_bind_run, hclosed, if_neg Bool.false_ne_true, if_neg hne]
  rw [bind_run_ok (by rw [ofExcept_run, htake]), bind_run_ok (by rw [ofExcept_run, hout])]
  rw [ite_run, pure_run, pure_run, Table.fromRecordBatches, hall]
  split_ifs with hempty
  · rw [isEmpty_iff.mp hempty] at hall
    rw [Table.makeEmpty, ← hall]
    simp
  · rfl

end

theorem take_eq (rowIndices : List ℤ) (parallelism : ℕ) : take rowIndices parallelism r = (r,
      if r.closed then .error readerIsClosed
      else if rowIndices = [] then .ok (.makeEmpty r.extractedSchema)
      else do
        let batches ← r.reader.take rowIndices parallelism
        let resolved ← batches.mapM r.resolveLobColumns
        return if resolved.isEmpty then .makeEmpty r.extractedSchema
          else .fromRecordBatches r.extractedSchema resolved) := by
  rw [take, get_bind_run]
  split_ifs
  · rfl
  · rfl
  · cases htake : r.reader.take rowIndices parallelism with
    | error e => rfl
    | ok batches =>
      rw [bind_run_ok (ofExcept_run ..), ok_bind]
      cases hout : batches.mapM r.resolveLobColumns with
      | error e => rfl
      | ok out =>
        rw [bind_run_ok (ofExcept_run ..), ok_bind, ite_run]
        split_ifs <;> rfl

/-- `Take` does not depend on the position of the batches, and does not change the reader. -/
theorem take_position (rowIndices : List ℤ) (parallelism position totalRows : ℕ) :
    take rowIndices parallelism { r with position, totalRows } =
      ({ r with position, totalRows }, (take rowIndices parallelism r).2) := by
  rw [take_eq, take_eq]
  rfl

end SegmentReader

end MilvusStorage.Segment
