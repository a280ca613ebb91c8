import Mathlib.Algebra.Order.BigOperators.Group.Finset
import MilvusStorage.Foundations.Except
import MilvusStorage.Packed.ChunkManager

/-!
# What a slice takes

The cells of a column that are queued and not delivered are those of the front table from the chunk
state on and those of the tables behind it (`queued`). A slice of `n` rows takes the first `n` of
them in every column (`Sliced`), provided that the columns of a path agree on how many rows are
left.

A table is popped when some column of its path leaves its last chunk. As no column ends in an empty
chunk, this happens exactly when nothing of the table is left, and so in all columns of the path at
once (`Front.finished_iff`).
-/

namespace MilvusStorage.Packed

open Except List

variable {V : Type}

namespace Table

theorem chunks_of_getElem? {t : Table V} {j : ℕ} {c : ChunkedArray V t.numRows}
    (h : t.columns[j]? = some c) : t.chunks j = c.1 := by
  simp [chunks, h]

theorem length_flatten_chunks {t : Table V} {j : ℕ} (h : j < t.columns.length) :
    (t.chunks j).flatten.length = t.numRows := by
  rw [chunks_of_getElem? (getElem?_eq_getElem h)]
  exact (t.columns[j]).2

/-- A table with rows, of which no column ends in an empty chunk. -/
structure Regular (t : Table V) (numColumns : ℕ) : Prop where
  numRows_pos : 0 < t.numRows
  length_columns : t.columns.length = numColumns
  getLast?_ne : ∀ j, (t.chunks j).getLast? ≠ some []

end Table

/-! ## The queue of a column -/

/-- The cells of a column in the tables of a queue. -/
def tableCells (q : List (Table V)) (j : ℕ) : List (Option V) :=
  q.flatMap fun t => (t.chunks j).flatten

/-- The cells of a column that are queued and not delivered. -/
def queued : List (Table V) → ChunkState → ℕ → List (Option V)
  | [], _, _ => []
  | t :: ts, c, j => Segments.rest (t.chunks j) c ++ tableCells ts j

/-- The chunk state of a column is at some chunk of the front table, with cells left in the table.
-/
def Fits : List (Table V) → ChunkState → ℕ → Prop
  | [], c, _ => c = {}
  | t :: _, c, j => ∃ s, Segments.Within (t.chunks j) c s

theorem queued_zero (q : List (Table V)) (j : ℕ) : queued q {} j = tableCells q j := by
  cases q with
  | nil => rfl
  | cons t ts => rfl

section

variable {q : List (Table V)} {n j : ℕ} (hq : ∀ t ∈ q, t.Regular n) (hj : j < n)
include hq hj

theorem fits_zero : Fits q {} j := by
  cases q with
  | nil => rfl
  | cons t ts =>
    have ht := hq t mem_cons_self
    apply Segments.exists_within_zero
    apply ne_nil_of_length_pos
    rw [Table.length_flatten_chunks (ht.length_columns ▸ hj)]
    exact ht.numRows_pos

theorem length_tableCells : (tableCells q j).length = (q.map Table.numRows).sum := by
  induction q with
  | nil => rfl
  | cons t ts ih =>
    have ht := hq t mem_cons_self
    rw [tableCells, flatMap_cons, length_append, ← tableCells,
      ih fun t' ht' => hq t' (mem_cons_of_mem _ ht'),
      Table.length_flatten_chunks (ht.length_columns ▸ hj), map_cons,
      sum_cons]

end

/-! ## One column -/

/-- The current chunk of a column at the front of its queue. -/
def frontOf (o : ColumnOffset) (c : ChunkState) (t : Table V) (s : List (Option V)) : Front V :=
  ⟨o, c, s, (t.chunks o.colIndex).length⟩

section Column

variable {o : ColumnOffset} {c : ChunkState} {t : Table V} {ts : List (Table V)}
  {s : List (Option V)} {m : ℕ}

theorem front_eq {tables : ℕ → List (Table V)} {chunkStates : ℕ → ChunkState} {k : ℕ}
    (htables : tables o.pathIndex = t :: ts) (hlt : o.colIndex < t.columns.length)
    (hs : (t.chunks o.colIndex)[(chunkStates k).chunk]? = some s) :
    front tables chunkStates (o, k) = .ok (frontOf o (chunkStates k) t s) := by
  have hcol := getElem?_eq_getElem hlt
  have hchunks := Table.chunks_of_getElem? hcol
  rw [hchunks] at hs
  simp [front, htables, hcol, hs, frontOf, hchunks]

/-- A column leaves its table exactly when nothing of the table is left. -/
theorem Front.finished_iff (hlast : (t.chunks o.colIndex).getLast? ≠ some [])
    (h : Segments.Within (t.chunks o.colIndex) c s) (hm : m ≤ (frontOf o c t s).remaining) :
    (frontOf o c t s).finished m = true ↔ (Segments.rest (t.chunks o.colIndex) c).length = m := by
  rw [← Segments.chunk_step_eq_length_iff hlast h hm]
  exact decide_eq_true_iff

theorem Front.slice_eq (ts : List (Table V)) (h : Segments.Within (t.chunks o.colIndex) c s)
    (hm : m ≤ (frontOf o c t s).remaining) :
    ∃ column, (frontOf o c t s).slice m = .ok column ∧
      column.1 = (queued (t :: ts) c o.colIndex).take m := by
  have hlen : ((s.drop c.offset).take m).length = m := by
    rw [length_take, length_drop]
    exact min_eq_left hm
  have hle : m ≤ (Segments.rest (t.chunks o.colIndex) c).length :=
    hm.trans (Segments.length_sub_le h)
  refine ⟨⟨_, hlen⟩, dif_pos hlen, ?_⟩
  rw [queued, take_append_of_le_length hle, Segments.take_rest h hm]

/-- What is queued after a slice. -/
theorem queued_next {n : ℕ} (hq : ∀ t' ∈ t :: ts, t'.Regular n) (hlt : o.colIndex < n)
    (h : Segments.Within (t.chunks o.colIndex) c s) (hm : m ≤ (frontOf o c t s).remaining) :
    let f := frontOf o c t s
    let q := if f.finished m then ts else t :: ts
    queued q (f.next m) o.colIndex = (queued (t :: ts) c o.colIndex).drop m ∧
      Fits q (f.next m) o.colIndex := by
  have hlast := (hq t mem_cons_self).getLast?_ne o.colIndex
  have hfin := Front.finished_iff hlast h hm
  have hle : m ≤ (Segments.rest (t.chunks o.colIndex) c).length :=
    hm.trans (Segments.length_sub_le h)
  dsimp only
  rw [Front.next]
  split_ifs with hf
  · -- the table is used up
    have hlen := hfin.mp hf
    refine ⟨?_, fits_zero (fun t' ht' => hq t' (mem_cons_of_mem _ ht')) hlt⟩
    rw [queued_zero, queued, drop_append_of_le_length hle, drop_eq_nil_of_le (by omega), nil_append]
  · have hlen : m < (Segments.rest (t.chunks o.colIndex) c).length :=
      lt_of_le_of_ne hle fun heq => hf (hfin.mpr heq.symm)
    refine ⟨?_, Segments.exists_within_step h hm hlen⟩
    rw [queued, queued, drop_append_of_le_length hle]
    congr 1
    exact Segments.rest_step h hm

end Column

/-! ## All columns -/

section Columns

variable (columnOffsets : List ColumnOffset) (chunkStates : ℕ → ChunkState)
  (tables : ℕ → List (Table V))

/-- Every column has cells queued, and the columns of a path agree on their number. -/
structure Sliceable : Prop where
  tables_ne_nil : ∀ (k : ℕ) o, columnOffsets[k]? = some o → tables o.pathIndex ≠ []
  regular : ∀ (k : ℕ) o, columnOffsets[k]? = some o →
    ∃ n, o.colIndex < n ∧ ∀ t ∈ tables o.pathIndex, t.Regular n
  fits : ∀ (k : ℕ) o, columnOffsets[k]? = some o →
    Fits (tables o.pathIndex) (chunkStates k) o.colIndex
  length_queued_eq : ∀ (k : ℕ) o (k' : ℕ) o', columnOffsets[k]? = some o →
    columnOffsets[k']? = some o' → o.pathIndex = o'.pathIndex →
    (queued (tables o.pathIndex) (chunkStates k) o.colIndex).length =
      (queued (tables o'.pathIndex) (chunkStates k') o'.colIndex).length

/-- The chunks of the front tables that are not used up. -/
def chunksLeft : ℕ :=
  ∑ k ∈ Finset.range columnOffsets.length,
    match columnOffsets[k]? with
    | none => 0
    | some o =>
      match tables o.pathIndex with
      | [] => 0
      | t :: _ => (t.chunks o.colIndex).length - (chunkStates k).chunk

/-- The slice takes its rows from the front of every column. -/
structure Sliced (chunksize : ℕ) (slice : Slice V) : Prop where
  numRows_le : slice.batch.numRows ≤ chunksize
  length_columns : slice.batch.columns.length = columnOffsets.length
  column_eq : ∀ (k : ℕ) o, columnOffsets[k]? = some o → slice.batch.column k =
    (queued (tables o.pathIndex) (chunkStates k) o.colIndex).take slice.batch.numRows
  queued_eq : ∀ (k : ℕ) o, columnOffsets[k]? = some o →
    queued (slice.tables o.pathIndex) (slice.chunkStates k) o.colIndex =
      (queued (tables o.pathIndex) (chunkStates k) o.colIndex).drop slice.batch.numRows
  fits : ∀ (k : ℕ) o, columnOffsets[k]? = some o →
    Fits (slice.tables o.pathIndex) (slice.chunkStates k) o.colIndex
  tables_subset : ∀ p, slice.tables p ⊆ tables p
  chunksLeft_lt : 0 < chunksize → slice.batch.numRows = 0 →
    chunksLeft columnOffsets slice.chunkStates slice.tables <
      chunksLeft columnOffsets chunkStates tables

variable {columnOffsets chunkStates tables}

/-- A column at the front of its queue. -/
structure IsFront (chunkStates : ℕ → ChunkState) (tables : ℕ → List (Table V)) (k : ℕ)
    (o : ColumnOffset) (t : Table V) (ts : List (Table V)) (s : List (Option V)) : Prop where
  tables_eq : tables o.pathIndex = t :: ts
  within : Segments.Within (t.chunks o.colIndex) (chunkStates k) s

variable {k : ℕ} {o : ColumnOffset}

section

variable (h : Sliceable columnOffsets chunkStates tables)

include h

theorem Sliceable.exists_isFront (hk : columnOffsets[k]? = some o) :
    ∃ t ts s, IsFront chunkStates tables k o t ts s := by
  obtain ⟨t, ts, hq⟩ := exists_cons_of_ne_nil (h.tables_ne_nil k o hk)
  have hfits := h.fits k o hk
  rw [hq] at hfits
  obtain ⟨s, hs⟩ := hfits
  exact ⟨t, ts, s, hq, hs⟩

/-- The current chunks of all columns. -/
theorem Sliceable.fronts_ok :
    ∃ fronts, columnOffsets.zipIdx.mapM (front tables chunkStates) = .ok fronts ∧
      (∀ (k : ℕ) o t ts s, columnOffsets[k]? = some o → IsFront chunkStates tables k o t ts s →
        fronts[k]? = some (frontOf o (chunkStates k) t s)) ∧
      ∀ f ∈ fronts, ∃ (k : ℕ) (o : ColumnOffset) (t : Table V) (ts : List (Table V))
        (s : List (Option V)), columnOffsets[k]? = some o ∧
          IsFront chunkStates tables k o t ts s ∧ f = frontOf o (chunkStates k) t s := by
  have hfront : ∀ (k : ℕ) o t ts s, columnOffsets[k]? = some o →
      IsFront chunkStates tables k o t ts s →
      front tables chunkStates (o, k) = .ok (frontOf o (chunkStates k) t s) := by
    intro k o t ts s hk hs
    obtain ⟨n, hlt, hn⟩ := h.regular k o hk
    have ht := hn t (hs.tables_eq ▸ mem_cons_self)
    exact front_eq hs.tables_eq (ht.length_columns.symm ▸ hlt) hs.within.getElem?_eq
  obtain ⟨fronts, hok⟩ : ∃ fronts,
      columnOffsets.zipIdx.mapM (front tables chunkStates) = .ok fronts := by
    apply exists_mapM_ok
    rintro ⟨o, k⟩ hentry
    have hk := mem_zipIdx_iff_getElem?.mp hentry
    obtain ⟨t, ts, s, hs⟩ := h.exists_isFront hk
    exact ⟨_, hfront k o t ts s hk hs⟩
  have hget : ∀ (k : ℕ) o t ts s, columnOffsets[k]? = some o →
      IsFront chunkStates tables k o t ts s →
      fronts[k]? = some (frontOf o (chunkStates k) t s) := by
    intro k o t ts s hk hs
    have hzip : columnOffsets.zipIdx[k]? = some (o, k) := by
      rw [getElem?_zipIdx, hk, Option.map_some, zero_add]
    obtain ⟨f, hf, hok'⟩ := getElem?_of_mapM_ok hok hzip
    rw [hfront k o t ts s hk hs] at hok'
    rw [hf, ok.inj hok']
  refine ⟨fronts, hok, hget, fun f hf => ?_⟩
  obtain ⟨k, hk⟩ := mem_iff_getElem?.mp hf
  have hlt : k < columnOffsets.length := by
    have := length_of_mapM_ok hok
    rw [length_zipIdx] at this
    rw [← this]
    exact lt_of_getElem? hk
  have ho := getElem?_eq_getElem hlt
  obtain ⟨t, ts, s, hs⟩ := h.exists_isFront ho
  refine ⟨k, _, t, ts, s, ho, hs, ?_⟩
  rw [hget k _ t ts s ho hs] at hk
  exact (Option.some.inj hk).symm

/-- The columns of a path leave their table together. -/
theorem Sliceable.finished_iff {m k' : ℕ} {o' : ColumnOffset} {t t' : Table V}
    {ts ts' : List (Table V)} {s s' : List (Option V)} (hk : columnOffsets[k]? = some o)
    (hs : IsFront chunkStates tables k o t ts s) (hk' : columnOffsets[k']? = some o')
    (hs' : IsFront chunkStates tables k' o' t' ts' s')
    (hm : m ≤ (frontOf o (chunkStates k) t s).remaining)
    (hm' : m ≤ (frontOf o' (chunkStates k') t' s').remaining) (hpath : o.pathIndex = o'.pathIndex) :
    (frontOf o (chunkStates k) t s).finished m = true ↔
      (frontOf o' (chunkStates k') t' s').finished m = true := by
  have hq := hs.tables_eq
  have hq' := hs'.tables_eq
  obtain ⟨n, hlt, hn⟩ := h.regular k o hk
  obtain ⟨n', hlt', hn'⟩ := h.regular k' o' hk'
  have hlen := h.length_queued_eq k o k' o' hk hk' hpath
  rw [hq] at hn
  rw [hq'] at hn'
  rw [hpath, hq'] at hq
  obtain ⟨rfl, rfl⟩ := cons.inj hq
  have hts : ∀ u ∈ ts', u.Regular n := fun u hu => hn u (mem_cons_of_mem _ hu)
  have hts' : ∀ u ∈ ts', u.Regular n' := fun u hu => hn' u (mem_cons_of_mem _ hu)
  rw [hs.tables_eq, hq', queued, queued, length_append, length_append,
    length_tableCells hts hlt, length_tableCells hts' hlt'] at hlen
  have ht := hn t' mem_cons_self
  rw [Front.finished_iff (ht.getLast?_ne _) hs.within hm,
    Front.finished_iff (ht.getLast?_ne _) hs'.within hm']
  omega

end

/-- What the slice does to one column. -/
structure Moved (chunkStates : ℕ → ChunkState) (slice : Slice V) (k : ℕ) (o : ColumnOffset)
    (t : Table V) (ts : List (Table V)) (s : List (Option V)) : Prop where
  numRows_le : slice.batch.numRows ≤ (frontOf o (chunkStates k) t s).remaining
  column_eq : slice.batch.column k =
    (queued (t :: ts) (chunkStates k) o.colIndex).take slice.batch.numRows
  chunkStates_eq : slice.chunkStates k = (frontOf o (chunkStates k) t s).next slice.batch.numRows
  tables_eq : slice.tables o.pathIndex =
    if (frontOf o (chunkStates k) t s).finished slice.batch.numRows then ts else t :: ts

section

variable (h : Sliceable columnOffsets chunkStates tables)

include h

theorem Sliceable.slice_ok (chunksize : ℕ) : ∃ slice,
      sliceChunksByMaxContiguousSlice columnOffsets chunkStates tables chunksize = .ok slice ∧
      slice.batch.numRows ≤ chunksize ∧ slice.batch.columns.length = columnOffsets.length ∧
      (∀ p, slice.tables p ⊆ tables p) ∧
      (∀ (k : ℕ) o t ts s, columnOffsets[k]? = some o → IsFront chunkStates tables k o t ts s →
        Moved chunkStates slice k o t ts s) ∧
      (0 < chunksize → slice.batch.numRows = 0 → ∃ (k : ℕ) (o : ColumnOffset) (t : Table V)
        (ts : List (Table V)) (s : List (Option V)), columnOffsets[k]? = some o ∧
          IsFront chunkStates tables k o t ts s ∧
            (frontOf o (chunkStates k) t s).remaining = 0) := by
  obtain ⟨fronts, hfronts, hget, hmem⟩ := h.fronts_ok
  have hlen := length_of_mapM_ok hfronts
  rw [length_zipIdx] at hlen
  generalize hm : maxContiguous fronts chunksize = m
  have hle : ∀ f ∈ fronts, m ≤ f.remaining := fun f hf => hm ▸ foldl_min_le Front.remaining hf _
  obtain ⟨columns, hcols⟩ : ∃ columns, fronts.mapM (fun f => f.slice m) = .ok columns := by
    apply exists_mapM_ok
    intro f hf
    obtain ⟨k, o, t, ts, s, hk, hs, rfl⟩ := hmem f hf
    obtain ⟨column, hcol, -⟩ := Front.slice_eq ts hs.within (hle _ hf)
    exact ⟨column, hcol⟩
  refine ⟨.take chunkStates tables fronts columns, ?_, ?_, ?_, fun p => ?_, ?_,
    fun hpos hzero => ?_⟩
  · subst hm
    rw [sliceChunksByMaxContiguousSlice, hfronts, ok_bind]
    dsimp only
    rw [hcols, ok_bind, pure_eq_ok]
  · subst hm
    exact (foldl_min_le_init Front.remaining fronts _).trans (min_le_left ..)
  · exact (length_of_mapM_ok hcols).trans hlen
  · show (if p ∈ _ then (tables p).tail else tables p) ⊆ tables p
    split_ifs
    · exact tail_subset _
    · exact List.Subset.refl _
  · intro k o t ts s hk hs
    have hf := hget k o t ts s hk hs
    have hm' := hle _ (mem_of_getElem? hf)
    refine ⟨hm', ?_, ?_, ?_⟩
    · obtain ⟨column, hcol, hslice⟩ := getElem?_of_mapM_ok hcols hf
      obtain ⟨column', hslice', htake⟩ := Front.slice_eq ts hs.within hm'
      rw [hslice'] at hslice
      cases hslice
      rwa [RecordBatch.column_of_getElem? hcol]
    · show (fronts[k]?.map _).getD _ = _
      rw [hf]
      rfl
    · have hpop : o.pathIndex ∈
            (fronts.filter fun f => f.finished m).map (fun f => f.offset.pathIndex) ↔
          (frontOf o (chunkStates k) t s).finished m = true := by
        rw [mem_map]
        constructor
        · rintro ⟨f, hf, hpath⟩
          obtain ⟨hf, hfin⟩ := mem_filter.mp hf
          obtain ⟨k', o', t', ts', s', hk', hs', rfl⟩ := hmem f hf
          exact (h.finished_iff hk hs hk' hs' hm' (hle _ hf) hpath.symm).mpr hfin
        · intro hfin
          exact ⟨_, mem_filter.mpr ⟨mem_of_getElem? hf, hfin⟩, rfl⟩
      show (if o.pathIndex ∈ _ then (tables _).tail else tables _) = _
      rw [hs.tables_eq]
      exact if_congr hpop rfl rfl
  · obtain hmin | ⟨f, hf, hmin⟩ :=
      foldl_min_eq Front.remaining fronts (min chunksize defaultReadBatchSize)
    · have hzero' : min chunksize defaultReadBatchSize = 0 := hmin.symm.trans (hm.trans hzero)
      rw [defaultReadBatchSize] at hzero'
      omega
    · obtain ⟨k, o, t, ts, s, hk, hs, rfl⟩ := hmem f hf
      exact ⟨k, o, t, ts, s, hk, hs, hmin.symm.trans (hm.trans hzero)⟩

/-- A slice without rows uses up an empty chunk. -/
theorem Sliceable.chunksLeft_lt {slice : Slice V}
    (hmoved : ∀ (k : ℕ) o t ts s, columnOffsets[k]? = some o →
      IsFront chunkStates tables k o t ts s → Moved chunkStates slice k o t ts s)
    (hzero : slice.batch.numRows = 0) {t : Table V} {ts : List (Table V)} {s : List (Option V)}
    (hk : columnOffsets[k]? = some o) (hs : IsFront chunkStates tables k o t ts s)
    (hempty : (frontOf o (chunkStates k) t s).remaining = 0) :
    chunksLeft columnOffsets slice.chunkStates slice.tables <
      chunksLeft columnOffsets chunkStates tables := by
  have hstep : ∀ (k : ℕ) o t ts s, columnOffsets[k]? = some o →
      IsFront chunkStates tables k o t ts s → slice.tables o.pathIndex = t :: ts ∧
        slice.chunkStates k = Segments.step s (chunkStates k) 0 := by
    intro k o t ts s hk hs
    have hmove := hmoved k o t ts s hk hs
    obtain ⟨n, -, hn⟩ := h.regular k o hk
    have ht := hn t (hs.tables_eq ▸ mem_cons_self)
    have hnot : (frontOf o (chunkStates k) t s).finished 0 = false := by
      rw [Bool.eq_false_iff, ne_eq, Front.finished_iff (ht.getLast?_ne _) hs.within (Nat.zero_le _)]
      exact fun hlen => hs.within.rest_ne_nil (eq_nil_of_length_eq_zero hlen)
    have htables := hmove.tables_eq
    have hstates := hmove.chunkStates_eq
    rw [hzero, hnot] at htables
    rw [hzero, Front.next, hnot] at hstates
    exact ⟨htables, hstates⟩
  have hchunk : ∀ (c : ChunkState) (s : List (Option V)),
      c.chunk ≤ (Segments.step s c 0).chunk := by
    intro c s
    unfold Segments.step
    split_ifs
    · exact Nat.le_succ _
    · exact le_rfl
  apply sum_lt_sum
  · intro i hi
    have ho := getElem?_eq_getElem (mem_range.mp hi)
    obtain ⟨t, ts, s, hs⟩ := h.exists_isFront ho
    obtain ⟨htables, hstates⟩ := hstep i _ t ts s ho hs
    simp only [ho, hs.tables_eq, htables, hstates]
    exact Nat.sub_le_sub_left (hchunk _ _) _
  · refine ⟨k, mem_range.mpr (lt_of_getElem? hk), ?_⟩
    obtain ⟨htables, hstates⟩ := hstep k o t ts s hk hs
    have hlt := lt_of_getElem? hs.within.getElem?_eq
    have hnext : Segments.step s (chunkStates k) 0 = ⟨(chunkStates k).chunk + 1, 0⟩ := if_pos hempty
    simp only [hk, hs.tables_eq, htables, hstates, hnext]
    omega

/-- **A slice** takes its rows from the front of every column. -/
theorem Sliceable.sliced (chunksize : ℕ) : ∃ slice,
      sliceChunksByMaxContiguousSlice columnOffsets chunkStates tables chunksize = .ok slice ∧
      Sliced columnOffsets chunkStates tables chunksize slice := by
  obtain ⟨slice, hok, hle, hlen, hsub, hmoved, hzero⟩ := h.slice_ok chunksize
  have hnext : ∀ (k : ℕ) o, columnOffsets[k]? = some o →
      queued (slice.tables o.pathIndex) (slice.chunkStates k) o.colIndex =
        (queued (tables o.pathIndex) (chunkStates k) o.colIndex).drop slice.batch.numRows ∧
      Fits (slice.tables o.pathIndex) (slice.chunkStates k) o.colIndex := by
    intro k o hk
    obtain ⟨t, ts, s, hs⟩ := h.exists_isFront hk
    obtain ⟨n, hlt, hn⟩ := h.regular k o hk
    have hmove := hmoved k o t ts s hk hs
    rw [hmove.tables_eq, hmove.chunkStates_eq, hs.tables_eq]
    exact queued_next (hs.tables_eq ▸ hn) hlt hs.within hmove.numRows_le
  refine ⟨slice, hok, hle, hlen, fun k o hk => ?_, fun k o hk => (hnext k o hk).1,
    fun k o hk => (hnext k o hk).2, hsub, fun hpos hm => ?_⟩
  · obtain ⟨t, ts, s, hs⟩ := h.exists_isFront hk
    rw [hs.tables_eq]
    exact (hmoved k o t ts s hk hs).column_eq
  · obtain ⟨k, o, t, ts, s, hk, hs, hempty⟩ := hzero hpos hm
    exact h.chunksLeft_lt hmoved hm hk hs hempty

end

end Columns

end MilvusStorage.Packed
