import MilvusStorage.Parquet.Ranges

/-!
# Selected rows of a parquet file

`take` finds the row group of every row, decodes these row groups once, and copies the rows out of
their concatenation. As the rows increase, so do the row groups, and adjacent duplicates are all the
duplicates there are. The row group of a row starts in the table at its base offset
(`baseOffsets_spec`).
-/

namespace MilvusStorage.Parquet

open Except List Format Tiling Function

variable {Row : Type}

namespace ParquetFormatReader

variable {f : ParquetFormatReader Row} {rows : List Row}

/-! ## Row groups of rows -/

/-- The row group with this index contains the row. -/
def Holds (f : ParquetFormatReader Row) (x : ℤ) (c : ℕ) : Prop :=
  ∃ rg, f.rowGroupInfos[c]? = some rg ∧ rg.startOffset ≤ x ∧ x < rg.startOffset + rg.numRows

namespace Decodes

variable {x : ℤ}

section

variable (h : f.Decodes rows)
include h

theorem chunkIndex_ok (hx : 0 ≤ x) (hlt : x < rows.length) :
    ∃ c, f.chunkIndex x = .ok c ∧ f.upperBound x = c + 1 ∧ f.Holds x c := by
  have hrows := h.lt
  have hunsigned : toUnsigned 64 x = x.toNat := toUnsigned_of_nonneg hx (by omega)
  obtain ⟨c, rg, hbound, hget, hstart, hend⟩ :=
    h.contiguous.chained.findIdx_start (Nat.zero_le x.toNat) (by omega) fun _ _ => rfl
  have hupper : f.upperBound x = c + 1 := by
    rwa [upperBound, hunsigned]
  have hrg := h.endOffset_eq (mem_of_getElem? hget)
  refine ⟨c, ?_, hupper, rg, hget, by omega, by omega⟩
  rw [chunkIndex, hupper]
  simp only [hget]
  rw [if_pos (by omega)]

/-- A row that is not in the file is refused. -/
theorem chunkIndex_error (hle : -2 ^ 63 ≤ x) (hlt : x < 2 ^ 63) (hx : ¬(0 ≤ x ∧ x < rows.length)) :
    ∃ s, f.chunkIndex x = .error (.status s) := by
  have hunsigned : rows.length ≤ toUnsigned 64 x := by
    have := h.lt
    rw [toUnsigned]
    omega
  rw [chunkIndex]
  cases hupper : f.upperBound x with
  | zero => exact ⟨_, rfl⟩
  | succ prev =>
    have hprev : prev < f.rowGroupInfos.length := by
      have : f.upperBound x ≤ f.rowGroupInfos.length := findIdx_le_length
      omega
    have hend := (h.endOffset_eq (getElem_mem hprev)).2
    simp only [getElem?_eq_getElem hprev]
    rw [if_neg (by omega)]
    exact ⟨_, rfl⟩

theorem returns_chunkIndex (hle : -2 ^ 63 ≤ x) (hlt : x < 2 ^ 63) : Returns (f.chunkIndex x) := by
  by_cases hx : 0 ≤ x ∧ x < rows.length
  · obtain ⟨c, hc, -⟩ := h.chunkIndex_ok hx.1 hx.2
    rw [hc]
    exact returns_ok c
  · obtain ⟨s, hs⟩ := h.chunkIndex_error hle hlt hx
    rw [hs]
    exact returns_status s

theorem getChunkIndices_error {xs : List ℤ} (hxs : ∀ x ∈ xs, -2 ^ 63 ≤ x ∧ x < 2 ^ 63)
    (hbad : ∃ x ∈ xs, ¬(0 ≤ x ∧ x < rows.length)) :
    ∃ s, f.getChunkIndices xs = .error (.status s) := by
  have hreturns : Returns (f.getChunkIndices xs) :=
    Returns.mapM fun x hx => h.returns_chunkIndex (hxs x hx).1 (hxs x hx).2
  cases hcs : f.getChunkIndices xs with
  | error e =>
    obtain ⟨s, rfl⟩ := hreturns e hcs
    exact ⟨s, rfl⟩
  | ok cs =>
    obtain ⟨x, hx, hout⟩ := hbad
    obtain ⟨s, hs⟩ := h.chunkIndex_error (hxs x hx).1 (hxs x hx).2 hout
    obtain ⟨i, hi⟩ := mem_iff_getElem?.mp hx
    obtain ⟨c, -, hc⟩ := getElem?_of_mapM_ok hcs hi
    exact nomatch hs.symm.trans hc

end

/-- The row group of a row of the file. -/
def chunkOf (f : ParquetFormatReader Row) (x : ℤ) : ℕ := f.upperBound x - 1

theorem chunkOf_spec (h : f.Decodes rows) (hx : 0 ≤ x) (hlt : x < rows.length) :
    f.chunkIndex x = .ok (chunkOf f x) ∧ f.Holds x (chunkOf f x) := by
  obtain ⟨c, hc, hupper, hholds⟩ := h.chunkIndex_ok hx hlt
  obtain rfl : c = chunkOf f x := by
    simp [chunkOf, hupper]
  exact ⟨hc, hholds⟩

theorem chunkOf_le (h : f.Decodes rows) {y : ℤ} (hx : 0 ≤ x) (hy : y < rows.length) (hle : x ≤ y) :
    chunkOf f x ≤ chunkOf f y := by
  have hrows := h.lt
  apply Nat.sub_le_sub_right
  apply findIdx_le_findIdx
  intro rg _ hlt
  rw [decide_eq_true_iff] at hlt ⊢
  rw [toUnsigned_of_nonneg (by omega) (by omega)] at hlt ⊢
  omega

end Decodes

/-! ## Base offsets -/

theorem mem_unique {c : ℕ} {cs : List ℕ} : c ∈ unique cs ↔ c ∈ cs := by
  induction cs using unique.induct with
  | case1 => rfl
  | case2 d => rfl
  | case3 d cs ih =>
    rw [unique, if_pos rfl, ih]
    simp
  | case4 d e cs hne ih => rw [unique, if_neg hne, mem_cons, ih, ← mem_cons]

/-- In a list that does not decrease, equal entries are adjacent. -/
theorem pairwise_unique {cs : List ℕ} (h : cs.Pairwise (· ≤ ·)) : (unique cs).Pairwise (· < ·) := by
  induction cs using unique.induct with
  | case1 => exact .nil
  | case2 d => exact pairwise_singleton ..
  | case3 d cs ih =>
    rw [unique, if_pos rfl]
    exact ih h.tail
  | case4 d e cs hne ih =>
    rw [unique, if_neg hne]
    refine pairwise_cons.mpr ⟨fun c hc => ?_, ih h.tail⟩
    have hde := (pairwise_cons.mp h).1 e mem_cons_self
    obtain rfl | hc := mem_cons.mp (mem_unique.mp hc)
    · omega
    · have := (pairwise_cons.mp h.tail).1 c hc
      omega

namespace Decodes

theorem startOffset_le (h : f.Decodes rows) {c d : ℕ} (hlt : c < d) {rg rg' : RowGroupInfo}
    (hrg : f.rowGroupInfos[c]? = some rg) (hrg' : f.rowGroupInfos[d]? = some rg') :
    rg.startOffset + rg.numRows ≤ rg'.startOffset :=
  h.contiguous.chained.pairwise.rel_of_getElem? hrg hrg' hlt

/-- The rows before a row group in the table are no more than those before it in the file. -/
theorem baseOffsets_spec (h : f.Decodes rows) {us : List ℕ} (hus : us.Pairwise (· < ·))
    (hrange : ∀ c ∈ us, c < f.rowGroupInfos.length) (before : List Row)
    (hbefore : ∀ c ∈ us, ∀ rg, f.rowGroupInfos[c]? = some rg → before.length ≤ rg.startOffset)
    (offsets : ℕ → ℤ) :
    ∃ offsets', f.baseOffsets before.length us offsets = .ok offsets' ∧
      (∀ c, c ∉ us → offsets' c = offsets c) ∧
      ∀ c ∈ us, ∀ rg, f.rowGroupInfos[c]? = some rg → ∃ base : ℕ, offsets' c = base ∧
        base ≤ rg.startOffset ∧ ∀ k < rg.numRows,
          (before ++ us.flatMap (f.rowsAt rows))[base + k]? = rows[rg.startOffset + k]? := by
  induction us generalizing before offsets with
  | nil => exact ⟨offsets, rfl, fun _ _ => rfl, nofun⟩
  | cons c us ih =>
    obtain ⟨hlt, hus⟩ := pairwise_cons.mp hus
    obtain ⟨hc, hrange⟩ := forall_mem_cons.mp hrange
    obtain ⟨hbase, hbefore⟩ := forall_mem_cons.mp hbefore
    have hget := getElem?_eq_getElem hc
    have hbase := hbase _ hget
    have hrg := h.endOffset_eq (getElem_mem hc)
    have hlen := h.length_rowsOf (getElem_mem hc)
    generalize f.rowGroupInfos[c] = rg at hget hbase hrg hlen
    have hat : f.rowsAt rows c = rowsOf rows rg := by
      simp [rowsAt, hget]
    have hrows := h.lt
    have hacc : toSigned 64 (before.length + ((rg.endOffset : ℤ) - rg.startOffset)) =
        (before ++ f.rowsAt rows c).length := by
      have hsum : (before.length + ((rg.endOffset : ℤ) - rg.startOffset)) =
          (before ++ f.rowsAt rows c).length := by
        rw [length_append, hat]
        omega
      rw [hsum, toSigned_of_lt]
      omega
    have hnext : ∀ d ∈ us, ∀ rg', f.rowGroupInfos[d]? = some rg' →
        (before ++ f.rowsAt rows c).length ≤ rg'.startOffset := by
      intro d hd rg' hrg'
      have := h.startOffset_le (hlt d hd) hget hrg'
      rw [length_append, hat]
      omega
    obtain ⟨offsets', hoffs, hother, hspec⟩ :=
      ih hus hrange _ hnext (update offsets c before.length)
    have hnotMem : c ∉ us := fun hmem => lt_irrefl c (hlt c hmem)
    refine ⟨offsets', ?_, ?_, forall_mem_cons.mpr ⟨?_, ?_⟩⟩
    · rw [baseOffsets, hget]
      simp only [hacc]
      exact hoffs
    · intro d hd
      rw [hother d fun hmem => hd (mem_cons_of_mem _ hmem), update_of_ne]
      rintro rfl
      exact hd mem_cons_self
    · intro rg' hrg'
      cases hget.symm.trans hrg'
      refine ⟨before.length, by rw [hother c hnotMem, update_self], hbase, ?_⟩
      intro k hk
      rw [flatMap_cons, hat, getElem?_append_right (by omega),
        Nat.add_sub_cancel_left, getElem?_append_left (by omega), rowsOf,
        getElem?_take_of_lt hk, getElem?_drop]
    · intro d hd rg' hrg'
      rw [flatMap_cons, ← append_assoc]
      exact hspec d hd rg' hrg'

/-! ## The rows -/

variable {xs : List ℤ}

section

variable (h : f.Decodes rows)

include h

theorem mono_chunkOf (hsorted : xs.Pairwise (· < ·)) (hxs : ∀ x ∈ xs, 0 ≤ x ∧ x < rows.length) :
    (xs.map (chunkOf f)).Pairwise (· ≤ ·) := by
  rw [pairwise_map]
  apply hsorted.imp_of_mem
  intro x y hx hy hlt
  exact h.chunkOf_le (hxs x hx).1 (hxs y hy).2 hlt.le

theorem lt_of_mem_chunks (hxs : ∀ x ∈ xs, 0 ≤ x ∧ x < rows.length) {c : ℕ}
    (hc : c ∈ unique (xs.map (chunkOf f))) :
    c < f.rowGroupInfos.length := by
  obtain ⟨x, hx, rfl⟩ := mem_map.mp (mem_unique.mp hc)
  obtain ⟨rg, hrg, -⟩ := (h.chunkOf_spec (hxs x hx).1 (hxs x hx).2).2
  exact lt_of_getElem? hrg

section

variable (hsorted : xs.Pairwise (· < ·)) (hxs : ∀ x ∈ xs, 0 ≤ x ∧ x < rows.length)
include hsorted hxs

/-- Where each row is in the table of the row groups. -/
theorem exists_places {all : List Row}
    (hall : all = (unique (xs.map (chunkOf f))).flatMap (f.rowsAt rows)) :
    ∃ (offsets : ℕ → ℤ) (place : ℤ → ℕ),
      f.baseOffsets 0 (unique (xs.map (chunkOf f))) (fun _ => 0) = .ok offsets ∧
      ∀ x ∈ xs, f.tableTakeIndex offsets x (chunkOf f x) = .ok (place x : ℤ) ∧
        all[place x]? = rows[x.toNat]? := by
  obtain ⟨offsets, hoffs, -, hspec⟩ :=
    h.baseOffsets_spec (pairwise_unique (h.mono_chunkOf hsorted hxs))
      (fun c => h.lt_of_mem_chunks hxs) [] (fun _ _ rg _ => Nat.zero_le _) fun _ => 0
  have hplace : ∀ x ∈ xs, ∃ i : ℕ, f.tableTakeIndex offsets x (chunkOf f x) = .ok (i : ℤ) ∧
      all[i]? = rows[x.toNat]? := by
    intro x hx
    obtain ⟨rg, hrg, hstart, hend⟩ := (h.chunkOf_spec (hxs x hx).1 (hxs x hx).2).2
    obtain ⟨base, hbase, hle, hget⟩ := hspec (chunkOf f x)
      (mem_unique.mpr (mem_map_of_mem hx)) rg hrg
    have hlt := h.lt
    have hx' := hxs x hx
    refine ⟨base + (x.toNat - rg.startOffset), ?_, ?_⟩
    · have hsum : (base : ℤ) + (x - rg.startOffset) =
          (base + (x.toNat - rg.startOffset) : ℕ) := by
        omega
      simp only [tableTakeIndex, hrg, hbase]
      rw [hsum, toSigned_of_lt (by omega)]
    · rw [hall, ← nil_append (flatMap ..), hget _ (by omega)]
      congr 1
      omega
  choose! place hplace using hplace
  exact ⟨offsets, place, hoffs, hplace⟩

/-- The rows are copied out of any table of their row groups, if the builders take them. -/
theorem takeFromTable_eq {table : List (List Row)}
    (htable : table.flatten = (unique (xs.map (chunkOf f))).flatMap (f.rowsAt rows)) :
    ∃ slices : List (List Row), slices.flatten.map some = (xs.map fun x => rows[x.toNat]?) ∧
      f.takeFromTable xs (xs.map (chunkOf f)) table = (f.build slices).mapError .status := by
  obtain ⟨offsets, place, hoffs, hplace⟩ := h.exists_places hsorted hxs htable
  have hindices : (xs.zip (xs.map (chunkOf f))).mapM
      (fun p => f.tableTakeIndex offsets p.1 p.2) = .ok (xs.map fun x => (place x : ℤ)) := by
    rw [← map_prod_left_eq_zip, mapM_eq_ok_map (g := fun p => (place p.1 : ℤ)), map_map]
    · rfl
    · intro p hp
      obtain ⟨x, hx, rfl⟩ := mem_map.mp hp
      exact (hplace x hx).1
  have hbounds : ∀ i ∈ xs.map fun x => (place x : ℤ), 0 ≤ i ∧ i < table.flatten.length := by
    intro i hi
    obtain ⟨x, hx, rfl⟩ := mem_map.mp hi
    have hx' := hxs x hx
    have hsome : x.toNat < rows.length := by omega
    have hget := (hplace x hx).2
    rw [getElem?_eq_getElem hsome] at hget
    have := lt_of_getElem? hget
    omega
  obtain ⟨slices, hslices, hres⟩ := copyRuns_eq hbounds
  refine ⟨slices, ?_, ?_⟩
  · rw [hres, map_map]
    apply map_congr_left
    intro x hx
    exact (hplace x hx).2
  · rw [takeFromTable, hoffs, ok_bind, hindices, ok_bind, copySelectedRows,
      find?_outOfBounds.mpr hbounds]
    dsimp only
    rw [mapM_cons, copyColumn, hslices, ok_bind]
    cases f.build slices with
    | error s => rfl
    | ok cells => simp [Except.mapError, ok_bind, pure_eq_ok]

end

theorem getChunkIndices_ok (hxs : ∀ x ∈ xs, 0 ≤ x ∧ x < rows.length) :
    f.getChunkIndices xs = .ok (xs.map (chunkOf f)) := by
  apply mapM_eq_ok_map
  intro x hx
  exact (h.chunkOf_spec (hxs x hx).1 (hxs x hx).2).1

section

variable (hsorted : xs.Pairwise (· < ·)) (hxs : ∀ x ∈ xs, 0 ≤ x ∧ x < rows.length)
include hsorted hxs

theorem take_eq :
    ∃ slices : List (List Row), slices.flatten.map some = (xs.map fun x => rows[x.toNat]?) ∧
      f.take xs = (f.build slices).mapError .status := by
  obtain ⟨table, hread, htable⟩ := h.readRowGroups _ fun c => h.lt_of_mem_chunks hxs
  rw [take, h.getChunkIndices_ok hxs, ok_bind, hread, ok_bind]
  exact h.takeFromTable_eq hsorted hxs htable

theorem takeAsync_eq (hne : xs ≠ []) :
    ∃ slices : List (List Row), slices.flatten.map some = (xs.map fun x => rows[x.toNat]?) ∧
      f.takeAsync xs = (f.build slices).mapError .status := by
  obtain ⟨bs, hcollect, hgen⟩ := h.collectGenerator _ fun c => h.lt_of_mem_chunks hxs
  have hflat : bs.flatten = (unique (xs.map (chunkOf f))).flatMap (f.rowsAt rows) := by
    rw [hgen.flatten_eq, flatMap_def]
  have hbs : bs ≠ [] := by
    -- the row group of a row is not empty
    rintro rfl
    obtain ⟨x, hx⟩ := exists_mem_of_ne_nil xs hne
    obtain ⟨rg, hrg, hstart, hend⟩ := (h.chunkOf_spec (hxs x hx).1 (hxs x hx).2).2
    have hnil := flatMap_eq_nil_iff.mp hflat.symm (chunkOf f x) (mem_unique.mpr (mem_map_of_mem hx))
    have hlen := h.length_rowsOf (mem_of_getElem? hrg)
    rw [rowsAt, hrg, Option.elim_some] at hnil
    rw [hnil, length_nil] at hlen
    omega
  rw [takeAsync, h.getChunkIndices_ok hxs, ok_bind, hcollect, ok_bind,
    fromRecordBatches, if_neg hbs, ok_bind]
  exact h.takeFromTable_eq hsorted hxs hflat

end

theorem take_error (hxs : ∀ x ∈ xs, -2 ^ 63 ≤ x ∧ x < 2 ^ 63)
    (hbad : ∃ x ∈ xs, ¬(0 ≤ x ∧ x < rows.length)) :
    (∃ s, f.take xs = .error (.status s)) ∧ ∃ s, f.takeAsync xs = .error (.status s) := by
  obtain ⟨s, hs⟩ := h.getChunkIndices_error hxs hbad
  rw [take, takeAsync, hs]
  exact ⟨⟨s, rfl⟩, ⟨s, rfl⟩⟩

end

end Decodes

/-- **Range reads and takes are exact.** Both range reads return the rows of a range of the file,
and both takes return rows of the file that are in order, if the builders take them. Requests out of
range are refused. -/
theorem requested_rows (f : ParquetFormatReader Row) {rows : List Row} (h : f.Decodes rows) :
    (∀ lo hi : ℕ, lo < hi ∧ hi ≤ rows.length →
      (∃ r bs, f.readWithRange lo hi = .ok r ∧ r.schema = f.projection ∧ r.Yields f bs ∧
        bs.flatten = (rows.drop lo).take (hi - lo)) ∧
      ∃ bs, f.readWithRangeAsync lo hi = .ok (f.projection, bs) ∧
        bs.flatten = (rows.drop lo).take (hi - lo)) ∧
    (∀ lo hi : ℕ, ¬(lo < hi ∧ hi ≤ rows.length) →
      (∃ s, f.readWithRange lo hi = .error (.status s)) ∧
      ∃ s, f.readWithRangeAsync lo hi = .error (.status s)) ∧
    (∀ xs : List ℤ, xs ≠ [] → xs.Pairwise (· < ·) → (∀ x ∈ xs, 0 ≤ x ∧ x < rows.length) →
      (∀ slices, slices.flatten.map some = (xs.map fun x => rows[x.toNat]?) →
        f.build slices = .ok slices.flatten) →
      (∃ result, f.take xs = .ok result ∧ result.map some = xs.map fun x => rows[x.toNat]?) ∧
      ∃ result, f.takeAsync xs = .ok result ∧ result.map some = xs.map fun x => rows[x.toNat]?) ∧
    ∀ xs : List ℤ, (∀ x ∈ xs, -2 ^ 63 ≤ x ∧ x < 2 ^ 63) → (∃ x ∈ xs, ¬(0 ≤ x ∧ x < rows.length)) →
      (∃ s, f.take xs = .error (.status s)) ∧ ∃ s, f.takeAsync xs = .error (.status s) := by
  refine ⟨?_, ?_, ?_, ?_⟩
  · rintro lo hi ⟨hlt, hle⟩
    exact ⟨h.readWithRange_yields hlt hle, h.readWithRangeAsync_eq hlt hle⟩
  · intro lo hi hbad
    exact h.range_error hbad
  · intro xs hne hsorted hxs hbuild
    obtain ⟨slices, hslices, htake⟩ := h.take_eq hsorted hxs
    obtain ⟨slices', hslices', htakeAsync⟩ := h.takeAsync_eq hsorted hxs hne
    rw [hbuild slices hslices] at htake
    rw [hbuild slices' hslices'] at htakeAsync
    exact ⟨⟨_, htake, hslices⟩, ⟨_, htakeAsync, hslices'⟩⟩
  · intro xs hxs hbad
    exact h.take_error hxs hbad

/-- A reader of these row groups. The generator skips the empty ones. -/
def groupReader (groups : List (List ℕ)) (rowGroupInfos : List RowGroupInfo) :
    ParquetFormatReader ℕ where
  path := "p"
  schema := ["a"]
  needed := by decide
  rowGroupInfos := rowGroupInfos
  readRowGroups indices := .ok (indices.map fun i => groups.getD i [])
  collectGenerator indices := .ok ((indices.map fun i => groups.getD i []).filter (· ≠ []))
  tableBatches := id
  build slices := .ok slices.flatten

/-- Three rows in row groups of sizes 2, 0 and 1. -/
def threeRows : ParquetFormatReader ℕ := groupReader [[10, 11], [], [12]]
  [{ startOffset := 0, endOffset := 2, memorySize := 2 },
    { startOffset := 2, endOffset := 2, memorySize := 0 },
    { startOffset := 2, endOffset := 3, memorySize := 1 }]

theorem decodes_threeRows : threeRows.Decodes [10, 11, 12] := by
  have hat : ∀ i < 3, threeRows.rowsAt [10, 11, 12] i = [[10, 11], [], [12]].getD i [] := by decide
  have hmap : ∀ indices : List ℕ, (∀ i ∈ indices, i < 3) →
      indices.map (threeRows.rowsAt [10, 11, 12]) =
        indices.map fun i => [[10, 11], [], [12]].getD i [] := fun indices h =>
    map_congr_left fun i hi => hat i (h i hi)
  refine ⟨⟨by decide, by decide, by decide⟩, by decide, ?_, ?_, fun _ => rfl⟩
  · intro indices h
    exact ⟨_, rfl, by rw [flatMap_def, hmap indices h]⟩
  · intro indices h
    exact ⟨_, rfl, hmap indices h ▸ generates_filter _⟩

theorem requested_rows_threeRows : threeRows.Decodes [10, 11, 12] ∧
    (∃ bs, threeRows.readWithRangeAsync 1 3 = .ok (["a"], bs) ∧ bs.flatten = [11, 12]) ∧
    ∃ result, threeRows.takeAsync [0, 2] = .ok result ∧ result.map some = [some 10, some 12] := by
  have h := requested_rows threeRows decodes_threeRows
  refine ⟨decodes_threeRows, (h.1 1 3 (by decide)).2, (h.2.2.1 [0, 2] (by decide) ?_ ?_ ?_).2⟩
  · decide
  · decide
  · exact fun _ _ => rfl

/-- The same rows with a column of an extension type, which has no builder. -/
def extensionRows : ParquetFormatReader ℕ := { threeRows with
  build := fun _ => .error (.notImplemented "MakeBuilder: cannot construct builder") }

theorem extensionRows_take : extensionRows.Decodes [10, 11, 12] ∧ extensionRows.take [0, 2] =
    .error (.status (.notImplemented "MakeBuilder: cannot construct builder")) := by
  obtain ⟨hrows, hlt, hread, hcollect, hbatches⟩ := decodes_threeRows
  have hdecodes : extensionRows.Decodes [10, 11, 12] := ⟨hrows, hlt, hread, hcollect, hbatches⟩
  have hsorted : [0, 2].Pairwise ((· < ·) : ℤ → ℤ → Prop) := by decide
  obtain ⟨_, -, htake⟩ := hdecodes.take_eq hsorted (by decide)
  exact ⟨hdecodes, htake⟩

end ParquetFormatReader

end MilvusStorage.Parquet
