import Mathlib.Data.List.Sort
import MilvusStorage.Format.Deletions

/-!
# The Iceberg reader of a data file

`IcebergFormatReader` has the reader of a Parquet file and the set of its deleted positions. The
position of a live row is computed as a fixed point: a row is at its logical offset plus the number
of deleted positions up to there.

* `filterBatch_eq`: a batch is filtered by looking up all its positions in the set.
-/

namespace MilvusStorage.Format.Iceberg

open List

variable {Row : Type}

/-! ## The model -/

/-- The reader after `open`. The deleted positions are the elements of an unordered set. -/
structure IcebergFormatReader (Row : Type) where
  inner : PhysicalReader Row
  deletedPositions : List ℤ
  sortedDeletions : List ℤ
  logicalRowGroupInfos : List RowGroupInfo

def filterBatch (deletedPositions : List ℤ) (batch : List Row) (chunkStart : ℕ) : List Row :=
  if deletedPositions = [] then batch
  else
    (batch.zipIdx.filter fun (_, i) => toSigned 64 chunkStart + i ∉ deletedPositions).map Prod.fst

def buildLogicalRowGroupInfos (physical : List RowGroupInfo) (sortedDeletions : List ℤ) :
    Except Fault (List RowGroupInfo) :=
  if sortedDeletions = [] then .ok physical
  else
    logicalRowGroups (fun prg => .invalid ("Invalid physical row group offsets: " ++ prg.render))
      (fun deletions rows => .invalid ("Invalid deletion count for physical row group: " ++
        s!"deletions={deletions}, rows={rows}"))
      (fun prg => Live.lowerBound sortedDeletions (toSigned 64 prg.endOffset) -
        Live.lowerBound sortedDeletions (toSigned 64 prg.startOffset))
      0 physical

def makeSortedDeletions (deletedPositions : List ℤ) : List ℤ :=
  deletedPositions.insertionSort (· ≤ ·)

/-- `open`, after the positional deletes have been loaded. -/
def openReader (inner : PhysicalReader Row) (deletedPositions : List ℤ) :
    Except Fault (IcebergFormatReader Row) := do
  let sortedDeletions := makeSortedDeletions deletedPositions
  let logicalRowGroupInfos ← buildLogicalRowGroupInfos inner.rowGroupInfos sortedDeletions
  return { inner, deletedPositions, sortedDeletions, logicalRowGroupInfos }

/-- The loop of `logical_to_physical`. It is `none` if the loop has not ended after `fuel`
iterations. -/
def searchPhysical (sortedDeletions : List ℤ) (logicalOffset : ℤ) : ℕ → ℤ → Option (Except Fault ℤ)
  | 0, _ => none
  | fuel + 1, physical =>
    let numDels := Live.upperBound sortedDeletions physical
    match int64 (logicalOffset + numDels) with
    | .error e => some (.error e)
    | .ok newPhysical =>
      if newPhysical = physical then some (.ok physical)
      else searchPhysical sortedDeletions logicalOffset fuel newPhysical

/-- `logical_to_physical`. There are no more iterations than deletions, but for the last one. -/
def logicalToPhysical (sortedDeletions : List ℤ) (logicalOffset : ℤ) : Except Fault ℤ :=
  if sortedDeletions = [] then .ok logicalOffset
  else
    (searchPhysical sortedDeletions logicalOffset (sortedDeletions.length + 1)
      logicalOffset).getD (.error .assertionFailed)

section Reads

variable (r : IcebergFormatReader Row)

/-- A row group of the data file, without its deleted rows. -/
def filteredChunk (rowGroupIndex : ℤ) : Except Fault (List Row) := do
  let batch ← r.inner.getChunk rowGroupIndex
  if r.deletedPositions = [] then return batch
  else
    match rowGroup? rowGroupIndex r.inner.rowGroupInfos with
    | none => .error (.status (.invalid s!"Row group index out of range: {rowGroupIndex}"))
    | some prg => return filterBatch r.deletedPositions batch prg.startOffset

def getChunk (rowGroupIndex : ℤ) : Except Fault (List Row) :=
  match rowGroup? rowGroupIndex r.logicalRowGroupInfos with
  | none => filteredChunk r rowGroupIndex
  | some lrg =>
    if lrg.startOffset = lrg.endOffset then .ok [] else filteredChunk r rowGroupIndex

/-- The loop of `get_chunks`. The indices of the row groups are not checked. -/
def filterChunks : List (List Row) → List ℤ → Except Fault (List (List Row))
  | [], _ => .ok []
  | _ :: _, [] => .error .outOfBounds
  | batch :: batches, rgIdx :: rgIndices =>
    match rowGroup? rgIdx r.inner.rowGroupInfos with
    | none => .error .outOfBounds
    | some prg => do
      let filtered ← filterChunks batches rgIndices
      return filterBatch r.deletedPositions batch prg.startOffset :: filtered

def getChunks (rgIndicesInFile : List ℤ) : Except Fault (List (List Row)) := do
  let batches ← r.inner.getChunks rgIndicesInFile
  if r.deletedPositions = [] then return batches
  else filterChunks r batches rgIndicesInFile

def take (rowIndices : List ℤ) : Except Fault (List Row) :=
  if rowIndices = [] then .ok []
  else if r.deletedPositions = [] then r.inner.take rowIndices
  else do
    let physical ← rowIndices.mapM (logicalToPhysical r.sortedDeletions)
    r.inner.take physical

/-- `read_with_range`: the batches of the stream. Arrow's `CombineChunksToBatch` is a parameter. -/
def readWithRange (combineChunks : List (List Row) → Except Fault (List Row))
    (startOffset endOffset : ℕ) : Except Fault (List (List Row)) :=
  if startOffset ≥ endOffset then .ok [[]]
  else if r.deletedPositions = [] then r.inner.readWithRange startOffset endOffset
  else do
    let physicalStart ← logicalToPhysical r.sortedDeletions (toSigned 64 startOffset)
    let lastOffset ← int64 (toSigned 64 endOffset - 1)
    let physicalLast ← logicalToPhysical r.sortedDeletions lastOffset
    let physicalEnd ← int64 (physicalLast + 1)
    let batches ← r.inner.readWithRange (toUnsigned 64 physicalStart) (toUnsigned 64 physicalEnd)
    let batch ← combineChunks batches
    return [filterBatch r.deletedPositions batch (toUnsigned 64 physicalStart)]

end Reads

/-! ## Positions -/

/-- The positions as the reader has them. -/
def int64s (ds : List ℕ) : List ℤ := ds.map fun d : ℕ => (d : ℤ)

@[simp] theorem mem_int64s {ds : List ℕ} {p : ℕ} : (p : ℤ) ∈ int64s ds ↔ p ∈ ds :=
  mem_map_of_injective fun _ _ => Int.ofNat.inj

@[simp] theorem length_int64s (ds : List ℕ) : (int64s ds).length = ds.length := length_map ..

theorem countP_int64s (ds : List ℕ) (b : ℕ) :
    (int64s ds).countP (· < (b : ℤ)) = ds.countP (· < b) := by
  rw [int64s, countP_map]
  exact countP_congr fun d _ => by simp

section Positions

variable {ds : List ℕ} (hds : ds.Pairwise (· < ·))
include hds

theorem pairwise_int64s : (int64s ds).Pairwise (· < ·) := by
  rw [int64s, pairwise_map]
  exact hds.imp fun h => by exact_mod_cast h

theorem lowerBound_int64s (p : ℕ) : Live.lowerBound (int64s ds) p = Live.lowerBound ds p := by
  rw [Live.lowerBound_eq (pairwise_int64s hds), Live.lowerBound_eq hds, countP_int64s]

theorem upperBound_int64s (p : ℕ) : Live.upperBound (int64s ds) p = ds.countP (· ≤ p) := by
  rw [Live.upperBound_eq (pairwise_int64s hds), int64s, countP_map]
  exact countP_congr fun d _ => by simp

theorem upperBound_of_neg {x : ℤ} (hx : x < 0) : Live.upperBound (int64s ds) x = 0 := by
  rw [Live.upperBound_eq (pairwise_int64s hds), countP_eq_zero, int64s, forall_mem_map]
  intro d _
  simp only [decide_eq_true_eq]
  omega

/-- A step of the search does not pass the live row, which is not deleted. -/
theorem add_countP_le_nth {l x : ℕ} (hle : x ≤ Nat.nth (· ∉ ds) l) :
    l + ds.countP (· ≤ x) ≤ Nat.nth (· ∉ ds) l := by
  have hnth := Live.nth_eq (hds.imp fun h => h.ne) l
  have hcount : ds.countP (· ≤ x) ≤ ds.countP (· < Nat.nth (· ∉ ds) l) := by
    refine ds.countP_mono_left fun d hd hdx => ?_
    have hne : d ≠ Nat.nth (· ∉ ds) l := fun heq => Live.notMem_nth ds l (heq ▸ hd)
    simp only [decide_eq_true_eq] at hdx ⊢
    omega
  omega

/-- The search goes up to the position of the live row, unless that is not an `int64_t`. -/
theorem searchPhysical_eq {l x fuel : ℕ} (hle : x ≤ Nat.nth (· ∉ ds) l)
    (hup : x ≤ l + ds.countP (· ≤ x)) (hlt : x < 2 ^ 63) (hfuel : l + ds.length < x + fuel) :
    searchPhysical (int64s ds) l fuel x = some (int64 (Nat.nth (· ∉ ds) l : ℕ)) := by
  induction fuel generalizing x with
  | zero =>
    have := countP_le_length (p := (· ≤ x)) (l := ds)
    omega
  | succ fuel ih =>
    have hnext := add_countP_le_nth hds hle
    have hcast : (l : ℤ) + (ds.countP (· ≤ x) : ℕ) = (l + ds.countP (· ≤ x) : ℕ) := by
      push_cast
      rfl
    rw [searchPhysical, upperBound_int64s hds]
    simp only [hcast]
    by_cases hfits : l + ds.countP (· ≤ x) < 2 ^ 63
    · have hstep : int64 (l + ds.countP (· ≤ x) : ℕ) = .ok (l + ds.countP (· ≤ x) : ℕ) :=
        if_pos ⟨by omega, by exact_mod_cast hfits⟩
      rw [hstep]
      dsimp only
      split_ifs with hfixed
      · have heq : x = Nat.nth (· ∉ ds) l :=
          le_antisymm hle (Live.nth_le (hds.imp fun h => h.ne) (by omega))
        rw [← heq, int64, if_pos ⟨by omega, by exact_mod_cast hlt⟩]
      · refine ih hnext ?_ hfits (by omega)
        have hmono := ds.countP_mono_left (p := (· ≤ x)) (q := (· ≤ l + ds.countP (· ≤ x)))
          fun d _ hd => by
            simp only [decide_eq_true_eq] at hd ⊢
            omega
        omega
    · have hover : ∀ {y : ℕ}, ¬ y < 2 ^ 63 → int64 y = .error .signedOverflow := by
        intro y hy
        refine if_neg fun h => hy ?_
        exact_mod_cast h.2
      rw [hover hfits, hover (by omega)]

/-- The search ends, for every offset. -/
theorem searchPhysical_start {l : ℤ} (hl : IsInt64 l) :
    searchPhysical (int64s ds) l (ds.length + 1) l = some (int64 (physicalOf ds l)) := by
  rw [physicalOf]
  split_ifs with hneg
  · have hself : int64 l = .ok l := if_pos hl
    rw [searchPhysical, upperBound_of_neg hds hneg]
    simp [hself]
  · lift l to ℕ using by omega
    have hle : l ≤ Nat.nth (· ∉ ds) l := by
      have := Live.nth_eq (hds.imp fun h => h.ne) l
      omega
    exact searchPhysical_eq hds hle (by omega) (by exact_mod_cast hl.2) (by omega)

theorem logicalToPhysical_eq {l : ℤ} (hl : IsInt64 l) :
    logicalToPhysical (int64s ds) l = int64 (physicalOf ds l) := by
  rw [logicalToPhysical]
  split_ifs with hnil
  · obtain rfl : ds = [] := map_eq_nil_iff.mp hnil
    rw [physicalOf_nil, int64, if_pos hl]
  · rw [length_int64s, searchPhysical_start hds hl, Option.getD_some]

end Positions

/-! ## Filtering -/

section Filter

variable {ds : List ℕ} {deleted : List ℤ} (hmem : ∀ p : ℕ, (p : ℤ) ∈ deleted ↔ p ∈ ds)
include hmem

theorem filter_zipIdx_eq (batch : List Row) (p k : ℕ) :
    ((batch.zipIdx k).filter fun (_, i) => (p : ℤ) + i ∉ deleted).map Prod.fst =
      Live.select (· ∉ ds) (p + k) batch := by
  induction batch generalizing k with
  | nil => rfl
  | cons row batch ih =>
    have hrow : (p : ℤ) + k ∈ deleted ↔ p + k ∈ ds := by
      rw [← hmem]
      push_cast
      rfl
    rw [zipIdx_cons, filter_cons, Live.select, add_assoc, ← ih (k + 1)]
    simp only [hrow, decide_not, Bool.not_eq_true', decide_eq_false_iff_not]
    split_ifs <;> rfl

theorem filterBatch_eq (batch : List Row) {p : ℕ} (hp : p < 2 ^ 63) :
    filterBatch deleted batch p = Live.select (· ∉ ds) p batch := by
  rw [filterBatch]
  split_ifs with hnil
  · have hlive : ∀ q, q ∉ ds := by
      intro q hq
      rw [← hmem, hnil] at hq
      exact not_mem_nil hq
    exact (Live.select_of_forall hlive p batch).symm
  · rw [toSigned_of_lt (by omega)]
    exact filter_zipIdx_eq hmem batch p 0

end Filter

end MilvusStorage.Format.Iceberg
