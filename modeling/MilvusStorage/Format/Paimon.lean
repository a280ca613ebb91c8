import Mathlib.Data.List.Sort
import MilvusStorage.Format.Deletions

/-!
# The Paimon reader of a data file

`PaimonFormatReader` on the direct-file path: the metadata that is loaded with the file, and the
four ways to read it. The deletion vector of the file is a list of positions. Loading the metadata
checks that they are in the file and that there are no duplicates, and that the number of rows that
are left is the one of the descriptor.

* `filterBatch_eq`: a batch is filtered by a pointer into the sorted deletions.
-/

namespace MilvusStorage.Format.Paimon

open List

variable {Row : Type}

/-! ## The model -/

/-- The field `deletion_file` of the descriptor, as the JSON library reads it. -/
inductive DeletionFile
  | null
  | notObject
  | invalidFields (what : String)
  | object (path : String) (offset length cardinality : ℤ)

/-- The parts of the metadata that the reader uses. -/
structure Metadata where
  recordCount : ℕ
  physicalRowCount : ℕ
  physicalRowGroups : List RowGroupInfo
  sortedDeletions : List ℕ
  rowGroupInfos : List RowGroupInfo

def makeDirectLogicalRowGroups (physical : List RowGroupInfo) (deletions : List ℕ) :
    Except Fault (List RowGroupInfo) :=
  if deletions = [] then .ok physical
  else
    logicalRowGroups (fun group => .invalid ("Invalid physical Paimon row group: " ++ group.render))
      (fun _ _ => .invalid "Paimon deletion count exceeds physical row group size")
      (fun group =>
        Live.lowerBound deletions group.endOffset - Live.lowerBound deletions group.startOffset)
      0 physical

/-- The positions of the deletion vector. -/
def loadDeletions (readDeletionVector : String → ℕ → ℕ → ℤ → Except Fault (List ℕ))
    (physicalRows : ℕ) : DeletionFile → Except Fault (List ℕ)
  | .null => .ok []
  | .notObject => .error (.status (.invalid "Paimon deletion_file must be an object"))
  | .invalidFields what =>
    .error (.status (.invalid ("Paimon deletion_file has invalid field types: " ++ what)))
  | .object path offset length cardinality =>
    if path = "" ∨ offset < 0 ∨ length < 0 then
      .error (.status (.invalid "Paimon deletion_file has invalid path or range"))
    else do
      let positions ← readDeletionVector path offset.toNat length.toNat cardinality
      if positions.any (· ≥ physicalRows) then
        .error (.status (.invalid "Paimon deletion position exceeds physical row count"))
      else return positions

/-- `load_metadata` of a direct file, after the metadata of the data file has been read. -/
def loadMetadata (readDeletionVector : String → ℕ → ℕ → ℤ → Except Fault (List ℕ))
    (physicalGroups : List RowGroupInfo) (deletionFile : DeletionFile) (recordCount : ℕ) :
    Except Fault Metadata := do
  let physicalRows := physicalGroups.getLast?.elim 0 RowGroupInfo.endOffset
  let positions ← loadDeletions readDeletionVector physicalRows deletionFile
  let deletions := positions.insertionSort (· ≤ ·)
  if ¬ deletions.IsChain (· ≠ ·) then
    .error (.status (.invalid "Paimon deletion vector contains duplicate positions"))
  else do
    let rowGroupInfos ← makeDirectLogicalRowGroups physicalGroups deletions
    let logicalRows := rowGroupInfos.getLast?.elim 0 RowGroupInfo.endOffset
    if logicalRows ≠ recordCount then
      .error (.status (.invalid
        (s!"Paimon direct-file row count mismatch: descriptor={recordCount}, "
          ++ s!"reader={logicalRows}")))
    else return {
      recordCount
      physicalRowCount := physicalRows
      physicalRowGroups := physicalGroups
      sortedDeletions := deletions
      rowGroupInfos }

/-- The rows that `FilterBatch` keeps. `deletions` starts with the first deletion that is not
before the batch, and is moved along. -/
def keepRows : List ℕ → ℕ → List Row → List Row
  | _, _, [] => []
  | deletions, physical, row :: rows =>
    let deletions := deletions.dropWhile (· < physical)
    if deletions.head? = some physical then keepRows deletions (physical + 1) rows
    else row :: keepRows deletions (physical + 1) rows

def filterBatch (batch : List Row) (physicalStart : ℕ) (deletions : List ℕ) : List Row :=
  if deletions = [] ∨ batch.length = 0 then batch
  else keepRows (deletions.drop (Live.lowerBound deletions physicalStart)) physicalStart batch

/-- `DirectDeletionReader`: what is left of the stream, and where it is. -/
structure DirectDeletionReader (Row : Type) where
  source : List (List Row)
  physicalPosition : ℕ

/-- `ReadNext`: batches that are completely deleted are not shown. -/
def DirectDeletionReader.readNext (deletions : List ℕ) :
    List (List Row) → ℕ → Option (List Row) × DirectDeletionReader Row
  | [], position => (none, ⟨[], position⟩)
  | batch :: source, position =>
    let filtered := filterBatch batch position deletions
    if filtered.length ≠ 0 then (some filtered, ⟨source, position + batch.length⟩)
    else readNext deletions source (position + batch.length)

section Reads

variable (f : PhysicalReader Row) (metadata : Metadata)

def getChunk (rowGroupIndex : ℤ) : Except Fault (List Row) :=
  match rowGroup? rowGroupIndex metadata.rowGroupInfos with
  | none =>
    .error (.status (.invalid s!"Paimon row group index out of range: {rowGroupIndex}"))
  | some group =>
    if group.startOffset = group.endOffset then .ok []
    else
      match rowGroup? rowGroupIndex metadata.physicalRowGroups with
      | none => .error .outOfBounds
      | some physical => do
        let batch ← f.getChunk rowGroupIndex
        return filterBatch batch physical.startOffset metadata.sortedDeletions

def getChunks (indices : List ℤ) : Except Fault (List (List Row)) :=
  if indices = [] then .ok []
  else
    match indices.mapM fun index => rowGroup? index metadata.physicalRowGroups with
    | none => .error (.status (.invalid "Paimon direct-file row group index out of range"))
    | some groups => do
      let batches ← f.getChunks indices
      if batches.length ≠ indices.length then
        .error (.status (.invalid "Direct-file reader returned an unexpected Paimon chunk count"))
      else return (batches.zip groups).map fun (batch, physical) =>
        filterBatch batch physical.startOffset metadata.sortedDeletions

/-- The inner loop: the position, and how many more deletions it has passed. -/
def passDeletions : List ℕ → ℕ → ℕ × ℕ
  | [], physical => (physical, 0)
  | deletion :: deletions, physical =>
    if deletion ≤ physical then
      let (physical, passed) := passDeletions deletions (physical + 1)
      (physical, passed + 1)
    else (physical, 0)

/-- The loop over the offsets. `deletionIndex` deletions have been passed. -/
def logicalToPhysicalFrom (deletionIndex : ℕ) : List ℤ → Except Fault (List ℤ)
  | [] => .ok []
  | logicalOffset :: logicalOffsets =>
    if logicalOffset < 0 ∨ logicalOffset ≥ metadata.recordCount then
      .error (.status (.invalid "Paimon direct-file take index is out of range"))
    else
      let (physical, passed) := passDeletions (metadata.sortedDeletions.drop deletionIndex)
        (logicalOffset.toNat + deletionIndex)
      if physical ≥ metadata.physicalRowCount ∨ physical > 2 ^ 63 - 1 then
        .error (.status (.invalid "Paimon direct-file physical index is out of range"))
      else do
        let rest ← logicalToPhysicalFrom (deletionIndex + passed) logicalOffsets
        return (physical : ℤ) :: rest

/-- `logical_to_physical`. A debug build asserts that the offsets are sorted. -/
def logicalToPhysical (logicalOffsets : List ℤ) : Except Fault (List ℤ) :=
  if logicalOffsets.Pairwise (· ≤ ·) then logicalToPhysicalFrom metadata 0 logicalOffsets
  else .error .assertionFailed

def take (indices : List ℤ) : Except Fault (List Row) :=
  if indices = [] then .ok []
  else do
    let physical ← logicalToPhysical metadata indices
    f.take physical

/-- `read_with_range`. An empty range is one empty batch. -/
inductive RangeReader (Row : Type)
  | empty
  | deletion (reader : DirectDeletionReader Row)

def readWithRange (start stop : ℕ) : Except Fault (RangeReader Row) :=
  if stop < start ∨ stop > metadata.recordCount then
    .error (.status (.invalid "Invalid Paimon logical range"))
  else if start = stop then .ok .empty
  else do
    let physical ← logicalToPhysical metadata [toSigned 64 start, toSigned 64 (stop - 1 : ℕ)]
    match physical.head?, physical.getLast? with
    | some front, some back =>
      let physicalStart := front.toNat
      let source ← f.readWithRange physicalStart (back.toNat + 1)
      return .deletion ⟨source, physicalStart⟩
    | _, _ => .error .outOfBounds

end Reads

/-! ## Filtering -/

section Filter

variable {D : List ℕ} {ds : List ℕ} {p : ℕ}

section

variable (hds : ds.Pairwise (· < ·))
include hds

theorem mem_dropWhile_lt {q : ℕ} (h : p ≤ q) : q ∈ ds.dropWhile (· < p) ↔ q ∈ ds := by
  induction ds with
  | nil => rfl
  | cons d ds ih =>
    rw [dropWhile_cons]
    split_ifs with hd
    · have hne : q ≠ d := by
        have : d < p := by simpa using hd
        omega
      rw [ih (pairwise_cons.mp hds).2, mem_cons, or_iff_right hne]
    · rfl

theorem head?_dropWhile_lt (p : ℕ) : (ds.dropWhile (· < p)).head? = some p ↔ p ∈ ds := by
  rw [← mem_dropWhile_lt hds le_rfl]
  have hsorted := hds.sublist (dropWhile_sublist (· < p))
  have hfirst : ∀ d ∈ (ds.dropWhile (· < p)).head?, p ≤ d := by
    intro d hd
    have := head?_dropWhile_not (· < p) ds
    rw [hd] at this
    simpa using this
  cases hcases : ds.dropWhile (· < p) with
  | nil => simp
  | cons d ds' =>
    rw [hcases] at hsorted hfirst
    have hle : p ≤ d := hfirst d rfl
    have hlt := (pairwise_cons.mp hsorted).1
    rw [head?_cons, Option.some.injEq, mem_cons]
    constructor
    · exact fun h => .inl h.symm
    · rintro (rfl | hmem)
      · rfl
      · have := hlt p hmem
        omega

/-- The deletion pointer is moved along with the rows. -/
theorem keepRows_eq (hmem : ∀ q, p ≤ q → (q ∈ ds ↔ q ∈ D)) (rows : List Row) :
    keepRows ds p rows = Live.select (· ∉ D) p rows := by
  induction rows generalizing ds p with
  | nil => rfl
  | cons row rows ih =>
    have hsorted := hds.sublist (dropWhile_sublist (· < p))
    have hrest : ∀ q, p + 1 ≤ q → (q ∈ ds.dropWhile (· < p) ↔ q ∈ D) := by
      intro q hq
      rw [mem_dropWhile_lt hds (by omega), hmem q (by omega)]
    have hhead := (head?_dropWhile_lt hds p).trans (hmem p le_rfl)
    rw [keepRows, Live.select, ih hsorted hrest]
    by_cases hp : p ∈ D
    · rw [if_pos (hhead.mpr hp), if_neg (not_not.mpr hp)]
    · rw [if_neg (mt hhead.mp hp), if_pos hp]

end

/-- What comes before the lower bound is smaller. -/
theorem mem_drop_lowerBound {q : ℕ} (h : p ≤ q) : q ∈ D.drop (Live.lowerBound D p) ↔ q ∈ D := by
  refine ⟨mem_of_mem_drop, fun hq => ?_⟩
  rw [← take_append_drop (Live.lowerBound D p) D, mem_append] at hq
  refine hq.resolve_left fun htake => ?_
  obtain ⟨i, hi, rfl⟩ := mem_iff_getElem.mp htake
  rw [length_take] at hi
  have hnot := @not_of_lt_findIdx _ (fun d => decide (p ≤ d)) D i
    (by rw [Live.lowerBound] at hi; omega)
  rw [getElem_take] at h
  simp [h] at hnot

theorem filterBatch_eq (hD : D.Pairwise (· < ·)) (batch : List Row) (p : ℕ) :
    filterBatch batch p D = Live.select (· ∉ D) p batch := by
  rw [filterBatch]
  split_ifs with hempty
  · rcases hempty with rfl | hnil
    · exact (Live.select_of_forall (fun _ => not_mem_nil) p batch).symm
    · rw [length_eq_zero_iff.mp hnil, Live.select_nil]
  · exact keepRows_eq (hD.sublist (drop_sublist _ _)) (fun q hq => mem_drop_lowerBound hq) batch

end Filter

/-! ## Physical positions -/

section Positions

variable {D : List ℕ}

/-- The deletions before the one that is looked at are those that are smaller. -/
theorem countP_lt_eq {pre ds : List ℕ} {d : ℕ} (hD : (pre ++ d :: ds).Pairwise (· < ·)) :
    (pre ++ d :: ds).countP (· < d) = pre.length := by
  obtain ⟨-, hds, hpre⟩ := pairwise_append.mp hD
  have hsmall : pre.countP (· < d) = pre.length :=
    countP_eq_length.mpr fun x hx => by simpa using hpre x hx d mem_cons_self
  have hlarge : (d :: ds).countP (· < d) = 0 := by
    refine countP_eq_zero.mpr fun x hx => ?_
    rcases mem_cons.mp hx with rfl | hx
    · simp
    · have := (pairwise_cons.mp hds).1 x hx
      simp only [decide_eq_true_eq]
      omega
  rw [countP_append, hsmall, hlarge, add_zero]

/-- The inner loop finds the position of a live row, if no deletion that it has passed is after it.
-/
theorem passDeletions_eq (hD : D.Pairwise (· < ·)) {pre ds : List ℕ} (hsplit : D = pre ++ ds)
    {l : ℕ} (hpre : ∀ d ∈ pre, d < Nat.nth (· ∉ D) l) :
    ∃ passed, passDeletions ds (l + pre.length) = (Nat.nth (· ∉ D) l, passed) ∧
      ∀ d ∈ pre ++ ds.take passed, d < Nat.nth (· ∉ D) l := by
  have hnodup : D.Nodup := hD.imp fun h => h.ne
  induction ds generalizing pre with
  | nil =>
    refine ⟨0, ?_, by simpa using hpre⟩
    rw [append_nil] at hsplit
    have hcount : D.countP (· < Nat.nth (· ∉ D) l) = pre.length := by
      rw [hsplit, countP_eq_length]
      simpa [hsplit] using hpre
    rw [passDeletions, Live.nth_eq hnodup, hcount]
  | cons d ds ih =>
    rw [passDeletions]
    split_ifs with hd
    · -- the deletion is before the row
      have hlt : d < Nat.nth (· ∉ D) l := by
        apply Live.lt_nth hnodup (by simp [hsplit])
        rwa [hsplit, countP_lt_eq (hsplit ▸ hD)]
      obtain ⟨passed, hpass, hall⟩ := @ih (pre ++ [d]) (by simp [hsplit])
        (by simpa [or_imp, forall_and] using ⟨hpre, hlt⟩)
      rw [length_append, length_singleton, ← add_assoc] at hpass
      exact ⟨passed + 1, by simp only [hpass], by simpa using hall⟩
    · -- the row is before this and all later deletions
      refine ⟨0, ?_, by simpa using hpre⟩
      have hle : l + pre.length ≤ Nat.nth (· ∉ D) l := by
        have hcount : pre.length ≤ D.countP (· < Nat.nth (· ∉ D) l) := by
          rw [hsplit, countP_append, ← hsplit, countP_eq_length.mpr (by simpa using hpre)]
          omega
        rw [Live.nth_eq hnodup]
        omega
      have hge : Nat.nth (· ∉ D) l ≤ l + pre.length := by
        apply Live.nth_le hnodup
        have hlarge : (d :: ds).countP (· ≤ l + pre.length) = 0 := by
          refine countP_eq_zero.mpr fun x hx => ?_
          have hdx : d ≤ x := by
            rcases mem_cons.mp hx with rfl | hx
            · rfl
            · rw [hsplit] at hD
              exact ((pairwise_cons.mp (pairwise_append.mp hD).2.1).1 x hx).le
          simp only [decide_eq_true_eq]
          omega
        have := countP_le_length (p := fun x => decide (x ≤ l + pre.length)) (l := pre)
        rw [hsplit, countP_append, hlarge]
        omega
      rw [le_antisymm hle hge]

theorem passed_le (ds : List ℕ) (physical : ℕ) : (passDeletions ds physical).2 ≤ ds.length := by
  induction ds generalizing physical with
  | nil => rfl
  | cons d ds ih =>
    rw [passDeletions]
    split_ifs
    · exact Nat.succ_le_succ (ih (physical + 1))
    · exact Nat.zero_le _

variable {metadata : Metadata} {offsets : List ℤ}

/-- The loop over sorted offsets sends each one to the position of its row. -/
theorem logicalToPhysicalFrom_ok (hD : metadata.sortedDeletions.Pairwise (· < ·))
    (hrecord : metadata.recordCount =
      Nat.count (· ∉ metadata.sortedDeletions) metadata.physicalRowCount)
    (hcount : metadata.physicalRowCount < 2 ^ 63)
    (hsorted : offsets.Pairwise (· ≤ ·))
    (hrange : ∀ l ∈ offsets, 0 ≤ l ∧ l < metadata.recordCount) {deletionIndex : ℕ}
    (hidx : ∀ l ∈ offsets.head?, ∀ d ∈ metadata.sortedDeletions.take deletionIndex,
      d < Nat.nth (· ∉ metadata.sortedDeletions) l.toNat)
    (hle : deletionIndex ≤ metadata.sortedDeletions.length) :
    logicalToPhysicalFrom metadata deletionIndex offsets =
      .ok (offsets.map fun l => (Nat.nth (· ∉ metadata.sortedDeletions) l.toNat : ℤ)) := by
  induction offsets generalizing deletionIndex with
  | nil => rfl
  | cons l offsets ih =>
    obtain ⟨hl, hrange⟩ := forall_mem_cons.mp hrange
    obtain ⟨hnext, hsorted⟩ := pairwise_cons.mp hsorted
    obtain ⟨passed, hpass, hall⟩ := passDeletions_eq hD
      (take_append_drop deletionIndex metadata.sortedDeletions).symm (hidx l rfl)
    rw [length_take_of_le hle] at hpass
    have hlt : Nat.nth (· ∉ metadata.sortedDeletions) l.toNat < metadata.physicalRowCount :=
      Nat.nth_lt_of_lt_count (by omega)
    have hpassed := passed_le (metadata.sortedDeletions.drop deletionIndex)
      (l.toNat + deletionIndex)
    rw [hpass, length_drop] at hpassed
    have hrest := @ih hsorted hrange (deletionIndex + passed) (by
      intro l' hl' d hd
      have hmono : Nat.nth (· ∉ metadata.sortedDeletions) l.toNat ≤
          Nat.nth (· ∉ metadata.sortedDeletions) l'.toNat :=
        Nat.nth_monotone (Live.infinite_live _)
          (Int.toNat_le_toNat (hnext l' (mem_of_mem_head? hl')))
      rw [take_add] at hd
      exact (hall d hd).trans_le hmono) (by omega)
    rw [logicalToPhysicalFrom, if_neg (by omega), hpass]
    simp only
    rw [if_neg (by omega), hrest]
    rfl

/-- An offset that is not in the table is an error. -/
theorem logicalToPhysicalFrom_error (hbad : ∃ l ∈ offsets, ¬(0 ≤ l ∧ l < metadata.recordCount))
    (deletionIndex : ℕ) :
    ∃ s, logicalToPhysicalFrom metadata deletionIndex offsets = .error (.status s) := by
  induction offsets generalizing deletionIndex with
  | nil => simp at hbad
  | cons l offsets ih =>
    rw [logicalToPhysicalFrom]
    split_ifs with hl
    · exact ⟨_, rfl⟩
    · obtain ⟨l', hl', hbad⟩ := hbad
      have hrest : ∃ l ∈ offsets, ¬(0 ≤ l ∧ l < metadata.recordCount) := by
        rcases mem_cons.mp hl' with rfl | hl'
        · exact absurd (by omega) hbad
        · exact ⟨l', hl', hbad⟩
      simp only
      split_ifs
      · exact ⟨_, rfl⟩
      · obtain ⟨s, hs⟩ := ih hrest (deletionIndex + (passDeletions
          (metadata.sortedDeletions.drop deletionIndex) (l.toNat + deletionIndex)).2)
        exact ⟨s, by rw [hs]; rfl⟩

end Positions

/-! ## Batches in a range -/

namespace DirectDeletionReader

variable {D : List ℕ}

/-- The results of repeated calls of `ReadNext`. -/
def results (D : List ℕ) : ℕ → DirectDeletionReader Row → List (Option (List Row))
  | 0, _ => []
  | n + 1, r =>
    (readNext D r.source r.physicalPosition).1 ::
      results D n (readNext D r.source r.physicalPosition).2

/-- Repeated calls of `ReadNext` return these batches and then null. -/
def Yields (D : List ℕ) (r : DirectDeletionReader Row) (bs : List (List Row)) : Prop :=
  results D (bs.length + 1) r = bs.map some ++ [none]

/-- The batches are those of the live rows, and none of them is empty. -/
theorem exists_yields (hD : D.Pairwise (· < ·)) (source : List (List Row)) (position : ℕ) :
    ∃ bs, Yields D ⟨source, position⟩ bs ∧ [] ∉ bs ∧
      bs.flatten = Live.select (· ∉ D) position source.flatten := by
  induction source generalizing position with
  | nil => exact ⟨[], rfl, not_mem_nil, rfl⟩
  | cons batch source ih =>
    obtain ⟨bs, hyields, hnil, hflat⟩ := ih (position + batch.length)
    rw [flatten_cons, Live.select_append, ← hflat, ← filterBatch_eq hD]
    by_cases hempty : (filterBatch batch position D).length = 0
    · -- the call goes on with the next batch
      have hnext : readNext D (batch :: source) position =
          readNext D source (position + batch.length) := by
        rw [readNext]
        exact if_neg (not_not.mpr hempty)
      refine ⟨bs, ?_, hnil, by rw [length_eq_zero_iff.mp hempty, nil_append]⟩
      rw [Yields, results] at hyields ⊢
      rwa [hnext]
    · have hnext : readNext D (batch :: source) position =
          (some (filterBatch batch position D), ⟨source, position + batch.length⟩) := by
        rw [readNext]
        exact if_pos hempty
      refine ⟨filterBatch batch position D :: bs, ?_, ?_, rfl⟩
      · rw [Yields, length_cons, results, hnext, hyields]
        rfl
      · rw [mem_cons, not_or]
        exact ⟨fun h => hempty (by rw [← h]; rfl), hnil⟩

end DirectDeletionReader

/-- The batches that a range reader returns. -/
def RangeReader.Shows (D : List ℕ) (bs : List (List Row)) : RangeReader Row → Prop
  | .empty => bs = [[]]
  | .deletion reader => reader.Yields D bs

end MilvusStorage.Format.Paimon
