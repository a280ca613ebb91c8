import Mathlib.Data.Int.ConditionallyCompleteOrder
import MilvusStorage.Format.Chunks
import MilvusStorage.Foundations.Live

/-!
# Files with deleted rows

A table format keeps a list of deleted positions beside a data file. A reader of the table format
has a reader of the data file, whose rows are the physical ones, and shows the rows that are not
deleted, the logical ones. Both readers have the same row groups, each without its deleted rows.

* `logicalRowGroups_ok`: the logical row groups are adjacent and count the rows that are left.
-/

namespace MilvusStorage.Format

open List Tiling

variable {Row : Type}

/-- `RowGroupInfo::ToString`. -/
def RowGroupInfo.render (rg : RowGroupInfo) : String :=
  let start := rg.startOffset
  let stop := rg.endOffset
  let size := rg.memorySize
  s!"RowGroupInfo\x7bstart_offset={start}, end_offset={stop}, memory_size={size}\x7d"

/-! ## The data file -/

/-- The `FormatReader` of a data file. A range read is given by the batches of its stream, and a
table by its rows. -/
structure PhysicalReader (Row : Type) where
  rowGroupInfos : List RowGroupInfo
  getChunk : ℤ → Except Fault (List Row)
  getChunks : List ℤ → Except Fault (List (List Row))
  take : List ℤ → Except Fault (List Row)
  readWithRange : ℕ → ℕ → Except Fault (List (List Row))

/-- The lists of row groups and of rows that a reader has to answer. If it answers a list of rows,
it answers those with the same order. -/
structure Requests where
  chunks : List ℤ → Prop
  rows : List ℤ → Prop
  rows_map : ∀ ps (g : ℤ → ℤ), StrictMono g → rows ps → rows (ps.map g)

/-- The rows of a row group of a file with these rows. -/
def groupRows (rows : List Row) (rg : RowGroupInfo) : List Row :=
  (rows.drop rg.startOffset).take rg.numRows

/-- The row group at an index, if it is in range. -/
def rowGroup? (index : ℤ) (groups : List RowGroupInfo) : Option RowGroupInfo :=
  if index < 0 then none else groups[index.toNat]?

variable {groups : List RowGroupInfo}

theorem rowGroup?_eq_none {i : ℤ} (hi : ¬(0 ≤ i ∧ i < groups.length)) :
    rowGroup? i groups = none := by
  rw [rowGroup?]
  split_ifs with hneg
  · rfl
  · exact getElem?_eq_none (by omega)

theorem rowGroup?_eq_some {i : ℤ} {rg : RowGroupInfo} :
    rowGroup? i groups = some rg ↔ 0 ≤ i ∧ groups[i.toNat]? = some rg := by
  rw [rowGroup?]
  split_ifs with hneg
  · simp [not_le.mpr hneg]
  · simp [not_lt.mp hneg]

/-- An `int64_t`. -/
def IsInt64 (x : ℤ) : Prop := -2 ^ 63 ≤ x ∧ x < 2 ^ 63

instance (x : ℤ) : Decidable (IsInt64 x) := inferInstanceAs (Decidable (_ ∧ _))

/-- The result of signed arithmetic. -/
def int64 (x : ℤ) : Except Fault ℤ := if IsInt64 x then .ok x else .error .signedOverflow

/-- The reader returns the physical rows as asked, a range in any batches, and refuses what is not
in the file. The number of rows is an `int64_t` of the file's metadata. -/
structure ReadsRows (f : PhysicalReader Row) (rows : List Row) (K : Requests) : Prop where
  contiguous : Contiguous f.rowGroupInfos rows.length
  lt : rows.length < 2 ^ 63
  getChunk : ∀ (i : ℕ) rg, f.rowGroupInfos[i]? = some rg → f.getChunk i = .ok (groupRows rows rg)
  getChunk_error : ∀ i : ℤ, ¬(0 ≤ i ∧ i < f.rowGroupInfos.length) →
    ∃ s, f.getChunk i = .error (.status s)
  getChunks : ∀ (is : List ℤ) rgs, K.chunks is →
    Forall₂ (fun i rg => 0 ≤ i ∧ f.rowGroupInfos[i.toNat]? = some rg) is rgs →
    f.getChunks is = .ok (rgs.map (groupRows rows))
  take : ∀ ps : List ℤ, K.rows ps → (∀ p ∈ ps, 0 ≤ p ∧ p < rows.length) →
    ∃ table, f.take ps = .ok table ∧ table.map some = ps.map fun p => rows[p.toNat]?
  take_error : ∀ ps : List ℤ, (∀ p ∈ ps, IsInt64 p) → (∃ p ∈ ps, ¬(0 ≤ p ∧ p < rows.length)) →
    ∃ s, f.take ps = .error (.status s)
  readWithRange : ∀ lo hi, lo < hi → hi ≤ rows.length →
    ∃ bs, f.readWithRange lo hi = .ok bs ∧ bs.flatten = (rows.drop lo).take (hi - lo)
  readWithRange_error : ∀ lo hi, hi < 2 ^ 64 → ¬(lo < hi ∧ hi ≤ rows.length) →
    ∃ s, f.readWithRange lo hi = .error (.status s)

/-- A row group of rows that are in memory. -/
def chunkAt (rows : List Row) (rgs : List RowGroupInfo) (i : ℤ) : Except Fault (List Row) :=
  match rowGroup? i rgs with
  | none => .error (.status (.invalid "row group index out of range"))
  | some rg => .ok (groupRows rows rg)

def rowAt (rows : List Row) (p : ℤ) : Except Fault Row :=
  match if p < 0 then none else rows[p.toNat]? with
  | none => .error (.status (.invalid "row index out of range"))
  | some row => .ok row

variable {rows : List Row} {rgs : List RowGroupInfo}

theorem rowAt_ok {p : ℤ} (h : 0 ≤ p ∧ p < rows.length) :
    ∃ row, rowAt rows p = .ok row ∧ some row = rows[p.toNat]? := by
  have hrow : rows[p.toNat]? = some (rows.get ⟨p.toNat, by omega⟩) :=
    getElem?_eq_getElem _
  rw [rowAt, if_neg (by omega), hrow]
  exact ⟨_, rfl, rfl⟩

theorem rowAt_error {p : ℤ} (h : ¬(0 ≤ p ∧ p < rows.length)) :
    rowAt rows p = .error (.status (.invalid "row index out of range")) := by
  have hnone : (if p < 0 then none else rows[p.toNat]?) = none := by
    split_ifs with hneg
    · rfl
    · exact getElem?_eq_none (by omega)
  rw [rowAt, hnone]

/-- A reader of rows that are in memory. -/
def listReader (rows : List Row) (rgs : List RowGroupInfo) : PhysicalReader Row where
  rowGroupInfos := rgs
  getChunk := chunkAt rows rgs
  getChunks is := is.mapM (chunkAt rows rgs)
  take ps := ps.mapM (rowAt rows)
  readWithRange lo hi :=
    if lo < hi ∧ hi ≤ rows.length then .ok [(rows.drop lo).take (hi - lo)]
    else .error (.status (.invalid "range out of range"))

/-- The lists that a reader of rows in memory answers. -/
def allRequests : Requests where
  chunks _ := True
  rows _ := True
  rows_map _ _ _ _ := trivial

theorem readsRows_listReader (h : Contiguous rgs rows.length) (hlt : rows.length < 2 ^ 63) :
    ReadsRows (listReader rows rgs) rows allRequests := by
  have hchunk : ∀ i rg, 0 ≤ i ∧ rgs[i.toNat]? = some rg →
      chunkAt rows rgs i = .ok (groupRows rows rg) := by
    intro i rg hrg
    rw [chunkAt, rowGroup?_eq_some.mpr hrg]
  constructor
  case contiguous => exact h
  case lt => exact hlt
  case getChunk =>
    intro i rg hrg
    exact hchunk i rg ⟨by omega, hrg⟩
  case getChunk_error =>
    intro i hi
    have hnone : rowGroup? i rgs = none := rowGroup?_eq_none hi
    simp only [listReader, chunkAt, hnone]
    exact ⟨_, rfl⟩
  case getChunks =>
    intro is rgs' _ hrgs
    apply Except.mapM_ok_of_forall₂
    rw [forall₂_map_right_iff]
    exact hrgs.imp hchunk
  case take =>
    intro ps _ hps
    obtain ⟨table, htable⟩ := Except.exists_mapM_ok fun p hp =>
      (rowAt_ok (hps p hp)).imp fun _ => And.left
    refine ⟨table, htable, ?_⟩
    have hrows := Except.forall₂_of_mapM_ok htable
    clear htable
    induction hrows with
    | nil => rfl
    | cons hrow _ ih =>
      obtain ⟨hp, hps⟩ := forall_mem_cons.mp hps
      obtain ⟨row, hok, hget⟩ := rowAt_ok hp
      cases hok.symm.trans hrow
      rw [map_cons, map_cons, hget, ih trivial hps]
  case take_error =>
    intro ps _ hps
    obtain ⟨p, hp, hbad⟩ := hps
    have herror := Except.exists_mapM_error (P := fun e => ∃ s, e = .status s) (by
        intro q _ e he
        by_cases hq : 0 ≤ q ∧ q < rows.length
        · obtain ⟨row, hok, -⟩ := rowAt_ok hq
          rw [hok] at he
          cases he
        · rw [rowAt_error hq] at he
          cases he
          exact ⟨_, rfl⟩) ⟨p, hp, _, rowAt_error hbad⟩
    obtain ⟨e, he, s, rfl⟩ := herror
    exact ⟨s, he⟩
  case readWithRange =>
    intro lo hi hlo hhi
    exact ⟨_, if_pos ⟨hlo, hhi⟩, by simp⟩
  case readWithRange_error =>
    intro lo hi _ hbad
    exact ⟨_, if_neg hbad⟩

/-! ## Row groups -/

/-- The loop over the physical row groups. `deletionsIn` counts the deleted rows of a row group. The
memory of the rows that are left is estimated. -/
def logicalRowGroups (invalid : RowGroupInfo → Status) (exceeds : ℕ → ℕ → Status)
    (deletionsIn : RowGroupInfo → ℕ) : ℕ → List RowGroupInfo → Except Fault (List RowGroupInfo)
  | _, [] => .ok []
  | logicalOffset, prg :: prgs =>
    if prg.endOffset < prg.startOffset then .error (.status (invalid prg))
    else
      let deletions := deletionsIn prg
      let physicalRows := prg.endOffset - prg.startOffset
      if deletions > physicalRows then .error (.status (exceeds deletions physicalRows))
      else do
        let logicalRows := physicalRows - deletions
        let rest ← logicalRowGroups invalid exceeds deletionsIn (logicalOffset + logicalRows) prgs
        return {
          startOffset := logicalOffset
          endOffset := logicalOffset + logicalRows
          memorySize :=
            if prg.memorySizeAvailable ∧ physicalRows ≠ 0 then
              prg.memorySize * logicalRows / physicalRows
            else 0
          memorySizeAvailable := prg.memorySizeAvailable } :: rest

section

variable (live : ℕ → Prop) [DecidablePred live]

/-- A row group without its deleted rows. -/
def logicalRowGroup (prg : RowGroupInfo) : RowGroupInfo where
  startOffset := Nat.count live prg.startOffset
  endOffset := Nat.count live prg.endOffset
  memorySize :=
    if prg.memorySizeAvailable ∧ prg.endOffset - prg.startOffset ≠ 0 then
      prg.memorySize * (Nat.count live prg.endOffset - Nat.count live prg.startOffset) /
        (prg.endOffset - prg.startOffset)
    else 0
  memorySizeAvailable := prg.memorySizeAvailable

variable {live}

theorem logicalRowGroups_ok (invalid : RowGroupInfo → Status) (exceeds : ℕ → ℕ → Status)
    {deletionsIn : RowGroupInfo → ℕ} {a n : ℕ} {prgs : List RowGroupInfo}
    (hord : ∀ rg ∈ prgs, rg.startOffset ≤ rg.endOffset)
    (hchain : Chained RowGroupInfo.startOffset RowGroupInfo.numRows a prgs n)
    (hdels : ∀ rg ∈ prgs, deletionsIn rg +
      (Nat.count live rg.endOffset - Nat.count live rg.startOffset) = rg.numRows) :
    logicalRowGroups invalid exceeds deletionsIn (Nat.count live a) prgs =
      .ok (prgs.map (logicalRowGroup live)) := by
  induction prgs generalizing a with
  | nil => rfl
  | cons prg prgs ih =>
    obtain ⟨hle, hord⟩ := forall_mem_cons.mp hord
    obtain ⟨hdel, hdels⟩ := forall_mem_cons.mp hdels
    obtain ⟨rfl, hchain⟩ := hchain
    rw [RowGroupInfo.numRows] at hchain hdel
    have hmono := Nat.count_monotone live hle
    have hend : prg.startOffset + (prg.endOffset - prg.startOffset) = prg.endOffset := by omega
    have hrows : prg.endOffset - prg.startOffset - deletionsIn prg =
        Nat.count live prg.endOffset - Nat.count live prg.startOffset := by omega
    have hoff : Nat.count live prg.startOffset +
        (Nat.count live prg.endOffset - Nat.count live prg.startOffset) =
        Nat.count live prg.endOffset := by omega
    rw [hend] at hchain
    rw [logicalRowGroups, if_neg (by omega)]
    simp only [hrows, hoff]
    rw [if_neg (by omega), ih hord hchain hdels]
    rfl

/-- The row groups without their deleted rows, whatever their memory is. -/
def IsLogical (live : ℕ → Prop) [DecidablePred live] (lrgs prgs : List RowGroupInfo) : Prop :=
  Forall₂ (fun lrg prg => lrg.startOffset = Nat.count live prg.startOffset ∧
    lrg.endOffset = Nat.count live prg.endOffset) lrgs prgs

theorem isLogical_map (prgs : List RowGroupInfo) :
    IsLogical live (prgs.map (logicalRowGroup live)) prgs := by
  rw [IsLogical, forall₂_map_left_iff, forall₂_same]
  exact fun _ _ => ⟨rfl, rfl⟩

theorem isLogical_self (h : ∀ p, live p) (prgs : List RowGroupInfo) : IsLogical live prgs prgs := by
  have hcount : ∀ p, Nat.count live p = p := fun p => Nat.count_of_forall fun q _ => h q
  rw [IsLogical, forall₂_same]
  exact fun _ _ => ⟨(hcount _).symm, (hcount _).symm⟩

namespace IsLogical

variable {lrgs prgs : List RowGroupInfo}

section

variable (h : IsLogical live lrgs prgs)
include h

/-- The logical row groups are adjacent. -/
theorem chained {a n : ℕ} (hord : ∀ rg ∈ prgs, rg.startOffset ≤ rg.endOffset)
    (hchain : Chained RowGroupInfo.startOffset RowGroupInfo.numRows a prgs n) :
    Chained RowGroupInfo.startOffset RowGroupInfo.numRows (Nat.count live a) lrgs
      (Nat.count live n) := by
  induction h generalizing a with
  | nil => exact congrArg (Nat.count live) hchain
  | @cons lrg prg _ _ heq _ ih =>
    obtain ⟨hle, hord⟩ := forall_mem_cons.mp hord
    obtain ⟨rfl, hchain⟩ := hchain
    have hmono := Nat.count_monotone live hle
    have hend : prg.startOffset + prg.numRows = prg.endOffset := by
      rw [RowGroupInfo.numRows]
      omega
    have hoff : Nat.count live prg.startOffset + lrg.numRows =
        Nat.count live prg.endOffset := by
      rw [RowGroupInfo.numRows]
      omega
    rw [hend] at hchain
    refine ⟨heq.1, ?_⟩
    rw [hoff]
    exact ih hord hchain

theorem contiguous {n : ℕ} (hcontig : Contiguous prgs n) : Contiguous lrgs (Nat.count live n) where
  ordered := by
    intro lrg hlrg
    obtain ⟨i, hi, rfl⟩ := mem_iff_getElem.mp hlrg
    have heq := Forall₂.get h hi (h.length_eq ▸ hi)
    simp only [get_eq_getElem] at heq
    rw [heq.1, heq.2]
    exact Nat.count_monotone live (hcontig.ordered _ (getElem_mem _))
  chained := by
    have := h.chained hcontig.ordered hcontig.chained
    rwa [Nat.count_zero] at this
  lt := (Nat.count_le live).trans_lt hcontig.lt

theorem getElem? {i : ℕ} {lrg : RowGroupInfo} (hlrg : lrgs[i]? = some lrg) :
    ∃ prg, prgs[i]? = some prg ∧ lrg.startOffset = Nat.count live prg.startOffset ∧
      lrg.endOffset = Nat.count live prg.endOffset := by
  obtain ⟨hi, rfl⟩ := List.getElem?_eq_some_iff.mp hlrg
  have hi' : i < prgs.length := h.length_eq ▸ hi
  exact ⟨_, getElem?_eq_getElem hi', Forall₂.get h hi hi'⟩

end

end IsLogical

/-- The rows that are left of a row group are the rows of its logical row group. -/
theorem select_groupRows {rows : List Row} {lrg prg : RowGroupInfo}
    (hstart : lrg.startOffset = Nat.count live prg.startOffset)
    (hend : lrg.endOffset = Nat.count live prg.endOffset)
    (hle : prg.startOffset ≤ prg.endOffset) (hrows : prg.endOffset ≤ rows.length) :
    Live.select live prg.startOffset (groupRows rows prg) =
      groupRows (Live.select live 0 rows) lrg := by
  rw [groupRows, groupRows, RowGroupInfo.numRows, RowGroupInfo.numRows, hstart, hend]
  exact Live.select_slice live hle hrows

end

theorem Contiguous.endOffset_le {n : ℕ} (h : Contiguous rgs n) {rg : RowGroupInfo}
    (hrg : rg ∈ rgs) : rg.endOffset ≤ n := by
  have := (h.chained.mem hrg).2
  rw [RowGroupInfo.numRows] at this
  omega

/-- The last row group ends with the file. -/
theorem Contiguous.getLast?_endOffset {n : ℕ} (h : Contiguous rgs n) :
    rgs.getLast?.elim 0 RowGroupInfo.endOffset = n := by
  cases hlast : rgs.getLast? with
  | none =>
    have hchain := h.chained
    rwa [getLast?_eq_none_iff.mp hlast] at hchain
  | some rg =>
    have hend := h.chained.getLast? hlast
    have hle := h.ordered rg (mem_of_getLast? hlast)
    rw [RowGroupInfo.numRows] at hend
    rw [Option.elim_some]
    omega

/-! ## Positions of live rows -/

/-- The position of a live row, for offsets that need not be in the table. -/
noncomputable def physicalOf (D : List ℕ) (l : ℤ) : ℤ :=
  if l < 0 then l else Nat.nth (· ∉ D) l.toNat

@[simp] theorem physicalOf_natCast (D : List ℕ) (l : ℕ) : physicalOf D l = Nat.nth (· ∉ D) l := by
  rw [physicalOf, if_neg (by omega), Int.toNat_natCast]

theorem physicalOf_nil (l : ℤ) : physicalOf [] l = l := by
  have hnth := Live.nth_eq nodup_nil l.toNat
  rw [countP_nil] at hnth
  rw [physicalOf, hnth]
  split_ifs <;> omega

theorem physicalOf_strictMono (D : List ℕ) : StrictMono (physicalOf D) := by
  intro l l' hlt
  have hmono := Nat.nth_strictMono (Live.infinite_live D)
  rw [physicalOf, physicalOf]
  split_ifs
  · exact hlt
  · omega
  · omega
  · exact_mod_cast hmono (by omega : l.toNat < l'.toNat)

theorem map_physicalOf {D : List ℕ} {is : List ℤ} (h : ∀ i ∈ is, 0 ≤ i) :
    is.map (fun l => (Nat.nth (· ∉ D) l.toNat : ℤ)) = is.map (physicalOf D) := by
  apply map_congr_left
  intro i hi
  rw [physicalOf, if_neg (not_lt.mpr (h i hi))]

end MilvusStorage.Format
