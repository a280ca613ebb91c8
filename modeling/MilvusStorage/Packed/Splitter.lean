import MilvusStorage.Common.RecordBatch
import MilvusStorage.Common.Status
import MilvusStorage.Foundations.Except

/-!
# The size-based splitter

Columns whose rows are wide on average get a group of their own. The others are collected, and the
collection becomes a group once it is full and another column follows, and in any case at the end.
-/

namespace MilvusStorage.Packed

open List

variable {V : Type}

def splitThreshold : ℕ := 1024

/-- A `ColumnGroup` of the packed writer. -/
structure PackedColumnGroup (V : Type) where
  groupId : ℕ
  originColumnIndices : List ℕ
  batches : List (RecordBatch V)

/-- The groups of columns so far, and the narrow columns that have been collected. -/
structure Splitting where
  groupIndices : List (List ℕ) := []
  smallGroupIndices : List ℕ := []

namespace Splitting

def flushFull (maxGroupSize : ℕ) (s : Splitting) : Splitting :=
  if maxGroupSize ≤ s.smallGroupIndices.length then ⟨s.groupIndices ++ [s.smallGroupIndices], []⟩
  else s

def add (maxGroupSize : ℕ) (wide : Bool) (s : Splitting) (i : ℕ) : Splitting :=
  let s := s.flushFull maxGroupSize
  if wide then { s with groupIndices := s.groupIndices ++ [[i]] }
  else { s with smallGroupIndices := s.smallGroupIndices ++ [i] }

end Splitting

section Model

variable (memorySize : RecordBatch V → ℕ → ℕ) (maxGroupSize : ℕ) (batches : List (RecordBatch V))

/-- `column_sizes[i]`. -/
def columnSize (i : ℕ) : ℕ := (batches.map (memorySize · i)).sum

/-- `column_rows[i]`, for every column. -/
def columnRows : ℕ := (batches.map RecordBatch.numRows).sum

/-- The rows of the column have few bytes on average. -/
def Narrow (i : ℕ) : Prop := columnSize memorySize batches i / columnRows batches < splitThreshold

instance : DecidablePred (Narrow memorySize batches) := fun _ => inferInstanceAs (Decidable (_ < _))

def splitColumn (s : Splitting) (i : ℕ) : Except Fault Splitting :=
  if columnRows batches = 0 then .error .divisionByZero
  else .ok (s.add maxGroupSize
    (splitThreshold ≤ columnSize memorySize batches i / columnRows batches) i)

/-- The columns at these positions. -/
def project (record : RecordBatch V) (indices : List ℕ) : RecordBatch V :=
  ⟨record.numRows, indices.filterMap (record.columns[·]?)⟩

/-- `SelectColumns` of the arrow library. -/
def selectColumns (record : RecordBatch V) (indices : List ℕ) : Except Fault (RecordBatch V) :=
  match indices.find? (record.columns.length ≤ ·) with
  | some i => .error (.status (.invalid s!"Invalid column index {i} to select columns."))
  | none => .ok (project record indices)

/-- The loop over the groups for one batch. -/
def addBatch (numGroups : ℕ) (record : RecordBatch V) (groups : List (PackedColumnGroup V))
    (group : List ℕ × ℕ) : Except Fault (List (PackedColumnGroup V)) := do
  let batch ← selectColumns record group.1
  return if groups.length < numGroups then groups ++ [⟨group.2, group.1, [batch]⟩]
    else groups.modify group.2 fun g => { g with batches := g.batches ++ [batch] }

def splitRecordBatches : Except Fault (List (PackedColumnGroup V)) :=
  match batches with
  | [] => .ok []
  | first :: _ => do
    let s ← (range first.columns.length).foldlM (splitColumn memorySize maxGroupSize batches) {}
    let groupIndices := s.groupIndices ++ [s.smallGroupIndices]
    batches.foldlM (fun groups record =>
      groupIndices.zipIdx.foldlM (addBatch groupIndices.length record) groups) []

end Model

/-! ## The groups of columns -/

/-- After the first `k` columns, of which those with `narrow` are collected. -/
structure Splitting.Inv (maxGroupSize : ℕ) (narrow : ℕ → Prop) [DecidablePred narrow] (k : ℕ)
    (s : Splitting) : Prop where
  perm : (s.groupIndices.flatten ++ s.smallGroupIndices).Perm (range k)
  nonempty : ∀ g ∈ s.groupIndices, g ≠ []
  full : ∀ g ∈ s.groupIndices, (∀ i ∈ g, narrow i) → g.length ≤ maxGroupSize
  length_le : s.smallGroupIndices.length ≤ maxGroupSize
  count : ∃ q, ((range k).filter (narrow ·)).length = q * maxGroupSize + s.smallGroupIndices.length
  ne_nil_iff : s.smallGroupIndices ≠ [] ↔ (∃ i < k, narrow i) ∧
    (maxGroupSize ∣ ((range k).filter (narrow ·)).length → narrow (k - 1))

section Inv

variable {maxGroupSize k : ℕ} {narrow : ℕ → Prop} [DecidablePred narrow] {s : Splitting}
  (hmax : 0 < maxGroupSize)

include hmax

theorem Splitting.Inv.add (h : s.Inv maxGroupSize narrow k) :
    (s.add maxGroupSize (¬narrow k) k).Inv maxGroupSize narrow (k + 1) := by
  obtain ⟨hperm, hne, hfull, hle, ⟨q, hq⟩, -⟩ := h
  -- a collection that is full becomes a group
  obtain ⟨groups, small, hs, hperm, hne, hfull, hlt, q, hq⟩ : ∃ groups small,
      s.flushFull maxGroupSize = ⟨groups, small⟩ ∧ (groups.flatten ++ small).Perm (range k) ∧
      (∀ g ∈ groups, g ≠ []) ∧ (∀ g ∈ groups, (∀ i ∈ g, narrow i) → g.length ≤ maxGroupSize) ∧
      small.length < maxGroupSize ∧
      ∃ q, ((range k).filter (narrow ·)).length = q * maxGroupSize + small.length := by
    unfold flushFull
    split_ifs with hge
    · refine ⟨_, [], rfl, by simpa using hperm, ?_, ?_, hmax, q + 1, ?_⟩
      · exact forall_mem_append.mpr ⟨hne, forall_mem_singleton.mpr fun hnil => by
          simp [hnil] at hge
          omega⟩
      · exact forall_mem_append.mpr ⟨hfull, forall_mem_singleton.mpr fun _ => hle⟩
      · rw [hq, Nat.succ_mul, Nat.le_antisymm hle hge]
        rfl
    · exact ⟨_, _, rfl, hperm, hne, hfull, by omega, q, hq⟩
  unfold Splitting.add
  rw [hs]
  by_cases hk : narrow k
  · simp only [hk, not_true_eq_false, decide_false, Bool.false_eq_true, if_false]
    refine ⟨?_, hne, hfull, by simpa using Nat.succ_le_of_lt hlt, ⟨q, ?_⟩, ?_⟩
    · rw [← append_assoc, range_succ]
      exact hperm.append_right [k]
    · simp [range_succ, hk, hq, Nat.add_assoc]
    · exact iff_of_true (by simp) ⟨⟨k, Nat.lt_succ_self k, hk⟩, fun _ => hk⟩
  · simp only [hk, not_false_eq_true, decide_true, if_true]
    have hcount : ((range (k + 1)).filter (narrow ·)).length = q * maxGroupSize + small.length := by
      simpa [range_succ, hk] using hq
    refine ⟨?_, ?_, ?_, hlt.le, ⟨q, hcount⟩, ?_⟩
    · rw [flatten_append, flatten_singleton, append_assoc, range_succ]
      refine (perm_append_comm.append_left _).trans ?_
      rw [← append_assoc]
      exact hperm.append_right [k]
    · exact forall_mem_append.mpr ⟨hne, by simp⟩
    · exact forall_mem_append.mpr ⟨hfull, forall_mem_singleton.mpr fun hall =>
        absurd (hall k mem_cons_self) hk⟩
    · rw [hcount, Nat.dvd_add_right (Nat.dvd_mul_left ..)]
      constructor
      · intro hsmall
        have hpos := length_pos_iff.mpr hsmall
        obtain ⟨i, hi⟩ := exists_mem_of_length_pos (hcount ▸ Nat.add_pos_right _ hpos)
        exact ⟨⟨i, by simpa using hi⟩, fun hdvd => absurd (Nat.le_of_dvd hpos hdvd) hlt.not_ge⟩
      · rintro ⟨-, hlast⟩ rfl
        exact hk (hlast (Nat.dvd_zero _))

variable (narrow) in
theorem Splitting.inv_foldl (n : ℕ) : Splitting.Inv maxGroupSize narrow n
      ((range n).foldl (fun s i => Splitting.add maxGroupSize (¬narrow i) s i) {}) := by
  induction n with
  | zero => exact ⟨.refl _, by simp, by simp, hmax.le, ⟨0, by simp⟩, by simp⟩
  | succ n ih =>
    rw [range_succ, foldl_append]
    exact ih.add hmax

end Inv

/-! ## The batches of the groups -/

variable {memorySize : RecordBatch V → ℕ → ℕ} {maxGroupSize n : ℕ} {batches : List (RecordBatch V)}

/-- The groups with these columns, after these batches. -/
def groupsOf (groups : List (List ℕ × ℕ)) (records : List (RecordBatch V)) :
    List (PackedColumnGroup V) :=
  if records = [] then [] else groups.map fun g => ⟨g.2, g.1, records.map (project · g.1)⟩

variable {record : RecordBatch V}

theorem selectColumns_ok {indices : List ℕ} (h : ∀ i ∈ indices, i < record.columns.length) :
    selectColumns record indices = .ok (project record indices) := by
  rw [selectColumns, find?_eq_none.mpr (by simpa using h)]

/-- One batch is added to every group. -/
theorem foldlM_addBatch {groups : List (List ℕ)} (records : List (RecordBatch V))
    (h : ∀ g ∈ groups, ∀ i ∈ g, i < record.columns.length) {k : ℕ}
    {done : List (PackedColumnGroup V)} (hk : done.length = k) :
    (groups.zipIdx k).foldlM (addBatch (k + groups.length) record)
        (done ++ groupsOf (groups.zipIdx k) records) =
      .ok (done ++ groupsOf (groups.zipIdx k) (records ++ [record])) := by
  induction groups generalizing k done with
  | nil => simp [groupsOf, pure, Except.pure]
  | cons g groups ih =>
    obtain ⟨hg, hgroups⟩ := forall_mem_cons.mp h
    let g' : PackedColumnGroup V := ⟨k, g, (records ++ [record]).map (project · g)⟩
    have hadd : addBatch (k + (g :: groups).length) record
        (done ++ groupsOf ((g, k) :: groups.zipIdx (k + 1)) records) (g, k) =
          .ok (done ++ [g'] ++ groupsOf (groups.zipIdx (k + 1)) records) := by
      rw [addBatch, selectColumns_ok hg, Except.ok_bind, Except.pure_eq_ok]
      by_cases hnil : records = []
      · simp [groupsOf, hnil, g', hk]
      · subst hk
        rw [if_neg (by simp [groupsOf, hnil]), modify_eq_take_cons_drop (by simp [groupsOf, hnil])]
        simp [groupsOf, hnil, g']
    have ih := ih hgroups (show (done ++ [g']).length = k + 1 by simp [hk])
    rw [Nat.add_right_comm] at ih
    rw [zipIdx_cons, foldlM_cons, hadd, Except.ok_bind]
    apply ih.trans
    simp [groupsOf, g']

theorem foldlM_groups {groups : List (List ℕ)} (h : ∀ g ∈ groups, ∀ i ∈ g, i < n)
    (hbatches : ∀ b ∈ batches, b.columns.length = n) (records : List (RecordBatch V)) :
    batches.foldlM (fun gs record => groups.zipIdx.foldlM (addBatch groups.length record) gs)
      (groupsOf groups.zipIdx records) = .ok (groupsOf groups.zipIdx (records ++ batches)) := by
  induction batches generalizing records with
  | nil => rw [append_nil]; rfl
  | cons b batches ih =>
    obtain ⟨hb, hbatches⟩ := forall_mem_cons.mp hbatches
    have hadd := foldlM_addBatch records (hb ▸ h) (length_nil (α := PackedColumnGroup V))
    rw [Nat.zero_add, nil_append, nil_append] at hadd
    rw [foldlM_cons, hadd, Except.ok_bind, ih hbatches, append_assoc, singleton_append]

section Result

variable (memorySize) {groups : List (List ℕ)} (hne : batches ≠ [])

include hne

variable (groups) in
theorem map_groupsOf : (groupsOf groups.zipIdx batches).map (·.originColumnIndices) = groups := by
  rw [groupsOf, if_neg hne, map_map]
  exact zipIdx_map_fst ..

theorem mem_groupsOf {g : PackedColumnGroup V} (h : g ∈ groupsOf groups.zipIdx batches) :
    g.originColumnIndices ∈ groups ∧ g.batches = batches.map (project · g.originColumnIndices) := by
  constructor
  · rw [← map_groupsOf groups hne]
    exact mem_map_of_mem h
  · rw [groupsOf, if_neg hne] at h
    obtain ⟨_, -, rfl⟩ := mem_map.mp h
    rfl

/-- The groups of columns, if nothing is divided by zero. -/
theorem splitRecordBatches_eq (hcols : ∀ b ∈ batches, b.columns.length = n)
    (hmax : 0 < maxGroupSize) (hrows : columnRows batches ≠ 0 ∨ n = 0) :
    ∃ s : Splitting, s.Inv maxGroupSize (Narrow memorySize batches) n ∧
      splitRecordBatches memorySize maxGroupSize batches =
        .ok (groupsOf (s.groupIndices ++ [s.smallGroupIndices]).zipIdx batches) := by
  have hinv := Splitting.inv_foldl (Narrow memorySize batches) hmax n
  refine ⟨_, hinv, ?_⟩
  have hfold : (range n).foldlM (splitColumn memorySize maxGroupSize batches) {} = .ok
      ((range n).foldl (fun s i =>
        Splitting.add maxGroupSize (¬Narrow memorySize batches i) s i) {}) := by
    rcases hrows with hrows | rfl
    · refine Eq.trans ?_ (foldlM_pure ..)
      congr
      funext s i
      simp [splitColumn, hrows, Narrow, pure, Except.pure]
    · rfl
  have hlt : ∀ s : Splitting, s.Inv maxGroupSize (Narrow memorySize batches) n →
      ∀ g ∈ s.groupIndices ++ [s.smallGroupIndices], ∀ i ∈ g, i < n := by
    intro s hs g hg i hi
    rw [← mem_range, ← hs.perm.mem_iff, ← flatten_concat]
    exact mem_flatten.mpr ⟨g, hg, hi⟩
  cases batches with
  | nil => exact absurd rfl hne
  | cons first rest =>
    rw [splitRecordBatches, hcols first mem_cons_self, hfold, Except.ok_bind]
    exact foldlM_groups (hlt _ hinv) hcols []

/-- **The splitter partitions the columns** if and only if there are rows, some column is narrow,
and the last column is narrow if the narrow columns fill their groups. -/
theorem splitRecordBatches_partition_iff (hmax : 0 < maxGroupSize)
    (hcols : ∀ b ∈ batches, b.columns.length = n) :
    (∃ groups, splitRecordBatches memorySize maxGroupSize batches = .ok groups ∧
      (groups.flatMap (·.originColumnIndices)).Perm (range n) ∧
      (∀ g ∈ groups, g.originColumnIndices ≠ []) ∧
      (∀ g ∈ groups, (∀ i ∈ g.originColumnIndices, Narrow memorySize batches i) →
        g.originColumnIndices.length ≤ maxGroupSize) ∧
      ∀ g ∈ groups, g.batches = batches.map (project · g.originColumnIndices)) ↔
    0 < columnRows batches ∧ (∃ i < n, Narrow memorySize batches i) ∧
      (maxGroupSize ∣ ((range n).filter (Narrow memorySize batches ·)).length →
        Narrow memorySize batches (n - 1)) := by
  by_cases hrows : columnRows batches ≠ 0 ∨ n = 0
  · obtain ⟨s, hs, heq⟩ := splitRecordBatches_eq memorySize hne hcols hmax hrows
    have hmap := map_groupsOf (s.groupIndices ++ [s.smallGroupIndices]) hne
    constructor
    · rintro ⟨groups, hgroups, -, hnonempty, -⟩
      cases heq.symm.trans hgroups
      have hsmall : s.smallGroupIndices ≠ [] := by
        obtain ⟨g, hg, hg'⟩ := mem_map.mp (hmap ▸ mem_append_right s.groupIndices mem_cons_self)
        exact hg' ▸ hnonempty g hg
      have hiff := hs.ne_nil_iff.mp hsmall
      refine ⟨Nat.pos_of_ne_zero (hrows.resolve_right ?_), hiff⟩
      rintro rfl
      obtain ⟨i, hi, -⟩ := hiff.1
      exact Nat.not_lt_zero i hi
    · rintro ⟨-, hiff⟩
      have hsmall := hs.ne_nil_iff.mpr hiff
      refine ⟨_, heq, ?_, fun g hg => ?_, fun g hg hall => ?_, fun g hg => (mem_groupsOf hne hg).2⟩
      · rw [flatMap_def, hmap, flatten_concat]
        exact hs.perm
      · rcases mem_append.mp (mem_groupsOf hne hg).1 with hmem | hmem
        · exact hs.nonempty _ hmem
        · rwa [mem_singleton.mp hmem]
      · rcases mem_append.mp (mem_groupsOf hne hg).1 with hmem | hmem
        · exact hs.full _ hmem hall
        · rw [mem_singleton.mp hmem]
          exact hs.length_le
  · obtain ⟨hzero, hn⟩ := not_or.mp hrows
    have hzero := not_not.mp hzero
    constructor
    · rintro ⟨groups, hgroups, -⟩
      obtain ⟨first, rest, rfl⟩ := exists_cons_of_ne_nil hne
      obtain ⟨k, rfl⟩ := Nat.exists_eq_succ_of_ne_zero hn
      simp [splitRecordBatches, hcols first mem_cons_self, range_succ_eq_map, splitColumn, hzero,
        bind, Except.bind] at hgroups
    · exact fun h => absurd hzero h.1.ne'

end Result

/-- One row with a narrow and then a wide column. -/
def twoColumns : RecordBatch ℕ := ⟨1, [⟨[some 1], rfl⟩, ⟨[some 2], rfl⟩]⟩

/-- A batch without rows, and groups of one column, of which the last is empty. -/
theorem splitRecordBatches_divides :
    splitRecordBatches (fun _ _ => 8) 1 [(⟨0, [⟨[], rfl⟩]⟩ : RecordBatch ℕ)] =
        .error .divisionByZero ∧
      (splitRecordBatches (fun _ i => 1024 * i) 1 [twoColumns]).map
        (·.map (·.originColumnIndices)) = .ok [[0], [1], []] :=
  ⟨rfl, rfl⟩

theorem splitRecordBatches_partition_narrow :
    ∃ groups, splitRecordBatches (fun _ _ => 8) 1 [twoColumns] = .ok groups ∧
      ∀ g ∈ groups, g.originColumnIndices ≠ [] := by
  obtain ⟨groups, hgroups, -, hne, -⟩ := (splitRecordBatches_partition_iff
    (fun _ _ => 8) (cons_ne_nil twoColumns []) Nat.one_pos (forall_mem_singleton.mpr rfl)).mpr
      (by decide)
  exact ⟨groups, hgroups, hne⟩

end MilvusStorage.Packed
