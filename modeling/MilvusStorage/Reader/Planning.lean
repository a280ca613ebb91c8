import Mathlib.Algebra.Order.BigOperators.Group.Finset
import MilvusStorage.Reader.ReadNext

/-!
# Planning a round of reads

The planning loop takes chunks from the groups in the order of their row offsets and only moves
cursors.

* `plan_step`: what an iteration can do.
* `plan_planned`: planning queues nothing, and the planned chunks of a group are always the last
  ones before its cursor (`Cursor.Ok`).
-/

namespace MilvusStorage.Reader

open List Function

variable {V : Type}

/-- The first chunk that is not yet read. -/
def Cursor.read (c : Cursor V) : ℕ := c.chunkIndex - c.loaded.length

/-- The planned chunks are the last ones before the cursor. -/
structure Cursor.Ok (numberOfChunks : ℕ) (c : Cursor V) : Prop where
  length_loaded_le : c.loaded.length ≤ c.chunkIndex
  loaded_eq : c.loaded = List.range' c.read c.loaded.length
  chunkIndex_le : c.chunkIndex ≤ numberOfChunks

namespace PackedReader

variable (R : PackedReader V) (heap : RowOffsetMinHeap) (io : Io)

def Ok (S : State V) : Prop := ∀ i, (S.cg i).Ok (R.numberOfChunks i)

variable {R heap io}

/-! ## Planning -/

/-- A planning step of one group. -/
def planned (c : Cursor V) (rows : ℕ) : Cursor V :=
  { c with
    offset := c.offset + rows
    chunkIndex := c.chunkIndex + 1
    loaded := c.loaded ++ [c.chunkIndex] }

theorem read_planned (c : Cursor V) (rows : ℕ) : (planned c rows).read = c.read := by
  simp only [planned, Cursor.read, length_append, length_singleton]
  omega

theorem ok_planned {c : Cursor V} {n : ℕ} (hc : c.Ok n) (hlt : c.chunkIndex < n) (rows : ℕ) :
    (planned c rows).Ok n := by
  have hle := hc.length_loaded_le
  refine ⟨?_, ?_, hlt⟩
  · simp only [planned, length_append, length_singleton]
    omega
  · rw [read_planned]
    have hread : c.read + c.loaded.length = c.chunkIndex := by
      unfold Cursor.read
      omega
    show c.loaded ++ [c.chunkIndex] = range' c.read (c.loaded ++ [c.chunkIndex]).length
    rw [length_append, length_singleton, range'_concat, ← hc.loaded_eq, one_mul, hread]

variable {S S' : State V} {i fuel : ℕ} {sortedOffsets : List (ℕ × ℤ)} {unavailable : Bool}

/-- `preload_column_group` either fails without planning anything or takes the next chunk. -/
theorem preloadColumnGroup_cases {r : Except Fault (ℕ × Bool)}
    (h : R.preloadColumnGroup io i S = (S', r)) :
    (∃ e, r = .error e ∧ S'.cg = S.cg ∧ S'.currentOffset = S.currentOffset) ∨
      ∃ rows unavailable memoryUsed, r = .ok ((S.cg i).chunkIndex, unavailable) ∧
        (S.cg i).chunkIndex < R.numberOfChunks i ∧
        S' = { S with memoryUsed }.set i { S.cg i with
          offset := (S.cg i).offset + rows, chunkIndex := (S.cg i).chunkIndex + 1 } := by
  unfold preloadColumnGroup at h
  dsimp only at h
  split at h
  · cases h
    exact .inl ⟨_, rfl, rfl, rfl⟩
  · next chunk hchunk =>
    split at h
    · cases h
      exact .inl ⟨_, rfl, rfl, rfl⟩
    · next size hsize =>
      have hlt := lt_of_getElem? hchunk
      split at h
      · cases h
        refine .inl ⟨_, rfl, ?_, ?_⟩
        · cases size <;> rfl
        · cases size <;> rfl
      · cases h
        cases size with
        | none => exact .inr ⟨_, _, S.memoryUsed, rfl, hlt, rfl⟩
        | some n => exact .inr ⟨_, _, toSigned 64 (S.memoryUsed + n), rfl, hlt, rfl⟩

variable (R) in
/-- What planning can do to the groups. -/
structure Planned (S S' : State V) : Prop where
  ok : R.Ok S'
  rbs_eq : ∀ i, (S'.cg i).rbs = (S.cg i).rbs
  read_eq : ∀ i, (S'.cg i).read = (S.cg i).read
  currentOffset_eq : S'.currentOffset = S.currentOffset

theorem Planned.of_eq (hok : R.Ok S) (hcg : S'.cg = S.cg)
    (hoff : S'.currentOffset = S.currentOffset) : Planned R S S' :=
  ⟨fun i => hcg ▸ hok i, fun i => by rw [hcg], fun i => by rw [hcg], hoff⟩

theorem Planned.trans {S'' : State V} (h : Planned R S S') (h' : Planned R S' S'') :
    Planned R S S'' :=
  ⟨h'.ok, fun i => (h'.rbs_eq i).trans (h.rbs_eq i), fun i => (h'.read_eq i).trans (h.read_eq i),
    h'.currentOffset_eq.trans h.currentOffset_eq⟩

/-- The state after a chunk of a group is planned. -/
def planChunk (S : State V) (i rows : ℕ) (memoryUsed : ℤ) : State V :=
  { S with memoryUsed }.set i (planned (S.cg i) rows)

theorem Planned.planChunk (hok : R.Ok S) (hlt : (S.cg i).chunkIndex < R.numberOfChunks i) (rows : ℕ)
    (memoryUsed : ℤ) :
    Planned R S (planChunk S i rows memoryUsed) := by
  have hcg : ∀ j, (PackedReader.planChunk S i rows memoryUsed).cg j =
      if j = i then planned (S.cg i) rows else S.cg j := fun j => update_apply ..
  refine ⟨fun j => ?_, fun j => ?_, fun j => ?_, rfl⟩
  all_goals rw [hcg]; split_ifs with hj
  · rw [hj]
    exact ok_planned (hok i) hlt rows
  · exact hok j
  · rw [hj]
    rfl
  · rfl
  · rw [hj]
    exact read_planned _ rows
  · rfl

variable (R heap io) in
/-- What an iteration of the planning loop can do, with the result of the loop. -/
inductive PlanStep (fuel : ℕ) (sortedOffsets : List (ℕ × ℤ)) (S : State V)
    (result : State V × Option Fault) : Prop
  | done (hdone : sortedOffsets = [] ∨ R.allCgsHaveData S = true) (h : result = (S, none))
  | skip (top : ℕ × ℤ) (htop : top ∈ sortedOffsets)
      (hle : R.numberOfChunks top.1 ≤ (S.cg top.1).chunkIndex) (unavailable : Bool)
      (h : result = R.plan heap io fuel (sortedOffsets.erase top) unavailable S)
  | failed (S' : State V) (e : Fault) (hio : io ≠ .noFailure) (hcg : S'.cg = S.cg)
      (hoff : S'.currentOffset = S.currentOffset) (h : result = (S', some e))
  | chunk (top : ℕ × ℤ) (htop : top ∈ sortedOffsets)
      (hlt : (S.cg top.1).chunkIndex < R.numberOfChunks top.1)
      (rows : ℕ) (memoryUsed : ℤ) (unavailable : Bool)
      (h : result = R.plan heap io fuel
        (R.heapEntry (planChunk S top.1 rows memoryUsed) top.1 ++ sortedOffsets.erase top)
        unavailable (planChunk S top.1 rows memoryUsed))

theorem preloadColumnGroup_noFailure (hlt : (S.cg i).chunkIndex < R.numberOfChunks i) :
    ∃ c, (R.preloadColumnGroup .noFailure i S).2 = .ok c := by
  have hget := getElem?_eq_getElem hlt
  simp only [preloadColumnGroup, hget]
  exact ⟨_, rfl⟩

variable (R heap io) in
theorem plan_step (fuel : ℕ) (sortedOffsets : List (ℕ × ℤ)) (unavailable : Bool) (S : State V) :
    PlanStep R heap io fuel sortedOffsets S
      (R.plan heap io (fuel + 1) sortedOffsets unavailable S) := by
  rw [plan]
  split_ifs with hdone
  · refine .done (hdone.imp_right fun h => ?_) rfl
    simp only [Bool.or_eq_true, not_or, Bool.not_eq_true', Bool.not_eq_false] at h
    exact h.2
  have htop := heap.top_mem sortedOffsets fun h => hdone (.inl h)
  dsimp only
  split_ifs with hle
  · exact .skip _ htop hle unavailable rfl
  · rcases hpre : R.preloadColumnGroup io (heap.top sortedOffsets).1 S with ⟨S', r⟩
    obtain ⟨e, rfl, hcg, hoff⟩ | ⟨rows, u, memoryUsed, rfl, hlt, rfl⟩ :=
      preloadColumnGroup_cases hpre
    · refine .failed S' e ?_ hcg hoff rfl
      rintro rfl
      obtain ⟨c, hc⟩ := preloadColumnGroup_noFailure (not_le.mp hle)
      rw [hpre] at hc
      cases hc
    · refine .chunk _ htop hlt rows memoryUsed (unavailable || u) ?_
      simp [planChunk, planned, State.set, update_idem]

theorem plan_planned {e : Option Fault} (hok : R.Ok S)
    (h : R.plan heap io fuel sortedOffsets unavailable S = (S', e)) : Planned R S S' := by
  induction fuel generalizing sortedOffsets unavailable S with
  | zero =>
    cases h
    exact .of_eq hok rfl rfl
  | succ fuel ih =>
    have hstep := plan_step R heap io fuel sortedOffsets unavailable S
    rw [h] at hstep
    cases hstep with
    | done _ h' =>
      cases h'
      exact .of_eq hok rfl rfl
    | skip top _ _ _ h' => exact ih hok h'.symm
    | failed S1 e1 _ hcg hoff h' =>
      cases h'
      exact .of_eq hok hcg hoff
    | chunk top _ hlt rows memoryUsed _ h' =>
      have hchunk := Planned.planChunk hok hlt rows memoryUsed
      exact hchunk.trans (ih hchunk.ok h'.symm)

theorem plan_noFailure : (R.plan heap .noFailure fuel sortedOffsets unavailable S).2 = none := by
  induction fuel generalizing sortedOffsets unavailable S with
  | zero => rfl
  | succ fuel ih =>
    cases plan_step R heap .noFailure fuel sortedOffsets unavailable S with
    | done _ h => rw [h]
    | skip _ _ _ _ h =>
      rw [h]
      exact ih
    | failed _ _ hio => exact absurd rfl hio
    | chunk _ _ _ _ _ _ h =>
      rw [h]
      exact ih

/-! ## The planning loop ends -/

variable (R) in
/-- The chunks that are not yet planned. -/
def remaining (S : State V) : ℕ :=
  ∑ i ∈ Finset.range R.size, (R.numberOfChunks i - (S.cg i).chunkIndex)

variable (R) in
/-- Every group with chunks left has an entry. -/
def Covers (S : State V) (sortedOffsets : List (ℕ × ℤ)) : Prop :=
  ∀ i < R.size, (S.cg i).chunkIndex < R.numberOfChunks i → ∃ e ∈ sortedOffsets, e.1 = i

theorem remaining_planChunk_lt (hi : i < R.size) (hlt : (S.cg i).chunkIndex < R.numberOfChunks i)
    (rows : ℕ) (memoryUsed : ℤ) :
    R.remaining (planChunk S i rows memoryUsed) < R.remaining S := by
  apply sum_lt_sum
  · intro j _
    by_cases hj : j = i
    · subst hj
      simp only [planChunk, State.set, update_self, planned]
      omega
    · simp only [planChunk, State.set, update_of_ne hj]
      omega
  · refine ⟨i, mem_range.mpr hi, ?_⟩
    simp only [planChunk, State.set, update_self, planned]
    omega

theorem allCgsHaveData_of_covers_nil (h : R.Covers S []) : R.allCgsHaveData S = true := by
  rw [allCgsHaveData, all_eq_true]
  intro i hi
  have hle : ¬ (S.cg i).chunkIndex < R.numberOfChunks i := by
    intro hlt
    obtain ⟨e, he, -⟩ := h i (mem_range.mp hi) hlt
    exact not_mem_nil he
  simp [hle]

theorem Covers.erase (h : R.Covers S sortedOffsets) {top : ℕ × ℤ}
    (hle : R.numberOfChunks top.1 ≤ (S.cg top.1).chunkIndex) :
    R.Covers S (sortedOffsets.erase top) := by
  intro i hi hlt
  obtain ⟨e, he, rfl⟩ := h i hi hlt
  refine ⟨e, (mem_erase_of_ne ?_).mpr he, rfl⟩
  rintro rfl
  omega

theorem exists_mem_heapEntry (hlt : (S.cg i).chunkIndex < R.numberOfChunks i) :
    ∃ e ∈ R.heapEntry S i, e.1 = i := by
  rw [heapEntry, if_pos hlt]
  exact ⟨_, mem_cons_self, rfl⟩

theorem Covers.planChunk (h : R.Covers S sortedOffsets) (top : ℕ × ℤ) (rows : ℕ) (memoryUsed : ℤ) :
    R.Covers (planChunk S top.1 rows memoryUsed)
      (R.heapEntry (PackedReader.planChunk S top.1 rows memoryUsed) top.1 ++
        sortedOffsets.erase top) := by
  intro i hi hlt
  by_cases htop : i = top.1
  · subst htop
    obtain ⟨e, he, hi⟩ := exists_mem_heapEntry hlt
    exact ⟨e, mem_append_left _ he, hi⟩
  · have hcg : (PackedReader.planChunk S top.1 rows memoryUsed).cg i = S.cg i :=
      update_of_ne htop ..
    rw [hcg] at hlt
    obtain ⟨e, he, rfl⟩ := h i hi hlt
    refine ⟨e, mem_append_right _ ((mem_erase_of_ne ?_).mpr he), rfl⟩
    rintro rfl
    exact htop rfl

theorem heapEntry_mem {e : ℕ × ℤ} (he : e ∈ R.heapEntry S i) : e.1 = i := by
  unfold heapEntry at he
  split_ifs at he
  · rw [mem_singleton.mp he]
  · cases he

theorem length_heapEntry_le (S : State V) (i : ℕ) : (R.heapEntry S i).length ≤ 1 := by
  unfold heapEntry
  split_ifs <;> simp

/-- **The plan is complete**: with enough fuel, the planning loop ends only when every group has a
batch queued or planned, or no chunks left. -/
theorem plan_done (hfuel : R.remaining S + sortedOffsets.length ≤ fuel)
    (hcov : R.Covers S sortedOffsets) (hsize : ∀ e ∈ sortedOffsets, e.1 < R.size)
    (h : R.plan heap io fuel sortedOffsets unavailable S = (S', none)) :
    R.allCgsHaveData S' = true := by
  induction fuel generalizing sortedOffsets unavailable S with
  | zero =>
    obtain rfl : sortedOffsets = [] := eq_nil_of_length_eq_zero (by omega)
    obtain rfl : S = S' := congrArg Prod.fst h
    exact allCgsHaveData_of_covers_nil hcov
  | succ fuel ih =>
    have hstep := plan_step R heap io fuel sortedOffsets unavailable S
    rw [h] at hstep
    cases hstep with
    | done hdone h' =>
      obtain rfl : S' = S := congrArg Prod.fst h'
      obtain rfl | hdone := hdone
      · exact allCgsHaveData_of_covers_nil hcov
      · exact hdone
    | skip top htop hle _ h' =>
      refine ih ?_ (hcov.erase hle) (fun e he => hsize e (mem_of_mem_erase he)) h'.symm
      have := length_erase_of_mem htop
      have := length_pos_of_mem htop
      omega
    | failed _ _ _ _ _ h' => cases congrArg Prod.snd h'
    | chunk top htop hlt rows memoryUsed _ h' =>
      refine ih ?_ (hcov.planChunk top rows memoryUsed) (fun e he => ?_) h'.symm
      · have := remaining_planChunk_lt (hsize top htop) hlt rows memoryUsed
        have := length_heapEntry_le (R := R) (planChunk S top.1 rows memoryUsed) top.1
        have := length_erase_of_mem htop
        have := length_pos_of_mem htop
        rw [length_append]
        omega
      · obtain he | he := mem_append.mp he
        · rw [heapEntry_mem he]
          exact hsize top htop
        · exact hsize e (mem_of_mem_erase he)

/-- The heap at the start of the loop. -/
theorem covers_heapEntries (S : State V) :
    R.Covers S ((List.range R.size).flatMap (R.heapEntry S)) := by
  intro i hi hlt
  obtain ⟨e, he, hei⟩ := exists_mem_heapEntry hlt
  exact ⟨e, mem_flatMap.mpr ⟨i, mem_range.mpr hi, he⟩, hei⟩

theorem heapEntries_lt (S : State V) :
    ∀ e ∈ (List.range R.size).flatMap (R.heapEntry S), e.1 < R.size := by
  intro e he
  obtain ⟨i, hi, he⟩ := mem_flatMap.mp he
  rw [heapEntry_mem he]
  exact mem_range.mp hi

theorem remaining_add_length_le (S : State V) :
    R.remaining S + ((List.range R.size).flatMap (R.heapEntry S)).length ≤ R.planFuel := by
  have hlen : ((range R.size).flatMap (R.heapEntry S)).length ≤ R.size := by
    generalize hn : R.size = n
    clear hn
    induction n with
    | zero => exact le_rfl
    | succ n ih =>
      rw [range_succ, flatMap_append, length_append, flatMap_singleton]
      have := length_heapEntry_le (R := R) S n
      omega
  have hrem : R.remaining S ≤ ∑ i ∈ Finset.range R.size, R.numberOfChunks i :=
    sum_le_sum fun i _ => Nat.sub_le ..
  unfold planFuel
  omega

end PackedReader

end MilvusStorage.Reader
