import MilvusStorage.Foundations.SparseFile
import MilvusStorage.Vortex.CellMetas
import Mathlib.Algebra.Order.BigOperators.Group.List
import Mathlib.Data.List.Sort

/-!
# Range files

A range file is a local copy of a file in which only some byte ranges are present. Ranges are merged
before they are filled from the source or punched out. Filling ranges never changes bytes that are
right (`fillRanges_keeps`), and if it succeeds the bytes of the ranges are right
(`fillRanges_holds`).
-/

namespace MilvusStorage.Vortex

open List Command SparseFile

/-- The largest `int64_t`. -/
def int64Max : ℕ := 2 ^ 63 - 1

/-- The positions of a byte range. -/
def ByteRange.Covers (r : ByteRange) (i : ℕ) : Prop := InRange r.offset r.length i

instance (r : ByteRange) (i : ℕ) : Decidable (r.Covers i) :=
  inferInstanceAs (Decidable (InRange _ _ _))

/-- The loop of `MergeByteRanges`, with the last merged range. -/
def mergeFrom (back : ByteRange) : List ByteRange → List ByteRange
  | [] => [back]
  | range :: ranges =>
    if u64Max - range.length < range.offset ∨ u64Max - back.length < back.offset then
      back :: mergeFrom range ranges
    else
      let rangeEnd := range.offset + range.length
      let backEnd := back.offset + back.length
      if range.offset ≤ backEnd then
        mergeFrom { back with length := max backEnd rangeEnd - back.offset } ranges
      else back :: mergeFrom range ranges

/-- `std::sort` by offset is a parameter. -/
def mergeByteRanges (sort : List ByteRange → List ByteRange) (ranges : List ByteRange) :
    List ByteRange :=
  match sort (ranges.filter (·.length ≠ 0)) with
  | [] => []
  | range :: ranges => mergeFrom range ranges

/-- How the IO of a fill ends. -/
structure FillIo where
  readError : Option Fault := none
  writeError : Option Fault := none

variable {β : Type}

def fillVortexRangeFile (source : List β) (io : FillIo) (offset length : ℕ) :
    Command (SparseFile β) Fault Unit :=
  if length = 0 then pure ()
  else if int64Max < length ∨ int64Max < offset then
    fail (.status (.invalid (s!"Vortex sparse range exceeds Arrow IO limits, offset={offset}, " ++
      s!"length={length}")))
  else match io.readError with
    | some e => fail e
    | none =>
      let data := (source.drop offset).take length
      let got := data.length
      if got ≠ length then
        fail (.status (.ioError (s!"Short read while filling vortex sparse file, " ++
          s!"offset={offset}, expect={length}, got={got}")))
      else match io.writeError with
        | some e => fail e
        | none => modify (write offset data)

/-- Fill ranges one after the other. The IO of the `i`th one ends as `io i` says. -/
def fillRanges (source : List β) (io : ℕ → FillIo) (ranges : List ByteRange) :
    Command (SparseFile β) Fault Unit := do
  let _ ← forEach (fun p : ByteRange × ℕ =>
    fillVortexRangeFile source (io p.2) p.1.offset p.1.length) ranges.zipIdx
  return ()

/-- Punch ranges out one after the other. -/
def punchRanges (ranges : List ByteRange) (f : SparseFile β) : SparseFile β :=
  ranges.foldl (fun f r => punch r.offset r.length f) f

/-! ## Merging -/

/-- What `std::sort` by offset returns. -/
structure SortsByOffset (sort : List ByteRange → List ByteRange) : Prop where
  perm : ∀ ranges, (sort ranges).Perm ranges
  sorted : ∀ ranges, (sort ranges).Pairwise fun r r' => r.offset ≤ r'.offset

section Merge

variable {sort : List ByteRange → List ByteRange} {back : ByteRange} {ranges : List ByteRange}
  {n i : ℕ}

theorem covers_mergeFrom (hsorted : (back :: ranges).Pairwise fun r r' => r.offset ≤ r'.offset) :
    (∃ r ∈ mergeFrom back ranges, r.Covers i) ↔ ∃ r ∈ back :: ranges, r.Covers i := by
  induction ranges generalizing back with
  | nil => rw [mergeFrom]
  | cons range ranges ih =>
    obtain ⟨hback, hranges⟩ := pairwise_cons.mp hsorted
    obtain ⟨hrange, htail⟩ := pairwise_cons.mp hranges
    have hle := hback range mem_cons_self
    have hpush : (∃ r ∈ back :: mergeFrom range ranges, r.Covers i) ↔
        ∃ r ∈ back :: range :: ranges, r.Covers i := by
      rw [exists_mem_cons_iff, exists_mem_cons_iff, ih hranges]
    rw [mergeFrom]
    dsimp only
    split_ifs with hoverflow hoverlap
    · exact hpush
    · have hmerged : (⟨back.offset, max (back.offset + back.length)
          (range.offset + range.length) - back.offset⟩ :: ranges).Pairwise
            fun r r' : ByteRange => r.offset ≤ r'.offset :=
        pairwise_cons.mpr ⟨fun r hr => hback r (mem_cons_of_mem _ hr), htail⟩
      rw [ih hmerged]
      simp only [exists_mem_cons_iff, ← or_assoc]
      apply or_congr_left
      simp only [ByteRange.Covers, InRange]
      omega
    · exact hpush

/-- **Merged ranges** cover what the ranges cover. -/
theorem covers_mergeByteRanges (hsort : SortsByOffset sort) :
    (∃ r ∈ mergeByteRanges sort ranges, r.Covers i) ↔ ∃ r ∈ ranges, r.Covers i := by
  have hsorted := hsort.sorted (ranges.filter (·.length ≠ 0))
  have hfilter : (∃ r ∈ sort (ranges.filter (·.length ≠ 0)), r.Covers i) ↔
      ∃ r ∈ ranges, r.Covers i := by
    simp only [(hsort.perm _).mem_iff, mem_filter, decide_eq_true_eq]
    refine ⟨fun ⟨r, hr, hi⟩ => ⟨r, hr.1, hi⟩, fun ⟨r, hr, hi⟩ => ⟨r, ⟨hr, ?_⟩, hi⟩⟩
    simp only [ByteRange.Covers, InRange] at hi
    omega
  rw [← hfilter, mergeByteRanges]
  cases h : sort (ranges.filter (·.length ≠ 0)) with
  | nil => rfl
  | cons range ranges =>
    rw [h] at hsorted
    exact covers_mergeFrom hsorted

/-- The ranges end at or before `n`. -/
def Fit (n : ℕ) (ranges : List ByteRange) : Prop := ∀ r ∈ ranges, r.offset + r.length ≤ n

theorem mergeFrom_fit (hn : n ≤ u64Max)
    (hsorted : (back :: ranges).Pairwise fun r r' => r.offset ≤ r'.offset)
    (hfit : Fit n (back :: ranges)) :
    Fit n (mergeFrom back ranges) ∧
      back.offset + ((mergeFrom back ranges).map (·.length)).sum ≤ n := by
  induction ranges generalizing back with
  | nil =>
    rw [mergeFrom]
    exact ⟨hfit, by simpa using hfit back mem_cons_self⟩
  | cons range ranges ih =>
    obtain ⟨hback, hranges⟩ := pairwise_cons.mp hsorted
    obtain ⟨hrange, htail⟩ := pairwise_cons.mp hranges
    obtain ⟨hfitBack, hfitRanges⟩ := forall_mem_cons.mp hfit
    obtain ⟨hfitRange, hfitTail⟩ := forall_mem_cons.mp hfitRanges
    rw [mergeFrom, if_neg (by omega)]
    dsimp only
    split_ifs with hoverlap
    · refine ih (pairwise_cons.mpr ⟨fun r hr => hback r (mem_cons_of_mem _ hr), htail⟩)
        (forall_mem_cons.mpr ⟨?_, hfitTail⟩)
      dsimp only
      omega
    · obtain ⟨hfit', hsum⟩ := ih hranges hfitRanges
      refine ⟨forall_mem_cons.mpr ⟨hfitBack, hfit'⟩, ?_⟩
      rw [map_cons, sum_cons]
      omega

theorem mergeByteRanges_fit (hsort : SortsByOffset sort) (hn : n ≤ u64Max) (hfit : Fit n ranges) :
    Fit n (mergeByteRanges sort ranges) ∧
      ((mergeByteRanges sort ranges).map (·.length)).sum ≤ n := by
  have hsorted := hsort.sorted (ranges.filter (·.length ≠ 0))
  have hfit : Fit n (sort (ranges.filter (·.length ≠ 0))) := fun r hr =>
    hfit r (mem_of_mem_filter ((hsort.perm _).mem_iff.mp hr))
  rw [mergeByteRanges]
  cases h : sort (ranges.filter (·.length ≠ 0)) with
  | nil => exact ⟨forall_mem_nil _, Nat.zero_le _⟩
  | cons range ranges =>
    rw [h] at hsorted hfit
    obtain ⟨hfit', hsum⟩ := mergeFrom_fit hn hsorted hfit
    exact ⟨hfit', le_trans (Nat.le_add_left ..) hsum⟩

/-- Merged ranges are not empty, and there is a gap before each but the first. -/
theorem mergeFrom_apart (hfit : Fit u64Max (back :: ranges))
    (hne : ∀ r ∈ back :: ranges, r.length ≠ 0)
    (hsorted : (back :: ranges).Pairwise fun r r' => r.offset ≤ r'.offset) :
    (mergeFrom back ranges).Pairwise (fun r r' => r.offset + r.length < r'.offset) ∧
      ∀ r ∈ mergeFrom back ranges, r.length ≠ 0 ∧ back.offset ≤ r.offset := by
  induction ranges generalizing back with
  | nil => simpa [mergeFrom] using hne
  | cons range ranges ih =>
    obtain ⟨hback, hranges⟩ := pairwise_cons.mp hsorted
    obtain ⟨hrange, htail⟩ := pairwise_cons.mp hranges
    obtain ⟨hfitBack, hfitRanges⟩ := forall_mem_cons.mp hfit
    obtain ⟨hfitRange, hfitTail⟩ := forall_mem_cons.mp hfitRanges
    obtain ⟨hneBack, hneRanges⟩ := forall_mem_cons.mp hne
    obtain ⟨hneRange, hneTail⟩ := forall_mem_cons.mp hneRanges
    have hle := hback range mem_cons_self
    rw [mergeFrom, if_neg (by omega)]
    dsimp only
    split_ifs with hoverlap
    · apply ih
      · exact forall_mem_cons.mpr ⟨by dsimp only; omega, hfitTail⟩
      · exact forall_mem_cons.mpr ⟨by dsimp only; omega, hneTail⟩
      · exact pairwise_cons.mpr ⟨fun r hr => hback r (mem_cons_of_mem _ hr), htail⟩
    · obtain ⟨hapart, hge⟩ := ih hfitRanges hneRanges hranges
      refine ⟨pairwise_cons.mpr ⟨fun r hr => ?_, hapart⟩,
        forall_mem_cons.mpr ⟨⟨hneBack, le_rfl⟩, fun r hr => ?_⟩⟩
      · have := (hge r hr).2
        omega
      · exact ⟨(hge r hr).1, hle.trans (hge r hr).2⟩

/-- **Merging is exact**: the merged ranges are not empty, there is a gap between any two of them,
and they cover what the ranges cover. -/
theorem mergeByteRanges_exact (hsort : SortsByOffset sort) (hfit : Fit u64Max ranges) :
    (∀ r ∈ mergeByteRanges sort ranges, r.length ≠ 0) ∧
      (mergeByteRanges sort ranges).Pairwise (fun r r' => r.offset + r.length < r'.offset) ∧
      ∀ i, (∃ r ∈ mergeByteRanges sort ranges, r.Covers i) ↔ ∃ r ∈ ranges, r.Covers i := by
  have hsorted := hsort.sorted (ranges.filter (·.length ≠ 0))
  have hmem : ∀ r ∈ sort (ranges.filter (·.length ≠ 0)), r ∈ ranges ∧ r.length ≠ 0 := by
    intro r hr
    simpa using (hsort.perm _).mem_iff.mp hr
  rw [← and_assoc]
  refine ⟨?_, fun i => covers_mergeByteRanges hsort⟩
  rw [mergeByteRanges]
  cases h : sort (ranges.filter (·.length ≠ 0)) with
  | nil => exact ⟨forall_mem_nil _, .nil⟩
  | cons range ranges =>
    rw [h] at hsorted hmem
    obtain ⟨hapart, hne⟩ := mergeFrom_apart (fun r hr => hfit r (hmem r hr).1)
      (fun r hr => (hmem r hr).2) hsorted
    exact ⟨fun r hr => (hne r hr).1, hapart⟩

def sortRanges (ranges : List ByteRange) : List ByteRange :=
  ranges.insertionSort fun r r' => r.offset ≤ r'.offset

theorem sortsByOffset_sortRanges : SortsByOffset sortRanges where
  perm ranges := perm_insertionSort _ ranges
  sorted ranges := pairwise_insertionSort _ ranges

/-- Two ranges that touch, an empty one, and one after a gap. -/
def touchingRanges : List ByteRange := [⟨4, 2⟩, ⟨9, 0⟩, ⟨0, 4⟩, ⟨8, 1⟩]

theorem mergeByteRanges_exact_touching :
    mergeByteRanges sortRanges touchingRanges = [⟨0, 6⟩, ⟨8, 1⟩] ∧
    (∀ r ∈ mergeByteRanges sortRanges touchingRanges, r.length ≠ 0) ∧
    (mergeByteRanges sortRanges touchingRanges).Pairwise
      (fun r r' => r.offset + r.length < r'.offset) ∧
    ∀ i, (∃ r ∈ mergeByteRanges sortRanges touchingRanges, r.Covers i) ↔
      ∃ r ∈ touchingRanges, r.Covers i := by
  have hfit : Fit u64Max touchingRanges := by simp [Fit, u64Max, touchingRanges]
  exact ⟨by decide, mergeByteRanges_exact sortsByOffset_sortRanges hfit⟩

end Merge

/-! ## Filling and punching -/

section Fill

variable {source : List β} {io : FillIo} {f : SparseFile β} {ranges : List ByteRange} {i : ℕ}

/-- A fill changes nothing, or writes the bytes of its range. -/
theorem fillVortexRangeFile_cases (source : List β) (io : FillIo) (offset length : ℕ)
    (f : SparseFile β) :
    (∃ e, fillVortexRangeFile source io offset length f = (f, .error e)) ∨
      fillVortexRangeFile source io offset length f = (copy source offset length f, .ok ()) ∧
        (∀ i, InRange offset length i → i < source.length) := by
  unfold fillVortexRangeFile
  split_ifs with hzero hlimit
  · subst hzero
    rw [copy_zero]
    refine .inr ⟨rfl, fun i hi => ?_⟩
    unfold InRange at hi
    omega
  · exact .inl ⟨_, rfl⟩
  · cases io.readError with
    | some e => exact .inl ⟨e, rfl⟩
    | none =>
      dsimp only
      split_ifs with hshort
      · exact .inl ⟨_, rfl⟩
      · rw [length_take, length_drop] at hshort
        have hle : offset + length ≤ source.length := by omega
        cases io.writeError with
        | some e => exact .inl ⟨e, rfl⟩
        | none =>
          refine .inr ⟨?_, fun i hi => hi.2.trans_le hle⟩
          simp [← write_slice hle]

theorem fillVortexRangeFile_ok {offset length : ℕ} (hle : offset + length ≤ source.length)
    (hsize : source.length ≤ int64Max) :
    (fillVortexRangeFile source {} offset length f).2 = .ok () := by
  unfold fillVortexRangeFile
  split_ifs with hzero hlimit
  · rfl
  · omega
  · rw [if_neg (by rw [length_take, length_drop]; omega)]
    rfl

theorem fillVortexRangeFile_keeps (source : List β) (io : FillIo) (offset length : ℕ)
    (P : ℕ → Prop) :
    Keeps (SparseFile.Holds source · P) (fillVortexRangeFile source io offset length) := by
  refine keeps_iff.mpr fun f hf => ?_
  obtain ⟨e, he⟩ | ⟨hok, -⟩ := fillVortexRangeFile_cases source io offset length f
  · rwa [he]
  · rw [hok]
    exact hf.copy offset length

theorem fillVortexRangeFile_holds {offset length : ℕ} {f' : SparseFile β} {u : Unit}
    (h : fillVortexRangeFile source io offset length f = (f', .ok u)) :
    SparseFile.Holds source f' (InRange offset length) := by
  obtain ⟨e, he⟩ | ⟨hok, hlt⟩ := fillVortexRangeFile_cases source io offset length f
  · rw [he] at h
    cases h
  · rw [hok] at h
    cases h
    exact holds_copy hlt

/-- **Filling ranges** never changes bytes that are right. -/
theorem fillRanges_keeps (source : List β) (io : ℕ → FillIo) (ranges : List ByteRange)
    (P : ℕ → Prop) : Keeps (SparseFile.Holds source · P) (fillRanges source io ranges) :=
  (keeps_forEach (fun _ => fillVortexRangeFile_keeps _ _ _ _ _) _).bind fun _ => keeps_pure _

/-- After ranges have been filled, their bytes are right. -/
theorem fillRanges_holds {io : ℕ → FillIo} {f' : SparseFile β} {u : Unit}
    (h : fillRanges source io ranges f = (f', .ok u)) :
    SparseFile.Holds source f' fun i => ∃ r ∈ ranges, r.Covers i := by
  obtain ⟨f1, _, hloop, h⟩ := bind_run_eq_ok h
  cases h
  have hall := forEach_all (Q := fun p f => SparseFile.Holds source f p.1.Covers)
    (fun p f f' _ hp => fillVortexRangeFile_holds hp)
    (fun p p' => fillVortexRangeFile_keeps _ _ _ _ _) hloop
  rintro i ⟨r, hr, hi⟩
  obtain ⟨k, hk⟩ := mem_iff_getElem?.mp hr
  exact hall (r, k) (mk_mem_zipIdx_iff_getElem?.mpr hk) i hi

theorem fillRanges_ok (hfit : Fit source.length ranges) (hsize : source.length ≤ int64Max)
    (f : SparseFile β) :
    ∃ f', fillRanges source (fun _ => {}) ranges f = (f', .ok ()) := by
  have hfill : ∀ p ∈ ranges.zipIdx, ∀ f : SparseFile β, ∃ f' u,
      fillVortexRangeFile source {} p.1.offset p.1.length f = (f', .ok u) := fun p hp f =>
    ⟨_, (), Prod.ext rfl (fillVortexRangeFile_ok (hfit p.1 (fst_mem_of_mem_zipIdx hp)) hsize)⟩
  obtain ⟨f', us, hloop⟩ := exists_forEach_ok hfill f
  exact ⟨f', bind_run_ok hloop⟩

theorem punchRanges_apply (ranges : List ByteRange) (f : SparseFile β) (i : ℕ) :
    punchRanges ranges f i = if ∃ r ∈ ranges, r.Covers i then none else f i := by
  induction ranges generalizing f with
  | nil => simp [punchRanges]
  | cons r ranges ih =>
    rw [punchRanges, foldl_cons, ← punchRanges, ih]
    simp only [exists_mem_cons_iff]
    by_cases hr : r.Covers i
    · rw [if_pos (Or.inl hr), punch_of_inRange hr, ite_self]
    · simp [hr, punch_of_not_inRange hr]

end Fill

end MilvusStorage.Vortex
