import Mathlib.Data.List.SplitLengths
import MilvusStorage.Format.Open
import MilvusStorage.Foundations.Grouping
import MilvusStorage.Foundations.Segments

/-!
# Cutting batches into chunks

A range read of a file returns batches, which `read_chunks_from_files` and `get_chunks_async` cut
into one batch per chunk. Both loops keep a place in the batches, `rbs_idx` and `rbs_offset`, and
never take a chunk from two batches. They differ in what they do when no batch is left: the
asynchronous one returns an error, the synchronous one looks at the batch anyway.

`cut_cases`: the cut succeeds exactly if the chunks fit into the batches, and runs out of batches
exactly if these are used up before the last chunk.
-/

namespace MilvusStorage.Format

open List Grouping

variable {Row : Type}

/-- `ChunkInfo::ToString`. -/
def ChunkInfo.toString (c : ChunkInfo) : String :=
  let fileIndex := c.fileIndex
  let rowOffsetInRowGroup := c.rowOffsetInRowGroup
  let rowOffsetInFile := c.rowOffsetInFile
  let numberOfRows := c.numberOfRows
  let rowGroupIndexInFile := c.rowGroupIndexInFile
  let globalRowEnd := c.globalRowEnd
  let avgMemorySize := c.avgMemorySize
  s!"ChunkInfo\x7bfile_index={fileIndex}, row_offset_in_row_group={rowOffsetInRowGroup}" ++
    s!", row_offset_in_file={rowOffsetInFile}, number_of_rows={numberOfRows}" ++
    s!", row_group_index_in_file={rowGroupIndexInFile}, global_row_end={globalRowEnd}" ++
    s!", avg_memory_size={avgMemorySize}\x7d"

/-- The place after `n` rows of the batch `rb`. -/
def advanceRows (rb : List Row) (c : Segments.Cursor) (n : ℕ) : Segments.Cursor :=
  if c.offset + n = rb.length then ⟨c.chunk + 1, 0⟩ else ⟨c.chunk, c.offset + n⟩

/-- The loop over the chunks. `missing` is what happens if there is no batch left, `short` if the
batch has too few rows left. -/
def cut (missing : ChunkInfo → Fault) (short : ChunkInfo → ℕ → Fault) (rbs : List (List Row)) :
    Segments.Cursor → List ChunkInfo → Except Fault (List (List Row))
  | _, [] => .ok []
  | c, chunkInfo :: chunkInfos =>
    match rbs[c.chunk]? with
    | none => .error (missing chunkInfo)
    | some rb =>
      if rb.length - c.offset < chunkInfo.numberOfRows then
        .error (short chunkInfo (rb.length - c.offset))
      else do
        let rest ← cut missing short rbs (advanceRows rb c chunkInfo.numberOfRows) chunkInfos
        return (rb.drop c.offset).take chunkInfo.numberOfRows :: rest

def invalidSlice (chunkInfo : ChunkInfo) (available : ℕ) : Status :=
  let numberOfRows := chunkInfo.numberOfRows
  let info := chunkInfo.toString
  .invalid (s!"Invalid slice of record batchs: {numberOfRows} out of {available}" ++
    s!", [chunk info={info}]")

def invalidSliceAsync (chunkInfo : ChunkInfo) : Status :=
  let info := chunkInfo.toString
  .invalid s!"Invalid slice of record batches in async read: [chunk_info={info}]"

/-- The loop of `read_chunks_from_files`. -/
def cutSync (rbsInFile : List (List Row)) (chunkInfos : List ChunkInfo) :
    Except Fault (List (List Row)) :=
  cut (fun _ => .outOfBounds) (fun info n => .status (invalidSlice info n)) rbsInFile ⟨0, 0⟩
    chunkInfos

/-- The loop of `get_chunks_async`. -/
def cutAsync (rbs : List (List Row)) (chunkInfos : List ChunkInfo) :
    Except Fault (List (List Row)) :=
  cut (fun info => .status (invalidSliceAsync info))
    (fun info _ => .status (invalidSliceAsync info)) rbs ⟨0, 0⟩ chunkInfos

/-! ## What is cut -/

/-- The sizes of the batches from a place on. -/
def sizesFrom (rbs : List (List Row)) (c : Segments.Cursor) : List ℕ :=
  match rbs.drop c.chunk with
  | [] => []
  | rb :: rest => (rb.length - c.offset) :: rest.map List.length

theorem sizesFrom_zero (rbs : List (List Row)) : sizesFrom rbs ⟨0, 0⟩ = rbs.map List.length := by
  cases rbs with
  | nil => rfl
  | cons rb rbs => rfl

variable {rbs : List (List Row)} {c : Segments.Cursor}

theorem sizesFrom_of_getElem? {rb : List Row} (h : rbs[c.chunk]? = some rb) :
    sizesFrom rbs c = (rb.length - c.offset) :: (rbs.drop (c.chunk + 1)).map List.length := by
  obtain ⟨hlt, rfl⟩ := List.getElem?_eq_some_iff.mp h
  rw [sizesFrom, drop_eq_getElem_cons hlt]

theorem sizesFrom_succ (rbs : List (List Row)) (k : ℕ) :
    sizesFrom rbs ⟨k + 1, 0⟩ = (rbs.drop (k + 1)).map List.length := by
  unfold sizesFrom
  cases rbs.drop (k + 1) with
  | nil => rfl
  | cons rb rest => rfl

/-- The numbers of rows of some chunks. -/
def sizes (chunkInfos : List ChunkInfo) : List ℕ := chunkInfos.map ChunkInfo.numberOfRows

theorem advanceRows_eq_step {rb : List Row} {n : ℕ} (h : c.offset ≤ rb.length) :
    advanceRows rb c n = Segments.step rb c n := by
  unfold advanceRows Segments.step
  congr 1
  rw [eq_iff_iff]
  omega

section Cut

variable {rbs : List (List Row)} {c : Segments.Cursor} {rb : List Row} {n : ℕ}

section

variable (hrb : rbs[c.chunk]? = some rb) (hle : c.offset ≤ rb.length)
  (hn : n ≤ rb.length - c.offset)
include hrb hle hn

/-- What is left after a chunk of `n` rows. -/
theorem sizesFrom_advanceRows : n < rb.length - c.offset ∧ sizesFrom rbs (advanceRows rb c n) =
      (rb.length - c.offset - n) :: (rbs.drop (c.chunk + 1)).map List.length ∨
    n = rb.length - c.offset ∧ sizesFrom rbs (advanceRows rb c n) =
      (rbs.drop (c.chunk + 1)).map List.length := by
  unfold advanceRows
  split_ifs with heq
  · exact .inr ⟨by omega, sizesFrom_succ rbs c.chunk⟩
  · refine .inl ⟨by omega, ?_⟩
    rw [Nat.sub_sub]
    exact sizesFrom_of_getElem? hrb

theorem fits_advanceRows {ns : List ℕ} (hns : ∀ n ∈ ns, 0 < n) :
    Fits (sizesFrom rbs c) (n :: ns) ↔ Fits (sizesFrom rbs (advanceRows rb c n)) ns := by
  rw [sizesFrom_of_getElem? hrb, fits_cons hns]
  obtain ⟨hlt, h⟩ | ⟨heq, h⟩ := sizesFrom_advanceRows hrb hle hn
  · rw [h, and_iff_right hlt, or_iff_left (by omega)]
  · rw [h, and_iff_right heq, or_iff_right (by omega)]

theorem exhausted_advanceRows {ns : List ℕ} (hns : ∀ n ∈ ns, 0 < n) :
    Exhausted (sizesFrom rbs c) (n :: ns) ↔ Exhausted (sizesFrom rbs (advanceRows rb c n)) ns := by
  rw [sizesFrom_of_getElem? hrb, exhausted_cons hns]
  obtain ⟨hlt, h⟩ | ⟨heq, h⟩ := sizesFrom_advanceRows hrb hle hn
  · rw [h, and_iff_right hlt, or_iff_left (by omega)]
  · rw [h, and_iff_right heq, or_iff_right (by omega)]

theorem offset_advanceRows_le {rb' : List Row}
    (hrb' : rbs[(advanceRows rb c n).chunk]? = some rb') :
    (advanceRows rb c n).offset ≤ rb'.length := by
  unfold advanceRows at hrb' ⊢
  split_ifs at hrb' ⊢
  · exact Nat.zero_le _
  · cases hrb.symm.trans hrb'
    dsimp only
    omega

end

variable (missing : ChunkInfo → Fault) (short : ChunkInfo → ℕ → Fault)

theorem cut_cons {info : ChunkInfo} (infos : List ChunkInfo) (hrb : rbs[c.chunk]? = some rb)
    (hn : info.numberOfRows ≤ rb.length - c.offset) :
    cut missing short rbs c (info :: infos) =
      (cut missing short rbs (advanceRows rb c info.numberOfRows) infos).map
        ((rb.drop c.offset).take info.numberOfRows :: ·) := by
  rw [cut, hrb]
  dsimp only
  rw [if_neg (by omega)]
  cases cut missing short rbs (advanceRows rb c info.numberOfRows) infos with
  | error e => rfl
  | ok rest => rfl

/-- **The three ways a cut can end.** -/
theorem cut_cases {chunkInfos : List ChunkInfo} (hpos : ∀ info ∈ chunkInfos, 0 < info.numberOfRows)
    (hc : ∀ rb, rbs[c.chunk]? = some rb → c.offset ≤ rb.length) :
    (Fits (sizesFrom rbs c) (sizes chunkInfos) ∧ cut missing short rbs c chunkInfos =
      .ok ((sizes chunkInfos).splitLengths (Segments.rest rbs c))) ∨
    (Exhausted (sizesFrom rbs c) (sizes chunkInfos) ∧ ∃ info ∈ chunkInfos,
      cut missing short rbs c chunkInfos = .error (missing info)) ∨
    (¬ Fits (sizesFrom rbs c) (sizes chunkInfos) ∧
      ¬ Exhausted (sizesFrom rbs c) (sizes chunkInfos) ∧ ∃ info ∈ chunkInfos, ∃ n,
        cut missing short rbs c chunkInfos = .error (short info n)) := by
  induction chunkInfos generalizing c with
  | nil => exact .inl ⟨fits_nil, rfl⟩
  | cons info infos ih =>
    obtain ⟨hn, hpos⟩ := forall_mem_cons.mp hpos
    have hsizes : ∀ n ∈ sizes infos, 0 < n := forall_mem_map.mpr hpos
    rw [show sizes (info :: infos) = info.numberOfRows :: sizes infos from rfl]
    cases hrb : rbs[c.chunk]? with
    | none =>
      have hnil : sizesFrom rbs c = [] := by
        rw [sizesFrom, drop_eq_nil_of_le (getElem?_eq_none_iff.mp hrb)]
      refine .inr (.inl ⟨hnil ▸ exhausted_nil (cons_ne_nil _ _), info, mem_cons_self, ?_⟩)
      rw [cut, hrb]
    | some rb =>
      have hle := hc rb hrb
      by_cases hshort : rb.length - c.offset < info.numberOfRows
      · rw [sizesFrom_of_getElem? hrb, fits_cons hsizes, exhausted_cons hsizes]
        refine .inr (.inr ⟨by omega, by omega, info, mem_cons_self, rb.length - c.offset, ?_⟩)
        rw [cut, hrb]
        exact if_pos hshort
      · have hn' : info.numberOfRows ≤ rb.length - c.offset := Nat.le_of_not_lt hshort
        have hwithin : Segments.Within rbs c rb := by
          refine ⟨hrb, hle, fun hnil => ?_⟩
          rw [Segments.rest_eq hrb hle, append_eq_nil_iff, drop_eq_nil_iff] at hnil
          omega
        have hrest := Segments.rest_step hwithin hn'
        rw [← advanceRows_eq_step hle] at hrest
        rw [cut_cons missing short infos hrb hn', splitLengths_cons,
          Segments.take_rest hwithin hn', ← hrest, fits_advanceRows hrb hle hn' hsizes,
          exhausted_advanceRows hrb hle hn' hsizes]
        refine (ih hpos fun rb' => offset_advanceRows_le hrb hle hn').imp ?_ (Or.imp ?_ ?_)
        · rintro ⟨hfits, hcut⟩
          exact ⟨hfits, by rw [hcut]; rfl⟩
        · rintro ⟨hexhausted, info', hmem, hcut⟩
          exact ⟨hexhausted, info', mem_cons_of_mem _ hmem, by rw [hcut]; rfl⟩
        · rintro ⟨hfits, hexhausted, info', hmem, k, hcut⟩
          exact ⟨hfits, hexhausted, info', mem_cons_of_mem _ hmem, k, by rw [hcut]; rfl⟩

end Cut

/-- The place of a piece in the concatenation. -/
theorem getElem?_splitLengths {α : Type} (ns : List ℕ) (l : List α) (k : ℕ) :
    (ns.splitLengths l)[k]? = ns[k]?.map fun n => (l.drop (ns.take k).sum).take n := by
  induction ns generalizing l k with
  | nil => rfl
  | cons n ns ih =>
    rw [splitLengths_cons]
    cases k with
    | zero => rfl
    | succ k =>
      rw [getElem?_cons_succ, ih, getElem?_cons_succ, take_succ_cons, sum_cons, drop_drop]

/-- The rows of the `k`-th chunk: as many as it has, from its place in the concatenation. -/
def CutAt (rbs : List (List Row)) (chunkInfos : List ChunkInfo) (k : ℕ) (rows : List Row) : Prop :=
  ∃ info, chunkInfos[k]? = some info ∧ rows.length = info.numberOfRows ∧
    rows = (rbs.flatten.drop (sizes (chunkInfos.take k)).sum).take info.numberOfRows

theorem cutAt_of_fits {chunkInfos : List ChunkInfo} {k : ℕ} {rows : List Row}
    (hfits : Fits (rbs.map List.length) (sizes chunkInfos))
    (hk : ((sizes chunkInfos).splitLengths rbs.flatten)[k]? = some rows) :
    CutAt rbs chunkInfos k rows := by
  have hsum : (sizes chunkInfos).sum ≤ rbs.flatten.length :=
    hfits.sum_le.trans_eq length_flatten.symm
  have hlen := congrArg (·[k]?) (map_splitLengths_length rbs.flatten _ hsum)
  rw [getElem?_map, hk, sizes, getElem?_map] at hlen
  obtain ⟨info, hinfo, hrows⟩ := Option.map_eq_some_iff.mp hlen.symm
  rw [getElem?_splitLengths, sizes, getElem?_map, hinfo] at hk
  refine ⟨info, hinfo, hrows.symm, ?_⟩
  rw [← Option.some.inj hk, sizes, map_take]

/-! ## The two loops -/

section Loops

variable {rbs : List (List Row)} {chunkInfos : List ChunkInfo}
  (hpos : ∀ info ∈ chunkInfos, 0 < info.numberOfRows)

include hpos

theorem forall_sizes_pos : ∀ n ∈ sizes chunkInfos, 0 < n := forall_mem_map.mpr hpos

variable (rbs)

theorem cutSync_cases : (Fits (rbs.map List.length) (sizes chunkInfos) ∧
      cutSync rbs chunkInfos = .ok ((sizes chunkInfos).splitLengths rbs.flatten)) ∨
    (Exhausted (rbs.map List.length) (sizes chunkInfos) ∧
      cutSync rbs chunkInfos = .error .outOfBounds) ∨
    (¬ Fits (rbs.map List.length) (sizes chunkInfos) ∧
      ¬ Exhausted (rbs.map List.length) (sizes chunkInfos) ∧ ∃ s,
        cutSync rbs chunkInfos = .error (.status s)) := by
  rw [← sizesFrom_zero]
  refine (cut_cases (fun _ => .outOfBounds) (fun info n => .status (invalidSlice info n)) hpos
    fun rb _ => Nat.zero_le _).imp id (Or.imp ?_ ?_)
  · rintro ⟨hexhausted, info, -, hcut⟩
    exact ⟨hexhausted, hcut⟩
  · rintro ⟨hfits, hexhausted, info, -, n, hcut⟩
    exact ⟨hfits, hexhausted, _, hcut⟩

theorem cutAsync_cases : (Fits (rbs.map List.length) (sizes chunkInfos) ∧
      cutAsync rbs chunkInfos = .ok ((sizes chunkInfos).splitLengths rbs.flatten)) ∨
    (¬ Fits (rbs.map List.length) (sizes chunkInfos) ∧ ∃ s,
      cutAsync rbs chunkInfos = .error (.status s)) := by
  rw [← sizesFrom_zero]
  obtain h | ⟨hexhausted, info, -, hcut⟩ | ⟨hfits, -, info, -, n, hcut⟩ :=
    cut_cases (fun info => .status (invalidSliceAsync info))
      (fun info _ => .status (invalidSliceAsync info)) hpos
      fun rb (_ : rbs[(⟨0, 0⟩ : Segments.Cursor).chunk]? = some rb) => Nat.zero_le _
  · exact .inl h
  · exact .inr ⟨hexhausted.not_fits (forall_sizes_pos hpos), _, hcut⟩
  · exact .inr ⟨hfits, _, hcut⟩

end Loops

end MilvusStorage.Format
