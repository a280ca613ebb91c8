import Mathlib.Data.List.Basic
import MilvusStorage.Common.Status
import MilvusStorage.Foundations.Except

/-!
# Copying selected rows of a table

`CopySelectedRows` copies the rows at the given indices, in their order, one column after the other.
A column is a list of chunks. Adjacent indices in the same chunk are copied as one slice, and the
slices together are the cells at the indices (`copyRuns_eq`). They go into a builder, which may
refuse them (`exists_copyColumn`).
-/

namespace MilvusStorage

open List

variable {Row : Type}

/-- `ChunkResolver::Resolve`: the chunk of a row, and the place of the row in it. -/
def resolve : List (List Row) → ℕ → Option (List Row × ℕ)
  | [], _ => none
  | chunk :: chunks, index =>
    if index < chunk.length then some (chunk, index) else resolve chunks (index - chunk.length)

/-- How many of the next indices go on from `next` in the same chunk, of which `room` rows are
left. -/
def runLength : ℤ → ℕ → List ℤ → ℕ
  | _, _, [] => 0
  | _, 0, _ :: _ => 0
  | next, room + 1, index :: indices =>
    if index = next then runLength (next + 1) room indices + 1 else 0

/-- The loop over the output: the slices that are appended. -/
def copyRuns (chunks : List (List Row)) : List ℤ → Except Fault (List (List Row))
  | [] => .ok []
  | index :: indices =>
    match resolve chunks index.toNat with
    | none => .error .outOfBounds
    | some (chunk, offset) => do
      let n := runLength (index + 1) (chunk.length - offset - 1) indices
      let slices ← copyRuns chunks (indices.drop n)
      return (chunk.drop offset).take (n + 1) :: slices
termination_by indices => indices.length
decreasing_by
  rw [length_drop, length_cons]
  omega

/-- Making a builder for the column `k`, appending slices to it and finishing it. There are types
without a builder, such as extension types, and cells that do not fit into one array. -/
abbrev ColumnBuilder (K Row : Type) := K → List (List Row) → Except Status (List Row)

/-- The builder appends exactly the slices it is given. -/
def ColumnBuilder.Appends {K : Type} (build : ColumnBuilder K Row) : Prop :=
  ∀ k slices cells, build k slices = .ok cells → cells = slices.flatten

section

variable {K : Type} (build : ColumnBuilder K Row)

/-- The body of the loop over the columns. -/
def copyColumn (indices : List ℤ) (column : K × List (List Row)) : Except Fault (K × List Row) := do
  let slices ← copyRuns column.2 indices
  let cells ← (build column.1 slices).mapError Fault.status
  return (column.1, cells)

def copySelectedRows (numRows : ℕ) (columns : List (K × List (List Row))) (indices : List ℤ) :
    Except Fault (List (K × List Row)) :=
  match indices.find? fun index : ℤ => index < 0 ∨ index ≥ numRows with
  | some index => .error (.status (.indexError
      s!"Index {index} out of bounds for table with {numRows} rows"))
  | none => columns.mapM (copyColumn build indices)

variable {build} in
theorem copyColumn_eq_ok {indices : List ℤ} {column : K × List (List Row)}
    {column' : K × List Row} :
    copyColumn build indices column = .ok column' ↔
      ∃ slices, copyRuns column.2 indices = .ok slices ∧
      ∃ cells, build column.1 slices = .ok cells ∧ (column.1, cells) = column' := by
  simp only [copyColumn, Except.bind_eq_ok, Except.pure_eq_ok_iff, Except.mapError_eq_ok]

end

theorem resolve_spec (chunks : List (List Row)) {index : ℕ} (h : index < chunks.flatten.length) :
    ∃ chunk offset, resolve chunks index = some (chunk, offset) ∧ offset < chunk.length ∧
      ∀ k, offset + k < chunk.length → chunks.flatten[index + k]? = chunk[offset + k]? := by
  induction chunks generalizing index with
  | nil => simp at h
  | cons chunk chunks ih =>
    rw [flatten_cons, length_append] at h
    rw [resolve, flatten_cons]
    split_ifs with hlt
    · exact ⟨chunk, index, rfl, hlt, fun k hk => getElem?_append_left hk⟩
    · obtain ⟨chunk', offset, hresolve, hoff, hget⟩ := ih
        (show index - chunk.length < _ by omega)
      refine ⟨chunk', offset, hresolve, hoff, fun k hk => ?_⟩
      rw [← hget k hk, getElem?_append_right (by omega)]
      congr 1
      omega

/-- The indices of a run. -/
theorem runLength_spec (next : ℤ) (room : ℕ) (indices : List ℤ) :
    runLength next room indices ≤ room ∧ indices.take (runLength next room indices) =
      (List.range (runLength next room indices)).map fun k : ℕ => next + k := by
  induction indices generalizing next room with
  | nil => simp [runLength]
  | cons index indices ih =>
    cases room with
    | zero => simp [runLength]
    | succ room =>
      rw [runLength]
      split_ifs with heq
      · obtain ⟨hle, htake⟩ := ih (next + 1) room
        refine ⟨by omega, ?_⟩
        rw [take_succ_cons, htake, range_succ_eq_map, heq]
        simp [Int.add_assoc, Int.add_comm 1]
      · simp

/-- A slice of a chunk. -/
theorem map_some_take_drop (l : List Row) {offset n : ℕ} (h : offset + n ≤ l.length) :
    ((l.drop offset).take n).map some = (List.range n).map fun k => l[offset + k]? := by
  apply ext_getElem?
  intro i
  by_cases hi : i < n
  · have hlt : offset + i < l.length := by omega
    simp [hi, hlt]
  · rw [getElem?_eq_none (by simp; omega), getElem?_eq_none (by simp; omega)]

theorem find?_outOfBounds {indices : List ℤ} {n : ℕ} :
    indices.find? (fun index : ℤ => index < 0 ∨ index ≥ n) = none ↔
      ∀ i ∈ indices, 0 ≤ i ∧ i < n := by
  simp only [find?_eq_none, decide_eq_true_iff, not_or, not_lt, ge_iff_le, not_le]

section

variable {chunks : List (List Row)} {indices : List ℤ}
  (h : ∀ i ∈ indices, 0 ≤ i ∧ i < chunks.flatten.length)
include h

theorem copyRuns_eq : ∃ slices, copyRuns chunks indices = .ok slices ∧
      slices.flatten.map some = indices.map fun i => chunks.flatten[i.toNat]? := by
  induction hn : indices.length using Nat.strongRecOn generalizing indices with
  | _ n ih =>
    cases indices with
    | nil => exact ⟨[], by rw [copyRuns], rfl⟩
    | cons index indices =>
      obtain ⟨hidx, hindices⟩ := forall_mem_cons.mp h
      obtain ⟨chunk, offset, hresolve, hoff, hget⟩ :=
        resolve_spec chunks (show index.toNat < _ by omega)
      obtain ⟨hrun, htake⟩ := runLength_spec (index + 1) (chunk.length - offset - 1) indices
      simp only [copyRuns, hresolve]
      generalize runLength (index + 1) (chunk.length - offset - 1) indices = m at hrun htake ⊢
      obtain ⟨slices, hslices, hmap⟩ := ih (indices.drop m).length (by simp at hn; simp; omega)
        (fun i hi => hindices i (mem_of_mem_drop hi)) rfl
      refine ⟨(chunk.drop offset).take (m + 1) :: slices, by rw [hslices]; rfl, ?_⟩
      have hsplit : index :: indices =
          ((range (m + 1)).map fun k : ℕ => index + k) ++ indices.drop m := by
        conv_lhs => rw [← take_append_drop m indices, htake]
        simp [range_succ_eq_map, Int.add_assoc, Int.add_comm 1]
      rw [hsplit, flatten_cons, map_append, map_append, hmap, map_some_take_drop _ (by omega),
        map_map]
      congr 1
      apply map_congr_left
      intro k hk
      rw [mem_range] at hk
      rw [← hget k (by omega), Function.comp_apply]
      congr 1
      omega

/-- **The selected cells of a column**, if the builder takes them. -/
theorem exists_copyColumn {K : Type} {build : ColumnBuilder K Row} {k : K}
    (hbuild : ∀ slices, slices.flatten.map some = indices.map (fun i => chunks.flatten[i.toNat]?) →
      build k slices = .ok slices.flatten) :
    ∃ cells, copyColumn build indices (k, chunks) = .ok (k, cells) ∧
      cells.map some = indices.map fun i => chunks.flatten[i.toNat]? := by
  obtain ⟨slices, hslices, hmap⟩ := copyRuns_eq h
  exact ⟨slices.flatten, copyColumn_eq_ok.mpr ⟨slices, hslices, _, hbuild slices hmap, rfl⟩, hmap⟩

end

end MilvusStorage
