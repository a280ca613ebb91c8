import Mathlib.Algebra.Order.Ring.Nat
import Mathlib.Data.List.MinMax

/-!
# Record batches and the row offset heap

A record batch is a number of rows and columns of that many cells, where a null cell is `none`. Both
readers deliver their rows in record batches and plan their reads with a heap of row offsets.

* `advance n` removes the first `n` rows of a queue of batches, by popping or slicing its front; the
  cells of the queue lose exactly these rows (`cells_advance`).
-/

namespace MilvusStorage

open List

/-- A column of `n` cells. -/
abbrev Cells (V : Type) (n : ℕ) := { cells : List (Option V) // cells.length = n }

namespace Cells

variable {V : Type} {n : ℕ}

def ofList (cells : List (Option V)) : Cells V cells.length := ⟨cells, rfl⟩

@[simp] theorem coe_ofList (cells : List (Option V)) : (ofList cells).1 = cells := rfl

/-- The first `m` cells. -/
def take (c : Cells V n) (m : ℕ) (h : m ≤ n) : Cells V m :=
  ⟨c.1.take m, by rw [length_take, c.2, min_eq_left h]⟩

/-- All cells but the first `m`. -/
def drop (c : Cells V n) (m : ℕ) : Cells V (n - m) :=
  ⟨c.1.drop m, by rw [length_drop, c.2]⟩

/-- `arrow::MakeArrayOfNull`. -/
def nulls (n : ℕ) : Cells V n := ⟨List.replicate n none, length_replicate⟩

end Cells

structure RecordBatch (V : Type) where
  numRows : ℕ
  columns : List (Cells V numRows)

namespace RecordBatch

variable {V : Type}

/-- The cells of the column at a position; no cells if there is no such column. -/
def column (b : RecordBatch V) (j : ℕ) : List (Option V) :=
  match b.columns[j]? with
  | some c => c.1
  | none => []

/-- `rb->Slice(offset)`. -/
def slice (b : RecordBatch V) (offset : ℕ) : RecordBatch V where
  numRows := b.numRows - offset
  columns := b.columns.map fun c => c.drop offset

theorem column_of_getElem? {b : RecordBatch V} {j : ℕ} {c : Cells V b.numRows}
    (h : b.columns[j]? = some c) : b.column j = c.1 := by
  simp [column, h]

theorem length_column_le (b : RecordBatch V) (j : ℕ) : (b.column j).length ≤ b.numRows := by
  unfold column
  split
  · next c _ => exact c.2.le
  · exact Nat.zero_le _

theorem length_column {b : RecordBatch V} {j : ℕ} (h : j < b.columns.length) :
    (b.column j).length = b.numRows := by
  rw [column_of_getElem? (getElem?_eq_getElem h)]
  exact (b.columns[j]).2

theorem column_slice (b : RecordBatch V) (offset j : ℕ) :
    (b.slice offset).column j = (b.column j).drop offset := by
  have hget : (b.slice offset).columns[j]? = b.columns[j]?.map fun c => c.drop offset :=
    getElem?_map
  cases h : b.columns[j]? with
  | none =>
    rw [column, column, hget, h]
    exact drop_nil.symm
  | some c =>
    rw [h] at hget
    rw [column_of_getElem? hget, column_of_getElem? h]
    rfl

end RecordBatch

/-! ## Queues of record batches -/

section Queue

variable {V : Type}

/-- The cells of one column of a queue. -/
def cells (q : List (RecordBatch V)) (j : ℕ) : List (Option V) := q.flatMap fun b => b.column j

/-- The rows of a queue. -/
def rows (q : List (RecordBatch V)) : ℕ := (q.map RecordBatch.numRows).sum

/-- Remove the first `n` rows: pop the front if it has that many, and slice it otherwise. -/
def advance (n : ℕ) : List (RecordBatch V) → List (RecordBatch V)
  | [] => []
  | b :: q => if b.numRows = n then q else b.slice n :: q

@[simp] theorem cells_nil (j : ℕ) : cells ([] : List (RecordBatch V)) j = [] := rfl

@[simp] theorem cells_cons (b : RecordBatch V) (q : List (RecordBatch V)) (j : ℕ) :
    cells (b :: q) j = b.column j ++ cells q j := rfl

@[simp] theorem cells_append (p q : List (RecordBatch V)) (j : ℕ) :
    cells (p ++ q) j = cells p j ++ cells q j := flatMap_append

@[simp] theorem rows_nil : rows ([] : List (RecordBatch V)) = 0 := rfl

@[simp] theorem rows_cons (b : RecordBatch V) (q : List (RecordBatch V)) :
    rows (b :: q) = b.numRows + rows q := rfl

@[simp] theorem rows_append (p q : List (RecordBatch V)) : rows (p ++ q) = rows p + rows q := by
  simp [rows]

theorem length_cells_le (q : List (RecordBatch V)) (j : ℕ) : (cells q j).length ≤ rows q := by
  induction q with
  | nil => exact le_rfl
  | cons b q ih =>
    rw [cells_cons, length_append]
    exact Nat.add_le_add (b.length_column_le j) ih

theorem cells_eq_nil {q : List (RecordBatch V)} (h : rows q = 0) (j : ℕ) : cells q j = [] :=
  eq_nil_of_length_eq_zero (by have := length_cells_le q j; omega)

theorem cells_advance {b : RecordBatch V} {j : ℕ} (hj : j < b.columns.length) (n : ℕ)
    (q : List (RecordBatch V)) :
    cells (b :: q) j = (b.column j).take n ++ cells (advance n (b :: q)) j := by
  have hlen := b.length_column hj
  rw [advance]
  split_ifs with h
  · rw [cells_cons, take_of_length_le (by omega)]
  · rw [cells_cons, cells_cons, RecordBatch.column_slice, ← append_assoc, take_append_drop]

theorem rows_advance {b : RecordBatch V} {n : ℕ} (hn : n ≤ b.numRows) (q : List (RecordBatch V)) :
    rows (b :: q) = n + rows (advance n (b :: q)) := by
  rw [advance]
  split_ifs with h
  · rw [rows_cons, h]
  · show b.numRows + rows q = n + ((b.numRows - n) + rows q)
    omega

theorem length_advance_le (n : ℕ) (q : List (RecordBatch V)) : (advance n q).length ≤ q.length := by
  unfold advance
  split
  · exact le_rfl
  · split_ifs <;> simp

end Queue

/-! ## The rows of a batch

A batch has as many rows as all its parts have, and at most some number of them. -/

section Minimum

variable {α : Type*} (f : α → ℕ)

theorem foldl_min_le_init (l : List α) (n : ℕ) : l.foldl (fun n a => min n (f a)) n ≤ n := by
  induction l generalizing n with
  | nil => exact le_rfl
  | cons a l ih => exact (ih _).trans (min_le_left ..)

theorem foldl_min_le {l : List α} {a : α} (h : a ∈ l) (n : ℕ) :
    l.foldl (fun n a => min n (f a)) n ≤ f a := by
  induction l generalizing n with
  | nil => cases h
  | cons b l ih =>
    obtain rfl | h := mem_cons.mp h
    · exact (foldl_min_le_init f l _).trans (min_le_right ..)
    · exact ih h _

theorem foldl_min_eq (l : List α) (n : ℕ) :
    l.foldl (fun n a => min n (f a)) n = n ∨ ∃ a ∈ l, l.foldl (fun n a => min n (f a)) n = f a := by
  induction l generalizing n with
  | nil => exact .inl rfl
  | cons b l ih =>
    obtain h | ⟨a, ha, h⟩ := ih (min n (f b))
    · obtain hle | hle := le_total n (f b)
      · exact .inl (h.trans (min_eq_left hle))
      · exact .inr ⟨b, mem_cons_self, h.trans (min_eq_right hle)⟩
    · exact .inr ⟨a, mem_cons_of_mem _ ha, h⟩

end Minimum

/-! ## The heap of row offsets -/

/-- `RowOffsetMinHeap`: entries are a reader's index and its row offset, and the top is one of those
with the smallest offset. -/
structure RowOffsetMinHeap where
  top : List (ℕ × ℤ) → ℕ × ℤ
  top_mem : ∀ h, h ≠ [] → top h ∈ h
  top_le : ∀ h, ∀ e ∈ h, (top h).2 ≤ e.2

/-- The first of the smallest entries. -/
def smallest (m : ℕ × ℤ) (h : List (ℕ × ℤ)) : ℕ × ℤ :=
  h.foldl (fun m e => if e.2 < m.2 then e else m) m

theorem smallest_spec (m : ℕ × ℤ) (h : List (ℕ × ℤ)) :
    smallest m h ∈ m :: h ∧ ∀ e ∈ m :: h, (smallest m h).2 ≤ e.2 := by
  induction h generalizing m with
  | nil => exact ⟨mem_singleton_self m, fun e he => (congrArg _ (mem_singleton.mp he)).ge⟩
  | cons e h ih =>
    obtain ⟨hmem, hle⟩ := ih (if e.2 < m.2 then e else m)
    have hhead := hle _ mem_cons_self
    have htail : ∀ e' ∈ h, (smallest m (e :: h)).2 ≤ e'.2 :=
      fun e' he' => hle e' (mem_cons_of_mem _ he')
    change smallest m (e :: h) ∈ _ at hmem
    change (smallest m (e :: h)).2 ≤ _ at hhead
    split_ifs at hmem hhead with hlt
    · refine ⟨mem_cons_of_mem _ hmem, forall_mem_cons.mpr ⟨hhead.trans hlt.le, ?_⟩⟩
      exact forall_mem_cons.mpr ⟨hhead, htail⟩
    · refine ⟨?_, forall_mem_cons.mpr ⟨hhead, ?_⟩⟩
      · obtain h' | h' := mem_cons.mp hmem
        · exact mem_cons.mpr (.inl h')
        · exact mem_cons_of_mem _ (mem_cons_of_mem _ h')
      · exact forall_mem_cons.mpr ⟨hhead.trans (not_lt.mp hlt), htail⟩

/-- The heap that takes the first of the smallest entries. -/
def RowOffsetMinHeap.first : RowOffsetMinHeap where
  top
    | [] => (0, 0)
    | m :: h => smallest m h
  top_mem h hne := by
    cases h with
    | nil => exact absurd rfl hne
    | cons m h => exact (smallest_spec m h).1
  top_le h e he := by
    cases h with
    | nil => cases he
    | cons m h => exact (smallest_spec m h).2 e he

/-- The conversion to a signed integer of `w` bits. -/
def toSigned (w : ℕ) (x : ℤ) : ℤ := Int.bmod x (2 ^ w)

theorem toSigned_of_lt {w x : ℕ} (h : x * 2 < 2 ^ w) : toSigned w x = x := by
  apply Int.bmod_eq_of_le_mul_two
  · omega
  · exact_mod_cast h

/-- The conversion to an unsigned integer of `w` bits. -/
def toUnsigned (w : ℕ) (x : ℤ) : ℕ := (x % 2 ^ w).toNat

end MilvusStorage
