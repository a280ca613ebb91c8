import Mathlib.Data.List.Basic
import Mathlib.Tactic.SplitIfs

/-!
# Files with holes

A sparse file has a byte, or a hole, at every position. Bytes are written from an offset on, and
ranges are punched out again.

`Holds source f P`: at the positions with `P` the file has the bytes of another file. Writing bytes
of that file keeps this, and so does punching out other positions.
-/

/-- The bytes of a file with holes. -/
def SparseFile (β : Type*) : Type _ := ℕ → Option β

namespace SparseFile

variable {β : Type*} {source data : List β} {f : SparseFile β} {offset length i : ℕ} {P : ℕ → Prop}

/-- The positions of a range. -/
def InRange (offset length i : ℕ) : Prop := offset ≤ i ∧ i < offset + length

instance : Decidable (InRange offset length i) := inferInstanceAs (Decidable (_ ∧ _))

/-- A file that is one hole. -/
def empty : SparseFile β := fun _ => none

def write (offset : ℕ) (data : List β) (f : SparseFile β) : SparseFile β := fun i =>
  if InRange offset data.length i then data[i - offset]? else f i

def punch (offset length : ℕ) (f : SparseFile β) : SparseFile β := fun i =>
  if InRange offset length i then none else f i

/-- Copy the bytes of a range from another file. -/
def copy (source : List β) (offset length : ℕ) (f : SparseFile β) : SparseFile β := fun i =>
  if InRange offset length i then source[i]? else f i

/-- The file has the bytes of `source` at the positions with `P`. -/
def Holds (source : List β) (f : SparseFile β) (P : ℕ → Prop) : Prop :=
  ∀ i, P i → i < source.length ∧ f i = source[i]?

theorem Holds.mono {Q : ℕ → Prop} (h : Holds source f P) (hQ : ∀ i, Q i → P i) :
    Holds source f Q := fun i hi => h i (hQ i hi)

theorem Holds.ne_none (h : Holds source f P) (hi : P i) : f i ≠ none := by
  obtain ⟨hlt, heq⟩ := h i hi
  simp [heq, hlt]

/-- A part of `source` is written where it is in `source`. -/
theorem write_slice (h : offset + length ≤ source.length) :
    write offset ((source.drop offset).take length) f = copy source offset length f := by
  have hlen : ((source.drop offset).take length).length = length := by
    rw [List.length_take, List.length_drop]
    omega
  funext i
  rw [write, copy, hlen]
  split_ifs with hi
  · have hlt := hi.2
    have hle := hi.1
    rw [List.getElem?_take_of_lt (by omega), List.getElem?_drop, Nat.add_sub_cancel' hle]
  · rfl

@[simp] theorem copy_zero : copy source offset 0 f = f := by
  funext i
  exact if_neg fun h => absurd (Nat.lt_of_le_of_lt h.1 h.2) (Nat.lt_irrefl _)

theorem Holds.copy (h : Holds source f P) (offset length : ℕ) :
    Holds source (copy source offset length f) P := by
  intro i hi
  refine ⟨(h i hi).1, ?_⟩
  rw [SparseFile.copy]
  split_ifs
  · rfl
  · exact (h i hi).2

theorem holds_copy (hle : ∀ i, InRange offset length i → i < source.length) :
    Holds source (copy source offset length f) (InRange offset length) :=
  fun i hi => ⟨hle i hi, if_pos hi⟩

theorem punch_of_inRange (h : InRange offset length i) : punch offset length f i = none := if_pos h

theorem punch_of_not_inRange (h : ¬InRange offset length i) : punch offset length f i = f i :=
  if_neg h

end SparseFile
