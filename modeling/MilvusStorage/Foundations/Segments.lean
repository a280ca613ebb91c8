import Mathlib.Data.List.Basic

/-!
# Cursors in segmented lists

A list is stored in segments, and a cursor marks a place in it: a segment and an offset in it.
Reading goes on in the current segment and moves to the next one when the segment is used up.

* `step n`: the cursor after `n` elements of the current segment; the rest loses them (`rest_step`).
-/

namespace Segments

open List

variable {α : Type*}

structure Cursor where
  chunk : ℕ := 0
  offset : ℕ := 0
  deriving DecidableEq

/-- The elements from the cursor on. -/
def rest (segs : List (List α)) (c : Cursor) : List α := (segs.drop c.chunk).flatten.drop c.offset

/-- The cursor after `n` elements of the current segment `s`. -/
def step (s : List α) (c : Cursor) (n : ℕ) : Cursor :=
  if s.length - c.offset = n then ⟨c.chunk + 1, 0⟩ else ⟨c.chunk, c.offset + n⟩

/-- The cursor is in a segment, and something is left. -/
structure Within (segs : List (List α)) (c : Cursor) (s : List α) : Prop where
  getElem?_eq : segs[c.chunk]? = some s
  offset_le : c.offset ≤ s.length
  rest_ne_nil : rest segs c ≠ []

variable {segs : List (List α)} {c : Cursor} {s : List α} {n : ℕ}

theorem rest_eq (hs : segs[c.chunk]? = some s) (hle : c.offset ≤ s.length) :
    rest segs c = s.drop c.offset ++ (segs.drop (c.chunk + 1)).flatten := by
  obtain ⟨hlt, rfl⟩ := List.getElem?_eq_some_iff.mp hs
  rw [rest, drop_eq_getElem_cons hlt, flatten_cons, drop_append_of_le_length hle]

/-- What is left of the current segment comes first. -/
theorem take_rest (h : Within segs c s) (hn : n ≤ s.length - c.offset) :
    (rest segs c).take n = (s.drop c.offset).take n := by
  rw [rest_eq h.getElem?_eq h.offset_le, take_append_of_le_length]
  rwa [length_drop]

theorem length_sub_le (h : Within segs c s) : s.length - c.offset ≤ (rest segs c).length := by
  rw [rest_eq h.getElem?_eq h.offset_le, length_append, length_drop]
  exact Nat.le_add_right ..

theorem rest_step (h : Within segs c s) (hn : n ≤ s.length - c.offset) :
    rest segs (step s c n) = (rest segs c).drop n := by
  have hle := h.offset_le
  rw [rest_eq h.getElem?_eq hle, drop_append_of_le_length (by rwa [length_drop]), drop_drop]
  unfold step
  split_ifs with heq
  · rw [drop_eq_nil_of_le (by omega)]
    rfl
  · have hoff : c.offset + n ≤ s.length := by omega
    exact rest_eq h.getElem?_eq hoff

theorem flatten_ne_nil {l : List (List α)} (hne : l ≠ []) (hlast : l.getLast? ≠ some []) :
    l.flatten ≠ [] := by
  intro hnil
  have hmem := getLast_mem hne
  have hempty := flatten_eq_nil_iff.mp hnil _ hmem
  exact hlast (by rw [getLast?_eq_some_getLast hne, hempty])

/-- A drop of a list with a last segment that is not empty has elements, unless it is empty. -/
theorem length_le_of_flatten_drop (hlast : segs.getLast? ≠ some []) {k : ℕ}
    (h : (segs.drop k).flatten = []) : segs.length ≤ k := by
  by_contra hlt
  refine flatten_ne_nil (fun hnil => hlt (drop_eq_nil_iff.mp hnil)) ?_ h
  rwa [getLast?_drop, if_neg hlt]

/-- **The end of the segments** is reached exactly when nothing is left. -/
theorem chunk_step_eq_length_iff (hlast : segs.getLast? ≠ some []) (h : Within segs c s)
    (hn : n ≤ s.length - c.offset) :
    (s.length - c.offset = n ∧ c.chunk + 1 = segs.length) ↔ (rest segs c).length = n := by
  have hlt := (List.getElem?_eq_some_iff.mp h.getElem?_eq).1
  rw [rest_eq h.getElem?_eq h.offset_le, length_append, length_drop]
  constructor
  · rintro ⟨heq, hend⟩
    rwa [drop_eq_nil_of_le (Nat.le_of_eq hend.symm)]
  · intro hlen
    have hnil : (segs.drop (c.chunk + 1)).flatten = [] := eq_nil_of_length_eq_zero (by omega)
    have := length_le_of_flatten_drop hlast hnil
    omega

/-- While something is left, the cursor stays in the segments. -/
theorem exists_within_step (h : Within segs c s) (hn : n ≤ s.length - c.offset)
    (hlt : n < (rest segs c).length) : ∃ s', Within segs (step s c n) s' := by
  have hne : rest segs (step s c n) ≠ [] := by
    rw [rest_step h hn]
    intro hnil
    have := drop_eq_nil_iff.mp hnil
    omega
  by_cases heq : s.length - c.offset = n
  · rw [step, if_pos heq] at hne ⊢
    have hchunk : c.chunk + 1 < segs.length := by
      by_contra hge
      apply hne
      show (segs.drop (c.chunk + 1)).flatten.drop 0 = []
      simp [drop_eq_nil_of_le (Nat.le_of_not_lt hge)]
    exact ⟨segs[c.chunk + 1], getElem?_eq_getElem hchunk, Nat.zero_le _, hne⟩
  · rw [step, if_neg heq] at hne ⊢
    have hoff : c.offset + n ≤ s.length := by omega
    exact ⟨s, h.getElem?_eq, hoff, hne⟩

theorem exists_within_zero (hne : segs.flatten ≠ []) : ∃ s, Within segs ⟨0, 0⟩ s := by
  obtain ⟨s, segs, rfl⟩ := exists_cons_of_ne_nil (l := segs) (by rintro rfl; exact hne rfl)
  exact ⟨s, rfl, Nat.zero_le _, hne⟩

end Segments
