import Mathlib.Data.List.Nodup
import MilvusStorage.Foundations.Except

/-!
# Positions in lists of lists

A map from elements to their positions in a list of lists, filled from left to right: a later entry
for an element replaces an earlier one.
-/

namespace Positions

open List

variable {α : Type*}

/-- The entries of the map, in the order in which they are inserted. -/
def entries (ll : List (List α)) : List (α × (ℕ × ℕ)) :=
  ll.zipIdx.flatMap fun (l, i) => l.zipIdx.map fun (a, j) => (a, (i, j))

/-- The last position of an element. -/
def find [BEq α] (ll : List (List α)) (a : α) : Option (ℕ × ℕ) := (entries ll).reverse.lookup a

variable {ll : List (List α)} {a : α} {i j : ℕ}

theorem mem_entries : (a, (i, j)) ∈ entries ll ↔ ∃ l, ll[i]? = some l ∧ l[j]? = some a := by
  simp only [entries, mem_flatMap, mem_map, Prod.exists, Prod.mk.injEq, mem_zipIdx_iff_getElem?]
  constructor
  · rintro ⟨l, i', hi, a', j', hj, rfl, rfl, rfl⟩
    exact ⟨l, hi, hj⟩
  · rintro ⟨l, hi, hj⟩
    exact ⟨l, i, hi, a, j, hj, rfl, rfl, rfl⟩

variable [BEq α] [LawfulBEq α]

theorem getElem?_of_find (h : find ll a = some (i, j)) : ∃ l, ll[i]? = some l ∧ l[j]? = some a := by
  apply mem_entries.mp
  obtain ⟨l1, l2, hl, -⟩ := lookup_eq_some_iff.mp h
  rw [← mem_reverse, hl]
  simp

theorem notMem_of_find (h : find ll a = none) : ∀ l ∈ ll, a ∉ l := by
  intro l hl ha
  obtain ⟨i, hi⟩ := mem_iff_getElem?.mp hl
  obtain ⟨j, hj⟩ := mem_iff_getElem?.mp ha
  have hmem := mem_entries.mpr ⟨l, hi, hj⟩
  have hnone := lookup_eq_none_iff.mp h _ (mem_reverse.mpr hmem)
  simp at hnone

/-- An element that occurs once is found where it is. -/
theorem find_eq_of_nodup (hnodup : ll.flatten.Nodup) {l : List α} (hi : ll[i]? = some l)
    (hj : l[j]? = some a) : find ll a = some (i, j) := by
  obtain ⟨hlists, hdisj⟩ := nodup_flatten.mp hnodup
  have hmem := mem_of_getElem? hi
  cases hfind : find ll a with
  | none => exact absurd (mem_of_getElem? hj) (notMem_of_find hfind l hmem)
  | some entry =>
    obtain ⟨i', j'⟩ := entry
    obtain ⟨l', hi', hj'⟩ := getElem?_of_find hfind
    obtain rfl : i' = i := by
      by_contra hne
      obtain h | h := Nat.lt_or_gt_of_ne hne
      · exact hdisj.rel_of_getElem? hi' hi h (mem_of_getElem? hj') (mem_of_getElem? hj)
      · exact hdisj.rel_of_getElem? hi hi' h (mem_of_getElem? hj) (mem_of_getElem? hj')
    cases hi.symm.trans hi'
    have hsame := (getElem?_inj (lt_of_getElem? hj) (hlists _ hmem)).mp (hj.trans hj'.symm)
    rw [hsame]

end Positions
