import Mathlib.Algebra.Order.Ring.Nat
import Mathlib.Algebra.BigOperators.Group.List.Basic

/-!
# Lists of adjacent intervals

The entries of a list stand for intervals of numbers, given by a start and a size. The list is
`Chained` from `a` to `b` if the first interval starts at `a`, each one starts where the one before
it ends, and the last one ends at `b`. It `Tiles` if moreover no interval is empty.
-/

namespace Tiling

open List

variable {α β : Type*} (start size : α → ℕ)

/-- Each interval starts where the one before it ends. -/
def Chained : ℕ → List α → ℕ → Prop
  | a, [], b => a = b
  | a, x :: xs, b => start x = a ∧ Chained (a + size x) xs b

instance decidableChained : ∀ (a : ℕ) (xs : List α) (b : ℕ), Decidable (Chained start size a xs b)
  | a, [], b => inferInstanceAs (Decidable (a = b))
  | a, x :: xs, b =>
    have := decidableChained (a + size x) xs b
    inferInstanceAs (Decidable (start x = a ∧ Chained start size (a + size x) xs b))

/-- A chain of intervals that are not empty. -/
structure Tiles (a : ℕ) (xs : List α) (b : ℕ) : Prop where
  chained : Chained start size a xs b
  size_pos : ∀ x ∈ xs, 0 < size x

variable {start size} {a b : ℕ} {x : α} {xs ys : List α}

theorem chained_append {c : ℕ} (h : Chained start size a xs b) (h' : Chained start size b ys c) :
    Chained start size a (xs ++ ys) c := by
  induction xs generalizing a with
  | nil =>
    obtain rfl : a = b := h
    exact h'
  | cons x xs ih => exact ⟨h.1, ih h.2⟩

/-- A chain can be divided before any of its intervals. -/
theorem Chained.split {ys : List α} (h : Chained start size a (xs ++ x :: ys) b) :
    Chained start size a xs (start x) ∧ Chained start size (start x) (x :: ys) b := by
  induction xs generalizing a with
  | nil =>
    obtain ⟨rfl, h⟩ := h
    exact ⟨rfl, rfl, h⟩
  | cons y xs ih =>
    obtain ⟨hleft, hright⟩ := ih h.2
    exact ⟨⟨h.1, hleft⟩, hright⟩

section

variable (h : Chained start size a xs b)

include h

/-- The sizes add up to the length of the chain. -/
theorem Chained.sum_eq : a + (xs.map size).sum = b := by
  induction xs generalizing a with
  | nil => exact h
  | cons x xs ih =>
    have := ih h.2
    rw [map_cons, sum_cons]
    omega

/-- An interval starts where the sizes before it add up to. -/
theorem Chained.start_eq {i : ℕ} (hx : xs[i]? = some x) :
    start x = a + ((xs.take i).map size).sum := by
  obtain ⟨hi, rfl⟩ := List.getElem?_eq_some_iff.mp hx
  have hsplit : xs.take i ++ xs[i] :: xs.drop (i + 1) = xs := by
    rw [← drop_eq_getElem_cons hi, take_append_drop]
  exact (Chained.sum_eq (Chained.split (hsplit ▸ h)).1).symm

theorem Chained.le : a ≤ b := by
  have := h.sum_eq
  omega

theorem Chained.mem (hx : x ∈ xs) : a ≤ start x ∧ start x + size x ≤ b := by
  induction xs generalizing a with
  | nil => cases hx
  | cons y xs ih =>
    have hle := h.2.le
    obtain rfl | hx := mem_cons.mp hx
    · rw [h.1]
      exact ⟨Nat.le_refl a, hle⟩
    · have := ih h.2 hx
      omega

theorem Chained.getLast? (hx : xs.getLast? = some x) : start x + size x = b := by
  induction xs generalizing a with
  | nil => cases hx
  | cons y xs ih =>
    cases xs with
    | nil =>
      rw [getLast?_singleton, Option.some.injEq] at hx
      rw [← hx, h.1]
      exact h.2
    | cons z xs =>
      exact ih h.2 hx

end

variable {n : ℕ}

section

variable (h : Chained start size a xs b)

include h

/-- Every number of the chain is in one of the intervals. -/
theorem Chained.exists_mem (ha : a ≤ n) (hb : n < b) :
    ∃ x ∈ xs, start x ≤ n ∧ n < start x + size x := by
  induction xs generalizing a with
  | nil =>
    obtain rfl : a = b := h
    omega
  | cons x xs ih =>
    obtain ⟨hx, hxs⟩ := h
    by_cases hn : n < start x + size x
    · exact ⟨x, mem_cons_self, by omega, hn⟩
    · obtain ⟨y, hy, hmem⟩ := ih hxs (by omega)
      exact ⟨y, mem_cons_of_mem _ hy, hmem⟩

/-- The first interval that ends after a number of the chain is the one that contains it. -/
theorem Chained.findIdx (ha : a ≤ n) (hb : n < b) {p : α → Bool}
    (hp : ∀ x ∈ xs, p x = decide (n < start x + size x)) :
    ∃ x, xs[xs.findIdx p]? = some x ∧ start x ≤ n ∧ n < start x + size x := by
  induction xs generalizing a with
  | nil =>
    obtain rfl : a = b := h
    omega
  | cons x xs ih =>
    obtain ⟨hx, hxs⟩ := h
    obtain ⟨hpx, hp⟩ := forall_mem_cons.mp hp
    rw [findIdx_cons, hpx]
    by_cases hn : n < start x + size x
    · rw [decide_eq_true hn]
      exact ⟨x, rfl, by omega, hn⟩
    · rw [decide_eq_false hn]
      exact ih hxs (by omega) hp

/-- The intervals are in order and do not overlap. -/
theorem Chained.pairwise : xs.Pairwise fun x y => start x + size x ≤ start y := by
  induction xs generalizing a with
  | nil => exact .nil
  | cons x xs ih =>
    refine pairwise_cons.mpr ⟨fun y hy => ?_, ih h.2⟩
    have := (h.2.mem hy).1
    rwa [h.1]

/-- The numbers of the intervals, one interval after the other, are those from `a` to `b`. -/
theorem Chained.flatMap_range' :
    xs.flatMap (fun x => List.range' (start x) (size x)) = List.range' a (b - a) := by
  induction xs generalizing a with
  | nil =>
    obtain rfl : a = b := h
    rw [flatMap_nil, Nat.sub_self, range'_zero]
  | cons x xs ih =>
    obtain ⟨hx, hxs⟩ := h
    have hle := hxs.le
    rw [flatMap_cons, ih hxs, hx, range'_append_1]
    congr 1
    omega

/-- The last interval that starts at or before a number of the chain is the one that contains it. -/
theorem Chained.findIdx_start (ha : a ≤ n) (hb : n < b) {p : α → Bool}
    (hp : ∀ x ∈ xs, p x = decide (n < start x)) :
    ∃ k x, xs.findIdx p = k + 1 ∧ xs[k]? = some x ∧ start x ≤ n ∧ n < start x + size x := by
  induction xs generalizing a with
  | nil =>
    obtain rfl : a = b := h
    omega
  | cons x xs ih =>
    obtain ⟨hx, hxs⟩ := h
    obtain ⟨hpx, hp⟩ := forall_mem_cons.mp hp
    rw [findIdx_cons, hpx, decide_eq_false (by omega)]
    by_cases hn : n < a + size x
    · -- every later interval starts after the number
      have hzero : xs.findIdx p = 0 := by
        cases xs with
        | nil => rfl
        | cons y ys =>
          simp [findIdx_cons, hp y mem_cons_self, hxs.1, decide_eq_true hn]
      exact ⟨0, x, by rw [hzero]; rfl, rfl, by omega, by omega⟩
    · obtain ⟨k, y, hk, hy, hmem⟩ := ih hxs (by omega) hp
      exact ⟨k + 1, y, by rw [hk]; rfl, hy, hmem⟩

/-- The pieces of a list that the intervals of a chain cut out, one after the other. -/
theorem Chained.flatMap_take_drop {l : List β} (hb : b ≤ l.length) :
    xs.flatMap (fun x => (l.drop (start x)).take (size x)) = (l.drop a).take (b - a) := by
  induction xs generalizing a with
  | nil =>
    obtain rfl : a = b := h
    rw [Nat.sub_self, take_zero, flatMap_nil]
  | cons x xs ih =>
    obtain ⟨hx, hxs⟩ := h
    have hle := hxs.le
    rw [flatMap_cons, ih hxs, hx, ← drop_drop, ← take_add]
    congr 1
    omega

end

/-- Only the starts and the sizes matter. -/
theorem chained_of_map_eq {start' size' : β → ℕ} {ys : List β}
    (hmap : ys.map (fun y => (start' y, size' y)) = xs.map fun x => (start x, size x))
    (h : Chained start size a xs b) : Chained start' size' a ys b := by
  induction xs generalizing a ys with
  | nil =>
    rw [map_nil, map_eq_nil_iff] at hmap
    subst hmap
    exact h
  | cons x xs ih =>
    obtain ⟨y, ys, rfl, hy, hys⟩ := map_eq_cons_iff.mp hmap
    obtain ⟨hstart, hsize⟩ := Prod.mk.inj hy
    exact ⟨hstart.trans h.1, ih hys (hsize ▸ h.2)⟩

/-! ## Windows -/

/-- The point of a window closest to a number. -/
def clamp (lo hi n : ℕ) : ℕ := max lo (min hi n)

section Overlap

variable {lo hi : ℕ} {p : α → Bool}

/-- The intervals of a chain that starts after `lo` which start before `hi`. -/
theorem Chained.filter_lt (h : Chained start size a xs b) (ha : lo < a)
    (hp : ∀ x ∈ xs, p x = decide (lo < start x + size x ∧ start x < hi)) :
    ∃ c, Chained start size a (xs.filter p) c ∧ min hi b ≤ c ∧ c ≤ b := by
  induction xs generalizing a with
  | nil => exact ⟨b, h, Nat.min_le_right .., Nat.le_refl b⟩
  | cons x xs ih =>
    by_cases hlt : a < hi
    · obtain ⟨hpx, hpxs⟩ := forall_mem_cons.mp hp
      obtain ⟨c, hc, hle⟩ := ih h.2 (by omega) hpxs
      rw [filter_cons_of_pos (by rw [hpx, h.1]; exact decide_eq_true (by omega))]
      exact ⟨c, ⟨h.1, hc⟩, hle⟩
    · have hnone : (x :: xs).filter p = [] := by
        rw [filter_eq_nil_iff]
        intro y hy
        have := (h.mem hy).1
        rw [hp y hy, decide_eq_true_iff]
        omega
      rw [hnone]
      exact ⟨a, rfl, by omega, h.le⟩

/-- **The intervals that overlap a window** are a chain that covers it. It starts with the interval
that contains the start of the window. -/
theorem Chained.filter (h : Chained start size a xs b) (ha : a ≤ lo) (hlt : lo < hi) (hb : hi ≤ b)
    (hp : ∀ x ∈ xs, p x = decide (lo < start x + size x ∧ start x < hi)) :
    ∃ x ys c, xs.filter p = x :: ys ∧ start x ≤ lo ∧ lo < start x + size x ∧
      Chained start size (start x) (x :: ys) c ∧ hi ≤ c ∧ c ≤ b := by
  induction xs generalizing a with
  | nil =>
    obtain rfl : a = b := h
    omega
  | cons x xs ih =>
    obtain ⟨hx, hxs⟩ := h
    obtain ⟨hpx, hp⟩ := forall_mem_cons.mp hp
    by_cases hlo : lo < a + size x
    · obtain ⟨c, hc, hmin, hle⟩ := hxs.filter_lt hlo hp
      rw [filter_cons_of_pos (by rw [hpx]; exact decide_eq_true (by omega))]
      exact ⟨x, xs.filter p, c, rfl, by omega, by omega, ⟨rfl, hx ▸ hc⟩, by omega, hle⟩
    · rw [filter_cons_of_neg (by rw [hpx, decide_eq_true_iff]; omega)]
      exact ih hxs (by omega) hp

end Overlap

/-- **Cutting a chain to a window.** `f` cuts an interval to the window, and drops it if nothing is
left. -/
theorem chained_filterMap (start' size' : β → ℕ) {f : α → Option β} {lo hi : ℕ}
    (hsome : ∀ x ∈ xs, ∀ y, f x = some y → start' y = clamp lo hi (start x) ∧
      start' y + size' y = clamp lo hi (start x + size x) ∧ 0 < size' y)
    (hnone : ∀ x ∈ xs, f x = none → clamp lo hi (start x) = clamp lo hi (start x + size x))
    (h : Chained start size a xs b) :
    Tiles start' size' (clamp lo hi a) (xs.filterMap f) (clamp lo hi b) := by
  induction xs generalizing a with
  | nil =>
    obtain rfl : a = b := h
    exact ⟨rfl, forall_mem_nil _⟩
  | cons x xs ih =>
    obtain ⟨rfl, hxs⟩ := h
    obtain ⟨hsome_x, hsome⟩ := forall_mem_cons.mp hsome
    obtain ⟨hnone_x, hnone⟩ := forall_mem_cons.mp hnone
    cases hx : f x with
    | none =>
      rw [filterMap_cons_none hx, hnone_x hx]
      exact ih hsome hnone hxs
    | some y =>
      rw [filterMap_cons_some hx]
      obtain ⟨hy, hend, hpos⟩ := hsome_x y hx
      obtain ⟨hchain, hall⟩ := ih hsome hnone hxs
      rw [← hend] at hchain
      exact ⟨⟨hy, hy ▸ hchain⟩, forall_mem_cons.mpr ⟨hpos, hall⟩⟩

end Tiling
