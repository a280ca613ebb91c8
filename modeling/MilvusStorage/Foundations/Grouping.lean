import Mathlib.Algebra.Order.Ring.Nat
import Mathlib.Algebra.Order.BigOperators.Group.List

/-!
# Pieces that are cut from blocks

Pieces of given sizes are cut off a list of blocks, one after the other, and no piece may extend
over two blocks. Only the sizes matter, and no piece is empty.

`grouped_cons`, `exhausted_cons` and `fits_cons` say how each goes on after the first piece: a piece
that is smaller than the first block leaves the rest of the block.
-/

namespace Grouping

open List

/-- The blocks are groups of consecutive pieces. -/
def Grouped (blocks pieces : List ℕ) : Prop :=
  ∃ groups : List (List ℕ), (∀ g ∈ groups, g ≠ []) ∧ groups.flatten = pieces ∧
    groups.map List.sum = blocks

/-- The blocks are used up before the last piece. -/
def Exhausted (blocks pieces : List ℕ) : Prop :=
  ∃ done n rest, pieces = done ++ n :: rest ∧ Grouped blocks done

/-- The pieces use up some blocks and leave something of the next. -/
def Fits (blocks pieces : List ℕ) : Prop :=
  ∃ done last used rest, pieces = done ++ last ∧ blocks = used ++ rest ∧ Grouped used done ∧
    (last = [] ∨ ∃ m rest', rest = m :: rest' ∧ last.sum < m)

variable {m n : ℕ} {ms ms' ns ns' : List ℕ}

/-! ## Groups -/

theorem grouped_nil : Grouped [] [] := ⟨[], forall_mem_nil _, rfl, rfl⟩

theorem eq_nil_of_grouped_nil (h : Grouped ms []) : ms = [] := by
  obtain ⟨groups, hne, hflat, rfl⟩ := h
  cases groups with
  | nil => rfl
  | cons g groups =>
    rw [flatten_cons, append_eq_nil_iff] at hflat
    exact absurd hflat.1 (hne g mem_cons_self)

theorem eq_nil_of_nil_grouped (h : Grouped [] ns) : ns = [] := by
  obtain ⟨groups, -, rfl, hsum⟩ := h
  rw [map_eq_nil_iff.mp hsum, flatten_nil]

theorem grouped_append (h : Grouped ms ns) (h' : Grouped ms' ns') :
    Grouped (ms ++ ms') (ns ++ ns') := by
  obtain ⟨groups, hne, rfl, rfl⟩ := h
  obtain ⟨groups', hne', rfl, rfl⟩ := h'
  exact ⟨groups ++ groups', forall_mem_append.mpr ⟨hne, hne'⟩, flatten_append, map_append⟩

/-- A block of one piece comes first. -/
theorem grouped_cons_self (h : Grouped ms ns) : Grouped (n :: ms) (n :: ns) := by
  obtain ⟨groups, hne, rfl, rfl⟩ := h
  exact ⟨[n] :: groups, forall_mem_cons.mpr ⟨cons_ne_nil _ _, hne⟩, rfl, by simp⟩

/-- Another piece of the first block comes first. -/
theorem grouped_cons_add (h : Grouped (m :: ms) ns) : Grouped ((n + m) :: ms) (n :: ns) := by
  obtain ⟨groups, hne, rfl, hsum⟩ := h
  obtain ⟨g, groups, rfl, rfl, rfl⟩ := map_eq_cons_iff.mp hsum
  refine ⟨(n :: g) :: groups, ?_, rfl, by simp⟩
  exact forall_mem_cons.mpr ⟨cons_ne_nil _ _, fun g' hg' => hne g' (mem_cons_of_mem _ hg')⟩

theorem grouped_cons (hns : ∀ n' ∈ ns, 0 < n') : Grouped (m :: ms) (n :: ns) ↔
    n < m ∧ Grouped ((m - n) :: ms) ns ∨ n = m ∧ Grouped ms ns := by
  constructor
  · rintro ⟨groups, hne, hflat, hsum⟩
    obtain ⟨g, groups, rfl, rfl, rfl⟩ := map_eq_cons_iff.mp hsum
    obtain ⟨hg, hne'⟩ := forall_mem_cons.mp hne
    obtain ⟨n', g, rfl⟩ := exists_cons_of_ne_nil hg
    obtain ⟨rfl, rfl⟩ := cons.inj hflat
    rw [sum_cons]
    cases g with
    | nil => exact .inr ⟨rfl, groups, hne', rfl, rfl⟩
    | cons n g =>
      have hn := hns n (by simp)
      rw [sum_cons]
      refine .inl ⟨by omega, (n :: g) :: groups, ?_, rfl, by simp⟩
      exact forall_mem_cons.mpr ⟨cons_ne_nil _ _, hne'⟩
  · rintro (⟨hlt, h⟩ | ⟨rfl, h⟩)
    · have := grouped_cons_add (n := n) h
      rwa [Nat.add_sub_cancel' hlt.le] at this
    · exact grouped_cons_self h

/-- **Blocks without a boundary inside a piece** are groups of pieces. -/
theorem grouped_of_boundaries (hms : ∀ m ∈ ms, 0 < m) (hns : ∀ n ∈ ns, 0 < n)
    (hsum : ms.sum = ns.sum)
    (h : ∀ ms1 ms2 ns1 n ns2, ms = ms1 ++ ms2 → ns = ns1 ++ n :: ns2 →
      ¬ (ns1.sum < ms1.sum ∧ ms1.sum < ns1.sum + n)) : Grouped ms ns := by
  induction ns generalizing ms with
  | nil =>
    cases ms with
    | nil => exact grouped_nil
    | cons m ms =>
      have := hms m mem_cons_self
      rw [sum_cons, sum_nil] at hsum
      omega
  | cons n ns ih =>
    obtain ⟨hn, hns⟩ := forall_mem_cons.mp hns
    cases ms with
    | nil =>
      rw [sum_cons, sum_nil] at hsum
      omega
    | cons m ms =>
      obtain ⟨hm, hms'⟩ := forall_mem_cons.mp hms
      rw [sum_cons, sum_cons] at hsum
      have hle := h [m] ms [] n ns rfl rfl
      simp only [sum_nil, sum_singleton] at hle
      refine (grouped_cons hns).mpr ((lt_or_eq_of_le (by omega : n ≤ m)).imp ?_ ?_)
      · intro hlt
        refine ⟨hlt, ih (forall_mem_cons.mpr ⟨by omega, hms'⟩) hns ?_ ?_⟩
        · rw [sum_cons]
          omega
        · rintro (_ | ⟨k, ms1⟩) ms2 ns1 n' ns2 hms1 rfl
          · simp
          · obtain ⟨rfl, rfl⟩ := cons.inj hms1
            have := h (m :: ms1) ms2 (n :: ns1) n' ns2 rfl rfl
            simp only [sum_cons] at this ⊢
            omega
      · rintro rfl
        refine ⟨rfl, ih hms' hns (by omega) ?_⟩
        rintro ms1 ms2 ns1 n' ns2 rfl rfl
        have := h (n :: ms1) ms2 (n :: ns1) n' ns2 rfl rfl
        simp only [sum_cons] at this
        omega

/-! ## Blocks that are used up too early -/

theorem exhausted_nil (h : ns ≠ []) : Exhausted [] ns := by
  obtain ⟨n, ns, rfl⟩ := exists_cons_of_ne_nil h
  exact ⟨[], n, ns, rfl, grouped_nil⟩

theorem not_exhausted_nil : ¬ Exhausted ms [] := by
  rintro ⟨done, n, rest, h, -⟩
  simp at h

theorem exhausted_cons (hns : ∀ n' ∈ ns, 0 < n') : Exhausted (m :: ms) (n :: ns) ↔
    n < m ∧ Exhausted ((m - n) :: ms) ns ∨ n = m ∧ Exhausted ms ns := by
  constructor
  · rintro ⟨done, n', rest, h, hdone⟩
    cases done with
    | nil => cases eq_nil_of_grouped_nil hdone
    | cons n done =>
      obtain ⟨rfl, rfl⟩ := cons.inj h
      have hpos : ∀ k ∈ done, 0 < k := fun k hk => hns k (mem_append_left _ hk)
      refine ((grouped_cons hpos).mp hdone).imp ?_ ?_
      · exact fun ⟨hlt, hdone⟩ => ⟨hlt, done, n', rest, rfl, hdone⟩
      · exact fun ⟨heq, hdone⟩ => ⟨heq, done, n', rest, rfl, hdone⟩
  · rintro (⟨hlt, done, n', rest, rfl, hdone⟩ | ⟨rfl, done, n', rest, rfl, hdone⟩)
    · have := grouped_cons_add (n := n) hdone
      rw [Nat.add_sub_cancel' hlt.le] at this
      exact ⟨n :: done, n', rest, rfl, this⟩
    · exact ⟨n :: done, n', rest, rfl, grouped_cons_self hdone⟩

/-! ## Pieces that find their place -/

theorem fits_nil : Fits ms [] := ⟨[], [], [], ms, rfl, rfl, grouped_nil, .inl rfl⟩

theorem Grouped.fits (h : Grouped ms ns) : Fits ms ns :=
  ⟨ns, [], ms, [], (append_nil _).symm, (append_nil _).symm, h, .inl rfl⟩

theorem Grouped.sum_eq (h : Grouped ms ns) : ms.sum = ns.sum := by
  obtain ⟨groups, -, rfl, rfl⟩ := h
  rw [sum_flatten]

theorem Fits.sum_le (h : Fits ms ns) : ns.sum ≤ ms.sum := by
  obtain ⟨done, last, used, rest, rfl, rfl, hdone, hlast⟩ := h
  rw [sum_append, sum_append, hdone.sum_eq]
  obtain rfl | ⟨m, rest, rfl, hlt⟩ := hlast
  · simp
  · rw [sum_cons]
    omega

theorem not_nil_fits : ¬ Fits [] (n :: ns) := by
  rintro ⟨done, last, used, rest, hpieces, hblocks, hdone, hlast⟩
  obtain ⟨rfl, rfl⟩ := append_eq_nil_iff.mp hblocks.symm
  obtain rfl := eq_nil_of_nil_grouped hdone
  obtain rfl | ⟨m, rest', hrest, -⟩ := hlast
  · cases hpieces
  · cases hrest

theorem fits_cons (hns : ∀ n' ∈ ns, 0 < n') : Fits (m :: ms) (n :: ns) ↔
    n < m ∧ Fits ((m - n) :: ms) ns ∨ n = m ∧ Fits ms ns := by
  constructor
  · rintro ⟨done, last, used, rest, hpieces, hblocks, hdone, hlast⟩
    cases done with
    | nil =>
      obtain rfl := eq_nil_of_grouped_nil hdone
      obtain rfl | ⟨m', rest', rfl, hlt⟩ := hlast
      · cases hpieces
      · rw [nil_append] at hpieces hblocks
        obtain ⟨rfl, rfl⟩ := cons.inj hblocks
        rw [← hpieces, sum_cons] at hlt
        exact .inl ⟨by omega, [], ns, [], _, rfl, rfl, grouped_nil, .inr ⟨_, _, rfl, by omega⟩⟩
    | cons n done =>
      obtain ⟨rfl, rfl⟩ := cons.inj hpieces
      have hpos : ∀ k ∈ done, 0 < k := fun k hk => hns k (mem_append_left _ hk)
      cases used with
      | nil => cases eq_nil_of_nil_grouped hdone
      | cons m used =>
        obtain ⟨rfl, rfl⟩ := cons.inj hblocks
        refine ((grouped_cons hpos).mp hdone).imp ?_ ?_
        · exact fun ⟨hlt, hdone⟩ => ⟨hlt, done, last, _, rest, rfl, rfl, hdone, hlast⟩
        · exact fun ⟨heq, hdone⟩ => ⟨heq, done, last, used, rest, rfl, rfl, hdone, hlast⟩
  · rintro (⟨hlt, done, last, used, rest, rfl, hblocks, hdone, hlast⟩ |
      ⟨rfl, done, last, used, rest, rfl, rfl, hdone, hlast⟩)
    · cases used with
      | nil =>
        obtain rfl := eq_nil_of_nil_grouped hdone
        subst hblocks
        refine ⟨[], n :: last, [], m :: ms, rfl, rfl, grouped_nil, .inr ⟨m, ms, rfl, ?_⟩⟩
        obtain rfl | ⟨m', rest', hrest, hsum⟩ := hlast
        · simpa using hlt
        · obtain ⟨rfl, rfl⟩ := cons.inj hrest
          rw [sum_cons]
          omega
      | cons m' used =>
        obtain ⟨rfl, rfl⟩ := cons.inj hblocks
        have := grouped_cons_add (n := n) hdone
        rw [Nat.add_sub_cancel' hlt.le] at this
        exact ⟨n :: done, last, m :: used, rest, rfl, rfl, this, hlast⟩
    · exact ⟨n :: done, last, n :: used, rest, rfl, rfl, grouped_cons_self hdone, hlast⟩

theorem Exhausted.not_fits (hns : ∀ n ∈ ns, 0 < n) (h : Exhausted ms ns) : ¬ Fits ms ns := by
  induction ns generalizing ms with
  | nil => exact absurd h not_exhausted_nil
  | cons n ns ih =>
    obtain ⟨-, hns⟩ := forall_mem_cons.mp hns
    cases ms with
    | nil => exact not_nil_fits
    | cons m ms =>
      rw [fits_cons hns]
      obtain ⟨hlt, hrest⟩ | ⟨heq, hrest⟩ := (exhausted_cons hns).mp h
      · rintro (⟨-, hfits⟩ | ⟨heq, -⟩)
        · exact ih hns hrest hfits
        · omega
      · rintro (⟨hlt, -⟩ | ⟨-, hfits⟩)
        · omega
        · exact ih hns hrest hfits

end Grouping
