import Mathlib.Data.Nat.Nth

/-!
# Lists with deleted positions

Some positions of a list are deleted. What is left are its live elements, in order (`select`). How
many positions below `p` are live is `Nat.count`, and the position of the `l`-th live one is
`Nat.nth`.

* `lowerBound_eq`, `upperBound_eq`: searching a sorted list counts what comes before. * `nth_eq`,
`nth_le`, `nth_lt_iff`, `lt_nth`: the `l`-th live position and the number of positions that are
deleted before it, from which it is computed.
-/

namespace Live

open List

variable {α : Type*}

/-! ## Live elements -/

section Select

variable (live : ℕ → Prop) [DecidablePred live]

/-- The live elements of a list whose first element is at the position `p`. -/
def select : ℕ → List α → List α
  | _, [] => []
  | p, a :: l => if live p then a :: select (p + 1) l else select (p + 1) l

@[simp] theorem select_nil (p : ℕ) : select live p ([] : List α) = [] := rfl

variable {live}

theorem select_append (p : ℕ) (l l' : List α) :
    select live p (l ++ l') = select live p l ++ select live (p + l.length) l' := by
  induction l generalizing p with
  | nil => simp
  | cons a l ih =>
    have hlen : p + (a :: l).length = p + 1 + l.length := by
      rw [length_cons]
      omega
    rw [cons_append, select, select, ih, hlen]
    split_ifs <;> simp

theorem select_of_forall (h : ∀ p, live p) (p : ℕ) (l : List α) : select live p l = l := by
  induction l generalizing p with
  | nil => rfl
  | cons a l ih => rw [select, if_pos (h p), ih]

theorem select_congr {live' : ℕ → Prop} [DecidablePred live'] (h : ∀ p, live p ↔ live' p) (p : ℕ)
    (l : List α) : select live p l = select live' p l := by
  induction l generalizing p with
  | nil => rfl
  | cons a l ih => simp only [select, h p, ih]

variable (live)

theorem length_select (p : ℕ) (l : List α) :
    Nat.count live p + (select live p l).length = Nat.count live (p + l.length) := by
  induction l generalizing p with
  | nil => rfl
  | cons a l ih =>
    have hcount := Nat.count_succ live p
    have hlen : p + (a :: l).length = p + 1 + l.length := by
      rw [length_cons]
      omega
    rw [hlen, ← ih, hcount, select]
    split_ifs
    · rw [length_cons]
      omega
    · rfl

theorem length_select_zero (l : List α) : (select live 0 l).length = Nat.count live l.length := by
  have := length_select live 0 l
  rwa [Nat.count_zero, zero_add, zero_add] at this

variable {l : List α}

theorem select_take {k : ℕ} (h : k ≤ l.length) :
    (select live 0 l).take (Nat.count live k) = select live 0 (l.take k) := by
  have hlen := length_select_zero live (l.take k)
  rw [length_take_of_le h] at hlen
  nth_rewrite 1 [← take_append_drop k l]
  rw [select_append, take_left' hlen]

theorem select_drop {k : ℕ} (h : k ≤ l.length) :
    (select live 0 l).drop (Nat.count live k) = select live k (l.drop k) := by
  have hlen := length_select_zero live (l.take k)
  rw [length_take_of_le h] at hlen
  nth_rewrite 1 [← take_append_drop k l]
  rw [select_append, drop_left' hlen, length_take_of_le h, zero_add]

/-- The live elements between two positions. -/
theorem select_slice {a b : ℕ} (hab : a ≤ b) (hb : b ≤ l.length) :
    select live a ((l.drop a).take (b - a)) =
      ((select live 0 l).drop (Nat.count live a)).take (Nat.count live b - Nat.count live a) := by
  have ha : a ≤ (l.take b).length := by
    rwa [length_take_of_le hb]
  rw [← drop_take, ← drop_take, select_take live hb, select_drop live ha]

/-- A live element is found among the live ones. -/
theorem getElem?_select {p : ℕ} (hlive : live p) (hp : p < l.length) :
    (select live 0 l)[Nat.count live p]? = l[p]? := by
  have hdrop := select_drop live hp.le
  rw [drop_eq_getElem_cons hp, select, if_pos hlive] at hdrop
  have hget := congrArg (·[0]?) hdrop
  simpa [getElem?_eq_getElem hp] using hget

end Select

/-! ## Deleted positions -/

section Deleted

variable {D : List ℕ} (hD : D.Nodup)

theorem infinite_live (D : List ℕ) : (Set.ofPred (· ∉ D)).Infinite := by
  have hfinite : (Set.ofPred (· ∈ D)).Finite := D.finite_toSet
  exact hfinite.infinite_compl

theorem notMem_nth (D : List ℕ) (l : ℕ) : Nat.nth (· ∉ D) l ∉ D :=
  Nat.nth_mem_of_infinite (infinite_live D) l

variable {i l : ℕ}

/-- The live element with the number `i`, at its position. -/
theorem getElem?_nth {l : List α} (h : i < Nat.count (· ∉ D) l.length) :
    Nat.nth (· ∉ D) i < l.length ∧ l[Nat.nth (· ∉ D) i]? = (select (· ∉ D) 0 l)[i]? := by
  have hlt : Nat.nth (· ∉ D) i < l.length := Nat.nth_lt_of_lt_count h
  have hget := getElem?_select (· ∉ D) (notMem_nth D i) hlt
  rw [Nat.count_nth_of_infinite (infinite_live D)] at hget
  exact ⟨hlt, hget.symm⟩

theorem le_nth_iff {n : ℕ} : n ≤ Nat.nth (· ∉ D) i ↔ Nat.count (· ∉ D) n ≤ i :=
  (Nat.count_le_iff_le_nth (infinite_live D)).symm

/-- The live elements from the one with the number `i` to the one before `j`, between their
positions. -/
theorem select_nth {l : List α} {j : ℕ} (hij : i < j) (hj : j ≤ Nat.count (· ∉ D) l.length) :
    select (· ∉ D) (Nat.nth (· ∉ D) i) ((l.drop (Nat.nth (· ∉ D) i)).take
      (Nat.nth (· ∉ D) (j - 1) + 1 - Nat.nth (· ∉ D) i)) =
      ((select (· ∉ D) 0 l).drop i).take (j - i) := by
  have hlast : Nat.nth (· ∉ D) (j - 1) < l.length := Nat.nth_lt_of_lt_count (by omega)
  have hmono : Nat.nth (· ∉ D) i ≤ Nat.nth (· ∉ D) (j - 1) :=
    Nat.nth_monotone (infinite_live D) (by omega)
  have hstop := Nat.count_succ (· ∉ D) (Nat.nth (· ∉ D) (j - 1))
  rw [Nat.count_nth_of_infinite (infinite_live D), if_pos (notMem_nth _ _),
    Nat.sub_add_cancel (by omega)] at hstop
  rw [select_slice _ (by omega) (by omega), hstop, Nat.count_nth_of_infinite (infinite_live D)]

theorem countP_lt_succ (D : List ℕ) (p : ℕ) :
    D.countP (· < p + 1) = D.countP (· < p) + D.count p := by
  induction D with
  | nil => rfl
  | cons d D ih =>
    simp only [countP_cons, count_cons, decide_eq_true_eq, beq_iff_eq]
    split_ifs <;> omega

theorem countP_le_eq (D : List ℕ) (p : ℕ) : D.countP (· ≤ p) = D.countP (· < p + 1) := by
  simp

include hD

/-- The positions below `p` are live or deleted. -/
theorem count_live (p : ℕ) : Nat.count (· ∉ D) p + D.countP (· < p) = p := by
  induction p with
  | zero => simp
  | succ p ih =>
    rw [Nat.count_succ, countP_lt_succ]
    by_cases hp : p ∈ D
    · rw [if_neg (not_not.mpr hp), count_eq_one_of_mem hD hp]
      omega
    · rw [if_pos hp, count_eq_zero_of_not_mem hp]
      omega

/-- The `l`-th live position comes after the positions that are deleted before it. -/
theorem nth_eq (l : ℕ) : Nat.nth (· ∉ D) l = l + D.countP (· < Nat.nth (· ∉ D) l) := by
  have hcount := count_live hD (Nat.nth (· ∉ D) l)
  rw [Nat.count_nth_of_infinite (infinite_live D)] at hcount
  exact hcount.symm

theorem nth_le {p : ℕ} (h : l + D.countP (· ≤ p) ≤ p) : Nat.nth (· ∉ D) l ≤ p := by
  have hcount := count_live hD (p + 1)
  rw [countP_le_eq] at h
  exact Nat.lt_succ_iff.mp (Nat.nth_lt_of_lt_count (n := p + 1) (by omega))

theorem nth_lt_iff {b : ℕ} : Nat.nth (· ∉ D) l < b ↔ l + D.countP (· < b) < b := by
  have hcount := count_live hD b
  rw [← Nat.lt_nth_iff_count_lt (infinite_live D)]
  omega

theorem lt_nth {d : ℕ} (hd : d ∈ D) (h : d ≤ l + D.countP (· < d)) : d < Nat.nth (· ∉ D) l := by
  have hcount := count_live hD d
  have hle : d ≤ Nat.nth (· ∉ D) l :=
    (Nat.count_le_iff_le_nth (infinite_live D)).mp (by omega)
  refine lt_of_le_of_ne hle fun heq => notMem_nth D l ?_
  rwa [← heq]

end Deleted

/-! ## Searching sorted lists -/

theorem findIdx_eq_countP {p : α → Bool} {l : List α}
    (h : l.Pairwise fun a b => p a → p b) : l.findIdx p = l.countP fun a => !p a := by
  induction l with
  | nil => rfl
  | cons a l ih =>
    obtain ⟨ha, hl⟩ := pairwise_cons.mp h
    rw [findIdx_cons, countP_cons]
    cases hp : p a with
    | true =>
      have hnone : l.countP (fun a => !p a) = 0 :=
        countP_eq_zero.mpr fun b hb => by simp [ha b hb hp]
      simp [hnone]
    | false => simp [ih hl]

section Search

variable [LinearOrder α]

/-- `std::lower_bound` on a sorted list: the first position that is not before `x`. -/
def lowerBound (sorted : List α) (x : α) : ℕ :=
  sorted.findIdx fun d => x ≤ d

def upperBound (sorted : List α) (x : α) : ℕ :=
  sorted.findIdx fun d => x < d

section

variable {sorted : List α} (h : sorted.Pairwise (· < ·)) (x : α)
include h x

theorem lowerBound_eq : lowerBound sorted x = sorted.countP (· < x) := by
  rw [lowerBound, findIdx_eq_countP]
  · exact countP_congr fun d _ => by simp
  · exact h.imp fun hlt hle => by simpa using (by simpa using hle : x ≤ _).trans hlt.le

theorem upperBound_eq : upperBound sorted x = sorted.countP (· ≤ x) := by
  rw [upperBound, findIdx_eq_countP]
  · exact countP_congr fun d _ => by simp
  · exact h.imp fun hlt hle => by simpa using (by simpa using hle : x < _).trans hlt

end

end Search

/-- The positions between two bounds are live or deleted. -/
theorem lowerBound_sub_add {D : List ℕ} (hD : D.Pairwise (· < ·)) {a b : ℕ} (hab : a ≤ b) :
    lowerBound D b - lowerBound D a + (Nat.count (· ∉ D) b - Nat.count (· ∉ D) a) = b - a := by
  have hnodup : D.Nodup := hD.imp fun h => h.ne
  have ha := count_live hnodup a
  have hb := count_live hnodup b
  have hmono := Nat.count_monotone (· ∉ D) hab
  have hdeleted := D.countP_mono_left (p := (· < a)) (q := (· < b)) fun x _ hx => by
    simp only [decide_eq_true_eq] at hx ⊢
    omega
  rw [lowerBound_eq hD, lowerBound_eq hD]
  omega

end Live
