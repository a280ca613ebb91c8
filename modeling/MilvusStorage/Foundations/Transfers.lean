import Mathlib.Data.List.Basic
import Mathlib.Logic.Function.Basic
import Mathlib.Algebra.Group.Defs

/-!
# Sequences of transfers between lists

A store keeps a list under every key. A transfer `(q, r)` appends the list under `r` to the list
under `q`; several transfers run one after another, and each reads what the earlier ones have
written.

* `map_pushAll`: an additive measure of the lists after the transfers is computed from the measures
  before (`tally`).
-/

namespace Transfers

open List Function

variable {κ α M : Type*} [DecidableEq κ]

/-- The store after one transfer. -/
def push (s : κ → List α) (t : κ × κ) : κ → List α := update s t.1 (s t.1 ++ s t.2)

/-- The store after transfers, in order. -/
def pushAll (s : κ → List α) (ts : List (κ × κ)) : κ → List α := ts.foldl push s

@[simp] theorem pushAll_nil (s : κ → List α) : pushAll s [] = s := rfl

@[simp] theorem pushAll_cons (s : κ → List α) (t : κ × κ) (ts : List (κ × κ)) :
    pushAll s (t :: ts) = pushAll (push s t) ts := rfl

theorem push_self (s : κ → List α) (t : κ × κ) : push s t t.1 = s t.1 ++ s t.2 :=
  update_self ..

variable {s s' : κ → List α} {ts : List (κ × κ)} {t : κ × κ} {x q : κ} {A : List (Option κ)} {i : ℕ}

theorem push_of_ne (s : κ → List α) (h : x ≠ t.1) : push s t x = s x :=
  update_of_ne h ..

theorem push_eq_of_imp (s : κ → List α) (h : s t.2 ≠ [] → x ≠ t.1) : push s t x = s x := by
  by_cases hx : x = t.1
  · have ht : s t.2 = [] := by
      by_contra hne
      exact h hne hx
    rw [hx, push_self, ht, append_nil]
  · exact push_of_ne s hx

/-! ## Measures -/

/-- Counts after transfers: each adds the count of its second key to that of its first. -/
def tally [Add M] (ρ : κ → M) (ts : List (κ × κ)) : κ → M :=
  ts.foldl (fun ρ t => update ρ t.1 (ρ t.1 + ρ t.2)) ρ

theorem map_pushAll [Add M] (μ : List α → M) (hμ : ∀ a b, μ (a ++ b) = μ a + μ b)
    (s : κ → List α) (ts : List (κ × κ)) (x : κ) :
    μ (pushAll s ts x) = tally (fun y => μ (s y)) ts x := by
  induction ts generalizing s with
  | nil => rfl
  | cons t ts ih =>
    have hstep : (fun y => μ (push s t y)) =
        update (fun y => μ (s y)) t.1 (μ (s t.1) + μ (s t.2)) := by
      funext y
      by_cases hy : y = t.1
      · rw [hy, push_self, hμ, update_self]
      · rw [push_of_ne s hy, update_of_ne hy]
    rw [pushAll_cons, ih, hstep, tally, tally, foldl_cons]

/-! ## What a key receives -/

/-- What the transfers bring to a key, read from one store. -/
def received (s : κ → List α) (ts : List (κ × κ)) (x : κ) : List α :=
  (ts.filter fun t => t.1 = x).flatMap fun t => s t.2

@[simp] theorem received_nil (s : κ → List α) (x : κ) : received s [] x = [] := rfl

theorem received_cons_self (s : κ → List α) (t : κ × κ) (ts : List (κ × κ)) :
    received s (t :: ts) t.1 = s t.2 ++ received s ts t.1 := by
  simp [received]

theorem received_cons_of_ne (s : κ → List α) (h : x ≠ t.1) (ts : List (κ × κ)) :
    received s (t :: ts) x = received s ts x := by
  simp [received, h.symm]

theorem received_append (s : κ → List α) (ts ts' : List (κ × κ)) (x : κ) :
    received s (ts ++ ts') x = received s ts x ++ received s ts' x := by
  simp [received]

/-- Only the lists that the transfers read count. -/
theorem received_congr (h : ∀ t ∈ ts, s t.2 = s' t.2) (x : κ) :
    received s ts x = received s' ts x := by
  induction ts with
  | nil => rfl
  | cons t ts ih =>
    have htail := ih fun t ht => h t (mem_cons_of_mem _ ht)
    have hhead := h t mem_cons_self
    by_cases hx : x = t.1
    · rw [hx, received_cons_self, received_cons_self, hhead, ← hx, htail]
    · rw [received_cons_of_ne s hx, received_cons_of_ne s' hx, htail]

theorem received_eq_nil (h : ∀ t ∈ ts, t.1 = x → s t.2 = []) : received s ts x = [] := by
  simp only [received, flatMap_eq_nil_iff, mem_filter, decide_eq_true_eq]
  exact fun t ht => h t ht.1 ht.2

theorem push_append_received (s : κ → List α) (t : κ × κ) (ts : List (κ × κ)) (x : κ) :
    push s t x ++ received s ts x = s x ++ received s (t :: ts) x := by
  by_cases hx : x = t.1
  · rw [hx, push_self, received_cons_self, append_assoc]
  · rw [push_of_ne s hx, received_cons_of_ne s hx]

theorem length_le_push (s : κ → List α) (t : κ × κ) (x : κ) :
    (s x).length ≤ (push s t x).length := by
  have h := congrArg length (push_append_received s t [] x)
  simp only [received_nil, append_nil, length_append] at h
  omega

/-- Transfers read at least as much from a store with longer lists, and more if one of those into
the key reads a list that is longer. -/
theorem length_received_mono (h : ∀ y, (s y).length ≤ (s' y).length) (ts : List (κ × κ)) (x : κ) :
    (received s ts x).length ≤ (received s' ts x).length := by
  induction ts with
  | nil => exact Nat.le_refl _
  | cons t ts ih =>
    by_cases hx : x = t.1
    · have ht := h t.2
      subst hx
      simp only [received_cons_self, length_append]
      omega
    · rwa [received_cons_of_ne s hx, received_cons_of_ne s' hx]

theorem length_received_lt (h : ∀ y, (s y).length ≤ (s' y).length) (ht : t ∈ ts)
    (hlt : (s t.2).length < (s' t.2).length) :
    (received s ts t.1).length < (received s' ts t.1).length := by
  obtain ⟨pre, post, rfl⟩ := append_of_mem ht
  have hpre := length_received_mono h pre t.1
  have hpost := length_received_mono h post t.1
  simp only [received_append, received_cons_self, length_append]
  omega

/-- **Growth.** Transfers bring a key at least what the initial store holds for it. -/
theorem length_received_le (s : κ → List α) (ts : List (κ × κ)) (x : κ) :
    (s x).length + (received s ts x).length ≤ (pushAll s ts x).length := by
  induction ts generalizing s with
  | nil => simp
  | cons t ts ih =>
    have hih := ih (push s t)
    have hmono := length_received_mono (length_le_push s t) ts x
    have hsplit := congrArg length (push_append_received s t ts x)
    simp only [length_append] at hsplit
    rw [pushAll_cons]
    omega

/-! ## Transfers that read initial lists only -/

/-- No transfer reads a list that an earlier one has grown. -/
def Fresh (s : κ → List α) (ts : List (κ × κ)) : Prop :=
  ts.Pairwise fun t t' => s t.2 ≠ [] → t'.2 ≠ t.1

omit [DecidableEq κ] in
theorem fresh_congr (h : ∀ t ∈ ts, s t.2 = s' t.2) (hf : Fresh s ts) : Fresh s' ts := by
  refine Pairwise.imp_of_mem (fun {t t'} ht _ hne => ?_) hf
  rwa [← h t ht]

/-- **Fresh transfers** bring a key exactly what the initial store holds for it. -/
theorem pushAll_of_fresh (h : Fresh s ts) (x : κ) : pushAll s ts x = s x ++ received s ts x := by
  induction ts generalizing s with
  | nil => simp
  | cons t ts ih =>
    obtain ⟨hhead, htail⟩ := pairwise_cons.mp h
    have hsame : ∀ t' ∈ ts, s t'.2 = push s t t'.2 := fun t' ht' =>
      (push_eq_of_imp s fun hne => hhead t' ht' hne).symm
    rw [pushAll_cons, ih (fresh_congr hsame htail), ← received_congr hsame, push_append_received]

/-- Transfers into whose keys no more comes than the initial store holds are fresh. -/
theorem fresh_of_length_eq
    (h : ∀ t ∈ ts, (pushAll s ts t.1).length = (s t.1).length + (received s ts t.1).length) :
    Fresh s ts := by
  induction ts generalizing s with
  | nil => exact Pairwise.nil
  | cons t ts ih =>
    have hsplit : ∀ x, (push s t x).length + (received s ts x).length =
        (s x).length + (received s (t :: ts) x).length := by
      intro x
      have hlen := congrArg length (push_append_received s t ts x)
      simpa only [length_append] using hlen
    have hhead : ∀ t' ∈ ts, s t.2 ≠ [] → t'.2 ≠ t.1 := by
      intro t' ht' hne heq
      have hlt : (s t'.2).length < (push s t t'.2).length := by
        have hpos := length_pos_iff.mpr hne
        rw [heq, push_self, length_append]
        omega
      have hmore := length_received_lt (length_le_push s t) ht' hlt
      have hgrow := length_received_le (push s t) ts t'.1
      have hexact := h t' (mem_cons_of_mem _ ht')
      have hs := hsplit t'.1
      rw [pushAll_cons] at hexact
      omega
    have hsame : ∀ t' ∈ ts, push s t t'.2 = s t'.2 := fun t' ht' =>
      push_eq_of_imp s fun hne => hhead t' ht' hne
    refine pairwise_cons.mpr ⟨hhead, fresh_congr hsame (ih fun t' ht' => ?_)⟩
    have hexact := h t' (mem_cons_of_mem _ ht')
    have hs := hsplit t'.1
    rw [pushAll_cons] at hexact
    rw [received_congr hsame]
    omega

/-! ## Transfers between two lists of keys -/

/-- The transfers that bring a second list of keys to a first one, index by index; absent keys are
passed over. -/
def pairs : List (Option κ) → List (Option κ) → List (κ × κ)
  | some q :: A, some r :: l => (q, r) :: pairs A l
  | _ :: A, _ :: l => pairs A l
  | _, _ => []

/-- The list under the key at an index, empty if there is none. -/
def entry (s : κ → List α) (i : ℕ) (l : List (Option κ)) : List α := l[i]?.join.elim [] s

omit [DecidableEq κ] in
@[simp] theorem entry_nil (s : κ → List α) (i : ℕ) : entry s i [] = [] := by simp [entry]

omit [DecidableEq κ] in
@[simp] theorem entry_cons_zero (s : κ → List α) (p : Option κ) (l : List (Option κ)) :
    entry s 0 (p :: l) = p.elim [] s := by cases p <;> rfl

omit [DecidableEq κ] in
@[simp] theorem entry_cons_succ (s : κ → List α) (i : ℕ) (p : Option κ) (l : List (Option κ)) :
    entry s (i + 1) (p :: l) = entry s i l := rfl

omit [DecidableEq κ] in
theorem mem_pairs {l : List (Option κ)} :
    t ∈ pairs A l ↔ ∃ i : ℕ, A[i]? = some (some t.1) ∧ l[i]? = some (some t.2) := by
  induction A generalizing l with
  | nil => simp [pairs]
  | cons a A ih =>
    cases l with
    | nil => simp [pairs]
    | cons p l =>
      rw [← Nat.or_exists_add_one]
      simp only [getElem?_cons_succ, ← ih]
      match a, p with
      | none, p => simp [pairs]
      | some q, none => simp [pairs]
      | some q, some r => simp [pairs, Prod.ext_iff, eq_comm]

theorem received_pairs_cons (s : κ → List α) (a p : Option κ) (A l : List (Option κ)) (q : κ) :
    received s (pairs (a :: A) (p :: l)) q =
      (if a = some q then p.elim [] s else []) ++ received s (pairs A l) q := by
  match a, p with
  | none, p => simp [pairs]
  | some q', none => simp [pairs]
  | some q', some r =>
    by_cases hq : q' = q
    · subst hq
      simp [pairs, received]
    · simp [pairs, received, hq]

theorem length_entry_le_received (hi : A[i]? = some (some q)) (l : List (Option κ)) :
    (entry s i l).length ≤ (received s (pairs A l) q).length := by
  induction A generalizing i l with
  | nil => simp at hi
  | cons a A ih =>
    cases l with
    | nil => simp
    | cons p l =>
      rw [received_pairs_cons, length_append]
      cases i with
      | zero =>
        obtain rfl : a = some q := by simpa using hi
        simp
      | succ i =>
        have htail := ih (by simpa using hi) l
        rw [entry_cons_succ]
        omega

/-- A key that stands at two indices receives what comes for both. -/
theorem length_entries_le_received {j : ℕ} (hi : A[i]? = some (some q)) (hj : A[j]? = some (some q))
    (hij : i < j) (l : List (Option κ)) :
    (entry s i l).length + (entry s j l).length ≤ (received s (pairs A l) q).length := by
  induction A generalizing i j l with
  | nil => simp at hi
  | cons a A ih =>
    obtain ⟨j, rfl⟩ : ∃ j', j = j' + 1 := ⟨j - 1, by omega⟩
    cases l with
    | nil => simp
    | cons p l =>
      rw [received_pairs_cons, length_append, entry_cons_succ]
      cases i with
      | zero =>
        obtain rfl : a = some q := by simpa using hi
        have htail := length_entry_le_received (s := s) (A := A) (i := j) (by simpa using hj) l
        simp only [entry_cons_zero, if_true]
        omega
      | succ i =>
        have htail := ih (by simpa using hi) (by simpa using hj) (by omega) l
        rw [entry_cons_succ]
        omega

/-- A key that stands at one index only receives what comes for that index. -/
theorem received_pairs (hi : A[i]? = some (some q)) (honly : ∀ j, A[j]? = some (some q) → j = i)
    (l : List (Option κ)) : received s (pairs A l) q = entry s i l := by
  induction A generalizing i l with
  | nil => simp at hi
  | cons a A ih =>
    cases l with
    | nil => simp [pairs]
    | cons p l =>
      rw [received_pairs_cons]
      cases i with
      | zero =>
        obtain rfl : a = some q := by simpa using hi
        have hnone : received s (pairs A l) q = [] := by
          refine received_eq_nil fun t ht htq => ?_
          obtain ⟨j, hj, -⟩ := mem_pairs.mp ht
          have := honly (j + 1) (by simpa [htq] using hj)
          omega
        simp [hnone]
      | succ i =>
        have ha : a ≠ some q := by
          intro ha
          have := honly 0 (by simp [ha])
          omega
        have hshift : ∀ j, A[j]? = some (some q) → j = i := by
          intro j hj
          have := honly (j + 1) (by simpa using hj)
          omega
        rw [if_neg ha, nil_append, entry_cons_succ, ih (by simpa using hi) hshift]

end Transfers
