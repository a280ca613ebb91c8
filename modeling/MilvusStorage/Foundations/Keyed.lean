import Mathlib.Data.List.Nodup

/-!
# Lists with keys

A list of items each with a key, used as a map: an item is put in at the end, in place of the one
with its key. Putting in several items one after the other leaves the items whose key is not among
theirs, followed by those of them that no later one replaces (`foldl_put`).
-/

namespace Keyed

open List

variable {α κ : Type*} [DecidableEq κ] (key : α → κ)

/-- Take out the item with a key. -/
def erase (k : κ) (l : List α) : List α := l.filter fun a => key a ≠ k

variable {l : List α}

@[simp] theorem mem_erase {k : κ} {a : α} : a ∈ erase key k l ↔ a ∈ l ∧ key a ≠ k := by
  simp [erase]

theorem erase_sublist (k : κ) (l : List α) : (erase key k l).Sublist l := filter_sublist

theorem filter_erase (k : κ) (ks : List κ) (l : List α) :
    (erase key k l).filter (fun a => key a ∉ ks) = l.filter fun a => key a ∉ k :: ks := by
  rw [erase, filter_filter]
  apply filter_congr
  intro a _
  rw [← Bool.decide_and, decide_eq_decide, mem_cons, not_or, and_comm]

/-- Items taken out one after the other. -/
theorem foldl_erase (ks : List κ) (l : List α) :
    ks.foldl (fun l k => erase key k l) l = l.filter fun a => key a ∉ ks := by
  induction ks generalizing l with
  | nil => simp
  | cons k ks ih => rw [foldl_cons, ih, filter_erase]

/-- Put an item in, at the end, in place of the one with its key. -/
def put (l : List α) (a : α) : List α := erase key (key a) l ++ [a]

theorem nodup_put (h : (l.map key).Nodup) (a : α) : ((put key l a).map key).Nodup := by
  rw [put, map_append, map_singleton, ← concat_eq_append, nodup_concat]
  refine ⟨?_, h.sublist ((erase_sublist key _ l).map key)⟩
  simp

theorem nodup_foldl_put (h : (l.map key).Nodup) (as : List α) :
    ((as.foldl (put key) l).map key).Nodup := by
  induction as generalizing l with
  | nil => exact h
  | cons a as ih => exact ih (nodup_put key h a)

/-- The items that no later one replaces. -/
def latest : List α → List α
  | [] => []
  | a :: as => if key a ∈ as.map key then latest as else a :: latest as

theorem latest_sublist (as : List α) : (latest key as).Sublist as := by
  induction as with
  | nil => exact .slnil
  | cons a as ih =>
    rw [latest]
    split_ifs
    · exact ih.cons a
    · exact ih.cons_cons a

theorem mem_latest {before after : List α} {a : α} (h : key a ∉ after.map key) :
    a ∈ latest key (before ++ a :: after) := by
  induction before with
  | nil =>
    rw [nil_append, latest, if_neg h]
    exact mem_cons_self
  | cons b before ih =>
    rw [cons_append, latest]
    split_ifs
    · exact ih
    · exact mem_cons_of_mem _ ih

/-- Items put in one after the other. -/
theorem foldl_put (l as : List α) : as.foldl (put key) l =
    (l.filter fun a => key a ∉ as.map key) ++ latest key as := by
  induction as generalizing l with
  | nil => simp [latest]
  | cons a as ih =>
    rw [foldl_cons, ih, put, filter_append, filter_erase, latest, append_assoc]
    by_cases ha : key a ∈ as.map key
    · rw [if_pos ha, filter_singleton, decide_eq_false (not_not.mpr ha)]
      rfl
    · rw [if_neg ha, filter_singleton, decide_eq_true ha]
      rfl

end Keyed
