import Mathlib.Data.List.Nodup
import Mathlib.Data.List.Perm.Basic
import Mathlib.Data.List.Range

/-!
# Scattering and gathering

Items are sorted into numbered groups and put back in order. If the items already come group by
group, then the groups one after the other are the items (`flatMap_filter_key`). If they come in any
order together with their positions, then writing each one's place to its position gives the list of
places to gather them from (`gather_scatter`).
-/

namespace Scatter

open List

variable {α β : Type*}

/-! ## Groups -/

variable {l : List α}

section

variable {key : α → ℕ} (h : l.Pairwise fun a b => key a ≤ key b)
include h

theorem filter_lt_append (n : ℕ) : (l.filter fun a => key a < n) ++ (l.filter fun a => key a = n) =
      l.filter fun a => key a < n + 1 := by
  induction l with
  | nil => rfl
  | cons a l ih =>
    obtain ⟨ha, hl⟩ := pairwise_cons.mp h
    by_cases hlt : key a < n
    · rw [filter_cons_of_pos (by simpa using hlt), filter_cons_of_neg (by simpa using hlt.ne),
        filter_cons_of_pos (by rw [decide_eq_true_eq]; omega), cons_append, ih hl]
    · -- no item of an earlier group is left
      have hle : ∀ b ∈ a :: l, n ≤ key b := by
        rw [forall_mem_cons]
        exact ⟨by omega, fun b hb => by have := ha b hb; omega⟩
      have hnil : (a :: l).filter (fun b => key b < n) = [] := by
        rw [filter_eq_nil_iff]
        intro b hb
        have := hle b hb
        simpa using this
      rw [hnil]
      apply filter_congr
      intro b hb
      have := hle b hb
      rw [decide_eq_decide]
      omega

/-- Items that come group by group. -/
theorem flatMap_filter_key {n : ℕ} (hlt : ∀ a ∈ l, key a < n) :
    ((List.range n).flatMap fun i => l.filter fun a => key a = i) = l := by
  have hinit : ∀ m, ((range m).flatMap fun i => l.filter fun a => key a = i) =
      l.filter fun a => key a < m := by
    intro m
    induction m with
    | zero => simp
    | succ m ih => simp [range_succ, ih, filter_lt_append h]
  rw [hinit]
  simpa using hlt

end

/-- Items in any order. -/
theorem flatMap_filter_perm {κ : Type*} [DecidableEq κ] (key : α → κ) {ks : List κ}
    (hnodup : ks.Nodup) (h : ∀ a ∈ l, key a ∈ ks) :
    (ks.flatMap fun k => l.filter fun a => key a = k).Perm l := by
  induction ks generalizing l with
  | nil =>
    obtain rfl := eq_nil_iff_forall_not_mem.mpr fun a ha => not_mem_nil (h a ha)
    exact .refl _
  | cons k ks ih =>
    obtain ⟨hk, hks⟩ := nodup_cons.mp hnodup
    -- the items of the other groups
    have hrest : ∀ a ∈ l.filter (fun a => !decide (key a = k)), key a ∈ ks := by
      intro a ha
      obtain ⟨ha, hne⟩ := mem_filter.mp ha
      exact (mem_cons.mp (h a ha)).resolve_left (by simpa using hne)
    have hsame : (ks.flatMap fun k' => l.filter fun a => key a = k') =
        ks.flatMap fun k' =>
          (l.filter fun a => !decide (key a = k)).filter fun a => key a = k' := by
      apply flatMap_congr
      intro k' hk'
      rw [filter_filter]
      apply filter_congr
      intro a _
      by_cases heq : key a = k'
      · have hne : k' ≠ k := fun hkk' => hk (hkk' ▸ hk')
        simp [heq, hne]
      · simp [heq]
    rw [flatMap_cons, hsame]
    exact ((ih hks hrest).append_left _).trans (filter_append_perm _ _)

/-! ## Positions -/

/-- Write values to their positions; there is no result if a position does not exist. -/
def scatter (l : List β) : List (ℕ × β) → Option (List β)
  | [] => some l
  | (p, b) :: writes => if p < l.length then scatter (l.set p b) writes else none

theorem scatter_eq_some {l : List β} (writes : List (ℕ × β))
    (hnodup : (writes.map Prod.fst).Nodup) (hlt : ∀ w ∈ writes, w.1 < l.length) :
    ∃ r, scatter l writes = some r ∧ r.length = l.length ∧
      (∀ p, p ∉ writes.map Prod.fst → r[p]? = l[p]?) ∧ ∀ w ∈ writes, r[w.1]? = some w.2 := by
  induction writes generalizing l with
  | nil => exact ⟨l, rfl, rfl, fun _ _ => rfl, forall_mem_nil _⟩
  | cons w writes ih =>
    rw [map_cons, nodup_cons] at hnodup
    obtain ⟨hw, hwrites⟩ := forall_mem_cons.mp hlt
    obtain ⟨r, hr, hlen, hother, hget⟩ :=
      ih (l := l.set w.1 w.2) hnodup.2 (by simpa using hwrites)
    refine ⟨r, ?_, by rw [hlen, length_set], fun p hp => ?_, forall_mem_cons.mpr ⟨?_, hget⟩⟩
    · rw [scatter, if_pos hw, hr]
    · rw [map_cons, mem_cons, not_or] at hp
      rw [hother p hp.2, getElem?_set_ne (Ne.symm hp.1)]
    · -- the later writes go to other positions
      rw [hother w.1 hnodup.1, getElem?_set_self hw]

/-- **Gathering what was scattered.** The items come in another order than `l`, each with its
position in `l`; `writes` tells each position the place of its item. -/
theorem gather_scatter {items : List (α × ℕ)} (hitems : items.Perm l.zipIdx) {init : List β}
    (hinit : init.length = l.length) (place : ℕ → β) (places : β → ℕ)
    (hplaces : ∀ i < items.length, places (place i) = i) :
    ∃ r, scatter init ((items.map Prod.snd).zipIdx.map fun (p, i) => (p, place i)) = some r ∧
      (∀ b ∈ r, ∃ i < items.length, b = place i) ∧
      r.map (fun b => (items.map Prod.fst)[places b]?) = l.map some := by
  have hpositions : ((items.map Prod.snd).zipIdx.map fun (p, i) => (p, place i)).map Prod.fst =
      items.map Prod.snd := by
    rw [map_map]
    exact zipIdx_map_fst 0 _
  have hperm : (items.map Prod.snd).Perm (range l.length) := by
    have := hitems.map Prod.snd
    rwa [zipIdx_map_snd, ← range_eq_range'] at this
  obtain ⟨r, hr, hrlength, -, hget⟩ := scatter_eq_some
    ((items.map Prod.snd).zipIdx.map fun (p, i) => (p, place i))
    (by rw [hpositions]; exact hperm.nodup_iff.mpr nodup_range) (by
      intro w hw
      have hmem : w.1 ∈ items.map Prod.snd := hpositions ▸ mem_map_of_mem hw
      rw [hinit]
      exact mem_range.mp (hperm.mem_iff.mp hmem))
  rw [hinit] at hrlength
  -- the place of the item of a position
  have hplace : ∀ (i : ℕ) a p, items[i]? = some (a, p) → r[p]? = some (place i) := by
    intro i a p hi
    refine hget (p, place i) (mem_map.mpr ⟨(p, i), ?_, rfl⟩)
    simp [mem_zipIdx_iff_getElem?, hi]
  have hitem : ∀ p < l.length, ∃ (i : ℕ) (a : α), items[i]? = some (a, p) ∧ l[p]? = some a := by
    intro p hp
    have hmem : (l[p], p) ∈ items := hitems.mem_iff.mpr
      (mem_zipIdx_iff_getElem?.mpr (getElem?_eq_getElem hp))
    obtain ⟨i, hi⟩ := mem_iff_getElem?.mp hmem
    exact ⟨i, l[p], hi, getElem?_eq_getElem hp⟩
  refine ⟨r, hr, fun b hb => ?_, ?_⟩
  · obtain ⟨p, hp⟩ := mem_iff_getElem?.mp hb
    obtain ⟨i, a, hi, -⟩ := hitem p (hrlength ▸ (List.getElem?_eq_some_iff.mp hp).1)
    have hlt := (List.getElem?_eq_some_iff.mp hi).1
    rw [hplace i a p hi] at hp
    exact ⟨i, hlt, (Option.some.inj hp).symm⟩
  · apply ext_getElem?
    intro p
    by_cases hp : p < l.length
    · obtain ⟨i, a, hi, ha⟩ := hitem p hp
      have hlt := (List.getElem?_eq_some_iff.mp hi).1
      simp [getElem?_map, hplace i a p hi, ha, hplaces i hlt, hi, Option.map_some]
    · rw [getElem?_eq_none (by rw [length_map]; omega),
        getElem?_eq_none (by rw [length_map]; omega)]

end Scatter
