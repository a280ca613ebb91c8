import Mathlib.Algebra.Order.Ring.Int
import Mathlib.Data.List.Forall2

/-!
# Inverting computations in `Except`

A sequence of fallible steps that ends in `ok` went through `ok` at every step. The steps of a loop
and its results are related by `List.Forall₂`.
-/

namespace List

variable {α β : Type*} {R : α → β → Prop} {as : List α} {bs : List β}

theorem lt_of_getElem? {i : ℕ} {a : α} (h : as[i]? = some a) : i < as.length :=
  (List.getElem?_eq_some_iff.mp h).1

theorem Pairwise.rel_of_getElem? {R : α → α → Prop} (h : as.Pairwise R) {i j : ℕ} {a b : α}
    (ha : as[i]? = some a) (hb : as[j]? = some b) (hlt : i < j) : R a b := by
  obtain ⟨hi, rfl⟩ := List.getElem?_eq_some_iff.mp ha
  obtain ⟨hj, rfl⟩ := List.getElem?_eq_some_iff.mp hb
  exact pairwise_iff_getElem.mp h i j hi hj hlt

theorem Forall₂.exists_getElem? (h : Forall₂ R as bs) {i : ℕ} {b : β} (hb : bs[i]? = some b) :
    ∃ a, as[i]? = some a ∧ R a b := by
  obtain ⟨hi, rfl⟩ := List.getElem?_eq_some_iff.mp hb
  exact ⟨_, getElem?_eq_getElem (h.length_eq ▸ hi), h.get (h.length_eq ▸ hi) hi⟩

theorem Forall₂.rel_of_getElem? (h : Forall₂ R as bs) {i : ℕ} {a : α} {b : β}
    (ha : as[i]? = some a) (hb : bs[i]? = some b) : R a b := by
  obtain ⟨a', ha', hrel⟩ := h.exists_getElem? hb
  cases ha.symm.trans ha'
  exact hrel

theorem Forall₂.exists_right (h : Forall₂ R as bs) {a : α} (ha : a ∈ as) : ∃ b ∈ bs, R a b := by
  obtain ⟨i, hi, rfl⟩ := mem_iff_getElem.mp ha
  exact ⟨_, getElem_mem (h.length_eq ▸ hi), h.get hi (h.length_eq ▸ hi)⟩

theorem Forall₂.exists_left (h : Forall₂ R as bs) {b : β} (hb : b ∈ bs) : ∃ a ∈ as, R a b := by
  obtain ⟨i, hi, rfl⟩ := mem_iff_getElem.mp hb
  exact ⟨_, getElem_mem (h.length_eq ▸ hi), h.get (h.length_eq ▸ hi) hi⟩

end List

namespace Except

universe u v

variable {ε : Type u} {α β : Type v} {f : α → Except ε β} {l : List α} {r : List β} {x : Except ε α}

theorem bind_eq_ok {b : β} : (x >>= f) = ok b ↔ ∃ a, x = ok a ∧ f a = ok b := by
  cases x with
  | error a | ok a => simp [bind, Except.bind]

theorem ok_bind (a : α) (f : α → Except ε β) : (ok a >>= f) = f a := rfl

theorem pure_eq_ok (a : α) : (pure a : Except ε α) = ok a := rfl

theorem pure_eq_ok_iff {a b : α} : (pure a : Except ε α) = ok b ↔ a = b := by
  simp [pure, Except.pure]

theorem bind_pure_eq_ok {g : α → β} {b : β} :
    (x >>= fun a => pure (g a)) = ok b ↔ ∃ a, x = ok a ∧ g a = b := by
  simp only [bind_eq_ok, pure_eq_ok_iff]

theorem mapError_eq_ok {ε' : Type*} {g : ε → ε'} {a : α} : x.mapError g = ok a ↔ x = ok a := by
  cases x <;> simp [Except.mapError]

/-- The steps of a loop that succeeds. -/
theorem forall₂_of_mapM_ok (h : l.mapM f = ok r) : List.Forall₂ (fun a b => f a = ok b) l r := by
  induction l generalizing r with
  | nil =>
    obtain rfl := pure_eq_ok_iff.mp h
    exact .nil
  | cons a l ih =>
    rw [List.mapM_cons] at h
    obtain ⟨b, hb, h⟩ := bind_eq_ok.mp h
    obtain ⟨bs, hbs, rfl⟩ := bind_pure_eq_ok.mp h
    exact .cons hb (ih hbs)

theorem length_of_mapM_ok (h : l.mapM f = ok r) :
    r.length = l.length := (forall₂_of_mapM_ok h).length_eq.symm

theorem getElem?_of_mapM_ok (h : l.mapM f = ok r) {i : ℕ} {a : α} (ha : l[i]? = some a) :
    ∃ b, r[i]? = some b ∧ f a = ok b := by
  obtain ⟨hi, rfl⟩ := getElem?_eq_some_iff.mp ha
  have hi' : i < r.length := length_of_mapM_ok h ▸ hi
  exact ⟨r[i], List.getElem?_eq_getElem hi', (forall₂_of_mapM_ok h).get hi hi'⟩

theorem mapM_eq_ok_map {g : α → β} (h : ∀ a ∈ l, f a = ok (g a)) : l.mapM f = ok (l.map g) := by
  induction l with
  | nil => rfl
  | cons a l ih =>
    obtain ⟨ha, hl⟩ := List.forall_mem_cons.mp h
    rw [List.mapM_cons, ha, ok_bind, ih hl, ok_bind, pure_eq_ok, List.map_cons]

theorem mapM_congr {g : α → Except ε β} (h : ∀ a ∈ l, f a = g a) : l.mapM f = l.mapM g := by
  induction l with
  | nil => rfl
  | cons a l ih =>
    obtain ⟨ha, hl⟩ := List.forall_mem_cons.mp h
    rw [List.mapM_cons, List.mapM_cons, ha, ih hl]

theorem mapM_ok_of_forall₂ (h : List.Forall₂ (fun a b => f a = ok b) l r) : l.mapM f = ok r := by
  induction h with
  | nil => rfl
  | cons ha _ ih => rw [List.mapM_cons, ha, ok_bind, ih, ok_bind, pure_eq_ok]

/-- A loop stops at the first step that fails. -/
theorem exists_mapM_error {P : ε → Prop} (hP : ∀ a ∈ l, ∀ e, f a = error e → P e)
    (h : ∃ a ∈ l, ∃ e, f a = error e) :
    ∃ e, l.mapM f = error e ∧ P e := by
  induction l with
  | nil => simp at h
  | cons a l ih =>
    obtain ⟨ha, hl⟩ := List.forall_mem_cons.mp hP
    rw [List.mapM_cons]
    cases hfa : f a with
    | error e => exact ⟨e, rfl, ha e hfa⟩
    | ok b =>
      obtain ⟨a', hmem, e, he⟩ := h
      have htail : ∃ a ∈ l, ∃ e, f a = error e := by
        rcases List.mem_cons.mp hmem with rfl | hmem
        · simp [hfa] at he
        · exact ⟨a', hmem, e, he⟩
      obtain ⟨e, he, hPe⟩ := ih hl htail
      exact ⟨e, by rw [he]; rfl, hPe⟩

/-- What every step of a loop that succeeds keeps. -/
theorem foldlM_invariant {P : β → Prop} {f : β → α → Except ε β} {b b' : β}
    (hstep : ∀ b, P b → ∀ a ∈ l, ∀ b', f b a = ok b' → P b') (hb : P b) (h : l.foldlM f b = ok b') :
    P b' := by
  induction l generalizing b with
  | nil => exact pure_eq_ok_iff.mp h ▸ hb
  | cons a l ih =>
    obtain ⟨b1, hb1, h⟩ := bind_eq_ok.mp h
    exact ih (fun b hb a' ha' => hstep b hb a' (List.mem_cons_of_mem _ ha'))
      (hstep b hb a List.mem_cons_self b1 hb1) h

/-- A loop whose steps all succeed. -/
theorem exists_mapM_ok (h : ∀ a ∈ l, ∃ b, f a = ok b) : ∃ r, l.mapM f = ok r := by
  induction l with
  | nil => exact ⟨[], List.mapM_nil⟩
  | cons a l ih =>
    obtain ⟨b, hb⟩ := h a List.mem_cons_self
    obtain ⟨r, hr⟩ := ih fun a' ha' => h a' (List.mem_cons_of_mem _ ha')
    refine ⟨b :: r, ?_⟩
    rw [List.mapM_cons, hb, ok_bind, hr, ok_bind, pure_eq_ok]

end Except
