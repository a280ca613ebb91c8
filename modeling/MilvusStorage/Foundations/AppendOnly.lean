import Mathlib.Data.List.Basic
import Mathlib.Data.List.Infix
import Mathlib.Logic.Function.Basic

/-!
# Append-only files

The content of some files, each a list of values, to which values are only ever appended. A value
that is stored is known by its file and its position; a value can also be kept elsewhere.

* `Extends`: more has been appended. Positions stay valid (`Extends.getElem?`).
* `Appends c es c'`: the entries `es` were written one after the other. What was stored is found at
  its position (`Appends.getElem?_of_mem`), and the positions in a file are given out in order,
  without a gap (`Appends.positions_eq`).
-/

namespace AppendOnly

open List Function

variable {K V : Type} [DecidableEq K] {c c' c'' : K → List V}

/-- Append a value to a file. -/
def append (c : K → List V) (k : K) (v : V) : K → List V := update c k (c k ++ [v])

@[simp] theorem append_self (c : K → List V) (k : K) (v : V) : append c k v k = c k ++ [v] :=
  update_self ..

theorem append_of_ne (c : K → List V) {k k' : K} (v : V) (h : k' ≠ k) :
    append c k v k' = c k' := update_of_ne h ..

/-! ## Extensions -/

def Extends (c c' : K → List V) : Prop := ∀ k, c k <+: c' k

omit [DecidableEq K] in
theorem Extends.refl (c : K → List V) : Extends c c := fun _ => prefix_rfl

omit [DecidableEq K] in
theorem Extends.trans (h : Extends c c') (h' : Extends c' c'') : Extends c c'' :=
  fun k => (h k).trans (h' k)

theorem extends_append (c : K → List V) (k : K) (v : V) : Extends c (append c k v) := by
  intro k'
  by_cases hk : k' = k
  · rw [hk, append_self]
    exact prefix_append ..
  · rw [append_of_ne c v hk]

omit [DecidableEq K] in
theorem Extends.getElem? (h : Extends c c') {k : K} {n : ℕ} {v : V} (hn : (c k)[n]? = some v) :
    (c' k)[n]? = some v := by
  obtain ⟨rest, hrest⟩ := h k
  rw [← hrest, getElem?_append_left (List.getElem?_eq_some_iff.mp hn).1, hn]

/-! ## Entries -/

/-- Writing values, each of which is stored at a position or kept elsewhere. -/
inductive Appends (c : K → List V) : List (V × Option (K × ℕ)) → (K → List V) → Prop
  | nil : Appends c [] c
  | kept {c' : K → List V} {es : List (V × Option (K × ℕ))} (v : V) :
      Appends c es c' → Appends c (es ++ [(v, none)]) c'
  | stored {c' : K → List V} {es : List (V × Option (K × ℕ))} (v : V) (k : K) :
      Appends c es c' → Appends c (es ++ [(v, some (k, (c' k).length))]) (append c' k v)

variable {es es' : List (V × Option (K × ℕ))}

theorem Appends.trans (h : Appends c es c') (h' : Appends c' es' c'') :
    Appends c (es ++ es') c'' := by
  induction h' with
  | nil => rwa [append_nil]
  | kept v _ ih =>
    rw [← append_assoc]
    exact ih.kept v
  | stored v k _ ih =>
    rw [← append_assoc]
    exact ih.stored v k

theorem Appends.extends (h : Appends c es c') : Extends c c' := by
  induction h with
  | nil => exact .refl _
  | kept _ _ ih => exact ih
  | stored v k _ ih => exact ih.trans (extends_append _ k v)

/-- A stored value is found at its position. -/
theorem Appends.getElem?_of_mem (h : Appends c es c') {v : V} {k : K} {n : ℕ}
    (hmem : (v, some (k, n)) ∈ es) : (c' k)[n]? = some v := by
  induction h with
  | nil => cases hmem
  | kept w _ ih =>
    obtain hmem | hmem := mem_append.mp hmem
    · exact ih hmem
    · simp at hmem
  | @stored c' es w k' _ ih =>
    obtain hmem | hmem := mem_append.mp hmem
    · exact (extends_append c' k' w).getElem? (ih hmem)
    · obtain ⟨rfl, rfl, rfl⟩ : v = w ∧ k = k' ∧ n = (c' k').length := by simpa using hmem
      rw [append_self, getElem?_concat_length]

/-- The position of an entry in a file. -/
def positionIn (k : K) (e : V × Option (K × ℕ)) : Option ℕ :=
  match e.2 with
  | some (k', n) => if k' = k then some n else none
  | none => none

/-- The positions in a file are given out in order. -/
theorem Appends.positions_eq (h : Appends c es c') (k : K) :
    List.range (c k).length ++ es.filterMap (positionIn k) = List.range (c' k).length := by
  induction h with
  | nil => rw [filterMap_nil, append_nil]
  | kept v _ ih =>
    rw [filterMap_append, ← append_assoc, ih]
    exact append_nil _
  | @stored c' es v k' _ ih =>
    rw [filterMap_append, ← append_assoc, ih]
    by_cases hk : k' = k
    · subst hk
      rw [append_self, length_append, length_singleton, range_succ]
      simp [positionIn]
    · rw [append_of_ne c' v (Ne.symm hk)]
      simp [positionIn, hk]

end AppendOnly
