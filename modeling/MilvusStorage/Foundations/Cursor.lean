import Mathlib.Data.List.Basic

/-!
# Readers with a cursor

A reader gets a list and a position in it, and returns a value with the next position. It reads a
code exactly (`Reads`) if it finds the value wherever the code stands and whatever follows, and
fails where the list ends before the code does. Readers one after the other read codes one after the
other (`Reads.bind`).
-/

namespace Cursor

open List

variable {β ε α γ : Type} {E : ε → Prop}

/-- `p` reads `code` as `a`. Where only a part of the code is there, it fails with an error in `E`.
-/
structure Reads (E : ε → Prop) (p : List β → StateT ℕ (Except ε) α) (code : List β) (a : α) :
    Prop where
  ok : ∀ before after, p (before ++ code ++ after) before.length = .ok (a, (before ++ code).length)
  error : ∀ before part rest, code = part ++ rest → rest ≠ [] →
    ∃ e, p (before ++ part) before.length = .error e ∧ E e

variable {p : List β → StateT ℕ (Except ε) α} {f : List β → α → StateT ℕ (Except ε) γ}
  {code code' : List β} {a : α} {c : γ}

theorem reads_pure (a : α) : Reads E (fun _ : List β => pure a) [] a where
  ok before after := by
    rw [append_nil]
    rfl
  error _ _ _ hcode hrest := absurd (nil_eq_append_iff.mp hcode).2 hrest

theorem Reads.bind (hp : Reads E p code a) (hf : Reads E (fun l => f l a) code' c) :
    Reads E (fun l => p l >>= f l) (code ++ code') c where
  ok before after := by
    have hfirst := hp.ok before (code' ++ after)
    have hsecond := hf.ok (before ++ code) after
    simp only [append_assoc] at hfirst hsecond ⊢
    show (p _ _ >>= fun x => f _ x.1 x.2) = _
    rw [hfirst]
    exact hsecond
  error before part rest hcode hrest := by
    show ∃ e, (p _ _ >>= fun x => f _ x.1 x.2) = _ ∧ E e
    have hsecond : ∀ part', code' = part' ++ rest → ∃ e, (p (before ++ (code ++ part'))
        before.length >>= fun x => f (before ++ (code ++ part')) x.1 x.2) = .error e ∧ E e := by
      intro part' hcode'
      rw [← append_assoc, hp.ok before part']
      exact hf.error (before ++ code) part' rest hcode' hrest
    -- the list ends within the first code or within the second one
    obtain ⟨rest', rfl, rfl⟩ | ⟨part', rfl, hcode'⟩ := append_eq_append_iff.mp hcode.symm
    · rcases eq_or_ne rest' [] with rfl | hrest'
      · simpa using hsecond [] rfl
      · obtain ⟨e, he, hE⟩ := hp.error before part rest' rfl hrest'
        exact ⟨e, by rw [he]; rfl, hE⟩
    · exact hsecond part' hcode'

end Cursor
