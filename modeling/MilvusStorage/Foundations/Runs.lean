import Mathlib.Data.Option.Basic

/-!
# Runs of labelled transition systems

A system is given by the function `next`: the state after an action, or `none` if the action is not
enabled. A run takes a list of actions.
-/

namespace Runs

variable {S A : Type*} (next : S → A → Option S)

/-- The state after a list of actions. -/
def run (s : S) : List A → Option S
  | [] => some s
  | a :: as => (next s a).bind fun s' => run s' as

/-- Every step of the run meets the condition `G`, which sees the state and the action. -/
def Meets (G : S → A → Prop) (s : S) : List A → Prop
  | [] => True
  | a :: as => G s a ∧ ∀ s', next s a = some s' → Meets G s' as

variable {next} {as : List A}

theorem run_cons {s s' : S} {a : A} (h : run next s (a :: as) = some s') :
    ∃ s1, next s a = some s1 ∧ run next s1 as = some s' := Option.bind_eq_some_iff.mp h

variable {G : S → A → Prop} {Inv : S → Prop}

/-- **Invariants of guarded runs.** -/
theorem run_invariant_of_meets (hstep : ∀ s a s', Inv s → G s a → next s a = some s' → Inv s')
    {s s' : S} (hs : Inv s) (hG : Meets next G s as) (h : run next s as = some s') : Inv s' := by
  induction as generalizing s with
  | nil =>
    cases h
    exact hs
  | cons a as ih =>
    obtain ⟨s1, h1, h2⟩ := run_cons h
    exact ih (hstep s a s1 hs hG.1 h1) (hG.2 s1 h1) h2

section

variable {Inv : List A → S → Prop} {G : S → A → Prop} {s s' : S} {as : List A}
  (hstep : ∀ as s a s', Inv as s → G s a → next s a = some s' → Inv (as ++ [a]) s')
include hstep

private theorem run_history_from {before : List A} (hs : Inv before s) (hG : Meets next G s as)
    (h : run next s as = some s') : Inv (before ++ as) s' := by
  induction as generalizing s before with
  | nil =>
    cases h
    rwa [List.append_nil]
  | cons a as ih =>
    obtain ⟨s1, h1, h2⟩ := run_cons h
    rw [List.append_cons]
    exact ih (hstep before s a s1 hs hG.1 h1) (hG.2 s1 h1) h2

/-- **Invariants that see the actions so far.** -/
theorem run_history (hs : Inv [] s) (hG : Meets next G s as) (h : run next s as = some s') :
    Inv as s' :=
  List.nil_append as ▸ run_history_from hstep hs hG h

end

theorem meets_of_forall (h : ∀ a ∈ as, ∀ s, G s a) (s : S) : Meets next G s as := by
  induction as generalizing s with
  | nil => trivial
  | cons a as ih =>
    obtain ⟨ha, has⟩ := List.forall_mem_cons.mp h
    exact ⟨ha s, fun s' _ => ih has s'⟩

theorem Meets.and_forall {P : A → Prop} {s : S} (hG : Meets next G s as) (hP : ∀ a ∈ as, P a) :
    Meets next (fun s a => P a ∧ G s a) s as := by
  induction as generalizing s with
  | nil => trivial
  | cons a as ih =>
    obtain ⟨ha, has⟩ := List.forall_mem_cons.mp hP
    exact ⟨⟨ha, hG.1⟩, fun s' hs' => ih (hG.2 s' hs') has⟩

/-- **Invariants of runs** whose actions are all of some kind. -/
theorem run_invariant {P : A → Prop} (hstep : ∀ s a s', Inv s → P a → next s a = some s' → Inv s')
    {s s' : S} (hs : Inv s) (hP : ∀ a ∈ as, P a) (h : run next s as = some s') : Inv s' :=
  run_invariant_of_meets hstep hs (meets_of_forall (fun a ha _ => hP a ha) s) h

end Runs
