import Mathlib.Data.List.Forall2
import Mathlib.Tactic.SplitIfs

/-!
# Commands that can fail

A command changes a state, and returns a value or fails with an error. The state after a failed
command is the one it had reached: nothing is undone.

`Spec P x Q E` says what a command does from the states with `P`: if it returns a value, `Q` holds
of the value and the state, and if it fails, `E` holds of the error and the state. The rules follow
the commands: `Spec.bind` for sequences, `spec_ite` for branches, `Spec.imp` for weaker
postconditions. `Keeps P x` says that the command keeps an invariant, whether it fails or not.
`KeepsIf c P x` asks the latter only if `c` holds.
-/

/-- A computation on a state, which returns a value or an error. -/
def Command (S ε α : Type) : Type := S → S × Except ε α

namespace Command

variable {S ε α β : Type}

instance : Monad (Command S ε) where
  pure a := fun s => (s, .ok a)
  bind x f := fun s =>
    match x s with
    | (s', .ok a) => f a s'
    | (s', .error e) => (s', .error e)

def fail (e : ε) : Command S ε α := fun s => (s, .error e)

def get : Command S ε S := fun s => (s, .ok s)

def modify (f : S → S) : Command S ε Unit := fun s => (f s, .ok ())

/-- Fail if there is no value. -/
def ofOption (e : ε) : Option α → Command S ε α
  | none => fail e
  | some a => pure a

/-- Fail if the result is an error. -/
def ofExcept : Except ε α → Command S ε α
  | .error e => fail e
  | .ok a => pure a

/-- Run a command for each element, one after the other, and collect the results. -/
def forEach (f : α → Command S ε β) : List α → Command S ε (List β)
  | [] => pure []
  | a :: as => do
    let b ← f a
    let bs ← forEach f as
    return b :: bs

/-- The same with a value that is handed on. -/
def forEachFrom {σ : Type} (f : σ → α → Command S ε (σ × β)) : σ → List α → Command S ε (List β)
  | _, [] => pure []
  | c, a :: as => do
    let (c', b) ← f c a
    let bs ← forEachFrom f c' as
    return b :: bs

/-! ## Runs -/

section Run

variable {x : Command S ε α} {f : α → Command S ε β} {s s' : S}

@[simp] theorem pure_run (a : α) (s : S) : (pure a : Command S ε α) s = (s, .ok a) := rfl

@[simp] theorem fail_run (e : ε) (s : S) : (fail e : Command S ε α) s = (s, .error e) := rfl

@[simp] theorem get_run (s : S) : (get : Command S ε S) s = (s, .ok s) := rfl

@[simp] theorem modify_run (g : S → S) (s : S) :
    (modify g : Command S ε Unit) s = (g s, .ok ()) := rfl

@[simp] theorem ite_run {c : Prop} [Decidable c] (x y : Command S ε α) (s : S) :
    (if c then x else y : Command S ε α) s = if c then x s else y s := by split_ifs <;> rfl

@[simp] theorem ofExcept_run (r : Except ε α) (s : S) :
    (ofExcept r : Command S ε α) s = (s, r) := by
  cases r <;> rfl

theorem ofOption_run_eq_ok {e : ε} {o : Option α} {a : α}
    (h : (ofOption e o : Command S ε α) s = (s', .ok a)) : o = some a ∧ s' = s := by
  cases o with
  | none => cases h
  | some b =>
    cases h
    exact ⟨rfl, rfl⟩

theorem bind_run (x : Command S ε α) (f : α → Command S ε β) (s : S) : (x >>= f) s =
    match x s with
    | (s', .ok a) => f a s'
    | (s', .error e) => (s', .error e) := rfl

theorem bind_run_ok {a : α} (h : x s = (s', .ok a)) : (x >>= f) s = f a s' := by
  rw [bind_run, h]

theorem bind_run_error {e : ε} (h : x s = (s', .error e)) : (x >>= f) s = (s', .error e) := by
  rw [bind_run, h]

/-- A sequence that succeeds. -/
theorem bind_run_eq_ok {b : β} (h : (x >>= f) s = (s', .ok b)) :
    ∃ s1 a, x s = (s1, .ok a) ∧ f a s1 = (s', .ok b) := by
  rcases hx : x s with ⟨s1, e | a⟩
  · rw [bind_run_error hx] at h
    cases h
  · rw [bind_run_ok hx] at h
    exact ⟨s1, a, rfl, h⟩

@[simp] theorem get_bind_run (f : S → Command S ε β) (s : S) : (get >>= f) s = f s s := rfl

@[simp] theorem modify_bind_run (g : S → S) (f : Unit → Command S ε β) (s : S) :
    (modify g >>= f) s = f () (g s) := rfl

end Run

/-! ## Components

The state has components, and each command of a loop changes one of them. -/

section Components

variable {κ γ : Type} {f : α → Command S ε β} {component : S → κ → γ} {key : α → κ}
  (hframe : ∀ a s s' b, f a s = (s', .ok b) → ∀ k, k ≠ key a → component s' k = component s k)
include hframe

section

variable {as : List α} {s s' : S} {bs : List β} (h : forEach f as s = (s', .ok bs))
include h

theorem forEach_frame {k : κ} (hk : k ∉ as.map key) : component s' k = component s k := by
  induction as generalizing s bs with
  | nil =>
    cases h
    rfl
  | cons a as ih =>
    obtain ⟨s1, b, ha, h⟩ := bind_run_eq_ok h
    obtain ⟨s2, bs', has, h⟩ := bind_run_eq_ok h
    cases h
    obtain ⟨hne, hk⟩ := not_or.mp (mt List.mem_cons.mpr hk)
    exact (ih has hk).trans (hframe a s s1 b ha k hne)

/-- If the components are different, each command sees its own as it was before the loop, and leaves
it as it is after the loop. -/
theorem forEach_components (hnodup : (as.map key).Nodup) :
    List.Forall₂ (fun a b => ∃ s1 s2, f a s1 = (s2, .ok b) ∧
      component s1 (key a) = component s (key a) ∧ component s2 (key a) = component s' (key a))
      as bs := by
  induction as generalizing s bs with
  | nil =>
    cases h
    exact .nil
  | cons a as ih =>
    obtain ⟨s1, b, ha, h⟩ := bind_run_eq_ok h
    obtain ⟨s2, bs', has, h⟩ := bind_run_eq_ok h
    cases h
    obtain ⟨hkey, hnodup⟩ := List.nodup_cons.mp hnodup
    refine .cons ⟨s, s1, ha, rfl, (forEach_frame hframe has hkey).symm⟩ ?_
    have hrest := (List.forall₂_and_left (p := (key · ∈ as.map key)) _ _).mpr
      ⟨fun a' ha' => List.mem_map_of_mem ha', ih has hnodup⟩
    refine hrest.imp fun a' b' ⟨hmem, s3, s4, hrun, hbefore, hafter⟩ => ?_
    exact ⟨s3, s4, hrun, hbefore.trans (hframe a s s1 b ha _ (ne_of_mem_of_not_mem hmem hkey)),
      hafter⟩

end

end Components

variable {as : List α}

/-- What no command of a loop changes. -/
theorem forEach_const {γ : Type} {f : α → Command S ε β} {g : S → γ}
    (hg : ∀ a s s' b, f a s = (s', .ok b) → g s' = g s) {s s' : S} {bs : List β}
    (h : forEach f as s = (s', .ok bs)) : g s' = g s :=
  have hframe : ∀ a s s' b, f a s = (s', .ok b) → ∀ k, k ≠ (fun _ : α => true) a →
      (fun (s : S) (_ : Bool) => g s) s' k = (fun s _ => g s) s k :=
    fun a s s' b hab _ _ => hg a s s' b hab
  forEach_frame hframe h (k := false) (by simp)

/-! ## Pre- and postconditions -/

def Spec (P : S → Prop) (x : Command S ε α) (Q : α → S → Prop) (E : ε → S → Prop) : Prop :=
  ∀ s, P s → (∀ s' a, x s = (s', .ok a) → Q a s') ∧ ∀ s' e, x s = (s', .error e) → E e s'

section Rules

variable {P P' : S → Prop} {x : Command S ε α} {f : α → Command S ε β} {Q Q' : α → S → Prop}
  {R : β → S → Prop} {E E' : ε → S → Prop}

theorem Spec.bind (hx : Spec P x Q E) (hf : ∀ a, Spec (Q a) (f a) R E) : Spec P (x >>= f) R E := by
  intro s hs
  obtain ⟨hok, herror⟩ := hx s hs
  rcases hxs : x s with ⟨s1, e | a⟩
  · rw [bind_run_error hxs]
    refine ⟨fun s' b h => ?_, fun s' e' h => ?_⟩
    · cases h
    · cases h
      exact herror _ _ hxs
  · rw [bind_run_ok hxs]
    exact hf a s1 (hok s1 a hxs)

/-- What comes after a command that always fails is not reached. -/
theorem Spec.bind_fails (hx : Spec P x (fun _ _ => False) E) : Spec P (x >>= f) R E :=
  hx.bind fun _ _ h => h.elim

theorem Spec.imp (h : Spec P x Q E) (hP : ∀ s, P' s → P s) (hQ : ∀ a s, Q a s → Q' a s)
    (hE : ∀ e s, E e s → E' e s) : Spec P' x Q' E' := by
  intro s hs
  obtain ⟨hok, herror⟩ := h s (hP s hs)
  exact ⟨fun s' a ha => hQ a s' (hok s' a ha), fun s' e he => hE e s' (herror s' e he)⟩

theorem Spec.post (h : Spec P x Q E) (hQ : ∀ a s, Q a s → Q' a s)
    (hE : ∀ e s, E e s → E' e s) : Spec P x Q' E' :=
  h.imp (fun _ => id) hQ hE

theorem Spec.onError (h : Spec P x Q E) (hE : ∀ e s, E e s → E' e s) : Spec P x Q E' :=
  h.post (fun _ _ => id) hE

theorem spec_pure {a : α} (h : ∀ s, P s → Q a s) : Spec P (pure a : Command S ε α) Q E := by
  intro s hs
  refine ⟨fun s' b hb => ?_, fun s' e he => ?_⟩
  · cases hb
    exact h s hs
  · cases he

theorem spec_fail {e : ε} (h : ∀ s, P s → E e s) : Spec P (fail e : Command S ε α) Q E := by
  intro s hs
  refine ⟨fun s' b hb => ?_, fun s' e he => ?_⟩
  · cases hb
  · cases he
    exact h s hs

theorem spec_ofOption {e : ε} {o : Option α} (hnone : ∀ s, P s → E e s)
    (hsome : ∀ a s, P s → Q a s) : Spec P (ofOption e o : Command S ε α) Q E := by
  cases o with
  | none => exact spec_fail hnone
  | some a => exact spec_pure (hsome a)

theorem spec_get {Q : S → S → Prop} (h : ∀ s, P s → Q s s) : Spec P (get : Command S ε S) Q E := by
  intro s hs
  refine ⟨fun s' b hb => ?_, fun s' e he => ?_⟩
  · cases hb
    exact h s hs
  · cases he

theorem spec_modify {g : S → S} {Q : Unit → S → Prop} (h : ∀ s, P s → Q () (g s)) :
    Spec P (modify g : Command S ε Unit) Q E := by
  intro s hs
  refine ⟨fun s' b hb => ?_, fun s' e he => ?_⟩
  · cases hb
    exact h s hs
  · cases he

theorem spec_ite {c : Prop} [Decidable c] {y : Command S ε α} (hx : c → Spec P x Q E)
    (hy : ¬ c → Spec P y Q E) : Spec P (if c then x else y) Q E := by
  split_ifs with hc
  · exact hx hc
  · exact hy hc

/-- A command after the state is read. -/
theorem spec_get_bind {f : S → Command S ε β} (h : ∀ s, P s → Spec (· = s) (f s) R E) :
    Spec P (get >>= f) R E := by
  intro s hs
  exact h s hs s rfl

theorem spec_modify_bind {g : S → S} {f : Unit → Command S ε β}
    (h : ∀ s, P s → Spec (· = g s) (f ()) R E) : Spec P (modify g >>= f) R E := by
  intro s hs
  exact h s hs (g s) rfl

/-- What holds of the state may be used as an assumption. -/
theorem spec_of_forall (h : ∀ s, P s → Spec (· = s) x Q E) : Spec P x Q E :=
  fun s hs => h s hs s rfl

variable {s : S}

/-- From a state with the precondition. -/
theorem Spec.from (h : Spec P x Q E) (hs : P s) : Spec (· = s) x Q E := by
  rintro s' rfl
  exact h s' hs

/-- A command that cannot fail returns. -/
theorem Spec.exists_ok (h : Spec P x Q fun _ _ => False) (hs : P s) :
    ∃ s' a, x s = (s', .ok a) ∧ Q a s' := by
  obtain ⟨hok, herror⟩ := h s hs
  rcases hx : x s with ⟨s', e | a⟩
  · exact (herror s' e hx).elim
  · exact ⟨s', a, rfl, hok s' a hx⟩

/-- The postcondition may speak of the state before. -/
theorem Spec.and_run (h : Spec (· = s) x Q E) :
    Spec (· = s) x (fun a s' => Q a s' ∧ x s = (s', .ok a)) E := by
  rintro s' rfl
  obtain ⟨hok, herror⟩ := h _ rfl
  exact ⟨fun s1 a ha => ⟨hok s1 a ha, ha⟩, herror⟩

end Rules

/-! ## Invariants -/

/-- The command keeps `P`, also if it fails. -/
def Keeps (P : S → Prop) (x : Command S ε α) : Prop := Spec P x (fun _ => P) (fun _ => P)

section Invariants

variable {P : S → Prop} {x y : Command S ε α} {f : α → Command S ε β}

theorem keeps_iff : Keeps P x ↔ ∀ s, P s → P (x s).1 := by
  refine ⟨fun h s hs => ?_, fun h s hs => ⟨fun s' a ha => ?_, fun s' e he => ?_⟩⟩
  · obtain ⟨hok, herror⟩ := h s hs
    rcases hx : x s with ⟨s', e | a⟩
    · exact herror s' e hx
    · exact hok s' a hx
  · simpa [ha] using h s hs
  · simpa [he] using h s hs

theorem keeps_pure (a : α) : Keeps P (pure a : Command S ε α) := spec_pure fun _ h => h

theorem keeps_fail (e : ε) : Keeps P (fail e : Command S ε α) := spec_fail fun _ h => h

theorem keeps_get : Keeps P (get : Command S ε S) := spec_get fun _ h => h

theorem keeps_modify {g : S → S} (h : ∀ s, P s → P (g s)) :
    Keeps P (modify g : Command S ε Unit) := spec_modify h

theorem keeps_ofOption (e : ε) (o : Option α) : Keeps P (ofOption e o : Command S ε α) :=
  spec_ofOption (fun _ => id) fun _ _ h => h

theorem Keeps.bind (hx : Keeps P x) (hf : ∀ a, Keeps P (f a)) : Keeps P (x >>= f) :=
  Spec.bind hx hf

theorem Keeps.ite {c : Prop} [Decidable c] (hx : Keeps P x) (hy : Keeps P y) :
    Keeps P (if c then x else y) := spec_ite (fun _ => hx) fun _ => hy

theorem keeps_forEach (hf : ∀ a, Keeps P (f a)) (as : List α) : Keeps P (forEach f as) := by
  induction as with
  | nil => exact keeps_pure _
  | cons a as ih => exact (hf a).bind fun _ => ih.bind fun _ => keeps_pure _

/-- The command keeps `P`, and if `c` holds also when it fails. -/
def KeepsIf (c : Prop) (P : S → Prop) (x : Command S ε α) : Prop :=
  Spec P x (fun _ => P) fun _ s => c → P s

section

variable {c : Prop}

theorem Keeps.keepsIf (h : Keeps P x) : KeepsIf c P x := h.onError fun _ _ hs _ => hs

theorem KeepsIf.bind (hx : KeepsIf c P x) (hf : ∀ a, KeepsIf c P (f a)) : KeepsIf c P (x >>= f) :=
  Spec.bind hx hf

theorem keepsIf_forEach (hf : ∀ a, KeepsIf c P (f a)) (as : List α) :
    KeepsIf c P (forEach f as) := by
  induction as with
  | nil => exact (keeps_pure _).keepsIf
  | cons a as ih => exact (hf a).bind fun _ => ih.bind fun _ => (keeps_pure _).keepsIf

end

/-- What each command of a loop establishes, and none of them breaks. -/
theorem forEach_all {Q : α → S → Prop} (hQ : ∀ a s s' b, f a s = (s', .ok b) → Q a s')
    (hkeeps : ∀ a a', Keeps (Q a) (f a')) {s s' : S} {bs : List β}
    (h : forEach f as s = (s', .ok bs)) : ∀ a ∈ as, Q a s' := by
  induction as generalizing s bs with
  | nil => exact List.forall_mem_nil _
  | cons a as ih =>
    obtain ⟨s1, b, ha, h⟩ := bind_run_eq_ok h
    obtain ⟨s2, bs', has, h⟩ := bind_run_eq_ok h
    cases h
    have hkept := keeps_iff.mp (keeps_forEach (hkeeps a) as) s1 (hQ a s s1 b ha)
    rw [has] at hkept
    exact List.forall_mem_cons.mpr ⟨hkept, ih has⟩

/-- A loop whose commands all succeed. -/
theorem exists_forEach_ok (h : ∀ a ∈ as, ∀ s, ∃ s' b, f a s = (s', .ok b)) (s : S) :
    ∃ s' bs, forEach f as s = (s', .ok bs) := by
  induction as generalizing s with
  | nil => exact ⟨s, [], rfl⟩
  | cons a as ih =>
    obtain ⟨ha, has⟩ := List.forall_mem_cons.mp h
    obtain ⟨s1, b, hb⟩ := ha s
    obtain ⟨s2, bs, hbs⟩ := ih has s1
    refine ⟨s2, b :: bs, ?_⟩
    simp [forEach, bind_run_ok hb, bind_run_ok hbs]

theorem keeps_forEachFrom {σ : Type} {f : σ → α → Command S ε (σ × β)}
    (hf : ∀ c a, Keeps P (f c a)) (c : σ) (as : List α) : Keeps P (forEachFrom f c as) := by
  induction as generalizing c with
  | nil => exact keeps_pure _
  | cons a as ih => exact (hf c a).bind fun p => (ih p.1).bind fun _ => keeps_pure _

end Invariants

end Command
