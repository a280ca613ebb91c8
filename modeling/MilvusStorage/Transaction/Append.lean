import MilvusStorage.Foundations.Transfers
import MilvusStorage.Transaction.Phases

/-!
# The append phase, by value

The append phase changes groups in place, through pointers. This module says what it does to the
groups as values.

* On private copies it computes `pushGroups`, which appends one list of groups to another index by
  index (`appendAll_ofCopy`); `getElem?_foldl_pushGroups` gives the groups after several lists.

`applyUpdates_cases` is the conclusion for the whole function.
-/

namespace MilvusStorage

open Except List

/-! ## Appending by value -/

/-- The files of the group at an index, none if there is no group. -/
def filesAt (i : ℕ) (cgs : List (Option ColumnGroup)) : List ColumnGroupFile :=
  cgs[i]?.join.elim [] ColumnGroup.files

@[simp] theorem filesAt_nil (i : ℕ) : filesAt i [] = [] := by simp [filesAt]

@[simp] theorem filesAt_cons_zero (cg : Option ColumnGroup) (cgs : List (Option ColumnGroup)) :
    filesAt 0 (cg :: cgs) = cg.elim [] ColumnGroup.files := by
  cases cg <;> rfl

@[simp] theorem filesAt_cons_succ (i : ℕ) (cg : Option ColumnGroup)
    (cgs : List (Option ColumnGroup)) : filesAt (i + 1) (cg :: cgs) = filesAt i cgs := rfl

/-- Append the groups of the second list to those of the first, as far as both go. -/
def pushGroups : List (Option ColumnGroup) → List (Option ColumnGroup) → List (Option ColumnGroup)
  | cg :: cgs, newCg :: newCgs =>
    cg.map (ColumnGroup.pushFiles · (newCg.elim [] ColumnGroup.files)) :: pushGroups cgs newCgs
  | cgs, _ => cgs

@[simp] theorem pushGroups_nil (cgs : List (Option ColumnGroup)) : pushGroups cgs [] = cgs := by
  cases cgs <;> rfl

theorem getElem?_pushGroups (cgs newCgs : List (Option ColumnGroup)) (i : ℕ) :
    (pushGroups cgs newCgs)[i]? =
      cgs[i]?.map (Option.map (ColumnGroup.pushFiles · (filesAt i newCgs))) := by
  induction cgs generalizing newCgs i with
  | nil => cases newCgs <;> simp [pushGroups]
  | cons cg cgs ih =>
    cases newCgs with
    | nil => cases h : (cg :: cgs)[i]? <;> simp [h]
    | cons newCg newCgs =>
      cases i with
      | zero => simp [pushGroups]
      | succ i => simpa [pushGroups] using ih newCgs i

@[simp] theorem length_pushGroups (cgs newCgs : List (Option ColumnGroup)) :
    (pushGroups cgs newCgs).length = cgs.length := by
  induction cgs generalizing newCgs with
  | nil => cases newCgs <;> rfl
  | cons cg cgs ih =>
    cases newCgs with
    | nil => rfl
    | cons newCg newCgs => simp [pushGroups, ih]

/-- The group at an index after appending several lists: its own files, then those the lists hold at
its index, list by list. -/
theorem getElem?_foldl_pushGroups (lists : List (List (Option ColumnGroup)))
    (cgs : List (Option ColumnGroup)) (i : ℕ) :
    (lists.foldl pushGroups cgs)[i]? =
      cgs[i]?.map (Option.map (ColumnGroup.pushFiles · (lists.flatMap (filesAt i)))) := by
  induction lists generalizing cgs with
  | nil => cases h : cgs[i]? <;> simp [h]
  | cons l lists ih =>
    rw [foldl_cons, ih, getElem?_pushGroups, Option.map_map]
    congr 1
    funext cg
    cases cg with
    | none => rfl
    | some g => simp [ColumnGroup.pushFiles_pushFiles]

/-! ## Private copies -/

private theorem appendGroups_ofCopy (σ : Store) (gs : List (Option ColumnGroup))
    (l : ColumnGroups) :
    appendGroups σ (gs.map Slot.ofCopy) l =
      .ok (σ, (pushGroups gs (ColumnGroups.deref σ l)).map Slot.ofCopy) := by
  induction gs generalizing l with
  | nil => cases l <;> rfl
  | cons g gs ih =>
    cases l with
    | nil => simp [ColumnGroups.deref, appendGroups]
    | cons p l =>
      have hhead : appendGroup σ (Slot.ofCopy g) p =
          .ok (σ, Slot.ofCopy (g.map (ColumnGroup.pushFiles ·
            ((p.map σ).elim [] ColumnGroup.files)))) := by
        cases g <;> cases p <;> simp [appendGroup, Slot.ofCopy]
      simp [appendGroups, hhead, ok_bind, ih, ColumnGroups.deref, pushGroups]

theorem appendAll_ofCopy (σ : Store) (gs : List (Option ColumnGroup)) (hne : gs ≠ [])
    (lists : List ColumnGroups) :
    appendAll σ (gs.map Slot.ofCopy) lists =
      .ok (σ, ((lists.map (ColumnGroups.deref σ)).foldl pushGroups gs).map Slot.ofCopy) := by
  induction lists generalizing gs with
  | nil => rfl
  | cons l lists ih =>
    have hne' : pushGroups gs (ColumnGroups.deref σ l) ≠ [] := by
      intro h
      apply hne
      simp [← length_eq_zero_iff, ← length_pushGroups gs (ColumnGroups.deref σ l), h]
    simp only [appendAll, map_eq_nil_iff, if_neg hne, appendGroups_ofCopy]
    exact ih _ hne'

/-! ## Adopted groups -/

/-- The file lists of a store. -/
def Store.files (σ : Store) : Ref → List ColumnGroupFile := fun x => (σ x).files

/-- The store with other file lists. -/
def Store.withFiles (σ : Store) (f : Ref → List ColumnGroupFile) : Store :=
  fun x => { σ x with files := f x }

@[simp] theorem Store.files_withFiles (σ : Store) (f : Ref → List ColumnGroupFile) :
    (σ.withFiles f).files = f := rfl

@[simp] theorem Store.withFiles_withFiles (σ : Store) (f g : Ref → List ColumnGroupFile) :
    (σ.withFiles f).withFiles g = σ.withFiles g := rfl

@[simp] theorem Store.withFiles_files (σ : Store) : σ.withFiles σ.files = σ := rfl

/-- The append loop over shared groups. -/
def transfer (σ : Store) : List (Ref × Ref) → Except Fault Store
  | [] => .ok σ
  | (q, r) :: ts => do
    let (σ, _) ← appendGroup σ (.shared q) (some r)
    transfer σ ts

private theorem transfer_append (σ : Store) (ts ts' : List (Ref × Ref)) :
    transfer σ (ts ++ ts') = transfer σ ts >>= fun τ => transfer τ ts' := by
  induction ts generalizing σ with
  | nil => rfl
  | cons t ts ih =>
    simp [cons_append, transfer, ih]

/-- The slot of a shared group stays what it is. -/
private theorem appendGroup_shared (σ : Store) (q : Ref) (p : Option Ref) :
    appendGroup σ (.shared q) p =
      (appendGroup σ (.shared q) p >>= fun x => .ok (x.1, .shared q)) := by
  cases p with
  | none => rfl
  | some r =>
    simp only [appendGroup]
    split_ifs <;> rfl

private theorem appendGroups_ofPtr (σ : Store) (A l : ColumnGroups) :
    appendGroups σ (A.map Slot.ofPtr) l =
      (transfer σ (Transfers.pairs A l) >>= fun τ => .ok (τ, A.map Slot.ofPtr)) := by
  induction A generalizing σ l with
  | nil => cases l <;> rfl
  | cons a A ih =>
    cases l with
    | nil => cases a <;> rfl
    | cons p l =>
      match a, p with
      | none, p =>
        simp only [map_cons, Slot.ofPtr, appendGroups, Transfers.pairs, ih, pure_eq_ok]
        cases p <;> simp only [appendGroup, ok_bind, bind_assoc]
      | some q, none =>
        simp only [map_cons, Slot.ofPtr, appendGroups, Transfers.pairs, ih, pure_eq_ok,
          appendGroup, ok_bind, bind_assoc]
      | some q, some r =>
        simp only [map_cons, Slot.ofPtr, appendGroups, Transfers.pairs, transfer, ih,
          pure_eq_ok, bind_assoc]
        rw [appendGroup_shared]
        simp only [bind_assoc, ok_bind]

theorem appendAll_ofPtr (σ : Store) (A : ColumnGroups) (hA : A ≠ []) (lists : List ColumnGroups) :
    appendAll σ (A.map Slot.ofPtr) lists =
      (transfer σ (lists.flatMap (Transfers.pairs A)) >>= fun τ => .ok (τ, A.map Slot.ofPtr)) := by
  induction lists generalizing σ with
  | nil => rfl
  | cons l lists ih =>
    simp only [appendAll, map_eq_nil_iff, if_neg hA, appendGroups_ofPtr, flatMap_cons,
      transfer_append, bind_assoc, ok_bind, ih]

variable {σ σ' : Store}

private theorem appendGroup_shared_ok {τ : Store} {q r : Ref} {cg : Slot}
    (h : appendGroup σ (.shared q) (some r) = .ok (τ, cg)) :
    τ = σ.withFiles (Transfers.push σ.files (q, r)) := by
  simp only [appendGroup] at h
  split_ifs at h with hqr hfiles
  · cases h
    have hpush : Transfers.push σ.files (q, r) = σ.files := by
      funext x
      exact Transfers.push_eq_of_imp _ fun hne => absurd hfiles hne
    rw [hpush, Store.withFiles_files]
  · cases h
    funext x
    by_cases hx : x = q
    · subst hx
      simp [Store.withFiles, Transfers.push, Store.files, ColumnGroup.pushFiles]
    · simp [Store.withFiles, Transfers.push, Store.files, hx]

variable {ts : List (Ref × Ref)}

/-- **The store after the transfers.** -/
theorem transfer_ok (h : transfer σ ts = .ok σ') :
    σ' = σ.withFiles (Transfers.pushAll σ.files ts) := by
  induction ts generalizing σ with
  | nil => exact (ok.inj h).symm
  | cons t ts ih =>
    obtain ⟨q, r⟩ := t
    simp only [transfer, bind_eq_ok] at h
    obtain ⟨⟨τ, cg⟩, h1, h2⟩ := h
    rw [ih h2, appendGroup_shared_ok h1, Store.withFiles_withFiles, Store.files_withFiles,
      Transfers.pushAll_cons]

/-- Transfers from groups without files change nothing. -/
theorem transfer_of_files_eq_nil (h : ∀ t ∈ ts, σ.files t.2 = []) : transfer σ ts = .ok σ := by
  induction ts with
  | nil => rfl
  | cons t ts ih =>
    obtain ⟨q, r⟩ := t
    have hr : (σ r).files = [] := h (q, r) mem_cons_self
    have hstep : appendGroup σ (.shared q) (some r) = .ok (σ, .shared q) := by
      simp only [appendGroup, hr, if_true]
      split_ifs
      · rfl
      · rw [ColumnGroup.pushFiles_nil, Function.update_eq_self]
    simp only [transfer, hstep, ok_bind]
    exact ih fun t ht => h t (mem_cons_of_mem _ ht)

/-! ## What an append leaves alone -/

/-- Columns and format of a group. -/
def ColumnGroup.shape (g : ColumnGroup) : List String × String := (g.columns, g.format)

@[simp] theorem ColumnGroup.shape_pushFiles (g : ColumnGroup) (fs : List ColumnGroupFile) :
    (g.pushFiles fs).shape = g.shape := rfl

/-- The shapes of a list of groups. -/
def shapes (gs : List (Option ColumnGroup)) : List (Option (List String × String)) :=
  gs.map (Option.map ColumnGroup.shape)

theorem shapes_pushGroups (cgs newCgs : List (Option ColumnGroup)) :
    shapes (pushGroups cgs newCgs) = shapes cgs := by
  induction cgs generalizing newCgs with
  | nil => cases newCgs <;> rfl
  | cons cg cgs ih =>
    cases newCgs with
    | nil => rfl
    | cons newCg newCgs =>
      have htail := ih newCgs
      cases cg <;> simpa [shapes, pushGroups] using htail

theorem shapes_foldl_pushGroups (lists : List (List (Option ColumnGroup)))
    (cgs : List (Option ColumnGroup)) : shapes (lists.foldl pushGroups cgs) = shapes cgs := by
  induction lists generalizing cgs with
  | nil => rfl
  | cons l lists ih => rw [foldl_cons, ih, shapes_pushGroups]

theorem shapes_deref_withFiles (σ : Store) (f : Ref → List ColumnGroupFile) (cgs : ColumnGroups) :
    shapes (ColumnGroups.deref (σ.withFiles f) cgs) = shapes (ColumnGroups.deref σ cgs) := by
  simp only [shapes, ColumnGroups.deref, map_map]
  apply map_congr_left
  intro p _
  cases p <;> rfl

/-! ## The whole function -/

/-- What the appends transfer once the first non-empty list is adopted. -/
def Updates.adoptedTransfers (u : Updates) : List (Ref × Ref) :=
  u.later.flatMap (Transfers.pairs u.adopted)

/-- **The groups of the result, by value.** When groups of the base survive, the store is untouched
and the appended files are pushed onto the copies, index by index. When none survives, the result
points to the adopted groups, onto which the later lists were transferred. The added groups come
last. -/
theorem applyUpdates_cases {m m' : Manifest} {u : Updates} (h : applyUpdates σ m u = .ok (σ', m')) :
    (survivors u.droppedColumns (m.groups σ) ≠ [] ∧ σ' = σ ∧
      m'.groups σ' = (u.appendedFiles.map (ColumnGroups.deref σ)).foldl pushGroups
          (survivors u.droppedColumns (m.groups σ)) ++
        ColumnGroups.deref σ u.addedColumnGroups) ∨
    (survivors u.droppedColumns (m.groups σ) = [] ∧
      σ' = σ.withFiles (Transfers.pushAll σ.files u.adoptedTransfers) ∧
      m'.groups σ' = ColumnGroups.deref σ' u.adopted ++
        ColumnGroups.deref σ' u.addedColumnGroups) := by
  obtain ⟨slots, -, hall, hm'⟩ := applyUpdates_ok h
  rw [groups_of_columnGroups hm']
  by_cases hcgs : survivors u.droppedColumns (m.groups σ) = []
  · refine .inr ⟨hcgs, ?_⟩
    simp only [hcgs, map_nil, appendAll_nil] at hall
    change appendAll σ (u.adopted.map Slot.ofPtr) u.later = _ at hall
    by_cases hA : u.adopted = []
    · -- nothing to adopt: no list has a group
      have hlater : u.later = [] := u.later_eq_nil hA
      simp only [hA, hlater, map_nil, appendAll, ok.injEq, Prod.mk.injEq] at hall
      obtain ⟨rfl, rfl⟩ := hall
      simp [Updates.adoptedTransfers, hA, hlater, copyColumnGroups, ColumnGroups.deref]
    · rw [appendAll_ofPtr σ _ hA, bind_eq_ok] at hall
      obtain ⟨τ, hτ, heq⟩ := hall
      cases heq
      exact ⟨transfer_ok hτ, by simp⟩
  · refine .inl ⟨hcgs, ?_⟩
    rw [appendAll_ofCopy σ _ hcgs] at hall
    cases hall
    exact ⟨rfl, by rw [copyColumnGroups_ofCopy]⟩

/-- The groups `install` starts from. -/
def startGroups (σ : Store) (cgs : List (Option ColumnGroup)) (u : Updates) :
    List (Option ColumnGroup) :=
  if cgs = [] then ColumnGroups.deref σ u.adopted else cgs

/-- The shapes of the result: those of the groups `install` starts from and of the added groups. -/
theorem shapes_applyUpdates {m m' : Manifest} {u : Updates}
    (h : applyUpdates σ m u = .ok (σ', m')) :
    shapes (m'.groups σ') =
      shapes (startGroups σ (survivors u.droppedColumns (m.groups σ)) u ++
        ColumnGroups.deref σ u.addedColumnGroups) := by
  have happend : ∀ gs gs' : List (Option ColumnGroup),
      shapes (gs ++ gs') = shapes gs ++ shapes gs' := fun gs gs' => map_append
  obtain ⟨hne, rfl, hgroups⟩ | ⟨hnil, rfl, hgroups⟩ := applyUpdates_cases h
  · rw [hgroups, happend, shapes_foldl_pushGroups, startGroups, if_neg hne, happend]
  · rw [hgroups, happend, shapes_deref_withFiles, shapes_deref_withFiles, startGroups, if_pos hnil,
      happend]

end MilvusStorage
