import MilvusStorage.Transaction.Append
import MilvusStorage.Transaction.Commit
import Mathlib.Data.List.ReduceOption

/-!
# Applying the same updates again

The retry loop of `Commit` calls `applyUpdates` with the same arguments after every conflict. A call
copies the groups of the base manifest, but when no group of the base is left it adopts the groups
of the first append as they are, and appends the later lists to the caller's own objects. Such a
call changes its input, and the next one starts from what it left behind.

`applyUpdates_repeatable_iff` says exactly when this cannot be seen (`Repeatable`): when no later
list brings a file to an adopted group (`Updates.Quiet`).
-/

namespace MilvusStorage

open Except List

/-! ## Calling again -/

/-- The column groups the updates point to. -/
def Updates.refs (u : Updates) : List Ref :=
  (u.addedColumnGroups ++ u.appendedFiles.flatten).reduceOption

/-- The manifest a call returns, as a value. -/
def returnedManifest (σ : Store) (m : Manifest) (u : Updates) : Except Fault Manifest :=
  (applyUpdates σ m u).map fun r => r.2.copy r.1

/-- The store after a call. A call that returns an error status has changed nothing. -/
def storeAfter (σ : Store) (m : Manifest) (u : Updates) : Store :=
  match applyUpdates σ m u with
  | .ok (σ', _) => σ'
  | .error _ => σ

/-- The store after `n` calls. -/
def storeAfterCalls (σ : Store) (m : Manifest) (u : Updates) : ℕ → Store
  | 0 => σ
  | n + 1 => storeAfter (storeAfterCalls σ m u n) m u

/-- Calls with the same arguments change neither their inputs nor each other's results. -/
structure Repeatable (σ : Store) (m : Manifest) (u : Updates) : Prop where
  /-- A call is defined. -/
  defined : applyUpdates σ m u ≠ .error .iteratorInvalidated
  /-- The base manifest stays what it is. -/
  base : ∀ n, m.groups (storeAfterCalls σ m u n) = m.groups σ
  /-- So do the column groups of the updates. -/
  updates : ∀ n, ∀ r ∈ u.refs, storeAfterCalls σ m u n r = σ r
  /-- Every call returns the manifest the first one returns. -/
  result : ∀ n, returnedManifest (storeAfterCalls σ m u n) m u = returnedManifest σ m u
  /-- A `Commit` that succeeds after conflicts returns and writes what it would have without
  them. -/
  commit : ∀ t : Transaction, t.readManifest = m → t.updates = u →
    t.resolver = overwriteResolver ∨ t.resolver = failResolver →
    ∀ conflicts a σ₁ σ₂ w₁ retryCount w version,
      t.passes σ 0 conflicts = (σ₁, w₁, .list retryCount) →
      t.passes σ₁ retryCount [a] = (σ₂, some w, .done (.ok version)) →
      ∃ σ₃, t.passes σ 0 [a] = (σ₃, some w, .done (.ok version))

/-- No list after the adopted one brings a file to an adopted group, in a call that gets past its
checks with no group of the base left. -/
def Updates.Quiet (σ : Store) (m : Manifest) (u : Updates) : Prop :=
  survivors u.droppedColumns (m.groups σ) = [] →
    (u.droppedColumns ≠ [] → none ∉ m.groups σ) → none ∉ u.addedColumnGroups →
      ∀ t ∈ u.adoptedTransfers, σ.files t.2 = []

/-! ## The first half cannot invalidate an iterator -/

private theorem bind_ne_invalidated {α β : Type} {x : Except Fault α} {f : α → Except Fault β}
    (hx : x ≠ .error .iteratorInvalidated) (hf : ∀ a, f a ≠ .error .iteratorInvalidated) :
    (x >>= f) ≠ .error .iteratorInvalidated := by
  cases x with
  | error e => exact fun h => hx (by simpa [bind, Except.bind] using h)
  | ok a => exact hf a

private theorem dropColumns_ne_invalidated (cs : List String) (cgs : List (Option ColumnGroup))
    (indexes : List Index) : dropColumns cs cgs indexes ≠ .error .iteratorInvalidated := by
  induction cs generalizing cgs indexes with
  | nil => simp [dropColumns]
  | cons c cs ih =>
    refine bind_ne_invalidated ?_ fun _ => ih _ _
    simp only [dropColumn]
    split <;> simp

private theorem getColumnGroup_ne_invalidated (c : String) (cgs : List (Option ColumnGroup)) :
    getColumnGroup c cgs ≠ .error .iteratorInvalidated := by
  induction cgs with
  | nil => simp [getColumnGroup]
  | cons cg cgs ih =>
    cases cg with
    | none => simp [getColumnGroup]
    | some g =>
      simp only [getColumnGroup]
      split
      · simp
      · exact ih

private theorem checkNewColumns_ne_invalidated (cgs : List (Option ColumnGroup))
    (cols : List String) : checkNewColumns cgs cols ≠ .error .iteratorInvalidated := by
  induction cols with
  | nil => simp [checkNewColumns]
  | cons c cols ih =>
    refine bind_ne_invalidated (getColumnGroup_ne_invalidated c cgs) fun found => ?_
    cases found with
    | none => exact ih
    | some g => simp

private theorem validateAdded_ne_invalidated (cgs added : List (Option ColumnGroup)) :
    validateAdded cgs added ≠ .error .iteratorInvalidated := by
  induction added with
  | nil => simp [validateAdded]
  | cons cg added ih =>
    cases cg with
    | none => simp [validateAdded]
    | some newCg =>
      refine bind_ne_invalidated (checkNewColumns_ne_invalidated cgs _) fun _ =>
        bind_ne_invalidated ?_ fun _ => ih
      rcases cgs with _ | ⟨_ | g, _⟩
      · simp [checkNewRows]
      · simp [checkNewRows]
      · simp only [checkNewRows]
        split <;> simp

private theorem checkAppendedGroups_ne_invalidated (i : ℕ)
    (cgs newCgs : List (Option ColumnGroup)) :
    checkAppendedGroups i cgs newCgs ≠ .error .iteratorInvalidated := by
  induction cgs generalizing i newCgs with
  | nil => simp [checkAppendedGroups]
  | cons cg cgs ih =>
    cases newCgs with
    | nil => simp [checkAppendedGroups]
    | cons newCg newCgs =>
      refine bind_ne_invalidated ?_ fun _ => ih _ _
      rcases cg with _ | g
      · simp [checkAppendedGroup]
      · rcases newCg with _ | g'
        · simp [checkAppendedGroup]
        · simp only [checkAppendedGroup]
          split_ifs <;> simp

private theorem validateAppended_ne_invalidated (cgs : List (Option ColumnGroup))
    (appended : List (List (Option ColumnGroup))) :
    validateAppended cgs appended ≠ .error .iteratorInvalidated := by
  induction appended with
  | nil => simp [validateAppended]
  | cons newCgs appended ih =>
    simp only [validateAppended]
    split
    · simp
    · exact bind_ne_invalidated (checkAppendedGroups_ne_invalidated 0 cgs newCgs) fun _ => ih

theorem prepare_ne_invalidated (σ : Store) (m : Manifest) (u : Updates) :
    prepare σ m u ≠ .error .iteratorInvalidated :=
  bind_ne_invalidated (dropColumns_ne_invalidated _ _ _) fun _ =>
    bind_ne_invalidated (validateAdded_ne_invalidated _ _) fun _ =>
      bind_ne_invalidated (validateAppended_ne_invalidated _ _) fun _ => by simp [pure, Except.pure]

/-! ## The checks when no group is left -/

private theorem exists_dropColumns_ok {cs : List String} {cgs : List (Option ColumnGroup)}
    (h : cs ≠ [] → none ∉ cgs) (indexes : List Index) :
    ∃ r, dropColumns cs cgs indexes = .ok r := by
  induction cs generalizing cgs indexes with
  | nil => exact ⟨_, rfl⟩
  | cons c cs ih =>
    have hnull := h (cons_ne_nil _ _)
    simp only [dropColumns, dropColumn, if_neg hnull]
    refine ih (fun _ hmem => ?_) _
    simp at hmem

private theorem validateAdded_nil {added : List (Option ColumnGroup)} (h : none ∉ added) :
    validateAdded [] added = .ok () := by
  induction added with
  | nil => rfl
  | cons cg added ih =>
    cases cg with
    | none => simp at h
    | some g =>
      have hcols : ∀ cols : List String, checkNewColumns [] cols = .ok () := by
        intro cols
        induction cols with
        | nil => rfl
        | cons c cols ihc => simpa [checkNewColumns, getColumnGroup, ok_bind] using ihc
      simp only [validateAdded, hcols]
      exact ih fun hmem => h (mem_cons_of_mem _ hmem)

private theorem validateAppended_nil (appended : List (List (Option ColumnGroup))) :
    validateAppended [] appended = .ok () := by
  induction appended with
  | nil => rfl
  | cons newCgs appended ih =>
    simpa [validateAppended, checkAppendedGroups, ok_bind] using ih

variable {σ : Store} {u : Updates} {m : Manifest} {cgs : ColumnGroups}

theorem none_mem_deref : none ∈ ColumnGroups.deref σ cgs ↔ none ∈ cgs := by
  simp [ColumnGroups.deref]

private theorem none_notMem_of_validateAdded {gs : List (Option ColumnGroup)}
    (h : validateAdded gs (ColumnGroups.deref σ cgs) = .ok ()) : none ∉ cgs := by
  intro hmem
  obtain ⟨newCg, hcontra, -⟩ := validateAdded_ok h none (none_mem_deref.mpr hmem)
  cases hcontra

private theorem exists_prepare_ok (hnil : survivors u.droppedColumns (m.groups σ) = [])
    (hbase : u.droppedColumns ≠ [] → none ∉ m.groups σ) (hadd : none ∉ u.addedColumnGroups) :
    ∃ rest, prepare σ m u = .ok { columnGroups := [], rest } := by
  obtain ⟨⟨cgs, indexes⟩, hdrop⟩ := exists_dropColumns_ok hbase m.indexes
  obtain ⟨-, hcgs⟩ := dropColumns_ok hdrop
  rw [hnil] at hcgs
  subst hcgs
  have hadded := validateAdded_nil (mt none_mem_deref.mp hadd : none ∉ ColumnGroups.deref σ _)
  rw [prepare, ← Manifest.groups, hdrop]
  simp only [ok_bind, hadded, validateAppended_nil]
  exact ⟨_, rfl⟩

private theorem appendAll_nil_eq_transfer (σ : Store) (u : Updates) :
    appendAll σ [] u.appendedFiles =
      (transfer σ u.adoptedTransfers >>= fun τ => .ok (τ, u.adopted.map Slot.ofPtr)) := by
  rw [appendAll_nil]
  change appendAll σ (u.adopted.map Slot.ofPtr) u.later = _
  by_cases hA : u.adopted = []
  · simp [Updates.adoptedTransfers, u.later_eq_nil hA, appendAll, transfer, ok_bind]
  · exact appendAll_ofPtr σ _ hA u.later

/-- With no group of the base left and no null group in the way, the checks pass, and the call is
the transfers to the adopted groups. -/
theorem applyUpdates_of_survivors_eq_nil (hnil : survivors u.droppedColumns (m.groups σ) = [])
    (hbase : u.droppedColumns ≠ [] → none ∉ m.groups σ) (hadd : none ∉ u.addedColumnGroups) :
    ∃ m', applyUpdates σ m u = (transfer σ u.adoptedTransfers >>= fun τ => .ok (τ, m')) := by
  obtain ⟨rest, hprep⟩ := exists_prepare_ok hnil hbase hadd
  rw [applyUpdates, hprep, ok_bind, install]
  simp only [map_nil, appendAll_nil_eq_transfer, bind_assoc, ok_bind]
  exact ⟨_, rfl⟩

private theorem transfer_error {ts : List (Ref × Ref)} {e : Fault} (h : transfer σ ts = .error e) :
    e = .iteratorInvalidated := by
  induction ts generalizing σ with
  | nil => simp [transfer] at h
  | cons t ts ih =>
    obtain ⟨q, r⟩ := t
    simp only [transfer, appendGroup] at h
    split_ifs at h with hqr hfiles
    · exact ih h
    · exact (error.inj h).symm
    · exact ih h

/-! ## Quiet updates -/

theorem applyUpdates_store_of_quiet {σ' : Store} {m' : Manifest} (hq : u.Quiet σ m)
    (h : applyUpdates σ m u = .ok (σ', m')) : σ' = σ := by
  obtain ⟨-, hσ', -⟩ | ⟨hnil, -, -⟩ := applyUpdates_cases h
  · exact hσ'
  · obtain ⟨slots, ⟨hbase, hadd, -⟩, -⟩ := applyUpdates_ok h
    have hnull := none_notMem_of_validateAdded hadd
    obtain ⟨m'', heq⟩ := applyUpdates_of_survivors_eq_nil hnil hbase hnull
    rw [transfer_of_files_eq_nil (hq hnil hbase hnull), h] at heq
    exact (Prod.mk.inj (ok.inj heq)).1

theorem applyUpdates_defined_of_quiet (hq : u.Quiet σ m) :
    applyUpdates σ m u ≠ .error .iteratorInvalidated := by
  cases hprep : prepare σ m u with
  | error e =>
    have hne := prepare_ne_invalidated σ m u
    rw [hprep] at hne
    rw [applyUpdates, hprep]
    exact fun h => hne (by simpa [bind, Except.bind] using h)
  | ok p =>
    obtain ⟨⟨hbase, hadd, -⟩, hcgs⟩ := prepare_ok hprep
    by_cases hnil : survivors u.droppedColumns (m.groups σ) = []
    · have hnull := none_notMem_of_validateAdded hadd
      obtain ⟨m', heq⟩ := applyUpdates_of_survivors_eq_nil hnil hbase hnull
      rw [heq, transfer_of_files_eq_nil (hq hnil hbase hnull), ok_bind]
      simp
    · rw [applyUpdates, hprep, ok_bind, install, hcgs, appendAll_ofCopy σ _ hnil, ok_bind]
      simp [pure, Except.pure]

theorem storeAfter_of_quiet (hq : u.Quiet σ m) : storeAfter σ m u = σ := by
  rw [storeAfter]
  split
  · next σ' m' h => exact applyUpdates_store_of_quiet hq h
  · rfl

theorem storeAfterCalls_of_quiet (hq : u.Quiet σ m) (n : ℕ) : storeAfterCalls σ m u n = σ := by
  induction n with
  | zero => rfl
  | succ n ih => rw [storeAfterCalls, ih, storeAfter_of_quiet hq]

/-! ## The commit loop under quiet updates -/

namespace Transaction

variable {t : Transaction}

/-- What the built-in resolvers are called with. -/
theorem reload_of_not_requireLatest (h : t.resolver.requireLatest = false) (retryCount : ℕ)
    (a : Attempt) :
    t.reload retryCount a = match a.latest with
      | .error s => .done (.error (.status s))
      | .ok v =>
        .resolve retryCount v (if v = t.readVersion then some t.readManifest else none) := by
  unfold reload listed
  cases a.latest with
  | error s => rfl
  | ok v =>
    by_cases hv : v = t.readVersion
    · simp [hv]
    · simp [hv, h]

variable {σ σ' : Store} {retryCount : ℕ}

section

variable (hres : t.resolver = overwriteResolver ∨ t.resolver = failResolver)

include hres

/-- A built-in resolver that succeeds has applied the updates to the manifest that was read. -/
theorem resolve_builtin {v : ℕ} {r : Store × Manifest}
    (h : t.resolver.resolve σ t.readManifest t.readVersion
      (if v = t.readVersion then some t.readManifest else none) v t.updates = .ok r) :
    applyUpdates σ t.readManifest t.updates = .ok r := by
  rcases hres with hres | hres
  · rwa [hres] at h
  · rw [hres] at h
    simp only [failResolver] at h
    split_ifs at h with hv hv'
    · exact h
    · exact absurd hv.symm hv'

theorem requireLatest_builtin : t.resolver.requireLatest = false := by
  rcases hres with hres | hres <;> rw [hres] <;> rfl

/-- A pass changes the store only through `applyUpdates`. -/
theorem pass_store {a : Attempt} {w : Option Manifest} {p : CommitPhase}
    (hq : t.updates.Quiet σ t.readManifest) (h : t.pass σ retryCount a = (σ', w, p)) : σ' = σ := by
  rw [pass, reload_of_not_requireLatest (requireLatest_builtin hres)] at h
  cases hlatest : a.latest with
  | error s =>
    rw [hlatest] at h
    exact (Prod.mk.inj h).1.symm
  | ok v =>
    rw [hlatest] at h
    simp only [resolved] at h
    cases hr : t.resolver.resolve σ t.readManifest t.readVersion
        (if v = t.readVersion then some t.readManifest else none) v t.updates with
    | error f =>
      rw [hr] at h
      exact (Prod.mk.inj h).1.symm
    | ok r =>
      have hσ := applyUpdates_store_of_quiet hq (resolve_builtin hres hr)
      rw [hr] at h
      simp only at h
      split_ifs at h <;> rw [← (Prod.mk.inj h).1, hσ]

theorem passes_store {as : List Attempt} {w : Option Manifest} {p : CommitPhase}
    (hq : t.updates.Quiet σ t.readManifest) (h : t.passes σ retryCount as = (σ', w, p)) :
    σ' = σ := by
  induction as generalizing retryCount with
  | nil => exact (Prod.mk.inj h).1.symm
  | cons a as ih =>
    rw [passes] at h
    rcases hpass : t.pass σ retryCount a with ⟨σ₁, w₁, p1⟩
    have hσ1 := pass_store hres hq hpass
    subst hσ1
    rw [hpass] at h
    cases p1 with
    | list r => exact ih h
    | read | resolve | write | done => exact (Prod.mk.inj h).1.symm

/-- What a successful pass returns and writes does not depend on the conflicts so far. -/
theorem pass_done_ok {version : ℕ} {a : Attempt} {w : Manifest}
    (h : t.pass σ retryCount a = (σ', some w, .done (.ok version))) (retryCount' : ℕ) :
    t.pass σ retryCount' a = (σ', some w, .done (.ok version)) := by
  rw [pass, reload_of_not_requireLatest (requireLatest_builtin hres)] at h ⊢
  cases hlatest : a.latest with
  | error s => simp [hlatest] at h
  | ok v =>
    rw [hlatest] at h
    simp only [resolved] at h ⊢
    cases hr : t.resolver.resolve σ t.readManifest t.readVersion
        (if v = t.readVersion then some t.readManifest else none) v t.updates with
    | error f => simp [hr] at h
    | ok r =>
      rw [hr] at h
      simp only at h ⊢
      split_ifs at h ⊢ with hv
      · cases hw : a.write with
        | ok u => simpa [hw, written] using h
        | error s =>
          simp only [hw, written] at h
          split_ifs at h <;> simp at h
      · simp at h

end

end Transaction

/-! ## The exact condition -/

theorem mem_refs_of_mem_adopted {i : ℕ} {q : Ref} (hq : u.adopted[i]? = some (some q)) :
    q ∈ u.refs := by
  have hmem : some q ∈ u.adopted := mem_of_getElem? hq
  rw [Updates.refs, reduceOption_mem_iff, mem_append, mem_flatten]
  refine .inr ⟨u.adopted, ?_, hmem⟩
  rw [Updates.adopted] at hmem ⊢
  cases hd : u.appendedFiles.dropWhile (· = []) with
  | nil => simp [hd] at hmem
  | cons l lists =>
    apply (dropWhile_sublist (· = [])).subset
    rw [hd]
    exact mem_cons_self

/-- **When `applyUpdates` can be repeated**: calls with the same arguments leave the base manifest
and the column groups of the updates unchanged and return equal manifests, and a `Commit` after
conflicts writes what it would have written without them, if and only if no list after the adopted
one brings a file to an adopted group. -/
theorem applyUpdates_repeatable_iff (σ : Store) (m : Manifest) (u : Updates) :
    Repeatable σ m u ↔ u.Quiet σ m := by
  constructor
  · intro h hnil hbase hadd t ht
    by_contra hne
    obtain ⟨m', heq⟩ := applyUpdates_of_survivors_eq_nil hnil hbase hadd
    cases htr : transfer σ u.adoptedTransfers with
    | error e =>
      obtain rfl := transfer_error htr
      rw [htr] at heq
      exact h.defined heq
    | ok σ' =>
      -- the group that receives the file has grown
      rw [htr, ok_bind] at heq
      have hafter : storeAfterCalls σ m u 1 = σ' := by
        simp only [storeAfterCalls, storeAfter, heq]
      obtain ⟨l, -, hpair⟩ := mem_flatMap.mp ht
      obtain ⟨i, hi, -⟩ := Transfers.mem_pairs.mp hpair
      have hsame := h.updates 1 t.1 (mem_refs_of_mem_adopted hi)
      have hgrow := Transfers.length_received_le σ.files u.adoptedTransfers t.1
      have hrec : σ.files t.2 <:+: Transfers.received σ.files u.adoptedTransfers t.1 := by
        obtain ⟨pre, post, hts⟩ := append_of_mem ht
        rw [hts, Transfers.received_append, Transfers.received_cons_self]
        exact ⟨_, _, append_assoc ..⟩
      have hlen := hrec.length_le
      have hpos := length_pos_iff.mpr hne
      have hfiles : Transfers.pushAll σ.files u.adoptedTransfers t.1 = σ.files t.1 := by
        rw [hafter, transfer_ok htr] at hsame
        exact congrArg ColumnGroup.files hsame
      rw [hfiles] at hgrow
      omega
  · intro hq
    refine ⟨applyUpdates_defined_of_quiet hq, fun n => ?_, fun n r _ => ?_, fun n => ?_, ?_⟩
    · rw [storeAfterCalls_of_quiet hq]
    · rw [storeAfterCalls_of_quiet hq]
    · rw [storeAfterCalls_of_quiet hq]
    · rintro t rfl rfl hres conflicts a σ₁ σ₂ w₁ retryCount w version hconf hlast
      obtain rfl := Transaction.passes_store hres hq hconf
      refine ⟨σ₂, ?_⟩
      have hpass : t.pass σ₁ retryCount a = (σ₂, some w, .done (.ok version)) := by
        rw [Transaction.passes] at hlast
        rcases hp : t.pass σ₁ retryCount a with ⟨σ', w', p'⟩
        rw [hp] at hlast
        cases p' with
        | list r => simp [Transaction.passes] at hlast
        | read | resolve | write | done => exact hlast
      rw [Transaction.passes, Transaction.pass_done_ok hres hpass 0]

/-- Two groups of a caller with one file each of the column `id`. -/
def idFiles : Store
  | 0 => ⟨["id"], "parquet", [⟨"a.parquet", 0, 10, []⟩]⟩
  | _ => ⟨["id"], "parquet", [⟨"b.parquet", 0, 10, []⟩]⟩

/-- Two appends to an empty table: the second call returns the second file twice. -/
theorem applyUpdates_append_twice_not_repeatable : ∃ σ₁ m₁ σ₂ m₂,
      let u : Updates := { appendedFiles := [[some 0], [some 1]] }
      applyUpdates idFiles {} u = .ok (σ₁, m₁) ∧ applyUpdates σ₁ {} u = .ok (σ₂, m₂) ∧
        σ₁ 0 ≠ idFiles 0 ∧
        (m₁.groups σ₁).map (Option.map fun g => g.files.map ColumnGroupFile.path) =
          [some ["a.parquet", "b.parquet"]] ∧
        (m₂.groups σ₂).map (Option.map fun g => g.files.map ColumnGroupFile.path) =
          [some ["a.parquet", "b.parquet", "b.parquet"]] ∧
        ¬ Repeatable idFiles {} u := by
  refine ⟨_, _, _, _, rfl, rfl, by decide, by decide, by decide, fun h => ?_⟩
  have hsame := h.updates 1 0 (by decide)
  revert hsame
  decide

end MilvusStorage
