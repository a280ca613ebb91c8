import MilvusStorage.Foundations.Except
import MilvusStorage.Transaction.Updates

/-!
# What the phases of `applyUpdates` establish

One lemma for each phase, from which the theorems about `applyUpdates` are assembled.

* `survivors` are the groups the drops leave; a successful `dropColumns` returns them
  (`dropColumns_ok`).
* `appendAll_nil` isolates the adoption: from an empty list of groups, the first non-empty list
  (`Updates.adopted`) is taken as it is and the lists after it (`Updates.later`) are appended to it.
-/

namespace MilvusStorage

open Except List

/-! ## Dropping -/

/-- A group without the dropped columns. -/
def ColumnGroup.eraseColumns (colNames : List String) (g : ColumnGroup) : ColumnGroup :=
  { g with columns := g.columns.filter (· ∉ colNames) }

/-- The groups the drops leave: every group loses the dropped columns, and once something is
dropped, groups without columns go. -/
def survivors (colNames : List String) (cgs : List (Option ColumnGroup)) :
    List (Option ColumnGroup) :=
  if colNames = [] then cgs
  else (cgs.map (Option.map (ColumnGroup.eraseColumns colNames))).filter fun cg =>
    cg.any fun g => g.columns ≠ []

variable {cgs : List (Option ColumnGroup)} {colNames : List String} {σ : Store} {m : Manifest}

theorem mem_survivors (h : colNames ≠ []) {cg : Option ColumnGroup} : cg ∈ survivors colNames cgs ↔
      ∃ g, some g ∈ cgs ∧ cg = some (g.eraseColumns colNames) ∧
        (g.eraseColumns colNames).columns ≠ [] := by
  simp only [survivors, if_neg h, mem_filter, mem_map]
  constructor
  · rintro ⟨⟨cg', hmem, rfl⟩, hany⟩
    cases cg' with
    | none => simp at hany
    | some g => exact ⟨g, hmem, rfl, by simpa using hany⟩
  · rintro ⟨g, hmem, rfl, hne⟩
    exact ⟨⟨some g, hmem, rfl⟩, by simpa using hne⟩

private theorem eraseColumns_cons (c : String) (cs : List String) (g : ColumnGroup) :
    (g.eraseColumns [c]).eraseColumns cs = g.eraseColumns (c :: cs) := by
  simp only [ColumnGroup.eraseColumns, filter_filter]
  congr 1
  apply filter_congr
  intro x _
  simp [Bool.and_comm]

private theorem survivors_cons (c : String) {cs : List String} (hcs : cs ≠ [])
    (cgs : List (Option ColumnGroup)) :
    survivors cs (survivors [c] cgs) = survivors (c :: cs) cgs := by
  simp only [survivors, if_neg hcs]
  induction cgs with
  | nil => rfl
  | cons cg cgs ih =>
    cases cg with
    | none => simpa using ih
    | some g =>
      have hkeep : (g.eraseColumns [c]).columns = [] → (g.eraseColumns (c :: cs)).columns = [] := by
        intro he
        simp [ColumnGroup.eraseColumns] at he ⊢
        tauto
      by_cases h1 : (g.eraseColumns [c]).columns = []
      · simpa [h1, hkeep h1] using ih
      · by_cases h2 : (g.eraseColumns (c :: cs)).columns = [] <;>
          simpa [h1, h2, eraseColumns_cons] using ih

variable {cgs' : List (Option ColumnGroup)}

private theorem dropColumn_ok {c : String} {indexes indexes' : List Index}
    (h : dropColumn c cgs indexes = .ok (cgs', indexes')) :
    none ∉ cgs ∧ cgs' = survivors [c] cgs := by
  simp only [dropColumn] at h
  split at h
  · cases h
  · rename_i hnull
    refine ⟨hnull, ?_⟩
    simp only [ok.injEq, Prod.mk.injEq] at h
    have hfun : (fun g : ColumnGroup => { g with columns := g.columns.filter (· ≠ c) }) =
        ColumnGroup.eraseColumns [c] := by
      funext g
      simp [ColumnGroup.eraseColumns]
    rw [← h.1, hfun]
    rfl

theorem dropColumns_ok {indexes indexes' : List Index}
    (h : dropColumns colNames cgs indexes = .ok (cgs', indexes')) :
    (colNames ≠ [] → none ∉ cgs) ∧ cgs' = survivors colNames cgs := by
  induction colNames generalizing cgs indexes with
  | nil =>
    simp only [dropColumns, ok.injEq, Prod.mk.injEq] at h
    simp [survivors, h.1]
  | cons c cs ih =>
    simp only [dropColumns, bind_eq_ok] at h
    obtain ⟨⟨cgs1, indexes1⟩, h₁, h₂⟩ := h
    obtain ⟨hnull, rfl⟩ := dropColumn_ok h₁
    obtain ⟨-, rfl⟩ := ih h₂
    refine ⟨fun _ => hnull, ?_⟩
    by_cases hcs : cs = []
    · subst hcs
      simp [survivors]
    · exact survivors_cons c hcs cgs

/-- The drops change neither the files nor the format of a group. -/
theorem exists_of_mem_survivors {g : ColumnGroup} (h : some g ∈ survivors colNames cgs) :
    ∃ g', some g' ∈ cgs ∧ g.files = g'.files ∧ g.format = g'.format ∧
      g.columns.Sublist g'.columns := by
  by_cases hc : colNames = []
  · subst hc
    exact ⟨g, by simpa [survivors] using h, rfl, rfl, List.Sublist.refl _⟩
  · obtain ⟨g', hmem, heq, -⟩ := (mem_survivors hc).1 h
    cases heq
    exact ⟨g', hmem, rfl, rfl, filter_sublist⟩

/-! ## Validation -/

theorem getColumnGroup_none {c : String} (h : getColumnGroup c cgs = .ok none) :
    ∀ cg ∈ cgs, ∃ g, cg = some g ∧ c ∉ g.columns := by
  induction cgs with
  | nil => simp
  | cons cg cgs ih =>
    cases cg with
    | none => simp [getColumnGroup] at h
    | some g =>
      simp only [getColumnGroup] at h
      split at h
      · simp at h
      · rename_i hc
        intro cg hcg
        rcases mem_cons.mp hcg with rfl | hcg
        · exact ⟨g, rfl, hc⟩
        · exact ih h cg hcg

private theorem checkNewColumns_ok {cols : List String} (h : checkNewColumns cgs cols = .ok ()) :
    ∀ c ∈ cols, ∀ cg ∈ cgs, ∃ g, cg = some g ∧ c ∉ g.columns := by
  induction cols with
  | nil => simp
  | cons c cols ih =>
    simp only [checkNewColumns, bind_eq_ok] at h
    obtain ⟨found, h₁, h₂⟩ := h
    cases found with
    | some g => simp at h₂
    | none =>
      intro d hd
      rcases mem_cons.mp hd with rfl | hd
      · exact getColumnGroup_none h₁
      · exact ih h₂ d hd

private theorem checkNewRows_ok {newCg : ColumnGroup} (h : checkNewRows cgs newCg = .ok ()) :
    cgs = [] ∨ ∃ g rest, cgs = some g :: rest ∧ g.sizeRows = newCg.sizeRows := by
  match cgs, h with
  | [], _ => exact .inl rfl
  | none :: _, h => simp [checkNewRows] at h
  | some g :: rest, h =>
    refine .inr ⟨g, rest, rfl, ?_⟩
    simp only [checkNewRows] at h
    split at h
    · assumption
    · cases h

/-- What the validation of the added groups has checked. -/
theorem validateAdded_ok {added : List (Option ColumnGroup)}
    (h : validateAdded cgs added = .ok ()) :
    ∀ cg ∈ added, ∃ newCg, cg = some newCg ∧
      (∀ c ∈ newCg.columns, ∀ cg' ∈ cgs, ∃ g, cg' = some g ∧ c ∉ g.columns) ∧
      (cgs = [] ∨ ∃ g rest, cgs = some g :: rest ∧ g.sizeRows = newCg.sizeRows) := by
  induction added with
  | nil => simp
  | cons cg added ih =>
    cases cg with
    | none => simp [validateAdded] at h
    | some newCg =>
      simp only [validateAdded, bind_eq_ok] at h
      obtain ⟨⟨⟩, hcols, ⟨⟩, hrows, hrest⟩ := h
      intro cg hcg
      rcases mem_cons.mp hcg with rfl | hcg
      · exact ⟨newCg, rfl, checkNewColumns_ok hcols, checkNewRows_ok hrows⟩
      · exact ih hrest cg hcg

/-- Two groups with the same columns, in any order, and the same format. -/
def SameShape : Option ColumnGroup → Option ColumnGroup → Prop
  | some g, some g' => g.columns.toFinset = g'.columns.toFinset ∧ g.format = g'.format
  | _, _ => False

private theorem checkAppendedGroup_ok {i : ℕ} {cg newCg : Option ColumnGroup}
    (h : checkAppendedGroup i cg newCg = .ok ()) : SameShape cg newCg := by
  match cg, newCg, h with
  | some g, some g', h =>
    simp only [checkAppendedGroup] at h
    split_ifs at h with hlen hfmt hcols
    exact ⟨not_ne_iff.mp hcols, not_ne_iff.mp hfmt⟩
  | none, _, h | some _, none, h => simp [checkAppendedGroup] at h

private theorem checkAppendedGroups_ok {i : ℕ} {newCgs : List (Option ColumnGroup)}
    (hlen : cgs.length = newCgs.length) (h : checkAppendedGroups i cgs newCgs = .ok ()) :
    Forall₂ SameShape cgs newCgs := by
  induction cgs generalizing i newCgs with
  | nil =>
    obtain rfl := length_eq_zero_iff.mp hlen.symm
    exact .nil
  | cons cg cgs ih =>
    match newCgs, hlen, h with
    | newCg :: newCgs, hlen, h =>
      simp only [checkAppendedGroups, bind_eq_ok] at h
      obtain ⟨⟨⟩, h₁, h₂⟩ := h
      exact .cons (checkAppendedGroup_ok h₁) (ih (by simpa using hlen) h₂)

/-- What the validation of the appended groups has checked: when there are groups, every list
matches them index by index. -/
theorem validateAppended_ok {appended : List (List (Option ColumnGroup))} (hne : cgs ≠ [])
    (h : validateAppended cgs appended = .ok ()) :
    ∀ newCgs ∈ appended, Forall₂ SameShape cgs newCgs := by
  induction appended with
  | nil => simp
  | cons newCgs appended ih =>
    simp only [validateAppended] at h
    split_ifs at h with hlen
    have hlen' : cgs.length = newCgs.length := by
      by_contra hl
      exact hlen ⟨hne, hl⟩
    simp only [bind_eq_ok] at h
    obtain ⟨⟨⟩, h₁, h₂⟩ := h
    intro l hl
    rcases mem_cons.mp hl with rfl | hl
    · exact checkAppendedGroups_ok hlen' h₁
    · exact ih h₂ l hl

/-! ## Adoption -/

/-- The list of appended groups that an empty manifest adopts: the first non-empty one. -/
def Updates.adopted (u : Updates) : ColumnGroups := (u.appendedFiles.dropWhile (· = [])).headD []

/-- The lists of appended groups after the adopted one. -/
def Updates.later (u : Updates) : List ColumnGroups := (u.appendedFiles.dropWhile (· = [])).tail

theorem appendAll_nil (σ : Store) (appended : List ColumnGroups) : appendAll σ [] appended =
      appendAll σ (((appended.dropWhile (· = [])).headD []).map Slot.ofPtr)
        (appended.dropWhile (· = [])).tail := by
  induction appended with
  | nil => rfl
  | cons newCgs appended ih =>
    by_cases h : newCgs = []
    · subst h
      simpa [appendAll] using ih
    · simp [appendAll, h]

theorem Updates.later_eq_nil (u : Updates) (h : u.adopted = []) : u.later = [] := by
  simp only [Updates.adopted, Updates.later] at h ⊢
  cases hd : u.appendedFiles.dropWhile (· = []) with
  | nil => rfl
  | cons l lists =>
    have hl := head_dropWhile_not (p := (· = ([] : ColumnGroups))) (l := u.appendedFiles)
      (by simp [hd])
    simp [hd] at h hl
    exact absurd h hl

/-! ## The whole function -/

/-- What a successful first half has checked. -/
def Checked (σ : Store) (m : Manifest) (u : Updates) : Prop :=
  (u.droppedColumns ≠ [] → none ∉ m.groups σ) ∧
    validateAdded (survivors u.droppedColumns (m.groups σ))
      (ColumnGroups.deref σ u.addedColumnGroups) = .ok () ∧
    validateAppended (survivors u.droppedColumns (m.groups σ))
      (u.appendedFiles.map (ColumnGroups.deref σ)) = .ok ()

theorem prepare_ok {u : Updates} {p : Prepared} (h : prepare σ m u = .ok p) :
    Checked σ m u ∧ p.columnGroups = survivors u.droppedColumns (m.groups σ) := by
  simp only [prepare, bind_eq_ok] at h
  obtain ⟨⟨cgs, indexes⟩, hdrop, ⟨⟩, hadd, ⟨⟩, happ, hp⟩ := h
  obtain ⟨hnull, rfl⟩ := dropColumns_ok hdrop
  simp only [pure_eq_ok_iff] at hp
  exact ⟨⟨hnull, hadd, happ⟩, by rw [← hp]; rfl⟩

/-- **A successful `applyUpdates`**: the survivors of the drops passed both validations, and the
groups of the result are the survivors after the appends, followed by the added groups. -/
theorem applyUpdates_ok {σ' : Store} {m' : Manifest} {u : Updates}
    (h : applyUpdates σ m u = .ok (σ', m')) :
    ∃ slots, Checked σ m u ∧
      appendAll σ ((survivors u.droppedColumns (m.groups σ)).map Slot.ofCopy) u.appendedFiles =
        .ok (σ', slots) ∧
      m'.columnGroups = slots ++ u.addedColumnGroups.map Slot.ofPtr := by
  simp only [applyUpdates, install, bind_eq_ok, pure_eq_ok_iff] at h
  obtain ⟨p, hprep, ⟨τ, slots⟩, hall, hres⟩ := h
  obtain ⟨hchecked, hcgs⟩ := prepare_ok hprep
  cases hres
  rw [hcgs] at hall
  exact ⟨slots, hchecked, hall, rfl⟩

/-- The groups a reader of the result sees. -/
theorem groups_of_columnGroups {slots : List Slot} {cgs : ColumnGroups}
    (h : m.columnGroups = slots ++ cgs.map Slot.ofPtr) :
    m.groups σ = copyColumnGroups σ slots ++ ColumnGroups.deref σ cgs := by
  simp [Manifest.groups, h]

end MilvusStorage
