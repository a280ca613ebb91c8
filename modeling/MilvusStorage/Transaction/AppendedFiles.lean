import MilvusStorage.Transaction.Append

/-!
# Where appended files land

An `AppendFiles` call brings one group for every column group of the table, and its files belong to
the group at the same index (`AppendedOnce`). The validation checks columns and format against the
groups the drops leave. When they leave none it checks nothing: the first non-empty call is adopted,
and later calls are appended to its groups, whatever their columns.

`applyUpdates_appendedOnce_iff` gives the exact condition, `Updates.AppendsFit`. It has three parts:
the shapes match, a group that receives files is listed once, and no group is appended after it has
received files. The last two only matter when calls share column group objects.
-/

namespace MilvusStorage

open List

/-- No appended file is lost, duplicated or put under the wrong columns. The result consists of
groups followed by the added ones. The group at an index holds the files `left` had there, and then
those of the calls, in order; and every appended group with files finds there a group of its column
set and format. -/
def AppendedOnce (left added : List (Option ColumnGroup)) (calls : List (List (Option ColumnGroup)))
    (result : List (Option ColumnGroup)) : Prop :=
  ∃ front, result = front ++ added ∧
    (∀ i g, front[i]? = some (some g) → g.files = filesAt i left ++ calls.flatMap (filesAt i)) ∧
    ∀ l ∈ calls, ∀ (i : ℕ) (g : ColumnGroup), l[i]? = some (some g) → g.files ≠ [] →
      ∃ g', front[i]? = some (some g') ∧ SameShape (some g') (some g)

/-- The group at index `i` of the adopted list receives files. -/
def Updates.Receives (σ : Store) (u : Updates) (i : ℕ) : Prop :=
  ∃ l ∈ u.later, Transfers.entry σ.files i l ≠ []

/-- The calls after the adopted one fit the adopted groups. -/
structure Updates.AppendsFit (σ : Store) (u : Updates) : Prop where
  /-- A later group with files meets an adopted group of its column set and format. -/
  shape : ∀ l ∈ u.later, ∀ (i : ℕ) (r : Ref), l[i]? = some (some r) → (σ r).files ≠ [] →
    ∃ q, u.adopted[i]? = some (some q) ∧ SameShape (some (σ q)) (some (σ r))
  /-- An adopted group that receives files stands nowhere else in the result. -/
  alone : ∀ i q, u.Receives σ i → u.adopted[i]? = some (some q) →
    some q ∉ u.addedColumnGroups ∧ ∀ j : ℕ, u.adopted[j]? = some (some q) → j = i
  /-- No group is appended after it has received files. -/
  fresh : Transfers.Fresh σ.files u.adoptedTransfers

/-! ## The calls, index by index -/

theorem filesAt_deref (σ : Store) (i : ℕ) (l : ColumnGroups) :
    filesAt i (ColumnGroups.deref σ l) = Transfers.entry σ.files i l := by
  simp only [filesAt, ColumnGroups.deref, getElem?_map, Transfers.entry]
  rcases l[i]? with _ | (_ | r) <;> rfl

variable {σ : Store} {u : Updates} {i : ℕ} {q : Ref} {l : ColumnGroups}

theorem getElem?_deref {g : ColumnGroup} :
    (ColumnGroups.deref σ l)[i]? = some (some g) ↔ ∃ r, l[i]? = some (some r) ∧ σ r = g := by
  simp only [ColumnGroups.deref, getElem?_map]
  rcases l[i]? with _ | (_ | r) <;> simp

/-- The calls are the adopted list and the later ones, up to empty lists. -/
theorem Updates.flatMap_appendedFiles {α : Type*} (u : Updates) (f : ColumnGroups → List α)
    (hf : f [] = []) : u.appendedFiles.flatMap f = f u.adopted ++ u.later.flatMap f := by
  rw [Updates.adopted, Updates.later]
  induction u.appendedFiles with
  | nil => simp [hf]
  | cons l lists ih =>
    by_cases hl : l = []
    · simpa [hl, hf] using ih
    · simp [hl]

theorem Updates.mem_appendedFiles (hl : l ∈ u.appendedFiles) (hne : l ≠ []) :
    l = u.adopted ∨ l ∈ u.later := by
  have h := u.flatMap_appendedFiles (fun l' => if l' = [] then [] else [l']) rfl
  have hmem : l ∈ u.appendedFiles.flatMap fun l' => if l' = [] then [] else [l'] :=
    mem_flatMap.mpr ⟨l, hl, by simp [hne]⟩
  rw [h, mem_append, mem_flatMap] at hmem
  rcases hmem with hmem | ⟨l', hl', hmem⟩
  · left
    split_ifs at hmem with h0
    · simp at hmem
    · simpa using hmem
  · right
    split_ifs at hmem with h0
    · simp at hmem
    · rwa [mem_singleton.mp hmem]

theorem Updates.later_subset (hl : l ∈ u.later) : l ∈ u.appendedFiles :=
  (dropWhile_sublist _).subset (mem_of_mem_tail hl)

/-- The files the calls hold at an index of the adopted list. -/
theorem flatMap_filesAt_appendedFiles (σ : Store) (u : Updates)
    (hq : u.adopted[i]? = some (some q)) :
    (u.appendedFiles.map (ColumnGroups.deref σ)).flatMap (filesAt i) =
      σ.files q ++ u.later.flatMap (Transfers.entry σ.files i) := by
  have hentry : Transfers.entry σ.files i u.adopted = σ.files q := by
    simp [Transfers.entry, hq]
  rw [flatMap_map]
  simp only [filesAt_deref]
  rw [u.flatMap_appendedFiles _ (Transfers.entry_nil _ _), hentry]

/-! ## When groups of the base are left -/

theorem appendedOnce_foldl_pushGroups {left added : List (Option ColumnGroup)}
    {calls : List (List (Option ColumnGroup))}
    (hshape : ∀ l ∈ calls, Forall₂ SameShape left l) :
    AppendedOnce left added calls (calls.foldl pushGroups left ++ added) := by
  refine ⟨_, rfl, fun i g hg => ?_, fun l hl i g hg _ => ?_⟩
  · rw [getElem?_foldl_pushGroups] at hg
    obtain ⟨cg, hcg, hmap⟩ := Option.map_eq_some_iff.mp hg
    obtain ⟨g0, rfl, rfl⟩ := Option.map_eq_some_iff.mp hmap
    simp [filesAt, hcg]
  · obtain ⟨hi, hgi⟩ := List.getElem?_eq_some_iff.mp hg
    have hlen := (hshape l hl).length_eq
    have hsame := (hshape l hl).get (hlen ▸ hi) hi
    rw [get_eq_getElem, get_eq_getElem, hgi] at hsame
    obtain ⟨g0, hg0⟩ : ∃ g0, left[i]? = some (some g0) := by
      rw [getElem?_eq_getElem (hlen ▸ hi)]
      cases h0 : left[i] with
      | none => simp [h0, SameShape] at hsame
      | some g0 => exact ⟨g0, rfl⟩
    refine ⟨_, by rw [getElem?_foldl_pushGroups, hg0]; rfl, ?_⟩
    rw [getElem?_eq_getElem (hlen ▸ hi), Option.some.injEq] at hg0
    rwa [hg0] at hsame

/-! ## When none is left -/

/-- What the transfers bring to the group at an index that stands there only, or receives nothing.
-/
theorem received_adoptedTransfers (hfit : u.AppendsFit σ) (hq : u.adopted[i]? = some (some q)) :
    Transfers.received σ.files u.adoptedTransfers q =
      u.later.flatMap (Transfers.entry σ.files i) := by
  by_cases hrec : ∃ j, u.Receives σ j ∧ u.adopted[j]? = some (some q)
  · obtain ⟨j, hj, hjq⟩ := hrec
    obtain ⟨-, honly⟩ := hfit.alone j q hj hjq
    obtain rfl := honly i hq
    have hall : ∀ lists : List ColumnGroups,
        Transfers.received σ.files (lists.flatMap (Transfers.pairs u.adopted)) q =
          lists.flatMap (Transfers.entry σ.files i) := by
      intro lists
      induction lists with
      | nil => rfl
      | cons l lists ih =>
        rw [flatMap_cons, Transfers.received_append, ih, Transfers.received_pairs hq honly,
          flatMap_cons]
    exact hall u.later
  · have hnone : ∀ j, u.adopted[j]? = some (some q) → ∀ l ∈ u.later,
        Transfers.entry σ.files j l = [] := by
      intro j hjq l hl
      by_contra hne
      exact hrec ⟨j, ⟨l, hl, hne⟩, hjq⟩
    have hempty : u.later.flatMap (Transfers.entry σ.files i) = [] :=
      flatMap_eq_nil_iff.mpr (hnone i hq)
    rw [hempty]
    refine Transfers.received_eq_nil fun t ht htq => ?_
    obtain ⟨l, hl, hpair⟩ := mem_flatMap.mp ht
    obtain ⟨j, hj, hr⟩ := Transfers.mem_pairs.mp hpair
    have := hnone j (by rw [hj, htq]) l hl
    simpa [Transfers.entry, hr] using this

/-- A group that is added and not adopted with files to receive stays as it is. -/
theorem received_added (hfit : u.AppendsFit σ) {r : Ref} (hr : some r ∈ u.addedColumnGroups) :
    Transfers.received σ.files u.adoptedTransfers r = [] := by
  refine Transfers.received_eq_nil fun t ht htr => ?_
  obtain ⟨l, hl, hpair⟩ := mem_flatMap.mp ht
  obtain ⟨j, hj, hsrc⟩ := Transfers.mem_pairs.mp hpair
  by_contra hne
  have hrec : u.Receives σ j := ⟨l, hl, by simpa [Transfers.entry, hsrc] using hne⟩
  exact (hfit.alone j t.1 hrec hj).1 (htr ▸ hr)

theorem appendedOnce_of_fit {σ' : Store} (hfit : u.AppendsFit σ)
    (hσ' : σ' = σ.withFiles (Transfers.pushAll σ.files u.adoptedTransfers)) :
    AppendedOnce [] (ColumnGroups.deref σ u.addedColumnGroups)
      (u.appendedFiles.map (ColumnGroups.deref σ))
      (ColumnGroups.deref σ' u.adopted ++ ColumnGroups.deref σ' u.addedColumnGroups) := by
  have hfiles : ∀ x, (σ' x).files = σ.files x ++ Transfers.received σ.files u.adoptedTransfers x :=
    by rw [hσ']; exact Transfers.pushAll_of_fresh hfit.fresh
  have hadded : ColumnGroups.deref σ' u.addedColumnGroups =
      ColumnGroups.deref σ u.addedColumnGroups := by
    refine map_congr_left fun p hp => ?_
    cases p with
    | none => rfl
    | some r =>
      have hr := hfiles r
      rw [received_added hfit hp, append_nil] at hr
      rw [hσ'] at hr ⊢
      simpa [Store.withFiles, Store.files] using congrArg (fun fs => { σ r with files := fs }) hr
  refine ⟨_, by rw [hadded], fun i g hg => ?_, fun l hl i g hg hne => ?_⟩
  · obtain ⟨q, hq, rfl⟩ := getElem?_deref.mp hg
    rw [filesAt_nil, nil_append, flatMap_filesAt_appendedFiles σ u hq, hfiles,
      received_adoptedTransfers hfit hq]
  · obtain ⟨l, hl', rfl⟩ := mem_map.mp hl
    obtain ⟨r, hr, rfl⟩ := getElem?_deref.mp hg
    have hlne : l ≠ [] := by
      rintro rfl
      simp at hr
    have hq : ∃ q, u.adopted[i]? = some (some q) ∧ SameShape (some (σ q)) (some (σ r)) := by
      rcases Updates.mem_appendedFiles hl' hlne with rfl | hlater
      · exact ⟨r, hr, rfl, rfl⟩
      · exact hfit.shape l hlater i r hr hne
    obtain ⟨q, hq, hsame⟩ := hq
    exact ⟨σ' q, getElem?_deref.mpr ⟨q, hq, rfl⟩, by rw [hσ']; exact hsame⟩

/-- What the later calls hold at the indices of a group is at most what it receives. -/
theorem length_flatMap_entry_le {A : ColumnGroups} (hi : A[i]? = some (some q))
    (lists : List ColumnGroups) :
    (lists.flatMap (Transfers.entry σ.files i)).length ≤
      (Transfers.received σ.files (lists.flatMap (Transfers.pairs A)) q).length := by
  induction lists with
  | nil => simp
  | cons l lists ih =>
    have hl := Transfers.length_entry_le_received (s := σ.files) hi l
    simp only [flatMap_cons, Transfers.received_append, length_append]
    omega

theorem length_flatMap_entries_le {A : ColumnGroups} {j : ℕ} (hi : A[i]? = some (some q))
    (hj : A[j]? = some (some q)) (hij : i ≠ j) (lists : List ColumnGroups) :
    (lists.flatMap (Transfers.entry σ.files i)).length +
        (lists.flatMap (Transfers.entry σ.files j)).length ≤
      (Transfers.received σ.files (lists.flatMap (Transfers.pairs A)) q).length := by
  induction lists with
  | nil => simp
  | cons l lists ih =>
    have hl : (Transfers.entry σ.files i l).length + (Transfers.entry σ.files j l).length ≤
        (Transfers.received σ.files (Transfers.pairs A l) q).length := by
      rcases lt_or_gt_of_ne hij with hlt | hgt
      · exact Transfers.length_entries_le_received hi hj hlt l
      · rw [add_comm]
        exact Transfers.length_entries_le_received hj hi hgt l
    simp only [flatMap_cons, Transfers.received_append, length_append]
    omega

theorem length_flatMap_entry_pos (h : u.Receives σ i) :
    0 < (u.later.flatMap (Transfers.entry σ.files i)).length := by
  obtain ⟨l, hl, hne⟩ := h
  rw [length_pos_iff]
  intro hnil
  exact hne (flatMap_eq_nil_iff.mp hnil l hl)

theorem fit_of_appendedOnce {σ' : Store}
    (hσ' : σ' = σ.withFiles (Transfers.pushAll σ.files u.adoptedTransfers))
    (h : AppendedOnce [] (ColumnGroups.deref σ u.addedColumnGroups)
      (u.appendedFiles.map (ColumnGroups.deref σ))
      (ColumnGroups.deref σ' u.adopted ++ ColumnGroups.deref σ' u.addedColumnGroups)) :
    u.AppendsFit σ := by
  obtain ⟨front, heq, hfiles, hplaced⟩ := h
  obtain ⟨rfl, hadded⟩ := append_inj' heq (by simp [ColumnGroups.deref])
  have hgrow : ∀ q, (σ.files q).length +
      (Transfers.received σ.files u.adoptedTransfers q).length ≤ ((σ' q).files).length :=
    by rw [hσ']; exact Transfers.length_received_le σ.files u.adoptedTransfers
  have hexact : ∀ i q, u.adopted[i]? = some (some q) → ((σ' q).files).length =
      (σ.files q).length + (u.later.flatMap (Transfers.entry σ.files i)).length := by
    intro i q hq
    rw [hfiles i (σ' q) (getElem?_deref.mpr ⟨q, hq, rfl⟩), filesAt_nil, nil_append,
      flatMap_filesAt_appendedFiles σ u hq, length_append]
  refine ⟨fun l hl i r hr hne => ?_, fun i q hrec hq => ⟨fun hadd => ?_, fun j hj => ?_⟩, ?_⟩
  · obtain ⟨g', hg', hsame⟩ := hplaced _ (mem_map.mpr ⟨l, Updates.later_subset hl, rfl⟩) i
      (σ r) (getElem?_deref.mpr ⟨r, hr, rfl⟩) hne
    obtain ⟨q, hq, rfl⟩ := getElem?_deref.mp hg'
    rw [hσ'] at hsame
    exact ⟨q, hq, hsame⟩
  · -- an added group would have grown
    obtain ⟨k, hk⟩ := mem_iff_getElem?.mp hadd
    have hsame : σ' q = σ q := by
      have hk' := congrArg (fun gs => gs[k]?) hadded
      simpa [ColumnGroups.deref, hk] using hk'
    have hpos := length_flatMap_entry_pos hrec
    have hlen := hexact i q hq
    rw [hsame] at hlen
    simp only [Store.files] at hlen
    omega
  · -- a group at two indices receives what comes for both
    by_contra hne
    have hpos := length_flatMap_entry_pos hrec
    have hboth := length_flatMap_entries_le (σ := σ) hj hq hne u.later
    have hlen := hexact j q hj
    have hmin := hgrow q
    rw [Updates.adoptedTransfers] at hmin
    omega
  · refine Transfers.fresh_of_length_eq fun t ht => ?_
    obtain ⟨l, hl, hpair⟩ := mem_flatMap.mp ht
    obtain ⟨i, hi, -⟩ := Transfers.mem_pairs.mp hpair
    have hle := length_flatMap_entry_le (σ := σ) hi u.later
    have hlen := hexact i t.1 hi
    have hmin := hgrow t.1
    rw [Updates.adoptedTransfers] at hmin ⊢
    rw [hσ'] at hlen hmin
    simp only [Store.withFiles, Updates.adoptedTransfers] at hlen hmin
    omega

/-! ## The exact condition -/

/-- **When appended files land where they belong**: after a successful call, every appended file is
in the result once, under its own columns and format and in order, if and only if groups of the
base are left or the appended groups fit those of the adopted list. -/
theorem applyUpdates_appendedOnce_iff {σ σ' : Store} {m m' : Manifest} {u : Updates}
    (h : applyUpdates σ m u = .ok (σ', m')) :
    AppendedOnce (survivors u.droppedColumns (m.groups σ))
        (ColumnGroups.deref σ u.addedColumnGroups)
        (u.appendedFiles.map (ColumnGroups.deref σ)) (m'.groups σ') ↔
      (survivors u.droppedColumns (m.groups σ) = [] → u.AppendsFit σ) := by
  obtain ⟨hne, -, hgroups⟩ | ⟨hnil, hσ', hgroups⟩ := applyUpdates_cases h
  · obtain ⟨slots, ⟨-, -, happ⟩, -⟩ := applyUpdates_ok h
    rw [hgroups]
    exact iff_of_true (appendedOnce_foldl_pushGroups (validateAppended_ok hne happ))
      fun hnil => absurd hnil hne
  · rw [hgroups, hnil]
    exact ⟨fun hland _ => fit_of_appendedOnce hσ' hland,
      fun hfit => appendedOnce_of_fit (hfit rfl) hσ'⟩

/-- Groups of a caller: two files of the column `id`, and one of the column `vector`. -/
def idAndVectorFiles : Store
  | 0 => ⟨["id"], "parquet", [⟨"a.parquet", 0, 10, []⟩]⟩
  | 1 => ⟨["id"], "parquet", [⟨"b.parquet", 0, 5, []⟩]⟩
  | _ => ⟨["vector"], "parquet", [⟨"c.parquet", 0, 10, []⟩]⟩

/-- Two appends of the same column to an empty table. -/
theorem applyUpdates_append_id_twice :
    ∃ σ' m', applyUpdates idAndVectorFiles {} { appendedFiles := [[some 0], [some 1]] } =
        .ok (σ', m') ∧
      AppendedOnce [] [] [[some (idAndVectorFiles 0)], [some (idAndVectorFiles 1)]]
        (m'.groups σ') := by
  refine ⟨_, _, rfl, (applyUpdates_appendedOnce_iff (m := {})
    (u := { appendedFiles := [[some 0], [some 1]] }) rfl).mpr fun _ => ⟨?_, ?_, ?_⟩⟩
  · intro l hl i r hr _
    obtain rfl := mem_singleton.mp hl
    obtain ⟨rfl, rfl⟩ : i = 0 ∧ 1 = r := by simpa [getElem?_singleton] using hr
    exact ⟨0, rfl, .refl _, rfl⟩
  · have hzero : ∀ {j : ℕ} {q : Ref}, [some 0][j]? = some (some q) → j = 0 := by
      simp [getElem?_singleton]
    exact fun i q _ hq => ⟨not_mem_nil, fun j hj => (hzero hj).trans (hzero hq).symm⟩
  · exact pairwise_singleton _ _

/-- A file of `vector` under the column `id`. -/
def vectorUnderId : ColumnGroup :=
  ⟨["id"], "parquet", [⟨"a.parquet", 0, 10, []⟩, ⟨"c.parquet", 0, 10, []⟩]⟩

/-- Two appends of different columns to an empty table. -/
theorem applyUpdates_append_id_then_vector :
    ∃ σ' m', applyUpdates idAndVectorFiles {} { appendedFiles := [[some 0], [some 2]] } =
        .ok (σ', m') ∧
      m'.groups σ' = [some vectorUnderId] ∧
      ¬ AppendedOnce [] [] [[some (idAndVectorFiles 0)], [some (idAndVectorFiles 2)]]
        (m'.groups σ') := by
  refine ⟨_, _, rfl, rfl, ?_⟩
  change ¬ AppendedOnce [] [] _ [some vectorUnderId]
  rintro ⟨front, heq, -, hplaced⟩
  obtain ⟨g, hg, hcols, -⟩ := hplaced [some (idAndVectorFiles 2)] (by decide) 0 _ rfl (by decide)
  rw [append_nil] at heq
  subst heq
  obtain rfl : vectorUnderId = g := by simpa using hg
  revert hcols
  decide

end MilvusStorage
