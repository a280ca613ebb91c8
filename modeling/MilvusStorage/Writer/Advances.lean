import MilvusStorage.Writer.WriterImpl

/-!
# What the calls do to the groups

`Advances intact records w w'` says that every group writer of `w` is still there in `w'`, with the
batches `records i` added to the contents of the `i`-th. Flushes add nothing. A batch that has been
distributed is added to every group, and one that could not be distributed is added to none, unless
the first group has taken its part (`distributeBatch_spec`).
-/

namespace MilvusStorage.Writer

open List Command Function

variable {V P : Type} {env : Environment V} {config : Config} {policy : ColumnGroupPolicy V P}
  {intact : Prop}

structure Advances (intact : Prop) (records : ℕ → List (RecordBatch V)) (w w' : WriterImpl V P) :
    Prop where
  columnGroups_eq : w'.columnGroups = w.columnGroups
  initialized_eq : w'.initialized = w.initialized
  closed_eq : w'.closed = w.closed
  cgs_eq : w'.cgs = w.cgs
  length_eq : w'.columnGroupWriters.length = w.columnGroupWriters.length
  writers : ∀ i g', w'.columnGroupWriters[i]? = some g' →
    ∃ g : ColumnGroupWriter V, w.columnGroupWriters[i]? = some g ∧ g.Extends intact (records i) g'

namespace Advances

variable {records records' : ℕ → List (RecordBatch V)} {w w1 w2 : WriterImpl V P}

theorem refl (w : WriterImpl V P) : Advances intact (fun _ => []) w w :=
  ⟨rfl, rfl, rfl, rfl, rfl, fun _ g hg => ⟨g, hg, .refl g⟩⟩

theorem trans (h : Advances intact records w w1) (h' : Advances intact records' w1 w2) :
    Advances intact (fun i => records i ++ records' i) w w2 where
  columnGroups_eq := h'.columnGroups_eq.trans h.columnGroups_eq
  initialized_eq := h'.initialized_eq.trans h.initialized_eq
  closed_eq := h'.closed_eq.trans h.closed_eq
  cgs_eq := h'.cgs_eq.trans h.cgs_eq
  length_eq := h'.length_eq.trans h.length_eq
  writers i g2 hg2 := by
    obtain ⟨g1, hg1, hext'⟩ := h'.writers i g2 hg2
    obtain ⟨g, hg, hext⟩ := h.writers i g1 hg1
    exact ⟨g, hg, hext.trans hext'⟩

/-- A step that does not concern the groups. -/
theorem frame (h : Advances intact records w w1) {f : WriterImpl V P → WriterImpl V P}
    (hf : ∀ w, (f w).columnGroups = w.columnGroups ∧ (f w).initialized = w.initialized ∧
      (f w).closed = w.closed ∧ (f w).cgs = w.cgs ∧
      (f w).columnGroupWriters = w.columnGroupWriters) :
    Advances intact records w (f w1) := by
  obtain ⟨hgroups, hinit, hclosed, hcgs, hwriters⟩ := hf w1
  refine ⟨hgroups.trans h.columnGroups_eq, hinit.trans h.initialized_eq,
    hclosed.trans h.closed_eq, hcgs.trans h.cgs_eq, ?_, ?_⟩
  · rw [hwriters, h.length_eq]
  · rw [hwriters]
    exact h.writers

/-- One group writer is replaced. -/
theorem set {i : ℕ} {g g' : ColumnGroupWriter V} (hg : w.columnGroupWriters[i]? = some g)
    {added : List (RecordBatch V)} (h : g.Extends intact added g') (σ : World) :
    Advances intact (update (fun _ => []) i added) w
      { w with world := σ, columnGroupWriters := w.columnGroupWriters.set i g' } := by
  refine ⟨rfl, rfl, rfl, rfl, length_set, fun j g1 hg1 => ?_⟩
  obtain rfl | hne := eq_or_ne i j
  · have hlt : i < w.columnGroupWriters.length := lt_of_getElem? hg
    simp only [getElem?_set_self hlt, Option.some.injEq] at hg1
    subst hg1
    exact ⟨g, hg, by simpa using h⟩
  · rw [getElem?_set_ne hne] at hg1
    exact ⟨g1, hg1, by simpa [hne.symm] using ColumnGroupWriter.Extends.refl g1⟩

end Advances

/-- A command of one group. -/
theorem atGroup_spec {α : Type} {i : ℕ} {x : GroupStep V α} {w : WriterImpl V P}
    {Q : α → ColumnGroupWriter V → ColumnGroupWriter V → Prop}
    {E : Fault → ColumnGroupWriter V → ColumnGroupWriter V → Prop}
    (h : ∀ σ g, w.columnGroupWriters[i]? = some g →
      Spec (· = (σ, g)) x (fun a s => Q a g s.2) (fun e s => E e g s.2)) :
    Spec (· = w) (atGroup i x)
      (fun a w' => ∃ g σ' g', w.columnGroupWriters[i]? = some g ∧ Q a g g' ∧
        w' = { w with world := σ', columnGroupWriters := w.columnGroupWriters.set i g' })
      (fun e w' => (w.columnGroupWriters[i]? = none ∧ w' = w) ∨
        ∃ g σ' g', w.columnGroupWriters[i]? = some g ∧ E e g g' ∧
          w' = { w with world := σ', columnGroupWriters := w.columnGroupWriters.set i g' }) := by
  rintro w rfl
  rw [atGroup]
  cases hg : w.columnGroupWriters[i]? with
  | none => simp
  | some g =>
    obtain ⟨hok, herror⟩ := h w.world g hg _ rfl
    refine ⟨fun w' a ha => ?_, fun w' e he => ?_⟩
    · obtain ⟨rfl, ha⟩ := Prod.ext_iff.mp ha
      exact ⟨g, _, _, rfl, hok _ a (Prod.ext rfl ha), rfl⟩
    · obtain ⟨rfl, he⟩ := Prod.ext_iff.mp he
      exact .inr ⟨g, _, _, rfl, herror _ e (Prod.ext rfl he), rfl⟩

/-- A command that adds nothing to its group adds nothing. -/
theorem keeps_atGroup {α : Type} {i : ℕ} {x : GroupStep V α} (w0 : WriterImpl V P)
    (h : ∀ σ g, Spec (· = (σ, g)) x (fun _ s => g.Extends intact [] s.2)
      (fun _ s => env.Atomic → g.Extends intact [] s.2)) :
    KeepsIf env.Atomic (Advances intact (fun _ => []) w0) (atGroup i x) := by
  have hupdate : update (fun _ => []) i [] = fun _ : ℕ => ([] : List (RecordBatch V)) :=
    update_eq_self i _
  refine spec_of_forall fun w hw => ?_
  have hset : ∀ {g g' : ColumnGroupWriter V} (σ : World), w.columnGroupWriters[i]? = some g →
      g.Extends intact [] g' → Advances intact (fun _ => []) w0
        { w with world := σ, columnGroupWriters := w.columnGroupWriters.set i g' } := by
    intro g g' σ hg hext
    exact hw.trans (hupdate ▸ Advances.set hg hext σ)
  refine (atGroup_spec (Q := fun _ g g' => g.Extends intact [] g')
    (E := fun _ g g' => env.Atomic → g.Extends intact [] g')
    fun σ g _ => h σ g).post (fun a w' hw' => ?_) fun e w' hw' => ?_
  · obtain ⟨g, σ, g', hg, hext, rfl⟩ := hw'
    exact hset σ hg hext
  · obtain ⟨-, rfl⟩ | ⟨g, σ, g', hg, hext, rfl⟩ := hw'
    · exact fun _ => hw
    · exact fun hatomic => hset σ hg (hext hatomic)

theorem keeps_assert {Inv : WriterImpl V P → Prop} (condition : Prop) [Decidable condition] :
    Keeps Inv (assert config condition) :=
  Keeps.ite (keeps_fail _) (keeps_pure _)

theorem keeps_frame (w0 : WriterImpl V P) {records : ℕ → List (RecordBatch V)}
    {f : WriterImpl V P → WriterImpl V P}
    (hf : ∀ w, (f w).columnGroups = w.columnGroups ∧ (f w).initialized = w.initialized ∧
      (f w).closed = w.closed ∧ (f w).cgs = w.cgs ∧
      (f w).columnGroupWriters = w.columnGroupWriters) :
    KeepsIf env.Atomic (Advances intact records w0) (modify f : Step V P Unit) :=
  (keeps_modify fun _ h => h.frame hf).keepsIf

section Flushes

variable (hintact : intact → ∀ n, env.io n = none)

include hintact

theorem keeps_flushGroup (w0 : WriterImpl V P) (i : ℕ) :
    KeepsIf env.Atomic (Advances intact (fun _ => []) w0) (flushGroup env config i) :=
  keeps_get.keepsIf.bind fun _ => (keeps_assert _).keepsIf.bind fun _ =>
    spec_ite (fun _ => keeps_atGroup w0 (ColumnGroupWriter.flush_spec hintact))
      fun _ => (keeps_pure _).keepsIf

/-- The loop that makes room. -/
theorem keeps_makeRoom (w0 : WriterImpl V P) (nextBatchSize : UInt64) (rounds : ℕ) :
    KeepsIf env.Atomic (Advances intact (fun _ => []) w0)
      (makeRoom env config nextBatchSize rounds) := by
  induction rounds with
  | zero => exact (keeps_pure _).keepsIf
  | succ rounds ih =>
    refine keeps_get.keepsIf.bind fun w => ?_
    split
    · exact (keeps_pure _).keepsIf
    · refine spec_ite (fun _ => (keeps_pure _).keepsIf) fun _ => ?_
      refine KeepsIf.bind (keeps_frame w0 fun _ => ⟨rfl, rfl, rfl, rfl, rfl⟩) fun _ => ?_
      exact (keeps_flushGroup hintact w0 _).bind fun _ => ih

/-- A flush of all groups. -/
theorem keeps_flush (w0 : WriterImpl V P) :
    KeepsIf env.Atomic (Advances intact (fun _ => []) w0) (flush env config) := by
  refine keeps_get.keepsIf.bind fun w => spec_ite (fun _ => (keeps_fail _).keepsIf) fun _ => ?_
  refine (keepsIf_forEach (fun i => keeps_atGroup w0 (ColumnGroupWriter.flush_spec hintact)) _).bind
    fun _ => ?_
  exact keeps_frame w0 fun _ => ⟨rfl, rfl, rfl, rfl, rfl⟩

end Flushes

/-! ## Distribution -/

/-- The part of a batch for the `i`-th group. -/
def partAt (schema : List String) (columnGroups : List ColumnGroup) (batch : Batch V) (i : ℕ) :
    List (RecordBatch V) :=
  columnGroups[i]?.elim [] fun g => [groupBatch schema g batch]

/-- Every group has columns of the batch. -/
def Reaches (schema : List String) (columnGroups : List ColumnGroup) (batch : Batch V) : Prop :=
  ∀ g ∈ columnGroups, columnPositions schema batch g ≠ []

/-- The first `n` groups have been given their parts. -/
def partsBelow (schema : List String) (columnGroups : List ColumnGroup) (batch : Batch V)
    (n i : ℕ) : List (RecordBatch V) :=
  if i < n then partAt schema columnGroups batch i else []

theorem partsBelow_zero (schema : List String) (columnGroups : List ColumnGroup) (batch : Batch V) :
    partsBelow schema columnGroups batch 0 = fun _ => [] := by
  funext i
  simp [partsBelow]

variable {columnGroups : List ColumnGroup} {columnGroup : ColumnGroup} {n : ℕ}

theorem partsBelow_succ {schema : List String} (hn : columnGroups[n]? = some columnGroup)
    (batch : Batch V) : (fun i => partsBelow schema columnGroups batch n i ++
      update (fun _ => []) n [groupBatch schema columnGroup batch] i) =
    partsBelow schema columnGroups batch (n + 1) := by
  funext i
  obtain hlt | rfl | hgt := lt_trichotomy i n
  · simp [partsBelow, hlt, hlt.ne, Nat.lt_succ_of_lt hlt]
  · simp [partsBelow, partAt, hn]
  · simp [partsBelow, hgt.ne', not_lt.mpr hgt.le, not_lt.mpr (Nat.succ_le_of_lt hgt)]

section Distribution

variable {w0 : WriterImpl V P} {k : ℕ} {batch : Batch V}
  (hlen : w0.columnGroupWriters.length = w0.columnGroups.length)
  (hreaches : Reaches config.schema w0.columnGroups batch)

include hlen hreaches

theorem writeGroup_spec (hn : w0.columnGroups[n]? = some columnGroup) :
    Spec (Advances intact (partsBelow config.schema w0.columnGroups batch n) w0)
      (writeGroup env config k batch columnGroup n)
      (fun _ w' => env.write k n = none ∧
        Advances intact (partsBelow config.schema w0.columnGroups batch (n + 1)) w0 w')
      (fun _ w' => env.write k n ≠ none ∧
        Advances intact (partsBelow config.schema w0.columnGroups batch n) w0 w') := by
  have hpositions := hreaches columnGroup (mem_of_getElem? hn)
  have hlt : n < w0.columnGroups.length := lt_of_getElem? hn
  refine spec_ite (fun h => absurd h hpositions) fun _ => spec_modify_bind fun w hw => ?_
  replace hw := hw.frame (f := fun w : WriterImpl V P => { w with
    currentMemoryUsage := w.currentMemoryUsage + batch.memorySize
      (columnPositions config.schema batch columnGroup)
    memoryHeap := (n, batch.memorySize (columnPositions config.schema batch columnGroup)) ::
      w.memoryHeap }) fun _ => ⟨rfl, rfl, rfl, rfl, rfl⟩
  refine spec_get_bind fun w' hw' => ?_
  rw [← hw'] at hw
  have hlt' : n < w'.columnGroupWriters.length := by rw [hw.length_eq, hlen]; exact hlt
  refine spec_ite (fun hge => absurd hlt' (not_lt.mpr hge)) fun _ => ?_
  refine (atGroup_spec (Q := fun _ g g' => env.write k n = none ∧
      g.Extends intact [groupBatch config.schema columnGroup batch] g')
    (E := fun _ g g' => env.write k n ≠ none ∧ g.Extends intact [] g')
    fun σ g _ => ColumnGroupWriter.write_spec _ _ _ σ g).post
    (fun _ w1 h1 => ?_) fun _ w1 h1 => ?_
  · obtain ⟨g, σ, g', hg, ⟨hok, hext⟩, rfl⟩ := h1
    exact ⟨hok, partsBelow_succ hn batch ▸ hw.trans (Advances.set hg hext σ)⟩
  · obtain ⟨hnone, -⟩ | ⟨g, σ, g', hg, ⟨herror, hext⟩, rfl⟩ := h1
    · exact absurd hlt' (not_lt.mpr (getElem?_eq_none_iff.mp hnone))
    · refine ⟨herror, ?_⟩
      have h := hw.trans (Advances.set hg hext σ)
      simpa using h

/-- The loop over the groups from the `n`-th on. If a group does not take its part, either none has
done so or the first has. -/
theorem writeGroups_spec (hdrop : w0.columnGroups.drop n = columnGroups)
    (hn : n = 0 ∨ env.write k 0 = none) :
    Spec (Advances intact (partsBelow config.schema w0.columnGroups batch n) w0)
      (forEach (fun gi : ColumnGroup × ℕ => writeGroup env config k batch gi.1 gi.2)
        (columnGroups.zipIdx n))
      (fun _ => Advances intact (partAt config.schema w0.columnGroups batch) w0)
      (fun _ w' => Advances intact (fun _ => []) w0 w' ∨
        env.write k 0 = none ∧ ∃ i, env.write k i ≠ none) := by
  induction columnGroups generalizing n with
  | nil =>
    have hle : w0.columnGroups.length ≤ n := drop_eq_nil_iff.mp hdrop
    refine spec_pure fun w hw => ?_
    convert hw using 1
    funext i
    by_cases hi : i < w0.columnGroups.length
    · simp [partsBelow, hi.trans_le hle]
    · simp [partsBelow, hi, partAt]
  | cons columnGroup columnGroups ih =>
    have hget : w0.columnGroups[n]? = some columnGroup := by
      rw [← add_zero n, ← getElem?_drop, hdrop]
      rfl
    have hdrop' : w0.columnGroups.drop (n + 1) = columnGroups := by
      simp [← drop_drop, hdrop]
    refine Spec.bind ((writeGroup_spec hlen hreaches hget).onError
      fun _ w ⟨herror, hw⟩ => ?_) fun _ => spec_of_forall fun w ⟨hok, hw⟩ => ?_
    · obtain rfl | hzero := hn
      · exact .inl (by rwa [partsBelow_zero] at hw)
      · exact .inr ⟨hzero, n, herror⟩
    · have hzero : env.write k 0 = none := hn.elim (fun h => h ▸ hok) id
      exact ((ih hdrop' (.inr hzero)).from hw).bind fun _ => spec_pure fun _ h => h

/-- **Distribution.** A batch that has been distributed is added to every group. -/
theorem distributeBatch_spec (hintact : intact → ∀ n, env.io n = none) :
    Spec (· = w0) (distributeBatch env config batch)
      (fun _ => Advances intact (partAt config.schema w0.columnGroups batch) w0)
      (fun _ w' => env.Atomic → Advances intact (fun _ => []) w0 w' ∨
        env.write w0.distributed 0 = none ∧ ∃ i, env.write w0.distributed i ≠ none) := by
  refine spec_get_bind fun w hw => ?_
  subst hw
  refine spec_ite (fun _ => spec_fail fun _ hw _ => .inl (hw ▸ .refl _)) fun _ => ?_
  refine spec_modify_bind fun w' hw' => ?_
  subst hw'
  have hstart : Advances intact (fun _ => []) w' { w' with distributed := w'.distributed + 1 } :=
    (Advances.refl w').frame (f := fun w : WriterImpl V P =>
      { w with distributed := w.distributed + 1 }) fun _ => ⟨rfl, rfl, rfl, rfl, rfl⟩
  refine (((keeps_makeRoom hintact w' _ _).onError
    fun _ _ h hatomic => .inl (h hatomic)).from hstart).bind fun _ => ?_
  refine ((writeGroups_spec hlen hreaches rfl (.inl rfl)).imp (fun _ h => ?_) (fun _ _ => id)
    fun _ _ h _ => h).bind fun _ => spec_modify fun _ h => ?_
  · rwa [partsBelow_zero]
  · exact h.frame (f := fun w : WriterImpl V P => { w with
      memoryHeap := balanceMemoryHeap w.memoryHeap }) fun _ => ⟨rfl, rfl, rfl, rfl, rfl⟩

end Distribution

end MilvusStorage.Writer
