import MilvusStorage.Writer.Aligned

/-!
# What a closed writer returns

A session is a sequence of calls, some of which may fail. Its invariant is `Sound`. A call that
returns OK keeps it. A call that fails does so too, unless it has created some of the group writers
only (`LeavesWriters`), distributed a batch to some of the groups only (`Splits`) or stored rows
that will be stored again (`Environment.Atomic` excludes it).

`close` drops the last file of a group if no bytes have been counted since the previous one. The
count is that of `GetRecordBatchMemorySize`, which is not positive for every batch that has rows.
-/

namespace MilvusStorage.Writer

open List Command

variable {V P : Type} {env : Environment V} {config : Config} {policy : ColumnGroupPolicy V P}
  {intact : Prop} {accepted : List (Batch V)}

/-! ## Closing -/

/-- What is returned for a group. -/
structure Returned (p : ColumnGroup × ColumnGroupWriter V) (r : WrittenGroup V) : Prop where
  closed_eq : p.2.formatWriter.closed = false
  columns_eq : r.columns = p.1.columns
  files_eq : r.files.flatMap DataFile.batches = p.2.writtenFiles.flatMap DataFile.batches ++
    if p.2.writtenBytes ≠ 0 then p.2.formatWriter.batches else []

variable {w : WriterImpl V P} {schema : List String} {n : ℕ}

theorem closeGroup_spec {g : ColumnGroupWriter V} (columnGroup : ColumnGroup)
    (hg : w.columnGroupWriters[n]? = some g) : Spec (· = w) (closeGroup env columnGroup n)
      (fun _ w' => ∃ σ g' r, Returned (columnGroup, g) r ∧ g'.formatWriter.closed = true ∧
        g'.columnGroupId = g.columnGroupId ∧ g'.columnGroup = g.columnGroup ∧
        w' = { w with
          world := σ
          columnGroupWriters := w.columnGroupWriters.set n g'
          cgs := w.cgs ++ [r] })
      (fun _ w' => (env.Atomic → Advances False (fun _ => []) w w') ∧
        (g.formatWriter.closed = true ∨ ∃ n, env.io n ≠ none)) := by
  refine Spec.bind ((atGroup_spec (Q := fun files g g' => g.formatWriter.closed = false ∧
      g'.formatWriter.closed = true ∧ g'.columnGroupId = g.columnGroupId ∧
      g'.columnGroup = g.columnGroup ∧ files.flatMap DataFile.batches =
        g.writtenFiles.flatMap DataFile.batches ++
          (if g.writtenBytes ≠ 0 then g.formatWriter.batches else []))
    (E := fun _ g g' => (env.Atomic → g.Extends False [] g') ∧
      (g.formatWriter.closed = true ∨ ∃ n, env.io n ≠ none))
    fun σ g _ => ColumnGroupWriter.close_spec nofun σ g).onError
      fun _ w' hw' => ?_) fun files => spec_modify fun w' hw' => ?_
  · obtain ⟨hnone, -⟩ | ⟨g1, σ, g', hg1, ⟨hext, hcause⟩, rfl⟩ := hw'
    · simp [hg] at hnone
    · obtain rfl : g = g1 := by simpa [hg] using hg1
      refine ⟨fun hatomic => ?_, hcause⟩
      simpa using Advances.set hg (hext hatomic) σ
  · obtain ⟨g1, σ, g', hg1, ⟨hopen, hclosed, hid, hgroup, hfiles⟩, rfl⟩ := hw'
    obtain rfl : g = g1 := by simpa [hg] using hg1
    exact ⟨σ, g', _, ⟨hopen, rfl, hfiles⟩, hclosed, hid, hgroup, rfl⟩

/-- The loop of `close` from the `n`-th group on. -/
theorem closeGroups_spec {columnGroups : List ColumnGroup}
    (hlen : n + columnGroups.length ≤ w.columnGroupWriters.length) : Spec (· = w)
      (forEach (fun gi : ColumnGroup × ℕ => closeGroup env gi.1 gi.2) (columnGroups.zipIdx n))
      (fun _ w' => ∃ results, w'.cgs = w.cgs ++ results ∧
        Forall₂ Returned (columnGroups.zip (w.columnGroupWriters.drop n)) results)
      (fun _ _ => (∃ g ∈ w.columnGroupWriters.drop n, g.formatWriter.closed = true) ∨
        ∃ n, env.io n ≠ none) := by
  induction columnGroups generalizing n w with
  | nil => exact spec_pure fun w' hw' => ⟨[], by simp [hw'], .nil⟩
  | cons columnGroup columnGroups ih =>
    rw [length_cons] at hlen
    have hlt : n < w.columnGroupWriters.length := by omega
    rw [drop_eq_getElem_cons hlt]
    refine Spec.bind ((closeGroup_spec columnGroup (getElem?_eq_getElem hlt)).imp
      (fun _ => id) (fun _ _ => id) fun _ _ hcause => ?_) fun _ => spec_of_forall fun w1 hw1 => ?_
    · exact hcause.2.imp_left fun hclosed => ⟨_, mem_cons_self, hclosed⟩
    · obtain ⟨σ, g', r, hret, -, -, -, rfl⟩ := hw1
      have hdrop : (w.columnGroupWriters.set n g').drop (n + 1) =
          w.columnGroupWriters.drop (n + 1) := drop_set_of_lt (Nat.lt_succ_self n)
      have hrest := ih (n := n + 1) (w := { w with
        world := σ, columnGroupWriters := w.columnGroupWriters.set n g', cgs := w.cgs ++ [r] })
        (by simp; omega)
      simp only [hdrop] at hrest
      refine (hrest.onError fun _ _ hcause => ?_).bind fun _ => spec_pure fun w' hw' => ?_
      · exact hcause.imp_left fun ⟨g, hg, hclosed⟩ => ⟨g, mem_cons_of_mem _ hg, hclosed⟩
      · obtain ⟨results, hcgs, hforall⟩ := hw'
        exact ⟨r :: results, by simp [hcgs], .cons hret hforall⟩

/-- A `close` that fails keeps the alignment: what it has closed cannot be closed again. -/
theorem keeps_closeGroup (columnGroup : ColumnGroup) (n : ℕ) :
    KeepsIf env.Atomic (Aligned (P := P) False schema accepted) (closeGroup env columnGroup n) := by
  refine spec_of_forall fun w hw => ?_
  cases hg : w.columnGroupWriters[n]? with
  | none =>
    refine Spec.bind_fails ((atGroup_spec (Q := fun _ _ _ => True) (E := fun _ _ _ => True)
      fun _ _ _ _ _ => ⟨fun _ _ _ => trivial, fun _ _ _ => trivial⟩).post
        (fun _ w' hw' => ?_) fun _ w' hw' => ?_)
    · obtain ⟨g, σ, g', hg', -⟩ := hw'
      simp [hg] at hg'
    · obtain ⟨-, rfl⟩ | ⟨g, σ, g', hg', -⟩ := hw'
      · exact fun _ => hw
      · simp [hg] at hg'
  | some g =>
    refine (closeGroup_spec columnGroup hg).post (fun _ w' hw' => ?_)
      fun _ w' hw' hatomic => hw.advances_nil (hw'.1 hatomic)
    obtain ⟨σ, g', r, hret, hclosed, hid, hgroup, rfl⟩ := hw'
    have hlt : n < w.columnGroupWriters.length := lt_of_getElem? hg
    have hadv := Advances.set hg
      (ColumnGroupWriter.Extends.of_closed hid hgroup hclosed not_false) σ
    rw [Function.update_eq_self] at hadv
    obtain ⟨hinit, hopen, hpart, hlen, hwriters, -⟩ := hw.advances_nil hadv
    refine ⟨hinit, hopen, hpart, hlen, hwriters, .inr ⟨g', ?_, hclosed⟩⟩
    exact mem_set hlt g'

/-- **Closing** an aligned writer returns every group, if all its writers can be closed. -/
theorem close_spec (h : Aligned intact schema accepted w) : Spec (· = w) (close env config)
      (fun groups w' => w'.closed = true ∧
        Forall₂ Returned (w.columnGroups.zip w.columnGroupWriters) groups)
      (fun _ _ => (∃ g ∈ w.columnGroupWriters, g.formatWriter.closed = true) ∨
        ∃ n, env.io n ≠ none) := by
  refine spec_get_bind fun w' hw' => ?_
  subst hw'
  refine spec_ite (fun hclosed => by simp [h.closed_eq] at hclosed) fun _ => ?_
  refine spec_ite (fun hgt => absurd h.length_eq hgt.ne') fun _ => ?_
  rw [h.length_eq, take_length]
  refine (closeGroups_spec (by simp [h.length_eq])).bind fun _ => ?_
  refine spec_modify_bind fun w1 ⟨results, hcgs, hforall⟩ => ?_
  refine spec_ite (fun hlt => absurd hlt (lt_irrefl _)) fun _ => ?_
  refine spec_get_bind fun w2 hw2 => spec_pure fun w3 hw3 => ?_
  subst hw2 hw3
  refine ⟨rfl, ?_⟩
  -- No writer was closed before, so that no group has been returned before.
  have hnil : w'.cgs = [] := by
    refine h.cgs_eq.resolve_right fun ⟨g, hg, hclosed⟩ => ?_
    obtain ⟨i, hlt, rfl⟩ := mem_iff_getElem.mp hg
    have hlt' : i < (w'.columnGroups.zip (w'.columnGroupWriters.drop 0)).length := by
      simp [← h.length_eq, hlt]
    have hret := hforall.get hlt' (hforall.length_eq ▸ hlt')
    have hopen := hret.closed_eq
    simp [hclosed] at hopen
  simpa [hcgs, hnil] using hforall

theorem close_blank {batches : List (Batch V)} (h : Blank policy schema batches w) :
    Spec (· = w) (close env config) (fun groups w' => w'.closed = true ∧ groups = [])
      (fun _ _ => False) := by
  refine spec_get_bind fun w' hw' => ?_
  subst hw'
  refine spec_ite (fun hclosed => by simp [h.closed_eq] at hclosed) fun _ => ?_
  refine spec_ite (fun hgt => by simp [h.writers_eq] at hgt) fun _ => ?_
  rw [h.writers_eq]
  refine Spec.bind (Q := fun _ => (· = w')) (spec_pure fun _ => id) fun _ =>
    spec_modify_bind fun w1 hw1 => ?_
  subst hw1
  refine spec_ite (fun _ => spec_modify_bind fun w2 hw2 => spec_pure fun w3 hw3 => ?_)
    fun _ => spec_get_bind fun w2 hw2 => spec_pure fun w3 hw3 => ?_ <;> subst hw2 hw3
  · exact ⟨rfl, rfl⟩
  · exact ⟨rfl, h.cgs_eq⟩

/-- The state after a `close`. -/
theorem close_keeps :
    Spec (Aligned (P := P) False schema accepted) (close env config) (fun _ w' => w'.closed = true)
      (fun _ w' => env.Atomic → Aligned False schema accepted w') := by
  refine Spec.bind keeps_get.keepsIf fun w =>
    spec_ite (fun _ => spec_fail fun _ h _ => h) fun _ => ?_
  refine spec_ite (fun _ => spec_fail fun _ h _ => h) fun _ => ?_
  refine Spec.bind (keepsIf_forEach
    (fun gi : ColumnGroup × ℕ => keeps_closeGroup gi.1 gi.2) _) fun _ => ?_
  refine Spec.bind (Q := fun _ w' => w'.closed = true) (spec_modify fun _ _ => rfl) fun _ => ?_
  refine spec_ite (fun _ => ?_) fun _ => ?_
  · exact Spec.bind (spec_modify fun _ => id) fun _ =>
      spec_pure fun _ => id
  · exact Spec.bind (spec_get fun _ => id) fun _ =>
      spec_pure fun _ h => h

/-! ## Calls -/

inductive Call (V : Type)
  | write (batch : Option (Batch V))
  | flush
  | close

namespace Call

/-- The batch that is accepted if the call returns OK. -/
def batches : Call V → List (Batch V)
  | write batch => batch.toList
  | flush => []
  | close => []

def run (env : Environment V) (config : Config) (policy : ColumnGroupPolicy V P) :
    Call V → Step V P Unit
  | write batch => Writer.write env config policy batch
  | flush => Writer.flush env config
  | close => do
    let _ ← Writer.close env config
    return ()

end Call

variable {batches : List (Batch V)}

/-- The batch of the `k`-th write is taken by the first group, but not by all groups. -/
def Splits (env : Environment V) (k : ℕ) : Prop :=
  env.write k 0 = none ∧ ∃ i, env.write k i ≠ none

section Calls

variable (hintact : intact → ∀ n, env.io n = none)

include hintact

variable {w : WriterImpl V P} {batch : Batch V}

section

variable (hnodup : config.schema.Nodup) (hbatch : batch.columns.length = config.schema.length)
  (h : Aligned intact config.schema accepted w)
include hnodup hbatch h

theorem distributeBatch_aligned : Spec (· = w) (distributeBatch env config batch)
      (fun _ => Aligned intact config.schema (accepted ++ [batch]))
      (fun _ w' => env.Atomic →
        Aligned intact config.schema accepted w' ∨ ∃ k, Splits env k) := by
  refine (distributeBatch_spec h.length_eq (h.partition.reaches hnodup hbatch) hintact).imp
    (fun _ => id) (fun _ w' hw' => h.advances hw' fun i g hg => ?_)
    fun _ w' hw' hatomic => (hw' hatomic).imp h.advances_nil fun hsplits => ⟨_, hsplits⟩
  simp [partAt, hg]

theorem write_aligned : Spec (· = w) (write env config policy (some batch))
      (fun _ => Aligned intact config.schema (accepted ++ [batch]))
      (fun _ w' => env.Atomic →
        Aligned intact config.schema accepted w' ∨ ∃ k, Splits env k) := by
  refine spec_get_bind fun w' hw' => ?_
  subst hw'
  refine spec_ite (fun _ => spec_fail fun _ hw _ => .inl (hw ▸ h)) fun _ => ?_
  refine Spec.bind ?_ fun _ =>
    distributeBatch_aligned hintact hnodup hbatch h
  refine spec_get_bind fun w1 hw1 =>
    spec_ite (fun _ => spec_pure fun _ h => h.trans hw1) fun hinit => ?_
  exact absurd (hw1 ▸ h.initialized_eq) hinit

end

/-- The first write, or one after attempts that have failed. -/
theorem write_blank (hnodup : config.schema.Nodup)
    (hbatch : batch.columns.length = config.schema.length) (hmem : batch ∈ batches)
    (h : Blank policy config.schema batches w) :
    Spec (· = w) (write env config policy (some batch))
      (fun _ => Aligned intact config.schema [batch])
      (fun _ w' => env.Atomic →
        Blank policy config.schema batches w' ∨ Aligned intact config.schema [] w' ∨
        (∃ k, LeavesWriters env k) ∨ ∃ k, Splits env k) := by
  refine spec_get_bind fun w' hw' => ?_
  subst hw'
  refine spec_ite (fun _ => spec_fail fun _ hw _ => .inl (hw ▸ h)) fun _ => ?_
  refine Spec.bind ?_ fun _ =>
    spec_of_forall fun w1 hw1 => (distributeBatch_aligned hintact hnodup hbatch hw1).imp
      (fun _ => id) (fun _ _ => id) fun _ _ h hatomic => .inr ((h hatomic).imp_right .inr)
  refine spec_get_bind fun w1 hw1 => ?_
  subst hw1
  refine spec_ite (fun hinit => by simp [h.initialized_eq] at hinit) fun _ => ?_
  refine ((initializeColumnGroupWriters_spec hnodup h hmem).onError
    fun _ _ h _ => ?_).bind fun _ => spec_modify fun _ h => h.aligned
  exact h.imp_right fun hleaves => .inr (.inl ⟨_, hleaves⟩)

theorem flush_aligned {schema : List String} (h : Aligned intact schema accepted w) :
    Spec (· = w) (flush env config) (fun _ => Aligned intact schema accepted)
      (fun _ w' => env.Atomic → Aligned intact schema accepted w') :=
  (Spec.from (keeps_flush hintact w) (.refl w)).post (fun _ _ => h.advances_nil)
    fun _ _ hw hatomic => h.advances_nil (hw hatomic)

end Calls

/-- There is nothing to flush. -/
theorem flush_blank (h : Blank policy schema batches w) : Spec (· = w) (flush env config)
      (fun _ w' => Blank policy schema batches w' ∧ w'.columnGroups = w.columnGroups)
      (fun _ _ => False) := by
  refine spec_get_bind fun w' hw' => ?_
  subst hw'
  refine spec_ite (fun hclosed => by simp [h.closed_eq] at hclosed) fun _ => ?_
  rw [h.writers_eq]
  refine Spec.bind (Q := fun _ => (· = w')) (spec_pure fun _ => id) fun _ =>
    spec_modify fun w hw => ?_
  subst hw
  exact ⟨⟨h.1, h.2, h.3, h.4, h.5⟩, rfl⟩

theorem spec_ite_closed {α : Type} (h : w.closed = true) (e : Fault) (x : Step V P α) :
    Spec (· = w) (if w.closed then fail e else x) (fun _ _ => False) (fun _ w' => w' = w) :=
  spec_ite (fun _ => spec_fail fun _ => id) fun hopen => absurd h hopen

theorem close_closed (h : w.closed = true) :
    Spec (· = w) (close env config) (fun _ _ => False) (fun _ w' => w' = w) := by
  refine spec_get_bind fun w' hw' => ?_
  subst hw'
  exact spec_ite_closed h _ _

/-- A closed writer refuses every call. -/
theorem run_closed (h : w.closed = true) (call : Call V) :
    Spec (· = w) (call.run env config policy) (fun _ _ => False) (fun _ w' => w' = w) := by
  cases call with
  | write batch | flush => exact spec_get_bind fun w' hw' => hw' ▸ spec_ite_closed h _ _
  | close => exact Spec.bind_fails (close_closed h)

/-! ## Sessions -/

structure Session (V P : Type) where
  writer : WriterImpl V P
  /-- The batches of the writes that have returned OK. -/
  accepted : List (Batch V) := []
  failures : List Fault := []

namespace Session

def start (p : P) : Session V P := { writer := { columnGroupPolicy := p } }

/-- The session after a call. -/
def after (env : Environment V) (config : Config) (policy : ColumnGroupPolicy V P) (s : Session V P)
    (call : Call V) : Session V P :=
  match call.run env config policy s.writer with
  | (w, .ok _) => { s with writer := w, accepted := s.accepted ++ call.batches }
  | (w, .error e) => { s with writer := w, failures := s.failures ++ [e] }

def next (env : Environment V) (config : Config) (policy : ColumnGroupPolicy V P) (s : Session V P)
    (call : Call V) : Option (Session V P) := some (s.after env config policy call)

theorem run_eq (s : Session V P) (calls : List (Call V)) :
    Runs.run (next env config policy) s calls =
      some (calls.foldl (after env config policy) s) := by
  induction calls generalizing s with
  | nil => rfl
  | cons call calls ih => exact ih _

/-- The invariant of a session that writes some of these batches. -/
def Sound (intact : Prop) (policy : ColumnGroupPolicy V P) (schema : List String)
    (batches : List (Batch V)) (s : Session V P) : Prop :=
  ¬ intact ∧ s.writer.closed = true ∨
  Blank policy schema batches s.writer ∧ s.accepted = [] ∧
    (s.failures = [] → s.writer.columnGroups = []) ∨
  Aligned intact schema s.accepted s.writer

section Invariant

variable (hintact : intact → ∀ n, env.io n = none) (hnodup : config.schema.Nodup)
  (hlen : ∀ b ∈ batches, b.columns.length = config.schema.length)

include hintact hnodup hlen

section

variable {s : Session V P} {call : Call V} (h : s.Sound intact policy config.schema batches)
  (hbatch : call.batches ⊆ batches) (hclose : call = .close → ¬ intact)
include h hbatch hclose

/-- One call. -/
theorem Sound.call_spec (e : Fault) :
    Spec (· = s.writer) (call.run env config policy) (fun _ w' =>
        Sound intact policy config.schema batches
          { s with writer := w', accepted := s.accepted ++ call.batches })
      (fun _ w' => env.Atomic → Sound intact policy config.schema batches
          { s with writer := w', failures := s.failures ++ [e] } ∨
        (∃ k, LeavesWriters env k) ∨ ∃ k, Splits env k) := by
  obtain ⟨hbroken, hclosed⟩ | ⟨hblank, haccepted, hgroups⟩ | haligned := h
  · exact (run_closed hclosed call).post (fun _ _ h => h.elim)
      fun _ w' hw' _ => .inl (.inl ⟨hbroken, by rw [hw']; exact hclosed⟩)
  · cases call with
    | write batch =>
      cases batch with
      | none =>
        refine spec_get_bind fun w hw => spec_ite (fun hclosed => ?_) fun _ => ?_
        · simp [hw, hblank.closed_eq] at hclosed
        · refine spec_pure fun w' hw' => .inr (.inl ?_)
          simpa [hw', hw, Call.batches, haccepted] using ⟨hblank, hgroups⟩
      | some batch =>
        have hmem : batch ∈ batches := hbatch (by simp [Call.batches])
        refine (write_blank hintact hnodup (hlen batch hmem) hmem hblank).post
          (fun _ w' hw' => ?_) fun _ w' hw' hatomic => ?_
        · exact .inr (.inr (by simpa [Call.batches, haccepted] using hw'))
        · obtain hw' | hw' | hcause := hw' hatomic
          · exact .inl (.inr (.inl ⟨hw', haccepted, by simp⟩))
          · exact .inl (.inr (.inr (by simpa [haccepted] using hw')))
          · exact .inr hcause
    | flush =>
      refine (flush_blank hblank).post (fun _ w' hw' => ?_) fun _ _ h => h.elim
      exact .inr (.inl ⟨hw'.1, by simp [Call.batches, haccepted],
        fun hok => hw'.2.trans (hgroups hok)⟩)
    | close =>
      refine ((close_blank hblank).onError fun _ _ h => h.elim).bind
        fun _ => spec_pure fun w' hw' => ?_
      exact .inl ⟨hclose rfl, hw'.1⟩
  · cases call with
    | write batch =>
      cases batch with
      | none =>
        refine spec_get_bind fun w hw => spec_ite (fun hclosed => ?_) fun _ => ?_
        · simp [hw, haligned.closed_eq] at hclosed
        · refine spec_pure fun w' hw' => .inr (.inr ?_)
          simpa [hw', hw, Call.batches] using haligned
      | some batch =>
        exact (write_aligned hintact hnodup (hlen batch (hbatch (by simp [Call.batches])))
          haligned).imp (fun _ => id) (fun _ _ h => .inr (.inr h))
          fun _ _ h hatomic => (h hatomic).imp (fun h => .inr (.inr h)) .inr
    | flush =>
      refine (flush_aligned hintact haligned).post (fun _ w' hw' => ?_)
        fun _ _ h hatomic => .inl (.inr (.inr (h hatomic)))
      exact .inr (.inr (by simpa [Call.batches] using hw'))
    | close =>
      obtain rfl : intact = False := eq_false (hclose rfl)
      refine ((close_keeps.from haligned).onError
        fun _ _ h hatomic => .inl (.inr (.inr (h hatomic)))).bind
          fun _ => spec_pure fun w' hw' => ?_
      exact .inl ⟨not_false, hw'⟩

theorem Sound.next {s' : Session V P}
    (hfaults : s'.failures = [] ∨
      env.Atomic ∧ (∀ k, ¬ LeavesWriters env k) ∧ ∀ k, ¬ Splits env k)
    (hnext : s.next env config policy call = some s') :
    s'.Sound intact policy config.schema batches := by
  cases hnext
  rcases hrun : call.run env config policy s.writer with ⟨w, e | a⟩
  · simp only [after, hrun] at hfaults ⊢
    obtain hnone | ⟨hatomic, hleaves, hsplits⟩ := hfaults
    · simp at hnone
    · obtain hsound | ⟨k, hk⟩ | ⟨k, hk⟩ :=
        (h.call_spec hintact hnodup hlen hbatch hclose e _ rfl).2 _ _ hrun hatomic
      · exact hsound
      · exact absurd hk (hleaves k)
      · exact absurd hk (hsplits k)
  · simp only [after, hrun]
    exact (h.call_spec hintact hnodup hlen hbatch hclose .nullDereference _ rfl).1 _ _ hrun

end

end Invariant

variable {s s' : Session V P}

/-- Failures are not forgotten. -/
theorem failures_next {call : Call V} (h : s.next env config policy call = some s')
    (hok : s'.failures = []) : s.failures = [] := by
  cases h
  rw [after] at hok
  split at hok
  · exact hok
  · simp at hok

variable {calls : List (Call V)}

theorem failures_run (h : Runs.run (next env config policy) s calls = some s')
    (hok : s'.failures = []) : s.failures = [] := by
  induction calls generalizing s with
  | nil =>
    cases h
    exact hok
  | cons call calls ih =>
    obtain ⟨s1, h1, h2⟩ := Runs.run_cons h
    exact failures_next h1 (ih h2)

/-- **The invariant of a session** all of whose calls return OK, or in which no call fails halfway.
-/
theorem Sound.run (hintact : intact → ∀ n, env.io n = none) (hnodup : config.schema.Nodup)
    (hlen : ∀ b ∈ batches, b.columns.length = config.schema.length)
    (h : s.Sound intact policy config.schema batches)
    (hbatches : ∀ call ∈ calls, call.batches ⊆ batches)
    (hclose : .close ∈ calls → ¬ intact)
    (hfaults : s'.failures = [] ∨
      env.Atomic ∧ (∀ k, ¬ LeavesWriters env k) ∧ ∀ k, ¬ Splits env k)
    (hrun : Runs.run (Session.next env config policy) s calls = some s') :
    s'.Sound intact policy config.schema batches := by
  induction calls generalizing s with
  | nil =>
    cases hrun
    exact h
  | cons call calls ih =>
    obtain ⟨s1, h1, h2⟩ := Runs.run_cons hrun
    obtain ⟨hhead, htail⟩ := forall_mem_cons.mp hbatches
    refine ih (h.next hintact hnodup hlen hhead (fun heq => hclose (by simp [heq])) ?_ h1) htail
      (fun hmem => hclose (mem_cons_of_mem _ hmem)) h2
    exact hfaults.imp_left (failures_run h2)

/-- The state after calls whose batches have the columns of the schema, with a policy that
partitions these columns. -/
structure Ran (env : Environment V) (config : Config) (policy : ColumnGroupPolicy V P) (p : P)
    (calls : List (Call V)) (s : Session V P) : Prop where
  nodup : config.schema.Nodup
  partitions : Partitions policy config.schema (calls.flatMap Call.batches) p
  columns : ∀ call ∈ calls, ∀ b ∈ call.batches, b.columns.length = config.schema.length
  run : Runs.run (Session.next env config policy) (.start p) calls = some s

theorem Ran.sound {p : P} (h : s.Ran env config policy p calls)
    (hintact : intact → ∀ n, env.io n = none) (hclose : .close ∈ calls → ¬ intact)
    (hfaults : s.failures = [] ∨
      env.Atomic ∧ (∀ k, ¬ LeavesWriters env k) ∧ ∀ k, ¬ Splits env k) :
    s.Sound intact policy config.schema (calls.flatMap Call.batches) := by
  have hstart : (start p : Session V P).Sound intact policy config.schema
      (calls.flatMap Call.batches) :=
    .inr (.inl ⟨⟨rfl, rfl, rfl, rfl, h.partitions⟩, rfl, fun _ => rfl⟩)
  refine hstart.run hintact h.nodup (fun b hb => ?_)
    (fun call hcall _ hb => mem_flatMap.mpr ⟨call, hcall, hb⟩) hclose hfaults h.run
  obtain ⟨call, hcall, hb⟩ := mem_flatMap.mp hb
  exact h.columns call hcall b hb

end Session

end MilvusStorage.Writer
