import MilvusStorage.Reader.Planning

/-!
# What loading preserves

The rows of a group that are not yet delivered are those of its queued batches and of the chunks
that are not yet read (`pending`). Loading moves chunks from the second kind to the first and keeps
the whole, also when it fails, unless a predicate is set and a `get_chunk` fails after another one
of the same round has queued rows.

What a round keeps and what it achieves is `loadInternal_kept` and `loadInternal_ready`.
-/

namespace MilvusStorage.Reader

open List

variable {V : Type}

namespace PackedReader

variable (R : PackedReader V) (heap : RowOffsetMinHeap) (io : Io)

/-- The batches of a group that are not yet delivered: those queued and those of the chunks that are
not yet read. -/
def pendingOf (i : ℕ) (c : Cursor V) : List (RecordBatch V) :=
  c.rbs ++ ((R.chunks i).drop c.read).flatMap (R.fetched i)

def pending (S : State V) (i : ℕ) : List (RecordBatch V) := R.pendingOf i (S.cg i)

/-- With a predicate, a `get_chunk` fails only if the unread chunks before its own have no rows. -/
def EarlyFailures (S : State V) : Prop :=
  R.predicate = true → ∀ i c, io (.chunk i c) ≠ none →
    ∀ c', (S.cg i).read ≤ c' → c' < c → R.fetchedAt i c' = []

/-- Nothing is left to plan for a group without a queued batch, and some such group has chunks
planned that an earlier call failed to read. -/
def Stalled (S : State V) : Prop :=
  R.needLoad S = false ∧ ∃ i < R.size, (S.cg i).rbs = [] ∧ (S.cg i).loaded ≠ []

variable {R heap io}

/-! ## Reading what is planned -/

variable (R) in
/-- A group all of whose planned chunks are read. -/
def fetchAll (i : ℕ) (c : Cursor V) : Cursor V :=
  { c with rbs := c.rbs ++ c.loaded.flatMap (R.fetchedAt i), loaded := [] }

variable {S S' : State V} {i : ℕ} {e : Option Fault} {c : Cursor V}

theorem fetchAll_of_loaded_eq_nil (h : c.loaded = []) : R.fetchAll i c = c := by
  cases c
  subst h
  simp [fetchAll]

/-- The chunks from one on, read one after the other. -/
theorem flatMap_range'_fetchedAt (i m l : ℕ) (h : m + l ≤ R.numberOfChunks i) :
    (List.range' m l).flatMap (R.fetchedAt i) ++ ((R.chunks i).drop (m + l)).flatMap (R.fetched i) =
      ((R.chunks i).drop m).flatMap (R.fetched i) := by
  induction l generalizing m with
  | zero => rfl
  | succ l ih =>
    have hlt : m < (R.chunks i).length := by
      unfold numberOfChunks at h
      omega
    have hat : R.fetchedAt i m = R.fetched i (R.chunks i)[m] := by
      rw [fetchedAt, getElem?_eq_getElem hlt]
    rw [range'_succ, flatMap_cons, hat, append_assoc, ← add_assoc,
      add_right_comm, ih (m + 1) (by omega), drop_eq_getElem_cons hlt, flatMap_cons]

theorem pendingOf_fetchAll (hc : c.Ok (R.numberOfChunks i)) :
    R.pendingOf i (R.fetchAll i c) = R.pendingOf i c := by
  have hread : (R.fetchAll i c).read = c.read + c.loaded.length := by
    have := hc.length_loaded_le
    simp only [fetchAll, Cursor.read, length_nil]
    omega
  have hle : c.read + c.loaded.length ≤ R.numberOfChunks i := by
    have := hc.length_loaded_le
    have := hc.chunkIndex_le
    unfold Cursor.read
    omega
  rw [pendingOf, pendingOf, hread, ← flatMap_range'_fetchedAt i _ _ hle, ← hc.loaded_eq]
  exact append_assoc ..

theorem ok_fetchAll {n : ℕ} (hc : c.Ok n) : (R.fetchAll i c).Ok n :=
  ⟨Nat.zero_le _, rfl, hc.chunkIndex_le⟩

theorem read_le_fetchAll (i : ℕ) (c : Cursor V) : c.read ≤ (R.fetchAll i c).read :=
  Nat.sub_le_sub_left (Nat.zero_le _) _

theorem push_nil (S : State V) (i : ℕ) : push S i [] = S := by
  simp [push, State.set]

theorem push_push (S : State V) (i : ℕ) (p q : List (RecordBatch V)) :
    push (push S i p) i q = push S i (p ++ q) := by
  simp [push, State.set]

theorem EarlyFailures.mono (h : R.EarlyFailures io S)
    (hread : ∀ i, (S.cg i).read ≤ (S'.cg i).read) : R.EarlyFailures io S' :=
  fun hp i c hc c' hle hlt => h hp i c hc c' ((hread i).trans hle) hlt

theorem fetchEach_cases {cs : List ℕ} (h : R.fetchEach io i cs S = (S', e)) :
    (e = none ∧ S' = push S i (cs.flatMap (R.fetchedAt i))) ∨
      ∃ before c after, cs = before ++ c :: after ∧ io (.chunk i c) ≠ none ∧ e ≠ none ∧
        S' = push S i (before.flatMap (R.fetchedAt i)) := by
  induction cs generalizing S with
  | nil =>
    obtain ⟨rfl, rfl⟩ := Prod.mk.inj h
    exact .inl ⟨rfl, (push_nil S i).symm⟩
  | cons c cs ih =>
    rw [fetchEach] at h
    split at h
    · next s hs =>
      obtain ⟨rfl, rfl⟩ := Prod.mk.inj h
      exact .inr ⟨[], c, cs, rfl, by simp [hs], by simp, (push_nil S i).symm⟩
    · obtain ⟨he, hS⟩ | ⟨before, c', after, hcs, hc', he, hS⟩ := ih h
      · refine .inl ⟨he, ?_⟩
        rw [hS, push_push, flatMap_cons]
      · refine .inr ⟨c :: before, c', after, by rw [hcs, cons_append], hc', he, ?_⟩
        rw [hS, push_push, flatMap_cons]

/-- The planned chunks of a group are all read, or none of them is and the call fails. -/
theorem fetch_cases (hok : (S.cg i).Ok (R.numberOfChunks i)) (hearly : R.EarlyFailures io S)
    (h : R.fetch io i S = (S', e)) :
    (e = none ∧ S' = push S i ((S.cg i).loaded.flatMap (R.fetchedAt i))) ∨ (e ≠ none ∧ S' = S) := by
  unfold fetch at h
  split_ifs at h with hp
  · obtain hall | ⟨before, c, after, hloaded, hc, he, hS⟩ := fetchEach_cases h
    · exact .inl hall
    · refine .inr ⟨he, ?_⟩
      -- the chunks before the failing one are unread, so they have no rows
      rw [hok.loaded_eq] at hloaded
      obtain ⟨k, -, hbefore, hafter⟩ := range'_eq_append_iff.mp hloaded
      have hck : c = (S.cg i).read + k := by
        have hhead := congrArg head? hafter
        rw [head?_cons, head?_range'] at hhead
        split_ifs at hhead
        rw [mul_one] at hhead
        exact Option.some.inj hhead
      have hnone : before.flatMap (R.fetchedAt i) = [] := by
        rw [flatMap_eq_nil_iff, hbefore]
        intro c' hc'
        obtain ⟨hle, hlt⟩ := mem_range'_1.mp hc'
        exact hearly hp i c hc c' hle (by omega)
      rw [hS, hnone, push_nil]
  · split at h
    · cases h
      exact .inr ⟨by simp, rfl⟩
    · cases h
      exact .inl ⟨rfl, rfl⟩

theorem fetchAll_fetchAll (i : ℕ) (c : Cursor V) : R.fetchAll i (R.fetchAll i c) = R.fetchAll i c :=
  fetchAll_of_loaded_eq_nil rfl

variable (R) in
/-- The planned chunks of some groups are read. -/
structure Fetched (S S' : State V) : Prop where
  currentOffset_eq : S'.currentOffset = S.currentOffset
  cg : ∀ i, S'.cg i = S.cg i ∨ S'.cg i = R.fetchAll i (S.cg i)

theorem Fetched.refl (S : State V) : Fetched R S S := ⟨rfl, fun _ => .inl rfl⟩

theorem Fetched.trans {S'' : State V} (h : Fetched R S S') (h' : Fetched R S' S'') :
    Fetched R S S'' := by
  refine ⟨h'.currentOffset_eq.trans h.currentOffset_eq, fun i => ?_⟩
  obtain h' | h' := h'.cg i
  · rw [h']
    exact h.cg i
  · obtain h | h := h.cg i
    · rw [h', h]
      exact .inr rfl
    · rw [h', h, fetchAll_fetchAll]
      exact .inr rfl

theorem Fetched.set (S : State V) (j : ℕ) : Fetched R S (S.set j (R.fetchAll j (S.cg j))) := by
  refine ⟨rfl, fun i => ?_⟩
  by_cases hij : i = j
  · subst hij
    exact .inr (Function.update_self ..)
  · exact .inl (Function.update_of_ne hij ..)

section

variable (h : Fetched R S S')
include h

theorem Fetched.ok (hok : R.Ok S) : R.Ok S' := by
  intro i
  obtain h | h := h.cg i
  · exact h ▸ hok i
  · exact h ▸ ok_fetchAll (hok i)

theorem Fetched.read_le (i : ℕ) : (S.cg i).read ≤ (S'.cg i).read := by
  obtain h | h := h.cg i
  · rw [h]
  · rw [h]
    exact read_le_fetchAll i _

theorem Fetched.loaded_eq_nil (hi : (S.cg i).loaded = []) : (S'.cg i).loaded = [] := by
  obtain h | h := h.cg i
  · rw [h, hi]
  · rw [h]
    rfl

theorem Fetched.pending_eq (hok : R.Ok S) (i : ℕ) : R.pending S' i = R.pending S i := by
  unfold pending
  obtain h | h := h.cg i
  · rw [h]
  · rw [h, pendingOf_fetchAll (hok i)]

end

/-- **Reading a round**: the planned chunks of each group are all read or all still planned, and all
are read if nothing fails. -/
theorem execute_fetched {is : List ℕ} (hok : R.Ok S) (hearly : R.EarlyFailures io S)
    (h : R.execute io is S = (S', e)) :
    Fetched R S S' ∧ (e = none → ∀ i ∈ is, (S'.cg i).loaded = []) := by
  induction is generalizing S with
  | nil =>
    obtain ⟨rfl, rfl⟩ := Prod.mk.inj h
    exact ⟨.refl S, fun _ i hi => absurd hi not_mem_nil⟩
  | cons j is ih =>
    rw [execute] at h
    split_ifs at h with hloaded
    · obtain ⟨hfetched, hall⟩ := ih hok hearly h
      exact ⟨hfetched, fun he => forall_mem_cons.mpr ⟨hfetched.loaded_eq_nil hloaded, hall he⟩⟩
    · rcases hfetch : R.fetch io j S with ⟨S1, e1⟩
      rw [hfetch] at h
      obtain ⟨rfl, rfl⟩ | ⟨he, rfl⟩ := fetch_cases (hok j) hearly hfetch
      · have hset : (push S j ((S.cg j).loaded.flatMap (R.fetchedAt j))).set j
            { (push S j ((S.cg j).loaded.flatMap (R.fetchedAt j))).cg j with loaded := [] } =
            S.set j (R.fetchAll j (S.cg j)) := by
          simp [push, State.set, fetchAll]
        dsimp only at h
        rw [hset] at h
        have hstep : Fetched R S (S.set j (R.fetchAll j (S.cg j))) := .set S j
        have hnil : ((S.set j (R.fetchAll j (S.cg j))).cg j).loaded = [] := by
          simp [State.set, fetchAll]
        obtain ⟨hfetched, hall⟩ := ih (hstep.ok hok) (hearly.mono hstep.read_le) h
        exact ⟨hstep.trans hfetched,
          fun he => forall_mem_cons.mpr ⟨hfetched.loaded_eq_nil hnil, hall he⟩⟩
      · cases e1 with
        | none => exact absurd rfl he
        | some e1 =>
          cases h
          exact ⟨.refl _, fun he => by cases he⟩

theorem fetchEach_noFailure (i : ℕ) (cs : List ℕ) (S : State V) :
    (R.fetchEach .noFailure i cs S).2 = none := by
  induction cs generalizing S with
  | nil => rfl
  | cons c cs ih => exact ih _

theorem execute_noFailure (is : List ℕ) (S : State V) : (R.execute .noFailure is S).2 = none := by
  induction is generalizing S with
  | nil => rfl
  | cons j is ih =>
    rw [execute]
    split_ifs
    · exact ih S
    · have hfetch : (R.fetch .noFailure j S).2 = none := by
        unfold fetch
        split_ifs
        · exact fetchEach_noFailure j _ S
        · rfl
      rcases hS : R.fetch .noFailure j S with ⟨S1, e1⟩
      rw [hS] at hfetch
      obtain rfl : e1 = none := hfetch
      exact ih _

/-! ## A round of loading -/

variable (R) in
/-- What loading keeps. -/
structure Kept (S S' : State V) : Prop where
  ok : R.Ok S'
  pending_eq : ∀ i, R.pending S' i = R.pending S i
  read_le : ∀ i, (S.cg i).read ≤ (S'.cg i).read
  currentOffset_eq : S'.currentOffset = S.currentOffset

theorem Kept.refl (hok : R.Ok S) : Kept R S S :=
  ⟨hok, fun _ => rfl, fun _ => le_rfl, rfl⟩

theorem Kept.trans {S'' : State V} (h : Kept R S S') (h' : Kept R S' S'') : Kept R S S'' :=
  ⟨h'.ok, fun i => (h'.pending_eq i).trans (h.pending_eq i),
    fun i => (h.read_le i).trans (h'.read_le i), h'.currentOffset_eq.trans h.currentOffset_eq⟩

theorem Planned.kept (h : Planned R S S') : Kept R S S' := by
  refine ⟨h.ok, fun i => ?_, fun i => (h.read_eq i).ge, h.currentOffset_eq⟩
  rw [pending, pending, pendingOf, pendingOf, h.rbs_eq, h.read_eq]

theorem Fetched.kept (h : Fetched R S S') (hok : R.Ok S) : Kept R S S' :=
  ⟨h.ok hok, h.pending_eq hok, h.read_le, h.currentOffset_eq⟩

variable (R) in
/-- A group without a queued batch has read all that is planned and, without a predicate, has
nothing left. -/
def Ready (S : State V) : Prop :=
  ∀ i < R.size, (S.cg i).rbs = [] → (S.cg i).loaded = [] ∧
    (R.predicate = false → R.numberOfChunks i ≤ (S.cg i).chunkIndex)

theorem mem_needLoad : R.needLoad S = true ↔
    ∃ i < R.size, (S.cg i).rbs = [] ∧ (S.cg i).chunkIndex < R.numberOfChunks i := by
  simp [needLoad]

section

variable (hok : R.Ok S) (hearly : R.EarlyFailures io S) (h : R.loadInternal heap io S = (S', e))
include hok hearly h

/-- A call of `load_internal`: it does nothing, or fails while it plans, or reads what it has
planned. -/
theorem loadInternal_cases :
    (R.needLoad S = false ∧ S' = S ∧ e = none) ∨ (R.needLoad S = true ∧ ∃ S1, Planned R S S1 ∧
      (S' = S1 ∧ e ≠ none ∨ R.allCgsHaveData S1 = true ∧ Fetched R S1 S' ∧
        (e = none → ∀ i < R.size, (S'.cg i).loaded = []))) := by
  unfold loadInternal at h
  cases hneed : R.needLoad S with
  | false =>
    rw [hneed] at h
    cases h
    exact .inl ⟨rfl, rfl, rfl⟩
  | true =>
    refine .inr ⟨rfl, ?_⟩
    rw [hneed, if_neg (by simp)] at h
    dsimp only at h
    have hok0 : R.Ok { S with memoryUsed := 0 } := hok
    rcases hplan : R.plan heap io R.planFuel
      ((range R.size).flatMap (R.heapEntry { S with memoryUsed := 0 })) false
      { S with memoryUsed := 0 } with ⟨S1, e1⟩
    rw [hplan] at h
    have hplanned := plan_planned hok0 hplan
    refine ⟨S1, ⟨hplanned.ok, hplanned.rbs_eq, hplanned.read_eq, hplanned.currentOffset_eq⟩, ?_⟩
    cases e1 with
    | some e1 =>
      cases h
      exact .inl ⟨rfl, by simp⟩
    | none =>
      have hdata :=
        plan_done (remaining_add_length_le _) (covers_heapEntries _) (heapEntries_lt _) hplan
      obtain ⟨hfetched, hall⟩ := execute_fetched hplanned.ok
        (hearly.mono fun i => (hplanned.read_eq i).ge) h
      exact .inr ⟨hdata, hfetched, fun he i hi => hall he i (mem_range.mpr hi)⟩

theorem loadInternal_kept : Kept R S S' := by
  obtain ⟨-, rfl, -⟩ | ⟨-, S1, hplanned, ⟨rfl, -⟩ | ⟨-, hfetched, -⟩⟩ :=
    loadInternal_cases hok hearly h
  · exact .refl hok
  · exact hplanned.kept
  · exact hplanned.kept.trans (hfetched.kept hplanned.ok)

end

variable (R heap) in
theorem loadInternal_noFailure (S : State V) : (R.loadInternal heap .noFailure S).2 = none := by
  unfold loadInternal
  split_ifs
  · rfl
  · dsimp only
    rcases hplan : R.plan heap .noFailure R.planFuel
      ((range R.size).flatMap (R.heapEntry { S with memoryUsed := 0 })) false
      { S with memoryUsed := 0 } with ⟨S1, e1⟩
    have hnone := congrArg Prod.snd hplan
    rw [plan_noFailure] at hnone
    obtain rfl : none = e1 := hnone
    exact execute_noFailure _ _

theorem fetchedAt_ne_nil (hp : R.predicate = false) {c : ℕ} (hc : c < R.numberOfChunks i) :
    R.fetchedAt i c ≠ [] := by
  rw [fetchedAt, getElem?_eq_getElem hc]
  simp [fetched, hp]

/-- **What a round achieves**: after a call that does not fail, from a state that is not stalled, a
group without a queued batch has nothing planned and, without a predicate, nothing left. -/
theorem loadInternal_ready (hok : R.Ok S) (hearly : R.EarlyFailures io S) (hstalled : ¬ R.Stalled S)
    (h : R.loadInternal heap io S = (S', none)) : R.Ready S' := by
  obtain ⟨hneed, rfl, -⟩ | ⟨-, S1, hplanned, ⟨-, he⟩ | ⟨hdata, hfetched, hall⟩⟩ :=
    loadInternal_cases hok hearly h
  · intro i hi hrbs
    refine ⟨by_contra fun hloaded => hstalled ⟨hneed, i, hi, hrbs, hloaded⟩, fun _ => ?_⟩
    by_contra hlt
    have := mem_needLoad.mpr ⟨i, hi, hrbs, not_le.mp hlt⟩
    rw [hneed] at this
    cases this
  · exact absurd rfl he
  · intro i hi hrbs
    refine ⟨hall rfl i hi, fun hp => ?_⟩
    -- nothing was queued for the group before the round, and nothing was planned in it
    obtain ⟨hrbs1, hloaded1, hidx⟩ : (S1.cg i).rbs = [] ∧ (S1.cg i).loaded = [] ∧
        (S'.cg i).chunkIndex = (S1.cg i).chunkIndex := by
      obtain hsame | hf := hfetched.cg i
      · rw [hsame] at hrbs
        exact ⟨hrbs, by rw [← hsame, hall rfl i hi], by rw [hsame]⟩
      · rw [hf] at hrbs
        obtain ⟨hrbs, hflat⟩ := append_eq_nil_iff.mp hrbs
        refine ⟨hrbs, eq_nil_iff_forall_not_mem.mpr fun c hc => ?_, by rw [hf]; rfl⟩
        refine fetchedAt_ne_nil hp ?_ (flatMap_eq_nil_iff.mp hflat c hc)
        have hrange := (hplanned.ok i).loaded_eq
        rw [hrange, mem_range'_1] at hc
        have := (hplanned.ok i).length_loaded_le
        have := (hplanned.ok i).chunkIndex_le
        unfold Cursor.read at hc
        omega
    have hi' := all_eq_true.mp hdata i (mem_range.mpr hi)
    rw [hidx]
    simpa [hrbs1, hloaded1] using hi'

/-- A call that loads reads a chunk, unless it fails. -/
theorem loadInternal_progress (hok : R.Ok S) (hearly : R.EarlyFailures io S)
    (hneed : R.needLoad S = true) (h : R.loadInternal heap io S = (S', none)) :
    ∃ i < R.size, (S.cg i).read < (S'.cg i).read := by
  obtain ⟨hnot, -⟩ | ⟨-, S1, hplanned, ⟨-, he⟩ | ⟨hdata, hfetched, hall⟩⟩ :=
    loadInternal_cases hok hearly h
  · rw [hneed] at hnot
    cases hnot
  · exact absurd rfl he
  · obtain ⟨i, hi, hrbs, hlt⟩ := mem_needLoad.mp hneed
    refine ⟨i, hi, ?_⟩
    have hread := hplanned.read_eq i
    have hlen := (hplanned.ok i).length_loaded_le
    have hpos : 0 < (S1.cg i).loaded.length := by
      apply length_pos_of_ne_nil
      intro hnil
      have hi' := all_eq_true.mp hdata i (mem_range.mpr hi)
      have hle : R.numberOfChunks i ≤ (S1.cg i).chunkIndex := by
        simpa [hplanned.rbs_eq, hrbs, hnil] using hi'
      simp only [Cursor.read, hnil, length_nil] at hread
      omega
    have hf : S'.cg i = R.fetchAll i (S1.cg i) := by
      obtain hsame | hf := hfetched.cg i
      · have := hall rfl i hi
        rw [hsame] at this
        rw [this] at hpos
        cases hpos
      · exact hf
    rw [hf]
    simp only [fetchAll, Cursor.read, length_nil] at hread ⊢
    omega

end PackedReader

end MilvusStorage.Reader
