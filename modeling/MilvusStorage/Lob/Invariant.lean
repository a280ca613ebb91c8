import Mathlib.Algebra.BigOperators.Group.List.Basic
import Mathlib.Data.List.ModifyLast
import MilvusStorage.Foundations.AppendOnly
import MilvusStorage.Lob.Writer

/-!
# What the writer of large objects keeps

The files of a writer are append-only: `c` gives the rows of each file, those that are still pending
included. A `Healthy` writer has stored the rows of the files it has closed, and the rows of the
current file are those of the Vortex writer followed by the pending ones. When a call to the Vortex
library fails, the writer is `Broken` from then on, and `Close` never returns OK again. All this is
so as long as no UUID `Repeats`. When a `Write` fails before it calls the library, its rows are
lost, and the writer is `Lossy`.

`lag` is the number of rows that the statistics do not count yet. If `guarded` is set, no file has
more rows than there are offsets.
-/

namespace MilvusStorage.Lob

open List Command AppendOnly Function

/-- The file is closed, and its rows are stored. -/
def Stored (config : LobColumnConfig) (c : UUID → List Bytes) (files : String → Option (List Bytes))
    (e : UUID × LobFileResult) : Prop :=
  e.2.path = lobFilePath config.lobBasePath e.1 ∧ e.2.totalRows = (c e.1).length ∧
    files e.2.path = some (c e.1)

/-- The Vortex writer of the current file, if there is one, and the files created so far. -/
def Current (config : LobColumnConfig) (c : UUID → List Bytes)
    (finished : List (UUID × LobFileResult)) (w : LobColumnWriter) : Prop :=
  match w.vortexWriter with
  | none => w.pendingBuilder.values = [] ∧ c w.currentFileId = [] ∧
      w.createdFiles = finished.map Prod.snd
  | some vx => vx.closed = false ∧ vx.filePath = lobFilePath config.lobBasePath w.currentFileId ∧
      vx.rows ++ w.pendingBuilder.values = c w.currentFileId ∧
      w.createdFiles = finished.map Prod.snd ++ [⟨vx.filePath, 0, 0, 0⟩]

section Invariant

variable (env : Environment) (config : LobColumnConfig) (guarded : Prop)

structure Healthy (c : UUID → List Bytes) (finished : List (UUID × LobFileResult)) (lag : ℕ)
    (w : LobColumnWriter) : Prop where
  closed_eq : w.closed = false
  distinct : Set.InjOn env.uuid (Set.Iio w.uuidCount)
  current : ∃ n, w.uuidCount = n + 1 ∧ w.currentFileId = env.uuid n
  rows_eq : w.currentFileRows = (c w.currentFileId).length
  stored : ∀ e ∈ finished, Stored config c w.files e
  generated : ∀ e ∈ finished, ∃ n, n + 1 < w.uuidCount ∧ e.1 = env.uuid n
  content_eq_nil : ∀ id, id ≠ w.currentFileId → id ∉ finished.map Prod.fst → c id = []
  counted : (finished.map fun e => e.2.totalRows).sum + w.currentFileRows =
    w.stats.lobEntries + lag
  bounded : guarded → ∀ id, (c id).length ≤ 2 ^ 31
  vortex : Current config c finished w

/-- No file is open. -/
structure Settled (c : UUID → List Bytes) (finished : List (UUID × LobFileResult)) (lag : ℕ)
    (w : LobColumnWriter) : Prop where
  vortexWriter_eq : w.vortexWriter = none
  values_eq : w.pendingBuilder.values = []
  createdFiles_eq : w.createdFiles = finished.map Prod.snd
  stored : ∀ e ∈ finished, Stored config c w.files e
  generated : ∀ e ∈ finished, ∃ n < w.uuidCount, e.1 = env.uuid n
  content_eq_nil : ∀ id, id ∉ finished.map Prod.fst → c id = []
  counted : (finished.map fun e => e.2.totalRows).sum = w.stats.lobEntries + lag
  bounded : guarded → ∀ id, (c id).length ≤ 2 ^ 31

/-- A UUID has been generated twice. -/
def Repeats (w : LobColumnWriter) : Prop := ¬ Set.InjOn env.uuid (Set.Iio w.uuidCount)

/-- A call to the Vortex library has failed. -/
def Broken (w : LobColumnWriter) : Prop :=
  w.closed = false ∧ ∃ vx, w.vortexWriter = some vx ∧ vx.closed = true

/-- A `Write` may have failed before it called the library. -/
def Lossy (w : LobColumnWriter) : Prop := ∃ n < w.ioCount, env.exportArray n ≠ none

/-- A call to the Vortex writer has failed. -/
def Failed (w : LobColumnWriter) : Prop := Broken w ∨ Lossy env w

end Invariant

section Specs

variable {env : Environment} {config : LobColumnConfig} {guarded : Prop}
  {c : UUID → List Bytes} {finished : List (UUID × LobFileResult)} {lag : ℕ}

theorem initial_healthy (env : Environment) (config : LobColumnConfig) (guarded : Prop) :
    Healthy env config guarded (fun _ => []) [] 0 (.create env) := by
  refine ⟨rfl, ?_, ⟨0, rfl, rfl⟩, rfl, ?_, ?_, fun _ _ _ => rfl, rfl, fun _ _ => Nat.zero_le _,
    rfl, rfl, rfl⟩
  · intro m hm n hn _
    rw [Nat.lt_one_iff.mp hm, Nat.lt_one_iff.mp hn]
  · exact forall_mem_nil _
  · exact forall_mem_nil _

variable {w w' : LobColumnWriter}

/-- Only some fields matter. -/
theorem Healthy.of_eq (h : Healthy env config guarded c finished lag w)
    (hclosed : w'.closed = w.closed) (huuid : w'.uuidCount = w.uuidCount)
    (hid : w'.currentFileId = w.currentFileId) (hrows : w'.currentFileRows = w.currentFileRows)
    (hfiles : w'.files = w.files) (hstats : w'.stats.lobEntries = w.stats.lobEntries)
    (hvortex : w'.vortexWriter = w.vortexWriter) (hpending : w'.pendingBuilder = w.pendingBuilder)
    (hcreated : w'.createdFiles = w.createdFiles) :
    Healthy env config guarded c finished lag w' := by
  obtain ⟨h1, h0, h2, h3, h4, h₅, h₆, h₇, h₈, h₉⟩ := h
  refine ⟨?_, ?_, ?_, ?_, ?_, ?_, ?_, ?_, h₈, ?_⟩
  · rwa [hclosed]
  · rwa [huuid]
  · rwa [huuid, hid]
  · rwa [hrows, hid]
  · rwa [hfiles]
  · rwa [huuid]
  · rwa [hid]
  · rwa [hrows, hstats]
  · unfold Current at h₉ ⊢
    rwa [hvortex, hpending, hid, hcreated]

theorem Healthy.ne_current (h : Healthy env config guarded c finished lag w)
    {e : UUID × LobFileResult} (he : e ∈ finished) : e.1 ≠ w.currentFileId := by
  obtain ⟨n, hcount, hid⟩ := h.current
  obtain ⟨m, hm, hid'⟩ := h.generated e he
  rw [hid, hid']
  intro heq
  have := h.distinct (Set.mem_Iio.mpr (by omega)) (Set.mem_Iio.mpr (by omega)) heq
  omega

/-! ## The environment -/

/-- The writer after some more calls. -/
def Later (w w' : LobColumnWriter) : Prop := ∃ n, w' = { w with ioCount := n }

theorem Healthy.later (h : Healthy env config guarded c finished lag w) (hlater : Later w w') :
    Healthy env config guarded c finished lag w' := by
  obtain ⟨n, rfl⟩ := hlater
  exact h.of_eq rfl rfl rfl rfl rfl rfl rfl rfl rfl

theorem fileSystemCall_spec (w : LobColumnWriter) :
    Spec (Later w) (fileSystemCall env) (fun _ => Later w) (fun _ => Later w) := by
  rintro _ ⟨n, rfl⟩
  rw [fileSystemCall]
  cases env.io n with
  | some s =>
    refine ⟨fun w' a ha => ?_, fun w' e he => ?_⟩
    · cases ha
    · cases he
      exact ⟨_, rfl⟩
  | none =>
    refine ⟨fun w' a ha => ?_, fun w' e he => ?_⟩
    · cases ha
      exact ⟨_, rfl⟩
    · cases he

theorem createParentDir_spec (w : LobColumnWriter) :
    Spec (Later w) (createParentDir env) (fun _ => Later w) (fun _ => Later w) :=
  spec_ite (fun _ => fileSystemCall_spec w) fun _ => spec_pure fun _ h => h

theorem vortexOpen_spec (w : LobColumnWriter) (filePath : String) :
    Spec (Later w) (vortexOpen env filePath)
      (fun _ w' => ∃ n, w' = { w with
        ioCount := n
        vortexWriter := some { filePath }
        files := update w.files filePath none
        opened := w.opened ++ [filePath] })
      (fun _ => Later w) := by
  refine (fileSystemCall_spec w).bind fun _ => spec_modify ?_
  rintro _ ⟨n, rfl⟩
  exact ⟨n, rfl⟩

variable {vx : VortexFileWriter}

/-- A call to a Vortex writer none of whose calls has failed. -/
theorem vortexCall_spec {early : ℕ → Option Status}
    {effect : VortexFileWriter → LobColumnWriter → LobColumnWriter}
    (hclosed : w.closed = false) (hvx : w.vortexWriter = some vx) (hopen : vx.closed = false)
    (hearly : ∀ n, early n ≠ none → env.exportArray n ≠ none) :
    Spec (· = w) (vortexCall env early effect)
      (fun _ => (· = effect vx { w with ioCount := w.ioCount + 1 })) (fun _ => Failed env) := by
  rintro w rfl
  unfold vortexCall
  split
  · next hnone =>
    rw [hnone] at hvx
    cases hvx
  · next vx' hsome =>
    cases hvx.symm.trans hsome
    rw [if_neg (by rw [hopen]; decide)]
    cases hexport : early w.ioCount with
    | some s =>
      refine ⟨fun w' a ha => ?_, fun w' e he => ?_⟩
      · cases ha
      · cases he
        exact .inr ⟨w.ioCount, Nat.lt_succ_self _, hearly _ (by rw [hexport]; simp)⟩
    | none =>
      cases env.io w.ioCount with
      | some s =>
        refine ⟨fun w' a ha => ?_, fun w' e he => ?_⟩
        · cases ha
        · cases he
          exact .inl ⟨hclosed, _, rfl, rfl⟩
      | none =>
        refine ⟨fun w' a ha => ?_, fun w' e he => ?_⟩
        · cases ha
          rfl
        · cases he

/-! ## Files -/

section

variable (h : Healthy env config guarded c finished lag w)

include h

/-- A file is opened for the current id. -/
theorem Healthy.openFile (hnone : w.vortexWriter = none) {n : ℕ} {opened : List String}
    {stats : LobColumnWriterStats}
    (hstats : stats.lobEntries = w.stats.lobEntries) :
    Healthy env config guarded c finished lag { w with
      ioCount := n
      opened := opened
      vortexWriter := some { filePath := lobFilePath config.lobBasePath w.currentFileId }
      files := update w.files (lobFilePath config.lobBasePath w.currentFileId) none
      createdFiles := w.createdFiles ++ [⟨lobFilePath config.lobBasePath w.currentFileId, 0, 0, 0⟩]
      stats := stats } := by
  have hvortex := h.vortex
  rw [Current, hnone] at hvortex
  obtain ⟨hpending, hnil, hcreated⟩ := hvortex
  refine ⟨h.closed_eq, h.distinct, h.current, h.rows_eq, fun e he => ?_, h.generated,
    h.content_eq_nil, ?_, h.bounded, rfl, rfl, ?_, ?_⟩
  · obtain ⟨hpath, htotal, hfile⟩ := h.stored e he
    refine ⟨hpath, htotal, (update_of_ne ?_ ..).trans hfile⟩
    rw [hpath]
    exact fun heq => h.ne_current he (lobFilePath_injective _ heq)
  · rw [hstats]
    exact h.counted
  · simp [hpending, hnil]
  · rw [hcreated]

/-- Either no file is open, or the Vortex writer of the current one works. -/
theorem Healthy.open_cases :
    (w.vortexWriter = none ∧ w.pendingBuilder.values = [] ∧ c w.currentFileId = [] ∧
      w.createdFiles = finished.map Prod.snd) ∨
    ∃ vx, w.vortexWriter = some vx ∧ vx.closed = false ∧
      vx.filePath = lobFilePath config.lobBasePath w.currentFileId ∧
      vx.rows ++ w.pendingBuilder.values = c w.currentFileId ∧
      w.createdFiles = finished.map Prod.snd ++ [⟨vx.filePath, 0, 0, 0⟩] := by
  have hvortex := h.vortex
  rw [Current] at hvortex
  cases hvx : w.vortexWriter with
  | none =>
    rw [hvx] at hvortex
    exact .inl ⟨rfl, hvortex⟩
  | some vx =>
    rw [hvx] at hvortex
    exact .inr ⟨vx, rfl, hvortex⟩

theorem ensureVortexWriter_spec : Spec (· = w) (ensureVortexWriter env config)
      (fun _ w' => Healthy env config guarded c finished lag w' ∧ w'.vortexWriter.isSome ∧
        w'.pendingBuilder = w.pendingBuilder ∧ w'.currentFileRows = w.currentFileRows)
      (fun _ => Healthy env config guarded c finished lag) := by
  refine spec_get_bind fun w' hw => spec_ite (fun hsome => ?_) fun hnone => ?_
  · apply spec_pure
    rintro _ rfl
    subst hw
    exact ⟨h, hsome, rfl, rfl⟩
  · subst hw
    have hlater : ∀ w1, Later w' w1 → Healthy env config guarded c finished lag w1 :=
      fun w1 => h.later
    refine ((createParentDir_spec w').imp (fun w1 hw => ⟨_, hw⟩) (fun _ _ => id)
      fun _ => hlater).bind fun _ => ((vortexOpen_spec w' _).onError
      fun _ => hlater).bind fun _ => spec_modify ?_
    rintro _ ⟨n, rfl⟩
    exact ⟨h.openFile (Option.not_isSome_iff_eq_none.mp hnone) rfl, rfl, rfl, rfl⟩

end

/-- What is pending is written to the Vortex file. -/
theorem flushPending_spec : Spec (Healthy env config guarded c finished lag) (flushPending env)
      (fun _ w => Healthy env config guarded c finished lag w ∧ w.pendingBuilder.values = [])
      (fun _ => Failed env) := by
  refine spec_get_bind fun w h => spec_ite (fun hnil => ?_) fun hne => ?_
  · apply spec_pure
    rintro _ rfl
    exact ⟨h, hnil⟩
  · obtain ⟨-, hnil, -⟩ | ⟨vx, hvx, hopen, hpath, hrows, hcreated⟩ := h.open_cases
    · exact absurd hnil hne
    have hflushed : Spec (fun w' => Healthy env config guarded c finished lag w' ∧
        w'.vortexWriter.isSome ∧ w'.pendingBuilder.values = []) (vortexFlush env)
        (fun _ w' => Healthy env config guarded c finished lag w' ∧ w'.pendingBuilder.values = [])
        (fun _ => Failed env) := by
      refine spec_of_forall fun w' ⟨h', hsome, hnil⟩ => ?_
      obtain ⟨hnone, -⟩ | ⟨vx, hvx, hopen, -⟩ := h'.open_cases
      · rw [hnone] at hsome
        cases hsome
      · refine (vortexCall_spec h'.closed_eq hvx hopen fun _ h => absurd rfl h).post ?_
          fun _ _ => id
        rintro _ _ rfl
        exact ⟨h'.later ⟨_, rfl⟩, hnil⟩
    apply spec_modify_bind
    rintro w rfl
    refine ((vortexCall_spec (w := { w with pendingBuilder := {} }) h.closed_eq hvx hopen
      fun _ => id).imp
      (fun _ => id) ?_ fun _ _ => id).bind fun _ => hflushed.bind fun _ => spec_modify ?_
    · rintro _ _ rfl
      refine ⟨?_, rfl, rfl⟩
      refine ⟨h.closed_eq, h.distinct, h.current, h.rows_eq, h.stored, h.generated,
        h.content_eq_nil, h.counted, h.bounded, hopen, hpath, ?_, hcreated⟩
      rwa [append_nil]
    · rintro w' ⟨h', hnil⟩
      exact ⟨h'.of_eq rfl rfl rfl rfl rfl rfl rfl rfl rfl, hnil⟩

/-- The file is closed with the Vortex writer. -/
theorem Healthy.closeFile (h : Healthy env config guarded c finished lag w)
    (hpath : vx.filePath = lobFilePath config.lobBasePath w.currentFileId)
    (hrows : vx.rows = c w.currentFileId) (result : LobFileResult)
    (hres : result.path = vx.filePath ∧ result.totalRows = w.currentFileRows)
    (hfiles : w'.files = update w.files vx.filePath (some vx.rows)) :
    (∀ e ∈ finished ++ [(w.currentFileId, result)], Stored config c w'.files e) ∧
      (∀ e ∈ finished ++ [(w.currentFileId, result)], ∃ n < w.uuidCount, e.1 = env.uuid n) ∧
      (∀ id, id ∉ (finished ++ [(w.currentFileId, result)]).map Prod.fst → c id = []) ∧
      ((finished ++ [(w.currentFileId, result)]).map fun e => e.2.totalRows).sum =
        w.stats.lobEntries + lag := by
  obtain ⟨hpath', htotal⟩ := hres
  refine ⟨fun e he => ?_, fun e he => ?_, fun id hid => ?_, ?_⟩
  · rw [hfiles]
    obtain he | he := mem_append.mp he
    · obtain ⟨hp, ht, hf⟩ := h.stored e he
      refine ⟨hp, ht, (update_of_ne ?_ ..).trans hf⟩
      rw [hp, hpath]
      exact fun heq => h.ne_current he (lobFilePath_injective _ heq)
    · obtain rfl := mem_singleton.mp he
      refine ⟨hpath'.trans hpath, htotal.trans h.rows_eq, ?_⟩
      rw [hpath', update_self, hrows]
  · obtain he | he := mem_append.mp he
    · obtain ⟨n, hn, hid⟩ := h.generated e he
      exact ⟨n, by omega, hid⟩
    · obtain rfl := mem_singleton.mp he
      obtain ⟨n, hn, hid⟩ := h.current
      exact ⟨n, by omega, hid⟩
  · rw [map_append, mem_append, not_or] at hid
    exact h.content_eq_nil id (fun heq => hid.2 (by rw [heq]; exact mem_singleton_self _)) hid.1
  · simp [← h.counted, ← htotal]

theorem closeCurrentFile_spec :
    Spec (fun w => Healthy env config guarded c finished lag w ∧ w.pendingBuilder.values = [])
      (closeCurrentFile env)
      (fun _ w => w.closed = false ∧ ∃ finished', Settled env config guarded c finished' lag w)
      (fun _ => Failed env) := by
  refine spec_get_bind fun w ⟨h, hnil⟩ => ?_
  obtain ⟨hnone, -, hempty, hcreated⟩ | ⟨vx, hvx, hopen, hpath, hrows, hcreated⟩ := h.open_cases
  · rw [hnone]
    apply spec_pure
    rintro w rfl
    refine ⟨h.closed_eq, finished, hnone, hnil, hcreated, h.stored, fun e he => ?_,
      fun id hid => ?_, ?_, h.bounded⟩
    · obtain ⟨n, hn, hid⟩ := h.generated e he
      exact ⟨n, by omega, hid⟩
    · by_cases hcur : id = w.currentFileId
      · rw [hcur, hempty]
      · exact h.content_eq_nil id hcur hid
    · have hcounted := h.counted
      rwa [h.rows_eq, hempty] at hcounted
  · rw [hvx]
    rw [hnil, append_nil] at hrows
    refine (vortexCall_spec h.closed_eq hvx hopen fun _ h => absurd rfl h).bind
      fun _ => spec_modify ?_
    rintro _ rfl
    obtain ⟨hstored, hgenerated, hcontent, hcounted⟩ := h.closeFile hpath hrows
      ⟨vx.filePath, w.currentFileRows, w.currentFileRows, w.currentFileBytes⟩ ⟨rfl, rfl⟩
      (rfl : { w with files := update w.files vx.filePath (some vx.rows) }.files = _)
    refine ⟨h.closed_eq, _, rfl, hnil, ?_, hstored, hgenerated, hcontent, hcounted, h.bounded⟩
    simp [hcreated, modifyLast_concat]

theorem maybeRollFile_spec :
    Spec (fun w => Healthy env config guarded c finished lag w ∧ w.pendingBuilder.values = [])
      (maybeRollFile env config)
      (fun _ w => Repeats env w ∨ ∃ finished', Healthy env config guarded c finished' lag w)
      (fun _ => Failed env) := by
  refine spec_get_bind fun w ⟨h, hnil⟩ => spec_ite (fun _ => spec_pure ?_) fun _ => ?_
  · rintro w rfl
    exact .inr ⟨finished, h⟩
  · refine (closeCurrentFile_spec.from ⟨h, hnil⟩).bind fun _ => spec_modify ?_
    rintro w ⟨hclosed, finished', hs⟩
    by_cases hdist : Set.InjOn env.uuid (Set.Iio (w.uuidCount + 1))
    swap
    · exact .inl hdist
    have hfresh : env.uuid w.uuidCount ∉ finished'.map Prod.fst := by
      intro hmem
      obtain ⟨e, he, hid⟩ := mem_map.mp hmem
      obtain ⟨n, hn, hid'⟩ := hs.generated e he
      have := hdist (Set.mem_Iio.mpr (by omega)) (Set.mem_Iio.mpr (by omega)) (hid'.symm.trans hid)
      omega
    have hempty := hs.content_eq_nil _ hfresh
    refine .inr ⟨finished', hclosed, hdist, ⟨_, rfl, rfl⟩, ?_, hs.stored, fun e he => ?_,
      fun id _ => hs.content_eq_nil id, hs.counted, hs.bounded, ?_⟩
    · rw [hempty, length_nil]
    · obtain ⟨n, hn, hid⟩ := hs.generated e he
      exact ⟨n, Nat.succ_lt_succ hn, hid⟩
    · rw [hs.vortexWriter_eq]
      exact ⟨hs.values_eq, hempty, hs.createdFiles_eq⟩

theorem flushFull_spec : Spec (Healthy env config guarded c finished lag) (flushFull env config)
      (fun _ w => Repeats env w ∨ ∃ finished', Healthy env config guarded c finished' lag w)
      (fun _ => Failed env) := by
  refine spec_get_bind fun w h => spec_ite (fun _ => ?_) fun _ => spec_pure ?_
  · exact (flushPending_spec.from h).bind fun _ => maybeRollFile_spec
  · rintro w rfl
    exact .inr ⟨finished, h⟩

end Specs

end MilvusStorage.Lob
