import MilvusStorage.Lob.Invariant

/-!
# What stays once it has happened

A Vortex writer after an error of the library stays closed, and the writer of large objects keeps
it: every later call that needs the Vortex writer fails too. So a `Broken` writer stays `Broken`
(`stable_broken`), and `Close` does not return OK (`close_broken`). UUIDs, calls and files only
become more (`stable_of_grown`): a UUID that `Repeats` has been generated twice for good
(`stable_repeats`), and a `Lossy` writer stays so (`stable_lossy`). The list of the files is that of
the files that have been opened (`stable_recorded`).
-/

namespace MilvusStorage.Lob

open List Command

variable {env : Environment} {config : LobColumnConfig}

/-- The parts of the calls in which the Vortex writer, the UUIDs or the files change keep `P`. -/
structure Stable (env : Environment) (config : LobColumnConfig) (P : LobColumnWriter → Prop) :
    Prop where
  of_eq : ∀ w w', w'.closed = w.closed → w'.vortexWriter = w.vortexWriter →
    w'.toWorld = w.toWorld → w'.createdFiles = w.createdFiles → P w → P w'
  ensureVortexWriter : Keeps P (ensureVortexWriter env config)
  flushPending : Keeps P (flushPending env)
  maybeRollFile : Keeps P (maybeRollFile env config)
  close : Keeps P (close env)

namespace Stable

variable {P : LobColumnWriter → Prop} (h : Stable env config P)

include h

variable {g : LobColumnWriter → LobColumnWriter}

theorem modify (hg : ∀ w, (g w).closed = w.closed ∧
    (g w).vortexWriter = w.vortexWriter ∧ (g w).toWorld = w.toWorld ∧
      (g w).createdFiles = w.createdFiles) :
    Keeps P (modify g : Step Unit) :=
  keeps_modify fun w hw =>
    h.of_eq w (g w) (hg w).1 (hg w).2.1 (hg w).2.2.1 (hg w).2.2.2 hw

theorem pendingAppend (data : Bytes) : Keeps P (pendingAppend env data) := by
  refine keeps_get.bind fun w => ?_
  cases w.pendingBuilder.append data (toSigned 32 data.length) with
  | none =>
    exact keeps_get.bind fun _ => Keeps.bind (h.modify fun _ => ⟨rfl, rfl, rfl, rfl⟩) fun _ =>
      keeps_fail _
  | some builder => exact h.modify fun _ => ⟨rfl, rfl, rfl, rfl⟩

theorem appendLob (data : Bytes) : Keeps P (appendLob env config data) := by
  refine Keeps.bind h.ensureVortexWriter fun _ => Keeps.bind keeps_get fun w => ?_
  refine Keeps.bind (h.pendingAppend data) fun _ => ?_
  exact Keeps.bind (h.modify fun _ => ⟨rfl, rfl, rfl, rfl⟩) fun _ => keeps_pure _

theorem flushFull : Keeps P (flushFull env config) :=
  keeps_get.bind fun _ => Keeps.ite (h.flushPending.bind fun _ => h.maybeRollFile) (keeps_pure ())

/-- A value is written out of line. -/
theorem lob (data : Bytes)
    (hg : ∀ w, (g w).closed = w.closed ∧ (g w).vortexWriter = w.vortexWriter ∧
      (g w).toWorld = w.toWorld ∧ (g w).createdFiles = w.createdFiles) :
    Keeps P (do
      let ref ← Lob.appendLob env config data
      Command.modify g
      Lob.flushFull env config
      return ref) :=
  (h.appendLob data).bind fun _ => (h.modify hg).bind fun _ =>
    h.flushFull.bind fun _ => keeps_pure _

theorem writeData (data : Bytes) : Keeps P (writeData env config data) := by
  refine keeps_get.bind fun _ => Keeps.ite (keeps_fail _) (Keeps.ite ?_ ?_)
  · exact Keeps.bind (h.modify fun _ => ⟨rfl, rfl, rfl, rfl⟩) fun _ => keeps_pure _
  · exact h.lob data fun _ => ⟨rfl, rfl, rfl, rfl⟩

theorem writeItem (data : Bytes) : Keeps P (writeItem env config data) := by
  refine Keeps.bind (Keeps.ite ?_ ?_) fun _ =>
    Keeps.bind (h.modify fun _ => ⟨rfl, rfl, rfl, rfl⟩) fun _ => keeps_pure _
  · exact Keeps.bind (h.modify fun _ => ⟨rfl, rfl, rfl, rfl⟩) fun _ => keeps_pure _
  · exact h.lob data fun _ => ⟨rfl, rfl, rfl, rfl⟩

theorem writeArrowValue (builder : BinaryBuilder) (value : Option Bytes) :
    Keeps P (writeArrowValue env config builder value) := by
  cases value with
  | none => exact Keeps.bind (h.modify fun _ => ⟨rfl, rfl, rfl, rfl⟩) fun _ => keeps_pure _
  | some data =>
    exact (h.writeData data).bind fun _ => (keeps_ofOption _ _).bind fun _ => keeps_pure _

/-- Every call keeps `P`. -/
theorem references (call : Call) : Keeps P (call.references env config) := by
  cases call with
  | writeData data => exact (h.writeData data).bind fun _ => keeps_pure _
  | writeBatchData items =>
    exact keeps_get.bind fun _ => Keeps.ite (keeps_fail _) <|
      (keeps_forEach h.writeItem items).bind fun _ =>
        Keeps.bind (h.modify fun _ => ⟨rfl, rfl, rfl, rfl⟩) fun _ => keeps_pure _
  | writeArrowArray dataArray =>
    exact Keeps.bind (keeps_get.bind fun _ => Keeps.ite (keeps_fail _) <|
      keeps_forEachFrom h.writeArrowValue {} dataArray) fun _ => keeps_pure _
  | flush =>
    exact Keeps.bind (keeps_get.bind fun _ => Keeps.ite (keeps_fail _) <|
      h.flushPending.bind fun _ => h.maybeRollFile) fun _ => keeps_pure _
  | close => exact h.close.bind fun _ => keeps_pure _

end Stable

/-! ## Failures of the Vortex writer -/

theorem Broken.isSome {w : LobColumnWriter} (h : Broken w) : w.vortexWriter.isSome := by
  obtain ⟨-, vx, hvx, -⟩ := h
  simp [hvx]

variable {early : ℕ → Option Status} {effect : VortexFileWriter → LobColumnWriter → LobColumnWriter}

/-- A call to the Vortex writer fails. -/
theorem vortexCall_broken :
    Spec Broken (vortexCall env early effect) (fun _ _ => False) (fun _ => Broken) := by
  intro w h
  have hbroken := h
  obtain ⟨-, vx, hvx, hclosed⟩ := h
  have hrun : ∃ e, vortexCall env early effect w = (w, .error e) := by
    simp [vortexCall, hvx, hclosed]
  obtain ⟨e, hrun⟩ := hrun
  rw [hrun]
  refine ⟨fun w' a ha => ?_, fun w' e' he => ?_⟩
  · cases ha
  · cases he
    exact hbroken

theorem flushPending_broken : Keeps Broken (flushPending env) := by
  refine keeps_get.bind fun w => Keeps.ite (keeps_pure ()) ?_
  exact Keeps.bind (keeps_modify fun _ => id) fun _ => vortexCall_broken.bind_fails

theorem closeCurrentFile_broken :
    Spec Broken (closeCurrentFile env) (fun _ _ => False) (fun _ => Broken) := by
  refine spec_get_bind fun w h => spec_ite (fun hnone => ?_) fun _ => ?_
  · rw [Option.isNone_iff_eq_none] at hnone
    have := h.isSome
    simp [hnone] at this
  · exact (vortexCall_broken.from h).bind_fails

theorem close_broken : Spec Broken (close env) (fun _ _ => False) (fun _ => Broken) := by
  refine spec_get_bind fun w h => spec_ite (fun _ => spec_fail ?_) fun _ => ?_
  · rintro _ rfl
    exact h
  · exact (flushPending_broken.from h).bind fun _ => closeCurrentFile_broken.bind_fails

theorem stable_broken : Stable env config Broken where
  of_eq w w' hclosed hvx _ _ h := by rwa [Broken, hclosed, hvx]
  ensureVortexWriter := by
    refine spec_get_bind fun w h => spec_ite (fun _ => spec_pure ?_) fun hnone => ?_
    · rintro _ rfl
      exact h
    · exact absurd h.isSome hnone
  flushPending := flushPending_broken
  maybeRollFile :=
    keeps_get.bind fun _ => Keeps.ite (keeps_pure ()) closeCurrentFile_broken.bind_fails
  close := close_broken.post (fun _ _ h => h.elim) fun _ _ h => h

/-! ## What only grows -/

/-- The paths of the files that have been created. -/
def LobColumnWriter.createdPaths (w : LobColumnWriter) : List String :=
  w.createdFiles.map LobFileResult.path

/-- There are as many UUIDs, calls and files as before, or more, and the files are those opened. -/
structure Grown (w w' : LobColumnWriter) : Prop where
  uuidCount_le : w.uuidCount ≤ w'.uuidCount
  ioCount_le : w.ioCount ≤ w'.ioCount
  files : ∃ paths, w'.createdPaths = w.createdPaths ++ paths ∧ w'.opened = w.opened ++ paths

theorem grown_of_eq {w w' : LobColumnWriter} (huuid : w'.uuidCount = w.uuidCount)
    (hio : w.ioCount ≤ w'.ioCount) (hopened : w'.opened = w.opened)
    (hcreated : w'.createdPaths = w.createdPaths) : Grown w w' :=
  ⟨huuid.ge, hio, [], by rw [hcreated, append_nil], by rw [hopened, append_nil]⟩

section Grown

variable {P : LobColumnWriter → Prop} (hP : ∀ w w', Grown w w' → P w → P w')
include hP

theorem keeps_fileSystemCall : Keeps P (fileSystemCall env) := by
  refine keeps_iff.mpr fun w h => hP w _ ?_ h
  rw [fileSystemCall]
  cases env.io w.ioCount <;> exact grown_of_eq rfl (Nat.le_succ _) rfl rfl

theorem keeps_vortexCall (heffect : ∀ vx w, Grown w (effect vx w)) :
    Keeps P (vortexCall env early effect) := by
  refine keeps_iff.mpr fun w h => ?_
  let called : LobColumnWriter := { w with ioCount := w.ioCount + 1 }
  have hcalled : P called := hP w _ (grown_of_eq rfl (Nat.le_succ _) rfl rfl) h
  unfold vortexCall
  split
  · exact h
  · split_ifs
    · exact h
    · split
      · exact hcalled
      · exact hP called _ (grown_of_eq rfl le_rfl rfl rfl) hcalled
      · exact hP called _ (heffect _ _) hcalled

theorem keeps_modify_grown {g : LobColumnWriter → LobColumnWriter} (hg : ∀ w, Grown w (g w)) :
    Keeps P (modify g : Step Unit) :=
  keeps_modify fun w => hP w (g w) (hg w)

theorem keeps_flushPending : Keeps P (flushPending env) := by
  refine keeps_get.bind fun w => Keeps.ite (keeps_pure ()) ?_
  refine Keeps.bind (keeps_modify_grown hP fun _ => grown_of_eq rfl le_rfl rfl rfl) fun _ => ?_
  refine Keeps.bind (keeps_vortexCall hP fun _ _ => grown_of_eq rfl le_rfl rfl rfl) fun _ => ?_
  refine Keeps.bind (keeps_vortexCall hP fun _ _ => grown_of_eq rfl le_rfl rfl rfl) fun _ => ?_
  exact keeps_modify_grown hP fun _ => grown_of_eq rfl le_rfl rfl rfl

omit hP in
/-- The entry of a file is completed when the file is closed. -/
theorem map_path_modifyLast (files : List LobFileResult) (g : LobFileResult → LobFileResult)
    (hg : ∀ f, (g f).path = f.path) :
    (files.modifyLast g).map LobFileResult.path = files.map LobFileResult.path := by
  rcases eq_nil_or_concat files with rfl | ⟨files, file, rfl⟩
  · rfl
  · rw [concat_eq_append, modifyLast_concat, map_append, map_append, map_singleton,
      map_singleton, hg]

theorem keeps_closeCurrentFile : Keeps P (closeCurrentFile env) := by
  refine keeps_get.bind fun w => Keeps.ite (keeps_pure ()) ?_
  refine Keeps.bind (keeps_vortexCall hP fun _ _ => grown_of_eq rfl le_rfl rfl rfl) fun _ => ?_
  exact keeps_modify_grown hP fun w =>
    grown_of_eq rfl le_rfl rfl (map_path_modifyLast _ _ fun _ => rfl)

/-- What holds of all that is grown is stable. -/
theorem stable_of_grown : Stable env config P where
  of_eq w w' _ _ hworld hcreated h := by
    refine hP w w' (grown_of_eq ?_ (le_of_eq ?_) ?_ (congrArg (map LobFileResult.path) hcreated)) h
    · exact congrArg World.uuidCount hworld
    · exact (congrArg World.ioCount hworld).symm
    · exact congrArg World.opened hworld
  ensureVortexWriter := by
    refine keeps_get.bind fun w => Keeps.ite (keeps_pure ()) ?_
    refine Keeps.bind (Keeps.ite (keeps_fileSystemCall hP) (keeps_pure ())) fun _ => ?_
    -- The path is logged when the file is opened, and then recorded.
    let path := lobFilePath config.lobBasePath w.currentFileId
    refine Spec.bind (Q := fun _ w' => ∃ w1, P w1 ∧ w' = { w1 with
      vortexWriter := some { filePath := path }
      files := Function.update w1.files path none
      opened := w1.opened ++ [path] }) ?_ fun _ => spec_modify ?_
    · exact Spec.bind (keeps_fileSystemCall hP) fun _ => spec_modify fun w1 h1 => ⟨w1, h1, rfl⟩
    · rintro _ ⟨w1, h1, rfl⟩
      exact hP w1 _ ⟨le_rfl, le_rfl, [path], map_append, rfl⟩ h1
  flushPending := keeps_flushPending hP
  maybeRollFile := by
    refine keeps_get.bind fun w => Keeps.ite (keeps_pure ()) ?_
    refine Keeps.bind (keeps_closeCurrentFile hP) fun _ => keeps_modify_grown hP fun w => ?_
    exact ⟨Nat.le_succ _, le_rfl, [], (append_nil _).symm, (append_nil _).symm⟩
  close := by
    refine keeps_get.bind fun w => Keeps.ite (keeps_fail _) ?_
    refine Keeps.bind (keeps_flushPending hP) fun _ =>
      Keeps.bind (keeps_closeCurrentFile hP) fun _ => ?_
    exact Keeps.bind (keeps_modify_grown hP fun _ => grown_of_eq rfl le_rfl rfl rfl) fun _ =>
      keeps_get.bind fun _ => keeps_pure _

end Grown

/-- A UUID that has been generated twice stays so. -/
theorem stable_repeats : Stable env config (Repeats env) :=
  stable_of_grown fun _ _ hgrown h hinj => h (hinj.mono (Set.Iio_subset_Iio hgrown.uuidCount_le))

theorem stable_lossy : Stable env config (Lossy env) := by
  refine stable_of_grown fun w w' hgrown h => ?_
  obtain ⟨n, hn, hexport⟩ := h
  exact ⟨n, hn.trans_le hgrown.ioCount_le, hexport⟩

/-- The list has the files that have been opened. -/
def Recorded (w : LobColumnWriter) : Prop := w.createdPaths = w.opened

theorem stable_recorded : Stable env config Recorded := by
  refine stable_of_grown fun w w' hgrown h => ?_
  obtain ⟨paths, hcreated, hopened⟩ := hgrown.files
  exact hcreated.trans (hopened ▸ congrArg (· ++ paths) h)

end MilvusStorage.Lob
