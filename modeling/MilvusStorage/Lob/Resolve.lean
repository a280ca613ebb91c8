import MilvusStorage.Foundations.Runs
import MilvusStorage.Lob.Reader
import MilvusStorage.Lob.Values

/-!
# References resolve

What a writer has returned when it is closed. A sequence of calls is a run of `Session.next`.
-/

namespace MilvusStorage.Lob

open List Command AppendOnly

variable {env : Environment} {config : LobColumnConfig} {guarded : Prop} {c : UUID → List Bytes}
  {finished : List (UUID × LobFileResult)}

/-! ## Calls -/

variable {call : Call} {s s' : Session} {w : LobColumnWriter} {c' : UUID → List Bytes}
  {p : Bytes × Bytes}

/-- A call of a writer that is not closed. -/
theorem references_spec (h : Healthy env config guarded c finished 0 w)
    (hready : call.Each env config (Ready config guarded) w) :
    Spec (· = w) (call.references env config) (fun refs w' => w'.closed = true ∧ call.values = [] ∨
        Wrote env config guarded c call.values refs w')
      (fun _ => Interrupted env config guarded c) := by
  cases call with
  | writeData data =>
    exact (writeData_spec h hready).bind fun ref => spec_pure fun _ hw => .inr hw
  | writeBatchData items =>
    exact (writeBatchData_spec h hready).post (fun _ _ hw => .inr hw) fun _ _ => id
  | writeArrowArray dataArray =>
    exact (writeArrowArray_spec h hready).bind fun refs => spec_pure fun _ hw => .inr hw
  | flush =>
    exact ((flush_spec h).onError fun _ _ hb => .inr fun _ => .inl hb).bind
      fun _ => spec_pure fun _ hw => .inr hw
  | close =>
    exact ((close_spec h).onError fun _ _ hb => .inr fun _ => .inl hb).bind
      fun _ => spec_pure fun _ hw => .inl ⟨hw.1, rfl⟩

/-- All calls of a closed writer fail, and nothing changes. -/
theorem references_closed (h : w.closed = true) (call : Call) :
    ∃ e, call.references env config w = (w, .error e) := by
  cases call with
  | writeData data => exact ⟨writerIsClosed, bind_run_error (by simp [writeData, h])⟩
  | writeBatchData items =>
    exact ⟨writerIsClosed, by simp [Call.references, writeBatchData, h]⟩
  | writeArrowArray dataArray =>
    exact ⟨writerIsClosed, bind_run_error (by simp [writeArrowArray, h])⟩
  | flush => exact ⟨writerIsClosed, bind_run_error (by simp [flush, h])⟩
  | close => exact ⟨_, bind_run_error (by simp [close, h]; rfl)⟩

theorem close_closed {w' : LobColumnWriter} {files : List LobFileResult} (h : w.closed = true) :
    close env w ≠ (w', .ok files) := by
  simp [close, h]

/-! ## Resolving -/

/-- The reference was returned for the value, and the value is at its position. -/
def Kept (c : UUID → List Bytes) (p : Bytes × Bytes) : Prop :=
  ∃ e : Bytes × Option (UUID × ℕ), p = (e.1, reference e) ∧
    ∀ fileId n, e.2 = some (fileId, n) → (c fileId)[n]? = some e.1

theorem Kept.extends (h : Kept c p) (hextends : Extends c c') : Kept c' p := by
  obtain ⟨e, hp, hat⟩ := h
  exact ⟨e, hp, fun fileId n he => hextends.getElem? (hat fileId n he)⟩

theorem Appends.kept {es : List (Bytes × Option (UUID × ℕ))} (h : Appends c es c')
    {e : Bytes × Option (UUID × ℕ)} (he : e ∈ es) :
    Kept c' (e.1, reference e) := by
  refine ⟨e, rfl, fun fileId n hsome => h.getElem?_of_mem ?_⟩
  rwa [← hsome]

theorem Written.kept {values refs : List Bytes} (h : Written c values refs c')
    (hp : p ∈ values.zip refs) : Kept c' p := by
  obtain ⟨es, rfl, rfl, happends⟩ := h
  rw [zip_map', mem_map] at hp
  obtain ⟨e, he, rfl⟩ := hp
  exact Appends.kept happends he

/-- Once no file is open, what was kept can be read. -/
theorem Settled.resolves (h : Settled env config guarded c finished 0 w)
    (hlen : ∀ fileId, (c fileId).length ≤ 2 ^ 31) (hp : Kept c p) :
    Resolves config.lobBasePath w.files p.2 p.1 := by
  obtain ⟨⟨data, place⟩, rfl, hat⟩ := hp
  cases place with
  | none => exact resolves_inline data
  | some place =>
    obtain ⟨fileId, n⟩ := place
    have hrow : (c fileId)[n]? = some data := hat fileId n rfl
    have hn : n < (c fileId).length := (List.getElem?_eq_some_iff.mp hrow).1
    have hmem : fileId ∈ finished.map Prod.fst := by
      by_contra hnot
      simp [h.content_eq_nil fileId hnot] at hn
    obtain ⟨e, he, rfl⟩ := mem_map.mp hmem
    obtain ⟨hpath, -, hfile⟩ := h.stored e he
    rw [hpath] at hfile
    exact resolves_row hfile hrow (hn.trans_le (hlen e.1))

/-! ## Sequences of calls -/

theorem next_cases (h : s.next env config call = some s') :
    (∃ refs, call.references env config s.writer = (s'.writer, .ok refs) ∧
      s'.issued = s.issued ++ call.values.zip refs ∧ s'.failures = s.failures) ∨
    ∃ e, call.references env config s.writer = (s'.writer, .error e) ∧ s'.issued = s.issued ∧
      s'.failures = s.failures ++ [e] := by
  unfold Session.next at h
  split at h
  · next w refs hrun =>
    cases h
    exact .inl ⟨refs, hrun, rfl, rfl⟩
  · next w e hrun =>
    cases h
    exact .inr ⟨e, hrun, rfl, rfl⟩

theorem next_of_ok {refs : List Bytes} (h : call.references env config s.writer = (w, .ok refs)) :
    s.next env config call =
      some { s with writer := w, issued := s.issued ++ call.values.zip refs } := by
  rw [Session.next, h]

theorem run_singleton (h : s.next env config call = some s') :
    Runs.run (Session.next env config) s [call] = some s' := by
  simp [Runs.run, h]

theorem next_of_error {e : Fault} (h : call.references env config s.writer = (w, .error e)) :
    s.next env config call =
      some { s with writer := w, failures := s.failures ++ [e] } := by
  rw [Session.next, h]

/-- After a successful close, every call fails. -/
theorem run_closed {calls : List Call} (hclosed : s.writer.closed = true)
    (h : Runs.run (Session.next env config) s calls = some s') :
    s'.writer = s.writer ∧ s'.issued = s.issued := by
  have hstep : ∀ s1 call s2, s1.writer = s.writer ∧ s1.issued = s.issued → True →
      Session.next env config s1 call = some s2 → s2.writer = s.writer ∧ s2.issued = s.issued := ?_
  · exact Runs.run_invariant hstep ⟨rfl, rfl⟩ (fun _ _ => trivial) h
  rintro s1 call s2 ⟨hwriter, hissued⟩ - hnext
  obtain ⟨e, he⟩ : ∃ e, call.references env config s1.writer = (s1.writer, .error e) :=
    references_closed (hwriter ▸ hclosed) call
  obtain ⟨refs, hrun, -⟩ | ⟨e', hrun, hissued', -⟩ := next_cases hnext
  · simp [he] at hrun
  · rw [he] at hrun
    exact ⟨(Prod.ext_iff.mp hrun).1.symm.trans hwriter, hissued'.trans hissued⟩

variable {P : LobColumnWriter → Prop}

theorem Stable.next (hP : Stable env config P) (h : P s.writer)
    (hnext : s.next env config call = some s') : P s'.writer := by
  obtain ⟨refs, hrun, -⟩ | ⟨e, hrun, -⟩ := next_cases hnext
  · exact (hP.references call s.writer h).1 _ _ hrun
  · exact (hP.references call s.writer h).2 _ _ hrun

/-! ## The first file -/

section FirstFile

variable {env : Environment} {config : LobColumnConfig}

/-- The first file has been opened, and one value has been appended, possibly a shorter one. -/
def oneValue (env : Environment) (config : LobColumnConfig) (data stored : Bytes) (ioCount : ℕ)
    (stats : LobColumnWriterStats) (writtenRows : ℕ) : LobColumnWriter :=
  let filePath := lobFilePath config.lobBasePath (env.uuid 0)
  { LobColumnWriter.create env with
    ioCount, stats, writtenRows
    vortexWriter := some { filePath }
    files := Function.update (fun _ => none) filePath none
    opened := [filePath]
    createdFiles := [⟨filePath, 0, 0, 0⟩]
    pendingBuilder := ⟨[stored]⟩
    pendingBytes := (0 + data.length) % 2 ^ 64
    currentFileRows := 1 }

/-- A command of a new writer returns the reference of the value. -/
def WritesOne (env : Environment) (config : LobColumnConfig) (data stored : Bytes) (rows : ℕ)
    (x : Step Bytes) : Prop :=
  ∃ n stats, x (.create env) = (oneValue env config data stored n stats rows,
    .ok (reference (data, some (env.uuid 0, 0))))

variable {data stored : Bytes} {rows : ℕ} (hio : ∀ n, env.io n = none)
  (hexport : ∀ n, env.exportArray n = none)
  (hle : config.inlineThreshold ≤ data.length)
  (happend : BinaryBuilder.append ⟨[]⟩ data (toSigned 32 data.length) = some ⟨[stored]⟩)
  (hflush : (0 + data.length) % 2 ^ 64 < config.flushThresholdBytes)

include hio

include hexport in
/-- The file can be closed, and it has the value. -/
theorem close_oneValue {n : ℕ} {stats : LobColumnWriterStats} : ∃ w files,
    close env (oneValue env config data stored n stats rows) = (w, .ok files) ∧ w.uuidCount = 1 ∧
      w.files (lobFilePath config.lobBasePath (env.uuid 0)) = some [stored] ∧
      ∃ n, files = [⟨lobFilePath config.lobBasePath (env.uuid 0), 1, 1, n⟩] := by
  simp [oneValue, LobColumnWriter.create, bind_run, hio, hexport, close, flushPending,
    closeCurrentFile, vortexWrite, vortexCall, vortexFlush, vortexClose, modifyLast, modifyLast.go,
    -Nat.reducePow]

include happend

theorem appendLob_create : WritesOne env config data stored 0 (appendLob env config data) := by
  obtain ⟨n, stats, hensure⟩ : ∃ n stats, ensureVortexWriter env config (.create env) =
      ({ oneValue env config data stored n stats 0 with
        pendingBuilder := {}, pendingBytes := 0, currentFileRows := 0 }, .ok ()) := by
    cases hlocal : env.localFileSystem <;>
      simp [oneValue, LobColumnWriter.create, ensureVortexWriter, createParentDir, vortexOpen,
        fileSystemCall, bind_run, hio, hlocal]
  have hpending : pendingAppend env data { oneValue env config data stored n stats 0 with
      pendingBuilder := {}, pendingBytes := 0, currentFileRows := 0 } =
        ({ oneValue env config data stored n stats 0 with
          pendingBytes := 0, currentFileRows := 0 }, .ok ()) := by
    rw [pendingAppend, get_bind_run, happend]
    rfl
  refine ⟨n, stats, ?_⟩
  rw [appendLob, bind_run_ok hensure, get_bind_run, bind_run_ok hpending]
  rfl

include hflush

/-- The value is written out of line, and nothing is flushed. -/
theorem lob_create {g : LobColumnWriter → LobColumnWriter}
    (hg : ∀ n stats, ∃ stats', g (oneValue env config data stored n stats 0) =
      oneValue env config data stored n stats' rows) :
    WritesOne env config data stored rows (do
      let ref ← appendLob env config data
      modify g
      flushFull env config
      pure ref) := by
  obtain ⟨n, stats, hlob⟩ := @appendLob_create env config data stored hio happend
  obtain ⟨stats', hg⟩ := hg n stats
  have hroom : flushFull env config (oneValue env config data stored n stats' rows) =
      (oneValue env config data stored n stats' rows, .ok ()) :=
    congrFun (if_neg (not_le.mpr hflush)) _
  refine ⟨n, stats', ?_⟩
  rw [bind_run_ok hlob, modify_bind_run, hg, bind_run_ok hroom, pure_run]

include hle

include hexport in
/-- One value is written, and the writer is closed. -/
theorem writeData_create :
    ∃ s w files, Runs.run (Session.next env config) (.start env) [.writeData data] = some s ∧
      s.issued = [(data, reference (data, some (env.uuid 0, 0)))] ∧ s.failures = [] ∧
      close env s.writer = (w, .ok files) ∧ w.uuidCount = 1 ∧
      w.files (lobFilePath config.lobBasePath (env.uuid 0)) = some [stored] ∧
      ∃ n, files = [⟨lobFilePath config.lobBasePath (env.uuid 0), 1, 1, n⟩] := by
  obtain ⟨n, stats, hwrite⟩ : WritesOne env config data stored 1 (writeData env config data) := by
    change ∃ n stats, (if data.length < config.inlineThreshold then _ else _ : Step Bytes) _ = _
    rw [if_neg (not_lt.mpr hle)]
    exact lob_create hio happend hflush fun _ _ => ⟨_, rfl⟩
  obtain ⟨w, files, hclose⟩ := close_oneValue hio hexport
  have hrefs : Call.references env config (.writeData data) (Session.start env).writer = _ :=
    bind_run_ok hwrite
  exact ⟨_, w, files, run_singleton (next_of_ok hrefs), rfl, rfl, hclose⟩

/-- A batch fails at its second value. -/
theorem writeBatchData_full (hafter : env.afterFailedAppend = id)
    (hfull : BinaryBuilder.append ⟨[stored]⟩ data (toSigned 32 data.length) = none) :
    ∃ n stats e, writeBatchData env config [data, data] (.create env) =
      (oneValue env config data stored n stats 0, .error e) := by
  obtain ⟨n, stats, hitem⟩ : WritesOne env config data stored 0 (writeItem env config data) := by
    obtain ⟨n, stats, href⟩ :
        WritesOne env config data stored 0 (itemReference env config data) := by
      rw [itemReference, if_neg (not_lt.mpr hle)]
      exact lob_create hio happend hflush fun _ _ => ⟨_, rfl⟩
    exact ⟨n, _, bind_run_ok href⟩
  refine ⟨n, stats, BinaryBuilder.overflow ⟨[stored]⟩ data, ?_⟩
  have hensure : ensureVortexWriter env config (oneValue env config data stored n stats 0) =
    (oneValue env config data stored n stats 0, .ok ()) := rfl
  have hbuilder : (oneValue env config data stored n stats 0).pendingBuilder = ⟨[stored]⟩ := rfl
  generalize oneValue env config data stored n stats 0 = w at *
  have hpending : pendingAppend env data w =
      (w, .error (BinaryBuilder.overflow ⟨[stored]⟩ data)) := by
    rw [pendingAppend, get_bind_run, hbuilder, hfull, appended, get_bind_run, modify_bind_run,
      hafter, ← hbuilder]
    rfl
  have hfail : writeItem env config data w =
      (w, .error (BinaryBuilder.overflow ⟨[stored]⟩ data)) := by
    rw [writeItem, itemReference, if_neg (not_lt.mpr hle), appendLob]
    refine bind_run_error (bind_run_error ?_)
    rw [bind_run_ok hensure, get_bind_run, bind_run_error hpending]
  rw [writeBatchData, get_bind_run]
  apply bind_run_error
  rw [forEach, bind_run_ok hitem]
  apply bind_run_error
  rw [forEach, bind_run_error hfail]

end FirstFile

/-- An environment in which nothing fails. -/
def workingEnvironment : Environment where
  localFileSystem := false
  io _ := none
  exportArray _ := none
  uuid n := ⟨Bytes.toLE 16 n, Bytes.length_toLE ..⟩
  afterFailedAppend := id

def outOfLine : LobColumnConfig := ⟨"lob", 0, 2 ^ 40, 2 ^ 40⟩

theorem injOn_uuid_one (env : Environment) : Set.InjOn env.uuid (Set.Iio 1) := by
  intro m hm n hn _
  rw [Nat.lt_one_iff.mp hm, Nat.lt_one_iff.mp hn]

/-! ## Successful closes -/

/-- What holds of a session whose values fit: the values that references were returned for are
kept. -/
def Session.Sound (env : Environment) (config : LobColumnConfig) (s : Session) : Prop :=
  s.writer.closed = true ∨ Repeats env s.writer ∨ Failed env s.writer ∨
    ∃ c finished, Healthy env config True c finished 0 s.writer ∧ ∀ p ∈ s.issued, Kept c p

theorem start_sound : (Session.start env).Sound env config :=
  .inr <| .inr <| .inr ⟨_, _, initial_healthy env config True, forall_mem_nil _⟩

theorem Session.Sound.next (h : s.Sound env config)
    (hfits : call.Each env config (Fits config) s.writer)
    (hnext : s.next env config call = some s') : s'.Sound env config := by
  obtain hclosed | hrepeats | (hbroken | hlossy) | ⟨c, finished, hh, hkept⟩ := h
  · obtain ⟨hwriter, -⟩ := run_closed hclosed (run_singleton hnext)
    exact .inl (hwriter ▸ hclosed)
  · exact .inr <| .inl <| stable_repeats.next hrepeats hnext
  · exact .inr <| .inr <| .inl <| .inl <| stable_broken.next hbroken hnext
  · exact .inr <| .inr <| .inl <| .inr <| stable_lossy.next hlossy hnext
  · have hspec := references_spec hh (hfits.mono fun _ _ => ready_of_fits) s.writer rfl
    obtain ⟨refs, hrun, hissued, -⟩ | ⟨e, hrun, hissued, -⟩ := next_cases hnext
    · obtain ⟨hclosed, -⟩ | hrepeats | ⟨c', finished', hwritten, h'⟩ := hspec.1 _ _ hrun
      · exact .inl hclosed
      · exact .inr <| .inl hrepeats
      refine .inr <| .inr <| .inr ⟨c', finished', h', fun p hp => ?_⟩
      rw [hissued, mem_append] at hp
      obtain hp | hp := hp
      · exact (hkept p hp).extends hwritten.extends
      · exact hwritten.kept hp
    · obtain hrepeats | hinterrupted := hspec.2 _ _ hrun
      · exact .inr <| .inl hrepeats
      obtain hfailed | ⟨c', finished', hextends, h'⟩ := hinterrupted trivial
      · exact .inr <| .inr <| .inl hfailed
      refine .inr <| .inr <| .inr ⟨c', finished', h', fun p hp => ?_⟩
      rw [hissued] at hp
      exact (hkept p hp).extends hextends

/-- What `Close` returning OK means, if every value that was written out of line fitted and every
batch reached the Vortex library. -/
theorem close_kept {calls later : List Call} {s s' : Session} {w : LobColumnWriter}
    {files : List LobFileResult}
    (hrun : Runs.run (Session.next env config) (Session.start env) calls = some s)
    (hfits : Runs.Meets (Session.next env config)
      (fun s call => call.Each env config (Fits config) s.writer) (Session.start env) calls)
    (hclose : close env s.writer = (w, .ok files))
    (hexport : ∀ n < w.ioCount, env.exportArray n = none)
    (huuid : Set.InjOn env.uuid (Set.Iio w.uuidCount))
    (hlater : Runs.run (Session.next env config) { s with writer := w } later = some s') :
    (∀ p ∈ s'.issued, Resolves config.lobBasePath s'.writer.files p.2 p.1) ∧
      ∀ f ∈ files, ∃ rows, s'.writer.files f.path = some rows ∧ f.totalRows ≤ rows.length := by
  have hsound := Runs.run_invariant_of_meets (fun _ _ _ h => h.next) start_sound hfits hrun
  obtain hclosed | hrepeats | (hbroken | hlossy) | ⟨c, finished, hh, hkept⟩ := hsound
  · exact absurd hclose (close_closed hclosed)
  · have hstable : Stable env config _ := stable_repeats
    exact absurd huuid ((hstable.close s.writer hrepeats).1 _ _ hclose)
  · exact (close_broken s.writer hbroken).1 _ _ hclose |>.elim
  · obtain ⟨n, hn, hfailed⟩ : Lossy env w :=
      ((stable_lossy : Stable env config _).close s.writer hlossy).1 _ _ hclose
    exact absurd (hexport n hn) hfailed
  obtain ⟨hclosed, finished', rfl, hset⟩ := (close_spec hh s.writer rfl).1 _ _ hclose
  obtain ⟨hwriter, hissued⟩ := run_closed hclosed hlater
  rw [hwriter, hissued]
  refine ⟨fun p hp => hset.resolves (hset.bounded trivial) (hkept p hp), fun f hf => ?_⟩
  obtain ⟨e, he, rfl⟩ := mem_map.mp hf
  obtain ⟨-, htotal, hfile⟩ := hset.stored e he
  exact ⟨_, hfile, htotal.le⟩

/-- Values from two bytes on are out of line, and a file with two bytes is closed. -/
def rolling : LobColumnConfig := ⟨"lob", 2, 2, 3⟩

/-- An inline value and one out of line, whose file is closed when it is flushed, and then a value
in the next file. -/
def rollingCalls : List Call := [.writeBatchData [[1], [2, 3]], .flush, .writeData [4, 5]]

theorem run_rollingCalls : ∃ s w files,
    Runs.run (Session.next workingEnvironment rolling) (.start workingEnvironment)
      rollingCalls = some s ∧ s.failures = [] ∧
    Runs.Meets (Session.next workingEnvironment rolling)
      (fun s call => call.Each workingEnvironment rolling (Fits rolling) s.writer)
      (.start workingEnvironment) rollingCalls ∧
    close workingEnvironment s.writer = (w, .ok files) ∧ w.uuidCount = 2 ∧
    files.map LobFileResult.totalRows = [1, 1] := by
  have htwo : toSigned 32 2 = 2 := rfl
  simp [rollingCalls, Runs.run, Runs.Meets, Session.next, Session.start, Call.references, Call.Each,
    EachItem, Fits, LobColumnWriter.create, bind_run, writeBatchData, forEach, writeItem,
    itemReference, rolling, appendLob, ensureVortexWriter, createParentDir, vortexOpen,
    fileSystemCall, workingEnvironment, pendingAppend, BinaryBuilder.append, appended, flushFull,
    flush, flushPending, vortexWrite, vortexCall, vortexFlush, maybeRollFile, closeCurrentFile,
    vortexClose, writeData, close, modifyLast, modifyLast.go, htwo, BinaryBuilder.bytes,
    BinaryBuilder.memoryLimit]

theorem injOn_uuid_two : Set.InjOn workingEnvironment.uuid (Set.Iio 2) := by
  have hdistinct : ∀ m < 2, ∀ n < 2,
      workingEnvironment.uuid m = workingEnvironment.uuid n → m = n := by decide
  exact fun m hm n hn => hdistinct m hm n hn

theorem close_kept_rolling : ∃ s w files,
    Runs.run (Session.next workingEnvironment rolling) (.start workingEnvironment)
      rollingCalls = some s ∧
    close workingEnvironment s.writer = (w, .ok files) ∧
    files.map LobFileResult.totalRows = [1, 1] ∧ (∀ p ∈ s.issued, Resolves "lob" w.files p.2 p.1) ∧
    ∀ f ∈ files, ∃ rows, w.files f.path = some rows ∧ f.totalRows ≤ rows.length := by
  obtain ⟨s, w, files, hrun, -, hfits, hclose, huuid, hrows⟩ := run_rollingCalls
  have hlater : Runs.run (Session.next workingEnvironment rolling) { s with writer := w } [] =
      some { s with writer := w } := rfl
  exact ⟨s, w, files, hrun, hclose, hrows, close_kept hrun hfits hclose (fun _ _ => rfl)
    (huuid ▸ injOn_uuid_two) hlater⟩

/-- The length of the value is truncated to 32 bits. -/
theorem close_loses_value : ∃ (data : Bytes) (s : Session) (w : LobColumnWriter)
    (files : List LobFileResult),
    Runs.run (Session.next workingEnvironment outOfLine) (.start workingEnvironment)
      [.writeData data] = some s ∧
    close workingEnvironment s.writer = (w, .ok files) ∧
    Set.InjOn workingEnvironment.uuid (Set.Iio w.uuidCount) ∧
    ∃ p ∈ s.issued, ¬ Resolves outOfLine.lobBasePath w.files p.2 p.1 := by
  obtain ⟨data, hdata⟩ : ∃ data : Bytes, data.length = 2 ^ 32 :=
    ⟨replicate (2 ^ 32) 0, length_replicate⟩
  obtain ⟨s, w, files, hrun, hissued, -, hclose, huuid, hfile, -⟩ :=
    @writeData_create workingEnvironment outOfLine data [] (fun _ => rfl) (fun _ => rfl)
      (Nat.zero_le _) (by rw [hdata]; rfl) (by rw [hdata]; decide)
  refine ⟨data, s, w, files, hrun, hclose, huuid ▸ injOn_uuid_one _, _,
    hissued ▸ mem_singleton_self _, fun hresolves => ?_⟩
  have hnil : data = [] := hresolves.unique (resolves_row hfile rfl (by decide))
  rw [hnil] at hdata
  cases hdata

/-! ## Exact answers -/

/-- The offset of a reference in the file at a path. -/
def offsetIn (lobBasePath path : String) (encodedRef : Bytes) : Option ℤ :=
  if isLOBReference encodedRef then
    let ref := decodeLOBReference encodedRef
    if buildLOBFilePath lobBasePath ref.fileId = path then some ref.rowOffset else none
  else none

theorem offsetIn_reference (lobBasePath : String) (fileId : UUID) (e : Bytes × Option (UUID × ℕ)) :
    offsetIn lobBasePath (lobFilePath lobBasePath fileId) (reference e) =
      (positionIn fileId e).map fun n : ℕ => toSigned 32 n := by
  obtain ⟨data, place⟩ := e
  cases place with
  | none => rfl
  | some place =>
    obtain ⟨fileId', n⟩ := place
    have hdec : decodeLOBReference (encodeLOBReference fileId' (toSigned 32 n)) =
        ⟨uuidToString fileId'.1, toSigned 32 n⟩ :=
      decodeLOBReference_encode fileId' (toSigned_range n).1 (toSigned_range n).2
    have hlob : isLOBReference (encodeLOBReference fileId' (toSigned 32 n)) = true := rfl
    have hpath : buildLOBFilePath lobBasePath (uuidToString fileId'.1) =
        lobFilePath lobBasePath fileId ↔ fileId' = fileId :=
      (lobFilePath_injective lobBasePath).eq_iff
    simp only [offsetIn, reference, positionIn, hlob, hdec, hpath, if_true]
    split_ifs <;> rfl

/-- What holds of a session all of whose calls return OK: the references that were returned are
those of the values in the files. -/
def Session.Exact (env : Environment) (config : LobColumnConfig) (s : Session) : Prop :=
  s.failures = [] → s.writer.closed = true ∨ Repeats env s.writer ∨
    ∃ es c finished, s.issued = es.map (fun e => (e.1, reference e)) ∧
      Appends (fun _ => []) es c ∧ Healthy env config False c finished 0 s.writer

theorem start_exact : (Session.start env).Exact env config :=
  fun _ => .inr <| .inr ⟨[], _, _, rfl, .nil, initial_healthy env config False⟩

theorem Session.Exact.next (h : s.Exact env config)
    (hshort : ∀ data ∈ call.values, data.length < 2 ^ 31)
    (hnext : s.next env config call = some s') : s'.Exact env config := by
  intro hok
  obtain ⟨refs, hrun, hissued, hfailures⟩ | ⟨e, -, -, hfailures⟩ := next_cases hnext
  swap
  · simp [hfailures] at hok
  rw [hfailures] at hok
  obtain hclosed | hrepeats | ⟨es, c, finished, hes, happends, hh⟩ := h hok
  · obtain ⟨e, he⟩ : ∃ e, call.references env config s.writer = (s.writer, .error e) :=
      references_closed hclosed call
    simp [he] at hrun
  · exact .inr <| .inl <| stable_repeats.next hrepeats hnext
  have hready : call.Each env config (Ready config False) s.writer :=
    Call.each_of_forall (fun data hdata _ => ⟨fun _ => hshort data hdata, False.elim⟩) s.writer
  obtain ⟨hclosed, -⟩ | hrepeats | ⟨c', finished', ⟨es', hvalues, hrefs, happends'⟩, h'⟩ :=
    (references_spec hh hready s.writer rfl).1 _ _ hrun
  · exact .inl hclosed
  · exact .inr <| .inl hrepeats
  refine .inr <| .inr ⟨es ++ es', c', finished', ?_, happends.trans happends', h'⟩
  rw [hissued, hes, ← hvalues, ← hrefs, zip_map', map_append]

/-- **References resolve.** -/
theorem close_resolves {calls : List Call} {s : Session} {w : LobColumnWriter}
    {files : List LobFileResult}
    (hrun : Runs.run (Session.next env config) (Session.start env) calls = some s)
    (hshort : ∀ call ∈ calls, ∀ data ∈ call.values, data.length < 2 ^ 31)
    (hok : s.failures = []) (hclose : close env s.writer = (w, .ok files))
    (huuid : Set.InjOn env.uuid (Set.Iio w.uuidCount))
    (hrows : ∀ f ∈ files, f.totalRows < 2 ^ 31) :
    (∀ p ∈ s.issued, Resolves config.lobBasePath w.files p.2 p.1) ∧
      (∀ f ∈ files, s.issued.filterMap (fun p => offsetIn config.lobBasePath f.path p.2) =
        (List.range f.totalRows).map Nat.cast) ∧
      (files.map LobFileResult.totalRows).sum = w.stats.lobEntries := by
  have hexact := Runs.run_invariant (fun _ _ _ h => h.next) start_exact hshort hrun hok
  obtain hclosed | hrepeats | ⟨es, c, finished, hes, happends, hh⟩ := hexact
  · exact absurd hclose (close_closed hclosed)
  · have hstable : Stable env config _ := stable_repeats
    exact absurd huuid ((hstable.close s.writer hrepeats).1 _ _ hclose)
  obtain ⟨-, finished', rfl, hset⟩ := (close_spec hh s.writer rfl).1 _ _ hclose
  have hlen : ∀ fileId, (c fileId).length ≤ 2 ^ 31 := by
    intro fileId
    by_cases hmem : fileId ∈ finished'.map Prod.fst
    · obtain ⟨e, he, rfl⟩ := mem_map.mp hmem
      rw [← (hset.stored e he).2.1]
      exact (hrows e.2 (mem_map_of_mem he)).le
    · simp [hset.content_eq_nil fileId hmem]
  refine ⟨fun p hp => hset.resolves hlen ?_, fun f hf => ?_, ?_⟩
  · rw [hes, mem_map] at hp
    obtain ⟨e, he, rfl⟩ := hp
    exact Appends.kept happends he
  · have hf' := hrows f hf
    obtain ⟨e, he, rfl⟩ := mem_map.mp hf
    obtain ⟨hpath, htotal, -⟩ := hset.stored e he
    have hpositions := happends.positions_eq e.1
    simp only [length_nil, range_zero, nil_append] at hpositions
    simp only [hes, filterMap_map, Function.comp_def, hpath, offsetIn_reference]
    rw [← map_filterMap, hpositions, htotal]
    refine map_congr_left fun n hn => toSigned_natCast ?_
    rw [mem_range, ← htotal] at hn
    exact hn.trans hf'
  · rw [map_map]
    exact hset.counted

theorem close_resolves_rolling : ∃ s w files,
    Runs.run (Session.next workingEnvironment rolling) (.start workingEnvironment)
      rollingCalls = some s ∧
    close workingEnvironment s.writer = (w, .ok files) ∧
    files.map LobFileResult.totalRows = [1, 1] ∧ (∀ p ∈ s.issued, Resolves "lob" w.files p.2 p.1) ∧
    (∀ f ∈ files, s.issued.filterMap (fun p => offsetIn "lob" f.path p.2) =
      (List.range f.totalRows).map Nat.cast) ∧
    (files.map LobFileResult.totalRows).sum = w.stats.lobEntries := by
  obtain ⟨s, w, files, hrun, hok, -, hclose, huuid, hrows⟩ := run_rollingCalls
  refine ⟨s, w, files, hrun, hclose, hrows, close_resolves hrun (by decide) hok hclose
    (huuid ▸ injOn_uuid_two) fun f hf => ?_⟩
  have hone : f.totalRows ∈ [1, 1] := hrows ▸ mem_map_of_mem hf
  simp only [mem_cons, not_mem_nil, or_false, or_self] at hone
  omega

/-- A batch fails after its first value has been appended, and no reference is returned for it. -/
theorem close_failed_batch : ∃ (data : Bytes) (s : Session) (w : LobColumnWriter)
    (files : List LobFileResult), data.length < 2 ^ 31 ∧
    Runs.run (Session.next workingEnvironment outOfLine) (.start workingEnvironment)
      [.writeBatchData [data, data]] = some s ∧
    close workingEnvironment s.writer = (w, .ok files) ∧
    Set.InjOn workingEnvironment.uuid (Set.Iio w.uuidCount) ∧
    (∀ f ∈ files, f.totalRows < 2 ^ 31) ∧ ∃ f ∈ files, f.totalRows ≠
      (s.issued.filterMap fun p => offsetIn outOfLine.lobBasePath f.path p.2).length := by
  obtain ⟨data, hdata⟩ : ∃ data : Bytes, data.length = 2 ^ 30 :=
    ⟨replicate (2 ^ 30) 0, length_replicate⟩
  have hshort : data.length < 2 ^ 31 := by omega
  have happend : BinaryBuilder.append ⟨[]⟩ data (toSigned 32 data.length) = some ⟨[data]⟩ := by
    obtain happend | ⟨-, hlimit⟩ := BinaryBuilder.append_eq ⟨[]⟩ hshort
    · exact happend
    · simp [BinaryBuilder.bytes, BinaryBuilder.memoryLimit, hdata] at hlimit
  have hfull : BinaryBuilder.append ⟨[data]⟩ data (toSigned 32 data.length) = none := by
    rw [toSigned_natCast hshort]
    simp [BinaryBuilder.append, BinaryBuilder.bytes, BinaryBuilder.memoryLimit, hdata]
  obtain ⟨_, stats, e, hw⟩ := @writeBatchData_full workingEnvironment outOfLine data data
    (fun _ => rfl) (Nat.zero_le _) happend (by rw [hdata]; decide) rfl hfull
  obtain ⟨w', files, hclose, huuid, -, n, hfiles⟩ :=
    @close_oneValue workingEnvironment outOfLine data data 0 (fun _ => rfl) (fun _ => rfl) _ stats
  have hrefs : Call.references workingEnvironment outOfLine (.writeBatchData [data, data])
      (Session.start workingEnvironment).writer = (_, .error e) := hw
  refine ⟨data, _, w', files, hshort, run_singleton (next_of_error hrefs), hclose,
    huuid ▸ injOn_uuid_one _, by simp [hfiles], _, hfiles ▸ mem_singleton_self _, ?_⟩
  simp [Session.start]

end MilvusStorage.Lob
