import MilvusStorage.Common.Layout
import MilvusStorage.Foundations.Runs
import MilvusStorage.Manifest.Paths
import MilvusStorage.Transaction.Commit

/-!
# Concurrent transactions

Any number of transactions on one table. They share the metadata directory, and those of one process
share its manifest cache. Opening a transaction and committing it are sequences of steps, one for
each call to the filesystem, and steps of different transactions interleave freely (`next`).

The filesystem is one whose listing returns the files present and whose conditional write is an
atomic put-if-absent. A call may also fail; a write may fail before it takes effect, or its reply
may be lost after it has. Files are never deleted or replaced.

A transaction gets a manifest as a value, and its updates point to column groups of its own caller.
In the program a manifest that is cached is one object for all its readers. The two agree as long as
no update points to a column group of a cached manifest or of another transaction.

`log` is not part of the program: it records which `Commit` stored which version.
-/

namespace MilvusStorage

open List Function

/-- How manifests are stored: serialization one way, and back. -/
structure Codec (B : Type) where
  encode : Manifest → Except Fault B
  decode : B → Except Status Manifest
  /-- A manifest that cannot be serialized is not reported as a conflict. -/
  code_of_encode_error : ∀ m s, encode m = .error (.status s) → s.code ≠ .alreadyExists

/-- What is read back is what was serialized. -/
def Codec.RoundTrips {B : Type} (codec : Codec B) : Prop :=
  ∀ m b, codec.encode m = .ok b → codec.decode b = .ok m

/-- Manifests stored as they are. -/
def System.plainCodec : Codec Manifest where
  encode := .ok
  decode := .ok
  code_of_encode_error _ _ h := by cases h

section

variable {B : Type} {avro : Codec B} {parseUri : UriParser} {base : String} {σ : Store}
  {m : Manifest} {b : B}

theorem code_of_toRelativePaths_error {s : Status} (h : (do
      let (_, m) ← m.toRelativePaths base noGroups
      avro.encode m) = .error (.status s)) : s.code ≠ .alreadyExists := by
  by_cases hnone : none ∈ m.groups noGroups
  · rw [toRelativePaths_of_none base hnone] at h
    cases h
  · obtain ⟨gs, hgs⟩ := exists_groups_eq hnone
    rw [toRelativePaths_eq base hgs] at h
    exact avro.code_of_encode_error _ s h

/-- A manifest below a base path is serialized with relative paths. -/
def Codec.withPaths (avro : Codec B) (parseUri : UriParser) (base : String) : Codec B where
  encode m := do
    let (_, m) ← m.toRelativePaths base noGroups
    avro.encode m
  decode b := do
    let m ← avro.decode b
    match m.toAbsolutePaths parseUri base noGroups with
    | .ok (_, m) => return m
    -- no group is null after deserialization
    | .error _ => throw (.unknownError "null column group")
  code_of_encode_error _ _ h := code_of_toRelativePaths_error h

theorem Codec.decode_withPaths (havro : avro.RoundTrips) (hm : m.KeepsPaths parseUri base σ)
    (h : (avro.withPaths parseUri base).encode (m.copy σ) = .ok b) :
    (avro.withPaths parseUri base).decode b = .ok (m.copy σ) := by
  obtain ⟨gs, hgs⟩ := exists_groups_eq hm.groups
  have hcopy : (m.copy σ).groups noGroups = gs.map some := by
    rw [← hgs]
    exact copyColumnGroups_ofCopy noGroups (m.groups σ)
  have hstore := storePaths_eq parseUri base hcopy
  simp only [Codec.withPaths, Manifest.storePaths, toRelativePaths_eq base hcopy,
    Except.ok_bind] at h hstore ⊢
  rw [havro _ _ h, Except.ok_bind, hstore]
  have hpaths : ∀ q ∈ m.paths σ,
      toAbsolute parseUri (toRelative q.2 (some base) q.1) (some base) q.1 = q.2 := fun q hq =>
    (toAbsolute_toRelative_eq_iff parseUri base q.1 (hm.paths q hq).1).mpr (hm.paths q hq).2
  exact congrArg Except.ok (((mapPaths_eq_iff (f := fun dir path => toAbsolute parseUri
    (toRelative path (some base) dir) (some base) dir) hgs).mpr hpaths).trans
    (copy_eq_withGroups hgs).symm)

end

/-- The arguments of `Transaction::Open`; without a version, the latest one is read. -/
structure OpenOptions where
  readVersion : Option ℕ
  resolver : Resolver
  retryLimit : ℕ

/-- The life of a transaction. -/
inductive Phase
  | closed
  /-- In `Open`, before the versions are listed. -/
  | opening (o : OpenOptions)
  /-- In `Open`, before the manifest is read. -/
  | loading (o : OpenOptions) (version : ℕ)
  /-- Open, and not committing. -/
  | ready (t : Transaction)
  /-- In `Commit`, which was called when the caller's column groups were `start`. -/
  | committing (t : Transaction) (start : Store) (p : CommitPhase)

/-- A transaction and the column groups its caller holds. -/
structure Client where
  groups : Store
  phase : Phase

/-- A manifest that was stored: by which transaction, as which version, and the updates with the
column groups they pointed to when `Commit` was called. -/
structure Record where
  client : ℕ
  version : ℕ
  store : Store
  updates : Updates

structure System (B : Type) where
  /-- The metadata directory. -/
  files : List (String × B)
  /-- The manifest cache of every process. -/
  cache : ℕ → String → Option Manifest
  clients : ℕ → Client
  log : List Record

inductive Action
  | open (i : ℕ) (o : OpenOptions)
  | list (i : ℕ) (failure : Option Status)
  | read (i : ℕ) (failure : Option Status)
  /-- The caller records updates and builds column groups. -/
  | update (i : ℕ) (σ : Store) (u : Updates)
  | commit (i : ℕ)
  | resolve (i : ℕ)
  | write (i : ℕ) (w : IoOutcome)
  /-- `Commit` returns to the caller. -/
  | leave (i : ℕ)
  | close (i : ℕ)
  | evict (process : ℕ) (name : String)

namespace System

variable {B : Type} (codec : Codec B) (process : ℕ → ℕ) (S : System B)

def latest : ℕ := latestVersion (S.files.map Prod.fst)

/-- The bytes of a version. -/
def stored (version : ℕ) : Option B := S.files.lookup (getManifestFilename version)

/-- The manifest of a version; version 0 is the empty manifest of a table without manifests. -/
def storedManifest (version : ℕ) : Option Manifest :=
  if version = 0 then some {}
  else (S.stored version).bind fun b => (codec.decode b).toOption

def setPhase (i : ℕ) (p : Phase) : System B :=
  { S with clients := update S.clients i { S.clients i with phase := p } }

def setClient (i : ℕ) (c : Client) : System B :=
  { S with clients := update S.clients i c }

def setCache (p : ℕ) (name : String) (entry : Option Manifest) : System B :=
  { S with cache := update S.cache p (update (S.cache p) name entry) }

/-- `read_manifest`, through the cache of the process. -/
def readManifest (i version : ℕ) : System B × Except Status Manifest :=
  if version = 0 then (S, .ok {})
  else
    let name := getManifestFilename version
    match S.cache (process i) name with
    | some m => (S, .ok m)
    | none =>
      match S.stored version with
      | none => (S, .error (.ioError ("Path does not exist: " ++ name)))
      | some b =>
        match codec.decode b with
        | .error s => (S, .error s)
        | .ok m => (S.setCache (process i) name (some m), .ok m)

/-- `read_manifest`, which may also fail before it finds out. -/
def tryReadManifest (i version : ℕ) (failure : Option Status) : System B × Except Status Manifest :=
  failure.elim (S.readManifest codec process i version) fun s => (S, .error s)

/-- Store a version that is absent. -/
def put (i version : ℕ) (b : B) (start : Store) (u : Updates) : System B :=
  { S with
    files := (getManifestFilename version, b) :: S.files
    log := S.log ++ [{ client := i, version, store := start, updates := u }] }

/-- The conditional write of a manifest: the system after it and its status. -/
def writeManifest (i version : ℕ) (m : Manifest) (start : Store) (u : Updates) :
    IoOutcome → Option (System B × Except Status Unit)
  | .failed s => if s.code = .alreadyExists then none else some (S, .error s)
  | .performed =>
    match codec.encode m with
    | .error (.status s) => some (S, .error s)
    | .error _ => none
    | .ok b =>
      match S.stored version with
      | none => some (S.put i version b start u, .ok ())
      | some _ =>
        some (S, .error (.alreadyExists ("File already exists: " ++ getManifestFilename version)))
  | .replyLost s =>
    match codec.encode m, S.stored version with
    | .ok b, none => some (S.put i version b start u, .error s)
    | _, _ => none

/-- The system after an action, if the action is enabled. -/
def next : Action → Option (System B)
  | .open i o =>
    match (S.clients i).phase with
    | .closed =>
      match o.readVersion with
      | none => some (S.setPhase i (.opening o))
      | some v => if v < 2 ^ 63 then some (S.setPhase i (.loading o v)) else none
    | _ => none
  | .list i failure =>
    match (S.clients i).phase with
    | .opening o => some (S.setPhase i (failure.elim (.loading o S.latest) fun _ => .closed))
    | .committing t start (.list r) =>
      some (S.setPhase i (.committing t start (t.listed r (failure.elim (.ok S.latest) .error))))
    | _ => none
  | .read i failure =>
    match (S.clients i).phase with
    | .loading o v =>
      match S.tryReadManifest codec process i v failure with
      | (S', .error _) => some (S'.setPhase i .closed)
      | (S', .ok m) =>
        some (S'.setPhase i (.ready
          { readVersion := v, readManifest := m, updates := {}, resolver := o.resolver,
            retryLimit := o.retryLimit }))
    | .committing t start (.read r v) =>
      match S.tryReadManifest codec process i v failure with
      | (S', result) => some (S'.setPhase i (.committing t start (Transaction.loaded r v result)))
    | _ => none
  | .update i σ u =>
    match (S.clients i).phase with
    | .ready t => some (S.setClient i { groups := σ, phase := .ready { t with updates := u } })
    | _ => none
  | .commit i =>
    match (S.clients i).phase with
    | .ready t => some (S.setPhase i (.committing t (S.clients i).groups t.begin))
    | _ => none
  | .resolve i =>
    match (S.clients i).phase with
    | .committing t start (.resolve r v lm) =>
      match t.resolved (S.clients i).groups r v lm with
      | (σ, p) => some (S.setClient i { groups := σ, phase := .committing t start p })
    | _ => none
  | .write i w =>
    match (S.clients i).phase with
    | .committing t start (.write r v m) =>
      (S.writeManifest codec i (v + 1) (m.copy (S.clients i).groups) start t.updates w).map
        fun (S', result) => S'.setPhase i (.committing t start (t.written r v result))
    | _ => none
  | .leave i =>
    match (S.clients i).phase with
    | .committing t _ (.done _) => some (S.setPhase i (.ready t))
    | _ => none
  | .close i =>
    match (S.clients i).phase with
    | .ready _ => some (S.setPhase i .closed)
    | _ => none
  | .evict p name => some (S.setCache p name none)

/-- Every manifest that a transaction is about to write is one whose paths are read back. -/
def PendingKeep (parseUri : UriParser) (base : String) : Prop :=
  ∀ i t start r v m, (S.clients i).phase = .committing t start (.write r v m) →
    m.KeepsPaths parseUri base (S.clients i).groups

/-- Every manifest that a transaction is about to write is read back as it is. -/
def ReadsBack : Prop :=
  ∀ i t start r v m b, (S.clients i).phase = .committing t start (.write r v m) →
    codec.encode (m.copy (S.clients i).groups) = .ok b →
    codec.decode b = .ok (m.copy (S.clients i).groups)

/-- A table with these files, before any transaction is opened. -/
def initial (files : List (String × B)) : System B where
  files := files
  cache _ _ := none
  clients _ := { groups := fun _ => ⟨[], "", []⟩, phase := .closed }
  log := []

@[simp] theorem setPhase_phase_self (i : ℕ) (p : Phase) :
    ((S.setPhase i p).clients i).phase = p := by
  simp [setPhase]

variable {v i : ℕ} {m : Manifest}

theorem setPhase_clients_of_ne {j : ℕ} (h : j ≠ i) (p : Phase) :
    (S.setPhase i p).clients j = S.clients j := update_of_ne h ..

/-! ## The directory -/

variable {codec S}

theorem PendingKeep.readsBack {parseUri : UriParser} {base : String} (havro : codec.RoundTrips)
    (h : S.PendingKeep parseUri base) : S.ReadsBack (codec.withPaths parseUri base) :=
  fun i t start r v m _ hp => Codec.decode_withPaths havro (h i t start r v m hp)

/-- A version that is stored is at most the latest one. -/
theorem le_latest {b : B} (hv : v < 2 ^ 63) (h : S.stored v = some b) : v ≤ S.latest := by
  obtain ⟨l1, l2, hfiles, -⟩ := lookup_eq_some_iff.mp h
  apply le_latestVersion hv
  rw [hfiles, map_append]
  exact mem_append_right _ mem_cons_self

theorem stored_of_storedManifest (hv : v ≠ 0) (h : S.storedManifest codec v = some m) :
    ∃ b, S.stored v = some b ∧ codec.decode b = .ok m := by
  rw [storedManifest, if_neg hv] at h
  obtain ⟨b, hb, hm⟩ := Option.bind_eq_some_iff.mp h
  refine ⟨b, hb, ?_⟩
  cases hd : codec.decode b with
  | error s => simp [hd, Except.toOption] at hm
  | ok m' => simpa [hd, Except.toOption] using hm

theorem storedManifest_of_stored {b : B} (hv : v ≠ 0) (hb : S.stored v = some b)
    (hm : codec.decode b = .ok m) :
    S.storedManifest codec v = some m := by
  simp [storedManifest, hv, hb, hm, Except.toOption]

section Put

variable (i : ℕ) (b : B) (start : Store) (u : Updates)

theorem stored_put_self (v : ℕ) : (S.put i v b start u).stored v = some b :=
  lookup_cons_self ..

variable {v w : ℕ}

theorem stored_put_of_ne (h : w ≠ v) : (S.put i v b start u).stored w = S.stored w := by
  have hne : (getManifestFilename w == getManifestFilename v) = false :=
    beq_false_of_ne fun heq => h (getManifestFilename_injective heq)
  simp [stored, put, lookup_cons, hne]

theorem storedManifest_put_of_ne (h : w ≠ v) :
    (S.put i v b start u).storedManifest codec w = S.storedManifest codec w := by
  rw [storedManifest, storedManifest, stored_put_of_ne i b start u h]

theorem mem_log_put {rec : Record} : rec ∈ (S.put i v b start u).log ↔
    rec ∈ S.log ∨ rec = { client := i, version := v, store := start, updates := u } := by
  rw [put, mem_append, mem_singleton]

/-- The next version is numbered on. -/
theorem versions_put {base : ℕ} (h : ∀ k rec, S.log[k]? = some rec → rec.version = base + k + 1)
    (hv : v = base + S.log.length + 1) :
    ∀ k rec, (S.put i v b start u).log[k]? = some rec → rec.version = base + k + 1 := by
  intro k rec hk
  rcases lt_trichotomy k S.log.length with hlt | rfl | hgt
  · rw [put, getElem?_append_left hlt] at hk
    exact h k rec hk
  · rw [put, getElem?_concat_length, Option.some.injEq] at hk
    rw [← hk, hv]
  · rw [put, getElem?_eq_none (by simp; omega)] at hk
    cases hk

theorem latest_put (hv : v < 2 ^ 63) (hle : S.latest ≤ v) : (S.put i v b start u).latest = v :=
  latestVersion_cons_of_le (manifestVersion_getManifestFilename hv) hle

end Put

/-- What reading a manifest finds is what is stored, and only the cache can change. -/
theorem readManifest_cases {process : ℕ → ℕ} {S' : System B} {result : Except Status Manifest}
    (hcache : ∀ p name m, S.cache p name = some m →
      ∃ b, S.files.lookup name = some b ∧ codec.decode b = .ok m)
    (h : S.readManifest codec process i v = (S', result)) :
    (S' = S ∨ ∃ m b, S' = S.setCache (process i) (getManifestFilename v) (some m) ∧
        S.stored v = some b ∧ codec.decode b = .ok m) ∧
      ∀ m, result = .ok m → S.storedManifest codec v = some m := by
  unfold readManifest at h
  split_ifs at h with hv
  · cases h
    refine ⟨.inl rfl, fun m hm => ?_⟩
    cases hm
    simp [storedManifest, hv]
  · simp only at h
    split at h
    · next m hm =>
      cases h
      obtain ⟨b, hb, hdec⟩ := hcache _ _ _ hm
      refine ⟨.inl rfl, fun m' hm' => ?_⟩
      cases hm'
      exact storedManifest_of_stored hv hb hdec
    · split at h
      · cases h
        exact ⟨.inl rfl, fun m hm => by cases hm⟩
      · next b hb =>
        split at h
        · cases h
          exact ⟨.inl rfl, fun m hm => by cases hm⟩
        · next m hdec =>
          cases h
          refine ⟨.inr ⟨m, b, rfl, hb, hdec⟩, fun m' hm' => ?_⟩
          cases hm'
          exact storedManifest_of_stored hv hb hdec

/-- A conditional write stores an absent version or fails, and the directory reports a conflict only
if the version is there. -/
theorem writeManifest_cases {version : ℕ} {start : Store} {u : Updates} {w : IoOutcome}
    {S' : System B} {result : Except Status Unit}
    (h : S.writeManifest codec i version m start u w = some (S', result)) :
    (S' = S ∧ ∃ s, result = .error s ∧ (s.code = .alreadyExists → S.stored version ≠ none)) ∨
      ∃ b, codec.encode m = .ok b ∧ S.stored version = none ∧ S' = S.put i version b start u ∧
        (result = .ok () ∨ ∃ s, result = .error s) := by
  cases w with
  | failed s =>
    simp only [writeManifest] at h
    split_ifs at h with hcode
    cases h
    exact .inl ⟨rfl, s, rfl, fun hc => absurd hc hcode⟩
  | performed =>
    simp only [writeManifest] at h
    split at h
    · next s henc =>
      cases h
      exact .inl ⟨rfl, s, rfl, fun hc => absurd hc (codec.code_of_encode_error _ _ henc)⟩
    · cases h
    · next b henc =>
      split at h
      · next hst =>
        cases h
        exact .inr ⟨b, henc, hst, rfl, .inl rfl⟩
      · next b' hst =>
        cases h
        exact .inl ⟨rfl, _, rfl, fun _ => by simp [hst]⟩
  | replyLost s =>
    simp only [writeManifest] at h
    split at h
    · next b henc hst =>
      cases h
      exact .inr ⟨b, henc, hst, rfl, .inr ⟨s, rfl⟩⟩
    · cases h

end System

end MilvusStorage
