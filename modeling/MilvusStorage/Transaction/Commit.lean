import MilvusStorage.Transaction.Updates

/-!
# Resolvers and the commit loop

A transaction reads a manifest when it is opened and records updates. `Commit` lists the manifest
versions, lets the resolver compute the manifest to write, writes it as the version after the latest
one, and starts over when that version already exists.

The loop is modelled as the phases between its calls to the filesystem (`CommitPhase`), with one
function for what the code does with each answer. Other transactions can act between any two phases.
`Transaction.passes` runs the loop on a list of answers.
-/

namespace MilvusStorage

/-! ## Resolvers -/

/-- A conflict resolver. `latestManifest` is null when the versions differ and the resolver does not
require it. -/
structure Resolver where
  requireLatest : Bool
  resolve (σ : Store) (readManifest : Manifest) (readVersion : ℕ)
    (latestManifest : Option Manifest) (latestVersion : ℕ) (updates : Updates) :
    Except Fault (Store × Manifest)

def overwriteResolver : Resolver where
  requireLatest := false
  resolve σ readManifest _ _ _ updates := applyUpdates σ readManifest updates

def failResolver : Resolver where
  requireLatest := false
  resolve σ readManifest readVersion latestManifest latestVersion updates :=
    if readVersion = latestVersion then
      applyUpdates σ (latestManifest.getD readManifest) updates
    else
      .error (.status (.makeExtendError .txnResolutionFailed
        (s!"FailResolver: concurrent transaction detected, [read_version={readVersion}]" ++
          s!"[latest_version={latestVersion}]")))

/-! ## Transactions -/

structure Transaction where
  readVersion : ℕ
  readManifest : Manifest
  updates : Updates
  resolver : Resolver
  retryLimit : ℕ

/-- Where `Commit` stands: before its next call to the filesystem or to the resolver. -/
inductive CommitPhase
  /-- Before the versions are listed. -/
  | list (retryCount : ℕ)
  /-- Before the latest manifest is read. -/
  | read (retryCount latestVersion : ℕ)
  /-- Before the resolver is called. -/
  | resolve (retryCount latestVersion : ℕ) (latestManifest : Option Manifest)
  /-- Before the resolved manifest is written. -/
  | write (retryCount latestVersion : ℕ) (resolved : Manifest)
  /-- After the return. -/
  | done (result : Except Fault ℕ)

namespace Transaction

variable (t : Transaction)

/-- The start of `Commit`. -/
def begin : CommitPhase :=
  if t.updates.hasChanges then .list 0
  else .done (.error (.status (.invalid "Cannot commit: no updates recorded")))

/-- `reload_latest_manifest` once the versions are listed. -/
def listed (retryCount : ℕ) : Except Status ℕ → CommitPhase
  | .error s => .done (.error (.status s))
  | .ok latestVersion =>
    if latestVersion = t.readVersion then .resolve retryCount latestVersion (some t.readManifest)
    else if !t.resolver.requireLatest then .resolve retryCount latestVersion none
    else .read retryCount latestVersion

/-- `reload_latest_manifest` once the latest manifest is read. -/
def loaded (retryCount latestVersion : ℕ) : Except Status Manifest → CommitPhase
  | .error s => .done (.error (.status s))
  | .ok latestManifest => .resolve retryCount latestVersion (some latestManifest)

/-- Call the resolver. The version to write is one more than the latest, in an `int64_t`. -/
def resolved (σ : Store) (retryCount latestVersion : ℕ) (latestManifest : Option Manifest) :
    Store × CommitPhase :=
  match t.resolver.resolve σ t.readManifest t.readVersion latestManifest latestVersion
    t.updates with
  | .error f => (σ, .done (.error f))
  | .ok (σ', m) =>
    if latestVersion + 1 < 2 ^ 63 then (σ', .write retryCount latestVersion m)
    else (σ', .done (.error .signedOverflow))

/-- The end of the loop body: return, or count a conflict, in a `uint32_t`, and start over. -/
def written (retryCount latestVersion : ℕ) : Except Status Unit → CommitPhase
  | .ok () => .done (.ok (latestVersion + 1))
  | .error s =>
    if s.code = .alreadyExists then
      let retryCount := (retryCount + 1) % 2 ^ 32
      if t.retryLimit < retryCount then
        .done (.error (.status (.makeExtendError .txnExhaustedRetry
          ("Commit failed: exceeded retry limit of " ++ toString t.retryLimit ++
            " attempts due to concurrent transactions, [read_version=" ++ toString t.readVersion ++
            "][latest_version=" ++ toString latestVersion ++ "]"))))
      else .list retryCount
    else
      .done (.error (.status (.ioError ("Commit failed: write manifest error, [read_version=" ++
        toString t.readVersion ++ "][latest_version=" ++ toString latestVersion ++
        "][committed_version=" ++ toString (latestVersion + 1) ++ "]: " ++ s.toString))))

end Transaction

/-! ## The loop on given answers -/

/-- The answers of the filesystem in one pass of the loop. -/
structure Attempt where
  latest : Except Status ℕ
  manifest : Except Status Manifest
  write : Except Status Unit

namespace Transaction

variable (t : Transaction)

/-- The part of a pass before the resolver is called. -/
def reload (retryCount : ℕ) (a : Attempt) : CommitPhase :=
  match t.listed retryCount a.latest with
  | .read retryCount latestVersion => loaded retryCount latestVersion a.manifest
  | p => p

/-- One pass of the loop: the store and the phase after it, and the value of the manifest that was
handed to the write, if it came to that. -/
def pass (σ : Store) (retryCount : ℕ) (a : Attempt) : Store × Option Manifest × CommitPhase :=
  match t.reload retryCount a with
  | .resolve retryCount latestVersion latestManifest =>
    match t.resolved σ retryCount latestVersion latestManifest with
    | (σ', .write retryCount latestVersion m) =>
      (σ', some (m.copy σ'), t.written retryCount latestVersion a.write)
    | (σ', p) => (σ', none, p)
  | p => (σ, none, p)

/-- Passes until the loop is left or the answers are used up. -/
def passes (σ : Store) (retryCount : ℕ) : List Attempt → Store × Option Manifest × CommitPhase
  | [] => (σ, none, .list retryCount)
  | a :: as =>
    match t.pass σ retryCount a with
    | (σ', _, .list retryCount') => passes σ' retryCount' as
    | r => r

end Transaction

end MilvusStorage
