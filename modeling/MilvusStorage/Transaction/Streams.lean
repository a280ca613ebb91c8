import MilvusStorage.Manifest.WriteTo
import MilvusStorage.Transaction.Protocol

/-!
# Transactions and the streams they write to

Transactions on a table whose manifests are written by `WriteTo`, with its streams made visible. A
conditional stream publishes a file when it is closed, and only then. A plain stream creates the
file when it is opened, and until it is closed any part of the bytes can be in it. A call to `Write`
or `Close` may fail, and a process may stop between any two calls.

The steps that do not write are those of `System.next`. They leave the files alone
(`System.leavesFiles_next`).
-/

namespace MilvusStorage

/-- Whether the filesystem has conditional streams. -/
inductive ConditionalStreams
  /-- It does not implement the interface. -/
  | unsupported
  /-- It implements it and answers that it is not implemented. -/
  | notImplemented
  | supported
  deriving DecidableEq, Repr

/-- The call has found the path free and goes on with a plain stream. -/
def WritePhase.Plain : WritePhase → Prop
  | .absent => True
  | .opened conditional => conditional = false
  | .wrote conditional => conditional = false
  | _ => False

/-- The phase of the stream once a call has returned. -/
def WritePhase.settled : WritePhase → WritePhase
  | .returned _ => .idle
  | p => p

/-- The file has been created by a plain stream. -/
def WritePhase.Created : WritePhase → Prop
  | .opened conditional => conditional = false
  | .wrote conditional => conditional = false
  | _ => False

theorem WritePhase.Created.plain {p : WritePhase} (h : p.Created) : p.Plain := by
  cases p with
  | opened c => exact h
  | wrote c => exact h
  | _ => exact h.elim

/-- The version that the transaction is about to write. -/
def Phase.target : Phase → Option ℕ
  | .committing _ _ (.write _ v _) => some (v + 1)
  | _ => none

/-- Transactions, the streams of their calls of `WriteTo`, and the manifests that a `Commit` has
reported as written, with their versions. -/
structure Table (β : Type) where
  sys : System (List β)
  streams : ℕ → WriteCall β
  reported : List (ℕ × Manifest)

inductive TableAction
  /-- Any step of a transaction but the write. -/
  | step (a : Action)
  /-- `WriteTo` is called and serializes the manifest. -/
  | call (i : ℕ)
  | conditionalOpen (i : ℕ)
  | check (i : ℕ)
  | openStream (i : ℕ)
  /-- Of a plain stream, the first `k` bytes are in the file then. -/
  | write (i k : ℕ) (failure : Option Status)
  /-- If it fails, the first `k` bytes are in the file of a plain stream. -/
  | close (i k : ℕ) (failure : Option Status)

/-- The action is a call on the transaction's stream that does not fail. -/
def TableAction.Succeeds (i : ℕ) : TableAction → Prop
  | .openStream j => j = i
  | .write j _ failure => j = i ∧ failure = none
  | .close j _ failure => j = i ∧ failure = none
  | _ => False

/-- The version that the action reads. -/
def System.reads {B : Type} (S : System B) : Action → Option ℕ
  | .read i _ =>
    match (S.clients i).phase with
    | .loading _ v => some v
    | .committing _ _ (.read _ v) => some v
    | _ => none
  | _ => none

namespace Table

variable {β : Type} (codec : Codec (List β)) (fs : ConditionalStreams) (process : ℕ → ℕ)
  (S : Table β)

/-- The version that a transaction is writing. -/
def target (i : ℕ) : Option ℕ := (S.sys.clients i).phase.target

def setFile (version : ℕ) (bytes : List β) : Table β :=
  { S with sys := { S.sys with files := (getManifestFilename version, bytes) :: S.sys.files } }

/-- A write that succeeds is reported. -/
def report (entry : ℕ × Manifest) : Except Status Unit → List (ℕ × Manifest)
  | .ok () => entry :: S.reported
  | .error _ => S.reported

/-- The call goes on, or it returns and `Commit` does what it does with the result. -/
def advance (i : ℕ) (phase : WritePhase) : Table β :=
  match phase with
  | .returned result =>
    match (S.sys.clients i).phase with
    | .committing t start (.write r v m) =>
      { sys := S.sys.setPhase i (.committing t start (t.written r v result))
        streams := Function.update S.streams i { data := [], phase := .idle }
        reported := S.report (v + 1, m.copy (S.sys.clients i).groups) result }
    | _ => S
  | phase => { S with streams := Function.update S.streams i { S.streams i with phase } }

/-- The answer to opening a conditional stream. -/
def conditionalAnswer : Except Status Unit :=
  if fs = .supported then .ok ()
  else .error (.notImplemented "UploadConditional is not implemented")

/-- The table after a call to `Write`. -/
def write (i version k : ℕ) (conditional : Bool) (failure : Option Status) : Table β :=
  let S := if conditional then S else S.setFile version ((S.streams i).data.take k)
  S.advance i (.afterWrite conditional (failure.elim (.ok ()) .error))

/-- The table after a call to `Close`. -/
def close (i version k : ℕ) (conditional : Bool) (failure : Option Status) : Table β :=
  let path := getManifestFilename version
  match conditional, failure with
  | true, some s => S.advance i (.afterClose path true (.error s))
  | true, none =>
    if (S.sys.stored version).isSome then
      S.advance i (.afterClose path true
        (.error (.makeExtendError .awsErrorPreConditionFailed "At least one precondition failed")))
    else (S.setFile version (S.streams i).data).advance i (.afterClose path true (.ok ()))
  | false, some s =>
    (S.setFile version ((S.streams i).data.take k)).advance i (.afterClose path false (.error s))
  | false, none =>
    (S.setFile version (S.streams i).data).advance i (.afterClose path false (.ok ()))

/-- The table after an action, if the action is enabled. -/
def next : TableAction → Option (Table β)
  | .step (.write _ _) => none
  | .step a => (S.sys.next codec process a).map fun sys => { S with sys }
  | .call i =>
    match (S.sys.clients i).phase, (S.streams i).phase with
    | .committing _ _ (.write _ _ m), .idle =>
      match codec.encode (m.copy (S.sys.clients i).groups) with
      | .error (.status s) => some (S.advance i (.returned (.error s)))
      | .error _ => none
      | .ok data =>
        let phase := if fs = .unsupported then .checking else .start
        some { S with streams := Function.update S.streams i { data, phase } }
    | _, _ => none
  | .conditionalOpen i =>
    match S.target i, (S.streams i).phase with
    | some v, .start =>
      some (S.advance i (.afterConditionalOpen (getManifestFilename v) (conditionalAnswer fs)))
    | _, _ => none
  | .check i =>
    match S.target i, (S.streams i).phase with
    | some v, .checking =>
      some (S.advance i (.afterCheck (getManifestFilename v) (.ok (S.sys.stored v).isSome)))
    | _, _ => none
  | .openStream i =>
    match S.target i, (S.streams i).phase with
    | some v, .absent => some ((S.setFile v []).advance i (.afterOpen (.ok ())))
    | _, _ => none
  | .write i k failure =>
    match S.target i, (S.streams i).phase with
    | some v, .opened conditional => some (S.write i v k conditional failure)
    | _, _ => none
  | .close i k failure =>
    match S.target i, (S.streams i).phase with
    | some v, .wrote conditional => some (S.close i v k conditional failure)
    | _, _ => none

/-- `Open` at the latest version, while nobody else acts: the version and its manifest. -/
def openLatest (i : ℕ) : Except Status (ℕ × Manifest) :=
  (S.sys.readManifest codec process i S.sys.latest).2.map fun m => (S.sys.latest, m)

/-- Opening the table succeeds, and reads a manifest that was reported as written, or the empty one
of a table without manifests. -/
def Reopens : Prop :=
  ∀ i, ∃ v m, S.openLatest codec process i = .ok (v, m) ∧ (v = 0 ∧ m = {} ∨ (v, m) ∈ S.reported)

/-- The version whose file the action looks at or writes. -/
def touches : TableAction → Option ℕ
  | .step a => S.sys.reads a
  | .check i => S.target i
  | .openStream i => S.target i
  | .write i _ _ => S.target i
  | .close i _ _ => S.target i
  | _ => none

/-- While a call goes on with a plain stream, nobody else touches its file, and its calls do not
fail. -/
def Undisturbed (a : TableAction) : Prop :=
  ∀ i, (S.streams i).phase.Plain → S.touches a = S.target i → a.Succeeds i

/-- A table with these files, before any transaction is opened. -/
def initial (files : List (String × List β)) (reported : List (ℕ × Manifest)) : Table β where
  sys := .initial files
  streams _ := { data := [], phase := .idle }
  reported := reported

end Table

/-! ## Steps that do not write -/

namespace System

variable {B : Type} {codec : Codec B} {process : ℕ → ℕ} {S S' : System B}

variable (codec) in
/-- The step changes no file and no transaction that is about to write. What it caches is the
version it reads. -/
structure LeavesFiles (read : Option ℕ) (S S' : System B) : Prop where
  files : S'.files = S.files
  clients : ∀ i, (S.clients i).phase.target ≠ none → S'.clients i = S.clients i
  target : ∀ i v, (S'.clients i).phase.target = some v →
    (S.clients i).phase.target = some v ∨ 0 < v ∧ v < 2 ^ 63
  cache : ∀ p name m, S'.cache p name = some m →
    S.cache p name = some m ∨ ∃ v b, read = some v ∧ name = getManifestFilename v ∧
      S.stored v = some b ∧ codec.decode b = .ok m

variable {read : Option ℕ}

theorem LeavesFiles.refl (S : System B) : LeavesFiles codec read S S where
  files := rfl
  clients _ _ := rfl
  target _ _ h := .inl h
  cache _ _ _ h := .inl h

variable {i : ℕ}

theorem leavesFiles_setClient {c : Client} (hi : (S.clients i).phase.target = none)
    (hc : ∀ v, c.phase.target = some v → 0 < v ∧ v < 2 ^ 63) :
    LeavesFiles codec read S (S.setClient i c) where
  files := rfl
  clients j hj := by
    have hne : j ≠ i := by
      rintro rfl
      exact hj hi
    exact Function.update_of_ne hne ..
  target j v hv := by
    by_cases hji : j = i
    · subst hji
      simp only [setClient, Function.update_self] at hv
      exact .inr (hc v hv)
    · simp only [setClient, Function.update_of_ne hji] at hv
      exact .inl hv
  cache _ _ _ h := .inl h

theorem leavesFiles_setPhase {p : Phase} (hi : (S.clients i).phase.target = none)
    (hp : ∀ v, p.target = some v → 0 < v ∧ v < 2 ^ 63) :
    LeavesFiles codec read S (S.setPhase i p) :=
  leavesFiles_setClient hi hp

theorem leavesFiles_setCache {p : ℕ} {name : String} {entry : Option Manifest}
    (h : ∀ m, entry = some m → ∃ v b, read = some v ∧ name = getManifestFilename v ∧
      S.stored v = some b ∧ codec.decode b = .ok m) :
    LeavesFiles codec read S (S.setCache p name entry) where
  files := rfl
  clients _ _ := rfl
  target _ _ h := .inl h
  cache q name' m hm := by
    by_cases heq : q = p ∧ name' = name
    · obtain ⟨rfl, rfl⟩ := heq
      simp only [setCache, Function.update_self] at hm
      exact .inr (h m hm)
    · left
      rw [← hm, setCache]
      by_cases hq : q = p
      · subst hq
        have hname : name' ≠ name := fun hname => heq ⟨rfl, hname⟩
        simp [Function.update_of_ne hname]
      · simp [Function.update_of_ne hq]

theorem LeavesFiles.trans {S1 S2 S3 : System B} (h1 : LeavesFiles codec read S1 S2)
    (h2 : LeavesFiles codec read S2 S3) : LeavesFiles codec read S1 S3 where
  files := h2.files.trans h1.files
  clients i hi := by
    have hsame := h1.clients i hi
    rw [h2.clients i (hsame ▸ hi), hsame]
  target i v hv := (h2.target i v hv).elim (h1.target i v) Or.inr
  cache p name m hm := by
    rcases h2.cache p name m hm with hm | ⟨v, b, hread, hname, hb⟩
    · exact h1.cache p name m hm
    · rw [stored, h1.files] at hb
      exact .inr ⟨v, b, hread, hname, hb⟩

theorem leavesFiles_tryReadManifest {v : ℕ} {failure : Option Status}
    {result : Except Status Manifest}
    (h : S.tryReadManifest codec process i v failure = (S', result)) :
    LeavesFiles codec (some v) S S' ∧ S'.clients = S.clients := by
  cases failure with
  | some s =>
    cases h
    exact ⟨.refl S, rfl⟩
  | none =>
    simp only [tryReadManifest, readManifest] at h
    split_ifs at h
    · cases h
      exact ⟨.refl S, rfl⟩
    · split at h
      · cases h
        exact ⟨.refl S, rfl⟩
      · split at h
        · cases h
          exact ⟨.refl S, rfl⟩
        · next b hb =>
          split at h
          · cases h
            exact ⟨.refl S, rfl⟩
          · next m hdec =>
            cases h
            refine ⟨leavesFiles_setCache fun m' hm' => ⟨v, b, rfl, rfl, hb, ?_⟩, rfl⟩
            rw [hdec, Option.some.inj hm']

section

variable (t : Transaction) (start : Store)
include t start

/-- Only the resolver leads to a write. -/
theorem target_written (r v : ℕ) (result : Except Status Unit) :
    (Phase.committing t start (t.written r v result)).target = none := by
  cases result with
  | ok u => rfl
  | error s =>
    simp only [Transaction.written]
    split_ifs <;> rfl

theorem target_begin : (Phase.committing t start t.begin).target = none := by
  rw [Transaction.begin]
  split_ifs <;> rfl

theorem target_listed (r : ℕ) (answer : Except Status ℕ) :
    (Phase.committing t start (t.listed r answer)).target = none := by
  cases answer with
  | error s => rfl
  | ok v =>
    simp only [Transaction.listed]
    split_ifs <;> rfl

theorem target_loaded (r v : ℕ) (answer : Except Status Manifest) :
    (Phase.committing t start (Transaction.loaded r v answer)).target = none := by
  cases answer <;> rfl

end

theorem target_resolved {t : Transaction} {start σ : Store} {r v w : ℕ} {lm : Option Manifest}
    (h : (Phase.committing t start (t.resolved σ r v lm).2).target = some w) :
    0 < w ∧ w < 2 ^ 63 := by
  simp only [Transaction.resolved] at h
  split at h
  · cases h
  · split_ifs at h with hlt
    · cases h
      exact ⟨Nat.succ_pos v, hlt⟩
    · cases h

/-- Every step but a write. -/
theorem leavesFiles_next {a : Action} (ha : ∀ i w, a ≠ .write i w)
    (h : S.next codec process a = some S') : LeavesFiles codec (S.reads a) S S' := by
  cases a with
  | «open» i o =>
    simp only [next] at h
    split at h
    · next hp =>
      split at h
      · cases h
        exact leavesFiles_setPhase (by rw [hp]; rfl) nofun
      · split_ifs at h
        cases h
        exact leavesFiles_setPhase (by rw [hp]; rfl) nofun
    · cases h
  | list i failure =>
    simp only [next] at h
    split at h
    · next o hp =>
      cases h
      apply leavesFiles_setPhase (by rw [hp]; rfl)
      cases failure <;> exact nofun
    · next t start r hp =>
      cases h
      apply leavesFiles_setPhase (by rw [hp]; rfl)
      rw [target_listed]
      exact nofun
    · cases h
  | read i failure =>
    simp only [next] at h
    split at h
    · next o v hp =>
      rw [show S.reads _ = some v by simp only [reads, hp]]
      rcases hr : S.tryReadManifest codec process i v failure with ⟨S1, result⟩
      obtain ⟨h1, hclients⟩ := leavesFiles_tryReadManifest hr
      rw [hr] at h
      cases result
      all_goals
        cases h
        exact h1.trans (leavesFiles_setPhase (by rw [hclients, hp]; rfl) nofun)
    · next t start r v hp =>
      rw [show S.reads _ = some v by simp only [reads, hp]]
      rcases hr : S.tryReadManifest codec process i v failure with ⟨S1, result⟩
      obtain ⟨h1, hclients⟩ := leavesFiles_tryReadManifest hr
      rw [hr] at h
      cases h
      refine h1.trans (leavesFiles_setPhase (by rw [hclients, hp]; rfl) ?_)
      rw [target_loaded]
      exact nofun
    · cases h
  | update i σ u =>
    simp only [next] at h
    split at h
    · next t hp =>
      cases h
      exact leavesFiles_setClient (by rw [hp]; rfl) nofun
    · cases h
  | commit i =>
    simp only [next] at h
    split at h
    · next t hp =>
      cases h
      apply leavesFiles_setPhase (by rw [hp]; rfl)
      rw [target_begin]
      exact nofun
    · cases h
  | resolve i =>
    simp only [next] at h
    split at h
    · next t start r v lm hp =>
      cases h
      exact leavesFiles_setClient (by rw [hp]; rfl) fun w hw => target_resolved hw
    · cases h
  | write i w => exact absurd rfl (ha i w)
  | leave i =>
    simp only [next] at h
    split at h
    · next t start result hp =>
      cases h
      exact leavesFiles_setPhase (by rw [hp]; rfl) nofun
    · cases h
  | close i =>
    simp only [next] at h
    split at h
    · next t hp =>
      cases h
      exact leavesFiles_setPhase (by rw [hp]; rfl) nofun
    · cases h
  | evict p name =>
    cases h
    exact leavesFiles_setCache nofun

end System

end MilvusStorage
