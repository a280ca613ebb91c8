import MilvusStorage.Foundations.Except
import MilvusStorage.Transaction.Protocol

/-!
# Commits with the fail resolver are serial

When all transactions use the fail resolver, every run of the protocol builds one sequence of
manifests, each computed from the one before it (`commits_serial`).

The invariant ties the position of a `Commit` to the directory. Its list step reads the latest
version, which can only grow. The resolver goes on only if that is the version the transaction has
read, so what it resolves is computed from the stored manifest of that version. The write creates
the next version only if it is absent, that is, only if the version listed is still the latest. And
after a conflict the latest version is past the one that was read, so the resolver fails: the
updates are applied at most once.
-/

namespace MilvusStorage

open List Function

/-- The transaction is opened with the fail resolver, if the action opens one. -/
def Action.FailOnly : Action → Prop
  | .open _ o => o.resolver = failResolver
  | _ => True

namespace System

variable {B : Type} (codec : Codec B)

/-- The version of the record holds what `applyUpdates` computes from the stored manifest of the
version before it and the recorded updates. -/
def Derived (S : System B) (rec : Record) : Prop :=
  ∃ v m σ' m', rec.version = v + 1 ∧ S.storedManifest codec v = some m ∧
    applyUpdates rec.store m rec.updates = .ok (σ', m') ∧
    S.storedManifest codec rec.version = some (m'.copy σ')

/-- One sequence of manifests, from the files at the start. -/
structure Sequence (files : List (String × B)) (S : System B) : Prop where
  /-- The `k`-th stored manifest is version `k + 1` after the latest one at the start. -/
  versions : ∀ k rec, S.log[k]? = some rec →
    rec.version = latestVersion (files.map Prod.fst) + k + 1
  /-- The last stored manifest is the latest version. -/
  latest_eq : S.latest = latestVersion (files.map Prod.fst) + S.log.length
  /-- Every stored manifest is computed from the one before it. -/
  history : ∀ rec ∈ S.log, S.Derived codec rec
  /-- The manifests at the start are still there. -/
  kept : ∀ v b, (initial files).stored v = some b → S.stored v = some b
  /-- There are no others. -/
  origin : ∀ v b, S.stored v = some b →
    (initial files).stored v = some b ∨ ∃ rec ∈ S.log, rec.version = v

structure Serial (files : List (String × B)) (S : System B) : Prop
    extends S.Sequence codec files where
  /-- A `Commit` that returns a version has stored it, with its own updates. -/
  returned : ∀ i t start version, (S.clients i).phase = .committing t start (.done (.ok version)) →
    ∃ rec ∈ S.log, rec.client = i ∧ rec.version = version ∧ rec.store = start ∧
      rec.updates = t.updates

/-! ## The invariant -/

/-- What an open transaction has read is stored. -/
def TxnOk (S : System B) (t : Transaction) : Prop :=
  t.resolver = failResolver ∧ t.readVersion ≤ S.latest ∧
    S.storedManifest codec t.readVersion = some t.readManifest

/-- Where a `Commit` stands, in terms of the directory; `n` is the latest version at the start. -/
def CommitOk (n : ℕ) (S : System B) (i : ℕ) (t : Transaction) (start groups : Store) :
    CommitPhase → Prop
  | .list _ => groups = start ∨ t.readVersion < S.latest
  | .read _ _ => False
  | .resolve _ v lm => (groups = start ∨ t.readVersion < v) ∧ n ≤ v ∧ v ≤ S.latest ∧
      (v = t.readVersion → lm = some t.readManifest)
  | .write _ v m => v = t.readVersion ∧ n ≤ v ∧ v ≤ S.latest ∧ v + 1 < 2 ^ 63 ∧
      applyUpdates start t.readManifest t.updates = .ok (groups, m)
  | .done (.ok version) => ∃ rec ∈ S.log, rec.client = i ∧ rec.version = version ∧
      rec.store = start ∧ rec.updates = t.updates
  | .done (.error _) => True

def ClientOk (n : ℕ) (S : System B) (i : ℕ) (c : Client) : Prop :=
  match c.phase with
  | .closed => True
  | .opening o => o.resolver = failResolver
  | .loading o v => o.resolver = failResolver ∧ v < 2 ^ 63
  | .ready t => S.TxnOk codec t
  | .committing t start p => S.TxnOk codec t ∧ S.CommitOk n i t start c.groups p

structure Inv (files : List (String × B)) (S : System B) : Prop extends S.Sequence codec files where
  bound : S.latest < 2 ^ 63
  cache : ∀ p name m, S.cache p name = some m →
    ∃ b, S.files.lookup name = some b ∧ codec.decode b = .ok m
  clients : ∀ i, S.ClientOk codec (latestVersion (files.map Prod.fst)) i (S.clients i)

variable {codec} {files : List (String × B)} {S : System B}

theorem initial_inv : Inv codec files (initial files) where
  versions k rec h := by simp [initial] at h
  latest_eq := rfl
  history rec h := by simp [initial] at h
  kept v b h := h
  origin v b h := .inl h
  bound := latestVersion_lt _
  cache p name m h := by simp [initial] at h
  clients i := trivial

variable {i v n r : ℕ} {S' : System B} {t : Transaction} {start groups : Store}
  {failure : Option Status}

/-- A step of one transaction that leaves the directory alone. -/
theorem Inv.setClient (h : Inv codec files S) {c : Client}
    (hc : S.ClientOk codec (latestVersion (files.map Prod.fst)) i c) :
    Inv codec files (S.setClient i c) where
  toSequence := ⟨h.versions, h.latest_eq, h.history, h.kept, h.origin⟩
  bound := h.bound
  cache := h.cache
  clients j := by
    by_cases hj : j = i
    · subst hj
      have hself : (S.setClient j c).clients j = c := update_self ..
      rwa [hself]
    · have hother : (S.setClient i c).clients j = S.clients j := update_of_ne hj ..
      rw [hother]
      exact h.clients j

theorem Inv.setPhase (h : Inv codec files S) {p : Phase}
    (hc : S.ClientOk codec (latestVersion (files.map Prod.fst)) i { S.clients i with phase := p }) :
    Inv codec files (S.setPhase i p) :=
  h.setClient hc

/-- A step that changes only the cache. -/
theorem Inv.setCache (h : Inv codec files S) {p : ℕ} {name : String} {entry : Option Manifest}
    (he : ∀ m, entry = some m → ∃ b, S.files.lookup name = some b ∧ codec.decode b = .ok m) :
    Inv codec files (S.setCache p name entry) where
  toSequence := ⟨h.versions, h.latest_eq, h.history, h.kept, h.origin⟩
  bound := h.bound
  cache q name' m hm := by
    by_cases hq : q = p
    · subst hq
      by_cases hn : name' = name
      · subst hn
        simp only [System.setCache, update_self] at hm
        exact he m hm
      · simp only [System.setCache, update_self, update_of_ne hn] at hm
        exact h.cache q name' m hm
    · simp only [System.setCache, update_of_ne hq] at hm
      exact h.cache q name' m hm
  clients := h.clients

/-! ## Storing a version -/

section Put

variable {i : ℕ} {b : B} {start : Store} {u : Updates} {t : Transaction}

theorem TxnOk.put (h : S.TxnOk codec t) (hbound : S.latest + 1 < 2 ^ 63) :
    (S.put i (S.latest + 1) b start u).TxnOk codec t := by
  obtain ⟨hres, hle, hread⟩ := h
  refine ⟨hres, ?_, ?_⟩
  · rw [latest_put i b start u hbound (by omega)]
    omega
  · rw [storedManifest_put_of_ne i b start u (by omega), hread]

theorem CommitOk.put {n j : ℕ} {start' groups : Store} {p : CommitPhase}
    (h : S.CommitOk n j t start' groups p) (hbound : S.latest + 1 < 2 ^ 63) :
    (S.put i (S.latest + 1) b start u).CommitOk n j t start' groups p := by
  have hlatest := latest_put (S := S) i b start u hbound (by omega)
  match p, h with
  | .list _, h =>
    exact h.imp id fun hlt => by omega
  | .resolve _ v lm, ⟨hst, hn, hle, hlm⟩ =>
    exact ⟨hst, hn, by omega, hlm⟩
  | .write _ v m, ⟨hv, hn, hle, hlt, happ⟩ =>
    exact ⟨hv, hn, by omega, hlt, happ⟩
  | .done (.ok version), ⟨rec, hmem, hrec⟩ => exact ⟨rec, mem_append_left _ hmem, hrec⟩
  | .done (.error _), _ => trivial

theorem ClientOk.put {n j : ℕ} {c : Client} (h : S.ClientOk codec n j c)
    (hbound : S.latest + 1 < 2 ^ 63) :
    (S.put i (S.latest + 1) b start u).ClientOk codec n j c := by
  unfold ClientOk at h ⊢
  cases hp : c.phase with
  | closed => trivial
  | opening o | loading o v => simpa [hp] using h
  | ready t =>
    simp only [hp] at h ⊢
    exact h.put hbound
  | committing t start' p =>
    simp only [hp] at h ⊢
    exact ⟨h.1.put hbound, h.2.put hbound⟩

theorem Derived.put {rec : Record} (h : S.Derived codec rec) (hle : rec.version ≤ S.latest) :
    (S.put i (S.latest + 1) b start u).Derived codec rec := by
  obtain ⟨v, m, σ', m', hv, hm, happ, hm'⟩ := h
  refine ⟨v, m, σ', m', hv, ?_, happ, ?_⟩
  · rw [storedManifest_put_of_ne i b start u (by omega), hm]
  · rw [storedManifest_put_of_ne i b start u (by omega), hm']

/-- **Storing the next version**: the version after the latest one is absent, and what is stored is
computed from the latest one. -/
theorem Inv.put (h : Inv codec files S) {m m' : Manifest} {σ' : Store}
    (hbound : S.latest + 1 < 2 ^ 63) (hm : S.storedManifest codec S.latest = some m)
    (happ : applyUpdates start m u = .ok (σ', m')) (hdec : codec.decode b = .ok (m'.copy σ'))
    (habsent : S.stored (S.latest + 1) = none) :
    Inv codec files (S.put i (S.latest + 1) b start u) := by
  have hlatest := latest_put (S := S) i b start u hbound (by omega)
  have hlen := h.latest_eq
  refine ⟨⟨versions_put i b start u h.versions (by omega), ?_, fun rec hrec => ?_,
    fun v b' hv => ?_, fun v b' hv => ?_⟩, by omega, fun p name m0 hc => ?_,
    fun j => (h.clients j).put hbound⟩
  · rw [hlatest, System.put, length_append, hlen]
    rfl
  · rcases (mem_log_put i b start u).mp hrec with hrec | rfl
    · obtain ⟨k, hk⟩ := mem_iff_getElem?.mp hrec
      have hklen := lt_of_getElem? hk
      have hver := h.versions k rec hk
      exact (h.history rec hrec).put (by omega)
    · exact ⟨S.latest, m, σ', m', rfl,
        by rw [storedManifest_put_of_ne i b start u (by omega), hm], happ,
        storedManifest_of_stored (Nat.succ_ne_zero _) (stored_put_self i b start u _) hdec⟩
  · have hne : v ≠ S.latest + 1 := by
      rintro rfl
      rw [h.kept _ _ hv] at habsent
      cases habsent
    rw [stored_put_of_ne i b start u hne]
    exact h.kept v b' hv
  · by_cases hv' : v = S.latest + 1
    · exact .inr ⟨_, mem_append_right _ (mem_singleton_self _), hv'.symm⟩
    · rw [stored_put_of_ne i b start u hv'] at hv
      refine (h.origin v b' hv).imp id ?_
      rintro ⟨rec, hmem, hrec⟩
      exact ⟨rec, mem_append_left _ hmem, hrec⟩
  · obtain ⟨b', hb', hdec⟩ := h.cache p name m0 hc
    refine ⟨b', ?_, hdec⟩
    have hne : (name == getManifestFilename (S.latest + 1)) = false := by
      refine beq_false_of_ne fun heq => ?_
      rw [heq] at hb'
      rw [stored, hb'] at habsent
      cases habsent
    rwa [System.put, lookup_cons, hne]

end Put

/-- A version after the start that is not past the latest one is stored. -/
theorem Inv.stored_of_le (h : Inv codec files S) (hn : latestVersion (files.map Prod.fst) < v)
    (hle : v ≤ S.latest) : S.stored v ≠ none := by
  have hlen := h.latest_eq
  have hk : v - latestVersion (files.map Prod.fst) - 1 < S.log.length := by omega
  have hrec := h.versions _ _ (getElem?_eq_getElem hk)
  obtain ⟨_, _, _, _, _, _, _, hm⟩ := h.history _ (getElem_mem hk)
  obtain ⟨b, hb, -⟩ := stored_of_storedManifest (by omega) hm
  have hv : v = S.log[v - latestVersion (files.map Prod.fst) - 1].version := by omega
  rw [hv, hb]
  simp

/-! ## Every step preserves the invariant -/

variable {process : ℕ → ℕ}

theorem Inv.tryReadManifest (h : Inv codec files S) {result : Except Status Manifest}
    (hr : S.tryReadManifest codec process i v failure = (S', result)) :
    Inv codec files S' ∧ S'.clients = S.clients ∧
      ∀ m, result = .ok m → S'.storedManifest codec v = some m := by
  cases failure with
  | some s =>
    cases hr
    exact ⟨h, rfl, fun m hm => by cases hm⟩
  | none =>
    obtain ⟨rfl | ⟨m, b, rfl, hb, hdec⟩, hok⟩ := readManifest_cases h.cache hr
    · exact ⟨h, rfl, hok⟩
    · refine ⟨h.setCache fun m' hm' => ⟨b, hb, ?_⟩, rfl, hok⟩
      rw [hdec, Option.some.inj hm']

/-- Starting a commit. -/
theorem CommitOk.begin {σ : Store} : S.CommitOk n i t σ σ t.begin := by
  unfold Transaction.begin
  split
  · exact .inl rfl
  · trivial

theorem CommitOk.listed (hres : t.resolver = failResolver) (hn : n ≤ S.latest)
    (h : S.CommitOk n i t start groups (.list r)) (answer : Except Status ℕ)
    (hanswer : ∀ v, answer = .ok v → v = S.latest) :
    S.CommitOk n i t start groups (t.listed r answer) := by
  cases answer with
  | error s => trivial
  | ok v =>
    obtain rfl := hanswer v rfl
    have hnot : (!t.resolver.requireLatest) = true := by rw [hres]; rfl
    simp only [Transaction.listed]
    split_ifs with hv
    · exact ⟨h, hn, le_rfl, fun _ => rfl⟩
    · exact ⟨h, hn, le_rfl, fun heq => absurd heq hv⟩

/-- The fail resolver goes on only from the version that was read, with the groups as they were when
`Commit` was called. -/
theorem CommitOk.resolved {lm : Option Manifest} (hres : t.resolver = failResolver)
    (h : S.CommitOk n i t start groups (.resolve r v lm)) :
    S.CommitOk n i t start (t.resolved groups r v lm).1 (t.resolved groups r v lm).2 := by
  obtain ⟨hst, hn, hle, hlm⟩ := h
  unfold Transaction.resolved
  rw [hres]
  simp only [failResolver]
  by_cases hv : t.readVersion = v
  · rw [if_pos hv, hlm hv.symm, Option.getD_some]
    obtain rfl : groups = start := hst.resolve_right (by omega)
    cases happ : applyUpdates groups t.readManifest t.updates with
    | error f => trivial
    | ok r' =>
      simp only
      split_ifs with hlt
      · exact ⟨hv.symm, hn, hle, hlt, happ⟩
      · trivial
  · rw [if_neg hv]
    trivial

/-- After a failed write the commit ends, or the latest version is past the one that was read. -/
theorem CommitOk.written_error (s : Status)
    (h : s.code = .alreadyExists → t.readVersion < S.latest) :
    S.CommitOk n i t start groups (t.written r v (.error s)) := by
  simp only [Transaction.written]
  split_ifs with hcode hlimit
  · trivial
  · exact .inr (h hcode)
  · trivial

/-- The write step. -/
theorem Inv.write (h : Inv codec files S) (hreads : S.ReadsBack codec) {m : Manifest}
    {w : IoOutcome}
    {result : Except Status Unit} (hp : (S.clients i).phase = .committing t start (.write r v m))
    (hw : S.writeManifest codec i (v + 1) (m.copy (S.clients i).groups) start t.updates w =
      some (S', result)) :
    Inv codec files (S'.setPhase i (.committing t start (t.written r v result))) := by
  have hc := h.clients i
  simp only [ClientOk, hp] at hc
  obtain ⟨htxn, hv, hn, hle, hlt, happ⟩ := hc
  obtain ⟨rfl, s, rfl, hs⟩ | ⟨b, henc, hst, rfl, hres⟩ := writeManifest_cases hw
  · refine h.setPhase ⟨htxn, CommitOk.written_error s fun hcode => ?_⟩
    obtain ⟨b, hb⟩ := Option.ne_none_iff_exists'.mp (hs hcode)
    have := le_latest hlt hb
    omega
  · -- the version to write is absent only if the version listed is still the latest
    obtain rfl : v = S.latest := by
      by_contra hne
      exact h.stored_of_le (by omega) (by omega) hst
    have hput : Inv codec files (S.put i (S.latest + 1) b start t.updates) := by
      refine h.put hlt ?_ happ (hreads i t start r _ m b hp henc) hst
      rw [hv]
      exact htxn.2.2
    refine hput.setPhase ⟨htxn.put hlt, ?_⟩
    obtain rfl | ⟨s, rfl⟩ := hres
    · exact ⟨_, mem_append_right _ (mem_singleton_self _), rfl, rfl, rfl, rfl⟩
    · refine CommitOk.written_error s fun _ => ?_
      rw [latest_put i b start t.updates hlt (by omega)]
      omega

/-- The list step of `Open` and of `Commit`. -/
theorem Inv.list (h : Inv codec files S)
    (hnext : S.next codec process (.list i failure) = some S') : Inv codec files S' := by
  have hlatest : latestVersion (files.map Prod.fst) ≤ S.latest := by
    rw [h.latest_eq]
    omega
  have hc := h.clients i
  simp only [next] at hnext
  split at hnext
  · next o hp =>
    cases hnext
    simp only [ClientOk, hp] at hc
    cases failure with
    | none => exact h.setPhase ⟨hc, h.bound⟩
    | some s => exact h.setPhase trivial
  · next t start r hp =>
    cases hnext
    simp only [ClientOk, hp] at hc
    refine h.setPhase ⟨hc.1, CommitOk.listed hc.1.1 hlatest hc.2 _ fun v hv => ?_⟩
    cases failure with
    | none => exact (Except.ok.inj hv).symm
    | some s => cases hv
  · cases hnext

/-- The read step of `Open`; with the fail resolver `Commit` does not read. -/
theorem Inv.read (h : Inv codec files S)
    (hnext : S.next codec process (.read i failure) = some S') : Inv codec files S' := by
  have hc := h.clients i
  simp only [next] at hnext
  split at hnext
  · next o v hp =>
    simp only [ClientOk, hp] at hc
    rcases hr : S.tryReadManifest codec process i v failure with ⟨S1, result⟩
    obtain ⟨h1, -, hok⟩ := h.tryReadManifest hr
    rw [hr] at hnext
    cases result with
    | error s =>
      cases hnext
      exact h1.setPhase trivial
    | ok m =>
      cases hnext
      refine h1.setPhase ⟨hc.1, ?_, hok m rfl⟩
      by_cases hv : v = 0
      · simp [hv]
      · obtain ⟨b, hb, -⟩ := stored_of_storedManifest hv (hok m rfl)
        exact le_latest hc.2 hb
  · next t start r v hp =>
    simp only [ClientOk, hp] at hc
    exact hc.2.elim
  · cases hnext

theorem next_inv {a : Action} (h : Inv codec files S) (ha : a.FailOnly) (hreads : S.ReadsBack codec)
    (hnext : S.next codec process a = some S') : Inv codec files S' := by
  cases a with
  | «open» i o =>
    simp only [next] at hnext
    split at hnext
    · split at hnext
      · cases hnext
        exact h.setPhase ha
      · split_ifs at hnext with hv
        cases hnext
        exact h.setPhase ⟨ha, hv⟩
    · cases hnext
  | list i failure => exact h.list hnext
  | read i failure => exact h.read hnext
  | update i σ u =>
    have hc := h.clients i
    simp only [next] at hnext
    split at hnext
    · next t hp =>
      cases hnext
      simp only [ClientOk, hp] at hc
      exact h.setClient hc
    · cases hnext
  | commit i =>
    have hc := h.clients i
    simp only [next] at hnext
    split at hnext
    · next t hp =>
      cases hnext
      simp only [ClientOk, hp] at hc
      exact h.setPhase ⟨hc, CommitOk.begin⟩
    · cases hnext
  | resolve i =>
    have hc := h.clients i
    simp only [next] at hnext
    split at hnext
    · next t start r v lm hp =>
      cases hnext
      simp only [ClientOk, hp] at hc
      exact h.setClient ⟨hc.1, hc.2.resolved hc.1.1⟩
    · cases hnext
  | write i w =>
    simp only [next] at hnext
    split at hnext
    · next t start r v m hp =>
      obtain ⟨⟨S1, result⟩, hw, rfl⟩ := Option.map_eq_some_iff.mp hnext
      exact h.write hreads hp hw
    · cases hnext
  | leave i =>
    have hc := h.clients i
    simp only [next] at hnext
    split at hnext
    · next t start r hp =>
      cases hnext
      simp only [ClientOk, hp] at hc
      exact h.setPhase hc.1
    · cases hnext
  | close i =>
    simp only [next] at hnext
    split at hnext
    · cases hnext
      exact h.setPhase trivial
    · cases hnext
  | evict p name =>
    cases hnext
    exact h.setCache fun m hm => by cases hm

theorem Inv.serial (h : Inv codec files S) : Serial codec files S where
  toSequence := h.toSequence
  returned i t start version hp := by
    have hc := h.clients i
    simp only [ClientOk, hp] at hc
    exact hc.2

/-- Manifests of the table at `/table`. -/
def tableCodec : Codec Manifest := plainCodec.withPaths schemeParser "/table"

/-- The options of a transaction that starts from the latest version. -/
def failOptions : OpenOptions := { readVersion := none, resolver := failResolver, retryLimit := 1 }

/-- Two transactions on an empty table that both add a delta log. -/
def race : List Action :=
  let u : Updates := { addedDeltaLogs := deltaManifest.deltaLogs }
  [.open 0 failOptions, .list 0 none, .read 0 none, .open 1 failOptions, .list 1 none, .read 1 none,
    .update 0 noGroups u, .update 1 noGroups u, .commit 0, .commit 1, .list 0 none, .list 1 none,
    .resolve 0, .resolve 1, .write 0 .performed, .write 1 .performed, .list 1 none, .resolve 1]

/-- A transaction that adds a file in a directory whose name has a colon. -/
def addPartition : List Action :=
  [.open 0 failOptions, .list 0 none, .read 0 none,
    .update 0 (fun _ => partitionGroup) { addedColumnGroups := [some 0] },
    .commit 0, .list 0 none, .resolve 0, .write 0 .performed]

end System

end MilvusStorage
