import MilvusStorage.Transaction.Protocol
import MilvusStorage.Transaction.Repeat

/-!
# Commits with the overwrite resolver make progress

Some transactions that use the overwrite resolver commit at the same time. A `Commit` that loses an
attempt has found a version taken that was free when it listed the versions, so the latest version
has grown since. It lists them again, and the versions it lists grow with every lost attempt. Every
lost attempt is thus charged to another transaction that has won, and each of those wins only once.
With `n` transactions nobody loses more than `n - 1` attempts (`Committers.commits_progress`).

What a `Commit` stores is what `applyUpdates` computes from the manifest it has read. But a lost
attempt has applied the updates already, which shows in the column groups of the caller unless the
updates are `Quiet`.
-/

namespace MilvusStorage

open List Function

/-! ## The steps of a commit -/

/-- The transaction whose `Commit` takes a step that does not fail. -/
def Action.committer : Action → Option ℕ
  | .commit i => some i
  | .list i none => some i
  | .resolve i => some i
  | .write i .performed => some i
  | _ => none

/-- The action is a write attempt of the transaction. -/
def Action.attemptOf (i : ℕ) : Action → Bool
  | .write j _ => j = i
  | _ => false

/-- How many steps of the transaction are among the actions. -/
def steps (i : ℕ) (actions : List Action) : ℕ := actions.countP fun a => a.committer = some i

/-- How many write attempts of the transaction are among the actions. -/
def attempts (i : ℕ) (actions : List Action) : ℕ := actions.countP (Action.attemptOf i)

variable {i : ℕ}

theorem steps_concat {a : Action} (h : a.committer = some i) (actions : List Action) :
    steps i (actions ++ [a]) = steps i actions + 1 := by
  simp [steps, h]

theorem attempts_concat (a : Action) (actions : List Action) :
    attempts i (actions ++ [a]) = attempts i actions + if a.attemptOf i then 1 else 0 := by
  simp [attempts]

/-- An action of one transaction is not an action of another. -/
theorem counts_concat_of_ne {j : ℕ} {a : Action} (h : a.committer = some i) (hne : j ≠ i)
    (actions : List Action) :
    steps j (actions ++ [a]) = steps j actions ∧
      attempts j (actions ++ [a]) = attempts j actions := by
  have hattempt : a.attemptOf j = false := by
    cases a with
    | write k w =>
      cases w with
      | performed =>
        cases h
        simpa [Action.attemptOf] using hne.symm
      | failed s => cases h
      | replyLost s => cases h
    | _ => rfl
  have hstep : a.committer ≠ some j := by
    rw [h]
    simpa using hne.symm
  simp [steps, attempts, hattempt, hstep]

namespace System

variable {B : Type}

/-- The `Commit` of the transaction has returned this version. -/
def Returned (S : System B) (i version : ℕ) : Prop :=
  ∃ t start, (S.clients i).phase = .committing t start (.done (.ok version))

/-- The transactions that have stored a manifest. -/
def winners (S : System B) : List ℕ := S.log.map Record.client

/-- The action is a write attempt of the transaction, and the version is taken. -/
def Loses (S : System B) (i : ℕ) (a : Action) : Prop :=
  a = .write i .performed ∧ ∃ t start r v m,
    (S.clients i).phase = .committing t start (.write r v m) ∧ S.stored (v + 1) ≠ none

end System

/-- The bytes are those of the manifest that `applyUpdates` computes for the transaction. -/
def Transaction.Computes {B : Type} (codec : Codec B) (σ : Store) (t : Transaction) (b : B) :
    Prop :=
  ∃ σ' m', applyUpdates σ t.readManifest t.updates = .ok (σ', m') ∧
    codec.encode (m'.copy σ') = .ok b

/-- `n` transactions with the overwrite resolver that are open, with what they have read and the
updates recorded, and the column groups that their callers hold. -/
structure Committers {B : Type} (codec : Codec B) (n : ℕ) where
  txn : ℕ → Transaction
  groups : ℕ → Store
  resolver_eq : ∀ i < n, (txn i).resolver = overwriteResolver
  hasChanges : ∀ i < n, (txn i).updates.hasChanges = true
  /-- The retry limit is a `uint32_t`. -/
  retryLimit : ∀ i < n, n ≤ (txn i).retryLimit + 1 ∧ (txn i).retryLimit < 2 ^ 32
  /-- The updates apply to the manifest that was read, and the result can be stored. -/
  applies : ∀ i < n, ∃ b, (txn i).Computes codec (groups i) b

namespace Committers

variable {B : Type} {codec : Codec B} {n : ℕ} (C : Committers codec n)

/-- Before any of them calls `Commit`. -/
def start (files : List (String × B)) : System B where
  files := files
  cache _ _ := none
  clients i := { groups := C.groups i, phase := .ready (C.txn i) }
  log := []

/-- Their updates can be applied again. -/
def Quiet (i : ℕ) : Prop := (C.txn i).updates.Quiet (C.groups i) (C.txn i).readManifest

/-- What holds in a state `S` reached by these actions, where `base` is the latest version at the
start. -/
structure Progress (base : ℕ) (process : ℕ → ℕ) (actions : List Action) (S : System B) : Prop where
  /-- A `Commit` has returned a version, or it can take its next step. -/
  returns : ∀ i < n, (∃ v, S.Returned i v) ∨
    ∃ a, a.committer = some i ∧ (S.next codec process a).isSome
  /-- It returns within this many steps of its own. -/
  steps_le : ∀ i < n, steps i actions ≤ 3 * n + 1
  attempts_le : ∀ i < n, attempts i actions ≤ n
  /-- The versions returned are distinct. -/
  distinct : ∀ i j v, i < n → j < n → S.Returned i v → S.Returned j v → i = j
  /-- They are among the next `n` versions. -/
  range : ∀ i v, i < n → S.Returned i v → base < v ∧ v ≤ base + n
  /-- In the end they are all of them. -/
  contiguous : (∀ i < n, ∃ v, S.Returned i v) →
    ∀ v, base < v → v ≤ base + n → ∃ i < n, S.Returned i v
  /-- What is stored is what `applyUpdates` computes from the manifest that was read. -/
  stored : ∀ i v, i < n → S.Returned i v →
    ∃ b, S.stored v = some b ∧ (C.txn i).Computes codec (C.groups i) b

/-! ## The invariant -/

/-- Where a `Commit` stands. The version it has listed is at least the number of lost attempts past
the latest version at the start. -/
def CommitAt (base : ℕ) (actions : List Action) (S : System B) (i : ℕ) (groups : Store) :
    CommitPhase → Prop
  | .list r => attempts i actions = r ∧ steps i actions = 3 * r + 1 ∧ i ∉ S.winners ∧
      base + r ≤ S.latest ∧ groups = C.groups i
  | .read _ _ => False
  | .resolve r v _ => attempts i actions = r ∧ steps i actions = 3 * r + 2 ∧ i ∉ S.winners ∧
      base + r ≤ v ∧ v ≤ S.latest ∧ groups = C.groups i
  | .write r v m => attempts i actions = r ∧ steps i actions = 3 * r + 3 ∧ i ∉ S.winners ∧
      base + r ≤ v ∧ v ≤ S.latest ∧
      applyUpdates (C.groups i) (C.txn i).readManifest (C.txn i).updates = .ok (groups, m)
  | .done (.ok v) => attempts i actions ≤ n ∧ steps i actions ≤ 3 * n + 1 ∧
      ∃ rec ∈ S.log, rec.client = i ∧ rec.version = v
  | .done (.error _) => False

def ClientAt (base : ℕ) (actions : List Action) (S : System B) (i : ℕ) (c : Client) : Prop :=
  match c.phase with
  | .ready t => attempts i actions = 0 ∧ steps i actions = 0 ∧ i ∉ S.winners ∧ t = C.txn i ∧
      c.groups = C.groups i
  | .committing t _ p => t = C.txn i ∧ C.CommitAt base actions S i c.groups p
  | _ => False

structure Inv (base : ℕ) (actions : List Action) (S : System B) : Prop where
  versions : ∀ k rec, S.log[k]? = some rec → rec.version = base + k + 1
  latest_eq : S.latest = base + S.log.length
  nodup : S.winners.Nodup
  winners_lt : ∀ i ∈ S.winners, i < n
  /-- The winners have returned the versions they have stored. -/
  returned : ∀ rec ∈ S.log, S.Returned rec.client rec.version
  stored : ∀ rec ∈ S.log, ∃ b, S.stored rec.version = some b ∧
    (C.txn rec.client).Computes codec (C.groups rec.client) b
  clients : ∀ i < n, C.ClientAt base actions S i (S.clients i)

variable {C} {base : ℕ} {actions : List Action} {S : System B}

theorem inv_start (files : List (String × B)) :
    C.Inv (latestVersion (files.map Prod.fst)) [] (C.start files) where
  versions _ _ h := nomatch h
  latest_eq := rfl
  nodup := nodup_nil
  winners_lt _ h := nomatch h
  returned _ h := nomatch h
  stored _ h := nomatch h
  clients _ _ := ⟨rfl, rfl, not_mem_nil, rfl, rfl⟩

theorem Inv.length_le (h : C.Inv base actions S) : S.log.length ≤ n := by
  have hsub : S.winners ⊆ range n := fun j hj => mem_range.mpr (h.winners_lt j hj)
  simpa [System.winners] using (h.nodup.subperm hsub).length_le

variable {i : ℕ} {a : Action}

/-- Someone who has not won is not among the winners. -/
theorem Inv.length_lt (h : C.Inv base actions S) (hi : i < n) (hnot : i ∉ S.winners) :
    S.log.length < n := by
  have hnodup : (i :: S.winners).Nodup := nodup_cons.mpr ⟨hnot, h.nodup⟩
  have hsub : i :: S.winners ⊆ range n := by
    intro j hj
    rw [mem_range]
    rcases mem_cons.mp hj with rfl | hj
    · exact hi
    · exact h.winners_lt j hj
  have hle := (hnodup.subperm hsub).length_le
  simp only [System.winners, length_cons, length_map, length_range] at hle
  omega

/-- A version after the start that is not past the latest one is stored. -/
theorem Inv.stored_of_le (h : C.Inv base actions S) {v : ℕ} (hlt : base < v) (hle : v ≤ S.latest) :
    S.stored v ≠ none := by
  have hlen := h.latest_eq
  have hk : v - base - 1 < S.log.length := by omega
  have hver := h.versions _ _ (getElem?_eq_getElem hk)
  obtain ⟨b, hb, -⟩ := h.stored _ (getElem_mem hk)
  have hv : v = (S.log[v - base - 1]).version := by omega
  rw [hv, hb]
  simp

/-! ## Steps of others -/

section

variable {S' : System B} {actions' : List Action} (hsteps : steps i actions' = steps i actions)
  (hattempts : attempts i actions' = attempts i actions) (hlatest : S.latest ≤ S'.latest)
  (hlog : ∀ rec ∈ S.log, rec ∈ S'.log) (hwinners : i ∉ S.winners → i ∉ S'.winners)
include hsteps hattempts hlatest hlog hwinners

theorem CommitAt.mono {groups : Store} {p : CommitPhase}
    (h : C.CommitAt base actions S i groups p) : C.CommitAt base actions' S' i groups p := by
  match p, h with
  | .list r, ⟨ha, hs, hw, hb, hg⟩ =>
    exact ⟨hattempts.trans ha, hsteps.trans hs, hwinners hw, by omega, hg⟩
  | .resolve r v m, ⟨ha, hs, hw, hb, hv, hm⟩ | .write r v m, ⟨ha, hs, hw, hb, hv, hm⟩ =>
    exact ⟨hattempts.trans ha, hsteps.trans hs, hwinners hw, hb, by omega, hm⟩
  | .done (.ok v), ⟨ha, hs, rec, hrec, hv⟩ =>
    exact ⟨hattempts ▸ ha, hsteps ▸ hs, rec, hlog rec hrec, hv⟩

theorem ClientAt.mono {c : Client} (h : C.ClientAt base actions S i c) :
    C.ClientAt base actions' S' i c := by
  rw [ClientAt] at h ⊢
  split at h
  · exact ⟨hattempts.trans h.1, hsteps.trans h.2.1, hwinners h.2.2.1, h.2.2.2⟩
  · exact ⟨h.1, h.2.mono hsteps hattempts hlatest hlog hwinners⟩
  · exact h

end

/-! ## Steps -/

/-- A step of one transaction that stores nothing. -/
theorem Inv.setClient (h : C.Inv base actions S) {c : Client} (ha : a.committer = some i)
    (hnot : i ∉ S.winners) (hc : C.ClientAt base (actions ++ [a]) S i c) :
    C.Inv base (actions ++ [a]) (S.setClient i c) where
  versions := h.versions
  latest_eq := h.latest_eq
  nodup := h.nodup
  winners_lt := h.winners_lt
  returned rec hrec := by
    have hne : rec.client ≠ i := by
      rintro rfl
      exact hnot (mem_map_of_mem hrec)
    obtain ⟨t, start, hphase⟩ := h.returned rec hrec
    refine ⟨t, start, ?_⟩
    rw [← hphase]
    exact congrArg Client.phase (update_of_ne hne ..)
  stored := h.stored
  clients j hj := by
    by_cases hji : j = i
    · subst hji
      have hself : (S.setClient j c).clients j = c := update_self ..
      rwa [hself]
    · have hother : (S.setClient i c).clients j = S.clients j := update_of_ne hji ..
      obtain ⟨hsteps, hattempts⟩ := counts_concat_of_ne ha hji actions
      rw [hother]
      exact (h.clients j hj).mono hsteps hattempts (le_rfl) (fun _ => id) id

/-- The transaction stores the next version and returns it. -/
theorem Inv.win (h : C.Inv base actions S) (hi : i < n) {b : B} {start : Store} {t : Transaction}
    (ha : a.committer = some i) (hnot : i ∉ S.winners) (hbound : S.latest + 1 < 2 ^ 63)
    (hb : (C.txn i).Computes codec (C.groups i) b) (ht : t = C.txn i)
    (hattempts : attempts i (actions ++ [a]) ≤ n) (hsteps : steps i (actions ++ [a]) ≤ 3 * n + 1) :
    C.Inv base (actions ++ [a]) ((S.put i (S.latest + 1) b start t.updates).setPhase i
      (.committing t start (.done (.ok (S.latest + 1))))) := by
  have hlatest := System.latest_put i b start t.updates hbound (Nat.le_succ _)
  have hlen := h.latest_eq
  have hne : ∀ j, j ∈ S.winners → j ≠ i := fun j hj hji => hnot (hji ▸ hj)
  refine ⟨System.versions_put i b start t.updates h.versions (by omega), ?_, ?_, ?_, ?_, ?_, ?_⟩
  · apply hlatest.trans
    change S.latest + 1 = base + (S.log ++ [_]).length
    rw [length_append, length_singleton]
    omega
  · change (map Record.client (S.log ++ [_])).Nodup
    rw [map_append, map_singleton, ← concat_eq_append]
    exact h.nodup.concat hnot
  · intro j hj
    obtain ⟨rec, hrec, rfl⟩ := mem_map.mp hj
    rcases (System.mem_log_put i b start t.updates).mp hrec with hrec | rfl
    · exact h.winners_lt _ (mem_map_of_mem hrec)
    · exact hi
  · intro rec hrec
    rcases (System.mem_log_put i b start t.updates).mp hrec with hrec | rfl
    · obtain ⟨t', start', hphase⟩ := h.returned rec hrec
      refine ⟨t', start', ?_⟩
      rwa [System.setPhase_clients_of_ne _ (hne _ (mem_map_of_mem hrec))]
    · exact ⟨t, start, System.setPhase_phase_self ..⟩
  · intro rec hrec
    rcases (System.mem_log_put i b start t.updates).mp hrec with hrec | rfl
    · obtain ⟨k, hk⟩ := mem_iff_getElem?.mp hrec
      have hklen := lt_of_getElem? hk
      have hver := h.versions k rec hk
      obtain ⟨b', hb', hcomputes⟩ := h.stored rec hrec
      refine ⟨b', ?_, hcomputes⟩
      exact (System.stored_put_of_ne i b start t.updates (by omega)).trans hb'
    · exact ⟨b, System.stored_put_self i b start t.updates _, hb⟩
  · intro j hj
    by_cases hji : j = i
    · subst hji
      rw [ClientAt, System.setPhase_phase_self]
      exact ⟨ht, hattempts, hsteps, _,
        (System.mem_log_put j b start t.updates).mpr (.inr rfl), rfl, rfl⟩
    · obtain ⟨hsteps', hattempts'⟩ := counts_concat_of_ne ha hji actions
      rw [System.setPhase_clients_of_ne _ hji]
      apply (h.clients j hj).mono hsteps' hattempts'
      · exact (Nat.le_succ _).trans hlatest.ge
      · exact fun rec hrec => (System.mem_log_put i b start t.updates).mpr (.inl hrec)
      · intro hj' hmem
        obtain ⟨rec, hrec, hclient⟩ := mem_map.mp hmem
        rcases (System.mem_log_put i b start t.updates).mp hrec with hrec | rfl
        · exact hj' (hclient ▸ mem_map_of_mem hrec)
        · exact hji hclient.symm

variable {process : ℕ → ℕ} {i : ℕ} {S' : System B}

section

variable (h : C.Inv base actions S)

include h

theorem Inv.commit (hi : i < n) (hnext : S.next codec process (.commit i) = some S') :
    C.Inv base (actions ++ [.commit i]) S' := by
  have hc := h.clients i hi
  have hlen := h.latest_eq
  simp only [System.next] at hnext
  split at hnext
  · next t hp =>
    cases hnext
    simp only [ClientAt, hp] at hc
    obtain ⟨ha, hs, hw, rfl, hgroups⟩ := hc
    apply h.setClient rfl hw
    simp only [ClientAt, Transaction.begin, C.hasChanges i hi]
    refine ⟨trivial, ?_, ?_, hw, by omega, hgroups⟩
    · rw [attempts_concat, ha]
      rfl
    · rw [steps_concat rfl, hs]
  · cases hnext

theorem Inv.list (hi : i < n) (hnext : S.next codec process (.list i none) = some S') :
    C.Inv base (actions ++ [.list i none]) S' := by
  have hc := h.clients i hi
  simp only [System.next] at hnext
  split at hnext
  · next o hp =>
    simp only [ClientAt, hp] at hc
  · next t start r hp =>
    cases hnext
    simp only [ClientAt, hp] at hc
    obtain ⟨rfl, ha, hs, hw, hb, hgroups⟩ := hc
    have hnot : (!(C.txn i).resolver.requireLatest) = true := by
      rw [C.resolver_eq i hi]
      rfl
    have hat : ∀ lm, C.CommitAt base (actions ++ [.list i none]) S i (S.clients i).groups
        (.resolve r S.latest lm) := by
      intro lm
      refine ⟨?_, ?_, hw, hb, le_rfl, hgroups⟩
      · rw [attempts_concat, ha]
        rfl
      · rw [steps_concat rfl, hs]
    apply h.setClient rfl hw
    simp only [ClientAt, Option.elim_none, Transaction.listed, hnot, if_true]
    split_ifs <;> exact ⟨trivial, hat _⟩
  · cases hnext

section

variable (hroom : base + n < 2 ^ 63) (hi : i < n)
include hroom hi

/-- A transaction that has not won has versions left. -/
theorem Inv.succ_lt (hw : i ∉ S.winners) : S.latest + 1 < 2 ^ 63 := by
  have hlt := h.length_lt hi hw
  have hlen := h.latest_eq
  omega

theorem Inv.resolve (hnext : S.next codec process (.resolve i) = some S') :
    C.Inv base (actions ++ [.resolve i]) S' := by
  have hc := h.clients i hi
  simp only [System.next] at hnext
  split at hnext
  · next t start r v lm hp =>
    cases hnext
    simp only [ClientAt, hp] at hc
    obtain ⟨rfl, ha, hs, hw, hb, hv, hgroups⟩ := hc
    have hbound := h.succ_lt hroom hi hw
    obtain ⟨b, σ', m', happ, -⟩ := C.applies i hi
    have hresolve : (C.txn i).resolver.resolve (S.clients i).groups (C.txn i).readManifest
        (C.txn i).readVersion lm v (C.txn i).updates = .ok (σ', m') := by
      rwa [C.resolver_eq i hi, hgroups]
    apply h.setClient rfl hw
    simp only [ClientAt, Transaction.resolved, hresolve]
    rw [if_pos (by omega)]
    refine ⟨trivial, ?_, ?_, hw, hb, hv, happ⟩
    · rw [attempts_concat, ha]
      rfl
    · rw [steps_concat rfl, hs]
  · cases hnext

/-- **A write attempt.** It wins if the version listed is still the latest one. Otherwise the latest
version has grown, and there is another attempt left. -/
theorem Inv.write (hquiet : S.Loses i (.write i .performed) → C.Quiet i)
    (hnext : S.next codec process (.write i .performed) = some S') :
    C.Inv base (actions ++ [.write i .performed]) S' := by
  have hc := h.clients i hi
  have hlen := h.latest_eq
  simp only [System.next] at hnext
  split at hnext
  · next t start r v m hp =>
    simp only [ClientAt, hp] at hc
    obtain ⟨rfl, ha, hs, hw, hb, hv, happ⟩ := hc
    have hbound := h.succ_lt hroom hi hw
    have hlt := h.length_lt hi hw
    have ha' : attempts i (actions ++ [.write i .performed]) = r + 1 := by
      rw [attempts_concat, ha]
      simp [Action.attemptOf]
    have hs' : steps i (actions ++ [.write i .performed]) = 3 * (r + 1) + 1 := by
      rw [steps_concat rfl, hs]
      omega
    obtain ⟨b, σ', m', happ', henc⟩ := C.applies i hi
    cases happ.symm.trans happ'
    cases hst : S.stored (v + 1) with
    | none =>
      obtain rfl : v = S.latest := by
        by_contra hne
        exact h.stored_of_le (by omega) (by omega) hst
      simp only [System.writeManifest, henc, hst, Option.map_some, Option.some.injEq] at hnext
      rw [← hnext]
      exact h.win hi rfl hw hbound ⟨_, _, happ, henc⟩ rfl (by omega) (by omega)
    | some b' =>
      have hgrown := System.le_latest (by omega) hst
      have hlimit := C.retryLimit i hi
      have hgroups := applyUpdates_store_of_quiet
        (hquiet ⟨rfl, _, start, r, v, m, hp, by simp [hst]⟩) happ
      simp only [System.writeManifest, henc, hst, Option.map_some, Option.some.injEq] at hnext
      rw [← hnext]
      apply h.setClient rfl hw
      simp only [ClientAt, Transaction.written, Status.alreadyExists, if_true]
      rw [Nat.mod_eq_of_lt (by omega), if_neg (by omega)]
      exact ⟨trivial, ha', hs', hw, by omega, hgroups⟩
  · cases hnext

theorem Inv.next (ha : a.committer = some i) (hquiet : S.Loses i a → C.Quiet i)
    (hnext : S.next codec process a = some S') : C.Inv base (actions ++ [a]) S' := by
  cases a with
  | commit j =>
    cases ha
    exact h.commit hi hnext
  | list j failure =>
    cases failure with
    | some s => cases ha
    | none =>
      cases ha
      exact h.list hi hnext
  | resolve j =>
    cases ha
    exact h.resolve hroom hi hnext
  | write j w =>
    cases w with
    | performed =>
      cases ha
      exact h.write hroom hi hquiet hnext
    | failed s => cases ha
    | replyLost s => cases ha
  | _ => cases ha

end

end

/-! ## Progress -/

section

variable (h : C.Inv base actions S)
include h

theorem Inv.returned_iff (hi : i < n) {v : ℕ} :
    S.Returned i v ↔ ∃ rec ∈ S.log, rec.client = i ∧ rec.version = v := by
  constructor
  · rintro ⟨t, start, hp⟩
    have hc := h.clients i hi
    simp only [ClientAt, hp] at hc
    exact hc.2.2.2
  · rintro ⟨rec, hrec, rfl, rfl⟩
    exact h.returned rec hrec

/-- A `Commit` that has not returned can take its next step. -/
theorem Inv.enabled (hi : i < n) : (∃ v, S.Returned i v) ∨
    ∃ a, a.committer = some i ∧ (S.next codec process a).isSome := by
  have hc := h.clients i hi
  unfold ClientAt at hc
  split at hc
  · next t hp => exact .inr ⟨.commit i, rfl, by simp [System.next, hp]⟩
  · next t start p hp =>
    match p, hc.2 with
    | .list r, _ => exact .inr ⟨.list i none, rfl, by simp [System.next, hp]⟩
    | .resolve r v lm, _ => exact .inr ⟨.resolve i, rfl, by simp [System.next, hp]⟩
    | .write r v m, ⟨_, _, _, _, _, happ⟩ =>
      obtain ⟨b, σ', m', happ', henc⟩ := C.applies i hi
      cases happ.symm.trans happ'
      refine .inr ⟨.write i .performed, rfl, ?_⟩
      simp only [System.next, hp, System.writeManifest, Option.isSome_map, henc]
      split <;> rfl
    | .done (.ok v), _ => exact .inl ⟨v, t, start, hp⟩
  · exact hc.elim

/-- Every lost attempt is charged to a winner. -/
theorem Inv.counts_le (hi : i < n) : steps i actions ≤ 3 * n + 1 ∧ attempts i actions ≤ n := by
  have hc := h.clients i hi
  have hlen := h.latest_eq
  unfold ClientAt at hc
  split at hc
  · obtain ⟨ha, hs, -⟩ := hc
    omega
  · next t start p hp =>
    match p, hc.2 with
    | .list r, ⟨ha, hs, hw, hb, _⟩ =>
      have := h.length_lt hi hw
      omega
    | .resolve r v m, ⟨ha, hs, hw, hb, hv, _⟩ | .write r v m, ⟨ha, hs, hw, hb, hv, _⟩ =>
      have := h.length_lt hi hw
      omega
    | .done (.ok v), ⟨ha, hs, _⟩ => exact ⟨hs, ha⟩
  · exact hc.elim

theorem Inv.progress : C.Progress base process actions S where
  returns i hi := h.enabled hi
  steps_le i hi := (h.counts_le hi).1
  attempts_le i hi := (h.counts_le hi).2
  distinct i j v hi hj hri hrj := by
    obtain ⟨rec, hrec, rfl, hv⟩ := (h.returned_iff hi).mp hri
    obtain ⟨rec', hrec', rfl, hv'⟩ := (h.returned_iff hj).mp hrj
    obtain ⟨k, hk⟩ := mem_iff_getElem?.mp hrec
    obtain ⟨k', hk'⟩ := mem_iff_getElem?.mp hrec'
    have hver := h.versions k rec hk
    have hver' := h.versions k' rec' hk'
    obtain rfl : k = k' := by omega
    rw [Option.some.inj (hk.symm.trans hk')]
  range i v hi hr := by
    obtain ⟨rec, hrec, rfl, rfl⟩ := (h.returned_iff hi).mp hr
    obtain ⟨k, hk⟩ := mem_iff_getElem?.mp hrec
    have hver := h.versions k rec hk
    have hklen := lt_of_getElem? hk
    have hlen := h.length_le
    omega
  contiguous hall v hlt hle := by
    have hlen : n ≤ S.log.length := by
      have hsub : range n ⊆ S.winners := by
        intro i hi
        obtain ⟨v, hv⟩ := hall i (mem_range.mp hi)
        obtain ⟨rec, hrec, rfl, -⟩ := (h.returned_iff (mem_range.mp hi)).mp hv
        exact mem_map_of_mem hrec
      simpa [System.winners] using (nodup_range.subperm hsub).length_le
    have hk : v - base - 1 < S.log.length := by omega
    have hver := h.versions _ _ (getElem?_eq_getElem hk)
    have hmem := getElem_mem hk
    refine ⟨_, h.winners_lt _ (mem_map_of_mem hmem), ?_⟩
    have hret := h.returned _ hmem
    rwa [hver, show base + (v - base - 1) + 1 = v by omega] at hret
  stored i v hi hr := by
    obtain ⟨rec, hrec, rfl, rfl⟩ := (h.returned_iff hi).mp hr
    exact h.stored rec hrec

end

/-- If the paths survive, then reading a version gives what `applyUpdates` computes. -/
theorem Progress.storedManifest {avro : Codec B} (havro : avro.RoundTrips) {parseUri : UriParser}
    {path : String} {C : Committers (avro.withPaths parseUri path) n}
    (h : C.Progress base process actions S) {v : ℕ} (hi : i < n) (hr : S.Returned i v)
    (hkeep : ∀ σ' m', applyUpdates (C.groups i) (C.txn i).readManifest (C.txn i).updates =
      .ok (σ', m') → m'.KeepsPaths parseUri path σ') :
    ∃ σ' m', applyUpdates (C.groups i) (C.txn i).readManifest (C.txn i).updates = .ok (σ', m') ∧
      S.storedManifest (avro.withPaths parseUri path) v = some (m'.copy σ') := by
  obtain ⟨b, hb, σ', m', happ, henc⟩ := h.stored i v hi hr
  have hv := (h.range i v hi hr).1
  exact ⟨σ', m', happ, System.storedManifest_of_stored (by omega) hb
    (Codec.decode_withPaths havro (hkeep σ' m' happ) henc)⟩

/-- Two transactions on an empty table, whose callers hold two groups with a file each. -/
def pair (u : ℕ → Updates) (h : ∀ i, (u i).hasChanges = true ∧
    ∃ r, applyUpdates idFiles {} (u i) = .ok r) : Committers System.plainCodec 2 where
  txn i := { readVersion := 0, readManifest := {}, updates := u i, resolver := overwriteResolver,
             retryLimit := 1 }
  groups _ := idFiles
  resolver_eq _ _ := rfl
  hasChanges i _ := (h i).1
  retryLimit _ _ := ⟨Nat.le_refl 2, Nat.one_lt_two_pow (by decide)⟩
  applies i _ := by
    obtain ⟨r, hr⟩ := (h i).2
    exact ⟨_, r.1, r.2, hr, rfl⟩

/-- The second transaction takes the version, and the first one starts over. -/
def duel : List Action :=
  [.commit 0, .commit 1, .list 0 none, .list 1 none, .resolve 0, .resolve 1, .write 1 .performed,
    .write 0 .performed, .list 0 none, .resolve 0, .write 0 .performed]

theorem committer_duel : ∀ a ∈ duel, ∃ i < 2, a.committer = some i := by
  simp [duel, Action.committer]

def addDeltaLog : Updates := { addedDeltaLogs := [⟨"delta", .primaryKey, 1⟩] }

/-- Both add a delta log. -/
def deltaLogs : Committers System.plainCodec 2 := pair (fun _ => addDeltaLog) fun _ => ⟨rfl, _, rfl⟩

/-- The first appends two files, one after the other. -/
def appendsTwice : Committers System.plainCodec 2 :=
  pair (fun | 0 => { appendedFiles := [[some 0], [some 1]] } | _ + 1 => addDeltaLog)
    (fun | 0 => ⟨rfl, _, rfl⟩ | _ + 1 => ⟨rfl, _, rfl⟩)

end Committers

end MilvusStorage
