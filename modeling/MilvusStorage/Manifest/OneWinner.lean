import MilvusStorage.Manifest.WriteTo
import Mathlib.Tactic.Cases

/-!
# At most one writer of a manifest wins

`writeTo_oneWinner`: on a filesystem with conditional writes, at most one of the calls of `WriteTo`
on a path wins and its bytes stay, in every interleaving. On a filesystem without them this holds
for the runs in which no call finds the path free while another one is between its own check and its
end (`WriteSystem.Alone`). `writeTo_two_plain_writers` is a run that is not of this kind.

The invariant is that at most one call holds the path (`WritePhase.Holds`): a call that has won, one
that has created the file through a conditional stream, or one that has found the path free and goes
on to write it with a plain stream.
-/

namespace MilvusStorage

/-- The filesystem has conditional writes. -/
def FsKind.supports (fs : FsKind) : Bool := fs.conditional = .atOpen || fs.conditional = .atClose

/-- The call has won, or it is the only one that can. -/
def WritePhase.Holds (fs : FsKind) : WritePhase → Prop
  | .absent => True
  | .opened c => c = false ∨ fs.conditional = .atOpen
  | .wrote c => c = false ∨ fs.conditional = .atOpen
  | .returned (.ok ()) => True
  | _ => False

/-- What a phase says of the filesystem and of the file. -/
def WritePhase.Fits {β : Type} (fs : FsKind) (file : Option (List β)) (data : List β) :
    WritePhase → Prop
  | .checking => fs.supports = false
  | .absent => fs.supports = false
  | .opened c => c = fs.supports ∧ (fs.writesThrough c → file = some [])
  | .wrote c => c = fs.supports ∧ (fs.writesThrough c → file = some data)
  | .returned (.ok ()) => file = some data
  | _ => True

theorem FsKind.atOpen_of_writesThrough {fs : FsKind} (h : fs.writesThrough true) :
    fs.conditional = .atOpen := by simpa [FsKind.writesThrough] using h

namespace WritePhase

variable {β : Type} {fs : FsKind} {file file' : Option (List β)} {data : List β} {p : WritePhase}

/-- Only the call that holds the path depends on what is in the file. -/
theorem Fits.of_not_holds (h : p.Fits fs file data) (hp : ¬ p.Holds fs) : p.Fits fs file' data := by
  match p, h, hp with
  | .idle, _, _ | .start, _, _ => trivial
  | .checking, h, _ => exact h
  | .absent, _, hp => exact absurd trivial hp
  | .opened c, h, hp | .wrote c, h, hp =>
    refine ⟨h.1, fun hw => absurd ?_ hp⟩
    cases c with
    | false => exact .inl rfl
    | true => exact .inr (FsKind.atOpen_of_writesThrough hw)
  | .returned (.ok ()), _, hp => exact absurd trivial hp
  | .returned (.error _), _, _ => trivial

/-- While there is no file, no phase depends on what is in it. -/
theorem Fits.of_none (h : p.Fits fs (none : Option (List β)) data) : p.Fits fs file' data := by
  match p, h with
  | .idle, _ | .start, _ => trivial
  | .checking, h | .absent, h => exact h
  | .opened c, h | .wrote c, h => exact ⟨h.1, fun hw => absurd (h.2 hw) (by simp)⟩
  | .returned (.ok ()), h => simp [Fits] at h
  | .returned (.error _), _ => trivial

/-- With conditional writes, nobody holds a path without a file. -/
theorem Fits.not_holds_of_supports (h : p.Fits fs (none : Option (List β)) data)
    (hfs : fs.supports = true) : ¬ p.Holds fs := by
  match p, h with
  | .idle, _ | .start, _ | .checking, _ => exact id
  | .absent, h => simp [Fits, hfs] at h
  | .opened c, h | .wrote c, h =>
    rintro (rfl | hc)
    · simp [Fits, hfs] at h
    · have hw : fs.writesThrough c := by
        rw [h.1, hfs]
        simp [FsKind.writesThrough, hc]
      simpa using h.2 hw
  | .returned (.ok ()), h => simp [Fits] at h
  | .returned (.error _), _ => exact id

end WritePhase

namespace WriteSystem

variable {β : Type} {fs : FsKind} {path : String} {S : WriteSystem β}

structure Inv (fs : FsKind) (S : WriteSystem β) : Prop where
  fits : ∀ i, (S.calls i).phase.Fits fs S.file (S.calls i).data
  holder_unique : ∀ i j, (S.calls i).phase.Holds fs → (S.calls j).phase.Holds fs → i = j

theorem initial_inv (file : Option (List β)) : Inv fs (initial file) where
  fits _ := trivial
  holder_unique _ _ h _ := h.elim

variable {i : ℕ} {c : Bool} {file : Option (List β)}

/-- A step of one call: it may change the file if it holds the path or if there is no file, and it
may take hold of the path if nobody holds it. -/
theorem Inv.set (h : Inv fs S) {data : List β} {phase : WritePhase}
    (hfile : file = S.file ∨ S.file = none ∨ (S.calls i).phase.Holds fs)
    (hfits : phase.Fits fs file data)
    (hholds : phase.Holds fs → (S.calls i).phase.Holds fs ∨ ∀ j, ¬ (S.calls j).phase.Holds fs) :
    Inv fs { file, calls := Function.update S.calls i { data, phase } } where
  fits j := by
    by_cases hj : j = i
    · subst hj
      simpa only [Function.update_self] using hfits
    · simp only [Function.update_of_ne hj]
      rcases hfile with rfl | hnone | hi
      · exact h.fits j
      · have hfj := h.fits j
        rw [hnone] at hfj
        exact hfj.of_none
      · exact (h.fits j).of_not_holds fun hhj => hj (h.holder_unique j i hhj hi)
  holder_unique j k hj hk := by
    by_cases hji : j = i
    · by_cases hki : k = i
      · rw [hji, hki]
      · simp only [hji, Function.update_self, Function.update_of_ne hki] at hj hk
        rcases hholds hj with hi | hnone
        · exact hji.trans (h.holder_unique i k hi hk)
        · exact absurd hk (hnone k)
    · by_cases hki : k = i
      · simp only [hki, Function.update_self, Function.update_of_ne hji] at hj hk
        rcases hholds hk with hi | hnone
        · exact (h.holder_unique j i hj hi).trans hki.symm
        · exact absurd hj (hnone j)
      · simp only [Function.update_of_ne hji, Function.update_of_ne hki] at hj hk
        exact h.holder_unique j k hj hk

/-- A step that ends a call with an error. -/
theorem Inv.setError (h : Inv fs S) (s : Status)
    (hfile : file = S.file ∨ S.file = none ∨ (S.calls i).phase.Holds fs) :
    Inv fs (S.set i file (.returned (.error s))) :=
  h.set hfile trivial fun hf => hf.elim

/-! ## Every step preserves the invariant -/

/-- What giving up or closing a stream does to the file. -/
theorem publish_cases (c : Bool) (data : List β) (hi : c = false → (S.calls i).phase.Holds fs) :
    S.publish c data = S.file ∨ S.file = none ∨ (S.calls i).phase.Holds fs := by
  cases c with
  | false => exact .inr (.inr (hi rfl))
  | true =>
    cases hf : S.file with
    | none => exact .inr (.inl rfl)
    | some b => simp [publish, hf]

theorem holds_of_writesThrough (h : fs.writesThrough c) : c = false ∨ fs.conditional = .atOpen := by
  cases c with
  | false => exact .inl rfl
  | true => exact .inr (FsKind.atOpen_of_writesThrough h)

theorem Inv.conditionalOpen (h : Inv fs S) : Inv fs (S.set i (S.conditionalOpen fs path).2
      (.afterConditionalOpen path (S.conditionalOpen fs path).1)) := by
  have hplain : fs.supports = false → S.conditionalOpen fs path =
      (.error (.notImplemented "UploadConditional is not implemented"), S.file) → Inv fs (S.set i
      (S.conditionalOpen fs path).2
      (.afterConditionalOpen path (S.conditionalOpen fs path).1)) := by
    intro hfs heq
    rw [heq]
    exact h.set (.inl rfl) hfs fun hf => hf.elim
  cases hc : fs.conditional with
  | unsupported | notImplemented =>
    exact hplain (by simp [FsKind.supports, hc]) (by simp [WriteSystem.conditionalOpen, hc])
  | atOpen =>
    have hfs : fs.supports = true := by simp [FsKind.supports, hc]
    cases hf : S.file with
    | some b =>
      have heq : S.conditionalOpen fs path = (.error (.makeExtendError .awsErrorConflict
          ("File already exists: " ++ path)), S.file) := by
        simp [WriteSystem.conditionalOpen, hc, hf]
      rw [heq]
      exact h.setError _ (.inl rfl)
    | none =>
      have heq : S.conditionalOpen fs path = (.ok (), some []) := by
        simp [WriteSystem.conditionalOpen, hc, hf]
      rw [heq]
      refine h.set (.inr (.inl hf)) ⟨hfs.symm, fun _ => rfl⟩ fun _ => .inr fun j => ?_
      have hfj := h.fits j
      rw [hf] at hfj
      exact hfj.not_holds_of_supports hfs
  | atClose =>
    have heq : S.conditionalOpen fs path = (.ok (), S.file) := by
      simp [WriteSystem.conditionalOpen, hc]
    rw [heq]
    refine h.set (.inl rfl) ⟨by simp [FsKind.supports, hc], fun hw => ?_⟩ ?_
    · rw [FsKind.atOpen_of_writesThrough hw] at hc
      cases hc
    · rintro (hf | hf)
      · cases hf
      · rw [hf] at hc
        cases hc

theorem Inv.check (h : Inv fs S) (hp : (S.calls i).phase = .checking)
    (halone : S.file = none → ∀ j, ¬ S.PastCheck j) :
    Inv fs (S.set i S.file (.afterCheck path (.ok S.file.isSome))) := by
  have hfs := h.fits i
  rw [hp] at hfs
  cases hf : S.file with
  | some b =>
    exact h.setError _ (.inl hf.symm)
  | none =>
    refine h.set (.inl hf.symm) hfs fun _ => .inr fun j hj => ?_
    -- without conditional writes, the one who holds a path without a file is past its check
    have hfj := h.fits j
    have hnot := halone hf j
    unfold PastCheck at hnot
    rw [hf] at hfj
    cases hpj : (S.calls j).phase with
    | absent => simp [hpj] at hnot
    | opened c | wrote c =>
      rw [hpj] at hfj
      have hc : c = false := hfj.1.trans hfs
      simp [hpj, hc] at hnot
    | returned r =>
      rw [hpj] at hj hfj
      cases r with
      | ok u => simp [WritePhase.Fits] at hfj
      | error s => exact hj
    | idle | start | checking => simp [hpj, WritePhase.Holds] at hj

theorem Inv.open (h : Inv fs S) (hp : (S.calls i).phase = .absent) :
    Inv fs (S.set i (if fs.truncates then some [] else S.file) (.opened false)) := by
  have hfs := h.fits i
  rw [hp] at hfs
  have hholds : (S.calls i).phase.Holds fs := by
    rw [hp]
    trivial
  refine h.set (.inr (.inr hholds)) ⟨hfs.symm, fun hw => ?_⟩ fun _ => .inl hholds
  have ht : fs.truncates = true := hw
  simp [ht]

theorem Inv.write (h : Inv fs S) (hp : (S.calls i).phase = .opened c) :
    Inv fs (S.set i (if fs.writesThrough c then overwrite (S.calls i).data S.file else S.file)
      (.wrote c)) := by
  have hfits := h.fits i
  rw [hp] at hfits
  obtain ⟨hc, hempty⟩ := hfits
  have hholds : (c = false ∨ fs.conditional = .atOpen) → (S.calls i).phase.Holds fs := by
    rw [hp]
    exact id
  by_cases hw : fs.writesThrough c
  · rw [if_pos hw]
    refine h.set (.inr (.inr (hholds (holds_of_writesThrough hw)))) ⟨hc, fun _ => ?_⟩
      fun hh => .inl (hholds hh)
    simp [overwrite, hempty hw]
  · rw [if_neg hw]
    exact h.set (.inl rfl) ⟨hc, fun hw' => absurd hw' hw⟩ fun hh => .inl (hholds hh)

theorem closeStream_cases (data : List β) (hi : c = false → (S.calls i).phase.Holds fs) :
    (S.closeStream fs c data).2 = S.file ∨ S.file = none ∨ (S.calls i).phase.Holds fs := by
  unfold closeStream
  split_ifs
  · exact .inl rfl
  · exact .inl rfl
  · exact publish_cases c data hi

theorem Inv.close (h : Inv fs S) (hp : (S.calls i).phase = .wrote c) :
    Inv fs (S.set i (S.closeStream fs c (S.calls i).data).2
      (.afterClose path c (S.closeStream fs c (S.calls i).data).1)) := by
  have hfits := h.fits i
  rw [hp] at hfits
  obtain ⟨hc, hfull⟩ := hfits
  have hholds : (c = false ∨ fs.conditional = .atOpen) → (S.calls i).phase.Holds fs := by
    rw [hp]
    exact id
  unfold closeStream
  split_ifs with hw htaken
  · exact h.set (.inl rfl) (hfull hw) fun _ => .inl (hholds (holds_of_writesThrough hw))
  · rw [Bool.and_eq_true] at htaken
    rw [htaken.1]
    exact h.setError _ (.inl rfl)
  · cases c with
    | false =>
      have hi := hholds (.inl rfl)
      exact h.set (.inr (.inr hi)) rfl fun _ => .inl hi
    | true =>
      have hf : S.file = none := by simpa using htaken
      refine h.set (.inr (.inl hf)) ?_ fun _ => .inr fun j => ?_
      · simp [WritePhase.Fits, WritePhase.afterClose, publish, hf]
      · have hfj := h.fits j
        rw [hf] at hfj
        exact hfj.not_holds_of_supports hc.symm

/-- A failed close ends the call with an error. -/
theorem afterClose_error (path : String) (c : Bool) (s : Status) :
    ∃ s', WritePhase.afterClose path c (.error s) = .returned (.error s') := by
  simp only [WritePhase.afterClose]
  split_ifs <;> exact ⟨_, rfl⟩

theorem next_inv {a : WriteAction β} {S' : WriteSystem β} (h : Inv fs S)
    (ha : fs.supports = false → S.Alone a) (hnext : S.next fs path a = some S') :
    Inv fs S' := by
  cases a with
  | call i data =>
    simp only [next] at hnext
    split at hnext
    · cases hnext
      exact h.setError _ (.inl rfl)
    · cases hnext
      split_ifs with hc
      · exact h.set (.inl rfl) (by simp [WritePhase.Fits, FsKind.supports, hc]) fun hf => hf.elim
      · exact h.set (.inl rfl) trivial fun hf => hf.elim
    · cases hnext
  | conditionalOpen i failure =>
    simp only [next] at hnext
    split at hnext
    · cases hnext
      exact h.conditionalOpen
    · next s _ =>
      split_ifs at hnext with hs
      cases hnext
      simp only [WritePhase.afterConditionalOpen]
      split_ifs <;> exact h.setError _ (.inl rfl)
    · cases hnext
  | check i failure =>
    simp only [next] at hnext
    split at hnext
    · next hp =>
      cases hnext
      cases failure with
      | some s => exact h.setError _ (.inl rfl)
      | none =>
        have hfs := h.fits i
        rw [hp] at hfs
        exact h.check hp (ha hfs)
    · cases hnext
  | «open» i outcome =>
    simp only [next] at hnext
    split at hnext
    · next hp =>
      cases hnext
      exact h.open hp
    · cases hnext
      exact h.setError _ (.inl rfl)
    · next hp =>
      cases hnext
      refine h.setError _ (.inr (.inr ?_))
      rw [hp]
      trivial
    · cases hnext
  | write i k outcome =>
    simp only [next] at hnext
    split at hnext
    · next c hp =>
      cases hnext
      exact h.write hp
    · cases hnext
      exact h.setError _ (.inl rfl)
    · next c s hp =>
      cases hnext
      apply h.setError _
      unfold abandon
      split_ifs with hw
      · refine .inr (.inr ?_)
        rw [hp]
        exact holds_of_writesThrough hw
      · refine publish_cases c _ fun hc => ?_
        rw [hp]
        exact .inl hc
    · cases hnext
  | close i outcome =>
    simp only [next] at hnext
    split at hnext
    · next c hp =>
      cases hnext
      exact h.close hp
    · next c s hp =>
      cases hnext
      obtain ⟨s', hs'⟩ := afterClose_error path c s
      rw [hs']
      exact h.setError _ (.inl rfl)
    · next c s hp =>
      cases hnext
      obtain ⟨s', hs'⟩ := afterClose_error path c s
      rw [hs']
      refine h.setError _ (closeStream_cases _ fun hc => ?_)
      rw [hp]
      exact .inl hc
    · cases hnext

theorem Inv.oneWinner (h : Inv fs S) : S.OneWinner where
  unique i j hi hj := by
    refine h.holder_unique i j ?_ ?_
    · rw [hi]
      trivial
    · rw [hj]
      trivial
  content i hi := by
    have hfits := h.fits i
    rwa [hi] at hfits

end WriteSystem

/-- **At most one writer wins**: on a filesystem with conditional writes in every run, and on one
without them in every run in which a call that checks for the file and finds none does so while no
other call is past its own check. -/
theorem writeTo_oneWinner {β : Type} (fs : FsKind) (path : String) (file : Option (List β))
    {actions : List (WriteAction β)} {S : WriteSystem β}
    (halone : fs.supports = false → Runs.Meets (fun S a => WriteSystem.next fs path S a)
      (fun S a => S.Alone a) (WriteSystem.initial file) actions)
    (hrun : Runs.run (fun S a => WriteSystem.next fs path S a) (WriteSystem.initial file) actions =
      some S) : S.OneWinner := by
  have hinit : WriteSystem.Inv fs (WriteSystem.initial file) := WriteSystem.initial_inv file
  cases hfs : fs.supports with
  | false =>
    exact (Runs.run_invariant_of_meets
      (fun _ _ _ h ha hn => WriteSystem.next_inv h (fun _ => ha) hn)
      hinit (halone hfs) hrun).oneWinner
  | true =>
    have hstep : ∀ (S : WriteSystem β) a S', WriteSystem.Inv fs S → True →
        WriteSystem.next fs path S a = some S' → WriteSystem.Inv fs S' := fun _ _ _ h _ hn =>
      WriteSystem.next_inv h (fun hno => by rw [hfs] at hno; cases hno) hn
    exact (Runs.run_invariant hstep hinit (fun _ _ => trivial) hrun).oneWinner

/-- Two calls that open, write and close conditional streams. -/
def conditionalRace : List (WriteAction ℕ) :=
  [.call 0 (.ok [0]), .call 1 (.ok [1]), .conditionalOpen 0 none, .conditionalOpen 1 none,
    .write 0 0 .performed, .write 1 0 .performed, .close 1 .performed, .close 0 .performed]

/-- On a filesystem that refuses a conditional stream when it is closed, the first to close wins. -/
theorem writeTo_oneWinner_at_close :
    ∃ S, Runs.run (fun S a => WriteSystem.next ⟨.atClose, false⟩ "manifest-1.avro" S a)
        (WriteSystem.initial none) conditionalRace = some S ∧ S.Won 1 ∧ S.OneWinner := by
  obtain ⟨S, hrun, hwon⟩ : ∃ S, Runs.run (WriteSystem.next ⟨.atClose, false⟩ "manifest-1.avro")
      (WriteSystem.initial none) conditionalRace = some S ∧ S.Won 1 := ⟨_, rfl, rfl⟩
  exact ⟨S, hrun, hwon, writeTo_oneWinner _ _ none (fun h => by cases h) hrun⟩

/-- Two calls on a filesystem without conditional writes: both find the path free, both return `OK`,
and the bytes of the first are replaced. -/
theorem writeTo_two_plain_writers :
    ∃ S, Runs.run (fun S a => WriteSystem.next ⟨.unsupported, false⟩ "manifest-1.avro" S a)
        (WriteSystem.initial none) [.call 0 (.ok [0]), .call 1 (.ok [1]), .check 0 none,
          .check 1 none, .open 0 .performed, .write 0 0 .performed, .close 0 .performed,
          .open 1 .performed, .write 1 0 .performed, .close 1 .performed] = some S ∧
      S.Won 0 ∧ S.Won 1 ∧ S.file = some [1] ∧ ¬ S.OneWinner := by
  refine ⟨_, rfl, rfl, rfl, rfl, fun h => ?_⟩
  have := h.unique 0 1 rfl rfl
  cases this

end MilvusStorage
