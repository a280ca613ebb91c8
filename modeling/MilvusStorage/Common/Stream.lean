import MilvusStorage.Common.RecordBatch
import MilvusStorage.Common.Status
import MilvusStorage.Foundations.Runs

/-!
# Streams of record batches

The readers are `arrow::RecordBatchReader`s: `ReadNext` returns the next batch, null at the end of
the data, or fails. A `Session` is a reader with the results of the calls made so far; the argument
of a call says which of the reads it makes fail.

`exists_drain` is the rule for readers that end: if some measure decreases with each batch that is
returned and no call fails, repeated calls return batches and then null.
-/

namespace MilvusStorage

open List

/-- The result of `ReadNext`. -/
abbrev ReadResult (V : Type) := Except Fault (Option (RecordBatch V))

/-- The batch of a successful call. -/
def batch {V : Type} : ReadResult V → Option (RecordBatch V)
  | .ok rb => rb
  | .error _ => none

/-- The batches of the successful calls. -/
def batches {V : Type} (results : List (ReadResult V)) : List (RecordBatch V) :=
  results.filterMap batch

theorem batches_map_some {V : Type} (bs : List (RecordBatch V)) :
    batches (bs.map fun rb => .ok (some rb)) = bs := by
  rw [batches, filterMap_map]
  exact filterMap_some

/-- A reader with the results of the calls made so far. -/
structure Session (S V : Type) where
  state : S
  results : List (ReadResult V) := []

namespace Session

variable {S A V : Type} {readNext : A → S → S × ReadResult V}

/-- A session without calls. -/
def start (S₀ : S) : Session S V := { state := S₀ }

/-- The batches delivered so far. -/
def delivered (s : Session S V) : List (RecordBatch V) := batches s.results

/-- The session after a call with this outcome. -/
def append (s : Session S V) (outcome : S × ReadResult V) : Session S V where
  state := outcome.1
  results := s.results ++ [outcome.2]

variable (readNext) in
/-- Call `ReadNext`. -/
def next (s : Session S V) (a : A) : Option (Session S V) := some (s.append (readNext a s.state))

@[simp] theorem state_append (s : Session S V) (outcome : S × ReadResult V) :
    (s.append outcome).state = outcome.1 := rfl

@[simp] theorem results_append (s : Session S V) (outcome : S × ReadResult V) :
    (s.append outcome).results = s.results ++ [outcome.2] := rfl

theorem delivered_append_none (s : Session S V) {outcome : S × ReadResult V}
    (h : batch outcome.2 = none) : (s.append outcome).delivered = s.delivered := by
  simp [delivered, batches, h]

theorem delivered_append_some (s : Session S V) (S' : S) (rb : RecordBatch V) :
    (s.append (S', .ok (some rb))).delivered = s.delivered ++ [rb] := by
  simp [delivered, batches, batch]

variable (readNext) in
/-- Repeated calls return these batches and then null. -/
def Drains (s : Session S V) (a : A) (bs : List (RecordBatch V)) (s' : Session S V) : Prop :=
  Runs.run (next readNext) s (List.replicate (bs.length + 1) a) = some s' ∧
    s'.results = s.results ++ bs.map (fun rb => .ok (some rb)) ++ [.ok none]

theorem delivered_of_drains {s s' : Session S V} {a : A} {bs : List (RecordBatch V)}
    (h : Drains readNext s a bs s') : s'.delivered = s.delivered ++ bs := by
  rw [delivered, h.2, batches, filterMap_append, filterMap_append]
  rw [← batches, ← batches, batches_map_some]
  exact append_nil _

/-- **Readers that end.** -/
theorem exists_drain (Inv : Session S V → Prop) {End : Session S V → Prop} {lt : S → S → Prop}
    (hwf : WellFounded lt) {a : A} (hstep : ∀ s, Inv s → ∃ S' r, readNext a s.state = (S', r) ∧
      (r = .ok none ∧ End (s.append (S', r)) ∨
        (∃ rb, r = .ok (some rb)) ∧ lt S' s.state ∧ Inv (s.append (S', r))))
    {s : Session S V} (h : Inv s) : ∃ bs s', Drains readNext s a bs s' ∧ End s' := by
  induction hS : s.state using hwf.induction generalizing s with
  | _ S₀ ih =>
    subst hS
    obtain ⟨S', r, hread, ⟨rfl, hend⟩ | ⟨⟨rb, rfl⟩, hlt, hinv⟩⟩ := hstep s h
    · refine ⟨[], _, ⟨?_, ?_⟩, hend⟩
      · simp [Runs.run, next, hread]
      · simp
    · obtain ⟨bs, s', ⟨hrun, hresults⟩, hend⟩ := ih S' hlt hinv rfl
      refine ⟨rb :: bs, s', ⟨?_, ?_⟩, hend⟩
      · rwa [replicate_succ, Runs.run, next, hread]
      · simp [hresults, append_assoc]

end Session

end MilvusStorage
