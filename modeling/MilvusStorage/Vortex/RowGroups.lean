import MilvusStorage.Common.Status
import MilvusStorage.Foundations.Commands
import MilvusStorage.Foundations.Except
import MilvusStorage.Foundations.Tiling

/-!
# Splitting a stream into row groups

`split_stream_into_row_groups`. Chunks are collected in a `RowGroupBuffer` until their estimated
size reaches a minimum, and are then drained as row groups of about this size; a chunk that does not
fit is cut, and its remainder goes back with an estimate of its own. The estimates are parameters:
nothing relates them to the rows.

A loop of the source runs for as long as the buffer has enough. Here it has fuel, and `none` is a
loop that has not ended; every row group takes a row from the buffer, so that more fuel than there
are rows is enough.
-/

namespace MilvusStorage.Vortex

open List Command

/-- The largest `u64`. -/
def u64Max : ℕ := 2 ^ 64 - 1

def saturatingAdd (a b : ℕ) : ℕ := min (a + b) u64Max

def saturatingMul (a b : ℕ) : ℕ := min (a * b) u64Max

def divCeil (a b : ℕ) : ℕ := (a + b - 1) / b

/-- A subtraction of a checked build. -/
def checkedSub (a b : ℕ) : Except Fault ℕ :=
  if b ≤ a then .ok (a - b) else .error (.thrown "attempt to subtract with overflow")

/-- The operations on arrays, with elements of type `α`. -/
structure ArrayOps (A α : Type) where
  rows : A → List α
  /-- `estimated_logical_uncompressed_size`. -/
  estimatedSize : A → ℕ
  /-- `estimated_split_remainder_size`. -/
  estimatedRemainderSize : A → A → ℕ → ℕ → ℕ
  slice : A → ℕ → ℕ → Except Fault A
  /-- `ChunkedArray::try_new`, executed to a canonical array. -/
  concatenate : List A → Except Fault A
  /-- `execute::<Canonical>`. -/
  canonicalize : A → Except Fault A

/-- What the operations return. -/
structure ArrayOps.Lawful {A α : Type} (ops : ArrayOps A α) : Prop where
  slice_ok : ∀ a i j, i ≤ j → j ≤ (ops.rows a).length →
    ∃ b, ops.slice a i j = .ok b ∧ ops.rows b = ((ops.rows a).drop i).take (j - i)
  concatenate_ok : ∀ as, ∃ b, ops.concatenate as = .ok b ∧ ops.rows b = as.flatMap ops.rows
  canonicalize_ok : ∀ a, ∃ b, ops.canonicalize a = .ok b ∧ ops.rows b = ops.rows a

variable {A α σ : Type} (ops : ArrayOps A α)

/-! ## The buffer -/

structure RowGroupBuffer (A : Type) where
  data : List (A × ℕ) := []
  nbytes : ℕ := 0

namespace RowGroupBuffer

def push (b : RowGroupBuffer A) (chunk : A) : RowGroupBuffer A where
  data := b.data ++ [(chunk, ops.estimatedSize chunk)]
  nbytes := saturatingAdd b.nbytes (ops.estimatedSize chunk)

def haveEnough (blockSizeMinimum : ℕ) (b : RowGroupBuffer A) : Bool :=
  blockSizeMinimum ≤ b.nbytes

def isEmpty (b : RowGroupBuffer A) : Bool := b.data.isEmpty

/-- How many rows of a chunk that does not fit are taken. -/
def rowsToTake (spaceLeft chunkLen estBytes : ℕ) : ℕ :=
  min (max (if 0 < estBytes then divCeil (saturatingMul spaceLeft chunkLen) estBytes
    else chunkLen) 1) chunkLen

/-- Cut a chunk, and put what remains back. -/
def splitChunk (blockSizeMinimum groupBytes nbytes : ℕ) (chunk : A) (estBytes : ℕ)
    (data : List (A × ℕ)) : Except Fault (A × RowGroupBuffer A) := do
  let chunkLen := (ops.rows chunk).length
  let spaceLeft ← checkedSub blockSizeMinimum groupBytes
  let taken := rowsToTake spaceLeft chunkLen estBytes
  let left ← ops.slice chunk 0 taken
  if taken < chunkLen then
    let right ← ops.slice chunk taken chunkLen
    let rightEst := ops.estimatedRemainderSize chunk right estBytes chunkLen
    return (left, { data := (right, rightEst) :: data, nbytes := saturatingAdd nbytes rightEst })
  else return (left, { data, nbytes })

/-- The loop of `drain_one_group`: the chunks of the group, and the buffer after them. -/
def drainLoop (blockSizeMinimum : ℕ) : List (A × ℕ) → ℕ → ℕ → List A →
    Except Fault (List A × RowGroupBuffer A)
  | [], nbytes, _, group => .ok (group, { nbytes })
  | (chunk, estBytes) :: data, nbytes, groupBytes, group =>
    let nbytes := nbytes - estBytes
    let groupBytes' := saturatingAdd groupBytes estBytes
    if groupBytes' ≤ blockSizeMinimum then
      if blockSizeMinimum ≤ groupBytes' then .ok (group ++ [chunk], { data, nbytes })
      else drainLoop blockSizeMinimum data nbytes groupBytes' (group ++ [chunk])
    else do
      let (left, buffer) ← splitChunk ops blockSizeMinimum groupBytes nbytes chunk estBytes data
      return (group ++ [left], buffer)

def drainOneGroup (blockSizeMinimum : ℕ) (b : RowGroupBuffer A) :
    Except Fault (Option A × RowGroupBuffer A) :=
  if b.data.isEmpty then .ok (none, b)
  else do
    let (group, buffer) ← drainLoop ops blockSizeMinimum b.data b.nbytes 0 []
    let rowGroup ← ops.concatenate group
    return (some rowGroup, buffer)

/-- The rows in the buffer. -/
def rows (b : RowGroupBuffer A) : List α := b.data.flatMap fun p => ops.rows p.1

/-- No chunk of the buffer is empty. -/
def NonEmpty (b : RowGroupBuffer A) : Prop := ∀ p ∈ b.data, ops.rows p.1 ≠ []

end RowGroupBuffer

/-! ## The stream -/

structure RowGroupSplitOptions where
  blockSizeMinimum : ℕ
  canonicalize : Bool

/-- The buffer, the row groups that have been emitted, and the state of the callback. -/
structure SplitState (A σ : Type) where
  buffer : RowGroupBuffer A := {}
  emitted : List A := []
  callback : σ

/-- Drain row groups while the buffer has enough, or until it is empty at the end of the stream. -/
def drainGroups (options : RowGroupSplitOptions) (onRowGroupEmitted : A → Command σ Fault Unit)
    (isEof : Bool) : ℕ → SplitState A σ → Option (SplitState A σ × Except Fault Unit)
  | 0, _ => none
  | fuel + 1, s =>
    if s.buffer.haveEnough options.blockSizeMinimum || (isEof && !s.buffer.isEmpty) then
      match s.buffer.drainOneGroup ops options.blockSizeMinimum with
      | .error e => some (s, .error e)
      | .ok (none, _) => some (s, .ok ())
      | .ok (some rowGroup, buffer) =>
        match onRowGroupEmitted rowGroup s.callback with
        | (callback, .error e) => some ({ s with buffer, callback }, .error e)
        | (callback, .ok ()) => drainGroups options onRowGroupEmitted isEof fuel
            { buffer, emitted := s.emitted ++ [rowGroup], callback }
    else some (s, .ok ())

/-- The chunk that goes on, canonicalized if this is asked for. -/
def nextChunk (options : RowGroupSplitOptions) (chunk : Except Fault A) : Except Fault A := do
  let chunk ← chunk
  if options.canonicalize then ops.canonicalize chunk else return chunk

def pushChunk (s : SplitState A σ) (chunk : A) : SplitState A σ :=
  if (ops.rows chunk).isEmpty then s else { s with buffer := s.buffer.push ops chunk }

/-- The loop of `split_stream_into_row_groups`. -/
def splitChunks (options : RowGroupSplitOptions) (onRowGroupEmitted : A → Command σ Fault Unit)
    (fuel : ℕ) : List (Except Fault A) → SplitState A σ →
      Option (SplitState A σ × Except Fault Unit)
  | [], s => some (s, .ok ())
  | chunk :: chunks, s =>
    match nextChunk ops options chunk with
    | .error e => some (s, .error e)
    | .ok chunk =>
      match drainGroups ops options onRowGroupEmitted chunks.isEmpty fuel
        (pushChunk ops s chunk) with
      | none => none
      | some (s, .error e) => some (s, .error e)
      | some (s, .ok ()) => splitChunks options onRowGroupEmitted fuel chunks s

def splitStreamIntoRowGroups (options : RowGroupSplitOptions)
    (onRowGroupEmitted : A → Command σ Fault Unit) (callback : σ) (fuel : ℕ)
    (stream : List (Except Fault A)) : Option (SplitState A σ × Except Fault Unit) :=
  splitChunks ops options onRowGroupEmitted fuel stream { callback }

/-! ## The boundaries of a zone map -/

structure StatsBuildState where
  rgStarts : List ℕ := []
  rgLens : List ℕ := []
  nextRow : ℕ := 0

/-- `push_row_group`. The statistics of the columns are computed by `computeStatistics`. -/
def pushRowGroup (computeStatistics : A → Except Fault Unit) (rowGroup : A) :
    Command StatsBuildState Fault Unit := do
  let s ← get
  let rgLen := (ops.rows rowGroup).length
  if s.nextRow + rgLen ≤ u64Max then
    modify fun s => { s with nextRow := s.nextRow + rgLen }
    ofExcept (computeStatistics rowGroup)
    modify fun s' => { s' with
      rgStarts := s'.rgStarts ++ [s.nextRow]
      rgLens := s'.rgLens ++ [rgLen] }
  else fail (.thrown "row count overflow")

/-! ## Draining -/

namespace RowGroupBuffer

variable {ops}

@[simp] theorem rows_cons (p : A × ℕ) (data : List (A × ℕ)) (nbytes : ℕ) :
    rows ops ⟨p :: data, nbytes⟩ = ops.rows p.1 ++ data.flatMap fun p => ops.rows p.1 :=
  flatMap_cons

@[simp] theorem rows_mk (data : List (A × ℕ)) (nbytes : ℕ) :
    rows ops ⟨data, nbytes⟩ = data.flatMap fun p => ops.rows p.1 := rfl

theorem rowsToTake_le (spaceLeft chunkLen estBytes : ℕ) :
    rowsToTake spaceLeft chunkLen estBytes ≤ chunkLen := Nat.min_le_right ..

theorem rowsToTake_pos (spaceLeft estBytes : ℕ) {chunkLen : ℕ} (h : 0 < chunkLen) :
    0 < rowsToTake spaceLeft chunkLen estBytes := by
  unfold rowsToTake
  omega

variable (hops : ops.Lawful) {blockSizeMinimum : ℕ}
include hops

theorem splitChunk_ok {groupBytes : ℕ} (hle : groupBytes ≤ blockSizeMinimum) {chunk : A}
    (hchunk : ops.rows chunk ≠ []) {data : List (A × ℕ)} (hdata : ∀ p ∈ data, ops.rows p.1 ≠ [])
    (nbytes estBytes : ℕ) : ∃ left b,
      splitChunk ops blockSizeMinimum groupBytes nbytes chunk estBytes data = .ok (left, b) ∧
        ops.rows left ++ b.rows ops = ops.rows chunk ++ data.flatMap (fun p => ops.rows p.1) ∧
          ops.rows left ≠ [] ∧ b.NonEmpty ops := by
  have hsub : checkedSub blockSizeMinimum groupBytes = .ok (blockSizeMinimum - groupBytes) :=
    if_pos hle
  have hlen : 0 < (ops.rows chunk).length := length_pos_iff.mpr hchunk
  have htaken := rowsToTake_le (blockSizeMinimum - groupBytes) (ops.rows chunk).length estBytes
  have hpos := rowsToTake_pos (blockSizeMinimum - groupBytes) estBytes hlen
  set taken := rowsToTake (blockSizeMinimum - groupBytes) (ops.rows chunk).length estBytes
    with htaken_eq
  obtain ⟨left, hleft, hleft_rows⟩ := hops.slice_ok chunk 0 taken (Nat.zero_le _) htaken
  rw [drop_zero, Nat.sub_zero] at hleft_rows
  have hleft_ne : ops.rows left ≠ [] := by
    rw [hleft_rows, ← length_pos_iff, length_take]
    omega
  rw [splitChunk]
  simp only [hsub, Except.ok_bind, ← htaken_eq, hleft]
  split_ifs with hlt
  · obtain ⟨right, hright, hright_rows⟩ := hops.slice_ok chunk taken _ htaken (Nat.le_refl _)
    rw [take_of_length_le (by simp)] at hright_rows
    rw [hright]
    refine ⟨left, _, rfl, ?_, hleft_ne, forall_mem_cons.mpr ⟨?_, hdata⟩⟩
    · rw [rows_cons, hleft_rows, hright_rows, ← append_assoc, take_append_drop]
    · rw [hright_rows, ← length_pos_iff, length_drop]
      omega
  · refine ⟨left, _, rfl, ?_, hleft_ne, hdata⟩
    rw [rows_mk, hleft_rows, take_of_length_le (by omega)]

/-- The group and what stays in the buffer are the rows that were there. -/
theorem drainLoop_ok {data : List (A × ℕ)} (hdata : ∀ p ∈ data, ops.rows p.1 ≠ [])
    {groupBytes : ℕ} (hle : groupBytes ≤ blockSizeMinimum) (nbytes : ℕ) (group : List A) :
    ∃ group' b, drainLoop ops blockSizeMinimum data nbytes groupBytes group = .ok (group', b) ∧
      group'.flatMap ops.rows ++ b.rows ops =
        group.flatMap ops.rows ++ data.flatMap (fun p => ops.rows p.1) ∧ b.NonEmpty ops ∧
          (data ≠ [] ∨ group.flatMap ops.rows ≠ [] → group'.flatMap ops.rows ≠ []) := by
  induction data generalizing groupBytes nbytes group with
  | nil => exact ⟨group, _, rfl, rfl, nofun, by simp⟩
  | cons p data ih =>
    obtain ⟨chunk, estBytes⟩ := p
    obtain ⟨hchunk, hdata⟩ := forall_mem_cons.mp hdata
    have hgroup : (group ++ [chunk]).flatMap ops.rows =
        group.flatMap ops.rows ++ ops.rows chunk := by simp
    rw [drainLoop]
    split_ifs with hfits hfull
    · refine ⟨_, _, rfl, ?_, hdata, fun _ => ?_⟩
      · rw [hgroup, rows_mk, flatMap_cons, append_assoc]
      · rw [hgroup]
        exact append_ne_nil_of_right_ne_nil _ hchunk
    · obtain ⟨group', b, hrun, hrows, hb, hne⟩ :=
        ih hdata hfits (nbytes - estBytes) (group ++ [chunk])
      refine ⟨group', b, hrun, ?_, hb, fun _ => hne (.inr ?_)⟩
      · rw [hrows, hgroup, flatMap_cons, append_assoc]
      · rw [hgroup]
        exact append_ne_nil_of_right_ne_nil _ hchunk
    · obtain ⟨left, b, hrun, hrows, hleft, hb⟩ :=
        splitChunk_ok hops hle hchunk hdata (nbytes - estBytes) estBytes
      rw [hrun]
      refine ⟨_, _, rfl, ?_, hb, fun _ => ?_⟩
      · rw [flatMap_append, flatMap_singleton, append_assoc, hrows, flatMap_cons]
      · rw [flatMap_append, flatMap_singleton]
        exact append_ne_nil_of_right_ne_nil _ hleft

variable (blockSizeMinimum) in
/-- **A row group** has the first rows of the buffer, at least one. -/
theorem drainOneGroup_ok {b : RowGroupBuffer A} (hb : b.NonEmpty ops) (hne : b.data ≠ []) :
    ∃ rowGroup b', drainOneGroup ops blockSizeMinimum b = .ok (some rowGroup, b') ∧
      ops.rows rowGroup ++ b'.rows ops = b.rows ops ∧ ops.rows rowGroup ≠ [] ∧ b'.NonEmpty ops := by
  obtain ⟨group, b', hrun, hrows, hb', hgroup⟩ :=
    drainLoop_ok hops hb (Nat.zero_le blockSizeMinimum) b.nbytes []
  obtain ⟨rowGroup, hconcat, hconcat_rows⟩ := hops.concatenate_ok group
  refine ⟨rowGroup, b', ?_, ?_, ?_, hb'⟩
  · rw [drainOneGroup, if_neg (by simpa using hne), hrun]
    simp only [hconcat, Except.ok_bind]
    rfl
  · rw [hconcat_rows, hrows, flatMap_nil]
    rfl
  · rw [hconcat_rows]
    exact hgroup (.inl hne)

end RowGroupBuffer

/-! ## Runs -/

section Runs

variable {ops} (hops : ops.Lawful) (options : RowGroupSplitOptions)
  {onRowGroupEmitted : A → Command σ Fault Unit} {I : List A → σ → Prop}
  (hI : ∀ groups st g st', I groups st → onRowGroupEmitted g st = (st', .ok ()) →
    I (groups ++ [g]) st')

/-- The rows that have come so far are in the row groups and in the buffer, and `I` holds of the row
groups and the state of the callback. -/
structure SplitInv (ops : ArrayOps A α) (I : List A → σ → Prop) (rows : List α)
    (s : SplitState A σ) : Prop where
  rows : s.emitted.flatMap ops.rows ++ s.buffer.rows ops = rows
  nonEmpty : s.buffer.NonEmpty ops
  emitted : ∀ g ∈ s.emitted, ops.rows g ≠ []
  callback : I s.emitted s.callback

/-- The callback has failed on a row group. -/
def CallbackFails (ops : ArrayOps A α) (onRowGroupEmitted : A → Command σ Fault Unit)
    (I : List A → σ → Prop) (rows : List α) (e : Fault) : Prop :=
  ∃ groups g st st', I groups st ∧ onRowGroupEmitted g st = (st', .error e) ∧
    ((groups ++ [g]).flatMap ops.rows).length ≤ rows.length

variable {rows : List α} {s : SplitState A σ} {fuel : ℕ}

theorem CallbackFails.append {e : Fault} (h : CallbackFails ops onRowGroupEmitted I rows e)
    (rows' : List α) :
    CallbackFails ops onRowGroupEmitted I (rows ++ rows') e := by
  obtain ⟨groups, g, st, st', hst, hcb, hlen⟩ := h
  refine ⟨groups, g, st, st', hst, hcb, Nat.le_trans hlen ?_⟩
  rw [length_append]
  exact Nat.le_add_right ..

theorem SplitInv.pushChunk (h : SplitInv ops I rows s) (chunk : A) :
    SplitInv ops I (rows ++ ops.rows chunk) (Vortex.pushChunk ops s chunk) := by
  unfold Vortex.pushChunk
  split_ifs with hempty
  · rwa [isEmpty_iff.mp hempty, append_nil]
  · refine ⟨?_, ?_, h.emitted, h.callback⟩
    · rw [← h.rows, append_assoc]
      simp [RowGroupBuffer.push, RowGroupBuffer.rows]
    · refine forall_mem_append.mpr ⟨h.nonEmpty, forall_mem_singleton.mpr ?_⟩
      simpa using hempty

include hops hI

theorem drainGroups_ok (isEof : Bool) (h : SplitInv ops I rows s)
    (hfuel : (s.buffer.rows ops).length < fuel) :
    ∃ s' r, drainGroups ops options onRowGroupEmitted isEof fuel s = some (s', r) ∧
      (∀ g ∈ s'.emitted, ops.rows g ≠ []) ∧
        (r = .ok () → SplitInv ops I rows s' ∧ (isEof → s'.buffer.data = [])) ∧
          ∀ e, r = .error e → CallbackFails ops onRowGroupEmitted I rows e := by
  induction fuel generalizing s with
  | zero => exact absurd hfuel (Nat.not_lt_zero _)
  | succ fuel ih =>
    rw [drainGroups]
    split_ifs with hcond
    · by_cases hdata : s.buffer.data = []
      · have hdrain : s.buffer.drainOneGroup ops options.blockSizeMinimum = .ok (none, s.buffer) :=
          if_pos (by rw [hdata]; rfl)
        rw [hdrain]
        exact ⟨s, _, rfl, h.emitted, fun _ => ⟨h, fun _ => hdata⟩, fun _ he => nomatch he⟩
      · obtain ⟨rowGroup, b, hdrain, hrows, hgroup, hb⟩ :=
          RowGroupBuffer.drainOneGroup_ok hops options.blockSizeMinimum h.nonEmpty hdata
        rw [hdrain]
        dsimp only
        have hlen : 0 < (ops.rows rowGroup).length := length_pos_iff.mpr hgroup
        have htotal : ((s.emitted ++ [rowGroup]).flatMap ops.rows) ++ b.rows ops = rows := by
          rw [flatMap_append, flatMap_singleton, append_assoc, hrows, h.rows]
        rcases hcb : onRowGroupEmitted rowGroup s.callback with ⟨st', e | _⟩
        · refine ⟨_, _, rfl, h.emitted, nofun, fun e' he' => ?_⟩
          obtain rfl := Except.error.inj he'
          refine ⟨s.emitted, rowGroup, s.callback, st', h.callback, hcb, ?_⟩
          rw [← htotal, length_append]
          exact Nat.le_add_right ..
        · dsimp only
          refine ih ⟨htotal, hb, ?_, hI _ _ _ _ h.callback hcb⟩ ?_
          · rw [forall_mem_append, forall_mem_singleton]
            exact ⟨h.emitted, hgroup⟩
          · rw [← hrows, length_append] at hfuel
            dsimp only
            omega
    · refine ⟨s, _, rfl, h.emitted, fun _ => ⟨h, fun heof => ?_⟩, fun _ he => nomatch he⟩
      simp only [heof, RowGroupBuffer.isEmpty, Bool.or_eq_true, Bool.true_and, not_or,
        Bool.not_eq_true', Bool.not_eq_false, List.isEmpty_iff] at hcond
      exact hcond.2

theorem splitChunks_ok {chunks : List A} (h : SplitInv ops I rows s)
    (hend : chunks = [] → s.buffer.data = [])
    (hfuel : (rows ++ chunks.flatMap ops.rows).length < fuel) :
    ∃ s' r, splitChunks ops options onRowGroupEmitted fuel (chunks.map .ok) s = some (s', r) ∧
      (∀ g ∈ s'.emitted, ops.rows g ≠ []) ∧
        (r = .ok () → SplitInv ops I (rows ++ chunks.flatMap ops.rows) s' ∧ s'.buffer.data = []) ∧
            ∀ e, r = .error e →
              CallbackFails ops onRowGroupEmitted I (rows ++ chunks.flatMap ops.rows) e := by
  induction chunks generalizing rows s with
  | nil =>
    rw [flatMap_nil, append_nil]
    exact ⟨s, _, rfl, h.emitted, fun _ => ⟨h, hend rfl⟩, fun _ he => nomatch he⟩
  | cons chunk chunks ih =>
    obtain ⟨chunk', hchunk, hrows⟩ : ∃ chunk', nextChunk ops options (.ok chunk) = .ok chunk' ∧
        ops.rows chunk' = ops.rows chunk := by
      rw [nextChunk, Except.ok_bind]
      split_ifs
      · exact hops.canonicalize_ok chunk
      · exact ⟨chunk, rfl, rfl⟩
    have hpush := h.pushChunk chunk'
    rw [hrows] at hpush
    rw [flatMap_cons, ← append_assoc] at hfuel ⊢
    have hbuffer : ((Vortex.pushChunk ops s chunk').buffer.rows ops).length < fuel := by
      have := congrArg length hpush.rows
      simp only [length_append] at this hfuel
      omega
    obtain ⟨s1, r1, hrun, hemitted, hok, herror⟩ := drainGroups_ok hops options hI chunks.isEmpty
      hpush hbuffer
    rw [map_cons, splitChunks, hchunk]
    dsimp only
    rw [isEmpty_map, hrun]
    cases r1 with
    | error e =>
      refine ⟨s1, _, rfl, hemitted, nofun, fun e' he' => ?_⟩
      obtain rfl := Except.error.inj he'
      exact (herror e rfl).append _
    | ok =>
      obtain ⟨hinv, heof⟩ := hok rfl
      dsimp only
      exact ih hinv (fun hnil => heof (by rw [hnil]; rfl)) hfuel

/-- **The splitter ends**, and the row groups have the rows of the chunks. -/
theorem splitStreamIntoRowGroups_ok {callback : σ} (hcallback : I [] callback) (chunks : List A)
    (hfuel : (chunks.flatMap ops.rows).length < fuel) :
    ∃ s r, splitStreamIntoRowGroups ops options onRowGroupEmitted callback fuel
        (chunks.map .ok) = some (s, r) ∧ (∀ g ∈ s.emitted, ops.rows g ≠ []) ∧
      (r = .ok () → s.emitted.flatMap ops.rows = chunks.flatMap ops.rows ∧ I s.emitted s.callback) ∧
          ∀ e, r = .error e →
            CallbackFails ops onRowGroupEmitted I (chunks.flatMap ops.rows) e := by
  have hstart : SplitInv ops I [] { callback := callback } := ⟨rfl, nofun, nofun, hcallback⟩
  obtain ⟨s, r, hrun, hemitted, hok, herror⟩ := splitChunks_ok hops options hI hstart
    (fun _ => rfl) (by simpa using hfuel)
  refine ⟨s, r, hrun, hemitted, fun hr => ?_, by simpa using herror⟩
  obtain ⟨hinv, hdata⟩ := hok hr
  refine ⟨?_, hinv.callback⟩
  have hrows := hinv.rows
  rwa [RowGroupBuffer.rows, hdata, flatMap_nil, append_nil, nil_append] at hrows

end Runs

/-! ## Boundaries -/

variable {ops}

/-- The boundaries are those of the row groups. -/
structure Boundaries (ops : ArrayOps A α) (groups : List A) (s : StatsBuildState) : Prop where
  rgLens : s.rgLens = groups.map fun g => (ops.rows g).length
  length_rgStarts : s.rgStarts.length = s.rgLens.length
  chained : Tiling.Chained Prod.fst Prod.snd 0 (s.rgStarts.zip s.rgLens) s.nextRow
  nextRow : s.nextRow = (groups.flatMap ops.rows).length

theorem boundaries_nil : Boundaries ops [] {} := ⟨rfl, rfl, rfl, rfl⟩

theorem pushRowGroup_run (computeStatistics : A → Except Fault Unit) (g : A) (s : StatsBuildState) :
    pushRowGroup ops computeStatistics g s =
      if s.nextRow + (ops.rows g).length ≤ u64Max then
        match computeStatistics g with
        | .error e => ({ s with nextRow := s.nextRow + (ops.rows g).length }, .error e)
        | .ok () => ({
            rgStarts := s.rgStarts ++ [s.nextRow]
            rgLens := s.rgLens ++ [(ops.rows g).length]
            nextRow := s.nextRow + (ops.rows g).length }, .ok ())
      else (s, .error (.thrown "row count overflow")) := by
  rw [pushRowGroup, get_bind_run]
  split_ifs
  · cases computeStatistics g <;> rfl
  · rfl

theorem Boundaries.push {computeStatistics : A → Except Fault Unit} {groups : List A}
    {s s' : StatsBuildState} {g : A} (h : Boundaries ops groups s)
    (hrun : pushRowGroup ops computeStatistics g s = (s', .ok ())) :
    Boundaries ops (groups ++ [g]) s' := by
  rw [pushRowGroup_run] at hrun
  split_ifs at hrun
  · cases hstats : computeStatistics g with
    | error e => simp [hstats] at hrun
    | ok =>
      rw [hstats] at hrun
      cases hrun
      refine ⟨?_, ?_, ?_, ?_⟩
      · rw [h.rgLens, map_append, map_singleton]
      · simp [length_append, length_append, h.length_rgStarts]
      · rw [zip_append h.length_rgStarts]
        exact Tiling.chained_append h.chained ⟨rfl, rfl⟩
      · rw [flatMap_append, length_append, ← h.nextRow, flatMap_singleton]
  · cases hrun

/-- The starts are the sums of the lengths before them. -/
theorem Boundaries.getElem?_rgStarts {groups : List A} {s : StatsBuildState}
    (h : Boundaries ops groups s) {i : ℕ} (hi : i < s.rgStarts.length) :
    s.rgStarts[i]? = some (s.rgLens.take i).sum := by
  have hi' : i < s.rgLens.length := h.length_rgStarts ▸ hi
  have hzip : (s.rgStarts.zip s.rgLens)[i]? = some (s.rgStarts[i], s.rgLens[i]) := by
    simp [hi, hi']
  have hstart := h.chained.start_eq hzip
  rw [zero_add, map_take, map_snd_zip (Nat.le_of_eq h.length_rgStarts.symm)] at hstart
  rw [getElem?_eq_getElem hi, ← hstart]

/-- The row groups have the rows of the chunks, and none of them is empty. -/
structure Splits (ops : ArrayOps A α) (chunks groups : List A) : Prop where
  rows : groups.flatMap ops.rows = chunks.flatMap ops.rows
  nonEmpty : ∀ g ∈ groups, ops.rows g ≠ []

/-- **Splitting keeps every row.** Without zone maps the splitter ends, and the row groups have the
rows of the chunks. With zone maps it ends too; if no call fails, the boundaries are those of the
row groups, and no call fails unless statistics cannot be computed or the rows cannot be counted. -/
theorem rowGroups_keep_rows (hops : ops.Lawful) (options : RowGroupSplitOptions) (chunks : List A)
    {fuel : ℕ} (hfuel : (chunks.flatMap ops.rows).length < fuel) :
    (∃ s : SplitState A Unit, splitStreamIntoRowGroups ops options (fun _ => pure ()) () fuel
      (chunks.map .ok) = some (s, .ok ()) ∧ Splits ops chunks s.emitted) ∧
    ∀ computeStatistics : A → Except Fault Unit, ∃ s r,
      splitStreamIntoRowGroups ops options (pushRowGroup ops computeStatistics) {} fuel
        (chunks.map .ok) = some (s, r) ∧ (∀ g ∈ s.emitted, ops.rows g ≠ []) ∧
      (r = .ok () → Splits ops chunks s.emitted ∧
        s.callback.rgLens = s.emitted.map (fun g => (ops.rows g).length) ∧
        s.callback.rgStarts.length = s.emitted.length ∧
        (∀ i < s.emitted.length, s.callback.rgStarts[i]? = some (s.callback.rgLens.take i).sum) ∧
        Tiling.Tiles Prod.fst Prod.snd 0 (s.callback.rgStarts.zip s.callback.rgLens)
          (chunks.flatMap ops.rows).length) ∧
      ((∀ a, computeStatistics a = .ok ()) → (chunks.flatMap ops.rows).length ≤ u64Max →
        r = .ok ()) := by
  constructor
  · have hnone : ∀ (groups : List A) (st : Unit) (g : A) (st' : Unit), True →
        (pure () : Command Unit Fault Unit) st = (st', .ok ()) → True :=
      fun _ _ _ _ _ _ => trivial
    obtain ⟨s, r, hrun, hemitted, hok, herror⟩ := splitStreamIntoRowGroups_ok hops options
      (I := fun _ _ => True) hnone trivial chunks hfuel
    cases r with
    | error e =>
      obtain ⟨_, _, _, _, -, hcb, -⟩ := herror e rfl
      cases hcb
    | ok => exact ⟨s, hrun, (hok rfl).1, hemitted⟩
  · intro computeStatistics
    have hpush : ∀ groups st g st', Boundaries ops groups st →
        pushRowGroup ops computeStatistics g st = (st', .ok ()) →
          Boundaries ops (groups ++ [g]) st' := fun _ _ _ _ h hrun => h.push hrun
    obtain ⟨s, r, hrun, hemitted, hok, herror⟩ := splitStreamIntoRowGroups_ok hops options hpush
      boundaries_nil chunks hfuel
    refine ⟨s, r, hrun, hemitted, fun hr => ?_, fun hstats htotal => ?_⟩
    · obtain ⟨hrows, hb⟩ := hok hr
      have hlens : s.callback.rgLens.length = s.emitted.length := by rw [hb.rgLens, length_map]
      have hlen := hb.length_rgStarts.trans hlens
      refine ⟨⟨hrows, hemitted⟩, hb.rgLens, hlen,
        fun i hi => hb.getElem?_rgStarts (hlen ▸ hi), ?_, ?_⟩
      · rw [← hrows, ← hb.nextRow]
        exact hb.chained
      · rintro ⟨start, len⟩ hmem
        have hmem := (of_mem_zip hmem).2
        rw [hb.rgLens, mem_map] at hmem
        obtain ⟨g, hg, rfl⟩ := hmem
        exact length_pos_iff.mpr (hemitted g hg)
    · cases r with
      | ok => rfl
      | error e =>
        obtain ⟨groups, g, st, st', hst, hcb, hlen⟩ := herror e rfl
        rw [flatMap_append, length_append, flatMap_singleton, ← hst.nextRow] at hlen
        rw [pushRowGroup_run, hstats, if_pos (Nat.le_trans hlen htotal)] at hcb
        cases hcb

/-- Lists of numbers, in which every chunk counts as five bytes. -/
def listOps : ArrayOps (List ℕ) ℕ where
  rows := id
  estimatedSize _ := 5
  estimatedRemainderSize _ _ _ _ := 5
  slice a i j := .ok ((a.drop i).take (j - i))
  concatenate as := .ok as.flatten
  canonicalize a := .ok a

theorem lawful_listOps : listOps.Lawful where
  slice_ok _ _ _ _ _ := ⟨_, rfl, rfl⟩
  concatenate_ok _ := ⟨_, rfl, flatMap_id.symm⟩
  canonicalize_ok a := ⟨a, rfl, rfl⟩

/-- Block size 0, and an empty chunk at the end. -/
theorem rowGroups_keep_rows_threeRows : (∃ s : SplitState (List ℕ) Unit,
      splitStreamIntoRowGroups listOps ⟨0, false⟩ (fun _ => pure ()) () 4
        ([[1, 2], [3], []].map .ok) = some (s, .ok ()) ∧
      Splits listOps [[1, 2], [3], []] s.emitted) ∧
    ∃ s, splitStreamIntoRowGroups listOps ⟨0, false⟩ (pushRowGroup listOps fun _ => .ok ()) {} 4
        ([[1, 2], [3], []].map .ok) = some (s, .ok ()) ∧
      Splits listOps [[1, 2], [3], []] s.emitted ∧
      Tiling.Tiles Prod.fst Prod.snd 0 (s.callback.rgStarts.zip s.callback.rgLens) 3 := by
  obtain ⟨hplain, hzones⟩ := rowGroups_keep_rows lawful_listOps ⟨0, false⟩ [[1, 2], [3], []]
    (show _ < 4 by decide)
  obtain ⟨s, r, hrun, -, hok, htotal⟩ := hzones fun _ => .ok ()
  obtain rfl := htotal (fun _ => rfl) (by decide)
  obtain ⟨hsplits, -, -, -, htiles⟩ := hok rfl
  exact ⟨hplain, s, hrun, hsplits, htiles⟩

end MilvusStorage.Vortex
