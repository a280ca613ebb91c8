import MilvusStorage.Format.GetChunks
import MilvusStorage.Format.Tiled

/-!
# Requests for chunks

What the two range-reading paths have in common: a request is sorted, the blocks of a request are
the sorted request in order (`flatten_taskBlocks`), the results come in the order of the tasks
whatever the order of their completion (`collectAll_of_perm`), and the chunks of a file that are
read together are in order, so that they can be combined to ranges (`rangesInFile_ok`).
-/

namespace MilvusStorage.Format

open List Tiling Function

variable {Row : Type}

/-! ## Sorted requests -/

section Sorted

variable {α : Type} [LinearOrder α] {l : List α}

theorem mem_sortUnique {a : α} : a ∈ sortUnique l ↔ a ∈ l := by
  rw [sortUnique, mem_dedup, mem_mergeSort]

theorem sortUnique_pairwise : (sortUnique l).Pairwise (· < ·) := by
  have hsorted : (sortUnique l).Pairwise (· ≤ ·) := by
    apply Pairwise.sublist (dedup_sublist _)
    have hmerge : (l.mergeSort fun a b => decide (a ≤ b)).Pairwise
        fun a b => decide (a ≤ b) = true :=
      pairwise_mergeSort (fun a b c hab hbc =>
          decide_eq_true ((of_decide_eq_true hab).trans (of_decide_eq_true hbc)))
        (by simpa using le_total) l
    exact hmerge.imp of_decide_eq_true
  have hnodup : (sortUnique l).Pairwise (· ≠ ·) := nodup_dedup _
  exact (hsorted.and hnodup).imp fun h => lt_of_le_of_ne h.1 h.2

theorem sortUnique_eq_self (h : l.Pairwise (· < ·)) : sortUnique l = l := by
  rw [sortUnique, mergeSort_of_pairwise (h.imp fun hlt => decide_eq_true hlt.le)]
  exact Nodup.dedup (h.imp ne_of_lt)

theorem sortUnique_eq_nil : sortUnique l = [] ↔ l = [] := by
  rw [eq_nil_iff_forall_not_mem, eq_nil_iff_forall_not_mem]
  simp [mem_sortUnique]

end Sorted

/-! ## Results -/

section Results

variable {α : Type} {results : List α} {order : List ℕ}

theorem foldl_update_eq {slots : ℕ → Option α} {i : ℕ} (h : slots i = results[i]? ∨ i ∈ order) :
    order.foldl (fun slots i => update slots i results[i]?) slots i = results[i]? := by
  induction order generalizing slots with
  | nil => exact h.resolve_right not_mem_nil
  | cons j order ih =>
    apply ih
    by_cases hij : i = j
    · subst hij
      exact .inl (update_self ..)
    · dsimp only
      rw [update_of_ne hij]
      exact h.imp_right fun hmem => (mem_cons.mp hmem).resolve_left hij

theorem mapM_some (l : List α) : l.mapM some = some l := by
  induction l with
  | nil => rfl
  | cons a l ih =>
    simp [mapM_cons, ih]

/-- The results come in the order of the tasks. -/
theorem collectAll_of_perm (h : order.Perm (List.range results.length)) :
    collectAll results order = some results := by
  have hcomplete : ∀ i ∈ range results.length, complete results order i = results[i]? :=
    fun i hi => foldl_update_eq (.inr (h.mem_iff.mpr hi))
  have hmap : (range results.length).map (complete results order) = results.map some := by
    apply ext_getElem?
    intro i
    rw [getElem?_map, getElem?_map]
    by_cases hi : i < results.length
    · rw [getElem?_range hi, getElem?_eq_getElem hi, Option.map_some, Option.map_some,
        hcomplete i (mem_range.mpr hi), getElem?_eq_getElem hi]
    · rw [getElem?_eq_none (by simpa using hi), getElem?_eq_none (by omega)]
      rfl
  have hmapM : ∀ l : List ℕ, l.mapM (complete results order) =
      (l.map (complete results order)).mapM id := by
    intro l
    simp
  rw [collectAll, hmapM, hmap, mapM_map]
  exact mapM_some results

theorem forall₂_of_mapM_some {β : Type} {f : β → Option α} {l : List β} {bs : List α}
    (h : l.mapM f = some bs) : Forall₂ (fun b a => f b = some a) l bs := by
  induction l generalizing bs with
  | nil =>
    cases h
    exact .nil
  | cons b l ih =>
    rw [mapM_cons] at h
    obtain ⟨a, ha, h⟩ := Option.bind_eq_some_iff.mp h
    obtain ⟨as, has, h⟩ := Option.bind_eq_some_iff.mp h
    cases h
    exact .cons ha (ih has)

theorem complete_eq (results : List α) (order : List ℕ) (i : ℕ) :
    complete results order i = none ∨ complete results order i = results[i]? := by
  by_cases hi : i ∈ order
  · exact .inr (foldl_update_eq (.inr hi))
  · left
    unfold complete
    generalize hslots : (fun _ => none : ℕ → Option α) = slots
    have hnone : slots i = none := hslots ▸ rfl
    clear hslots
    induction order generalizing slots with
    | nil => exact hnone
    | cons j order ih =>
      obtain ⟨hij, hi⟩ := not_or.mp (mem_cons.not.mp hi)
      apply ih hi _
      dsimp only
      rw [update_of_ne hij, hnone]

/-- There is no result before all tasks have completed. -/
theorem eq_of_collectAll {results' : List α} (h : collectAll results order = some results') :
    results' = results := by
  have hforall := forall₂_of_mapM_some h
  have hlen : results.length = results'.length := by
    simpa using hforall.length_eq
  apply ext_getElem hlen.symm
  intro i hi hi'
  have hget := hforall.get (by simpa using hi') hi
  rw [get_eq_getElem, getElem_range] at hget
  obtain hnone | hsome := complete_eq results order i
  · cases hnone.symm.trans hget
  · rw [hsome, getElem?_eq_getElem hi'] at hget
    exact (Option.some.inj hget).symm

end Results

/-! ## Blocks -/

theorem flatten_continuousBlocks (maxBlockSize : ℕ) (start : ℤ) (count : ℕ) (l : List ℤ) :
    (continuousBlocks maxBlockSize start count l).flatten = iota start count ++ l := by
  induction l generalizing start count with
  | nil => simp [continuousBlocks]
  | cons next l ih =>
    rw [continuousBlocks]
    split_ifs with hnext
    · rw [ih, iota, range_succ, hnext.1]
      simp [iota]
    · rw [flatten_cons, ih]
      simp [iota]

theorem flatten_splitChunks (parallelDegree : ℕ) (l : List ℤ) :
    (splitChunks parallelDegree l).flatten = l := by
  cases l with
  | nil => rfl
  | cons first l =>
    have hone : iota first 1 = [first] := by simp [iota]
    rw [splitChunks]
    split_ifs <;> rw [flatten_continuousBlocks, hone, singleton_append]

namespace ColumnGroupReader

theorem flatten_taskBlocks (chunkIndices : List ℤ) (parallelism numThreads : ℕ) :
    (taskBlocks chunkIndices parallelism numThreads).flatten = sortUnique chunkIndices := by
  unfold taskBlocks
  split_ifs
  · exact flatten_singleton
  · exact flatten_splitChunks ..

/-- The chunks of a block are in order. -/
theorem taskBlocks_pairwise {chunkIndices block : List ℤ} {parallelism numThreads : ℕ}
    (h : block ∈ taskBlocks chunkIndices parallelism numThreads) : block.Pairwise (· < ·) := by
  apply Pairwise.sublist (sublist_flatten_of_mem h)
  rw [flatten_taskBlocks]
  exact sortUnique_pairwise

/-! ## The chunks of a request -/

variable (r : ColumnGroupReader Row)

/-- The requested chunks that exist. -/
def chunksOf (chunkIndices : List ℤ) : List (ℤ × ChunkInfo) :=
  chunkIndices.filterMap fun i => (r.chunkInfo? i).map (Prod.mk i)

variable {r} {i : ℤ} {c : ChunkInfo}

theorem chunkInfo?_eq_some : r.chunkInfo? i = some c ↔ 0 ≤ i ∧ r.chunkInfos[i.toNat]? = some c := by
  unfold chunkInfo?
  split_ifs with hi
  · simp only [false_iff]
    omega
  · rw [and_iff_right (by omega)]

theorem mem_chunkInfos (h : r.chunkInfo? i = some c) :
    c ∈ r.chunkInfos := mem_of_getElem? (chunkInfo?_eq_some.mp h).2

theorem mem_chunksOf {chunkIndices : List ℤ} :
    (i, c) ∈ r.chunksOf chunkIndices ↔ i ∈ chunkIndices ∧ r.chunkInfo? i = some c := by
  simp only [chunksOf, mem_filterMap, Option.map_eq_some_iff, Prod.mk.injEq]
  constructor
  · rintro ⟨j, hj, d, hd, rfl, rfl⟩
    exact ⟨hj, hd⟩
  · rintro ⟨hi, hc⟩
    exact ⟨i, hi, c, hc, rfl, rfl⟩

/-- All requested chunks exist. -/
def AllExist (r : ColumnGroupReader Row) (chunkIndices : List ℤ) : Prop :=
  ∀ i ∈ chunkIndices, (r.chunkInfo? i).isSome

instance (r : ColumnGroupReader Row) (chunkIndices : List ℤ) :
    Decidable (r.AllExist chunkIndices) :=
  inferInstanceAs (Decidable (∀ i ∈ chunkIndices, (r.chunkInfo? i).isSome))

end ColumnGroupReader

open ColumnGroupReader

section IsOpen

variable {r : ColumnGroupReader Row} (h : IsOpen r) (hlayouts : Layouts r)

include h hlayouts

/-- The chunks of a file are in order and do not overlap. -/
theorem IsOpen.pairwise : r.chunkInfos.Pairwise fun c d =>
    c.fileIndex = d.fileIndex → c.rowOffsetInFile + c.numberOfRows ≤ d.rowOffsetInFile := by
  have hfile : ∀ i, r.chunkInfos.Pairwise fun c d => c.fileIndex = i → d.fileIndex = i →
      c.rowOffsetInFile + c.numberOfRows ≤ d.rowOffsetInFile := by
    intro i
    have hpairwise : (fileChunks r.chunkInfos i).Pairwise fun c d =>
        c.rowOffsetInFile + c.numberOfRows ≤ d.rowOffsetInFile := by
      cases hi : r.source.files[i]? with
      | some file => exact (h.tiles hlayouts hi).chained.pairwise
      | none =>
        have hnil : fileChunks r.chunkInfos i = [] := by
          rw [eq_nil_iff_forall_not_mem]
          intro c hc
          obtain ⟨hmem, hidx⟩ := mem_filter.mp hc
          obtain ⟨file, hfile, -⟩ := h.startIndex_le hmem
          rw [of_decide_eq_true hidx, hi] at hfile
          cases hfile
        rw [hnil]
        exact .nil
    have := pairwise_filter.mp hpairwise
    exact this.imp fun h hc hd => h (decide_eq_true hc) (decide_eq_true hd)
  rw [pairwise_iff_getElem]
  intro i j hi hj hlt heq
  exact pairwise_iff_getElem.mp (hfile r.chunkInfos[i].fileIndex) i j hi hj hlt rfl heq.symm

theorem IsOpen.chunksOf_pairwise {block : List ℤ} (hblock : block.Pairwise (· < ·)) :
    (r.chunksOf block).Pairwise fun p q => p.2.fileIndex = q.2.fileIndex →
      p.2.rowOffsetInFile + p.2.numberOfRows ≤ q.2.rowOffsetInFile := by
  refine pairwise_filterMap.mpr (hblock.imp fun {i j} hlt p hp q hq heq => ?_)
  obtain ⟨c, hc, rfl⟩ := Option.map_eq_some_iff.mp hp
  obtain ⟨d, hd, rfl⟩ := Option.map_eq_some_iff.mp hq
  obtain ⟨hi, hc⟩ := chunkInfo?_eq_some.mp hc
  obtain ⟨hj, hd⟩ := chunkInfo?_eq_some.mp hd
  exact (h.pairwise hlayouts).rel_of_getElem? hc hd (by omega) heq

/-- The file of a chunk, and the rows of the chunk in it. -/
theorem IsOpen.mem_file {c : ChunkInfo} (hc : c ∈ r.chunkInfos) :
    ∃ file, r.source.files[c.fileIndex]? = some file ∧
      (c.rowOffsetInFile + c.numberOfRows : ℤ) ≤ file.endIndex := by
  obtain ⟨file, hfile, -⟩ := h.startIndex_le hc
  have hmem : c ∈ fileChunks r.chunkInfos c.fileIndex :=
    mem_filter.mpr ⟨hc, decide_eq_true rfl⟩
  have hle := ((h.tiles hlayouts hfile).chained.mem hmem).2
  obtain ⟨hstart, hlt⟩ := h.valid file (mem_of_getElem? hfile)
  exact ⟨file, hfile, by omega⟩

theorem IsOpen.endInFile_eq {c : ChunkInfo} (hc : c ∈ r.chunkInfos) :
    c.endInFile = c.rowOffsetInFile + c.numberOfRows := by
  obtain ⟨file, hfile, hle⟩ := h.mem_file hlayouts hc
  obtain ⟨reader, rgs, hreader, -, -⟩ := h.inside hlayouts hc
  obtain ⟨rgs, n, -, hcontig, hend⟩ := hlayouts _ file reader hfile hreader
  have := hcontig.lt
  exact Nat.mod_eq_of_lt (by omega)

end IsOpen

/-! ## Ranges -/

section

variable {chunkInfos : List ChunkInfo}
  (hend : ∀ c ∈ chunkInfos, c.endInFile = c.rowOffsetInFile + c.numberOfRows)
include hend

theorem rangesFrom_ok {start stop : ℕ} (hstop : ∀ c ∈ chunkInfos, stop ≤ c.rowOffsetInFile)
    (hpairwise : chunkInfos.Pairwise fun c d =>
      c.rowOffsetInFile + c.numberOfRows ≤ d.rowOffsetInFile)
    {group : List ChunkInfo} (hne : group ≠ [])
    (hgroup : Chained ChunkInfo.rowOffsetInFile ChunkInfo.numberOfRows start group stop) :
    ∃ ranges groups, rangesFrom start stop chunkInfos = .ok ranges ∧
      groups.flatten = group ++ chunkInfos ∧ Forall₂ (fun range group => group ≠ [] ∧
        Chained ChunkInfo.rowOffsetInFile ChunkInfo.numberOfRows range.1 group range.2)
        ranges groups := by
  induction chunkInfos generalizing start stop group with
  | nil => exact ⟨[(start, stop)], [group], rfl, by simp, .cons ⟨hne, hgroup⟩ .nil⟩
  | cons c chunkInfos ih =>
    obtain ⟨hc, hend⟩ := forall_mem_cons.mp hend
    obtain ⟨hstop, -⟩ := forall_mem_cons.mp hstop
    obtain ⟨hnext, hpairwise⟩ := pairwise_cons.mp hpairwise
    rw [rangesFrom, if_neg (by omega), hc]
    split_ifs with heq
    · have hgroup' : Chained ChunkInfo.rowOffsetInFile ChunkInfo.numberOfRows start (group ++ [c])
          (c.rowOffsetInFile + c.numberOfRows) := by
        refine chained_append hgroup ⟨heq, ?_⟩
        rw [heq]
        exact rfl
      obtain ⟨ranges, groups, hranges, hflat, hforall⟩ := ih hend hnext hpairwise
        (append_ne_nil_of_right_ne_nil _ (cons_ne_nil _ _)) hgroup'
      exact ⟨ranges, groups, hranges, by rw [hflat, append_assoc]; rfl, hforall⟩
    · obtain ⟨ranges, groups, hranges, hflat, hforall⟩ := ih hend hnext hpairwise
        (cons_ne_nil c []) ⟨rfl, rfl⟩
      refine ⟨(start, stop) :: ranges, group :: groups, ?_, ?_, .cons ⟨hne, hgroup⟩ hforall⟩
      · simp [hranges]
      · simp [flatten_cons, hflat]

/-- Each range is the rows of adjacent chunks. -/
theorem rangesInFile_ok (hpairwise : chunkInfos.Pairwise fun c d =>
      c.rowOffsetInFile + c.numberOfRows ≤ d.rowOffsetInFile) :
    ∃ ranges groups, rangesInFile chunkInfos = .ok ranges ∧ groups.flatten = chunkInfos ∧
      Forall₂ (fun range group => group ≠ [] ∧
        Chained ChunkInfo.rowOffsetInFile ChunkInfo.numberOfRows range.1 group range.2)
        ranges groups := by
  cases chunkInfos with
  | nil => exact ⟨[], [], rfl, rfl, .nil⟩
  | cons c chunkInfos =>
    obtain ⟨hc, hend⟩ := forall_mem_cons.mp hend
    obtain ⟨hnext, hpairwise⟩ := pairwise_cons.mp hpairwise
    rw [rangesInFile, hc]
    exact rangesFrom_ok hend hnext hpairwise (cons_ne_nil c []) ⟨rfl, rfl⟩

end

end MilvusStorage.Format
