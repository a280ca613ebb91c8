import MilvusStorage.Packed.Delivery

/-!
# The stream of the packed reader

Without failures, repeated calls of `ReadNext` return the rows of the files side by side and then
null, provided that every row group has rows, that no column of a table ends in an empty chunk, and
that no refill resets a chunk state that is in use (`readNext_zip_files`).

The last condition holds by itself if the file readers are in the order of the paths
(`Inv.resetsHarmless`). Otherwise a refill of one file can reset the columns of another:
`readNext_repeats_row` has two files whose paths are not sorted.
-/

namespace MilvusStorage.Packed

open List

variable {V : Type}

namespace PackedReader

variable {R : PackedReader V} {heap : RowOffsetMinHeap} {total : ℕ} {s s' : Session (State V) V}

/-! ## The calls of a session -/

variable (R) in
/-- What is delivered are the rows of the files up to the row position. -/
structure Inv (s : Session (State V) V) : Prop where
  consistent : R.Consistent s.state
  position_eq : s.state.absoluteRowPosition = rows s.delivered
  cells_eq : ∀ (k : ℕ) fieldId o i, R.fieldIdList[k]? = some fieldId →
    R.fieldIdMapping fieldId = some o → i < R.size → R.pathIndex i = o.pathIndex →
    cells s.delivered k = (cells (R.whole i) o.colIndex).take (rows s.delivered)
  nulls_eq : ∀ (k : ℕ) fieldId, R.fieldIdList[k]? = some fieldId →
    R.fieldIdMapping fieldId = none → cells s.delivered k = List.replicate (rows s.delivered) none
  length_columns : ∀ rb ∈ s.delivered, rb.columns.length = R.fieldIdList.length

theorem initial_inv (R : PackedReader V) : R.Inv (.start {}) := by
  refine ⟨⟨fun i => ⟨Nat.zero_le _, rfl⟩, le_rfl, fun i _ => le_rfl, fun i _ t ht => ?_,
    fun _ _ _ _ _ _ => rfl, fun _ _ _ _ _ _ => rfl⟩, rfl, fun _ _ _ _ _ _ _ _ => rfl,
    fun _ _ _ _ => rfl, forall_mem_nil _⟩
  cases ht

variable {S : State V}

/-- A call that returns null. -/
theorem Inv.endOfData (h : R.Inv s) (hS : R.Consistent S)
    (hpos : S.absoluteRowPosition = s.state.absoluteRowPosition) :
    R.Inv (s.append (S, .ok none)) := by
  refine ⟨hS, ?_, ?_, ?_, ?_⟩
  all_goals rw [s.delivered_append_none rfl]
  · exact hpos.trans h.position_eq
  · exact h.cells_eq
  · exact h.nulls_eq
  · exact h.length_columns

/-- A call that returns a batch. -/
theorem Inv.deliver (h : R.Inv s) {S1 : State V} {rb : RecordBatch V}
    (hpos : S1.absoluteRowPosition = s.state.absoluteRowPosition) (hd : R.Delivered S1 S rb) :
    R.Inv (s.append (S, .ok (some rb))) := by
  refine ⟨hd.consistent, ?_, fun k fieldId o i hk ho hi hpath => ?_, fun k fieldId hk hnone => ?_,
    fun b hb => ?_⟩
  · rw [Session.delivered_append_some, rows_append, ← h.position_eq, ← hpos]
    exact hd.position_eq
  · rw [Session.delivered_append_some, cells_append, cells_cons, cells_nil, append_nil,
      h.cells_eq k fieldId o i hk ho hi hpath, hd.column_eq k fieldId o i hk ho hi hpath, hpos,
      h.position_eq, ← take_add, rows_append, rows_cons, rows_nil, add_zero]
  · rw [Session.delivered_append_some, cells_append, cells_cons, cells_nil, append_nil,
      h.nulls_eq k fieldId hk hnone, hd.column_eq_nulls k fieldId hk hnone,
      replicate_append_replicate, rows_append, rows_cons, rows_nil, add_zero]
  · rw [Session.delivered_append_some] at hb
    obtain hb | hb := mem_append.mp hb
    · exact h.length_columns b hb
    · rw [mem_singleton.mp hb]
      exact hd.length_columns

theorem Inv.read (h : R.Inv s) {r : ReadResult V} (hread : R.Read total s.state S r) :
    R.Inv (s.append (S, r)) := by
  cases hread with
  | endOfData hS hpos _ => exact h.endOfData hS hpos
  | batch S1 rb hpos hd _ => exact h.deliver hpos hd

variable (R heap) in
/-- In the calls without failures that follow, no refill resets a chunk state that is in use. -/
def ResetsHarmless (s : Session (State V) V) : Prop :=
  ∀ n, Runs.Meets (Session.next (R.readNext heap)) (fun s _ => R.ResetHarmless s.state) s
    (List.replicate n .noFailure)

/-- **The calls end** when all rows are delivered, if no refill resets chunk states that are in use.
-/
theorem Inv.exists_drain (ha : R.Aligned total) (h : R.Inv s) (hreset : R.ResetsHarmless heap s) :
    ∃ bs s', Session.Drains (R.readNext heap) s .noFailure bs s' ∧ R.Inv s' ∧
      rows s'.delivered = total := by
  refine Session.exists_drain (fun s => R.Inv s ∧ R.ResetsHarmless heap s) (R.before_wf total) ?_
    ⟨h, hreset⟩
  rintro s ⟨h, hreset⟩
  obtain ⟨S, r, hread, hr⟩ := readNext_read heap ha h.consistent (hreset 1).1
  have hinv := h.read hr
  refine ⟨S, r, hread, ?_⟩
  cases hr with
  | endOfData hS hpos hend =>
    refine .inl ⟨rfl, hinv, ?_⟩
    rw [← hinv.position_eq]
    exact hpos.trans hend
  | batch S1 rb hpos hd hbefore =>
    refine .inr ⟨⟨rb, rfl⟩, hbefore, hinv, fun n => (hreset (n + 1)).2 _ ?_⟩
    rw [Session.next, hread]

/-- If file readers and paths have the same indices, a refill resets only the columns of the file it
reads, and nothing of it is in use. -/
theorem Consistent.resetHarmless (ha : R.Aligned total) (h : R.Consistent S)
    (hidx : ∀ o ∈ R.neededColumnOffsets, ∀ i < R.size, o.pathIndex = i → R.pathIndex i = i) :
    R.ResetHarmless S := by
  intro hdue i hi hle k o hk hpath
  have hpathi := (hidx o (mem_of_getElem? hk) i hi hpath).trans hpath.symm
  have hdue' : S.rowLimit ≤ S.absoluteRowPosition := of_decide_eq_true hdue
  have hfits := h.fits k o i hk hi hpathi
  have hlen := h.length_queued ha hk hi hpathi
  cases hq : S.tables o.pathIndex with
  | nil =>
    rwa [hq] at hfits
  | cons t ts =>
    rw [hq] at hfits hlen
    obtain ⟨c, hc⟩ := hfits
    have := length_pos_of_ne_nil hc.rest_ne_nil
    rw [queued, length_append] at hlen
    omega

/-- **Sorted paths** that are all needed. -/
theorem Inv.resetsHarmless (heap : RowOffsetMinHeap) (ha : R.Aligned total)
    (hidx : ∀ o ∈ R.neededColumnOffsets, ∀ i < R.size, o.pathIndex = i → R.pathIndex i = i)
    (h : R.Inv s) : R.ResetsHarmless heap s := by
  intro n
  induction n generalizing s with
  | zero => trivial
  | succ n ih =>
    have hreset := h.consistent.resetHarmless ha hidx
    refine ⟨hreset, fun s' hnext => ih ?_⟩
    obtain ⟨S, r, hread, hr⟩ := readNext_read heap ha h.consistent hreset
    rw [Session.next, hread] at hnext
    cases hnext
    exact h.read hr

end PackedReader

/-! ## The stream -/

/-- A column of the file at a path is the field. -/
def Holds (groupFieldIds : List (List ℤ)) (p c : ℕ) (fieldId : ℤ) : Prop :=
  ∃ ids, groupFieldIds[p]? = some ids ∧ ids[c]? = some fieldId

/-- The files at some paths: each has `total` rows, and the columns that the first file names. -/
structure Agree (fs : FileSystem V) (paths : List String) (groupFieldIds : List (List ℤ))
    (total : ℕ) : Prop where
  nodup_fieldIds : groupFieldIds.flatten.Nodup
  numColumns_eq : ∀ (p : ℕ) path f ids, paths[p]? = some path → fs path = .ok f →
    groupFieldIds[p]? = some ids → f.numColumns = ids.length
  rows_content : ∀ path ∈ paths, ∀ f, fs path = .ok f → rows f.content = total
  regular : ∀ path ∈ paths, ∀ f, fs path = .ok f → f.Regular
  total_lt : total < 2 ^ 31

section Stream

variable {fs : FileSystem V} {paths : List String} {groupFieldIds : List (List ℤ)} {total : ℕ}
  {R : PackedReader V}

theorem getFieldIDMapping_eq_some {fieldId : ℤ} {o : ColumnOffset}
    (h : getFieldIDMapping groupFieldIds fieldId = some o) :
    Holds groupFieldIds o.pathIndex o.colIndex fieldId := by
  obtain ⟨⟨p, c⟩, hfind, rfl⟩ := Option.map_eq_some_iff.mp h
  exact Positions.getElem?_of_find hfind

theorem getFieldIDMapping_eq_none {fieldId : ℤ} :
    getFieldIDMapping groupFieldIds fieldId = none ↔ ∀ p c, ¬ Holds groupFieldIds p c fieldId := by
  constructor
  · rintro hnone p c ⟨ids, hids, hc⟩
    exact Positions.notMem_of_find (Option.map_eq_none_iff.mp hnone) ids (mem_of_getElem? hids)
      (mem_of_getElem? hc)
  · intro hnot
    by_contra hne
    obtain ⟨o, ho⟩ := Option.ne_none_iff_exists'.mp hne
    exact hnot _ _ (getFieldIDMapping_eq_some ho)

theorem PackedReader.Opened.aligned (h : R.Opened fs paths) (hpaths : paths.Nodup)
    (hagree : Agree fs paths groupFieldIds total)
    (hmapping : R.fieldIdMapping = getFieldIDMapping groupFieldIds)
    (hfield : ∃ fieldId ∈ R.fieldIdList, ∃ p c, Holds groupFieldIds p c fieldId) :
    R.Aligned total := by
  have hv := h.valid hpaths
  refine ⟨hv, ?_, fun f hf => ?_, fun i hi => ?_, hagree.total_lt, fun o ho i hi hpath => ?_⟩
  · obtain ⟨fieldId, hmem, p, c, hheld⟩ := hfield
    obtain ⟨o, ho⟩ := Option.ne_none_iff_exists'.mp
      fun hnone => getFieldIDMapping_eq_none.mp hnone p c hheld
    have hneeded : o ∈ R.neededColumnOffsets := by
      rw [hv.neededColumnOffsets_eq, mem_filterMap]
      exact ⟨fieldId, hmem, hmapping ▸ ho⟩
    obtain ⟨i, hi, -⟩ := hv.exists_pathIndex o hneeded
    exact Nat.zero_lt_of_lt hi
  · obtain ⟨i, hi⟩ := mem_iff_getElem?.mp hf
    obtain ⟨path, hpath, hopen⟩ := h.exists_path hi
    exact hagree.regular path (mem_of_getElem? hpath) f hopen
  · obtain ⟨f, hf, -, hgroups, -⟩ := PackedReader.exists_file hi
    obtain ⟨path, hpath, hopen⟩ := h.exists_path hf
    rw [← hagree.rows_content path (mem_of_getElem? hpath) f hopen, PackedReader.whole, hgroups]
    rfl
  · obtain ⟨f, hf, -, -, hnum⟩ := PackedReader.exists_file hi
    obtain ⟨path, hpath', hopen⟩ := h.exists_path hf
    rw [hv.neededColumnOffsets_eq, hmapping] at ho
    obtain ⟨fieldId, -, hfieldId⟩ := mem_filterMap.mp ho
    obtain ⟨ids, hids, hcol⟩ := getFieldIDMapping_eq_some hfieldId
    rw [hpath] at hpath'
    rw [hnum, hagree.numColumns_eq _ path f ids hpath' hopen hids]
    exact lt_of_getElem? hcol

variable (heap : RowOffsetMinHeap) {path : String} {schema : List ℤ} {bufferSize : ℤ}
  {first : PackedFile V} (hmake : make (some fs) (path :: paths) (some schema) bufferSize = .ok R)
  (hpaths : (path :: paths).Nodup) (hfirst : fs path = .ok first)
  (hagree : Agree fs (path :: paths) first.groupFieldIds total)
  (hfield : ∃ fieldId ∈ schema, ∃ p c, Holds first.groupFieldIds p c fieldId)
include hmake hpaths hfirst hagree hfield

/-- If file readers and paths have the same indices, no refill resets a chunk state that is in use.
-/
theorem make_resetsHarmless
    (hidx : ∀ o ∈ R.neededColumnOffsets, ∀ i < R.size, o.pathIndex = i → R.pathIndex i = i) :
    R.ResetsHarmless heap (.start {}) := by
  obtain ⟨hopened, rfl, first', hfirst', hmapping⟩ := make_opened hmake
  cases hfirst.symm.trans hfirst'
  exact (PackedReader.initial_inv R).resetsHarmless heap
    (hopened.aligned hpaths hagree hmapping hfield) hidx

/-- **The stream of the packed reader** is the row-wise zip of its files, if every row group has
rows, no column of a table ends in an empty chunk and no refill resets a chunk state that is in use:
the calls of `ReadNext` return some batches and then null, and these batches are the rows of the
files in order, each requested field from the file that holds it. -/
theorem readNext_zip_files (hreset : R.ResetsHarmless heap (.start {})) :
    ∃ bs s, Session.Drains (R.readNext heap) (.start {}) .noFailure bs s ∧ rows bs = total ∧
      (∀ rb ∈ bs, rb.columns.length = schema.length) ∧
      ∀ (k : ℕ) fieldId, schema[k]? = some fieldId →
        (∀ p c path' f, Holds first.groupFieldIds p c fieldId → (path :: paths)[p]? = some path' →
          fs path' = .ok f → cells bs k = cells f.content c) ∧
        ((∀ p c, ¬ Holds first.groupFieldIds p c fieldId) →
          cells bs k = List.replicate total none) := by
  obtain ⟨hopened, rfl, first', hfirst', hmapping⟩ := make_opened hmake
  cases hfirst.symm.trans hfirst'
  have ha := hopened.aligned hpaths hagree hmapping hfield
  obtain ⟨bs, s, hdrains, hinv, hrows⟩ := (PackedReader.initial_inv R).exists_drain ha hreset
  have hdelivered : s.delivered = bs := Session.delivered_of_drains hdrains
  rw [hdelivered] at hrows
  refine ⟨bs, s, hdrains, hrows, hdelivered ▸ hinv.length_columns, fun k fieldId hk =>
    ⟨fun p c path' f ⟨ids, hids, hc⟩ hpath hf => ?_, fun hnot => ?_⟩⟩
  · have ho : R.fieldIdMapping fieldId = some ⟨p, c⟩ := by
      simp [hmapping, getFieldIDMapping, Positions.find_eq_of_nodup hagree.nodup_fieldIds hids hc]
    have hneeded := PackedReader.getElem?_neededColumnOffsets ha.valid hk ho
    obtain ⟨i, hi, hidx⟩ := ha.valid.exists_pathIndex _ (mem_of_getElem? hneeded)
    obtain ⟨f', hf', -, hgroups, -⟩ := PackedReader.exists_file hi
    obtain ⟨path'', hpath'', hopen⟩ := hopened.exists_path hf'
    rw [hidx, hpath] at hpath''
    cases hpath''
    cases hf.symm.trans hopen
    have hcells := hinv.cells_eq k fieldId _ i hk ho hi hidx
    rw [hdelivered, hrows, PackedReader.whole, hgroups, take_of_length_le] at hcells
    · exact hcells
    · rw [← hagree.rows_content path' (mem_of_getElem? hpath) f hf]
      exact length_cells_le ..
  · have hnone := getFieldIDMapping_eq_none.mpr hnot
    rw [← hrows, ← hdelivered]
    exact hinv.nulls_eq k fieldId hk (hmapping ▸ hnone)

end Stream

/-! ## Two files -/

/-- A row group of one column. -/
def columnRowGroup (values : List (Option V)) : RowGroup V where
  content := ⟨values.length, [.ofList values]⟩
  memorySize := 1

theorem selected_columnRowGroup (groups : List (List (Option V))) (rgs : List ℕ) :
    selected (groups.map columnRowGroup) rgs =
      (rgs.filterMap fun rg => groups[rg]?).map fun values => (columnRowGroup values).content := by
  rw [selected, map_filterMap]
  congr 1
  funext rg
  rw [getElem?_map, Option.map_map]
  rfl

/-- A file of one column that is read with a chunk for each row group. -/
def columnFile (groupFieldIds : List (List ℤ)) (groups : List (List (Option V))) :
    PackedFile V where
  groupFieldIds := groupFieldIds
  numColumns := 1
  rowGroups := groups.map columnRowGroup
  width := by
    intro g hg
    obtain ⟨values, -, rfl⟩ := mem_map.mp hg
    rfl
  readRowGroups rgs :=
    let chunks := rgs.filterMap fun rg => groups[rg]?
    ⟨chunks.flatten.length, [⟨chunks, rfl⟩]⟩
  length_columns_readRowGroups _ := rfl
  numRows_readRowGroups rgs := by
    rw [selected_columnRowGroup]
    simp [rows, columnRowGroup, length_flatten, Function.comp_def]
  flatten_chunks_readRowGroups rgs j := by
    rw [selected_columnRowGroup]
    cases j <;> simp [cells, columnRowGroup, Table.chunks, RecordBatch.column, flatMap_map]

theorem columnFile_regular {groupFieldIds : List (List ℤ)} {groups : List (List (Option V))}
    (h : ∀ values ∈ groups, values ≠ []) : (columnFile groupFieldIds groups).Regular := by
  refine ⟨fun g hg => ?_, fun g hg => ?_, fun rgs j hlast => ?_⟩
  · obtain ⟨values, hvalues, rfl⟩ := mem_map.mp hg
    exact length_pos_of_ne_nil (h values hvalues)
  · obtain ⟨values, -, rfl⟩ := mem_map.mp hg
    show 1 < 2 ^ 63
    omega
  · have hmem := mem_of_getLast? hlast
    cases j with
    | zero =>
      obtain ⟨rg, -, hrg⟩ := mem_filterMap.mp hmem
      exact h [] (mem_of_getElem? hrg) rfl
    | succ j => cases hmem

/-- The rows of file `b` are in one row group, those of the other file in two. -/
def twoFiles : FileSystem ℕ := fun path =>
  if path = "b" then .ok (columnFile [[1], [2]] [[some 10, some 20]])
  else .ok (columnFile [[1], [2]] [[some 1], [some 2]])

theorem twoFiles_agree (paths : List String) : Agree twoFiles paths [[1], [2]] 2 := by
  have hfile : ∀ path f, twoFiles path = .ok f →
      f.numColumns = 1 ∧ rows f.content = 2 ∧ f.Regular := by
    intro path f hf
    rw [twoFiles] at hf
    split_ifs at hf
    all_goals
      cases hf
      exact ⟨rfl, rfl, columnFile_regular (by simp)⟩
  refine ⟨by decide, fun p path f ids _ hf hids => ?_, fun path _ f hf => (hfile path f hf).2.1,
    fun path _ f hf => (hfile path f hf).2.2, by omega⟩
  rw [(hfile path f hf).1]
  match p with
  | 0 | 1 => obtain rfl := Option.some.inj hids; rfl
  | p + 2 => cases hids

/-- Files with different row groups, in the order of their paths, and a field that neither holds. -/
theorem readNext_zip_files_sorted : ∃ R bs s,
    make (some twoFiles) ["a", "b"] (some [2, 3, 1]) 1 = .ok R ∧
    Session.Drains (R.readNext .first) (.start {}) .noFailure bs s ∧
    cells bs 0 = [some 10, some 20] ∧ cells bs 1 = [none, none] ∧
    cells bs 2 = [some 1, some 2] := by
  obtain ⟨R, hmake, hidx⟩ : ∃ R, make (some twoFiles) ["a", "b"] (some [2, 3, 1]) 1 = .ok R ∧
      ∀ o ∈ R.neededColumnOffsets, ∀ i < R.size, o.pathIndex = i → R.pathIndex i = i :=
    ⟨_, rfl, by decide⟩
  have hfield : ∃ fieldId ∈ [2, 3, 1], ∃ p c, Holds [[1], [2]] p c fieldId :=
    ⟨1, by simp, 0, 0, [1], rfl, rfl⟩
  have hreset := make_resetsHarmless .first hmake (by simp) rfl (twoFiles_agree _) hfield hidx
  obtain ⟨bs, s, hdrains, -, -, hcells⟩ :=
    readNext_zip_files .first hmake (by simp) rfl (twoFiles_agree _) hfield hreset
  refine ⟨R, bs, s, hmake, hdrains, ?_, ?_, ?_⟩
  · exact (hcells 0 2 rfl).1 1 0 "b" _ ⟨[2], rfl, rfl⟩ rfl rfl
  · exact (hcells 1 3 rfl).2 (getFieldIDMapping_eq_none.mp rfl)
  · exact (hcells 2 1 rfl).1 0 0 "a" _ ⟨[1], rfl, rfl⟩ rfl rfl

/-- The same files with their paths in the other order: the second refill, which reads the second
row group of file `a`, resets the column of file `b`, and its first row is delivered twice. -/
theorem readNext_repeats_row : ∃ R bs s, make (some twoFiles) ["b", "a"] (some [1, 2]) 1 = .ok R ∧
    Agree twoFiles ["b", "a"] [[1], [2]] 2 ∧
    Session.Drains (R.readNext .first) (.start {}) .noFailure bs s ∧
    cells bs 0 = [some 10, some 10] ∧
    Holds [[1], [2]] 0 0 1 ∧
    ∃ f, twoFiles "b" = .ok f ∧ cells f.content 0 = [some 10, some 20] := by
  refine ⟨_, [⟨1, [⟨[some 10], rfl⟩, ⟨[some 1], rfl⟩]⟩, ⟨1, [⟨[some 10], rfl⟩, ⟨[some 2], rfl⟩]⟩],
    _, rfl, twoFiles_agree _, ⟨rfl, rfl⟩, rfl, ⟨[1], rfl, rfl⟩, _, rfl, rfl⟩

/-- A file that starts with an empty row group, and a buffer that has no room for another one: the
row limit does not move, and the first call returns null. -/
example : ∃ R s, make (some fun _ => .ok (columnFile [[1]] [[], [some 1]])) ["a"] (some [1]) 1 =
      .ok R ∧
    Session.Drains (R.readNext .first) (.start {}) .noFailure ([] : List (RecordBatch ℕ)) s :=
  ⟨_, _, rfl, rfl, rfl⟩

end MilvusStorage.Packed
