import MilvusStorage.Take.Projection

/-!
# The scan that a take is compared with

`get_record_batch_reader` opens the same groups as a take. Its batches are the visible rows of the
groups, side by side (`exists_scan`), so that a cell of the scan is the cell of the visible row at
its index (`storedCell`).
-/

namespace MilvusStorage.Take

open Except List Format

variable {V : Type}

/-- The number of rows: all groups have that many. -/
def total : List ColumnGroup → ℤ
  | [] => 0
  | g :: _ => totalRows g.files

/-- A cell of a row: of the group that holds the column, or null. -/
def storedCell (storage : String → List (NamedRow V)) (gs : List ColumnGroup) (name : String)
    (row : ℤ) : Option V :=
  match gs.find? fun g => name ∈ g.columns with
  | some g => rowAt (visibleRows storage g.files) row name
  | none => none

variable {storage : String → List (NamedRow V)} {gs : List ColumnGroup}

theorem storedCell_of_mem (hdisj : DisjointColumns gs) {g : ColumnGroup} (hg : g ∈ gs)
    {name : String} (hname : name ∈ g.columns) (row : ℤ) :
    storedCell storage gs name row = rowAt (visibleRows storage g.files) row name := by
  unfold storedCell
  cases hfind : gs.find? fun g => name ∈ g.columns with
  | none => exact absurd hname (by simpa using find?_eq_none.mp hfind g hg)
  | some g' =>
    have hname' : name ∈ g'.columns := by simpa using find?_some hfind
    rw [hdisj.eq (mem_of_find?_eq_some hfind) hg hname' hname]

theorem storedCell_of_not_stored {name : String} (h : ¬ Stored gs name) (row : ℤ) :
    storedCell storage gs name row = none := by
  have hfind : gs.find? (fun g => name ∈ g.columns) = none := by
    rw [find?_eq_none]
    intro g hg hname
    exact h ⟨g, hg, of_decide_eq_true hname⟩
  rw [storedCell, hfind]

/-- The files of the groups are answered: a take returns the requested rows, a scan finds row
groups, and both have the columns of the groups. -/
structure Environment.Answers (E : Environment V) (gs : List ColumnGroup) (resolved : List String) :
    Prop where
  serves : ∀ g ∈ gs, Serves E.storage (ReaderImpl.lazyReader E resolved g)
    (E.columnsOf g (resolved.filter fun name => name ∈ g.columns))
  columnsOf_needed : ∀ g ∈ gs, ∀ needed ≠ [], E.columnsOf g needed = needed
  columnsOf_nil : ∀ g ∈ gs, ∀ name ∈ E.columnsOf g [], name ∈ g.columns
  rowGroups : ∀ g ∈ gs, ∀ file ∈ g.files, ∃ reader rgs, E.openForScan g file = .ok reader ∧
    reader.rowGroupInfos = .ok rgs ∧ Contiguous rgs (E.storage file.path).length
  fields : ∀ g ∈ gs, ∀ name ∈ g.columns, name ∈ E.fields g

/-! ## Opening -/

variable {readers : List (Reader.ColumnGroupReader V)}

theorem checkColumnGroups_isOk {count : ℕ} (h : ∀ r ∈ readers, r.chunks ≠ [] ∧ r.totalRows = count)
    (i : ℕ) (endOfOffset : Option ℕ) (hend : ∀ rows ∈ endOfOffset, rows = count) :
    ∃ rows, Reader.checkColumnGroups i endOfOffset readers = .ok rows := by
  induction readers generalizing i endOfOffset with
  | nil => exact ⟨_, rfl⟩
  | cons r readers ih =>
    obtain ⟨⟨hchunks, hrows⟩, hreaders⟩ := forall_mem_cons.mp h
    have hnext : ∀ rows ∈ some r.totalRows, rows = count := fun rows hr =>
      Option.mem_some.mp hr ▸ hrows
    simp only [Reader.checkColumnGroups]
    rw [if_neg (by simpa using hchunks)]
    cases endOfOffset with
    | none => exact ih hreaders (i + 1) _ hnext
    | some expected =>
      have hexp := hend expected rfl
      simp only [hexp, hrows, ne_eq]
      exact ih hreaders (i + 1) _ fun rows hr => (Option.mem_some.mp hr).symm

theorem openReader_isOk {schema : Option (List String)} {neededColumns : List String}
    (hneeded : neededColumns ≠ []) (hreaders : readers ≠ []) {count : ℕ}
    (h : ∀ r ∈ readers, r.chunks ≠ [] ∧ r.totalRows = count)
    (hfields : ∀ name ∈ neededColumns, Reader.checkField schema readers name = .ok ())
    (predicate : Bool) (properties : Reader.Properties) :
    ∃ R, Reader.openReader schema readers neededColumns predicate properties = .ok R := by
  obtain ⟨rows, hrows⟩ := checkColumnGroups_isOk h 0 none (by simp)
  have hforM : neededColumns.forM (Reader.checkField schema readers) = .ok () := by
    clear hneeded
    induction neededColumns with
    | nil => rfl
    | cons name names ih =>
      obtain ⟨hname, hnames⟩ := forall_mem_cons.mp hfields
      show (Reader.checkField schema readers name >>= fun _ => names.forM _) = _
      rw [hname, ok_bind, ih hnames]
  rw [Reader.openReader, if_neg (by simp [hneeded, hreaders]), hrows]
  rw [hforM]
  exact ⟨_, rfl⟩

/-! ## The rows of a group -/

section Group

variable {E : Environment V} {gs : List ColumnGroup} {resolved : List String}
  (hE : E.Answers gs resolved) {g : ColumnGroup} (hg : g ∈ gs)

include hE hg

theorem Environment.Answers.visible : ∀ file ∈ g.files, Visible E.storage file :=
  (hE.serves g hg).visible

theorem Environment.Answers.open_isOk : ∃ r, Format.open (E.source g) = .ok r := by
  apply Format.open_isOk
  intro file hfile
  obtain ⟨hstart, hlt, -⟩ := hE.visible hg file hfile
  obtain ⟨reader, rgs, hopen, hrgs, -⟩ := hE.rowGroups g hg file hfile
  exact ⟨⟨hstart, hlt⟩, reader, rgs, hopen, hrgs⟩

variable {r : ColumnGroupReader (NamedRow V)}

theorem Environment.Answers.layouts (h : IsOpen r) (hsource : r.source = E.source g) :
    Layouts r := by
  intro i file reader hfile hreader
  have hopen := h.canOpen hfile hreader
  rw [hsource] at hfile hopen
  have hmem : file ∈ g.files := mem_of_getElem? hfile
  obtain ⟨reader', rgs, hopen', hrgs, hcontig⟩ := hE.rowGroups g hg file hmem
  have hsame : E.openForScan g file = .ok reader := by
    obtain hopen | hopen := hopen
    · exact hopen
    · exact ok.inj hopen
  cases hopen'.symm.trans hsame
  exact ⟨rgs, _, hrgs, hcontig, (hE.visible hg file hmem).2.2⟩

/-- **The rows that the scan reads of a group** are its visible rows. -/
theorem Environment.Answers.rows_answers (hopen : Format.open (E.source g) = .ok r)
    (fields : List String) : ((r.answers E.storage fields).totalRows : ℤ) = totalRows g.files ∧
      ∀ name, (r.answers E.storage fields).cells name =
        (visibleRows E.storage g.files).map fun row => row name := by
  obtain ⟨h, hsource⟩ := isOpen_of_open hopen
  have hrows : r.chunkInfos.zipIdx.flatMap
      (fun ck => chunkRows (r.content E.storage) ck.1) = visibleRows E.storage g.files := by
    have hvisible := h.flatMap_chunkRows E.storage (hE.layouts hg h hsource)
    rw [hsource] at hvisible
    conv_lhs at hvisible => rw [← zipIdx_map_fst 0 r.chunkInfos, flatMap_map]
    exact hvisible
  constructor
  · rw [← length_visibleRows (hE.visible hg), ← hrows, length_flatMap]
    simp only [Reader.ColumnGroupReader.totalRows, ColumnGroupReader.answers, map_map]
    rfl
  · intro name
    rw [← hrows, map_flatMap]
    simp only [Reader.ColumnGroupReader.cells, ColumnGroupReader.answers, flatMap_map]
    rfl

end Group

/-! ## The scan -/

section Scan

variable {E : Environment V} {R : ReaderImpl} {gs : List ColumnGroup} {resolved : List String}

/-- What the readers of the groups answer to the scan. -/
def scanned (E : Environment V) (readers : List (ColumnGroupReader (NamedRow V))) :
    List (Reader.ColumnGroupReader V) :=
  readers.map fun r => r.answers E.storage (E.fields r.source.columnGroup)

section

variable {groups : List ColumnGroup} {readers : List (ColumnGroupReader (NamedRow V))}
  (h : Forall₂ (fun g r => Format.open (E.source g) = .ok r) groups readers)
include h

theorem columns_scanned :
    (scanned E readers).map Reader.ColumnGroupReader.columns = groups.map ColumnGroup.columns := by
  induction h with
  | nil => rfl
  | cons hopen _ ih =>
    rw [scanned, map_cons, map_cons, ← scanned, ih, ColumnGroupReader.answers,
      (isOpen_of_open hopen).2]
    rfl

theorem mem_scanned {a : Reader.ColumnGroupReader V} : a ∈ scanned E readers ↔
      ∃ g ∈ groups, ∃ r, Format.open (E.source g) = .ok r ∧
        a = r.answers E.storage (E.fields g) := by
  induction h with
  | nil => simp [scanned]
  | @cons g r _ _ hopen _ ih =>
    have hsource : r.source.columnGroup = g := by
      rw [(isOpen_of_open hopen).2]
      rfl
    rw [scanned, map_cons, mem_cons, ← scanned, ih, hsource]
    simp [hopen]

end

/-- **The scan.** -/
theorem exists_scan (heap : RowOffsetMinHeap) (hcgs : R.cgs = gs.map some)
    (hdisj : DisjointColumns gs) (htotal : ∀ g ∈ gs, totalRows g.files = total gs)
    (hres : R.resolveNeededColumns R.neededColumns = .ok resolved)
    (hE : E.Answers gs resolved) (hstored : R.schema = none → ∀ name ∈ resolved, Stored gs name)
    (hlimit : 1 ≤ R.properties.recordBatchMaxRows ∧ R.properties.recordBatchMaxRows < 2 ^ 63)
    (hneeded : resolved ≠ []) (hpos : 0 < total gs) :
    ∃ scan bs, R.getRecordBatchReader E = .ok scan ∧ scan.Drains heap bs ∧
      ∀ (j : ℕ) name, resolved[j]? = some name → ∀ row, 0 ≤ row → row < total gs →
        (cells bs j)[row.toNat]? = some (storedCell E.storage gs name row) := by
  have hgs : gs ≠ [] := by
    rintro rfl
    exact absurd hpos (lt_irrefl 0)
  obtain ⟨groups, hgroups, hreq⟩ := requiredColumnGroups_ok hcgs hdisj resolved
  obtain ⟨readers, hreaders⟩ := exists_mapM_ok
    fun g hg => hE.open_isOk (hreq.mem g hg)
  have hforall := forall₂_of_mapM_ok hreaders
  -- the reader of a group
  have hreader : ∀ g ∈ groups, ∃ a ∈ scanned E readers, a.columns = g.columns ∧
      a.fields = E.fields g ∧ ∀ name, a.cells name =
        (visibleRows E.storage g.files).map fun row => row name := by
    intro g hg
    obtain ⟨r, hopen⟩ := hE.open_isOk (hreq.mem g hg)
    refine ⟨_, (mem_scanned hforall).mpr ⟨g, hg, r, hopen, rfl⟩, ?_, rfl,
      (hE.rows_answers (hreq.mem g hg) hopen _).2⟩
    rw [ColumnGroupReader.answers, (isOpen_of_open hopen).2]
    rfl
  have hrows : ∀ a ∈ scanned E readers, a.chunks ≠ [] ∧ a.totalRows = (total gs).toNat := by
    intro a ha
    obtain ⟨g, hg, r, hopen, rfl⟩ := (mem_scanned hforall).mp ha
    have hcount := (hE.rows_answers (hreq.mem g hg) hopen (E.fields g)).1
    rw [htotal g (hreq.mem g hg)] at hcount
    refine ⟨fun hnil => ?_, by omega⟩
    rw [Reader.ColumnGroupReader.totalRows, hnil] at hcount
    simp at hcount
    omega
  have hfields : ∀ name ∈ resolved,
      Reader.checkField (R.schema.map fun _ => resolved) (scanned E readers) name = .ok () := by
    intro name hname
    cases hschema : R.schema with
    | some schema => exact if_pos hname
    | none =>
      obtain ⟨g, hg, hcol⟩ := hstored hschema name hname
      obtain ⟨a, ha, -, hafields, -⟩ := hreader g (hreq.stored name hname g hg hcol)
      exact if_pos (mem_flatMap.mpr ⟨a, ha, hafields ▸ hE.fields g hg name hcol⟩)
  have hne : scanned E readers ≠ [] := by
    obtain ⟨g, hg⟩ := exists_mem_of_ne_nil _ (hreq.ne_nil hgs)
    obtain ⟨a, ha, -⟩ := hreader g hg
    exact ne_nil_of_mem ha
  obtain ⟨reader, hopen⟩ := openReader_isOk hneeded hne hrows hfields false R.properties
  have hpairwise : (scanned E readers).Pairwise fun r r' => List.Disjoint r.columns r'.columns := by
    have hcols : (groups.map ColumnGroup.columns).Pairwise List.Disjoint :=
      pairwise_map.mpr hreq.disjoint
    rw [← columns_scanned hforall] at hcols
    exact pairwise_map.mp hcols
  obtain ⟨bs, hdrains, hcount, -, hcells⟩ := Reader.readNext_zip heap hopen hlimit hpairwise
  refine ⟨.packed reader, bs, ?_, hdrains, fun j name hj row hnn hlt => ?_⟩
  · rw [ReaderImpl.getRecordBatchReader, if_neg (by simpa [hcgs] using hgs), hres,
      ok_bind, hgroups, ok_bind, if_neg hneeded, hreaders, ok_bind]
    show (Reader.openReader _ (scanned E readers) _ _ _ >>= _) = _
    simp [hopen]
  · have hname := mem_of_getElem? hj
    by_cases hstore : Stored gs name
    · obtain ⟨g, hg, hcol⟩ := hstore
      obtain ⟨a, ha, hacolumns, -, hacells⟩ := hreader g (hreq.stored name hname g hg hcol)
      have hlen := length_visibleRows (hE.visible hg)
      rw [htotal g hg] at hlen
      have hrow : row.toNat < (visibleRows E.storage g.files).length := by omega
      rw [(hcells j name hj).1 a ha (hacolumns ▸ hcol), hacells, getElem?_map,
        getElem?_eq_getElem hrow, Option.map_some, storedCell_of_mem hdisj hg hcol,
        rowAt, getD_eq_getElem?_getD, getElem?_eq_getElem hrow, Option.getD_some]
    · have hnot : ∀ a ∈ scanned E readers, name ∉ a.columns := by
        intro a ha hcol
        have hmem : a.columns ∈ groups.map ColumnGroup.columns :=
          columns_scanned hforall ▸ mem_map_of_mem ha
        obtain ⟨g, hg, heq⟩ := mem_map.mp hmem
        exact hstore ⟨g, hreq.mem g hg, heq ▸ hcol⟩
      obtain ⟨a, ha⟩ := exists_mem_of_ne_nil _ hne
      have hbs : rows bs = (total gs).toNat := (hcount a ha).trans (hrows a ha).2
      rw [(hcells j name hj).2 hnot, storedCell_of_not_stored hstore,
        getElem?_replicate, if_pos (by omega)]

end Scan

end MilvusStorage.Take
