import MilvusStorage.Take.ReaderImpl

/-!
# The file of a row

The visible rows of the files, one after the other, are the rows of a column group.
`getIndexAndOffsetOfFile` finds for each of them its file and its place in it
(`getIndexAndOffsetOfFile_ok`), in the order of the rows (`Located.le`, `Located.lt`).
-/

namespace MilvusStorage.Take

open List Format

variable {V : Type}

/-- The visible rows of a file exist, and there are some. -/
def Visible (storage : String → List (NamedRow V)) (file : ColumnGroupFile) : Prop :=
  0 ≤ file.startIndex ∧ file.startIndex < file.endIndex ∧ file.endIndex ≤ (storage file.path).length

/-- The number of visible rows of some files. -/
def totalRows (files : List ColumnGroupFile) : ℤ :=
  (files.map fun file => file.endIndex - file.startIndex).sum

/-- The visible rows of some files. -/
def visibleRows (storage : String → List (NamedRow V)) (files : List ColumnGroupFile) :
    List (NamedRow V) :=
  files.flatMap fun file => slice (storage file.path) file.startIndex.toNat file.endIndex.toNat

variable {storage : String → List (NamedRow V)} {files : List ColumnGroupFile} {row : ℤ}

theorem totalRows_nonneg (h : ∀ file ∈ files, Visible storage file) : 0 ≤ totalRows files := by
  apply sum_nonneg
  rw [forall_mem_map]
  intro file hfile
  have := (h file hfile).2.1
  omega

theorem length_slice_visible {file : ColumnGroupFile} (h : Visible storage file) :
    ((slice (storage file.path) file.startIndex.toNat file.endIndex.toNat).length : ℤ) =
      file.endIndex - file.startIndex := by
  obtain ⟨hstart, hlt, hend⟩ := h
  rw [length_slice (by omega)]
  omega

theorem length_visibleRows (h : ∀ file ∈ files, Visible storage file) :
    ((visibleRows storage files).length : ℤ) = totalRows files := by
  induction files with
  | nil => rfl
  | cons file files ih =>
    obtain ⟨hfile, hfiles⟩ := forall_mem_cons.mp h
    have := length_slice_visible hfile
    have := ih hfiles
    simp only [visibleRows, totalRows, flatMap_cons, length_append, map_cons, sum_cons] at *
    omega

/-- The row is at a place of the `i`-th file. -/
structure Located (files : List ColumnGroupFile) (row : ℤ) (i : ℕ) (offset : ℤ) : Prop where
  exists_file : ∃ file, files[i]? = some file ∧ file.startIndex ≤ offset ∧
    offset < file.endIndex ∧ row = totalRows (files.take i) + (offset - file.startIndex)

variable {i : ℕ} {offset : ℤ}

theorem Located.lt_length (h : Located files row i offset) : i < files.length := by
  obtain ⟨file, hfile, -⟩ := h.exists_file
  exact lt_of_getElem? hfile

section

variable (h : ∀ file ∈ files, Visible storage file)
include h

/-- The rows of a file that is found come after those of the files before. -/
theorem fileOfRow_ok (globalRow : ℤ) (i : ℕ) {remain : ℤ} (hremain : 0 ≤ remain)
    (hlt : remain < totalRows files) :
    ∃ j offset, fileOfRow globalRow i remain files = .ok (i + j, offset) ∧
      Located files remain j offset := by
  induction files generalizing i remain with
  | nil => exact absurd hlt (by simpa [totalRows] using hremain)
  | cons file files ih =>
    obtain ⟨⟨hstart, hend, -⟩, hfiles⟩ := forall_mem_cons.mp h
    simp only [fileOfRow]
    rw [if_neg (by omega)]
    split_ifs with hhere
    · refine ⟨0, _, rfl, ⟨file, rfl, by omega, by omega, ?_⟩⟩
      simp [totalRows]
    · have hrest : remain - (file.endIndex - file.startIndex) < totalRows files := by
        simp only [totalRows, map_cons, sum_cons] at hlt ⊢
        omega
      obtain ⟨j, offset, hok, ⟨file', hfile', hle, hlt', hrow⟩⟩ :=
        ih hfiles (i + 1) (by omega) hrest
      refine ⟨j + 1, offset, by rw [hok, add_assoc, add_comm 1], ⟨file', hfile', hle, hlt', ?_⟩⟩
      simp only [totalRows, take_succ_cons, map_cons, sum_cons] at hrow ⊢
      omega

theorem fileOfRow_error (globalRow : ℤ) (i : ℕ) {remain : ℤ} (hle : totalRows files ≤ remain) :
    ∃ e, fileOfRow globalRow i remain files = .error e := by
  induction files generalizing i remain with
  | nil => exact ⟨_, rfl⟩
  | cons file files ih =>
    obtain ⟨⟨hstart, hend, -⟩, hfiles⟩ := forall_mem_cons.mp h
    have hrest := totalRows_nonneg hfiles
    simp only [totalRows, map_cons, sum_cons] at hle hrest
    simp only [fileOfRow]
    rw [if_neg (by omega), if_neg (by omega)]
    exact ih hfiles (i + 1) (by simp only [totalRows]; omega)

/-- **Every visible row is found.** -/
theorem getIndexAndOffsetOfFile_ok (hrow : 0 ≤ row) (hlt : row < totalRows files) :
    ∃ i offset, getIndexAndOffsetOfFile files row = .ok (i, offset) ∧
      Located files row i offset := by
  obtain ⟨i, offset, hok, hloc⟩ := fileOfRow_ok h row 0 hrow hlt
  exact ⟨i, offset, by rw [getIndexAndOffsetOfFile, hok, zero_add], hloc⟩

end

/-! ## The order of the rows -/

theorem totalRows_take_le (h : ∀ file ∈ files, Visible storage file) {j : ℕ} (hij : i ≤ j) :
    totalRows (files.take i) ≤ totalRows (files.take j) := by
  have hsplit : files.take j = files.take i ++ (files.take j).drop i := by
    conv_lhs => rw [← take_append_drop i (files.take j), take_take, min_eq_left hij]
  have hnn : 0 ≤ totalRows ((files.take j).drop i) :=
    totalRows_nonneg fun file hfile => h file (mem_of_mem_take (mem_of_mem_drop hfile))
  rw [hsplit]
  simp only [totalRows, map_append, sum_append] at hnn ⊢
  omega

theorem Located.lt_totalRows_take (h : Located files row i offset) :
    totalRows (files.take i) ≤ row ∧ row < totalRows (files.take (i + 1)) := by
  obtain ⟨file, hfile, hle, hlt, hrow⟩ := h.exists_file
  have hsucc : totalRows (files.take (i + 1)) =
      totalRows (files.take i) + (file.endIndex - file.startIndex) := by
    rw [take_add_one, hfile, totalRows, totalRows]
    simp
  omega

section Order

variable (h : ∀ file ∈ files, Visible storage file) {row' : ℤ} {i i' : ℕ} {offset offset' : ℤ}
  (hloc : Located files row i offset) (hloc' : Located files row' i' offset')

include h hloc hloc'

theorem Located.le (hlt : row < row') : i ≤ i' := by
  by_contra hle
  have := totalRows_take_le h (Nat.succ_le_of_lt (not_le.mp hle))
  have := hloc.lt_totalRows_take
  have := hloc'.lt_totalRows_take
  rw [Nat.succ_eq_add_one] at *
  omega

omit h in
theorem Located.lt (hlt : row < row') (hsame : i = i') : offset < offset' := by
  subst hsame
  obtain ⟨file, hfile, -, -, hrow⟩ := hloc.exists_file
  obtain ⟨file', hfile', -, -, hrow'⟩ := hloc'.exists_file
  cases hfile.symm.trans hfile'
  omega

end Order

/-! ## The contents of the rows -/

/-- A row at an index, which is null if there is none. -/
def rowAt (rows : List (NamedRow V)) (i : ℤ) : NamedRow V := rows.getD i.toNat fun _ => none

/-- A visible row is the row of its file. -/
theorem Located.rowAt_eq (h : ∀ file ∈ files, Visible storage file)
    (hloc : Located files row i offset) {file : ColumnGroupFile} (hfile : files[i]? = some file) :
    rowAt (visibleRows storage files) row = rowAt (storage file.path) offset := by
  obtain ⟨file', hfile', hle, hlt, rfl⟩ := hloc.exists_file
  cases hfile.symm.trans hfile'
  clear hloc hfile'
  induction files generalizing i with
  | nil => cases hfile
  | cons first files ih =>
    obtain ⟨hfirst, hfiles⟩ := forall_mem_cons.mp h
    have hlen := length_slice_visible hfirst
    cases i with
    | zero =>
      obtain rfl := Option.some.inj hfile
      have hidx : (totalRows (take 0 (first :: files)) + (offset - first.startIndex)).toNat =
          offset.toNat - first.startIndex.toNat := by
        simp only [take_zero, totalRows, map_nil, sum_nil]
        have := hfirst.1
        omega
      obtain ⟨hstart, -, -⟩ := hfirst
      rw [rowAt, rowAt, hidx, visibleRows, flatMap_cons, getD_eq_getElem?_getD,
        getD_eq_getElem?_getD, getElem?_append_left (by omega), slice,
        getElem?_drop, getElem?_take_of_lt (by omega)]
      congr 2
      omega
    | succ i =>
      have hnn : 0 ≤ totalRows (files.take i) :=
        totalRows_nonneg fun file hfile => hfiles file (mem_of_mem_take hfile)
      have hsum : totalRows ((first :: files).take (i + 1)) =
          (first.endIndex - first.startIndex) + totalRows (files.take i) := by
        simp only [totalRows, take_succ_cons, map_cons, sum_cons]
      rw [← ih hfiles hfile, rowAt, rowAt, hsum]
      simp only [visibleRows, flatMap_cons, getD_eq_getElem?_getD]
      rw [getElem?_append_right (by omega)]
      congr 2
      omega

end MilvusStorage.Take
