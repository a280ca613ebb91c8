import MilvusStorage.Vortex.RangeFile

/-!
# Loading the footer

`LoadFooter` reads a tail of the file and tries to open it. If the tail is too short, it is extended
until the file can be opened or has been read as a whole. A cached footer size says where to start.
-/

namespace MilvusStorage.Vortex

open List Command SparseFile

variable {β : Type}

/-- What `VortexFile` says of a file that has been opened. -/
structure OpenedFooter where
  footerByteRange : ByteRange
  rowCount : ℕ

/-- The file whose footer is loaded. -/
structure FooterFile (β : Type) where
  path : String
  source : List β
  eofSize : ℕ
  openUnique : SparseFile β → ℕ → Except Fault OpenedFooter
  /-- `MakeVortexErrorStatus`, which puts a context before an error. -/
  makeVortexErrorStatus : String → Fault → Fault

/-- The range file, with the ranges that have been read and, for each attempt to open it, the footer
size, the size of the tail and the range file at this time. -/
structure FooterLoad (β : Type) where
  file : SparseFile β
  loadedTailReadSize : ℕ := 0
  reads : List ByteRange := []
  attempts : List (ℕ × ℕ × SparseFile β) := []

def kDefaultFooterReadSize : ℕ := 2 * 1024 * 1024

namespace FooterFile

variable (F : FooterFile β)

def fileSize : ℕ := F.source.length

def resolveInitialFooterBodySize (footerSize : ℕ) : Except Fault ℕ :=
  let fileSize := F.fileSize
  let eofSize := F.eofSize
  if fileSize = 0 then .ok 0
  else if footerSize ≠ 0 then
    if fileSize < eofSize ∨ fileSize - eofSize < footerSize then
      invalid (s!"Vortex footer body size exceeds file size, file_size={fileSize}, " ++
        s!"footer_size={footerSize}, eof_size={eofSize}")
    else .ok footerSize
  else .ok (min fileSize kDefaultFooterReadSize - eofSize)

def resolveTailReadSize (footerBodySize : ℕ) : ℕ :=
  if u64Max - F.eofSize < footerBodySize then F.fileSize
  else min F.fileSize (footerBodySize + F.eofSize)

/-- Extend the tail. -/
def readTail (tailReadSize : ℕ) : Command (FooterLoad β) Fault Unit := fun s =>
  if s.loadedTailReadSize < tailReadSize then
    let r : ByteRange := ⟨F.fileSize - tailReadSize, tailReadSize - s.loadedTailReadSize⟩
    match fillVortexRangeFile F.source {} r.offset r.length s.file with
    | (file, .error e) => ({ s with file, reads := s.reads ++ [r] }, .error e)
    | (file, .ok ()) => ({ s with
        file, reads := s.reads ++ [r], loadedTailReadSize := tailReadSize }, .ok ())
  else (s, .ok ())

def openSparse (footerBodySize : ℕ) (s : FooterLoad β) : FooterLoad β × Except Fault OpenedFooter :=
  ({ s with attempts := s.attempts ++
      [(footerBodySize, F.resolveTailReadSize footerBodySize, s.file)] },
    F.openUnique s.file footerBodySize)

/-- The footer size and the number of rows. -/
def finishOpenedFooter (v : OpenedFooter) : Except Fault (ℕ × ℕ) :=
  let path := F.path
  let r := v.footerByteRange
  if F.fileSize < r.offset ∨ F.fileSize - r.offset < r.length then
    invalid s!"Invalid vortex footer byte range for {path}"
  else .ok (r.length - F.eofSize, v.rowCount)

def maxFooterBodySize : ℕ :=
  if F.eofSize < F.fileSize then F.fileSize - F.eofSize else F.fileSize

/-- The next footer size to try. -/
def nextFooterBodySize (footerBodySize : ℕ) : ℕ :=
  let doubled := if F.maxFooterBodySize / 2 < footerBodySize then F.maxFooterBodySize
    else footerBodySize * 2
  let incremented := if footerBodySize = F.maxFooterBodySize then F.maxFooterBodySize
    else footerBodySize + 1
  min F.maxFooterBodySize (max doubled incremented)

/-- The loop of `LoadFooter`. -/
def expand : ℕ → ℕ → FooterLoad β → Option (FooterLoad β × Except Fault (ℕ × ℕ))
  | 0, _, _ => none
  | fuel + 1, footerBodySize, s =>
    let path := F.path
    let maxFooterBodySize := F.maxFooterBodySize
    if maxFooterBodySize < footerBodySize then
      some (s, invalid (s!"Vortex initial footer body size exceeds file size, path={path}, " ++
        s!"footer_body_size={footerBodySize}, max_footer_body_size={maxFooterBodySize}"))
    else match F.readTail (F.resolveTailReadSize footerBodySize) s with
      | (s, .error e) => some (s, .error e)
      | (s, .ok ()) => match F.openSparse footerBodySize s with
        | (s, .ok v) => some (s, F.finishOpenedFooter v)
        | (s, .error e) =>
          if footerBodySize = maxFooterBodySize then
            some (s, .error (F.makeVortexErrorStatus s!"Failed to open vortex file {path}" e))
          else expand fuel (F.nextFooterBodySize footerBodySize) s

/-- The first attempt, with a cached footer size: the size to go on with, or what was loaded. -/
def openCached (footerSize : ℕ) (s : FooterLoad β) : FooterLoad β × Except Fault (ℕ ⊕ ℕ × ℕ) :=
  match F.resolveInitialFooterBodySize footerSize with
  | .error e => (s, .error e)
  | .ok footerBodySize => match F.readTail (F.resolveTailReadSize footerBodySize) s with
    | (s, .error e) => (s, .error e)
    | (s, .ok ()) => match F.openSparse footerBodySize s with
      | (s, .error _) => (s, do
          let retryFooterBodySize ← F.resolveInitialFooterBodySize 0
          return .inl (max retryFooterBodySize footerBodySize))
      | (s, .ok v) => (s, do
          let (footerSize, rows) ← F.finishOpenedFooter v
          return if footerSize ≤ footerBodySize then .inr (footerSize, rows) else .inl footerSize)

/-- `footerSize` is the cached size, or 0. -/
def loadFooter (fuel footerSize : ℕ) (file : SparseFile β) :
    Option (FooterLoad β × Except Fault (ℕ × ℕ)) :=
  if footerSize ≠ 0 then
    match F.openCached footerSize { file } with
    | (s, .error e) => some (s, .error e)
    | (s, .ok (.inr r)) => some (s, .ok r)
    | (s, .ok (.inl footerBodySize)) => F.expand fuel footerBodySize s
  else match F.resolveInitialFooterBodySize footerSize with
    | .error e => some ({ file }, .error e)
    | .ok footerBodySize => F.expand fuel footerBodySize { file }

theorem maxFooterBodySize_le : F.maxFooterBodySize ≤ F.fileSize := by
  unfold maxFooterBodySize
  split_ifs <;> omega

theorem le_maxFooterBodySize {n : ℕ} (h : n + F.eofSize ≤ F.fileSize) :
    n ≤ F.maxFooterBodySize := by
  unfold maxFooterBodySize
  split_ifs <;> omega

theorem resolve_zero : ∃ n ≤ F.maxFooterBodySize, F.resolveInitialFooterBodySize 0 = .ok n := by
  unfold resolveInitialFooterBodySize
  by_cases hzero : F.fileSize = 0
  · exact ⟨0, Nat.zero_le _, if_pos hzero⟩
  · refine ⟨min F.fileSize kDefaultFooterReadSize - F.eofSize, ?_, by simp [hzero]⟩
    unfold maxFooterBodySize
    split_ifs <;> omega

end FooterFile

/-! ## What an attempt sees -/

/-- The last `n` bytes are in the range file. -/
def FooterFile.HoldsTail (F : FooterFile β) (f : SparseFile β) (n : ℕ) : Prop :=
  SparseFile.Holds F.source f (InRange (F.fileSize - n) n)

theorem FooterFile.HoldsTail.mono {F : FooterFile β} {f : SparseFile β} {m n : ℕ}
    (h : F.HoldsTail f n) (hmn : m ≤ n) (hn : n ≤ F.fileSize) : F.HoldsTail f m :=
  SparseFile.Holds.mono h fun i hi => by
    unfold InRange at *
    omega

/-- The file has a footer of `size` bytes and `rows` rows, and can be opened exactly if it is in the
range file, with the end marker. -/
structure FooterFile.HasFooter (F : FooterFile β) (size rows : ℕ) : Prop where
  size_le : F.fileSize ≤ int64Max
  eof_le : F.eofSize ≤ int64Max
  opens_iff : ∀ f n, (∃ v, F.openUnique f n = .ok v) ↔
    size + F.eofSize ≤ F.fileSize ∧ F.HoldsTail f (size + F.eofSize)
  opened : ∀ f n v, F.openUnique f n = .ok v →
    v = ⟨⟨F.fileSize - (size + F.eofSize), size + F.eofSize⟩, rows⟩

/-- The tail that is loaded has no holes, and no byte of it was read twice. -/
structure FooterLoad.Inv (F : FooterFile β) (s : FooterLoad β) : Prop where
  loaded_le : s.loadedTailReadSize ≤ F.fileSize
  holds : F.HoldsTail s.file s.loadedTailReadSize
  read : ∀ r ∈ s.reads, F.fileSize - s.loadedTailReadSize ≤ r.offset
  apart : s.reads.Pairwise fun r r' => r'.offset + r'.length ≤ r.offset
  attempts : ∀ a ∈ s.attempts, F.HoldsTail a.2.2 a.2.1

theorem FooterLoad.inv_start {F : FooterFile β} (file : SparseFile β) :
    FooterLoad.Inv F { file } := by
  refine ⟨Nat.zero_le _, fun i hi => ?_, by simp, .nil, by simp⟩
  dsimp only [InRange] at hi
  omega

/-- What loading returns: the footer, if there is one in the file. -/
def FooterFile.Loads (F : FooterFile β) (size rows : ℕ) (r : Except Fault (ℕ × ℕ)) : Prop :=
  (size + F.eofSize ≤ F.fileSize ∧ r = .ok (size, rows)) ∨
    (F.fileSize < size + F.eofSize ∧ ∃ e, r = .error e)

namespace FooterFile.HasFooter

variable {F : FooterFile β} {size rows footerBodySize fuel : ℕ} {s : FooterLoad β}
  (h : F.HasFooter size rows)

include h

theorem tail_eq (hle : footerBodySize ≤ F.fileSize) :
    F.resolveTailReadSize footerBodySize = min F.fileSize (footerBodySize + F.eofSize) := by
  have := h.size_le
  have := h.eof_le
  apply if_neg
  unfold u64Max
  unfold int64Max at *
  omega

/-- All of the file is read in the end. -/
theorem tail_max : F.resolveTailReadSize F.maxFooterBodySize = F.fileSize := by
  rw [h.tail_eq F.maxFooterBodySize_le]
  unfold maxFooterBodySize
  split_ifs <;> omega

theorem readTail_ok (hs : s.Inv F) {tail : ℕ} (hle : tail ≤ F.fileSize) :
    ∃ s', F.readTail tail s = (s', .ok ()) ∧ s'.Inv F ∧ s'.attempts = s.attempts ∧
      s'.loadedTailReadSize = max s.loadedTailReadSize tail := by
  unfold readTail
  by_cases hlt : s.loadedTailReadSize < tail
  · have hfits : F.fileSize - tail + (tail - s.loadedTailReadSize) ≤ F.fileSize := by omega
    obtain ⟨e, he⟩ | ⟨hrun, hbound⟩ := fillVortexRangeFile_cases F.source {} (F.fileSize - tail)
      (tail - s.loadedTailReadSize) s.file
    · exact nomatch (congrArg Prod.snd he).symm.trans (fillVortexRangeFile_ok hfits h.size_le)
    · simp only [if_pos hlt, hrun]
      refine ⟨_, rfl, ⟨hle, ?_, ?_, ?_, hs.attempts⟩, rfl, (max_eq_right hlt.le).symm⟩
      · intro i hi
        dsimp only [InRange] at hi
        by_cases hnew : InRange (F.fileSize - tail) (tail - s.loadedTailReadSize) i
        · exact holds_copy hbound i hnew
        · apply SparseFile.Holds.copy hs.holds _ _ i
          unfold InRange at hnew ⊢
          omega
      · intro r hr
        obtain hr | hr := mem_append.mp hr
        · exact (Nat.sub_le_sub_left hlt.le _).trans (hs.read r hr)
        · rw [mem_singleton.mp hr]
      · refine pairwise_append.mpr ⟨hs.apart, pairwise_singleton _ _, fun r hr r' hr' => ?_⟩
        obtain rfl := mem_singleton.mp hr'
        have := hs.read r hr
        dsimp only
        omega
  · rw [if_neg hlt]
    exact ⟨s, rfl, hs, rfl, by omega⟩

omit h in
theorem openSparse_inv (hs : s.Inv F)
    (hle : F.resolveTailReadSize footerBodySize ≤ s.loadedTailReadSize) :
    (F.openSparse footerBodySize s).1.Inv F := by
  refine ⟨hs.loaded_le, hs.holds, hs.read, hs.apart, fun a ha => ?_⟩
  obtain ha | ha := mem_append.mp ha
  · exact hs.attempts a ha
  · rw [mem_singleton.mp ha]
    exact hs.holds.mono hle hs.loaded_le

/-- A file that is opened has the footer. -/
theorem finish_ok {f : SparseFile β} {v : OpenedFooter}
    (hopen : F.openUnique f footerBodySize = .ok v) :
    size + F.eofSize ≤ F.fileSize ∧ F.finishOpenedFooter v = .ok (size, rows) := by
  obtain ⟨hle, -⟩ := (h.opens_iff f footerBodySize).mp ⟨v, hopen⟩
  obtain rfl := h.opened f footerBodySize v hopen
  refine ⟨hle, ?_⟩
  unfold finishOpenedFooter
  rw [if_neg (by dsimp only; omega), Nat.add_sub_cancel]

/-- A file that is present as a whole can only fail to open if it has no footer. -/
theorem lt_of_error {e : Fault} (hs : s.Inv F) (hloaded : F.fileSize ≤ s.loadedTailReadSize)
    (hopen : F.openUnique s.file footerBodySize = .error e) :
    F.fileSize < size + F.eofSize := by
  by_contra hle
  have hle := not_lt.mp hle
  obtain ⟨v, hv⟩ := (h.opens_iff s.file footerBodySize).mpr
    ⟨hle, hs.holds.mono (hle.trans hloaded) hs.loaded_le⟩
  rw [hopen] at hv
  cases hv

omit h in
/-- The sizes grow, up to the whole file. -/
theorem next_bounds (hle : footerBodySize ≤ F.maxFooterBodySize)
    (hmax : footerBodySize ≠ F.maxFooterBodySize) :
    footerBodySize < F.nextFooterBodySize footerBodySize ∧
      F.nextFooterBodySize footerBodySize ≤ F.maxFooterBodySize := by
  unfold nextFooterBodySize
  dsimp only
  rw [if_neg hmax]
  omega

/-- **The loop** ends, tries larger and larger sizes, and finds the footer. -/
theorem expand_ok (hs : s.Inv F) (hle : footerBodySize ≤ F.maxFooterBodySize)
    (hfuel : F.maxFooterBodySize - footerBodySize < fuel) :
    ∃ s' r tried, F.expand fuel footerBodySize s = some (s', r) ∧ s'.Inv F ∧ F.Loads size rows r ∧
      s'.attempts = s.attempts ++ tried ∧ (tried.map Prod.fst).Pairwise (· < ·) ∧
        ∀ a ∈ tried, footerBodySize ≤ a.1 := by
  induction fuel generalizing footerBodySize s with
  | zero => exact absurd hfuel (Nat.not_lt_zero _)
  | succ fuel ih =>
    have htail := h.tail_eq (hle.trans F.maxFooterBodySize_le)
    obtain ⟨s1, hread, hs1, hattempts, hloaded⟩ := h.readTail_ok hs
      (show F.resolveTailReadSize footerBodySize ≤ F.fileSize by omega)
    have hs2 := openSparse_inv hs1 (show F.resolveTailReadSize footerBodySize ≤ _ by omega)
    set a := (footerBodySize, F.resolveTailReadSize footerBodySize, s1.file)
    rw [expand]
    simp only [if_neg (not_lt.mpr hle), hread, openSparse]
    cases hopen : F.openUnique s1.file footerBodySize with
    | ok v =>
      obtain ⟨hfits, hfinish⟩ := h.finish_ok hopen
      exact ⟨_, _, [a], rfl, hs2, .inl ⟨hfits, hfinish⟩, by rw [hattempts], by simp, by simp [a]⟩
    | error e =>
      dsimp only
      by_cases hmax : footerBodySize = F.maxFooterBodySize
      · rw [if_pos hmax]
        have htotal : F.fileSize ≤ s1.loadedTailReadSize := by
          rw [hloaded, hmax, h.tail_max]
          exact le_max_right _ _
        exact ⟨_, _, [a], rfl, hs2, .inr ⟨h.lt_of_error hs1 htotal hopen, _, rfl⟩,
          by rw [hattempts], by simp, by simp [a]⟩
      · rw [if_neg hmax]
        have hnext := next_bounds hle hmax
        obtain ⟨s', r, tried, hrun, hs', hr, htried, hsorted, hge⟩ := ih hs2 hnext.2 (by omega)
        refine ⟨s', r, a :: tried, hrun, hs', hr, ?_, ?_, ?_⟩
        · rw [htried, ← hattempts]
          exact append_assoc ..
        · refine pairwise_cons.mpr ⟨fun n hn => ?_, hsorted⟩
          obtain ⟨a', ha', rfl⟩ := mem_map.mp hn
          exact hnext.1.trans_le (hge a' ha')
        · exact forall_mem_cons.mpr ⟨le_rfl, fun a' ha' => hnext.1.le.trans (hge a' ha')⟩

/-- The first attempt with a cached size. -/
theorem openCached_ok {file : SparseFile β} {footerSize : ℕ} (hpos : footerSize ≠ 0)
    (hle : footerSize + F.eofSize ≤ F.fileSize) :
    ∃ s r, F.openCached footerSize { file } = (s, .ok r) ∧ s.Inv F ∧ s.attempts.length = 1 ∧
      match r with
      | .inl n => n ≤ F.maxFooterBodySize
      | .inr v => F.Loads size rows (.ok v) := by
  have hresolve : F.resolveInitialFooterBodySize footerSize = .ok footerSize := by
    unfold resolveInitialFooterBodySize
    simp [hpos, show F.fileSize ≠ 0 by omega, show ¬F.fileSize < F.eofSize by omega,
      show ¬F.fileSize - F.eofSize < footerSize by omega]
  have htail := h.tail_eq (show footerSize ≤ F.fileSize by omega)
  obtain ⟨s, hread, hs, hattempts, hloaded⟩ := h.readTail_ok (FooterLoad.inv_start file)
    (show F.resolveTailReadSize footerSize ≤ F.fileSize by omega)
  have hs' := openSparse_inv hs (show F.resolveTailReadSize footerSize ≤ _ by omega)
  have hlen : (F.openSparse footerSize s).1.attempts.length = 1 := by
    simp [openSparse, hattempts]
  simp only [openCached, hresolve, hread, openSparse] at hs' hlen ⊢
  cases hopen : F.openUnique s.file footerSize with
  | error e =>
    obtain ⟨n, hn, hzero⟩ := F.resolve_zero
    exact ⟨_, .inl (max n footerSize), by rw [hzero]; rfl, hs', hlen,
      Nat.max_le.mpr ⟨hn, F.le_maxFooterBodySize hle⟩⟩
  | ok v =>
    obtain ⟨hfits, hfinish⟩ := h.finish_ok hopen
    simp only [hfinish, Except.ok_bind, Except.pure_eq_ok]
    refine ⟨_, _, rfl, hs', hlen, ?_⟩
    by_cases hsize : size ≤ footerSize
    · rw [if_pos hsize]
      exact .inl ⟨hfits, rfl⟩
    · rw [if_neg hsize]
      exact F.le_maxFooterBodySize hfits

end FooterFile.HasFooter

/-- **What is loaded does not depend on the cached footer size.** Loading ends; no byte is read
twice, no attempt sees a hole in its tail, and the sizes that the loop tries grow. -/
theorem loadFooter_independent {F : FooterFile β} {size rows : ℕ} (h : F.HasFooter size rows)
    {footerSize fuel : ℕ} (hcached : footerSize = 0 ∨ footerSize + F.eofSize ≤ F.fileSize)
    (hfuel : F.fileSize < fuel) (file : SparseFile β) :
    ∃ s r cached tried, F.loadFooter fuel footerSize file = some (s, r) ∧ F.Loads size rows r ∧
      (s.reads.Pairwise fun r r' => r'.offset + r'.length ≤ r.offset) ∧
      s.attempts = cached ++ tried ∧ (cached ≠ [] → footerSize ≠ 0 ∧ cached.length = 1) ∧
      (tried.map Prod.fst).Pairwise (· < ·) ∧
      ∀ a ∈ s.attempts, F.HoldsTail a.2.2 a.2.1 := by
  have hmax : ∀ n, F.maxFooterBodySize - n < fuel := fun n =>
    (Nat.sub_le _ n).trans_lt (F.maxFooterBodySize_le.trans_lt hfuel)
  by_cases hzero : footerSize = 0
  · subst hzero
    obtain ⟨n, hn, hresolve⟩ := F.resolve_zero
    obtain ⟨s, r, tried, hrun, hs, hr, htried, hsorted, -⟩ :=
      h.expand_ok (FooterLoad.inv_start file) hn (hmax n)
    refine ⟨s, r, [], tried, ?_, hr, hs.apart, htried, fun hne => absurd rfl hne, hsorted,
      hs.attempts⟩
    rwa [FooterFile.loadFooter, if_neg (not_not.mpr rfl), hresolve]
  · obtain ⟨s, r, hrun, hs, hlen, hr⟩ := h.openCached_ok hzero (hcached.resolve_left hzero)
    rw [FooterFile.loadFooter, if_pos hzero, hrun]
    cases r with
    | inr v =>
      exact ⟨s, .ok v, s.attempts, [], rfl, hr, hs.apart, (append_nil _).symm,
        fun _ => ⟨hzero, hlen⟩, .nil, hs.attempts⟩
    | inl n =>
      obtain ⟨s', r, tried, hrun, hs', hr, htried, hsorted, -⟩ := h.expand_ok hs hr (hmax n)
      exact ⟨s', r, s.attempts, tried, hrun, hr, hs'.apart, htried, fun _ => ⟨hzero, hlen⟩,
        hsorted, hs'.attempts⟩

/-- A footer of two bytes, with an end marker of one byte. -/
def fourBytes : FooterFile ℕ where
  path := "a.vx"
  source := [0, 1, 2, 3]
  eofSize := 1
  openUnique f _ :=
    if f 1 = some 1 ∧ f 2 = some 2 ∧ f 3 = some 3 then .ok ⟨⟨1, 3⟩, 5⟩ else invalid "no footer"
  makeVortexErrorStatus _ e := e

theorem hasFooter_fourBytes : fourBytes.HasFooter 2 5 := by
  refine ⟨by decide, by decide, fun f n => ?_, fun f n v hv => ?_⟩
  · have hholds : SparseFile.Holds [0, 1, 2, 3] f (InRange 1 3) ↔
        f 1 = some 1 ∧ f 2 = some 2 ∧ f 3 = some 3 := by
      refine ⟨fun h => ⟨(h 1 (by decide)).2, (h 2 (by decide)).2, (h 3 (by decide)).2⟩, ?_⟩
      rintro ⟨h1, h2, h3⟩ i ⟨hle, hlt⟩
      obtain rfl | rfl | rfl : i = 1 ∨ i = 2 ∨ i = 3 := by omega
      · exact ⟨by decide, h1⟩
      · exact ⟨by decide, h2⟩
      · exact ⟨by decide, h3⟩
    refine Iff.trans ?_ (and_iff_right (by decide)).symm
    refine Iff.trans ?_ hholds.symm
    dsimp only [fourBytes]
    split_ifs with hf <;> simp [hf, invalid]
  · dsimp only [fourBytes] at hv
    split_ifs at hv
    · exact (Except.ok.inj hv).symm
    · cases hv

theorem loadFooter_independent_fourBytes :
    ∃ s, fourBytes.loadFooter 5 1 empty = some (s, .ok (2, 5)) := by
  obtain ⟨s, r, -, -, hrun, ⟨-, rfl⟩ | ⟨hlt, -⟩, -⟩ :=
    loadFooter_independent hasFooter_fourBytes
      (.inr (show 1 + fourBytes.eofSize ≤ fourBytes.fileSize by decide))
      (show fourBytes.fileSize < 5 by decide) empty
  · exact ⟨s, hrun⟩
  · exact absurd hlt (by decide)

end MilvusStorage.Vortex
