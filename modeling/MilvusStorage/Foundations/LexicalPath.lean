import Mathlib.Data.List.Basic
import Mathlib.Data.List.DropRight

/-!
# Lexical paths

Paths as strings of characters, with the operations of `std::filesystem::path` that do not look at a
file system: `join` is `operator/` and `normal` is `lexically_normal`. The parts of a path between
its slashes are walked from left to right. A name goes one level down, `..` goes one level up, and
an empty part and `.` stay. Where a walk ends is a `Place`: so many levels up from the start, and
from there down some names.
-/

namespace LexicalPath

open List

/-- The parts of a path between its slashes. -/
def segments (cs : List Char) : List (List Char) := cs.splitOn '/'

theorem segments_ne_nil (cs : List Char) : segments cs ≠ [] := splitOn_ne_nil _ _

theorem segments_append (cs ds : List Char) :
    segments (cs ++ '/' :: ds) = segments cs ++ segments ds :=
  splitOnP_append_cons cs ds rfl

theorem intercalate_segments (cs : List Char) : ['/'].intercalate (segments cs) = cs :=
  intercalate_splitOn '/'

theorem segments_intercalate {ss : List (List Char)} (hss : ∀ s ∈ ss, '/' ∉ s) (hne : ss ≠ []) :
    segments (['/'].intercalate ss) = ss :=
  splitOn_intercalate '/' hss hne

variable {cs ds s : List Char} {root : Bool} {p : Place}

theorem segments_eq_singleton (h : '/' ∉ cs) : segments cs = [cs] := by
  simpa using @segments_intercalate [cs] (by simpa using h) (cons_ne_nil _ _)

/-- What a path and a part without slashes have in common in front of a slash. -/
theorem append_slash_eq {es fs : List Char} (hds : '/' ∉ ds)
    (h : cs ++ '/' :: es = ds ++ '/' :: fs) :
    cs = ds ∨ ∃ gs, cs = ds ++ '/' :: gs ∧ fs = gs ++ '/' :: es := by
  rcases append_eq_append_iff.mp h with ⟨as, has, htail⟩ | ⟨bs, hbs, htail⟩
  · cases as with
    | nil => exact .inl (by simpa using has.symm)
    | cons a as =>
      obtain rfl : '/' = a := (cons.inj htail).1
      simp [has] at hds
  · cases bs with
    | nil => exact .inl (by simpa using hbs)
    | cons b bs =>
      obtain ⟨rfl, hfs⟩ := cons.inj htail
      exact .inr ⟨bs, hbs, hfs⟩

theorem notMem_of_mem_segments : ∀ s ∈ segments cs, '/' ∉ s := by
  induction cs with
  | nil => simp [segments]
  | cons c cs ih =>
    rw [segments, splitOn, splitOnP_cons_eq_if_modifyHead]
    split_ifs with hc
    · rw [forall_mem_cons]
      exact ⟨not_mem_nil, ih⟩
    · change ∀ s ∈ (segments cs).modifyHead _, _
      cases hss : segments cs with
      | nil => exact absurd hss (segments_ne_nil cs)
      | cons s ss =>
        rw [hss, forall_mem_cons] at ih
        rw [modifyHead_cons, forall_mem_cons]
        refine ⟨?_, ih.2⟩
        simp only [mem_cons, not_or]
        exact ⟨fun h => hc (beq_iff_eq.mpr h.symm), ih.1⟩

/-- Whether a path is absolute. -/
def isAbsolute (cs : List Char) : Bool := cs.head? = some '/'

def dot : List Char := ['.']

def dotDot : List Char := ['.', '.']

/-- Where a walk ends: `ups` levels up, then down the names, the last one first. -/
structure Place where
  ups : ℕ
  names : List (List Char)
  deriving DecidableEq, Repr

/-- Walk along one part. There is nothing above the root. -/
def step (root : Bool) (p : Place) (s : List Char) : Place :=
  if s = [] ∨ s = dot then p
  else if s = dotDot then
    match p.names with
    | [] => if root then p else ⟨p.ups + 1, []⟩
    | _ :: names => ⟨p.ups, names⟩
  else ⟨p.ups, s :: p.names⟩

def walk (cs : List Char) : Place := (segments cs).foldl (step (isAbsolute cs)) ⟨0, []⟩

/-- Whether the last part of a path is not a name. -/
def endsAtDirectory (cs : List Char) : Bool :=
  (segments cs).getLast? ∈ [some [], some dot, some dotDot]

/-- The parts of the normal path to a place, without the root. -/
def Place.parts (directory : Bool) (p : Place) : List (List Char) :=
  List.replicate p.ups dotDot ++ p.names.reverse ++ if directory ∧ p.names ≠ [] then [[]] else []

def Place.segments (root directory : Bool) (p : Place) : List (List Char) :=
  if root then if p.parts directory = [] then [[], []] else [] :: p.parts directory
  else if p.parts directory = [] then [dot] else p.parts directory

/-- `lexically_normal`. -/
def normal (cs : List Char) : List Char :=
  if cs = [] then []
  else ['/'].intercalate ((walk cs).segments (isAbsolute cs) (endsAtDirectory cs))

/-- `operator/`. -/
def join (cs ds : List Char) : List Char :=
  if isAbsolute ds ∨ cs = [] then ds
  else if cs.getLast? = some '/' then cs ++ ds
  else cs ++ '/' :: ds

/-- `parent_path`. The root is its own parent. -/
def parent (cs : List Char) : List Char :=
  if cs.all (· = '/') then cs
  else
    let dir := (cs.rdropWhile (· ≠ '/')).rdropWhile (· = '/')
    if dir = [] ∧ isAbsolute cs then ['/'] else dir

example : normal "a//b/../c/.".toList = "a/c/".toList := by decide

/-! ## Places -/

@[simp] theorem step_nil (root : Bool) (p : Place) : step root p [] = p := if_pos (.inl rfl)

@[simp] theorem step_dot (root : Bool) (p : Place) : step root p dot = p := if_pos (.inr rfl)

theorem step_name (hnil : s ≠ []) (hdot : s ≠ dot) (hdotDot : s ≠ dotDot) (root : Bool)
    (p : Place) : step root p s = ⟨p.ups, s :: p.names⟩ := by
  simp [step, hnil, hdot, hdotDot]

theorem step_dotDot_nil (root : Bool) (ups : ℕ) :
    step root ⟨ups, []⟩ dotDot = ⟨if root then ups else ups + 1, []⟩ := by
  cases root <;> rfl

theorem step_dotDot_cons (root : Bool) (ups : ℕ) (name : List Char) (names : List (List Char)) :
    step root ⟨ups, name :: names⟩ dotDot = ⟨ups, names⟩ := rfl

/-- A part that is a name. -/
structure IsName (s : List Char) : Prop where
  slash : '/' ∉ s
  nil : s ≠ []
  dot : s ≠ dot
  dotDot : s ≠ dotDot

/-- A place that a walk can end at. -/
structure Place.Proper (root : Bool) (p : Place) : Prop where
  names : ∀ s ∈ p.names, IsName s
  ups : root = true → p.ups = 0

theorem Place.Proper.step (h : p.Proper root) (hs : '/' ∉ s) : (step root p s).Proper root := by
  obtain ⟨ups, names⟩ := p
  by_cases hnil : s = []
  · simpa [hnil] using h
  by_cases hdot : s = LexicalPath.dot
  · simpa [hdot] using h
  by_cases hdotDot : s = LexicalPath.dotDot
  · subst hdotDot
    cases names with
    | nil =>
      rw [step_dotDot_nil]
      exact ⟨by simp, fun hroot => by simpa [hroot] using h.ups hroot⟩
    | cons name names => exact ⟨(forall_mem_cons.mp h.names).2, h.ups⟩
  · rw [step_name hnil hdot hdotDot]
    exact ⟨forall_mem_cons.mpr ⟨⟨hs, hnil, hdot, hdotDot⟩, h.names⟩, h.ups⟩

theorem walk_proper (cs : List Char) : (walk cs).Proper (isAbsolute cs) := by
  have hfold : ∀ (ss : List (List Char)) (p : Place), (∀ s ∈ ss, '/' ∉ s) →
      p.Proper (isAbsolute cs) → (ss.foldl (step (isAbsolute cs)) p).Proper (isAbsolute cs) := by
    intro ss
    induction ss with
    | nil => exact fun p _ hp => hp
    | cons s ss ih =>
      intro p hss hp
      rw [forall_mem_cons] at hss
      exact ih _ hss.2 (hp.step hss.1)
  exact hfold _ _ notMem_of_mem_segments ⟨by simp, fun _ => rfl⟩

/-- Going up. -/
theorem foldl_dotDot (root : Bool) (k : ℕ) (p : Place) :
    (List.replicate k dotDot).foldl (step root) p =
      ⟨if root then p.ups else p.ups + (k - p.names.length), p.names.drop k⟩ := by
  induction k generalizing p with
  | zero => simp
  | succ k ih =>
    obtain ⟨ups, names⟩ := p
    rw [replicate_succ, foldl_cons, ih]
    cases names with
    | nil => cases root <;> simp [step_dotDot_nil, Nat.add_assoc, Nat.add_comm 1 k]
    | cons name names => simp [step_dotDot_cons]

/-- Going down. -/
theorem foldl_names {names : List (List Char)} (h : ∀ s ∈ names, IsName s) (root : Bool)
    (p : Place) : names.reverse.foldl (step root) p = ⟨p.ups, names ++ p.names⟩ := by
  induction names with
  | nil => rfl
  | cons s names ih =>
    rw [forall_mem_cons] at h
    rw [reverse_cons, foldl_append, ih h.2, foldl_cons, step_name h.1.nil h.1.dot h.1.dotDot]
    rfl

/-- Walking along the parts of a normal path. -/
theorem foldl_segments (h : p.Proper root) (directory : Bool) (root' : Bool) (q : Place) :
    (p.segments root directory).foldl (step root') q =
      ⟨if root' then q.ups else q.ups + (p.ups - q.names.length),
        p.names ++ q.names.drop p.ups⟩ := by
  have hparts : (p.parts directory).foldl (step root') q =
      ⟨if root' then q.ups else q.ups + (p.ups - q.names.length),
        p.names ++ q.names.drop p.ups⟩ := by
    rw [Place.parts, foldl_append, foldl_append, foldl_dotDot, foldl_names h.names]
    by_cases hdir : directory = true ∧ p.names ≠ []
    · rw [if_pos hdir, foldl_cons, step_nil, foldl_nil]
    · rw [if_neg hdir, foldl_nil]
  rw [← hparts, Place.segments]
  by_cases hnil : p.parts directory = [] <;> cases root <;> simp [hnil]

/-! ## Normal paths -/

theorem mem_parts (h : p.Proper root) {directory : Bool} (hs : s ∈ p.parts directory) :
    s = dotDot ∨ IsName s ∨ s = [] := by
  simp only [Place.parts, mem_append, mem_replicate, mem_reverse] at hs
  rcases hs with (⟨-, hs⟩ | hs) | hs
  · exact .inl hs
  · exact .inr (.inl (h.names s hs))
  · split_ifs at hs
    · exact .inr (.inr (mem_singleton.mp hs))
    · cases hs

/-- Only the last part can be empty. -/
theorem nil_notMem_dropLast_parts (h : p.Proper root) (directory : Bool) :
    [] ∉ (p.parts directory).dropLast := by
  have hnil : [] ∉ replicate p.ups dotDot ++ p.names.reverse := by
    simp only [mem_append, mem_replicate, mem_reverse, not_or]
    exact ⟨fun hdotDot => absurd hdotDot.2 (by decide), fun hmem => (h.names [] hmem).nil rfl⟩
  rw [Place.parts]
  split_ifs
  · rwa [dropLast_concat]
  · rw [append_nil]
    exact fun hmem => hnil (dropLast_subset _ hmem)

theorem segments_normal (h : cs ≠ []) :
    segments (normal cs) = (walk cs).segments (isAbsolute cs) (endsAtDirectory cs) := by
  have hslash : ∀ s ∈ (walk cs).parts (endsAtDirectory cs), '/' ∉ s := by
    intro s hs
    rcases mem_parts (walk_proper cs) hs with rfl | hname | rfl
    · decide
    · exact hname.slash
    · exact not_mem_nil
  rw [normal, if_neg h]
  apply segments_intercalate
  · intro s hs
    rw [Place.segments] at hs
    split_ifs at hs
    · obtain rfl : s = [] := by simpa using hs
      exact not_mem_nil
    · rcases mem_cons.mp hs with rfl | hs
      · exact not_mem_nil
      · exact hslash s hs
    · obtain rfl := mem_singleton.mp hs
      decide
    · exact hslash s hs
  · rw [Place.segments]
    split_ifs <;> simp_all

/-- An absolute path has an empty first part, and at least one more. -/
theorem isAbsolute_iff : isAbsolute cs = true ↔ ∃ ss, segments cs = [] :: ss ∧ ss ≠ [] := by
  constructor
  · intro h
    obtain ⟨ds, rfl⟩ : ∃ ds, cs = '/' :: ds := by
      cases cs with
      | nil => simp [isAbsolute] at h
      | cons c ds => exact ⟨ds, by simpa [isAbsolute] using h⟩
    exact ⟨segments ds, segments_append [] ds, segments_ne_nil ds⟩
  · rintro ⟨ss, hss, hne⟩
    rw [← intercalate_segments cs, hss]
    cases ss with
    | nil => exact absurd rfl hne
    | cons s ss => simp [isAbsolute, intercalate]

theorem isAbsolute_normal (cs : List Char) : isAbsolute (normal cs) = isAbsolute cs := by
  by_cases h : cs = []
  · rw [h, normal, if_pos rfl]
  rw [Bool.eq_iff_iff, isAbsolute_iff, segments_normal h, Place.segments]
  have hnot := nil_notMem_dropLast_parts (walk_proper cs) (endsAtDirectory cs)
  cases isAbsolute cs
  · simp only [Bool.false_eq_true, if_false, iff_false, not_exists, not_and, not_not]
    intro ss hss
    by_contra hne
    split_ifs at hss
    · exact absurd (cons.inj hss).1 (by decide)
    · rw [hss, dropLast_cons_of_ne_nil hne] at hnot
      exact hnot mem_cons_self
  · simp only [if_true, iff_true]
    by_cases hnil : (walk cs).parts (endsAtDirectory cs) = []
    · exact ⟨[[]], if_pos hnil, cons_ne_nil _ _⟩
    · exact ⟨_, if_neg hnil, hnil⟩

/-- A path and its normal form end at the same place. -/
theorem walk_normal (cs : List Char) : walk (normal cs) = walk cs := by
  by_cases h : cs = []
  · rw [h, normal, if_pos rfl]
  · rw [walk, isAbsolute_normal, segments_normal h, foldl_segments (walk_proper cs)]
    obtain ⟨hnames, hups⟩ := walk_proper cs
    cases hroot : isAbsolute cs
    · simp
    · simp [← hups hroot]

/-- Only the first and the last part can be empty. -/
theorem nil_notMem_middle (h : p.Proper root) (directory : Bool) :
    [] ∉ (p.segments root directory).tail.dropLast := by
  have hnot := nil_notMem_dropLast_parts h directory
  rw [Place.segments]
  split_ifs
  · simp
  · exact hnot
  · simp
  · rw [← tail_dropLast]
    exact fun hmem => hnot (mem_of_mem_tail hmem)

/-- There are no two slashes in a row. -/
theorem normal_ne_of_slashes (cs ds es : List Char) : normal cs ≠ ds ++ '/' :: '/' :: es := by
  intro h
  have hcs : cs ≠ [] := by
    rintro rfl
    simp [normal] at h
  have hnot := nil_notMem_middle (walk_proper cs) (endsAtDirectory cs)
  rw [← segments_normal hcs, h, segments_append, show '/' :: es = [] ++ '/' :: es from rfl,
    segments_append, tail_append_of_ne_nil (segments_ne_nil ds),
    show segments [] ++ segments es = [] :: segments es from rfl,
    dropLast_append_of_ne_nil (cons_ne_nil _ _),
    dropLast_cons_of_ne_nil (segments_ne_nil es)] at hnot
  exact hnot (mem_append_right _ mem_cons_self)

/-! ## A path in a directory -/

/-- The walk goes on from the place of the directory. -/
theorem walk_append (cs ds : List Char) : walk (cs ++ '/' :: ds) =
    (segments ds).foldl (step (isAbsolute (cs ++ ['/']))) (walk (cs ++ ['/'])) := by
  have habsolute : isAbsolute (cs ++ '/' :: ds) = isAbsolute (cs ++ ['/']) := by
    cases cs <;> rfl
  rw [walk, walk, habsolute, segments_append, segments_append, foldl_append, foldl_append]
  rfl

theorem endsAtDirectory_append (cs ds : List Char) :
    endsAtDirectory (cs ++ '/' :: ds) = endsAtDirectory ds := by
  rw [endsAtDirectory, endsAtDirectory, segments_append, getLast?_append_of_ne_nil]
  exact segments_ne_nil ds

/-- The normal form of a path to a directory. -/
theorem exists_normal_eq (h : (walk (cs ++ ['/'])).names ≠ []) :
    ∃ ds, normal (cs ++ ['/']) = ds ++ ['/'] := by
  obtain ⟨ss, hss⟩ : ∃ ss, segments (normal (cs ++ ['/'])) = ss ++ [[]] ∧ ss ≠ [] := by
    have hdir : endsAtDirectory (cs ++ ['/']) = true := endsAtDirectory_append cs []
    rw [segments_normal (by simp), hdir]
    generalize walk (cs ++ ['/']) = p at h
    have hparts : p.parts true = (replicate p.ups dotDot ++ p.names.reverse) ++ [[]] := by
      simp [Place.parts, h]
    rw [Place.segments, hparts]
    cases isAbsolute (cs ++ ['/'])
    · exact ⟨replicate p.ups dotDot ++ p.names.reverse, by simp, by simp [h]⟩
    · exact ⟨[] :: (replicate p.ups dotDot ++ p.names.reverse), by simp, by simp⟩
  have hslash : ∀ s ∈ ss, '/' ∉ s := by
    intro s hs
    apply @notMem_of_mem_segments (normal (cs ++ ['/']))
    rw [hss.1]
    exact mem_append_left _ hs
  refine ⟨['/'].intercalate ss, ?_⟩
  rw [← intercalate_segments (normal _), hss.1, ← intercalate_segments (_ ++ ['/']),
    segments_append, segments_intercalate hslash hss.2]
  rfl

/-- The normal form of a directory can stand for it in front of a path. -/
theorem normal_append_eq (h : normal (cs ++ ['/']) = ds ++ ['/']) (es : List Char) :
    normal (ds ++ '/' :: es) = normal (cs ++ '/' :: es) := by
  have habsolute : isAbsolute (ds ++ '/' :: es) = isAbsolute (cs ++ '/' :: es) := by
    have := isAbsolute_normal (cs ++ ['/'])
    rw [h] at this
    cases cs <;> cases ds <;> exact this
  have hwalk : walk (ds ++ '/' :: es) = walk (cs ++ '/' :: es) := by
    rw [walk_append ds, walk_append cs, ← h, isAbsolute_normal, walk_normal]
  rw [normal, normal, if_neg (by simp), if_neg (by simp), habsolute, hwalk,
    endsAtDirectory_append, endsAtDirectory_append]

/-- A normal path does not depend on the directory in front of it if and only if the directory is so
many levels down as it is levels up, and the path goes up at least that many. -/
theorem normal_append_eq_self_iff (hnames : (walk (cs ++ ['/'])).names ≠ []) (hne : ds ≠ [])
    (hnormal : normal ds = ds) (hrelative : isAbsolute ds = false) :
    normal (cs ++ '/' :: ds) = ds ↔ (walk (cs ++ ['/'])).ups = (walk (cs ++ ['/'])).names.length ∧
      (walk (cs ++ ['/'])).names.length ≤ (walk ds).ups := by
  -- the walk along the path, from the place of the directory
  have hwalk : walk (cs ++ '/' :: ds) = ⟨if isAbsolute (cs ++ ['/']) then (walk (cs ++ ['/'])).ups
      else (walk (cs ++ ['/'])).ups + ((walk ds).ups - (walk (cs ++ ['/'])).names.length),
      (walk ds).names ++ (walk (cs ++ ['/'])).names.drop (walk ds).ups⟩ := by
    rw [walk_append cs ds, ← hnormal, segments_normal hne, foldl_segments (walk_proper ds),
      walk_normal]
  have habsolute : isAbsolute (cs ++ '/' :: ds) = isAbsolute (cs ++ ['/']) := by
    cases cs <;> rfl
  have hproper := walk_proper (cs ++ ['/'])
  have hpos := length_pos_iff.mpr hnames
  generalize walk (cs ++ ['/']) = p at hwalk hproper hpos
  constructor
  · intro h
    have hplace := congrArg walk h
    have hroot := congrArg isAbsolute h
    rw [walk_normal, hwalk] at hplace
    rw [isAbsolute_normal, habsolute, hrelative] at hroot
    have hups := congrArg Place.ups hplace
    have hdrop := congrArg Place.names hplace
    simp only [hroot, Bool.false_eq_true, if_false] at hups
    simp only [append_right_eq_self, drop_eq_nil_iff] at hdrop
    omega
  · rintro ⟨hups, hle⟩
    have hroot : isAbsolute (cs ++ ['/']) = false := by
      by_contra hroot
      have := hproper.ups (by simpa using hroot)
      omega
    have hplace : walk (cs ++ '/' :: ds) = walk ds := by
      rw [hwalk, hroot, drop_eq_nil_of_le hle]
      simp only [Bool.false_eq_true, if_false, append_nil]
      rw [show p.ups + ((walk ds).ups - p.names.length) = (walk ds).ups by omega]
    rw [normal, if_neg (by simp), habsolute, hroot, hplace, endsAtDirectory_append, ← hrelative]
    rwa [normal, if_neg hne] at hnormal

end LexicalPath
