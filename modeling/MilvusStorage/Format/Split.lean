import Mathlib.Algebra.Order.BigOperators.Group.List
import Mathlib.Algebra.Order.Group.Nat
import Mathlib.Data.List.Nodup
import Mathlib.Data.List.Perm.Basic
import Mathlib.Data.List.Range
import MilvusStorage.Common.Status
import MilvusStorage.Foundations.Except

/-!
# Splitting asynchronous tasks

`SplitAsyncTasks` splits tasks into smaller ones: not at all, until there are as many as asked for,
or as far as possible. It always splits the largest task, which it finds with a heap; the left half
stays in the task's place and the right half goes to the end.

Splitting only divides tasks, into as many as the strategy says (`exists_splits`), and it ends: the
loop that splits as far as possible stops with no task left to split (`splitAll_done`).
-/

namespace MilvusStorage.Format

open List

inductive AsyncTaskSplitStrategy
  | noSplit
  | splitToParallelism
  | splitAll
  deriving DecidableEq

/-- The strategy for the value of a property. -/
def getAsyncTaskSplitStrategy (strategy : String) : AsyncTaskSplitStrategy :=
  if strategy = "none" then .noSplit
  else if strategy = "all" then .splitAll
  else .splitToParallelism

variable {Task : Type}

/-- `AsyncTaskSplitTraits`. -/
structure SplitTraits (Task : Type) where
  size : Task → ℕ
  canSplit : Task → Bool
  /-- What the task becomes, and the right half. -/
  split : Task → Except Fault (Task × Task)

/-! ## `SplittableTaskMaxHeap` -/

structure Candidate where
  size : ℕ
  index : ℕ
  deriving DecidableEq

/-- The order of the heap: of two tasks of the same size, the first one is greater. -/
def compareCandidate (lhs rhs : Candidate) : Bool :=
  if lhs.size ≠ rhs.size then lhs.size < rhs.size else rhs.index < lhs.index

/-- The greatest entry of the heap. -/
def heapTop : List Candidate → Option Candidate
  | [] => none
  | c :: heap =>
    match heapTop heap with
    | none => some c
    | some d => if compareCandidate c d then some d else some c

/-- The tasks, and a heap of those that can be split. -/
structure SplittableTasks (Task : Type) where
  tasks : List Task
  heap : List Candidate

namespace SplittableTasks

variable (T : SplitTraits Task)

def pushIfSplittable (S : SplittableTasks Task) (index : ℕ) : SplittableTasks Task :=
  match S.tasks[index]? with
  | none => S
  | some task =>
    if T.canSplit task then { S with heap := ⟨T.size task, index⟩ :: S.heap } else S

def ofTasks (tasks : List Task) : SplittableTasks Task :=
  (List.range tasks.length).foldl (pushIfSplittable T) ⟨tasks, []⟩

/-- Split the largest task; `none` if no task can be split. -/
def splitLargest (S : SplittableTasks Task) : Except Fault (Option (SplittableTasks Task)) :=
  match heapTop S.heap with
  | none => .ok none
  | some candidate =>
    match S.tasks[candidate.index]? with
    | none => .error .outOfBounds
    | some task => do
      let (left, right) ← T.split task
      let rightIndex := S.tasks.length
      let S : SplittableTasks Task :=
        ⟨S.tasks.set candidate.index left ++ [right], S.heap.erase candidate⟩
      return some (pushIfSplittable T (pushIfSplittable T S candidate.index) rightIndex)

/-- At most `n` iterations of the loops. -/
def splitTimes : ℕ → SplittableTasks Task → Except Fault (SplittableTasks Task)
  | 0, S => .ok S
  | n + 1, S => do
    match ← S.splitLargest T with
    | none => return S
    | some S => splitTimes n S

end SplittableTasks

/-- `SplitAsyncTasks`. A split adds one task, so the loop up to `target_count` tasks makes the
missing number of splits; the loop that splits all tasks makes fewer splits than the tasks have
items. -/
def splitAsyncTasks (T : SplitTraits Task) (tasks : List Task) (targetCount : ℕ) :
    AsyncTaskSplitStrategy → Except Fault (List Task)
  | .noSplit => .ok tasks
  | .splitToParallelism =>
    if targetCount ≤ tasks.length then .ok tasks
    else (·.tasks) <$> SplittableTasks.splitTimes T (targetCount - tasks.length) (.ofTasks T tasks)
  | .splitAll =>
    (·.tasks) <$> SplittableTasks.splitTimes T (tasks.map T.size).sum (.ofTasks T tasks)

/-! ## Tasks with items -/

variable {heap : List Candidate} {c : Candidate}

theorem heapTop_mem (h : heapTop heap = some c) : c ∈ heap := by
  induction heap generalizing c with
  | nil => cases h
  | cons d heap ih =>
    rw [heapTop] at h
    cases htop : heapTop heap with
    | none =>
      rw [htop] at h
      exact Option.some.inj h ▸ mem_cons_self
    | some e =>
      rw [htop] at h
      dsimp only at h
      split_ifs at h
      · exact Option.some.inj h ▸ mem_cons_of_mem _ (ih htop)
      · exact Option.some.inj h ▸ mem_cons_self

theorem heapTop_eq_none (h : heapTop heap = none) : heap = [] := by
  cases heap with
  | nil => rfl
  | cons d heap =>
    rw [heapTop] at h
    cases htop : heapTop heap with
    | none =>
      rw [htop] at h
      cases h
    | some e =>
      rw [htop] at h
      dsimp only at h
      split_ifs at h

/-- Tasks are made of items, and splitting a task divides its items. -/
structure SplitTraits.Lawful {Item : Type} (T : SplitTraits Task) (items : Task → List Item)
    (Ok : Task → Prop) : Prop where
  size_eq : ∀ task, T.size task = (items task).length
  canSplit_iff : ∀ task, T.canSplit task = true ↔ 1 < (items task).length
  items_ne_nil : ∀ task, Ok task → items task ≠ []
  split_ok : ∀ task, Ok task → T.canSplit task = true → ∃ left right,
    T.split task = .ok (left, right) ∧ Ok left ∧ Ok right ∧ items task = items left ++ items right

namespace SplittableTasks

variable {Item : Type} {T : SplitTraits Task} {items : Task → List Item} {Ok : Task → Prop}

/-- The entries of the heap are different tasks that can be split. -/
structure Valid (T : SplitTraits Task) (Ok : Task → Prop) (S : SplittableTasks Task) : Prop where
  ok : ∀ task ∈ S.tasks, Ok task
  nodup : (S.heap.map Candidate.index).Nodup
  canSplit : ∀ c ∈ S.heap, ∃ task, S.tasks[c.index]? = some task ∧ T.canSplit task = true

theorem tasks_pushIfSplittable (S : SplittableTasks Task) (i : ℕ) :
    (S.pushIfSplittable T i).tasks = S.tasks := by
  unfold pushIfSplittable
  split
  · rfl
  · split_ifs <;> rfl

variable {S : SplittableTasks Task} {i : ℕ} {tasks : List Task}

theorem Valid.pushIfSplittable (h : S.Valid T Ok) (hi : i ∉ S.heap.map Candidate.index) :
    (S.pushIfSplittable T i).Valid T Ok := by
  unfold SplittableTasks.pushIfSplittable
  split
  · exact h
  · split_ifs with hsplit
    · rename_i task htask
      exact ⟨h.ok, nodup_cons.mpr ⟨hi, h.nodup⟩,
        forall_mem_cons.mpr ⟨⟨task, htask, hsplit⟩, h.canSplit⟩⟩
    · exact h

theorem index_pushIfSplittable (S : SplittableTasks Task) {j : ℕ} :
    j ∈ (S.pushIfSplittable T i).heap.map Candidate.index ↔ j ∈ S.heap.map Candidate.index ∨
      j = i ∧ ∃ task, S.tasks[i]? = some task ∧ T.canSplit task = true := by
  unfold pushIfSplittable
  split
  case _ hnone => simp [hnone]
  case _ task htask =>
    split_ifs with hsplit
    · simp [htask, hsplit, or_comm]
    · simp [htask, hsplit]

theorem foldl_pushIfSplittable (h : S.Valid T Ok) {is : List ℕ} (hnodup : is.Nodup)
    (his : ∀ i ∈ is, i ∉ S.heap.map Candidate.index) :
    (is.foldl (pushIfSplittable T) S).Valid T Ok ∧
      (is.foldl (pushIfSplittable T) S).tasks = S.tasks := by
  induction is generalizing S with
  | nil => exact ⟨h, rfl⟩
  | cons i is ih =>
    obtain ⟨hi, hnodup⟩ := nodup_cons.mp hnodup
    obtain ⟨hi', his⟩ := forall_mem_cons.mp his
    rw [← tasks_pushIfSplittable S i]
    refine ih (h.pushIfSplittable hi') hnodup fun j hj hmem => ?_
    obtain hmem | ⟨rfl, -⟩ := (index_pushIfSplittable S).mp hmem
    · exact his j hj hmem
    · exact hi hj

theorem ofTasks_valid (h : ∀ task ∈ tasks, Ok task) :
    (ofTasks T tasks).Valid T Ok ∧ (ofTasks T tasks).tasks = tasks :=
  foldl_pushIfSplittable (S := ⟨tasks, []⟩) ⟨h, nodup_nil, forall_mem_nil _⟩ nodup_range
    fun _ _ => not_mem_nil

/-- The heap has all tasks that can be split. -/
def Complete (T : SplitTraits Task) (S : SplittableTasks Task) : Prop :=
  ∀ i task, S.tasks[i]? = some task → T.canSplit task = true → i ∈ S.heap.map Candidate.index

theorem mem_foldl_pushIfSplittable {is : List ℕ} {task : Task} (htask : S.tasks[i]? = some task)
    (hsplit : T.canSplit task = true) (hi : i ∈ S.heap.map Candidate.index ∨ i ∈ is) :
    i ∈ (is.foldl (pushIfSplittable T) S).heap.map Candidate.index := by
  induction is generalizing S with
  | nil => simpa using hi
  | cons j is ih =>
    apply ih
    · rwa [tasks_pushIfSplittable]
    · rw [index_pushIfSplittable]
      obtain hi | hi := hi
      · exact .inl (.inl hi)
      · obtain rfl | hi := mem_cons.mp hi
        · exact .inl (.inr ⟨rfl, task, htask, hsplit⟩)
        · exact .inr hi

theorem ofTasks_complete (T : SplitTraits Task) (h : ∀ task ∈ tasks, Ok task) :
    (ofTasks T tasks).Complete T := by
  intro i task htask hsplit
  rw [(ofTasks_valid h).2] at htask
  apply mem_foldl_pushIfSplittable (S := ⟨tasks, []⟩) htask hsplit
  simpa using lt_of_getElem? htask

/-- Taking the greatest entry off the heap and dividing its task. -/
theorem Valid.divide (h : S.Valid T Ok) (hc : c ∈ S.heap) {left right : Task} (hleft : Ok left)
    (hright : Ok right) : Valid T Ok ⟨S.tasks.set c.index left ++ [right], S.heap.erase c⟩ ∧
      c.index ∉ (S.heap.erase c).map Candidate.index := by
  have hne : ∀ d ∈ S.heap.erase c, d.index ≠ c.index := by
    intro d hd heq
    have hinj := inj_on_of_nodup_map h.nodup (mem_of_mem_erase hd) hc heq
    exact (Nodup.mem_erase_iff h.nodup.of_map).mp hd |>.1 hinj
  refine ⟨⟨?_, ?_, ?_⟩, ?_⟩
  · intro task htask
    obtain htask | htask := mem_append.mp htask
    · obtain htask | rfl := mem_or_eq_of_mem_set htask
      · exact h.ok task htask
      · exact hleft
    · exact mem_singleton.mp htask ▸ hright
  · exact h.nodup.sublist (erase_sublist.map _)
  · intro d hd
    obtain ⟨task, htask, hsplit⟩ := h.canSplit d (mem_of_mem_erase hd)
    have hlt := lt_of_getElem? htask
    refine ⟨task, ?_, hsplit⟩
    rw [getElem?_append_left (by rwa [length_set]), getElem?_set_ne (hne d hd).symm, htask]
  · intro hmem
    obtain ⟨d, hd, heq⟩ := mem_map.mp hmem
    exact hne d hd heq

/-- Up to their order, `tasks'` are groups of tasks, one for each of `tasks`, and a group has the
items of its task in order. -/
def Divides (items : Task → List Item) (tasks tasks' : List Task) : Prop :=
  ∃ groups : List (List Task), groups.flatten.Perm tasks' ∧
    groups.map (fun group => group.flatMap items) = tasks.map items

theorem Divides.refl (items : Task → List Item) (tasks : List Task) : Divides items tasks tasks :=
  ⟨tasks.map fun task => [task], by simp [← flatMap_def], by simp⟩

variable {tasks' : List Task}

theorem Divides.flatMap_perm (h : Divides items tasks tasks') :
    (tasks'.flatMap items).Perm (tasks.flatMap items) := by
  obtain ⟨groups, hperm, hgroups⟩ := h
  rw [tasks.flatMap_def, ← hgroups, ← flatMap_def, ← flatMap_assoc, flatMap_id']
  exact hperm.symm.flatMap_right items

/-- Dividing one of the tasks. -/
theorem Divides.divide (h : Divides items tasks tasks') {task left right : Task}
    (hi : tasks'[i]? = some task) (hitems : items task = items left ++ items right) :
    Divides items tasks (tasks'.set i left ++ [right]) := by
  obtain ⟨groups, hperm, hgroups⟩ := h
  obtain ⟨hlt, rfl⟩ := List.getElem?_eq_some_iff.mp hi
  obtain ⟨group, hgroup, hmem⟩ := mem_flatten.mp (hperm.mem_iff.mpr (getElem_mem hlt))
  obtain ⟨pre, post, rfl⟩ := append_of_mem hgroup
  obtain ⟨a, b, rfl⟩ := append_of_mem hmem
  refine ⟨pre ++ (a ++ left :: right :: b) :: post, ?_, ?_⟩
  · -- the other tasks
    have hrest : ((pre.flatten ++ a) ++ (b ++ post.flatten)).Perm
        (tasks'.take i ++ tasks'.drop (i + 1)) := by
      apply Perm.cons_inv (a := tasks'[i])
      refine perm_middle.symm.trans (Perm.trans ?_ perm_middle)
      rw [← drop_eq_getElem_cons hlt, take_append_drop]
      simpa using hperm
    rw [set_eq_take_append_cons_drop, if_pos hlt]
    calc
      _ = (pre.flatten ++ a) ++ ([left, right] ++ (b ++ post.flatten)) := by simp
      _ ~ [left, right] ++ ((pre.flatten ++ a) ++ (b ++ post.flatten)) := perm_append_comm_assoc ..
      _ ~ left :: right :: (tasks'.take i ++ tasks'.drop (i + 1)) := (hrest.cons right).cons left
      _ ~ left :: ((tasks'.take i ++ tasks'.drop (i + 1)) ++ [right]) :=
        (perm_append_singleton right _).symm.cons left
      _ ~ _ := (perm_middle.append_right [right]).symm
  · simpa [hitems] using hgroups

/-- **One split.** -/
theorem splitLargest_cases (hT : T.Lawful items Ok) (h : S.Valid T Ok) :
    S.splitLargest T = .ok none ∧ S.heap = [] ∨ ∃ S', S.splitLargest T = .ok (some S') ∧
      S'.Valid T Ok ∧ (S.Complete T → S'.Complete T) ∧ ∃ i task left right,
        S.tasks[i]? = some task ∧ items task = items left ++ items right ∧
          S'.tasks = S.tasks.set i left ++ [right] := by
  unfold splitLargest
  cases htop : heapTop S.heap with
  | none => exact .inl ⟨rfl, heapTop_eq_none htop⟩
  | some c =>
    have hc := heapTop_mem htop
    obtain ⟨task, htask, hsplit⟩ := h.canSplit c hc
    obtain ⟨left, right, hdivide, hleft, hright, hitems⟩ :=
      hT.split_ok task (h.ok task (mem_of_getElem? htask)) hsplit
    obtain ⟨hvalid, hc'⟩ := h.divide hc hleft hright
    have hlt := lt_of_getElem? htask
    refine .inr ⟨_, ?_, (hvalid.pushIfSplittable hc').pushIfSplittable (i := S.tasks.length) ?_,
      fun hcomplete => ?_, c.index, task, left, right, htask, hitems, ?_⟩
    · dsimp only
      rw [htask]
      simp [hdivide]
    · intro hmem
      obtain hmem | ⟨heq, -⟩ := (index_pushIfSplittable _).mp hmem
      · obtain ⟨d, hd, heq⟩ := mem_map.mp hmem
        obtain ⟨task', htask', -⟩ := h.canSplit d (mem_of_mem_erase hd)
        have := lt_of_getElem? htask'
        omega
      · omega
    · intro i task' htask' hsplit'
      simp only [tasks_pushIfSplittable] at htask'
      rw [index_pushIfSplittable, index_pushIfSplittable, tasks_pushIfSplittable]
      by_cases hi : i = c.index
      · subst hi
        exact .inl (.inr ⟨rfl, task', htask', hsplit'⟩)
      by_cases hi' : i = S.tasks.length
      · subst hi'
        exact .inr ⟨rfl, task', htask', hsplit'⟩
      · have hold : S.tasks[i]? = some task' := by
          have hi'' := lt_of_getElem? htask'
          rw [length_append, length_set, length_singleton] at hi''
          rwa [getElem?_append_left (by rw [length_set]; omega), getElem?_set_ne (Ne.symm hi)]
            at htask'
        obtain ⟨d, hd, rfl⟩ := mem_map.mp (hcomplete i task' hold hsplit')
        refine .inl (.inl (mem_map_of_mem ((mem_erase_of_ne ?_).mpr hd)))
        rintro rfl
        exact hi rfl
    · simp [tasks_pushIfSplittable]

theorem Valid.length_le (hT : T.Lawful items Ok) (h : S.Valid T Ok)
    (hdivides : Divides items tasks S.tasks) :
    S.tasks.length ≤ (tasks.flatMap items).length ∧ (S.Complete T → S.heap = [] →
      (tasks.flatMap items).length ≤ S.tasks.length) := by
  have hpos : ∀ task ∈ S.tasks, 1 ≤ (items task).length := fun task htask =>
    length_pos_iff.mpr (hT.items_ne_nil task (h.ok task htask))
  rw [← hdivides.flatMap_perm.length_eq, length_flatMap]
  refine ⟨by simpa using card_nsmul_le_sum _ 1 (forall_mem_map.mpr hpos), fun hcomplete hheap => ?_⟩
  have hone : ∀ task ∈ S.tasks, (items task).length ≤ 1 := by
    intro task htask
    obtain ⟨i, hi⟩ := mem_iff_getElem?.mp htask
    by_contra hlt
    have hmem := hcomplete i task hi ((hT.canSplit_iff task).mpr (not_le.mp hlt))
    simp [hheap] at hmem
  simpa using sum_le_card_nsmul _ 1 (forall_mem_map.mpr hone)

/-- **The loops** divide tasks, and stop early only if every task has one item. -/
theorem splitTimes_ok (hT : T.Lawful items Ok) (n : ℕ) (h : S.Valid T Ok)
    (hdivides : Divides items tasks S.tasks) :
    ∃ S', S.splitTimes T n = .ok S' ∧ S'.Valid T Ok ∧ Divides items tasks S'.tasks ∧
      (S.Complete T → S'.tasks.length = min (S.tasks.length + n) (tasks.flatMap items).length) := by
  induction n generalizing S with
  | zero => exact ⟨S, rfl, h, hdivides, fun _ => (min_eq_left (h.length_le hT hdivides).1).symm⟩
  | succ n ih =>
    rw [splitTimes]
    obtain ⟨hnone, hheap⟩ | ⟨S', hsome, hvalid, hcomplete', i, task, left, right, hi, hitems,
      htasks⟩ := splitLargest_cases hT h
    · refine ⟨S, by rw [hnone]; rfl, h, hdivides, fun hcomplete => ?_⟩
      obtain ⟨hle, hge⟩ := h.length_le hT hdivides
      have := hge hcomplete hheap
      omega
    · obtain ⟨S'', hS'', hvalid'', hdivides'', hlen⟩ :=
        ih hvalid (htasks ▸ hdivides.divide hi hitems)
      refine ⟨S'', by rw [hsome]; exact hS'', hvalid'', hdivides'', fun hcomplete => ?_⟩
      rw [hlen (hcomplete' hcomplete), htasks, length_append, length_set, length_singleton,
        add_assoc, add_comm 1]

end SplittableTasks

/-- The number of tasks after splitting `natural` tasks with `total` items. -/
def AsyncTaskSplitStrategy.taskCount (natural targetCount total : ℕ) : AsyncTaskSplitStrategy → ℕ
  | .noSplit => natural
  | .splitToParallelism => max natural (min targetCount total)
  | .splitAll => total

section Strategies

variable {Item : Type} {T : SplitTraits Task} {items : Task → List Item} {Ok : Task → Prop}

/-- Splitting ends. The tasks have items, divide the former tasks, and are as many as the strategy
says. -/
structure Splits (T : SplitTraits Task) (items : Task → List Item) (targetCount : ℕ)
    (strategy : AsyncTaskSplitStrategy) (tasks tasks' : List Task) : Prop where
  eq_ok : splitAsyncTasks T tasks targetCount strategy = .ok tasks'
  ends : strategy = .splitAll → ∃ S, SplittableTasks.splitTimes T (tasks.map T.size).sum
    (.ofTasks T tasks) = .ok S ∧ S.splitLargest T = .ok none
  ne_nil : ∀ task ∈ tasks', items task ≠ []
  divides : SplittableTasks.Divides items tasks tasks'
  length_eq : tasks'.length =
    strategy.taskCount tasks.length targetCount (tasks.flatMap items).length

section

variable {tasks : List Task} (hT : T.Lawful items Ok) (h : ∀ task ∈ tasks, Ok task)
include hT h

/-- The number of iterations given to the loop that splits all tasks is enough. -/
theorem splitAll_done :
    ∃ S, SplittableTasks.splitTimes T (tasks.map T.size).sum (.ofTasks T tasks) = .ok S ∧
      S.splitLargest T = .ok none := by
  obtain ⟨hvalid, htasks⟩ := SplittableTasks.ofTasks_valid h
  obtain ⟨S, hS, hvalid', hdivides, hlen⟩ := SplittableTasks.splitTimes_ok hT
    (tasks.map T.size).sum hvalid (by rw [htasks]; exact .refl items tasks)
  refine ⟨S, hS, ?_⟩
  obtain ⟨hnone, -⟩ | ⟨S', -, hvalid'', -, i, task, left, right, hi, hitems, htasks'⟩ :=
    SplittableTasks.splitLargest_cases hT hvalid'
  · exact hnone
  · have hle := (hvalid''.length_le hT (htasks' ▸ hdivides.divide hi hitems)).1
    have := hlen (SplittableTasks.ofTasks_complete T h)
    rw [htasks', length_append, length_set, length_singleton, this,
      map_congr_left fun task _ => hT.size_eq task, ← length_flatMap] at hle
    omega

/-- **Splitting divides the tasks**, with every strategy. -/
theorem exists_splits (targetCount : ℕ) (strategy : AsyncTaskSplitStrategy) :
    ∃ tasks', Splits T items targetCount strategy tasks tasks' ∧ ∀ task ∈ tasks', Ok task := by
  obtain ⟨hvalid, htasks⟩ := SplittableTasks.ofTasks_valid h
  have hrefl : SplittableTasks.Divides items tasks (SplittableTasks.ofTasks T tasks).tasks := by
    rw [htasks]
    exact .refl items tasks
  have hle := (hvalid.length_le hT hrefl).1
  rw [htasks] at hle
  -- every strategy is a number of iterations
  obtain ⟨n, hn, hcount⟩ : ∃ n, splitAsyncTasks T tasks targetCount strategy =
      (·.tasks) <$> SplittableTasks.splitTimes T n (.ofTasks T tasks) ∧
        strategy.taskCount tasks.length targetCount (tasks.flatMap items).length =
          min (tasks.length + n) (tasks.flatMap items).length := by
    cases strategy with
    | noSplit => exact ⟨0, congrArg Except.ok htasks.symm, (min_eq_left hle).symm⟩
    | splitToParallelism =>
      refine ⟨targetCount - tasks.length, ?_, by rw [AsyncTaskSplitStrategy.taskCount]; omega⟩
      rw [splitAsyncTasks]
      split_ifs with hmany
      · rw [Nat.sub_eq_zero_of_le hmany]
        exact congrArg Except.ok htasks.symm
      · rfl
    | splitAll =>
      refine ⟨(tasks.map T.size).sum, rfl, ?_⟩
      rw [map_congr_left fun task _ => hT.size_eq task, ← length_flatMap]
      exact (min_eq_right (Nat.le_add_left ..)).symm
  obtain ⟨S', hS', hvalid', hdivides, hlen⟩ := SplittableTasks.splitTimes_ok hT n hvalid hrefl
  rw [htasks, ← hcount] at hlen
  exact ⟨S'.tasks, ⟨by rw [hn, hS']; rfl, fun _ => splitAll_done hT h,
    fun task htask => hT.items_ne_nil task (hvalid'.ok task htask), hdivides,
    hlen (SplittableTasks.ofTasks_complete T h)⟩, hvalid'.ok⟩

/-- **Splitting keeps the items**, with every strategy. -/
theorem splitAsyncTasks_ok (targetCount : ℕ) (strategy : AsyncTaskSplitStrategy) :
    ∃ tasks', splitAsyncTasks T tasks targetCount strategy = .ok tasks' ∧
      (∀ task ∈ tasks', Ok task) ∧ (tasks'.flatMap items).Perm (tasks.flatMap items) := by
  obtain ⟨tasks', hsplits, hok⟩ := exists_splits hT h targetCount strategy
  exact ⟨tasks', hsplits.eq_ok, hok, hsplits.divides.flatMap_perm⟩

end

end Strategies

end MilvusStorage.Format
