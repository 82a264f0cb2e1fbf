import MoreCpp.Library.TransitionSystem
import Mathlib.Data.Finset.Max
import Mathlib.Data.Prod.Lex

/-!
`TaskManager` of `algorithms/design/design.cpp`: the live tasks are in a map by
their ids and in an ordered set by their negated priorities and ids. No negation
overflows.
-/

namespace MoreCpp

open Library

structure TaskManager where
  mp : Int → Option (Int × Int)
  st : Finset (Int ×ₗ Int)

namespace TaskManager

/-- A row of the initial list. -/
structure Task where
  userId : Int
  taskId : Int
  priority : Int

def empty : TaskManager := ⟨fun _ => none, ∅⟩

/-- `mp[taskId] = {userId, priority}`. -/
def put (taskId userId priority : Int) (tm : TaskManager) : TaskManager :=
  { tm with mp := Function.update tm.mp taskId (some (userId, priority)) }

/-- `mp[taskId]`, which makes an entry if there is none. -/
def entry (taskId : Int) (tm : TaskManager) : (Int × Int) × TaskManager :=
  match tm.mp taskId with
  | some pair => (pair, tm)
  | none => ((0, 0), tm.put taskId 0 0)

def add (userId taskId priority : Int) (tm : TaskManager) : TaskManager :=
  let tm := tm.put taskId userId priority
  { tm with st := insert (toLex (-priority, -taskId)) tm.st }

def make (tasks : List Task) : TaskManager :=
  tasks.foldl (fun tm t => tm.add t.userId t.taskId t.priority) empty

def edit (taskId newPriority : Int) (tm : TaskManager) : TaskManager :=
  let ((userId, priority), tm) := tm.entry taskId
  let tm := { tm with st := tm.st.erase (toLex (-priority, -taskId)) }
  let tm := { tm with st := insert (toLex (-newPriority, -taskId)) tm.st }
  tm.put taskId userId newPriority

def rmv (taskId : Int) (tm : TaskManager) : TaskManager :=
  let ((_, priority), tm) := tm.entry taskId
  let tm := { tm with st := tm.st.erase (toLex (-priority, -taskId)) }
  { tm with mp := Function.update tm.mp taskId none }

def execTop (tm : TaskManager) : Int × TaskManager :=
  match tm.st.min with
  | ⊤ => (-1, tm)
  | (e : Int ×ₗ Int) =>
      let tm := { tm with st := tm.st.erase e }
      let taskId := -(ofLex e).2
      let ((userId, _), tm) := tm.entry taskId
      (userId, { tm with mp := Function.update tm.mp taskId none })

inductive Op where
  | add (userId taskId priority : Int)
  | edit (taskId newPriority : Int)
  | rmv (taskId : Int)
  | execTop

def perform (tm : TaskManager) : Op → TaskManager
  | .add userId taskId priority => tm.add userId taskId priority
  | .edit taskId newPriority => tm.edit taskId newPriority
  | .rmv taskId => tm.rmv taskId
  | .execTop => tm.execTop.2

/-- Only live tasks are edited and removed. -/
def Permitted (tm : TaskManager) : Op → Prop
  | .edit taskId _ | .rmv taskId => (tm.mp taskId).isSome
  | .add _ _ _ | .execTop => True

/-- Any calls on a manager with some initial tasks. -/
def system (tasks : List Task) : System TaskManager Op where
  Init tm := tm = make tasks
  Step tm op tm' := tm.Permitted op ∧ tm' = tm.perform op

/-- The set has an entry for each live task and nothing else. -/
def Mirrored (tm : TaskManager) : Prop :=
  ∀ e, e ∈ tm.st ↔ ∃ taskId userId priority,
    tm.mp taskId = some (userId, priority) ∧ e = toLex (-priority, -taskId)

/-- A live task with the highest priority, and among those with the highest id. -/
def Top (tm : TaskManager) (taskId userId priority : Int) : Prop :=
  tm.mp taskId = some (userId, priority) ∧
    ∀ taskId' userId' priority', tm.mp taskId' = some (userId', priority') →
      priority' < priority ∨ (priority' = priority ∧ taskId' ≤ taskId)

variable {tm : TaskManager} {taskId userId priority : Int}

@[simp] theorem entry_of_some (h : tm.mp taskId = some (userId, priority)) :
    tm.entry taskId = ((userId, priority), tm) := by
  rw [entry, h]

theorem neg_inj {priority priority' taskId' : Int}
    (h : toLex (-priority, -taskId) = toLex (-priority', -taskId')) :
    priority = priority' ∧ taskId = taskId' := by
  have hpair := toLex.injective h
  obtain ⟨hpriority, htaskId⟩ := Prod.mk.inj hpair
  omega

namespace Mirrored

theorem empty : Mirrored empty := fun e => by simp [TaskManager.empty]

/-- The entry of a live task. -/
theorem mem (h : tm.Mirrored) (htask : tm.mp taskId = some (userId, priority)) :
    toLex (-priority, -taskId) ∈ tm.st :=
  (h _).mpr ⟨taskId, userId, priority, htask, rfl⟩

/-- The entries when one task has been put. -/
theorem exists_put {mp : Int → Option (Int × Int)} {e : Int ×ₗ Int} :
    (∃ taskId' userId' priority', Function.update mp taskId (some (userId, priority)) taskId' =
        some (userId', priority') ∧ e = toLex (-priority', -taskId')) ↔
      e = toLex (-priority, -taskId) ∨ ∃ taskId' userId' priority', taskId' ≠ taskId ∧
        mp taskId' = some (userId', priority') ∧ e = toLex (-priority', -taskId') := by
  constructor
  · rintro ⟨taskId', userId', priority', hother, rfl⟩
    rcases eq_or_ne taskId' taskId with rfl | hne
    · rw [Function.update_self] at hother
      cases hother
      exact .inl rfl
    · rw [Function.update_of_ne hne] at hother
      exact .inr ⟨taskId', userId', priority', hne, hother, rfl⟩
  · rintro (rfl | ⟨taskId', userId', priority', hne, hother, rfl⟩)
    · exact ⟨taskId, userId, priority, Function.update_self .., rfl⟩
    · exact ⟨taskId', userId', priority', (Function.update_of_ne hne ..).trans hother, rfl⟩

/-- The entries of the other tasks, once the one of a live task is erased. -/
theorem mem_erase (h : tm.Mirrored) (htask : tm.mp taskId = some (userId, priority))
    (e : Int ×ₗ Int) :
    e ∈ tm.st.erase (toLex (-priority, -taskId)) ↔ ∃ taskId' userId' priority', taskId' ≠ taskId ∧
      tm.mp taskId' = some (userId', priority') ∧ e = toLex (-priority', -taskId') := by
  rw [Finset.mem_erase, h e]
  constructor
  · rintro ⟨hne, taskId', userId', priority', hother, rfl⟩
    refine ⟨taskId', userId', priority', ?_, hother, rfl⟩
    rintro rfl
    cases htask.symm.trans hother
    exact hne rfl
  · rintro ⟨taskId', userId', priority', hne, hother, rfl⟩
    exact ⟨fun heq => hne (neg_inj heq).2, taskId', userId', priority', hother, rfl⟩

theorem rmv (h : tm.Mirrored) (htask : tm.mp taskId = some (userId, priority)) :
    (tm.rmv taskId).Mirrored := by
  intro e
  simp only [TaskManager.rmv, entry_of_some htask]
  rw [h.mem_erase htask]
  constructor
  · rintro ⟨taskId', userId', priority', hne, hother, rfl⟩
    exact ⟨taskId', userId', priority', (Function.update_of_ne hne ..).trans hother, rfl⟩
  · rintro ⟨taskId', userId', priority', hother, rfl⟩
    rcases eq_or_ne taskId' taskId with rfl | hne
    · rw [Function.update_self] at hother
      cases hother
    · rw [Function.update_of_ne hne] at hother
      exact ⟨taskId', userId', priority', hne, hother, rfl⟩

theorem edit (h : tm.Mirrored) (htask : tm.mp taskId = some (userId, priority))
    (newPriority : Int) : (tm.edit taskId newPriority).Mirrored := by
  intro e
  simp only [TaskManager.edit, entry_of_some htask, put]
  rw [Finset.mem_insert, h.mem_erase htask, exists_put]

/-- An `add` keeps the entry of the task that it replaces, so that the set mirrors
the map only when there is no such task or its priority is the same. -/
theorem add_iff (h : tm.Mirrored) (userId taskId priority : Int) :
    (tm.add userId taskId priority).Mirrored ↔
      ∀ userId' priority', tm.mp taskId = some (userId', priority') → priority' = priority := by
  constructor
  · intro hadd userId' priority' htask
    have hstale : toLex (-priority', -taskId) ∈ (tm.add userId taskId priority).st :=
      Finset.mem_insert_of_mem (h.mem htask)
    obtain ⟨taskId'', userId'', priority'', hentry, heq⟩ := (hadd _).mp hstale
    obtain ⟨rfl, rfl⟩ := neg_inj heq
    have hnew : (tm.add userId taskId priority).mp taskId = some (userId, priority) :=
      Function.update_self ..
    cases hnew.symm.trans hentry
    rfl
  · intro hsame e
    simp only [add, put, Finset.mem_insert]
    rw [h e, exists_put]
    constructor
    · rintro (rfl | ⟨taskId', userId', priority', hother, rfl⟩)
      · exact .inl rfl
      · rcases eq_or_ne taskId' taskId with rfl | hne
        · rw [hsame userId' priority' hother]
          exact .inl rfl
        · exact .inr ⟨taskId', userId', priority', hne, hother, rfl⟩
    · rintro (rfl | ⟨taskId', userId', priority', -, hother, rfl⟩)
      · exact .inl rfl
      · exact .inr ⟨taskId', userId', priority', hother, rfl⟩

/-- `execTop` of a manager without tasks. -/
theorem execTop_none (h : tm.Mirrored) (hnone : ∀ taskId, tm.mp taskId = none) :
    tm.execTop = (-1, tm) := by
  have hmin : tm.st.min = ⊤ := by
    rw [Finset.min_eq_top, Finset.eq_empty_iff_forall_notMem]
    intro e he
    obtain ⟨taskId, userId, priority, htask, -⟩ := (h e).mp he
    rw [hnone] at htask
    cases htask
  rw [execTop, hmin]

/-- `execTop` of a manager with a task takes the top one. -/
theorem execTop_some (h : tm.Mirrored) (htask : tm.mp taskId = some (userId, priority)) :
    ∃ taskId userId priority, tm.Top taskId userId priority ∧
      tm.execTop = (userId, tm.rmv taskId) := by
  obtain ⟨e, hmin⟩ := Finset.min_of_mem (h.mem htask)
  obtain ⟨taskId', userId', priority', htop, rfl⟩ := (h e).mp (Finset.mem_of_min hmin)
  refine ⟨taskId', userId', priority', ⟨htop, ?_⟩, ?_⟩
  · intro taskId'' userId'' priority'' hother
    have hle := Finset.min_le_of_eq (h.mem hother) hmin
    rw [Prod.Lex.toLex_le_toLex] at hle
    omega
  · rw [execTop, hmin]
    have hentry : entry taskId' { tm with st := tm.st.erase (toLex (-priority', -taskId')) } =
        ((userId', priority'), { tm with st := tm.st.erase (toLex (-priority', -taskId')) }) :=
      entry_of_some htop
    simp only [ofLex_toLex, Int.neg_neg, TaskManager.rmv, entry_of_some htop, hentry]

end Mirrored

/-- Adding a task of some user, under an id that is new or has the same priority. -/
def Allowed (tm : TaskManager) : Op → Prop
  | .add userId taskId priority => userId ≠ -1 ∧
      ∀ userId' priority', tm.mp taskId = some (userId', priority') → priority' = priority
  | _ => True

/-- The same for the adds that the constructor makes. -/
def AddsAllowed : TaskManager → List Task → Prop
  | _, [] => True
  | tm, t :: rest => tm.Allowed (.add t.userId t.taskId t.priority) ∧
      AddsAllowed (tm.add t.userId t.taskId t.priority) rest

/-- The two indexes agree, and no user id is the answer for no task. -/
structure Inv (tm : TaskManager) : Prop where
  mirrored : tm.Mirrored
  user : ∀ taskId userId priority, tm.mp taskId = some (userId, priority) → userId ≠ -1

namespace Inv

theorem put {st : Finset (Int ×ₗ Int)} (h : tm.Inv) (huser : userId ≠ -1)
    (hmirrored : Mirrored ⟨Function.update tm.mp taskId (some (userId, priority)), st⟩) :
    Inv ⟨Function.update tm.mp taskId (some (userId, priority)), st⟩ where
  mirrored := hmirrored
  user taskId' userId' priority' hentry := by
    rcases eq_or_ne taskId' taskId with rfl | hne
    · simp only [Function.update_self] at hentry
      cases hentry
      exact huser
    · simp only [Function.update_of_ne hne] at hentry
      exact h.user taskId' userId' priority' hentry

theorem add (h : tm.Inv) (hallowed : tm.Allowed (.add userId taskId priority)) :
    (tm.add userId taskId priority).Inv :=
  h.put hallowed.1 ((h.mirrored.add_iff userId taskId priority).mpr hallowed.2)

theorem rmv (h : tm.Inv) (htask : tm.mp taskId = some (userId, priority)) :
    (tm.rmv taskId).Inv := by
  refine ⟨h.mirrored.rmv htask, fun taskId' userId' priority' hentry => ?_⟩
  simp only [TaskManager.rmv, entry_of_some htask] at hentry
  rcases eq_or_ne taskId' taskId with rfl | hne
  · rw [Function.update_self] at hentry
    cases hentry
  · rw [Function.update_of_ne hne] at hentry
    exact h.user taskId' userId' priority' hentry

theorem execTop (h : tm.Inv) : tm.execTop.2.Inv := by
  by_cases hnone : ∀ taskId, tm.mp taskId = none
  · rw [h.mirrored.execTop_none hnone]
    exact h
  · obtain ⟨taskId, htask⟩ := not_forall.mp hnone
    obtain ⟨⟨userId, priority⟩, htask⟩ := Option.ne_none_iff_exists'.mp htask
    obtain ⟨taskId, userId, priority, htop, hexec⟩ := h.mirrored.execTop_some htask
    rw [hexec]
    exact h.rmv htop.1

theorem perform (h : tm.Inv) {op : Op} (hpermitted : tm.Permitted op) (hallowed : tm.Allowed op) :
    (tm.perform op).Inv := by
  cases op with
  | add userId taskId priority => exact h.add hallowed
  | edit taskId newPriority =>
      obtain ⟨⟨userId, priority⟩, htask⟩ := Option.isSome_iff_exists.mp hpermitted
      have hedit := h.mirrored.edit htask newPriority
      simp only [TaskManager.perform, TaskManager.edit, entry_of_some htask] at hedit ⊢
      exact h.put (h.user taskId userId priority htask) hedit
  | rmv taskId =>
      obtain ⟨⟨userId, priority⟩, htask⟩ := Option.isSome_iff_exists.mp hpermitted
      exact h.rmv htask
  | execTop => exact h.execTop

theorem make {tasks : List Task} (h : AddsAllowed empty tasks) : (make tasks).Inv := by
  have hadds : ∀ (tasks : List Task) (tm : TaskManager), tm.Inv → AddsAllowed tm tasks →
      (tasks.foldl (fun tm t => tm.add t.userId t.taskId t.priority) tm).Inv := by
    intro tasks
    induction tasks with
    | nil => exact fun tm htm _ => htm
    | cons t rest ih => exact fun tm htm hadds => ih _ (htm.add hadds.1) hadds.2
  exact hadds tasks empty ⟨.empty, nofun⟩ h

end Inv

theorem reachable_inv {tasks : List Task} (htasks : AddsAllowed empty tasks)
    (htm : ((system tasks).restrict Allowed).Reachable tm) : tm.Inv := by
  refine ((system tasks).restrict Allowed).reachable_invariant Inv ?_ ?_ tm htm
  · rintro _ rfl
    exact .make htasks
  · rintro tm op _ - h ⟨⟨hpermitted, rfl⟩, hallowed⟩
    exact h.perform hpermitted hallowed

/-- As long as no `add` replaces a task by one of another priority, and no user id
is `-1`, the set has just the entries of the live tasks, and `execTop` removes the
top one of them and returns its user; it returns `-1` if and only if there is none.
The first `add` that does replace one so leaves another set behind. -/
theorem execTop_top {tasks : List Task} (htasks : AddsAllowed empty tasks)
    (htm : ((system tasks).restrict Allowed).Reachable tm) :
    tm.Mirrored ∧
      ((∀ taskId, tm.mp taskId = none) → tm.execTop = (-1, tm)) ∧
      ((∃ taskId, tm.mp taskId ≠ none) → ∃ taskId userId priority, tm.Top taskId userId priority ∧
        tm.execTop.1 = userId ∧ tm.execTop.2.mp = Function.update tm.mp taskId none ∧
        tm.execTop.2.Mirrored) ∧
      (tm.execTop.1 = -1 ↔ ∀ taskId, tm.mp taskId = none) ∧
      ∀ userId taskId priority, (tm.add userId taskId priority).Mirrored ↔
        ∀ userId' priority', tm.mp taskId = some (userId', priority') → priority' = priority := by
  have h := reachable_inv htasks htm
  have hsome : (∃ taskId, tm.mp taskId ≠ none) → ∃ taskId userId priority,
      tm.Top taskId userId priority ∧ tm.execTop = (userId, tm.rmv taskId) := by
    rintro ⟨taskId, htask⟩
    obtain ⟨⟨userId, priority⟩, htask⟩ := Option.ne_none_iff_exists'.mp htask
    exact h.mirrored.execTop_some htask
  refine ⟨h.mirrored, h.mirrored.execTop_none, fun htask => ?_,
    ⟨fun hresult => ?_, fun hnone => ?_⟩, h.mirrored.add_iff⟩
  · obtain ⟨taskId, userId, priority, htop, hexec⟩ := hsome htask
    refine ⟨taskId, userId, priority, htop, ?_⟩
    rw [hexec]
    refine ⟨rfl, ?_, h.mirrored.rmv htop.1⟩
    rw [rmv, entry_of_some htop.1]
  · by_contra hlive
    obtain ⟨taskId, userId, priority, htop, hexec⟩ := hsome (not_forall.mp hlive)
    rw [hexec] at hresult
    exact h.user taskId userId priority htop.1 hresult
  · rw [h.mirrored.execTop_none hnone]

/-- Of two tasks the one with the higher priority is executed. -/
theorem execTop_top_two : (make [⟨7, 1, 5⟩, ⟨8, 2, 6⟩]).Mirrored ∧
    (make [⟨7, 1, 5⟩, ⟨8, 2, 6⟩]).execTop.1 = 8 := by
  have htasks : AddsAllowed empty [⟨7, 1, 5⟩, ⟨8, 2, 6⟩] :=
    ⟨⟨by decide, nofun⟩, ⟨by decide, nofun⟩, trivial⟩
  exact ⟨(execTop_top htasks (.start rfl)).1, by decide⟩

/-- A task replaced by one of another priority leaves an entry behind, which a later
`execTop` takes for a task. -/
theorem add_leaves_entry : ∃ tm, (system [⟨7, 1, 5⟩]).Reachable tm ∧
    (∀ taskId, tm.mp taskId = none) ∧ ¬ tm.Mirrored ∧ tm.execTop.1 = 0 := by
  have htm₀ : (system [⟨7, 1, 5⟩]).Reachable (make [⟨7, 1, 5⟩]) := .start rfl
  have htm₁ := htm₀.next (show (system _).Step _ (.add 8 1 6) _ from ⟨trivial, rfl⟩)
  have htm₂ := htm₁.next (show (system _).Step _ .execTop _ from ⟨trivial, rfl⟩)
  have hnone : ∀ taskId,
      (((make [⟨7, 1, 5⟩]).perform (.add 8 1 6)).perform .execTop).mp taskId = none := by
    intro taskId
    change Function.update (Function.update (Function.update (fun _ => none) 1 _) 1 _) 1 none
      taskId = none
    rcases eq_or_ne taskId 1 with rfl | hne
    · rw [Function.update_self]
    · simp only [Function.update_of_ne hne]
  refine ⟨_, htm₂, hnone, fun hmirrored => ?_, by decide⟩
  obtain ⟨taskId, userId, priority, htask, -⟩ := (hmirrored (toLex (-5, -1))).mp (by decide)
  rw [hnone] at htask
  cases htask

end TaskManager

end MoreCpp
