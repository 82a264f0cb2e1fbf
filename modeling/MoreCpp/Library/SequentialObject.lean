import Mathlib.Data.List.Induction
import Mathlib.Data.List.Nodup

/-!
Sequential objects and histories of calls on them. A concurrent
implementation is compared with such an object through the order in which its
calls take effect: replaying the operations in that order gives each call the
result it has to return.
-/

namespace MoreCpp.Library

structure SequentialObject (State Op Res : Type*) where
  initial : State
  apply : State → Op → State × Res

namespace SequentialObject

variable {State Op Res Call : Type*} (object : SequentialObject State Op Res)

/-- One operation: the state moves on and the call's result is noted. -/
def perform (progress : State × List (Call × Res)) (event : Call × Op) :
    State × List (Call × Res) :=
  ((object.apply progress.1 event.2).1,
    progress.2 ++ [(event.1, (object.apply progress.1 event.2).2)])

/-- Replay the operations, oldest first, from the initial state. -/
def replay (log : List (Call × Op)) : State × List (Call × Res) :=
  log.foldl object.perform (object.initial, [])

def stateAfter (log : List (Call × Op)) : State := (object.replay log).1

def results (log : List (Call × Op)) : List (Call × Res) := (object.replay log).2

@[simp] theorem stateAfter_nil :
    object.stateAfter ([] : List (Call × Op)) = object.initial := rfl

@[simp] theorem results_nil : object.results ([] : List (Call × Op)) = [] := rfl

@[simp] theorem stateAfter_concat (log : List (Call × Op)) (call : Call) (op : Op) :
    object.stateAfter (log ++ [(call, op)]) =
      (object.apply (object.stateAfter log) op).1 := by
  simp [stateAfter, replay, perform]

@[simp] theorem results_concat (log : List (Call × Op)) (call : Call) (op : Op) :
    object.results (log ++ [(call, op)]) =
      object.results log ++ [(call, (object.apply (object.stateAfter log) op).2)] := by
  simp [stateAfter, results, replay, perform]

/-- The state after a list of operations. -/
def after (ops : List Op) : State := object.stateAfter (ops.map fun op => ((), op))

/-- What a list of operations returns. -/
def answers (ops : List Op) : List Res :=
  (object.results (ops.map fun op => ((), op))).map Prod.snd

@[simp] theorem after_nil : object.after [] = object.initial := rfl

@[simp] theorem answers_nil : object.answers [] = [] := rfl

@[simp] theorem after_concat (ops : List Op) (op : Op) :
    object.after (ops ++ [op]) = (object.apply (object.after ops) op).1 := by
  simp [after]

@[simp] theorem answers_concat (ops : List Op) (op : Op) :
    object.answers (ops ++ [op]) =
      object.answers ops ++ [(object.apply (object.after ops) op).2] := by
  simp [answers, after]

section Calls

variable {Impl : Type*} (perform : Impl → Op → Option (Impl × Res))

/-- A sequence of calls on an implementation, with what they return. -/
def runCalls (impl : Impl) (ops : List Op) : Option (Impl × List Res) :=
  ops.foldlM (fun (impl, answers) op => do
    let (impl', answer) ← perform impl op
    return (impl', answers ++ [answer])) (impl, [])

theorem runCalls_concat {impl impl' impl'' : Impl} {ops : List Op} {answers : List Res} {op : Op}
    {answer : Res} (hrun : runCalls perform impl ops = some (impl', answers))
    (hop : perform impl' op = some (impl'', answer)) :
    runCalls perform impl (ops ++ [op]) = some (impl'', answers ++ [answer]) := by
  rw [runCalls] at hrun ⊢
  rw [List.foldlM_append, hrun]
  simp [hop]

/-- An implementation that answers each call as the object does, from related
states to related states, answers every sequence of calls so. -/
theorem runCalls_refines (Related : Impl → State → Prop)
    (hstep : ∀ impl s op, Related impl s → ∃ impl', perform impl op =
      some (impl', (object.apply s op).2) ∧ Related impl' (object.apply s op).1)
    {impl : Impl} (hinitial : Related impl object.initial) (ops : List Op) :
    ∃ impl', runCalls perform impl ops = some (impl', object.answers ops) ∧
      Related impl' (object.after ops) := by
  induction ops using List.reverseRecOn with
  | nil => exact ⟨impl, rfl, hinitial⟩
  | append_singleton ops op ih =>
      obtain ⟨impl₁, hrun, hrelated⟩ := ih
      obtain ⟨impl', hop, hrelated'⟩ := hstep impl₁ _ op hrelated
      refine ⟨impl', ?_, ?_⟩
      · rw [answers_concat]
        exact runCalls_concat perform hrun hop
      · rw [after_concat]
        exact hrelated'

end Calls

end SequentialObject

section Stack

/-- Operations of a last-in first-out stack. -/
inductive StackOp (V : Type*) where
  | push (value : V)
  | pop

/-- What a stack call returns: nothing for a push, and for a pop the value on
top or the empty answer. -/
inductive StackRes (V : Type*) where
  | pushed
  | popped (value : Option V)

/-- The sequential LIFO stack, top first. -/
def lifo (V : Type*) : SequentialObject (List V) (StackOp V) (StackRes V) where
  initial := []
  apply
    | stack, .push value => (value :: stack, .pushed)
    | stack, .pop => (stack.tail, .popped stack.head?)

variable {V Call : Type*}

@[simp] theorem lifo_initial : (lifo V).initial = [] := rfl

@[simp] theorem lifo_push (stack : List V) (value : V) :
    (lifo V).apply stack (.push value) = (value :: stack, .pushed) := rfl

@[simp] theorem lifo_pop (stack : List V) :
    (lifo V).apply stack .pop = (stack.tail, .popped stack.head?) := rfl

/-- The values a log pushes, oldest first. -/
def pushedValues (log : List (Call × StackOp V)) : List V :=
  log.filterMap fun event => match event.2 with
    | .push value => some value
    | .pop => none

/-- The values a list of results hands out, oldest first. -/
def poppedValues (results : List (Call × StackRes V)) : List V :=
  results.filterMap fun event => match event.2 with
    | .popped value => value
    | .pushed => none

/-- Replayed on a stack, every pushed value is either popped once or still there. -/
theorem lifo_conserves (log : List (Call × StackOp V)) :
    (pushedValues log).Perm
      (poppedValues ((lifo V).results log) ++ (lifo V).stateAfter log) := by
  induction log using List.reverseRecOn with
  | nil => exact .nil
  | append_singleton log event ih =>
      obtain ⟨call, op⟩ := event
      rw [SequentialObject.results_concat, SequentialObject.stateAfter_concat]
      generalize (lifo V).stateAfter log = stack at ih
      generalize (lifo V).results log = results at ih
      cases op with
      | push value =>
          have hpushed : (pushedValues log ++ [value]).Perm
              ((poppedValues results ++ stack) ++ [value]) := ih.append_right [value]
          have hswap : ((poppedValues results ++ stack) ++ [value]).Perm
              (poppedValues results ++ value :: stack) := by
            have hcomm : (stack ++ [value]).Perm ([value] ++ stack) := List.perm_append_comm
            rw [List.append_assoc]
            exact hcomm.append_left _
          simpa [pushedValues, poppedValues] using hpushed.trans hswap
      | pop =>
          cases stack <;> simpa [pushedValues, poppedValues] using ih

end Stack

section Queue

/-- Operations of a first-in first-out queue. -/
inductive QueueOp (V : Type*) where
  | push (value : V)
  | pop

def QueueOp.isPush {V : Type*} : QueueOp V → Bool
  | .push _ => true
  | .pop => false

/-- What a queue call returns: nothing for a push, and for a pop the oldest
value or the empty answer. -/
inductive QueueRes (V : Type*) where
  | pushed
  | popped (value : Option V)

/-- The sequential FIFO queue, oldest first. -/
def fifo (V : Type*) : SequentialObject (List V) (QueueOp V) (QueueRes V) where
  initial := []
  apply
    | queue, .push value => (queue ++ [value], .pushed)
    | queue, .pop => (queue.tail, .popped queue.head?)

variable {V : Type*}

@[simp] theorem fifo_initial : (fifo V).initial = [] := rfl

@[simp] theorem fifo_push (queue : List V) (value : V) :
    (fifo V).apply queue (.push value) = (queue ++ [value], .pushed) := rfl

@[simp] theorem fifo_pop (queue : List V) :
    (fifo V).apply queue .pop = (queue.tail, .popped queue.head?) := rfl

end Queue

end MoreCpp.Library
