import MoreCpp.Library.SequentialObject
import MoreCpp.Library.TransitionSystem
import Mathlib.Tactic.Simps.Basic

/-!
`concurrency/lock_free_stack.cpp`, one transition per atomic step. A thread
outside any call is `idle`; a call moves through the program points of
`emplace`, or of `pop` with `increase_head_count` written out, and every
access to `head_`, to a node's `next`, `data` or `internal_count`, every `new`
and every `delete` is a step of its own. Interleavings are sequentially
consistent and `count_type` is an unbounded integer (`counters_bounded` bounds
every count by the length of the run).

Node addresses are reused: `new` may return any address that holds no node.
Because an address therefore does not identify a node, each `new` also stamps
the node with a birth number. Births, the logs of unlinked and deleted births
and the history of calls are bookkeeping that no step of the code reads.
-/

namespace MoreCpp.LockFreeStack

open Library

/-- `counted_node_ptr`: what `head_` holds and what a CAS compares. -/
structure CountedNodePtr (Addr : Type*) where
  externalCount : Int
  ptr : Option Addr
  deriving DecidableEq

structure Node (Addr V : Type*) where
  data : Option V
  internalCount : Int
  next : CountedNodePtr Addr
  birth : Nat

/-- A `node*` held by a call. The address is all the code has; `birth` records
which node the address meant when the call obtained it. -/
structure NodeRef (Addr : Type*) where
  addr : Addr
  birth : Nat
  deriving DecidableEq

/-- Program points, with the locals that are live there. Where a call has
reserved or unlinked `ptr`, its local `old_head` is `{count, ptr}`. -/
inductive Pc (Addr V : Type*) where
  | idle
  /-- `emplace`: evaluate `new node(args...)`. -/
  | emplaceNew (value : V)
  /-- `new_head.ptr->next = head_.load()`. -/
  | emplaceLoad (node : NodeRef Addr) (value : V)
  /-- `head_.compare_exchange_weak(new_head.ptr->next, new_head)`. -/
  | emplaceCas (node : NodeRef Addr) (value : V)
  | emplaceReturn
  /-- `pop`: `old_head = head_.load()`. -/
  | popLoad
  /-- `increase_head_count`: the null test and the reserving CAS. -/
  | popIncrease (oldHead : CountedNodePtr Addr)
  /-- Read `ptr->next` for the unlinking CAS. -/
  | popNext (count : Int) (ptr : NodeRef Addr)
  /-- `head_.compare_exchange_strong(old_head, next)`. -/
  | popCas (count : Int) (ptr : NodeRef Addr) (next : CountedNodePtr Addr)
  /-- `result.swap(ptr->data)`. -/
  | popSwap (count : Int) (ptr : NodeRef Addr)
  /-- `ptr->internal_count.fetch_add(count_increase)`. -/
  | popTransfer (count : Int) (ptr : NodeRef Addr) (result : Option V)
  /-- `delete ptr` on the successful path. -/
  | popDelete (ptr : NodeRef Addr) (result : Option V)
  | popReturn (result : Option V)
  /-- `ptr->internal_count.fetch_sub(1)` after a failed unlinking CAS. -/
  | popRelease (ptr : NodeRef Addr) (oldHead : CountedNodePtr Addr)
  /-- `ptr->internal_count.load(acquire)`. -/
  | popFence (ptr : NodeRef Addr) (oldHead : CountedNodePtr Addr)
  /-- `delete ptr` on the failed path. -/
  | popRetryDelete (ptr : NodeRef Addr) (oldHead : CountedNodePtr Addr)

namespace Pc

variable {Addr V : Type*}

/-- The node a call keeps a pointer to. Every step that reads, writes or
deletes a node does so at the node its call `touches`. -/
def touches : Pc Addr V → Option (NodeRef Addr)
  | .emplaceLoad node _ | .emplaceCas node _ => some node
  | .popNext _ ptr | .popCas _ ptr _ | .popSwap _ ptr | .popTransfer _ ptr _
  | .popDelete ptr _ | .popRelease ptr _ | .popFence ptr _
  | .popRetryDelete ptr _ => some ptr
  | _ => none

/-- The node a pop has reserved by its successful `increase_head_count` and
not yet given up through `internal_count`. -/
def reserves : Pc Addr V → Option Addr
  | .popNext _ ptr | .popCas _ ptr _ | .popSwap _ ptr | .popTransfer _ ptr _
  | .popRelease ptr _ => some ptr.addr
  | _ => none

/-- The node the next step deletes. -/
def deletes : Pc Addr V → Option (NodeRef Addr)
  | .popDelete ptr _ | .popRetryDelete ptr _ => some ptr
  | _ => none

end Pc

structure State (Tid Addr V : Type*) where
  heap : Addr → Option (Node Addr V)
  head : CountedNodePtr Addr
  pc : Tid → Pc Addr V
  /-- Number of nodes made so far: the next birth. -/
  births : Nat
  /-- Births unlinked from `head_` by a pop, oldest first. -/
  unlinked : List Nat
  /-- Births deleted, oldest first. -/
  deleted : List Nat
  /-- Number of calls made so far, and the number of each thread's last call. -/
  calls : Nat
  callOf : Tid → Nat
  /-- The calls in the order of their successful `head_` CAS, an
  empty-returning pop standing where it read a null `head_`. -/
  log : List (Nat × StackOp V)
  /-- The calls that returned, with their results. -/
  returned : List (Nat × StackRes V)

variable {Tid Addr V : Type*}

def State.initial (Tid Addr V : Type*) : State Tid Addr V where
  heap := fun _ => none
  head := ⟨0, none⟩
  pc := fun _ => .idle
  births := 0
  unlinked := []
  deleted := []
  calls := 0
  callOf := fun _ => 0
  log := []
  returned := []

namespace State

variable (s : State Tid Addr V)

/-- The call `t` is in takes effect. -/
@[simps -fullyApplied] def effect (t : Tid) (op : StackOp V) : State Tid Addr V :=
  { s with log := s.log ++ [(s.callOf t, op)] }

/-- The birth of the node at an address, and the next birth where there is none. -/
def birthAt (addr : Addr) : Nat :=
  match s.heap addr with
  | some node => node.birth
  | none => s.births

/-- A pop has just read `head_`: if it read null it will return empty. -/
def observe (t : Tid) : State Tid Addr V :=
  if s.head.ptr = none then s.effect t .pop else s

@[simp] theorem observe_heap (t : Tid) : (s.observe t).heap = s.heap := by
  unfold observe; split <;> rfl

@[simp] theorem observe_head (t : Tid) : (s.observe t).head = s.head := by
  unfold observe; split <;> rfl

@[simp] theorem observe_pc (t : Tid) : (s.observe t).pc = s.pc := by
  unfold observe; split <;> rfl

@[simp] theorem observe_births (t : Tid) : (s.observe t).births = s.births := by
  unfold observe; split <;> rfl

@[simp] theorem observe_unlinked (t : Tid) : (s.observe t).unlinked = s.unlinked := by
  unfold observe; split <;> rfl

@[simp] theorem observe_deleted (t : Tid) : (s.observe t).deleted = s.deleted := by
  unfold observe; split <;> rfl

@[simps -fullyApplied] def finish (t : Tid) (res : StackRes V) : State Tid Addr V :=
  { s with returned := s.returned ++ [(s.callOf t, res)] }

variable [DecidableEq Tid] [DecidableEq Addr]

@[simps -fullyApplied] def goto (t : Tid) (pc : Pc Addr V) : State Tid Addr V :=
  { s with pc := Function.update s.pc t pc }

@[simps -fullyApplied] def store (addr : Addr) (node : Node Addr V) : State Tid Addr V :=
  { s with heap := Function.update s.heap addr (some node) }

/-- `new node(value)` at `addr`. -/
@[simps -fullyApplied] def allocate (addr : Addr) (value : V) : State Tid Addr V :=
  { s with heap := Function.update s.heap addr (some ⟨some value, 0, ⟨0, none⟩, s.births⟩)
           births := s.births + 1 }

@[simps -fullyApplied] def free (ptr : NodeRef Addr) : State Tid Addr V :=
  { s with heap := Function.update s.heap ptr.addr none
           deleted := s.deleted ++ [ptr.birth] }

/-- A thread enters a call, which gets the next call number. -/
@[simps -fullyApplied] def invoke (t : Tid) : State Tid Addr V :=
  { s with calls := s.calls + 1, callOf := Function.update s.callOf t s.calls }

end State

variable [DecidableEq Tid] [DecidableEq Addr]

/-- The steps of thread `t`. -/
inductive Step : State Tid Addr V → Tid → State Tid Addr V → Prop where
  | callEmplace {s : State Tid Addr V} {t : Tid} (value : V)
      (hpc : s.pc t = .idle) :
      Step s t ((s.invoke t).goto t (.emplaceNew value))
  | callPop {s : State Tid Addr V} {t : Tid}
      (hpc : s.pc t = .idle) :
      Step s t ((s.invoke t).goto t .popLoad)
  /-- `new node`: any address without a node, `internal_count{0}`, `next{}`. -/
  | emplaceNew {s : State Tid Addr V} {t : Tid} {value : V} (addr : Addr)
      (hpc : s.pc t = .emplaceNew value) (hfree : s.heap addr = none) :
      Step s t
        ((s.allocate addr value).goto t (.emplaceLoad ⟨addr, s.births⟩ value))
  /-- The allocation or the element's constructor throws. -/
  | emplaceThrow {s : State Tid Addr V} {t : Tid} {value : V}
      (hpc : s.pc t = .emplaceNew value) :
      Step s t (s.goto t .idle)
  | emplaceLoad {s : State Tid Addr V} {t : Tid} {ref : NodeRef Addr} {value : V}
      {node : Node Addr V}
      (hpc : s.pc t = .emplaceLoad ref value) (hnode : s.heap ref.addr = some node) :
      Step s t
        ((s.store ref.addr { node with next := s.head }).goto t (.emplaceCas ref value))
  | emplaceCas {s : State Tid Addr V} {t : Tid} {ref : NodeRef Addr} {value : V}
      {node : Node Addr V}
      (hpc : s.pc t = .emplaceCas ref value) (hnode : s.heap ref.addr = some node)
      (hequal : s.head = node.next) :
      Step s t
        (({ s with head := ⟨1, some ref.addr⟩ }.effect t (.push value)).goto t .emplaceReturn)
  /-- A weak CAS may fail although the values are equal. -/
  | emplaceCasFail {s : State Tid Addr V} {t : Tid} {ref : NodeRef Addr} {value : V}
      {node : Node Addr V}
      (hpc : s.pc t = .emplaceCas ref value) (hnode : s.heap ref.addr = some node) :
      Step s t
        ((s.store ref.addr { node with next := s.head }).goto t (.emplaceCas ref value))
  | emplaceReturn {s : State Tid Addr V} {t : Tid}
      (hpc : s.pc t = .emplaceReturn) :
      Step s t ((s.finish t .pushed).goto t .idle)
  | popLoad {s : State Tid Addr V} {t : Tid}
      (hpc : s.pc t = .popLoad) :
      Step s t ((s.observe t).goto t (.popIncrease s.head))
  /-- `increase_head_count` returns false: the pop returns the empty pointer. -/
  | popEmpty {s : State Tid Addr V} {t : Tid} {oldHead : CountedNodePtr Addr}
      (hpc : s.pc t = .popIncrease oldHead) (hnull : oldHead.ptr = none) :
      Step s t (s.goto t (.popReturn none))
  | popIncrease {s : State Tid Addr V} {t : Tid} {oldHead : CountedNodePtr Addr}
      {addr : Addr}
      (hpc : s.pc t = .popIncrease oldHead) (hptr : oldHead.ptr = some addr)
      (hequal : s.head = oldHead) :
      Step s t
        ({ s with head := ⟨oldHead.externalCount + 1, some addr⟩ }.goto t
          (.popNext (oldHead.externalCount + 1) ⟨addr, s.birthAt addr⟩))
  | popIncreaseFail {s : State Tid Addr V} {t : Tid} {oldHead : CountedNodePtr Addr}
      {addr : Addr}
      (hpc : s.pc t = .popIncrease oldHead) (hptr : oldHead.ptr = some addr)
      (hdiffer : s.head ≠ oldHead) :
      Step s t ((s.observe t).goto t (.popIncrease s.head))
  | popNext {s : State Tid Addr V} {t : Tid} {count : Int} {ref : NodeRef Addr}
      {node : Node Addr V}
      (hpc : s.pc t = .popNext count ref) (hnode : s.heap ref.addr = some node) :
      Step s t (s.goto t (.popCas count ref node.next))
  | popCas {s : State Tid Addr V} {t : Tid} {count : Int} {ref : NodeRef Addr}
      {next : CountedNodePtr Addr}
      (hpc : s.pc t = .popCas count ref next)
      (hequal : s.head = ⟨count, some ref.addr⟩) :
      Step s t
        (({ s with head := next, unlinked := s.unlinked ++ [ref.birth] }.effect t .pop).goto t
          (.popSwap count ref))
  | popCasFail {s : State Tid Addr V} {t : Tid} {count : Int} {ref : NodeRef Addr}
      {next : CountedNodePtr Addr}
      (hpc : s.pc t = .popCas count ref next)
      (hdiffer : s.head ≠ ⟨count, some ref.addr⟩) :
      Step s t ((s.observe t).goto t (.popRelease ref s.head))
  | popSwap {s : State Tid Addr V} {t : Tid} {count : Int} {ref : NodeRef Addr}
      {node : Node Addr V}
      (hpc : s.pc t = .popSwap count ref) (hnode : s.heap ref.addr = some node) :
      Step s t
        ((s.store ref.addr { node with data := none }).goto t
          (.popTransfer count ref node.data))
  | popTransfer {s : State Tid Addr V} {t : Tid} {count : Int} {ref : NodeRef Addr}
      {result : Option V} {node : Node Addr V}
      (hpc : s.pc t = .popTransfer count ref result)
      (hnode : s.heap ref.addr = some node) :
      Step s t
        ((s.store ref.addr { node with internalCount := node.internalCount + (count - 2) }).goto t
          (if node.internalCount = -(count - 2) then .popDelete ref result
            else .popReturn result))
  | popDelete {s : State Tid Addr V} {t : Tid} {ref : NodeRef Addr} {result : Option V}
      (hpc : s.pc t = .popDelete ref result) (hnode : s.heap ref.addr ≠ none) :
      Step s t ((s.free ref).goto t (.popReturn result))
  | popReturn {s : State Tid Addr V} {t : Tid} {result : Option V}
      (hpc : s.pc t = .popReturn result) :
      Step s t ((s.finish t (.popped result)).goto t .idle)
  | popRelease {s : State Tid Addr V} {t : Tid} {ref : NodeRef Addr}
      {oldHead : CountedNodePtr Addr} {node : Node Addr V}
      (hpc : s.pc t = .popRelease ref oldHead) (hnode : s.heap ref.addr = some node) :
      Step s t
        ((s.store ref.addr { node with internalCount := node.internalCount - 1 }).goto t
          (if node.internalCount = 1 then .popFence ref oldHead else .popIncrease oldHead))
  | popFence {s : State Tid Addr V} {t : Tid} {ref : NodeRef Addr}
      {oldHead : CountedNodePtr Addr}
      (hpc : s.pc t = .popFence ref oldHead) (hnode : s.heap ref.addr ≠ none) :
      Step s t (s.goto t (.popRetryDelete ref oldHead))
  | popRetryDelete {s : State Tid Addr V} {t : Tid} {ref : NodeRef Addr}
      {oldHead : CountedNodePtr Addr}
      (hpc : s.pc t = .popRetryDelete ref oldHead) (hnode : s.heap ref.addr ≠ none) :
      Step s t ((s.free ref).goto t (.popIncrease oldHead))

/-- Any number of threads making any calls on one initially empty stack. -/
def system (Tid Addr V : Type*) [DecidableEq Tid] [DecidableEq Addr] :
    System (State Tid Addr V) Tid where
  Init s := s = State.initial Tid Addr V
  Step := Step

end MoreCpp.LockFreeStack
