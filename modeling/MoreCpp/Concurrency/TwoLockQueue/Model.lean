import MoreCpp.Library.LinkedCells
import MoreCpp.Library.TransitionSystem
import Mathlib.Tactic.Simps.Basic

/-!
`con::threadsafe_queue` of `concurrency/single_thread_queue.cpp`: a linked
queue with a dummy last node, `head` guarded by `head_mutex` and `tail` by
`tail_mutex`, and a condition variable for consumers. Every acquisition and
release of a mutex, every access to `head`, `tail` or a node, the blocking of
a waiter (which releases `head_mutex`) and every notification is a step of its
own. A waiter may also wake up spuriously. Node addresses are reused.

The number of acquisitions of `head_mutex`, the logs of pushed, popped and
delivered values and of the answers "empty" are bookkeeping that no step of
the code reads. A pop is stamped with the acquisition it was made under.
-/

namespace MoreCpp.TwoLockQueue

open Library

structure Node (Addr V : Type*) where
  data : Option V
  next : Option Addr

/-- The two overloads of `try_pop` and of `wait_and_pop`; `Into` marks the one
that moves the value into the caller's variable. -/
inductive PopKind where
  | tryPop
  | tryPopInto
  | waitAndPop
  | waitAndPopInto
  deriving DecidableEq

def PopKind.waits : PopKind → Bool
  | .waitAndPop | .waitAndPopInto => true
  | .tryPop | .tryPopInto => false

def PopKind.into : PopKind → Bool
  | .tryPopInto | .waitAndPopInto => true
  | .tryPop | .waitAndPop => false

/-- Program points, with the locals that are live there. -/
inductive Pc (Addr V : Type*) where
  | idle
  /-- `push`: `make_shared` and `new node`. -/
  | pushNew (value : V)
  /-- Acquire `tail_mutex`. -/
  | pushLock (value : V) (node : Addr)
  /-- `tail->data = new_data`. -/
  | pushData (value : V) (node : Addr)
  /-- `tail->next = std::move(p)`. -/
  | pushNext (value : V) (node : Addr)
  /-- `tail = new_tail`. -/
  | pushTail (value : V) (node : Addr)
  | pushUnlock
  /-- `data_cond.notify_one()`. -/
  | pushNotify
  /-- Acquire `head_mutex`, at the start of a pop or after a wake-up. -/
  | popLock (kind : PopKind)
  /-- `get_tail`: acquire `tail_mutex`, read `tail`, release. `empty` notes
  whether the queue was empty at the read. -/
  | popTailLock (kind : PopKind)
  | popReadTail (kind : PopKind)
  | popTailUnlock (kind : PopKind) (tail : Addr) (empty : Bool)
  /-- `head.get() == get_tail()`. -/
  | popTest (kind : PopKind) (tail : Addr) (empty : Bool)
  /-- The predicate of `wait` was false: about to release and block. -/
  | popWait (kind : PopKind)
  | popBlocked (kind : PopKind)
  /-- `value = std::move(*head->data)`. -/
  | popTake (kind : PopKind)
  /-- `pop_head`: `old_head = std::move(head)`. -/
  | popMove (kind : PopKind) (value : Option V)
  /-- `head = std::move(old_head->next)`. -/
  | popAdvance (kind : PopKind) (oldHead : Addr) (value : Option V)
  /-- Release `head_mutex`. -/
  | popUnlock (kind : PopKind) (oldHead : Addr) (value : Option V) (ticket : Nat)
  /-- `old_head->data`. -/
  | popResult (oldHead : Addr) (ticket : Nat)
  /-- The destructor of `old_head`, and the return. -/
  | popFree (oldHead : Addr) (result : Option V) (ticket : Nat)
  /-- `try_pop` found the queue empty: release `head_mutex` and return. -/
  | popEmpty (empty : Bool)
  | popEmptyReturn (empty : Bool)

namespace Pc

variable {Addr V : Type*}

def HoldsHead : Pc Addr V → Bool
  | .popTailLock _ | .popReadTail _ | .popTailUnlock _ _ _ | .popTest _ _ _ | .popWait _
  | .popTake _ | .popMove _ _ | .popAdvance _ _ _ | .popUnlock _ _ _ _ | .popEmpty _ => true
  | _ => false

def HoldsTail : Pc Addr V → Bool
  | .pushData _ _ | .pushNext _ _ | .pushTail _ _ | .pushUnlock
  | .popReadTail _ | .popTailUnlock _ _ _ => true
  | _ => false

/-- Blocked in `wait` and not notified. -/
def Blocked : Pc Addr V → Bool
  | .popBlocked _ => true
  | _ => false

/-- Past the test `head.get() != get_tail()` and not yet past `pop_head`. -/
def Proceeds : Pc Addr V → Bool
  | .popTake _ | .popMove _ _ => true
  | _ => false

end Pc

structure State (Tid Addr V : Type*) where
  heap : Addr → Option (Node Addr V)
  head : Option Addr
  tail : Addr
  headMutex : Option Tid
  tailMutex : Option Tid
  pc : Tid → Pc Addr V
  /-- Acquisitions of `head_mutex` so far. -/
  headAcquired : Nat
  /-- Values of the pushes, in the order they acquired `tail_mutex`. -/
  pushed : List V
  /-- Pushes that have moved `tail`. -/
  published : Nat
  /-- What `pop_head` unlinked, each with its acquisition of `head_mutex`. -/
  popped : List (Nat × Option V)
  /-- What the pops handed to their callers. -/
  delivered : List (Nat × Option V)
  /-- For each pop that reported empty: was the queue empty when it read `tail`? -/
  emptyReports : List Bool

variable {Tid Addr V : Type*}

section

variable [DecidableEq Addr]

/-- The constructor: `head(new node), tail(head.get())`. -/
def State.initial (Tid : Type*) (V : Type*) (dummy : Addr) : State Tid Addr V where
  heap := Function.update (fun _ => none) dummy (some ⟨none, none⟩)
  head := some dummy
  tail := dummy
  headMutex := none
  tailMutex := none
  pc := fun _ => .idle
  headAcquired := 0
  pushed := []
  published := 0
  popped := []
  delivered := []
  emptyReports := []

end

namespace State

variable (s : State Tid Addr V) [DecidableEq Tid] [DecidableEq Addr]

@[simps -fullyApplied] def goto (t : Tid) (pc : Pc Addr V) : State Tid Addr V :=
  { s with pc := Function.update s.pc t pc }

@[simps -fullyApplied] def store (addr : Addr) (cell : Option (Node Addr V)) :
    State Tid Addr V :=
  { s with heap := Function.update s.heap addr cell }

@[simps -fullyApplied] def lockHead (t : Tid) : State Tid Addr V :=
  { s with headMutex := some t, headAcquired := s.headAcquired + 1 }

@[simps -fullyApplied] def unlockHead : State Tid Addr V :=
  { s with headMutex := none }

@[simps -fullyApplied] def lockTail (t : Tid) : State Tid Addr V :=
  { s with tailMutex := some t }

@[simps -fullyApplied] def unlockTail : State Tid Addr V :=
  { s with tailMutex := none }

end State

variable [DecidableEq Tid] [DecidableEq Addr]

/-- The steps of thread `t`. -/
inductive Step : State Tid Addr V → Tid → State Tid Addr V → Prop where
  | callPush {s : State Tid Addr V} {t : Tid} (value : V) (hpc : s.pc t = .idle) :
      Step s t (s.goto t (.pushNew value))
  | callPop {s : State Tid Addr V} {t : Tid} (kind : PopKind) (hpc : s.pc t = .idle) :
      Step s t (s.goto t (.popLock kind))
  | pushNew {s : State Tid Addr V} {t : Tid} {value : V} (addr : Addr)
      (hpc : s.pc t = .pushNew value) (hfree : s.heap addr = none) :
      Step s t ((s.store addr (some ⟨none, none⟩)).goto t (.pushLock value addr))
  /-- An allocation throws. -/
  | pushThrow {s : State Tid Addr V} {t : Tid} {value : V} (hpc : s.pc t = .pushNew value) :
      Step s t (s.goto t .idle)
  | pushLock {s : State Tid Addr V} {t : Tid} {value : V} {p : Addr}
      (hpc : s.pc t = .pushLock value p) (hmutex : s.tailMutex = none) :
      Step s t
        ({ s.lockTail t with pushed := s.pushed ++ [value] }.goto t (.pushData value p))
  | pushData {s : State Tid Addr V} {t : Tid} {value : V} {p : Addr} {node : Node Addr V}
      (hpc : s.pc t = .pushData value p) (hnode : s.heap s.tail = some node) :
      Step s t
        ((s.store s.tail (some { node with data := some value })).goto t (.pushNext value p))
  | pushNext {s : State Tid Addr V} {t : Tid} {value : V} {p : Addr} {node : Node Addr V}
      (hpc : s.pc t = .pushNext value p) (hnode : s.heap s.tail = some node) :
      Step s t
        ((s.store s.tail (some { node with next := some p })).goto t (.pushTail value p))
  | pushTail {s : State Tid Addr V} {t : Tid} {value : V} {p : Addr}
      (hpc : s.pc t = .pushTail value p) :
      Step s t ({ s with tail := p, published := s.published + 1 }.goto t .pushUnlock)
  | pushUnlock {s : State Tid Addr V} {t : Tid} (hpc : s.pc t = .pushUnlock) :
      Step s t (s.unlockTail.goto t .pushNotify)
  /-- `notify_one` wakes one of the blocked waiters. -/
  | notifyOne {s : State Tid Addr V} {t u : Tid} {kind : PopKind}
      (hpc : s.pc t = .pushNotify) (hblocked : s.pc u = .popBlocked kind) :
      Step s t ((s.goto u (.popLock kind)).goto t .idle)
  /-- `notify_one` with nobody blocked does nothing. -/
  | notifyNobody {s : State Tid Addr V} {t : Tid}
      (hpc : s.pc t = .pushNotify) (hnobody : ∀ u, (s.pc u).Blocked = false) :
      Step s t (s.goto t .idle)
  | popLock {s : State Tid Addr V} {t : Tid} {kind : PopKind}
      (hpc : s.pc t = .popLock kind) (hmutex : s.headMutex = none) :
      Step s t ((s.lockHead t).goto t (.popTailLock kind))
  | popTailLock {s : State Tid Addr V} {t : Tid} {kind : PopKind}
      (hpc : s.pc t = .popTailLock kind) (hmutex : s.tailMutex = none) :
      Step s t ((s.lockTail t).goto t (.popReadTail kind))
  | popReadTail {s : State Tid Addr V} {t : Tid} {kind : PopKind}
      (hpc : s.pc t = .popReadTail kind) :
      Step s t (s.goto t (.popTailUnlock kind s.tail
        (decide (s.published = s.popped.length))))
  | popTailUnlock {s : State Tid Addr V} {t : Tid} {kind : PopKind} {tail : Addr}
      {empty : Bool} (hpc : s.pc t = .popTailUnlock kind tail empty) :
      Step s t (s.unlockTail.goto t (.popTest kind tail empty))
  /-- The test finds `head` and `tail` equal: block, or report empty. -/
  | popTestEqual {s : State Tid Addr V} {t : Tid} {kind : PopKind} {tail : Addr}
      {empty : Bool} (hpc : s.pc t = .popTest kind tail empty)
      (hequal : s.head = some tail) :
      Step s t (s.goto t (if kind.waits then .popWait kind else .popEmpty empty))
  | popTestDiffer {s : State Tid Addr V} {t : Tid} {kind : PopKind} {tail : Addr}
      {empty : Bool} (hpc : s.pc t = .popTest kind tail empty)
      (hdiffer : s.head ≠ some tail) :
      Step s t (s.goto t (if kind.into then .popTake kind else .popMove kind none))
  | popWait {s : State Tid Addr V} {t : Tid} {kind : PopKind}
      (hpc : s.pc t = .popWait kind) :
      Step s t (s.unlockHead.goto t (.popBlocked kind))
  | popWakeSpuriously {s : State Tid Addr V} {t : Tid} {kind : PopKind}
      (hpc : s.pc t = .popBlocked kind) :
      Step s t (s.goto t (.popLock kind))
  | popTake {s : State Tid Addr V} {t : Tid} {kind : PopKind} {addr : Addr}
      {node : Node Addr V} {value : V} (hpc : s.pc t = .popTake kind)
      (hhead : s.head = some addr) (hnode : s.heap addr = some node)
      (hdata : node.data = some value) :
      Step s t (s.goto t (.popMove kind (some value)))
  | popMove {s : State Tid Addr V} {t : Tid} {kind : PopKind} {value : Option V}
      {addr : Addr} (hpc : s.pc t = .popMove kind value) (hhead : s.head = some addr) :
      Step s t ({ s with head := none }.goto t (.popAdvance kind addr value))
  | popAdvance {s : State Tid Addr V} {t : Tid} {kind : PopKind} {oldHead : Addr}
      {value : Option V} {node : Node Addr V}
      (hpc : s.pc t = .popAdvance kind oldHead value) (hnode : s.heap oldHead = some node) :
      Step s t
        ({ s.store oldHead (some { node with next := none }) with
            head := node.next
            popped := s.popped ++ [(s.headAcquired, node.data)] }.goto t
          (.popUnlock kind oldHead value s.headAcquired))
  | popUnlock {s : State Tid Addr V} {t : Tid} {kind : PopKind} {oldHead : Addr}
      {value : Option V} {ticket : Nat}
      (hpc : s.pc t = .popUnlock kind oldHead value ticket) :
      Step s t (s.unlockHead.goto t
        (if kind.into then .popFree oldHead value ticket else .popResult oldHead ticket))
  | popResult {s : State Tid Addr V} {t : Tid} {oldHead : Addr} {ticket : Nat}
      {node : Node Addr V}
      (hpc : s.pc t = .popResult oldHead ticket) (hnode : s.heap oldHead = some node) :
      Step s t (s.goto t (.popFree oldHead node.data ticket))
  | popFree {s : State Tid Addr V} {t : Tid} {oldHead : Addr} {result : Option V}
      {ticket : Nat}
      (hpc : s.pc t = .popFree oldHead result ticket) (hnode : s.heap oldHead ≠ none) :
      Step s t
        ({ s.store oldHead none with
            delivered := s.delivered ++ [(ticket, result)] }.goto t .idle)
  | popEmpty {s : State Tid Addr V} {t : Tid} {empty : Bool}
      (hpc : s.pc t = .popEmpty empty) :
      Step s t (s.unlockHead.goto t (.popEmptyReturn empty))
  | popEmptyReturn {s : State Tid Addr V} {t : Tid} {empty : Bool}
      (hpc : s.pc t = .popEmptyReturn empty) :
      Step s t ({ s with emptyReports := s.emptyReports ++ [empty] }.goto t .idle)

/-- Any number of threads making any calls on one newly constructed queue. -/
def system (Tid Addr V : Type*) [DecidableEq Tid] [DecidableEq Addr] :
    System (State Tid Addr V) Tid where
  Init s := ∃ dummy, s = State.initial Tid V dummy
  Step := Step

end MoreCpp.TwoLockQueue
