import MoreCpp.Library.ClosableFifo
import Mathlib.Logic.Function.Basic
import Mathlib.Tactic.Simps.Basic

/-!
The `threadsafe_queue` of `concurrency/thread_queue.cpp`, which can be closed,
and its worker pool. Acquiring and releasing a mutex, the tests and updates
made under `queue_mutex`, blocking (which releases `queue_mutex`) and the
notifications, which are sent after the release, are steps of their own. A
waiter may wake up spuriously. Printing and sleeping are left out, and
allocations succeed.

The log of what happened under `queue_mutex` and the list of jobs done are
bookkeeping that no step of the code reads.
-/

namespace MoreCpp.ClosableQueue

open Library

inductive PopKind where
  | tryPop
  | waitAndPop
  deriving DecidableEq

/-- Program points, with the locals that are live there. -/
inductive Pc (V : Type*) where
  /-- Outside any call; for a worker, not started yet. -/
  | idle
  | pushLock (value : V)
  /-- `if (closed)`. -/
  | pushTest (value : V)
  /-- Throwing: the destructor of `lock` releases `queue_mutex`. -/
  | pushThrow
  /-- `data_queue.push(std::move(value))`. -/
  | pushStore (value : V)
  | pushUnlock
  /-- `data_ready.notify_one()`. -/
  | pushNotify
  | tryLock
  /-- Acquire `queue_mutex`, at the start of `wait_and_pop` or after a wake-up. -/
  | waitLock
  /-- The predicate `closed || !data_queue.empty()`. -/
  | waitTest
  /-- The predicate was false: about to release `queue_mutex` and block. -/
  | waitSleep
  | blocked
  /-- `if (data_queue.empty())`. -/
  | popTest (kind : PopKind)
  /-- Move `data_queue.front()` out and pop it. -/
  | popTake (kind : PopKind)
  /-- Release `queue_mutex` and return. -/
  | popReturn (kind : PopKind) (result : Option V)
  | closeLock
  /-- `closed = true`. -/
  | closeSet
  | closeUnlock
  /-- `data_ready.notify_all()`. -/
  | closeNotify
  /-- `worker_loop` has a job and is about to acquire `processed_mutex`. -/
  | working (job : V)
  /-- `processed.push_back`. -/
  | recording (job : V)
  /-- About to release `processed_mutex`. -/
  | recorded
  /-- `worker_loop` has returned. -/
  | exited

namespace Pc

variable {V : Type*}

def HoldsQueue : Pc V → Bool
  | .pushTest _ | .pushThrow | .pushStore _ | .pushUnlock | .waitTest | .waitSleep
  | .popTest _ | .popTake _ | .popReturn _ _ | .closeSet | .closeUnlock => true
  | _ => false

def HoldsProcessed : Pc V → Bool
  | .recording _ | .recorded => true
  | _ => false

/-- Blocked in `wait` and not notified. -/
def Blocked : Pc V → Bool
  | .blocked => true
  | _ => false

/-- Outside any call on the queue. -/
def Outside : Pc V → Bool
  | .idle | .working _ | .recording _ | .recorded | .exited => true
  | _ => false

end Pc

structure State (Tid V R : Type*) where
  items : List V
  closed : Bool
  queueMutex : Option Tid
  processed : List R
  processedMutex : Option Tid
  pc : Tid → Pc V
  /-- What happened under `queue_mutex`, oldest first. -/
  log : List (ClosableEvent Tid V)
  /-- The jobs behind `processed`, with their workers. -/
  done : List (Tid × V)

variable {Tid V R : Type*}

def State.initial (Tid V R : Type*) : State Tid V R where
  items := []
  closed := false
  queueMutex := none
  processed := []
  processedMutex := none
  pc := fun _ => .idle
  log := []
  done := []

namespace State

variable (s : State Tid V R) [DecidableEq Tid]

@[simps -fullyApplied] def goto (t : Tid) (pc : Pc V) : State Tid V R :=
  { s with pc := Function.update s.pc t pc }

@[simps -fullyApplied] def lock (t : Tid) : State Tid V R :=
  { s with queueMutex := some t }

@[simps -fullyApplied] def unlock : State Tid V R :=
  { s with queueMutex := none }

/-- An update made under `queue_mutex`, with its entry in the log. -/
@[simps -fullyApplied] def update (queue : ClosableFifo V) (event : ClosableEvent Tid V) :
    State Tid V R :=
  { s with items := queue.items, closed := queue.closed, log := s.log ++ [event] }

/-- Every blocked waiter goes back to acquiring `queue_mutex`. -/
@[simps -fullyApplied] def wakeAll : State Tid V R :=
  { s with pc := fun t => if (s.pc t).Blocked then .waitLock else s.pc t }

end State

/-- The log entry of a pop. -/
def PopKind.event (kind : PopKind) (t : Tid) (result : Option V) : ClosableEvent Tid V :=
  match kind with
  | .tryPop => .poll t result
  | .waitAndPop => .await t result

variable [DecidableEq Tid]

section Step

variable (worker : Tid → Bool) (record : Tid → V → R)

/-- Where a pop returns to: `worker_loop` works on the job or ends. -/
def afterPop (t : Tid) (result : Option V) : Pc V :=
  if worker t then
    match result with
    | some job => .working job
    | none => .exited
  else .idle

/-- The steps of thread `t`. The threads `worker` selects run `worker_loop`, the
others make any calls; `record` is what a worker adds to `processed` for a job. -/
inductive Step : State Tid V R → Tid → State Tid V R → Prop where
  | startWorker {s : State Tid V R} {t : Tid} (hworker : worker t = true)
      (hpc : s.pc t = .idle) : Step s t (s.goto t .waitLock)
  | callPush {s : State Tid V R} {t : Tid} (value : V) (hclient : worker t = false)
      (hpc : s.pc t = .idle) : Step s t (s.goto t (.pushLock value))
  | callTryPop {s : State Tid V R} {t : Tid} (hclient : worker t = false)
      (hpc : s.pc t = .idle) : Step s t (s.goto t .tryLock)
  | callWaitAndPop {s : State Tid V R} {t : Tid} (hclient : worker t = false)
      (hpc : s.pc t = .idle) : Step s t (s.goto t .waitLock)
  | callClose {s : State Tid V R} {t : Tid} (hclient : worker t = false)
      (hpc : s.pc t = .idle) : Step s t (s.goto t .closeLock)
  | pushLock {s : State Tid V R} {t : Tid} {value : V} (hpc : s.pc t = .pushLock value)
      (hmutex : s.queueMutex = none) : Step s t ((s.lock t).goto t (.pushTest value))
  | pushTestClosed {s : State Tid V R} {t : Tid} {value : V}
      (hpc : s.pc t = .pushTest value) (hclosed : s.closed = true) :
      Step s t
        ((s.update ⟨s.items, s.closed⟩ (.push t value false)).goto t .pushThrow)
  | pushTestOpen {s : State Tid V R} {t : Tid} {value : V}
      (hpc : s.pc t = .pushTest value) (hopen : s.closed = false) :
      Step s t (s.goto t (.pushStore value))
  | pushThrow {s : State Tid V R} {t : Tid} (hpc : s.pc t = .pushThrow) :
      Step s t (s.unlock.goto t .idle)
  | pushStore {s : State Tid V R} {t : Tid} {value : V} (hpc : s.pc t = .pushStore value) :
      Step s t
        ((s.update ⟨s.items ++ [value], s.closed⟩ (.push t value true)).goto t .pushUnlock)
  | pushUnlock {s : State Tid V R} {t : Tid} (hpc : s.pc t = .pushUnlock) :
      Step s t (s.unlock.goto t .pushNotify)
  /-- `notify_one` wakes one of the blocked waiters. -/
  | notifyOne {s : State Tid V R} {t u : Tid} (hpc : s.pc t = .pushNotify)
      (hblocked : s.pc u = .blocked) : Step s t ((s.goto u .waitLock).goto t .idle)
  /-- `notify_one` with nobody blocked does nothing. -/
  | notifyNobody {s : State Tid V R} {t : Tid} (hpc : s.pc t = .pushNotify)
      (hnobody : ∀ u, s.pc u ≠ .blocked) : Step s t (s.goto t .idle)
  | tryLock {s : State Tid V R} {t : Tid} (hpc : s.pc t = .tryLock)
      (hmutex : s.queueMutex = none) : Step s t ((s.lock t).goto t (.popTest .tryPop))
  | waitLock {s : State Tid V R} {t : Tid} (hpc : s.pc t = .waitLock)
      (hmutex : s.queueMutex = none) : Step s t ((s.lock t).goto t .waitTest)
  | waitTestReady {s : State Tid V R} {t : Tid} (hpc : s.pc t = .waitTest)
      (hready : s.closed = true ∨ s.items ≠ []) :
      Step s t (s.goto t (.popTest .waitAndPop))
  | waitTestNotReady {s : State Tid V R} {t : Tid} (hpc : s.pc t = .waitTest)
      (hopen : s.closed = false) (hempty : s.items = []) : Step s t (s.goto t .waitSleep)
  | waitSleep {s : State Tid V R} {t : Tid} (hpc : s.pc t = .waitSleep) :
      Step s t (s.unlock.goto t .blocked)
  | wakeSpuriously {s : State Tid V R} {t : Tid} (hpc : s.pc t = .blocked) :
      Step s t (s.goto t .waitLock)
  | popTestEmpty {s : State Tid V R} {t : Tid} {kind : PopKind}
      (hpc : s.pc t = .popTest kind) (hempty : s.items = []) :
      Step s t
        ((s.update ⟨s.items, s.closed⟩ (kind.event t none)).goto t (.popReturn kind none))
  | popTestSome {s : State Tid V R} {t : Tid} {kind : PopKind}
      (hpc : s.pc t = .popTest kind) (hsome : s.items ≠ []) :
      Step s t (s.goto t (.popTake kind))
  | popTake {s : State Tid V R} {t : Tid} {kind : PopKind} {value : V} {rest : List V}
      (hpc : s.pc t = .popTake kind) (hitems : s.items = value :: rest) :
      Step s t
        ((s.update ⟨rest, s.closed⟩ (kind.event t (some value))).goto t
          (.popReturn kind (some value)))
  | popReturn {s : State Tid V R} {t : Tid} {kind : PopKind} {result : Option V}
      (hpc : s.pc t = .popReturn kind result) :
      Step s t (s.unlock.goto t (afterPop worker t result))
  | closeLock {s : State Tid V R} {t : Tid} (hpc : s.pc t = .closeLock)
      (hmutex : s.queueMutex = none) : Step s t ((s.lock t).goto t .closeSet)
  | closeSet {s : State Tid V R} {t : Tid} (hpc : s.pc t = .closeSet) :
      Step s t ((s.update ⟨s.items, true⟩ (.close t)).goto t .closeUnlock)
  | closeUnlock {s : State Tid V R} {t : Tid} (hpc : s.pc t = .closeUnlock) :
      Step s t (s.unlock.goto t .closeNotify)
  | closeNotify {s : State Tid V R} {t : Tid} (hpc : s.pc t = .closeNotify) :
      Step s t (s.wakeAll.goto t .idle)
  | processedLock {s : State Tid V R} {t : Tid} {job : V} (hpc : s.pc t = .working job)
      (hmutex : s.processedMutex = none) :
      Step s t ({ s with processedMutex := some t }.goto t (.recording job))
  | processedPush {s : State Tid V R} {t : Tid} {job : V} (hpc : s.pc t = .recording job) :
      Step s t
        ({ s with
            processed := s.processed ++ [record t job]
            done := s.done ++ [(t, job)] }.goto t .recorded)
  | processedUnlock {s : State Tid V R} {t : Tid} (hpc : s.pc t = .recorded) :
      Step s t ({ s with processedMutex := none }.goto t .waitLock)

/-- Any number of workers and of other threads around one new queue. -/
def system : System (State Tid V R) Tid where
  Init s := s = State.initial Tid V R
  Step := Step worker record

end Step

structure PrintJob where
  id : Int
  document : String
  pages : Int

structure ProcessedJob where
  jobId : Int
  workerId : Int
  pages : Int
  deriving DecidableEq

/-- What `worker_loop` notes about a printed job. -/
def processedJob (workerId : Tid → Int) (t : Tid) (job : PrintJob) : ProcessedJob :=
  ⟨job.id, workerId t, job.pages⟩

/-- The pool of `example_producer_consumer`, with any workers and any other threads. -/
def workerPool (worker : Tid → Bool) (workerId : Tid → Int) :
    System (State Tid PrintJob ProcessedJob) Tid :=
  system worker (processedJob workerId)

end MoreCpp.ClosableQueue
