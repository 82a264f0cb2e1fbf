import MoreCpp.Concurrency.ClosableQueue.Model
import MoreCpp.Library.Rearrangements
import MoreCpp.Library.Mutex

/-!
The invariant of the closable queue and its workers. The log is a history of a
closable FIFO that leads to the contents of the queue, and what each worker
got out of the queue is what it has noted in `processed` plus what it still
has in hand.
-/

namespace MoreCpp.ClosableQueue

open Library

variable {Tid V R : Type*}

def State.queue (s : State Tid V R) : ClosableFifo V := ⟨s.items, s.closed⟩

/-- `notify_all` moves the blocked waiters and nobody else. -/
theorem State.wakeAll_pc_cases (s : State Tid V R) (t : Tid) :
    s.wakeAll.pc t = s.pc t ∨ s.pc t = .blocked ∧ s.wakeAll.pc t = .waitLock := by
  cases hpc : s.pc t <;> simp [State.wakeAll, hpc, Pc.Blocked]

namespace Pc

/-- The job a worker has got and not noted yet. -/
def inHand : Pc V → List V
  | .popReturn _ (some job) | .working job | .recording job => [job]
  | _ => []

/-- What a call relies on at its program point. -/
def Knows (worker : Bool) (q : ClosableFifo V) : Pc V → Prop
  | .pushStore _ => q.closed = false
  | .waitSleep => q.closed = false ∧ q.items = []
  | .tryLock | .popTest .tryPop => worker = false
  | .popTest .waitAndPop => q.closed = true ∨ q.items ≠ []
  | .popTake _ => q.items ≠ []
  | .popReturn _ none => worker = true → q.closed = true ∧ q.items = []
  | .closeUnlock | .closeNotify => q.closed = true
  | .working _ | .recording _ => worker = true
  | .exited => q.closed = true ∧ q.items = []
  | _ => True

/-- What the other calls rely on survives whatever is done under `queue_mutex`. -/
theorem Knows.frame {worker : Bool} {q q' : ClosableFifo V} {event : ClosableEvent Tid V}
    {p : Pc V} (h : p.Knows worker q) (hout : p.HoldsQueue = false)
    (hstep : ClosableFifo.Step q event q') : p.Knows worker q' := by
  cases p with
  | pushStore value | waitSleep | popTest kind | popTake kind | popReturn kind result
  | closeUnlock => cases hout
  | closeNotify => exact hstep.stays_closed h
  | exited => exact ⟨hstep.stays_closed h.1, hstep.stays_drained h.1 h.2⟩
  | tryLock | working job | recording job => exact h
  | _ => trivial

end Pc

/-- A pop that finds nothing, and in a waiting pop the queue is then closed. -/
theorem PopKind.step_empty (kind : PopKind) (t : Tid) {q : ClosableFifo V}
    (hempty : q.items = []) (hclosed : kind = .waitAndPop → q.closed = true) :
    ClosableFifo.Step q (kind.event t none) q := by
  obtain ⟨items, closed⟩ := q
  obtain rfl : items = [] := hempty
  cases kind with
  | tryPop => exact .poll
  | waitAndPop => exact .await (.inl (hclosed rfl))

/-- A pop that finds a value. -/
theorem PopKind.step_some (kind : PopKind) (t : Tid) {q : ClosableFifo V} {value : V}
    {rest : List V} (hitems : q.items = value :: rest) :
    ClosableFifo.Step q (kind.event t (some value)) ⟨rest, q.closed⟩ := by
  obtain ⟨items, closed⟩ := q
  obtain rfl : items = value :: rest := hitems
  cases kind with
  | tryPop => exact .poll
  | waitAndPop => exact .await (.inr (List.cons_ne_nil value rest))

/-- What each worker got is what it noted and what it has in hand. -/
def Jobs [DecidableEq Tid] (worker : Tid → Bool) (pc : Tid → Pc V)
    (handed done : List (Tid × V)) : Prop :=
  ∀ t, worker t = true → valuesAt t handed = valuesAt t done ++ (pc t).inHand

variable [DecidableEq Tid]

structure Inv (worker : Tid → Bool) (record : Tid → V → R) (s : State Tid V R) : Prop where
  queueHeld : HeldBy Pc.HoldsQueue s.pc s.queueMutex
  processedHeld : HeldBy Pc.HoldsProcessed s.pc s.processedMutex
  history : ClosableFifo.History s.log s.queue
  knows : ∀ t, (s.pc t).Knows (worker t) s.queue
  jobs : Jobs worker s.pc (ClosableFifo.handedOut s.log) s.done
  workers : ∀ entry ∈ s.done, worker entry.1 = true
  processed : s.processed = s.done.map fun entry => record entry.1 entry.2

namespace Jobs

variable {worker : Tid → Bool} {pc : Tid → Pc V} {handed done : List (Tid × V)} {t : Tid}
  {p : Pc V}

theorem keep (h : Jobs worker pc handed done)
    (hsame : worker t = true → p.inHand = (pc t).inHand) :
    Jobs worker (Function.update pc t p) handed done := by
  intro u hu
  rcases eq_or_ne u t with rfl | hne
  · rw [Function.update_self, hsame hu]
    exact h u hu
  · rw [Function.update_of_ne hne]
    exact h u hu

/-- A job moves from the queue into the hands of `t`. -/
theorem hand (h : Jobs worker pc handed done) (hempty : (pc t).inHand = []) {job : V}
    (hjob : p.inHand = [job]) :
    Jobs worker (Function.update pc t p) (handed ++ [(t, job)]) done := by
  intro u hu
  have hbefore := h u hu
  rcases eq_or_ne u t with rfl | hne
  · rw [Function.update_self, hjob, valuesAt_append, valuesAt_singleton_self, hbefore, hempty,
      List.append_nil]
  · rw [Function.update_of_ne hne, valuesAt_append, valuesAt_singleton_of_ne (Ne.symm hne),
      List.append_nil, hbefore]

/-- The job `t` has in hand is noted. -/
theorem finish (h : Jobs worker pc handed done) {job : V} (hjob : (pc t).inHand = [job])
    (hempty : p.inHand = []) :
    Jobs worker (Function.update pc t p) handed (done ++ [(t, job)]) := by
  intro u hu
  have hbefore := h u hu
  rcases eq_or_ne u t with rfl | hne
  · rw [Function.update_self, hempty, valuesAt_append, valuesAt_singleton_self, hbefore, hjob,
      List.append_nil]
  · rw [Function.update_of_ne hne, valuesAt_append, valuesAt_singleton_of_ne (Ne.symm hne),
      List.append_nil, hbefore]

end Jobs

namespace Inv

variable {worker : Tid → Bool} {record : Tid → V → R} {s : State Tid V R} {t : Tid} {p : Pc V}

theorem initial : Inv worker record (State.initial Tid V R) where
  queueHeld := .initial fun _ => rfl
  processedHeld := .initial fun _ => rfl
  history := .refl _
  knows _ := trivial
  jobs _ _ := rfl
  workers := nofun
  processed := rfl

theorem knows_goto (h : Inv worker record s) (hself : p.Knows (worker t) s.queue) (u : Tid) :
    (Function.update s.pc t p u).Knows (worker u) s.queue := by
  rcases eq_or_ne u t with rfl | hu
  · rw [Function.update_self]
    exact hself
  · rw [Function.update_of_ne hu]
    exact h.knows u

/-- A step that changes nothing but the program point of its thread. -/
theorem goto (h : Inv worker record s) (hqueue : p.HoldsQueue = (s.pc t).HoldsQueue)
    (hprocessed : p.HoldsProcessed = (s.pc t).HoldsProcessed)
    (hhand : p.inHand = (s.pc t).inHand) (hknows : p.Knows (worker t) s.queue) :
    Inv worker record (s.goto t p) where
  queueHeld := h.queueHeld.keep hqueue
  processedHeld := h.processedHeld.keep hprocessed
  history := h.history
  knows := h.knows_goto hknows
  jobs := h.jobs.keep fun _ => hhand
  workers := h.workers
  processed := h.processed

theorem lock (h : Inv worker record s) (hfree : s.queueMutex = none)
    (hqueue : p.HoldsQueue = true) (hprocessed : p.HoldsProcessed = (s.pc t).HoldsProcessed)
    (hhand : p.inHand = (s.pc t).inHand) (hknows : p.Knows (worker t) s.queue) :
    Inv worker record ((s.lock t).goto t p) where
  queueHeld := (hfree ▸ h.queueHeld).acquire hqueue
  processedHeld := h.processedHeld.keep hprocessed
  history := h.history
  knows := h.knows_goto hknows
  jobs := h.jobs.keep fun _ => hhand
  workers := h.workers
  processed := h.processed

theorem unlock (h : Inv worker record s) (hin : (s.pc t).HoldsQueue = true)
    (hout : p.HoldsQueue = false) (hprocessed : p.HoldsProcessed = (s.pc t).HoldsProcessed)
    (hhand : worker t = true → p.inHand = (s.pc t).inHand)
    (hknows : p.Knows (worker t) s.queue) : Inv worker record (s.unlock.goto t p) where
  queueHeld := h.queueHeld.release hin hout
  processedHeld := h.processedHeld.keep hprocessed
  history := h.history
  knows := h.knows_goto hknows
  jobs := h.jobs.keep hhand
  workers := h.workers
  processed := h.processed

/-- An update of the queue by the holder of `queue_mutex`. -/
theorem update (h : Inv worker record s) {q : ClosableFifo V} {event : ClosableEvent Tid V}
    (hstep : ClosableFifo.Step s.queue event q) (hin : (s.pc t).HoldsQueue = true)
    (hholds : p.HoldsQueue = true) (hprocessed : p.HoldsProcessed = (s.pc t).HoldsProcessed)
    (hknows : p.Knows (worker t) q)
    (hjobs : Jobs worker (Function.update s.pc t p)
      (ClosableFifo.handedOut s.log ++ event.handed.toList) s.done) :
    Inv worker record ((s.update q event).goto t p) where
  queueHeld := h.queueHeld.keep (hholds.trans hin.symm)
  processedHeld := h.processedHeld.keep hprocessed
  history := h.history.snoc hstep
  knows u := by
    change (Function.update s.pc t p u).Knows (worker u) q
    rcases eq_or_ne u t with rfl | hu
    · rw [Function.update_self]
      exact hknows
    · rw [Function.update_of_ne hu]
      refine (h.knows u).frame ?_ hstep
      by_contra hholdsToo
      exact hu (h.queueHeld.exclusive hin (by simpa using hholdsToo))
  jobs := by
    change Jobs worker _ (ClosableFifo.handedOut (s.log ++ [event])) s.done
    rw [ClosableFifo.handedOut_concat]
    exact hjobs
  workers := h.workers
  processed := h.processed

/-- `notify_all` leaves every mutex, the queue and the jobs as they are. -/
theorem wakeAll (h : Inv worker record s) : Inv worker record s.wakeAll := by
  constructor
  case queueHeld =>
    intro u
    rcases s.wakeAll_pc_cases u with hsame | ⟨hblocked, hwoken⟩
    · rw [hsame]
      exact h.queueHeld u
    · have hout := h.queueHeld u
      rw [hblocked] at hout
      rw [hwoken]
      exact hout
  case processedHeld =>
    intro u
    rcases s.wakeAll_pc_cases u with hsame | ⟨hblocked, hwoken⟩
    · rw [hsame]
      exact h.processedHeld u
    · have hout := h.processedHeld u
      rw [hblocked] at hout
      rw [hwoken]
      exact hout
  case history => exact h.history
  case knows =>
    intro u
    rcases s.wakeAll_pc_cases u with hsame | ⟨-, hwoken⟩
    · rw [hsame]
      exact h.knows u
    · rw [hwoken]
      trivial
  case jobs =>
    intro u hu
    have hjobs := h.jobs u hu
    rcases s.wakeAll_pc_cases u with hsame | ⟨hblocked, hwoken⟩
    · rw [hsame]
      exact hjobs
    · rw [hblocked] at hjobs
      rw [hwoken]
      exact hjobs
  case workers => exact h.workers
  case processed => exact h.processed

theorem step (h : Inv worker record s) {s' : State Tid V R}
    (hstep : Step worker record s t s') : Inv worker record s' := by
  have hself := h.knows t
  cases hstep with
  | startWorker hworker hpc =>
      exact h.goto (by rw [hpc]; rfl) (by rw [hpc]; rfl) (by rw [hpc]; rfl) trivial
  | callPush value hclient hpc | callWaitAndPop hclient hpc | callClose hclient hpc =>
      exact h.goto (by rw [hpc]; rfl) (by rw [hpc]; rfl) (by rw [hpc]; rfl) trivial
  | callTryPop hclient hpc =>
      exact h.goto (by rw [hpc]; rfl) (by rw [hpc]; rfl) (by rw [hpc]; rfl) hclient
  | notifyNobody hpc hnobody | wakeSpuriously hpc =>
      exact h.goto (by rw [hpc]; rfl) (by rw [hpc]; rfl) (by rw [hpc]; rfl) trivial
  | pushTestOpen hpc hopen =>
      exact h.goto (by rw [hpc]; rfl) (by rw [hpc]; rfl) (by rw [hpc]; rfl) hopen
  | waitTestReady hpc hready =>
      exact h.goto (by rw [hpc]; rfl) (by rw [hpc]; rfl) (by rw [hpc]; rfl) hready
  | waitTestNotReady hpc hopen hempty =>
      exact h.goto (by rw [hpc]; rfl) (by rw [hpc]; rfl) (by rw [hpc]; rfl) ⟨hopen, hempty⟩
  | popTestSome hpc hsome =>
      exact h.goto (by rw [hpc]; rfl) (by rw [hpc]; rfl) (by rw [hpc]; rfl) hsome
  | pushLock hpc hmutex | waitLock hpc hmutex | closeLock hpc hmutex =>
      exact h.lock hmutex rfl (by rw [hpc]; rfl) (by rw [hpc]; rfl) trivial
  | tryLock hpc hmutex =>
      rw [hpc] at hself
      exact h.lock hmutex rfl (by rw [hpc]; rfl) (by rw [hpc]; rfl) hself
  | pushThrow hpc | pushUnlock hpc | waitSleep hpc =>
      exact h.unlock (by rw [hpc]; rfl) rfl (by rw [hpc]; rfl) (fun _ => by rw [hpc]; rfl) trivial
  | closeUnlock hpc =>
      rw [hpc] at hself
      exact h.unlock (by rw [hpc]; rfl) rfl (by rw [hpc]; rfl) (fun _ => by rw [hpc]; rfl) hself
  | pushTestClosed hpc hclosed =>
      refine h.update (.reject hclosed) (by rw [hpc]; rfl) rfl (by rw [hpc]; rfl) trivial ?_
      exact (List.append_nil _).symm ▸ h.jobs.keep fun _ => by rw [hpc]; rfl
  | pushStore hpc =>
      rw [hpc] at hself
      refine h.update (.accept hself) (by rw [hpc]; rfl) rfl (by rw [hpc]; rfl) trivial ?_
      exact (List.append_nil _).symm ▸ h.jobs.keep fun _ => by rw [hpc]; rfl
  | closeSet hpc =>
      refine h.update .close (by rw [hpc]; rfl) rfl (by rw [hpc]; rfl) rfl ?_
      exact (List.append_nil _).symm ▸ h.jobs.keep fun _ => by rw [hpc]; rfl
  | @notifyOne u hpc hblocked =>
      have hne : t ≠ u := by
        rintro rfl
        rw [hpc] at hblocked
        cases hblocked
      have hwoken := h.goto (t := u) (p := .waitLock) (by rw [hblocked]; rfl)
        (by rw [hblocked]; rfl) (by rw [hblocked]; rfl) trivial
      have hpc' : (s.goto u .waitLock).pc t = .pushNotify :=
        (Function.update_of_ne hne _ _).trans hpc
      exact hwoken.goto (by rw [hpc']; rfl) (by rw [hpc']; rfl) (by rw [hpc']; rfl) trivial
  | @popTestEmpty kind hpc hempty =>
      rw [hpc] at hself
      have hjobs : Jobs worker (Function.update s.pc t (.popReturn kind none))
          (ClosableFifo.handedOut s.log ++ (kind.event t (none : Option V)).handed.toList)
          s.done := by
        cases kind <;> exact (List.append_nil _).symm ▸ h.jobs.keep fun _ => by rw [hpc]; rfl
      have hpop : ClosableFifo.Step s.queue (kind.event t none) s.queue :=
        kind.step_empty t hempty (fun hkind => by
          subst hkind
          exact hself.resolve_right (not_not.mpr hempty))
      refine h.update hpop (by rw [hpc]; rfl) rfl (by rw [hpc]; rfl) ?_ hjobs
      intro hworker
      cases kind with
      | tryPop =>
          have hclient : worker t = false := hself
          rw [hclient] at hworker
          cases hworker
      | waitAndPop => exact ⟨hself.resolve_right (not_not.mpr hempty), hempty⟩
  | @popTake kind value rest hpc hitems =>
      have hjobs : Jobs worker (Function.update s.pc t (.popReturn kind (some value)))
          (ClosableFifo.handedOut s.log ++ (kind.event t (some value)).handed.toList)
          s.done := by
        cases kind <;> exact h.jobs.hand (by rw [hpc]; rfl) rfl
      exact h.update (kind.step_some t hitems) (by rw [hpc]; rfl) rfl (by rw [hpc]; rfl)
        trivial hjobs
  | @popReturn kind result hpc =>
      rw [hpc] at hself
      cases hworker : worker t with
      | false =>
          have hidle : afterPop worker t result = .idle := by simp [afterPop, hworker]
          rw [hidle]
          refine h.unlock (by rw [hpc]; rfl) rfl (by rw [hpc]; rfl) (fun htrue => ?_) trivial
          rw [hworker] at htrue
          cases htrue
      | true =>
          cases result with
          | none =>
              have hexit : afterPop worker t (none : Option V) = .exited := by
                simp [afterPop, hworker]
              rw [hexit]
              exact h.unlock (by rw [hpc]; rfl) rfl (by rw [hpc]; rfl)
                (fun _ => by rw [hpc]; rfl) (hself hworker)
          | some job =>
              have hwork : afterPop worker t (some job) = .working job := by
                simp [afterPop, hworker]
              rw [hwork]
              exact h.unlock (by rw [hpc]; rfl) rfl (by rw [hpc]; rfl)
                (fun _ => by rw [hpc]; rfl) hworker
  | closeNotify hpc =>
      have hpc' : s.wakeAll.pc t = .closeNotify := by
        rcases s.wakeAll_pc_cases t with hsame | ⟨hblocked, -⟩
        · rw [hsame, hpc]
        · rw [hpc] at hblocked
          cases hblocked
      exact h.wakeAll.goto (by rw [hpc']; rfl) (by rw [hpc']; rfl) (by rw [hpc']; rfl) trivial
  | @processedLock job hpc hmutex =>
      rw [hpc] at hself
      exact {
        queueHeld := h.queueHeld.keep (by rw [hpc]; rfl)
        processedHeld := (hmutex ▸ h.processedHeld).acquire rfl
        history := h.history
        knows := h.knows_goto hself
        jobs := h.jobs.keep fun _ => by rw [hpc]; rfl
        workers := h.workers
        processed := h.processed }
  | @processedPush job hpc =>
      rw [hpc] at hself
      exact {
        queueHeld := h.queueHeld.keep (by rw [hpc]; rfl)
        processedHeld := h.processedHeld.keep (by rw [hpc]; rfl)
        history := h.history
        knows := h.knows_goto trivial
        jobs := h.jobs.finish (by rw [hpc]; rfl) rfl
        workers entry hmem := by
          rcases List.mem_append.mp hmem with hold | hlast
          · exact h.workers entry hold
          · obtain rfl := List.mem_singleton.mp hlast
            exact hself
        processed := by
          change s.processed ++ [record t job] = (s.done ++ [(t, job)]).map _
          rw [h.processed, List.map_append]
          rfl }
  | processedUnlock hpc =>
      exact {
        queueHeld := h.queueHeld.keep (by rw [hpc]; rfl)
        processedHeld := h.processedHeld.release (by rw [hpc]; rfl) rfl
        history := h.history
        knows := h.knows_goto trivial
        jobs := h.jobs.keep fun _ => by rw [hpc]; rfl
        workers := h.workers
        processed := h.processed }

end Inv

end MoreCpp.ClosableQueue
