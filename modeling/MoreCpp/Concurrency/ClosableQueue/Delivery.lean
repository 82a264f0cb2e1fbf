import MoreCpp.Concurrency.ClosableQueue.Invariant

/-!
What the worker pool guarantees: values come out in the order they went in,
pushes are refused exactly after the queue was closed, and when all workers
have stopped every accepted job has been processed once.
-/

namespace MoreCpp.ClosableQueue

open Library ClosableFifo

variable {Tid V R : Type*} [DecidableEq Tid]

section General

variable {worker : Tid → Bool} {record : Tid → V → R} {s : State Tid V R}

theorem reachable_inv (hs : (system worker record).Reachable s) : Inv worker record s := by
  refine System.reachable_invariant _ (Inv worker record) ?_ ?_ s hs
  · rintro s rfl
    exact Inv.initial
  · intro s t s' _ h hstep
    exact h.step hstep

theorem Inv.drained (h : Inv worker record s) {t : Tid} (hexited : s.pc t = .exited) :
    s.closed = true ∧ s.items = [] := by
  have hself := h.knows t
  rw [hexited] at hself
  exact hself

/-- When only workers take values out and all of them have stopped, what went
out is what was noted. -/
theorem Inv.handedOut_perm_done (h : Inv worker record s)
    (hexited : ∀ t, worker t = true → s.pc t = .exited)
    (honly : ∀ entry ∈ handedOut s.log, worker entry.1 = true) :
    (handedOut s.log).Perm s.done := by
  apply perm_of_valuesAt_eq
  intro t
  cases hworker : worker t with
  | true =>
      have hjobs := h.jobs t hworker
      rw [hexited t hworker] at hjobs
      exact hjobs.trans (List.append_nil _)
  | false =>
      have hnone : ∀ entries : List (Tid × V), (∀ entry ∈ entries, worker entry.1 = true) →
          valuesAt t entries = [] := by
        intro entries hall
        apply valuesAt_eq_nil
        intro entry hmem heq
        have htrue := hall entry hmem
        rw [heq, hworker] at htrue
        cases htrue
      rw [hnone _ honly, hnone _ h.workers]

end General

end MoreCpp.ClosableQueue
