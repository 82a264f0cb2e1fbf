import MoreCpp.Concurrency.TwoLockQueue.Delivery
import MoreCpp.Library.Mutex

/-!
Wake-ups. A push moves `tail` under `tail_mutex` only, so its notification can
come after a consumer has found the queue empty and before that consumer
blocks. Such a notification is lost, and the consumer can sleep beside a value
forever. Runs without such a step never leave a consumer asleep.
-/

namespace MoreCpp.TwoLockQueue

open Library

variable {Tid Addr V : Type*}

namespace Pc

/-- A waiting consumer that has read a `tail` equal to `head` and is going to block. -/
def Committed : Pc Addr V → Bool
  | .popTailUnlock kind _ empty | .popTest kind _ empty => kind.waits && empty
  | .popWait _ => true
  | _ => false

/-- Blocked, or going to be. -/
def Sleepy (p : Pc Addr V) : Bool := p.Blocked || p.Committed

/-- A call that is still to take a value or to wake up somebody who will: a
push before its notification, or a pop that will find a non-empty queue. -/
def Serves : Pc Addr V → Bool
  | .pushUnlock | .pushNotify => true
  | .popLock _ | .popTailLock _ | .popReadTail _ | .popTake _ | .popMove _ _
  | .popAdvance _ _ _ => true
  | .popTailUnlock _ _ empty | .popTest _ _ empty => !empty
  | _ => false

end Pc

/-- The number of values in the queue. -/
def State.queued (s : State Tid Addr V) : Nat := s.published - s.popped.length

/-- Thread `t` is blocked without a notification beside a non-empty queue, and
no other thread is going to change that. -/
def Stuck (s : State Tid Addr V) (t : Tid) : Prop :=
  (s.pc t).Blocked = true ∧ s.head ≠ some s.tail ∧
    ∀ u, u ≠ t → s.pc u = .idle ∨ (s.pc u).Blocked = true

section Counting

variable [Fintype Tid]

/-- The next step of `t` notifies nobody, while some consumer has found the
queue empty and not blocked yet, and the queued values are at least as many as
the calls that see to them, this push included. -/
def LosesNotification (s : State Tid Addr V) (t : Tid) : Prop :=
  s.pc t = .pushNotify ∧ (∀ u, (s.pc u).Blocked = false) ∧
    (∃ u, (s.pc u).Committed = true) ∧ serving Pc.Serves s.pc ≤ s.queued

variable [DecidableEq Tid] [DecidableEq Addr] {s s' : State Tid Addr V} {first : Addr}
  {cells : List (Addr × V)} {t : Tid}

omit [Fintype Tid] [DecidableEq Tid] [DecidableEq Addr] in
theorem Inv.queued_eq (h : Inv s first cells) : s.queued = cells.length := by
  rw [State.queued, h.published, Nat.add_sub_cancel_left]

/-- When a consumer sleeps or is about to, somebody sees to every queued value. -/
theorem covered_step (c : Covered Pc.Sleepy Pc.Serves s.pc s.queued) (h : Inv s first cells)
    (hstep : Step s t s') (hallowed : ¬ LosesNotification s t) :
    Covered Pc.Sleepy Pc.Serves s'.pc s'.queued := by
  cases hstep with
  | callPush value hpc | callPop kind hpc | pushNew addr hpc hfree | pushThrow hpc
  | pushLock hpc hmutex | pushData hpc hnode | pushNext hpc hnode | popWakeSpuriously hpc
  | popResult hpc hnode | popFree hpc hnode | popEmpty hpc | popEmptyReturn hpc =>
      refine c.move nofun ?_
      rw [hpc]
      exact Nat.le_add_right _ _
  | pushUnlock hpc | popLock hpc hmutex | popTailLock hpc hmutex | popTake hpc hhead hnode hdata
  | popMove hpc hhead =>
      refine c.move nofun ?_
      rw [hpc]
      exact Nat.le_refl _
  | pushTail hpc =>
      have hqueued : s.published + 1 - s.popped.length = s.queued + 1 := by
        rw [State.queued, h.published]
        omega
      refine c.move nofun ?_
      rw [hpc]
      exact Nat.le_of_eq hqueued
  | @notifyOne u kind hpc hblocked =>
      have hne : t ≠ u := by
        rintro rfl
        rw [hpc] at hblocked
        cases hblocked
      exact c.handover hne (by rw [hblocked]; rfl) (by rw [hblocked]; rfl) rfl rfl
  | notifyNobody hpc hnobody =>
      rintro ⟨u, hu⟩
      have hcommitted : (s.pc u).Committed = true := by
        rcases eq_or_ne u t with rfl | hne
        · rw [State.goto_pc, Function.update_self] at hu
          cases hu
        · rw [State.goto_pc, Function.update_of_ne hne, Pc.Sleepy, hnobody u] at hu
          exact hu
      -- the notification is not the last that sees to a value
      have hspare : s.queued < serving Pc.Serves s.pc := by
        by_contra hlast
        exact hallowed ⟨hpc, hnobody, ⟨u, hcommitted⟩, Nat.le_of_not_lt hlast⟩
      have hdone := serving_update Pc.Serves s.pc t .idle
      rw [hpc] at hdone
      simp only [Pc.Serves, Bool.false_eq_true, ↓reduceIte] at hdone
      change s.queued ≤ serving Pc.Serves (Function.update s.pc t _)
      omega
  | @popReadTail kind hpc =>
      cases hempty : decide (s.published = s.popped.length) with
      | true =>
          have hnone : s.queued = 0 := by
            rw [State.queued, of_decide_eq_true hempty, Nat.sub_self]
          change Covered _ _ _ s.queued
          rw [hnone]
          exact .of_empty
      | false =>
          apply c.move (by simp [Pc.Sleepy, Pc.Blocked, Pc.Committed])
          rw [hpc]
          exact Nat.le_refl _
  | popTailUnlock hpc =>
      apply c.move
      · rw [hpc]
        exact fun hsleepy => hsleepy
      · rw [hpc]
        exact Nat.le_refl _
  | @popTestEqual kind tail empty hpc hequal =>
      obtain rfl := (h.test_iff hpc).mp hequal
      cases hwaits : kind.waits with
      | true =>
          refine c.move (fun _ => ?_) ?_
          · rw [hpc, Pc.Sleepy, Pc.Committed, hwaits]
            rfl
          · rw [hpc]
            exact Nat.le_refl _
      | false =>
          refine c.move nofun ?_
          rw [hpc]
          exact Nat.le_refl _
  | @popTestDiffer kind tail empty hpc hdiffer =>
      have hfull : empty = false := by
        cases empty with
        | true => exact absurd ((h.test_iff hpc).mpr rfl) hdiffer
        | false => rfl
      subst hfull
      cases hinto : kind.into <;>
      · refine c.move nofun ?_
        rw [hpc]
        exact Nat.le_refl _
  | popWait hpc =>
      refine c.move (fun _ => by rw [hpc]; rfl) ?_
      rw [hpc]
      exact Nat.le_refl _
  | @popAdvance kind oldHead value node hpc hnode =>
      have hself := h.knows t
      rw [hpc] at hself
      have hnonempty := List.length_pos_iff.mpr hself.2.1
      have hqueued : s.published - (s.popped ++ [(s.headAcquired, node.data)]).length + 1 ≤
          s.queued := by
        rw [h.queued_eq, h.published, List.length_append, List.length_singleton]
        omega
      refine c.move nofun ?_
      rw [hpc]
      exact hqueued
  | @popUnlock kind oldHead value ticket hpc =>
      cases hinto : kind.into <;>
      · refine c.move nofun ?_
        rw [hpc]
        exact Nat.le_refl _

/-- In a run in which no notification is lost, no consumer stays blocked
beside a value when all other threads have come to rest. -/
theorem no_lost_wakeup (s : State Tid Addr V)
    (hs : ((system Tid Addr V).restrict fun s t => ¬ LosesNotification s t).Reachable s)
    (t : Tid) : ¬ Stuck s t := by
  have hcovered : Covered Pc.Sleepy Pc.Serves s.pc s.queued := by
    refine System.reachable_invariant _
      (fun s => Covered Pc.Sleepy Pc.Serves s.pc s.queued) ?_ ?_ s hs
    · rintro s ⟨dummy, rfl⟩
      exact Covered.of_empty
    · rintro s t s' hreach c ⟨hstep, hallowed⟩
      obtain ⟨⟨first, cells, h⟩, -, -⟩ := reachable_inv (System.reachable_of_restrict _ hreach)
      exact covered_step c h hstep hallowed
  obtain ⟨⟨first, cells, h⟩, -, -⟩ := reachable_inv (System.reachable_of_restrict _ hs)
  rintro ⟨hblocked, hdiffer, hrest⟩
  have hquiet : ∀ u, (s.pc u).Serves = false ∧ (s.pc u).HoldsHead = false := by
    intro u
    rcases eq_or_ne u t with rfl | hne
    · cases hpc : s.pc u <;> simp_all [Pc.Blocked, Pc.Serves, Pc.HoldsHead]
    · rcases hrest u hne with hidle | hasleep
      · rw [hidle]
        exact ⟨rfl, rfl⟩
      · cases hpc : s.pc u <;> simp_all [Pc.Blocked, Pc.Serves, Pc.HoldsHead]
  have hnobody : serving Pc.Serves s.pc = 0 := serving_eq_zero fun u => (hquiet u).1
  have hempty : cells = [] := by
    have hle := hcovered ⟨t, by rw [Pc.Sleepy, hblocked]; rfl⟩
    rw [h.queued_eq, hnobody] at hle
    exact List.length_eq_zero_iff.mp (Nat.le_zero.mp hle)
  have hfree : s.headMutex = none := by
    cases hmutex : s.headMutex with
    | none => rfl
    | some u =>
        have hholds := (h.head.held u).mpr hmutex
        rw [(hquiet u).2] at hholds
        cases hholds
  have hhead := h.head.value
  rw [hfree, underLock_none, h.first_eq_tail_iff.mpr hempty] at hhead
  exact hdiffer hhead

end Counting

/-- A consumer finds the queue empty; before it blocks, a producer pushes 7
and notifies nobody; then the consumer blocks beside the 7. -/
theorem lost_wakeup : ¬ ∀ s : State Bool Nat Nat, (system Bool Nat Nat).Reachable s →
    ∀ t, ¬ Stuck s t := by
  have start : (system Bool Nat Nat).Reachable (State.initial Bool Nat 0) := .start ⟨0, rfl⟩
  have waiting := start.next (.callPop (t := true) .waitAndPop rfl)
  have entered := waiting.next (.popLock (t := true) rfl rfl)
  have asking := entered.next (.popTailLock (t := true) rfl rfl)
  have read := asking.next (.popReadTail (t := true) rfl)
  have asked := read.next (.popTailUnlock (t := true) rfl)
  have tested := asked.next (.popTestEqual (t := true) rfl rfl)
  have called := tested.next (.callPush (t := false) 7 rfl)
  have allocated := called.next (.pushNew (t := false) 1 rfl rfl)
  have locked := allocated.next (.pushLock (t := false) rfl rfl)
  have filled := locked.next (.pushData (t := false) rfl rfl)
  have linked := filled.next (.pushNext (t := false) rfl rfl)
  have moved := linked.next (.pushTail (t := false) rfl)
  have unlocked := moved.next (.pushUnlock (t := false) rfl)
  have notified := unlocked.next (.notifyNobody (t := false) rfl fun u => by cases u <;> rfl)
  have blocked := notified.next (.popWait (t := true) rfl)
  intro h
  refine h _ blocked true ⟨rfl, by decide, fun u hu => ?_⟩
  cases u with
  | false => exact .inl rfl
  | true => exact absurd rfl hu

/-- A consumer blocks, a producer pushes 7 and its notification wakes the
consumer: a run without a lost notification. -/
theorem no_lost_wakeup_notified : ∃ s : State Bool Nat Nat,
    s.queued = 1 ∧ s.pc true = .popLock .waitAndPop ∧ ¬ Stuck s true := by
  have start : ((system Bool Nat Nat).restrict fun s t => ¬ LosesNotification s t).Reachable
    (State.initial Bool Nat 0) := .start ⟨0, rfl⟩
  have waiting := start.next ⟨.callPop (t := true) .waitAndPop rfl, nofun⟩
  have entered := waiting.next ⟨.popLock (t := true) rfl rfl, nofun⟩
  have asking := entered.next ⟨.popTailLock (t := true) rfl rfl, nofun⟩
  have read := asking.next ⟨.popReadTail (t := true) rfl, nofun⟩
  have asked := read.next ⟨.popTailUnlock (t := true) rfl, nofun⟩
  have tested := asked.next ⟨.popTestEqual (t := true) rfl rfl, nofun⟩
  have blocked := tested.next ⟨.popWait (t := true) rfl, nofun⟩
  have called := blocked.next ⟨.callPush (t := false) 7 rfl, nofun⟩
  have allocated := called.next ⟨.pushNew (t := false) 1 rfl rfl, nofun⟩
  have locked := allocated.next ⟨.pushLock (t := false) rfl rfl, nofun⟩
  have filled := locked.next ⟨.pushData (t := false) rfl rfl, nofun⟩
  have linked := filled.next ⟨.pushNext (t := false) rfl rfl, nofun⟩
  have moved := linked.next ⟨.pushTail (t := false) rfl, nofun⟩
  have unlocked := moved.next ⟨.pushUnlock (t := false) rfl, nofun⟩
  have notified := unlocked.next ⟨.notifyOne (t := false) (u := true) rfl rfl,
    fun hlost => nomatch hlost.2.1 true⟩
  exact ⟨_, rfl, rfl, no_lost_wakeup _ notified true⟩

end MoreCpp.TwoLockQueue
