import MoreCpp.Concurrency.ClosableQueue.Invariant
import MoreCpp.Library.Mutex

/-!
No stuck consumer. While a consumer is blocked, every queued value is matched
by a push that has not notified yet or by a consumer that is awake inside
`wait_and_pop`, and a closed queue has a `close` that has not notified yet.
A value taken by `try_pop` only frees the call that would have seen to it.
-/

namespace MoreCpp.ClosableQueue

open Library

variable {Tid V R : Type*}

namespace Pc

/-- A call that will notify a waiter, or test the queue and take a value. -/
def Serves : Pc V → Bool
  | .pushUnlock | .pushNotify | .waitLock | .waitTest | .popTest .waitAndPop
  | .popTake .waitAndPop => true
  | _ => false

/-- Between `closed = true` and `notify_all`. -/
def Closing : Pc V → Bool
  | .closeUnlock | .closeNotify => true
  | _ => false

end Pc

theorem afterPop_awake (worker : Tid → Bool) (t : Tid) (result : Option V) :
    (afterPop worker t result).Blocked = false := by
  unfold afterPop
  split
  · cases result <;> rfl
  · rfl

/-- Nobody is blocked after `notify_all`. -/
theorem State.wakeAll_awake (s : State Tid V R) (t : Tid) : (s.wakeAll.pc t).Blocked = false := by
  cases hpc : s.pc t <;> simp [State.wakeAll, hpc, Pc.Blocked]

theorem State.closed_awake [DecidableEq Tid] (s : State Tid V R) (t u : Tid) :
    ((s.wakeAll.goto t .idle).pc u).Blocked = false := by
  rcases eq_or_ne u t with rfl | hne
  · rw [State.goto_pc, Function.update_self]
    rfl
  · rw [State.goto_pc, Function.update_of_ne hne, State.wakeAll_awake]

/-- Thread `t` is blocked without a notification on a queue that is closed or
non-empty, and no other thread is inside a call that could wake it up. -/
def Stuck (s : State Tid V R) (t : Tid) : Prop :=
  (s.pc t).Blocked = true ∧ (s.closed = true ∨ s.items ≠ []) ∧
    ∀ u, u ≠ t → (s.pc u).Outside = true ∨ (s.pc u).Blocked = true

/-- While somebody is blocked on a closed queue, some close has not notified yet. -/
def CloseIsNotified (pc : Tid → Pc V) (closed : Bool) : Prop :=
  closed = true → (∃ t, (pc t).Blocked = true) → ∃ t, (pc t).Closing = true

namespace CloseIsNotified

variable {pc : Tid → Pc V} {closed closed' : Bool} {t : Tid} {p : Pc V}

theorem of_open : CloseIsNotified pc false := nofun

theorem of_nobody (hnobody : ∀ t, (pc t).Blocked = false) : CloseIsNotified pc closed := by
  rintro - ⟨t, ht⟩
  rw [hnobody t] at ht
  cases ht

variable [DecidableEq Tid]

/-- Thread `t` neither falls asleep nor leaves a close without notifying. -/
theorem keep (h : CloseIsNotified pc closed) (hawake : p.Blocked = false)
    (hclosing : (pc t).Closing = false) :
    CloseIsNotified (Function.update pc t p) closed := by
  rintro hclosed ⟨u, hu⟩
  have hne : u ≠ t := by
    rintro rfl
    rw [Function.update_self, hawake] at hu
    cases hu
  rw [Function.update_of_ne hne] at hu
  obtain ⟨v, hv⟩ := h hclosed ⟨u, hu⟩
  have hother : v ≠ t := by
    rintro rfl
    rw [hclosing] at hv
    cases hv
  exact ⟨v, by rw [Function.update_of_ne hother, hv]⟩

/-- Thread `t` is about to notify. -/
theorem of_closing (hclosing : p.Closing = true) :
    CloseIsNotified (Function.update pc t p) closed :=
  fun _ _ => ⟨t, by rw [Function.update_self, hclosing]⟩

end CloseIsNotified

variable [DecidableEq Tid] {worker : Tid → Bool} {record : Tid → V → R}
  {s s' : State Tid V R} {t : Tid}

theorem closeIsNotified_step (c : CloseIsNotified s.pc s.closed) (h : Inv worker record s)
    (hstep : Step worker record s t s') : CloseIsNotified s'.pc s'.closed := by
  have hself := h.knows t
  cases hstep with
  | startWorker hworker hpc | callPush value hworker hpc | callTryPop hworker hpc
  | callWaitAndPop hworker hpc | callClose hworker hpc | pushLock hpc hmutex
  | pushTestClosed hpc hclosed | pushTestOpen hpc hopen | pushThrow hpc | pushStore hpc
  | pushUnlock hpc | tryLock hpc hmutex | waitLock hpc hmutex | waitTestReady hpc hready
  | waitTestNotReady hpc hopen hempty | notifyNobody hpc hnobody | wakeSpuriously hpc
  | popTestEmpty hpc hempty | popTestSome hpc hsome | popTake hpc hitems
  | closeLock hpc hmutex | processedLock hpc hmutex | processedPush hpc | processedUnlock hpc =>
      exact c.keep rfl (by rw [hpc]; rfl)
  | @notifyOne u hpc hblocked =>
      have hne : t ≠ u := by
        rintro rfl
        rw [hpc] at hblocked
        cases hblocked
      have hwoken := c.keep (t := u) (p := .waitLock) rfl (by rw [hblocked]; rfl)
      apply hwoken.keep rfl
      rw [Function.update_of_ne hne, hpc]
      rfl
  | waitSleep hpc =>
      rw [hpc] at hself
      have hopen : s.closed = false := hself.1
      change CloseIsNotified _ s.closed
      rw [hopen]
      exact .of_open
  | @popReturn kind result hpc =>
      exact c.keep (afterPop_awake worker t result) (by rw [hpc]; rfl)
  | closeSet hpc | closeUnlock hpc => exact .of_closing rfl
  | closeNotify hpc => exact .of_nobody (s.closed_awake t)

variable [Fintype Tid]

theorem covered_step (c : Covered Pc.Blocked Pc.Serves s.pc s.items.length)
    (h : Inv worker record s) (hstep : Step worker record s t s') :
    Covered Pc.Blocked Pc.Serves s'.pc s'.items.length := by
  have hself := h.knows t
  cases hstep with
  | startWorker hworker hpc | callPush value hworker hpc | callTryPop hworker hpc
  | callWaitAndPop hworker hpc | callClose hworker hpc | pushLock hpc hmutex
  | pushTestClosed hpc hclosed | pushTestOpen hpc hopen | pushThrow hpc | tryLock hpc hmutex
  | wakeSpuriously hpc | closeLock hpc hmutex | closeSet hpc | closeUnlock hpc
  | processedLock hpc hmutex | processedPush hpc | processedUnlock hpc =>
      refine c.move nofun ?_
      rw [hpc]
      exact Nat.le_add_right _ _
  | pushUnlock hpc | waitLock hpc hmutex | waitTestReady hpc hready =>
      refine c.move nofun ?_
      rw [hpc]
      exact Nat.le_refl _
  | pushStore hpc =>
      refine c.move nofun ?_
      rw [hpc]
      exact Nat.le_of_eq List.length_append
  | @notifyOne u hpc hblocked =>
      have hne : t ≠ u := by
        rintro rfl
        rw [hpc] at hblocked
        cases hblocked
      exact c.handover hne (by rw [hblocked]; rfl) (by rw [hblocked]; rfl) rfl rfl
  | notifyNobody hpc hnobody =>
      refine .of_nobody fun u => ?_
      rcases eq_or_ne u t with rfl | hne
      · rw [State.goto_pc, Function.update_self]
        rfl
      · rw [State.goto_pc, Function.update_of_ne hne]
        cases hu : s.pc u with
        | blocked => exact absurd hu (hnobody u)
        | _ => rfl
  | waitTestNotReady hpc hopen hempty | popTestEmpty hpc hempty =>
      change Covered _ _ _ s.items.length
      rw [hempty]
      exact .of_empty
  | waitSleep hpc =>
      rw [hpc] at hself
      have hempty : s.items = [] := hself.2
      change Covered _ _ _ s.items.length
      rw [hempty]
      exact .of_empty
  | @popTestSome kind hpc hsome =>
      refine c.move nofun ?_
      rw [hpc]
      cases kind <;> exact Nat.le_refl _
  | @popTake kind value rest hpc hitems =>
      rw [hitems, List.length_cons] at c
      refine c.move nofun ?_
      rw [hpc]
      cases kind with
      | tryPop => exact Nat.le_succ _
      | waitAndPop => exact Nat.le_refl _
  | @popReturn kind result hpc =>
      refine c.move (fun hasleep => ?_) ?_
      · rw [afterPop_awake] at hasleep
        cases hasleep
      · rw [hpc]
        exact Nat.le_add_right _ _
  | closeNotify hpc => exact .of_nobody (s.closed_awake t)

/-- No reachable state has a consumer blocked on a closed or non-empty queue
with all other threads outside any call or blocked as well. -/
theorem no_stuck_consumer (worker : Tid → Bool) (record : Tid → V → R) (s : State Tid V R)
    (hs : (system worker record).Reachable s) (t : Tid) : ¬ Stuck s t := by
  have hinv : Inv worker record s ∧ Covered Pc.Blocked Pc.Serves s.pc s.items.length ∧
      CloseIsNotified s.pc s.closed := by
    refine System.reachable_invariant _ (fun s => Inv worker record s ∧
      Covered Pc.Blocked Pc.Serves s.pc s.items.length ∧ CloseIsNotified s.pc s.closed) ?_ ?_ s hs
    · rintro s rfl
      exact ⟨Inv.initial, .of_empty, .of_open⟩
    · rintro s t s' _ ⟨h, hcovered, hclose⟩ hstep
      exact ⟨h.step hstep, covered_step hcovered h hstep, closeIsNotified_step hclose h hstep⟩
  obtain ⟨-, hcovered, hclose⟩ := hinv
  rintro ⟨hblocked, hwork, hrest⟩
  have hquiet : ∀ u, (s.pc u).Serves = false ∧ (s.pc u).Closing = false := by
    intro u
    have hcases : (s.pc u).Outside = true ∨ (s.pc u).Blocked = true := by
      rcases eq_or_ne u t with rfl | hne
      · exact .inr hblocked
      · exact hrest u hne
    cases hpc : s.pc u <;> simp_all [Pc.Outside, Pc.Blocked, Pc.Serves, Pc.Closing]
  rcases hwork with hclosed | hitems
  · obtain ⟨u, hu⟩ := hclose hclosed ⟨t, hblocked⟩
    rw [(hquiet u).2] at hu
    cases hu
  · have hle := hcovered ⟨t, hblocked⟩
    rw [serving_eq_zero fun u => (hquiet u).1] at hle
    exact hitems (List.length_eq_zero_iff.mp (Nat.le_zero.mp hle))

/-- A consumer blocks, and a push of 7 has not notified it yet. -/
theorem no_stuck_consumer_pushed : ∃ s : State Bool Nat Nat,
    (s.pc true).Blocked = true ∧ s.items = [7] ∧ ¬ Stuck s true := by
  have start : (system (fun _ : Bool => false) fun _ (value : Nat) => value).Reachable
    (State.initial Bool Nat Nat) := .start rfl
  have waiting := start.next (.callWaitAndPop (t := true) rfl rfl)
  have entered := waiting.next (.waitLock (t := true) rfl rfl)
  have tested := entered.next (.waitTestNotReady (t := true) rfl rfl rfl)
  have blocked := tested.next (.waitSleep (t := true) rfl)
  have called := blocked.next (.callPush (t := false) 7 rfl rfl)
  have locked := called.next (.pushLock (t := false) rfl rfl)
  have opened := locked.next (.pushTestOpen (t := false) rfl rfl)
  have stored := opened.next (.pushStore (t := false) rfl)
  have unlocked := stored.next (.pushUnlock (t := false) rfl)
  exact ⟨_, rfl, rfl, no_stuck_consumer _ _ _ unlocked true⟩

end MoreCpp.ClosableQueue
