import MoreCpp.Library.TransitionSystem
import Mathlib.Logic.Function.Basic

/-!
Threads that exclude each other with a mutex, and threads that wait for each other.
-/

namespace MoreCpp.Library

/-! ## Exclusion

Mutexes in a model where every thread has a local state and a mutex is the
thread that holds it. `HeldBy` ties the two together: a thread is inside the
critical section exactly when it is the recorded holder. `underLock` is how
what a mutex guards looks at the holder's program point.
-/

section Exclusion

variable {Thread Local View : Type*}

/-- The threads inside the critical section are exactly the holder. -/
def HeldBy (inside : Local → Bool) (locals : Thread → Local) (mutex : Option Thread) :
    Prop :=
  ∀ t, inside (locals t) = true ↔ mutex = some t

/-- The holder's view of what the mutex guards, or the view when it is free. -/
def underLock (view : Local → View) (free : View) (locals : Thread → Local) :
    Option Thread → View
  | none => free
  | some t => view (locals t)

namespace HeldBy

variable {inside : Local → Bool} {locals : Thread → Local} {mutex : Option Thread}
  {t u : Thread} {l : Local}

theorem holder (h : HeldBy inside locals mutex) (ht : inside (locals t) = true) :
    mutex = some t :=
  (h t).mp ht

/-- Mutual exclusion. -/
theorem exclusive (h : HeldBy inside locals mutex) (ht : inside (locals t) = true)
    (hu : inside (locals u) = true) : u = t := by
  have hsame : some u = some t := (h.holder hu).symm.trans (h.holder ht)
  exact Option.some.inj hsame

theorem outside_of_free (h : HeldBy inside locals none) (u : Thread) :
    inside (locals u) = false := by
  cases hu : inside (locals u) with
  | false => rfl
  | true => cases h.holder hu

theorem initial (hout : ∀ t, inside (locals t) = false) : HeldBy inside locals none := by
  intro t
  simp [hout t]

variable [DecidableEq Thread]

/-- A step inside or outside the critical section. -/
theorem keep (h : HeldBy inside locals mutex) (hsame : inside l = inside (locals t)) :
    HeldBy inside (Function.update locals t l) mutex := by
  intro u
  rcases eq_or_ne u t with rfl | hu
  · rw [Function.update_self, hsame]
    exact h u
  · rw [Function.update_of_ne hu]
    exact h u

theorem acquire (h : HeldBy inside locals none) (hin : inside l = true) :
    HeldBy inside (Function.update locals t l) (some t) := by
  intro u
  rcases eq_or_ne u t with rfl | hu
  · simp [hin]
  · simp [Function.update_of_ne hu, h.outside_of_free u, Ne.symm hu]

theorem release (h : HeldBy inside locals mutex) (hin : inside (locals t) = true)
    (hout : inside l = false) : HeldBy inside (Function.update locals t l) none := by
  intro u
  rcases eq_or_ne u t with rfl | hu
  · simp [hout]
  · rw [Function.update_of_ne hu]
    constructor
    · intro hu'
      exact absurd (h.exclusive hin hu') hu
    · exact nofun

end HeldBy

section UnderLock

variable {view : Local → View} {free : View} {locals : Thread → Local}
  {mutex : Option Thread} {t : Thread} {l : Local}

@[simp] theorem underLock_none : underLock view free locals none = free := rfl

@[simp] theorem underLock_some : underLock view free locals (some t) = view (locals t) := rfl

theorem underLock_update [DecidableEq Thread] (hsame : view l = view (locals t)) :
    underLock view free (Function.update locals t l) mutex =
      underLock view free locals mutex := by
  cases mutex with
  | none => rfl
  | some u =>
      rcases eq_or_ne u t with rfl | hu
      · simp [hsame]
      · simp [Function.update_of_ne hu]

end UnderLock

end Exclusion

/-! ## Waking up

Counting queued items against the threads that will still see to one. When a
thread sleeps until it is notified, nothing is lost as long as every queued
item is matched by such a thread: one that will notify, or one that is awake
and will take an item itself.
-/

section Wakeup

variable {Thread Local : Type*} [Fintype Thread]

/-- The number of threads that will still see to an item. -/
def serving (serves : Local → Bool) (locals : Thread → Local) : Nat :=
  countThreads (fun l => serves l = true) locals

/-- When somebody sleeps, all queued items are seen to. -/
def Covered (asleep serves : Local → Bool) (locals : Thread → Local) (queued : Nat) : Prop :=
  (∃ t, asleep (locals t) = true) → queued ≤ serving serves locals

theorem serving_eq_zero {serves : Local → Bool} {locals : Thread → Local}
    (h : ∀ t, serves (locals t) = false) : serving serves locals = 0 :=
  (countThreads_eq_zero_iff _ _).mpr fun t => by simp [h t]

theorem serving_update [DecidableEq Thread] (serves : Local → Bool) (locals : Thread → Local)
    (t : Thread) (l : Local) :
    serving serves (Function.update locals t l) + (if serves (locals t) then 1 else 0) =
      serving serves locals + (if serves l then 1 else 0) :=
  countThreads_update _ locals t l

namespace Covered

variable {asleep serves : Local → Bool} {locals : Thread → Local} {queued queued' : Nat}

theorem of_empty : Covered asleep serves locals 0 := fun _ => Nat.zero_le _

theorem of_nobody (hnobody : ∀ t, asleep (locals t) = false) :
    Covered asleep serves locals queued := by
  rintro ⟨t, ht⟩
  rw [hnobody t] at ht
  cases ht

variable [DecidableEq Thread] {t u : Thread} {l : Local}

/-- Thread `t` does not fall asleep, and the items and those who see to them balance. -/
theorem move (h : Covered asleep serves locals queued)
    (hasleep : asleep l = true → asleep (locals t) = true)
    (hbalance : queued' + (if serves (locals t) then 1 else 0) ≤
      queued + (if serves l then 1 else 0)) :
    Covered asleep serves (Function.update locals t l) queued' := by
  rintro ⟨u, hu⟩
  have hbefore : ∃ u, asleep (locals u) = true := by
    rcases eq_or_ne u t with rfl | hne
    · rw [Function.update_self] at hu
      exact ⟨u, hasleep hu⟩
    · rw [Function.update_of_ne hne] at hu
      exact ⟨u, hu⟩
  have hcovered := h hbefore
  have hcount := serving_update serves locals t l
  omega

/-- Thread `t` wakes up the sleeper `u`, which takes over its item. -/
theorem handover (h : Covered asleep serves locals queued) {l' : Local}
    (hne : t ≠ u) (hsleeper : asleep (locals u) = true) (hidle : serves (locals u) = false)
    (hwoken : serves l' = true) (hdone : asleep l = false) :
    Covered asleep serves (Function.update (Function.update locals u l') t l) queued := by
  have hfirst : Covered asleep serves (Function.update locals u l') (queued + 1) := by
    refine h.move (fun _ => hsleeper) ?_
    rw [hidle, hwoken]
    exact Nat.le_refl _
  refine hfirst.move (fun hl => absurd hl (by simp [hdone])) ?_
  rw [Function.update_of_ne hne]
  split <;> split <;> omega

end Covered

end Wakeup

end MoreCpp.Library
