import MoreCpp.Library.Mutex
import Mathlib.Algebra.Order.BigOperators.Group.Finset
import Mathlib.Data.List.Basic

/-!
`printer_multi` of `sample_boost/timer.cpp`: two timers count together, with handlers on one
strand that two threads run. A timer may expire late, and a thread that has nothing to do
may take either of two handlers that are ready.
-/

namespace MoreCpp.PrinterMulti

open Library

inductive Timer where
  | timer1
  | timer2
deriving DecidableEq

instance : Fintype Timer := ⟨{.timer1, .timer2}, fun t => by cases t <;> decide⟩

/-- The threads that call `io.run()`. -/
inductive Runner where
  | main
  | t
deriving DecidableEq

instance : Fintype Runner := ⟨{.main, .t}, fun r => by cases r <;> decide⟩

inductive Wait where
  /-- `async_wait` has been called. -/
  | armed
  /-- The handler is ready to be run. -/
  | expired
  /-- The handler runs, or has run and has not called `async_wait`. -/
  | handled
deriving DecidableEq

/-- Where a thread is, in the handler of which timer. -/
inductive Pc where
  | polling
  /-- `count_ < 10`. -/
  | test (timer : Timer)
  | print (timer : Timer)
  /-- `count_++`, of which this reads `count_`. -/
  | read (timer : Timer)
  | write (timer : Timer) (value : Nat)
  | rearm (timer : Timer)
  /-- `io.run()` has returned. -/
  | returned

structure State where
  count : Nat
  cout : List String
  wait : Timer → Wait
  /-- The thread that runs a handler of the strand. -/
  strand : Option Runner
  pc : Runner → Pc
  /-- The destructor has run. -/
  exited : Bool

def line : Timer → Nat → String
  | .timer1, count => "Tiimer 1: " ++ toString count ++ "\n"
  | .timer2, count => "Timer 2: " ++ toString count ++ "\n"

def finalLine (count : Nat) : String := "Final count is " ++ toString count ++ "\n"

inductive Step : State → Option Runner → State → Prop where
  | expire {s timer} (hwait : s.wait timer = .armed) :
      Step s none { s with wait := Function.update s.wait timer .expired }
  | dispatch {s r timer} (hpc : s.pc r = .polling) (hwait : s.wait timer = .expired)
      (hstrand : s.strand = none) : Step s (some r)
      { s with
        wait := Function.update s.wait timer .handled
        strand := some r
        pc := Function.update s.pc r (.test timer) }
  | test {s r timer} (hpc : s.pc r = .test timer) (hcount : s.count < 10) :
      Step s (some r) { s with pc := Function.update s.pc r (.print timer) }
  | stop {s r timer} (hpc : s.pc r = .test timer) (hcount : 10 ≤ s.count) : Step s (some r)
      { s with strand := none, pc := Function.update s.pc r .polling }
  | print {s r timer} (hpc : s.pc r = .print timer) : Step s (some r)
      { s with
        cout := s.cout ++ [line timer s.count]
        pc := Function.update s.pc r (.read timer) }
  | read {s r timer} (hpc : s.pc r = .read timer) :
      Step s (some r) { s with pc := Function.update s.pc r (.write timer s.count) }
  | write {s r timer value} (hpc : s.pc r = .write timer value) : Step s (some r)
      { s with count := value + 1, pc := Function.update s.pc r (.rearm timer) }
  | rearm {s r timer} (hpc : s.pc r = .rearm timer) : Step s (some r)
      { s with
        wait := Function.update s.wait timer .armed
        strand := none
        pc := Function.update s.pc r .polling }
  /-- There is no work left. -/
  | leave {s r} (hpc : s.pc r = .polling) (hwait : ∀ timer, s.wait timer = .handled)
      (hstrand : s.strand = none) :
      Step s (some r) { s with pc := Function.update s.pc r .returned }
  /-- `t.join()`, and the end of `pm`. -/
  | exit {s} (hpc : ∀ r, s.pc r = .returned) (hexited : s.exited = false) : Step s none
      { s with cout := s.cout ++ [finalLine s.count], exited := true }

def start : State := ⟨0, [], fun _ => .armed, none, fun _ => .polling, false⟩

def system : System State (Option Runner) where
  Init s := s = start
  Step := Step

/-! ## The invariant -/

/-- The timer whose handler a thread runs. -/
def Pc.timer : Pc → Option Timer
  | .test timer | .print timer | .read timer | .write timer _ | .rearm timer => some timer
  | _ => none

def Pc.inside (pc : Pc) : Bool := pc.timer.isSome

/-- What the timers have printed that have counted so far. -/
def lines (timers : List Timer) : List String := timers.mapIdx fun i timer => line timer i

theorem lines_append (timers : List Timer) (timer : Timer) :
    lines (timers ++ [timer]) = lines timers ++ [line timer timers.length] := by
  simp [lines, List.mapIdx_append]

/-- What the thread that runs a handler knows: whether the line is printed that is not
counted yet, and that it is not the last. -/
def Pc.Fits (count : Nat) (printed : Nat) : Pc → Prop
  | .polling | .returned | .test _ => printed = count ∧ count ≤ 10
  | .print _ => printed = count ∧ count < 10
  | .read _ => printed = count + 1 ∧ count < 10
  | .write _ value => printed = count + 1 ∧ count < 10 ∧ value = count
  | .rearm _ => printed = count ∧ count ≤ 10

structure Inv (s : State) : Prop where
  held : HeldBy Pc.inside s.pc s.strand
  printed : ∃ timers : List Timer,
    s.cout = lines timers ++ (if s.exited then [finalLine s.count] else []) ∧
      underLock (Pc.Fits s.count timers.length) (timers.length = s.count ∧ s.count ≤ 10) s.pc
        s.strand
  /-- A handler that runs is that of a timer that is not waited for. -/
  handled : ∀ r timer, (s.pc r).timer = some timer → s.wait timer = .handled
  /-- A timer that is waited for no more has seen the last count. -/
  spent : ∀ timer, s.wait timer = .handled →
    (∃ r, (s.pc r).timer = some timer) ∨ 10 ≤ s.count
  returned : ∀ r, s.pc r = .returned → s.strand = none ∧ ∀ timer, s.wait timer = .handled
  exited : s.exited = true → ∀ r, s.pc r = .returned

variable {s s' : State} {r : Runner} {timer : Timer} {p q : Pc} {count : Nat} {cout : List String}

theorem Inv.initial : Inv start where
  held := .initial fun _ => rfl
  printed := ⟨[], rfl, rfl, Nat.zero_le _⟩
  handled _ _ h := by cases h
  spent _ h := by cases h
  returned _ h := by cases h
  exited h := by cases h

namespace Inv

theorem of_timer (h : Inv s) (hpc : s.pc r = p) (hin : p.timer = some timer) :
    s.strand = some r := by
  refine h.held.holder ?_
  rw [hpc, Pc.inside, hin]
  rfl

/-- Before all threads have returned. -/
theorem not_exited (h : Inv s) (hpc : s.pc r ≠ .returned) : s.exited = false := by
  cases hexited : s.exited with
  | false => rfl
  | true => exact absurd (h.exited hexited r) hpc

theorem timer_ne (hin : p.timer = some timer) : p ≠ .returned := by
  rintro rfl
  cases hin

theorem printed_of_timer (h : Inv s) (hpc : s.pc r = p) (hin : p.timer = some timer) :
    ∃ timers, s.cout = lines timers ∧ p.Fits s.count timers.length := by
  obtain ⟨timers, hcout, hfits⟩ := h.printed
  rw [h.not_exited (hpc ▸ timer_ne hin), if_neg Bool.false_ne_true, List.append_nil] at hcout
  rw [h.of_timer hpc hin, underLock_some, hpc] at hfits
  exact ⟨timers, hcout, hfits⟩

/-- While the strand runs a handler no other thread does, and none has returned. -/
theorem others (h : Inv s) (hpc : s.pc r = p) (hin : p.timer = some timer) {u : Runner}
    (hu : u ≠ r) : (s.pc u).timer = none ∧ s.pc u ≠ .returned := by
  have hstrand := h.of_timer hpc hin
  constructor
  · cases hother : (s.pc u).timer with
    | none => rfl
    | some other =>
        have hsame := (h.of_timer rfl hother).symm.trans hstrand
        exact absurd (Option.some.inj hsame) hu
  · intro hreturned
    have hnone := (h.returned u hreturned).1
    rw [hstrand] at hnone
    cases hnone

/-- A thread goes on in its handler. -/
theorem run (h : Inv s) (hpc : s.pc r = p) (hin : p.timer = some timer)
    (hq : q.timer = some timer) (hcount : s.count ≤ count)
    (hprinted : ∃ timers, cout = lines timers ∧ q.Fits count timers.length) :
    Inv { s with count := count, cout := cout, pc := Function.update s.pc r q } := by
  have hsame : ∀ u, (Function.update s.pc r q u).timer = (s.pc u).timer := by
    intro u
    rcases eq_or_ne u r with rfl | hu
    · rw [Function.update_self, hq, hpc, hin]
    · rw [Function.update_of_ne hu]
  have hrunning := h.not_exited (hpc ▸ timer_ne hin)
  obtain ⟨timers, hcout, hfits⟩ := hprinted
  refine ⟨h.held.keep ?_, ⟨timers, ?_, ?_⟩, fun u timer' hu => h.handled u timer' ?_,
    fun timer' hwait => ?_, fun u hu => ?_, fun hexited => ?_⟩
  · rw [Pc.inside, Pc.inside, hq, hpc, hin]
  · dsimp only
    rw [hrunning, if_neg Bool.false_ne_true, List.append_nil, hcout]
  · dsimp only
    rw [h.of_timer hpc hin, underLock_some, Function.update_self]
    exact hfits
  · rw [← hsame u]
    exact hu
  · obtain ⟨u, hu⟩ | hlast := h.spent timer' hwait
    · exact .inl ⟨u, (hsame u).trans hu⟩
    · exact .inr (hlast.trans hcount)
  · dsimp only at hu
    rcases eq_or_ne u r with rfl | hne
    · rw [Function.update_self] at hu
      exact absurd hu (timer_ne hq)
    · rw [Function.update_of_ne hne] at hu
      exact absurd hu (h.others hpc hin hne).2
  · rw [hrunning] at hexited
    cases hexited

/-- A thread is done with its handler. -/
theorem finish (h : Inv s) (wait : Wait) (hpc : s.pc r = p) (hin : p.timer = some timer)
    (hwait : wait = .handled → 10 ≤ s.count)
    (hprinted : ∃ timers, s.cout = lines timers ∧ timers.length = s.count ∧ s.count ≤ 10) :
    Inv { s with
      wait := Function.update s.wait timer wait
      strand := none
      pc := Function.update s.pc r .polling } := by
  have hnobody : ∀ u, (Function.update s.pc r .polling u).timer = none ∧
      Function.update s.pc r .polling u ≠ .returned := by
    intro u
    rcases eq_or_ne u r with rfl | hu
    · rw [Function.update_self]
      exact ⟨rfl, nofun⟩
    · rw [Function.update_of_ne hu]
      exact h.others hpc hin hu
  have hrunning := h.not_exited (hpc ▸ timer_ne hin)
  obtain ⟨timers, hcout, hcounted⟩ := hprinted
  refine ⟨h.held.release ?_ rfl, ⟨timers, ?_, hcounted⟩, fun u timer' hu => ?_,
    fun timer' hover => ?_, fun u hu => absurd hu (hnobody u).2, fun hexited => ?_⟩
  · rw [hpc, Pc.inside, hin]
    rfl
  · dsimp only
    rw [hrunning, if_neg Bool.false_ne_true, List.append_nil, hcout]
  · rw [(hnobody u).1] at hu
    cases hu
  · dsimp only at hover
    rcases eq_or_ne timer' timer with rfl | hne
    · rw [Function.update_self] at hover
      exact .inr (hwait hover)
    · rw [Function.update_of_ne hne] at hover
      obtain ⟨u, hu⟩ | hlast := h.spent timer' hover
      · rcases eq_or_ne u r with rfl | hne'
        · rw [hpc, hin] at hu
          exact absurd (Option.some.inj hu).symm hne
        · rw [(h.others hpc hin hne').1] at hu
          cases hu
      · exact .inr hlast
  · rw [hrunning] at hexited
    cases hexited

theorem expire (h : Inv s) (hwait : s.wait timer = .armed) :
    Inv { s with wait := Function.update s.wait timer .expired } := by
  have hhandled : ∀ timer', Function.update s.wait timer .expired timer' = .handled ↔
      s.wait timer' = .handled := by
    intro timer'
    rcases eq_or_ne timer' timer with rfl | hne
    · rw [Function.update_self, hwait]
      exact iff_of_false nofun nofun
    · rw [Function.update_of_ne hne]
  exact ⟨h.held, h.printed, fun u timer' hu => (hhandled timer').mpr (h.handled u timer' hu),
    fun timer' hover => h.spent timer' ((hhandled timer').mp hover),
    fun u hu => ⟨(h.returned u hu).1, fun timer' => (hhandled timer').mpr ((h.returned u hu).2 timer')⟩,
    h.exited⟩

theorem dispatch (h : Inv s) (hpc : s.pc r = .polling) (hwait : s.wait timer = .expired)
    (hstrand : s.strand = none) : Inv { s with
      wait := Function.update s.wait timer .handled
      strand := some r
      pc := Function.update s.pc r (.test timer) } := by
  have hoff : ∀ u, s.pc u ≠ .returned := by
    intro u hu
    have hhandled := (h.returned u hu).2 timer
    rw [hwait] at hhandled
    cases hhandled
  have hrunning := h.not_exited (hoff r)
  have hfree := h.held
  obtain ⟨timers, hcout, hfits⟩ := h.printed
  rw [hstrand] at hfree hfits
  refine ⟨hfree.acquire rfl, ⟨timers, hcout, ?_⟩, fun u timer' hu => ?_, fun timer' hover => ?_,
    fun u hu => ?_, fun hexited => ?_⟩
  · dsimp only
    rw [underLock_some, Function.update_self]
    exact hfits
  · dsimp only at hu ⊢
    rcases eq_or_ne u r with rfl | hne
    · rw [Function.update_self] at hu
      cases hu
      exact Function.update_self ..
    · rw [Function.update_of_ne hne] at hu
      have hnone := hfree.outside_of_free u
      rw [Pc.inside, hu] at hnone
      cases hnone
  · dsimp only at hover ⊢
    rcases eq_or_ne timer' timer with rfl | hne
    · exact .inl ⟨r, by rw [Function.update_self]; rfl⟩
    · rw [Function.update_of_ne hne] at hover
      obtain ⟨u, hu⟩ | hlast := h.spent timer' hover
      · have hnone := hfree.outside_of_free u
        rw [Pc.inside, hu] at hnone
        cases hnone
      · exact .inr hlast
  · dsimp only at hu
    rcases eq_or_ne u r with rfl | hne
    · rw [Function.update_self] at hu
      cases hu
    · rw [Function.update_of_ne hne] at hu
      exact absurd hu (hoff u)
  · rw [hrunning] at hexited
    cases hexited

theorem leave (h : Inv s) (hpc : s.pc r = .polling) (hwait : ∀ timer, s.wait timer = .handled)
    (hstrand : s.strand = none) :
    Inv { s with pc := Function.update s.pc r .returned } := by
  have hrunning := h.not_exited (r := r) (by rw [hpc]; exact nofun)
  obtain ⟨timers, hcout, hfits⟩ := h.printed
  refine ⟨h.held.keep (by rw [hpc]; rfl), ⟨timers, hcout, ?_⟩, fun u timer' _ => hwait timer',
    fun timer' hover => ?_, fun u _ => ⟨hstrand, hwait⟩, fun hexited => ?_⟩
  · rw [hstrand] at hfits ⊢
    exact hfits
  · obtain ⟨u, hu⟩ | hlast := h.spent timer' hover
    · have hheld := h.of_timer rfl hu
      rw [hstrand] at hheld
      cases hheld
    · exact .inr hlast
  · rw [hrunning] at hexited
    cases hexited

theorem exit (h : Inv s) (hpc : ∀ r, s.pc r = .returned) (hexited : s.exited = false) :
    Inv { s with cout := s.cout ++ [finalLine s.count], exited := true } := by
  obtain ⟨timers, hcout, hfits⟩ := h.printed
  refine ⟨h.held, ⟨timers, ?_, hfits⟩, h.handled, h.spent, h.returned, fun _ => hpc⟩
  dsimp only
  rw [hcout, hexited, if_neg Bool.false_ne_true, if_pos rfl, List.append_nil]

theorem step (h : Inv s) {label : Option Runner} (hstep : Step s label s') : Inv s' := by
  cases hstep with
  | expire hwait => exact h.expire hwait
  | dispatch hpc hwait hstrand => exact h.dispatch hpc hwait hstrand
  | test hpc hcount =>
      obtain ⟨timers, hcout, hsame, -⟩ := h.printed_of_timer hpc rfl
      exact h.run hpc rfl rfl (Nat.le_refl _) ⟨timers, hcout, hsame, hcount⟩
  | @stop r timer hpc hcount =>
      obtain ⟨timers, hcout, hcounted⟩ := h.printed_of_timer hpc rfl
      have hdone := h.finish .handled hpc rfl (fun _ => hcount) ⟨timers, hcout, hcounted⟩
      rwa [← h.handled _ timer (by rw [hpc]; rfl), Function.update_eq_self] at hdone
  | @print r timer hpc =>
      obtain ⟨timers, hcout, hsame, hless⟩ := h.printed_of_timer hpc rfl
      refine h.run hpc rfl rfl (Nat.le_refl _) ⟨timers ++ [timer], ?_, ?_, hless⟩
      · rw [lines_append, hcout, hsame]
      · rw [List.length_append, hsame]
        rfl
  | read hpc =>
      obtain ⟨timers, hcout, hsame, hless⟩ := h.printed_of_timer hpc rfl
      exact h.run hpc rfl rfl (Nat.le_refl _) ⟨timers, hcout, hsame, hless, rfl⟩
  | write hpc =>
      obtain ⟨timers, hcout, hsame, hless, rfl⟩ := h.printed_of_timer hpc rfl
      exact h.run hpc rfl rfl (Nat.le_succ _) ⟨timers, hcout, hsame, hless⟩
  | rearm hpc =>
      obtain ⟨timers, hcout, hcounted⟩ := h.printed_of_timer hpc rfl
      exact h.finish .armed hpc rfl nofun ⟨timers, hcout, hcounted⟩
  | leave hpc hwait hstrand => exact h.leave hpc hwait hstrand
  | exit hpc hexited => exact h.exit hpc hexited

end Inv

theorem inv_of_reachable (hs : system.Reachable s) : Inv s :=
  System.reachable_invariant system Inv (fun _ hinit => hinit ▸ .initial)
    (fun _ _ _ _ h hstep => h.step hstep) s hs

/-! ## Every run ends -/

def Wait.left : Wait → Nat
  | .armed => 3
  | .expired => 2
  | .handled => 0

def Pc.left : Pc → Nat
  | .polling => 3
  | .test _ => 4
  | .print _ => 3
  | .read _ => 2
  | .write _ _ => 1
  | .rearm _ => 7
  | .returned => 2

/-- How many steps there are before `pm` has ended, and four more. -/
def State.left (s : State) : Nat :=
  ∑ timer, (s.wait timer).left + ∑ r, (s.pc r).left + 7 * (10 - s.count) +
    if s.exited then 0 else 1

theorem Inv.left_step (h : Inv s) {label : Option Runner} (hstep : Step s label s') :
    s'.left + 1 = s.left := by
  have hwaits := sum_threads_update Wait.left s.wait
  have hpcs := sum_threads_update Pc.left s.pc
  cases hstep with
  | @expire timer hwait =>
      have hsum := hwaits timer .expired
      rw [hwait] at hsum
      simp only [State.left, Wait.left] at hsum ⊢
      omega
  | @dispatch r timer hpc hwait hstrand =>
      have hsum := hwaits timer .handled
      have hsum' := hpcs r (.test timer)
      rw [hwait] at hsum
      rw [hpc] at hsum'
      simp only [State.left, Wait.left, Pc.left] at hsum hsum' ⊢
      omega
  | @test r timer hpc hcount =>
      have hsum := hpcs r (.print timer)
      rw [hpc] at hsum
      simp only [State.left, Pc.left] at hsum ⊢
      omega
  | @stop r timer hpc hcount =>
      have hsum := hpcs r .polling
      rw [hpc] at hsum
      simp only [State.left, Pc.left] at hsum ⊢
      omega
  | @print r timer hpc =>
      have hsum := hpcs r (.read timer)
      rw [hpc] at hsum
      simp only [State.left, Pc.left] at hsum ⊢
      omega
  | @read r timer hpc =>
      have hsum := hpcs r (.write timer s.count)
      rw [hpc] at hsum
      simp only [State.left, Pc.left] at hsum ⊢
      omega
  | @write r timer value hpc =>
      obtain ⟨timers, -, -, hless, rfl⟩ := h.printed_of_timer hpc rfl
      have hsum := hpcs r (.rearm timer)
      rw [hpc] at hsum
      simp only [State.left, Pc.left] at hsum ⊢
      omega
  | @rearm r timer hpc =>
      have hsum := hwaits timer .armed
      have hsum' := hpcs r .polling
      rw [h.handled r timer (by rw [hpc]; rfl)] at hsum
      rw [hpc] at hsum'
      simp only [State.left, Wait.left, Pc.left] at hsum hsum' ⊢
      omega
  | @leave r hpc hwait hstrand =>
      have hsum := hpcs r .returned
      rw [hpc] at hsum
      simp only [State.left, Pc.left] at hsum ⊢
      omega
  | exit hpc hexited => simp [State.left, hexited]

theorem left_run {labels : List (Option Runner)} (hrun : system.Run start labels s) :
    labels.length + s.left = 83 := by
  have hreach : ∀ {s labels}, system.Run start labels s → system.Reachable s :=
    fun hrun => System.Reachable.run _ (.start rfl) hrun
  generalize hstart : start = s₀ at hrun
  induction hrun with
  | refl =>
      subst hstart
      rfl
  | snoc hrun hlast ih =>
      subst hstart
      have hleft := (inv_of_reachable (hreach hrun)).left_step hlast
      rw [List.length_append, List.length_singleton]
      omega

namespace Inv

theorem four_le_left (h : Inv s) : 4 ≤ s.left := by
  by_cases hcount : s.count < 10
  · unfold State.left
    omega
  · have htwo : ∀ r, 2 ≤ (s.pc r).left := by
      intro r
      cases hpc : s.pc r with
      | write timer value =>
          obtain ⟨timers, -, -, hless, -⟩ := h.printed_of_timer hpc rfl
          exact absurd hless hcount
      | _ => simp [Pc.left]
    have hsum : 4 ≤ ∑ r, (s.pc r).left :=
      Finset.card_nsmul_le_sum Finset.univ (fun r => (s.pc r).left) 2 fun r _ => htwo r
    unfold State.left
    omega

theorem strand_none (h : Inv s) (hnobody : ∀ r, (s.pc r).inside = false) : s.strand = none := by
  cases hstrand : s.strand with
  | none => rfl
  | some r =>
      have hinside := (h.held r).mpr hstrand
      rw [hnobody r] at hinside
      cases hinside

theorem not_stuck (h : Inv s) : (∃ label s', Step s label s') ∨ s.exited = true := by
  by_cases hinside : ∃ r, (s.pc r).inside = true
  · obtain ⟨r, hr⟩ := hinside
    cases hpc : s.pc r with
    | test timer =>
        by_cases hcount : s.count < 10
        · exact .inl ⟨_, _, .test hpc hcount⟩
        · exact .inl ⟨_, _, .stop hpc (Nat.not_lt.mp hcount)⟩
    | print timer => exact .inl ⟨_, _, .print hpc⟩
    | read timer => exact .inl ⟨_, _, .read hpc⟩
    | write timer value => exact .inl ⟨_, _, .write hpc⟩
    | rearm timer => exact .inl ⟨_, _, .rearm hpc⟩
    | _ =>
        rw [hpc] at hr
        cases hr
  · have hnobody : ∀ r, (s.pc r).inside = false := fun r =>
      Bool.eq_false_iff.mpr fun hr => hinside ⟨r, hr⟩
    have hstrand := h.strand_none hnobody
    have hpolls : ∀ r, s.pc r ≠ .returned → s.pc r = .polling := by
      intro r hr
      have hout := hnobody r
      cases hpc : s.pc r with
      | polling => rfl
      | returned => exact absurd hpc hr
      | _ =>
          rw [hpc] at hout
          cases hout
    by_cases hover : ∀ timer, s.wait timer = .handled
    · by_cases hreturned : ∀ r, s.pc r = .returned
      · cases hexited : s.exited with
        | false => exact .inl ⟨_, _, .exit hreturned hexited⟩
        | true => exact .inr rfl
      · obtain ⟨r, hr⟩ := not_forall.mp hreturned
        exact .inl ⟨_, _, .leave (hpolls r hr) hover hstrand⟩
    · obtain ⟨timer, htimer⟩ := not_forall.mp hover
      cases hwait : s.wait timer with
      | armed => exact .inl ⟨_, _, .expire hwait⟩
      | expired =>
          have hpc := hpolls .main fun hr => htimer ((h.returned .main hr).2 timer)
          exact .inl ⟨_, _, .dispatch hpc hwait hstrand⟩
      | handled => exact absurd hwait htimer

theorem cout_exited (h : Inv s) (hexited : s.exited = true) :
    ∃ timers, timers.length = 10 ∧ s.cout = lines timers ++ [finalLine 10] := by
  have hreturned := h.exited hexited
  obtain ⟨timers, hcout, hfits⟩ := h.printed
  obtain ⟨hstrand, hover⟩ := h.returned .main (hreturned .main)
  rw [hstrand] at hfits
  obtain ⟨hsame, hmost⟩ := hfits
  have hlast : s.count = 10 := by
    obtain ⟨u, hu⟩ | hleast := h.spent .timer1 (hover .timer1)
    · rw [hreturned u] at hu
      cases hu
    · exact Nat.le_antisymm hmost hleast
  refine ⟨timers, hsame.trans hlast, ?_⟩
  rw [hcout, hexited, if_pos rfl, hlast]

theorem cout_running (h : Inv s) (hrunning : s.exited = false) :
    ∃ timers, timers.length ≤ 10 ∧ s.cout = lines timers := by
  obtain ⟨timers, hcout, hfits⟩ := h.printed
  rw [hrunning, if_neg Bool.false_ne_true, List.append_nil] at hcout
  refine ⟨timers, ?_, hcout⟩
  cases hstrand : s.strand with
  | none =>
      rw [hstrand] at hfits
      obtain ⟨hsame, hmost⟩ := hfits
      exact hsame.trans_le hmost
  | some r =>
      rw [hstrand, underLock_some] at hfits
      cases hpc : s.pc r <;> rw [hpc] at hfits <;> simp only [Pc.Fits] at hfits <;> omega

end Inv

/-- Whichever timer is first each time and whichever thread runs its handler: the handlers run
one at a time, every number below ten is printed once and in order, and then the count is ten
and both threads return. -/
theorem counts_to_ten {labels : List (Option Runner)} (hrun : system.Run start labels s) :
    labels.length ≤ 79 ∧
    (∀ r u, (s.pc r).inside = true → (s.pc u).inside = true → u = r) ∧
    (s.exited = false → ∃ timers, timers.length ≤ 10 ∧ s.cout = lines timers) ∧
    (s.exited = true → ∃ timers, timers.length = 10 ∧ s.cout = lines timers ++ [finalLine 10]) ∧
    ((∃ label s', Step s label s') ∨ s.exited = true) := by
  have h := inv_of_reachable (System.Reachable.run _ (.start rfl) hrun)
  have hleft := left_run hrun
  have hleast := h.four_le_left
  exact ⟨by omega, fun r u hr hu => h.held.exclusive hr hu, h.cout_running,
    h.cout_exited, h.not_stuck⟩

/-- The second thread runs the handler of the first timer. -/
theorem counts_to_ten_first : ∃ labels s, system.Run start labels s ∧ labels.length ≤ 79 ∧
    s.cout = ["Tiimer 1: 0\n"] := by
  have begin : system.Run start [] start := .refl start
  have expire := begin.snoc (@Step.expire _ .timer1 rfl)
  have dispatch := expire.snoc (@Step.dispatch _ .t .timer1 rfl rfl rfl)
  have test := dispatch.snoc (.test (r := .t) rfl (by decide))
  have print := test.snoc (.print (r := .t) rfl)
  exact ⟨_, _, print, (counts_to_ten print).1, rfl⟩

end MoreCpp.PrinterMulti
