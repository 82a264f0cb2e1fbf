import MoreCpp.Library.Monitor
import Mathlib.Algebra.BigOperators.Fin
import Mathlib.Algebra.BigOperators.Group.Finset.Sigma
import Mathlib.Algebra.BigOperators.Intervals
import Mathlib.Algebra.Order.BigOperators.Group.Finset
import Mathlib.Data.Fintype.BigOperators
import Mathlib.Data.Fintype.Option
import Mathlib.Data.List.Perm.Basic
import Mathlib.Tactic.Ring

/-!
The stacks behind one mutex: `ThreadSafe_Stack` of `concurrency/my_stack.cpp` and
`threadsafe_stack` of `concurrency/lock_base_stack.cpp`. The two differ in how a
value leaves the stack: it is copied, or it is moved from and stands there empty
until `data.pop()`. Both overloads of `pop` take the same steps.

Memory may run out, and a copy may throw, at each step that makes something.
-/

namespace MoreCpp.ThreadSafeStack

open Library

/-- An element of `data`, or what a move left of one. -/
abbrev Slot (V : Type*) := Option V

inductive Call (V : Type*) where
  | push (value : V)
  | pop
  | empty
  /-- The copy constructor of another stack, called with this one. -/
  | copy
  deriving DecidableEq

inductive Res (V : Type*) where
  | pushed
  | popped (value : Slot V)
  /-- `throw empty_stack()`. -/
  | emptyStack
  | isEmpty (result : Bool)
  | copied (data : List (Slot V))
  /-- Any other exception. -/
  | failed

/-- Program points under the lock. -/
inductive Local (V : Type*) where
  /-- `data.push(std::move(new_value))`. -/
  | pushStore (value : V)
  /-- `if (data.empty())`. -/
  | popTest
  /-- `make_shared<T>(data.top())`, or the assignment of `data.top()`. -/
  | popTake
  /-- `data.pop()`. -/
  | popRemove (value : Slot V)
  /-- `return data.empty()`. -/
  | emptyTest
  /-- `data = o.data`. -/
  | copyData
  | returning (res : Res V)

variable {V : Type*}

def enter : Call V → Local V
  | .push value => .pushStore value
  | .pop => .popTest
  | .empty => .emptyTest
  | .copy => .copyData

/-- Steps on `data`, its top first. -/
inductive Step (moves : Bool) : List (Slot V) → Local V → List (Slot V) → Local V → Prop where
  | pushStore {data value} :
      Step moves data (.pushStore value) (some value :: data) (.returning .pushed)
  | pushFails {data value} : Step moves data (.pushStore value) data (.returning .failed)
  | popEmpty : Step moves [] .popTest [] (.returning .emptyStack)
  | popSome {slot data} : Step moves (slot :: data) .popTest (slot :: data) .popTake
  | popTake {slot data} :
      Step moves (slot :: data) .popTake ((if moves then none else slot) :: data) (.popRemove slot)
  | popFails {data} : Step moves data .popTake data (.returning .failed)
  | popRemove {slot data value} :
      Step moves (slot :: data) (.popRemove value) data (.returning (.popped value))
  | emptyTest {data} : Step moves data .emptyTest data (.returning (.isEmpty data.isEmpty))
  | copyData {data} : Step moves data .copyData data (.returning (.copied data))
  | copyFails {data} : Step moves data .copyData data (.returning .failed)

def Local.result : Local V → Option (Res V)
  | .returning res => some res
  | _ => none

/-- A stack whose values are moved out of it, or copied. -/
def stack (V : Type*) (moves : Bool) : Monitor (List (Slot V)) (Local V) (Call V) (Res V) where
  initial := []
  shares _ := false
  enter := enter
  Step := Step moves
  result := Local.result

theorem stack_reading (moves : Bool) : (stack V moves).SharesReading := by
  intro call _ _ _ _ hshares
  cases hshares

/-! ## The stack they are -/

/-- A stack of values, its top first, on which a call that fails does nothing. -/
inductive Spec.Step : List V → Call V × Res V → List V → Prop where
  | push {values value} : Step values (.push value, .pushed) (value :: values)
  | pop {value values} : Step (value :: values) (.pop, .popped (some value)) values
  | popEmpty : Step [] (.pop, .emptyStack) []
  | empty {values} : Step values (.empty, .isEmpty values.isEmpty) values
  | copy {values} : Step values (.copy, .copied (values.map some)) values
  | pushFails {values value} : Step values (.push value, .failed) values
  | popFails {value values} : Step (value :: values) (.pop, .failed) (value :: values)
  | copyFails {values} : Step values (.copy, .failed) values

variable {Tid : Type*}

/-- The calls, oldest first, take a new stack to `values`. -/
inductive History : List (Tid × Call V × Res V) → List V → Prop where
  | new : History [] []
  | snoc {log values t event values'} : History log values → Spec.Step values event values' →
      History (log ++ [(t, event)]) values'

def pushed : Tid × Call V × Res V → Option V
  | (_, .push value, .pushed) => some value
  | _ => none

def popped : Tid × Call V × Res V → Option V
  | (_, _, .popped slot) => slot
  | _ => none

/-- The values pushed, oldest first. -/
def pushedValues (log : List (Tid × Call V × Res V)) : List V := log.filterMap pushed

/-- The values popped, oldest first. -/
def poppedValues (log : List (Tid × Call V × Res V)) : List V := log.filterMap popped

theorem pushedValues_concat (log : List (Tid × Call V × Res V)) (event : Tid × Call V × Res V) :
    pushedValues (log ++ [event]) = pushedValues log ++ (pushed event).toList := by
  cases hevent : pushed event <;> simp [pushedValues, hevent]

theorem poppedValues_concat (log : List (Tid × Call V × Res V)) (event : Tid × Call V × Res V) :
    poppedValues (log ++ [event]) = poppedValues log ++ (popped event).toList := by
  cases hevent : popped event <;> simp [poppedValues, hevent]

/-- What a call pops and what it leaves is what was there and what it pushes. -/
theorem Spec.Step.conserves {values values' : List V} {event : Call V × Res V}
    (h : Spec.Step values event values') (t : Tid) :
    ((pushed (t, event)).toList ++ values).Perm ((popped (t, event)).toList ++ values') := by
  cases h <;> exact .refl _

/-- What was pushed has been popped or is still there. -/
theorem History.conserves {log : List (Tid × Call V × Res V)} {values : List V}
    (h : History log values) : (pushedValues log).Perm (poppedValues log ++ values) := by
  induction h with
  | new => exact .nil
  | @snoc log values t event values' _ hstep ih =>
      rw [pushedValues_concat, poppedValues_concat, List.append_assoc]
      have hold : (pushedValues log ++ (pushed (t, event)).toList).Perm
          ((poppedValues log ++ values) ++ (pushed (t, event)).toList) := ih.append_right _
      have hswap : (values ++ (pushed (t, event)).toList).Perm
          ((popped (t, event)).toList ++ values') :=
        List.perm_append_comm.trans (hstep.conserves t)
      rw [List.append_assoc] at hold
      exact hold.trans (hswap.append_left _)

/-! ## What a call comes to -/

/-- Where a call is that found `values`, and what it has made of `data`. -/
def Reached (moves : Bool) (call : Call V) (values : List V) (data : List (Slot V)) :
    Local V → Prop
  | .pushStore value => call = .push value ∧ data = values.map some
  | .popTest => call = .pop ∧ data = values.map some
  | .popTake => call = .pop ∧ values ≠ [] ∧ data = values.map some
  | .popRemove slot => ∃ value rest, call = .pop ∧ values = value :: rest ∧ slot = some value ∧
      data = (if moves then none else some value) :: rest.map some
  | .emptyTest => call = .empty ∧ data = values.map some
  | .copyData => call = .copy ∧ data = values.map some
  | .returning res => ∃ values', Spec.Step values (call, res) values' ∧ data = values'.map some

variable {moves : Bool} {call : Call V} {values : List V} {data data' : List (Slot V)}
  {l l' : Local V}

theorem Reached.enter (moves : Bool) (call : Call V) (values : List V) :
    Reached moves call values (values.map some) (enter call) := by
  cases call <;> exact ⟨rfl, rfl⟩

theorem Reached.step (h : Reached moves call values data l) (hstep : Step moves data l data' l') :
    Reached moves call values data' l' := by
  cases hstep with
  | pushStore =>
      obtain ⟨rfl, rfl⟩ := h
      exact ⟨_, .push, rfl⟩
  | pushFails =>
      obtain ⟨rfl, rfl⟩ := h
      exact ⟨_, .pushFails, rfl⟩
  | popEmpty =>
      obtain ⟨rfl, hdata⟩ := h
      obtain rfl : values = [] := List.map_eq_nil_iff.mp hdata.symm
      exact ⟨_, .popEmpty, rfl⟩
  | popSome =>
      obtain ⟨rfl, hdata⟩ := h
      refine ⟨rfl, ?_, hdata⟩
      rintro rfl
      cases hdata
  | popTake =>
      obtain ⟨rfl, hne, hdata⟩ := h
      obtain ⟨value, rest, rfl⟩ := List.exists_cons_of_ne_nil hne
      cases hdata
      exact ⟨value, rest, rfl, rfl, rfl, rfl⟩
  | popFails =>
      obtain ⟨rfl, hne, rfl⟩ := h
      obtain ⟨value, rest, rfl⟩ := List.exists_cons_of_ne_nil hne
      exact ⟨_, .popFails, rfl⟩
  | popRemove =>
      obtain ⟨value, rest, rfl, rfl, rfl, hdata⟩ := h
      cases hdata
      exact ⟨rest, .pop, rfl⟩
  | emptyTest =>
      obtain ⟨rfl, rfl⟩ := h
      refine ⟨values, ?_, rfl⟩
      rw [List.isEmpty_map]
      exact .empty
  | copyData =>
      obtain ⟨rfl, rfl⟩ := h
      exact ⟨_, .copy, rfl⟩
  | copyFails =>
      obtain ⟨rfl, rfl⟩ := h
      exact ⟨_, .copyFails, rfl⟩

theorem reached_of_body (h : (stack V moves).Body call (values.map some) data l) :
    Reached moves call values data l := by
  induction h with
  | enter => exact .enter moves call values
  | step _ hstep ih => exact ih.step hstep

/-- A call looks for the top only of a stack that is not empty. -/
theorem Reached.top_ne (h : Reached moves call values data l)
    (htop : l = .popTake ∨ ∃ slot, l = .popRemove slot) : data ≠ [] := by
  obtain rfl | ⟨slot, rfl⟩ := htop
  · obtain ⟨-, hne, rfl⟩ := h
    exact fun hnil => hne (List.map_eq_nil_iff.mp hnil)
  · obtain ⟨value, rest, -, -, -, rfl⟩ := h
    exact List.cons_ne_nil _ _

theorem Reached.live (h : Reached moves call values data l) :
    l.result.isSome = true ∨ ∃ data' l', Step moves data l data' l' := by
  cases l with
  | pushStore value => exact .inr ⟨_, _, .pushStore⟩
  | popTest =>
      cases data with
      | nil => exact .inr ⟨_, _, .popEmpty⟩
      | cons slot data => exact .inr ⟨_, _, .popSome⟩
  | popTake =>
      obtain ⟨slot, data, rfl⟩ := List.exists_cons_of_ne_nil (h.top_ne (.inl rfl))
      exact .inr ⟨_, _, .popTake⟩
  | popRemove slot =>
      obtain ⟨top, data, rfl⟩ := List.exists_cons_of_ne_nil (h.top_ne (.inr ⟨slot, rfl⟩))
      exact .inr ⟨_, _, .popRemove⟩
  | emptyTest => exact .inr ⟨_, _, .emptyTest⟩
  | copyData => exact .inr ⟨_, _, .copyData⟩
  | returning res => exact .inl rfl

theorem stack_liveAt (moves : Bool) (values : List V) :
    (stack V moves).LiveAt (values.map some) := fun _ _ _ h => (reached_of_body h).live

theorem spec_of_runs {res : Res V} (h : (stack V moves).Runs call (values.map some) data res) :
    ∃ values', Spec.Step values (call, res) values' ∧ data = values'.map some := by
  obtain ⟨l, hbody, hresult⟩ := h
  have hreached := reached_of_body hbody
  cases l with
  | returning res' =>
      cases hresult
      exact hreached
  | _ => cases hresult

section Any

variable {Client : Type*} [DecidableEq Tid] {p : Clients Tid Client (Call V) (Res V)}

/-- The calls of the log, made at once, leave a stack with nothing moved from. -/
def Stacked (x : Monitor.Moment Tid Client (List (Slot V)) (Call V) (Res V)) : Prop :=
  ∃ values, x.data = values.map some ∧ History x.log values

theorem Stacked.step {x x' : Monitor.Moment Tid Client (List (Slot V)) (Call V) (Res V)}
    {event : Tid × Call V × Res V} (h : Stacked x)
    (hstep : Monitor.AtomicStep (stack V moves) p x event x') : Stacked x' := by
  obtain ⟨values, hdata, hlog⟩ := h
  cases hstep with
  | call _ hruns _ =>
      rw [hdata] at hruns
      obtain ⟨values', hspec, hdata'⟩ := spec_of_runs hruns
      exact ⟨values', hdata', hlog.snoc hspec⟩

end Any

/-- For any number of threads and any calls: taken in the order in which they release
the mutex, the calls are those of a stack, whose values stand in `data` whenever nobody
holds the mutex; what was pushed has been popped once or is still there; and a call
under the mutex can always go on, and looks for the top only where there is one. -/
theorem locked_linearizable [DecidableEq Tid] (moves : Bool)
    (s : Monitor.State Tid Unit (List (Slot V)) (Local V) (Call V) (Res V))
    (hs : (Monitor.system (stack V moves) (Clients.anyCalls Tid (Call V) (Res V))).Reachable s) :
    ∃ values : List V, History s.log values ∧
      (pushedValues s.log).Perm (poppedValues s.log ++ values) ∧
      ((∀ t call l, s.pc t ≠ .inside call l) → s.data = values.map some) ∧
      ∀ t call l, s.pc t = .inside call l →
        (∃ s', Monitor.ThreadStep (stack V moves) (Clients.anyCalls Tid (Call V) (Res V)) s t s') ∧
        (l = .popTake ∨ (∃ slot, l = .popRemove slot) → s.data ≠ []) := by
  obtain ⟨base, h, values, hbase, hlog⟩ := Monitor.invariant (stack_reading moves)
    Clients.anyCalls_stable Stacked ⟨[], rfl, .new⟩ (fun _ _ _ hx => hx.step) hs
  refine ⟨values, hlog, hlog.conserves, fun hfree => ?_, fun t call l hpc => ?_⟩
  · rw [h.unchanged fun t call l hpc => absurd hpc (hfree t call l)]
    exact hbase
  · have hbody := h.body t call l hpc
    rw [show base = values.map some from hbase] at hbody
    have hreached := reached_of_body hbody
    refine ⟨?_, hreached.top_ne⟩
    obtain hresult | ⟨data, l', hstep⟩ := hreached.live
    · obtain ⟨res, hresult⟩ := Option.isSome_iff_exists.mp hresult
      exact ⟨_, .release hpc hresult rfl⟩
    · exact ⟨_, .body hpc hstep⟩

/-- One thread has pushed a value, and another one has moved it out of the stack. -/
theorem locked_linearizable_moved : ∃ s : Monitor.State Bool Unit (List (Slot Nat)) (Local Nat)
    (Call Nat) (Res Nat), s.log = [(true, .push 7, .pushed)] ∧ s.data = [none] ∧
      ∃ values, History s.log values ∧ (pushedValues s.log).Perm (poppedValues s.log ++ values) := by
  have start : (Monitor.system (stack Nat true) (Clients.anyCalls Bool (Call Nat) (Res Nat))).Reachable
    _ := .start rfl
  have called := start.next (.call (t := true) (a := .push 7) rfl trivial)
  have entered := called.next (.acquire (t := true) rfl (by simp))
  have stored := entered.next (.body (t := true) rfl .pushStore)
  have pushed := stored.next (.release (t := true) rfl rfl rfl)
  have asked := pushed.next (.call (t := false) (a := .pop) rfl trivial)
  have taken := asked.next (.acquire (t := false) rfl (by simp))
  have tested := taken.next (.body (t := false) rfl .popSome)
  have moved := tested.next (.body (t := false) rfl .popTake)
  obtain ⟨values, hlog, hconserves, -⟩ := locked_linearizable true _ moved
  exact ⟨_, rfl, rfl, values, hlog, hconserves⟩

end MoreCpp.ThreadSafeStack

/-! ## The producers

`test_multiple_producers_keep_all_values` of `concurrency/my_stack.cpp`: producers push
their values, the main thread joins them, and then it pops while the stack is not empty.
The main thread is the thread `none`. Counts do not overflow.
-/

namespace MoreCpp.ThreadSafeStack

open Library Finset

inductive Client where
  /-- A producer, and what it has not pushed yet. -/
  | producer (todo : List Int)
  /-- `while (!values.empty())`, from joining the producers on. -/
  | testing (count : Nat) (total : Int)
  /-- `total += *values.pop()`. -/
  | popping (count : Nat) (total : Int)
  | done (count : Nat) (total : Int)

variable {Producer : Type*}

inductive Calls (client : Option Producer → Client) (t : Option Producer) : Call Int → Prop where
  | push {value todo} (ht : client t = .producer (value :: todo)) : Calls client t (.push value)
  /-- The producers have been joined. -/
  | empty {count total} (ht : client t = .testing count total)
      (hjoined : ∀ u todo, client u = .producer todo → todo = []) : Calls client t .empty
  | pop {count total} (ht : client t = .popping count total) : Calls client t .pop

/-- An exception ends the program. -/
def resume : Client → Call Int → Res Int → Option Client
  | .producer (_ :: todo), .push _, .pushed => some (.producer todo)
  | .testing count total, .empty, .isEmpty result =>
      some (if result then .done count total else .popping count total)
  | .popping count total, .pop, .popped (some value) => some (.testing (count + 1) (total + value))
  | _, _, _ => none

def start (values : Producer → List Int) : Option Producer → Client
  | none => .testing 0 0
  | some producer => .producer (values producer)

def clients (values : Producer → List Int) :
    Clients (Option Producer) Client (Call Int) (Res Int) where
  start := start values
  Calls := Calls
  resume := resume

/-- What a call that returned says, and where the thread is then. -/
inductive Resumed : Client → Call Int → Res Int → Client → Prop where
  | pushed {value todo value'} :
      Resumed (.producer (value :: todo)) (.push value') .pushed (.producer todo)
  | drained {count total} :
      Resumed (.testing count total) .empty (.isEmpty true) (.done count total)
  | more {count total} :
      Resumed (.testing count total) .empty (.isEmpty false) (.popping count total)
  | popped {count total value} :
      Resumed (.popping count total) .pop (.popped (some value)) (.testing (count + 1) (total + value))

theorem resumed {c c' : Client} {call : Call Int} {res : Res Int}
    (h : resume c call res = some c') : Resumed c call res c' := by
  unfold resume at h
  split at h
  · cases h
    exact .pushed
  · rename_i count total result
    cases result with
    | true =>
        cases h
        exact .drained
    | false =>
        cases h
        exact .more
  · cases h
    exact .popped
  · cases h

variable [DecidableEq Producer] {values : Producer → List Int} {moves : Bool}

theorem clients_stable : (clients values).Stable := by
  intro client t u call call' res c hcalls hne hresume
  have hmoved := resumed hresume
  cases hcalls with
  | push ht => exact .push (by rwa [Function.update_of_ne (Ne.symm hne)])
  | pop ht => exact .pop (by rwa [Function.update_of_ne (Ne.symm hne)])
  | empty ht hjoined =>
      refine .empty (by rwa [Function.update_of_ne (Ne.symm hne)]) fun v todo hv => ?_
      obtain ⟨rfl, rfl⟩ | ⟨-, hv⟩ := Monitor.update_eq_iff.mp hv
      · generalize hold : client v = old at hmoved
        cases hmoved with
        | pushed => cases hjoined v _ hold
      · exact hjoined v todo hv

/-! ## Nothing is lost -/

/-- What a thread has not pushed yet. -/
def Client.todo : Client → Multiset Int
  | .producer todo => todo
  | _ => 0

variable [Fintype Producer]

/-- All values there are. -/
def allValues (values : Producer → List Int) : Multiset Int := ∑ producer, (values producer : Multiset Int)

/-- How far the main thread is that has popped `taken`, on a stack of `left`. -/
def Drains (taken : Multiset Int) (left : List Int) (joined : Prop) : Client → Prop
  | .producer _ => False
  | .testing count total => count = taken.card ∧ total = taken.sum ∧ (taken ≠ 0 → joined)
  | .popping count total => count = taken.card ∧ total = taken.sum ∧ joined ∧ left ≠ []
  | .done count total => count = taken.card ∧ total = taken.sum ∧ joined ∧ left = []

structure Accounted (values : Producer → List Int) (data : List (Slot Int))
    (client : Option Producer → Client) : Prop where
  producers : ∀ producer, ∃ todo, client (some producer) = .producer todo
  main : ∃ (taken : Multiset Int) (left : List Int), data = left.map some ∧
    taken + (left : Multiset Int) + ∑ t, (client t).todo = allValues values ∧
    Drains taken left (∀ u todo, client u = .producer todo → todo = []) (client none)

namespace Accounted

variable {data data' : List (Slot Int)} {client : Option Producer → Client} {t : Option Producer}
  {c : Client} {taken : Multiset Int} {left : List Int}

omit [DecidableEq Producer] in
theorem initial : Accounted values [] (start values) where
  producers producer := ⟨values producer, rfl⟩
  main := by
    refine ⟨0, [], rfl, ?_, rfl, rfl, fun h => absurd rfl h⟩
    rw [Fintype.sum_option, Multiset.coe_nil, zero_add, zero_add]
    exact zero_add _

omit [DecidableEq Producer] in
/-- Only a producer has anything to push. -/
theorem eq_main (h : Accounted values data client) (hproducer : ∀ todo, client t ≠ .producer todo) :
    t = none := by
  cases t with
  | none => rfl
  | some producer =>
      obtain ⟨todo, htodo⟩ := h.producers producer
      exact absurd htodo (hproducer todo)

/-- A producer pushes a value. -/
theorem push (h : Accounted values data client) {value : Int} {todo : List Int}
    (ht : client t = .producer (value :: todo)) :
    Accounted values (some value :: data) (Function.update client t (.producer todo)) := by
  obtain ⟨taken, left, rfl, hall, hdrains⟩ := h.main
  have hworking : ¬ ∀ u todo, client u = .producer todo → todo = [] := fun hjoined => by
    cases hjoined t _ ht
  have hmain : t ≠ none := by
    rintro rfl
    rw [ht] at hdrains
    exact hdrains
  refine ⟨fun producer => ?_, taken, value :: left, rfl, ?_, ?_⟩
  · rcases eq_or_ne (some producer) t with rfl | hne
    · exact ⟨todo, Function.update_self ..⟩
    · rw [Function.update_of_ne hne]
      exact h.producers producer
  · have hsum := sum_threads_update Client.todo client t (.producer todo)
    rw [ht] at hsum
    have hvalue : Client.todo (.producer (value :: todo)) = {value} + Client.todo (.producer todo) :=
      rfl
    rw [hvalue, ← add_assoc, add_right_cancel_iff] at hsum
    rw [← hall, ← hsum, ← Multiset.cons_coe, ← Multiset.singleton_add]
    ac_rfl
  · rw [Function.update_of_ne (Ne.symm hmain)]
    cases hc : client none with
    | producer todo' => rwa [hc] at hdrains
    | testing count total =>
        rw [hc] at hdrains
        exact ⟨hdrains.1, hdrains.2.1, fun htaken => absurd (hdrains.2.2 htaken) hworking⟩
    | popping count total =>
        rw [hc] at hdrains
        exact absurd hdrains.2.2.1 hworking
    | done count total =>
        rw [hc] at hdrains
        exact absurd hdrains.2.2.1 hworking

/-- The main thread moves on, and the producers stay joined. -/
theorem mainMoves (h : Accounted values data client)
    (hidle : (client none).todo = 0) (hc : c.todo = 0) (hmain : ∀ todo, c ≠ .producer todo)
    (hjoined : ∀ u todo, client u = .producer todo → todo = [])
    (hall : taken + (left : Multiset Int) + ∑ t, (client t).todo = allValues values)
    (hdrains : ∀ joined : Prop, joined → Drains taken left joined c) :
    Accounted values (left.map some) (Function.update client none c) := by
  refine ⟨fun producer => ?_, taken, left, rfl, ?_, ?_⟩
  · obtain ⟨todo, htodo⟩ := h.producers producer
    exact ⟨todo, by rw [Function.update_of_ne (Option.some_ne_none producer), htodo]⟩
  · have hsum := sum_threads_update Client.todo client none c
    rw [hidle, hc, add_zero, add_zero] at hsum
    rw [hsum, hall]
  · rw [Function.update_self]
    refine hdrains _ fun u todo hu => ?_
    obtain ⟨-, hproducer⟩ | ⟨-, hproducer⟩ := Monitor.update_eq_iff.mp hu
    · exact absurd hproducer (hmain todo)
    · exact hjoined u todo hproducer

theorem call (h : Accounted values data client) {asked : Call Int} {res : Res Int}
    (hcalls : Calls client t asked) (hruns : (stack Int moves).Runs asked data data' res)
    (hresume : resume (client t) asked res = some c) :
    Accounted values data' (Function.update client t c) := by
  obtain ⟨taken, left, rfl, hall, hdrains⟩ := h.main
  obtain ⟨left', hspec, rfl⟩ := spec_of_runs hruns
  have hmoved := resumed hresume
  cases hcalls with
  | push ht =>
      rw [ht] at hmoved
      cases hmoved
      cases hspec
      exact h.push ht
  | empty ht hjoined =>
      obtain rfl : t = none := h.eq_main fun todo => by rw [ht]; exact nofun
      have hidle : (client none).todo = 0 := by rw [ht]; rfl
      rw [ht] at hmoved hdrains
      obtain ⟨hcount, htotal, -⟩ := hdrains
      generalize hasked : Call.empty = asked at hmoved hspec
      generalize hres : res = result at hmoved hspec
      cases hspec with
      | empty =>
          cases left with
          | nil =>
              cases hmoved
              exact h.mainMoves hidle rfl nofun hjoined hall fun _ hj => ⟨hcount, htotal, hj, rfl⟩
          | cons value left =>
              cases hmoved
              exact h.mainMoves hidle rfl nofun hjoined hall fun _ hj =>
                ⟨hcount, htotal, hj, List.cons_ne_nil value left⟩
      | _ => cases hasked
  | pop ht =>
      obtain rfl : t = none := h.eq_main fun todo => by rw [ht]; exact nofun
      have hidle : (client none).todo = 0 := by rw [ht]; rfl
      rw [ht] at hmoved hdrains
      obtain ⟨rfl, rfl, hjoined, hne⟩ := hdrains
      cases hmoved with
      | @popped _ _ value =>
          cases hspec
          have hmore : {value} + taken + (left' : Multiset Int) + ∑ t, (client t).todo =
              allValues values := by
            rw [← hall, ← Multiset.cons_coe, ← Multiset.singleton_add]
            ac_rfl
          refine h.mainMoves hidle rfl nofun hjoined hmore fun _ hj => ⟨?_, ?_, fun _ => hj⟩
          · rw [Multiset.card_add, Multiset.card_singleton, add_comm]
          · rw [Multiset.sum_add, Multiset.sum_singleton, add_comm]

end Accounted

omit [DecidableEq Producer] in
/-- At the end the main thread has popped all values. -/
theorem Accounted.done {data : List (Slot Int)} {client : Option Producer → Client}
    (h : Accounted values data client) {count : Nat} {total : Int}
    (hdone : client none = .done count total) :
    count = (allValues values).card ∧ total = (allValues values).sum := by
  obtain ⟨taken, left, -, hall, hdrains⟩ := h.main
  rw [hdone] at hdrains
  obtain ⟨hcount, htotal, hjoined, rfl⟩ := hdrains
  have hnothing : ∀ t, (client t).todo = 0 := by
    intro t
    cases t with
    | none =>
        rw [hdone]
        rfl
    | some producer =>
        obtain ⟨todo, htodo⟩ := h.producers producer
        rw [htodo, hjoined _ todo htodo]
        rfl
  rw [sum_eq_zero fun t _ => hnothing t, Multiset.coe_nil, add_zero, add_zero] at hall
  exact ⟨hall ▸ hcount, hall ▸ htotal⟩

omit [DecidableEq Producer] in
/-- Some thread has a call to make until the main thread is done. -/
theorem Accounted.calls {data : List (Slot Int)} {client : Option Producer → Client}
    (h : Accounted values data client) (hnone : ∀ t asked, ¬ Calls client t asked) :
    ∃ count total, client none = .done count total := by
  obtain ⟨taken, left, -, -, hdrains⟩ := h.main
  cases hmain : client none with
  | producer todo =>
      rw [hmain] at hdrains
      exact hdrains.elim
  | testing count total =>
      refine absurd (.empty hmain fun u todo hu => ?_) (hnone none .empty)
      cases todo with
      | nil => rfl
      | cons value todo => exact absurd (.push hu) (hnone u _)
  | popping count total => exact absurd (.pop hmain) (hnone none .pop)
  | done count total => exact ⟨count, total, rfl⟩

section

variable {s : Monitor.State (Option Producer) Client (List (Slot Int)) (Local Int) (Call Int) (Res Int)}
  {base : List (Slot Int)} {t : Option Producer}

omit [DecidableEq Producer] in
/-- No call finds the stack empty that pops from it, so that one ends with an exception
only when something fails. -/
theorem failed_of_resume (h : Accounted values base s.client)
    (hreduces : Monitor.Reduces (stack Int moves) (clients values) s base) {asked : Call Int}
    {l : Local Int} {res : Res Int} (hpc : s.pc t = .inside asked l)
    (hresult : l.result = some res) (hresume : resume (s.client t) asked res = none) :
    res = .failed := by
  obtain ⟨taken, left, rfl, -, hdrains⟩ := h.main
  obtain ⟨left', hspec, -⟩ := spec_of_runs ⟨l, hreduces.body t asked l hpc, hresult⟩
  have hcalls : Calls s.client t asked := hreduces.calls t asked l hpc
  cases hcalls with
  | push ht =>
      cases hspec with
      | push => simp [ht, resume] at hresume
      | pushFails => rfl
  | empty ht hjoined =>
      cases hspec with
      | empty => simp [ht, resume] at hresume
  | pop ht =>
      obtain rfl : t = none := h.eq_main fun todo => by rw [ht]; exact nofun
      rw [ht] at hdrains
      cases hspec with
      | pop => simp [ht, resume] at hresume
      | popEmpty => exact absurd rfl hdrains.2.2.2
      | popFails => rfl

end

theorem accounted_of_reachable
    {s : Monitor.State (Option Producer) Client (List (Slot Int)) (Local Int) (Call Int) (Res Int)}
    (hs : (Monitor.system (stack Int moves) (clients values)).Reachable s) :
    ∃ base, Monitor.Reduces (stack Int moves) (clients values) s base ∧
      Accounted values base s.client :=
  Monitor.invariant (stack_reading moves) clients_stable
    (fun x => Accounted values x.data x.client) .initial (fun x event x' hx hstep => by
      cases hstep with
      | call hcalls hruns hresume => exact hx.call hcalls hruns hresume) hs

/-- The values of `producer`, from `start` on. -/
def producerValues {producerCount : Nat} (valuesPerProducer : Nat) (producer : Fin producerCount) :
    List Int :=
  (List.range valuesPerProducer).map fun value : Nat =>
    (producer * valuesPerProducer + 1 : Int) + value

theorem sum_range_add (start : Int) (n : Nat) :
    2 * ((List.range n).map fun value : Nat => start + value).sum = n * (2 * start + n - 1) := by
  induction n with
  | zero => simp
  | succ n ih =>
      rw [List.range_succ, List.map_append, List.sum_append, mul_add, ih]
      simp only [List.map_cons, List.map_nil, List.sum_singleton]
      push_cast
      ring

theorem sum_producerValues (producerCount valuesPerProducer : Nat) :
    2 * ∑ producer : Fin producerCount, (producerValues valuesPerProducer producer).sum =
      (producerCount * valuesPerProducer) * (producerCount * valuesPerProducer + 1) := by
  induction producerCount with
  | zero => simp
  | succ n ih =>
      rw [Fin.sum_univ_castSucc, mul_add]
      have hlast := sum_range_add (n * valuesPerProducer + 1) valuesPerProducer
      simp only [producerValues, Fin.val_castSucc, Fin.val_last] at ih hlast ⊢
      rw [ih, hlast]
      push_cast
      ring

/-- What the test requires. -/
theorem multiple_producers_keep_all_values (producerCount valuesPerProducer : Nat)
    (s : Monitor.State (Option (Fin producerCount)) Client (List (Slot Int)) (Local Int) (Call Int)
      (Res Int))
    (hs : (Monitor.system (stack Int false) (clients (producerValues valuesPerProducer))).Reachable s)
    (count : Nat) (total : Int) (hdone : s.client none = .done count total) :
    count = producerCount * valuesPerProducer ∧ total = count * (count + 1) / 2 := by
  obtain ⟨base, -, h⟩ := accounted_of_reachable hs
  obtain ⟨hcount, htotal⟩ := h.done hdone
  have hcount' : count = producerCount * valuesPerProducer := by
    rw [hcount]
    simp [allValues, Multiset.card_sum, producerValues]
  have htotal : total = ∑ producer : Fin producerCount,
      (producerValues valuesPerProducer producer).sum := by
    rw [htotal]
    simp [allValues, Multiset.sum_sum]
  refine ⟨hcount', ?_⟩
  have hsum := sum_producerValues producerCount valuesPerProducer
  rw [← htotal] at hsum
  have hdouble : (count : Int) * (count + 1) = 2 * total := by
    rw [hsum, hcount']
    push_cast
    ring
  rw [hdouble]
  exact (Int.mul_ediv_cancel_left total two_ne_zero).symm

end MoreCpp.ThreadSafeStack
