import MoreCpp.Library.TransitionSystem
import Mathlib.Data.List.Count
import Mathlib.Data.List.Perm.Basic

/-!
A FIFO queue that can be closed, and what its histories say. Pushing is
refused exactly after the queue was closed. A polling pop answers at once, a
waiting pop only when there is a value or the queue has been closed.
-/

namespace MoreCpp.Library

/-- What a client did, with the outcome. -/
inductive ClosableEvent (Client V : Type*) where
  | push (client : Client) (value : V) (accepted : Bool)
  | poll (client : Client) (result : Option V)
  | await (client : Client) (result : Option V)
  | close (client : Client)

namespace ClosableEvent

variable {Client V : Type*}

def isClose : ClosableEvent Client V → Bool
  | .close _ => true
  | _ => false

def accepted : ClosableEvent Client V → Option V
  | .push _ value true => some value
  | _ => none

/-- A value handed out, with the client that got it. -/
def handed : ClosableEvent Client V → Option (Client × V)
  | .poll client (some value) | .await client (some value) => some (client, value)
  | _ => none

end ClosableEvent

structure ClosableFifo (V : Type*) where
  items : List V
  closed : Bool

namespace ClosableFifo

variable {Client V : Type*}

inductive Step : ClosableFifo V → ClosableEvent Client V → ClosableFifo V → Prop where
  | accept {q : ClosableFifo V} {client : Client} {value : V} (hopen : q.closed = false) :
      Step q (.push client value true) { q with items := q.items ++ [value] }
  | reject {q : ClosableFifo V} {client : Client} {value : V} (hclosed : q.closed = true) :
      Step q (.push client value false) q
  | poll {q : ClosableFifo V} {client : Client} :
      Step q (.poll client q.items.head?) { q with items := q.items.tail }
  | await {q : ClosableFifo V} {client : Client} (hready : q.closed = true ∨ q.items ≠ []) :
      Step q (.await client q.items.head?) { q with items := q.items.tail }
  | close {q : ClosableFifo V} {client : Client} :
      Step q (.close client) { q with closed := true }

def system (Client V : Type*) : System (ClosableFifo V) (ClosableEvent Client V) where
  Init q := q = ⟨[], false⟩
  Step := Step

/-- The histories that lead from a new queue to `q`. -/
def History (log : List (ClosableEvent Client V)) (q : ClosableFifo V) : Prop :=
  (system Client V).Run ⟨[], false⟩ log q

/-- The values accepted, oldest first. -/
def acceptedValues (log : List (ClosableEvent Client V)) : List V :=
  log.filterMap ClosableEvent.accepted

/-- The values handed out and to whom, oldest first. -/
def handedOut (log : List (ClosableEvent Client V)) : List (Client × V) :=
  log.filterMap ClosableEvent.handed

def poppedValues (log : List (ClosableEvent Client V)) : List V :=
  (handedOut log).map Prod.snd

theorem acceptedValues_concat (log : List (ClosableEvent Client V))
    (event : ClosableEvent Client V) :
    acceptedValues (log ++ [event]) = acceptedValues log ++ event.accepted.toList := by
  cases hevent : event.accepted <;> simp [acceptedValues, hevent]

theorem handedOut_concat (log : List (ClosableEvent Client V))
    (event : ClosableEvent Client V) :
    handedOut (log ++ [event]) = handedOut log ++ event.handed.toList := by
  cases hevent : event.handed <;> simp [handedOut, hevent]

theorem poppedValues_concat (log : List (ClosableEvent Client V))
    (event : ClosableEvent Client V) :
    poppedValues (log ++ [event]) =
      poppedValues log ++ event.handed.toList.map Prod.snd := by
  rw [poppedValues, handedOut_concat, List.map_append]
  rfl

/-- One event takes what it hands out from the front and adds what it accepts
at the end. -/
theorem Step.items {q q' : ClosableFifo V} {event : ClosableEvent Client V}
    (h : Step q event q') :
    q.items ++ event.accepted.toList = event.handed.toList.map Prod.snd ++ q'.items := by
  cases h with
  | accept hopen => rfl
  | reject hclosed | close => exact List.append_nil _
  | poll | await hready =>
      cases hitems : q.items <;> simp [ClosableEvent.accepted, ClosableEvent.handed]

theorem Step.stays_closed {q q' : ClosableFifo V} {event : ClosableEvent Client V}
    (h : Step q event q') (hclosed : q.closed = true) : q'.closed = true := by
  cases h with
  | close => rfl
  | _ => exact hclosed

/-- Nothing gets into a closed and empty queue. -/
theorem Step.stays_drained {q q' : ClosableFifo V} {event : ClosableEvent Client V}
    (h : Step q event q') (hclosed : q.closed = true) (hempty : q.items = []) :
    q'.items = [] := by
  cases h with
  | accept hopen =>
      rw [hopen] at hclosed
      cases hclosed
  | reject | close => exact hempty
  | poll | await hready => simp [hempty]

namespace History

variable {log : List (ClosableEvent Client V)} {q : ClosableFifo V}

/-- What was accepted has been popped or is still queued, in one order. -/
theorem accepted_eq (h : History log q) :
    acceptedValues log = poppedValues log ++ q.items := by
  induction h with
  | refl => rfl
  | snoc _ hlast ih =>
      rw [acceptedValues_concat, poppedValues_concat, ih, List.append_assoc, hlast.items,
        List.append_assoc]

theorem closed_iff (h : History log q) :
    q.closed = true ↔ log.any ClosableEvent.isClose = true := by
  induction h with
  | refl => simp
  | snoc _ hlast ih =>
      cases hlast <;> simp [ClosableEvent.isClose, ih]

/-- A prefix of a history is one, and the event after it is a step. -/
theorem split {before after : List (ClosableEvent Client V)} {event : ClosableEvent Client V}
    (h : History (before ++ event :: after) q) :
    ∃ q₁ q₂, History before q₁ ∧ Step q₁ event q₂ := by
  generalize hlog : before ++ event :: after = log at h
  induction h generalizing after with
  | refl => simp at hlog
  | @snoc labels s' label s'' hrun hlast ih =>
      rcases List.eq_nil_or_concat after with rfl | ⟨front, last, rfl⟩
      · obtain ⟨rfl, hevent⟩ := List.append_inj' hlog rfl
        obtain rfl : event = label := by simpa using hevent
        exact ⟨s', s'', hrun, hlast⟩
      · rw [List.concat_eq_append, ← List.cons_append, ← List.append_assoc] at hlog
        obtain ⟨hfront, -⟩ := List.append_inj' hlog rfl
        exact ih hfront

/-- A push is refused exactly when the queue was closed before. -/
theorem rejected_iff {before after : List (ClosableEvent Client V)} {client : Client}
    {value : V} {accepted : Bool}
    (h : History (before ++ .push client value accepted :: after) q) :
    accepted = false ↔ before.any ClosableEvent.isClose = true := by
  obtain ⟨q₁, q₂, hbefore, hstep⟩ := h.split
  rw [← hbefore.closed_iff]
  cases hstep with
  | accept hopen => simp [hopen]
  | reject hclosed => simp [hclosed]

/-- A waiting pop answers "none" only when the queue is closed and empty. -/
theorem none_only_closed {before after : List (ClosableEvent Client V)} {client : Client}
    (h : History (before ++ .await client none :: after) q) :
    before.any ClosableEvent.isClose = true ∧ acceptedValues before = poppedValues before := by
  obtain ⟨q₁, q₂, hbefore, hstep⟩ := h.split
  generalize hevent : ClosableEvent.await client none = event at hstep
  cases hstep with
  | await hready =>
      have hempty : q₁.items = [] := by
        have hnone := (ClosableEvent.await.inj hevent).2
        exact List.head?_eq_none_iff.mp hnone.symm
      refine ⟨hbefore.closed_iff.mp (hready.resolve_right (not_not.mpr hempty)), ?_⟩
      rw [hbefore.accepted_eq, hempty, List.append_nil]
  | _ => cases hevent

end History

end ClosableFifo

end MoreCpp.Library
