import Mathlib.Algebra.BigOperators.Group.Finset.Basic
import Mathlib.Data.Fintype.Card
import Mathlib.Logic.Function.Basic

/-!
Labelled transition systems and the induction principle every safety result
below uses. A system is an initial-state predicate and a labelled step
relation. `restrict` keeps only the steps a predicate on the state before the
step allows, so that a conditional safety result is a statement about the
runs of the restricted system.
-/

namespace MoreCpp.Library

structure System (State Label : Type*) where
  Init : State → Prop
  Step : State → Label → State → Prop

namespace System

variable {State Label : Type*} (system : System State Label)

inductive Reachable : State → Prop where
  | start {s} : system.Init s → Reachable s
  | next {s label s'} : Reachable s → system.Step s label s' → Reachable s'

/-- A run from `s` to `s'` with the labels of its steps, oldest first. -/
inductive Run : State → List Label → State → Prop where
  | refl (s) : Run s [] s
  | snoc {s labels s' label s''} : Run s labels s' →
      system.Step s' label s'' → Run s (labels ++ [label]) s''

/-- A predicate that holds initially and that every step out of a reachable
state preserves holds in every reachable state. -/
theorem reachable_invariant (Inv : State → Prop)
    (hinit : ∀ s, system.Init s → Inv s)
    (hstep : ∀ s label s', system.Reachable s → Inv s →
      system.Step s label s' → Inv s')
    (s : State) (hs : system.Reachable s) : Inv s := by
  induction hs with
  | start h => exact hinit _ h
  | next hprev hlast ih => exact hstep _ _ _ hprev ih hlast

theorem Reachable.run {s s' : State} {labels : List Label}
    (hs : system.Reachable s) (hrun : system.Run s labels s') :
    system.Reachable s' := by
  induction hrun with
  | refl => exact hs
  | snoc _ hlast ih => exact .next ih hlast

variable {system} in
theorem Run.append {s s' s'' : State} {labels labels' : List Label}
    (hrun : system.Run s labels s') (hrun' : system.Run s' labels' s'') :
    system.Run s (labels ++ labels') s'' := by
  induction hrun' with
  | refl => rwa [List.append_nil]
  | snoc _ hlast ih =>
      rw [← List.append_assoc]
      exact .snoc ih hlast

/-- Steps that use something up, so that a run has only so many of them. -/
theorem Run.length_add_le (rank : State → Nat)
    (hstep : ∀ s label s', system.Step s label s' → rank s' < rank s)
    {s s' : State} {labels : List Label} (hrun : system.Run s labels s') :
    labels.length + rank s' ≤ rank s := by
  induction hrun with
  | refl => exact Nat.le_of_eq (Nat.zero_add _)
  | snoc _ hlast ih =>
      have hless := hstep _ _ _ hlast
      rw [List.length_append, List.length_singleton]
      omega

/-- The system whose steps are those of `system` that `Allowed` admits in the
state they start from. -/
def restrict (Allowed : State → Label → Prop) : System State Label where
  Init := system.Init
  Step s label s' := system.Step s label s' ∧ Allowed s label

theorem reachable_of_restrict {Allowed : State → Label → Prop} {s : State}
    (hs : (system.restrict Allowed).Reachable s) : system.Reachable s := by
  induction hs with
  | start h => exact .start h
  | next _ hlast ih => exact .next ih hlast.1

end System

section Threads

variable {Thread Local : Type*} [Fintype Thread]

/-- The number of threads whose local state satisfies `P`. -/
def countThreads (P : Local → Prop) [DecidablePred P] (locals : Thread → Local) : Nat :=
  (Finset.univ.filter fun t => P (locals t)).card

theorem countThreads_pos_iff (P : Local → Prop) [DecidablePred P]
    (locals : Thread → Local) :
    0 < countThreads P locals ↔ ∃ t, P (locals t) := by
  simp [countThreads, Finset.card_pos, Finset.filter_nonempty_iff]

theorem countThreads_eq_zero_iff (P : Local → Prop) [DecidablePred P]
    (locals : Thread → Local) :
    countThreads P locals = 0 ↔ ∀ t, ¬ P (locals t) := by
  simp [countThreads, Finset.filter_eq_empty_iff]

/-- One thread moves: the count changes by what that thread contributes. -/
theorem countThreads_update [DecidableEq Thread] (P : Local → Prop) [DecidablePred P]
    (locals : Thread → Local) (t : Thread) (l : Local) :
    countThreads P (Function.update locals t l) + (if P (locals t) then 1 else 0) =
      countThreads P locals + (if P l then 1 else 0) := by
  have hothers : ((Finset.univ.erase t).filter fun u => P (Function.update locals t l u)) =
      (Finset.univ.erase t).filter fun u => P (locals u) := by
    apply Finset.filter_congr
    intro u hu
    rw [Function.update_of_ne (Finset.ne_of_mem_erase hu)]
  have hsplit : ∀ f : Thread → Local, countThreads P f =
      ((Finset.univ.erase t).filter fun u => P (f u)).card + (if P (f t) then 1 else 0) := by
    intro f
    unfold countThreads
    conv_lhs => rw [← Finset.insert_erase (Finset.mem_univ t)]
    rw [Finset.filter_insert]
    split
    · rw [Finset.card_insert_of_notMem (by simp)]
    · rw [Nat.add_zero]
  rw [hsplit (Function.update locals t l), hsplit locals, hothers,
    Function.update_self]
  omega

/-- One thread moves: so does the sum, by what that thread weighs. -/
theorem sum_threads_update [DecidableEq Thread] {M : Type*} [AddCommMonoid M] (weight : Local → M)
    (locals : Thread → Local) (t : Thread) (l : Local) :
    ∑ u, weight (Function.update locals t l u) + weight (locals t) =
      ∑ u, weight (locals u) + weight l := by
  have hsplit : ∀ f : Thread → Local, ∑ u, weight (f u) =
      ∑ u ∈ Finset.univ.erase t, weight (f u) + weight (f t) := fun f =>
    (Finset.sum_erase_add Finset.univ (fun u => weight (f u)) (Finset.mem_univ t)).symm
  have hothers : ∑ u ∈ Finset.univ.erase t, weight (Function.update locals t l u) =
      ∑ u ∈ Finset.univ.erase t, weight (locals u) := by
    apply Finset.sum_congr rfl
    intro u hu
    rw [Function.update_of_ne (Finset.ne_of_mem_erase hu)]
  rw [hsplit (Function.update locals t l), hsplit locals, hothers, Function.update_self,
    add_right_comm]

end Threads

end MoreCpp.Library
