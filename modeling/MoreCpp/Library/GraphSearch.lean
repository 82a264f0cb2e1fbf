import Mathlib.Algebra.BigOperators.Group.Finset.Piecewise
import Mathlib.Data.Fintype.BigOperators
import Mathlib.Data.List.MinMax
import Mathlib.Data.Set.Basic
import Mathlib.Logic.Relation

/-!
What searches through a graph keep: which vertices are marked, a queue with the least key in
front, and what a flood has not reached yet.
-/

namespace MoreCpp.Library

/-! ## Marks

Marking the elements of a finite type one by one.
-/

section Marks

variable {α M : Type*} [Fintype α] {vis : α → Bool} {a b : α}

/-- The number of elements that are not marked. -/
def unmarked (vis : α → Bool) : Nat := (Finset.univ.filter fun a => vis a = false).card

theorem unmarked_none : unmarked (fun _ : α => false) = Fintype.card α := by
  simp [unmarked]

theorem unmarked_le (vis : α → Bool) : unmarked vis ≤ Fintype.card α := Finset.card_le_univ _

theorem unmarked_pos : 0 < unmarked vis ↔ ∃ a, vis a = false := by
  rw [unmarked, Finset.card_pos, Finset.filter_nonempty_iff]
  simp

/-- The sum over the marked elements. -/
def markedSum [AddCommMonoid M] (vis : α → Bool) (f : α → M) : M :=
  ∑ a, if vis a then f a else 0

theorem markedSum_all [AddCommMonoid M] (hvis : ∀ a, vis a = true) (f : α → M) :
    markedSum vis f = ∑ a, f a :=
  Finset.sum_congr rfl fun a _ => if_pos (hvis a)

theorem markedSum_zero [AddCommMonoid M] {f : α → M} (hf : ∀ a, vis a = true → f a = 0) :
    markedSum vis f = 0 := by
  refine Finset.sum_eq_zero fun a _ => ?_
  split
  case isTrue ha => exact hf a ha
  case isFalse => rfl

variable [DecidableEq α]

omit [Fintype α] in
theorem mark_eq_true : Function.update vis a true b = true ↔ b = a ∨ vis b = true := by
  obtain rfl | hne := eq_or_ne b a
  · rw [Function.update_self]
    exact iff_of_true rfl (.inl rfl)
  · rw [Function.update_of_ne hne]
    exact (or_iff_right hne).symm

theorem unmarked_mark (ha : vis a = false) :
    unmarked (Function.update vis a true) + 1 = unmarked vis := by
  have hset : (Finset.univ.filter fun b => vis b = false) =
      insert a (Finset.univ.filter fun b => Function.update vis a true b = false) := by
    ext b
    obtain rfl | hne := eq_or_ne b a
    · simp [ha]
    · simp [hne]
  rw [unmarked, unmarked, hset, Finset.card_insert_of_notMem (by simp)]

theorem markedSum_mark [AddCommMonoid M] (ha : vis a = false) (f : α → M) :
    markedSum (Function.update vis a true) f = markedSum vis f + f a := by
  have hterm : ∀ b, (if Function.update vis a true b then f b else 0) =
      (if vis b then f b else 0) + if b = a then f b else 0 := by
    intro b
    obtain rfl | hne := eq_or_ne b a
    · simp [ha]
    · simp [hne]
  rw [markedSum, Finset.sum_congr rfl fun b _ => hterm b, Finset.sum_add_distrib,
    Finset.sum_ite_eq' Finset.univ a f, if_pos (Finset.mem_univ a), markedSum]

end Marks

/-! ## Priority queues

A priority queue that hands out an element with the least key.
-/

section MinQueue

variable {α β : Type*} [DecidableEq α] [LinearOrder β]

def popMin (key : α → β) (q : List α) : Option (α × List α) :=
  (q.argmin key).map fun a => (a, q.erase a)

theorem popMin_nil (key : α → β) : popMin key [] = none := rfl

theorem popMin_of_ne_nil (key : α → β) {q : List α} (hq : q ≠ []) :
    ∃ a rest, popMin key q = some (a, rest) ∧ (∀ b ∈ q, key a ≤ key b) ∧ q.Perm (a :: rest) := by
  have hsome : q.argmin key ≠ none := fun hnone => hq (List.argmin_eq_none.mp hnone)
  obtain ⟨a, ha⟩ := Option.ne_none_iff_exists'.mp hsome
  refine ⟨a, q.erase a, ?_, fun b hb => List.le_of_mem_argmin hb ha,
    List.perm_cons_erase (List.argmin_mem ha)⟩
  rw [popMin, ha]
  rfl

end MinQueue

/-! ## Flooding

Flooding: the open vertices that are reached from some seeds through open vertices are
taken away, a few at a time.
-/

section Flooding

open Relation

variable {V : Type*} {adj : V → V → Prop} {W W' W'' S T : Set V} {s x y : V}

/-- A way from `s` to `x` that leads through open vertices. -/
def Through (adj : V → V → Prop) (W : Set V) (s x : V) : Prop :=
  s ∈ W ∧ ReflTransGen (fun a b => adj a b ∧ b ∈ W) s x

/-- What is reached from the seeds through `W` is taken away, and `W'` is left. -/
structure Flood (adj : V → V → Prop) (S W W' : Set V) : Prop where
  subset : W' ⊆ W
  seeds : ∀ s ∈ S, s ∉ W'
  closed : ∀ x ∈ W, x ∉ W' → ∀ y, adj x y → y ∉ W'
  reached : ∀ x ∈ W, x ∉ W' → ∃ s ∈ S, Through adj W s x

namespace Through

theorem refl (h : s ∈ W) : Through adj W s s := ⟨h, .refl⟩

theorem mem (h : Through adj W s x) : x ∈ W := by
  rcases h.2.cases_tail with rfl | ⟨_, -, hlast⟩
  · exact h.1
  · exact hlast.2

theorem mono (h : Through adj W s x) (hW : W ⊆ W') : Through adj W' s x :=
  ⟨hW h.1, ReflTransGen.mono (fun _ _ hlink => ⟨hlink.1, hW hlink.2⟩) _ _ h.2⟩

theorem head (h : Through adj W x y) (hs : s ∈ W) (hlink : adj s x) : Through adj W s y :=
  ⟨hs, .head ⟨hlink, h.1⟩ h.2⟩

end Through

namespace Flood

/-- No seed is open. -/
theorem none (h : ∀ s ∈ S, s ∉ W) : Flood adj S W W :=
  ⟨Set.Subset.rfl, h, fun _ hx hx' => absurd hx hx', fun _ hx hx' => absurd hx hx'⟩

/-- One flood after the other. -/
theorem append (h : Flood adj S W W') (h' : Flood adj T W' W'') : Flood adj (S ∪ T) W W'' where
  subset := h'.subset.trans h.subset
  seeds s hs hleft := hs.elim (fun hs => h.seeds s hs (h'.subset hleft)) (h'.seeds s · hleft)
  closed x hx hx' y hlink hy := by
    by_cases hmid : x ∈ W'
    · exact h'.closed x hmid hx' y hlink hy
    · exact h.closed x hx hmid y hlink (h'.subset hy)
  reached x hx hx' := by
    by_cases hmid : x ∈ W'
    · obtain ⟨s, hs, hway⟩ := h'.reached x hmid hx'
      exact ⟨s, .inr hs, hway.mono h.subset⟩
    · obtain ⟨s, hs, hway⟩ := h.reached x hx hmid
      exact ⟨s, .inl hs, hway⟩

/-- An open vertex is taken away, and then what its neighbours lead to. -/
theorem visit (hx : x ∈ W) (h : Flood adj {y | adj x y} (W \ {x}) W') : Flood adj {x} W W' where
  subset := h.subset.trans fun _ => And.left
  seeds s hs hleft := (h.subset hleft).2 hs
  closed a ha ha' y hlink := by
    by_cases hax : a = x
    · exact h.seeds y (hax ▸ hlink)
    · exact h.closed a ⟨ha, hax⟩ ha' y hlink
  reached a ha ha' := by
    refine ⟨x, rfl, ?_⟩
    by_cases hax : a = x
    · rw [hax]
      exact .refl hx
    · obtain ⟨s, hs, hway⟩ := h.reached a ⟨ha, hax⟩ ha'
      exact (hway.mono fun _ => And.left).head hx hs

theorem congr (h : Flood adj S W W') (hST : ∀ s ∈ W, s ∈ S ↔ s ∈ T) : Flood adj T W W' where
  subset := h.subset
  seeds s hs hleft := h.seeds s ((hST s (h.subset hleft)).mpr hs) hleft
  closed := h.closed
  reached x hx hx' := by
    obtain ⟨s, hs, hway⟩ := h.reached x hx hx'
    exact ⟨s, (hST s hway.1).mp hs, hway⟩

/-- Just what the seeds lead to is taken away. -/
theorem not_mem_iff (h : Flood adj S W W') (hx : x ∈ W) :
    x ∉ W' ↔ ∃ s ∈ S, Through adj W s x := by
  refine ⟨h.reached x hx, ?_⟩
  rintro ⟨s, hs, hopen, hway⟩
  induction hway with
  | refl => exact h.seeds s hs
  | tail hway hlink ih =>
      have hmid : _ ∈ W := Through.mem ⟨hopen, hway⟩
      exact h.closed _ hmid (ih hmid) _ hlink.1

end Flood

end Flooding

end MoreCpp.Library
