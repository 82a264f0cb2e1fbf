import Mathlib.Algebra.BigOperators.Group.List.Basic
import Mathlib.Algebra.Order.Monoid.Defs
import Mathlib.Algebra.Order.Ring.Int
import Mathlib.Data.Int.ConditionallyCompleteOrder
import Mathlib.Data.List.Perm.Subperm
import Mathlib.Order.Bounds.Basic
import Mathlib.Order.CompletePartialOrder
import Mathlib.Order.ConditionallyCompleteLattice.Basic

/-!
Selections that are as valuable as any: the greatest total of the lists that are allowed,
in whatever order, from those without an element and those with it.
-/

namespace MoreCpp.Library

variable {α M : Type*} [AddCommMonoid M]

def total (value : α → M) (s : List α) : M := (s.map value).sum

theorem total_cons (value : α → M) (x : α) (s : List α) :
    total value (x :: s) = value x + total value s := List.sum_cons

theorem total_append (value : α → M) (s s' : List α) :
    total value (s ++ s') = total value s + total value s' := by
  rw [total, List.map_append, List.sum_append]
  rfl

theorem total_perm (value : α → M) {s s' : List α} (h : s.Perm s') :
    total value s = total value s' := (h.map value).sum_eq

theorem total_map {β : Type*} (value : α → M) (f : β → α) (s : List β) :
    total value (s.map f) = total (value ∘ f) s := by
  rw [total, total, List.map_map]

/-- The greatest total of the lists in `P`. -/
def Best [Preorder M] (P : List α → Prop) (value : α → M) (m : M) : Prop :=
  IsGreatest {x | ∃ s, P s ∧ total value s = x} m

namespace Best

variable [LinearOrder M] {P Q R : List α → Prop} {value : α → M} {a b : M} {x : α}

theorem unique (h : Best P value a) (h' : Best P value b) : a = b := IsGreatest.unique h h'

theorem le (h : Best P value a) {s : List α} (hs : P s) : total value s ≤ a := h.2 ⟨s, hs, rfl⟩

theorem congr (h : Best P value a) (hPQ : ∀ s, P s ↔ Q s) : Best Q value a := by
  obtain rfl : P = Q := funext fun s => propext (hPQ s)
  exact h

theorem nil (h : ∀ s, P s ↔ s = []) : Best P value 0 := by
  refine ⟨⟨[], (h []).mpr rfl, rfl⟩, ?_⟩
  rintro _ ⟨s, hs, rfl⟩
  rw [(h s).mp hs]
  exact le_rfl

/-- The lists that lack `x`, and those that have it beside a list in `Q`. -/
theorem add [IsOrderedAddMonoid M] (hP : Best P value a) (hQ : Best Q value b) (x : α)
    (hcases : ∀ s, R s → P s ∨ ∃ s', Q s' ∧ s.Perm (x :: s')) (hskip : ∀ s, P s → R s)
    (htake : ∀ s', Q s' → ∃ s, R s ∧ s.Perm (x :: s')) :
    Best R value (max a (value x + b)) := by
  constructor
  · obtain hle | hle := le_total a (value x + b)
    · obtain ⟨s', hs', rfl⟩ := hQ.1
      obtain ⟨s, hs, hperm⟩ := htake s' hs'
      rw [max_eq_right hle]
      exact ⟨s, hs, by rw [total_perm value hperm, total_cons]⟩
    · obtain ⟨s, hs, rfl⟩ := hP.1
      rw [max_eq_left hle]
      exact ⟨s, hskip s hs, rfl⟩
  · rintro _ ⟨s, hs, rfl⟩
    obtain hold | ⟨s', hs', hperm⟩ := hcases s hs
    · exact (hP.le hold).trans (le_max_left _ _)
    · rw [total_perm value hperm, total_cons]
      exact (add_le_add_right (hQ.le hs') _).trans (le_max_right _ _)

theorem concat [IsOrderedAddMonoid M] (hP : Best P value a) (hQ : Best Q value b)
    (hR : ∀ s, R s ↔ P s ∨ ∃ s', Q s' ∧ s = s' ++ [x]) : Best R value (max a (value x + b)) := by
  apply hP.add hQ x
  · intro s hs
    refine ((hR s).mp hs).imp_right ?_
    rintro ⟨s', hs', rfl⟩
    exact ⟨s', hs', List.perm_append_singleton x s'⟩
  · exact fun s hs => (hR s).mpr (.inl hs)
  · exact fun s' hs' => ⟨s' ++ [x], (hR _).mpr (.inr ⟨s', hs', rfl⟩),
      List.perm_append_singleton x s'⟩

/-- Fewer lists, with one among them that is best, have the same greatest total. -/
theorem eq_iff (hP : Best P value a) (hQ : Best Q value b) (hsub : ∀ s, Q s → P s) :
    b = a ↔ ∃ s, Q s ∧ ∀ s', P s' → total value s' ≤ total value s := by
  constructor
  · rintro rfl
    obtain ⟨s, hs, rfl⟩ := hQ.1
    exact ⟨s, hs, fun s' hs' => hP.le hs'⟩
  · rintro ⟨s, hs, hmax⟩
    obtain ⟨s', hs', rfl⟩ := hP.1
    refine le_antisymm ?_ ((hmax s' hs').trans (hQ.le hs))
    obtain ⟨s'', hs'', rfl⟩ := hQ.1
    exact hP.le (hsub s'' hs'')

end Best

/-- The elements in another representation. -/
theorem best_map [LinearOrder M] {β : Type*} {f : β → α} {P : List β → Prop}
    {R : List α → Prop} {value : α → M} {a : M} (hof : ∀ s, R s → ∃ s', P s' ∧ s.Perm (s'.map f))
    (hto : ∀ s', P s' → R (s'.map f)) : Best R value a ↔ Best P (value ∘ f) a := by
  have hsame : {x | ∃ s, R s ∧ total value s = x} =
      {x | ∃ s', P s' ∧ total (value ∘ f) s' = x} := by
    ext x
    constructor
    · rintro ⟨s, hs, rfl⟩
      obtain ⟨s', hs', hperm⟩ := hof s hs
      exact ⟨s', hs', by rw [total_perm value hperm, total_map]⟩
    · rintro ⟨s', hs', rfl⟩
      exact ⟨s'.map f, hto s' hs', total_map value f s'⟩
  rw [Best, Best, hsame]

/-! ## Extensions -/

/-- The lists in `P`, and those of an element in `K` with a list that may be beside it. -/
def Extended (P : List α → Prop) (Beside : α → List α → Prop) (K : Set α) (s : List α) : Prop :=
  P s ∨ ∃ x ∈ K, ∃ s', Beside x s' ∧ s.Perm (x :: s')

theorem extended_empty {P : List α → Prop} {Beside : α → List α → Prop} {s : List α} :
    Extended P Beside ∅ s ↔ P s := by
  simp [Extended]

theorem Best.extend [LinearOrder M] [IsOrderedAddMonoid M] {P : List α → Prop}
    {Beside : α → List α → Prop} {K K' : Set α} {value : α → M} {a b : M} {x : α}
    (h : Best (Extended P Beside K) value a) (hx : Best (Beside x) value b)
    (hK : ∀ y, y ∈ K' ↔ y = x ∨ y ∈ K) :
    Best (Extended P Beside K') value (max a (value x + b)) := by
  apply h.add hx x
  · rintro s (hs | ⟨y, hy, s', hs', hperm⟩)
    · exact .inl (.inl hs)
    · obtain rfl | hy := (hK y).mp hy
      · exact .inr ⟨s', hs', hperm⟩
      · exact .inl (.inr ⟨y, hy, s', hs', hperm⟩)
  · rintro s (hs | ⟨y, hy, s', hs', hperm⟩)
    · exact .inl hs
    · exact .inr ⟨y, (hK y).mpr (.inr hy), s', hs', hperm⟩
  · exact fun s' hs' => ⟨x :: s', .inr ⟨x, (hK x).mpr (.inl rfl), s', hs', .refl _⟩, .refl _⟩

/-- A prefix of a list, and one more element. -/
theorem sublist_concat_iff {s l : List α} {x : α} :
    s.Sublist (l ++ [x]) ↔ s.Sublist l ∨ ∃ s', s'.Sublist l ∧ s = s' ++ [x] := by
  rw [List.sublist_append_iff]
  constructor
  · rintro ⟨s', t, rfl, hs', ht⟩
    obtain rfl | rfl := List.sublist_singleton.mp ht
    · exact .inl (by rwa [List.append_nil])
    · exact .inr ⟨s', hs', rfl⟩
  · rintro (hs | ⟨s', hs', rfl⟩)
    · exact ⟨s, [], (List.append_nil s).symm, hs, List.nil_sublist _⟩
    · exact ⟨s', [x], rfl, hs', List.Sublist.refl _⟩

end MoreCpp.Library
