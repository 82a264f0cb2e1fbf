import Mathlib.Algebra.Order.Group.Int
import Mathlib.Algebra.Order.Group.Unbundled.Basic
import Mathlib.Order.Bounds.Basic
import Mathlib.Data.Set.Insert

/-!
The least of some costs, with a cap in place of costs that are as large, or of no cost at all;
or with anything from the cap on where there is no cost.
-/

namespace MoreCpp.Library

variable {S S' T : Set Nat} {cap v a b k m : Nat}

def Capped (cap : Nat) (S : Set Nat) (v : Nat) : Prop := IsLeast (insert cap S) v

namespace Capped

theorem none (hS : ∀ m ∈ S, cap ≤ m) : Capped cap S cap :=
  ⟨Set.mem_insert _ _, Set.forall_mem_insert.mpr ⟨Nat.le_refl cap, hS⟩⟩

theorem le_cap (h : Capped cap S v) : v ≤ cap := h.2 (Set.mem_insert _ _)

theorem le (h : Capped cap S v) (hm : m ∈ S) : v ≤ m := h.2 (Set.mem_insert_of_mem cap hm)

theorem cases (h : Capped cap S v) : v = cap ∨ v ∈ S := h.1

theorem unique (h : Capped cap S a) (h' : Capped cap S b) : a = b := IsLeast.unique h h'

theorem isLeast (h : Capped cap S v) (hv : v < cap) : IsLeast S v :=
  ⟨h.cases.resolve_left (Nat.ne_of_lt hv), fun _ hm => h.le hm⟩

/-- Costs to which more is added come to the others. -/
theorem min_add (h : Capped cap S a) (h' : Capped cap T b)
    (hS : ∀ m, m ∈ S' ↔ m ∈ S ∨ ∃ c ∈ T, c + k = m) : Capped cap S' (min a (b + k)) := by
  refine ⟨?_, Set.forall_mem_insert.mpr ⟨(Nat.min_le_left _ _).trans h.le_cap, fun m hm => ?_⟩⟩
  · obtain hle | hlt := le_or_gt a (b + k)
    · rw [Nat.min_eq_left hle]
      exact h.cases.imp_right fun ha => (hS a).mpr (.inl ha)
    · rw [Nat.min_eq_right hlt.le]
      have hb : b ≠ cap := fun heq => by
        have hcap := h.le_cap
        omega
      exact .inr ((hS _).mpr (.inr ⟨b, h'.cases.resolve_left hb, rfl⟩))
  · obtain hm | ⟨c, hc, rfl⟩ := (hS m).mp hm
    · exact (Nat.min_le_left _ _).trans (h.le hm)
    · exact (Nat.min_le_right _ _).trans (Nat.add_le_add_right (h'.le hc) k)

end Capped

/-! ## Anything from the cap on -/

section LeastOr

variable {cap low v a b c : Int} {S T : Set Int}

/-- No cost is less, and it is one of them or at least `cap`. -/
def LeastOr (cap : Int) (S : Set Int) (v : Int) : Prop := v ∈ lowerBounds S ∧ (v ∈ S ∨ cap ≤ v)

namespace LeastOr

theorem none (hv : cap ≤ v) : LeastOr cap ∅ v :=
  ⟨fun _ hm => absurd hm (Set.notMem_empty _), .inr hv⟩

theorem single (v : Int) : LeastOr cap {v} v :=
  ⟨fun _ hm => (Set.mem_singleton_iff.mp hm).ge, .inl (Set.mem_singleton v)⟩

theorem congr (h : LeastOr cap S v) (hST : ∀ m, m ∈ S ↔ m ∈ T) : LeastOr cap T v := by
  obtain rfl : S = T := Set.ext hST
  exact h

/-- All costs are higher by as much. -/
theorem add (h : LeastOr cap S v) (hc : 0 ≤ c) : LeastOr cap {m | m - c ∈ S} (v + c) := by
  refine ⟨fun m hm => ?_, h.2.imp (fun hv => ?_) fun hv => ?_⟩
  · have hle : v ≤ m - c := h.1 hm
    omega
  · change v + c - c ∈ S
    rwa [Int.add_sub_cancel]
  · omega

theorem union (h : LeastOr cap S a) (h' : LeastOr cap T b) : LeastOr cap (S ∪ T) (min a b) := by
  refine ⟨?_, ?_⟩
  · rintro m (hm | hm)
    · exact (Int.min_le_left a b).trans (h.1 hm)
    · exact (Int.min_le_right a b).trans (h'.1 hm)
  · obtain hle | hle := Int.le_total a b
    · rw [Int.min_eq_left hle]
      exact h.2.imp_left .inl
    · rw [Int.min_eq_right hle]
      exact h'.2.imp_left .inr

/-- One cost that is lower than the cap is enough to come to the least. -/
theorem isLeast_insert (h : LeastOr cap S b) (hlow : low ≤ cap) (h' : IsLeast (insert low T) a) :
    IsLeast (insert low (T ∪ S)) (min a b) := by
  have hle : a ≤ low := h'.2 (Set.mem_insert _ _)
  refine ⟨?_, Set.forall_mem_insert.mpr ⟨(Int.min_le_left a b).trans hle, ?_⟩⟩
  · obtain hab | hba := Int.le_total a b
    · rw [Int.min_eq_left hab]
      exact h'.1.imp_right .inl
    · rw [Int.min_eq_right hba]
      obtain hb | hb := h.2
      · exact .inr (.inr hb)
      · exact .inl (by omega)
  · rintro m (hm | hm)
    · exact (Int.min_le_left a b).trans (h'.2 (.inr hm))
    · exact (Int.min_le_right a b).trans (h.1 hm)

end LeastOr

end LeastOr

end MoreCpp.Library
