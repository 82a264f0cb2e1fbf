import Mathlib.Data.Fintype.Pigeonhole
import Mathlib.Dynamics.PeriodicPts.Lemmas
import Mathlib.Order.Interval.Set.Nat

/-!
Where the iterates of a function on a finite type go: they come to a cycle, and an
iterate that is met again at twice its number is on it.
-/

namespace MoreCpp.Library

open Function

variable {α : Type*} {f : α → α} {x y z : α}

/-- The iterates come to a cycle, and go around it once, in as many steps as there are
points. -/
theorem exists_periodic_iterate [Fintype α] (f : α → α) (x : α) :
    ∃ i p, 0 < p ∧ i + p ≤ Fintype.card α ∧ IsPeriodicPt f p (f^[i] x) := by
  have hcard : Fintype.card α < Fintype.card (Fin (Fintype.card α + 1)) := by
    rw [Fintype.card_fin]
    exact Nat.lt_succ_self _
  obtain ⟨i, j, hne, heq⟩ :=
    Fintype.exists_ne_map_eq_of_card_lt (fun k : Fin _ => f^[k] x) hcard
  wlog hij : i.val < j.val generalizing i j
  · have hji : j.val < i.val := by
      have hval : i.val ≠ j.val := fun h => hne (Fin.ext h)
      omega
    exact this j i hne.symm heq.symm hji
  have hj := j.isLt
  refine ⟨i, j - i, by omega, by omega, ?_⟩
  rw [IsPeriodicPt, IsFixedPt, ← iterate_add_apply, Nat.sub_add_cancel hij.le]
  exact heq.symm

/-- Some iterate in the first ones is met again at twice its number. -/
theorem exists_meeting [Fintype α] (f : α → α) (x : α) :
    ∃ m, 0 < m ∧ m ≤ Fintype.card α ∧ f^[m] x = f^[2 * m] x := by
  obtain ⟨i, p, hp, hcard, hperiodic⟩ := exists_periodic_iterate f x
  -- the first multiple of the period that is on the cycle
  have hdiv := Nat.div_add_mod i p
  have hmod := Nat.mod_lt i hp
  have hsucc := Nat.mul_succ p (i / p)
  generalize hm : p * (i / p).succ = m at hsucc
  obtain ⟨d, hd⟩ := Nat.exists_eq_add_of_le' (show i ≤ m by omega)
  have hlater : IsPeriodicPt f m (f^[d] (f^[i] x)) := by
    rw [← hm]
    exact (hperiodic.apply_iterate d).mul_const _
  rw [← iterate_add_apply, ← hd] at hlater
  refine ⟨m, by omega, by omega, ?_⟩
  rw [Nat.two_mul, iterate_add_apply]
  exact hlater.symm

theorem meeting_periodic {m : Nat} (h : f^[m] x = f^[2 * m] x) : IsPeriodicPt f m (f^[m] x) := by
  rw [IsPeriodicPt, IsFixedPt, ← iterate_add_apply, ← Nat.two_mul]
  exact h.symm

/-- A cycle with a fixed point has no other point. -/
theorem eq_of_periodic_of_fixed {p k : Nat} (hp : 0 < p) (hy : IsPeriodicPt f p y)
    (hz : IsFixedPt f z) (h : f^[k] y = z) : y = z := by
  have hround : f^[p * k] y = y := hy.mul_const k
  have hsplit : p * k = p * k - k + k := by
    have hle := Nat.le_mul_of_pos_left k hp
    omega
  rw [hsplit, iterate_add_apply, h, hz.iterate] at hround
  exact hround.symm

/-- A fixed point that the iterates come to is there by the number of points. -/
theorem iterate_card_of_fixed [Fintype α] {k : Nat} (hz : IsFixedPt f z) (h : f^[k] x = z) :
    f^[Fintype.card α] x = z := by
  obtain ⟨i, p, hp, hcard, hperiodic⟩ := exists_periodic_iterate f x
  have hcomes : f^[k] (f^[i] x) = z := by
    rw [← iterate_add_apply, Nat.add_comm, iterate_add_apply, h, hz.iterate]
  have hi := eq_of_periodic_of_fixed hp hperiodic hz hcomes
  have hsplit : Fintype.card α = (Fintype.card α - i) + i := by omega
  rw [hsplit, iterate_add_apply, hi, hz.iterate]

/-- From any point on the cycle the iterates come to every periodic point. -/
theorem exists_iterate_of_periodic {k m : Nat} (hz : f^[m] x ∈ periodicPts f) :
    ∃ n, f^[n] (f^[k] x) = f^[m] x := by
  obtain ⟨q, hq, hperiodic⟩ := mem_periodicPts.mp hz
  have hround : f^[q * k] (f^[m] x) = f^[m] x := hperiodic.mul_const k
  have hle := Nat.le_mul_of_pos_left k hq
  refine ⟨q * k - k + m, ?_⟩
  rw [← iterate_add_apply]
  have hsum : q * k - k + m + k = q * k + m := by omega
  rw [hsum, iterate_add_apply, hround]

theorem ncard_iterates (hy : y ∈ periodicPts f) :
    {z | ∃ n, f^[n] y = z}.ncard = minimalPeriod f y := by
  have himage : {z | ∃ n, f^[n] y = z} = (f^[·] y) '' Set.Iio (minimalPeriod f y) := by
    ext z
    constructor
    · rintro ⟨n, rfl⟩
      refine ⟨n % minimalPeriod f y, Nat.mod_lt n ?_, iterate_mod_minimalPeriod_eq⟩
      exact minimalPeriod_pos_of_mem_periodicPts hy
    · rintro ⟨n, -, rfl⟩
      exact ⟨n, rfl⟩
  rw [himage, iterate_injOn_Iio_minimalPeriod.ncard_image, Set.ncard_Iio_nat]

end MoreCpp.Library
