import Mathlib.Data.Int.ModEq
import Mathlib.Data.ZMod.Basic
import Mathlib.GroupTheory.OrderOfElement
import Mathlib.RingTheory.Coprime.Lemmas
import Mathlib.Tactic.Ring

/-!
Polynomial hashes: the elements of a list as the coefficients of a polynomial, of which the
value at one point is taken.
-/

namespace MoreCpp.Library

section Ring

variable {R : Type*} [CommRing R]

/-- `a₀ + a₁ p + a₂ p² + …`. -/
def polyHash (p : R) : List R → R
  | [] => 0
  | a :: w => a + p * polyHash p w

variable {p a b : R} {u v w : List R} {i l n : Nat}

theorem polyHash_append :
    polyHash p (u ++ v) = polyHash p u + p ^ u.length * polyHash p v := by
  induction u with
  | nil => simp [polyHash]
  | cons a u ih =>
      rw [List.cons_append, polyHash, ih, polyHash, List.length_cons]
      ring

theorem polyHash_concat : polyHash p (u ++ [a]) = polyHash p u + p ^ u.length * a := by
  rw [polyHash_append, polyHash, polyHash, mul_zero, add_zero]

/-- The hash of a window, by those of two prefixes. -/
theorem polyHash_window (hi : i ≤ w.length) :
    polyHash p (w.take (i + l)) - polyHash p (w.take i) =
      p ^ i * polyHash p ((w.drop i).take l) := by
  rw [List.take_add, polyHash_append, List.length_take_of_le hi, add_sub_cancel_left]

/-- The powers that the position brings are made up for. -/
theorem polyHash_normalised (hi : i < w.length) (hn : i < n) :
    (polyHash p (w.take (i + l)) - polyHash p (w.take i)) * p ^ (n - i - 1) =
      polyHash p ((w.drop i).take l) * p ^ (n - 1) := by
  have hsplit : n - 1 = i + (n - i - 1) := by omega
  rw [polyHash_window (Nat.le_of_lt hi), hsplit, pow_add]
  ring

/-- One element that differs adds a power. -/
theorem polyHash_single (p a b : R) (j r : Nat) :
    polyHash p (List.replicate j a ++ b :: List.replicate r a) =
      polyHash p (List.replicate (j + (r + 1)) a) + p ^ j * (b - a) := by
  rw [List.replicate_add, List.replicate_succ, polyHash_append, polyHash_append, polyHash,
    polyHash, List.length_replicate]
  ring

end Ring

/-! ## Modulo -/

variable {p m : Int}

/-- Multiplying by a power prime to the modulus keeps hashes apart. -/
theorem mul_pow_emod_injOn (h : IsCoprime m p) (k : Nat) :
    Set.InjOn (fun x => x * p ^ k % m) {x | 0 ≤ x ∧ x < m} := by
  rintro x ⟨hx, hx'⟩ y ⟨hy, hy'⟩ heq
  have hdvd : m ∣ (y - x) * p ^ k := by
    rw [sub_mul]
    exact (Int.modEq_iff_dvd.mp heq)
  have hmod : x ≡ y [ZMOD m] := Int.modEq_iff_dvd.mpr (h.pow_right.dvd_of_dvd_mul_right hdvd)
  calc x = x % m := (Int.emod_eq_of_lt hx hx').symm
    _ = y % m := hmod
    _ = y := Int.emod_eq_of_lt hy hy'

/-- Below its order the powers of an element differ. -/
theorem pow_emod_inj {m : Nat} {i j : Nat} (hi : i < orderOf (p : ZMod m))
    (hj : j < orderOf (p : ZMod m)) (heq : p ^ i ≡ p ^ j [ZMOD m]) : i = j := by
  apply pow_injOn_Iio_orderOf hi hj
  have hcast := (ZMod.intCast_eq_intCast_iff _ _ m).mpr heq
  push_cast at hcast
  exact hcast

end MoreCpp.Library
