import Mathlib.Algebra.Polynomial.Degree.Lemmas
import Mathlib.RingTheory.RootsOfUnity.PrimitiveRoots

/-!
Polynomials given by lists of coefficients, how their values come from those of their even
and odd halves, and how the values at the powers of a root of unity give the coefficients.
-/

namespace MoreCpp.Library

open Finset Polynomial

variable {K : Type*} [Field K]

noncomputable def ofCoeffs : List K → K[X]
  | [] => 0
  | x :: xs => C x + X * ofCoeffs xs

theorem coeff_ofCoeffs (xs : List K) (k : ℕ) : (ofCoeffs xs).coeff k = xs.getD k 0 := by
  induction xs generalizing k with
  | nil => simp [ofCoeffs]
  | cons x xs ih =>
      cases k with
      | zero => simp [ofCoeffs]
      | succ k => simp [ofCoeffs, coeff_C_succ, ih]

theorem natDegree_lt_of_coeff {p : K[X]} {n : ℕ} (hn : 0 < n)
    (h : ∀ k, n ≤ k → p.coeff k = 0) : p.natDegree < n := by
  obtain ⟨n, rfl⟩ := Nat.exists_eq_succ_of_ne_zero hn.ne'
  exact Nat.lt_succ_of_le (natDegree_le_iff_coeff_eq_zero.mpr h)

theorem natDegree_ofCoeffs_lt {xs : List K} {n : ℕ} (hn : 0 < n) (hxs : xs.length ≤ n) :
    (ofCoeffs xs).natDegree < n := by
  apply natDegree_lt_of_coeff hn
  intro k hk
  rw [coeff_ofCoeffs, List.getD_eq_getElem?_getD, List.getElem?_eq_none (by omega)]
  rfl

theorem eval_ofCoeffs {xs : List K} {n : ℕ} (hn : 0 < n) (hxs : xs.length ≤ n) (x : K) :
    (ofCoeffs xs).eval x = ∑ k ∈ range n, xs.getD k 0 * x ^ k := by
  rw [eval_eq_sum_range' (natDegree_ofCoeffs_lt hn hxs)]
  simp only [coeff_ofCoeffs]

theorem sum_range_two_mul (f : ℕ → K) (n : ℕ) :
    ∑ k ∈ range (2 * n), f k = ∑ k ∈ range n, (f (2 * k) + f (2 * k + 1)) := by
  induction n with
  | zero => rfl
  | succ n ih =>
      rw [Nat.mul_succ, sum_range_succ, sum_range_succ, ih, sum_range_succ, add_assoc]

/-- The value from those of the even and the odd half at the square. -/
theorem eval_even_odd {xs evens odds : List K} {n : ℕ} (hn : 0 < n)
    (hxs : xs.length = 2 * n) (hevens : evens.length = n) (hodds : odds.length = n)
    (heven : ∀ k < n, evens.getD k 0 = xs.getD (2 * k) 0)
    (hodd : ∀ k < n, odds.getD k 0 = xs.getD (2 * k + 1) 0) (x : K) :
    (ofCoeffs xs).eval x =
      (ofCoeffs evens).eval (x ^ 2) + x * (ofCoeffs odds).eval (x ^ 2) := by
  have hpos : 0 < 2 * n := by omega
  rw [eval_ofCoeffs hpos hxs.le, eval_ofCoeffs hn hevens.le, eval_ofCoeffs hn hodds.le,
    sum_range_two_mul, sum_add_distrib, mul_sum]
  congr 1
  · apply sum_congr rfl
    intro k hk
    rw [heven k (mem_range.mp hk), pow_mul]
  · apply sum_congr rfl
    intro k hk
    rw [hodd k (mem_range.mp hk), pow_succ, pow_mul]
    ring

/-- The powers of a root of unity other than 1 cancel. -/
theorem sum_pow_eq_zero {u : K} {n : ℕ} (hu : u ^ n = 1) (hne : u ≠ 1) :
    ∑ k ∈ range n, u ^ k = 0 := by
  have hgeom := geom_sum_mul u n
  rw [hu, sub_self] at hgeom
  exact (mul_eq_zero.mp hgeom).resolve_right (sub_ne_zero.mpr hne)

theorem sum_ratio_pow {w : K} {n i j : ℕ} (hw : IsPrimitiveRoot w n) (hi : i < n) (hj : j < n) :
    ∑ k ∈ range n, (w ^ j * (w⁻¹) ^ i) ^ k = if j = i then (n : K) else 0 := by
  have hne : w ≠ 0 := hw.ne_zero (by omega)
  split
  case isTrue heq =>
    subst heq
    have hone : w ^ j * w⁻¹ ^ j = 1 := by rw [← mul_pow, mul_inv_cancel₀ hne, one_pow]
    simp only [hone, one_pow, sum_const, card_range, nsmul_eq_mul, mul_one]
  case isFalse hdiff =>
    apply sum_pow_eq_zero
    · rw [mul_pow, ← pow_mul, ← pow_mul, mul_comm j, mul_comm i, pow_mul, pow_mul, inv_pow,
        hw.pow_eq_one, inv_one, one_pow, one_pow, one_mul]
    · intro hone
      rw [inv_pow, mul_inv_eq_one₀ (pow_ne_zero i hne)] at hone
      exact hdiff (hw.pow_inj hj hi hone)

/-- The inverse transform of the values is the coefficients, `n` times. -/
theorem sum_eval_mul_inv_pow {w : K} {p : K[X]} {n i : ℕ} (hw : IsPrimitiveRoot w n)
    (hp : p.natDegree < n) (hi : i < n) :
    ∑ k ∈ range n, p.eval (w ^ k) * (w⁻¹ ^ i) ^ k = n * p.coeff i := by
  calc ∑ k ∈ range n, p.eval (w ^ k) * (w⁻¹ ^ i) ^ k
      = ∑ k ∈ range n, ∑ j ∈ range n, p.coeff j * (w ^ j * w⁻¹ ^ i) ^ k := by
        apply sum_congr rfl
        intro k _
        rw [eval_eq_sum_range' hp, sum_mul]
        apply sum_congr rfl
        intro j _
        rw [mul_pow, ← pow_mul w k j, ← pow_mul w j k, mul_comm k j, mul_assoc]
    _ = ∑ j ∈ range n, p.coeff j * ∑ k ∈ range n, (w ^ j * w⁻¹ ^ i) ^ k := by
        rw [sum_comm]
        simp only [mul_sum]
    _ = ∑ j ∈ range n, p.coeff j * if j = i then (n : K) else 0 := by
        apply sum_congr rfl
        intro j hj
        rw [sum_ratio_pow hw hi (mem_range.mp hj)]
    _ = n * p.coeff i := by
        simp only [mul_ite, mul_zero, sum_ite_eq', mem_range, hi, if_true]
        rw [mul_comm]

end MoreCpp.Library
