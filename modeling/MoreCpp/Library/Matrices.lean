import Mathlib.Algebra.BigOperators.Group.List.Basic
import Mathlib.Algebra.BigOperators.Intervals
import Mathlib.Algebra.Order.Ring.Nat
import Mathlib.Data.List.Forall2
import Mathlib.LinearAlgebra.Matrix.Block

/-!
Tables of numbers: where their entries stand in memory, and the systems of equations they give.
-/

namespace MoreCpp.Library

/-! ## Strides

Where the entry with given subscripts stands when the entries of all dimensions are in one row.
-/

section Strides

variable {extents dims dims' : List Nat}

/-- One subscript for each dimension, that is less than its extent. -/
def InBounds (extents dims : List Nat) : Prop := List.Forall₂ (· < ·) dims extents

instance : Decidable (InBounds extents dims) :=
  inferInstanceAs (Decidable (List.Forall₂ (· < ·) dims extents))

def offset (strides dims : List Nat) : Nat := (List.zipWith (· * ·) dims strides).sum

/-- The entries that differ in the last subscript only stand together. -/
def rowMajorStrides : List Nat → List Nat
  | [] => []
  | _ :: extents => extents.prod :: rowMajorStrides extents

theorem offset_lt (h : InBounds extents dims) :
    offset (rowMajorStrides extents) dims < extents.prod := by
  induction h with
  | nil => exact Nat.zero_lt_one
  | @cons d n dims extents hd _ ih =>
      simp only [offset, rowMajorStrides, List.zipWith_cons_cons, List.sum_cons,
        List.prod_cons] at ih ⊢
      calc d * extents.prod + _ < d * extents.prod + extents.prod := Nat.add_lt_add_left ih _
        _ = (d + 1) * extents.prod := (Nat.succ_mul d extents.prod).symm
        _ ≤ n * extents.prod := Nat.mul_le_mul_right _ hd

theorem offset_injective (h : InBounds extents dims) (h' : InBounds extents dims')
    (heq : offset (rowMajorStrides extents) dims = offset (rowMajorStrides extents) dims') :
    dims = dims' := by
  induction h generalizing dims' with
  | nil => exact (List.forall₂_nil_right_iff.mp h').symm
  | @cons d n dims extents hd hdims ih =>
      obtain ⟨d', rest, hd', hrest, rfl⟩ := List.forall₂_cons_right_iff.mp h'
      have hlt := offset_lt hdims
      have hlt' := offset_lt hrest
      have hpos : 0 < extents.prod := Nat.zero_lt_of_lt hlt
      simp only [offset, rowMajorStrides, List.zipWith_cons_cons, List.sum_cons] at ih heq hlt hlt'
      have hquot := congrArg (· / extents.prod) heq
      have hrem := congrArg (· % extents.prod) heq
      simp only [Nat.mul_add_mod_self_right, Nat.mod_eq_of_lt hlt, Nat.mod_eq_of_lt hlt'] at hrem
      simp only [Nat.add_comm (_ * _), Nat.add_mul_div_right _ _ hpos, Nat.div_eq_of_lt hlt,
        Nat.div_eq_of_lt hlt', Nat.zero_add] at hquot
      rw [hquot, ih hrest hrem]

/-- All subscripts that are in bounds. -/
def subscripts : List Nat → List (List Nat)
  | [] => [[]]
  | n :: extents => (List.range n).flatMap fun i => (subscripts extents).map (i :: ·)

theorem mem_subscripts : dims ∈ subscripts extents ↔ InBounds extents dims := by
  induction extents generalizing dims with
  | nil => rw [subscripts, List.mem_singleton, InBounds, List.forall₂_nil_right_iff]
  | cons n extents ih =>
      rw [subscripts, InBounds, List.forall₂_cons_right_iff]
      simp only [List.mem_flatMap, List.mem_range, List.mem_map, ih]
      constructor
      · rintro ⟨i, hi, rest, hrest, rfl⟩
        exact ⟨i, rest, hi, hrest, rfl⟩
      · rintro ⟨i, rest, hi, hrest, rfl⟩
        exact ⟨i, hi, rest, hrest, rfl⟩

end Strides

/-! ## Systems of equations

Systems of linear equations, with the coefficients and the right sides given by functions of
which the values below `n` matter: what becomes of them when each row has the one before it
taken away, and how those with zeros below the diagonal are solved from the last row up.
-/

section LinearSystem

open Finset

variable {K : Type*} [Field K] {n i j c : ℕ} {f g : ℕ → K} {A : ℕ → ℕ → K} {b x : ℕ → K}

def IsSolution (n : ℕ) (A : ℕ → ℕ → K) (b x : ℕ → K) : Prop :=
  ∀ i < n, ∑ j ∈ range n, A i j * x j = b i

def Nonsingular (n : ℕ) (A : ℕ → ℕ → K) : Prop :=
  (Matrix.of fun i j : Fin n => A i j).det ≠ 0

/-- The zeros are below the diagonal, and none on it. -/
structure UpperTriangular (n : ℕ) (A : ℕ → ℕ → K) : Prop where
  below : ∀ i < n, ∀ j < i, A i j = 0
  diagonal : ∀ i < n, A i i ≠ 0

theorem IsSolution.congr {A' : ℕ → ℕ → K} {b' : ℕ → K}
    (hA : ∀ i < n, ∀ j < n, A' i j = A i j) (hb : ∀ i < n, b' i = b i) :
    IsSolution n A' b' x ↔ IsSolution n A b x := by
  apply forall₂_congr
  intro i hi
  rw [hb i hi, sum_congr rfl fun j hj => by rw [hA i hi j (mem_range.mp hj)]]

theorem UpperTriangular.congr {A' : ℕ → ℕ → K} (h : UpperTriangular n A)
    (hA : ∀ i < n, ∀ j < n, A' i j = A i j) : UpperTriangular n A' where
  below i hi j hj := by rw [hA i hi j (hj.trans hi), h.below i hi j hj]
  diagonal i hi := by
    rw [hA i hi i hi]
    exact h.diagonal i hi

/-! ## Differences -/

/-- What stands before a position, and zero before the first. -/
def preceding (f : ℕ → K) : ℕ → K
  | 0 => 0
  | i + 1 => f i

/-- Up to `j` with what stands before taken away, and from there on with what stands
before `j`. -/
def differences (j : ℕ) (f : ℕ → K) (i : ℕ) : K := f i - preceding f (min i j)

theorem differences_zero (f : ℕ → K) : differences 0 f = f := by
  funext i
  rw [differences, Nat.min_zero, preceding, sub_zero]

/-- Each step takes the value at `j` from those after it. -/
theorem differences_succ (j : ℕ) (f : ℕ → K) (i : ℕ) : differences (j + 1) f i =
    if j < i then differences j f i - differences j f j else differences j f i := by
  unfold differences
  split
  case isTrue hlt =>
    rw [Nat.min_eq_right (by omega : j + 1 ≤ i), Nat.min_eq_right hlt.le, Nat.min_self, preceding]
    ring
  case isFalse hle => rw [Nat.min_eq_left (by omega), Nat.min_eq_left (by omega)]

theorem differences_eq_zero (hf : ∀ r, c ≤ r → r ≤ i → f r = f c) (hi : c < i) (hj : c < j) :
    differences j f i = 0 := by
  obtain ⟨k, hk⟩ := Nat.exists_eq_succ_of_ne_zero (show min i j ≠ 0 by omega)
  rw [differences, hk, preceding, hf i hi.le le_rfl, hf k (by omega) (by omega), sub_self]

/-- The differences determine the values. -/
theorem differences_injective :
    (∀ i < n, differences j f i = differences j g i) ↔ ∀ i < n, f i = g i := by
  have hbefore : ∀ i, (∀ r < i, f r = g r) → preceding f (min i j) = preceding g (min i j) := by
    intro i hsame
    cases hk : min i j with
    | zero => rfl
    | succ k => exact hsame k (by omega)
  constructor
  · intro hdiff i
    induction i using Nat.strong_induction_on with
    | h i ih =>
        intro hi
        have hsame := hbefore i fun r hr => ih r hr (hr.trans hi)
        have heq := hdiff i hi
        rw [differences, differences, hsame] at heq
        exact sub_left_injective heq
  · intro hsame i hi
    rw [differences, differences, hsame i hi, hbefore i fun r hr => hsame r (hr.trans hi)]

theorem sum_preceding (A : ℕ → ℕ → K) (x : ℕ → K) (n i : ℕ) :
    ∑ c ∈ range n, preceding (fun r => A r c) i * x c =
      preceding (fun r => ∑ c ∈ range n, A r c * x c) i := by
  cases i with
  | zero => simp [preceding]
  | succ i => rfl

/-- Differences of rows have the same solutions. -/
theorem isSolution_differences :
    IsSolution n (fun i c => differences j (fun r => A r c) i) (differences j b) x ↔
      IsSolution n A b x := by
  have hsum : ∀ i, ∑ c ∈ range n, differences j (fun r => A r c) i * x c =
      differences j (fun r => ∑ c ∈ range n, A r c * x c) i := by
    intro i
    simp only [differences, sub_mul, sum_sub_distrib, sum_preceding]
  simp only [IsSolution, hsum]
  exact differences_injective

theorem det_differences (n : ℕ) (A : ℕ → ℕ → K) :
    (Matrix.of fun i c : Fin n => differences n (fun r => A r c) i).det =
      (Matrix.of fun i c : Fin n => A i c).det := by
  cases n with
  | zero => rw [Matrix.det_fin_zero, Matrix.det_fin_zero]
  | succ n =>
      symm
      apply Matrix.det_eq_of_forall_row_eq_smul_add_pred fun _ => 1
      · intro c
        simp [differences, preceding]
      · intro i c
        have hmin : min (i.val + 1) (n + 1) = i.val + 1 := by omega
        simp only [Matrix.of_apply, differences, Fin.val_succ, Fin.val_castSucc, hmin, preceding]
        ring

/-! ## Triangular systems -/

theorem det_upper (hbelow : ∀ i < n, ∀ j < i, A i j = 0) :
    (Matrix.of fun i j : Fin n => A i j).det = ∏ i : Fin n, A i i :=
  Matrix.det_of_isUpperTriangular fun i j hlt => hbelow i i.isLt j hlt

theorem Nonsingular.diagonal (h : Nonsingular n A) (hbelow : ∀ i < n, ∀ j < i, A i j = 0) :
    UpperTriangular n A where
  below := hbelow
  diagonal i hi := by
    rw [Nonsingular, det_upper hbelow, prod_ne_zero_iff] at h
    exact h ⟨i, hi⟩ (mem_univ _)

theorem nonsingular_differences :
    Nonsingular n (fun i c => differences n (fun r => A r c) i) ↔ Nonsingular n A := by
  rw [Nonsingular, Nonsingular, det_differences]

/-- Each value from those after it. -/
theorem isSolution_of_back (hbelow : ∀ i < n, ∀ j < i, A i j = 0)
    (hx : ∀ i < n, A i i * x i = b i - ∑ j ∈ Ico (i + 1) n, A i j * x j) :
    IsSolution n A b x := by
  intro i hi
  have hzero : ∑ j ∈ range i, A i j * x j = 0 :=
    sum_eq_zero fun j hj => by rw [hbelow i hi j (mem_range.mp hj), zero_mul]
  rw [← sum_range_add_sum_Ico _ (Nat.succ_le_of_lt hi), sum_range_succ, hzero, zero_add, hx i hi,
    sub_add_cancel]

end LinearSystem

end MoreCpp.Library
