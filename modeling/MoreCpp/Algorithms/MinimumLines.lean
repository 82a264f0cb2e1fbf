import MoreCpp.Library.IndexIntervals
import MoreCpp.Library.SignedInt
import Mathlib.Algebra.Order.Ring.Int
import Mathlib.Data.List.GetD
import Mathlib.Tactic.LinearCombination
import Mathlib.Tactic.Ring

/-!
`minimum_lines` of `algorithms/graphs/graphs.cpp`: how many lines the chart of the prices is
drawn with. A difference that is no `int` gives `none`; the products have 64 bits and always
fit.
-/

namespace MoreCpp.MinimumLines

open Library

/-- A day and the price on it. -/
abbrev Price := Int × Int

def priceLe (p q : Price) : Bool := p.1 < q.1 || p.1 == q.1 && p.2 ≤ q.2

/-- The loop, with the last difference. -/
def countLines : Nat → Int → Int → List Price → Option Nat
  | ans, dx, dy, p :: q :: rest => do
      let dx1 ← signed 32 (q.1 - p.1)
      let dy1 ← signed 32 (q.2 - p.2)
      countLines (if dy1 * dx ≠ dx1 * dy then ans + 1 else ans) dx1 dy1 (q :: rest)
  | ans, _, _, _ => some ans

def minimumLines (stockPrices : List Price) : Option Nat :=
  if stockPrices.length ≤ 1 then some 0
  else countLines 0 0 1 (stockPrices.mergeSort priceLe)

/-! ## Lines -/

/-- The points of the chart from `i` to `e` are on one line. -/
def Straight (v : Nat → Price) (i e : Nat) : Prop :=
  ∃ dx dy : Int, (dx ≠ 0 ∨ dy ≠ 0) ∧
    ∀ j, i ≤ j → j ≤ e → ((v j).2 - (v i).2) * dx = ((v j).1 - (v i).1) * dy

/-- The line does not go straight on at `j`. -/
def Turn (v : Nat → Price) (j : Nat) : Prop :=
  ((v (j + 1)).2 - (v j).2) * ((v j).1 - (v (j - 1)).1) ≠
    ((v (j + 1)).1 - (v j).1) * ((v j).2 - (v (j - 1)).2)

instance (v : Nat → Price) : DecidablePred (Turn v) := fun _ => instDecidableNot

variable {v : Nat → Price} {n i e : Nat}

/-- Each day comes after the one before. -/
def Ascending (v : Nat → Price) (n : Nat) : Prop := ∀ j, j < n → (v j).1 < (v (j + 1)).1

/-- Next to each other the differences are those of one line. -/
theorem parallel (hv : Ascending v n) (he : e ≤ n) (hturn : ∀ j, i < j → j < e → ¬Turn v j) {j : Nat}
    (hij : i ≤ j) (hje : j < e) :
    ((v (j + 1)).2 - (v j).2) * ((v (i + 1)).1 - (v i).1) =
      ((v (j + 1)).1 - (v j).1) * ((v (i + 1)).2 - (v i).2) := by
  induction j, hij using Nat.le_induction with
  | base => ring
  | succ j hij ih =>
      have hbefore := ih (Nat.lt_of_succ_lt hje)
      have hstraight := not_not.mp (hturn (j + 1) (Nat.lt_succ_of_le hij) hje)
      rw [Nat.add_sub_cancel] at hstraight
      have hpos : (v (j + 1)).1 - (v j).1 ≠ 0 := by
        have hless := hv j (by omega)
        omega
      refine mul_left_cancel₀ hpos ?_
      linear_combination ((v (i + 1)).1 - (v i).1) * hstraight +
        ((v (j + 1 + 1)).1 - (v (j + 1)).1) * hbefore

theorem straight_iff (hv : Ascending v n) (he : e ≤ n) (hie : i < e) :
    Straight v i e ↔ ∀ j, i < j → j < e → ¬Turn v j := by
  constructor
  · rintro ⟨dx, dy, hdirection, hline⟩ j hij hje
    have hdx : dx ≠ 0 := by
      rintro rfl
      have hfirst := hline (i + 1) (Nat.le_succ i) hie
      have hless := hv i (by omega)
      rw [mul_zero, zero_eq_mul] at hfirst
      omega
    obtain ⟨j, rfl⟩ : ∃ k, j = k + 1 := ⟨j - 1, by omega⟩
    have hbefore := hline j (by omega) (by omega)
    have hat := hline (j + 1) (by omega) (by omega)
    have hafter := hline (j + 1 + 1) (by omega) (by omega)
    refine not_not_intro (mul_right_cancel₀ hdx ?_)
    rw [Nat.add_sub_cancel]
    linear_combination ((v (j + 1)).1 - (v j).1) * (hafter - hat) -
      ((v (j + 1 + 1)).1 - (v (j + 1)).1) * (hat - hbefore)
  · intro hturn
    refine ⟨(v (i + 1)).1 - (v i).1, (v (i + 1)).2 - (v i).2, .inl ?_, fun j hij hje => ?_⟩
    · have hless := hv i (by omega)
      omega
    · induction j, hij using Nat.le_induction with
      | base => ring
      | succ j hij ih =>
          have hnext := parallel hv he hturn hij hje
          linear_combination ih (Nat.le_of_lt hje) + hnext

/-! ## The count -/

variable {chart : List Price}

/-- The differences of two points are `int`s. -/
def Fits (chart : List Price) : Prop := ∀ p ∈ chart, ∀ q ∈ chart,
  (-2 ^ 31 ≤ q.1 - p.1 ∧ q.1 - p.1 < 2 ^ 31) ∧ -2 ^ 31 ≤ q.2 - p.2 ∧ q.2 - p.2 < 2 ^ 31

theorem drop_eq_cons (hread : ∀ j, j < chart.length → chart[j]? = some (v j)) (hi : i < chart.length) :
    chart.drop i = v i :: chart.drop (i + 1) := by
  have hget := hread i hi
  rw [List.getElem?_eq_getElem hi, Option.some_inj] at hget
  rw [List.drop_eq_getElem_cons hi, hget]

theorem countLines_step (hread : ∀ j, j < chart.length → chart[j]? = some (v j)) (hfits : Fits chart)
    (ans : Nat) (dx dy : Int) (hi : i + 1 < chart.length) :
    countLines ans dx dy (chart.drop i) =
      countLines (if ((v (i + 1)).2 - (v i).2) * dx ≠ ((v (i + 1)).1 - (v i).1) * dy then ans + 1
        else ans) ((v (i + 1)).1 - (v i).1) ((v (i + 1)).2 - (v i).2) (chart.drop (i + 1)) := by
  have hmem : ∀ j, j < chart.length → v j ∈ chart := fun j hj => List.mem_of_getElem? (hread j hj)
  obtain ⟨⟨hlow, hhigh⟩, hlow', hhigh'⟩ := hfits _ (hmem i (by omega)) _ (hmem (i + 1) hi)
  rw [drop_eq_cons hread (by omega), drop_eq_cons hread hi, countLines, signed_eq hlow hhigh,
    signed_eq hlow' hhigh']
  rfl

theorem countLines_eq (hread : ∀ j, j < chart.length → chart[j]? = some (v j)) (hfits : Fits chart)
    (ans : Nat) (hi : i + 1 < chart.length) :
    countLines ans ((v (i + 1)).1 - (v i).1) ((v (i + 1)).2 - (v i).2) (chart.drop (i + 1)) =
      some (ans + (turns (Turn v) i (chart.length - 1)).card) := by
  obtain ⟨k, hk⟩ := Nat.exists_eq_add_of_lt hi
  induction k generalizing i ans with
  | zero =>
      have hnone : turns (Turn v) i (chart.length - 1) = ∅ := by
        ext j
        simp only [turns, Finset.mem_filter, Finset.mem_Ioo, Finset.notMem_empty, iff_false]
        omega
      have hend : chart.drop (i + 1 + 1) = [] := List.drop_eq_nil_of_le (by omega)
      rw [drop_eq_cons hread hi, hend, hnone]
      rfl
  | succ k ih =>
      have hnext : turns (Turn v) i (chart.length - 1) =
          if Turn v (i + 1) then insert (i + 1) (turns (Turn v) (i + 1) (chart.length - 1))
          else turns (Turn v) (i + 1) (chart.length - 1) := by
        have hinsert : Finset.Ioo i (chart.length - 1) =
            insert (i + 1) (Finset.Ioo (i + 1) (chart.length - 1)) := by
          ext j
          simp only [Finset.mem_Ioo, Finset.mem_insert]
          omega
        rw [turns, hinsert, Finset.filter_insert]
        rfl
      rw [countLines_step hread hfits ans _ _ (by omega), ih _ (by omega) (by omega), hnext]
      have hturn : Turn v (i + 1) ↔ ((v (i + 1 + 1)).2 - (v (i + 1)).2) * ((v (i + 1)).1 - (v i).1) ≠
          ((v (i + 1 + 1)).1 - (v (i + 1)).1) * ((v (i + 1)).2 - (v i).2) := by
        rw [Turn, Nat.add_sub_cancel]
      by_cases h : Turn v (i + 1)
      · rw [if_pos (hturn.mp h), if_pos h, Finset.card_insert_of_notMem (by simp [turns])]
        congr 1
        omega
      · rw [if_neg (fun hne => h (hturn.mpr hne)), if_neg h]

theorem eq_mergeSort {stockPrices : List Price} (hperm : chart.Perm stockPrices)
    (hsorted : chart.Pairwise fun p q => p.1 < q.1) : stockPrices.mergeSort priceLe = chart := by
  have hle : ∀ {p q}, priceLe p q = true ↔ p.1 < q.1 ∨ p.1 = q.1 ∧ p.2 ≤ q.2 := by
    intro p q
    simp [priceLe]
  have hmerge : (stockPrices.mergeSort priceLe).Pairwise fun p q => priceLe p q = true := by
    apply List.pairwise_mergeSort
    · intro p q r hpq hqr
      rw [hle] at hpq hqr ⊢
      omega
    · intro p q
      rw [Bool.or_eq_true, hle, hle]
      omega
  have hchart : chart.Pairwise fun p q => priceLe p q = true :=
    hsorted.imp fun hless => hle.mpr (.inl hless)
  refine ((List.mergeSort_perm stockPrices _).trans hperm.symm).eq_of_pairwise
    (fun p q _ _ hpq hqp => ?_) hmerge hchart
  rw [hle] at hpq hqp
  exact Prod.ext (by omega) (by omega)

/-- The chart has one price a day, and it is drawn with as few lines as possible. -/
theorem minimumLines_isLeast (stockPrices chart : List Price) (hperm : chart.Perm stockPrices)
    (hsorted : chart.Pairwise fun p q => p.1 < q.1) (hfits : Fits stockPrices) : ∃ ans,
      minimumLines stockPrices = some ans ∧
      IsLeast {n | Pieces (Straight fun j => chart.getD j (0, 0)) 0 (chart.length - 1) n} ans := by
  have hread : ∀ j, j < chart.length → chart[j]? = some (chart.getD j (0, 0)) := by
    intro j hj
    rw [List.getElem?_eq_getElem hj, List.getD_eq_getElem _ _ hj]
  have hfits' : Fits chart := fun p hp q hq =>
    hfits p (hperm.mem_iff.mp hp) q (hperm.mem_iff.mp hq)
  have hlength := hperm.length_eq
  rw [minimumLines, eq_mergeSort hperm hsorted]
  by_cases hshort : stockPrices.length ≤ 1
  · refine ⟨0, if_pos hshort, ?_, fun _ _ => Nat.zero_le _⟩
    have hzero : chart.length - 1 = 0 := by omega
    rw [hzero]
    exact .nil
  · generalize hv : (fun j => chart.getD j (0, 0)) = v
    have hread' : ∀ j, j < chart.length → chart[j]? = some (v j) := by
      intro j hj
      rw [hread j hj, ← hv]
    have hascending : Ascending v (chart.length - 1) := by
      intro j hj
      have hpair := List.pairwise_iff_getElem.mp hsorted j (j + 1) (by omega) (by omega)
        (Nat.lt_succ_self j)
      rw [← hv]
      dsimp only
      rwa [List.getD_eq_getElem _ _ (by omega), List.getD_eq_getElem _ _ (by omega)]
    have hleast := isLeast_pieces (fun i e hie he => straight_iff hascending he hie)
      (show 0 < chart.length - 1 by omega) (Nat.le_refl _)
    have hfirst : ((v 1).2 - (v 0).2) * 0 ≠ ((v 1).1 - (v 0).1) * 1 := by
      have hless : (v 0).1 < (v 1).1 := hascending 0 (by omega)
      rw [mul_zero, mul_one]
      omega
    have hcount := countLines_eq hread' hfits' 1 (show 0 + 1 < chart.length by omega)
    have hstep := countLines_step hread' hfits' 0 0 1 (show 0 + 1 < chart.length by omega)
    rw [if_pos hfirst, List.drop_zero] at hstep
    refine ⟨_, (if_neg hshort).trans (hstep.trans hcount), ?_⟩
    rwa [Nat.add_comm 1]

theorem minimumLines_isLeast_three : ∃ ans, minimumLines [(1, 1), (3, 2), (2, 2)] = some ans ∧
    IsLeast {n | Pieces (Straight fun j => [(1, 1), (2, 2), (3, 2)].getD j (0, 0)) 0 2 n} ans :=
  minimumLines_isLeast [(1, 1), (3, 2), (2, 2)] [(1, 1), (2, 2), (3, 2)] (by decide) (by simp)
    (by simp [Fits])

end MoreCpp.MinimumLines
