import MoreCpp.Library.Cells
import MoreCpp.Library.Loop
import Mathlib.Algebra.BigOperators.Intervals
import Mathlib.Algebra.BigOperators.Ring.Finset
import Mathlib.Algebra.Order.Group.Unbundled.Int
import Mathlib.Data.List.GetD
import Mathlib.Order.Bounds.Basic

/-!
`partition_set` of `algorithms/dp/dp.cpp`, with integers of any size. An index out of range
gives `none`.
-/

namespace MoreCpp

open Library

namespace PartitionSet

/-- A turn of the loop over the sums. -/
def spread (x sum : Nat) (dp : List Bool) : Option (List Bool) := do
  let a ← dp[sum]?
  let b ← dp[sum - x]?
  store dp sum (a || b)

/-- A turn of the loop over the elements. -/
def addElement (S : Nat) (dp : List Bool) (x : Nat) : Option (List Bool) :=
  forDown x (S + 1) (spread x) dp

/-- A turn of the loop that looks for the least difference. -/
def compare (S : Nat) (dp : List Bool) (sum : Nat) (mn : Int) : Option Int := do
  let b ← dp[sum]?
  if b then return min mn (|(S : Int) - sum| - sum)
  else return mn

def partitionSet (arr : List Nat) : Option Int := do
  let S := arr.sum
  let dp ← store (List.replicate (S + 1) false) 0 true
  let dp ← arr.foldlM (addElement S) dp
  forRange 0 (S / 2 + 1) (compare S dp) S

/-- The sum of the elements at some of the first `k` positions. -/
def Reaches (arr : List Nat) (k s : Nat) : Prop :=
  ∃ A ⊆ Finset.range k, ∑ i ∈ A, arr.getD i 0 = s

variable {arr : List Nat} {k s j x S : Nat} {dp : List Bool}

/-! ## Sums -/

theorem reaches_zero : Reaches arr 0 s ↔ s = 0 := by
  constructor
  · rintro ⟨A, hA, rfl⟩
    rw [Finset.subset_empty.mp hA, Finset.sum_empty]
  · rintro rfl
    exact ⟨∅, Finset.empty_subset _, Finset.sum_empty⟩

/-- With the next element or without it. -/
theorem reaches_succ : Reaches arr (k + 1) s ↔
    Reaches arr k s ∨ arr.getD k 0 ≤ s ∧ Reaches arr k (s - arr.getD k 0) := by
  constructor
  · rintro ⟨A, hA, rfl⟩
    rw [Finset.range_add_one] at hA
    by_cases hk : k ∈ A
    · have hsum := Finset.add_sum_erase A (arr.getD · 0) hk
      refine .inr ⟨by omega, A.erase k, ?_, by omega⟩
      exact Finset.subset_insert_iff.mp hA
    · exact .inl ⟨A, (Finset.subset_insert_iff_of_notMem hk).mp hA, rfl⟩
  · rintro (⟨A, hA, rfl⟩ | ⟨hle, A, hA, hsum⟩)
    · exact ⟨A, hA.trans (Finset.range_subset_range.mpr (Nat.le_succ k)), rfl⟩
    · have hk : k ∉ A := fun hmem => Finset.notMem_range_self (hA hmem)
      refine ⟨insert k A, ?_, by rw [Finset.sum_insert hk, hsum]; omega⟩
      rw [Finset.range_add_one]
      exact Finset.insert_subset_insert k hA

theorem sum_range_getD (arr : List Nat) :
    ∑ i ∈ Finset.range arr.length, arr.getD i 0 = arr.sum := by
  induction arr with
  | nil => rfl
  | cons x arr ih =>
      rw [List.length_cons, Finset.sum_range_succ', List.sum_cons, ← ih, Nat.add_comm]
      rfl

/-- The two parts have all the elements. -/
theorem sum_add_sum_compl {A : Finset Nat} (hA : A ⊆ Finset.range arr.length) :
    ∑ i ∈ A, arr.getD i 0 + ∑ i ∈ Finset.range arr.length \ A, arr.getD i 0 = arr.sum := by
  rw [Nat.add_comm, Finset.sum_sdiff hA, sum_range_getD]

theorem Reaches.compl (h : Reaches arr arr.length s) :
    s ≤ arr.sum ∧ Reaches arr arr.length (arr.sum - s) := by
  obtain ⟨A, hA, rfl⟩ := h
  have hsum := sum_add_sum_compl hA
  exact ⟨by omega, Finset.range arr.length \ A, Finset.sdiff_subset, by omega⟩

/-! ## The table -/

/-- The cells from `j` on are those of one more element. -/
def Row (arr : List Nat) (S k j : Nat) (dp : List Bool) : Prop :=
  Each dp (S + 1) fun s b => b = true ↔ Reaches arr (if j ≤ s then k + 1 else k) s

theorem spread_spec (hx : arr.getD k 0 = x) (hxj : x ≤ j) (hj : j < S + 1)
    (h : Row arr S k (j + 1) dp) : ∃ dp', spread x j dp = some dp' ∧ Row arr S k j dp' := by
  obtain ⟨a, ha, hreach⟩ := h.read j hj
  obtain ⟨b, hb, hreach'⟩ := h.read (j - x) (by omega)
  rw [if_neg (by omega)] at hreach hreach'
  have hnext : (a || b) = true ↔ Reaches arr (k + 1) j := by
    rw [Bool.or_eq_true, hreach, hreach', reaches_succ, hx, and_iff_right hxj]
  obtain ⟨dp', hstore, hrow⟩ := h.update (a := a || b)
    (Q := fun s b => b = true ↔ Reaches arr (if j ≤ s then k + 1 else k) s) hj
    (by rwa [if_pos (Nat.le_refl j)]) fun s c _ hne hc => by
      have hsame : j + 1 ≤ s ↔ j ≤ s := by omega
      simpa only [hsame] using hc
  refine ⟨dp', ?_, hrow⟩
  simp only [spread, ha, hb, hstore, Option.bind_eq_bind, Option.bind_some]

/-- Downwards, so that no element is added twice. -/
theorem addElement_spec (hx : arr.getD k 0 = x)
    (h : Each dp (S + 1) fun s b => b = true ↔ Reaches arr k s) :
    ∃ dp', addElement S dp x = some dp' ∧
      Each dp' (S + 1) fun s b => b = true ↔ Reaches arr (k + 1) s := by
  have hstart : Row arr S k (S + 1) dp := h.mono fun s b hs hold => by rwa [if_neg (by omega)]
  obtain ⟨dp', hrun, hrow⟩ := forDown_rule (Row arr S k) hstart fun j dp hxj hj hrow =>
    spread_spec hx hxj hj hrow
  refine ⟨dp', hrun, hrow.mono fun s b hs hold => ?_⟩
  split at hold
  case isTrue => exact hold
  case isFalse hlow =>
    -- The element is larger than this sum.
    rw [hold, reaches_succ, hx, or_iff_left]
    rintro ⟨hle, -⟩
    omega

theorem table_spec (arr : List Nat) :
    ∃ start dp, store (List.replicate (arr.sum + 1) false) 0 true = some start ∧
      arr.foldlM (addElement arr.sum) start = some dp ∧
      Each dp (arr.sum + 1) fun s b => b = true ↔ Reaches arr arr.length s := by
  have hfalse : Each (List.replicate (arr.sum + 1) false) (arr.sum + 1) fun _ b => b = false :=
    Each.replicate fun _ _ => rfl
  obtain ⟨start, hstore, hstart⟩ := hfalse.update (a := true)
    (Q := fun s b => b = true ↔ Reaches arr 0 s) (Nat.succ_pos _)
    (by simp [reaches_zero]) fun s b _ hne hb => by
      rw [reaches_zero, hb]
      exact iff_of_false Bool.false_ne_true hne
  have hloop : ∃ dp, arr.foldlM (addElement arr.sum) start = some dp ∧
      Each dp (arr.sum + 1) fun s b => b = true ↔ Reaches arr arr.length s := by
    apply foldlM_rule
      fun seen dp => Each dp (arr.sum + 1) fun s b => b = true ↔ Reaches arr seen.length s
    · exact hstart
    · intro seen x rest dp hsplit h
      have hx : arr.getD seen.length 0 = x := by
        rw [hsplit, List.getD_append_right _ _ _ _ (Nat.le_refl _), Nat.sub_self]
        rfl
      rw [List.length_append, List.length_singleton]
      exact addElement_spec hx h
  obtain ⟨dp, hrun, htable⟩ := hloop
  exact ⟨start, dp, hstore, hrun, htable⟩

/-! ## The least difference -/

/-- The differences for the sums below `k`, and that of the empty set. -/
def Below (arr : List Nat) (k : Nat) : Set Int :=
  insert (arr.sum : Int) {d | ∃ s < k, Reaches arr arr.length s ∧ (arr.sum : Int) - 2 * s = d}

theorem below_succ_of_reaches (h : Reaches arr arr.length k) :
    Below arr (k + 1) = insert ((arr.sum : Int) - 2 * k) (Below arr k) := by
  ext d
  simp only [Below, Set.mem_insert_iff, Set.mem_ofPred_eq, Nat.lt_succ_iff_lt_or_eq]
  constructor
  · rintro (hd | ⟨s, hs | rfl, hreach, hd⟩)
    · exact .inr (.inl hd)
    · exact .inr (.inr ⟨s, hs, hreach, hd⟩)
    · exact .inl hd.symm
  · rintro (hd | hd | ⟨s, hs, hreach, hd⟩)
    · exact .inr ⟨k, .inr rfl, h, hd.symm⟩
    · exact .inl hd
    · exact .inr ⟨s, .inl hs, hreach, hd⟩

theorem below_succ_of_not_reaches (h : ¬Reaches arr arr.length k) :
    Below arr (k + 1) = Below arr k := by
  ext d
  simp only [Below, Set.mem_insert_iff, Set.mem_ofPred_eq, Nat.lt_succ_iff_lt_or_eq]
  refine or_congr_right ⟨?_, ?_⟩
  · rintro ⟨s, hs | rfl, hreach, hd⟩
    · exact ⟨s, hs, hreach, hd⟩
    · exact absurd hreach h
  · rintro ⟨s, hs, hreach, hd⟩
    exact ⟨s, .inl hs, hreach, hd⟩

theorem compare_spec (h : Each dp (arr.sum + 1) fun s b => b = true ↔ Reaches arr arr.length s)
    (hk : k < arr.sum / 2 + 1) {mn : Int} (hmn : IsLeast (Below arr k) mn) :
    ∃ mn', compare arr.sum dp k mn = some mn' ∧ IsLeast (Below arr (k + 1)) mn' := by
  obtain ⟨b, hb, hreach⟩ := h.read k (by omega)
  rw [compare, hb, Option.bind_eq_bind, Option.bind_some]
  cases b with
  | true =>
      refine ⟨min mn (|(arr.sum : Int) - k| - k), rfl, ?_⟩
      have hvalue : |(arr.sum : Int) - k| - k = arr.sum - 2 * k := by
        rw [abs_of_nonneg (by omega)]
        omega
      rw [below_succ_of_reaches (hreach.mp rfl), hvalue, min_comm]
      exact hmn.insert _
  | false =>
      refine ⟨mn, rfl, ?_⟩
      rwa [below_succ_of_not_reaches fun hk => Bool.false_ne_true (hreach.mpr hk)]

/-- The difference of the two parts, from the sum of one of them. -/
theorem difference_eq {A : Finset Nat} (hA : A ⊆ Finset.range arr.length) :
    |∑ i ∈ A, (arr.getD i 0 : Int) - ∑ i ∈ Finset.range arr.length \ A, (arr.getD i 0 : Int)| =
      |2 * ((∑ i ∈ A, arr.getD i 0 : Nat) : Int) - arr.sum| := by
  have hsum := sum_add_sum_compl hA
  rw [← Nat.cast_sum, ← Nat.cast_sum]
  congr 1
  omega

/-- Sums of half the total at most are enough: the other part has the rest. -/
theorem isLeast_difference {mn : Int} (h : IsLeast (Below arr (arr.sum / 2 + 1)) mn) :
    IsLeast {d : Int | ∃ s, Reaches arr arr.length s ∧ |2 * (s : Int) - arr.sum| = d} mn := by
  constructor
  · obtain rfl | ⟨s, hs, hreach, rfl⟩ := h.1
    · refine ⟨0, ⟨∅, Finset.empty_subset _, Finset.sum_empty⟩, ?_⟩
      rw [abs_of_nonpos (by omega)]
      omega
    · refine ⟨s, hreach, ?_⟩
      rw [abs_of_nonpos (by omega)]
      omega
  · rintro _ ⟨s, hreach, rfl⟩
    obtain ⟨hle, hcompl⟩ := hreach.compl
    obtain hlow | hhigh := Nat.lt_or_ge s (arr.sum / 2 + 1)
    · have hleast := h.2 (.inr ⟨s, hlow, hreach, rfl⟩)
      rw [abs_of_nonpos (by omega)]
      omega
    · have hleast := h.2 (.inr ⟨arr.sum - s, by omega, hcompl, rfl⟩)
      rw [abs_of_nonneg (by omega)]
      omega

/-- The least difference of the sums of two sets that have all positions between them. -/
theorem partitionSet_eq (arr : List Nat) : ∃ r, partitionSet arr = some r ∧
    IsLeast {d : Int | ∃ A ⊆ Finset.range arr.length,
      |∑ i ∈ A, (arr.getD i 0 : Int) - ∑ i ∈ Finset.range arr.length \ A, (arr.getD i 0 : Int)| = d}
      r := by
  obtain ⟨start, dp, hstore, hrun, htable⟩ := table_spec arr
  have hstart : IsLeast (Below arr 0) arr.sum := by
    refine ⟨Set.mem_insert _ _, Set.forall_mem_insert.mpr ⟨Int.le_refl _, ?_⟩⟩
    rintro _ ⟨s, hs, -⟩
    exact absurd hs (Nat.not_lt_zero s)
  obtain ⟨r, hloop, hleast⟩ := forRange_rule (fun k mn => IsLeast (Below arr k) mn) hstart
    fun k mn _ hk hmn => compare_spec htable hk hmn
  rw [Nat.zero_max] at hleast
  refine ⟨r, ?_, ?_⟩
  · rw [partitionSet, hstore, Option.bind_eq_bind, Option.bind_some, hrun]
    exact hloop
  · have hsame := isLeast_difference hleast
    refine ⟨?_, ?_⟩
    · obtain ⟨s, ⟨A, hA, rfl⟩, hd⟩ := hsame.1
      exact ⟨A, hA, (difference_eq hA).trans hd⟩
    · rintro _ ⟨A, hA, rfl⟩
      rw [difference_eq hA]
      exact hsame.2 ⟨_, ⟨A, hA, rfl⟩, rfl⟩

end PartitionSet

end MoreCpp
