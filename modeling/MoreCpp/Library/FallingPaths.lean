import Mathlib.Algebra.Order.Group.Int
import Mathlib.Algebra.Order.Group.Unbundled.Basic
import Mathlib.Data.Set.Insert
import Mathlib.Order.Bounds.Basic

/-!
Paths down a table of costs, with one cell in each row and never straight down, and the least
cost of a path to a cell when a path is taken up anew wherever all of those to it cost as much
as a cap.
-/

namespace MoreCpp.Library.FallingPaths

/-- The costs of the paths from the cell `k` of row `q` to a cell of a later row. -/
inductive Descent (cost : Nat → Nat → Int) (n q k : Nat) : Nat → Nat → Int → Prop
  | single (hk : k < n) : Descent cost n q k q k (cost q k)
  | down {r j i : Nat} {s : Int} (h : Descent cost n q k r j s) (hi : i < n) (hji : j ≠ i) :
      Descent cost n q k (r + 1) i (s + cost (r + 1) i)

/-- The cells that paths start from: the first row, and each cell that the paths from such
cells of earlier rows all come to at the cost of `cap` or more. -/
def Fresh (cost : Nat → Nat → Int) (n : Nat) (cap : Int) : Nat → Nat → Prop
  | 0, i => i < n
  | r + 1, i => i < n ∧ ∀ q k j s, q ≤ r → Fresh cost n cap q k → Descent cost n q k r j s →
      j ≠ i → cap ≤ s
termination_by r => r

/-- What the paths to a cell cost. -/
def Sums (cost : Nat → Nat → Int) (n : Nat) (cap : Int) (r i : Nat) : Set Int :=
  {s | ∃ q k, Fresh cost n cap q k ∧ Descent cost n q k r i s}

variable {cost : Nat → Nat → Int} {n q k r i j : Nat} {cap s t : Int} {v : Nat → Int}

theorem Descent.le (h : Descent cost n q k r i s) : q ≤ r := by
  induction h with
  | single hk => exact Nat.le_refl q
  | down h hi hji ih => exact Nat.le_succ_of_le ih

theorem Descent.start_lt (h : Descent cost n q k r i s) : k < n := by
  induction h with
  | single hk => exact hk
  | down h hi hji ih => exact ih

theorem Descent.lt (h : Descent cost n q k r i s) : i < n := by
  cases h with
  | single hk => exact hk
  | down h hi hji => exact hi

theorem fresh_zero : Fresh cost n cap 0 i ↔ i < n := by rw [Fresh]

theorem fresh_succ : Fresh cost n cap (r + 1) i ↔
    i < n ∧ ∀ j ≠ i, ∀ s ∈ Sums cost n cap r j, cap ≤ s := by
  rw [Fresh]
  refine and_congr_right fun hi => ⟨?_, ?_⟩
  · rintro h j hji s ⟨q, k, hfresh, hpath⟩
    exact h q k j s hpath.le hfresh hpath hji
  · intro h q k j s hq hfresh hpath hji
    exact h j hji s ⟨q, k, hfresh, hpath⟩

theorem sums_zero (hi : i < n) : Sums cost n cap 0 i = {cost 0 i} := by
  ext s
  constructor
  · rintro ⟨q, k, -, hpath⟩
    cases hpath with
    | single hk => rfl
  · rintro rfl
    exact ⟨0, i, fresh_zero.mpr hi, .single hi⟩

/-- A path starts at the cell or comes to it from another column. -/
theorem mem_sums_succ (hi : i < n) : s ∈ Sums cost n cap (r + 1) i ↔
    Fresh cost n cap (r + 1) i ∧ s = cost (r + 1) i ∨
      ∃ j ≠ i, s - cost (r + 1) i ∈ Sums cost n cap r j := by
  constructor
  · rintro ⟨q, k, hfresh, hpath⟩
    cases hpath with
    | single hk => exact .inl ⟨hfresh, rfl⟩
    | down h hi hji => exact .inr ⟨_, hji, q, k, hfresh, by rwa [Int.add_sub_cancel]⟩
  · rintro (⟨hfresh, rfl⟩ | ⟨j, hji, q, k, hfresh, hpath⟩)
    · exact ⟨r + 1, i, hfresh, .single hi⟩
    · have hdown := hpath.down hi hji
      rw [Int.sub_add_cancel] at hdown
      exact ⟨q, k, hfresh, hdown⟩

/-- The least cost from those of the row above, where the cap stands for no path. -/
theorem isLeast_sums_succ (hcap : 0 ≤ cap) (hi : i < n)
    (hv : ∀ j < n, IsLeast (Sums cost n cap r j) (v j))
    (ht : IsLeast (insert cap {m | ∃ j < n, j ≠ i ∧ v j = m}) t) :
    IsLeast (Sums cost n cap (r + 1) i) (cost (r + 1) i + if t = cap then 0 else t) := by
  have hbelow : ∀ j ≠ i, ∀ s ∈ Sums cost n cap r j, t ≤ s := by
    rintro j hji s hs
    obtain ⟨q, k, -, hpath⟩ := id hs
    exact (ht.2 (.inr ⟨j, hpath.lt, hji, rfl⟩)).trans ((hv j hpath.lt).2 hs)
  split
  case isTrue heq =>
    have hfresh : Fresh cost n cap (r + 1) i := fresh_succ.mpr ⟨hi, heq ▸ hbelow⟩
    rw [Int.add_zero]
    refine ⟨(mem_sums_succ hi).mpr (.inl ⟨hfresh, rfl⟩), fun s hs => ?_⟩
    obtain ⟨-, rfl⟩ | ⟨j, hji, hmem⟩ := (mem_sums_succ hi).mp hs
    · exact Int.le_refl _
    · have hle := hbelow j hji _ hmem
      omega
  case isFalse hne =>
    have hlt : t < cap := lt_of_le_of_ne (ht.2 (.inl rfl)) hne
    obtain ⟨j, hj, hji, hvj⟩ := ht.1.resolve_left hne
    have hmem : t ∈ Sums cost n cap r j := hvj ▸ (hv j hj).1
    refine ⟨(mem_sums_succ hi).mpr (.inr ⟨j, hji, ?_⟩), fun s hs => ?_⟩
    · rwa [add_sub_cancel_left]
    obtain ⟨hfresh, -⟩ | ⟨j', hji', hmem'⟩ := (mem_sums_succ hi).mp hs
    · have hle := (fresh_succ.mp hfresh).2 j hji t hmem
      omega
    · have hle := hbelow j' hji' _ hmem'
      omega

/-- With no path but those from the first row, as long as no other comes to less. -/
theorem isLeast_first_row_iff {m : Int} (hm : IsLeast {s | ∃ i, s ∈ Sums cost n cap r i} m) :
    IsLeast {s | ∃ k i, Descent cost n 0 k r i s} m ↔
      ∀ q k i s, Fresh cost n cap q k → Descent cost n q k r i s →
        ∃ k' i' s', Descent cost n 0 k' r i' s' ∧ s' ≤ s := by
  constructor
  · intro hleast q k i s hfresh hpath
    obtain ⟨k', i', hpath'⟩ := hleast.1
    exact ⟨k', i', m, hpath', hm.2 ⟨i, q, k, hfresh, hpath⟩⟩
  · intro hall
    have hlower : m ∈ lowerBounds {s | ∃ k i, Descent cost n 0 k r i s} := by
      rintro s ⟨k, i, hpath⟩
      exact hm.2 ⟨i, 0, k, fresh_zero.mpr hpath.start_lt, hpath⟩
    obtain ⟨i, q, k, hfresh, hpath⟩ := hm.1
    obtain ⟨k', i', s, hpath', hle⟩ := hall q k i m hfresh hpath
    obtain rfl : s = m := Int.le_antisymm hle (hlower ⟨k', i', hpath'⟩)
    exact ⟨⟨k', i', hpath'⟩, hlower⟩

end MoreCpp.Library.FallingPaths
