import MoreCpp.Library.Cells
import MoreCpp.Library.FallingPaths
import MoreCpp.Library.Loop
import MoreCpp.Library.SignedInt

/-!
`min_falling_path_sum` of `algorithms/dp/dp.cpp`. `none` is an `int` that overflows or an index
out of range. No grid of `2 ^ 31` rows as long is small enough for the memory, so the number of
rows is one of any size.
-/

namespace MoreCpp

open Library FallingPaths

namespace MinFallingPath

/-- `1 << 30`. -/
def inf : Int := 2 ^ 30

/-- A turn of the loop over the columns `j`. -/
def other (f : List Int) (i j : Nat) (t : Int) : Option Int :=
  if j ≠ i then do
    let v ← f[j]?
    return min t v
  else some t

def leastOther (n : Nat) (f : List Int) (i : Nat) : Option Int := forRange 0 n (other f i) inf

/-- A turn of the loop over the columns `i`. -/
def turn (n : Nat) (f : List Int) (i : Nat) (g : List Int) : Option (List Int) := do
  let t ← leastOther n f i
  let v ← g[i]?
  let s ← signed 32 (v + if t = inf then 0 else t)
  store g i s

/-- A turn of the loop over the rows. -/
def addRow (grid : List (List Int)) (n r : Nat) (f : List Int) : Option (List Int) := do
  let row ← grid[r]?
  forRange 0 n (turn n f) row

def minFallingPathSum (grid : List (List Int)) : Option Int := do
  let n := grid.length
  let f ← forRange 0 n (addRow grid n) (List.replicate n 0)
  f.min?

def entry (grid : List (List Int)) (r i : Nat) : Int := (grid.getD r []).getD i 0

/-- No sum is too small for an `int`, and one is not too large. -/
def Fits (S : Set Int) : Prop := (∀ s ∈ S, -2 ^ 31 ≤ s) ∧ ∃ s ∈ S, s < 2 ^ 31

variable {grid : List (List Int)} {f g row : List Int} {n i k r : Nat} {t v m : Int} {S : Set Int}

theorem fits_iff (h : IsLeast S m) : Fits S ↔ -2 ^ 31 ≤ m ∧ m < 2 ^ 31 := by
  constructor
  · rintro ⟨hlow, s, hs, hhigh⟩
    exact ⟨hlow m h.1, (h.2 hs).trans_lt hhigh⟩
  · rintro ⟨hlow, hhigh⟩
    exact ⟨fun s hs => hlow.trans (h.2 hs), m, h.1, hhigh⟩

/-! ## One row -/

/-- The cells of `f` in the columns before `k`, `i` apart. -/
def Others (f : List Int) (i k : Nat) : Set Int := {v | ∃ j < k, j ≠ i ∧ f[j]? = some v}

theorem others_zero : Others f i 0 = ∅ := by
  ext v
  simp [Others]

theorem mem_others_succ (hread : f[k]? = some v) :
    m ∈ Others f i (k + 1) ↔ m ∈ Others f i k ∨ k ≠ i ∧ v = m := by
  constructor
  · rintro ⟨j, hj, hji, hm⟩
    obtain hlt | rfl := Nat.lt_succ_iff_lt_or_eq.mp hj
    · exact .inl ⟨j, hlt, hji, hm⟩
    · exact .inr ⟨hji, Option.some.inj (hread.symm.trans hm)⟩
  · rintro (⟨j, hj, hji, hm⟩ | ⟨hki, rfl⟩)
    · exact ⟨j, Nat.lt_succ_of_lt hj, hji, hm⟩
    · exact ⟨k, Nat.lt_succ_self k, hki, hread⟩

theorem other_spec (hk : k < f.length) (ht : IsLeast (insert inf (Others f i k)) t) :
    ∃ t', other f i k t = some t' ∧ IsLeast (insert inf (Others f i (k + 1))) t' := by
  have hread : f[k]? = some f[k] := List.getElem?_eq_getElem hk
  by_cases hki : k = i
  · have hsame : Others f i (k + 1) = Others f i k := by
      ext m
      rw [mem_others_succ hread]
      exact or_iff_left fun h => h.1 hki
    exact ⟨t, if_neg (not_not_intro hki), hsame ▸ ht⟩
  · have hnext : Others f i (k + 1) = insert f[k] (Others f i k) := by
      ext m
      rw [mem_others_succ hread, Set.mem_insert_iff, or_comm, and_iff_right hki, eq_comm]
    refine ⟨min t f[k], by rw [other, if_pos hki, hread]; rfl, ?_⟩
    rw [hnext, Set.insert_comm, Int.min_comm]
    exact ht.insert f[k]

theorem leastOther_spec (hf : f.length = n) (i : Nat) :
    ∃ t, leastOther n f i = some t ∧ IsLeast (insert inf (Others f i n)) t := by
  have hstart : IsLeast (insert inf (Others f i 0)) inf := by
    have hnone : insert inf (Others f i 0) = {inf} := by rw [others_zero, insert_empty_eq]
    rw [hnone]
    exact isLeast_singleton
  have hloop := forRange_rule (fun k t => IsLeast (insert inf (Others f i k)) t) hstart
    fun k t _ (hk : k < n) ht => other_spec (hf ▸ hk) ht
  rwa [Nat.zero_max] at hloop

/-- From `f` and the costs of a row, the least sums of the row are to be had. -/
def Extends (f row : List Int) (n : Nat) (S : Nat → Set Int) : Prop :=
  ∀ i < n, ∀ c t, row[i]? = some c → IsLeast (insert inf (Others f i n)) t →
    IsLeast (S i) (c + if t = inf then 0 else t)

/-- The columns before `k` have their least sums, and the others their costs. -/
def Partial (row : List Int) (S : Nat → Set Int) (k i : Nat) (v : Int) : Prop :=
  (i < k → IsLeast (S i) v) ∧ (k ≤ i → row[i]? = some v)

theorem turn_spec {S : Nat → Set Int} (hf : f.length = n) (hS : Extends f row n S) (hk : k < n)
    (hg : Each g n (Partial row S k)) :
    (Fits (S k) ∧ ∃ g', turn n f k g = some g' ∧ Each g' n (Partial row S (k + 1))) ∨
      (¬Fits (S k) ∧ turn n f k g = none) := by
  obtain ⟨t, ht, hleast⟩ := leastOther_spec hf k
  obtain ⟨v, hv, -, hcost⟩ := hg.read k hk
  have hsum := hS k hk v t (hcost (Nat.le_refl k)) hleast
  simp only [turn, ht, hv, Option.bind_eq_bind, Option.bind_some]
  by_cases hfits : Fits (S k)
  · obtain ⟨hlow, hhigh⟩ := (fits_iff hsum).mp hfits
    rw [signed_eq hlow hhigh]
    refine .inl ⟨hfits, hg.update hk ⟨fun _ => hsum, fun hlt => by omega⟩ fun i w _ hne hw => ?_⟩
    exact ⟨fun hlt => hw.1 (by omega), fun hle => hw.2 (by omega)⟩
  · have hnone : signed 32 (v + if t = inf then 0 else t) = none :=
      if_neg fun h => hfits ((fits_iff hsum).mpr h)
    exact .inr ⟨hfits, by rw [hnone]; rfl⟩

theorem addRow_spec {S : Nat → Set Int} (hf : f.length = n) (hread : grid[r]? = some row)
    (hrow : row.length = n) (hS : Extends f row n S) :
    ((∀ i < n, Fits (S i)) ∧ ∃ g, addRow grid n r f = some g ∧
        Each g n fun i v => IsLeast (S i) v) ∨
      (¬(∀ i < n, Fits (S i)) ∧ addRow grid n r f = none) := by
  have hstart : Each row n (Partial row S 0) := ⟨hrow, fun i hi =>
    ⟨row[i], List.getElem?_eq_getElem _, fun hlt => absurd hlt (Nat.not_lt_zero i),
      fun _ => List.getElem?_eq_getElem _⟩⟩
  obtain ⟨hfits, g, hrun, hg⟩ | ⟨hfail, hrun⟩ := forRange_checked
    (fun k g => Each g n (Partial row S k)) (fun k => Fits (S k)) hstart
    fun k g _ (hk : k < n) hg => turn_spec hf hS hk hg
  all_goals simp only [addRow, hread, Option.bind_eq_bind, Option.bind_some]
  · rw [Nat.zero_max] at hg
    exact .inl ⟨fun i => hfits i (Nat.zero_le i), g, hrun, hg.mono fun i v hi hv => hv.1 hi⟩
  · exact .inr ⟨fun h => hfail fun i _ => h i, hrun⟩

/-! ## The rows -/

theorem entry_eq (hrow : grid[r]? = some row) (hv : row[i]? = some v) : entry grid r i = v := by
  simp [entry, hrow, hv]

/-- Nothing is there to be added to the first row. -/
theorem extends_first (hrow : grid[0]? = some row) :
    Extends (List.replicate n 0) row n (Sums (entry grid) n inf 0) := by
  intro i hi c t hc ht
  have hnone : (if t = inf then 0 else t) = 0 := by
    obtain rfl | ⟨j, hj, -, hzero⟩ := ht.1
    · exact if_pos rfl
    · rw [List.getElem?_replicate_of_lt hj] at hzero
      rw [← Option.some.inj hzero]
      exact ite_self 0
  rw [hnone, Int.add_zero, sums_zero hi, entry_eq hrow hc]
  exact isLeast_singleton

theorem extends_next (hrow : grid[r + 1]? = some row)
    (hf : Each f n fun i v => IsLeast (Sums (entry grid) n inf r i) v) :
    Extends f row n (Sums (entry grid) n inf (r + 1)) := by
  intro i hi c t hc ht
  have hread : ∀ j < n, f[j]? = some (f.getD j 0) ∧
      IsLeast (Sums (entry grid) n inf r j) (f.getD j 0) := by
    intro j hj
    obtain ⟨v, hv, hleast⟩ := hf.read j hj
    have hsame : f.getD j 0 = v := by rw [List.getD_eq_getElem?_getD, hv, Option.getD_some]
    exact hsame ▸ ⟨hv, hleast⟩
  have hothers : Others f i n = {m | ∃ j < n, j ≠ i ∧ f.getD j 0 = m} := by
    ext m
    constructor
    · rintro ⟨j, hj, hji, hm⟩
      exact ⟨j, hj, hji, Option.some.inj ((hread j hj).1.symm.trans hm)⟩
    · rintro ⟨j, hj, hji, rfl⟩
      exact ⟨j, hj, hji, (hread j hj).1⟩
  rw [hothers] at ht
  rw [← entry_eq hrow hc]
  exact isLeast_sums_succ (by decide) hi (fun j hj => (hread j hj).2) ht

/-- After some rows. -/
def Done (grid : List (List Int)) (n : Nat) : Nat → List Int → Prop
  | 0, f => f = List.replicate n 0
  | r + 1, f => Each f n fun i v => IsLeast (Sums (entry grid) n inf r i) v

theorem row_spec (hr : r < grid.length) (hsquare : ∀ row ∈ grid, row.length = n)
    (hf : Done grid n r f) :
    ((∀ i < n, Fits (Sums (entry grid) n inf r i)) ∧
        ∃ g, addRow grid n r f = some g ∧ Done grid n (r + 1) g) ∨
      (¬(∀ i < n, Fits (Sums (entry grid) n inf r i)) ∧ addRow grid n r f = none) := by
  have hread : grid[r]? = some grid[r] := List.getElem?_eq_getElem hr
  have hlength : grid[r].length = n := hsquare _ (List.getElem_mem hr)
  cases r with
  | zero =>
      obtain rfl : f = List.replicate n 0 := hf
      exact addRow_spec List.length_replicate hread hlength (extends_first hread)
  | succ r => exact addRow_spec hf.length hread hlength (extends_next hread hf)

theorem min_spec {S : Nat → Set Int} (hn : 0 < n) (hS : ∀ i, ∀ s ∈ S i, i < n)
    (hf : Each f n fun i v => IsLeast (S i) v) :
    ∃ m, f.min? = some m ∧ IsLeast {s | ∃ i, s ∈ S i} m := by
  have hne : f ≠ [] := List.ne_nil_of_length_pos (hf.length ▸ hn)
  obtain ⟨m, hm⟩ := Option.isSome_iff_exists.mp (List.isSome_min?_of_ne_nil hne)
  obtain ⟨hmem, hle⟩ := List.min?_eq_some_iff.mp hm
  obtain ⟨i, hread⟩ := List.mem_iff_getElem?.mp hmem
  obtain ⟨hi, -⟩ := List.getElem?_eq_some_iff.mp hread
  obtain ⟨v, hv, hleast⟩ := hf.read i (hf.length ▸ hi)
  obtain rfl : v = m := Option.some.inj (hv.symm.trans hread)
  refine ⟨v, hm, ⟨i, hleast.1⟩, ?_⟩
  rintro s ⟨j, hs⟩
  obtain ⟨w, hw, hleast'⟩ := hf.read j (hS j s hs)
  exact (hle w (List.mem_of_getElem? hw)).trans (hleast'.2 hs)

/-- The least of the last row, if nothing overflows. -/
theorem minFallingPathSum_spec (hn : 0 < grid.length)
    (hsquare : ∀ row ∈ grid, row.length = grid.length) :
    ((∀ r < grid.length, ∀ i < grid.length, Fits (Sums (entry grid) grid.length inf r i)) ∧
        ∃ m, minFallingPathSum grid = some m ∧
          IsLeast {s | ∃ i, s ∈ Sums (entry grid) grid.length inf (grid.length - 1) i} m) ∨
      (¬(∀ r < grid.length, ∀ i < grid.length,
          Fits (Sums (entry grid) grid.length inf r i)) ∧ minFallingPathSum grid = none) := by
  have hstart : Done grid grid.length 0 (List.replicate grid.length 0) := rfl
  obtain ⟨hfits, f, hrun, hf⟩ | ⟨hfail, hrun⟩ := forRange_checked (Done grid grid.length)
    (fun r => ∀ i < grid.length, Fits (Sums (entry grid) grid.length inf r i)) hstart
    fun r f _ (hr : r < grid.length) hf => row_spec hr hsquare hf
  · have hlast : max 0 grid.length = grid.length - 1 + 1 := by omega
    rw [hlast] at hf
    refine .inl ⟨fun r => hfits r (Nat.zero_le r), ?_⟩
    have hcolumn : ∀ i, ∀ s ∈ Sums (entry grid) grid.length inf (grid.length - 1) i,
        i < grid.length := by
      rintro i s ⟨q, k, -, hpath⟩
      exact hpath.lt
    obtain ⟨m, hm, hleast⟩ := min_spec hn hcolumn hf
    exact ⟨m, by simp only [minFallingPathSum, hrun]; exact hm, hleast⟩
  · exact .inr ⟨fun h => hfail fun r _ => h r, by simp only [minFallingPathSum, hrun]; rfl⟩

/-- The least sum of a path is computed if and only if every cell fits an `int` and no path
that the sentinel `2 ^ 30` begins in a later row comes to less than all of those from the
first. -/
theorem minFallingPathSum_iff (grid : List (List Int)) (hn : 0 < grid.length)
    (hsquare : ∀ row ∈ grid, row.length = grid.length) :
    (∃ m, minFallingPathSum grid = some m ∧
        IsLeast {s | ∃ k i, Descent (entry grid) grid.length 0 k (grid.length - 1) i s} m) ↔
      (∀ r < grid.length, ∀ i < grid.length, Fits (Sums (entry grid) grid.length inf r i)) ∧
        ∀ q k i s, Fresh (entry grid) grid.length inf q k →
          Descent (entry grid) grid.length q k (grid.length - 1) i s →
          ∃ k' i' s', Descent (entry grid) grid.length 0 k' (grid.length - 1) i' s' ∧ s' ≤ s := by
  obtain ⟨hfits, m, hm, hleast⟩ | ⟨hfail, hnone⟩ := minFallingPathSum_spec hn hsquare
  · rw [and_iff_right hfits, ← isLeast_first_row_iff hleast, hm]
    constructor
    · rintro ⟨m', hm', hleast'⟩
      exact Option.some.inj hm' ▸ hleast'
    · exact fun hleast' => ⟨m, rfl, hleast'⟩
  · constructor
    · rintro ⟨m, hm, -⟩
      cases hnone.symm.trans hm
    · exact fun h => absurd h.1 hfail

theorem minFallingPathSum_iff_two :
    (∃ m, minFallingPathSum [[1, 5], [2, 3]] = some m ∧
        IsLeast {s | ∃ k i, Descent (entry [[1, 5], [2, 3]]) 2 0 k 1 i s} m) ↔
      (∀ r < 2, ∀ i < 2, Fits (Sums (entry [[1, 5], [2, 3]]) 2 inf r i)) ∧
        ∀ q k i s, Fresh (entry [[1, 5], [2, 3]]) 2 inf q k →
          Descent (entry [[1, 5], [2, 3]]) 2 q k 1 i s →
          ∃ k' i' s', Descent (entry [[1, 5], [2, 3]]) 2 0 k' 1 i' s' ∧ s' ≤ s :=
  minFallingPathSum_iff [[1, 5], [2, 3]] (by decide) (by decide)

/-- Both paths cost `2 ^ 30`. -/
theorem minFallingPathSum_large :
    minFallingPathSum [[2 ^ 30, 2 ^ 30], [0, 0]] = some 0 ∧
      IsLeast {s | ∃ k i, Descent (entry [[2 ^ 30, 2 ^ 30], [0, 0]]) 2 0 k 1 i s} (2 ^ 30) := by
  have hsums : ∀ k < 2, ∀ i < 2, k ≠ i → 2 ^ 30 ≤ entry [[2 ^ 30, 2 ^ 30], [0, 0]] 0 k +
      entry [[2 ^ 30, 2 ^ 30], [0, 0]] 1 i := by decide
  refine ⟨by decide, ⟨0, 1, (Descent.single (by decide)).down (by decide) (by decide)⟩, ?_⟩
  rintro s ⟨k, i, hpath⟩
  cases hpath with
  | down h hi hji =>
      cases h with
      | single hk => exact hsums k hk i hi hji

end MinFallingPath

end MoreCpp
