import MoreCpp.Library.Cells
import MoreCpp.Library.Knapsack
import MoreCpp.Library.Loop
import Mathlib.Data.List.Zip

/-!
`knapsack_2d` and `knapsack_opt` of `algorithms/dp/dp.cpp`, with integers of any size. An
index out of range gives `none`.
-/

namespace MoreCpp

open Library

namespace Knapsack

/-- `dp[i][j]` of `knapsack_2d`. -/
def cell2d (v : List Int) (wt : List Nat) (i j : Nat) (dp : List (List Int)) : Option Int :=
  if i = 0 ∨ j = 0 then some 0
  else do
    let w ← wt[i - 1]?
    let take ← (if w ≤ j then do
        let b ← readCell dp (i - 1) (j - w)
        let p ← v[i - 1]?
        return b + p
      else some 0)
    let pass ← readCell dp (i - 1) j
    return max take pass

def knapsack2d (W : Nat) (v : List Int) (wt : List Nat) : Option Int := do
  let n := wt.length
  let dp ← forRange 0 (n + 1) (fun i => forRange 0 (W + 1) fun j dp => do
    let a ← cell2d v wt i j dp
    writeCell dp i j a) (List.replicate (n + 1) (List.replicate (W + 1) 0))
  readCell dp n W

/-- A turn of the inner loop of `knapsack_opt`. -/
def optCell (v : List Int) (wt : List Nat) (i j : Nat) (dp : List Int) : Option (List Int) := do
  let a ← dp[j]?
  let w ← wt[i - 1]?
  let b ← dp[j - w]?
  let p ← v[i - 1]?
  store dp j (max a (b + p))

def knapsackOpt (W : Nat) (v : List Int) (wt : List Nat) : Option Int := do
  let dp ← forRange 1 (wt.length + 1) (fun i dp => do
    let w ← wt[i - 1]?
    forDown w (W + 1) (optCell v wt i) dp) (List.replicate (W + 1) 0)
  dp[W]?

/-- An item has a weight and a value. -/
abbrev Item := Nat × Int

def items (v : List Int) (wt : List Nat) : List Item := wt.zip v

variable {v : List Int} {wt : List Nat} {W i j : Nat}

theorem take_items (hlength : v.length = wt.length) (hi : i < wt.length) :
    ∃ x : Item, wt[i]? = some x.1 ∧ v[i]? = some x.2 ∧
      (items v wt).take (i + 1) = (items v wt).take i ++ [x] := by
  have hiv : i < v.length := hlength ▸ hi
  refine ⟨(wt[i], v[i]), List.getElem?_eq_getElem hi, List.getElem?_eq_getElem hiv, ?_⟩
  have hin : i < (items v wt).length := by
    rw [items, List.length_zip]
    exact lt_min hi hiv
  rw [List.take_succ_eq_append_getElem hin]
  simp only [items, List.getElem_zip]

/-! ## One row -/

/-- The best of the first `i` items for the weight `j`. -/
def BestAt (v : List Int) (wt : List Nat) (i j : Nat) (a : Int) : Prop :=
  Best (Fits Prod.fst ((items v wt).take i) j) Prod.snd a

theorem bestAt_zero (j : Nat) : BestAt v wt 0 j 0 := .nil fun _ => fits_nil_iff

theorem BestAt.next {x : Item} {a b : Int} (hskip : BestAt v wt i j a)
    (htake : (items v wt).take (i + 1) = (items v wt).take i ++ [x])
    (hbest : x.1 ≤ j → BestAt v wt i (j - x.1) b) :
    BestAt v wt (i + 1) j (if x.1 ≤ j then max a (b + x.2) else a) := by
  rw [BestAt, htake, add_comm b]
  exact best_fits_concat hskip hbest

/-- The cells from `j` on are those of the next row. -/
def Row (v : List Int) (wt : List Nat) (W i j : Nat) (dp : List Int) : Prop :=
  Each dp (W + 1) fun k a => BestAt v wt (if j ≤ k then i + 1 else i) k a

theorem optCell_spec {x : Item} {dp : List Int} (hw : wt[i]? = some x.1) (hp : v[i]? = some x.2)
    (htake : (items v wt).take (i + 1) = (items v wt).take i ++ [x]) (hxj : x.1 ≤ j)
    (hj : j < W + 1) (h : Row v wt W i (j + 1) dp) :
    ∃ dp', optCell v wt (i + 1) j dp = some dp' ∧ Row v wt W i j dp' := by
  obtain ⟨a, ha, hskip⟩ := h.read j hj
  obtain ⟨b, hb, hbest⟩ := h.read (j - x.1) (by omega)
  rw [if_neg (by omega)] at hskip hbest
  have hnext := hskip.next htake fun _ => hbest
  rw [if_pos hxj] at hnext
  obtain ⟨dp', hstore, hrow⟩ := h.update (a := max a (b + x.2))
    (Q := fun k a => BestAt v wt (if j ≤ k then i + 1 else i) k a) hj
    (by rwa [if_pos (Nat.le_refl j)]) fun k c _ hne hc => by
      have hsame : j + 1 ≤ k ↔ j ≤ k := by omega
      simpa only [hsame] using hc
  refine ⟨dp', ?_, hrow⟩
  simp only [optCell, Nat.add_sub_cancel, ha, hw, hb, hp, Option.bind_eq_bind, Option.bind_some,
    hstore]

/-- From the heaviest limit down, each cell is read before it is written. -/
theorem optRow_spec (hlength : v.length = wt.length) (hi : i < wt.length) {dp : List Int}
    (h : Each dp (W + 1) fun k a => BestAt v wt i k a) :
    ∃ dp', (do
        let w ← wt[i]?
        forDown w (W + 1) (optCell v wt (i + 1)) dp) = some dp' ∧
      Each dp' (W + 1) fun k a => BestAt v wt (i + 1) k a := by
  obtain ⟨x, hw, hp, htake⟩ := take_items hlength hi
  have hstart : Row v wt W i (W + 1) dp := h.mono fun k a hk hold => by rwa [if_neg (by omega)]
  have hloop : ∃ dp', forDown x.1 (W + 1) (optCell v wt (i + 1)) dp = some dp' ∧
      Row v wt W i (min x.1 (W + 1)) dp' :=
    forDown_rule (Row v wt W i) hstart fun j dp hxj hj hrow =>
      optCell_spec hw hp htake hxj hj hrow
  obtain ⟨dp', hrun, hrow⟩ := hloop
  refine ⟨dp', by rw [hw]; exact hrun, hrow.mono fun k a hk hold => ?_⟩
  split at hold
  case isTrue => exact hold
  case isFalse hlow =>
    -- The item is too heavy for this cell.
    have hnext := BestAt.next (b := 0) hold htake fun hle => absurd hle (by omega)
    rwa [if_neg (by omega)] at hnext

/-- The one row has the best of all the items. -/
theorem knapsackOpt_spec (hlength : v.length = wt.length) :
    ∃ r, knapsackOpt W v wt = some r ∧ Best (Fits Prod.fst (items v wt) W) Prod.snd r := by
  have hloop : ∃ dp, forRange 1 (wt.length + 1) (fun i dp => do
      let w ← wt[i - 1]?
      forDown w (W + 1) (optCell v wt i) dp) (List.replicate (W + 1) 0) = some dp ∧
      Each dp (W + 1) fun k a => BestAt v wt (max 1 (wt.length + 1) - 1) k a := by
    apply forRange_rule fun i dp => Each dp (W + 1) fun k a => BestAt v wt (i - 1) k a
    · exact Each.replicate fun j _ => bestAt_zero j
    · intro i dp hi hi' h
      obtain ⟨i, rfl⟩ := Nat.exists_eq_add_of_le' hi
      rw [Nat.add_sub_cancel] at h ⊢
      exact optRow_spec hlength (by omega) h
  obtain ⟨dp, hrun, hrow⟩ := hloop
  obtain ⟨r, hr, hbest⟩ := hrow.read W (Nat.lt_succ_self W)
  have hall : (items v wt).take (max 1 (wt.length + 1) - 1) = items v wt := by
    apply List.take_of_length_le
    rw [items, List.length_zip]
    omega
  rw [BestAt, hall] at hbest
  exact ⟨r, by rw [knapsackOpt, hrun]; exact hr, hbest⟩

/-- The greatest total value, over the selections of items that weigh at most `W`. -/
theorem knapsackOpt_eq (W : Nat) (v : List Int) (wt : List Nat) (hlength : v.length = wt.length) :
    ∃ r, knapsackOpt W v wt = some r ∧
      IsGreatest {x | ∃ s : List Item, s.Sublist (items v wt) ∧ total Prod.fst s ≤ W ∧
        total Prod.snd s = x} r := by
  obtain ⟨r, hr, hbest⟩ := knapsackOpt_spec (W := W) hlength
  refine ⟨r, hr, ?_⟩
  simpa only [Best, Fits, and_assoc] using hbest

theorem knapsackOpt_eq_two : ∃ r, knapsackOpt 3 [5, -1] [0, 3] = some r ∧
    IsGreatest {x | ∃ s : List Item, s.Sublist (items [5, -1] [0, 3]) ∧ total Prod.fst s ≤ 3 ∧
      total Prod.snd s = x} r :=
  knapsackOpt_eq 3 [5, -1] [0, 3] rfl

/-! ## The whole table -/

/-- The best of the first `i` items for the weight `j`, if room is spared. -/
def SparedAt (v : List Int) (wt : List Nat) (i j : Nat) (a : Int) : Prop :=
  Best (fun s => Fits Prod.fst ((items v wt).take i) j s ∧ Spares Prod.fst j s) Prod.snd a

/-- The border has no items, or no room for any. -/
theorem sparedAt_border (h : i = 0 ∨ j = 0) : SparedAt v wt i j 0 := by
  apply Best.nil
  intro s
  obtain rfl | rfl := h
  · rw [List.take_zero, fits_nil_iff, and_iff_left_iff_imp]
    rintro rfl
    exact .nil
  · exact spares_zero_iff

/-- The cells before row `i` and column `j` have their values. -/
def Table (v : List Int) (wt : List Nat) (W i j : Nat) (dp : List (List Int)) : Prop :=
  Cellwise dp (wt.length + 1) (W + 1) fun k l a =>
    k < i ∨ k = i ∧ l < j → SparedAt v wt k l a

theorem cell2d_spec (hlength : v.length = wt.length) {dp : List (List Int)}
    (h : Table v wt W i j dp) (hi : i ≤ wt.length) (hj : j ≤ W) :
    ∃ a, cell2d v wt i j dp = some a ∧ SparedAt v wt i j a := by
  unfold cell2d
  split
  case isTrue hborder => exact ⟨0, rfl, sparedAt_border hborder⟩
  case isFalse hinner =>
    obtain ⟨i, rfl⟩ := Nat.exists_eq_add_of_le' (show 1 ≤ i by omega)
    rw [Nat.add_sub_cancel]
    obtain ⟨x, hw, hp, htake⟩ := take_items hlength hi
    obtain ⟨a, ha, hskip⟩ := h i (by omega) j (by omega)
    have hskip := hskip (.inl (Nat.lt_succ_self i))
    have hnonneg : 0 ≤ a := hskip.le ⟨⟨List.nil_sublist _, Nat.zero_le j⟩, .nil⟩
    rw [hw, Option.bind_eq_bind, Option.bind_some, ha]
    by_cases hxj : x.1 ≤ j
    · obtain ⟨b, hb, hbest⟩ := h i (by omega) (j - x.1) (by omega)
      have hnext := best_spares_concat (by omega : 0 < j) hskip
        fun _ => hbest (.inl (Nat.lt_succ_self i))
      rw [if_pos hxj, add_comm, max_comm, ← htake] at hnext
      refine ⟨max (b + x.2) a, ?_, hnext⟩
      simp only [if_pos hxj, hb, hp, Option.bind_eq_bind, Option.bind_some, Option.pure_def]
    · have hnext := best_spares_concat (b := 0) (by omega : 0 < j) hskip
        fun hle => absurd hle hxj
      rw [if_neg hxj, ← htake] at hnext
      refine ⟨max 0 a, ?_, by rwa [max_eq_right hnonneg]⟩
      simp only [if_neg hxj, Option.bind_eq_bind, Option.bind_some, Option.pure_def]

theorem Table.write (hlength : v.length = wt.length) {dp : List (List Int)}
    (h : Table v wt W i j dp) (hi : i < wt.length + 1) (hj : j < W + 1) :
    ∃ dp', (do
        let a ← cell2d v wt i j dp
        writeCell dp i j a) = some dp' ∧ Table v wt W i (j + 1) dp' := by
  obtain ⟨a, ha, hbest⟩ := cell2d_spec hlength h (by omega) (by omega)
  obtain ⟨dp', hwrite, htable, -⟩ := Cellwise.update (a := a)
    (Q := fun k l a => k < i ∨ k = i ∧ l < j + 1 → SparedAt v wt k l a) h hi hj (fun _ => hbest)
    fun k l b hother hold hdone => hold (by omega)
  exact ⟨dp', by rw [ha]; exact hwrite, htable⟩

theorem knapsack2d_spec (hlength : v.length = wt.length) :
    ∃ r, knapsack2d W v wt = some r ∧
      Best (fun s => Fits Prod.fst (items v wt) W s ∧ Spares Prod.fst W s) Prod.snd r := by
  have hstart : Table v wt W 0 0 (List.replicate (wt.length + 1) (List.replicate (W + 1) 0)) :=
    Cellwise.replicate fun i _ j _ hdone => absurd hdone (by omega)
  have hrow : ∀ i dp, i < wt.length + 1 → Table v wt W i 0 dp →
      ∃ dp', forRange 0 (W + 1) (fun j dp => do
        let a ← cell2d v wt i j dp
        writeCell dp i j a) dp = some dp' ∧ Table v wt W (i + 1) 0 dp' := by
    intro i dp hi h
    obtain ⟨dp', hrun, htable⟩ := forRange_rule (Table v wt W i) h fun j dp _ hj h =>
      h.write hlength hi hj
    exact ⟨dp', hrun, htable.mono fun k l a _ _ hold hdone => hold (by omega)⟩
  obtain ⟨dp, hrun, htable⟩ := forRange_rule (fun i dp => Table v wt W i 0 dp) hstart
    fun i dp _ hi h => hrow i dp hi h
  obtain ⟨r, hr, hbest⟩ := htable wt.length (by omega) W (by omega)
  have hbest := hbest (.inl (by omega))
  have hall : (items v wt).take wt.length = items v wt := by
    apply List.take_of_length_le
    rw [items, List.length_zip]
    omega
  rw [SparedAt, hall] at hbest
  exact ⟨r, by rw [knapsack2d, hrun]; exact hr, hbest⟩

/-- The two agree where some best selection leaves room at each item without weight for
those before it. -/
theorem knapsack2d_eq_iff (W : Nat) (v : List Int) (wt : List Nat)
    (hlength : v.length = wt.length) :
    (∃ r, knapsack2d W v wt = some r ∧ knapsackOpt W v wt = some r) ↔
      ∃ s : List Item, (Fits Prod.fst (items v wt) W s ∧ Spares Prod.fst W s) ∧
        ∀ s', Fits Prod.fst (items v wt) W s' → total Prod.snd s' ≤ total Prod.snd s := by
  obtain ⟨r, hr, hbest⟩ := knapsackOpt_spec (W := W) hlength
  obtain ⟨r', hr', hspared⟩ := knapsack2d_spec (W := W) hlength
  rw [← hbest.eq_iff hspared fun _ => And.left, hr, hr']
  simp only [Option.some_inj, exists_eq_left', eq_comm]

theorem knapsack2d_eq_iff_one :
    (∃ r, knapsack2d 2 [5] [0] = some r ∧ knapsackOpt 2 [5] [0] = some r) ↔
      ∃ s : List Item, (Fits Prod.fst (items [5] [0]) 2 s ∧ Spares Prod.fst 2 s) ∧
        ∀ s', Fits Prod.fst (items [5] [0]) 2 s' → total Prod.snd s' ≤ total Prod.snd s :=
  knapsack2d_eq_iff 2 [5] [0] rfl

theorem knapsack2d_noRoom : knapsack2d 0 [5] [0] = some 0 ∧ knapsackOpt 0 [5] [0] = some 5 := by
  decide

end Knapsack

end MoreCpp
