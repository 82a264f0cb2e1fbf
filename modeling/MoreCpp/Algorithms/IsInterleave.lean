import MoreCpp.Library.Subsequences
import MoreCpp.Library.Cells

/-!
`is_interleave` of `algorithms/strings/strings.cpp`. An index out of range gives `none`.
-/

namespace MoreCpp

open Library

namespace IsInterleave

variable {α : Type} [DecidableEq α]

/-- `(s2[j-1] == s3[j-1]) && dp[0][j-1]`. -/
def topCell (s2 s3 : List α) (dp : List (List Bool)) (j : Nat) : Option Bool := do
  let b ← s2[j - 1]?
  let c ← s3[j - 1]?
  let before ← readCell dp 0 (j - 1)
  return b = c && before

/-- `(s1[i-1] == s3[i-1]) && dp[i-1][0]`. -/
def leftCell (s1 s3 : List α) (dp : List (List Bool)) (i : Nat) : Option Bool := do
  let a ← s1[i - 1]?
  let c ← s3[i - 1]?
  let above ← readCell dp (i - 1) 0
  return a = c && above

def cell (s1 s2 s3 : List α) (dp : List (List Bool)) (i j : Nat) : Option Bool := do
  let k := i + j - 1
  let a ← s1[i - 1]?
  let b ← s2[j - 1]?
  let c ← s3[k]?
  let above ← readCell dp (i - 1) j
  let before ← readCell dp i (j - 1)
  return a = c && above || b = c && before

def isInterleave (s1 s2 s3 : List α) : Option Bool :=
  let m := s1.length
  let n := s2.length
  if m + n ≠ s3.length then some false
  else do
    let dp := List.replicate (m + 1) (List.replicate (n + 1) false)
    let dp ← writeCell dp 0 0 true
    let dp ← forRange 1 (n + 1) (fun j dp => do
      let a ← topCell s2 s3 dp j
      writeCell dp 0 j a) dp
    let dp ← forRange 1 (m + 1) (fun i dp => do
      let a ← leftCell s1 s3 dp i
      writeCell dp i 0 a) dp
    let dp ← fillCells m n (cell s1 s2 s3) dp
    readCell dp m n

section Table

variable {s1 s2 s3 : List α} {i j : Nat} {dp : List (List Bool)}

open scoped Classical in
/-- Whether the first characters of two strings interleave to those of the third. -/
noncomputable def value (s1 s2 s3 : List α) (i j : Nat) : Bool :=
  decide (Interleaves (s1.take i) (s2.take j) (s3.take (i + j)))

omit [DecidableEq α] in
theorem value_eq_true_iff : value s1 s2 s3 i j = true ↔
    Interleaves (s1.take i) (s2.take j) (s3.take (i + j)) := by
  simp [value]

omit [DecidableEq α] in
theorem exists_take_concat {s : List α} {a : α} {P : List α → Prop} (hi : i < s.length) :
    (∃ t, s.take (i + 1) = t ++ [a] ∧ P t) ↔ s[i] = a ∧ P (s.take i) := by
  rw [List.take_succ_eq_append_getElem hi]
  constructor
  · rintro ⟨t, heq, ht⟩
    obtain ⟨rfl, hlast⟩ := List.append_inj' heq rfl
    exact ⟨List.singleton_inj.mp hlast, ht⟩
  · rintro ⟨rfl, ht⟩
    exact ⟨s.take i, rfl, ht⟩

omit [DecidableEq α] in
theorem value_zero : value s1 s2 s3 0 0 = true := by
  simp [value_eq_true_iff]

theorem value_top (hj : j < s2.length) (hj' : j < s3.length) :
    value s1 s2 s3 0 (j + 1) = (s2[j] = s3[j] && value s1 s2 s3 0 j) := by
  rw [Bool.eq_iff_iff, Bool.and_eq_true, decide_eq_true_iff, value_eq_true_iff,
    value_eq_true_iff, Nat.zero_add, Nat.zero_add, List.take_succ_eq_append_getElem hj',
    interleaves_concat, exists_take_concat (P := fun t => Interleaves _ t _) hj]
  simp

theorem value_left (hi : i < s1.length) (hi' : i < s3.length) :
    value s1 s2 s3 (i + 1) 0 = (s1[i] = s3[i] && value s1 s2 s3 i 0) := by
  rw [Bool.eq_iff_iff, Bool.and_eq_true, decide_eq_true_iff, value_eq_true_iff,
    value_eq_true_iff, Nat.add_zero, Nat.add_zero, List.take_succ_eq_append_getElem hi',
    interleaves_concat, exists_take_concat (P := fun t => Interleaves t _ _) hi]
  simp

theorem value_inner (hi : i < s1.length) (hj : j < s2.length) (hk : i + j + 1 < s3.length) :
    value s1 s2 s3 (i + 1) (j + 1) =
      (s1[i] = s3[i + j + 1] && value s1 s2 s3 i (j + 1) ||
        s2[j] = s3[i + j + 1] && value s1 s2 s3 (i + 1) j) := by
  have hsum : i + 1 + (j + 1) = i + j + 1 + 1 := by omega
  have hbefore : i + 1 + j = i + j + 1 := by omega
  rw [Bool.eq_iff_iff, Bool.or_eq_true, Bool.and_eq_true, Bool.and_eq_true, decide_eq_true_iff,
    decide_eq_true_iff, value_eq_true_iff, value_eq_true_iff, value_eq_true_iff, hsum, hbefore,
    List.take_succ_eq_append_getElem hk, interleaves_concat,
    exists_take_concat (P := fun t => Interleaves t _ _) hi,
    exists_take_concat (P := fun t => Interleaves _ t _) hj]
  rfl

/-- The cells of the border that have been written: `rows` of the first column, and
`columns` of the first row. -/
def Bordered (s1 s2 s3 : List α) (dp : List (List Bool)) (rows columns : Nat) : Prop :=
  Cellwise dp (s1.length + 1) (s2.length + 1) fun i j b =>
    j = 0 ∧ i < rows ∨ i = 0 ∧ j < columns → b = value s1 s2 s3 i j

omit [DecidableEq α] in
theorem bordered_start (s1 s2 s3 : List α) :
    ∃ dp, writeCell (List.replicate (s1.length + 1) (List.replicate (s2.length + 1) false)) 0 0
      true = some dp ∧ Bordered s1 s2 s3 dp 1 1 := by
  have hempty : Cellwise (List.replicate (s1.length + 1) (List.replicate (s2.length + 1) false))
      (s1.length + 1) (s2.length + 1) fun _ _ _ => True :=
    Cellwise.replicate fun _ _ _ _ => trivial
  obtain ⟨dp, hwrite, hbordered, -⟩ := hempty.update
    (Q := fun i j b => j = 0 ∧ i < 1 ∨ i = 0 ∧ j < 1 → b = value s1 s2 s3 i j)
    (Nat.succ_pos _) (Nat.succ_pos _) (fun _ => value_zero.symm)
    fun k l b hother _ hdone => absurd (by omega) hother
  exact ⟨dp, hwrite, hbordered⟩

/-- A turn of the loop over the first row. -/
theorem Bordered.top (h : Bordered s1 s2 s3 dp 1 j) (hj : 1 ≤ j) (hj' : j < s2.length + 1)
    (hlength : s1.length + s2.length = s3.length) :
    ∃ dp', (do let a ← topCell s2 s3 dp j; writeCell dp 0 j a) = some dp' ∧
      Bordered s1 s2 s3 dp' 1 (j + 1) := by
  obtain ⟨j, rfl⟩ := Nat.exists_eq_add_of_le' hj
  have hj₂ : j < s2.length := Nat.lt_of_succ_lt_succ hj'
  have hj₃ : j < s3.length := by omega
  have hbefore : readCell dp 0 j = some (value s1 s2 s3 0 j) :=
    h.read (Nat.succ_pos _) (by omega) (by omega)
  have hcell : topCell s2 s3 dp (j + 1) = some (value s1 s2 s3 0 (j + 1)) := by
    simp [topCell, hj₂, hj₃, hbefore, value_top]
  obtain ⟨dp', hwrite, hbordered, -⟩ := h.update
    (Q := fun k l b => l = 0 ∧ k < 1 ∨ k = 0 ∧ l < j + 1 + 1 → b = value s1 s2 s3 k l)
    (Nat.succ_pos _) hj' (fun _ => rfl) fun k l b hother hold hdone => hold (by omega)
  exact ⟨dp', by rw [hcell]; exact hwrite, hbordered⟩

/-- A turn of the loop over the first column. -/
theorem Bordered.left (h : Bordered s1 s2 s3 dp i (s2.length + 1)) (hi : 1 ≤ i)
    (hi' : i < s1.length + 1) (hlength : s1.length + s2.length = s3.length) :
    ∃ dp', (do let a ← leftCell s1 s3 dp i; writeCell dp i 0 a) = some dp' ∧
      Bordered s1 s2 s3 dp' (i + 1) (s2.length + 1) := by
  obtain ⟨i, rfl⟩ := Nat.exists_eq_add_of_le' hi
  have hi₁ : i < s1.length := Nat.lt_of_succ_lt_succ hi'
  have hi₃ : i < s3.length := by omega
  have habove : readCell dp i 0 = some (value s1 s2 s3 i 0) :=
    h.read (by omega) (Nat.succ_pos _) (by omega)
  have hcell : leftCell s1 s3 dp (i + 1) = some (value s1 s2 s3 (i + 1) 0) := by
    simp [leftCell, hi₁, hi₃, habove, value_left]
  obtain ⟨dp', hwrite, hbordered, -⟩ := h.update
    (Q := fun k l b =>
      l = 0 ∧ k < i + 1 + 1 ∨ k = 0 ∧ l < s2.length + 1 → b = value s1 s2 s3 k l)
    hi' (Nat.succ_pos _) (fun _ => rfl) fun k l b hother hold hdone => hold (by omega)
  exact ⟨dp', by rw [hcell]; exact hwrite, hbordered⟩

theorem cell_spec (hlength : s1.length + s2.length = s3.length) (hi : i < s1.length)
    (hj : j < s2.length) (habove : readCell dp i (j + 1) = some (value s1 s2 s3 i (j + 1)))
    (hbefore : readCell dp (i + 1) j = some (value s1 s2 s3 (i + 1) j)) :
    cell s1 s2 s3 dp (i + 1) (j + 1) = some (value s1 s2 s3 (i + 1) (j + 1)) := by
  have hk : i + j + 1 < s3.length := by omega
  have hindex : i + 1 + (j + 1) - 1 = i + j + 1 := by omega
  simp [cell, hi, hj, hindex, hk, habove, hbefore, value_inner hi hj hk]

end Table

example : isInterleave [1, 1, 2] [1, 1, 3] [1, 1, 1, 1, 2, 3] = some true := by decide

end IsInterleave

end MoreCpp
