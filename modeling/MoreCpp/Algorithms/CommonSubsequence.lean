import MoreCpp.Library.Subsequences
import MoreCpp.Library.Cells

/-!
`shortest_common_subseq` of `algorithms/strings/strings.cpp` and `min_operations_strings`
of `algorithms/dp/dp.cpp`. An index out of range gives `none`.
-/

namespace MoreCpp

open Library

namespace CommonSubsequence

variable {α : Type} [DecidableEq α]

/-- The cell of `shortest_common_subseq`. -/
def scsCell (s t : List α) (dp : List (List Nat)) (i j : Nat) : Option Nat := do
  let a ← s[i - 1]?
  let b ← t[j - 1]?
  if a = b then
    let diagonal ← readCell dp (i - 1) (j - 1)
    return 1 + diagonal
  else
    let above ← readCell dp (i - 1) j
    let before ← readCell dp i (j - 1)
    return 1 + min above before

def shortestCommonSubseq (s t : List α) : Option Nat := do
  let m := s.length
  let n := t.length
  let dp := List.replicate (m + 1) (List.replicate (n + 1) 0)
  let dp ← forRange 0 (m + 1) (fun i dp => writeCell dp i 0 i) dp
  let dp ← forRange 0 (n + 1) (fun j dp => writeCell dp 0 j j) dp
  let dp ← fillCells m n (scsCell s t) dp
  readCell dp m n

/-- The cell of `lcs`. -/
def lcsCell (s t : List α) (dp : List (List Nat)) (i j : Nat) : Option Nat := do
  let a ← s[i - 1]?
  let b ← t[j - 1]?
  if a = b then
    let diagonal ← readCell dp (i - 1) (j - 1)
    return 1 + diagonal
  else
    let above ← readCell dp (i - 1) j
    let before ← readCell dp i (j - 1)
    return max above before

def lcs (s t : List α) : Option Nat := do
  let m := s.length
  let n := t.length
  let dp := List.replicate (m + 1) (List.replicate (n + 1) 0)
  let dp ← fillCells m n (lcsCell s t) dp
  readCell dp m n

def minOperationsStrings (s t : List α) : Option Int := do
  let len ← lcs s t
  let del : Int := s.length - len
  let ins : Int := t.length - len
  return del + ins

variable {s t : List α} {dp : List (List Nat)} {i j : Nat}

omit [DecidableEq α] in
/-- The characters from the last to the first. -/
theorem reverse_take_succ (hi : i < s.length) :
    (s.take (i + 1)).reverse = s[i] :: (s.take i).reverse := by
  rw [List.take_succ_eq_append_getElem hi, List.reverse_append]
  rfl

/-- What `shortest_common_subseq` keeps for `i` and `j` first characters. -/
def scsValue (s t : List α) (i j : Nat) : Nat :=
  scsLength (s.take i).reverse (t.take j).reverse

/-- What `lcs` keeps for `i` and `j` first characters. -/
def lcsValue (s t : List α) (i j : Nat) : Nat :=
  lcsLength (s.take i).reverse (t.take j).reverse

theorem scsCell_spec (hi : i < s.length) (hj : j < t.length)
    (hdiagonal : readCell dp i j = some (scsValue s t i j))
    (habove : readCell dp i (j + 1) = some (scsValue s t i (j + 1)))
    (hbefore : readCell dp (i + 1) j = some (scsValue s t (i + 1) j)) :
    scsCell s t dp (i + 1) (j + 1) = some (scsValue s t (i + 1) (j + 1)) := by
  have hvalue : scsValue s t (i + 1) (j + 1) = if s[i] = t[j] then 1 + scsValue s t i j
      else 1 + min (scsValue s t i (j + 1)) (scsValue s t (i + 1) j) := by
    simp only [scsValue, reverse_take_succ hi, reverse_take_succ hj, scsLength_cons]
  rw [hvalue]
  simp only [scsCell, Nat.add_sub_cancel, List.getElem?_eq_getElem hi,
    List.getElem?_eq_getElem hj, hdiagonal, habove, hbefore, Option.bind_eq_bind, Option.bind_some]
  split <;> rfl

theorem lcsCell_spec (hi : i < s.length) (hj : j < t.length)
    (hdiagonal : readCell dp i j = some (lcsValue s t i j))
    (habove : readCell dp i (j + 1) = some (lcsValue s t i (j + 1)))
    (hbefore : readCell dp (i + 1) j = some (lcsValue s t (i + 1) j)) :
    lcsCell s t dp (i + 1) (j + 1) = some (lcsValue s t (i + 1) (j + 1)) := by
  have hvalue : lcsValue s t (i + 1) (j + 1) = if s[i] = t[j] then 1 + lcsValue s t i j
      else max (lcsValue s t i (j + 1)) (lcsValue s t (i + 1) j) := by
    simp only [lcsValue, reverse_take_succ hi, reverse_take_succ hj, lcsLength_cons]
  rw [hvalue]
  simp only [lcsCell, Nat.add_sub_cancel, List.getElem?_eq_getElem hi,
    List.getElem?_eq_getElem hj, hdiagonal, habove, hbefore, Option.bind_eq_bind, Option.bind_some]
  split <;> rfl

/-- The loop that writes the first column. -/
theorem scs_left (s t : List α) : ∃ dp,
    forRange 0 (s.length + 1) (fun i dp => writeCell dp i 0 i)
      (List.replicate (s.length + 1) (List.replicate (t.length + 1) 0)) = some dp ∧
    Cellwise dp (s.length + 1) (t.length + 1) fun i j a => j = 0 → a = scsValue s t i j := by
  have hcolumn : ∀ i ≤ s.length, i = scsValue s t i 0 := by
    intro i hi
    simp [scsValue, hi]
  obtain ⟨dp, hrun, hdp⟩ := forRange_rule
    (fun rows dp => Cellwise dp (s.length + 1) (t.length + 1) fun i j a =>
      j = 0 ∧ i < rows → a = scsValue s t i j)
    (Cellwise.replicate fun _ _ _ _ hdone => absurd hdone.2 (Nat.not_lt_zero _))
    fun i dp _ hi hdp => by
      obtain ⟨dp', hwrite, hdp', -⟩ := hdp.update
        (Q := fun k l a => l = 0 ∧ k < i + 1 → a = scsValue s t k l) (a := i) hi
        (Nat.succ_pos _) (fun _ => hcolumn i (Nat.le_of_lt_succ hi))
        fun k l b hother hold hdone => hold (by omega)
      exact ⟨dp', hwrite, hdp'⟩
  exact ⟨dp, hrun, hdp.mono fun i j a hi _ hold hzero => hold ⟨hzero, by omega⟩⟩

/-- The loop that writes the first row. -/
theorem scs_top (hleft : Cellwise dp (s.length + 1) (t.length + 1) fun i j a =>
      j = 0 → a = scsValue s t i j) : ∃ dp',
    forRange 0 (t.length + 1) (fun j dp => writeCell dp 0 j j) dp = some dp' ∧
    Cellwise dp' (s.length + 1) (t.length + 1) fun i j a =>
      i = 0 ∨ j = 0 → a = scsValue s t i j := by
  have hrow : ∀ j ≤ t.length, j = scsValue s t 0 j := by
    intro j hj
    simp [scsValue, hj]
  have hstart : Cellwise dp (s.length + 1) (t.length + 1) fun i j a =>
      j = 0 ∨ i = 0 ∧ j < 0 → a = scsValue s t i j :=
    hleft.mono fun i j a _ _ hold hdone => hold (by omega)
  obtain ⟨dp', hrun, hdp⟩ := forRange_rule
    (fun columns dp => Cellwise dp (s.length + 1) (t.length + 1) fun i j a =>
      j = 0 ∨ i = 0 ∧ j < columns → a = scsValue s t i j)
    hstart
    fun j dp _ hj hdp => by
      obtain ⟨dp', hwrite, hdp', -⟩ := hdp.update
        (Q := fun k l a => l = 0 ∨ k = 0 ∧ l < j + 1 → a = scsValue s t k l) (a := j)
        (Nat.succ_pos _) hj (fun _ => hrow j (Nat.le_of_lt_succ hj))
        fun k l b hother hold hdone => hold (by omega)
      exact ⟨dp', hwrite, hdp'⟩
  exact ⟨dp', hrun, hdp.mono fun i j a _ hj hold hdone => hold (by omega)⟩

theorem shortestCommonSubseq_eq (s t : List α) :
    shortestCommonSubseq s t = some (scsLength s t) := by
  obtain ⟨dp₁, hleft, hcolumn⟩ := scs_left s t
  obtain ⟨dp₂, htop, hborder⟩ := scs_top hcolumn
  obtain ⟨dp₃, hfill, hfilled⟩ := fillCells_spec hborder fun dp i j => scsCell_spec
  obtain ⟨a, hread, rfl⟩ := hfilled s.length (Nat.lt_succ_self _) t.length (Nat.lt_succ_self _)
  simp only [shortestCommonSubseq, hleft, htop, hfill, hread, Option.bind_eq_bind,
    Option.bind_some, scsValue, List.take_length, scsLength_reverse]

theorem lcs_eq (s t : List α) : lcs s t = some (lcsLength s t) := by
  have hborder : Cellwise (List.replicate (s.length + 1) (List.replicate (t.length + 1) 0))
      (s.length + 1) (t.length + 1) fun i j a => i = 0 ∨ j = 0 → a = lcsValue s t i j := by
    apply Cellwise.replicate
    rintro i - j - (rfl | rfl) <;> simp [lcsValue]
  obtain ⟨dp, hfill, hfilled⟩ := fillCells_spec hborder fun dp i j => lcsCell_spec
  obtain ⟨a, hread, rfl⟩ := hfilled s.length (Nat.lt_succ_self _) t.length (Nat.lt_succ_self _)
  simp only [lcs, hfill, hread, Option.bind_eq_bind, Option.bind_some, lcsValue,
    List.take_length, lcsLength_reverse]

end CommonSubsequence

end MoreCpp
