import MoreCpp.Library.Matrices
import MoreCpp.Tensor.Matrix
import Mathlib.Algebra.Order.Ring.Rat

/-!
`elim_with_partial_pivot` and `back_substituition` of `tensor/matrix.hpp`, with rational
numbers for `double`. The rows and slices that the source uses without a definition are
parameters.
-/

namespace MoreCpp

open Finset Library

namespace MatrixImpl

/-- `A.swap_rows(j, k)`, `A[i](slice(j))`, `A[i](slice(j)) = row`, `x(slice(j))` and
`scale_and_add(x, c, y)`. -/
structure RowOps where
  swapRows : Matrix ℚ → Nat → Nat → Matrix ℚ
  rowFrom : Matrix ℚ → Nat → Nat → List ℚ
  setRowFrom : Matrix ℚ → Nat → Nat → List ℚ → Matrix ℚ
  entriesFrom : Matrix ℚ → Nat → List ℚ
  scaleAndAdd : List ℚ → ℚ → List ℚ → List ℚ

structure RowOps.Lawful (ops : RowOps) : Prop where
  swapRows : ∀ {A : Matrix ℚ} {n m j k : Nat}, A.desc.extents = [n, m] → j < n → k < n →
    (ops.swapRows A j k).desc.extents = [n, m] ∧ ∀ r < n, ∀ c < m,
      (ops.swapRows A j k).read [r, c] = A.read [Equiv.swap j k r, c]
  rowFrom : ∀ {A : Matrix ℚ} {n m i j : Nat}, A.desc.extents = [n, m] → i < n → j ≤ m →
    ops.rowFrom A i j = (List.range (m - j)).map fun c => A.entry [i, j + c]
  setRowFrom : ∀ {A : Matrix ℚ} {n m i j : Nat} {row : List ℚ}, A.desc.extents = [n, m] →
    i < n → j ≤ m → row.length = m - j →
    (ops.setRowFrom A i j row).desc.extents = [n, m] ∧ ∀ r < n, ∀ c < m,
      (ops.setRowFrom A i j row).read [r, c] =
        if r = i ∧ j ≤ c then row[c - j]? else A.read [r, c]
  entriesFrom : ∀ {x : Matrix ℚ} {n j : Nat}, x.desc.extents = [n] → j ≤ n →
    ops.entriesFrom x j = (List.range (n - j)).map fun c => x.entry [j + c]
  scaleAndAdd : ∀ {x y : List ℚ} {c : ℚ}, x.length = y.length →
    ops.scaleAndAdd x c y = List.zipWith (fun a b => c * a + b) x y

theorem swap_lt {n j k r : Nat} (hj : j < n) (hk : k < n) (hr : r < n) :
    Equiv.swap j k r < n := by
  rw [Equiv.swap_apply_def]
  split_ifs <;> assumption

theorem lt_swap {c j k r : Nat} (hj : c < j) (hk : c < k) (hr : c < r) :
    c < Equiv.swap j k r := by
  rw [Equiv.swap_apply_def]
  split_ifs <;> assumption

/-- Operations as they are expected. -/
def rowOps : RowOps where
  swapRows A j k := Matrix.tabulate A.desc fun
    | [r, c] => A.entry [Equiv.swap j k r, c]
    | _ => 0
  rowFrom A i j := (List.range ((A.extent 1).getD 0 - j)).map fun c => A.entry [i, j + c]
  setRowFrom A i j row := Matrix.tabulate A.desc fun
    | [r, c] => if r = i ∧ j ≤ c then row.getD (c - j) 0 else A.entry [r, c]
    | _ => 0
  entriesFrom x j := (List.range ((x.extent 0).getD 0 - j)).map fun c => x.entry [j + c]
  scaleAndAdd x c y := List.zipWith (fun a b => c * a + b) x y

theorem rowOps_lawful : rowOps.Lawful where
  swapRows {A n m j k} hA hj hk := by
    refine ⟨hA, fun r hr c hc => ?_⟩
    have hin := (inBounds_two hA).mpr ⟨hr, hc⟩
    have hswap := (inBounds_two hA).mpr ⟨swap_lt hj hk hr, hc⟩
    exact (Matrix.read_tabulate hin).trans (Matrix.read_eq hswap).symm
  rowFrom {A n m i j} hA _ _ := by
    simp only [rowOps, Matrix.extent, hA, List.getElem?_cons_succ, List.getElem?_cons_zero,
      Option.getD_some]
  setRowFrom {A n m i j row} hA _ _ hrow := by
    refine ⟨hA, fun r hr c hc => ?_⟩
    have hin := (inBounds_two hA).mpr ⟨hr, hc⟩
    refine (Matrix.read_tabulate hin).trans ?_
    dsimp only
    split
    case isTrue hrc =>
      have hlt : c - j < row.length := by omega
      rw [List.getD_eq_getElem?_getD, List.getElem?_eq_getElem hlt, Option.getD_some]
    case isFalse => exact (Matrix.read_eq hin).symm
  entriesFrom {x n j} hx _ := by
    simp only [rowOps, Matrix.extent, hx, List.getElem?_cons_zero, Option.getD_some]
  scaleAndAdd _ := rfl

/-! ## The elimination -/

section Code

variable (ops : RowOps)

/-- A turn of the loop that looks for a pivot. -/
def comparePivot (A : Matrix ℚ) (j k pivotRow : Nat) : Option Nat := do
  let x ← A.read [k, j]
  let y ← A.read [pivotRow, j]
  if |x| > |y| then return k else return pivotRow

/-- `std::swap(b(j), b(k))`. -/
def swapEntries (b : Matrix ℚ) (j k : Nat) : Option (Matrix ℚ) := do
  let x ← b.read [j]
  let y ← b.read [k]
  let b ← b.write [j] y
  b.write [k] x

def swapPivot (j pivotRow : Nat) (A b : Matrix ℚ) : Option (Matrix ℚ × Matrix ℚ) :=
  if pivotRow ≠ j then do
    let b ← swapEntries b j pivotRow
    return (ops.swapRows A j pivotRow, b)
  else return (A, b)

/-- A turn of the loop that eliminates, with `none` for `error("can't solve: pivot==0")`. -/
def eliminateRow (j i : Nat) : Matrix ℚ × Matrix ℚ → Option (Matrix ℚ × Matrix ℚ)
  | (A, b) => do
    let pivot ← A.read [i, j]
    if pivot = 0 then none
    else do
      let x ← A.read [i, j]
      let mult := x / pivot
      let row := ops.scaleAndAdd (ops.rowFrom A j j) (-mult) (ops.rowFrom A i j)
      let A := ops.setRowFrom A i j row
      let y ← b.read [i]
      let z ← b.read [j]
      let b ← b.write [i] (y - mult * z)
      return (A, b)

def eliminateColumn (n j : Nat) : Matrix ℚ × Matrix ℚ → Option (Matrix ℚ × Matrix ℚ)
  | (A, b) => do
    let pivotRow ← forRange (j + 1) n (comparePivot A j) j
    let (A, b) ← swapPivot ops j pivotRow A b
    forRange (j + 1) n (eliminateRow ops j) (A, b)

def elimWithPartialPivot (A b : Matrix ℚ) : Option (Matrix ℚ × Matrix ℚ) := do
  let n ← A.extent 0
  forRange 0 n (eliminateColumn ops n) (A, b)

end Code

/-- The two hold these coefficients and right sides. -/
structure Represents (n : Nat) (s : Matrix ℚ × Matrix ℚ) (M : Nat → Nat → ℚ) (v : Nat → ℚ) :
    Prop where
  extents : s.1.desc.extents = [n, n] ∧ s.2.desc.extents = [n]
  coefficient : ∀ r < n, ∀ c < n, s.1.read [r, c] = some (M r c)
  right : ∀ r < n, s.2.read [r] = some (v r)

variable {ops : RowOps} {n i j p : Nat} {A b : Matrix ℚ} {s : Matrix ℚ × Matrix ℚ}
  {M M' : Nat → Nat → ℚ} {v v' : Nat → ℚ}

namespace Represents

theorem congr (h : Represents n s M v) (hM : ∀ r < n, ∀ c < n, M r c = M' r c)
    (hv : ∀ r < n, v r = v' r) : Represents n s M' v' where
  extents := h.extents
  coefficient r hr c hc := by rw [h.coefficient r hr c hc, hM r hr c hc]
  right r hr := by rw [h.right r hr, hv r hr]

theorem entry (h : Represents n (A, b) M v) {r c : Nat} (hr : r < n) (hc : c < n) :
    A.entry [r, c] = M r c := by rw [Matrix.entry, h.coefficient r hr c hc, Option.getD_some]

/-- Another row is taken only for an entry that is larger than that on the diagonal. -/
theorem comparePivot_spec (h : Represents n (A, b) M v) (hj : j < n) :
    ∃ p, forRange (j + 1) n (comparePivot A j) j = some p ∧
      j ≤ p ∧ p < n ∧ (p ≠ j → |M j j| < |M p j|) := by
  have hrun := @forRange_rule _ (comparePivot A j)
    (fun _ p => j ≤ p ∧ p < n ∧ (p ≠ j → |M j j| < |M p j|)) (j + 1) n j
    ⟨le_rfl, hj, fun hne => absurd rfl hne⟩ ?_
  · exact hrun
  · rintro k p hlo hk ⟨hle, hp, hlarge⟩
    rw [comparePivot, h.coefficient k hk j hj, h.coefficient p hp j hj]
    simp only [Option.bind_eq_bind, Option.bind_some]
    split
    case isTrue hgt =>
      refine ⟨k, rfl, by omega, hk, fun _ => ?_⟩
      by_cases hpj : p = j
      · rwa [hpj] at hgt
      · exact (hlarge hpj).trans hgt
    case isFalse => exact ⟨p, rfl, hle, hp, hlarge⟩

theorem swapPivot_spec (hops : ops.Lawful) (h : Represents n (A, b) M v) (hj : j < n)
    (hp : p < n) : ∃ s, swapPivot ops j p A b = some s ∧
      Represents n s (fun r c => M (Equiv.swap j p r) c) fun r => v (Equiv.swap j p r) := by
  unfold swapPivot
  split
  case isTrue hne =>
    obtain ⟨hA, hb⟩ := h.extents
    obtain ⟨b', hwrite, hchanged⟩ := Matrix.write_spec ((inBounds_one hb).mpr hj) (v p)
    obtain ⟨b'', hwrite', hchanged'⟩ :=
      Matrix.write_spec ((inBounds_one (hchanged.extents hb)).mpr hp) (v j)
    obtain ⟨hextents, hrows⟩ := hops.swapRows hA hj hp
    refine ⟨(ops.swapRows A j p, b''), ?_, ⟨hextents, hchanged'.extents (hchanged.extents hb)⟩,
      ?_, ?_⟩
    · rw [swapEntries, h.right j hj, h.right p hp]
      simp only [Option.bind_eq_bind, Option.bind_some, hwrite, hwrite']
      rfl
    · intro r hr c hc
      rw [hrows r hr c hc]
      exact h.coefficient _ (swap_lt hj hp hr) c hc
    · intro r hr
      rw [Equiv.swap_apply_def]
      split_ifs with hrj hrp
      · rw [hrj, hchanged'.rest [j] (by simpa using hne.symm), hchanged.read]
      · rw [hrp, hchanged'.read]
      · rw [hchanged'.rest [r] (by simpa using hrp), hchanged.rest [r] (by simpa using hrj),
          h.right r hr]
  case isFalse heq =>
    obtain rfl : p = j := not_not.mp heq
    refine ⟨(A, b), rfl, h.congr (fun r _ c _ => ?_) fun r _ => ?_⟩
    · rw [Equiv.swap_self, Equiv.refl_apply]
    · rw [Equiv.swap_self, Equiv.refl_apply]

/-- The multiplier is 1, since the pivot is the entry to eliminate. -/
theorem eliminateRow_spec (hops : ops.Lawful) (h : Represents n s M v) (hji : j < i)
    (hi : i < n) (hpivot : M i j ≠ 0) : ∃ s', eliminateRow ops j i s = some s' ∧
      Represents n s' (fun r c => if r = i ∧ j ≤ c then M r c - M j c else M r c)
        fun r => if r = i then v r - v j else v r := by
  obtain ⟨A, b⟩ := s
  obtain ⟨hA, hb⟩ := h.extents
  have hj : j < n := hji.trans hi
  have hrow : ops.scaleAndAdd (ops.rowFrom A j j) (-1) (ops.rowFrom A i j) =
      (List.range (n - j)).map fun c => M i (j + c) - M j (j + c) := by
    rw [hops.rowFrom hA hj hj.le, hops.rowFrom hA hi hj.le, hops.scaleAndAdd (by simp),
      List.zipWith_map, List.zipWith_self]
    apply List.map_congr_left
    intro c hc
    have hlt : j + c < n := by
      rw [List.mem_range] at hc
      omega
    rw [h.entry hj hlt, h.entry hi hlt]
    ring
  obtain ⟨hextents, hread⟩ := hops.setRowFrom hA hi hj.le
    (show ((List.range (n - j)).map fun c => M i (j + c) - M j (j + c)).length = n - j by simp)
  obtain ⟨b', hwrite, hchanged⟩ :=
    Matrix.write_spec ((inBounds_one hb).mpr hi) (v i - 1 * v j)
  refine ⟨(_, b'), ?_, ⟨hextents, hchanged.extents hb⟩, fun r hr c hc => ?_, fun r hr => ?_⟩
  · rw [eliminateRow, h.coefficient i hi j hj, h.right i hi, h.right j hj]
    simp only [Option.bind_eq_bind, Option.bind_some, if_neg hpivot, div_self hpivot, hrow,
      hwrite]
    rfl
  · rw [hread r hr c hc]
    split
    case isTrue hrc =>
      obtain ⟨rfl, hjc⟩ := hrc
      have hsplit : j + (c - j) = c := by omega
      rw [List.getElem?_map, List.getElem?_range (by omega), Option.map_some, hsplit]
    case isFalse => exact h.coefficient r hr c hc
  · split
    case isTrue hri =>
      subst hri
      rw [hchanged.read, one_mul]
    case isFalse hne => rw [hchanged.rest [r] (by simpa using hne), h.right r hr]

theorem eliminateRow_eq_none (h : Represents n s M v) (hji : j < i) (hi : i < n)
    (hpivot : M i j = 0) : eliminateRow ops j i s = none := by
  obtain ⟨A, b⟩ := s
  rw [eliminateRow, h.coefficient i hi j (hji.trans hi), hpivot]
  rfl

/-- The rows below lose row `j`, if none of them has a zero in column `j`. -/
theorem eliminateRows_spec (hops : ops.Lawful) (h : Represents n s M v) (hj : j < n) :
    ((∀ i, j + 1 ≤ i → i < n → M i j ≠ 0) ∧
        ∃ s', forRange (j + 1) n (eliminateRow ops j) s = some s' ∧
          Represents n s' (fun r c => if j < r ∧ j ≤ c then M r c - M j c else M r c)
            fun r => if j < r then v r - v j else v r) ∨
      (¬(∀ i, j + 1 ≤ i → i < n → M i j ≠ 0) ∧
        forRange (j + 1) n (eliminateRow ops j) s = none) := by
  have hrun := @forRange_checked _ (eliminateRow ops j)
    (fun i s' => Represents n s'
      (fun r c => if j < r ∧ r < i ∧ j ≤ c then M r c - M j c else M r c)
      fun r => if j < r ∧ r < i then v r - v j else v r)
    (fun i => M i j ≠ 0) (j + 1) n s ?_ ?_
  · rw [Nat.max_eq_right (Nat.succ_le_of_lt hj)] at hrun
    obtain ⟨hpivots, s', hs', h'⟩ | hfail := hrun
    · refine .inl ⟨hpivots, s', hs', h'.congr (fun r hr c hc => ?_) fun r hr => ?_⟩
      · simp only [hr, true_and]
      · simp only [hr, and_true]
    · exact .inr hfail
  · refine h.congr (fun r _ c _ => ?_) fun r _ => ?_
    · rw [if_neg (by omega)]
    · rw [if_neg (by omega)]
  · intro i s' hji hi h'
    by_cases hpivot : M i j = 0
    · refine .inr ⟨not_not.mpr hpivot, h'.eliminateRow_eq_none hji hi ?_⟩
      rw [if_neg (by omega), hpivot]
    · obtain ⟨s'', hs'', h''⟩ := h'.eliminateRow_spec hops hji hi (by rwa [if_neg (by omega)])
      refine .inl ⟨hpivot, s'', hs'', h''.congr (fun r _ c _ => ?_) fun r _ => ?_⟩
      · grind
      · grind

/-- A turn of the outer loop: a row comes to place `j`, and the rows below lose it. -/
theorem eliminateColumn_spec (hops : ops.Lawful) (h : Represents n s M v) (hj : j < n) :
    ∃ p, j ≤ p ∧ p < n ∧ (p ≠ j → |M j j| < |M p j|) ∧
      (((∀ i, j + 1 ≤ i → i < n → M (Equiv.swap j p i) j ≠ 0) ∧
        ∃ s', eliminateColumn ops n j s = some s' ∧
          Represents n s' (fun r c => if j < r ∧ j ≤ c then M (Equiv.swap j p r) c - M p c
              else M (Equiv.swap j p r) c)
            fun r => if j < r then v (Equiv.swap j p r) - v p else v (Equiv.swap j p r)) ∨
      (¬(∀ i, j + 1 ≤ i → i < n → M (Equiv.swap j p i) j ≠ 0) ∧
        eliminateColumn ops n j s = none)) := by
  obtain ⟨A, b⟩ := s
  obtain ⟨p, hfind, hle, hp, hlarge⟩ := h.comparePivot_spec hj
  obtain ⟨⟨A', b'⟩, hswap, h'⟩ := h.swapPivot_spec hops hj hp
  refine ⟨p, hle, hp, hlarge, ?_⟩
  have hrows := h'.eliminateRows_spec hops hj
  simp only [Equiv.swap_apply_left] at hrows
  simp only [eliminateColumn, hfind, hswap, Option.bind_eq_bind, Option.bind_some]
  exact hrows

/-- What a turn leaves, if it does not fail. -/
theorem eliminateColumn_cases (hops : ops.Lawful) (h : Represents n s M v) (hj : j < n)
    {s' : Matrix ℚ × Matrix ℚ} (hturn : eliminateColumn ops n j s = some s') :
    ∃ p, j ≤ p ∧ p < n ∧ (p ≠ j → |M j j| < |M p j|) ∧
      Represents n s' (fun r c => if j < r ∧ j ≤ c then M (Equiv.swap j p r) c - M p c
          else M (Equiv.swap j p r) c)
        fun r => if j < r then v (Equiv.swap j p r) - v p else v (Equiv.swap j p r) := by
  obtain ⟨p, hle, hp, hlarge, ⟨-, s'', hs'', h''⟩ | ⟨-, hnone⟩⟩ := h.eliminateColumn_spec hops hj
  · rw [hturn, Option.some_inj] at hs''
    exact ⟨p, hle, hp, hlarge, hs'' ▸ h''⟩
  · rw [hturn] at hnone
    cases hnone

end Represents

/-- So no row is taken where the two are equal. -/
theorem pivot_eq (hlarge : p ≠ j → |M j j| < |M p j|) (hsame : M p j = M j j) : p = j := by
  by_contra hne
  have hlt := hlarge hne
  rw [hsame] at hlt
  exact lt_irrefl _ hlt

/-! ## When it eliminates -/

/-- From the diagonal down all entries of a column are equal, in the columns before `k`. -/
def Constant (n k : Nat) (M : Nat → Nat → ℚ) : Prop :=
  ∀ c < k, ∀ r, c ≤ r → r < n → M r c = M c c

/-- With such columns each row loses the one before it. -/
def rowDifferences (k : Nat) (M : Nat → Nat → ℚ) (r c : Nat) : ℚ :=
  differences k (fun r => M r c) r

namespace Constant

theorem cleared {k r c : Nat} (h : Constant n k M) (hck : c < k) (hcr : c < r) (hr : r < n) :
    rowDifferences k M r c = 0 :=
  differences_eq_zero (fun r' hle hr' => h c hck r' hle (by omega)) hcr hck

/-- A turn with the pivot in place. -/
theorem succ (h : Constant n j M) (hj : j < n)
    (h' : Represents n s (fun r c => if j < r ∧ j ≤ c
        then rowDifferences j M r c - rowDifferences j M j c else rowDifferences j M r c)
      fun r => if j < r then differences j v r - differences j v j else differences j v r) :
    Represents n s (rowDifferences (j + 1) M) (differences (j + 1) v) := by
  refine h'.congr (fun r _ c _ => ?_) fun r _ => (differences_succ j v r).symm
  have hnext : rowDifferences (j + 1) M r c = if j < r
      then rowDifferences j M r c - rowDifferences j M j c else rowDifferences j M r c :=
    differences_succ j _ r
  rw [hnext]
  by_cases hjr : j < r
  · rw [if_pos hjr]
    split
    case isTrue => rfl
    case isFalse hcj =>
      have hcj' : c < j := by omega
      rw [h.cleared hcj' hcj' hj, sub_zero]
  · rw [if_neg hjr, if_neg (by omega)]

end Constant

theorem rowDifferences_column {r : Nat} (hle : j ≤ r) :
    rowDifferences j M r j = M r j - preceding (fun r => M r j) j := by
  rw [rowDifferences, differences, Nat.min_eq_right hle]

theorem elimination_of_constant (hops : ops.Lawful) (h : Represents n s M v)
    (hconst : Constant n n M) (hdet : Nonsingular n M) :
    ∃ s', forRange 0 n (eliminateColumn ops n) s = some s' ∧
      Represents n s' (rowDifferences n M) (differences n v) := by
  have hupper := (nonsingular_differences.mpr hdet).diagonal fun r hr c hcr =>
    hconst.cleared (hcr.trans hr) hcr hr
  have hrun := @forRange_rule _ (eliminateColumn ops n)
    (fun j s' => Represents n s' (rowDifferences j M) (differences j v)) 0 n s
    (h.congr (fun r _ c _ => by rw [rowDifferences, differences_zero])
      fun r _ => by rw [differences_zero]) ?_
  · rwa [Nat.zero_max] at hrun
  · intro j s' _ hj h'
    have hsame : ∀ i, j ≤ i → i < n → rowDifferences j M i j = rowDifferences j M j j := by
      intro i hle hi
      rw [rowDifferences_column hle, rowDifferences_column le_rfl, hconst j hj i hle hi]
    have hpivot : rowDifferences j M j j ≠ 0 := by
      have hne := hupper.diagonal j hj
      simpa only [rowDifferences, differences, Nat.min_self, Nat.min_eq_left hj.le] using hne
    obtain ⟨p, hle, hp, hlarge, hstep⟩ := h'.eliminateColumn_spec hops hj
    obtain rfl := pivot_eq hlarge (hsame p hle hp)
    simp only [Equiv.swap_self, Equiv.refl_apply] at hstep
    obtain ⟨-, s'', hs'', h''⟩ | ⟨hfail, -⟩ := hstep
    · have hbefore : Constant n p M := fun c hc => hconst c (hc.trans hj)
      exact ⟨s'', hs'', hbefore.succ hj h''⟩
    · exact absurd (fun i hi hi' => by rw [hsame i (by omega) hi']; exact hpivot) hfail

/-- An entry below the diagonal of a column that has had its turn. -/
def Spoiled (n k : Nat) (s : Matrix ℚ × Matrix ℚ) : Prop :=
  ∃ M v, Represents n s M v ∧ ∃ c < k, ∃ r, c < r ∧ r < n ∧ M r c ≠ 0

/-- The later turns move such an entry to another row at most. -/
theorem Spoiled.turn (hops : ops.Lawful) {s' : Matrix ℚ × Matrix ℚ} (h : Spoiled n j s)
    (hj : j < n) (hturn : eliminateColumn ops n j s = some s') : Spoiled n (j + 1) s' := by
  obtain ⟨M, v, hs, c, hcj, r, hcr, hr, hne⟩ := h
  obtain ⟨p, hle, hp, -, h'⟩ := hs.eliminateColumn_cases hops hj hturn
  refine ⟨_, _, h', c, by omega, Equiv.swap j p r, lt_swap hcj (by omega) hcr,
    swap_lt hj hp hr, ?_⟩
  rw [if_neg (by omega), Equiv.swap_apply_self]
  exact hne

/-- A turn that clears its column has found all its entries equal. -/
theorem Constant.turn (hops : ops.Lawful) {s' : Matrix ℚ × Matrix ℚ} (hconst : Constant n j M)
    (h : Represents n s (rowDifferences j M) (differences j v)) (hj : j < n)
    (hturn : eliminateColumn ops n j s = some s') :
    (Constant n (j + 1) M ∧ Represents n s' (rowDifferences (j + 1) M) (differences (j + 1) v)) ∨
      Spoiled n (j + 1) s' := by
  obtain ⟨p, hle, hp, hlarge, h'⟩ := h.eliminateColumn_cases hops hj hturn
  by_cases hclear : ∀ r, j < r → r < n →
      rowDifferences j M (Equiv.swap j p r) j = rowDifferences j M p j
  · have hall : ∀ r, j ≤ r → r < n → rowDifferences j M r j = rowDifferences j M p j := by
      intro r hjr hr
      by_cases hrp : r = p
      · rw [hrp]
      · have hback := hclear (Equiv.swap j p r)
        rw [Equiv.swap_apply_self] at hback
        apply hback
        · rw [Equiv.swap_apply_def]
          split_ifs <;> omega
        · exact swap_lt hj hp hr
    obtain rfl := pivot_eq hlarge (hall j le_rfl hj).symm
    simp only [Equiv.swap_self, Equiv.refl_apply] at h'
    refine .inl ⟨fun c hc r hcr hr => ?_, hconst.succ hj h'⟩
    obtain hlt | rfl := Nat.lt_succ_iff_lt_or_eq.mp hc
    · exact hconst c hlt r hcr hr
    · have heq := hall r hcr hr
      rw [rowDifferences_column hcr, rowDifferences_column le_rfl] at heq
      exact sub_left_injective heq
  · simp only [not_forall] at hclear
    obtain ⟨r, hjr, hr, hne⟩ := hclear
    refine .inr ⟨_, _, h', j, Nat.lt_succ_self j, r, hjr, hr, ?_⟩
    rw [if_pos ⟨hjr, le_rfl⟩]
    exact sub_ne_zero.mpr hne

theorem constant_of_elimination (hops : ops.Lawful) (h : Represents n (A, b) M v)
    {A' b' : Matrix ℚ}
    (hrun : forRange 0 n (eliminateColumn ops n) (A, b) = some (A', b'))
    (hbelow : ∀ i < n, ∀ j < i, A'.entry [i, j] = 0) : Constant n n M := by
  have hend := @forRange_invariant _ (eliminateColumn ops n)
    (fun j s => (Constant n j M ∧ Represents n s (rowDifferences j M) (differences j v)) ∨
      Spoiled n j s) 0 n (A, b) (A', b') ?_ ?_ hrun
  · rw [Nat.zero_max] at hend
    obtain ⟨hconst, -⟩ | ⟨M', v', h', c, hc, r, hcr, hr, hne⟩ := hend
    · exact hconst
    · rw [← h'.entry hr hc, hbelow r hr c hcr] at hne
      exact absurd rfl hne
  · refine .inl ⟨fun c hc => absurd hc (Nat.not_lt_zero c), h.congr (fun r _ c _ => ?_) ?_⟩
    · rw [rowDifferences, differences_zero]
    · exact fun r _ => by rw [differences_zero]
  · rintro j s s' - hj (⟨hconst, hs⟩ | hspoiled) hturn
    · exact hconst.turn hops hs hj hturn
    · exact .inr (hspoiled.turn hops hj hturn)

def coefficients (A : Matrix ℚ) (i j : Nat) : ℚ := A.entry [i, j]

def values (b : Matrix ℚ) (i : Nat) : ℚ := b.entry [i]

/-- The system is triangular and has kept its solutions. -/
structure Eliminated (n : Nat) (A b A' b' : Matrix ℚ) : Prop where
  extents : A'.desc.extents = [n, n] ∧ b'.desc.extents = [n]
  upper : UpperTriangular n (coefficients A')
  solutions : ∀ x, IsSolution n (coefficients A') (values b') x ↔
    IsSolution n (coefficients A) (values b) x

theorem represents_entries (hA : A.desc.extents = [n, n]) (hb : b.desc.extents = [n]) :
    Represents n (A, b) (coefficients A) (values b) where
  extents := ⟨hA, hb⟩
  coefficient _ hr _ hc := Matrix.read_eq ((inBounds_two hA).mpr ⟨hr, hc⟩)
  right _ hr := Matrix.read_eq ((inBounds_one hb).mpr hr)

theorem Represents.eliminated {A' b' : Matrix ℚ} (hconst : Constant n n (coefficients A))
    (hdet : Nonsingular n (coefficients A)) (h : Represents n (A', b')
      (rowDifferences n (coefficients A)) (differences n (values b))) :
    Eliminated n A b A' b' where
  extents := h.extents
  upper := by
    have hupper := (nonsingular_differences.mpr hdet).diagonal fun r hr c hcr =>
      hconst.cleared (hcr.trans hr) hcr hr
    exact hupper.congr fun r hr c hc => h.entry hr hc
  solutions x := by
    have hcoefficients : ∀ r < n, ∀ c < n,
        coefficients A' r c = rowDifferences n (coefficients A) r c :=
      fun r hr c hc => h.entry hr hc
    have hvalues : ∀ r < n, values b' r = differences n (values b) r := by
      intro r hr
      rw [values, Matrix.entry, h.right r hr, Option.getD_some]
    rw [IsSolution.congr hcoefficients hvalues]
    exact isSolution_differences

/-- The pivot of a row is read from the row itself, so that the multiplier is 1: the elimination
is right if and only if 1 is what each multiplier has to be. -/
theorem elimWithPartialPivot_iff (hops : ops.Lawful) (hA : A.desc.extents = [n, n])
    (hb : b.desc.extents = [n]) (hdet : Nonsingular n (coefficients A)) :
    (∃ A' b', elimWithPartialPivot ops A b = some (A', b') ∧ Eliminated n A b A' b') ↔
      ∀ i < n, ∀ j < i, A.entry [i, j] = A.entry [j, j] := by
  have hstart := represents_entries hA hb
  have hcode : elimWithPartialPivot ops A b = forRange 0 n (eliminateColumn ops n) (A, b) := by
    rw [elimWithPartialPivot, Matrix.extent, hA]
    rfl
  rw [hcode]
  constructor
  · rintro ⟨A', b', hrun, helim⟩ i hi j hj
    have hconst := constant_of_elimination hops hstart hrun helim.upper.below
    exact hconst j (hj.trans hi) i hj.le hi
  · intro hequal
    have hconst : Constant n n (coefficients A) := by
      intro c _ r hcr hr
      obtain hlt | rfl := Nat.lt_or_eq_of_le hcr
      · exact hequal r hr c hlt
      · rfl
    obtain ⟨⟨A', b'⟩, hrun, h'⟩ := elimination_of_constant hops hstart hconst hdet
    exact ⟨A', b', hrun, h'.eliminated hconst hdet⟩

def square (n : Nat) (f : Nat → Nat → ℚ) : Matrix ℚ := Matrix.tabulate (rowMajor [n, n]) fun
  | [i, j] => f i j
  | _ => 0

theorem coefficients_square {f : Nat → Nat → ℚ} (hi : i < n) (hj : j < n) :
    coefficients (square n f) i j = f i j := by
  have hread := @Matrix.read_tabulate ℚ [i, j] _ (rowMajor [n, n]) (fun
    | [i, j] => f i j
    | _ => 0) ((inBounds_two rfl).mpr ⟨hi, hj⟩)
  rw [coefficients, Matrix.entry, square, hread]
  rfl

theorem nonsingular_square_two {f : Nat → Nat → ℚ} :
    Nonsingular 2 (coefficients (square 2 f)) ↔ f 0 0 * f 1 1 - f 0 1 * f 1 0 ≠ 0 := by
  have hread : ∀ i j : Fin 2, coefficients (square 2 f) i j = f i j :=
    fun i j => coefficients_square i.isLt j.isLt
  rw [Nonsingular, Matrix.det_fin_two]
  simp only [Matrix.of_apply, hread]
  rfl

theorem elimWithPartialPivot_iff_two :
    ∃ A' b', elimWithPartialPivot rowOps (square 2 fun i j => (min i j + 1 : Nat))
      (Matrix.ofExtents rowMajor [2]) = some (A', b') ∧ Eliminated 2
        (square 2 fun i j => (min i j + 1 : Nat)) (Matrix.ofExtents rowMajor [2]) A' b' := by
  refine (elimWithPartialPivot_iff rowOps_lawful rfl rfl
    (nonsingular_square_two.mpr (by norm_num))).mpr fun i hi j hj => ?_
  have hread := @coefficients_square 2
  unfold coefficients at hread
  rw [hread hi (hj.trans hi), hread (hj.trans hi) (hj.trans hi), Nat.min_eq_right hj.le,
    Nat.min_self]

/-- The identity has zeros below its diagonal, which are taken for pivots. -/
theorem elimWithPartialPivot_identity :
    Nonsingular 2 (coefficients (square 2 fun i j => if i = j then 1 else 0)) ∧
    elimWithPartialPivot rowOps (square 2 fun i j => if i = j then 1 else 0)
      (Matrix.ofExtents rowMajor [2]) = none :=
  ⟨nonsingular_square_two.mpr (by norm_num), rfl⟩

/-! ## The substitution -/

/-- How a run ends without a result: a subscript is out of bounds, or `Back_subst_failure(i)`. -/
inductive Failure
  | outOfBounds
  | backSubst (i : Nat)

def checked {α : Type} (entry : Option α) : Except Failure α :=
  entry.elim (.error .outOfBounds) .ok

/-- `inner_product` from the begin of both. -/
def dotProduct (a b : List ℚ) : ℚ := (List.zipWith (· * ·) a b).foldl (· + ·) 0

/-- `i - 1` of a `size_t`. -/
def decrement (i : Nat) : Nat := (i + (2 ^ 64 - 1)) % 2 ^ 64

section Code

variable (ops : RowOps) (slice : List Nat → MatrixSlice)

/-- The body of the loop of `back_substituition`, with `A(i,i)` for `A(i,j)`. -/
def substituteRow (A b : Matrix ℚ) (i : Nat) (x : Matrix ℚ) : Except Failure (Matrix ℚ) := do
  let next := (i + 1) % 2 ^ 64
  let y ← checked (b.read [i])
  let s := y - dotProduct (ops.rowFrom A i next) (ops.entriesFrom x next)
  let m ← checked (A.read [i, i])
  if m ≠ 0 then checked (x.write [i] (s / m)) else throw (.backSubst i)

/-- A turn of the loop, with the test of `i >= 0` before it. -/
def substituteTurn (A b : Matrix ℚ) : Nat × Matrix ℚ →
    Option ((Nat × Matrix ℚ) ⊕ Except Failure (Matrix ℚ))
  | (i, x) =>
    if i ≥ 0 then
      match substituteRow ops A b i x with
      | .ok x => some (.inl (decrement i, x))
      | .error failure => some (.inr (.error failure))
    else some (.inr (.ok x))

def backSubstituition (fuel : Nat) (A b : Matrix ℚ) : Option (Except Failure (Matrix ℚ)) := do
  let n ← A.extent 0
  loop (substituteTurn ops A b) fuel (decrement n, Matrix.ofExtents slice [n])

end Code

theorem decrement_succ (hi : i + 1 < 2 ^ 64) : decrement (i + 1) = i := by
  unfold decrement
  omega

theorem decrement_zero : decrement 0 = 2 ^ 64 - 1 := rfl

theorem dotProduct_range (f g : Nat → ℚ) (k : Nat) :
    dotProduct ((List.range k).map f) ((List.range k).map g) = ∑ c ∈ range k, f c * g c := by
  rw [dotProduct, List.zipWith_map, List.zipWith_self]
  induction k with
  | zero => rfl
  | succ k ih =>
      rw [List.range_succ, List.map_append, List.foldl_append, ih, sum_range_succ]
      rfl

/-- The rows from `i` on have been solved. -/
structure SolvedFrom (n i : Nat) (A b x : Matrix ℚ) : Prop where
  extents : x.desc.extents = [n]
  rows : ∀ r, i ≤ r → r < n → coefficients A r r * values x r =
    values b r - ∑ c ∈ Ico (r + 1) n, coefficients A r c * values x c

section Substitution

variable {slice : List Nat → MatrixSlice} {x : Matrix ℚ} {fuel : Nat}

theorem SolvedFrom.row (hops : ops.Lawful) (h : SolvedFrom n (i + 1) A b x)
    (hA : A.desc.extents = [n, n]) (hb : b.desc.extents = [n]) (hn : n < 2 ^ 64) (hi : i < n)
    (hne : coefficients A i i ≠ 0) :
    ∃ x', substituteRow ops A b i x = .ok x' ∧ SolvedFrom n i A b x' := by
  have hwrap : (i + 1) % 2 ^ 64 = i + 1 := Nat.mod_eq_of_lt (by omega)
  have hrow := hops.rowFrom hA hi (Nat.succ_le_of_lt hi)
  have hentries := hops.entriesFrom h.extents (Nat.succ_le_of_lt hi)
  have hstart := represents_entries hA hb
  have hreadB := hstart.right i hi
  have hreadA := hstart.coefficient i hi i hi
  have hsum : dotProduct (ops.rowFrom A i (i + 1)) (ops.entriesFrom x (i + 1)) =
      ∑ c ∈ Ico (i + 1) n, coefficients A i c * values x c := by
    rw [hrow, hentries, dotProduct_range, sum_Ico_eq_sum_range]
    rfl
  obtain ⟨x', hwrite, hchanged⟩ := Matrix.write_spec ((inBounds_one h.extents).mpr hi)
    ((values b i - ∑ c ∈ Ico (i + 1) n, coefficients A i c * values x c) / coefficients A i i)
  have hsame : ∀ c, c ≠ i → values x' c = values x c := by
    intro c hc
    rw [values, values, Matrix.entry, Matrix.entry, hchanged.rest [c] (by simpa using hc)]
  have hlater : ∀ r, i ≤ r → ∑ c ∈ Ico (r + 1) n, coefficients A r c * values x' c =
      ∑ c ∈ Ico (r + 1) n, coefficients A r c * values x c := by
    intro r hr
    apply sum_congr rfl
    intro c hc
    rw [hsame c]
    rw [mem_Ico] at hc
    omega
  refine ⟨x', ?_, hchanged.extents h.extents, fun r hir hr => ?_⟩
  · simp only [substituteRow, hwrap, hreadB, hreadA, hsum, checked, Option.elim_some]
    simp only [bind, Except.bind, hne, ne_eq, not_false_eq_true, if_true, hwrite,
      Option.elim_some]
  · rw [hlater r hir]
    obtain rfl | hlt := Nat.eq_or_lt_of_le hir
    · have hvalue : values x' i = (values b i -
          ∑ c ∈ Ico (i + 1) n, coefficients A i c * values x c) / coefficients A i i := by
        rw [values, Matrix.entry, hchanged.read, Option.getD_some]
      rw [hvalue, mul_div_cancel₀ _ hne]
    · rw [hsame r (by omega)]
      exact h.rows r hlt hr

theorem substituteTurn_eq {x' : Matrix ℚ} (hrow : substituteRow ops A b i x = .ok x') :
    substituteTurn ops A b (i, x) = some (.inl (decrement i, x')) := by
  rw [substituteTurn, if_pos (Nat.zero_le i), hrow]

/-- Row after row from the last one up. -/
theorem substitute_leads (hops : ops.Lawful) (hslice : ∀ exts, (slice exts).extents = exts)
    (hA : A.desc.extents = [n, n]) (hb : b.desc.extents = [n]) (hn : n < 2 ^ 64)
    (hupper : UpperTriangular n (coefficients A)) {k : Nat} (hk : k < n) :
    ∃ x, Leads (substituteTurn ops A b) k (decrement n, Matrix.ofExtents slice [n])
        (n - 1 - k, x) ∧ SolvedFrom n (n - k) A b x := by
  induction k with
  | zero =>
      obtain ⟨n, rfl⟩ := Nat.exists_eq_succ_of_ne_zero (Nat.ne_of_gt hk)
      rw [decrement_succ hn]
      exact ⟨_, Leads.refl _, hslice _, fun r hr hr' => absurd hr' (by omega)⟩
  | succ k ih =>
      obtain ⟨x, hleads, hsolved⟩ := ih (Nat.lt_of_succ_lt hk)
      have hnext : n - k = n - 1 - k + 1 := by omega
      have hrow : n - 1 - k = n - 1 - (k + 1) + 1 := by omega
      have hlast : n - 1 - k = n - (k + 1) := by omega
      rw [hnext] at hsolved
      obtain ⟨x', hx', hsolved'⟩ :=
        hsolved.row hops hA hb hn (by omega) (hupper.diagonal _ (by omega))
      have hturn := substituteTurn_eq hx'
      rw [hrow, decrement_succ (by omega), ← hrow] at hturn
      exact ⟨x', hleads.trans (Leads.single hturn), hlast ▸ hsolved'⟩

/-- No number is less than zero. -/
theorem backSubstituition_ne_ok : backSubstituition ops slice fuel A b ≠ some (.ok x) := by
  intro hrun
  obtain ⟨n, -, hloop⟩ := Option.bind_eq_some_iff.mp hrun
  refine loop_invariant (fun _ => True) (fun result => result ≠ .ok x) (fun _ _ _ _ => trivial)
    ?_ trivial hloop rfl
  rintro ⟨i, x'⟩ result - hturn rfl
  rw [substituteTurn, if_pos (Nat.zero_le i)] at hturn
  split at hturn <;> cases hturn

/-- After the first row `i` is the largest `size_t`, which is no subscript of `b`. -/
theorem substituteTurn_last (hb : b.desc.extents = [n]) (hn : n < 2 ^ 64) :
    substituteTurn ops A b (2 ^ 64 - 1, x) = some (.inr (.error .outOfBounds)) := by
  have hout : b.read [2 ^ 64 - 1] = none :=
    Matrix.read_eq_none (by rw [inBounds_one hb]; omega)
  rw [substituteTurn, if_pos (Nat.zero_le _), substituteRow, hout]
  rfl

/-- The rows are solved in turn, from the last to the first, and then the loop goes on. -/
theorem backSubstituition_fails (hops : ops.Lawful)
    (hslice : ∀ exts, (slice exts).extents = exts) (hA : A.desc.extents = [n, n])
    (hb : b.desc.extents = [n]) (hpos : 1 ≤ n) (hn : n < 2 ^ 64)
    (hupper : UpperTriangular n (coefficients A)) :
    (¬ ∃ fuel x, backSubstituition ops slice fuel A b = some (.ok x) ∧
      IsSolution n (coefficients A) (values b) (values x)) ∧
    (∀ k < n, ∃ x, Leads (substituteTurn ops A b) k
      (decrement n, Matrix.ofExtents slice [n]) (n - 1 - k, x)) ∧
    (∃ x, Leads (substituteTurn ops A b) n (decrement n, Matrix.ofExtents slice [n])
      (2 ^ 64 - 1, x) ∧ IsSolution n (coefficients A) (values b) (values x)) ∧
    ∀ fuel, n < fuel → backSubstituition ops slice fuel A b = some (.error .outOfBounds) := by
  obtain ⟨x, hleads, hsolved⟩ := substitute_leads hops hslice hA hb hn hupper
    (show n - 1 < n by omega)
  have hfirst : n - 1 - (n - 1) = 0 := Nat.sub_self _
  have hone : n - (n - 1) = 0 + 1 := by omega
  rw [hone] at hsolved
  obtain ⟨x', hx', hsolved'⟩ := hsolved.row hops hA hb hn hpos (hupper.diagonal 0 hpos)
  have hturn := substituteTurn_eq hx'
  rw [decrement_zero, ← hfirst] at hturn
  have hall := hleads.trans (Leads.single hturn)
  rw [Nat.sub_add_cancel hpos] at hall
  refine ⟨?_, fun k hk => ?_, ⟨x', hall, ?_⟩, fun fuel hfuel => ?_⟩
  · rintro ⟨fuel, x, hrun, -⟩
    exact backSubstituition_ne_ok hrun
  · obtain ⟨x, hk, -⟩ := substitute_leads hops hslice hA hb hn hupper hk
    exact ⟨x, hk⟩
  · exact isSolution_of_back hupper.below fun r hr => hsolved'.rows r (Nat.zero_le r) hr
  · rw [backSubstituition, Matrix.extent, hA]
    exact hall.loop_eq (substituteTurn_last hb hn) hfuel

theorem upperTriangular_one : UpperTriangular 1 (coefficients (square 1 fun _ _ => 1)) where
  below i hi j hj := by omega
  diagonal i hi := by
    rw [coefficients_square hi hi]
    exact one_ne_zero

theorem backSubstituition_fails_one :
    backSubstituition rowOps rowMajor 2 (square 1 fun _ _ => 1) (Matrix.ofExtents rowMajor [1]) =
      some (.error .outOfBounds) := by
  obtain ⟨-, -, -, hfails⟩ := @backSubstituition_fails rowOps 1 (square 1 fun _ _ => 1)
    (Matrix.ofExtents rowMajor [1]) rowMajor rowOps_lawful (fun _ => rfl) rfl rfl le_rfl
    (by decide) upperTriangular_one
  exact hfails 2 (by decide)

theorem backSubstituition_one :
    UpperTriangular 1 (coefficients (square 1 fun _ _ => 1)) ∧ ¬ ∃ fuel x,
      backSubstituition rowOps rowMajor fuel (square 1 fun _ _ => 1)
        (Matrix.ofExtents rowMajor [1]) = some (.ok x) :=
  ⟨upperTriangular_one, fun ⟨_, _, hrun⟩ => backSubstituition_ne_ok hrun⟩

end Substitution

end MatrixImpl

end MoreCpp
