import MoreCpp.Library.Loop
import Mathlib.Data.List.Basic

/-!
Writing a cell of an array or of a table, and computing an array cell by cell, or a table row
by row with each cell from the three cells above and before it. Outside of it there is `none`.
-/

namespace MoreCpp.Library

variable {α : Type} {cells : List α} {i j : Nat} {a : α}

def store (cells : List α) (i : Nat) (a : α) : Option (List α) :=
  if i < cells.length then some (cells.set i a) else none

theorem store_eq (hi : i < cells.length) : store cells i a = some (cells.set i a) := if_pos hi

theorem mapM_range {f : Nat → Option α} {P : Nat → α → Prop} (n : Nat)
    (h : ∀ i < n, ∃ a, f i = some a ∧ P i a) :
    ∃ row, (List.range n).mapM f = some row ∧ row.length = n ∧
      ∀ i < n, ∃ a, row[i]? = some a ∧ P i a := by
  induction n with
  | zero => exact ⟨[], rfl, rfl, fun i hi => absurd hi (Nat.not_lt_zero i)⟩
  | succ n ih =>
      obtain ⟨row, hrow, hlength, hall⟩ := ih fun i hi => h i (Nat.lt_succ_of_lt hi)
      obtain ⟨a, ha, hp⟩ := h n (Nat.lt_succ_self n)
      refine ⟨row ++ [a], ?_, by rw [List.length_append, hlength]; rfl, fun i hi => ?_⟩
      · simp [List.range_succ, hrow, ha]
      · rcases Nat.lt_succ_iff_lt_or_eq.mp hi with hlt | rfl
        · rw [List.getElem?_append_left (hlength ▸ hlt)]
          exact hall i hlt
        · exact ⟨a, by rw [← hlength, List.getElem?_concat_length], hp⟩

theorem mapM_range_eq {f : Nat → Option α} {g : Nat → α} (n : Nat)
    (h : ∀ i < n, f i = some (g i)) :
    ∃ row, (List.range n).mapM f = some row ∧ row.length = n ∧
      ∀ i < n, row[i]? = some (g i) := by
  obtain ⟨row, hrow, hlength, hall⟩ :=
    mapM_range (P := fun i a => a = g i) n fun i hi => ⟨g i, h i hi, rfl⟩
  refine ⟨row, hrow, hlength, fun i hi => ?_⟩
  obtain ⟨_, hread, rfl⟩ := hall i hi
  exact hread

theorem mapM_range_map {f : Nat → Option α} {g : Nat → α} (n : Nat)
    (h : ∀ i < n, f i = some (g i)) : (List.range n).mapM f = some ((List.range n).map g) := by
  induction n with
  | zero => rfl
  | succ n ih =>
      have hbefore := ih fun i hi => h i (Nat.lt_succ_of_lt hi)
      simp [List.range_succ, hbefore, h n (Nat.lt_succ_self n)]

/-- The first `k` of `size` cells hold their values. -/
structure Filled (value : Nat → α) (size k : Nat) (cells : List α) : Prop where
  length : cells.length = size
  read : ∀ j < k, cells[j]? = some (value j)

theorem Filled.store {value : Nat → α} {size k : Nat} (h : Filled value size k cells)
    (hk : k < size) : ∃ cells', store cells k (value k) = some cells' ∧
      Filled value size (k + 1) cells' := by
  have hin : k < cells.length := h.length ▸ hk
  refine ⟨cells.set k (value k), store_eq hin, (List.length_set ..).trans h.length, ?_⟩
  intro j hj
  obtain hlt | rfl := Nat.lt_succ_iff_lt_or_eq.mp hj
  · rw [List.getElem?_set_ne (Nat.ne_of_gt hlt)]
    exact h.read j hlt
  · exact List.getElem?_set_self hin

/-- There are `n` cells, of all of which something holds. -/
structure Each (cells : List α) (n : Nat) (P : Nat → α → Prop) : Prop where
  length : cells.length = n
  read : ∀ i < n, ∃ a, cells[i]? = some a ∧ P i a

namespace Each

variable {n : Nat} {P Q : Nat → α → Prop}

theorem replicate (h : ∀ i < n, P i a) : Each (List.replicate n a) n P where
  length := List.length_replicate
  read i hi := ⟨a, by simp [hi], h i hi⟩

theorem mono (h : Each cells n P) (hPQ : ∀ i a, i < n → P i a → Q i a) : Each cells n Q where
  length := h.length
  read i hi := by
    obtain ⟨a, ha, hp⟩ := h.read i hi
    exact ⟨a, ha, hPQ i a hi hp⟩

/-- Writing one cell, after which another statement holds. -/
theorem update (h : Each cells n P) (hi : i < n) (ha : Q i a)
    (hkeep : ∀ k b, k < n → k ≠ i → P k b → Q k b) :
    ∃ cells', store cells i a = some cells' ∧ Each cells' n Q := by
  have hin : i < cells.length := h.length ▸ hi
  refine ⟨cells.set i a, store_eq hin, (List.length_set ..).trans h.length, fun k hk => ?_⟩
  obtain rfl | hne := eq_or_ne i k
  · exact ⟨a, List.getElem?_set_self hin, ha⟩
  · obtain ⟨b, hb, hp⟩ := h.read k hk
    exact ⟨b, by rwa [List.getElem?_set_ne hne], hkeep k b hk hne.symm hp⟩

end Each

/-! ## Tables -/

def readCell (rows : List (List α)) (i j : Nat) : Option α := do
  let row ← rows[i]?
  row[j]?

def writeCell (rows : List (List α)) (i j : Nat) (a : α) : Option (List (List α)) := do
  let row ← rows[i]?
  let row ← store row j a
  store rows i row

/-- There are `m` rows of `n` cells, of all of which something holds. -/
def Cellwise (rows : List (List α)) (m n : Nat) (P : Nat → Nat → α → Prop) : Prop :=
  ∀ i < m, ∀ j < n, ∃ a, readCell rows i j = some a ∧ P i j a

variable {rows : List (List α)} {m n : Nat} {P : Nat → Nat → α → Prop}

theorem Cellwise.replicate (h : ∀ i < m, ∀ j < n, P i j a) :
    Cellwise (List.replicate m (List.replicate n a)) m n P := by
  intro i hi j hj
  exact ⟨a, by simp [readCell, hi, hj], h i hi j hj⟩

/-- Writing one cell of a table that another statement then holds of. -/
theorem Cellwise.update {Q : Nat → Nat → α → Prop} (h : Cellwise rows m n P) (hi : i < m)
    (hj : j < n) (ha : Q i j a) (hkeep : ∀ k l b, ¬ (k = i ∧ l = j) → P k l b → Q k l b) :
    ∃ rows', writeCell rows i j a = some rows' ∧ Cellwise rows' m n Q ∧
      readCell rows' i j = some a := by
  obtain ⟨old, hold, -⟩ := h i hi j hj
  obtain ⟨row, hrow, hcell⟩ := Option.bind_eq_some_iff.mp hold
  obtain ⟨hi', -⟩ := List.getElem?_eq_some_iff.mp hrow
  obtain ⟨hj', -⟩ := List.getElem?_eq_some_iff.mp hcell
  have hread : readCell (rows.set i (row.set j a)) i j = some a := by
    simp [readCell, hi', hj']
  refine ⟨rows.set i (row.set j a), ?_, ?_, hread⟩
  · simp [writeCell, hrow, store_eq hj', store_eq hi']
  · intro k hk l hl
    obtain ⟨b, hb, hp⟩ := h k hk l hl
    by_cases hki : k = i
    · subst hki
      by_cases hlj : l = j
      · subst hlj
        exact ⟨a, hread, ha⟩
      · refine ⟨b, ?_, hkeep k l b (fun heq => hlj heq.2) hp⟩
        simp only [readCell, hrow, Option.bind_eq_bind, Option.bind_some] at hb
        simp [readCell, hi', List.getElem?_set_ne (Ne.symm hlj), hb]
    · refine ⟨b, ?_, hkeep k l b (fun heq => hki heq.1) hp⟩
      simp only [readCell, Option.bind_eq_bind] at hb
      simp [readCell, List.getElem?_set_ne (Ne.symm hki), hb]

theorem Cellwise.write (h : Cellwise rows m n P) (hi : i < m) (hj : j < n) (ha : P i j a) :
    ∃ rows', writeCell rows i j a = some rows' ∧ Cellwise rows' m n P ∧
      readCell rows' i j = some a :=
  h.update hi hj ha fun _ _ _ _ hp => hp

theorem Cellwise.read {value : Nat → Nat → α} {Q : Nat → Nat → Prop}
    (h : Cellwise rows m n fun i j a => Q i j → a = value i j) (hi : i < m) (hj : j < n)
    (hq : Q i j) : readCell rows i j = some (value i j) := by
  obtain ⟨a, ha, heq⟩ := h i hi j hj
  rw [ha, heq hq]

theorem Cellwise.mono {Q : Nat → Nat → α → Prop} (h : Cellwise rows m n P)
    (hpq : ∀ i j a, i < m → j < n → P i j a → Q i j a) : Cellwise rows m n Q := by
  intro i hi j hj
  obtain ⟨a, ha, hp⟩ := h i hi j hj
  exact ⟨a, ha, hpq i j a hi hj hp⟩

/-! ## Row by row -/

section

/-- `for (i = 1; i <= m; i++) for (j = 1; j <= n; j++) dp[i][j] = cell`. -/
def fillCells (m n : Nat) (cell : List (List α) → Nat → Nat → Option α) (dp : List (List α)) :
    Option (List (List α)) :=
  forRange 1 (m + 1) (fun i => forRange 1 (n + 1) fun j dp => do
    let a ← cell dp i j
    writeCell dp i j a) dp

/-- The border holds its values, and the cells before row `i` and column `j` do. -/
def FilledTo (value : Nat → Nat → α) (m n : Nat) (dp : List (List α)) (i j : Nat) : Prop :=
  Cellwise dp (m + 1) (n + 1) fun k l a =>
    k = 0 ∨ l = 0 ∨ k < i ∨ k = i ∧ l < j → a = value k l

variable {value : Nat → Nat → α} {dp : List (List α)}
  {cell : List (List α) → Nat → Nat → Option α}

namespace FilledTo

theorem read (h : FilledTo value m n dp i j) {k l : Nat} (hk : k ≤ m) (hl : l ≤ n)
    (hdone : k = 0 ∨ l = 0 ∨ k < i ∨ k = i ∧ l < j) : readCell dp k l = some (value k l) :=
  Cellwise.read h (Nat.lt_succ_of_le hk) (Nat.lt_succ_of_le hl) hdone

theorem write (h : FilledTo value m n dp i j) (hi : i ≤ m) (hj : j ≤ n) :
    ∃ dp', writeCell dp i j (value i j) = some dp' ∧ FilledTo value m n dp' i (j + 1) := by
  obtain ⟨dp', hwrite, hfilled, -⟩ := Cellwise.update
    (Q := fun k l a => k = 0 ∨ l = 0 ∨ k < i ∨ k = i ∧ l < j + 1 → a = value k l) h
    (Nat.lt_succ_of_le hi) (Nat.lt_succ_of_le hj) (fun _ => rfl)
    fun k l b hother hold hdone => hold (by omega)
  exact ⟨dp', hwrite, hfilled⟩

end FilledTo

/-- With the border filled, and each cell computed from the three cells above and before
it, the whole table is filled. -/
theorem fillCells_spec
    (hborder : Cellwise dp (m + 1) (n + 1) fun i j a => i = 0 ∨ j = 0 → a = value i j)
    (hcell : ∀ dp i j, i < m → j < n → readCell dp i j = some (value i j) →
      readCell dp i (j + 1) = some (value i (j + 1)) →
      readCell dp (i + 1) j = some (value (i + 1) j) →
      cell dp (i + 1) (j + 1) = some (value (i + 1) (j + 1))) :
    ∃ dp', fillCells m n cell dp = some dp' ∧
      Cellwise dp' (m + 1) (n + 1) fun i j a => a = value i j := by
  have hstart : FilledTo value m n dp 1 1 :=
    hborder.mono fun i j a _ _ hold hdone => hold (by omega)
  have hturn : ∀ i j dp, 1 ≤ i → i < m + 1 → 1 ≤ j → j < n + 1 → FilledTo value m n dp i j →
      ∃ dp', (do let a ← cell dp i j; writeCell dp i j a) = some dp' ∧
        FilledTo value m n dp' i (j + 1) := by
    intro i j dp hi hi' hj hj' hfilled
    obtain ⟨i, rfl⟩ := Nat.exists_eq_add_of_le' hi
    obtain ⟨j, rfl⟩ := Nat.exists_eq_add_of_le' hj
    have hdiagonal := hfilled.read (k := i) (l := j) (by omega) (by omega) (by omega)
    have habove := hfilled.read (k := i) (l := j + 1) (by omega) (by omega) (by omega)
    have hbefore := hfilled.read (k := i + 1) (l := j) (by omega) (by omega) (by omega)
    rw [hcell dp i j (by omega) (by omega) hdiagonal habove hbefore]
    exact hfilled.write (Nat.le_of_lt_succ hi') (Nat.le_of_lt_succ hj')
  obtain ⟨dp', hfill, hfilled⟩ := forRange_rule (fun i dp => FilledTo value m n dp i 1) hstart
    fun i dp hi hi' hfilled => by
      obtain ⟨dp', hrow, hfilled'⟩ := forRange_rule (fun j dp => FilledTo value m n dp i j)
        hfilled fun j dp hj hj' hfilled => hturn i j dp hi hi' hj hj' hfilled
      exact ⟨dp', hrow, hfilled'.mono fun k l a _ _ hold hdone => hold (by omega)⟩
  exact ⟨dp', hfill, hfilled.mono fun k l a hk hl hold => hold (by omega)⟩

end

end MoreCpp.Library
