import MoreCpp.Library.Cells
import MoreCpp.Library.LeftmostMin
import Mathlib.Data.Nat.Log
import Mathlib.Tactic.Ring

/-!
The sparse table of `algorithms/data/rmq.hpp`. Row `j` of `jmp` has the position of the
minimum of each window of `2 ^ j` values, and a query combines two such windows.
`none` is an index out of range, or an assertion that fails.
-/

namespace MoreCpp

open Library

structure RMQ (T : Type) where
  v : List T
  jmp : List (List Nat)

namespace RMQ

variable {T : Type} [LinearOrder T]

/-- `31 - __builtin_clz(x)`, the position of the highest bit. -/
def level (x : Nat) : Nat := x.log2

def cmb (q : RMQ T) (a b : Nat) : Option Nat := do
  let va ← q.v[a]?
  let vb ← q.v[b]?
  return if va = vb then min a b else if va < vb then a else b

/-- `jmp[j][i]`. -/
def entry (q : RMQ T) (j i : Nat) : Option Nat := do
  let row ← q.jmp[j]?
  row[i]?

/-- `jmp[j][i]` for the new row `j`. -/
def newEntry (q : RMQ T) (j i : Nat) : Option Nat := do
  let a ← q.entry (j - 1) i
  let b ← q.entry (j - 1) (i + 2 ^ (j - 1))
  q.cmb a b

/-- The loop of `init` that adds the rows from `j` on. -/
def addRows (q : RMQ T) (j : Nat) : Option (RMQ T) :=
  if 2 ^ j ≤ q.v.length then do
    let row ← (List.range (q.v.length - 2 ^ j + 1)).mapM (q.newEntry j)
    addRows { q with jmp := q.jmp ++ [row] } (j + 1)
  else some q
termination_by q.v.length - j
decreasing_by
  have hlt : j < 2 ^ j := Nat.lt_two_pow_self
  omega

def init (q : RMQ T) (v : List T) : Option (RMQ T) :=
  addRows { q with v := v, jmp := [List.range v.length] } 1

def index (q : RMQ T) (l r : Nat) : Option Nat :=
  if l ≤ r then do
    let d := level (r - l + 1)
    let a ← q.entry d l
    let b ← q.entry d (r + 1 - 2 ^ d)
    q.cmb a b
  else none

def query (q : RMQ T) (l r : Nat) : Option T := do
  let i ← q.index l r
  q.v[i]?

section Table

variable {q : RMQ T} {l m m' r i j : Nat}

/-- Two windows that cover a window without a gap, combined. -/
theorem cmb_spec (hl : l ≤ m') (hm : m' ≤ m + 1) (hr : m ≤ r) (h : LeftmostMin q.v l m i)
    (h' : LeftmostMin q.v m' r j) : ∃ k, q.cmb i j = some k ∧ LeftmostMin q.v l r k := by
  obtain ⟨a, ha⟩ := h.exists_value
  obtain ⟨b, hb⟩ := h'.exists_value
  simp only [cmb, ha, hb, Option.bind_eq_bind, Option.bind_some]
  refine ⟨_, rfl, ?_⟩
  rcases lt_trichotomy a b with hlt | rfl | hgt
  · rw [if_neg hlt.ne, if_pos hlt]
    exact h.of_left h' hm hr ha hb hlt.le
  · rw [if_pos rfl, h.min_eq_left h' hl ha hb]
    exact h.of_left h' hm hr ha hb le_rfl
  · rw [if_neg hgt.ne', if_neg hgt.not_gt]
    exact h.of_right h' hm hl ha hb hgt

/-- The rows that there are hold the minima of all windows of their length. -/
def Filled (q : RMQ T) (rows : Nat) : Prop :=
  q.jmp.length = rows ∧ ∀ j < rows, ∀ i, i + 2 ^ j ≤ q.v.length →
    ∃ k, q.entry j i = some k ∧ LeftmostMin q.v i (i + 2 ^ j - 1) k

theorem newEntry_spec (h : q.Filled (j + 1)) (hi : i + 2 ^ (j + 1) ≤ q.v.length) :
    ∃ k, q.newEntry (j + 1) i = some k ∧ LeftmostMin q.v i (i + 2 ^ (j + 1) - 1) k := by
  have hpos : 0 < 2 ^ j := Nat.two_pow_pos j
  have hpow : 2 ^ (j + 1) = 2 ^ j + 2 ^ j := by rw [pow_succ, Nat.mul_two]
  obtain ⟨a, ha, hfirst⟩ := h.2 j (Nat.lt_succ_self j) i (by omega)
  obtain ⟨b, hb, hsecond⟩ := h.2 j (Nat.lt_succ_self j) (i + 2 ^ j) (by omega)
  obtain ⟨k, hk, hmin⟩ := cmb_spec (by omega) (by omega) (by omega) hfirst hsecond
  refine ⟨k, ?_, ?_⟩
  · simp [newEntry, ha, hb, hk]
  · have hend : i + 2 ^ (j + 1) - 1 = i + 2 ^ j + 2 ^ j - 1 := by omega
    rwa [hend]

omit [LinearOrder T] in
theorem entry_append_of_lt (row : List Nat) (hj : j < q.jmp.length) :
    entry { q with jmp := q.jmp ++ [row] } j i = q.entry j i := by
  simp only [entry, List.getElem?_append_left hj]

/-- One turn of the loop. -/
theorem filled_append {row : List Nat} (h : q.Filled (j + 1))
    (hall : ∀ i < q.v.length - 2 ^ (j + 1) + 1, ∃ k, row[i]? = some k ∧
      LeftmostMin q.v i (i + 2 ^ (j + 1) - 1) k) (hmore : 2 ^ (j + 1) ≤ q.v.length) :
    Filled { q with jmp := q.jmp ++ [row] } (j + 2) := by
  obtain ⟨hrows, hold⟩ := h
  constructor
  · rw [List.length_append, hrows]
    rfl
  · intro d hd i hi
    rcases Nat.lt_succ_iff_lt_or_eq.mp hd with hlt | rfl
    · rw [entry_append_of_lt row (by rw [hrows]; exact hlt)]
      exact hold d hlt i hi
    · dsimp only at hi
      obtain ⟨k, hk, hmin⟩ := hall i (by omega)
      exact ⟨k, by simp [entry, ← hrows, hk], hmin⟩

/-- The loop goes on until no window of the next length fits. -/
theorem addRows_spec (q : RMQ T) (j : Nat) (h : q.Filled (j + 1)) :
    ∃ q', q.addRows (j + 1) = some q' ∧ q'.v = q.v ∧
      ∃ rows, q'.Filled rows ∧ ∀ d, 2 ^ d ≤ q.v.length → d < rows := by
  induction hmeasure : q.v.length - j using Nat.strong_induction_on generalizing q j with
  | h measure ih =>
      rw [addRows]
      split
      case isFalse hend =>
        refine ⟨q, rfl, rfl, j + 1, h, fun d hd => ?_⟩
        by_contra hge
        have hle : 2 ^ (j + 1) ≤ 2 ^ d :=
          Nat.pow_le_pow_right Nat.two_pos (Nat.le_of_not_lt hge)
        exact hend (le_trans hle hd)
      case isTrue hmore =>
        have hlt : j + 1 < 2 ^ (j + 1) := Nat.lt_two_pow_self
        obtain ⟨row, hrow, -, hall⟩ := mapM_range (q.v.length - 2 ^ (j + 1) + 1)
          fun i hi => newEntry_spec (i := i) h (by omega)
        rw [hrow]
        have hnext := filled_append h hall hmore
        have hless : q.v.length - (j + 1) < measure := by omega
        exact ih _ hless { q with jmp := q.jmp ++ [row] } (j + 1) hnext rfl

theorem filled_first (q : RMQ T) (v : List T) :
    Filled { q with v := v, jmp := [List.range v.length] } 1 := by
  constructor
  · rfl
  · intro j hj i hi
    obtain rfl : j = 0 := by omega
    have hlt : i < v.length := hi
    exact ⟨i, by simp [entry, hlt], LeftmostMin.single hlt⟩

theorem index_spec {rows : Nat} (h : q.Filled rows)
    (hrows : ∀ d, 2 ^ d ≤ q.v.length → d < rows) (hlr : l ≤ r) (hr : r < q.v.length) :
    ∃ i, q.index l r = some i ∧ LeftmostMin q.v l r i := by
  have hne : r - l + 1 ≠ 0 := Nat.succ_ne_zero _
  have hle : 2 ^ level (r - l + 1) ≤ r - l + 1 := Nat.log2_self_le hne
  have hlt : r - l + 1 < 2 ^ (level (r - l + 1) + 1) := Nat.lt_log2_self
  rw [pow_succ] at hlt
  rw [index, if_pos hlr]
  generalize level (r - l + 1) = d at hle hlt
  have hd := hrows d (by omega)
  obtain ⟨a, ha, hfirst⟩ := h.2 d hd l (by omega)
  obtain ⟨b, hb, hsecond⟩ := h.2 d hd (r + 1 - 2 ^ d) (by omega)
  have hend : r + 1 - 2 ^ d + 2 ^ d - 1 = r := by omega
  rw [hend] at hsecond
  obtain ⟨k, hk, hmin⟩ := cmb_spec (by omega) (by omega) (by omega) hfirst hsecond
  exact ⟨k, by simp [ha, hb, hk], hmin⟩

end Table

end RMQ

end MoreCpp
