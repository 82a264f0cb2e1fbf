import MoreCpp.Library.Cells
import MoreCpp.Library.Loop
import MoreCpp.Library.SignedInt
import Mathlib.Order.Bounds.Basic

/-!
`min_operations_reach_k` of `algorithms/dp/dp.cpp`. `none` is an `int` that overflows or an
index out of range.
-/

namespace MoreCpp

open Library

namespace MinOperations

/-- A turn of the loop. -/
def turn (i : Nat) (dp : List Nat) : Option (List Nat) := do
  let a ← dp[i - 1]?
  let a ← signedNat 32 (a + 1)
  let dp ← store dp i a
  if i % 2 = 0 then
    let a ← dp[i]?
    let b ← dp[i / 2]?
    let b ← signedNat 32 (b + 1)
    store dp i (min a b)
  else return dp

def minOperationsReachK (k : Nat) : Option Nat := do
  let size ← signedNat 32 (k + 1)
  let dp ← forRange 1 (k + 1) turn (List.replicate size 0)
  dp[k]?

inductive Step where
  | increment
  | double
deriving DecidableEq

def Step.apply (x : Nat) : Step → Nat
  | increment => x + 1
  | double => 2 * x

/-- What a sequence of steps makes of 0. -/
def reached (steps : List Step) : Nat := steps.foldl Step.apply 0

/-- The length of a shortest sequence that leads to `k`. -/
def Shortest (k m : Nat) : Prop :=
  IsLeast {m | ∃ steps : List Step, reached steps = k ∧ steps.length = m} m

variable {i k a b : Nat} {dp : List Nat}

/-! ## The last step -/

theorem reached_concat (steps : List Step) (step : Step) :
    reached (steps ++ [step]) = step.apply (reached steps) := List.foldl_concat ..

theorem Shortest.le (h : Shortest k a) {steps : List Step} (hk : reached steps = k) :
    a ≤ steps.length := h.2 ⟨steps, hk, rfl⟩

theorem shortest_zero : Shortest 0 0 := ⟨⟨[], rfl, rfl⟩, fun _ _ => Nat.zero_le _⟩

/-- One step more than the best of the numbers from which one step leads to this one. -/
theorem shortest_succ (ha : Shortest i a) (hb : ∀ h, 2 * h = i + 1 → Shortest h b) :
    Shortest (i + 1) (if (i + 1) % 2 = 0 then min (a + 1) (b + 1) else a + 1) := by
  constructor
  · obtain ⟨steps, hi, rfl⟩ := ha.1
    have hincrement : ∃ steps', reached steps' = i + 1 ∧ steps'.length = steps.length + 1 :=
      ⟨steps ++ [.increment], by rw [reached_concat, hi]; rfl, List.length_append⟩
    split
    case isTrue heven =>
      obtain ⟨half, hhalf⟩ := Nat.dvd_of_mod_eq_zero heven
      obtain ⟨steps', hh, rfl⟩ := (hb half hhalf.symm).1
      have hdouble : ∃ steps'', reached steps'' = i + 1 ∧ steps''.length = steps'.length + 1 :=
        ⟨steps' ++ [.double], by rw [reached_concat, hh, hhalf]; rfl, List.length_append⟩
      obtain hle | hle := Nat.le_total (steps.length + 1) (steps'.length + 1)
      · rwa [Nat.min_eq_left hle]
      · rwa [Nat.min_eq_right hle]
    case isFalse => exact hincrement
  · rintro m ⟨steps, hk, rfl⟩
    obtain rfl | ⟨before, step, rfl⟩ := steps.eq_nil_or_concat'
    · cases hk
    · rw [reached_concat] at hk
      rw [List.length_append, List.length_singleton]
      cases step with
      | increment =>
          have hle := ha.le (Nat.succ.inj hk)
          split <;> omega
      | double =>
          have hle := (hb _ hk).le rfl
          have heven : (i + 1) % 2 = 0 := by
            rw [← hk]
            exact Nat.mul_mod_right 2 _
          rw [if_pos heven]
          omega

theorem Shortest.le_self (h : Shortest k a) : a ≤ k := by
  have hcount : reached (List.replicate k .increment) = k := by
    clear h
    induction k with
    | zero => rfl
    | succ k ih => rw [List.replicate_succ', reached_concat, ih]; rfl
  simpa using h.le hcount

/-! ## The table -/

theorem turn_spec (hi : i < k) (hk : k + 1 < 2 ^ 31)
    (h : Each dp (k + 1) fun j a => j ≤ i → Shortest j a) :
    ∃ dp', turn (i + 1) dp = some dp' ∧
      Each dp' (k + 1) fun j a => j ≤ i + 1 → Shortest j a := by
  obtain ⟨a, ha, hbest⟩ := h.read i (by omega)
  have hbest := hbest (Nat.le_refl i)
  have hle := hbest.le_self
  obtain ⟨dp', hstore, h'⟩ := h.update (a := a + 1)
    (Q := fun j c => (j ≤ i → Shortest j c) ∧ (j = i + 1 → c = a + 1)) (by omega : i + 1 < k + 1)
    ⟨fun hj => absurd hj (by omega), fun _ => rfl⟩
    fun j c _ hne hc => ⟨hc, fun heq => absurd heq hne⟩
  have hfits : signedNat 32 (a + 1) = some (a + 1) := signedNat_eq (by omega)
  unfold turn
  simp only [Nat.add_sub_cancel, ha, hfits, hstore, Option.bind_eq_bind, Option.bind_some]
  split
  case isTrue heven =>
    obtain ⟨b, hb, hhalf, -⟩ := h'.read ((i + 1) / 2) (by omega)
    obtain ⟨c, hc, -, hsame⟩ := h'.read (i + 1) (by omega)
    obtain rfl := hsame rfl
    have hhalf := hhalf (by omega)
    have hle' := hhalf.le_self
    have hnext : Shortest (i + 1) (min (a + 1) (b + 1)) := by
      have hsucc := shortest_succ hbest (b := b) fun half heq => by
        have hdiv : (i + 1) / 2 = half := by omega
        exact hdiv ▸ hhalf
      rwa [if_pos heven] at hsucc
    obtain ⟨dp'', hstore', h''⟩ := h'.update (a := min (a + 1) (b + 1))
      (Q := fun j c => j ≤ i + 1 → Shortest j c) (by omega : i + 1 < k + 1) (fun _ => hnext)
      fun j c _ hne hc hj => hc.1 (by omega)
    refine ⟨dp'', ?_, h''⟩
    have hfits' : signedNat 32 (b + 1) = some (b + 1) := signedNat_eq (by omega)
    simp only [hc, hb, hfits', Option.bind_some, hstore']
  case isFalse hodd =>
    refine ⟨dp', rfl, h'.mono fun j c _ hc hj => ?_⟩
    obtain hlt | rfl := Nat.lt_or_eq_of_le hj
    · exact hc.1 (Nat.le_of_lt_succ hlt)
    · have hnext := shortest_succ hbest (b := 0) fun half heq => absurd heq (by omega)
      rw [if_neg hodd] at hnext
      rwa [hc.2 rfl]

/-- The length of a shortest sequence of steps `x -> x + 1` and `x -> 2 * x` from 0 to `k`. -/
theorem minOperationsReachK_eq (k : Nat) (hk : k + 1 < 2 ^ 31) :
    ∃ m, minOperationsReachK k = some m ∧
      IsLeast {m | ∃ steps : List Step, reached steps = k ∧ steps.length = m} m := by
  have hstart : Each (List.replicate (k + 1) 0) (k + 1) fun j a => j ≤ 1 - 1 → Shortest j a :=
    Each.replicate fun j _ hj => by
      obtain rfl : j = 0 := Nat.le_zero.mp hj
      exact shortest_zero
  obtain ⟨dp, hrun, hdp⟩ := forRange_rule
    (fun i dp => Each dp (k + 1) fun j a => j ≤ i - 1 → Shortest j a) hstart
    fun i dp hi hik h => by
      obtain ⟨i, rfl⟩ := Nat.exists_eq_add_of_le' hi
      rw [Nat.add_sub_cancel] at h ⊢
      exact turn_spec (Nat.lt_of_succ_lt_succ hik) hk h
  obtain ⟨m, hm, hbest⟩ := hdp.read k (Nat.lt_succ_self k)
  refine ⟨m, ?_, hbest (by omega)⟩
  rw [minOperationsReachK, signedNat_eq hk, Option.bind_eq_bind, Option.bind_some, hrun]
  exact hm

theorem minOperationsReachK_eq_twelve : ∃ m, minOperationsReachK 12 = some m ∧
    IsLeast {m | ∃ steps : List Step, reached steps = 12 ∧ steps.length = m} m :=
  minOperationsReachK_eq 12 (by decide)

/-- The size of the table is an `int`. -/
theorem minOperationsReachK_overflow : minOperationsReachK (2 ^ 31 - 1) = none := by
  rw [minOperationsReachK, signedNat_eq_none (by decide)]
  rfl

end MinOperations

end MoreCpp
