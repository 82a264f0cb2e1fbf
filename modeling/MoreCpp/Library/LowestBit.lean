import Mathlib.Algebra.Order.Ring.Int
import Mathlib.Data.Int.Bitwise
import Mathlib.Data.Nat.Factorization.Basic
import Mathlib.Tactic.Positivity
import Mathlib.Tactic.Ring

/-!
The lowest set bit of a number, as `k & -k` takes it, and the nodes of a Fenwick tree:
node `k` stands for as many positions as that bit says, up to `k`.
-/

namespace MoreCpp.Library

variable {k p : Int} {t : Nat}

/-- The lowest set bit of `k` is `2 ^ t`. -/
def LowBit (k : Int) (t : Nat) : Prop := ∃ q : Int, k = 2 ^ t * (2 * q + 1)

theorem exists_lowBit (hk : 0 < k) : ∃ t, LowBit k t := by
  obtain ⟨t, m, ⟨q, hq⟩, hm⟩ := Nat.exists_eq_two_pow_mul_odd (n := k.toNat) (by omega)
  refine ⟨t, q, ?_⟩
  calc k = (k.toNat : Int) := by omega
    _ = 2 ^ t * (2 * q + 1) := by rw [hm, hq]; push_cast; rfl

/-- Below the lowest set bit `k - 1` has ones, and above it the bits of `k`. -/
theorem land_neg (h : LowBit k t) (hk : 0 < k) : Int.land k (-k) = 2 ^ t := by
  obtain ⟨q, rfl⟩ := h
  have hpos : 0 < 2 ^ t := Nat.two_pow_pos t
  have hq : 0 < 2 * q + 1 := pos_of_mul_pos_right hk (by positivity)
  lift q to Nat using by omega
  have hpred : -((2 : Int) ^ t * (2 * q + 1)) = Int.negSucc (2 ^ (t + 1) * q + (2 ^ t - 1)) := by
    rw [Int.negSucc_eq]
    push_cast [Nat.one_le_two_pow]
    ring
  have hself : (2 : Int) ^ t * (2 * q + 1) = ((2 ^ (t + 1) * q + 2 ^ t : Nat) : Int) := by
    push_cast
    ring
  have hbits : Nat.ldiff (2 ^ (t + 1) * q + 2 ^ t) (2 ^ (t + 1) * q + (2 ^ t - 1)) = 2 ^ t := by
    have hlt : 2 ^ t < 2 ^ (t + 1) := Nat.pow_lt_pow_succ (by decide)
    apply Nat.eq_of_testBit_eq
    intro i
    rw [Nat.testBit_ldiff, Nat.testBit_two_pow_mul_add _ hlt,
      Nat.testBit_two_pow_mul_add _ (by omega)]
    split
    case isTrue hi =>
      rw [Nat.testBit_two_pow, Nat.testBit_two_pow_sub_one]
      obtain rfl | hne := eq_or_ne t i
      · simp
      · simp [hne]
    case isFalse hi =>
      rw [Bool.and_not_self, Nat.testBit_two_pow_of_ne (by omega)]
  rw [hpred, hself]
  exact congrArg Int.ofNat hbits

theorem LowBit.dvd (h : LowBit k t) : 2 ^ t ∣ k := by
  obtain ⟨q, rfl⟩ := h
  exact Dvd.intro _ rfl

theorem LowBit.dvd_add (h : LowBit k t) : 2 ^ (t + 1) ∣ k + 2 ^ t := by
  obtain ⟨q, rfl⟩ := h
  exact ⟨q + 1, by ring⟩

theorem LowBit.dvd_sub (h : LowBit k t) : 2 ^ (t + 1) ∣ k - 2 ^ t := by
  obtain ⟨q, rfl⟩ := h
  exact ⟨q, by ring⟩

theorem LowBit.le (h : LowBit k t) (hk : 0 < k) : (2 : Int) ^ t ≤ k := Int.le_of_dvd hk h.dvd

/-! ## Fenwick trees -/

/-- Node `k` counts position `p`. -/
def Covers (k p : Int) : Prop := k - Int.land k (-k) < p ∧ p ≤ k

instance : DecidablePred (Covers k) := fun _ => inferInstanceAs (Decidable (_ ∧ _))

theorem LowBit.covers (h : LowBit k t) (hk : 0 < k) : Covers k p ↔ k - 2 ^ t < p ∧ p ≤ k := by
  rw [Covers, land_neg h hk]

theorem covers_self (hk : 0 < k) : Covers k k := by
  obtain ⟨t, ht⟩ := exists_lowBit hk
  have hpos : (0 : Int) < 2 ^ t := by positivity
  rw [ht.covers hk]
  omega

/-- The other nodes that count a position are those that count the next node. -/
theorem covers_iff (hk : 0 < k) (hp : 0 < p) :
    Covers k p ↔ k = p ∨ Covers k (p + Int.land p (-p)) := by
  obtain ⟨t, ht⟩ := exists_lowBit hk
  obtain ⟨u, hu⟩ := exists_lowBit hp
  have htpos : (0 : Int) < 2 ^ t := by positivity
  have hupos : (0 : Int) < 2 ^ u := by positivity
  rw [land_neg hu hp, ht.covers hk, ht.covers hk]
  constructor
  · rintro ⟨hlow, hle⟩
    obtain rfl | hlt := eq_or_lt_of_le hle
    · exact .inl rfl
    have hut : u < t := by
      by_contra htu
      have hdvd : (2 : Int) ^ t ∣ k - p :=
        ht.dvd.sub ((pow_dvd_pow 2 (not_lt.mp htu)).trans hu.dvd)
      have hbig := Int.le_of_dvd (by omega) hdvd
      omega
    have hdvd : (2 : Int) ^ u ∣ k - p := ((pow_dvd_pow 2 hut.le).trans ht.dvd).sub hu.dvd
    have hbig := Int.le_of_dvd (by omega) hdvd
    exact .inr (by omega)
  · rintro (rfl | ⟨hlow, hle⟩)
    · omega
    -- Both are multiples of twice the smaller bit, so they are at least that far apart.
    obtain hut | htu := le_or_gt u t
    · have hdvd : (2 : Int) ^ (u + 1) ∣ p + 2 ^ u - (k - 2 ^ t) :=
        hu.dvd_add.sub ((pow_dvd_pow 2 (Nat.succ_le_succ hut)).trans ht.dvd_sub)
      have hbig := Int.le_of_dvd (by omega) hdvd
      rw [pow_succ] at hbig
      omega
    · have hdvd : (2 : Int) ^ (t + 1) ∣ p + 2 ^ u - (k - 2 ^ t) :=
        ((pow_dvd_pow 2 htu).trans (hu.dvd.add (dvd_refl _))).sub ht.dvd_sub
      have hbig := Int.le_of_dvd (by omega) hdvd
      rw [pow_succ] at hbig
      omega

/-- How many of the positions that were counted belong to node `k`. -/
def nodeCount (made : List Int) (k : Int) : Int := made.countP (Covers k ·)

/-- How many of them are from 1 to `k`. -/
def prefixCount (made : List Int) (k : Int) : Int := made.countP fun p => 1 ≤ p ∧ p ≤ k

variable {made : List Int}

theorem nodeCount_cons :
    nodeCount (p :: made) k = nodeCount made k + if Covers k p then 1 else 0 := by
  rw [nodeCount, nodeCount, List.countP_cons]
  by_cases hcovers : Covers k p
  · simp [hcovers]
  · simp [hcovers]

theorem nodeCount_nonneg (made : List Int) (k : Int) : 0 ≤ nodeCount made k := Int.natCast_nonneg _

theorem nodeCount_le_length (made : List Int) (k : Int) : nodeCount made k ≤ made.length :=
  Int.ofNat_le.mpr List.countP_le_length

theorem prefixCount_nonneg (made : List Int) (k : Int) : 0 ≤ prefixCount made k := Int.natCast_nonneg _

theorem prefixCount_le_length (made : List Int) (k : Int) :
    prefixCount made k ≤ made.length :=
  Int.ofNat_le.mpr List.countP_le_length

theorem prefixCount_of_nonpos (hk : k ≤ 0) : prefixCount made k = 0 := by
  rw [prefixCount, Int.natCast_eq_zero, List.countP_eq_zero]
  intro p _
  rw [decide_eq_true_eq]
  omega

/-- Without its node a prefix is a shorter one. -/
theorem prefixCount_eq (hk : 0 < k) :
    prefixCount made k = nodeCount made k + prefixCount made (k - Int.land k (-k)) := by
  obtain ⟨t, ht⟩ := exists_lowBit hk
  have hle := ht.le hk
  have htpos : (0 : Int) < 2 ^ t := by positivity
  unfold prefixCount nodeCount
  induction made with
  | nil => rfl
  | cons p made ih =>
      rw [List.countP_cons, List.countP_cons, List.countP_cons]
      simp only [decide_eq_true_eq, ht.covers hk, land_neg ht hk] at ih ⊢
      split_ifs <;> omega

end MoreCpp.Library
