import Mathlib.Algebra.Ring.Int.Defs
import Mathlib.Algebra.Ring.Nat

/-!
Signed arithmetic in a number of bits, where overflow gives no result.
-/

namespace MoreCpp.Library

variable {bits : Nat} {a b : Int}

/-- A result of arithmetic in so many bits. -/
def signed (bits : Nat) (a : Int) : Option Int :=
  if -2 ^ (bits - 1) ≤ a ∧ a < 2 ^ (bits - 1) then some a else none

theorem signed_eq (hlow : -2 ^ (bits - 1) ≤ a) (hhigh : a < 2 ^ (bits - 1)) :
    signed bits a = some a := if_pos ⟨hlow, hhigh⟩

theorem of_signed (h : signed bits a = some b) : b = a ∧ b < 2 ^ (bits - 1) := by
  unfold signed at h
  split at h
  case isTrue hfits =>
    rw [Option.some_inj] at h
    rw [← h]
    exact ⟨rfl, hfits.2⟩
  case isFalse => cases h

/-- A result that is not negative. -/
def signedNat (bits a : Nat) : Option Nat := if a < 2 ^ (bits - 1) then some a else none

section

variable {a b : Nat}

theorem signedNat_eq (h : a < 2 ^ (bits - 1)) : signedNat bits a = some a := if_pos h

theorem signedNat_eq_none (h : 2 ^ (bits - 1) ≤ a) : signedNat bits a = none :=
  if_neg (Nat.not_lt.mpr h)

theorem of_signedNat (h : signedNat bits a = some b) : b = a ∧ a < 2 ^ (bits - 1) := by
  unfold signedNat at h
  split at h
  case isTrue hfits => exact ⟨(Option.some.inj h).symm, hfits⟩
  case isFalse => cases h

end

/-- A length that fits in an `int` is the same there. -/
theorem natCast_bmod {count : Nat} (hcount : count < 2 ^ 31) :
    (count : Int).bmod (2 ^ 32) = count := by
  apply Int.bmod_eq_of_le <;> omega

theorem natCast_bmod_le (count m : Nat) : (count : Int).bmod m ≤ count := by
  have hmod : (count : Int) % m ≤ count := by
    rw [← Int.natCast_mod]
    exact Int.ofNat_le.mpr (Nat.mod_le count m)
  rw [Int.bmod_def]
  split
  · exact hmod
  · exact Int.le_trans (Int.sub_le_self _ (Int.natCast_nonneg m)) hmod

end MoreCpp.Library
