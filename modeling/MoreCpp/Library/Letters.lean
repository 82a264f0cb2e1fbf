import Mathlib.Data.List.Basic

/-!
The lowercase letters and their places in the alphabet.
-/

namespace MoreCpp.Library

/-- `c - 'a'`. -/
def letter (c : Char) : Int := (c.toNat : Int) - ('a'.toNat : Int)

def letterIndex (c : Char) : Nat := (letter c).toNat

variable {a c : Char}

theorem letter_bounds (h : c.isLower) : 0 ≤ letter c ∧ letter c < 26 := by
  have hbounds : 97 ≤ c.toNat ∧ c.toNat ≤ 122 := by
    obtain ⟨hlow, hhigh⟩ := Bool.and_eq_true_iff.mp h
    exact ⟨UInt32.le_iff_toNat_le.mp (of_decide_eq_true hlow),
      UInt32.le_iff_toNat_le.mp (of_decide_eq_true hhigh)⟩
  have hfirst : 'a'.toNat = 97 := rfl
  unfold letter
  omega

theorem letter_eq_letterIndex (h : c.isLower) : letter c = (letterIndex c : Int) :=
  (Int.toNat_of_nonneg (letter_bounds h).1).symm

theorem letterIndex_lt (h : c.isLower) : letterIndex c < 26 := by
  have hbounds := letter_bounds h
  have heq := letter_eq_letterIndex h
  omega

theorem letterIndex_inj (ha : a.isLower) (hc : c.isLower) (heq : letterIndex a = letterIndex c) :
    a = c := by
  have hsame : letter a = letter c := by
    rw [letter_eq_letterIndex ha, letter_eq_letterIndex hc, heq]
  apply Char.toNat_inj.mp
  unfold letter at hsame
  omega

end MoreCpp.Library
