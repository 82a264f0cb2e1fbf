import Mathlib.Data.Finset.Card
import Mathlib.Data.Finset.Range
import Mathlib.Data.Nat.Bitwise

/-!
Bit vectors as sets of numbers, and the enumeration of the subsets of such a set that goes
from `s` to `(s - 1) & x`.
-/

namespace MoreCpp.Library

variable {w : Nat} {x y s : BitVec w} {i : Nat}

/-- The positions of the bits that are set. -/
def bits (x : BitVec w) : Finset Nat := (Finset.range w).filter fun i => x.getLsbD i

def popcount (x : BitVec w) : Nat := (bits x).card

theorem mem_bits : i ∈ bits x ↔ x.getLsbD i = true := by
  rw [bits, Finset.mem_filter, Finset.mem_range]
  exact and_iff_right_of_imp BitVec.lt_of_getLsbD

theorem bits_subset_range (x : BitVec w) : bits x ⊆ Finset.range w := Finset.filter_subset ..

theorem bits_injective : (bits : BitVec w → Finset Nat).Injective := by
  intro x y h
  apply BitVec.eq_of_getLsbD_eq
  intro i _
  rw [Bool.eq_iff_iff, ← mem_bits, ← mem_bits, h]

@[simp] theorem bits_zero : bits 0#w = ∅ := by
  ext i
  simp [mem_bits]

@[simp] theorem bits_or : bits (x ||| y) = bits x ∪ bits y := by
  ext i
  simp [mem_bits]

@[simp] theorem bits_and : bits (x &&& y) = bits x ∩ bits y := by
  ext i
  simp [mem_bits]

@[simp] theorem bits_and_not : bits (x &&& ~~~y) = bits x \ bits y := by
  ext i
  have hlt : x.getLsbD i = true → i < w := BitVec.lt_of_getLsbD
  simp [mem_bits]
  tauto

theorem bits_one_shiftLeft (hi : i < w) : bits (1#w <<< i) = {i} := by
  ext j
  rw [mem_bits, Finset.mem_singleton, ← BitVec.twoPow_eq, BitVec.getLsbD_twoPow]
  simp [hi, eq_comm]

/-- Every set of positions is that of some bits. -/
theorem exists_bits {S : Finset Nat} (h : S ⊆ Finset.range w) : ∃ x : BitVec w, bits x = S := by
  induction S using Finset.induction_on with
  | empty => exact ⟨0#w, bits_zero⟩
  | insert i S _ ih =>
      obtain ⟨hi, hS⟩ := Finset.insert_subset_iff.mp h
      obtain ⟨x, hx⟩ := ih hS
      refine ⟨1#w <<< i ||| x, ?_⟩
      rw [bits_or, bits_one_shiftLeft (Finset.mem_range.mp hi), hx, Finset.insert_eq]

theorem bits_subset_iff : bits y ⊆ bits x ↔ y &&& x = y := by
  rw [← Finset.inter_eq_left, ← bits_and, bits_injective.eq_iff]

/-! ## Several words -/

/-- The bit at `i`, where each word has `w`; beyond the words there is none. -/
def bitAt (v : List (BitVec w)) (i : Nat) : Bool := (v.getD (i / w) 0#w).getLsbD (i % w)

variable {v : List (BitVec w)} {j : Nat}

theorem bitAt_replicate (m i : Nat) : bitAt (List.replicate m 0#w) i = false := by
  rw [bitAt, List.getD_eq_getElem?_getD, List.getElem?_replicate]
  split
  all_goals exact BitVec.getLsbD_zero

theorem bitAt_eq (hx : v[i / w]? = some x) : bitAt v i = x.getLsbD (i % w) := by
  rw [bitAt, List.getD_eq_getElem?_getD, hx, Option.getD_some]

/-- One word written over. -/
theorem bitAt_set {k : Nat} (hk : k < v.length) :
    bitAt (v.set k y) j = if j / w = k then y.getLsbD (j % w) else bitAt v j := by
  split
  case isTrue hsame =>
    subst hsame
    exact bitAt_eq (List.getElem?_set_self hk)
  case isFalse hne =>
    rw [bitAt, bitAt, List.getD_eq_getElem?_getD, List.getElem?_set_ne (Ne.symm hne),
      List.getD_eq_getElem?_getD]

theorem mod_eq_iff_of_div_eq (hdiv : j / w = i / w) : j % w = i % w ↔ j = i := by
  constructor
  · intro hmod
    rw [← Nat.div_add_mod j w, hdiv, hmod, Nat.div_add_mod]
  · rintro rfl
    rfl

section

variable (hw : 0 < w) (hx : v[i / w]? = some x)
include hw hx

theorem bitAt_insert : bitAt (v.set (i / w) (x ||| 1#w <<< (i % w))) j = true ↔
    j = i ∨ bitAt v j = true := by
  obtain ⟨hk, -⟩ := List.getElem?_eq_some_iff.mp hx
  rw [bitAt_set hk]
  split
  case isTrue hdiv =>
    rw [bitAt_eq (hdiv ▸ hx), ← mem_bits, bits_or, Finset.mem_union, mem_bits,
      bits_one_shiftLeft (Nat.mod_lt i hw), Finset.mem_singleton, mod_eq_iff_of_div_eq hdiv, or_comm]
  case isFalse hdiv =>
    refine (or_iff_right fun heq => hdiv ?_).symm
    rw [heq]

theorem bitAt_erase : bitAt (v.set (i / w) (x &&& ~~~(1#w <<< (i % w)))) j = true ↔
    j ≠ i ∧ bitAt v j = true := by
  obtain ⟨hk, -⟩ := List.getElem?_eq_some_iff.mp hx
  rw [bitAt_set hk]
  split
  case isTrue hdiv =>
    rw [bitAt_eq (hdiv ▸ hx), ← mem_bits, bits_and_not, Finset.mem_sdiff, mem_bits,
      bits_one_shiftLeft (Nat.mod_lt i hw), Finset.mem_singleton, mod_eq_iff_of_div_eq hdiv, and_comm]
  case isFalse hdiv =>
    refine (and_iff_right fun heq => hdiv ?_).symm
    rw [heq]

theorem bitAt_iff : x &&& 1#w <<< (i % w) ≠ 0#w ↔ bitAt v i = true := by
  rw [bitAt_eq hx, ← bits_injective.ne_iff, bits_and, bits_one_shiftLeft (Nat.mod_lt i hw),
    bits_zero, ← Finset.nonempty_iff_ne_empty, ← Finset.not_disjoint_iff_nonempty_inter,
    Finset.disjoint_singleton_right, not_not, mem_bits]

end

/-! ## Subsets -/

/-- On numbers: no subset of `x` lies between `s` and the next one. -/
theorem le_pred_land {x s y : Nat} (hs : s &&& x = s) (hy : y &&& x = y) (hlt : y < s) :
    y ≤ (s - 1) &&& x := by
  induction x using Nat.strong_induction_on generalizing s y with
  | h x ih =>
      have hs2 : s / 2 &&& x / 2 = s / 2 := by rw [← Nat.and_div_two, hs]
      have hy2 : y / 2 &&& x / 2 = y / 2 := by rw [← Nat.and_div_two, hy]
      have hlast : (s - 1 &&& x) / 2 = (s - 1) / 2 &&& x / 2 := Nat.and_div_two
      have hlast' : (s - 1 &&& x) % 2 = 1 ↔ (s - 1) % 2 = 1 ∧ x % 2 = 1 := Nat.and_mod_two_eq_one
      have hybit : y % 2 = 1 → x % 2 = 1 := fun h => by
        rw [← hy] at h
        exact (Nat.and_mod_two_eq_one.mp h).2
      have hsx : s ≤ x := by
        rw [← hs]
        exact Nat.and_le_right
      obtain heven | hodd := Nat.mod_two_eq_zero_or_one s
      · have hhalf : (s - 1) / 2 = s / 2 - 1 := by omega
        have hrest := ih (x / 2) (by omega) hs2 hy2 (by omega)
        rw [hhalf] at hlast
        omega
      · -- The lowest bit goes, and the rest of `s` stays.
        have hhalf : (s - 1) / 2 = s / 2 := by omega
        rw [hhalf, hs2] at hlast
        omega

theorem toNat_pred_land (hs : s ≠ 0#w) :
    ((s - 1#w) &&& x).toNat = (s.toNat - 1) &&& x.toNat := by
  have hpos : 0 < s.toNat := Nat.pos_of_ne_zero fun h => hs (BitVec.eq_of_toNat_eq h)
  have hone : (1#w).toNat = 1 := by
    rw [BitVec.toNat_ofNat, Nat.mod_eq_of_lt (by have := s.isLt; omega)]
  rw [BitVec.toNat_and, BitVec.toNat_sub_of_le (by rwa [BitVec.le_def, hone]), hone]

/-- The next subset is smaller, and every subset that is smaller than `s` is still to come. -/
theorem pred_land_spec (hs : bits s ⊆ bits x) (hne : s ≠ 0#w) :
    bits ((s - 1#w) &&& x) ⊆ bits x ∧ ((s - 1#w) &&& x).toNat < s.toNat ∧
      ∀ y : BitVec w, bits y ⊆ bits x → y.toNat < s.toNat → y.toNat ≤ ((s - 1#w) &&& x).toNat := by
  have hland : ∀ y : BitVec w, bits y ⊆ bits x → y.toNat &&& x.toNat = y.toNat := fun y hy => by
    rw [← BitVec.toNat_and, bits_subset_iff.mp hy]
  have hpos : 0 < s.toNat := Nat.pos_of_ne_zero fun h => hne (BitVec.eq_of_toNat_eq h)
  refine ⟨?_, ?_, fun y hy hlt => ?_⟩
  · rw [bits_and]
    exact Finset.inter_subset_right
  · rw [toNat_pred_land hne]
    exact Nat.and_le_left.trans_lt (by omega)
  · rw [toNat_pred_land hne]
    exact le_pred_land (hland s hs) (hland y hy) hlt

theorem pred_land_lt_iff {y : BitVec w} (hs : bits s ⊆ bits x) (hne : s ≠ 0#w)
    (hy : bits y ⊆ bits x) :
    ((s - 1#w) &&& x).toNat < y.toNat ↔ s.toNat < y.toNat ∨ y = s := by
  obtain ⟨-, hless, hbetween⟩ := pred_land_spec hs hne
  constructor
  · intro hlt
    obtain hbelow | heq | habove := lt_trichotomy y.toNat s.toNat
    · exact absurd (hbetween y hy hbelow) (not_le.mpr hlt)
    · exact .inr (BitVec.eq_of_toNat_eq heq)
    · exact .inl habove
  · rintro (habove | rfl)
    · exact hless.trans habove
    · exact hless

end MoreCpp.Library
