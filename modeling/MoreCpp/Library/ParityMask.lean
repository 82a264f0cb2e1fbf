import Mathlib.Algebra.Group.Nat.Even
import Mathlib.Algebra.Order.Group.Nat
import Mathlib.Algebra.Order.Ring.Canonical
import Mathlib.Data.List.Count
import Mathlib.Data.List.Palindrome
import Mathlib.Data.List.Perm.Basic
import Mathlib.Data.Nat.Bitwise

/-!
The lists that can be rearranged into palindromes, told by a number in which each bit is
the parity of how often an element occurs.
-/

namespace MoreCpp.Library

variable {α : Type*}

/-- The elements can be put in an order that is a palindrome. -/
def Rearrangeable (w : List α) : Prop := ∃ t : List α, t.Perm w ∧ t.Palindrome

section Count

variable [DecidableEq α] {w : List α} {a b : α}

theorem odd_count_palindrome (h : w.Palindrome) (ha : Odd (w.count a)) (hb : Odd (w.count b)) :
    a = b := by
  induction h with
  | nil => simp at ha
  | singleton x =>
      have heq : ∀ c, Odd ([x].count c) → x = c := by
        intro c hc
        by_contra hne
        simp [hne] at hc
      exact (heq a ha).symm.trans (heq b hb)
  | @cons_concat x l _ ih =>
      have hparity : ∀ c, Odd ((x :: (l ++ [x])).count c) → Odd (l.count c) := by
        intro c hc
        rw [List.count_cons, List.count_append, List.count_singleton] at hc
        rcases eq_or_ne x c with rfl | hne
        · simp only [beq_self_eq_true, if_true] at hc
          rw [Nat.odd_iff] at hc ⊢
          omega
        · simpa [hne] using hc
      exact ih (hparity a ha) (hparity b hb)

/-- An element that occurs twice can stand at both ends. -/
theorem rearrangeable_of_pair (hpair : 2 ≤ w.count a)
    (hrest : Rearrangeable ((w.erase a).erase a)) : Rearrangeable w := by
  obtain ⟨t, hperm, ht⟩ := hrest
  have hmem : a ∈ w := List.count_pos_iff.mp (by omega)
  have hmem' : a ∈ w.erase a := by
    apply List.count_pos_iff.mp
    rw [List.count_erase_self]
    omega
  have hends : (a :: (t ++ [a])).Perm (a :: a :: t) := (List.perm_append_singleton a t).cons a
  have hinner : (a :: a :: t).Perm (a :: w.erase a) :=
    ((hperm.cons a).trans (List.perm_cons_erase hmem').symm).cons a
  exact ⟨a :: (t ++ [a]), (hends.trans hinner).trans (List.perm_cons_erase hmem).symm,
    .cons_concat a ht⟩

/-- At most one element occurs an odd number of times. -/
theorem rearrangeable_iff : Rearrangeable w ↔
    ∀ a b, Odd (w.count a) → Odd (w.count b) → a = b := by
  constructor
  · rintro ⟨t, hperm, ht⟩ a b ha hb
    rw [← hperm.count_eq] at ha hb
    exact odd_count_palindrome ht ha hb
  · intro h
    induction hlength : w.length using Nat.strong_induction_on generalizing w with
    | h n ih =>
        by_cases hpair : ∃ a, 2 ≤ w.count a
        · obtain ⟨a, ha⟩ := hpair
          apply rearrangeable_of_pair ha
          have hcount : ∀ c, Odd (((w.erase a).erase a).count c) → Odd (w.count c) := by
            intro c hc
            rcases eq_or_ne c a with rfl | hne
            · rw [List.count_erase_self, List.count_erase_self] at hc
              rw [Nat.odd_iff] at hc ⊢
              omega
            · rwa [List.count_erase_of_ne hne, List.count_erase_of_ne hne] at hc
          have hshorter : ((w.erase a).erase a).length < n := by
            have hmem : a ∈ w := List.count_pos_iff.mp (by omega)
            have hle : ((w.erase a).erase a).length ≤ (w.erase a).length :=
              List.erase_sublist.length_le
            have hless := List.length_erase_of_mem hmem
            have hpos := List.length_pos_of_mem hmem
            omega
          exact ih _ hshorter (fun c d hc hd => h c d (hcount c hc) (hcount d hd)) rfl
        · -- every element occurs once, so there is at most one
          push Not at hpair
          have hone : ∀ a ∈ w, Odd (w.count a) := by
            intro a ha
            have hpos := List.count_pos_iff.mpr ha
            have hless := hpair a
            have heq : w.count a = 1 := by omega
            rw [heq]
            exact odd_one
          match w, h, hone, hpair with
          | [], _, _, _ => exact ⟨[], .refl _, .nil⟩
          | [a], _, _, _ => exact ⟨[a], .refl _, .singleton a⟩
          | a :: b :: l, h, hone, hpair =>
              obtain rfl := h a b (hone a (by simp)) (hone b (by simp))
              have hless := hpair a
              rw [List.count_cons_self, List.count_cons_self] at hless
              omega

end Count

/-! ## Masks -/

section Mask

variable (code : α → Nat)

/-- Bit `j` says whether the elements with code `j` occur an odd number of times. -/
def parityMask (w : List α) : Nat := w.foldl (fun m a => m ^^^ (1 <<< code a)) 0

variable {code} {u v w : List α} {a : α} {j : Nat}

@[simp] theorem parityMask_nil : parityMask code [] = 0 := rfl

theorem parityMask_concat :
    parityMask code (w ++ [a]) = parityMask code w ^^^ (1 <<< code a) := by
  simp [parityMask]

theorem parityMask_append :
    parityMask code (u ++ v) = parityMask code u ^^^ parityMask code v := by
  induction v using List.reverseRecOn with
  | nil => simp
  | append_singleton v a ih =>
      rw [← List.append_assoc, parityMask_concat, parityMask_concat, ih, Nat.xor_assoc]

theorem testBit_parityMask : (parityMask code w).testBit j =
    decide (Odd (w.countP fun a => code a = j)) := by
  induction w using List.reverseRecOn with
  | nil => simp
  | append_singleton w a ih =>
      rw [parityMask_concat, Nat.testBit_xor, ih, Nat.one_shiftLeft, Nat.testBit_two_pow,
        List.countP_append, List.countP_singleton]
      by_cases hj : code a = j
      · simp [hj, Nat.odd_add_one, -Nat.not_odd_iff_even]
      · simp [hj]

section Injective

variable [DecidableEq α] (hcode : ∀ a ∈ w, ∀ b ∈ w, code a = code b → a = b)

include hcode

theorem odd_count_iff (ha : a ∈ w) :
    Odd (w.count a) ↔ (parityMask code w).testBit (code a) = true := by
  have hsame : w.countP (fun b => code b = code a) = w.count a := by
    rw [List.count]
    apply List.countP_congr
    intro b hb
    rw [decide_eq_true_iff, beq_iff_eq]
    exact ⟨hcode b hb a ha, congrArg code⟩
  rw [testBit_parityMask, decide_eq_true_iff, hsame]

theorem exists_of_testBit (hj : (parityMask code w).testBit j = true) :
    ∃ a ∈ w, code a = j ∧ Odd (w.count a) := by
  have hodd := hj
  rw [testBit_parityMask, decide_eq_true_iff] at hodd
  obtain ⟨a, ha, heq⟩ := List.countP_pos_iff.mp hodd.pos
  obtain rfl := of_decide_eq_true heq
  exact ⟨a, ha, rfl, (odd_count_iff hcode ha).mpr hj⟩

/-- The masks of the lists that can be rearranged have at most one bit. -/
theorem rearrangeable_iff_parityMask {n : Nat} (hbound : ∀ a ∈ w, code a < n) :
    Rearrangeable w ↔ parityMask code w = 0 ∨ ∃ j < n, parityMask code w = 1 <<< j := by
  rw [rearrangeable_iff]
  constructor
  · intro honly
    by_cases hodd : ∃ a ∈ w, Odd (w.count a)
    · obtain ⟨a, ha, hodd⟩ := hodd
      refine .inr ⟨code a, hbound a ha, Nat.eq_of_testBit_eq fun j => ?_⟩
      rw [Nat.one_shiftLeft, Nat.testBit_two_pow, Bool.eq_iff_iff, decide_eq_true_iff]
      constructor
      · intro hj
        obtain ⟨b, -, rfl, hodd'⟩ := exists_of_testBit hcode hj
        rw [honly a b hodd hodd']
      · rintro rfl
        exact (odd_count_iff hcode ha).mp hodd
    · refine .inl (Nat.eq_of_testBit_eq fun j => ?_)
      rw [Nat.zero_testBit, Bool.eq_false_iff]
      intro hj
      obtain ⟨a, ha, -, hodd'⟩ := exists_of_testBit hcode hj
      exact hodd ⟨a, ha, hodd'⟩
  · intro hmask a b hodd hodd'
    have ha : a ∈ w := List.count_pos_iff.mp hodd.pos
    have hb : b ∈ w := List.count_pos_iff.mp hodd'.pos
    have hbit := (odd_count_iff hcode ha).mp hodd
    have hbit' := (odd_count_iff hcode hb).mp hodd'
    rcases hmask with hzero | ⟨j, -, hone⟩
    · rw [hzero, Nat.zero_testBit] at hbit
      cases hbit
    · rw [hone, Nat.one_shiftLeft, Nat.testBit_two_pow, decide_eq_true_iff] at hbit hbit'
      exact hcode a ha b hb (hbit.symm.trans hbit')

/-- A window can be rearranged where the masks before and after it differ in one bit at most. -/
theorem rearrangeable_window_iff {k e n : Nat} (hk : k ≤ e) (hbound : ∀ a ∈ w, code a < n) :
    Rearrangeable ((w.take e).drop k) ↔
      parityMask code (w.take k) = parityMask code (w.take e) ∨
      ∃ j < n, parityMask code (w.take k) = parityMask code (w.take e) ^^^ (1 <<< j) := by
  have hmem : ∀ a ∈ (w.take e).drop k, a ∈ w := fun a ha =>
    List.mem_of_mem_take (List.mem_of_mem_drop ha)
  have hsplit : parityMask code (w.take e) =
      parityMask code (w.take k) ^^^ parityMask code ((w.take e).drop k) := by
    conv_lhs => rw [← List.take_append_drop k (w.take e)]
    rw [parityMask_append, List.take_take, Nat.min_eq_left hk]
  have hcancel : ∀ p q m : Nat, p = p ^^^ q ^^^ m ↔ q = m := by
    intro p q m
    constructor
    · intro heq
      have hzero : q ^^^ m = 0 := by
        rw [← Nat.xor_xor_cancel_left p (q ^^^ m), ← Nat.xor_assoc p q m, ← heq, Nat.xor_self]
      exact Nat.xor_eq_zero_iff.mp hzero
    · rintro rfl
      rw [Nat.xor_xor_cancel_right]
  rw [rearrangeable_iff_parityMask (fun a ha b hb => hcode a (hmem a ha) b (hmem b hb))
    fun a ha => hbound a (hmem a ha), hsplit]
  apply or_congr
  case h₁ =>
    rw [← hcancel (parityMask code (w.take k)) _ 0, Nat.xor_zero]
  case h₂ =>
    simp only [hcancel]

end Injective

end Mask

end MoreCpp.Library
