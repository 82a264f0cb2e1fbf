import Mathlib.Data.List.Palindrome
import Mathlib.Data.Nat.ModEq
import Mathlib.Order.Bounds.Basic
import Mathlib.Order.Lattice.Nat

/-!
Windows of a sequence: on a circle of slots, by moving the two ends, and from the middle.
-/

namespace MoreCpp.Library

/-! ## Circular windows

Positions on a circle of `cap` slots, counted from a head: below `cap` each
offset has a slot of its own, and each slot is met.
-/

section CircularWindow

/-- The slot at an offset from the head. -/
def windowSlot (cap head offset : Nat) : Nat := (head + offset) % cap

variable {cap head i j : Nat}

theorem windowSlot_lt (hcap : 0 < cap) : windowSlot cap head i < cap :=
  Nat.mod_lt _ hcap

theorem windowSlot_zero (hhead : head < cap) : windowSlot cap head 0 = head :=
  Nat.mod_eq_of_lt hhead

/-- Once around the circle. -/
theorem windowSlot_cap (hhead : head < cap) : windowSlot cap head cap = head := by
  rw [windowSlot, Nat.add_mod_right, Nat.mod_eq_of_lt hhead]

theorem windowSlot_succ : (windowSlot cap head i + 1) % cap = windowSlot cap head (i + 1) := by
  rw [windowSlot, windowSlot, Nat.mod_add_mod, Nat.add_assoc]

/-- From the next slot on, everything is one offset nearer. -/
theorem windowSlot_next : windowSlot cap ((head + 1) % cap) i = windowSlot cap head (i + 1) := by
  rw [windowSlot, windowSlot, Nat.mod_add_mod]
  congr 1
  omega

theorem windowSlot_inj (hi : i < cap) (hj : j < cap)
    (h : windowSlot cap head i = windowSlot cap head j) : i = j := by
  have hmod : i ≡ j [MOD cap] := Nat.ModEq.add_left_cancel' head h
  exact Nat.ModEq.eq_of_lt_of_lt hmod hi hj

theorem exists_windowSlot_eq (hhead : head < cap) (hj : j < cap) :
    ∃ i < cap, windowSlot cap head i = j := by
  by_cases hle : head ≤ j
  · refine ⟨j - head, by omega, ?_⟩
    rw [windowSlot, Nat.add_sub_cancel' hle, Nat.mod_eq_of_lt hj]
  · refine ⟨j + cap - head, by omega, ?_⟩
    have hsum : head + (j + cap - head) = j + cap := by omega
    rw [windowSlot, hsum, Nat.add_mod_right, Nat.mod_eq_of_lt hj]

end CircularWindow

/-! ## Sliding windows

The longest of the good windows of a sequence, by moving their ends. A window goes from a
position up to another one, and parts of good windows are good.
-/

section SlidingWindow

variable {Good : Nat → Nat → Prop} {l r m : Nat}

/-- The longest good window up to `r` begins at `l`. -/
structure Leftmost (Good : Nat → Nat → Prop) (r l : Nat) : Prop where
  le : l ≤ r
  good : Good l r
  least : ∀ k < l, ¬Good k r

/-- No good window up to `r + 1` begins before `l`. -/
structure Moving (Good : Nat → Nat → Prop) (r l : Nat) : Prop where
  le : l ≤ r
  good : Good l r
  least : ∀ k < l, ¬Good k (r + 1)

/-- The greatest length of the good windows up to `r`. -/
def Longest (Good : Nat → Nat → Prop) (r m : Nat) : Prop :=
  IsGreatest {k | ∃ i j, i ≤ j ∧ j ≤ r ∧ Good i j ∧ j - i = k} m

theorem Leftmost.zero (h : Good 0 0) : Leftmost Good 0 0 :=
  ⟨Nat.le_refl 0, h, fun k hk => absurd hk (Nat.not_lt_zero k)⟩

theorem Leftmost.moving (h : Leftmost Good r l) (hinit : ∀ i, Good i (r + 1) → Good i r) :
    Moving Good r l := ⟨h.le, h.good, fun k hk hgood => h.least k hk (hinit k hgood)⟩

/-- The left end moves while the window is not good. -/
theorem Moving.next (h : Moving Good r l) (hone : Good r (r + 1)) (hbad : ¬Good l (r + 1))
    (htail : l < r → Good l r → Good (l + 1) r) : Moving Good r (l + 1) := by
  have hne : l ≠ r := by
    rintro rfl
    exact hbad hone
  have hlt := Nat.lt_of_le_of_ne h.le hne
  refine ⟨hlt, htail hlt h.good, fun k hk => ?_⟩
  obtain hlt | rfl := Nat.lt_succ_iff_lt_or_eq.mp hk
  · exact h.least k hlt
  · exact hbad

theorem Moving.leftmost (h : Moving Good r l) (hgood : Good l (r + 1)) :
    Leftmost Good (r + 1) l := ⟨Nat.le_succ_of_le h.le, hgood, h.least⟩

theorem Longest.zero (h : Good 0 0) : Longest Good 0 0 := by
  refine ⟨⟨0, 0, Nat.le_refl 0, Nat.le_refl 0, h, rfl⟩, ?_⟩
  rintro _ ⟨i, j, -, hj, -, rfl⟩
  omega

theorem Longest.next (h : Longest Good r m) (hleft : Leftmost Good (r + 1) l) :
    Longest Good (r + 1) (max m (r + 1 - l)) := by
  constructor
  · obtain hle | hle := Nat.le_total m (r + 1 - l)
    · rw [Nat.max_eq_right hle]
      exact ⟨l, r + 1, hleft.le, Nat.le_refl _, hleft.good, rfl⟩
    · rw [Nat.max_eq_left hle]
      obtain ⟨i, j, hij, hj, hgood, hlength⟩ := h.1
      exact ⟨i, j, hij, Nat.le_succ_of_le hj, hgood, hlength⟩
  · rintro _ ⟨i, j, hij, hj, hgood, rfl⟩
    obtain hlt | rfl := Nat.lt_or_eq_of_le hj
    · have hle := h.2 ⟨i, j, hij, Nat.le_of_lt_succ hlt, hgood, rfl⟩
      exact hle.trans (Nat.le_max_left ..)
    · have hi : l ≤ i := Nat.not_lt.mp fun hlt => hleft.least i hlt hgood
      exact (Nat.sub_le_sub_left hi _).trans (Nat.le_max_right ..)

/-! ## Windows of a list -/

variable {α : Type*} {s t : List α} {c : α}

/-- The elements from `l` up to `r`. -/
def window (s : List α) (l r : Nat) : List α := (s.take r).drop l

theorem window_self (s : List α) (l : Nat) : window s l l = [] :=
  List.drop_eq_nil_of_le (List.length_take_le l s)

theorem window_concat (hlr : l ≤ r) (hc : s[r]? = some c) :
    window s l (r + 1) = window s l r ++ [c] := by
  obtain ⟨hr, rfl⟩ := List.getElem?_eq_some_iff.mp hc
  have hlength : l ≤ (s.take r).length := by
    rw [List.length_take]
    omega
  rw [window, List.take_succ_eq_append_getElem hr, List.drop_append_of_le_length hlength, window]

theorem window_cons (hlr : l < r) (hc : s[l]? = some c) :
    window s l r = c :: window s (l + 1) r := by
  obtain ⟨hl, rfl⟩ := List.getElem?_eq_some_iff.mp hc
  have hlength : l < (s.take r).length := by
    rw [List.length_take]
    omega
  rw [window, List.drop_eq_getElem_cons hlength, List.getElem_take, window]

theorem length_window (hr : r ≤ s.length) : (window s l r).length = r - l := by
  rw [window, List.length_drop, List.length_take, Nat.min_eq_left hr]

theorem window_eq_of_append (a t b : List α) :
    window (a ++ t ++ b) a.length (a.length + t.length) = t := by
  rw [window, ← List.length_append, List.take_left, List.drop_left]

/-- The windows of a list are the lists that stand in it without a gap. -/
theorem longest_window_iff {P : List α → Prop} :
    Longest (fun l r => P (window s l r)) s.length m ↔
      IsGreatest {k | ∃ t, t <:+: s ∧ P t ∧ t.length = k} m := by
  have hsame : {k | ∃ i j, i ≤ j ∧ j ≤ s.length ∧ P (window s i j) ∧ j - i = k} =
      {k | ∃ t, t <:+: s ∧ P t ∧ t.length = k} := by
    ext k
    constructor
    · rintro ⟨i, j, hij, hj, hp, rfl⟩
      have hinfix : window s i j <:+: s :=
        (List.drop_suffix i _).isInfix.trans (List.take_prefix j s).isInfix
      exact ⟨window s i j, hinfix, hp, length_window hj⟩
    · rintro ⟨t, ⟨a, b, rfl⟩, hp, rfl⟩
      refine ⟨a.length, a.length + t.length, Nat.le_add_right .., ?_, ?_, Nat.add_sub_cancel_left ..⟩
      · rw [List.length_append, List.length_append]
        exact Nat.le_add_right ..
      · rwa [window_eq_of_append]
  rw [Longest, hsame]

end SlidingWindow

/-! ## Palindromic windows

The palindromes among the windows of a list, and the leftmost of the longest windows that
a search has come upon.
-/

section PalindromicWindow

variable {α : Type*}

/-- The `len` elements from position `i` on are a palindrome. -/
structure Palindromic (s : List α) (i len : Nat) : Prop where
  inside : i + len ≤ s.length
  palindrome : ((s.drop i).take len).Palindrome

variable {s : List α} {i k len : Nat} {a b : α}

theorem palindrome_cons_concat_iff {l : List α} :
    (a :: (l ++ [b])).Palindrome ↔ a = b ∧ l.Palindrome := by
  constructor
  · intro h
    have hreverse := h.reverse_eq
    rw [List.reverse_cons, List.reverse_append, List.reverse_singleton, List.singleton_append,
      List.cons_append] at hreverse
    obtain ⟨rfl, hrest⟩ := List.cons.inj hreverse
    exact ⟨rfl, List.Palindrome.of_reverse_eq (List.append_inj' hrest rfl).1⟩
  · rintro ⟨rfl, hl⟩
    exact .cons_concat a hl

theorem palindromic_zero (hi : i ≤ s.length) : Palindromic s i 0 :=
  ⟨hi, by rw [List.take_zero]; exact .nil⟩

theorem palindromic_one (hi : i < s.length) : Palindromic s i 1 := by
  refine ⟨hi, ?_⟩
  rw [List.drop_eq_getElem_cons hi, List.take_succ_cons, List.take_zero]
  exact .singleton _

/-- A longer window has equal ends around a palindrome. -/
theorem palindromic_add_two (hinside : i + (len + 2) ≤ s.length) :
    Palindromic s i (len + 2) ↔ s[i]? = s[i + len + 1]? ∧ Palindromic s (i + 1) len := by
  have hi : i < s.length := by omega
  have hlast : i + len + 1 < s.length := by omega
  have hlast' : len < (s.drop (i + 1)).length := by
    rw [List.length_drop]
    omega
  have hend : (s.drop (i + 1))[len] = s[i + len + 1] := by
    rw [List.getElem_drop]
    congr 1
    omega
  have hwindow : (s.drop i).take (len + 2) =
      s[i] :: ((s.drop (i + 1)).take len ++ [s[i + len + 1]]) := by
    rw [List.drop_eq_getElem_cons hi, List.take_succ_cons,
      List.take_succ_eq_append_getElem hlast', hend]
  rw [List.getElem?_eq_getElem hi, List.getElem?_eq_getElem hlast, Option.some_inj]
  constructor
  · rintro ⟨-, h⟩
    rw [hwindow, palindrome_cons_concat_iff] at h
    exact ⟨h.1, by omega, h.2⟩
  · rintro ⟨hends, -, h⟩
    refine ⟨hinside, ?_⟩
    rw [hwindow, palindrome_cons_concat_iff]
    exact ⟨hends, h⟩

/-- What is left of a palindrome without as much at either end. -/
theorem Palindromic.inner (h : Palindromic s i (len + 2 * k)) : Palindromic s (i + k) len := by
  induction k generalizing i with
  | zero => exact h
  | succ k ih =>
      have hinside := h.inside
      have houter : i + (len + 2 * k + 2) ≤ s.length := by omega
      have hnext := ih ((palindromic_add_two houter).mp h).2
      rwa [Nat.add_right_comm] at hnext

/-! ## The leftmost longest -/

/-- A window no longer one has the property, and none of the same length to the left. -/
def LeftmostLongest (P : Nat → Nat → Prop) (i len : Nat) : Prop :=
  P i len ∧ ∀ i' len', P i' len' → len' < len ∨ len' = len ∧ i ≤ i'

variable {P seen seen' : Nat → Nat → Prop} {best : Nat × Nat}

/-- Two searches find the same. -/
theorem LeftmostLongest.unique {i' len' : Nat} (h : LeftmostLongest P i len)
    (h' : LeftmostLongest P i' len') : i = i' ∧ len = len' := by
  have hle := h.2 i' len' h'.1
  have hge := h'.2 i len h.1
  omega

/-- The leftmost longest of the windows seen so far. -/
def BestOf (P seen : Nat → Nat → Prop) (best : Nat × Nat) : Prop :=
  P best.1 best.2 ∧ ∀ i len, seen i len → P i len → len < best.2 ∨ len = best.2 ∧ best.1 ≤ i

namespace BestOf

theorem mono (h : BestOf P seen best) (hsub : ∀ i len, P i len → seen' i len → seen i len) :
    BestOf P seen' best :=
  ⟨h.1, fun i len hseen hp => h.2 i len (hsub i len hp hseen) hp⟩

/-- One more window with the property, to the right of the best one if it is as long. -/
theorem visit (h : BestOf P seen best) (hp : P i len) (htie : len = best.2 → best.1 ≤ i)
    (hsub : ∀ i' len', seen' i' len' → seen i' len' ∨ i' = i ∧ len' = len) :
    BestOf P seen' (if best.2 < len then (i, len) else best) := by
  split
  case isTrue hlonger =>
    refine ⟨hp, fun i' len' hseen hp' => ?_⟩
    rcases hsub i' len' hseen with hold | ⟨rfl, rfl⟩
    · have hbest := h.2 i' len' hold hp'
      dsimp only
      omega
    · exact .inr ⟨rfl, Nat.le_refl _⟩
  case isFalse hshorter =>
    refine ⟨h.1, fun i' len' hseen hp' => ?_⟩
    rcases hsub i' len' hseen with hold | ⟨rfl, rfl⟩
    · exact h.2 i' len' hold hp'
    · omega

theorem leftmostLongest (h : BestOf P seen best) (hall : ∀ i len, P i len → seen i len) :
    LeftmostLongest P best.1 best.2 :=
  ⟨h.1, fun i len hp => h.2 i len (hall i len hp) hp⟩

end BestOf

end PalindromicWindow

end MoreCpp.Library
