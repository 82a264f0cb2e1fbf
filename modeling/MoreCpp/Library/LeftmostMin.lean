import Mathlib.Order.Lattice

/-!
The leftmost position of the minimum of a window of a list, and how it comes from two
windows that cover the window.
-/

namespace MoreCpp.Library

variable {T : Type*} [LinearOrder T]

/-- The first position from `l` to `r` at which the list is as small as anywhere there. -/
structure LeftmostMin (v : List T) (l r i : Nat) : Prop where
  left_le : l ≤ i
  le_right : i ≤ r
  inside : r < v.length
  least : ∀ j a b, l ≤ j → j ≤ r → v[i]? = some a → v[j]? = some b → a ≤ b
  leftmost : ∀ j a b, l ≤ j → j < i → v[i]? = some a → v[j]? = some b → a < b

namespace LeftmostMin

variable {v : List T} {l m m' r i j : Nat} {a b : T}

theorem single (hl : l < v.length) : LeftmostMin v l l l where
  left_le := Nat.le_refl _
  le_right := Nat.le_refl _
  inside := hl
  least j a b hle hge ha hb := by
    obtain rfl := Nat.le_antisymm hge hle
    cases ha.symm.trans hb
    exact le_refl _
  leftmost j a b hle hlt := absurd hle (Nat.not_le_of_lt hlt)

theorem exists_value (h : LeftmostMin v l r i) : ∃ a, v[i]? = some a :=
  ⟨_, List.getElem?_eq_getElem (Nat.lt_of_le_of_lt h.le_right h.inside)⟩

/-- The minimum of the left window is not above that of the right one. -/
theorem of_left (h : LeftmostMin v l m i) (h' : LeftmostMin v m' r j) (hm : m' ≤ m + 1)
    (hmr : m ≤ r) (ha : v[i]? = some a) (hb : v[j]? = some b) (hle : a ≤ b) :
    LeftmostMin v l r i where
  left_le := h.left_le
  le_right := Nat.le_trans h.le_right hmr
  inside := h'.inside
  least k a' c hk hkr ha' hc := by
    cases ha.symm.trans ha'
    rcases Nat.lt_or_ge m k with hlt | hge
    · exact le_trans hle (h'.least k b c (by omega) hkr hb hc)
    · exact h.least k a c hk hge ha hc
  leftmost := h.leftmost

/-- The minimum of the right window is below that of the left one. -/
theorem of_right (h : LeftmostMin v l m i) (h' : LeftmostMin v m' r j) (hm : m' ≤ m + 1)
    (hl : l ≤ m') (ha : v[i]? = some a) (hb : v[j]? = some b) (hlt : b < a) :
    LeftmostMin v l r j where
  left_le := Nat.le_trans hl h'.left_le
  le_right := h'.le_right
  inside := h'.inside
  least k b' c hk hkr hb' hc := by
    cases hb.symm.trans hb'
    rcases Nat.lt_or_ge k m' with hleft | hright
    · exact le_of_lt (lt_of_lt_of_le hlt (h.least k a c hk (by omega) ha hc))
    · exact h'.least k b c hright hkr hb hc
  leftmost k b' c hk hkj hb' hc := by
    cases hb.symm.trans hb'
    rcases Nat.lt_or_ge k m' with hleft | hright
    · exact lt_of_lt_of_le hlt (h.least k a c hk (by omega) ha hc)
    · exact h'.leftmost k b c hright hkj hb hc

/-- Of two equal minima the left one is that of the left window. -/
theorem min_eq_left (h : LeftmostMin v l m i) (h' : LeftmostMin v m' r j) (hl : l ≤ m')
    (ha : v[i]? = some a) (hb : v[j]? = some a) : min i j = i := by
  apply Nat.min_eq_left
  by_contra hgt
  have hji : j < i := Nat.lt_of_not_le hgt
  exact lt_irrefl _ (h.leftmost j a a (Nat.le_trans hl h'.left_le) hji ha hb)

end LeftmostMin

end MoreCpp.Library
