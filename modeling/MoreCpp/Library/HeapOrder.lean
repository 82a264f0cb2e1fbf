import Mathlib.Logic.Equiv.Basic
import Mathlib.Order.Lattice

/-!
Binary heaps in an array, the greatest value first: what holds while one value moves down,
and what sorting by taking off the greatest value needs of the rest of the array.
-/

namespace MoreCpp.Library

section Swap

variable {T : Type*} {xs ys zs : Array T} {i j k m : Nat}

theorem swap_read (hi : i < xs.size) (hj : j < xs.size) :
    (xs.swap i j hi hj)[k]? = xs[Equiv.swap i j k]? := by
  rw [Array.getElem?_swap, Equiv.swap_apply_def]
  by_cases hjk : j = k
  · subst hjk
    by_cases hij : j = i
    · subst hij
      simp
    · simp [hij]
  · by_cases hik : i = k
    · simp [hik, hjk]
    · simp [hik, hjk, Ne.symm hik, Ne.symm hjk]

/-- The first `m` values in another order, the rest as it was. -/
structure Rearranged (m : Nat) (xs ys : Array T) : Prop where
  perm : ys.Perm xs
  within : ∀ i < m, ∃ j < m, ys[i]? = xs[j]?
  rest : ∀ i, m ≤ i → ys[i]? = xs[i]?

namespace Rearranged

theorem refl (m : Nat) (xs : Array T) : Rearranged m xs xs where
  perm := .refl xs
  within i hi := ⟨i, hi, rfl⟩
  rest _ _ := rfl

theorem trans (h : Rearranged m xs ys) (h' : Rearranged m ys zs) : Rearranged m xs zs where
  perm := h'.perm.trans h.perm
  within i hi := by
    obtain ⟨j, hj, hyz⟩ := h'.within i hi
    obtain ⟨k, hk, hxy⟩ := h.within j hj
    exact ⟨k, hk, hyz.trans hxy⟩
  rest i hi := (h'.rest i hi).trans (h.rest i hi)

theorem swap (hi : i < xs.size) (hj : j < xs.size) (him : i < m) (hjm : j < m) :
    Rearranged m xs (xs.swap i j hi hj) where
  perm := Array.swap_perm hi hj
  within k hk := by
    refine ⟨Equiv.swap i j k, ?_, swap_read hi hj⟩
    rw [Equiv.swap_apply_def]
    split_ifs <;> assumption
  rest k hk := by
    rw [swap_read hi hj, Equiv.swap_apply_of_ne_of_ne (by omega) (by omega)]

theorem size_eq (h : Rearranged m xs ys) : ys.size = xs.size := h.perm.size_eq

end Rearranged

end Swap

variable {T : Type*} [LinearOrder T] {xs ys : Array T} {i j k c lo m hole : Nat}

/-- The value at `i` is not above the one at `j`. -/
def AtMost (xs : Array T) (i j : Nat) : Prop :=
  ∀ x y, xs[i]? = some x → xs[j]? = some y → x ≤ y

namespace AtMost

theorem refl (xs : Array T) (i : Nat) : AtMost xs i i := by
  intro x y hx hy
  cases hx.symm.trans hy
  exact le_refl _

theorem trans (h : AtMost xs i j) (h' : AtMost xs j k) (hj : j < xs.size) : AtMost xs i k := by
  intro x z hx hz
  have hy : xs[j]? = some xs[j] := Array.getElem?_eq_getElem hj
  exact le_trans (h x _ hx hy) (h' _ z hy hz)

theorem swap (hi : i < xs.size) (hj : j < xs.size) {a b : Nat}
    (h : AtMost xs (Equiv.swap i j a) (Equiv.swap i j b)) :
    AtMost (xs.swap i j hi hj) a b := by
  intro x y hx hy
  rw [swap_read hi hj] at hx hy
  exact h x y hx hy

theorem of_read_eq {a b : Nat} (h : AtMost xs i j) (ha : ys[a]? = xs[i]?)
    (hb : ys[b]? = xs[j]?) : AtMost ys a b := by
  intro x y hx hy
  exact h x y (ha.symm.trans hx) (hb.symm.trans hy)

end AtMost

/-! ## Heaps -/

def IsChild (i c : Nat) : Prop := c = 2 * i + 1 ∨ c = 2 * i + 2

theorem IsChild.lt (h : IsChild i c) : i < c := by
  unfold IsChild at h
  omega

theorem IsChild.unique (h : IsChild i c) (h' : IsChild j c) : i = j := by
  unfold IsChild at h h'
  omega

theorem exists_parent (h : 0 < c) : ∃ i, IsChild i c := by
  refine ⟨(c - 1) / 2, ?_⟩
  unfold IsChild
  omega

/-- No position from `lo` on has a greater child before `m`. -/
def HeapFrom (xs : Array T) (lo m : Nat) : Prop :=
  ∀ i c, lo ≤ i → IsChild i c → c < m → AtMost xs c i

/-- A heap but for the value at `hole`, which may be below its children. -/
structure HeapExcept (xs : Array T) (lo m hole : Nat) : Prop where
  others : ∀ i c, lo ≤ i → i ≠ hole → IsChild i c → c < m → AtMost xs c i
  grand : ∀ i c, lo ≤ i → IsChild i hole → IsChild hole c → c < m → AtMost xs c i

theorem HeapFrom.except (h : HeapFrom xs (lo + 1) m) : HeapExcept xs lo m lo where
  others i c hi hne hchild hc := h i c (by omega) hchild hc
  grand i c hi hhole := absurd hhole.lt (by omega)

namespace HeapExcept

theorem close (h : HeapExcept xs lo m hole)
    (hhole : ∀ c, IsChild hole c → c < m → AtMost xs c hole) : HeapFrom xs lo m := by
  intro i c hi hchild hc
  by_cases hne : i = hole
  · subst hne
    exact hhole c hchild hc
  · exact h.others i c hi hne hchild hc

/-- The value at the hole moves down to the greatest child. -/
theorem down (h : HeapExcept xs lo m hole) (hlo : lo ≤ hole) (hchild : IsChild hole c)
    (hc : c < m) (hm : m ≤ xs.size) (hless : AtMost xs hole c)
    (hgreatest : ∀ d, IsChild hole d → d < m → AtMost xs d c) (hhole : hole < xs.size) :
    HeapExcept (xs.swap hole c hhole (by omega)) lo m c := by
  have hlt : hole < c := hchild.lt
  constructor
  · intro i d hi hne hd hdm
    apply AtMost.swap
    by_cases hih : i = hole
    · subst hih
      rw [Equiv.swap_apply_left]
      by_cases hdc : d = c
      · rw [hdc, Equiv.swap_apply_right]
        exact hless
      · rw [Equiv.swap_apply_of_ne_of_ne (Nat.ne_of_gt hd.lt) hdc]
        exact hgreatest d hd hdm
    · rw [Equiv.swap_apply_of_ne_of_ne hih hne]
      by_cases hdh : d = hole
      · subst hdh
        rw [Equiv.swap_apply_left]
        exact h.grand i c hi hd hchild hc
      · have hdc : d ≠ c := by
          intro heq
          subst heq
          exact hih (hd.unique hchild)
        rw [Equiv.swap_apply_of_ne_of_ne hdh hdc]
        exact h.others i d hi hih hd hdm
  · intro i d hi hparent hd hdm
    obtain rfl := hparent.unique hchild
    have hdlt := hd.lt
    apply AtMost.swap
    rw [Equiv.swap_apply_left, Equiv.swap_apply_of_ne_of_ne (by omega) (by omega)]
    exact h.others c d (by omega) (Nat.ne_of_gt hlt) hd hdm

end HeapExcept

theorem HeapFrom.le_root (h : HeapFrom xs 0 m) (hm : m ≤ xs.size) (hi : i < m) :
    AtMost xs i 0 := by
  induction i using Nat.strongRecOn with
  | ind i ih =>
      rcases Nat.eq_zero_or_pos i with rfl | hpos
      · exact AtMost.refl xs 0
      · obtain ⟨p, hp⟩ := exists_parent hpos
        have hlt := hp.lt
        have hparent : AtMost xs i p := h p i (Nat.zero_le p) hp hi
        exact hparent.trans (ih p hlt (by omega)) (by omega)

/-- The heap without its last position, whose value is now at the root. -/
theorem HeapFrom.swap_root (h : HeapFrom xs 0 (m + 1)) (h0 : 0 < xs.size) (hm : m < xs.size) :
    HeapExcept (xs.swap 0 m h0 hm) 0 m 0 where
  others i c hi hne hchild hc := by
    have hlt := hchild.lt
    apply AtMost.swap
    rw [Equiv.swap_apply_of_ne_of_ne (by omega) (by omega),
      Equiv.swap_apply_of_ne_of_ne (by omega) (by omega)]
    exact h i c hi hchild (by omega)
  grand i c _ hroot := absurd hroot.lt (Nat.not_lt_zero i)

/-! ## The sorted rest -/

/-- From `m` on every value is at least all before it. -/
def SortedFrom (xs : Array T) (m : Nat) : Prop :=
  ∀ i j, i < j → m ≤ j → AtMost xs i j

namespace SortedFrom

theorem of_size_le (hm : xs.size ≤ m) : SortedFrom xs m := by
  intro i j _ hj x y _ hy
  rw [Array.getElem?_eq_none (Nat.le_trans hm hj)] at hy
  cases hy

theorem rearranged (h : SortedFrom xs m) (hperm : Rearranged m xs ys) : SortedFrom ys m := by
  intro i j hij hj
  have hright := hperm.rest j hj
  rcases Nat.lt_or_ge i m with hlt | hge
  · obtain ⟨k, hk, hleft⟩ := hperm.within i hlt
    exact (h k j (by omega) hj).of_read_eq hleft hright
  · exact (h i j hij hj).of_read_eq (hperm.rest i hge) hright

/-- The greatest value of the unsorted part comes to its end. -/
theorem extend (h : SortedFrom xs (m + 1)) (hm : m < xs.size)
    (hroot : ∀ i < m + 1, AtMost xs i 0) :
    SortedFrom (xs.swap 0 m (by omega) hm) m := by
  have hswap : Rearranged (m + 1) xs (xs.swap 0 m (by omega) hm) :=
    Rearranged.swap _ hm (Nat.succ_pos m) (Nat.lt_succ_self m)
  intro i j hij hj
  rcases Nat.lt_or_eq_of_le hj with hlt | rfl
  · exact h.rearranged hswap i j hij hlt
  · obtain ⟨k, hk, hread⟩ := hswap.within i (by omega)
    apply (hroot k hk).of_read_eq hread
    rw [swap_read, Equiv.swap_apply_right]

theorem pairwise (h : SortedFrom xs 1) : xs.toList.Pairwise (· ≤ ·) := by
  apply List.pairwise_iff_getElem.mpr
  intro i j hi hj hij
  apply h i j hij (by omega)
  · simp [Array.getElem?_eq_getElem hi]
  · simp [Array.getElem?_eq_getElem hj]

end SortedFrom

end MoreCpp.Library
