import MoreCpp.Library.Loop
import MoreCpp.Library.SignedInt
import Mathlib.Algebra.Ring.Nat
import Mathlib.Data.List.Sort
import Mathlib.Order.Basic

/-!
`find_kth_largest` of `algorithms/array/array.cpp`. `may l r i` tells whether the call on
`[l, r]` may read at `i`; the code has no such test, and allows everything. `none` is a
read outside of the vector or one that is not allowed, a sum that overflows an `int`, or a
loop or a recursion that runs out of fuel.
-/

namespace MoreCpp

open Library

namespace FindKthLargest

def read (may : Int → Bool) (A : Array Int) (i : Int) : Option Int :=
  if 0 ≤ i ∧ may i then A[i.toNat]? else none

def swap (may : Int → Bool) (A : Array Int) (i j : Int) : Option (Array Int) := do
  let x ← read may A i
  let y ← read may A j
  return (A.setIfInBounds i.toNat y).setIfInBounds j.toNat x

/-- A turn of `while (A[++i] < x)`. -/
def scanUp (may : Int → Bool) (A : Array Int) (x i : Int) : Option (Int ⊕ Int) := do
  let y ← read may A (i + 1)
  return if y < x then .inl (i + 1) else .inr (i + 1)

/-- A turn of `while (A[--j] > x)`. -/
def scanDown (may : Int → Bool) (A : Array Int) (x j : Int) : Option (Int ⊕ Int) := do
  let y ← read may A (j - 1)
  return if y > x then .inl (j - 1) else .inr (j - 1)

structure State where
  A : Array Int
  i : Int
  j : Int

/-- A turn of `while (i < j)`. -/
def round (may : Int → Bool) (fuel : Nat) (x : Int) (s : State) : Option (State ⊕ State) :=
  if s.i < s.j then do
    let i ← loop (scanUp may s.A x) fuel s.i
    let j ← loop (scanDown may s.A x) fuel s.j
    if i < j then do
      let A ← swap may s.A i j
      return .inl { A, i, j }
    else return .inl { s with i, j }
  else some (.inr s)

/-- `quickselect`, with `A` before and after. The fuel of the loops comes first. -/
def quickselect (may : Int → Int → Int → Bool) (fuel : Nat) (k : Int) :
    Nat → Array Int → Int → Int → Option (Int × Array Int)
  | 0, _, _, _ => none
  | depth + 1, A, l, r =>
    if l = r then do
      let y ← read (may l r) A l
      return (y, A)
    else do
      let sum ← signed 32 (l + r)
      let x ← read (may l r) A (sum >>> (1 : Nat))
      let s ← loop (round (may l r) fuel x) fuel { A, i := l - 1, j := r + 1 }
      if s.j < k then quickselect may fuel k depth s.A (s.j + 1) r
      else quickselect may fuel k depth s.A l s.j

def findKthLargest (may : Int → Int → Int → Bool) (fuel : Nat) (A : Array Int) (k : Int) :
    Option (Int × Array Int) :=
  quickselect may fuel (A.size - k) fuel A 0 (A.size - 1)

/-- The values of the vector by position. -/
def Values (A : Array Int) (v : Int → Int) : Prop :=
  ∀ i : Int, 0 ≤ i → i < A.size → A[i.toNat]? = some (v i)

/-- The values after two of them change places. -/
def swapped (v : Int → Int) (i j : Int) : Int → Int :=
  fun p => if p = i then v j else if p = j then v i else v p

variable {may : Int → Bool} {A : Array Int} {v : Int → Int} {fuel : Nat} {l r x i j k m : Int}

theorem read_eq (h : Values A v) (hlow : 0 ≤ i) (hhigh : i < A.size) (hmay : may i = true) :
    read may A i = some (v i) := by
  rw [read, if_pos ⟨hlow, hmay⟩, h i hlow hhigh]

theorem swap_spec (h : Values A v) (hi : 0 ≤ i) (hij : i < j) (hj : j < A.size)
    (hmayi : may i = true) (hmayj : may j = true) :
    ∃ A', swap may A i j = some A' ∧ A'.Perm A ∧ Values A' (swapped v i j) := by
  rw [swap, read_eq h hi (hij.trans hj) hmayi, read_eq h (hi.trans hij.le) hj hmayj]
  have hin : i.toNat < A.size := by omega
  have hjn : j.toNat < A.size := by omega
  have hvi := h i hi (hij.trans hj)
  have hvj := h j (hi.trans hij.le) hj
  rw [Array.getElem?_eq_getElem hin, Option.some_inj] at hvi
  rw [Array.getElem?_eq_getElem hjn, Option.some_inj] at hvj
  have hswap : (A.setIfInBounds i.toNat (v j)).setIfInBounds j.toNat (v i) =
      A.swap i.toNat j.toNat hin hjn := by
    simp [Array.swap_def, Array.setIfInBounds, hin, hjn, hvi, hvj]
  refine ⟨_, rfl, ?_, fun p hp hpsize => ?_⟩
  · rw [hswap]
    exact Array.swap_perm hin hjn
  · rw [hswap, Array.size_swap] at hpsize
    rw [hswap, Array.getElem?_swap, hvi, hvj, swapped, h p hp hpsize]
    split_ifs <;> first | rfl | omega

/-! ## The scans -/

/-- The scan stops at the latest at a value that is not less than `x`. -/
theorem scanUp_spec {p : Int} (h : Values A v) (hi : -1 ≤ i) (hip : i < p) (hp : p < A.size)
    (hx : x ≤ v p) (hmay : ∀ t, i < t → t ≤ p → may t = true) (hfuel : A.size < fuel) :
    ∃ i', loop (scanUp may A x) fuel i = some i' ∧ i < i' ∧ i' ≤ p ∧ x ≤ v i' ∧
      ∀ t, i < t → t < i' → v t ≤ x := by
  apply loop_total (fun c => i ≤ c ∧ c < p ∧ ∀ t, i < t → t ≤ c → v t ≤ x)
    fun c => (p - c).toNat
  · rintro c ⟨hic, hcp, hlow⟩
    rw [scanUp, read_eq h (by omega) (by omega) (hmay _ (by omega) (by omega))]
    by_cases hless : v (c + 1) < x
    · have hne : c + 1 ≠ p := by
        rintro rfl
        exact hless.not_ge hx
      refine .inr ⟨c + 1, by simp [hless], ⟨by omega, by omega, fun t ht ht' => ?_⟩, by omega⟩
      obtain rfl | hne := eq_or_ne t (c + 1)
      · exact hless.le
      · exact hlow t ht (by omega)
    · refine .inl ⟨c + 1, by simp [hless], by omega, by omega, not_lt.mp hless, fun t ht ht' => ?_⟩
      exact hlow t ht (by omega)
  · exact ⟨le_rfl, hip, fun t ht ht' => absurd ht (by omega)⟩
  · omega

/-- The scan stops at the latest at a value that is not greater than `x`. -/
theorem scanDown_spec {q : Int} (h : Values A v) (hj : j ≤ A.size) (hqj : q < j) (hq : 0 ≤ q)
    (hx : v q ≤ x) (hmay : ∀ t, q ≤ t → t < j → may t = true) (hfuel : A.size < fuel) :
    ∃ j', loop (scanDown may A x) fuel j = some j' ∧ j' < j ∧ q ≤ j' ∧ v j' ≤ x ∧
      ∀ t, j' < t → t < j → x ≤ v t := by
  apply loop_total (fun c => c ≤ j ∧ q < c ∧ ∀ t, c ≤ t → t < j → x ≤ v t)
    fun c => (c - q).toNat
  · rintro c ⟨hcj, hqc, hhigh⟩
    rw [scanDown, read_eq h (by omega) (by omega) (hmay _ (by omega) (by omega))]
    by_cases hgt : v (c - 1) > x
    · have hne : q ≠ c - 1 := by
        rintro rfl
        exact hgt.not_ge hx
      refine .inr ⟨c - 1, by simp [hgt], ⟨by omega, by omega, fun t ht ht' => ?_⟩, by omega⟩
      obtain rfl | hne := eq_or_ne t (c - 1)
      · exact hgt.le
      · exact hhigh t (by omega) ht'
    · refine .inl ⟨c - 1, by simp [hgt], by omega, by omega, not_lt.mp hgt, fun t ht ht' => ?_⟩
      exact hhigh t (by omega) ht'
  · exact ⟨le_rfl, hqj, fun t ht ht' => absurd ht (by omega)⟩
  · omega

/-! ## The partition -/

/-- No value before `m` is greater than one from `m` on. -/
def Split (v : Int → Int) (n m : Int) : Prop :=
  ∀ p q, 0 ≤ p → p < m → m ≤ q → q < n → v p ≤ v q

theorem Split.swapped {n : Int} (h : Split v n m) (hi : 0 ≤ i) (hij : i < j) (hj : j < n)
    (hside : m ≤ i ∨ j < m) : Split (swapped v i j) n m := by
  intro p q hp hpm hmq hq
  unfold FindKthLargest.swapped
  split_ifs <;> apply h <;> omega

/-- The partition is under way: both scans have a value in the range to stop at. -/
structure Running (v : Int → Int) (l r x i j : Int) : Prop where
  left : l - 1 ≤ i
  right : j ≤ r + 1
  less : i < j
  low : ∀ p, l ≤ p → p ≤ i → v p ≤ x
  high : ∀ p, j ≤ p → p ≤ r → x ≤ v p
  up : ∃ p, i < p ∧ p ≤ r ∧ x ≤ v p ∧ (j ≤ r ∨ p < r)
  down : ∃ q, l ≤ q ∧ q < j ∧ v q ≤ x

/-- The partition is done, and both of its parts have a position. -/
structure Parted (v : Int → Int) (l r x j : Int) : Prop where
  left : l ≤ j
  right : j < r
  low : ∀ p, l ≤ p → p ≤ j → v p ≤ x
  high : ∀ p, j < p → p ≤ r → x ≤ v p

/-- What is known of the vector in the call on `[l, r]`. -/
structure Range (A₀ A : Array Int) (v : Int → Int) (l r : Int) : Prop where
  values : Values A v
  perm : A.Perm A₀
  left : 0 ≤ l
  right : r < A.size
  before : Split v A.size l
  behind : Split v A.size (r + 1)

theorem Range.swap {A₀ : Array Int} (h : Range A₀ A v l r) (hi : l ≤ i) (hij : i < j) (hj : j ≤ r)
    (hmay : ∀ t, l ≤ t → t ≤ r → may t = true) :
    ∃ A', FindKthLargest.swap may A i j = some A' ∧ Range A₀ A' (swapped v i j) l r := by
  have hleft := h.left
  have hright := h.right
  obtain ⟨A', hswap, hperm, hvalues⟩ := swap_spec h.values (by omega) hij (by omega)
    (hmay i hi (by omega)) (hmay j (by omega) hj)
  have hsize : A'.size = A.size := hperm.size_eq
  refine ⟨A', hswap, hvalues, hperm.trans h.perm, h.left, by omega, ?_, ?_⟩
  · rw [hsize]
    exact h.before.swapped (by omega) hij (by omega) (by omega)
  · rw [hsize]
    exact h.behind.swapped (by omega) hij (by omega) (by omega)

/-- The scans stop in the range, and if they have not met their values change places. -/
theorem round_spec {A₀ : Array Int} (h : Range A₀ A v l r) (hrun : Running v l r x i j)
    (hmay : ∀ t, l ≤ t → t ≤ r → may t = true) (hfuel : A.size < fuel) :
    ∃ s, round may fuel x { A, i, j } = some (.inl s) ∧ (s.j - s.i).toNat < (j - i).toNat ∧
      ∃ v', Range A₀ s.A v' l r ∧
        (Running v' l r x s.i s.j ∨ s.j ≤ s.i ∧ Parted v' l r x s.j) := by
  have hleft := h.left
  have hright := h.right
  have hless := hrun.less
  have hi := hrun.left
  have hj := hrun.right
  obtain ⟨p, hip, hpr, hxp, htop⟩ := hrun.up
  obtain ⟨q, hlq, hqj, hxq⟩ := hrun.down
  obtain ⟨i', hup, hii', hi'p, hxi', hlow⟩ := scanUp_spec h.values (by omega) hip (by omega) hxp
    (fun t ht ht' => hmay t (by omega) (by omega)) hfuel
  obtain ⟨j', hdown, hj'j, hqj', hxj', hhigh⟩ := scanDown_spec h.values (by omega) hqj (by omega)
    hxq (fun t ht ht' => hmay t (by omega) (by omega)) hfuel
  have hbelow : ∀ t, l ≤ t → t < i' → v t ≤ x := by
    intro t ht ht'
    obtain hti | hti := le_or_gt t i
    · exact hrun.low t ht hti
    · exact hlow t hti ht'
  have habove : ∀ t, j' < t → t ≤ r → x ≤ v t := by
    intro t ht ht'
    obtain htj | htj := le_or_gt j t
    · exact hrun.high t htj ht'
    · exact hhigh t ht htj
  simp only [round, if_pos hless, hup, hdown, Option.bind_eq_bind, Option.bind_some]
  split
  case isTrue hmeet =>
    obtain ⟨A', hswap, hrange⟩ := h.swap (i := i') (j := j') (by omega) hmeet (by omega) hmay
    rw [hswap, Option.bind_some]
    refine ⟨_, rfl, by dsimp only; omega, _, hrange, .inl ?_⟩
    have hvi : swapped v i' j' i' = v j' := if_pos rfl
    have hvj : swapped v i' j' j' = v i' := by
      rw [swapped, if_neg hmeet.ne', if_pos rfl]
    have hother : ∀ t, t ≠ i' → t ≠ j' → swapped v i' j' t = v t := by
      intro t ht ht'
      rw [swapped, if_neg ht, if_neg ht']
    constructor
    case left => dsimp only; omega
    case right => dsimp only; omega
    case less => exact hmeet
    case low =>
      intro t ht ht'
      obtain rfl | hne := eq_or_ne t i'
      · rwa [hvi]
      · dsimp only at ht'
        rw [hother t hne (by omega)]
        exact hbelow t ht (by omega)
    case high =>
      intro t ht ht'
      obtain rfl | hne := eq_or_ne t j'
      · rwa [hvj]
      · dsimp only at ht
        rw [hother t (by omega) hne]
        exact habove t (by omega) ht'
    case up => exact ⟨j', hmeet, by omega, by rwa [hvj], .inl (by dsimp only; omega)⟩
    case down => exact ⟨i', by omega, hmeet, by rwa [hvi]⟩
  case isFalse hmeet =>
    refine ⟨_, rfl, by dsimp only; omega, v, h, .inr ⟨by dsimp only; omega, ?_⟩⟩
    constructor
    case left => dsimp only; omega
    case right => dsimp only; omega
    case low =>
      intro t ht ht'
      obtain rfl | hne := eq_or_ne t j'
      · exact hxj'
      · dsimp only at ht'
        exact hbelow t ht (by omega)
    case high => exact habove

theorem partition_spec {A₀ : Array Int} {mid : Int} (h : Range A₀ A v l r) (hmid : l ≤ mid)
    (hmid' : mid < r) (hmay : ∀ t, l ≤ t → t ≤ r → may t = true) (hfuel : A.size + 1 < fuel) :
    ∃ s, loop (round may fuel (v mid)) fuel { A, i := l - 1, j := r + 1 } = some s ∧
      ∃ v', Range A₀ s.A v' l r ∧ Parted v' l r (v mid) s.j := by
  have hsize : ∀ {A' v'}, Range A₀ A' v' l r → A'.size = A.size :=
    fun h' => h'.perm.size_eq.trans h.perm.size_eq.symm
  apply loop_total (fun s : State => ∃ v', Range A₀ s.A v' l r ∧
    (Running v' l r (v mid) s.i s.j ∨ s.j ≤ s.i ∧ Parted v' l r (v mid) s.j))
    fun s => (s.j - s.i).toNat
  · rintro s ⟨v', hrange, hrun | ⟨hstop, hparted⟩⟩
    · have hfuel' : s.A.size < fuel := by
        rw [hsize hrange]
        omega
      obtain ⟨s', hround, hless, hinv⟩ := round_spec hrange hrun hmay hfuel'
      exact .inr ⟨s', hround, hinv, hless⟩
    · exact .inl ⟨s, if_neg (not_lt.mpr hstop), v', hrange, hparted⟩
  · refine ⟨v, h, .inl ?_⟩
    constructor
    case left => exact le_rfl
    case right => exact le_rfl
    case less => dsimp only; omega
    case low => exact fun t ht ht' => absurd ht (by dsimp only at ht'; omega)
    case high => exact fun t ht ht' => absurd ht' (by dsimp only at ht; omega)
    case up => exact ⟨mid, by dsimp only; omega, hmid'.le, le_rfl, .inr hmid'⟩
    case down => exact ⟨mid, hmid, by dsimp only; omega, le_rfl⟩
  · have hleft := h.left
    have hright := h.right
    dsimp only
    omega

/-! ## The recursion -/

/-- The `k`-th largest value, counted with multiplicity. -/
def IsKthLargest (A : Array Int) (k : Nat) (y : Int) : Prop :=
  (A.toList.mergeSort fun a b => a ≥ b)[k - 1]? = some y

theorem mergeSort_eq {xs ys : List Int} (hperm : xs.Perm ys) (hsorted : ys.Pairwise (· ≥ ·)) :
    (xs.mergeSort fun a b => a ≥ b) = ys :=
  ((List.mergeSort_perm _ _).trans hperm).eq_of_pairwise' (List.pairwise_mergeSort' (· ≥ ·) _)
    hsorted

/-- What lies on both sides of `x` is sorted there. -/
theorem mergeSort_split {low high : List Int} {x : Int} (hlow : ∀ a ∈ low, a ≤ x)
    (hhigh : ∀ b ∈ high, x ≤ b) :
    ((low ++ x :: high).mergeSort fun a b => a ≥ b) =
      (high.mergeSort fun a b => a ≥ b) ++ x :: low.mergeSort fun a b => a ≥ b := by
  apply mergeSort_eq
  · have hswap : (low ++ x :: high).Perm (high ++ x :: low) :=
      List.perm_middle.trans ((List.perm_append_comm.cons _).trans List.perm_middle.symm)
    exact hswap.trans ((List.mergeSort_perm _ _).symm.append
      ((List.mergeSort_perm _ _).symm.cons _))
  · rw [List.pairwise_append, List.pairwise_cons]
    refine ⟨List.pairwise_mergeSort' (· ≥ ·) _, ⟨fun a ha => ?_,
      List.pairwise_mergeSort' (· ≥ ·) _⟩, fun b hb c hc => ?_⟩
    · exact hlow a (List.mem_mergeSort.mp ha)
    · have hxb : x ≤ b := hhigh b (List.mem_mergeSort.mp hb)
      obtain rfl | hc := List.mem_cons.mp hc
      · exact hxb
      · exact (hlow c (List.mem_mergeSort.mp hc)).trans hxb

namespace Values

theorem getElem_toList (h : Values A v) {p : Nat} (hp : p < A.toList.length) :
    A.toList[p] = v p := by
  have hpn : p < A.size := by rwa [Array.length_toList] at hp
  have hread : A[p]? = some (v p) := h p (Int.natCast_nonneg p) (by omega)
  rw [Array.getElem?_eq_getElem hpn, Option.some_inj] at hread
  rwa [Array.getElem_toList]

theorem le_of_mem_take (h : Values A v) {m : Nat} (hsplit : Split v A.size m) (hm : m < A.size)
    {a : Int} (ha : a ∈ A.toList.take m) : a ≤ v m := by
  obtain ⟨p, hp, rfl⟩ := List.mem_take_iff_getElem.mp ha
  rw [h.getElem_toList]
  exact hsplit p m (by omega) (by omega) le_rfl (by omega)

theorem le_of_mem_drop (h : Values A v) {m : Nat} (hsplit : Split v A.size (m + 1)) {b : Int}
    (hb : b ∈ A.toList.drop (m + 1)) : v m ≤ b := by
  obtain ⟨q, hq, rfl⟩ := List.mem_drop_iff_getElem.mp hb
  rw [Array.length_toList] at hq
  rw [h.getElem_toList]
  exact hsplit m _ (by omega) (by omega) (by omega) (by omega)

end Values

/-- What lies at the split on both sides is there in sorted order. -/
theorem isKthLargest_of_split {k : Nat} (h : Values A v) (hk : 1 ≤ k) (hk' : k ≤ A.size)
    (hbefore : Split v A.size (A.size - k)) (hbehind : Split v A.size (A.size - k + 1)) :
    IsKthLargest A k (v (A.size - k)) := by
  obtain ⟨m, hm, hmk⟩ : ∃ m : Nat, (A.size : Int) - k = m ∧ m + k = A.size :=
    ⟨A.size - k, by omega, by omega⟩
  rw [hm] at hbefore hbehind ⊢
  have hmlt : m < A.toList.length := by
    rw [Array.length_toList]
    omega
  have hlist : A.toList = A.toList.take m ++ v m :: A.toList.drop (m + 1) := by
    rw [← h.getElem_toList hmlt, ← List.drop_eq_getElem_cons hmlt, List.take_append_drop]
  have hplace : k - 1 = ((A.toList.drop (m + 1)).mergeSort fun a b => a ≥ b).length := by
    rw [List.length_mergeSort, List.length_drop, Array.length_toList]
    omega
  rw [IsKthLargest, hlist, mergeSort_split (fun a ha => h.le_of_mem_take hbefore (by omega) ha)
    fun b hb => h.le_of_mem_drop hbehind hb, hplace, List.getElem?_append_right le_rfl,
    Nat.sub_self]
  rfl

theorem IsKthLargest.perm {A A' : Array Int} {k : Nat} {y : Int} (hperm : A.Perm A')
    (h : IsKthLargest A k y) : IsKthLargest A' k y := by
  have hsame : (A.toList.mergeSort fun a b => a ≥ b) = A'.toList.mergeSort fun a b => a ≥ b :=
    mergeSort_eq (hperm.toList.trans (List.mergeSort_perm _ _).symm)
      (List.pairwise_mergeSort' (· ≥ ·) _)
  rwa [IsKthLargest, ← hsame]

theorem Parted.split {A₀ : Array Int} (h : Parted v l r x j) (hrange : Range A₀ A v l r) :
    Split v A.size (j + 1) := by
  intro p q hp hpj hjq hq
  obtain hpl | hlp := lt_or_ge p l
  · exact hrange.before p q hp hpl (by have := h.left; omega) hq
  · obtain hqr | hrq := le_or_gt q r
    · exact (h.low p hlp (by omega)).trans (h.high q (by omega) hqr)
    · exact hrange.behind p q hp (by have := h.right; omega) (by omega) hq

theorem quickselect_spec {may : Int → Int → Int → Bool} {A₀ : Array Int} (depth : Nat)
    (hmay : ∀ l r t, l ≤ t → t ≤ r → may l r t = true) (hsize : A₀.size ≤ 2 ^ 30 + 1)
    (hfuel : A₀.size + 1 < fuel) (h : Range A₀ A v l r) (hlk : l ≤ k) (hkr : k ≤ r)
    (hdepth : r - l < depth) :
    ∃ y A', quickselect may fuel k depth A l r = some (y, A') ∧
      ∃ v', Range A₀ A' v' k k ∧ y = v' k := by
  induction depth generalizing A v l r with
  | zero => omega
  | succ depth ih =>
      have hA : A.size = A₀.size := h.perm.size_eq
      have hleft := h.left
      have hright := h.right
      rw [quickselect]
      split
      case isTrue heq =>
        obtain rfl : l = k := by omega
        obtain rfl := heq
        rw [read_eq h.values h.left (by omega) (hmay l l l le_rfl le_rfl)]
        exact ⟨_, _, rfl, v, h, rfl⟩
      case isFalse hne =>
        have hmid : (l + r) >>> (1 : Nat) = (l + r) / 2 := Int.shiftRight_eq_div_pow ..
        rw [signed_eq (by omega) (by omega), Option.bind_eq_bind, Option.bind_some, hmid,
          read_eq h.values (by omega) (by omega) (hmay l r _ (by omega) (by omega))]
        obtain ⟨s, hloop, v', hrange, hparted⟩ := partition_spec h (by omega : l ≤ (l + r) / 2)
          (by omega) (hmay l r) (by omega : A.size + 1 < fuel)
        have hsplit := hparted.split hrange
        have hj := hparted.left
        have hj' := hparted.right
        rw [Option.bind_some, hloop, Option.bind_eq_bind, Option.bind_some]
        split
        case isTrue hright =>
          exact ih ⟨hrange.values, hrange.perm, by omega, hrange.right, hsplit, hrange.behind⟩
            (by omega) hkr (by omega)
        case isFalse hleft =>
          exact ih ⟨hrange.values, hrange.perm, hrange.left, hj'.trans hrange.right,
            hrange.before, hsplit⟩ hlk (by omega) (by omega)

/-- The call on `[l, r]` need not read anywhere else. -/
theorem findKthLargest_spec (may : Int → Int → Int → Bool) (fuel : Nat) (A : Array Int) (k : Nat)
    (hmay : ∀ l r i, l ≤ i → i ≤ r → may l r i = true) (hk : 1 ≤ k) (hkn : k ≤ A.size)
    (hsize : A.size ≤ 2 ^ 30 + 1) (hfuel : A.size + 1 < fuel) :
    ∃ y A', findKthLargest may fuel A k = some (y, A') ∧ A'.Perm A ∧ IsKthLargest A k y := by
  have hvalues : Values A fun i => A[i.toNat]?.getD 0 := by
    intro i hi hin
    have hlt : i.toNat < A.size := by omega
    dsimp only
    rw [Array.getElem?_eq_getElem hlt, Option.getD_some]
  have hrange : Range A A (fun i => A[i.toNat]?.getD 0) 0 (A.size - 1) := by
    refine ⟨hvalues, .refl _, le_rfl, by omega, fun p q hp hp0 => ?_, fun p q hp hpn hq hqn => ?_⟩
    · exact absurd hp0 (not_lt.mpr hp)
    · omega
  obtain ⟨y, A', hresult, v', hlast, rfl⟩ := quickselect_spec (k := A.size - k) fuel hmay hsize
    hfuel hrange (by omega) (by omega) (by omega)
  have hsame : A'.size = A.size := hlast.perm.size_eq
  refine ⟨_, A', hresult, hlast.perm, ?_⟩
  have hbefore := hlast.before
  have hbehind := hlast.behind
  rw [← hsame] at hbefore hbehind ⊢
  exact (isKthLargest_of_split hlast.values hk (by omega) hbefore hbehind).perm hlast.perm

/-- The guard is the range of the call itself. -/
theorem findKthLargest_spec_two : ∃ y A',
    findKthLargest (fun l r i => l ≤ i ∧ i ≤ r) 5 #[3, 1, 3] 2 = some (y, A') ∧
      A'.Perm #[3, 1, 3] ∧ IsKthLargest #[3, 1, 3] 2 y :=
  findKthLargest_spec (fun l r i => l ≤ i ∧ i ≤ r) 5 #[3, 1, 3] 2
    (fun _ _ _ hl hr => decide_eq_true ⟨hl, hr⟩) (by decide) (by decide) (by decide) (by decide)

/-! ## A long vector -/

theorem eq_of_read {may : Int → Bool} {y : Int} (h : Values A id) (hread : read may A i = some y) :
    y = i := by
  unfold read at hread
  split at hread
  case isTrue hmay =>
    obtain ⟨hlt, -⟩ := Array.getElem?_eq_some_iff.mp hread
    rw [h i hmay.1 (by omega), Option.some_inj] at hread
    exact hread.symm
  case isFalse => cases hread

theorem scanUp_increasing {may : Int → Bool} {i' : Int} (h : Values A id) (hi : i < x)
    (hloop : loop (scanUp may A x) fuel i = some i') : i' = x := by
  refine loop_invariant (· < x) (· = x) (fun c c' hc hbody => ?_) (fun c c' hc hbody => ?_) hi hloop
  all_goals
    obtain ⟨y, hread, hnext⟩ := Option.bind_eq_some_iff.mp hbody
    obtain rfl := eq_of_read h hread
    have hnext := Option.some.inj hnext
  · split at hnext
    · cases hnext
      assumption
    · cases hnext
  · split at hnext
    · cases hnext
    · cases hnext
      omega

theorem scanDown_increasing {may : Int → Bool} {j' : Int} (h : Values A id) (hj : x < j)
    (hloop : loop (scanDown may A x) fuel j = some j') : j' = x := by
  refine loop_invariant (x < ·) (· = x) (fun c c' hc hbody => ?_) (fun c c' hc hbody => ?_) hj hloop
  all_goals
    obtain ⟨y, hread, hnext⟩ := Option.bind_eq_some_iff.mp hbody
    obtain rfl := eq_of_read h hread
    have hnext := Option.some.inj hnext
  · split at hnext
    · cases hnext
      assumption
    · cases hnext
  · split at hnext
    · cases hnext
    · cases hnext
      omega

/-- Both scans stop at the pivot, and nothing changes places. -/
theorem partition_increasing {may : Int → Bool} {s : State} (h : Values A id) (hlx : l ≤ x)
    (hxr : x ≤ r)
    (hloop : loop (round may fuel x) fuel { A, i := l - 1, j := r + 1 } = some s) :
    s.A = A ∧ s.j = x := by
  refine loop_invariant
    (fun s : State => s.A = A ∧ (s.i < x ∧ x < s.j ∨ s.i = x ∧ s.j = x))
    (fun s : State => s.A = A ∧ s.j = x) ?_ ?_
    ⟨rfl, .inl ⟨by dsimp only; omega, by dsimp only; omega⟩⟩ hloop
  · rintro ⟨A', i, j⟩ s' ⟨rfl, hside⟩ hbody
    unfold round at hbody
    split at hbody
    case isTrue hless =>
      dsimp only at hless hside hbody
      obtain ⟨i', hup, hrest⟩ := Option.bind_eq_some_iff.mp hbody
      obtain ⟨j', hdown, hlast⟩ := Option.bind_eq_some_iff.mp hrest
      have hi : i' = x := scanUp_increasing h (by omega) hup
      have hj : j' = x := scanDown_increasing h (by omega) hdown
      rw [if_neg (by omega)] at hlast
      cases hlast
      exact ⟨rfl, .inr ⟨hi, hj⟩⟩
    case isFalse => cases hbody
  · rintro ⟨A', i, j⟩ s' ⟨rfl, hside⟩ hbody
    unfold round at hbody
    split at hbody
    case isTrue =>
      obtain ⟨i', -, hrest⟩ := Option.bind_eq_some_iff.mp hbody
      obtain ⟨j', -, hlast⟩ := Option.bind_eq_some_iff.mp hrest
      split at hlast
      · obtain ⟨A'', -, hend⟩ := Option.bind_eq_some_iff.mp hlast
        cases hend
      · cases hlast
    case isFalse hstop =>
      cases hbody
      refine ⟨rfl, ?_⟩
      dsimp only at hstop hside ⊢
      omega

/-- On the way to the last position `l + r` overflows. -/
theorem quickselect_increasing {may : Int → Int → Int → Bool} (depth : Nat) (h : Values A id)
    (hl : l < 2 ^ 30 + 1) :
    quickselect may fuel (2 ^ 30 + 1) depth A l (2 ^ 30 + 1) = none := by
  induction depth generalizing l with
  | zero => rfl
  | succ depth ih =>
      rw [quickselect, if_neg hl.ne, Option.eq_none_iff_forall_ne_some]
      intro result hresult
      obtain ⟨sum, hsum, hresult⟩ := Option.bind_eq_some_iff.mp hresult
      obtain ⟨rfl, hfits⟩ := of_signed hsum
      have hmid : (l + (2 ^ 30 + 1)) >>> (1 : Nat) = (l + (2 ^ 30 + 1)) / 2 :=
        Int.shiftRight_eq_div_pow ..
      obtain ⟨x, hread, hresult⟩ := Option.bind_eq_some_iff.mp hresult
      obtain rfl := eq_of_read h hread
      obtain ⟨s, hloop, hresult⟩ := Option.bind_eq_some_iff.mp hresult
      rw [hmid] at hloop
      obtain ⟨hA, hj⟩ := partition_increasing h (by omega) (by omega) hloop
      rw [hA, hj, if_pos (by omega), ih (by omega)] at hresult
      cases hresult

theorem findKthLargest_increasing : ¬∃ fuel result, findKthLargest (fun _ _ _ => true) fuel
    (Array.ofFn fun i : Fin (2 ^ 30 + 2) => (i : Int)) 1 = some result := by
  rintro ⟨fuel, result, hresult⟩
  have hsize : (Array.ofFn fun i : Fin (2 ^ 30 + 2) => (i : Int)).size = 2 ^ 30 + 2 :=
    Array.size_ofFn
  have hvalues : Values (Array.ofFn fun i : Fin (2 ^ 30 + 2) => (i : Int)) id := by
    intro i hi hin
    rw [hsize] at hin
    rw [Array.getElem?_ofFn, dif_pos (by omega), id, Int.toNat_of_nonneg hi]
  have hnone : quickselect (fun _ _ _ => true) fuel (2 ^ 30 + 1) fuel
      (Array.ofFn fun i : Fin (2 ^ 30 + 2) => (i : Int)) 0 (2 ^ 30 + 1) = none :=
    quickselect_increasing fuel hvalues (by decide)
  rw [findKthLargest, hsize] at hresult
  cases hnone.symm.trans hresult

end FindKthLargest

end MoreCpp
