import MoreCpp.Library.Cells
import MoreCpp.Library.FourierTransform
import MoreCpp.Library.Loop
import MoreCpp.Library.SignedInt
import Mathlib.RingTheory.RootsOfUnity.Complex

/-!
`fft` and `multiply` of `tensor/fft.hpp`, over any field with a root of unity for each size
and a rounding to integers. At the complex numbers they are the program with exact
arithmetic. An index out of range gives `none`, and so do a loop and a recursion that run
out of fuel.
-/

namespace MoreCpp

open Finset Library Polynomial

namespace Fft

variable {K : Type} [Field K]

/-- `a[i] /= 2`. -/
def halve (a : List K) (i : Nat) : Option (List K) := do
  let x ← a[i]?
  store a i (x / 2)

/-- A turn of the second loop of `fft`, at `a` and `w`. -/
def combineRound (n : Nat) (a0 a1 : List K) (invert : Bool) (wn : K) :
    List K × K → Nat → Option (List K × K)
  | (a, w), i => do
    let x ← a0[i]?
    let y ← a1[i]?
    let a ← store a i (x + w * y)
    let a ← store a (i + n / 2) (x - w * y)
    if invert then
      let a ← halve a i
      let a ← halve a (i + n / 2)
      return (a, w * wn)
    else return (a, w * wn)

/-- `size` is what a call has for the length of its vector, and `wn n invert` the root of
unity that the sizes use. -/
def fftWith (size : List K → Option Nat) (wn : Nat → Bool → K) :
    Nat → List K → Bool → Option (List K)
  | 0, _, _ => none
  | fuel + 1, a, invert => do
    let n ← size a
    if n = 1 then some a
    else do
      let a0 ← (List.range ((n + 1) / 2)).mapM fun i => a[2 * i]?
      let a1 ← (List.range ((n + 1) / 2)).mapM fun i => a[2 * i + 1]?
      let a0 ← fftWith size wn fuel a0 invert
      let a1 ← fftWith size wn fuel a1 invert
      let (a, _) ← (List.range ((n + 1) / 2)).foldlM
        (combineRound n a0 a1 invert (wn n invert)) (a, 1)
      return a

/-- `fft`, where `n` is the length of any vector. -/
def fft (wn : Nat → Bool → K) : Nat → List K → Bool → Option (List K) :=
  fftWith (fun a => some a.length) wn

/-- `int n = a.size()`. A negative `n` gives no vectors of half the length, and -1 empty
ones, with which the recursion has no end. -/
def intSize (a : List K) : Option Nat :=
  let n : Int := (a.length : Int).bmod (2 ^ 32)
  if 0 ≤ n then some n.toNat else none

/-- `fft`, where `n` is an `int`. -/
def fftInt (wn : Nat → Bool → K) : Nat → List K → Bool → Option (List K) :=
  fftWith intSize wn

def resize (n : Nat) (a : List K) : List K :=
  (a ++ List.replicate (n - a.length) 0).take n

/-- A turn of the loop that finds the size. -/
def sizeRound (total n : Nat) : Option (Nat ⊕ Nat) :=
  if n < total then some (.inl (2 * n)) else some (.inr n)

def multiplyWith (wn : Nat → Bool → K) (round : K → Int) (fuel : Nat) (a b : List Int) :
    Option (List Int) := do
  let n ← loop (sizeRound (a.length + b.length)) fuel 1
  let fa := resize n (a.map Int.cast)
  let fb := resize n (b.map Int.cast)
  let fa ← fft wn fuel fa false
  let fb ← fft wn fuel fb false
  let fa ← (List.range n).mapM fun i => do
    let x ← fa[i]?
    let y ← fb[i]?
    return x * y
  let fa ← fft wn fuel fa true
  (List.range n).mapM fun i => do
    let x ← fa[i]?
    return round x

/-! ## The transform -/

section Transform

variable {a a0 a1 : List K} {invert : Bool} {i n : Nat}

/-- The value of a butterfly, halved by the inverse transform. -/
def scaled (invert : Bool) (x : K) : K := if invert then x / 2 else x

theorem halve_eq {x : K} (hx : a[i]? = some x) : halve a i = some (a.set i (x / 2)) := by
  obtain ⟨hi, -⟩ := List.getElem?_eq_some_iff.mp hx
  simp [halve, hx, store_eq hi]

theorem combineRound_spec (invert : Bool) (w wn : K) {x y : K} (ha : a.length = 2 * n) (hi : i < n)
    (hx : a0[i]? = some x) (hy : a1[i]? = some y) :
    ∃ a', combineRound (2 * n) a0 a1 invert wn (a, w) i = some (a', w * wn) ∧
      a'.length = 2 * n ∧ a'[i]? = some (scaled invert (x + w * y)) ∧
      a'[i + n]? = some (scaled invert (x - w * y)) ∧
      ∀ k, k ≠ i → k ≠ i + n → a'[k]? = a[k]? := by
  have hhalf : 2 * n / 2 = n := by omega
  have hfirst : i < a.length := by omega
  have hsecond : i + n < (a.set i (x + w * y)).length := by
    rw [List.length_set]
    omega
  have hne : i ≠ i + n := by omega
  obtain ⟨written, hwritten⟩ : ∃ c, c = (a.set i (x + w * y)).set (i + n) (x - w * y) := ⟨_, rfl⟩
  have hlength : written.length = 2 * n := by simp [hwritten, ha]
  have hread : written[i]? = some (x + w * y) := by
    rw [hwritten, List.getElem?_set_ne hne.symm, List.getElem?_set_self hfirst]
  have hread' : written[i + n]? = some (x - w * y) := by
    rw [hwritten, List.getElem?_set_self hsecond]
  have hrest : ∀ k, k ≠ i → k ≠ i + n → written[k]? = a[k]? := by
    intro k hk hk'
    rw [hwritten, List.getElem?_set_ne hk'.symm, List.getElem?_set_ne hk.symm]
  simp only [combineRound, hhalf, hx, hy, Option.bind_eq_bind, Option.bind_some,
    store_eq hfirst, store_eq hsecond, ← hwritten]
  cases invert with
  | false => exact ⟨written, rfl, hlength, hread, hread', hrest⟩
  | true =>
      have hmoved : (written.set i ((x + w * y) / 2))[i + n]? = some (x - w * y) := by
        rw [List.getElem?_set_ne hne, hread']
      simp only [if_true, halve_eq hread, Option.bind_some, halve_eq hmoved]
      refine ⟨_, rfl, by simp [hlength], ?_, ?_, ?_⟩
      · rw [List.getElem?_set_ne hne.symm, List.getElem?_set_self (by omega)]
        rfl
      · rw [List.getElem?_set_self (by rw [List.length_set]; omega)]
        rfl
      · intro k hk hk'
        rw [List.getElem?_set_ne hk'.symm, List.getElem?_set_ne hk.symm, hrest k hk hk']

/-- The second loop of `fft`, up to its turn at `i`. -/
theorem combine_spec (invert : Bool) (wn : K) {x y : Nat → K} (ha : a.length = 2 * n)
    (hx : ∀ k < n, a0[k]? = some (x k)) (hy : ∀ k < n, a1[k]? = some (y k)) (hi : i ≤ n) :
    ∃ a', (List.range i).foldlM (combineRound (2 * n) a0 a1 invert wn) (a, 1) =
        some (a', wn ^ i) ∧ a'.length = 2 * n ∧
      ∀ k < i, a'[k]? = some (scaled invert (x k + wn ^ k * y k)) ∧
        a'[k + n]? = some (scaled invert (x k - wn ^ k * y k)) := by
  induction i with
  | zero => exact ⟨a, by simp, ha, fun k hk => absurd hk (Nat.not_lt_zero k)⟩
  | succ i ih =>
      obtain ⟨mid, hbefore, hlength, hall⟩ := ih (Nat.le_of_succ_le hi)
      obtain ⟨a', hround, hlength', hread, hread', hrest⟩ :=
        combineRound_spec invert (wn ^ i) wn hlength hi (hx i hi) (hy i hi)
      refine ⟨a', ?_, hlength', fun k hk => ?_⟩
      · rw [List.range_succ, List.foldlM_append, hbefore, pow_succ]
        simp [hround]
      · rcases Nat.lt_succ_iff_lt_or_eq.mp hk with hlt | rfl
        · rw [hrest k (by omega) (by omega), hrest (k + n) (by omega) (by omega)]
          exact hall k hlt
        · exact ⟨hread, hread'⟩

/-- Roots of unity of all sizes that belong together. -/
structure Roots (wn : Nat → Bool → K) : Prop where
  primitive : ∀ n, 0 < n → ∀ invert, IsPrimitiveRoot (wn n invert) n
  square : ∀ n, 0 < n → ∀ invert, wn (2 * n) invert ^ 2 = wn n invert
  inverse : ∀ n, 0 < n → wn n true = (wn n false)⁻¹

theorem Roots.half {wn : Nat → Bool → K} (h : Roots wn) (hn : 0 < n) (invert : Bool) :
    wn (2 * n) invert ^ n = -1 := by
  have hroot := (h.primitive (2 * n) (by omega) invert).pow (by omega) (Nat.mul_comm 2 n)
  exact hroot.eq_neg_one_of_two_right

/-- The factor of the inverse transform. -/
def factor (invert : Bool) (n : Nat) : K := if invert then (n : K)⁻¹ else 1

theorem scaled_factor (x : K) :
    scaled invert (factor invert n * x) = factor invert (2 * n) * x := by
  cases invert with
  | false => rfl
  | true =>
      simp only [scaled, factor, if_true, Nat.cast_mul, Nat.cast_ofNat, mul_inv]
      ring

/-- The values of the polynomial with the coefficients `a` at the powers of the root. -/
def Transformed (wn : Nat → Bool → K) (invert : Bool) (a y : List K) : Prop :=
  y.length = a.length ∧ ∀ k < a.length, y[k]? =
    some (factor invert a.length * (ofCoeffs a).eval (wn a.length invert ^ k))

/-- One step of the recursion: the values of the halves give those of the whole. -/
theorem Transformed.combine {wn : Nat → Bool → K} (hroots : Roots wn) (hn : 0 < n)
    {evens odds : List K} (ha : a.length = 2 * n) (hevens : evens.length = n)
    (hodds : odds.length = n) (heven : ∀ k < n, evens[k]? = some (a.getD (2 * k) 0))
    (hodd : ∀ k < n, odds[k]? = some (a.getD (2 * k + 1) 0)) (h0 : Transformed wn invert evens a0)
    (h1 : Transformed wn invert odds a1) :
    ∃ y, (List.range n).foldlM (combineRound (2 * n) a0 a1 invert (wn (2 * n) invert)) (a, 1) =
      some (y, wn (2 * n) invert ^ n) ∧ Transformed wn invert a y := by
  obtain ⟨hlength0, hvalue0⟩ := h0
  obtain ⟨hlength1, hvalue1⟩ := h1
  rw [hevens] at hvalue0
  rw [hodds] at hvalue1
  obtain ⟨y, hloop, hlength, hall⟩ := combine_spec invert (wn (2 * n) invert) ha hvalue0
    hvalue1 (Nat.le_refl n)
  refine ⟨y, hloop, by rw [hlength, ha], ?_⟩
  have hsplit : ∀ x : K, (ofCoeffs a).eval x =
      (ofCoeffs evens).eval (x ^ 2) + x * (ofCoeffs odds).eval (x ^ 2) := by
    apply eval_even_odd hn ha hevens hodds
    · intro k hk
      rw [List.getD_eq_getElem?_getD, heven k hk, Option.getD_some]
    · intro k hk
      rw [List.getD_eq_getElem?_getD, hodd k hk, Option.getD_some]
  have hsquare := hroots.square n hn invert
  have hhalf := hroots.half hn invert
  intro k hk
  rw [ha] at hk ⊢
  generalize wn (2 * n) invert = w at *
  rw [← hsquare] at hall
  rcases Nat.lt_or_ge k n with hlt | hge
  · obtain ⟨hread, -⟩ := hall k hlt
    rw [hread, hsplit, ← scaled_factor, pow_right_comm w 2 k]
    congr 2
    ring
  · obtain ⟨j, rfl⟩ := Nat.exists_eq_add_of_le' hge
    obtain ⟨-, hread⟩ := hall j (by omega)
    have hminus : w ^ (j + n) = - w ^ j := by rw [pow_add, hhalf, mul_neg_one]
    rw [hread, hsplit, ← scaled_factor, hminus, neg_sq, pow_right_comm w 2 j]
    congr 2
    ring

/-- Where the calls have the lengths of their vectors, up to that of the first. -/
theorem fftWith_spec {size : List K → Option Nat} {wn : Nat → Bool → K} (hroots : Roots wn)
    (invert : Bool) {m fuel : Nat}
    (hsize : ∀ b : List K, b.length ≤ 2 ^ m → size b = some b.length)
    (ha : a.length = 2 ^ m) (hfuel : m < fuel) :
    ∃ y, fftWith size wn fuel a invert = some y ∧ Transformed wn invert a y := by
  induction m generalizing a fuel with
  | zero =>
      obtain ⟨fuel, rfl⟩ := Nat.exists_eq_succ_of_ne_zero (Nat.ne_of_gt hfuel)
      have hone : a.length = 1 := ha
      obtain ⟨x, rfl⟩ := List.length_eq_one_iff.mp hone
      refine ⟨[x], ?_, rfl, fun k hk => ?_⟩
      · rw [fftWith, hsize [x] le_rfl]
        rfl
      · obtain rfl : k = 0 := Nat.lt_one_iff.mp hk
        cases invert <;> simp [ofCoeffs, factor]
  | succ m ih =>
      cases fuel with
      | zero => exact absurd hfuel (Nat.not_lt_zero _)
      | succ fuel =>
          have hpos : 0 < 2 ^ m := Nat.two_pow_pos m
          have hlength : a.length = 2 * 2 ^ m := by rw [ha, pow_succ, mul_comm]
          have hne : ¬ a.length = 1 := by omega
          have hhalf : (a.length + 1) / 2 = 2 ^ m := by omega
          have hread : ∀ k < a.length, a[k]? = some (a.getD k 0) := by
            intro k hk
            rw [List.getD_eq_getElem?_getD, List.getElem?_eq_getElem hk, Option.getD_some]
          have hsmaller : ∀ b : List K, b.length ≤ 2 ^ m → size b = some b.length :=
            fun b hb => hsize b (hb.trans (Nat.pow_le_pow_right (by decide) (Nat.le_succ m)))
          obtain ⟨evens, hevens, hlength0, heven⟩ :=
            mapM_range_eq (2 ^ m) fun k hk => hread (2 * k) (by omega)
          obtain ⟨odds, hodds, hlength1, hodd⟩ :=
            mapM_range_eq (2 ^ m) fun k hk => hread (2 * k + 1) (by omega)
          obtain ⟨a0, hfft0, htransformed0⟩ :=
            ih hsmaller hlength0 (Nat.lt_of_succ_lt_succ hfuel)
          obtain ⟨a1, hfft1, htransformed1⟩ :=
            ih hsmaller hlength1 (Nat.lt_of_succ_lt_succ hfuel)
          obtain ⟨y, hloop, hy⟩ := htransformed0.combine hroots hpos hlength hlength0 hlength1
            heven hodd htransformed1
          refine ⟨y, ?_, hy⟩
          rw [← hlength] at hloop
          simp only [fftWith, hsize a ha.le, if_neg hne, hhalf, hevens, hodds, hfft0, hfft1,
            hloop, Option.bind_eq_bind, Option.bind_some]
          rfl

theorem fft_spec {wn : Nat → Bool → K} (hroots : Roots wn) (invert : Bool) {m fuel : Nat}
    (ha : a.length = 2 ^ m) (hfuel : m < fuel) :
    ∃ y, fft wn fuel a invert = some y ∧ Transformed wn invert a y :=
  fftWith_spec hroots invert (fun _ _ => rfl) ha hfuel

omit [Field K] in
theorem intSize_eq (ha : a.length < 2 ^ 31) : intSize a = some a.length := by
  unfold intSize
  dsimp only
  rw [natCast_bmod ha, Int.toNat_natCast]
  exact if_pos (Int.natCast_nonneg _)

end Transform

/-! ## The product -/

section Product

variable {wn : Nat → Bool → K} {a b : List Int} {n fuel : Nat}

theorem size_spec (total : Nat) (hfuel : total < fuel) :
    ∃ n, loop (sizeRound total) fuel 1 = some n ∧ (∃ m, n = 2 ^ m) ∧ total ≤ n ∧
      (n = 1 ∨ n < 2 * total) := by
  apply loop_total (fun n => (∃ m, n = 2 ^ m) ∧ (n = 1 ∨ n < 2 * total)) fun n => total - n
  · rintro n ⟨⟨m, rfl⟩, hbound⟩
    have hpos := Nat.two_pow_pos m
    by_cases hless : 2 ^ m < total
    · right
      refine ⟨2 * 2 ^ m, by rw [sizeRound, if_pos hless], ⟨⟨m + 1, ?_⟩, by omega⟩, by omega⟩
      rw [pow_succ, mul_comm]
    · left
      exact ⟨2 ^ m, by rw [sizeRound, if_neg hless], ⟨m, rfl⟩, by omega, hbound⟩
  · exact ⟨⟨0, rfl⟩, .inl rfl⟩
  · omega

theorem length_resize {xs : List K} (hn : xs.length ≤ n) :
    (resize n xs).length = n := by
  rw [resize, List.length_take, List.length_append, List.length_replicate]
  omega

theorem ofCoeffs_resize {xs : List K} (hn : xs.length ≤ n) :
    ofCoeffs (resize n xs) = ofCoeffs xs := by
  have htake : resize n xs = xs ++ List.replicate (n - xs.length) 0 := by
    rw [resize, List.take_of_length_le]
    rw [List.length_append, List.length_replicate]
    omega
  ext k
  rw [coeff_ofCoeffs, coeff_ofCoeffs, htake, List.getD_eq_getElem?_getD,
    List.getD_eq_getElem?_getD]
  rcases Nat.lt_or_ge k xs.length with hlt | hge
  · rw [List.getElem?_append_left hlt]
  · rw [List.getElem?_append_right hge, List.getElem?_eq_none hge, List.getElem?_replicate]
    split <;> rfl

/-- The sum of the products of entries whose positions add up to `k`. -/
def productEntry (a b : List Int) (k : Nat) : Int :=
  ∑ ij ∈ antidiagonal k, a.getD ij.1 0 * b.getD ij.2 0

theorem productEntry_eq_zero {k : Nat} (hk : a.length + b.length ≤ k + 1) :
    productEntry a b k = 0 := by
  apply sum_eq_zero
  rintro ⟨i, j⟩ hij
  have hsum : i + j = k := mem_antidiagonal.mp hij
  rcases Nat.lt_or_ge i a.length with hlt | hge
  · rw [List.getD_eq_getElem?_getD (l := b), List.getElem?_eq_none (by omega), Option.getD_none,
      mul_zero]
  · rw [List.getD_eq_getElem?_getD, List.getElem?_eq_none hge, Option.getD_none, zero_mul]

theorem coeff_product (k : Nat) :
    (ofCoeffs (a.map (Int.cast : Int → K)) * ofCoeffs (b.map Int.cast)).coeff k =
      (productEntry a b k : K) := by
  have hcast : ∀ (xs : List Int) (i : Nat),
      (xs.map (Int.cast : Int → K)).getD i 0 = (xs.getD i 0 : Int) := by
    intro xs i
    rw [List.getD_eq_getElem?_getD, List.getD_eq_getElem?_getD, List.getElem?_map]
    cases xs[i]? <;> simp
  rw [coeff_mul, productEntry, Int.cast_sum]
  apply sum_congr rfl
  rintro ⟨i, j⟩ -
  rw [coeff_ofCoeffs, coeff_ofCoeffs, hcast, hcast, Int.cast_mul]

/-- The product does not wrap around. -/
theorem natDegree_product_lt (hn : 0 < n) (htotal : a.length + b.length ≤ n) :
    (ofCoeffs (a.map (Int.cast : Int → K)) * ofCoeffs (b.map Int.cast)).natDegree < n := by
  apply natDegree_lt_of_coeff hn
  intro k hk
  rw [coeff_product, productEntry_eq_zero (by omega), Int.cast_zero]

/-- The inverse transform of the values of a polynomial has its coefficients. -/
theorem Transformed.coefficients [CharZero K] (hroots : Roots wn) {p : K[X]} {z y : List K}
    (hn : 0 < n) (hz : z.length = n) (hp : p.natDegree < n)
    (hvalues : ∀ k < n, z[k]? = some (p.eval (wn n false ^ k)))
    (hy : Transformed wn true z y) : ∀ i < n, y[i]? = some (p.coeff i) := by
  intro i hi
  obtain ⟨-, hread⟩ := hy
  rw [hz] at hread
  rw [hread i hi, eval_ofCoeffs hn hz.le, hroots.inverse n hn]
  have hsum : ∑ k ∈ range n, z.getD k 0 * ((wn n false)⁻¹ ^ i) ^ k = n * p.coeff i := by
    rw [← sum_eval_mul_inv_pow (hroots.primitive n hn false) hp hi]
    apply sum_congr rfl
    intro k hk
    rw [List.getD_eq_getElem?_getD, hvalues k (mem_range.mp hk), Option.getD_some]
  have hne : (n : K) ≠ 0 := Nat.cast_ne_zero.mpr hn.ne'
  rw [hsum, factor, if_pos rfl, inv_mul_cancel_left₀ hne]

/-- The values of a vector of coefficients, resized. -/
theorem fft_resize (hroots : Roots wn) {m : Nat} (hn : n = 2 ^ m) (hfuel : m < fuel)
    (xs : List K) (hxs : xs.length ≤ n) :
    ∃ y, fft wn fuel (resize n xs) false = some y ∧
      ∀ k < n, y[k]? = some ((ofCoeffs xs).eval (wn n false ^ k)) := by
  obtain ⟨y, hy, -, hvalue⟩ :=
    fft_spec hroots false ((length_resize hxs).trans hn) hfuel
  rw [length_resize hxs, ofCoeffs_resize hxs] at hvalue
  refine ⟨y, hy, fun k hk => ?_⟩
  rw [hvalue k hk, factor, if_neg Bool.false_ne_true, one_mul]

theorem multiplyWith_spec [CharZero K] (hroots : Roots wn) (round : K → Int)
    (hround : ∀ c : Int, round (c : K) = c) (hfuel : 2 * (a.length + b.length) + 1 < fuel) :
    ∃ result, multiplyWith wn round fuel a b = some result ∧
      (∃ m, result.length = 2 ^ m) ∧ a.length + b.length ≤ result.length ∧
      (result.length = 1 ∨ result.length < 2 * (a.length + b.length)) ∧
      ∀ k < result.length, result[k]? = some (productEntry a b k) := by
  obtain ⟨n, hsize, ⟨m, hm⟩, htotal, hbound⟩ :=
    size_spec (a.length + b.length) (show _ < fuel by omega)
  have hpos : 0 < n := by
    rw [hm]
    exact Nat.two_pow_pos m
  have hdepth : m < fuel := by
    have hlt : m < 2 ^ m := Nat.lt_two_pow_self
    omega
  obtain ⟨fa, hfa, hvalueA⟩ := fft_resize hroots hm hdepth (a.map Int.cast)
    (by rw [List.length_map]; omega)
  obtain ⟨fb, hfb, hvalueB⟩ := fft_resize hroots hm hdepth (b.map Int.cast)
    (by rw [List.length_map]; omega)
  have hpoint : ∀ k < n, ((fa[k]?).bind fun x => (fb[k]?).bind fun y => some (x * y)) =
      some ((ofCoeffs (a.map Int.cast) * ofCoeffs (b.map Int.cast)).eval (wn n false ^ k)) := by
    intro k hk
    rw [hvalueA k hk, hvalueB k hk, eval_mul]
    rfl
  obtain ⟨z, hz, hlength, hvalue⟩ := mapM_range_eq n hpoint
  obtain ⟨y, hy, htransformed⟩ := fft_spec hroots true (hlength.trans hm) hdepth
  have hcoeff := htransformed.coefficients hroots hpos hlength (natDegree_product_lt hpos htotal)
    hvalue
  have hrounded : ∀ k < n, ((y[k]?).bind fun x => some (round x)) =
      some (productEntry a b k) := by
    intro k hk
    rw [hcoeff k hk, coeff_product]
    exact congrArg some (hround _)
  obtain ⟨result, hresult, hlength', hread⟩ := mapM_range_eq n hrounded
  refine ⟨result, ?_, ⟨m, hlength'.trans hm⟩, by omega, by omega, fun k hk => ?_⟩
  · simp only [multiplyWith, hsize, hfa, hfb, Option.bind_eq_bind, Option.bind_some,
      Option.pure_def, hz, hy, hresult]
  · rw [hlength'] at hk
    exact hread k hk

end Product

/-! ## At the complex numbers -/

/-- `wn`. -/
noncomputable def unitRoot (n : Nat) (invert : Bool) : ℂ :=
  let ang : ℝ := 2 * Real.pi / n * (if invert then -1 else 1)
  ⟨Real.cos ang, Real.sin ang⟩

/-- `std::round`, which rounds a half away from zero. -/
noncomputable def stdRound (x : ℝ) : Int :=
  if 0 ≤ x then ⌊x + 1 / 2⌋ else ⌈x - 1 / 2⌉

noncomputable def multiply (fuel : Nat) (a b : List Int) : Option (List Int) :=
  multiplyWith unitRoot (fun z => stdRound z.re) fuel a b

theorem unitRoot_eq_exp (n : Nat) (invert : Bool) : unitRoot n invert =
    Complex.exp (2 * Real.pi * Complex.I / n * (if invert then -1 else 1)) := by
  have hangle : (2 * Real.pi * Complex.I / n * (if invert then -1 else 1) : ℂ) =
      ((2 * Real.pi / n * (if invert then -1 else 1) : ℝ) : ℂ) * Complex.I := by
    cases invert with
    | false =>
        simp only [Bool.false_eq_true, if_false]
        push_cast
        ring
    | true =>
        simp only [if_true]
        push_cast
        ring
  rw [hangle]
  apply Complex.ext
  · rw [Complex.exp_ofReal_mul_I_re]
    rfl
  · rw [Complex.exp_ofReal_mul_I_im]
    rfl

theorem unitRoot_roots : Roots unitRoot := by
  have hinverse : ∀ n, unitRoot n true = (unitRoot n false)⁻¹ := by
    intro n
    rw [unitRoot_eq_exp, unitRoot_eq_exp, ← Complex.exp_neg]
    simp
  constructor
  · intro n hn invert
    have hprimitive : IsPrimitiveRoot (unitRoot n false) n := by
      rw [unitRoot_eq_exp]
      simpa using Complex.isPrimitiveRoot_exp n hn.ne'
    cases invert with
    | false => exact hprimitive
    | true =>
        rw [hinverse]
        exact hprimitive.inv
  · intro n hn invert
    have hne : (n : ℂ) ≠ 0 := Nat.cast_ne_zero.mpr hn.ne'
    rw [unitRoot_eq_exp, unitRoot_eq_exp, ← Complex.exp_nat_mul]
    congr 1
    push_cast
    field_simp
  · intro n _
    exact hinverse n

theorem stdRound_intCast (c : Int) : stdRound ((c : ℂ)).re = c := by
  have hre : ((c : ℂ)).re = (c : ℝ) := Complex.intCast_re c
  rw [hre, stdRound]
  split
  · apply Int.floor_eq_iff.mpr
    constructor <;> linarith
  · apply Int.ceil_eq_iff.mpr
    constructor <;> linarith

/-- The inverse transform of the transform, of vectors whose length is an `int`. -/
theorem fftInt_inverse {wn : Nat → Bool → K} [CharZero K] (hroots : Roots wn) {m fuel : Nat}
    {a : List K} (ha : a.length = 2 ^ m) (hint : 2 ^ m < 2 ^ 31) (hfuel : m < fuel) :
    ∃ y, fftInt wn fuel a false = some y ∧ Transformed wn false a y ∧
      fftInt wn fuel y true = some a := by
  have hsize : ∀ b : List K, b.length ≤ 2 ^ m → intSize b = some b.length :=
    fun b hb => intSize_eq (hb.trans_lt hint)
  have hpos : 0 < 2 ^ m := Nat.two_pow_pos m
  obtain ⟨y, hy, hforward⟩ := fftWith_spec hroots false hsize ha hfuel
  have hlength : y.length = 2 ^ m := hforward.1.trans ha
  obtain ⟨z, hz, hback⟩ := fftWith_spec hroots true hsize hlength hfuel
  have hvalues : ∀ k < 2 ^ m, y[k]? = some ((ofCoeffs a).eval (wn (2 ^ m) false ^ k)) := by
    intro k hk
    rw [hforward.2 k (by omega), factor, if_neg Bool.false_ne_true, one_mul, ha]
  have hcoeff := hback.coefficients hroots hpos hlength
    (natDegree_ofCoeffs_lt hpos ha.le) hvalues
  have hsame : z = a := by
    apply List.ext_getElem?
    intro k
    rcases Nat.lt_or_ge k (2 ^ m) with hlt | hge
    · have hka : k < a.length := by omega
      rw [hcoeff k hlt, coeff_ofCoeffs, List.getD_eq_getElem?_getD,
        List.getElem?_eq_getElem hka, Option.getD_some]
    · have hz' : z.length = 2 ^ m := hback.1.trans hlength
      rw [List.getElem?_eq_none (by omega), List.getElem?_eq_none (by omega)]
  exact ⟨y, hy, hforward, hsame ▸ hz⟩

/-- With fuel for all the halvings. -/
theorem fft_transform (m fuel : Nat) (a : List ℂ) (ha : a.length = 2 ^ m)
    (hint : 2 ^ m < 2 ^ 31) (hfuel : m < fuel) :
    ∃ y, fftInt unitRoot fuel a false = some y ∧ y.length = a.length ∧
      (∀ k < a.length, y[k]? = some (∑ j ∈ range a.length,
        a.getD j 0 * Complex.exp (2 * Real.pi * Complex.I / a.length) ^ (j * k))) ∧
      fftInt unitRoot fuel y true = some a := by
  obtain ⟨y, hy, ⟨hlength, hvalue⟩, hback⟩ := fftInt_inverse unitRoot_roots ha hint hfuel
  refine ⟨y, hy, hlength, fun k hk => ?_, hback⟩
  have hpos : 0 < a.length := Nat.zero_lt_of_lt hk
  rw [hvalue k hk, factor, if_neg Bool.false_ne_true, one_mul, eval_ofCoeffs hpos le_rfl,
    unitRoot_eq_exp, if_neg Bool.false_ne_true, mul_one]
  congr 1
  apply sum_congr rfl
  intro j _
  rw [← pow_mul, mul_comm k j]

theorem fft_transform_two : ∃ y, fftInt unitRoot 2 [1, Complex.I] false = some y ∧
    fftInt unitRoot 2 y true = some [1, Complex.I] := by
  obtain ⟨y, hy, -, -, hback⟩ :=
    fft_transform 1 2 [1, Complex.I] rfl (by decide) (by decide)
  exact ⟨y, hy, hback⟩

/-- The length is -2^31 as an `int`. -/
theorem fftInt_long : ¬ ∃ fuel y,
    fftInt unitRoot fuel (List.replicate (2 ^ 31) (0 : ℂ)) false = some y := by
  have hwrap : ((2 ^ 31 : Nat) : Int).bmod (2 ^ 32) = -2 ^ 31 := by decide
  have hsize : intSize (List.replicate (2 ^ 31) (0 : ℂ)) = none := by
    unfold intSize
    dsimp only
    rw [List.length_replicate, hwrap]
    exact if_neg (by decide)
  rintro ⟨fuel, y, hy⟩
  cases fuel with
  | zero => cases hy
  | succ fuel =>
      rw [fftInt, fftWith, hsize] at hy
      cases hy

end Fft

end MoreCpp
