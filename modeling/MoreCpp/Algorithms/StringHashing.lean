import MoreCpp.Library.Cells
import MoreCpp.Library.Letters
import MoreCpp.Library.Loop
import MoreCpp.Library.Rearrangements
import MoreCpp.Library.RollingHash
import MoreCpp.Library.SignedInt
import Mathlib.Algebra.BigOperators.Intervals
import Mathlib.Data.List.ModifyLast
import Mathlib.Tactic.NormNum.Prime
import Mathlib.Tactic.ReduceModChar

/-!
`compute_hash`, `count_unique_substrings` and `group_identical_strings` of
`data/string_hasing.hpp`. What does not fit
in 64 bits gives `none`, and so does an index out of range; the count is converted to 32 bits.
-/

namespace MoreCpp

open Library

namespace StringHashing

def p : Int := 31

def m : Int := 1000000009

/-- A result of 64-bit arithmetic. -/
def int64 (a : Int) : Option Int := signed 64 a

/-- The conversion to `int`. -/
def toInt (a : Int) : Int := a.bmod (2 ^ 32)

/-- `(hash + (c - 'a' + 1) * pow) % m`. -/
def addTerm (hash : Int) (c : Char) (pow : Int) : Option Int := do
  let term ← int64 ((letter c + 1) * pow)
  let sum ← int64 (hash + term)
  return sum.tmod m

/-- `(pow * p) % m`. -/
def nextPow (pow : Int) : Option Int := do
  let product ← int64 (pow * p)
  return product.tmod m

/-- A turn of the loop of `compute_hash`, with `hash_value` and `p_pow`. -/
def hashRound (state : Int × Int) (c : Char) : Option (Int × Int) := do
  let hashValue ← addTerm state.1 c state.2
  let pPow ← nextPow state.2
  return (hashValue, pPow)

def computeHash (s : List Char) : Option Int := do
  let state ← s.foldlM hashRound (0, 1)
  return state.1

/-- `p_pow`. -/
def powers (n : Nat) : Option (List Int) := do
  let pPow ← store (List.replicate n 0) 0 1
  forRange 1 n (fun i pPow => do
    let last ← pPow[i - 1]?
    let pow ← nextPow last
    store pPow i pow) pPow

/-- `h`. -/
def prefixHashes (s : List Char) (pPow : List Int) : Option (List Int) :=
  forRange 0 s.length (fun i h => do
    let last ← h[i]?
    let c ← s[i]?
    let pow ← pPow[i]?
    let hash ← addTerm last c pow
    store h (i + 1) hash) (List.replicate (s.length + 1) 0)

/-- `cur_h` for the `l` characters from `i` on. -/
def curHash (pPow h : List Int) (n l i : Nat) : Option Int := do
  let last ← h[i + l]?
  let before ← h[i]?
  let raised ← int64 (last + m)
  let curH ← int64 (raised - before)
  let pow ← pPow[n - i - 1]?
  let product ← int64 (curH.tmod m * pow)
  return product.tmod m

/-- `hs` for the substrings of length `l`. -/
def hashSet (pPow h : List Int) (n l : Nat) : Option (Finset Int) :=
  forRange 0 (n - l + 1) (fun i hs => do
    let curH ← curHash pPow h n l i
    return insert curH hs) ∅

def countUniqueSubstrings (s : List Char) : Option Int := do
  let n := s.length
  let pPow ← powers n
  let h ← prefixHashes s pPow
  forRange 1 (n + 1) (fun l cnt => do
    let hs ← hashSet pPow h n l
    return toInt (cnt + hs.card)) 0

variable {s u : List Char} {pPow h : List Int} {c : Char} {hash pow : Int} {i k l n : Nat}

/-! ## Arithmetic -/

theorem int64_eq {a : Int} (ha : 0 ≤ a) (hless : a < 2 ^ 63) : int64 a = some a :=
  signed_eq (by omega) hless

/-- The values of a hash. -/
def Reduced (a : Int) : Prop := 0 ≤ a ∧ a < m

theorem reduced_emod (a : Int) : Reduced (a % m) :=
  ⟨Int.emod_nonneg a (by decide), Int.emod_lt_of_pos a (by decide)⟩

theorem addTerm_eq (hhash : Reduced hash) (hc : c.isLower) (hpow : Reduced pow) :
    addTerm hash c pow = some ((hash + (letter c + 1) * pow) % m) := by
  obtain ⟨hhash, hhash'⟩ := hhash
  obtain ⟨hpow, hpow'⟩ := hpow
  obtain ⟨hletter, hletter'⟩ := letter_bounds hc
  have hm : m = 1000000009 := rfl
  have hterm : 0 ≤ (letter c + 1) * pow := by positivity
  have hterm' : (letter c + 1) * pow ≤ 26 * m := by
    apply Int.mul_le_mul <;> omega
  have hfits : int64 ((letter c + 1) * pow) = some ((letter c + 1) * pow) :=
    int64_eq hterm (by omega)
  have hfits' : int64 (hash + (letter c + 1) * pow) = some (hash + (letter c + 1) * pow) :=
    int64_eq (by omega) (by omega)
  rw [addTerm, hfits, Option.bind_eq_bind, Option.bind_some, hfits', Option.bind_some,
    Int.tmod_eq_emod_of_nonneg (by omega)]
  rfl

theorem nextPow_eq (hpow : Reduced pow) : nextPow pow = some (pow * p % m) := by
  obtain ⟨hpow, hpow'⟩ := hpow
  have hm : m = 1000000009 := rfl
  have hproduct : pow * p = pow * 31 := rfl
  rw [nextPow, int64_eq (by omega) (by omega), Option.bind_eq_bind, Option.bind_some,
    Int.tmod_eq_emod_of_nonneg (by omega)]
  rfl

/-! ## Hashes -/

def powAt (k : Nat) : Int := p ^ k % m

/-- The coefficients of a string. -/
def codes (s : List Char) : List Int := s.map fun c => letter c + 1

def hashOf (s : List Char) : Int := polyHash p (codes s) % m

theorem powAt_modEq (k : Nat) : powAt k ≡ p ^ k [ZMOD m] := Int.mod_modEq ..

theorem hashOf_modEq (s : List Char) : hashOf s ≡ polyHash p (codes s) [ZMOD m] :=
  Int.mod_modEq ..

theorem powAt_zero : powAt 0 = 1 := by norm_num [powAt, m]

theorem powAt_succ (k : Nat) : powAt (k + 1) = powAt k * p % m := by
  have hmod : p ^ (k + 1) ≡ powAt k * p [ZMOD m] := by
    rw [pow_succ]
    exact (powAt_modEq k).symm.mul_right p
  exact hmod

theorem hashOf_concat (u : List Char) (c : Char) :
    hashOf (u ++ [c]) = (hashOf u + (letter c + 1) * powAt u.length) % m := by
  have hmod : polyHash p (codes (u ++ [c])) ≡
      hashOf u + (letter c + 1) * powAt u.length [ZMOD m] := by
    rw [codes, List.map_append, List.map_singleton, polyHash_concat, List.length_map, mul_comm]
    exact (hashOf_modEq u).symm.add ((powAt_modEq u.length).symm.mul_left (letter c + 1))
  exact hmod

theorem reduced_powAt (k : Nat) : Reduced (powAt k) := reduced_emod _

theorem reduced_hashOf (s : List Char) : Reduced (hashOf s) := reduced_emod _

theorem computeHash_eq (hlower : ∀ c ∈ s, c.isLower) : computeHash s = some (hashOf s) := by
  have hfold : s.foldlM hashRound (0, 1) = some (hashOf s, powAt s.length) := by
    induction s using List.reverseRecOn with
    | nil => rfl
    | append_singleton u c ih =>
        have hadd := addTerm_eq (reduced_hashOf u) (hlower c (by simp)) (reduced_powAt u.length)
        have hpow := nextPow_eq (reduced_powAt u.length)
        rw [← hashOf_concat] at hadd
        rw [← powAt_succ] at hpow
        rw [List.foldlM_append, ih fun d hd => hlower d (List.mem_append_left [c] hd)]
        simp [hashRound, hadd, hpow]
  rw [computeHash, hfold]
  rfl

/-! ## Prefix hashes -/

theorem powers_spec (hn : 0 < n) : ∃ pPow, powers n = some pPow ∧ Filled powAt n n pPow := by
  have hzero : Filled powAt n 0 (List.replicate n 0) :=
    ⟨List.length_replicate, fun j hj => absurd hj (Nat.not_lt_zero j)⟩
  obtain ⟨first, hfirst, hone⟩ := hzero.store hn
  have hloop : ∃ pPow, forRange 1 n (fun i pPow => do
      let last ← pPow[i - 1]?
      let pow ← nextPow last
      store pPow i pow) first = some pPow ∧ Filled powAt n (max 1 n) pPow := by
    refine forRange_rule (Filled powAt n) hone ?_
    intro i pPow hpos hi h
    obtain ⟨i, rfl⟩ := Nat.exists_eq_add_of_le' hpos
    have hlast := h.read i (Nat.lt_succ_self i)
    obtain ⟨pPow', hstore, h'⟩ := h.store hi
    have hnext : nextPow (powAt i) = some (powAt (i + 1)) := by
      rw [nextPow_eq (reduced_powAt i), powAt_succ]
    refine ⟨pPow', ?_, h'⟩
    rw [Nat.add_sub_cancel, hlast, Option.bind_eq_bind, Option.bind_some, hnext, ← hstore]
    rfl
  obtain ⟨pPow, hrun, h⟩ := hloop
  rw [Nat.max_eq_right hn] at h
  refine ⟨pPow, ?_, h⟩
  rw [powAt_zero] at hfirst
  rw [powers, hfirst, ← hrun]
  rfl

/-- The hash of the first `k` characters. -/
def prefixHash (s : List Char) (k : Nat) : Int := hashOf (s.take k)

theorem prefixHash_succ (hc : s[k]? = some c) :
    prefixHash s (k + 1) = (prefixHash s k + (letter c + 1) * powAt k) % m := by
  have hk : k < s.length := (List.getElem?_eq_some_iff.mp hc).1
  have hlength : (s.take k).length = k := List.length_take_of_le (Nat.le_of_lt hk)
  rw [prefixHash, List.take_add_one, hc, Option.toList_some, hashOf_concat, hlength]
  rfl

theorem prefixHashes_spec (hlower : ∀ c ∈ s, c.isLower)
    (hpow : Filled powAt s.length s.length pPow) : ∃ h, prefixHashes s pPow = some h ∧
      Filled (prefixHash s) (s.length + 1) (s.length + 1) h := by
  have hzero : Filled (prefixHash s) (s.length + 1) (0 + 1)
      (List.replicate (s.length + 1) 0) := by
    refine ⟨List.length_replicate, fun j hj => ?_⟩
    obtain rfl := Nat.lt_one_iff.mp hj
    rfl
  have hloop : ∃ h, prefixHashes s pPow = some h ∧
      Filled (prefixHash s) (s.length + 1) (max 0 s.length + 1) h := by
    refine forRange_rule (fun i h => Filled (prefixHash s) (s.length + 1) (i + 1) h) hzero ?_
    intro i h _ hi hfilled
    have hc := List.getElem?_eq_getElem hi
    have hlast := hfilled.read i (Nat.lt_succ_self i)
    obtain ⟨h', hstore, hfilled'⟩ := hfilled.store (Nat.succ_lt_succ hi)
    have hadd := addTerm_eq (reduced_hashOf (s.take i)) (hlower s[i] (List.getElem_mem hi))
      (reduced_powAt i)
    refine ⟨h', ?_, hfilled'⟩
    rw [← prefixHash, ← prefixHash_succ hc] at hadd
    simp [hlast, hc, hpow.read i hi, hadd, hstore]
  rwa [Nat.zero_max] at hloop

/-! ## Counting -/

/-- The `l` characters from `i` on. -/
def substr (s : List Char) (i l : Nat) : List Char := (s.drop i).take l

theorem isLower_substr (hlower : ∀ c ∈ s, c.isLower) : ∀ c ∈ substr s i l, c.isLower :=
  fun c hc => hlower c (List.mem_of_mem_drop (List.mem_of_mem_take hc))

theorem codes_take (s : List Char) (k : Nat) : codes (s.take k) = (codes s).take k :=
  List.map_take ..

theorem codes_substr (s : List Char) (i l : Nat) :
    codes (substr s i l) = ((codes s).drop i).take l := by
  rw [substr, codes_take, codes, List.map_drop]
  rfl

/-- What position and length bring in is the same for all substrings. -/
theorem normalised_modEq (hi : i < s.length) :
    (prefixHash s (i + l) + m - prefixHash s i) * powAt (s.length - i - 1) ≡
      hashOf (substr s i l) * p ^ (s.length - 1) [ZMOD m] := by
  have hlength : i < (codes s).length := by
    rw [codes, List.length_map]
    exact hi
  have hdiff : prefixHash s (i + l) + m - prefixHash s i ≡
      polyHash p ((codes s).take (i + l)) - polyHash p ((codes s).take i) [ZMOD m] := by
    rw [← codes_take, ← codes_take]
    have hraised : prefixHash s (i + l) + m ≡ polyHash p (codes (s.take (i + l))) [ZMOD m] :=
      (Int.add_modEq_right ..).trans (hashOf_modEq _)
    exact hraised.sub (hashOf_modEq _)
  calc (prefixHash s (i + l) + m - prefixHash s i) * powAt (s.length - i - 1)
      ≡ (polyHash p ((codes s).take (i + l)) - polyHash p ((codes s).take i)) *
        p ^ (s.length - i - 1) [ZMOD m] := hdiff.mul (powAt_modEq _)
    _ = polyHash p (codes (substr s i l)) * p ^ (s.length - 1) := by
        rw [polyHash_normalised hlength hi, codes_substr]
    _ ≡ hashOf (substr s i l) * p ^ (s.length - 1) [ZMOD m] := (hashOf_modEq _).symm.mul_right _

/-- What is read and computed for `cur_h`. -/
theorem curHash_of_reads {last before : Int} (hlast : h[i + l]? = some last)
    (hbefore : h[i]? = some before) (hread : pPow[n - i - 1]? = some pow)
    (hreduced : Reduced last) (hreduced' : Reduced before) (hpow : Reduced pow) :
    curHash pPow h n l i = some ((last + m - before) * pow % m) := by
  have hm : m = 1000000009 := rfl
  obtain ⟨hlow, hhigh⟩ := hreduced
  obtain ⟨hlow', hhigh'⟩ := hreduced'
  obtain ⟨hpowLow, hpowHigh⟩ := hpow
  obtain ⟨hcurLow, hcurHigh⟩ := reduced_emod (last + m - before)
  have hproductLow : 0 ≤ (last + m - before) % m * pow := Int.mul_nonneg hcurLow hpowLow
  have hproductHigh : (last + m - before) % m * pow ≤ m * m :=
    Int.mul_le_mul (Int.le_of_lt hcurHigh) (Int.le_of_lt hpowHigh) hpowLow (by decide)
  have hraised : int64 (last + m) = some (last + m) := int64_eq (by omega) (by omega)
  have hcur : int64 (last + m - before) = some (last + m - before) :=
    int64_eq (by omega) (by omega)
  have hmod : (last + m - before).tmod m = (last + m - before) % m :=
    Int.tmod_eq_emod_of_nonneg (by omega)
  have hproduct : int64 ((last + m - before) % m * pow) =
      some ((last + m - before) % m * pow) :=
    int64_eq hproductLow (lt_of_le_of_lt hproductHigh (by norm_num [m]))
  have hresult : (last + m - before) % m * pow % m = (last + m - before) * pow % m :=
    (Int.mod_modEq ..).mul_right pow
  simp [curHash, hlast, hbefore, hread, hraised, hcur, hmod, hproduct,
    Int.tmod_eq_emod_of_nonneg hproductLow, hresult]

theorem curHash_eq (hpow : Filled powAt s.length s.length pPow)
    (hh : Filled (prefixHash s) (s.length + 1) (s.length + 1) h) (hi : i < s.length)
    (hl : i + l ≤ s.length) : curHash pPow h s.length l i =
      some (hashOf (substr s i l) * p ^ (s.length - 1) % m) := by
  have hlast := hh.read (i + l) (by omega)
  have hbefore := hh.read i (by omega)
  have hread := hpow.read (s.length - i - 1) (by omega)
  rw [curHash_of_reads hlast hbefore hread (reduced_hashOf _) (reduced_hashOf _)
    (reduced_powAt _)]
  exact congrArg some (normalised_modEq hi)

/-- `hs` holds the hashes of the substrings, all multiplied by one power. -/
theorem hashSet_eq (hpow : Filled powAt s.length s.length pPow)
    (hh : Filled (prefixHash s) (s.length + 1) (s.length + 1) h) (hl : 1 ≤ l)
    (hl' : l ≤ s.length) : hashSet pPow h s.length l =
      some ((Finset.range (s.length - l + 1)).image fun i =>
        hashOf (substr s i l) * p ^ (s.length - 1) % m) := by
  have hloop : ∃ hs, hashSet pPow h s.length l = some hs ∧
      hs = (Finset.range (max 0 (s.length - l + 1))).image fun i =>
        hashOf (substr s i l) * p ^ (s.length - 1) % m := by
    refine forRange_rule (fun i hs => hs = (Finset.range i).image fun i =>
      hashOf (substr s i l) * p ^ (s.length - 1) % m) rfl ?_
    rintro i _ - hi rfl
    refine ⟨_, ?_, rfl⟩
    rw [curHash_eq hpow hh (by omega) (by omega), Finset.range_add_one, Finset.image_insert]
    rfl
  obtain ⟨hs, hrun, rfl⟩ := hloop
  rwa [Nat.zero_max] at hrun

/-- How many values `compute_hash` has on the substrings of length `l`. -/
def hashCount (s : List Char) (l : Nat) : Nat :=
  ((Finset.range (s.length - l + 1)).image fun i => computeHash (substr s i l)).card

/-- That over all lengths. -/
def hashTotal (s : List Char) : Nat := ∑ l ∈ Finset.Icc 1 s.length, hashCount s l

theorem coprime_p : IsCoprime m p := by
  rw [Int.isCoprime_iff_gcd_eq_one]
  decide

theorem card_image_normalised (hlower : ∀ c ∈ s, c.isLower) (k : Nat) :
    ((Finset.range (s.length - l + 1)).image fun i =>
      hashOf (substr s i l) * p ^ k % m).card = hashCount s l := by
  have hhash : ∀ i, computeHash (substr s i l) = some (hashOf (substr s i l)) := fun i =>
    computeHash_eq (isLower_substr hlower)
  have hinj : Set.InjOn (fun x => x * p ^ k % m)
      ((Finset.range (s.length - l + 1)).image fun i => hashOf (substr s i l)) := by
    refine (mul_pow_emod_injOn coprime_p k).mono fun x hx => ?_
    obtain ⟨i, -, rfl⟩ := Finset.mem_image.mp hx
    exact reduced_hashOf _
  rw [hashCount]
  simp only [hhash]
  rw [← Function.comp_def some, ← Finset.image_image,
    Finset.card_image_of_injective _ (Option.some_injective Int), ← Finset.card_image_of_injOn hinj,
    Finset.image_image]
  rfl

theorem toInt_add (a b : Int) : toInt (toInt a + b) = toInt (a + b) := Int.bmod_add_bmod

/-- The count, converted to `int` after every length. -/
theorem countUniqueSubstrings_spec (hne : s ≠ []) (hlower : ∀ c ∈ s, c.isLower) :
    ∃ pPow h, powers s.length = some pPow ∧ prefixHashes s pPow = some h ∧
      (∀ i l, 1 ≤ l → i + l ≤ s.length → curHash pPow h s.length l i =
        some (hashOf (substr s i l) * p ^ (s.length - 1) % m)) ∧
      countUniqueSubstrings s = some (toInt (hashTotal s)) := by
  obtain ⟨pPow, hpowers, hpow⟩ := powers_spec (List.length_pos_iff.mpr hne)
  obtain ⟨h, hprefix, hh⟩ := prefixHashes_spec hlower hpow
  refine ⟨pPow, h, hpowers, hprefix, fun i l hl hin => curHash_eq hpow hh (by omega) hin, ?_⟩
  have hempty : (0 : Int) = toInt (∑ k ∈ Finset.Ico 1 1, hashCount s k : Nat) := by
    rw [Finset.Ico_self, Finset.sum_empty]
    exact Int.zero_bmod.symm
  have hloop : ∃ cnt, forRange 1 (s.length + 1) (fun l cnt => do
      let hs ← hashSet pPow h s.length l
      return toInt (cnt + hs.card)) 0 = some cnt ∧
      cnt = toInt (∑ l ∈ Finset.Ico 1 (max 1 (s.length + 1)), hashCount s l : Nat) := by
    refine forRange_rule (fun l cnt => cnt = toInt (∑ k ∈ Finset.Ico 1 l, hashCount s k : Nat))
      hempty ?_
    intro l cnt hl hl' hcnt
    refine ⟨toInt (cnt + hashCount s l), ?_, ?_⟩
    · rw [hashSet_eq hpow hh hl (Nat.le_of_lt_succ hl'), Option.bind_eq_bind, Option.bind_some,
        card_image_normalised hlower]
      rfl
    · rw [hcnt, toInt_add, Finset.sum_Ico_succ_top hl, Nat.cast_add]
  obtain ⟨cnt, hcount, hcnt⟩ := hloop
  have hrange : Finset.Ico 1 (max 1 (s.length + 1)) = Finset.Icc 1 s.length := by
    ext k
    rw [Finset.mem_Ico, Finset.mem_Icc]
    omega
  rw [hcnt, hrange] at hcount
  simp only [countUniqueSubstrings, hpowers, hprefix, Option.bind_eq_bind, Option.bind_some]
  exact hcount

theorem toInt_eq {a : Nat} (ha : a < 2 ^ 31) : toInt a = a := natCast_bmod ha

theorem orderOf_p : orderOf (p : ZMod 1000000009) = 35714286 := by
  have hp : (p : ZMod 1000000009) = 31 := rfl
  rw [hp]
  apply orderOf_eq_of_pow_and_pow_div_prime (by norm_num)
  case hx => reduce_mod_char
  case hd =>
    intro q hq hdvd
    have hfactors : 35714286 = 2 * (3 ^ 2 * (109 ^ 2 * 167)) := by norm_num
    have hprime : ∀ r, r.Prime → q ∣ r → q = r := fun r hr => (Nat.prime_dvd_prime_iff_eq hq hr).mp
    have hcases : q = 2 ∨ q = 3 ∨ q = 109 ∨ q = 167 := by
      rw [hfactors, hq.dvd_mul, hq.dvd_mul, hq.dvd_mul] at hdvd
      refine hdvd.imp (hprime 2 (by norm_num)) (Or.imp ?_ (Or.imp ?_ (hprime 167 (by norm_num))))
      · exact fun h => hprime 3 (by norm_num) (hq.dvd_of_dvd_pow h)
      · exact fun h => hprime 109 (by norm_num) (hq.dvd_of_dvd_pow h)
    rcases hcases with rfl | rfl | rfl | rfl
    all_goals
      simp only [Nat.reduceDiv]
      reduce_mod_char
      decide

/-- One `b` among so many `a`s on either side. -/
def oneB (n : Nat) : List Char := List.replicate n 'a' ++ 'b' :: List.replicate n 'a'

theorem substr_oneB {j r : Nat} (hj : j ≤ n) (hr : r ≤ n) : substr (oneB n) (n - j) (j + (r + 1)) =
    List.replicate j 'a' ++ 'b' :: List.replicate r 'a' := by
  have hback : n - (n - j) = j := by omega
  have hnone : n - j - n = 0 := by omega
  simp [substr, oneB, List.drop_append, List.take_append, hback, hnone, hr]

/-- Where the `b` stands decides the hash. -/
theorem hashOf_oneB_inj {j j' r r' : Nat} (hj : j < 35714286) (hj' : j' < 35714286)
    (hlength : j + r = j' + r')
    (heq : hashOf (List.replicate j 'a' ++ 'b' :: List.replicate r 'a') =
      hashOf (List.replicate j' 'a' ++ 'b' :: List.replicate r' 'a')) : j = j' := by
  have hcodes : ∀ j r : Nat,
      polyHash p (codes (List.replicate j 'a' ++ 'b' :: List.replicate r 'a'))
        = polyHash p (List.replicate (j + (r + 1)) 1) + p ^ j := by
    intro j r
    have ha : letter 'a' + 1 = 1 := rfl
    have hb : letter 'b' + 1 = 2 := rfl
    rw [codes, List.map_append, List.map_cons, List.map_replicate, List.map_replicate, ha, hb,
      polyHash_single]
    ring
  have hmod := (hashOf_modEq _).symm.trans ((congrArg (· % m) heq).trans (hashOf_modEq _))
  rw [hcodes, hcodes, ← Nat.add_assoc, ← Nat.add_assoc, hlength] at hmod
  rw [← orderOf_p] at hj hj'
  exact pow_emod_inj hj hj' (Int.ModEq.add_left_cancel' _ hmod)

theorem length_oneB (n : Nat) : (oneB n).length = 2 * n + 1 := by
  simp [oneB]
  omega

theorem isLower_oneB (n : Nat) : ∀ c ∈ oneB n, c.isLower := by
  intro c hc
  rcases List.mem_append.mp hc with ha | hb
  · rw [List.eq_of_mem_replicate ha]
    rfl
  · rcases List.mem_cons.mp hb with rfl | ha
    · rfl
    · rw [List.eq_of_mem_replicate ha]
      rfl

/-- The `b` can stand anywhere. -/
theorem le_hashCount_oneB (hn : n < 35714286) (hl : l ≤ n + 1) : l ≤ hashCount (oneB n) l := by
  have hwindow : ∀ j < l, substr (oneB n) (n - j) l =
      List.replicate j 'a' ++ 'b' :: List.replicate (l - 1 - j) 'a' := by
    intro j hj
    have hsplit : l = j + (l - 1 - j + 1) := by omega
    conv_lhs => rw [hsplit]
    exact substr_oneB (by omega) (by omega)
  calc l = (Finset.range l).card := (Finset.card_range l).symm
    _ ≤ hashCount (oneB n) l := by
        refine Finset.card_le_card_of_injOn (fun j => computeHash (substr (oneB n) (n - j) l)) ?_ ?_
        · intro j hj
          apply Finset.mem_image_of_mem
          rw [Finset.mem_range, length_oneB]
          omega
        · intro j hj j' hj' heq
          rw [Finset.mem_coe, Finset.mem_range] at hj hj'
          simp only [computeHash_eq (isLower_substr (isLower_oneB n))] at heq
          rw [hwindow j hj, hwindow j' hj', Option.some_inj] at heq
          exact hashOf_oneB_inj (by omega) (by omega) (by omega) heq

theorem le_hashTotal_oneB (hn : n < 35714286) : (n + 1) * (n + 2) ≤ 2 * hashTotal (oneB n) := by
  have hgauss := Finset.sum_range_id_mul_two (n + 2)
  have hless : ∑ l ∈ Finset.range (n + 2), l ≤ hashTotal (oneB n) :=
    calc ∑ l ∈ Finset.range (n + 2), l
        ≤ ∑ l ∈ Finset.Icc 1 (n + 1), l := Finset.sum_le_sum_of_ne_zero fun l hl hpos => by
          rw [Finset.mem_range] at hl
          rw [Finset.mem_Icc]
          omega
      _ ≤ ∑ l ∈ Finset.Icc 1 (n + 1), hashCount (oneB n) l := Finset.sum_le_sum fun l hl =>
          le_hashCount_oneB hn (Finset.mem_Icc.mp hl).2
      _ ≤ hashTotal (oneB n) := Finset.sum_le_sum_of_subset <|
          Finset.Icc_subset_Icc_right (by rw [length_oneB]; omega)
  calc (n + 1) * (n + 2) = (∑ l ∈ Finset.range (n + 2), l) * 2 := by
        rw [hgauss, Nat.mul_comm]
        rfl
    _ ≤ 2 * hashTotal (oneB n) := by omega

def hashLe (a b : Int × Nat) : Bool := a.1 < b.1 || a.1 == b.1 && a.2 ≤ b.2

/-- The loop over the sorted hashes, with the hash of the element before. -/
def collectGroups : List (List Nat) → Option Int → List (Int × Nat) → List (List Nat)
  | groups, _, [] => groups
  | groups, previous, (hash, i) :: rest =>
      let groups := if previous = some hash then groups else groups ++ [[]]
      collectGroups (groups.modifyLast (· ++ [i])) (some hash) rest

def groupIdenticalStrings (s : List (List Char)) : Option (List (List Nat)) := do
  let hashes ← s.mapM computeHash
  return collectGroups [] none (hashes.zipIdx.mergeSort hashLe)

/-- What has been collected of the hashes that have been read. -/
structure Collected (read : List (Int × Nat)) (groups : List (List Nat)) : Prop where
  runs : ∃ runs, Runs Prod.fst read runs ∧ groups = runs.map (List.map Prod.snd)

theorem Collected.push {read : List (Int × Nat)} {groups : List (List Nat)} {hash : Int} {i : Nat}
    (h : Collected read groups)
    (hsorted : (read ++ [(hash, i)]).Pairwise fun a b => a.1 ≤ b.1) :
    Collected (read ++ [(hash, i)])
      ((if read.getLast?.map Prod.fst = some hash then groups else groups ++ [[]]).modifyLast
        (· ++ [i])) := by
  obtain ⟨runs, hruns, rfl⟩ := h.runs
  have hnew : ∀ groups : List (List Nat),
      (groups ++ [[]]).modifyLast (· ++ [i]) = groups ++ [[i]] := fun groups =>
    List.modifyLast_concat _ _ _
  rcases List.eq_nil_or_concat read with rfl | ⟨read, b, rfl⟩
  · rw [List.getLast?_nil, Option.map_none, if_neg nofun, hnew]
    have hnil : runs = [] := by
      rcases runs with _ | ⟨g, runs⟩
      · rfl
      · have hempty := hruns.flatten
        rw [List.flatten_cons, List.append_eq_nil_iff] at hempty
        exact absurd hempty.1 (hruns.grouped.nonempty g (by simp))
    rw [hnil]
    exact ⟨[[(hash, i)]], .first, rfl⟩
  · rw [List.concat_eq_append] at hruns hsorted ⊢
    rw [List.getLast?_concat, Option.map_some]
    by_cases hsame : b.1 = hash
    · obtain ⟨runs, g, rfl⟩ := hruns.last
      rw [if_pos (by rw [hsame]), List.map_append, List.map_singleton, List.modifyLast_concat]
      exact ⟨_, hruns.join (a := (hash, i)) hsame, by simp⟩
    · rw [if_neg fun heq => hsame (Option.some.inj heq), hnew]
      exact ⟨_, hruns.alone hsorted hsame, by simp⟩

theorem collected {rest read : List (Int × Nat)} {groups : List (List Nat)}
    (h : Collected read groups) (hsorted : (read ++ rest).Pairwise fun a b => a.1 ≤ b.1) :
    Collected (read ++ rest) (collectGroups groups (read.getLast?.map Prod.fst) rest) := by
  induction rest generalizing read groups with
  | nil => rwa [List.append_nil]
  | cons entry rest ih =>
      obtain ⟨hash, i⟩ := entry
      rw [List.append_cons] at hsorted ⊢
      have hpush := h.push (List.pairwise_append.mp hsorted).1
      have hnext := ih hpush hsorted
      rwa [List.getLast?_concat, Option.map_some] at hnext

theorem pairwise_hashLe (hashes : List (Int × Nat)) :
    (hashes.mergeSort hashLe).Pairwise fun a b => hashLe a b = true := by
  apply List.pairwise_mergeSort
  · intro a b c hab hbc
    simp only [hashLe, Bool.or_eq_true, Bool.and_eq_true, decide_eq_true_eq, beq_iff_eq]
      at hab hbc ⊢
    omega
  · intro a b
    simp only [hashLe, Bool.or_eq_true, Bool.and_eq_true, decide_eq_true_eq, beq_iff_eq]
    omega

variable {strings : List (List Char)} {t u : List Char}

theorem groupIdenticalStrings_runs (hlower : ∀ t ∈ strings, ∀ c ∈ t, c.isLower) :
    ∃ runs, groupIdenticalStrings strings = some (runs.map (List.map Prod.snd)) ∧
      Runs Prod.fst ((strings.map hashOf).zipIdx.mergeSort hashLe) runs := by
  have hhashes : strings.mapM computeHash = some (strings.map hashOf) := by
    induction strings with
    | nil => rfl
    | cons t strings ih =>
        obtain ⟨ht, hrest⟩ := List.forall_mem_cons.mp hlower
        rw [List.mapM_cons, computeHash_eq ht, ih hrest]
        rfl
  have hsorted := (pairwise_hashLe (strings.map hashOf).zipIdx).imp fun {a b} hab => by
    simp only [hashLe, Bool.or_eq_true, Bool.and_eq_true, decide_eq_true_eq, beq_iff_eq] at hab
    exact (show a.1 ≤ b.1 by omega)
  have hstart : Collected [] [] := ⟨[], .nil, rfl⟩
  obtain ⟨⟨runs, hruns, hgroups⟩⟩ := collected hstart hsorted
  refine ⟨runs, ?_, hruns⟩
  rw [groupIdenticalStrings, hhashes, ← hgroups]
  rfl

/-- Strings with one hash below the modulus are the same. -/
theorem polyHash_codes_inj (ht : ∀ c ∈ t, c.isLower) (hu : ∀ c ∈ u, c.isLower)
    (h : polyHash p (codes t) = polyHash p (codes u)) : t = u := by
  have hnonneg : ∀ {w : List Char}, (∀ c ∈ w, c.isLower) → 0 ≤ polyHash p (codes w) := by
    intro w hw
    induction w with
    | nil => rfl
    | cons c w ih =>
        obtain ⟨hc, hw⟩ := List.forall_mem_cons.mp hw
        have hrest := ih hw
        have hletter := letter_bounds hc
        change 0 ≤ letter c + 1 + 31 * polyHash p (codes w)
        omega
  induction t generalizing u with
  | nil =>
      cases u with
      | nil => rfl
      | cons d u =>
          obtain ⟨hd, hu⟩ := List.forall_mem_cons.mp hu
          have hletter := letter_bounds hd
          have hrest := hnonneg hu
          change 0 = letter d + 1 + 31 * polyHash p (codes u) at h
          omega
  | cons c t ih =>
      obtain ⟨hc, ht⟩ := List.forall_mem_cons.mp ht
      have hletter := letter_bounds hc
      have hrest := hnonneg ht
      cases u with
      | nil =>
          change letter c + 1 + 31 * polyHash p (codes t) = 0 at h
          omega
      | cons d u =>
          obtain ⟨hd, hu⟩ := List.forall_mem_cons.mp hu
          have hletter' := letter_bounds hd
          change letter c + 1 + 31 * polyHash p (codes t) =
            letter d + 1 + 31 * polyHash p (codes u) at h
          have hsame : letter c = letter d := by omega
          have hcd : c = d := by
            unfold letter at hsame
            exact Char.toNat_inj.mp (by omega)
          rw [hcd, ih ht hu (by omega)]

theorem polyHash_codes_lt (ht : ∀ c ∈ t, c.isLower) :
    0 ≤ polyHash p (codes t) ∧ polyHash p (codes t) < 31 ^ t.length := by
  induction t with
  | nil => exact ⟨Int.le_refl 0, by decide⟩
  | cons c t ih =>
      obtain ⟨hc, ht⟩ := List.forall_mem_cons.mp ht
      obtain ⟨hlow, hhigh⟩ := ih ht
      have hletter := letter_bounds hc
      rw [List.length_cons, pow_succ]
      change 0 ≤ letter c + 1 + 31 * polyHash p (codes t) ∧
        letter c + 1 + 31 * polyHash p (codes t) < _
      omega

/-- Up to six letters there are fewer values than the modulus. -/
theorem hashOf_inj (ht : ∀ c ∈ t, c.isLower) (hu : ∀ c ∈ u, c.isLower) (htlen : t.length ≤ 6)
    (hulen : u.length ≤ 6) (h : hashOf t = hashOf u) : t = u := by
  have hsmall : ∀ {w : List Char}, (∀ c ∈ w, c.isLower) → w.length ≤ 6 →
      hashOf w = polyHash p (codes w) := by
    intro w hw hlen
    obtain ⟨hlow, hhigh⟩ := polyHash_codes_lt hw
    have hpow : (31 : Int) ^ w.length ≤ 31 ^ 6 := pow_le_pow_right₀ (by decide) hlen
    have hm : m = 1000000009 := rfl
    exact Int.emod_eq_of_lt hlow (by omega)
  rw [hsmall ht htlen, hsmall hu hulen] at h
  exact polyHash_codes_inj ht hu h

/-- The indices of the strings in groups of one hash each, which are groups of one string each
as far as the strings have at most six letters. -/
theorem groupIdenticalStrings_spec (strings : List (List Char))
    (hlower : ∀ t ∈ strings, ∀ c ∈ t, c.isLower) : ∃ groups,
      groupIdenticalStrings strings = some groups ∧
      groups.flatten.Perm (List.range strings.length) ∧
      (∀ g ∈ groups, g ≠ [] ∧ g.Pairwise (· < ·)) ∧
      ∀ i j t u, strings[i]? = some t → strings[j]? = some u →
        ((∃ g ∈ groups, i ∈ g ∧ j ∈ g) ↔ computeHash t = computeHash u) ∧
        (t.length ≤ 6 → u.length ≤ 6 → ((∃ g ∈ groups, i ∈ g ∧ j ∈ g) ↔ t = u)) := by
  obtain ⟨runs, hrun, hruns⟩ := groupIdenticalStrings_runs hlower
  have hperm := List.mergeSort_perm (strings.map hashOf).zipIdx hashLe
  have hindices : (runs.map (List.map Prod.snd)).flatten.Perm (List.range strings.length) := by
    rw [← List.map_flatten, hruns.flatten, List.range_eq_range']
    have hsnd := hperm.map Prod.snd
    rwa [List.zipIdx_map_snd, List.length_map] at hsnd
  have hnodup : (runs.map (List.map Prod.snd)).flatten.Nodup :=
    hindices.nodup_iff.mpr List.nodup_range
  refine ⟨_, hrun, hindices, fun g hg => ?_, fun i j t u hi hj => ?_⟩
  · obtain ⟨run, hmem, rfl⟩ := List.mem_map.mp hg
    refine ⟨fun hnil => hruns.grouped.nonempty run hmem (List.map_eq_nil_iff.mp hnil), ?_⟩
    have hsub : run.Sublist ((strings.map hashOf).zipIdx.mergeSort hashLe) := by
      rw [← hruns.flatten]
      exact List.sublist_flatten_of_mem hmem
    have hle : (run.map Prod.snd).Pairwise (· ≤ ·) := by
      refine List.pairwise_map.mpr ?_
      refine ((pairwise_hashLe _).sublist hsub).imp_of_mem fun {a b} ha hb hab => ?_
      have hsame := hruns.grouped.same run hmem a ha b hb
      simp only [hashLe, Bool.or_eq_true, Bool.and_eq_true, decide_eq_true_eq] at hab
      omega
    have hne : (run.map Prod.snd).Nodup := (List.nodup_flatten.mp hnodup).1 _ hg
    exact hle.imp₂ (fun a b hab hne => Nat.lt_of_le_of_ne hab hne) hne
  · have hhash : ∀ {k w hash}, strings[k]? = some w →
        ((hash, k) ∈ (strings.map hashOf).zipIdx.mergeSort hashLe ↔ hashOf w = hash) := by
      intro k w hash hk
      rw [hperm.mem_iff, List.mem_zipIdx_iff_getElem?, List.getElem?_map, hk, Option.map_some,
        Option.some_inj]
    have hmem : ∀ {run k w}, run ∈ runs → strings[k]? = some w →
        (k ∈ run.map Prod.snd ↔ (hashOf w, k) ∈ run) := by
      intro run k w hmem hk
      rw [List.mem_map]
      constructor
      · rintro ⟨⟨hash, k⟩, hentry, rfl⟩
        have hread := hruns.grouped.mem_iff.mpr ⟨run, hmem, hentry⟩
        rwa [(hhash hk).mp hread]
      · exact fun hentry => ⟨_, hentry, rfl⟩
    have htogether : (∃ g ∈ runs.map (List.map Prod.snd), i ∈ g ∧ j ∈ g) ↔
        hashOf t = hashOf u := by
      have hboth := hruns.grouped.together_iff ((hhash hi).mpr rfl) ((hhash hj).mpr rfl)
      rw [← hboth]
      constructor
      · rintro ⟨g, hg, hig, hjg⟩
        obtain ⟨run, hrun, rfl⟩ := List.mem_map.mp hg
        exact ⟨run, hrun, (hmem hrun hi).mp hig, (hmem hrun hj).mp hjg⟩
      · rintro ⟨run, hrun, hig, hjg⟩
        exact ⟨_, List.mem_map_of_mem hrun, (hmem hrun hi).mpr hig, (hmem hrun hj).mpr hjg⟩
    have ht := hlower t (List.mem_of_getElem? hi)
    have hu := hlower u (List.mem_of_getElem? hj)
    refine ⟨?_, fun htlen hulen => ?_⟩
    · rw [htogether, computeHash_eq ht, computeHash_eq hu, Option.some_inj]
    · rw [htogether]
      exact ⟨hashOf_inj ht hu htlen hulen, fun heq => heq ▸ rfl⟩

theorem groupIdenticalStrings_spec_three : ∃ groups,
    groupIdenticalStrings [['b'], ['a'], ['b']] = some groups ∧
    groups.flatten.Perm (List.range 3) ∧ ∃ g ∈ groups, 0 ∈ g ∧ 2 ∈ g := by
  have hall : [['b'], ['a'], ['b']].all (fun t => t.all Char.isLower) = true := by decide
  obtain ⟨groups, hrun, hperm, -, htogether⟩ :=
    groupIdenticalStrings_spec [['b'], ['a'], ['b']]
      fun t ht => List.all_eq_true.mp (List.all_eq_true.mp hall t ht)
  exact ⟨groups, hrun, hperm, (htogether 0 2 ['b'] ['b'] rfl rfl).1.mpr rfl⟩

/-- Two strings of seven letters with one hash. -/
example : hashOf "aagaaeb".toList = hashOf "giagcaa".toList := by decide

end StringHashing

end MoreCpp
