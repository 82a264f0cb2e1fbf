import MoreCpp.Library.Loop
import MoreCpp.Library.Rearrangements
import Mathlib.Algebra.Order.Group.Int
import Mathlib.Data.List.Nodup
import Mathlib.Data.List.Sort

/-!
`threesum` and `trheesum_target` of `algorithms/array/array.cpp`, with sums in exact integers.
`none` is a position outside of the array, or a loop that `fuel` rounds do not end.
-/

namespace MoreCpp

open Library

namespace Threesum

/-- `while (j<k&&arr[j]==arr[j-1])j++;` -/
def skipUp (arr : List Int) (k j : Nat) : Option (Nat ⊕ Nat) :=
  if j < k then do
    let x ← arr[j]?
    let y ← arr[j - 1]?
    return if x = y then .inl (j + 1) else .inr j
  else some (.inr j)

/-- `while (j<k&&arr[k]==arr[k+1])k--;` -/
def skipDown (arr : List Int) (j k : Nat) : Option (Nat ⊕ Nat) :=
  if j < k then do
    let x ← arr[k]?
    let y ← arr[k + 1]?
    return if x = y then .inl (k - 1) else .inr k
  else some (.inr k)

structure Scan where
  ans : List (List Int)
  j : Nat
  k : Nat

/-- A turn of the loop over `j` and `k`. -/
def scanRound (fuel : Nat) (arr : List Int) (i : Nat) (s : Scan) :
    Option (Scan ⊕ List (List Int)) :=
  if s.j < s.k then do
    let a ← arr[i]?
    let b ← arr[s.j]?
    let c ← arr[s.k]?
    if a + b + c < 0 then return .inl { s with j := s.j + 1 }
    else if a + b + c > 0 then return .inl { s with k := s.k - 1 }
    else
      let j ← loop (skipUp arr (s.k - 1)) fuel (s.j + 1)
      let k ← loop (skipDown arr j) fuel (s.k - 1)
      return .inl { ans := s.ans ++ [[a, b, c]], j, k }
  else some (.inr s.ans)

/-- `i&&arr[i]==arr[i-1]`. -/
def repeated (arr : List Int) (i : Nat) : Option Bool :=
  if i = 0 then some false
  else do
    let x ← arr[i]?
    let y ← arr[i - 1]?
    return decide (x = y)

/-- A turn of the loop over `i`, and its test `i<n-2&&arr[i]<=0`. -/
def round (fuel : Nat) (arr : List Int) :
    Nat × List (List Int) → Option ((Nat × List (List Int)) ⊕ List (List Int))
  | (i, ans) =>
    if i + 2 < arr.length then do
      let a ← arr[i]?
      if a ≤ 0 then
        if ← repeated arr i then return .inl (i + 1, ans)
        else
          let ans ← loop (scanRound fuel arr i) fuel { ans, j := i + 1, k := arr.length - 1 }
          return .inl (i + 1, ans)
      else return .inr ans
    else some (.inr ans)

def threesum (fuel : Nat) (arr : List Int) : Option (List (List Int)) :=
  loop (round fuel (arr.mergeSort fun x y => x ≤ y)) fuel (0, [])

variable {arr : List Int} {v : Nat → Int} {i j k fuel : Nat}

/-! ## Skipping -/

theorem skipUp_spec (h : Ascends arr v) (hk : k < arr.length) (hj : 0 < j)
    (hfuel : arr.length < fuel) : ∃ j', loop (skipUp arr k) fuel j = some j' ∧ j ≤ j' ∧
      (∀ t, j ≤ t → t < j' → v t = v (j - 1)) ∧ (j' < k → v j' ≠ v (j - 1)) := by
  apply loop_total (fun j' => j ≤ j' ∧ ∀ t, j ≤ t → t < j' → v t = v (j - 1)) (fun j' => k - j')
  · rintro j' ⟨hle, hsame⟩
    have hlast : v (j' - 1) = v (j - 1) := by
      obtain rfl | hlt := hle.eq_or_lt
      · rfl
      · exact hsame (j' - 1) (by omega) (by omega)
    unfold skipUp
    split
    case isTrue hlt =>
      rw [h.read j' (by omega), h.read (j' - 1) (by omega), hlast]
      by_cases heq : v j' = v (j - 1)
      · refine .inr ⟨j' + 1, by simp [heq], ⟨by omega, fun t ht ht' => ?_⟩, by omega⟩
        obtain hlt' | rfl := Nat.lt_succ_iff_lt_or_eq.mp ht'
        · exact hsame t ht hlt'
        · exact heq
      · exact .inl ⟨j', by simp [heq], hle, hsame, fun _ => heq⟩
    case isFalse hge => exact .inl ⟨j', rfl, hle, hsame, fun hlt => absurd hlt hge⟩
  · exact ⟨Nat.le_refl _, fun t ht ht' => absurd ht' (Nat.not_lt.mpr ht)⟩
  · omega

theorem skipDown_spec (h : Ascends arr v) (hk : k + 1 < arr.length) (hfuel : arr.length < fuel) :
    ∃ k', loop (skipDown arr j) fuel k = some k' ∧ k' ≤ k ∧
      (∀ t, k' < t → t ≤ k → v t = v (k + 1)) ∧ (j < k' → v k' ≠ v (k + 1)) := by
  apply loop_total (fun k' => k' ≤ k ∧ ∀ t, k' < t → t ≤ k → v t = v (k + 1)) id
  · rintro k' ⟨hle, hsame⟩
    have hlast : v (k' + 1) = v (k + 1) := by
      obtain rfl | hlt := hle.eq_or_lt
      · rfl
      · exact hsame (k' + 1) (by omega) (by omega)
    unfold skipDown
    split
    case isTrue hlt =>
      rw [h.read k' (by omega), h.read (k' + 1) (by omega), hlast]
      by_cases heq : v k' = v (k + 1)
      · refine .inr ⟨k' - 1, by simp [heq], ⟨by omega, fun t ht ht' => ?_⟩, ?_⟩
        · obtain rfl | hne := eq_or_ne t k'
          · exact heq
          · exact hsame t (by omega) ht'
        · exact Nat.sub_lt (Nat.zero_lt_of_lt hlt) Nat.one_pos
      · exact .inl ⟨k', by simp [heq], hle, hsame, fun _ => heq⟩
    case isFalse hge => exact .inl ⟨k', rfl, hle, hsame, fun hlt => absurd hlt hge⟩
  · exact ⟨Nat.le_refl _, fun t ht ht' => absurd ht (Nat.not_lt.mpr ht')⟩
  · exact (Nat.lt_of_succ_lt hk).trans hfuel

/-! ## The scan from `i` -/

/-- The values at three positions in order that add up to 0. -/
def Zero (v : Nat → Int) (n p q r : Nat) : Prop :=
  p < q ∧ q < r ∧ r < n ∧ v p + v q + v r = 0

/-- The triples found since `base`, and where those that are not found yet are. -/
structure Inv (v : Nat → Int) (n i : Nat) (base new : List (List Int)) (s : Scan) : Prop where
  low : i < s.j
  high : s.k < n
  ans : s.ans = base ++ new
  nodup : new.Nodup
  sound : ∀ t ∈ new, ∃ q r, Zero v n i q r ∧ t = [v i, v q, v r] ∧
    (s.j < s.k → v q < v s.j ∧ v s.k < v r)
  complete : ∀ q r, Zero v n i q r → [v i, v q, v r] ∈ new ∨ s.j ≤ q ∧ r ≤ s.k

namespace Inv

variable {n : Nat} {base new : List (List Int)} {s : Scan}

theorem sumLow (h : Inv v arr.length i base new s) (hv : Ascends arr v) (hjk : s.j < s.k)
    (hsum : v i + v s.j + v s.k < 0) :
    Inv v arr.length i base new { s with j := s.j + 1 } where
  low := Nat.lt_succ_of_lt h.low
  high := h.high
  ans := h.ans
  nodup := h.nodup
  sound t ht := by
    obtain ⟨q, r, hzero, rfl, hbounds⟩ := h.sound t ht
    refine ⟨q, r, hzero, rfl, fun hlt => ?_⟩
    have hnext := hv.mono s.j (s.j + 1) (Nat.le_succ _) (hlt.trans h.high)
    exact ⟨(hbounds hjk).1.trans_le hnext, (hbounds hjk).2⟩
  complete q r hzero := by
    obtain hfound | ⟨hj, hk⟩ := h.complete q r hzero
    · exact .inl hfound
    · refine .inr ⟨Nat.succ_le_of_lt (hj.lt_of_ne ?_), hk⟩
      rintro rfl
      have hr := hv.mono r s.k hk h.high
      have hzero := hzero.2.2.2
      omega

theorem sumHigh (h : Inv v arr.length i base new s) (hv : Ascends arr v) (hjk : s.j < s.k)
    (hsum : 0 < v i + v s.j + v s.k) :
    Inv v arr.length i base new { s with k := s.k - 1 } where
  low := h.low
  high := (Nat.sub_le ..).trans_lt h.high
  ans := h.ans
  nodup := h.nodup
  sound t ht := by
    obtain ⟨q, r, hzero, rfl, hbounds⟩ := h.sound t ht
    refine ⟨q, r, hzero, rfl, fun hlt => ?_⟩
    have hnext := hv.mono (s.k - 1) s.k (Nat.sub_le ..) h.high
    exact ⟨(hbounds hjk).1, hnext.trans_lt (hbounds hjk).2⟩
  complete q r hzero := by
    obtain hfound | ⟨hj, hk⟩ := h.complete q r hzero
    · exact .inl hfound
    · refine .inr ⟨hj, Nat.le_sub_one_of_lt (hk.lt_of_ne ?_)⟩
      rintro rfl
      have hq := hv.mono s.j q hj (hzero.2.1.trans hzero.2.2.1)
      have hzero := hzero.2.2.2
      omega

/-- A triple is found, and both positions go on to other values. -/
theorem sumZero (h : Inv v arr.length i base new s) (hv : Ascends arr v) (hjk : s.j < s.k)
    (hsum : v i + v s.j + v s.k = 0) (hj : s.j < j) (hk : k < s.k)
    (hup : ∀ t, s.j ≤ t → t < j → v t = v s.j) (hdown : ∀ t, k < t → t ≤ s.k → v t = v s.k)
    (hnewUp : j < k → v j ≠ v s.j) (hnewDown : j < k → v k ≠ v s.k) :
    Inv v arr.length i base (new ++ [[v i, v s.j, v s.k]])
      { ans := s.ans ++ [[v i, v s.j, v s.k]], j, k } where
  low := h.low.trans hj
  high := hk.trans h.high
  ans := by rw [h.ans, List.append_assoc]
  nodup := by
    refine List.nodup_append'.mpr ⟨h.nodup, List.nodup_singleton _, ?_⟩
    rw [List.disjoint_singleton]
    intro hmem
    obtain ⟨q, r, -, heq, hbounds⟩ := h.sound _ hmem
    have hless := (hbounds hjk).1
    injection heq with _ heq
    injection heq with heq _
    omega
  sound t ht := by
    have hmono : j < k → v s.j < v j ∧ v k < v s.k := by
      intro hlt
      have hj' := hv.mono s.j j hj.le (hlt.trans (hk.trans h.high))
      have hk' := hv.mono k s.k hk.le h.high
      have hne := hnewUp hlt
      have hne' := hnewDown hlt
      omega
    rw [List.mem_append, List.mem_singleton] at ht
    obtain ht | rfl := ht
    · obtain ⟨q, r, hzero, rfl, hbounds⟩ := h.sound t ht
      refine ⟨q, r, hzero, rfl, fun hlt => ?_⟩
      exact ⟨(hbounds hjk).1.trans (hmono hlt).1, (hmono hlt).2.trans (hbounds hjk).2⟩
    · exact ⟨s.j, s.k, ⟨h.low, hjk, h.high, hsum⟩, rfl, hmono⟩
  complete q r hzero := by
    obtain hfound | ⟨hjq, hrk⟩ := h.complete q r hzero
    · exact .inl (List.mem_append_left _ hfound)
    · have hzero := hzero.2.2.2
      by_cases hq : v q = v s.j
      · have hr : v r = v s.k := by omega
        rw [hq, hr]
        exact .inl (by simp)
      · have hr : v r ≠ v s.k := by omega
        refine .inr ⟨Nat.le_of_not_lt fun hlt => hq (hup q hjq hlt), ?_⟩
        exact Nat.le_of_not_lt fun hlt => hr (hdown r hlt hrk)

end Inv

theorem scan_spec (hv : Ascends arr v) (hi : i < arr.length) (base : List (List Int))
    (hfuel : arr.length < fuel) :
    ∃ ans, loop (scanRound fuel arr i) fuel { ans := base, j := i + 1, k := arr.length - 1 } =
      some ans ∧ ∃ new, ans = base ++ new ∧ new.Nodup ∧
        (∀ t ∈ new, ∃ q r, Zero v arr.length i q r ∧ t = [v i, v q, v r]) ∧
          ∀ q r, Zero v arr.length i q r → [v i, v q, v r] ∈ new := by
  apply loop_total (fun s => ∃ new, Inv v arr.length i base new s) fun s => s.k - s.j
  · rintro s ⟨new, h⟩
    unfold scanRound
    split
    case isTrue hjk =>
      right
      have hhi := h.high
      rw [hv.read i hi, hv.read s.j (hjk.trans hhi), hv.read s.k hhi]
      simp only [Option.bind_eq_bind, Option.bind_some]
      split
      case isTrue hlow => exact ⟨_, rfl, ⟨new, h.sumLow hv hjk hlow⟩, by dsimp only; omega⟩
      case isFalse hlow =>
        split
        case isTrue hhigh => exact ⟨_, rfl, ⟨new, h.sumHigh hv hjk hhigh⟩, by dsimp only; omega⟩
        case isFalse hhigh =>
          have hback : s.k - 1 + 1 = s.k := by omega
          have hup := skipUp_spec hv (j := s.j + 1) (k := s.k - 1) (by omega) (by omega) hfuel
          rw [Nat.add_sub_cancel] at hup
          obtain ⟨j, hj, hjle, hup, hnewUp⟩ := hup
          have hdown := skipDown_spec hv (j := j) (k := s.k - 1) (by omega) hfuel
          rw [hback] at hdown
          obtain ⟨k, hk, hkle, hdown, hnewDown⟩ := hdown
          rw [hj, Option.bind_some, hk, Option.bind_some]
          refine ⟨_, rfl, ⟨_, h.sumZero hv hjk (by omega) hjle (by omega) (fun t ht ht' => ?_)
            (fun t ht ht' => ?_) (fun hlt => hnewUp (by omega)) hnewDown⟩, by dsimp only; omega⟩
          · obtain rfl | hlt := ht.eq_or_lt
            · rfl
            · exact hup t hlt ht'
          · obtain rfl | hlt := ht'.eq_or_lt
            · rfl
            · exact hdown t ht (by omega)
    case isFalse hjk =>
      left
      refine ⟨s.ans, rfl, new, h.ans, h.nodup, fun t ht => ?_, fun q r hzero => ?_⟩
      · obtain ⟨q, r, hzero, rfl, -⟩ := h.sound t ht
        exact ⟨q, r, hzero, rfl⟩
      · refine (h.complete q r hzero).resolve_right fun hrange => ?_
        have hqr := hzero.2.1
        omega
  · refine ⟨[], Nat.lt_succ_self i, ?_, (List.append_nil _).symm, .nil, by simp, fun q r hzero => ?_⟩
    · exact Nat.sub_lt (Nat.zero_lt_of_lt hi) Nat.one_pos
    · exact .inr ⟨hzero.1, Nat.le_sub_one_of_lt hzero.2.2.1⟩
  · dsimp only
    omega

/-! ## The loop over `i` -/

/-- The triples whose first position is before `i`. -/
structure Listed (v : Nat → Int) (n i : Nat) (ans : List (List Int)) : Prop where
  nodup : ans.Nodup
  sound : ∀ t ∈ ans, ∃ p q r, p < i ∧ Zero v n p q r ∧ t = [v p, v q, v r]
  complete : ∀ p q r, p < i → Zero v n p q r → [v p, v q, v r] ∈ ans

/-- A first value that was there before has no new triples. -/
theorem Listed.skip {n : Nat} {ans : List (List Int)} (h : Listed v n i ans) (hi : 0 < i)
    (hsame : v i = v (i - 1)) : Listed v n (i + 1) ans where
  nodup := h.nodup
  sound t ht := by
    obtain ⟨p, q, r, hp, hzero, ht⟩ := h.sound t ht
    exact ⟨p, q, r, Nat.lt_succ_of_lt hp, hzero, ht⟩
  complete p q r hp hzero := by
    obtain hp | rfl := Nat.lt_succ_iff_lt_or_eq.mp hp
    · exact h.complete p q r hp hzero
    · obtain ⟨hpq, hqr, hr, hsum⟩ := hzero
      rw [hsame] at hsum ⊢
      exact h.complete (p - 1) q r (Nat.sub_lt hi Nat.one_pos) ⟨by omega, hqr, hr, hsum⟩

/-- A new first value has other triples than those before. -/
theorem Listed.scan {ans new : List (List Int)} (h : Listed v arr.length i ans)
    (hv : Ascends arr v) (hi : i < arr.length) (hfresh : 0 < i → v i ≠ v (i - 1))
    (hnodup : new.Nodup)
    (hsound : ∀ t ∈ new, ∃ q r, Zero v arr.length i q r ∧ t = [v i, v q, v r])
    (hcomplete : ∀ q r, Zero v arr.length i q r → [v i, v q, v r] ∈ new) :
    Listed v arr.length (i + 1) (ans ++ new) where
  nodup := by
    refine h.nodup.append hnodup fun t hold hnew => ?_
    obtain ⟨p, q, r, hp, -, rfl⟩ := h.sound t hold
    obtain ⟨q', r', -, heq⟩ := hsound _ hnew
    have hfirst : v p = v i := (List.cons.inj heq).1
    have hmono := hv.mono p (i - 1) (Nat.le_sub_one_of_lt hp) (by omega)
    have hmono' := hv.mono (i - 1) i (Nat.sub_le ..) hi
    have hne := hfresh (Nat.zero_lt_of_lt hp)
    omega
  sound t ht := by
    obtain ht | ht := List.mem_append.mp ht
    · obtain ⟨p, q, r, hp, hzero, ht⟩ := h.sound t ht
      exact ⟨p, q, r, Nat.lt_succ_of_lt hp, hzero, ht⟩
    · obtain ⟨q, r, hzero, ht⟩ := hsound t ht
      exact ⟨i, q, r, Nat.lt_succ_self i, hzero, ht⟩
  complete p q r hp hzero := by
    obtain hp | rfl := Nat.lt_succ_iff_lt_or_eq.mp hp
    · exact List.mem_append_left _ (h.complete p q r hp hzero)
    · exact List.mem_append_right _ (hcomplete q r hzero)

/-- No triple begins at `i` or after it. -/
theorem Listed.all {n : Nat} {ans : List (List Int)} (h : Listed v n i ans)
    (hnone : ∀ p q r, i ≤ p → ¬ Zero v n p q r) : Listed v n n ans where
  nodup := h.nodup
  sound t ht := by
    obtain ⟨p, q, r, -, hzero, ht⟩ := h.sound t ht
    exact ⟨p, q, r, hzero.1.trans (hzero.2.1.trans hzero.2.2.1), hzero, ht⟩
  complete p q r _ hzero :=
    h.complete p q r (Nat.lt_of_not_le fun hle => hnone p q r hle hzero) hzero

theorem repeated_spec (hv : Ascends arr v) (hi : i < arr.length) :
    ∃ same, repeated arr i = some same ∧ (same = true ↔ 0 < i ∧ v i = v (i - 1)) := by
  unfold repeated
  split
  case isTrue hzero => exact ⟨false, rfl, by simp [hzero]⟩
  case isFalse hne =>
    rw [hv.read i hi, hv.read (i - 1) (by omega)]
    exact ⟨_, rfl, by simp [Nat.pos_of_ne_zero hne]⟩

theorem loop_spec (hv : Ascends arr v) (hfuel : arr.length < fuel) :
    ∃ ans, loop (round fuel arr) fuel (0, []) = some ans ∧
      Listed v arr.length arr.length ans := by
  apply loop_total (fun s : Nat × List (List Int) => Listed v arr.length s.1 s.2)
    fun s => arr.length - s.1
  · rintro ⟨i, ans⟩ h
    unfold round
    dsimp only
    split
    case isTrue hi =>
      have hlt : i < arr.length := by omega
      rw [hv.read i hlt]
      simp only [Option.bind_eq_bind, Option.bind_some]
      split
      case isTrue hle =>
        right
        have hless : arr.length - (i + 1) < arr.length - i := by omega
        obtain ⟨same, hread, hiff⟩ := repeated_spec hv hlt
        rw [hread, Option.bind_some]
        split
        case isTrue htrue =>
          obtain ⟨hpos, heq⟩ := hiff.mp htrue
          exact ⟨_, rfl, h.skip hpos heq, hless⟩
        case isFalse hfalse =>
          obtain ⟨_, hscan, new, rfl, hnodup, hsound, hcomplete⟩ :=
            scan_spec hv hlt ans hfuel
          rw [hscan]
          exact ⟨_, rfl, h.scan hv hlt (fun hpos heq => hfalse (hiff.mpr ⟨hpos, heq⟩))
            hnodup hsound hcomplete, hless⟩
      case isFalse hpos =>
        refine .inl ⟨ans, rfl, h.all fun p q r hp ⟨hpq, hqr, hr, hsum⟩ => ?_⟩
        have hip := hv.mono i p hp (hpq.trans (hqr.trans hr))
        have hpq := hv.mono p q hpq.le (hqr.trans hr)
        have hqr := hv.mono q r hqr.le hr
        omega
    case isFalse hi =>
      refine .inl ⟨ans, rfl, h.all fun p q r hp ⟨hpq, hqr, hr, _⟩ => ?_⟩
      dsimp only at hp
      omega
  · exact ⟨.nil, by simp, fun p q r hp => absurd hp (Nat.not_lt_zero p)⟩
  · exact hfuel

/-! ## The result -/

/-- The values at three distinct positions, in ascending order, that add up to 0. -/
def IsTriple (arr t : List Int) : Prop :=
  ∃ x y z : Int, t = [x, y, z] ∧ x ≤ y ∧ y ≤ z ∧ x + y + z = 0 ∧
    ∃ i j k : Nat, i ≠ j ∧ j ≠ k ∧ i ≠ k ∧ arr[i]? = some x ∧ arr[j]? = some y ∧ arr[k]? = some z

theorem IsTriple.perm {arr arr' t : List Int} (h : arr.Perm arr') (ht : IsTriple arr t) :
    IsTriple arr' t := by
  obtain ⟨move, hinj, hmove⟩ := exists_positions h
  obtain ⟨x, y, z, rfl, hxy, hyz, hsum, i, j, k, hij, hjk, hik, hi, hj, hk⟩ := ht
  exact ⟨x, y, z, rfl, hxy, hyz, hsum, move i, move j, move k, hinj.ne hij, hinj.ne hjk,
    hinj.ne hik, (hmove i).trans hi, (hmove j).trans hj, (hmove k).trans hk⟩

/-- In a sorted array the positions are in order too. -/
theorem isTriple_iff {t : List Int} (hv : Ascends arr v) :
    IsTriple arr t ↔ ∃ p q r, Zero v arr.length p q r ∧ t = [v p, v q, v r] := by
  constructor
  · rintro ⟨x, y, z, rfl, hxy, hyz, hsum, i, j, k, hij, hjk, hik, hi, hj, hk⟩
    obtain ⟨hi', rfl⟩ := hv.eq_of_read hi
    obtain ⟨hj', rfl⟩ := hv.eq_of_read hj
    obtain ⟨hk', rfl⟩ := hv.eq_of_read hk
    have hmono : ∀ a b, a < b → b < arr.length → v a ≤ v b := fun a b hab => hv.mono a b hab.le
    have hfound : ∀ p q r, p < q → q < r → r < arr.length → v p = v i → v q = v j → v r = v k →
        ∃ p q r, Zero v arr.length p q r ∧ [v i, v j, v k] = [v p, v q, v r] := by
      intro p q r hpq hqr hr hp hq hr'
      exact ⟨p, q, r, ⟨hpq, hqr, hr, by omega⟩, by rw [hp, hq, hr']⟩
    -- Positions out of order have equal values.
    have hji := hmono j i
    have hkj := hmono k j
    have hki := hmono k i
    obtain hij | hij := hij.lt_or_gt <;> obtain hjk | hjk := hjk.lt_or_gt <;>
      obtain hik | hik := hik.lt_or_gt
    · exact hfound i j k hij hjk hk' rfl rfl rfl
    · omega
    · exact hfound i k j hik hjk hj' rfl (by omega) (by omega)
    · exact hfound k i j hik hij hj' (by omega) (by omega) (by omega)
    · exact hfound j i k hij hik hk' (by omega) (by omega) rfl
    · exact hfound j k i hjk hik hi' (by omega) (by omega) (by omega)
    · omega
    · exact hfound k j i hjk hij hi' (by omega) rfl (by omega)
  · rintro ⟨p, q, r, ⟨hpq, hqr, hr, hsum⟩, rfl⟩
    have hq := hqr.trans hr
    exact ⟨_, _, _, rfl, hv.mono p q hpq.le hq, hv.mono q r hqr.le hr, hsum, p, q, r, hpq.ne,
      hqr.ne, (hpq.trans hqr).ne, hv.read p (hpq.trans hq), hv.read q hq, hv.read r hr⟩

/-- A turn of the loop over `j` and `k`. -/
def targetRound (a : List Int) (x : Int) : Nat × Nat → Option ((Nat × Nat) ⊕ Bool)
  | (j, k) =>
    if j < k then do
      let y := (← a[j]?) + (← a[k]?)
      if y < x then return .inl (j + 1, k)
      else if y > x then return .inl (j, k - 1)
      else return .inr true
    else some (.inr false)

/-- A turn of the loop over `i`. -/
def firstRound (fuel : Nat) (a : List Int) (target : Int) (i : Nat) : Option (Nat ⊕ Bool) :=
  if i + 2 < a.length then do
    let x := target - (← a[i]?)
    if ← loop (targetRound a x) fuel (i + 1, a.length - 1) then return .inr true
    else return .inl (i + 1)
  else some (.inr false)

def trheesumTarget (fuel : Nat) (a : List Int) (target : Int) : Option Bool :=
  loop (firstRound fuel (a.mergeSort fun x y => x ≤ y) target) fuel 0

/-- Three positions in order with the sum that is looked for. -/
def Hits (v : Nat → Int) (n : Nat) (target : Int) (p q r : Nat) : Prop :=
  p < q ∧ q < r ∧ r < n ∧ v p + v q + v r = target

theorem target_scan_spec (hv : Ascends arr v) (hi : i < arr.length) (target : Int)
    (hfuel : arr.length < fuel) : ∃ found,
      loop (targetRound arr (target - v i)) fuel (i + 1, arr.length - 1) = some found ∧
        (found = true ↔ ∃ q r, Hits v arr.length target i q r) := by
  apply loop_total (fun s : Nat × Nat => i < s.1 ∧ s.2 < arr.length ∧
    ∀ q r, Hits v arr.length target i q r → s.1 ≤ q ∧ r ≤ s.2) fun s => s.2 - s.1
  · rintro ⟨j, k⟩ ⟨hlow, hhigh, hinside⟩
    unfold targetRound
    dsimp only at hlow hhigh hinside ⊢
    split
    case isTrue hjk =>
      rw [hv.read j (hjk.trans hhigh), hv.read k hhigh]
      simp only [Option.bind_eq_bind, Option.bind_some]
      split
      case isTrue hless =>
        refine .inr ⟨_, rfl, ⟨by omega, hhigh, fun q r hhit => ?_⟩, by dsimp only; omega⟩
        obtain ⟨hj, hk⟩ := hinside q r hhit
        refine ⟨Nat.succ_le_of_lt (hj.lt_of_ne ?_), hk⟩
        rintro rfl
        have hr := hv.mono r k hk hhigh
        have hsum := hhit.2.2.2
        omega
      case isFalse hless =>
        split
        case isTrue hmore =>
          refine .inr ⟨_, rfl, ⟨hlow, by omega, fun q r hhit => ?_⟩, by dsimp only; omega⟩
          obtain ⟨hj, hk⟩ := hinside q r hhit
          refine ⟨hj, Nat.le_sub_one_of_lt (hk.lt_of_ne ?_)⟩
          rintro rfl
          have hq := hv.mono j q hj (hhit.2.1.trans hhit.2.2.1)
          have hsum := hhit.2.2.2
          omega
        case isFalse hmore =>
          exact .inl ⟨true, rfl, fun _ => ⟨j, k, hlow, hjk, hhigh, by omega⟩, fun _ => rfl⟩
    case isFalse hjk =>
      refine .inl ⟨false, rfl, Bool.false_ne_true.elim, fun ⟨q, r, hhit⟩ => ?_⟩
      have hrange := hinside q r hhit
      have hqr := hhit.2.1
      omega
  · refine ⟨Nat.lt_succ_self i, Nat.sub_lt (Nat.zero_lt_of_lt hi) Nat.one_pos, fun q r hhit => ?_⟩
    exact ⟨hhit.1, Nat.le_sub_one_of_lt hhit.2.2.1⟩
  · dsimp only
    omega

theorem target_loop_spec (hv : Ascends arr v) (target : Int) (hfuel : arr.length < fuel) :
    ∃ found, loop (firstRound fuel arr target) fuel 0 = some found ∧
      (found = true ↔ ∃ p q r, Hits v arr.length target p q r) := by
  apply loop_total (fun i => ∀ p q r, Hits v arr.length target p q r → i ≤ p)
    fun i => arr.length - i
  · intro i hnone
    unfold firstRound
    split
    case isTrue hi =>
      have hlt : i < arr.length := by omega
      obtain ⟨found, hscan, hiff⟩ := target_scan_spec hv hlt target hfuel
      rw [hv.read i hlt]
      simp only [Option.bind_eq_bind, Option.bind_some, hscan]
      cases found with
      | true =>
          obtain ⟨q, r, hhit⟩ := hiff.mp rfl
          exact .inl ⟨true, rfl, fun _ => ⟨i, q, r, hhit⟩, fun _ => rfl⟩
      | false =>
          refine .inr ⟨i + 1, rfl, fun p q r hhit => ?_, by omega⟩
          refine Nat.succ_le_of_lt ((hnone p q r hhit).lt_of_ne ?_)
          rintro rfl
          exact Bool.false_ne_true (hiff.mpr ⟨q, r, hhit⟩)
    case isFalse hi =>
      refine .inl ⟨false, rfl, Bool.false_ne_true.elim, fun ⟨p, q, r, hhit⟩ => ?_⟩
      have hip := hnone p q r hhit
      obtain ⟨hpq, hqr, hr, -⟩ := hhit
      omega
  · exact fun p _ _ _ => Nat.zero_le p
  · omega

/-- Values at three distinct positions with the sum that is looked for. -/
def HasSum (arr : List Int) (target : Int) : Prop :=
  ∃ i j k : Nat, ∃ x y z : Int, i ≠ j ∧ j ≠ k ∧ i ≠ k ∧
    arr[i]? = some x ∧ arr[j]? = some y ∧ arr[k]? = some z ∧ x + y + z = target

theorem HasSum.perm {arr arr' : List Int} {target : Int} (h : arr.Perm arr')
    (hsum : HasSum arr target) : HasSum arr' target := by
  obtain ⟨move, hinj, hmove⟩ := exists_positions h
  obtain ⟨i, j, k, x, y, z, hij, hjk, hik, hi, hj, hk, hsum⟩ := hsum
  exact ⟨move i, move j, move k, x, y, z, hinj.ne hij, hinj.ne hjk, hinj.ne hik,
    (hmove i).trans hi, (hmove j).trans hj, (hmove k).trans hk, hsum⟩

theorem hasSum_iff (hv : Ascends arr v) {target : Int} :
    HasSum arr target ↔ ∃ p q r, Hits v arr.length target p q r := by
  constructor
  · rintro ⟨i, j, k, x, y, z, hij, hjk, hik, hi, hj, hk, hsum⟩
    obtain ⟨hi', rfl⟩ := hv.eq_of_read hi
    obtain ⟨hj', rfl⟩ := hv.eq_of_read hj
    obtain ⟨hk', rfl⟩ := hv.eq_of_read hk
    obtain hij | hij := hij.lt_or_gt <;> obtain hjk | hjk := hjk.lt_or_gt <;>
      obtain hik | hik := hik.lt_or_gt
    · exact ⟨i, j, k, hij, hjk, hk', hsum⟩
    · omega
    · exact ⟨i, k, j, hik, hjk, hj', by omega⟩
    · exact ⟨k, i, j, hik, hij, hj', by omega⟩
    · exact ⟨j, i, k, hij, hik, hk', by omega⟩
    · exact ⟨j, k, i, hjk, hik, hi', by omega⟩
    · omega
    · exact ⟨k, j, i, hjk, hij, hi', by omega⟩
  · rintro ⟨p, q, r, hpq, hqr, hr, hsum⟩
    have hq := hqr.trans hr
    exact ⟨p, q, r, v p, v q, v r, hpq.ne, hqr.ne, (hpq.trans hqr).ne, hv.read p (hpq.trans hq),
      hv.read q hq, hv.read r hr, hsum⟩

end Threesum

end MoreCpp
