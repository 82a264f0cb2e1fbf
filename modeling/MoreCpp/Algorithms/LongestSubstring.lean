import MoreCpp.Library.Letters
import MoreCpp.Library.Loop
import MoreCpp.Library.ParityMask
import Mathlib.Data.Nat.Find
import Mathlib.Order.Bounds.Basic

/-!
`longest_substring` of `algorithms/strings/strings.cpp`. A shift by less than zero or by
the width of an `int` gives `none`, and so does an index out of range.
-/

namespace MoreCpp

open Library

namespace LongestSubstring

/-- `mask ^ (1 << temp)`. -/
def toggle (mask : Nat) (temp : Int) : Option Nat :=
  if 0 ≤ temp ∧ temp < 32 then some (mask ^^^ (1 <<< temp.toNat)) else none

/-- `if (index.count(mask)) answer = max(answer, i - index[mask])`. -/
def visit (index : Nat → Option Int) (i : Nat) (mask : Nat) (answer : Int) : Int :=
  match index mask with
  | some p => max answer ((i : Int) - p)
  | none => answer

/-- `if (!index.count(mask)) index[mask] = i`. -/
def enter (index : Nat → Option Int) (i : Nat) (mask : Nat) : Nat → Option Int :=
  if (index mask).isSome then index else Function.update index mask (some (i : Int))

/-- A turn of the loop over the bits. -/
def flip (index : Nat → Option Int) (mask i : Nat) (j : Nat) (answer : Int) : Option Int := do
  let mask2 ← toggle mask j
  return visit index i mask2 answer

structure Scan where
  index : Nat → Option Int
  answer : Int
  mask : Nat

/-- A turn of the loop over the characters. -/
def round (s : List Char) (i : Nat) (scan : Scan) : Option Scan := do
  let c ← s[i]?
  let mask ← toggle scan.mask (letter c)
  let answer := visit scan.index i mask scan.answer
  let index := enter scan.index i mask
  let answer ← forRange 0 26 (flip index mask i) answer
  return ⟨index, answer, mask⟩

def longestSubstring (s : List Char) (n : Int) : Option Int := do
  let index := Function.update (fun _ => none) 0 (some (-1))
  let scan ← forRange 0 n.toNat (round s) ⟨index, 0, 0⟩
  return scan.answer

variable {s : List Char} {index : Nat → Option Int} {i k m mask n : Nat} {answer : Int}

/-! ## Prefixes -/

def prefixMask (s : List Char) (i : Nat) : Nat := parityMask letterIndex (s.take i)

theorem prefixMask_succ {c : Char} (hc : s[i]? = some c) :
    prefixMask s (i + 1) = prefixMask s i ^^^ (1 <<< letterIndex c) := by
  unfold prefixMask
  rw [List.take_add_one, hc, Option.toList_some, parityMask_concat]

/-- The first `k` characters are the shortest prefix with this mask. -/
structure First (s : List Char) (mask k : Nat) : Prop where
  hit : prefixMask s k = mask
  least : ∀ l < k, prefixMask s l ≠ mask

theorem First.unique (h : First s mask k) (h' : First s mask m) : k = m := by
  rcases Nat.lt_trichotomy k m with hlt | heq | hgt
  · exact absurd h.hit (h'.least k hlt)
  · exact heq
  · exact absurd h'.hit (h.least m hgt)

/-- The masks of the prefixes up to `i` characters have an index, that of the last
character of the first of them. -/
def Known (s : List Char) (index : Nat → Option Int) (i : Nat) : Prop :=
  ∀ mask p, index mask = some p ↔ ∃ k ≤ i, First s mask k ∧ p = (k : Int) - 1

namespace Known

theorem start : Known s (Function.update (fun _ => none) 0 (some (-1))) 0 := by
  intro mask p
  constructor
  · intro h
    obtain rfl | hne := eq_or_ne mask 0
    · rw [Function.update_self, Option.some_inj] at h
      exact ⟨0, Nat.le_refl 0, ⟨rfl, fun l hl => absurd hl (Nat.not_lt_zero l)⟩, h.symm⟩
    · rw [Function.update_of_ne hne] at h
      cases h
  · rintro ⟨k, hk, hfirst, rfl⟩
    obtain rfl := Nat.le_zero.mp hk
    obtain rfl : 0 = mask := hfirst.hit
    rw [Function.update_self]
    rfl

theorem isSome_iff (h : Known s index i) :
    (index mask).isSome ↔ ∃ k ≤ i, prefixMask s k = mask := by
  rw [Option.isSome_iff_exists]
  constructor
  · rintro ⟨p, hp⟩
    obtain ⟨k, hk, hfirst, -⟩ := (h mask p).mp hp
    exact ⟨k, hk, hfirst.hit⟩
  · rintro ⟨k, hk, hmask⟩
    classical
    have hex : ∃ k, prefixMask s k = mask := ⟨k, hmask⟩
    have hfirst : First s mask (Nat.find hex) :=
      ⟨Nat.find_spec hex, fun l hl => Nat.find_min hex hl⟩
    exact ⟨_, (h mask _).mpr ⟨_, (Nat.find_min' hex hmask).trans hk, hfirst, rfl⟩⟩

/-- One more character: the mask is entered where it is new. -/
theorem next (h : Known s index i) :
    Known s (enter index i (prefixMask s (i + 1))) (i + 1) := by
  intro mask p
  unfold enter
  split
  case isTrue hknown =>
    rw [h]
    constructor
    · rintro ⟨k, hk, hfirst⟩
      exact ⟨k, Nat.le_succ_of_le hk, hfirst⟩
    · rintro ⟨k, hk, hfirst, hp⟩
      refine ⟨k, ?_, hfirst, hp⟩
      obtain ⟨l, hl, hmask⟩ := h.isSome_iff.mp hknown
      by_contra hgt
      obtain rfl : k = i + 1 := by omega
      exact hfirst.least l (by omega) (hmask.trans hfirst.hit)
  case isFalse hnew =>
    have hless : ∀ l < i + 1, prefixMask s l ≠ prefixMask s (i + 1) := fun l hl heq =>
      hnew (h.isSome_iff.mpr ⟨l, Nat.le_of_lt_succ hl, heq⟩)
    obtain rfl | hne := eq_or_ne mask (prefixMask s (i + 1))
    · have hfirst : First s (prefixMask s (i + 1)) (i + 1) := ⟨rfl, hless⟩
      rw [Function.update_self, Option.some_inj]
      constructor
      · rintro rfl
        exact ⟨i + 1, Nat.le_refl _, hfirst, by omega⟩
      · rintro ⟨k, -, hfirst', rfl⟩
        rw [hfirst'.unique hfirst]
        omega
    · rw [Function.update_of_ne hne, h]
      constructor
      · rintro ⟨k, hk, hfirst⟩
        exact ⟨k, Nat.le_succ_of_le hk, hfirst⟩
      · rintro ⟨k, hk, hfirst, hp⟩
        refine ⟨k, ?_, hfirst, hp⟩
        by_contra hgt
        obtain rfl : k = i + 1 := by omega
        exact hne hfirst.hit.symm

end Known

/-! ## Windows -/

/-- The lengths of the windows that end with the first `e` characters and begin after a
prefix with this mask. -/
def Lengths (s : List Char) (e mask : Nat) : Set Nat :=
  {len | ∃ k, k + len = e ∧ prefixMask s k = mask}

/-- The lengths of the windows of the first `e` characters that can be rearranged. -/
def Rearranged (s : List Char) (e : Nat) : Set Nat :=
  {len | ∃ i, i + len ≤ e ∧ Rearrangeable ((s.drop i).take len)}

/-- `answer` is the greatest of the lengths. -/
def Greatest (lengths : Set Nat) (answer : Int) : Prop :=
  ∃ m : Nat, answer = m ∧ IsGreatest lengths m

/-- Visiting a mask accounts for the windows after the prefixes with it. -/
theorem Greatest.visit {lengths : Set Nat} (h : Greatest lengths answer)
    (hknown : Known s index (i + 1)) :
    Greatest (lengths ∪ Lengths s (i + 1) mask) (visit index i mask answer) := by
  obtain ⟨m, rfl, hm⟩ := h
  unfold LongestSubstring.visit
  cases hindex : index mask with
  | some p =>
      obtain ⟨k, hk, hfirst, rfl⟩ := (hknown mask p).mp hindex
      have hgreatest : IsGreatest (Lengths s (i + 1) mask) (i + 1 - k) := by
        refine ⟨⟨k, by omega, hfirst.hit⟩, ?_⟩
        rintro len ⟨l, hl, hmask⟩
        by_contra hgt
        exact hfirst.least l (by omega) hmask
      refine ⟨max m (i + 1 - k), ?_, hm.union hgreatest⟩
      simp only []
      omega
  | none =>
      have hempty : Lengths s (i + 1) mask = ∅ := by
        refine Set.eq_empty_of_forall_notMem ?_
        rintro len ⟨k, hk, hmask⟩
        have hsome := hknown.isSome_iff.mpr ⟨k, by omega, hmask⟩
        rw [hindex] at hsome
        cases hsome
      rw [hempty, Set.union_empty]
      exact ⟨m, rfl, hm⟩

/-- A mask that is entered with the index visited changes no answer. -/
theorem visit_enter (hanswer : 0 ≤ answer) :
    visit (enter index i mask) i mask answer = visit index i mask answer := by
  cases hindex : index mask with
  | some p => simp [visit, enter, hindex]
  | none => simp [visit, enter, hindex, hanswer]

/-- The lengths found after the first `j` flips. -/
def Flipped (s : List Char) (e mask j : Nat) : Set Nat :=
  {len | ∃ l < j, len ∈ Lengths s e (mask ^^^ (1 <<< l))}

theorem flipped_zero : Flipped s i mask 0 = ∅ := by
  refine Set.eq_empty_of_forall_notMem ?_
  rintro len ⟨l, hl, -⟩
  exact Nat.not_lt_zero l hl

theorem flipped_succ :
    Flipped s i mask (n + 1) = Flipped s i mask n ∪ Lengths s i (mask ^^^ (1 <<< n)) := by
  ext len
  constructor
  · rintro ⟨l, hl, hlen⟩
    obtain hlt | rfl := Nat.lt_succ_iff_lt_or_eq.mp hl
    · exact .inl ⟨l, hlt, hlen⟩
    · exact .inr hlen
  · rintro (⟨l, hl, hlen⟩ | hlen)
    · exact ⟨l, Nat.lt_succ_of_lt hl, hlen⟩
    · exact ⟨n, Nat.lt_succ_self n, hlen⟩

/-- The loop over the bits accounts for the masks that differ in one bit. -/
theorem flips_spec {lengths : Set Nat} (hknown : Known s index (i + 1))
    (h : Greatest lengths answer) :
    ∃ answer', forRange 0 26 (flip index mask i) answer = some answer' ∧
      Greatest (lengths ∪ Flipped s (i + 1) mask 26) answer' := by
  refine forRange_rule (fun j answer => Greatest (lengths ∪ Flipped s (i + 1) mask j) answer)
    (by rwa [flipped_zero, Set.union_empty]) ?_
  intro j answer _ hj h
  refine ⟨visit index i (mask ^^^ (1 <<< j)) answer, ?_, ?_⟩
  · have hshift : 0 ≤ (j : Int) ∧ (j : Int) < 32 := by omega
    simp [flip, toggle, hshift]
  · rw [flipped_succ, ← Set.union_assoc]
    exact h.visit hknown

/-- The windows that end with the next character, by the masks of the prefixes before them. -/
theorem rearranged_succ (hlower : ∀ c ∈ s, c.isLower) :
    Rearranged s (i + 1) = Rearranged s i ∪ Lengths s (i + 1) (prefixMask s (i + 1)) ∪
      Flipped s (i + 1) (prefixMask s (i + 1)) 26 := by
  have hwindow : ∀ k len, k + len = i + 1 → (Rearrangeable ((s.drop k).take len) ↔
      len ∈ Lengths s (i + 1) (prefixMask s (i + 1)) ∪
        Flipped s (i + 1) (prefixMask s (i + 1)) 26) := by
    intro k len hlen
    have hstart : ∀ mask, len ∈ Lengths s (i + 1) mask ↔ prefixMask s k = mask := by
      intro mask
      constructor
      · rintro ⟨l, hl, hmask⟩
        obtain rfl : l = k := by omega
        exact hmask
      · exact fun hmask => ⟨k, hlen, hmask⟩
    have hdrop : (s.drop k).take len = (s.take (i + 1)).drop k := by
      rw [List.drop_take]
      congr 1
      omega
    rw [hdrop, rearrangeable_window_iff
      (fun a ha c hc => letterIndex_inj (hlower a ha) (hlower c hc)) (by omega)
      fun c hc => letterIndex_lt (hlower c hc)]
    exact or_congr (hstart _).symm
      (exists_congr fun j => and_congr_right fun _ => (hstart _).symm)
  rw [Set.union_assoc]
  ext len
  constructor
  · rintro ⟨k, hlen, hw⟩
    obtain hle | heq := Nat.le_succ_iff.mp hlen
    · exact .inl ⟨k, hle, hw⟩
    · exact .inr ((hwindow k len heq).mp hw)
  · rintro (⟨k, hlen, hw⟩ | hmask)
    · exact ⟨k, Nat.le_succ_of_le hlen, hw⟩
    · have hlen : len ≤ i + 1 := by
        obtain ⟨k, hk, -⟩ | ⟨j, -, k, hk, -⟩ := hmask <;> omega
      refine ⟨i + 1 - len, by omega, (hwindow _ _ (by omega)).mpr hmask⟩

/-! ## The scan -/

/-- What holds once `i` characters are read. -/
structure Scanned (s : List Char) (i : Nat) (scan : Scan) : Prop where
  index : Known s scan.index i
  answer : Greatest (Rearranged s i) scan.answer
  mask : scan.mask = prefixMask s i

theorem Scanned.start :
    Scanned s 0 ⟨Function.update (fun _ => none) 0 (some (-1)), 0, 0⟩ := by
  refine ⟨Known.start, ⟨0, rfl, ⟨0, Nat.le_refl 0, [], .refl [], .nil⟩, ?_⟩, rfl⟩
  rintro len ⟨k, hlen, -⟩
  omega

theorem Scanned.round {scan : Scan} (hlower : ∀ c ∈ s, c.isLower) (hi : i < s.length)
    (h : Scanned s i scan) : ∃ scan', round s i scan = some scan' ∧ Scanned s (i + 1) scan' := by
  have hlow := hlower s[i] (List.getElem_mem hi)
  have hread := List.getElem?_eq_getElem hi
  have htoggle : toggle scan.mask (letter s[i]) = some (prefixMask s (i + 1)) := by
    have hlt := letterIndex_lt hlow
    have hshift : 0 ≤ letter s[i] ∧ letter s[i] < 32 := by
      rw [letter_eq_letterIndex hlow]
      omega
    rw [toggle, if_pos hshift, prefixMask_succ hread, h.mask]
    rfl
  have hnonneg : 0 ≤ scan.answer := by
    obtain ⟨m, heq, -⟩ := h.answer
    omega
  have hknown := h.index.next
  have hvisit : Greatest (Rearranged s i ∪ Lengths s (i + 1) (prefixMask s (i + 1)))
      (visit scan.index i (prefixMask s (i + 1)) scan.answer) := by
    rw [← visit_enter hnonneg]
    exact h.answer.visit hknown
  obtain ⟨answer', hflips, hgreatest⟩ := flips_spec hknown hvisit
  rw [← rearranged_succ hlower] at hgreatest
  refine ⟨⟨enter scan.index i (prefixMask s (i + 1)), answer', prefixMask s (i + 1)⟩, ?_,
    hknown, hgreatest, rfl⟩
  simp [LongestSubstring.round, hread, htoggle, hflips]

theorem longestSubstring_isGreatest (hlower : ∀ c ∈ s, c.isLower) :
    ∃ m : Nat, longestSubstring s s.length = some (m : Int) ∧
      IsGreatest {len | ∃ i, i + len ≤ s.length ∧ Rearrangeable ((s.drop i).take len)} m := by
  have hloop : ∃ scan, forRange 0 s.length (round s)
      ⟨Function.update (fun _ => none) 0 (some (-1)), 0, 0⟩ = some scan ∧
      Scanned s (max 0 s.length) scan :=
    forRange_rule (Scanned s) .start fun i scan _ hi h => h.round hlower hi
  obtain ⟨scan, hscan, hscanned⟩ := hloop
  rw [Nat.zero_max] at hscanned
  obtain ⟨m, hm, hgreatest⟩ := hscanned.answer
  refine ⟨m, ?_, hgreatest⟩
  rw [longestSubstring, Int.toNat_natCast, hscan, ← hm]
  rfl

theorem longestSubstring_isGreatest_twice :
    (∀ c ∈ ['a', 'b', 'a', 'c'], c.isLower) ∧
    ∃ m : Nat, longestSubstring ['a', 'b', 'a', 'c'] 4 = some (m : Int) ∧
      IsGreatest {len | ∃ i, i + len ≤ ['a', 'b', 'a', 'c'].length ∧
        Rearrangeable ((['a', 'b', 'a', 'c'].drop i).take len)} m :=
  ⟨by simp, longestSubstring_isGreatest (by simp)⟩

end LongestSubstring

end MoreCpp
