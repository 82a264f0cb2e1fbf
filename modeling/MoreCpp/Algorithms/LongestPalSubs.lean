import MoreCpp.Library.Windows
import MoreCpp.Library.Cells
import MoreCpp.Library.Loop

/-!
`longest_pal_subs_dp` and `longest_pal_subs_center` of `algorithms/dp/dp.cpp`. An index out
of range gives `none`, and so does a loop that runs out of fuel.
-/

namespace MoreCpp

open Library

namespace LongestPalSubs

variable {α : Type}

/-- `s.substr(p.first, p.second)`. -/
def substr (s : List α) (p : Nat × Nat) : Option (List α) :=
  if p.1 ≤ s.length then some ((s.drop p.1).take p.2) else none

section Model

variable [DecidableEq α]

/-- A turn of the loop over the windows of two characters. -/
def pairRound (s : List α) (i : Nat) :
    List (List Bool) × Nat × Nat → Option (List (List Bool) × Nat × Nat)
  | (dp, p) => do
    let a ← s[i]?
    let b ← s[i + 1]?
    if a = b then
      let dp ← writeCell dp i (i + 1) true
      if p.2 = 1 then return (dp, i, 2) else return (dp, p)
    else return (dp, p)

/-- A turn of the loop over the windows of `len` characters. -/
def windowRound (s : List α) (len i : Nat) :
    List (List Bool) × Nat × Nat → Option (List (List Bool) × Nat × Nat)
  | (dp, p) => do
    let j := i + len - 1
    let a ← s[i]?
    let b ← s[j]?
    if a = b then
      let inner ← readCell dp (i + 1) (j - 1)
      if inner then
        let dp ← writeCell dp i j true
        if len > p.2 then return (dp, i, len) else return (dp, p)
      else return (dp, p)
    else return (dp, p)

def longestPalSubsDp (s : List α) : Option (List α) := do
  let n := s.length
  let dp := List.replicate n (List.replicate n false)
  let dp ← forRange 0 n (fun i dp => writeCell dp i i true) dp
  let state ← forRange 0 (n - 1) (pairRound s) (dp, 0, 1)
  let state ← forRange 3 (n + 1) (fun len => forRange 0 (n - len + 1) (windowRound s len)) state
  substr s state.2

/-- A turn of the loop that widens a window, at `l`, `h` and `p`. -/
def widen (s : List α) : Int × Nat × Nat × Nat → Option ((Int × Nat × Nat × Nat) ⊕ Nat × Nat)
  | (l, h, p) =>
    if 0 ≤ l ∧ h < s.length then do
      let a ← s[l.toNat]?
      let b ← s[h]?
      if a = b then
        let len := (h - l + 1).toNat
        return .inl (l - 1, h + 1, if p.2 < len then (l.toNat, len) else p)
      else return .inr p
    else some (.inr p)

def longestPalSubsCenter (fuel : Nat) (s : List α) : Option (List α) := do
  let n := s.length
  let p ← forRange 0 n (fun i => forRange 0 2 fun j p =>
    loop (widen s) fuel ((i : Int), i + j, p)) (0, 1)
  substr s p

end Model

variable {s : List α} {len i j l h : Nat} {dp : List (List Bool)} {p : Nat × Nat}

/-! ## By length -/

/-- The windows before the one at `i` of length `len`, shorter ones first. -/
def Shorter (len i i' len' : Nat) : Prop := len' < len ∨ len' = len ∧ i' < i

/-- The table knows the palindromes among the windows before, and `p` is the leftmost of
the longest of them. -/
structure Scan (s : List α) (len i : Nat) (dp : List (List Bool)) (p : Nat × Nat) : Prop where
  table : Cellwise dp s.length s.length fun a b known =>
    known = true ↔ a ≤ b ∧ Shorter len i a (b + 1 - a) ∧ Palindromic s a (b + 1 - a)
  best : BestOf (Palindromic s) (Shorter len i) p
  before : p.2 < len ∨ p.2 = len ∧ p.1 ≤ i

namespace Scan

theorem hit (h : Scan s len i dp p) (hlen : 0 < len) (hp : Palindromic s i len) :
    ∃ dp', writeCell dp i (i + len - 1) true = some dp' ∧
      Scan s len (i + 1) dp' (if p.2 < len then (i, len) else p) := by
  have hinside := hp.inside
  have hbefore := h.before
  have hwidth : i + len - 1 + 1 - i = len := by omega
  obtain ⟨dp', hwrite, htable, -⟩ := h.table.update
    (Q := fun a b known => known = true ↔
      a ≤ b ∧ Shorter len (i + 1) a (b + 1 - a) ∧ Palindromic s a (b + 1 - a))
    (i := i) (j := i + len - 1) (a := true) (by omega) (by omega)
    (by simp [hwidth, hp, Shorter]; omega)
    fun a b known hother hold => by
      rw [hold]
      apply and_congr_right
      intro hab
      apply and_congr_left'
      unfold Shorter
      omega
  refine ⟨dp', hwrite, htable, ?_, ?_⟩
  · apply h.best.visit hp (by omega)
    intro i' len' hseen
    unfold Shorter at hseen ⊢
    omega
  · split
    case isTrue => exact .inr ⟨rfl, Nat.le_succ i⟩
    case isFalse => omega

theorem miss (h : Scan s len i dp p) (hp : ¬ Palindromic s i len) : Scan s len (i + 1) dp p := by
  have hnot : ∀ i' len', Palindromic s i' len' →
      (Shorter len (i + 1) i' len' ↔ Shorter len i i' len') := by
    intro i' len' hp'
    unfold Shorter
    constructor
    · rintro (hless | ⟨rfl, hle⟩)
      · exact .inl hless
      · rcases Nat.lt_succ_iff_lt_or_eq.mp hle with hlt | rfl
        · exact .inr ⟨rfl, hlt⟩
        · exact absurd hp' hp
    · omega
  constructor
  case table =>
    refine h.table.mono fun a b known _ _ hold => ?_
    rw [hold]
    apply and_congr_right
    intro _
    exact and_congr_left fun hp' => (hnot a _ hp').symm
  case best => exact h.best.mono fun i' len' hp' hseen => (hnot i' len' hp').mp hseen
  case before =>
    have hbefore := h.before
    omega

/-- After all windows of one length. -/
theorem next (h : Scan s len i dp p) (hall : s.length < i + len) : Scan s (len + 1) 0 dp p := by
  have hsame : ∀ i' len', Palindromic s i' len' →
      (Shorter (len + 1) 0 i' len' ↔ Shorter len i i' len') := by
    intro i' len' hp'
    have hinside := hp'.inside
    unfold Shorter
    omega
  constructor
  case table =>
    refine h.table.mono fun a b known _ _ hold => ?_
    rw [hold]
    apply and_congr_right
    intro _
    exact and_congr_left fun hp' => (hsame a _ hp').symm
  case best => exact h.best.mono fun i' len' hp' hseen => (hsame i' len' hp').mp hseen
  case before =>
    have hbefore := h.before
    omega

theorem pos (h : Scan s len i dp p) (hlen : 1 < len) (hs : s ≠ []) : 1 ≤ p.2 := by
  have hone := h.best.2 0 1 (.inl hlen) (palindromic_one (List.length_pos_of_ne_nil hs))
  omega

end Scan

theorem palindromic_two_iff (hi : i + 1 < s.length) :
    Palindromic s i 2 ↔ s[i]? = s[i + 1]? := by
  rw [palindromic_add_two hi, Nat.add_zero]
  exact and_iff_left (palindromic_zero (by omega))

theorem scan_start (hs : s ≠ []) :
    Scan s 1 0 (List.replicate s.length (List.replicate s.length false)) (0, 1) where
  table := by
    apply Cellwise.replicate
    intro a _ b _
    simp [Shorter]
    omega
  best := by
    refine ⟨palindromic_one (List.length_pos_of_ne_nil hs), ?_⟩
    rintro i' len' (hless | ⟨-, hless⟩) -
    · exact .inl hless
    · exact absurd hless (Nat.not_lt_zero _)
  before := .inr ⟨rfl, Nat.le_refl 0⟩

/-- The loop over the windows of one character. -/
theorem diagonal_spec (hs : s ≠ []) : ∃ dp,
    forRange 0 s.length (fun i dp => writeCell dp i i true)
      (List.replicate s.length (List.replicate s.length false)) = some dp ∧
    Scan s 2 0 dp (0, 1) := by
  obtain ⟨dp, hrun, hscan⟩ := forRange_rule (fun i dp => Scan s 1 i dp (0, 1)) (scan_start hs)
    fun i dp _ hi hscan => hscan.hit Nat.one_pos (palindromic_one hi)
  exact ⟨dp, hrun, hscan.next (by omega)⟩

section Rounds

variable [DecidableEq α]

theorem pairRound_spec (hscan : Scan s 2 i dp p) (hi : i + 1 < s.length) :
    ∃ state, pairRound s i (dp, p) = some state ∧ Scan s 2 (i + 1) state.1 state.2 := by
  have hs : s ≠ [] := List.ne_nil_of_length_pos (by omega)
  have hpos := hscan.pos Nat.one_lt_two hs
  have hi' : i < s.length := by omega
  simp only [pairRound, List.getElem?_eq_getElem hi, List.getElem?_eq_getElem hi',
    Option.bind_eq_bind, Option.bind_some]
  by_cases heq : s[i] = s[i + 1]
  · have hp : Palindromic s i 2 := by
      rw [palindromic_two_iff hi, List.getElem?_eq_getElem hi, List.getElem?_eq_getElem hi', heq]
    obtain ⟨dp', hwrite, hnext⟩ := hscan.hit Nat.two_pos hp
    have hwrite : writeCell dp i (i + 1) true = some dp' := hwrite
    refine ⟨(dp', if p.2 < 2 then (i, 2) else p), ?_, hnext⟩
    rw [if_pos heq, hwrite, Option.bind_some]
    by_cases hone : p.2 = 1
    · simp [hone]
    · have hlarge : ¬ p.2 < 2 := by omega
      simp [hone, hlarge]
  · refine ⟨(dp, p), by rw [if_neg heq]; rfl, hscan.miss fun hp => heq ?_⟩
    rw [palindromic_two_iff hi, List.getElem?_eq_getElem hi, List.getElem?_eq_getElem hi'] at hp
    exact Option.some.inj hp

theorem windowRound_spec (hscan : Scan s len i dp p) (hlen : 3 ≤ len)
    (hi : i + len ≤ s.length) :
    ∃ state, windowRound s len i (dp, p) = some state ∧
      Scan s len (i + 1) state.1 state.2 := by
  obtain ⟨width, rfl⟩ := Nat.exists_eq_add_of_le' (Nat.le_of_succ_le hlen)
  have hfirst : i < s.length := by omega
  have hlast : i + (width + 2) - 1 < s.length := by omega
  have hend : i + width + 1 = i + (width + 2) - 1 := by omega
  have hpal := palindromic_add_two hi
  rw [hend, List.getElem?_eq_getElem hfirst, List.getElem?_eq_getElem hlast,
    Option.some_inj] at hpal
  obtain ⟨inner, hread, hinner⟩ := hscan.table (i + 1) (by omega)
    (i + (width + 2) - 1 - 1) (by omega)
  have hwidth : i + (width + 2) - 1 - 1 + 1 - (i + 1) = width := by omega
  have hknown : inner = true ↔ Palindromic s (i + 1) width := by
    rw [hinner, hwidth]
    constructor
    · exact fun h => h.2.2
    · exact fun h => ⟨by omega, .inl (by omega), h⟩
  simp only [windowRound, List.getElem?_eq_getElem hfirst, List.getElem?_eq_getElem hlast,
    hread, Option.bind_eq_bind, Option.bind_some]
  by_cases heq : s[i] = s[i + (width + 2) - 1]
  · rw [if_pos heq]
    cases inner with
    | true =>
        obtain ⟨dp', hwrite, hnext⟩ :=
          hscan.hit (by omega) (hpal.mpr ⟨heq, hknown.mp rfl⟩)
        refine ⟨(dp', if p.2 < width + 2 then (i, width + 2) else p), ?_, hnext⟩
        rw [if_pos rfl, hwrite, Option.bind_some]
        by_cases hlonger : p.2 < width + 2 <;> simp [hlonger]
    | false =>
        refine ⟨(dp, p), rfl, hscan.miss fun hp => ?_⟩
        exact Bool.false_ne_true (hknown.mpr (hpal.mp hp).2)
  · refine ⟨(dp, p), by rw [if_neg heq]; rfl, hscan.miss fun hp => ?_⟩
    exact heq (hpal.mp hp).1

/-- The loop over the windows of two characters. -/
theorem pairs_spec (hscan : Scan s 2 0 dp p) :
    ∃ state, forRange 0 (s.length - 1) (pairRound s) (dp, p) = some state ∧
      Scan s 3 0 state.1 state.2 := by
  have hloop : ∃ state, forRange 0 (s.length - 1) (pairRound s) (dp, p) = some state ∧
      Scan s 2 (max 0 (s.length - 1)) state.1 state.2 :=
    forRange_rule (fun i (state : List (List Bool) × Nat × Nat) => Scan s 2 i state.1 state.2)
      hscan fun i state _ hi hscan => pairRound_spec hscan (by omega)
  obtain ⟨state, hrun, hend⟩ := hloop
  exact ⟨state, hrun, hend.next (by omega)⟩

/-- The loop over the windows of one greater length. -/
theorem windows_spec (hscan : Scan s len 0 dp p) (hlen : 3 ≤ len) (hle : len ≤ s.length) :
    ∃ state, forRange 0 (s.length - len + 1) (windowRound s len) (dp, p) = some state ∧
      Scan s (len + 1) 0 state.1 state.2 := by
  have hloop : ∃ state,
      forRange 0 (s.length - len + 1) (windowRound s len) (dp, p) = some state ∧
        Scan s len (max 0 (s.length - len + 1)) state.1 state.2 :=
    forRange_rule (fun i (state : List (List Bool) × Nat × Nat) => Scan s len i state.1 state.2)
      hscan fun i state _ hi hscan => windowRound_spec hscan hlen (by omega)
  obtain ⟨state, hrun, hend⟩ := hloop
  exact ⟨state, hrun, hend.next (by omega)⟩

theorem lengths_spec (hscan : Scan s 3 0 dp p) :
    ∃ state, forRange 3 (s.length + 1)
        (fun len => forRange 0 (s.length - len + 1) (windowRound s len)) (dp, p) = some state ∧
      Scan s (max 3 (s.length + 1)) 0 state.1 state.2 :=
  forRange_rule (fun len (state : List (List Bool) × Nat × Nat) => Scan s len 0 state.1 state.2)
    hscan fun _ _ hlen hle hscan => windows_spec hscan hlen (Nat.le_of_lt_succ hle)

theorem longestPalSubsDp_spec (hs : s ≠ []) : ∃ p : Nat × Nat,
    longestPalSubsDp s = substr s p ∧ LeftmostLongest (Palindromic s) p.1 p.2 := by
  obtain ⟨dp, hdiagonal, hone⟩ := diagonal_spec hs
  obtain ⟨state₂, hpairs, htwo⟩ := pairs_spec hone
  obtain ⟨state₃, hlengths, hscan⟩ := lengths_spec htwo
  refine ⟨state₃.2, ?_, hscan.best.leftmostLongest fun i len hp => ?_⟩
  · simp only [longestPalSubsDp, hdiagonal, hpairs, hlengths, Option.bind_eq_bind,
      Option.bind_some]
  · have hinside := hp.inside
    exact .inl (by omega)

end Rounds

/-! ## By centre -/

/-- The windows about centres before `c` (twice the position), and the shorter ones there. -/
def Nearer (c len i' len' : Nat) : Prop :=
  len' = 0 ∨ 2 * i' + len' < c + 1 ∨ 2 * i' + len' = c + 1 ∧ len' < len

/-- `p` is the leftmost of the longest of them. -/
structure Sweep (s : List α) (c len : Nat) (p : Nat × Nat) : Prop where
  best : BestOf (Palindromic s) (Nearer c len) p
  before : 2 * p.1 + p.2 ≤ c + 1

/-- A turn of the loop that widens: `l` and `h` are `k` positions away from the start, and
what is between them is a palindrome. -/
structure Widening (s : List α) (i j k : Nat) (l : Int) (h : Nat) (p : Nat × Nat) : Prop where
  left : l = i - k
  right : h = i + j + k
  bound : k ≤ i + 1
  inner : Palindromic s (i + 1 - k) (2 * k + j - 1)
  sweep : Sweep s (2 * i + j) (2 * k + j + 1) p

/-- Nothing longer about this centre is a palindrome. -/
theorem Sweep.next {c : Nat} (hsweep : Sweep s c len p)
    (hnone : ∀ i' len', 2 * i' + len' = c + 1 → len ≤ len' → ¬ Palindromic s i' len') :
    Sweep s (c + 1) 0 p where
  best := by
    refine hsweep.best.mono fun i' len' hp hseen => ?_
    have hshort : 2 * i' + len' = c + 1 → len' < len := by
      intro hcentre
      by_contra hlong
      exact hnone i' len' hcentre (Nat.le_of_not_lt hlong) hp
    unfold Nearer at hseen ⊢
    omega
  before := by
    have hbefore := hsweep.before
    omega

namespace Widening

variable {l : Int} {k : Nat}

theorem start (hsweep : Sweep s (2 * i + j) 0 p) (hi : i < s.length) (hj : j ≤ 1) :
    Widening s i j 0 i (i + j) p where
  left := by simp
  right := rfl
  bound := Nat.zero_le _
  inner := by
    have hempty : 2 * 0 + j - 1 = 0 := by omega
    rw [hempty]
    exact palindromic_zero hi
  sweep := by
    refine ⟨hsweep.best.mono fun i' len' _ hseen => ?_, hsweep.before⟩
    unfold Nearer at hseen ⊢
    omega

/-- The window from `l` to `h` is a palindrome if its ends are equal. -/
theorem palindromic_iff (hw : Widening s i j k l h p) (hj : j ≤ 1) (hl : k ≤ i)
    (hh : h < s.length) :
    Palindromic s (i - k) (2 * k + j + 1) ↔ s[i - k]? = s[h]? := by
  have hright := hw.right
  rcases Nat.eq_zero_or_pos (2 * k + j) with hzero | hpos
  · have hk : k = 0 := by omega
    have hsame : h = i - k := by omega
    rw [hzero, hsame]
    simp only [iff_true]
    exact palindromic_one (by omega)
  · have hwidth : 2 * k + j + 1 = 2 * k + j - 1 + 2 := by omega
    have hend : i - k + (2 * k + j - 1) + 1 = h := by omega
    have hnext : i - k + 1 = i + 1 - k := by omega
    rw [hwidth, palindromic_add_two (by omega), hend, hnext]
    exact and_iff_left hw.inner

/-- The ends are equal. -/
theorem wider (hw : Widening s i j k l h p) (hj : j ≤ 1) (hl : k ≤ i) (hh : h < s.length)
    (hends : s[i - k]? = s[h]?) :
    Widening s i j (k + 1) (l - 1) (h + 1)
      (if p.2 < 2 * k + j + 1 then (i - k, 2 * k + j + 1) else p) where
  left := by
    have hleft := hw.left
    omega
  right := by
    have hright := hw.right
    omega
  bound := by omega
  inner := by
    have hp := (hw.palindromic_iff hj hl hh).mpr hends
    have hstart : i + 1 - (k + 1) = i - k := by omega
    have hwidth : 2 * (k + 1) + j - 1 = 2 * k + j + 1 := by omega
    rwa [hstart, hwidth]
  sweep := by
    have hp := (hw.palindromic_iff hj hl hh).mpr hends
    have hbefore := hw.sweep.before
    constructor
    · apply hw.sweep.best.visit hp (by omega)
      intro i' len' hseen
      unfold Nearer at hseen ⊢
      omega
    · split
      case isTrue =>
        dsimp only
        omega
      case isFalse => exact hbefore

/-- A palindrome about this centre that is at least as long would have the window in it. -/
theorem stop (hw : Widening s i j k l h p) (hj : j ≤ 1)
    (hends : k ≤ i → h < s.length → s[i - k]? ≠ s[h]?) : Sweep s (2 * i + j + 1) 0 p := by
  apply hw.sweep.next
  intro i' len' hcentre hlong hp
  have hright := hw.right
  have hinside := hp.inside
  obtain ⟨m, hm⟩ : ∃ m, len' = 2 * k + j + 1 + 2 * m := ⟨(len' - (2 * k + j + 1)) / 2, by omega⟩
  rw [hm] at hp
  have hinner := hp.inner
  have hstart : i' + m = i - k := by omega
  rw [hstart] at hinner
  exact hends (by omega) (by omega)
    ((hw.palindromic_iff hj (by omega) (by omega)).mp hinner)

end Widening

section Rounds

variable [DecidableEq α] {fuel : Nat}

theorem widen_spec (hsweep : Sweep s (2 * i + j) 0 p) (hi : i < s.length) (hj : j ≤ 1)
    (hfuel : s.length < fuel) :
    ∃ p', loop (widen s) fuel ((i : Int), i + j, p) = some p' ∧
      Sweep s (2 * i + j + 1) 0 p' := by
  apply loop_total (fun (l, h, p) => ∃ k, Widening s i j k l h p) fun (l, _, _) => (l + 1).toNat
  · rintro ⟨l, h, p⟩ ⟨k, hw⟩
    have hleft := hw.left
    by_cases hgoes : 0 ≤ l ∧ h < s.length
    · obtain ⟨hl, hh⟩ := hgoes
      have hk : k ≤ i := by omega
      have hindex : l.toNat = i - k := by omega
      have hright := hw.right
      have hlen : ((h : Int) - l + 1).toNat = 2 * k + j + 1 := by omega
      have hi' : i - k < s.length := by omega
      by_cases hends : s[i - k] = s[h]
      · refine .inr ⟨(l - 1, h + 1, if p.2 < 2 * k + j + 1 then (i - k, 2 * k + j + 1) else p), ?_,
          ⟨k + 1, hw.wider hj hk hh ?_⟩, ?_⟩
        · simp [widen, hl, hh, hindex, hi', hends, hlen]
        · rw [List.getElem?_eq_getElem hi', List.getElem?_eq_getElem hh, hends]
        · dsimp only
          omega
      · refine .inl ⟨p, ?_, hw.stop hj fun _ _ hequal => hends ?_⟩
        · simp [widen, hl, hh, hindex, hi', hends]
        · rw [List.getElem?_eq_getElem hi', List.getElem?_eq_getElem hh] at hequal
          exact Option.some.inj hequal
    · refine .inl ⟨p, by simp only [widen, if_neg hgoes], hw.stop hj fun hk hh => ?_⟩
      exact absurd ⟨by omega, hh⟩ hgoes
  · exact ⟨0, Widening.start hsweep hi hj⟩
  · dsimp only
    omega

theorem centre_spec (hsweep : Sweep s (2 * i) 0 p) (hi : i < s.length) (hfuel : s.length < fuel) :
    ∃ p', forRange 0 2 (fun j p => loop (widen s) fuel ((i : Int), i + j, p)) p = some p' ∧
      Sweep s (2 * (i + 1)) 0 p' :=
  forRange_rule (fun j p => Sweep s (2 * i + j) 0 p) hsweep fun _ _ _ hj hsweep =>
    widen_spec hsweep hi (Nat.le_of_lt_succ hj) hfuel

theorem centres_spec (hs : s ≠ []) (hfuel : s.length < fuel) :
    ∃ p, forRange 0 s.length (fun i => forRange 0 2 fun j p =>
        loop (widen s) fuel ((i : Int), i + j, p)) (0, 1) = some p ∧
      Sweep s (2 * max 0 s.length) 0 p := by
  have hstart : Sweep s (2 * 0) 0 (0, 1) := by
    refine ⟨⟨palindromic_one (List.length_pos_of_ne_nil hs), fun i' len' hseen _ => ?_⟩,
      Nat.le_refl _⟩
    unfold Nearer at hseen
    dsimp only
    omega
  exact forRange_rule (fun i p => Sweep s (2 * i) 0 p) hstart fun i p _ hi hsweep =>
    centre_spec hsweep hi hfuel

theorem longestPalSubsCenter_spec (hs : s ≠ []) (hfuel : s.length < fuel) : ∃ p : Nat × Nat,
    longestPalSubsCenter fuel s = substr s p ∧ LeftmostLongest (Palindromic s) p.1 p.2 := by
  obtain ⟨p, hrun, hsweep⟩ := centres_spec hs hfuel
  refine ⟨p, ?_, hsweep.best.leftmostLongest fun i len hp => ?_⟩
  · simp only [longestPalSubsCenter, hrun, Option.bind_eq_bind, Option.bind_some]
  · have hinside := hp.inside
    unfold Nearer
    omega

end Rounds

example : longestPalSubsDp [3, 1, 2, 1, 2] = some [1, 2, 1] := by decide

end LongestPalSubs

end MoreCpp
