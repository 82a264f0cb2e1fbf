import MoreCpp.Library.CappedMin
import MoreCpp.Library.Cells
import MoreCpp.Library.Loop
import MoreCpp.Library.Overwriting
import MoreCpp.Library.SignedInt
import Mathlib.Data.List.Destutter
import Mathlib.Data.List.Sort

/-!
`make_array_increasing` of `algorithms/binary_search/binary_search.cpp`. `none` is an index out
of range, a sum that overflows, or a negative length of `f`. Values between the sentinels are
fewer than `2 ^ 31`, so that `j` is an `int`.
-/

namespace MoreCpp

open Library

namespace MakeArrayIncreasing

def inf : Nat := 1 <<< 30

/-- `arr2`, after `sort` and `unique`. -/
def distinct (arr2 : List Int) : List Int := (arr2.mergeSort fun a b => a ≤ b).destutter (· ≠ ·)

/-- `arr1`, with the sentinels. -/
def guarded (arr1 : List Int) : List Int := -(inf : Int) :: (arr1 ++ [(inf : Int)])

/-- `vector<int> f(n, inf)`. -/
def table (n : Int) : Option (List Nat) :=
  if 0 ≤ n then some (List.replicate n.toNat inf) else none

/-- A turn of the loop over `k`. -/
def relax (arr1 arr2 : List Int) (i j k : Nat) (f : List Nat) : Option (List Nat) := do
  let x ← arr1[i - k - 1]?
  let y ← arr2[j - k]?
  if x < y then
    let a ← f[i]?
    let b ← f[i - k - 1]?
    let b ← signedNat 32 (b + k)
    store f i (min a b)
  else return f

/-- `if (arr1[i - 1] < arr1[i])` and what it does. -/
def keepBoth (arr1 : List Int) (i : Nat) (f : List Nat) : Option (List Nat) := do
  let x ← arr1[i - 1]?
  let y ← arr1[i]?
  if x < y then
    let a ← f[i - 1]?
    store f i a
  else return f

/-- A turn of the loop over `i`. -/
def turn (arr1 arr2 : List Int) (i : Nat) (f : List Nat) : Option (List Nat) := do
  let f ← keepBoth arr1 i f
  let y ← arr1[i]?
  let j := partitionPoint (· < y) arr2
  forRange 1 (min (i - 1) j + 1) (relax arr1 arr2 i j) f

/-- `int n = arr1.size()`. -/
def intSize (arr1 : List Int) : Int := (arr1.length : Int).bmod (2 ^ 32)

def makeArrayIncreasing (arr1 arr2 : List Int) : Option Int := do
  let arr2 := distinct arr2
  let n := intSize arr1
  let arr1 := guarded arr1
  let f ← table n
  let f ← store f 0 0
  let f ← forRange 1 n.toNat (turn arr1 arr2) f
  let r ← f[n.toNat - 1]?
  return if r ≥ inf then -1 else (r : Int)

/-- The costs of making `arr1` increasing. -/
def costs (arr1 arr2 : List Int) : Set Nat :=
  {c | ∃ l, Overwrites arr2 arr1 l c ∧ l.Pairwise (· < ·)}

variable {arr1 arr2 : List Int} {x : Nat → Int} {f : List Nat} {i j k n p c : Nat}

/-! ## Rooms -/

theorem mem_distinct {y : Int} : y ∈ distinct arr2 ↔ y ∈ arr2 := by
  have hmem : ∀ (l : List Int) (a : Int), y ∈ l.destutter' (· ≠ ·) a ↔ y = a ∨ y ∈ l := by
    intro l
    induction l with
    | nil => intro a; simp
    | cons b l ih =>
        intro a
        rw [List.destutter'_cons]
        split
        · rw [List.mem_cons, ih, List.mem_cons]
        next heq =>
          rw [ne_eq, not_not] at heq
          rw [ih, List.mem_cons, heq, or_self_left]
  have hsorted : y ∈ (arr2.mergeSort fun a b => a ≤ b) ↔ y ∈ arr2 := List.mem_mergeSort
  rw [← hsorted, distinct]
  cases (arr2.mergeSort fun a b => a ≤ b) with
  | nil => rfl
  | cons a l => rw [List.destutter_cons', hmem, List.mem_cons]

theorem pairwise_distinct (arr2 : List Int) : (distinct arr2).Pairwise (· < ·) := by
  have hle : (distinct arr2).Pairwise (· ≤ ·) :=
    (List.pairwise_mergeSort' (· ≤ ·) arr2).sublist (List.destutter_sublist _ _)
  have hne : (distinct arr2).IsChain (· ≠ ·) := List.isChain_destutter _ _
  refine List.isChain_iff_pairwise.mp (List.isChain_iff_getElem.mpr fun i hi => ?_)
  have hstep := List.pairwise_iff_getElem.mp hle i (i + 1) (by omega) hi (Nat.lt_succ_self i)
  exact lt_of_le_of_ne hstep (hne.getElem i hi)

/-- `j - k` is the first of the `k` greatest values below `arr1[i]`. -/
theorem room_distinct {lo hi : Int} (hk : 1 ≤ k) : Room arr2 lo k hi ↔
    ∃ b, k ≤ partitionPoint (· < hi) (distinct arr2) ∧
      (distinct arr2)[partitionPoint (· < hi) (distinct arr2) - k]? = some b ∧ lo < b := by
  rw [← room_iff (pairwise_distinct arr2) hk]
  simp only [Room, mem_distinct]

/-! ## The table -/

/-- The costs of keeping the element at `i`, and that before it at a distance of `k` at most. -/
def Short (arr2 : List Int) (x : Nat → Int) (i k : Nat) : Set Nat :=
  {c | ∃ p k' c', k' < k ∧ p + k' + 1 = i ∧ c' + k' = c ∧ Kept arr2 x p c' ∧
    Room arr2 (x p) k' (x i)}

theorem short_zero : ∀ c ∈ Short arr2 x i 0, inf ≤ c :=
  fun _ ⟨_, _, _, hless, _⟩ => absurd hless (Nat.not_lt_zero _)

theorem short_succ (hi : p + k + 1 = i) (hroom : Room arr2 (x p) k (x i)) :
    c ∈ Short arr2 x i (k + 1) ↔
      c ∈ Short arr2 x i k ∨ ∃ c' ∈ {c | Kept arr2 x p c}, c' + k = c := by
  constructor
  · rintro ⟨p', k', c', hless, hi', hc, hkept, hroom'⟩
    obtain hlt | rfl := Nat.lt_succ_iff_lt_or_eq.mp hless
    · exact .inl ⟨p', k', c', hlt, hi', hc, hkept, hroom'⟩
    · obtain rfl : p = p' := by omega
      exact .inr ⟨c', hkept, hc⟩
  · rintro (⟨p', k', c', hless, hrest⟩ | ⟨c', hkept, hc⟩)
    · exact ⟨p', k', c', Nat.lt_succ_of_lt hless, hrest⟩
    · exact ⟨p, k, c', Nat.lt_succ_self k, hi, hc, hkept, hroom⟩

theorem short_succ_of_not (hi : p + k + 1 = i) (hroom : ¬Room arr2 (x p) k (x i)) :
    Short arr2 x i (k + 1) = Short arr2 x i k := by
  ext c
  constructor
  · rintro ⟨p', k', c', hless, hi', hc, hkept, hroom'⟩
    obtain hlt | rfl := Nat.lt_succ_iff_lt_or_eq.mp hless
    · exact ⟨p', k', c', hlt, hi', hc, hkept, hroom'⟩
    · obtain rfl : p = p' := by omega
      exact absurd hroom' hroom
  · rintro ⟨p', k', c', hless, hrest⟩
    exact ⟨p', k', c', Nat.lt_succ_of_lt hless, hrest⟩

/-- There are no longer distances than the loop over `k` goes through. -/
theorem short_eq (hi : 1 ≤ i) (hk : ∀ p k', p + k' + 1 = i → Room arr2 (x p) k' (x i) → k' < k) :
    Short arr2 x i k = {c | Kept arr2 x i c} := by
  obtain ⟨i, rfl⟩ := Nat.exists_eq_add_of_le' hi
  ext c
  rw [Set.mem_ofPred_eq, kept_succ]
  constructor
  · rintro ⟨p, k', c', -, hi, hrest⟩
    exact ⟨p, k', c', Nat.succ.inj hi, hrest⟩
  · rintro ⟨p, k', c', hi, hc, hkept, hroom⟩
    exact ⟨p, k', c', hk p k' (congrArg (· + 1) hi) hroom, congrArg (· + 1) hi, hc, hkept, hroom⟩

/-- The costs before `i` are done, and that at `i` for the distances below `k`. -/
structure Entry (arr2 : List Int) (x : Nat → Int) (i k m v : Nat) : Prop where
  before : m < i → Capped inf {c | Kept arr2 x m c} v
  here : m = i → Capped inf (Short arr2 x i k) v
  after : i < m → v = inf

/-- Putting values at the `k` positions before `i` does not make the sum overflow. -/
def Fits (arr2 : List Int) (x : Nat → Int) (i k : Nat) : Prop :=
  ∀ p v, p + k + 1 = i → Room arr2 (x p) k (x i) → Capped inf {c | Kept arr2 x p c} v →
    v + k < 2 ^ 31

theorem relax_spec (hx : ∀ i < n, arr1[i]? = some (x i)) (hin : i < n) (hk : 1 ≤ k)
    (hki : k ≤ i - 1) (hkj : k ≤ partitionPoint (· < x i) (distinct arr2))
    (hf : Each f n (Entry arr2 x i k)) :
    (Fits arr2 x i k ∧ ∃ f', relax arr1 (distinct arr2) i
        (partitionPoint (· < x i) (distinct arr2)) k f = some f' ∧
        Each f' n (Entry arr2 x i (k + 1))) ∨
      (¬Fits arr2 x i k ∧ relax arr1 (distinct arr2) i
        (partitionPoint (· < x i) (distinct arr2)) k f = none) := by
  obtain ⟨p, hp⟩ : ∃ p, p + k + 1 = i := ⟨i - k - 1, by omega⟩
  have hread : i - k - 1 = p := by omega
  have hroom : Room arr2 (x p) k (x i) ↔ _ := room_distinct hk
  have hj := partitionPoint_le_length (p := (· < x i)) (l := distinct arr2)
  generalize partitionPoint (· < x i) (distinct arr2) = j at hkj hroom hj ⊢
  obtain ⟨y, hy⟩ : ∃ y, (distinct arr2)[j - k]? = some y :=
    ⟨_, List.getElem?_eq_getElem (show j - k < (distinct arr2).length by omega)⟩
  simp only [relax, hread, hx p (by omega), hy, Option.bind_eq_bind, Option.bind_some]
  by_cases hless : x p < y
  · replace hroom := hroom.mpr ⟨y, hkj, hy, hless⟩
    obtain ⟨a, ha, hcell⟩ := hf.read i hin
    obtain ⟨b, hb, hcell'⟩ := hf.read p (by omega)
    have hleast := hcell'.before (by omega)
    simp only [if_pos hless, ha, hb, Option.bind_some]
    by_cases hfits : b + k < 2 ^ 31
    · left
      refine ⟨fun p' v hp' _ hv => ?_, ?_⟩
      · obtain rfl : p = p' := by omega
        rwa [hv.unique hleast]
      · have hnext := hf.update (Q := Entry arr2 x i (k + 1)) hin
          ⟨fun hlt => absurd hlt (Nat.lt_irrefl i),
            fun _ => (hcell.here rfl).min_add hleast fun m => short_succ hp hroom,
            fun hlt => absurd hlt (Nat.lt_irrefl i)⟩
          fun m v _ hne h => ⟨h.before, fun heq => absurd heq hne, h.after⟩
        rwa [show signedNat 32 (b + k) = some (b + k) from signedNat_eq hfits]
    · right
      refine ⟨fun h => hfits (h p b hp hroom hleast), ?_⟩
      rw [show signedNat 32 (b + k) = none from signedNat_eq_none (not_lt.mp hfits)]
      rfl
  · left
    have hnone : ¬Room arr2 (x p) k (x i) := fun h => by
      obtain ⟨y', -, hy', hless'⟩ := hroom.mp h
      obtain rfl := Option.some.inj (hy.symm.trans hy')
      exact hless hless'
    refine ⟨fun p' v hp' hroom' _ => ?_, f, by rw [if_neg hless]; rfl, hf.mono fun m v _ h => ?_⟩
    · obtain rfl : p = p' := by omega
      exact absurd hroom' hnone
    · exact ⟨h.before, fun heq => short_succ_of_not hp hnone ▸ h.here heq, h.after⟩

theorem keepBoth_spec (hx : ∀ i < n, arr1[i]? = some (x i)) (hi : 1 ≤ i) (hin : i < n)
    (hf : Each f n (Entry arr2 x i 0)) :
    ∃ f', keepBoth arr1 i f = some f' ∧ Each f' n (Entry arr2 x i 1) := by
  obtain ⟨p, rfl⟩ := Nat.exists_eq_add_of_le' hi
  simp only [keepBoth, Nat.add_sub_cancel, hx p (by omega), hx (p + 1) hin, Option.bind_eq_bind,
    Option.bind_some]
  by_cases hless : x p < x (p + 1)
  · have hroom : Room arr2 (x p) 0 (x (p + 1)) := room_zero.mpr hless
    obtain ⟨b, hb, hcell⟩ := hf.read p (by omega)
    have hleast := hcell.before (Nat.lt_succ_self p)
    have hcap := (Capped.none short_zero).min_add hleast fun m => short_succ (c := m) rfl hroom
    have hmin : min inf (b + 0) = b := Nat.min_eq_right hleast.le_cap
    rw [hmin] at hcap
    rw [if_pos hless, hb]
    exact hf.update (Q := Entry arr2 x (p + 1) 1) hin
      ⟨fun hlt => absurd hlt (Nat.lt_irrefl _), fun _ => hcap,
        fun hlt => absurd hlt (Nat.lt_irrefl _)⟩
      fun m v _ hne h => ⟨h.before, fun heq => absurd heq hne, h.after⟩
  · have hnone : ¬Room arr2 (x p) 0 (x (p + 1)) := fun h => hless (room_zero.mp h)
    refine ⟨f, by rw [if_neg hless]; rfl, hf.mono fun m v _ h => ⟨h.before, fun heq => ?_, h.after⟩⟩
    exact short_succ_of_not rfl hnone ▸ h.here heq

theorem turn_spec (hx : ∀ i < n, arr1[i]? = some (x i)) (hi : 1 ≤ i) (hin : i < n)
    (hf : Each f n (Entry arr2 x i 0)) :
    ((∀ k, 1 ≤ k → Fits arr2 x i k) ∧ ∃ f', turn arr1 (distinct arr2) i f = some f' ∧
        Each f' n (Entry arr2 x (i + 1) 0)) ∨
      (¬(∀ k, 1 ≤ k → Fits arr2 x i k) ∧ turn arr1 (distinct arr2) i f = none) := by
  obtain ⟨f', hkeep, hf'⟩ := keepBoth_spec hx hi hin hf
  simp only [turn, hkeep, hx i hin, Option.bind_eq_bind, Option.bind_some]
  have hshort : ∀ p k, p + k + 1 = i → Room arr2 (x p) k (x i) →
      k < max 1 (min (i - 1) (partitionPoint (· < x i) (distinct arr2)) + 1) := by
    intro p k hp hroom
    obtain rfl | hk := Nat.eq_zero_or_pos k
    · omega
    · obtain ⟨b, hkj, -⟩ := (room_distinct hk).mp hroom
      omega
  have hall : (∀ k, 1 ≤ k → k < min (i - 1) (partitionPoint (· < x i) (distinct arr2)) + 1 →
      Fits arr2 x i k) ↔ ∀ k, 1 ≤ k → Fits arr2 x i k := by
    refine ⟨fun h k hk p v hp hroom hv => ?_, fun h k hk _ => h k hk⟩
    have hless := hshort p k hp hroom
    exact h k hk (by omega) p v hp hroom hv
  have hrelax := fun k f hk (hless : k < min (i - 1) _ + 1) (hf : Each f n (Entry arr2 x i k)) =>
    relax_spec hx hin hk ((Nat.le_of_lt_succ hless).trans (Nat.min_le_left _ _))
      ((Nat.le_of_lt_succ hless).trans (Nat.min_le_right _ _)) hf
  obtain ⟨hfits, f'', hrun, hf''⟩ | ⟨hfail, hrun⟩ :=
    forRange_checked (fun k f => Each f n (Entry arr2 x i k)) (Fits arr2 x i) hf' hrelax
  · refine .inl ⟨hall.mp hfits, f'', hrun, hf''.mono fun m v _ h => ⟨fun hlt => ?_, fun heq => ?_,
      fun hlt => h.after (by omega)⟩⟩
    · obtain hlt | rfl := Nat.lt_succ_iff_lt_or_eq.mp hlt
      · exact h.before hlt
      · rw [← short_eq hi hshort]
        exact h.here rfl
    · rw [h.after (by omega)]
      exact .none short_zero
  · exact .inr ⟨fun h => hfail (hall.mpr h), hrun⟩

theorem table_spec (arr2 : List Int) (hx : ∀ i < n, arr1[i]? = some (x i)) (hn : 1 ≤ n) :
    ∃ f, store (List.replicate n inf) 0 0 = some f ∧
      (((∀ i, 1 ≤ i → i < n → ∀ k, 1 ≤ k → Fits arr2 x i k) ∧
          ∃ f' r, forRange 1 n (turn arr1 (distinct arr2)) f = some f' ∧ f'[n - 1]? = some r ∧
            Capped inf {c | Kept arr2 x (n - 1) c} r) ∨
        (¬(∀ i, 1 ≤ i → i < n → ∀ k, 1 ≤ k → Fits arr2 x i k) ∧
          forRange 1 n (turn arr1 (distinct arr2)) f = none)) := by
  have hempty : Each (List.replicate n inf) n fun _ v => v = inf := .replicate fun _ _ => rfl
  have hzero : Capped inf {c | Kept arr2 x 0 c} 0 :=
    ⟨.inr .start, fun _ _ => Nat.zero_le _⟩
  obtain ⟨f, hstore, hf⟩ := hempty.update (Q := Entry arr2 x 1 0) hn
    ⟨fun _ => hzero, fun heq => absurd heq (by decide), fun hlt => absurd hlt (by decide)⟩
    fun m v _ hne hv => ⟨fun hlt => absurd (Nat.lt_one_iff.mp hlt) hne,
      fun _ => by rw [hv]; exact .none short_zero, fun _ => hv⟩
  refine ⟨f, hstore, ?_⟩
  obtain ⟨hfits, f', hrun, hf'⟩ | ⟨hfail, hrun⟩ := forRange_checked
    (fun i f => Each f n (Entry arr2 x i 0)) _ hf fun i f hi hin hf => turn_spec hx hi hin hf
  · obtain ⟨r, hr, hcell⟩ := hf'.read (n - 1) (by omega)
    exact .inl ⟨hfits, f', r, hrun, hr, hcell.before (by omega)⟩
  · exact .inr ⟨hfail, hrun⟩

/-- The elements with the first sentinel before them. -/
def element (arr1 : List Int) (i : Nat) : Int := (guarded arr1).getD i 0

theorem element_succ (hi : i < arr1.length) : element arr1 (i + 1) = arr1[i] := by
  rw [element, guarded, List.getD_eq_getElem?_getD, List.getElem?_cons_succ,
    List.getElem?_append_left hi, List.getElem?_eq_getElem hi, Option.getD_some]

theorem guarded_getElem? (hi : i ≤ arr1.length) : (guarded arr1)[i]? = some (element arr1 i) := by
  have hin : i < (guarded arr1).length := by
    rw [guarded, List.length_cons, List.length_append]
    omega
  rw [element, List.getD_eq_getElem?_getD, List.getElem?_eq_getElem hin, Option.getD_some]

theorem firstOf_element (hi : i ≤ arr1.length) : firstOf (element arr1) i = arr1.take i := by
  induction i with
  | zero => rfl
  | succ i ih =>
      rw [firstOf_succ, ih (by omega), element_succ hi, List.take_succ_eq_append_getElem hi]

/-- What a result of the least number of overwrites is. -/
def Answers (arr1 arr2 : List Int) (r : Int) : Prop :=
  (∃ c : Nat, r = c ∧ IsLeast (costs arr1 arr2) c) ∨ (r = -1 ∧ costs arr1 arr2 = ∅)

theorem kept_element (hvalues : ∀ v ∈ arr1 ++ arr2, -2 ^ 30 < v ∧ v < 2 ^ 30)
    (hi : i ≤ arr1.length) :
    Kept arr2 (element arr1) i c ↔ LastKept arr2 (arr1.take i) c := by
  have hfirst : element arr1 0 = -2 ^ 30 := rfl
  rw [← firstOf_element hi]
  refine kept_iff_lastKept (fun j hj => ?_) fun y hy => ?_
  · rw [hfirst, element_succ (by omega)]
    exact (hvalues _ (List.mem_append_left _ (List.getElem_mem _))).1
  · rw [hfirst]
    exact (hvalues y (List.mem_append_right _ hy)).1

theorem fits_iff (hn : n < 2 ^ 31) : (∀ i, 1 ≤ i → i < n → ∀ k, 1 ≤ k → Fits arr2 x i k) ↔
    ∀ p k, 2 ^ 30 ≤ k → p + k + 1 < n → Room arr2 (x p) k (x (p + k + 1)) →
      ∃ c, Kept arr2 x p c := by
  have hinf : inf = 2 ^ 30 := rfl
  constructor
  · intro h p k hk hless hroom
    by_contra hnone
    have hcap : Capped inf {c | Kept arr2 x p c} inf := .none fun c hc => absurd ⟨c, hc⟩ hnone
    have hsum := h (p + k + 1) (by omega) hless k (by omega) p inf rfl hroom hcap
    omega
  · rintro h _ - hin k - p v rfl hroom hv
    have hcap := hv.le_cap
    by_cases hk : 2 ^ 30 ≤ k
    · obtain ⟨c, hc⟩ := h p k hk hin hroom
      have hvc := hv.le hc
      have hcp := hc.le
      omega
    · omega

/-- Nothing is before the first element, so that it costs nothing to keep. -/
theorem kept_of_room_iff (hvalues : ∀ v ∈ arr1 ++ arr2, -2 ^ 30 < v ∧ v < 2 ^ 30)
    (hn : n ≤ arr1.length) :
    (∀ p k, 2 ^ 30 ≤ k → p + k + 1 < n →
        Room arr2 (element arr1 p) k (element arr1 (p + k + 1)) →
        ∃ c, Kept arr2 (element arr1) p c) ↔
      ∀ p k lo hi, 2 ^ 30 ≤ k → p + k + 2 < n → arr1[p]? = some lo →
        arr1[p + k + 1]? = some hi → Room arr2 lo k hi →
        ∃ c, LastKept arr2 (arr1.take (p + 1)) c := by
  constructor
  · intro h p k lo hi hk hless hlo hhi hroom
    obtain ⟨hp, rfl⟩ := List.getElem?_eq_some_iff.mp hlo
    obtain ⟨hq, rfl⟩ := List.getElem?_eq_some_iff.mp hhi
    have hnext : p + 1 + k + 1 = p + k + 1 + 1 := by omega
    obtain ⟨c, hc⟩ := h (p + 1) k hk (by omega) (by
      rwa [hnext, element_succ hp, element_succ hq])
    exact ⟨c, (kept_element hvalues hp).mp hc⟩
  · rintro h (_ | p) k hk hless hroom
    · exact ⟨0, .start⟩
    · have hp : p < arr1.length := by omega
      have hq : p + k + 1 < arr1.length := by omega
      have hnext : p + 1 + k + 1 = p + k + 1 + 1 := by omega
      rw [hnext, element_succ hp, element_succ hq] at hroom
      obtain ⟨c, hc⟩ := h p k _ _ hk (by omega) (List.getElem?_eq_getElem hp)
        (List.getElem?_eq_getElem hq) hroom
      exact ⟨c, (kept_element hvalues hp).mpr hc⟩

theorem intSize_bounds (arr1 : List Int) : intSize arr1 < 2 ^ 31 ∧ intSize arr1 ≤ arr1.length := by
  have hhalf : intSize arr1 < (2 ^ 32 + 1) / 2 := Int.bmod_lt (by decide)
  exact ⟨hhalf.trans_le (by decide), natCast_bmod_le _ _⟩

theorem answers_iff {T : Set Nat} {r : Nat} (h : Capped inf T r) :
    Answers arr1 arr2 (if r ≥ inf then -1 else (r : Int)) ↔
      (∃ c < 2 ^ 30, IsLeast T c ∧ IsLeast (costs arr1 arr2) c) ∨
        ((∀ c ∈ T, 2 ^ 30 ≤ c) ∧ costs arr1 arr2 = ∅) := by
  have hinf : inf = 2 ^ 30 := rfl
  rw [← hinf]
  obtain hlt | rfl := Nat.lt_or_eq_of_le h.le_cap
  · have hleast := h.isLeast hlt
    rw [if_neg (by omega)]
    constructor
    · rintro (⟨c, hc, hcosts⟩ | ⟨hneg, -⟩)
      · obtain rfl := Int.ofNat_inj.mp hc
        exact .inl ⟨r, hlt, hleast, hcosts⟩
      · omega
    · rintro (⟨c, -, hc, hcosts⟩ | ⟨hall, -⟩)
      · exact .inl ⟨c, by rw [hleast.unique hc], hcosts⟩
      · exact absurd (hall r hleast.1) (not_le.mpr hlt)
  · rw [if_pos (le_refl inf)]
    constructor
    · rintro (⟨c, hc, -⟩ | ⟨-, hnone⟩)
      · omega
      · exact .inr ⟨fun c hc => h.le hc, hnone⟩
    · rintro (⟨c, hless, hc, -⟩ | ⟨-, hnone⟩)
      · exact absurd (h.le hc.1) (not_le.mpr hless)
      · exact .inr ⟨rfl, hnone⟩

theorem makeArrayIncreasing_iff (arr1 arr2 : List Int)
    (hvalues : ∀ v ∈ arr1 ++ arr2, -2 ^ 30 < v ∧ v < 2 ^ 30) :
    (∃ r, makeArrayIncreasing arr1 arr2 = some r ∧ Answers arr1 arr2 r) ↔
      0 < intSize arr1 ∧
      (∀ p k lo hi, 2 ^ 30 ≤ k → p + k + 2 < (intSize arr1).toNat → arr1[p]? = some lo →
        arr1[p + k + 1]? = some hi → Room arr2 lo k hi →
        ∃ c, LastKept arr2 (arr1.take (p + 1)) c) ∧
      ((∃ c < 2 ^ 30, IsLeast {c | LastKept arr2 (arr1.take ((intSize arr1).toNat - 1)) c} c ∧
          IsLeast (costs arr1 arr2) c) ∨
        ((∀ c, LastKept arr2 (arr1.take ((intSize arr1).toNat - 1)) c → 2 ^ 30 ≤ c) ∧
          costs arr1 arr2 = ∅)) := by
  obtain ⟨hsmall, hlength⟩ := intSize_bounds arr1
  obtain hneg | hpos := Int.lt_or_le 0 (intSize arr1) |>.symm
  · refine iff_of_false ?_ fun h => absurd h.1 (not_lt.mpr hneg)
    rintro ⟨r, hrun, -⟩
    unfold makeArrayIncreasing at hrun
    obtain ⟨f, htable, hrun⟩ := Option.bind_eq_some_iff.mp hrun
    obtain ⟨f', hstore, -⟩ := Option.bind_eq_some_iff.mp hrun
    unfold table at htable
    split at htable
    case isTrue hnonneg =>
      obtain rfl := Option.some.inj htable
      rw [le_antisymm hneg hnonneg] at hstore
      cases hstore
    case isFalse => cases htable
  · obtain ⟨n, hn⟩ := Int.eq_ofNat_of_zero_le hpos.le
    rw [hn, Int.toNat_natCast, and_iff_right (hn ▸ hpos)]
    rw [hn] at hsmall hlength hpos
    have hle : n ≤ arr1.length := Int.ofNat_le.mp hlength
    obtain ⟨f, hstore, hrun⟩ := table_spec (n := n) (x := element arr1) arr2
      (fun i hi => guarded_getElem? (by omega)) (by omega)
    rw [fits_iff (by omega), kept_of_room_iff hvalues hle] at hrun
    have htable : table n = some (List.replicate n inf) := if_pos (Int.natCast_nonneg n)
    simp only [makeArrayIncreasing, hn, htable, hstore, Int.toNat_natCast, Option.bind_eq_bind,
      Option.bind_some]
    obtain ⟨hfits, f', r, hloop, hr, hcap⟩ | ⟨hfail, hloop⟩ := hrun
    · rw [and_iff_right hfits]
      simp only [kept_element hvalues (show n - 1 ≤ arr1.length by omega)] at hcap
      simp only [hloop, hr, Option.bind_some, Option.pure_def, Option.some_inj, exists_eq_left']
      exact answers_iff hcap
    · rw [hloop]
      exact iff_of_false (fun ⟨r, hrun, _⟩ => by cases hrun) fun h => hfail h.1

theorem makeArrayIncreasing_iff_between :
    (∃ r, makeArrayIncreasing [1, 5, 7] [4] = some r ∧ Answers [1, 5, 7] [4] r) ↔
      0 < intSize [1, 5, 7] ∧
      (∀ p k lo hi, 2 ^ 30 ≤ k → p + k + 2 < (intSize [1, 5, 7]).toNat →
        ([1, 5, 7] : List Int)[p]? = some lo → ([1, 5, 7] : List Int)[p + k + 1]? = some hi →
        Room [4] lo k hi → ∃ c, LastKept [4] (([1, 5, 7] : List Int).take (p + 1)) c) ∧
      ((∃ c < 2 ^ 30,
          IsLeast {c | LastKept [4] (([1, 5, 7] : List Int).take
            ((intSize [1, 5, 7]).toNat - 1)) c} c ∧ IsLeast (costs [1, 5, 7] [4]) c) ∨
        ((∀ c, LastKept [4] (([1, 5, 7] : List Int).take ((intSize [1, 5, 7]).toNat - 1)) c →
          2 ^ 30 ≤ c) ∧ costs [1, 5, 7] [4] = ∅)) :=
  makeArrayIncreasing_iff [1, 5, 7] [4] (by decide)

theorem makeArrayIncreasing_falling :
    makeArrayIncreasing [2, 1] [] = some 0 ∧ costs [2, 1] [] = ∅ := by
  constructor
  · simp only [makeArrayIncreasing, distinct, List.mergeSort_nil]
    decide
  · refine Set.eq_empty_of_forall_notMem ?_
    rintro c ⟨l, hl, hincreasing⟩
    obtain ⟨l, rfl, hfirst⟩ | ⟨_, _, _, -, -, hy, -⟩ := (overwrites_concat (a := [2])).mp hl
    · obtain ⟨l, rfl, hnone⟩ | ⟨_, _, _, -, -, hy, -⟩ := (overwrites_concat (a := [])).mp hfirst
      · obtain ⟨rfl, -⟩ := overwrites_nil.mp hnone
        exact absurd hincreasing (by decide)
      · exact List.not_mem_nil hy
    · exact List.not_mem_nil hy

end MakeArrayIncreasing

end MoreCpp
