import MoreCpp.Library.Cells
import MoreCpp.Library.IndexIntervals
import MoreCpp.Library.Loop
import Mathlib.Data.List.GetD

/-!
`number_blast_prefix` and `number_blast_suffix` of `algorithms/dp/dp.cpp`, with integers of
any size. An index out of range gives `none`.
-/

namespace MoreCpp

open Library

namespace NumberBlast

/-- A turn of the inner loop of `number_blast_prefix`. -/
def prefixTurn (A : List Int) (i j : Nat) (dp : List Int) : Option (List Int) := do
  let best ← dp[i]?
  let before ← dp[j - 1]?
  let x ← A[j - 1]?
  let y ← A[i - 1]?
  store dp i (max best (before + x * y))

def prefixRow (A : List Int) (i : Nat) (dp : List Int) : Option (List Int) := do
  let before ← dp[i - 1]?
  let dp ← store dp i before
  forRange 1 i (prefixTurn A i) dp

def numberBlastPrefix (A : List Int) : Option Int := do
  let n := A.length
  let dp ← forRange 1 (n + 1) (prefixRow A) (List.replicate (n + 1) 0)
  dp[n]?

/-- A turn of either inner loop of `number_blast_suffix`, with an interval from `i` on. -/
def suffixTurn (A dp : List Int) (i j : Nat) (best : Int) : Option Int := do
  let behind ← dp[j + 1]?
  let x ← A[i]?
  let y ← A[j]?
  return max best (behind + x * y)

def suffixRow (A : List Int) (i : Nat) (dp : List Int) : Option (List Int) := do
  let n := A.length
  let best ← forRange (i + 1) n (suffixTurn A dp i) 0
  let best ← (if i + 1 < n then forRange (i + 2) n (suffixTurn A dp (i + 1)) best else some best)
  store dp i best

def numberBlastSuffix (A : List Int) : Option Int := do
  let n := A.length
  let dp ← forDown 0 n (suffixRow A) (List.replicate (n + 1) 0)
  dp[0]?

/-- The product of the ends of an interval. -/
def product (A : List Int) (p : Nat × Nat) : Int := A.getD p.1 0 * A.getD p.2 0

variable {A dp : List Int} {i j : Nat}

theorem read_eq (hi : i < A.length) : A[i]? = some (A.getD i 0) := by
  rw [List.getElem?_eq_getElem hi, List.getD_eq_getElem _ _ hi]

/-! ## From the left -/

/-- The best with the last interval from before `j` to `i`. -/
def EndsAt (A : List Int) (i j : Nat) (a : Int) : Prop :=
  Best (Extended (Blocks 0 i) (fun p => Blocks 0 p.1) {p | p.2 = i ∧ p.1 < j}) (product A) a

theorem endsAt_zero {a : Int} (h : Best (Blocks 0 i) (product A) a) : EndsAt A i 0 a := by
  have hnone : {p : Nat × Nat | p.2 = i ∧ p.1 < 0} = ∅ :=
    Set.eq_empty_of_forall_notMem fun p hp => Nat.not_lt_zero _ hp.2
  rw [EndsAt, hnone]
  exact h.congr fun _ => extended_empty.symm

theorem EndsAt.next {a b : Int} (h : EndsAt A i j a) (hb : Best (Blocks 0 j) (product A) b) :
    EndsAt A i (j + 1) (max a (b + A.getD j 0 * A.getD i 0)) := by
  rw [add_comm b]
  refine Best.extend (x := (j, i)) h hb fun p => ?_
  simp only [Set.mem_ofPred_eq, Prod.ext_iff]
  omega

/-- The cells up to `i` are done, and the next one for the intervals from before `j`. -/
def PrefixInv (A : List Int) (i j : Nat) (dp : List Int) : Prop :=
  Each dp (A.length + 1) fun k a =>
    (k ≤ i → Best (Blocks 0 k) (product A) a) ∧ (k = i + 1 → EndsAt A i j a)

theorem prefixTurn_spec (h : PrefixInv A i j dp) (hi : i < A.length) (hj : j < i) :
    ∃ dp', prefixTurn A (i + 1) (j + 1) dp = some dp' ∧ PrefixInv A i (j + 1) dp' := by
  obtain ⟨a, ha, -, hends⟩ := h.read (i + 1) (by omega)
  obtain ⟨b, hb, hbest, -⟩ := h.read j (by omega)
  have hnext := (hends rfl).next (hbest hj.le)
  obtain ⟨dp', hstore, hdp'⟩ := h.update (a := max a (b + A.getD j 0 * A.getD i 0))
    (Q := fun k a => (k ≤ i → Best (Blocks 0 k) (product A) a) ∧
      (k = i + 1 → EndsAt A i (j + 1) a))
    (by omega) ⟨fun hle => absurd hle (by omega), fun _ => hnext⟩
    fun k c _ hne hc => ⟨hc.1, fun heq => absurd heq hne⟩
  refine ⟨dp', ?_, hdp'⟩
  simp only [prefixTurn, Nat.add_sub_cancel, ha, hb, read_eq hi, read_eq (hj.trans hi),
    Option.bind_eq_bind, Option.bind_some, hstore]

theorem prefixRow_spec (hi : i < A.length)
    (h : Each dp (A.length + 1) fun k a => k ≤ i → Best (Blocks 0 k) (product A) a) :
    ∃ dp', prefixRow A (i + 1) dp = some dp' ∧
      Each dp' (A.length + 1) fun k a => k ≤ i + 1 → Best (Blocks 0 k) (product A) a := by
  obtain ⟨a, ha, hbest⟩ := h.read i (by omega)
  obtain ⟨mid, hstore, hmid⟩ := h.update (a := a)
    (Q := fun k a => (k ≤ i → Best (Blocks 0 k) (product A) a) ∧ (k = i + 1 → EndsAt A i 0 a))
    (by omega : i + 1 < A.length + 1)
    ⟨fun hle => absurd hle (by omega), fun _ => endsAt_zero (hbest (Nat.le_refl i))⟩
    fun k c _ hne hc => ⟨hc, fun heq => absurd heq hne⟩
  have hloop : ∃ dp', forRange 1 (i + 1) (prefixTurn A (i + 1)) mid = some dp' ∧
      PrefixInv A i (max 1 (i + 1) - 1) dp' := by
    apply forRange_rule fun j dp => PrefixInv A i (j - 1) dp
    · exact hmid
    · intro j dp hj hj' hinv
      obtain ⟨j, rfl⟩ := Nat.exists_eq_add_of_le' hj
      exact prefixTurn_spec hinv hi (by omega)
  obtain ⟨dp', hrun, hdp'⟩ := hloop
  refine ⟨dp', ?_, hdp'.mono fun k c _ hc hk => ?_⟩
  · simp only [prefixRow, Nat.add_sub_cancel, ha, Option.bind_eq_bind, Option.bind_some, hstore,
      hrun]
  · obtain hlt | rfl := Nat.lt_or_eq_of_le hk
    · exact hc.1 (Nat.le_of_lt_succ hlt)
    · have hends := hc.2 rfl
      rw [EndsAt, show max 1 (i + 1) - 1 = i by omega] at hends
      exact hends.congr fun _ => blocks_succ_iff.symm

theorem numberBlastPrefix_spec (A : List Int) :
    ∃ m, numberBlastPrefix A = some m ∧ Best (Blocks 0 A.length) (product A) m := by
  have hstart : Each (List.replicate (A.length + 1) 0) (A.length + 1) fun k a =>
      k ≤ 0 → Best (Blocks 0 k) (product A) a :=
    Each.replicate fun k _ hk => .nil fun s =>
      ⟨fun h => h.eq_nil (by omega), fun h => h ▸ blocks_nil⟩
  have hloop : ∃ dp, forRange 1 (A.length + 1) (prefixRow A) (List.replicate (A.length + 1) 0) =
      some dp ∧ Each dp (A.length + 1) fun k a =>
        k ≤ max 1 (A.length + 1) - 1 → Best (Blocks 0 k) (product A) a := by
    apply forRange_rule fun i dp => Each dp (A.length + 1) fun k a =>
      k ≤ i - 1 → Best (Blocks 0 k) (product A) a
    · exact hstart
    · intro i dp hi hi' h
      obtain ⟨i, rfl⟩ := Nat.exists_eq_add_of_le' hi
      exact prefixRow_spec (by omega) h
  obtain ⟨dp, hrun, hdp⟩ := hloop
  obtain ⟨m, hm, hbest⟩ := hdp.read A.length (by omega)
  exact ⟨m, by rw [numberBlastPrefix, hrun]; exact hm, hbest (by omega)⟩

/-! ## From the right -/

/-- Close intervals from `i` on. -/
def CloseFrom (n i : Nat) (s : List (Nat × Nat)) : Prop := Blocks i n s ∧ Close i s

/-- The best with a first interval in `K`, or no interval at all. -/
def StartsIn (A : List Int) (K : Set (Nat × Nat)) (a : Int) : Prop :=
  Best (Extended (· = []) (fun p => CloseFrom A.length (p.2 + 1)) K) (product A) a

/-- The intervals from `i` to somewhere before `j`. -/
def fromTo (i j : Nat) : Set (Nat × Nat) := {p | p.1 = i ∧ p.1 < p.2 ∧ p.2 < j}

theorem StartsIn.next {K : Set (Nat × Nat)} {a b : Int} (h : StartsIn A (K ∪ fromTo i j) a)
    (hij : i < j) (hb : Best (CloseFrom A.length (j + 1)) (product A) b) :
    StartsIn A (K ∪ fromTo i (j + 1)) (max a (b + A.getD i 0 * A.getD j 0)) := by
  rw [add_comm b]
  refine Best.extend (x := (i, j)) h hb fun p => ?_
  simp only [fromTo, Set.mem_union, Set.mem_ofPred_eq, Prod.ext_iff]
  have hfirst : p.1 = i ∧ p.1 < p.2 ∧ p.2 < j + 1 ↔
      (p.1 = i ∧ p.2 = j) ∨ p.1 = i ∧ p.1 < p.2 ∧ p.2 < j := by omega
  rw [hfirst, or_left_comm]

/-- The cells from `i` on are done. -/
def SuffixInv (A : List Int) (i : Nat) (dp : List Int) : Prop :=
  Each dp (A.length + 1) fun k a => i ≤ k → Best (CloseFrom A.length k) (product A) a

/-- Either inner loop adds the intervals from `i` on. -/
theorem suffixLoop_spec {K : Set (Nat × Nat)} {k : Nat} {best : Int} (h : SuffixInv A k dp)
    (hki : k ≤ i + 1) (hi : i < A.length) (hbest : StartsIn A K best) :
    ∃ best', forRange (i + 1) A.length (suffixTurn A dp i) best = some best' ∧
      StartsIn A (K ∪ fromTo i A.length) best' := by
  have hnone : fromTo i (i + 1) = ∅ :=
    Set.eq_empty_of_forall_notMem fun p ⟨hp, hlt, hle⟩ => by omega
  have hloop : ∃ best', forRange (i + 1) A.length (suffixTurn A dp i) best = some best' ∧
      StartsIn A (K ∪ fromTo i (max (i + 1) A.length)) best' := by
    apply forRange_rule fun j best => StartsIn A (K ∪ fromTo i j) best
    · rwa [hnone, Set.union_empty]
    · intro j best hij hj hinv
      obtain ⟨b, hb, hbehind⟩ := h.read (j + 1) (by omega)
      refine ⟨_, ?_, hinv.next hij (hbehind (by omega))⟩
      simp only [suffixTurn, hb, read_eq hi, read_eq hj, Option.bind_eq_bind, Option.bind_some,
        Option.pure_def]
  rwa [max_eq_right (Nat.succ_le_of_lt hi)] at hloop

theorem suffixRow_spec (hi : i < A.length) (h : SuffixInv A (i + 1) dp) :
    ∃ dp', suffixRow A i dp = some dp' ∧ SuffixInv A i dp' := by
  have hstart : StartsIn A ∅ 0 := .nil fun _ => extended_empty
  obtain ⟨best, hfirst, hbest⟩ := suffixLoop_spec h (Nat.le_refl _) hi hstart
  rw [Set.empty_union] at hbest
  have hsecond : ∃ best', (if i + 1 < A.length then
      forRange (i + 2) A.length (suffixTurn A dp (i + 1)) best else some best) = some best' ∧
      StartsIn A (fromTo i A.length ∪ fromTo (i + 1) A.length) best' := by
    split
    case isTrue hi' => exact suffixLoop_spec h (by omega) hi' hbest
    case isFalse hlast =>
      have hnone : fromTo (i + 1) A.length = ∅ :=
        Set.eq_empty_of_forall_notMem fun p ⟨hp, hlt, hle⟩ => by omega
      exact ⟨best, rfl, by rwa [hnone, Set.union_empty]⟩
  obtain ⟨best', hrun, hbest'⟩ := hsecond
  have hclose : Best (CloseFrom A.length i) (product A) best' := by
    have hsets : fromTo i A.length ∪ fromTo (i + 1) A.length =
        {p | (p.1 = i ∨ p.1 = i + 1) ∧ p.1 < p.2 ∧ p.2 < A.length} := by
      ext p
      simp only [fromTo, Set.mem_union, Set.mem_ofPred_eq, or_and_right]
    rw [StartsIn, hsets] at hbest'
    exact hbest'.congr fun _ => close_blocks_iff.symm
  obtain ⟨dp', hstore, hdp'⟩ := h.update (a := best')
    (Q := fun k a => i ≤ k → Best (CloseFrom A.length k) (product A) a)
    (by omega : i < A.length + 1) (fun _ => hclose) fun k c _ hne hc hk => hc (by omega)
  refine ⟨dp', ?_, hdp'⟩
  simp only [suffixRow, hfirst, hrun, Option.bind_eq_bind, Option.bind_some, hstore]

theorem numberBlastSuffix_spec (A : List Int) :
    ∃ m, numberBlastSuffix A = some m ∧ Best (CloseFrom A.length 0) (product A) m := by
  have hstart : SuffixInv A A.length (List.replicate (A.length + 1) 0) :=
    Each.replicate fun k hk hle => .nil fun s =>
      ⟨fun h => h.1.eq_nil (by omega), fun h => h ▸ ⟨blocks_nil, nofun⟩⟩
  obtain ⟨dp, hrun, hdp⟩ := forDown_rule (SuffixInv A) hstart fun i dp _ hi h =>
    suffixRow_spec hi h
  obtain ⟨m, hm, hbest⟩ := hdp.read 0 (Nat.succ_pos _)
  exact ⟨m, by rw [numberBlastSuffix, hrun]; exact hm, hbest (Nat.min_le_left _ _)⟩

/-! ## Both -/

/-- Both give the greatest sum where some best intervals leave no two indices in a row out
before the last of them. -/
theorem numberBlast_iff (A : List Int) :
    (∃ m, numberBlastPrefix A = some m ∧ numberBlastSuffix A = some m ∧
      IsGreatest {x | ∃ s, Blocks 0 A.length s ∧ total (product A) s = x} m) ↔
      ∃ s, (Blocks 0 A.length s ∧ Close 0 s) ∧
        ∀ s', Blocks 0 A.length s' → total (product A) s' ≤ total (product A) s := by
  obtain ⟨m, hm, hbest⟩ := numberBlastPrefix_spec A
  obtain ⟨m', hm', hclose⟩ := numberBlastSuffix_spec A
  have hiff := hbest.eq_iff hclose fun _ => And.left
  rw [hm, hm']
  constructor
  · rintro ⟨r, hr, hr', -⟩
    exact hiff.mp (Option.some.inj (hr'.trans hr.symm))
  · intro h
    exact ⟨m, rfl, congrArg some (hiff.mpr h), hbest⟩

theorem numberBlast_gap : numberBlastPrefix [1, -1, 5, 5] = some 25 ∧
    numberBlastSuffix [1, -1, 5, 5] = some 24 := by
  decide

end NumberBlast

end MoreCpp
