import MoreCpp.Algorithms.JobScheduling
import MoreCpp.Library.SignedInt

/-!
`max_taxi_earnings` of `algorithms/dp/dp.cpp`. `none` is an index out of range or a result
of arithmetic that an `int64_t` does not hold.
-/

namespace MoreCpp

open Library

namespace MaxTaxiEarnings

/-- A row of `rides`. -/
structure Ride where
  start : Int
  finish : Int
  tip : Int

def Ride.earnings (r : Ride) : Int := r.finish - r.start + r.tip

def turn (e : List Triple) (i : Nat) (dp : List Int) : Option (List Int) := do
  let (en, s, v) ← e[i]?
  let j := partitionPoint (fun l => ¬s < l.1) (e.take i)
  let a ← dp[i]?
  let length ← signed 64 (en - s)
  let earnings ← signed 64 (length + v)
  let b ← dp[j]?
  let sum ← signed 64 (earnings + b)
  store dp (i + 1) (max a sum)

/-- The table has 64 bits and the result has 32. -/
def maxTaxiEarnings (_n : Int) (rides : List Ride) : Option Int := do
  let n := rides.length
  let e := sortTriples (rides.map fun r => (r.finish, r.start, r.tip))
  let dp ← forRange 0 n (turn e) (List.replicate (n + 1) 0)
  let r ← dp[n]?
  return r.bmod (2 ^ 32)

variable {e : List Triple} {dp : List Int} {rides : List Ride} {i : Nat}

def worth (t : Triple) : Int := t.1 - t.2.1 + t.2.2

/-- The first `k` rides, as tuples of end, start and tip. -/
def BestUpTo (e : List Triple) (k : Nat) (a : Int) : Prop :=
  Best (JobSet (fun t => t.2.1) Prod.fst (e.take k)) worth a

/-- The fields are those of an `int`. -/
def Ride.IsInt (r : Ride) : Prop :=
  (-2 ^ 31 ≤ r.start ∧ r.start < 2 ^ 31) ∧ (-2 ^ 31 ≤ r.finish ∧ r.finish < 2 ^ 31) ∧
    -2 ^ 31 ≤ r.tip ∧ r.tip < 2 ^ 31

theorem BestUpTo.bounds {k : Nat} {a : Int} (h : BestUpTo e k a)
    (hfits : ∀ s, JobSet (fun t => t.2.1) Prod.fst e s → total worth s < 2 ^ 63) :
    0 ≤ a ∧ a < 2 ^ 63 := by
  refine ⟨h.le ⟨List.nil_subperm, .nil⟩, ?_⟩
  obtain ⟨s, hs, rfl⟩ := h.1
  exact hfits s ⟨hs.jobs.trans (List.take_sublist k e).subperm, hs.compatible⟩

theorem turn_spec (hsorted : e.Pairwise (EndsBefore (fun t => t.2.1) Prod.fst))
    (hle : ∀ t ∈ e, t.2.1 ≤ t.1)
    (hint : ∀ t ∈ e, t.1 - t.2.1 < 2 ^ 32 ∧ -2 ^ 31 ≤ t.2.2 ∧ t.2.2 < 2 ^ 31)
    (hfits : ∀ s, JobSet (fun t => t.2.1) Prod.fst e s → total worth s < 2 ^ 63)
    (hi : i < e.length) (h : Each dp (e.length + 1) fun k a => k ≤ i → BestUpTo e k a) :
    ∃ dp', turn e i dp = some dp' ∧
      Each dp' (e.length + 1) fun k a => k ≤ i + 1 → BestUpTo e k a := by
  have hride := List.getElem?_eq_getElem hi
  have hj : partitionPoint (fun l => ¬e[i].2.1 < l.1) (e.take i) ≤ i :=
    partitionPoint_le_length.trans (List.length_take_le i e)
  obtain ⟨a, ha, hskip⟩ := h.read i (by omega)
  obtain ⟨b, hb, htake⟩ := h.read (partitionPoint (fun l => ¬e[i].2.1 < l.1) (e.take i))
    (by omega)
  have hnext : BestUpTo e (i + 1) (max a (worth e[i] + b)) :=
    best_jobSet_take hsorted hle hride rfl (hskip (Nat.le_refl i)) (htake hj)
  obtain ⟨dp', hstore, hdp'⟩ := h.update (a := max a (worth e[i] + b))
    (Q := fun k a => k ≤ i + 1 → BestUpTo e k a) (by omega : i + 1 < e.length + 1)
    (fun _ => hnext) fun k c _ hne hc hk => hc (by omega)
  have hlength := hle e[i] (List.getElem_mem hi)
  have hfields := hint e[i] (List.getElem_mem hi)
  have hbefore := (htake hj).bounds hfits
  have hbound := (hnext.bounds hfits).2
  have hsum : worth e[i] + b < 2 ^ 63 := (le_max_right _ _).trans_lt hbound
  unfold worth at hsum hstore
  have hlength' : signed 64 (e[i].1 - e[i].2.1) = some (e[i].1 - e[i].2.1) :=
    signed_eq (by omega) (by omega)
  have hworth : signed 64 (e[i].1 - e[i].2.1 + e[i].2.2) = some (e[i].1 - e[i].2.1 + e[i].2.2) :=
    signed_eq (by omega) (by omega)
  have htotal : signed 64 (e[i].1 - e[i].2.1 + e[i].2.2 + b) =
      some (e[i].1 - e[i].2.1 + e[i].2.2 + b) := signed_eq (by omega) (by omega)
  refine ⟨dp', ?_, hdp'⟩
  simp only [turn, hride, ha, hb, hlength', hworth, htotal, hstore, Option.bind_eq_bind,
    Option.bind_some]

theorem maxTaxiEarnings_spec (n : Int) (hint : ∀ r ∈ rides, r.IsInt)
    (hle : ∀ r ∈ rides, r.start ≤ r.finish)
    (hfits : ∀ s, JobSet Ride.start Ride.finish rides s → total Ride.earnings s < 2 ^ 63) :
    ∃ m, maxTaxiEarnings n rides = some (m.bmod (2 ^ 32)) ∧
      Best (JobSet Ride.start Ride.finish rides) Ride.earnings m := by
  let tuple (r : Ride) : Triple := (r.finish, r.start, r.tip)
  let e := sortTriples (rides.map tuple)
  have hperm : e.Perm (rides.map tuple) := sortTriples_perm _
  have hlength : e.length = rides.length := by rw [hperm.length_eq, List.length_map]
  have hmem : ∀ t ∈ e, ∃ r ∈ rides, tuple r = t := fun t ht =>
    List.mem_map.mp (hperm.mem_iff.mp ht)
  have hle' : ∀ t ∈ e, t.2.1 ≤ t.1 := by
    intro t ht
    obtain ⟨r, hr, rfl⟩ := hmem t ht
    exact hle r hr
  have hint' : ∀ t ∈ e, t.1 - t.2.1 < 2 ^ 32 ∧ -2 ^ 31 ≤ t.2.2 ∧ t.2.2 < 2 ^ 31 := by
    intro t ht
    obtain ⟨r, hr, rfl⟩ := hmem t ht
    obtain ⟨hstart, hfinish, htip⟩ := hint r hr
    exact ⟨by dsimp only [tuple]; omega, htip⟩
  have hfits' : ∀ s, JobSet (fun t => t.2.1) Prod.fst e s → total worth s < 2 ^ 63 := by
    intro s hs
    obtain ⟨s', hs', hperm'⟩ := (hs.perm hperm).exists_map
    rw [total_perm worth hperm', total_map]
    exact hfits s' hs'
  have hstart : Each (List.replicate (e.length + 1) 0) (e.length + 1) fun k a =>
      k ≤ 0 → BestUpTo e k a := Each.replicate fun k _ hk => by
    obtain rfl : k = 0 := Nat.le_zero.mp hk
    exact .nil fun _ => jobSet_nil_iff
  obtain ⟨dp, hrun, hdp⟩ := forRange_rule (fun i dp => Each dp (e.length + 1) fun k a =>
    k ≤ i → BestUpTo e k a) hstart fun i dp _ hi h =>
      turn_spec (pairwise_sortTriples _) hle' hint' hfits' hi h
  rw [hlength] at hrun hdp
  obtain ⟨m, hm, hbest⟩ := hdp.read rides.length (Nat.lt_succ_self _)
  refine ⟨m, ?_, ?_⟩
  · rw [maxTaxiEarnings, hrun, Option.bind_eq_bind, Option.bind_some, hm]
    rfl
  · have hall := hbest (Nat.le_max_right _ _)
    rw [BestUpTo, List.take_of_length_le hlength.le] at hall
    exact best_jobSet_map.mp (best_jobSet_perm hall hperm)

theorem maxTaxiEarnings_iff (n : Int) (rides : List Ride) (hint : ∀ r ∈ rides, r.IsInt)
    (hle : ∀ r ∈ rides, r.start ≤ r.finish)
    (hfits : ∀ s, JobSet Ride.start Ride.finish rides s → total Ride.earnings s < 2 ^ 63) :
    (∃ m, maxTaxiEarnings n rides = some m ∧
      IsGreatest {x | ∃ s, JobSet Ride.start Ride.finish rides s ∧ total Ride.earnings s = x} m) ↔
      ∀ s, JobSet Ride.start Ride.finish rides s → total Ride.earnings s < 2 ^ 31 := by
  obtain ⟨m, hm, hbest⟩ := maxTaxiEarnings_spec n hint hle hfits
  have hnonneg : 0 ≤ m := hbest.le ⟨List.nil_subperm, .nil⟩
  rw [hm]
  constructor
  · rintro ⟨m', hm', hbest'⟩ s hs
    obtain rfl : m = m' := hbest.unique hbest'
    have hless : m.bmod (2 ^ 32) < (2 ^ 32 + 1) / 2 := Int.bmod_lt (by decide)
    rw [Option.some.inj hm'] at hless
    exact (hbest.le hs).trans_lt hless
  · intro hsmall
    obtain ⟨s, hs, htotal⟩ := hbest.1
    have hless := hsmall s hs
    refine ⟨m, ?_, hbest⟩
    rw [Option.some_inj]
    apply Int.bmod_eq_of_le <;> omega

theorem maxTaxiEarnings_iff_one :
    (∃ m, maxTaxiEarnings 9 [⟨2, 9, 4⟩] = some m ∧
      IsGreatest {x | ∃ s, JobSet Ride.start Ride.finish [⟨2, 9, 4⟩] s ∧
        total Ride.earnings s = x} m) ↔
      ∀ s, JobSet Ride.start Ride.finish [⟨2, 9, 4⟩] s → total Ride.earnings s < 2 ^ 31 := by
  refine maxTaxiEarnings_iff 9 [⟨2, 9, 4⟩] (by simp [Ride.IsInt]) (by simp) fun s hs => ?_
  obtain hs' | ⟨s', hs', hperm⟩ := subperm_cons_cases hs.jobs
  · rw [List.subperm_nil.mp hs']
    decide
  · rw [total_perm _ hperm, List.subperm_nil.mp hs']
    decide

theorem maxTaxiEarnings_long :
    maxTaxiEarnings 1 [⟨0, 2 ^ 31 - 1, 1⟩] = some (-2 ^ 31) ∧
      JobSet Ride.start Ride.finish [⟨0, 2 ^ 31 - 1, 1⟩] [⟨0, 2 ^ 31 - 1, 1⟩] ∧
      total Ride.earnings [⟨0, 2 ^ 31 - 1, 1⟩] = 2 ^ 31 := by
  refine ⟨?_, ⟨.refl _, List.pairwise_singleton _ _⟩, by decide⟩
  simp only [maxTaxiEarnings, sortTriples, List.map_cons, List.map_nil, List.mergeSort_singleton]
  decide

end MaxTaxiEarnings

end MoreCpp
