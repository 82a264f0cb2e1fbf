import MoreCpp.Library.Cells
import MoreCpp.Library.JobSets
import MoreCpp.Library.Loop
import Mathlib.Data.Prod.Lex
import Mathlib.Data.List.GetD

/-!
`job_scheduling_v1` and `job_scheduling_v2` of `algorithms/dp/dp.cpp`, with integers of any
size. `none` is an index out of range, or a recursion that is deeper than `fuel`.
-/

namespace MoreCpp

open Library

/-- `tuple<int,int,int>`. -/
abbrev Triple := Int × Int × Int

def Triple.key (t : Triple) : Int ×ₗ Int ×ₗ Int := toLex (t.1, toLex t.2)

def sortTriples (ts : List Triple) : List Triple := ts.mergeSort fun a b => a.key ≤ b.key

theorem sortTriples_perm (ts : List Triple) : (sortTriples ts).Perm ts := List.mergeSort_perm ts _

theorem pairwise_sortTriples (ts : List Triple) :
    (sortTriples ts).Pairwise fun a b => a.1 < b.1 ∨ a.1 = b.1 ∧ a.2.1 ≤ b.2.1 := by
  refine (pairwise_mergeSort_key Triple.key ts).imp fun {a b} hab => ?_
  rw [Triple.key, Triple.key, Prod.Lex.toLex_le_toLex, Prod.Lex.toLex_le_toLex] at hab
  obtain hlt | ⟨hsame, hlt | ⟨heq, -⟩⟩ := hab
  · exact .inl hlt
  · exact .inr ⟨hsame, hlt.le⟩
  · exact .inr ⟨hsame, heq.le⟩

theorem length_sortTriples_map (n : Nat) (tuple : Nat → Triple) :
    (sortTriples ((List.range n).map tuple)).length = n := by
  rw [(sortTriples_perm _).length_eq, List.length_map, List.length_range]

theorem forall_mem_sortTriples_map {n : Nat} {tuple : Nat → Triple} {P : Triple → Prop}
    (h : ∀ i < n, P (tuple i)) : ∀ t ∈ sortTriples ((List.range n).map tuple), P t := by
  intro t ht
  obtain ⟨i, hi, rfl⟩ := List.mem_map.mp ((sortTriples_perm _).mem_iff.mp ht)
  exact h i (List.mem_range.mp hi)

namespace JobScheduling

/-! ## By their starts -/

/-- `dfs`, with `f` before and after. -/
def dfs (jobs : List Triple) : Nat → Nat → List Int → Option (Int × List Int)
  | 0, _, _ => none
  | fuel + 1, i, f =>
    if i ≥ jobs.length then some (0, f)
    else do
      let a ← f[i]?
      if a ≠ 0 then return (a, f)
      else do
        let (_, e, p) ← jobs[i]?
        let j := i + 1 + partitionPoint (fun l => l.1 < e) (jobs.drop (i + 1))
        let (x, f) ← dfs jobs fuel (i + 1) f
        let (y, f) ← dfs jobs fuel j f
        let ans := max x (p + y)
        let f ← store f i ans
        return (ans, f)

def jobSchedulingV1 (fuel : Nat) (startTime endTime profit : List Int) : Option Int := do
  let n := profit.length
  let jobs ← (List.range n).mapM fun i => do
    let s ← startTime[i]?
    let e ← endTime[i]?
    let p ← profit[i]?
    return (s, e, p)
  let (r, _) ← dfs (sortTriples jobs) fuel 0 (List.replicate n 0)
  return r

/-! ## By their ends -/

def turn (jobs : List Triple) (i : Nat) (dp : List Int) : Option (List Int) := do
  let (_, s, p) ← jobs[i]?
  let j := partitionPoint (fun l => ¬s < l.1) (jobs.take i)
  let a ← dp[i]?
  let b ← dp[j]?
  store dp (i + 1) (max a (p + b))

def jobSchedulingV2 (startTime endTime profit : List Int) : Option Int := do
  let n := profit.length
  let jobs ← (List.range n).mapM fun i => do
    let e ← endTime[i]?
    let s ← startTime[i]?
    let p ← profit[i]?
    return (e, s, p)
  let dp ← forRange 0 n (turn (sortTriples jobs)) (List.replicate (n + 1) 0)
  dp[n]?

/-! ## The recursion -/

variable {jobs : List Triple} {f dp : List Int} {i : Nat}

/-- The jobs from `i` on, as tuples of start, end and profit. -/
def BestFrom (jobs : List Triple) (i : Nat) (a : Int) : Prop :=
  Best (JobSet Prod.fst (fun t => t.2.1) (jobs.drop i)) (fun t => t.2.2) a

/-- A cell is 0 until it has its value, which may be 0 too. -/
def Memo (jobs : List Triple) (f : List Int) : Prop :=
  Each f jobs.length fun i a => a = 0 ∨ BestFrom jobs i a

theorem dfs_spec (hsorted : jobs.Pairwise (StartsBefore Prod.fst fun t => t.2.1))
    (hle : ∀ t ∈ jobs, t.1 ≤ t.2.1) (fuel : Nat) (h : Memo jobs f)
    (hfuel : jobs.length - i < fuel) :
    ∃ r f', dfs jobs fuel i f = some (r, f') ∧ BestFrom jobs i r ∧ Memo jobs f' := by
  induction fuel generalizing i f with
  | zero => exact absurd hfuel (Nat.not_lt_zero _)
  | succ fuel ih =>
      rw [dfs]
      split
      case isTrue hend =>
        refine ⟨0, f, rfl, .nil fun s => ?_, h⟩
        rw [List.drop_eq_nil_of_le hend, jobSet_nil_iff]
      case isFalse hin =>
        have hi : i < jobs.length := not_le.mp hin
        obtain ⟨a, ha, hmemo⟩ := h.read i hi
        rw [ha, Option.bind_eq_bind, Option.bind_some]
        split
        case isTrue hne => exact ⟨a, f, rfl, hmemo.resolve_left hne, h⟩
        case isFalse =>
          have hjob := List.getElem?_eq_getElem hi
          obtain ⟨x, f₁, hskip, hbest, hmemo₁⟩ := ih (i := i + 1) h (by omega)
          obtain ⟨y, f₂, htake, hbest', hmemo₂⟩ := ih
            (i := i + 1 + partitionPoint (fun l => l.1 < jobs[i].2.1) (jobs.drop (i + 1))) hmemo₁
            (by omega)
          have hnext : BestFrom jobs i (max x (jobs[i].2.2 + y)) :=
            best_jobSet_drop hsorted hle hjob rfl hbest hbest'
          obtain ⟨f', hstore, hmemo'⟩ := hmemo₂.update (a := max x (jobs[i].2.2 + y))
            (Q := fun i a => a = 0 ∨ BestFrom jobs i a) hi (.inr hnext) fun _ _ _ _ hold => hold
          refine ⟨_, f', ?_, hnext, hmemo'⟩
          simp only [hjob, hskip, htake, hstore, Option.bind_eq_bind, Option.bind_some,
            Option.pure_def]

/-! ## The table -/

/-- The first `k` jobs, as tuples of end, start and profit. -/
def BestUpTo (jobs : List Triple) (k : Nat) (a : Int) : Prop :=
  Best (JobSet (fun t => t.2.1) Prod.fst (jobs.take k)) (fun t => t.2.2) a

theorem bestUpTo_zero (jobs : List Triple) : BestUpTo jobs 0 0 := .nil fun _ => jobSet_nil_iff

theorem turn_spec (hsorted : jobs.Pairwise (EndsBefore (fun t => t.2.1) Prod.fst))
    (hle : ∀ t ∈ jobs, t.2.1 ≤ t.1) (hi : i < jobs.length)
    (h : Each dp (jobs.length + 1) fun k a => k ≤ i → BestUpTo jobs k a) :
    ∃ dp', turn jobs i dp = some dp' ∧
      Each dp' (jobs.length + 1) fun k a => k ≤ i + 1 → BestUpTo jobs k a := by
  have hjob := List.getElem?_eq_getElem hi
  have hj : partitionPoint (fun l => ¬jobs[i].2.1 < l.1) (jobs.take i) ≤ i :=
    partitionPoint_le_length.trans (List.length_take_le i jobs)
  obtain ⟨a, ha, hskip⟩ := h.read i (by omega)
  obtain ⟨b, hb, htake⟩ := h.read (partitionPoint (fun l => ¬jobs[i].2.1 < l.1) (jobs.take i))
    (by omega)
  have hnext : BestUpTo jobs (i + 1) (max a (jobs[i].2.2 + b)) :=
    best_jobSet_take hsorted hle hjob rfl (hskip (Nat.le_refl i)) (htake hj)
  obtain ⟨dp', hstore, hdp'⟩ := h.update (a := max a (jobs[i].2.2 + b))
    (Q := fun k a => k ≤ i + 1 → BestUpTo jobs k a) (by omega : i + 1 < jobs.length + 1)
    (fun _ => hnext) fun k c _ hne hc hk => hc (by omega)
  refine ⟨dp', ?_, hdp'⟩
  simp only [turn, hjob, ha, hb, hstore, Option.bind_eq_bind, Option.bind_some]

theorem jobTable_spec (hsorted : jobs.Pairwise (EndsBefore (fun t => t.2.1) Prod.fst))
    (hle : ∀ t ∈ jobs, t.2.1 ≤ t.1) :
    ∃ dp, forRange 0 jobs.length (turn jobs) (List.replicate (jobs.length + 1) 0) = some dp ∧
      Each dp (jobs.length + 1) fun k a => k ≤ jobs.length → BestUpTo jobs k a := by
  have hstart : Each (List.replicate (jobs.length + 1) 0) (jobs.length + 1) fun k a =>
      k ≤ 0 → BestUpTo jobs k a := Each.replicate fun k _ hk => by
    obtain rfl : k = 0 := Nat.le_zero.mp hk
    exact bestUpTo_zero jobs
  have hloop := forRange_rule (fun i dp => Each dp (jobs.length + 1) fun k a =>
    k ≤ i → BestUpTo jobs k a) hstart fun i dp _ hi h => turn_spec hsorted hle hi h
  rwa [Nat.zero_max] at hloop

/-! ## Both -/

variable {startTime endTime profit : List Int}

theorem read_eq {l : List Int} (hi : i < l.length) : l[i]? = some (l.getD i 0) := by
  rw [List.getElem?_eq_getElem hi, List.getD_eq_getElem _ _ hi]

/-- Sets of jobs by their indices. -/
def BestJobs (startTime endTime profit : List Int) (m : Int) : Prop :=
  Best (JobSet (startTime.getD · 0) (endTime.getD · 0) (List.range profit.length))
    (profit.getD · 0) m

theorem jobSchedulingV1_spec (fuel : Nat) (hstart : startTime.length = profit.length)
    (hend : endTime.length = profit.length)
    (hle : ∀ i < profit.length, startTime.getD i 0 ≤ endTime.getD i 0)
    (hfuel : profit.length < fuel) :
    ∃ m, jobSchedulingV1 fuel startTime endTime profit = some m ∧
      BestJobs startTime endTime profit m := by
  let tuple (i : Nat) : Triple := (startTime.getD i 0, endTime.getD i 0, profit.getD i 0)
  have hread : (List.range profit.length).mapM (fun i => do
      let s ← startTime[i]?
      let e ← endTime[i]?
      let p ← profit[i]?
      return (s, e, p)) = some ((List.range profit.length).map tuple) :=
    mapM_range_map _ fun i hi => by
      rw [read_eq (hstart.symm ▸ hi), read_eq (hend.symm ▸ hi), read_eq hi]
      rfl
  have hperm := sortTriples_perm ((List.range profit.length).map tuple)
  have hlength := length_sortTriples_map profit.length tuple
  have hmem : ∀ t ∈ sortTriples ((List.range profit.length).map tuple), t.1 ≤ t.2.1 :=
    forall_mem_sortTriples_map hle
  have hmemo : Memo (sortTriples ((List.range profit.length).map tuple))
      (List.replicate profit.length 0) := by
    rw [Memo, hlength]
    exact Each.replicate fun _ _ => .inl rfl
  obtain ⟨m, f, hdfs, hbest, -⟩ := dfs_spec (pairwise_sortTriples _) hmem fuel hmemo
    (by omega : _ - 0 < fuel)
  refine ⟨m, by rw [jobSchedulingV1, hread, Option.bind_eq_bind, Option.bind_some, hdfs]; rfl, ?_⟩
  exact best_jobSet_map.mp (best_jobSet_perm hbest hperm)

theorem jobSchedulingV2_spec (hstart : startTime.length = profit.length)
    (hend : endTime.length = profit.length)
    (hle : ∀ i < profit.length, startTime.getD i 0 ≤ endTime.getD i 0) :
    ∃ m, jobSchedulingV2 startTime endTime profit = some m ∧
      BestJobs startTime endTime profit m := by
  let tuple (i : Nat) : Triple := (endTime.getD i 0, startTime.getD i 0, profit.getD i 0)
  have hread : (List.range profit.length).mapM (fun i => do
      let e ← endTime[i]?
      let s ← startTime[i]?
      let p ← profit[i]?
      return (e, s, p)) = some ((List.range profit.length).map tuple) :=
    mapM_range_map _ fun i hi => by
      rw [read_eq (hend.symm ▸ hi), read_eq (hstart.symm ▸ hi), read_eq hi]
      rfl
  have hperm := sortTriples_perm ((List.range profit.length).map tuple)
  have hlength := length_sortTriples_map profit.length tuple
  have hmem : ∀ t ∈ sortTriples ((List.range profit.length).map tuple), t.2.1 ≤ t.1 :=
    forall_mem_sortTriples_map hle
  obtain ⟨dp, hrun, hdp⟩ := jobTable_spec (pairwise_sortTriples _) hmem
  rw [hlength] at hrun hdp
  obtain ⟨m, hm, hbest⟩ := hdp.read profit.length (Nat.lt_succ_self _)
  refine ⟨m, ?_, ?_⟩
  · rw [jobSchedulingV2, hread, Option.bind_eq_bind, Option.bind_some, hrun]
    exact hm
  · have hall := hbest (Nat.le_refl _)
    rw [BestUpTo, List.take_of_length_le hlength.le] at hall
    exact best_jobSet_map.mp (best_jobSet_perm hall hperm)

/-- Both give the greatest total profit of compatible jobs. -/
theorem jobScheduling_eq (fuel : Nat) (startTime endTime profit : List Int)
    (hstart : startTime.length = profit.length) (hend : endTime.length = profit.length)
    (hle : ∀ i < profit.length, startTime.getD i 0 ≤ endTime.getD i 0)
    (hfuel : profit.length < fuel) :
    ∃ m, jobSchedulingV1 fuel startTime endTime profit = some m ∧
      jobSchedulingV2 startTime endTime profit = some m ∧
      IsGreatest {x | ∃ s : List Nat, JobSet (startTime.getD · 0) (endTime.getD · 0)
        (List.range profit.length) s ∧ total (profit.getD · 0) s = x} m := by
  obtain ⟨m, hm, hbest⟩ := jobSchedulingV1_spec fuel hstart hend hle hfuel
  obtain ⟨m', hm', hbest'⟩ := jobSchedulingV2_spec hstart hend hle
  obtain rfl := hbest.unique hbest'
  exact ⟨m, hm, hm', hbest⟩

theorem jobScheduling_eq_three :
    ∃ m, jobSchedulingV1 4 [1, 5, 5] [5, 5, 7] [2, 3, -1] = some m ∧
      jobSchedulingV2 [1, 5, 5] [5, 5, 7] [2, 3, -1] = some m ∧
      IsGreatest {x | ∃ s : List Nat, JobSet (([1, 5, 5] : List Int).getD · 0)
        (([5, 5, 7] : List Int).getD · 0) (List.range ([2, 3, -1] : List Int).length) s ∧
        total (([2, 3, -1] : List Int).getD · 0) s = x} m :=
  jobScheduling_eq 4 [1, 5, 5] [5, 5, 7] [2, 3, -1] rfl rfl (by decide) (by decide)

end JobScheduling

end MoreCpp
