import MoreCpp.Algorithms.JobScheduling
import Mathlib.Order.Interval.Set.LinearOrder

/-!
`max_events2` of `algorithms/dp/dp.cpp`, with integers of any size. An index out of range
gives `none`.
-/

namespace MoreCpp

open Library

namespace MaxEvents

/-- A row of `events`. -/
structure Event where
  start : Int
  finish : Int
  value : Int

/-- A turn of the inner loop, where the first `p` events end before event `i` starts. -/
def turn (i p : Nat) (v : Int) (j : Nat) (dp : List (List Int)) : Option (List (List Int)) := do
  let a ← readCell dp i (j + 1)
  let b ← readCell dp p j
  writeCell dp (i + 1) (j + 1) (max a (v + b))

/-- A turn of the outer loop. -/
def row (e : List Triple) (k i : Nat) (dp : List (List Int)) : Option (List (List Int)) := do
  let (_, s, v) ← e[i]?
  let p := partitionPoint (fun l => l.1 < s) (e.take i)
  forRange 0 k (turn i p v) dp

def maxEvents2 (events : List Event) (k : Nat) : Option Int := do
  let n := events.length
  let e := sortTriples (events.map fun r => (r.finish, r.start, r.value))
  let dp ← forRange 0 n (row e k) (List.replicate (n + 1) (List.replicate (k + 1) 0))
  readCell dp n k

/-- An event takes up its days, the first and the last one included. -/
def Event.days (r : Event) : Set Int := Set.Icc r.start r.finish

variable {e : List Triple} {dp : List (List Int)} {events : List Event} {i j k : Nat}

/-! ## Days -/

/-- On days, to end before another event starts is to end by the day before it. -/
theorem compatible_iff_disjoint {r r' : Event} (hr : r.start ≤ r.finish)
    (hr' : r'.start ≤ r'.finish) :
    Compatible Event.start (fun r => r.finish + 1) r r' ↔ Disjoint r.days r'.days := by
  change r.finish + 1 ≤ r'.start ∨ r'.finish + 1 ≤ r.start ↔ _
  unfold Event.days
  rw [Set.disjoint_left]
  constructor
  · rintro hsome x ⟨hx, hx'⟩ ⟨hy, hy'⟩
    omega
  · intro hnone
    by_contra hboth
    have hcommon : max r.start r'.start ∉ Set.Icc r'.start r'.finish :=
      hnone ⟨by omega, by omega⟩
    exact hcommon ⟨by omega, by omega⟩

/-- No more than `k` events, with no day in common. -/
structure Attended (events : List Event) (k : Nat) (s : List Event) : Prop where
  events : s.Subperm events
  disjoint : s.Pairwise fun r r' => Disjoint r.days r'.days
  count : s.length ≤ k

theorem few_iff_attended (hle : ∀ r ∈ events, r.start ≤ r.finish) {s : List Event} :
    Few Event.start (fun r => r.finish + 1) events k s ↔ Attended events k s := by
  have hpair : s.Subperm events → (s.Pairwise (Compatible Event.start fun r => r.finish + 1) ↔
      s.Pairwise fun r r' => Disjoint r.days r'.days) := fun hs =>
    List.Pairwise.iff_of_mem fun {a b} ha hb =>
      compatible_iff_disjoint (hle a (hs.subset ha)) (hle b (hs.subset hb))
  constructor
  · rintro ⟨⟨hs, hcompatible⟩, hcount⟩
    exact ⟨hs, (hpair hs).mp hcompatible, hcount⟩
  · rintro ⟨hs, hdisjoint, hcount⟩
    exact ⟨⟨hs, (hpair hs).mpr hdisjoint⟩, hcount⟩

/-! ## The table -/

/-- The first `l` events, no more than `c` of them, as tuples of end, start and value. -/
def BestUpTo (e : List Triple) (c l : Nat) (a : Int) : Prop :=
  Best (Few (fun t => t.2.1) (fun t => t.1 + 1) (e.take l) c) (fun t => t.2.2) a

theorem bestUpTo_zero (e : List Triple) (l : Nat) : BestUpTo e 0 l 0 :=
  .nil fun _ => few_zero_iff

/-- The cells of the first `i` rows, of the first column, and of row `i + 1` up to column
`j` have their values. -/
def Table (e : List Triple) (k i j : Nat) (dp : List (List Int)) : Prop :=
  Cellwise dp (e.length + 1) (k + 1) fun l c a =>
    l ≤ i ∨ c = 0 ∨ l = i + 1 ∧ c ≤ j → BestUpTo e c l a

theorem turn_spec {x : Triple}
    (hsorted : e.Pairwise (EndsBefore (fun t => t.2.1) fun t => t.1 + 1))
    (hle : ∀ t ∈ e, t.2.1 ≤ t.1 + 1) (hx : e[i]? = some x) (hj : j < k)
    (h : Table e k i j dp) :
    ∃ dp', turn i (partitionPoint (fun l => l.1 < x.2.1) (e.take i)) x.2.2 j dp = some dp' ∧
      Table e k i (j + 1) dp' := by
  obtain ⟨hi, -⟩ := List.getElem?_eq_some_iff.mp hx
  have hp : partitionPoint (fun l => l.1 < x.2.1) (e.take i) =
      partitionPoint (fun l => ¬x.2.1 < l.1 + 1) (e.take i) := by
    congr 1
    funext l
    rw [decide_eq_decide]
    omega
  have hpi : partitionPoint (fun l => l.1 < x.2.1) (e.take i) ≤ i :=
    partitionPoint_le_length.trans (List.length_take_le i e)
  obtain ⟨a, ha, hskip⟩ := h i (by omega) (j + 1) (by omega)
  obtain ⟨b, hb, htake⟩ := h (partitionPoint (fun l => l.1 < x.2.1) (e.take i)) (by omega) j
    (by omega)
  have hnext : BestUpTo e (j + 1) (i + 1) (max a (x.2.2 + b)) :=
    best_few_take hsorted hle hx hp (hskip (.inl (Nat.le_refl i))) (htake (.inl hpi))
  obtain ⟨dp', hwrite, htable, -⟩ := Cellwise.update
    (Q := fun l c a => l ≤ i ∨ c = 0 ∨ l = i + 1 ∧ c ≤ j + 1 → BestUpTo e c l a) h
    (by omega : i + 1 < e.length + 1) (by omega : j + 1 < k + 1) (fun _ => hnext)
    fun l c a hother hold hdone => hold (by omega)
  refine ⟨dp', ?_, htable⟩
  simp only [turn, ha, hb, hwrite, Option.bind_eq_bind, Option.bind_some]

theorem row_spec (hsorted : e.Pairwise (EndsBefore (fun t => t.2.1) fun t => t.1 + 1))
    (hle : ∀ t ∈ e, t.2.1 ≤ t.1 + 1) (hi : i < e.length) (h : Table e k i 0 dp) :
    ∃ dp', row e k i dp = some dp' ∧ Table e k (i + 1) 0 dp' := by
  have hx := List.getElem?_eq_getElem hi
  obtain ⟨dp', hrun, htable⟩ := forRange_rule (fun j dp => Table e k i j dp) h
    fun j dp _ (hj : j < k) h => turn_spec hsorted hle hx hj h
  refine ⟨dp', ?_, htable.mono fun l c a _ _ hold hdone => hold (by omega)⟩
  simp only [row, hx, Option.bind_eq_bind, Option.bind_some]
  exact hrun

/-- The greatest total value of at most `k` events with no day in common. -/
theorem maxEvents2_eq (events : List Event) (k : Nat) (hle : ∀ r ∈ events, r.start ≤ r.finish) :
    ∃ m, maxEvents2 events k = some m ∧
      IsGreatest {x | ∃ s, Attended events k s ∧ total Event.value s = x} m := by
  let tuple (r : Event) : Triple := (r.finish, r.start, r.value)
  let e := sortTriples (events.map tuple)
  have hperm : e.Perm (events.map tuple) := sortTriples_perm _
  have hlength : e.length = events.length := by rw [hperm.length_eq, List.length_map]
  have hle' : ∀ t ∈ e, t.2.1 ≤ t.1 + 1 := by
    intro t ht
    obtain ⟨r, hr, rfl⟩ := List.mem_map.mp (hperm.mem_iff.mp ht)
    exact (hle r hr).trans (Int.le_add_one le_rfl)
  have hsorted : e.Pairwise (EndsBefore (fun t => t.2.1) fun t => t.1 + 1) :=
    (pairwise_sortTriples _).imp fun {a b} hab =>
      hab.imp (Int.add_lt_add_right · 1) (And.imp_left (congrArg (· + 1)))
  have hstart : Table e k 0 0 (List.replicate (e.length + 1) (List.replicate (k + 1) 0)) :=
    Cellwise.replicate fun l _ c _ hdone => by
      obtain hl | rfl : l ≤ 0 ∨ c = 0 := by omega
      · rw [Nat.le_zero.mp hl, BestUpTo, List.take_zero]
        exact .nil fun _ => few_nil_iff
      · exact bestUpTo_zero e l
  obtain ⟨dp, hrun, htable⟩ := forRange_rule (fun i dp => Table e k i 0 dp) hstart
    fun i dp _ hi h => row_spec hsorted hle' hi h
  obtain ⟨m, hm, hbest⟩ := htable e.length (Nat.lt_succ_self _) k (Nat.lt_succ_self k)
  have hbest := hbest (.inl (Nat.le_max_right ..))
  rw [BestUpTo, List.take_of_length_le le_rfl] at hbest
  have hfew : Best (Few Event.start (fun r => r.finish + 1) events k) Event.value m :=
    best_few_map.mp (hbest.congr fun s => ⟨fun hs => hs.perm hperm, fun hs => hs.perm hperm.symm⟩)
  refine ⟨m, ?_, hfew.congr fun s => few_iff_attended hle⟩
  rw [hlength] at hrun hm
  rw [maxEvents2, hrun, Option.bind_eq_bind, Option.bind_some]
  exact hm

theorem maxEvents2_eq_three : ∃ m, maxEvents2 [⟨1, 2, 4⟩, ⟨2, 3, 5⟩, ⟨3, 3, -1⟩] 2 = some m ∧
    IsGreatest {x | ∃ s, Attended [⟨1, 2, 4⟩, ⟨2, 3, 5⟩, ⟨3, 3, -1⟩] 2 s ∧
      total Event.value s = x} m :=
  maxEvents2_eq [⟨1, 2, 4⟩, ⟨2, 3, 5⟩, ⟨3, 3, -1⟩] 2 (by decide)

end MaxEvents

end MoreCpp
