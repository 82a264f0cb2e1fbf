import MoreCpp.Library.Loop
import MoreCpp.Library.PartitionPoint
import Mathlib.Data.List.Sort
import Mathlib.Data.Prod.Lex
import Mathlib.Data.Real.Basic
import Mathlib.Tactic.Linarith

/-!
`insert_interval` of `algorithms/array/array.cpp`, with both of its strategies. `none` is
an index out of range, or a loop that runs out of fuel.
-/

namespace MoreCpp

open Library

namespace InsertInterval

/-- A row of two. -/
abbrev Interval := Int × Int

/-! ## `insert_loop` -/

def sortIntervals (ii : List Interval) : List Interval := ii.mergeSort fun a b => toLex a ≤ toLex b

def mergeTurn (ii : List Interval) (i : Nat) (ans : List Interval) : Option (List Interval) := do
  let back ← ans.getLast?
  let x ← ii[i]?
  if back.2 < x.1 then return ans ++ [x]
  else return ans.dropLast ++ [(back.1, max back.2 x.2)]

def insertLoop (ii : List Interval) (ni : Interval) : Option (List Interval) := do
  let ii := sortIntervals (ii ++ [ni])
  let first ← ii[0]?
  forRange 1 ii.length (mergeTurn ii) [first]

def insertInterval (ii : List Interval) (ni : Interval) : Option (List Interval) :=
  insertLoop ii ni

/-! ## `run_loop` -/

/-- A turn of the loop over the intervals before the new one. -/
def beforeRound (ii : List Interval) (ni : Interval) :
    Nat × List Interval → Option ((Nat × List Interval) ⊕ (Nat × List Interval))
  | (i, ans) =>
    if i < ii.length then do
      let x ← ii[i]?
      return if x.2 < ni.1 then .inl (i + 1, ans ++ [x]) else .inr (i, ans)
    else some (.inr (i, ans))

/-- A turn of the loop that widens the new interval, which leaves `i` as it is. -/
def widenRound (ii : List Interval) (i : Nat) (ni : Interval) : Option (Interval ⊕ Interval) :=
  if i < ii.length then do
    let x ← ii[i]?
    return if ni.2 ≥ x.1 then .inl (min ni.1 x.1, max ni.2 x.2) else .inr ni
  else some (.inr ni)

/-- A turn of the loop over the intervals that are left. -/
def restRound (ii : List Interval) :
    Nat × List Interval → Option ((Nat × List Interval) ⊕ List Interval)
  | (i, ans) =>
    if i < ii.length then do
      let x ← ii[i]?
      return .inl (i + 1, ans ++ [x])
    else some (.inr ans)

def runLoop (fuel : Nat) (ii : List Interval) (ni : Interval) : Option (List Interval) := do
  let (i, ans) ← loop (beforeRound ii ni) fuel (0, [])
  let ni ← loop (widenRound ii i) fuel ni
  loop (restRound ii) fuel (i, ans ++ [ni])

/-! ## Merging -/

/-- The union of the closed intervals. -/
def covered (l : List Interval) : Set ℝ := {x | ∃ e ∈ l, (e.1 : ℝ) ≤ x ∧ x ≤ e.2}

/-- Each interval ends before the next begins. -/
def Separated (l : List Interval) : Prop := l.Pairwise fun a b => a.2 < b.1

variable {ii l ans : List Interval} {ni x back : Interval} {i fuel : Nat}

theorem covered_append (l l' : List Interval) : covered (l ++ l') = covered l ∪ covered l' := by
  ext y
  simp only [covered, Set.mem_ofPred_eq, Set.mem_union, List.mem_append]
  constructor
  · rintro ⟨e, he | he, hy⟩
    · exact .inl ⟨e, he, hy⟩
    · exact .inr ⟨e, he, hy⟩
  · rintro (⟨e, he, hy⟩ | ⟨e, he, hy⟩)
    · exact ⟨e, .inl he, hy⟩
    · exact ⟨e, .inr he, hy⟩

theorem mem_covered_singleton {y : ℝ} : y ∈ covered [x] ↔ (x.1 : ℝ) ≤ y ∧ y ≤ x.2 := by
  simp [covered]

theorem covered_perm (h : ii.Perm l) : covered ii = covered l := by
  ext y
  exact exists_congr fun e => and_congr_left fun _ => h.mem_iff

/-- Two intervals that touch or overlap cover what one does. -/
theorem covered_merge (hstart : back.1 ≤ x.1) (htouch : x.1 ≤ back.2) :
    covered [(back.1, max back.2 x.2)] = covered [back] ∪ covered [x] := by
  have hstart' : (back.1 : ℝ) ≤ x.1 := Int.cast_le.mpr hstart
  have htouch' : (x.1 : ℝ) ≤ back.2 := Int.cast_le.mpr htouch
  ext y
  rw [Set.mem_union, mem_covered_singleton, mem_covered_singleton, mem_covered_singleton,
    Int.cast_max, le_max_iff]
  constructor
  · rintro ⟨hlow, hhigh | hhigh⟩
    · exact .inl ⟨hlow, hhigh⟩
    · obtain hle | hlt := le_or_gt y back.2
      · exact .inl ⟨hlow, hle⟩
      · exact .inr ⟨htouch'.trans hlt.le, hhigh⟩
  · rintro (⟨hlow, hhigh⟩ | ⟨hlow, hhigh⟩)
    · exact ⟨hlow, .inl hhigh⟩
    · exact ⟨hstart'.trans hlow, .inr hhigh⟩

theorem sortIntervals_perm (ii : List Interval) : (sortIntervals ii).Perm ii :=
  List.mergeSort_perm ii _

theorem pairwise_sortIntervals (ii : List Interval) :
    (sortIntervals ii).Pairwise fun a b => toLex a ≤ toLex b :=
  pairwise_mergeSort_key toLex ii

theorem start_le_of_toLex {a b : Interval} (h : toLex a ≤ toLex b) : a.1 ≤ b.1 := by
  rw [Prod.Lex.toLex_le_toLex] at h
  obtain hlt | ⟨heq, -⟩ := h
  · exact hlt.le
  · exact heq.le

/-- The first `i` intervals are merged, and the others start no earlier than the last. -/
structure Merged (ii : List Interval) (i : Nat) (ans : List Interval) : Prop where
  last : ∃ front back, ans = front ++ [back] ∧ ∀ y ∈ ii.drop i, back.1 ≤ y.1
  separated : Separated ans
  le : ∀ e ∈ ans, e.1 ≤ e.2
  covered : covered ans = covered (ii.take i)

theorem mergeTurn_spec (hsorted : ii.Pairwise fun a b => a.1 ≤ b.1) (hle : ∀ e ∈ ii, e.1 ≤ e.2)
    (hi : i < ii.length) (h : Merged ii i ans) :
    ∃ ans', mergeTurn ii i ans = some ans' ∧ Merged ii (i + 1) ans' := by
  obtain ⟨front, back, rfl, hlater⟩ := h.last
  have hdrop : ii.drop i = ii[i] :: ii.drop (i + 1) := List.drop_eq_getElem_cons hi
  have htake : ii.take (i + 1) = ii.take i ++ [ii[i]] := List.take_succ_eq_append_getElem hi
  have hmem : ii[i] ∈ ii := List.getElem_mem hi
  have hsorted' := hdrop ▸ hsorted.drop (i := i)
  have hstart : back.1 ≤ ii[i].1 := hlater _ (hdrop ▸ List.mem_cons_self)
  obtain ⟨hfront, -, hback⟩ := List.pairwise_append.mp h.separated
  have hbehind : ∀ y ∈ ii.drop (i + 1), ii[i].1 ≤ y.1 := (List.pairwise_cons.mp hsorted').1
  rw [mergeTurn, List.getLast?_concat, List.getElem?_eq_getElem hi]
  simp only [Option.bind_eq_bind, Option.bind_some]
  split
  case isTrue hgap =>
    refine ⟨_, rfl, ⟨_, _, rfl, hbehind⟩, ?_, ?_, ?_⟩
    · refine List.pairwise_append.mpr ⟨h.separated, List.pairwise_singleton _ _, ?_⟩
      intro a ha b hb
      rw [List.mem_singleton.mp hb]
      obtain ha | ha := List.mem_append.mp ha
      · have hback' := hback a ha back (List.mem_singleton_self back)
        have hle' := h.le back List.mem_concat_self
        omega
      · rw [List.mem_singleton.mp ha]
        exact hgap
    · intro e he
      obtain he | he := List.mem_append.mp he
      · exact h.le e he
      · rw [List.mem_singleton.mp he]
        exact hle _ hmem
    · rw [covered_append, h.covered, htake, covered_append]
  case isFalse htouch =>
    rw [List.dropLast_concat]
    refine ⟨_, rfl, ⟨_, _, rfl, fun y hy => hstart.trans (hbehind y hy)⟩, ?_, ?_, ?_⟩
    · refine List.pairwise_append.mpr ⟨hfront, List.pairwise_singleton _ _, ?_⟩
      intro a ha b hb
      rw [List.mem_singleton.mp hb]
      exact hback a ha back (List.mem_singleton_self back)
    · intro e he
      obtain he | he := List.mem_append.mp he
      · exact h.le e (List.mem_append_left _ he)
      · rw [List.mem_singleton.mp he]
        exact (h.le back List.mem_concat_self).trans (le_max_left _ _)
    · have hcovered := h.covered
      rw [covered_append] at hcovered
      rw [covered_append, covered_merge hstart (not_lt.mp htouch), ← Set.union_assoc, hcovered,
        htake, covered_append]

theorem insertLoop_spec (hle : ∀ e ∈ ii, e.1 ≤ e.2) (hni : ni.1 ≤ ni.2) :
    ∃ ans, insertLoop ii ni = some ans ∧ Separated ans ∧ (∀ e ∈ ans, e.1 ≤ e.2) ∧
      covered ans = covered (ii ++ [ni]) := by
  have hperm := sortIntervals_perm (ii ++ [ni])
  have hsorted : (sortIntervals (ii ++ [ni])).Pairwise fun a b => a.1 ≤ b.1 :=
    (pairwise_sortIntervals _).imp start_le_of_toLex
  have hall : ∀ e ∈ sortIntervals (ii ++ [ni]), e.1 ≤ e.2 := by
    intro e he
    obtain he | he := List.mem_append.mp (hperm.mem_iff.mp he)
    · exact hle e he
    · rw [List.mem_singleton.mp he]
      exact hni
  have hpos : 0 < (sortIntervals (ii ++ [ni])).length := by
    rw [hperm.length_eq, List.length_append]
    exact Nat.succ_pos _
  rw [insertLoop, ← covered_perm hperm]
  generalize sortIntervals (ii ++ [ni]) = sorted at hsorted hall hpos
  obtain _ | ⟨first, rest⟩ := sorted
  · exact absurd hpos (Nat.not_lt_zero _)
  have hstart : Merged (first :: rest) 1 [first] := by
    refine ⟨⟨[], first, rfl, (List.pairwise_cons.mp hsorted).1⟩, List.pairwise_singleton _ _, ?_,
      rfl⟩
    intro e he
    rw [List.mem_singleton.mp he]
    exact hall first List.mem_cons_self
  obtain ⟨ans, hrun, hmerged⟩ := forRange_rule (Merged (first :: rest)) hstart
    fun i ans _ hi h => mergeTurn_spec hsorted hall hi h
  refine ⟨ans, hrun, hmerged.separated, hmerged.le, ?_⟩
  rw [hmerged.covered, List.take_of_length_le (le_max_right _ _)]

/-- The result is sorted and separated, and covers what the intervals and the new one do. -/
theorem insertInterval_spec (ii : List Interval) (ni : Interval) (hle : ∀ e ∈ ii, e.1 ≤ e.2)
    (hni : ni.1 ≤ ni.2) :
    ∃ ans, insertInterval ii ni = some ans ∧ (ans.Pairwise fun a b => toLex a ≤ toLex b) ∧
      (ans.Pairwise fun a b => a.2 < b.1) ∧ covered ans = covered ii ∪ covered [ni] := by
  obtain ⟨ans, hrun, hseparated, hle', hcovered⟩ := insertLoop_spec hle hni
  refine ⟨ans, hrun, ?_, hseparated, hcovered.trans (covered_append ii [ni])⟩
  refine List.Pairwise.imp_of_mem (fun {a b} ha _ hab => ?_) hseparated
  rw [Prod.Lex.toLex_le_toLex]
  exact .inl ((hle' a ha).trans_lt hab)

theorem insertInterval_spec_chain :
    ∃ ans, insertInterval [(6, 9), (1, 3)] (3, 6) = some ans ∧
      (ans.Pairwise fun a b => toLex a ≤ toLex b) ∧ (ans.Pairwise fun a b => a.2 < b.1) ∧
      covered ans = covered [(6, 9), (1, 3)] ∪ covered [(3, 6)] :=
  insertInterval_spec [(6, 9), (1, 3)] (3, 6) (by decide) (by decide)

/-! ## The two strategies -/

/-- The merging turns leave a separated list as it is. -/
theorem forRange_mergeTurn (hseparated : Separated l) {first : Interval} (hfirst : l[0]? = some first) :
    forRange 1 l.length (mergeTurn l) [first] = some l := by
  obtain ⟨hpos, hget⟩ := List.getElem?_eq_some_iff.mp hfirst
  have hloop : ∃ ans, forRange 1 l.length (mergeTurn l) [first] = some ans ∧
      max 1 l.length ≤ l.length ∧ ans = l.take (max 1 l.length) := by
    apply forRange_rule fun i ans => i ≤ l.length ∧ ans = l.take i
    · rw [List.take_succ_eq_append_getElem hpos, hget]
      exact ⟨hpos, rfl⟩
    · rintro i _ hi hin ⟨-, rfl⟩
      obtain ⟨i, rfl⟩ := Nat.exists_eq_add_of_le' hi
      have hgap : l[i].2 < l[i + 1].1 :=
        List.pairwise_iff_getElem.mp hseparated i (i + 1) (by omega) hin (Nat.lt_succ_self i)
      refine ⟨l.take (i + 1) ++ [l[i + 1]], ?_, hin, ?_⟩
      · rw [List.take_succ_eq_append_getElem (by omega), mergeTurn, List.getLast?_concat,
          List.getElem?_eq_getElem hin]
        exact if_pos hgap
      · rw [List.take_succ_eq_append_getElem hin]
  obtain ⟨ans, hrun, hmax, rfl⟩ := hloop
  rw [hrun, List.take_of_length_le (le_max_right _ _)]

theorem insertLoop_eq (hseparated : Separated l) (hle : ∀ e ∈ l, e.1 ≤ e.2)
    (hperm : (ii ++ [ni]).Perm l) : insertLoop ii ni = some l := by
  have hsorted : l.Pairwise fun a b => toLex a ≤ toLex b :=
    List.Pairwise.imp_of_mem (fun {a b} ha _ hab => by
      rw [Prod.Lex.toLex_le_toLex]
      exact .inl ((hle a ha).trans_lt hab)) hseparated
  have hsame : sortIntervals (ii ++ [ni]) = l :=
    ((sortIntervals_perm _).trans hperm).eq_of_pairwise
      (fun a b _ _ hab hba => toLex.injective (le_antisymm hab hba)) (pairwise_sortIntervals _)
      hsorted
  have hpos : 0 < l.length := by
    rw [← hperm.length_eq, List.length_append]
    exact Nat.succ_pos _
  have hfirst : l[0]? = some l[0] := List.getElem?_eq_getElem hpos
  rw [insertLoop, hsame, hfirst]
  exact forRange_mergeTurn hseparated hfirst

/-- The first loop stops at the first interval that does not end before the new one. -/
theorem beforeLoop_spec (ii : List Interval) (ni : Interval) (hfuel : ii.length < fuel) :
    ∃ i, loop (beforeRound ii ni) fuel (0, []) = some (i, ii.take i) ∧ i ≤ ii.length ∧
      (∀ e ∈ ii.take i, e.2 < ni.1) ∧ ∀ x, ii[i]? = some x → ni.1 ≤ x.2 := by
  have hloop : ∃ r : Nat × List Interval, loop (beforeRound ii ni) fuel (0, []) = some r ∧
      r.2 = ii.take r.1 ∧ r.1 ≤ ii.length ∧ (∀ e ∈ ii.take r.1, e.2 < ni.1) ∧
      ∀ x, ii[r.1]? = some x → ni.1 ≤ x.2 := by
    apply loop_total (fun r : Nat × List Interval => r.2 = ii.take r.1 ∧ r.1 ≤ ii.length ∧
      ∀ e ∈ ii.take r.1, e.2 < ni.1) fun r => ii.length - r.1
    · rintro ⟨i, acc⟩ ⟨hacc, hi, hbefore⟩
      dsimp only at hacc hi hbefore
      subst hacc
      unfold beforeRound
      dsimp only
      split
      case isTrue hin =>
        rw [List.getElem?_eq_getElem hin, Option.bind_eq_bind, Option.bind_some]
        by_cases hless : ii[i].2 < ni.1
        · have htake : ii.take (i + 1) = ii.take i ++ [ii[i]] :=
            List.take_succ_eq_append_getElem hin
          refine .inr ⟨(i + 1, ii.take i ++ [ii[i]]), by rw [if_pos hless]; rfl,
            ⟨htake.symm, hin, ?_⟩, by dsimp only; omega⟩
          dsimp only
          rw [htake, List.forall_mem_append]
          exact ⟨hbefore, fun e he => List.mem_singleton.mp he ▸ hless⟩
        · refine .inl ⟨(i, ii.take i), by rw [if_neg hless]; rfl, rfl, hi, hbefore, fun x hx => ?_⟩
          rw [List.getElem?_eq_getElem hin, Option.some_inj] at hx
          exact hx ▸ not_lt.mp hless
      case isFalse hout =>
        refine .inl ⟨(i, ii.take i), rfl, rfl, hi, hbefore, fun x hx => ?_⟩
        obtain ⟨hin, -⟩ := List.getElem?_eq_some_iff.mp hx
        exact absurd hin hout
    · exact ⟨rfl, Nat.zero_le _, fun e he => absurd he List.not_mem_nil⟩
    · exact (Nat.sub_le _ _).trans_lt hfuel
  obtain ⟨⟨i, ans⟩, hrun, hans, hspec⟩ := hloop
  dsimp only at hans
  subst hans
  exact ⟨i, hrun, hspec⟩

/-- The loop looks at one interval for ever. -/
theorem widenLoop_ne_some (hx : ii[i]? = some x) (htouch : x.1 ≤ ni.2) (result : Interval) :
    loop (widenRound ii i) fuel ni ≠ some result := by
  intro hloop
  obtain ⟨hin, -⟩ := List.getElem?_eq_some_iff.mp hx
  have hround : ∀ c : Interval, x.1 ≤ c.2 →
      widenRound ii i c = some (.inl (min c.1 x.1, max c.2 x.2)) := by
    intro c hc
    rw [widenRound, if_pos hin, hx, Option.bind_eq_bind, Option.bind_some, if_pos hc]
    rfl
  refine loop_invariant (fun c : Interval => x.1 ≤ c.2) (fun _ => False) (fun c c' hc hbody => ?_)
    (fun c c' hc hbody => ?_) htouch hloop
  · rw [hround c hc] at hbody
    cases hbody
    exact hc.trans (le_max_left _ _)
  · rw [hround c hc] at hbody
    cases hbody

theorem restLoop_spec (hi : i ≤ ii.length) (hfuel : ii.length < fuel) :
    loop (restRound ii) fuel (i, ans) = some (ans ++ ii.drop i) := by
  have hloop : ∃ r, loop (restRound ii) fuel (i, ans) = some r ∧ r = ans ++ ii.drop i := by
    apply loop_total (fun r : Nat × List Interval => r.1 ≤ ii.length ∧
      r.2 ++ ii.drop r.1 = ans ++ ii.drop i) fun r => ii.length - r.1
    · rintro ⟨k, acc⟩ ⟨hk, hacc⟩
      dsimp only at hk hacc ⊢
      unfold restRound
      dsimp only
      split
      case isTrue hin =>
        rw [List.getElem?_eq_getElem hin]
        refine .inr ⟨_, rfl, ⟨hin, ?_⟩, by dsimp only; omega⟩
        rw [← hacc, List.drop_eq_getElem_cons hin, List.append_assoc]
        rfl
      case isFalse hout =>
        refine .inl ⟨acc, rfl, ?_⟩
        rw [← hacc, List.drop_eq_nil_of_le (not_lt.mp hout), List.append_nil]
    · exact ⟨hi, rfl⟩
    · exact (Nat.sub_le _ _).trans_lt hfuel
  obtain ⟨r, hrun, rfl⟩ := hloop
  exact hrun

theorem widenLoop_eq (h : ∀ x, ii[i]? = some x → ni.2 < x.1) :
    loop (widenRound ii i) (fuel + 1) ni = some ni := by
  rw [loop, widenRound]
  split
  case isTrue hin =>
    have hx : ii[i]? = some ii[i] := List.getElem?_eq_getElem hin
    rw [hx, Option.bind_eq_bind, Option.bind_some, if_neg (not_le.mpr (h _ hx))]
    rfl
  case isFalse => rfl

/-- Behind a gap the others start later still. -/
theorem lt_of_mem_drop (hsorted : ii.Pairwise fun a b => a.1 ≤ b.1)
    (h : ∀ x, ii[i]? = some x → ni.2 < x.1) : ∀ e ∈ ii.drop i, ni.2 < e.1 := by
  obtain hin | hout := lt_or_ge i ii.length
  · have hdrop : ii.drop i = ii[i] :: ii.drop (i + 1) := List.drop_eq_getElem_cons hin
    have hsorted' := hdrop ▸ hsorted.drop (i := i)
    have hgap := h _ (List.getElem?_eq_getElem hin)
    rw [hdrop, List.forall_mem_cons]
    exact ⟨hgap, fun e he => hgap.trans_le ((List.pairwise_cons.mp hsorted').1 e he)⟩
  · rw [List.drop_eq_nil_of_le hout]
    exact fun e he => absurd he List.not_mem_nil

/-- The new interval in its place, which none of the others has a point of. -/
theorem insertLoop_take_drop (hle : ∀ e ∈ ii, e.1 ≤ e.2) (hseparated : Separated ii)
    (hni : ni.1 ≤ ni.2) (hless : ∀ e ∈ ii.take i, e.2 < ni.1)
    (hmore : ∀ e ∈ ii.drop i, ni.2 < e.1) :
    insertLoop ii ni = some (ii.take i ++ [ni] ++ ii.drop i) := by
  have hsplit : ii.take i ++ ii.drop i = ii := List.take_append_drop i ii
  apply insertLoop_eq
  · obtain ⟨hfront, hback, hacross⟩ := List.pairwise_append.mp (hsplit.symm ▸ hseparated)
    rw [List.append_assoc]
    refine List.pairwise_append.mpr ⟨hfront, List.pairwise_cons.mpr ⟨hmore, hback⟩, ?_⟩
    intro a ha b hb
    obtain rfl | hb := List.mem_cons.mp hb
    · exact hless a ha
    · exact hacross a ha b hb
  · intro e he
    rw [List.append_assoc] at he
    obtain he | he := List.mem_append.mp he
    · exact hle e (List.mem_of_mem_take he)
    · obtain rfl | he := List.mem_cons.mp he
      · exact hni
      · exact hle e (List.mem_of_mem_drop he)
  · have hmove : (ii.take i ++ ii.drop i ++ [ni]).Perm (ii.take i ++ [ni] ++ ii.drop i) := by
      rw [List.append_assoc, List.append_assoc]
      exact List.perm_append_comm.append_left _
    rwa [hsplit] at hmove

/-- The scan ends with the merged list where the new interval has no point in common with
the others. -/
theorem runLoop_iff (ii : List Interval) (ni : Interval) (hle : ∀ e ∈ ii, e.1 ≤ e.2)
    (hseparated : ii.Pairwise fun a b => a.2 < b.1) (hni : ni.1 ≤ ni.2) :
    (∃ fuel ans, runLoop fuel ii ni = some ans ∧ insertLoop ii ni = some ans) ↔
      ∀ e ∈ ii, e.2 < ni.1 ∨ ni.2 < e.1 := by
  obtain ⟨i, hbefore, hi, hless, hstop⟩ := beforeLoop_spec ii ni (Nat.lt_succ_self ii.length)
  have hsorted : ii.Pairwise fun a b => a.1 ≤ b.1 :=
    List.Pairwise.imp_of_mem (fun {a b} ha _ hab => (hle a ha).trans hab.le) hseparated
  constructor
  · rintro ⟨fuel, ans, hrun, -⟩ e he
    obtain ⟨⟨i', front⟩, hfirst, hrun⟩ := Option.bind_eq_some_iff.mp hrun
    obtain ⟨wide, hwide, -⟩ := Option.bind_eq_some_iff.mp hrun
    obtain ⟨rfl, -⟩ := Prod.mk.inj (loop_unique hbefore hfirst)
    rw [← List.take_append_drop i ii, List.mem_append] at he
    refine he.imp (hless e) (lt_of_mem_drop hsorted (fun x hx => ?_) e)
    exact not_le.mp fun htouch => widenLoop_ne_some hx htouch wide hwide
  · intro hapart
    have hgap : ∀ x, ii[i]? = some x → ni.2 < x.1 := fun x hx =>
      (hapart x (List.mem_of_getElem? hx)).resolve_left (not_lt.mpr (hstop x hx))
    refine ⟨ii.length + 1, ii.take i ++ [ni] ++ ii.drop i, ?_,
      insertLoop_take_drop hle hseparated hni hless (lt_of_mem_drop hsorted hgap)⟩
    rw [runLoop, hbefore, Option.bind_eq_bind, Option.bind_some]
    dsimp only
    rw [widenLoop_eq hgap, Option.bind_eq_bind, Option.bind_some]
    exact restLoop_spec hi (Nat.lt_succ_self _)

theorem runLoop_iff_before :
    (∃ fuel ans, runLoop fuel [(4, 6)] (1, 2) = some ans ∧ insertLoop [(4, 6)] (1, 2) = some ans) ↔
      ∀ e ∈ [((4, 6) : Interval)], e.2 < ((1, 2) : Interval).1 ∨ ((1, 2) : Interval).2 < e.1 :=
  runLoop_iff [(4, 6)] (1, 2) (by decide) (List.pairwise_singleton _ _) (by decide)

theorem runLoop_overlap : ¬∃ fuel ans, runLoop fuel [(1, 3)] (2, 5) = some ans := by
  rintro ⟨fuel, ans, hrun⟩
  obtain ⟨⟨i, front⟩, hfirst, hrun⟩ := Option.bind_eq_some_iff.mp hrun
  obtain ⟨wide, hwide, -⟩ := Option.bind_eq_some_iff.mp hrun
  have hbefore : loop (beforeRound [(1, 3)] (2, 5)) 1 (0, []) = some (0, []) := by decide
  obtain ⟨rfl, -⟩ := Prod.mk.inj (loop_unique hbefore hfirst)
  have hx : [((1, 3) : Interval)][0]? = some (1, 3) := rfl
  exact widenLoop_ne_some hx (by decide) wide hwide

end InsertInterval

end MoreCpp
