import MoreCpp.Library.BitSet
import MoreCpp.Library.LayeredSearch
import MoreCpp.Library.Loop
import MoreCpp.Library.UnitSchedule
import Mathlib.Order.Interval.Finset.Nat

/-!
`min_num_of_semesters` of `algorithms/graphs/graphs.cpp`, with sets of courses as 32-bit
masks. `none` is a course outside of `d`, or a loop that `fuel` rounds do not end.
-/

namespace MoreCpp

open Library

namespace MinNumOfSemesters

/-- `(1 << (n + 1)) - 2`. -/
def allCourses (n : Nat) : BitVec 32 := 1#32 <<< (n + 1) - 2#32

/-- `d`, after the loop over the relations. -/
def prerequisites (n : Nat) (relations : List (Nat × Nat)) : Option (Array (BitVec 32)) :=
  relations.foldlM (fun d e => do
    let mask ← d[e.2]?
    return d.setIfInBounds e.2 (mask ||| 1#32 <<< e.1)) (Array.replicate (n + 1) 0#32)

/-- `nxt`, without the courses in `cur`. -/
def available (n : Nat) (d : Array (BitVec 32)) (cur : BitVec 32) : Option (BitVec 32) := do
  let nxt ← forRange 1 (n + 1) (fun i nxt => do
    let mask ← d[i]?
    return if cur &&& mask = mask then nxt ||| 1#32 <<< i else nxt) 0#32
  return nxt &&& ~~~cur

structure State where
  q : List (BitVec 32 × Nat)
  vis : Finset (BitVec 32)

/-- `if (!vis.count(mask))` and what it does. -/
def visit (mask : BitVec 32) (t : Nat) (s : State) : State :=
  if mask ∈ s.vis then s else { q := s.q ++ [(mask, t)], vis := insert mask s.vis }

/-- A turn of `while (nxt)`. -/
def subsetRound (k : Nat) (x cur : BitVec 32) (t : Nat) :
    BitVec 32 × State → Option ((BitVec 32 × State) ⊕ State)
  | (nxt, s) =>
    if nxt = 0#32 then some (.inr s)
    else
      let s' := if popcount nxt = k then visit (nxt ||| cur) t s else s
      some (.inl ((nxt - 1#32) &&& x, s'))

/-- A turn of `while (!q.empty())`. -/
def round (fuel n k : Nat) (d : Array (BitVec 32)) (s : State) : Option (State ⊕ Nat) :=
  match s.q with
  | [] => some (.inr 0)
  | (cur, t) :: rest =>
    if cur = allCourses n then some (.inr t)
    else do
      let nxt ← available n d cur
      if popcount nxt ≤ k then return .inl (visit (nxt ||| cur) (t + 1) { s with q := rest })
      else
        let s ← loop (subsetRound k nxt cur (t + 1)) fuel (nxt, { s with q := rest })
        return .inl s

def minNumOfSemesters (fuel n : Nat) (relations : List (Nat × Nat)) (k : Nat) : Option Nat := do
  let d ← prerequisites n relations
  loop (round fuel n k d) fuel { q := [(0#32, 0)], vis := {0#32} }

/-- A relation has the earlier course first. -/
def Before (relations : List (Nat × Nat)) (a b : Nat) : Prop := (a, b) ∈ relations

/-- Courses have numbers from 1 to `n`. -/
def courses (n : Nat) : Finset Nat := Finset.Icc 1 n

variable {n k t : Nat} {relations : List (Nat × Nat)} {d : Array (BitVec 32)} {s : State}
  {cur nxt x : BitVec 32} {i : Nat}

/-! ## The masks -/

theorem mem_courses : i ∈ courses n ↔ 1 ≤ i ∧ i ≤ n := Finset.mem_Icc

theorem toNat_one_shiftLeft (hi : i < 32) : (1#32 <<< i).toNat = 2 ^ i := by
  rw [← BitVec.twoPow_eq, BitVec.toNat_twoPow_of_lt hi]

theorem bits_allCourses (hn : n ≤ 29) : bits (allCourses n) = courses n := by
  have hpow : (1#32 <<< (n + 1)).toNat = 2 ^ (n + 1) := toNat_one_shiftLeft (by omega)
  have hle : 2 ≤ 2 ^ (n + 1) := by
    rw [Nat.pow_succ']
    exact Nat.le_mul_of_pos_right 2 (Nat.two_pow_pos n)
  have hnat : (allCourses n).toNat = 2 * (2 ^ n - 1) := by
    rw [allCourses, BitVec.toNat_sub_of_le (by rwa [BitVec.le_def, hpow]), hpow, Nat.pow_succ',
      Nat.mul_sub]
    rfl
  ext i
  rw [mem_bits, mem_courses, ← BitVec.testBit_toNat, hnat]
  cases i with
  | zero => simp
  | succ i =>
      rw [Nat.testBit_succ, Nat.mul_div_cancel_left _ (by decide), Nat.testBit_two_pow_sub_one,
        decide_eq_true_eq]
      omega

/-- The masks are those of the prerequisites. -/
def Masks (n : Nat) (relations : List (Nat × Nat)) (d : Array (BitVec 32)) : Prop :=
  ∀ i ∈ courses n, ∃ mask, d[i]? = some mask ∧ ∀ a, a ∈ bits mask ↔ Before relations a i

theorem prerequisites_spec (hrange : ∀ e ∈ relations, e.1 ∈ courses n ∧ e.2 ∈ courses n)
    (hn : n ≤ 29) : ∃ d, prerequisites n relations = some d ∧ Masks n relations d := by
  have hrun : ∃ d, prerequisites n relations = some d ∧ d.size = n + 1 ∧ Masks n relations d := by
    apply foldlM_rule fun seen (d : Array (BitVec 32)) => d.size = n + 1 ∧ Masks n seen d
    · refine ⟨Array.size_replicate, fun i hi => ⟨0#32, ?_, fun a => ?_⟩⟩
      · rw [Array.getElem?_replicate, if_pos (by rw [mem_courses] at hi; omega)]
      · rw [bits_zero]
        exact iff_of_false (Finset.notMem_empty a) List.not_mem_nil
    · rintro seen ⟨a, b⟩ rest d rfl ⟨hsize, hmasks⟩
      obtain ⟨ha, hb⟩ := hrange (a, b) (List.mem_append_right _ List.mem_cons_self)
      obtain ⟨mask, hmask, hbits⟩ := hmasks b hb
      dsimp only at ha hb
      have ha32 : a < 32 := by
        rw [mem_courses] at ha
        omega
      refine ⟨d.setIfInBounds b (mask ||| 1#32 <<< a), by dsimp only; rw [hmask]; rfl,
        Array.size_setIfInBounds.trans hsize, fun i hi => ?_⟩
      rw [Array.getElem?_setIfInBounds]
      obtain rfl | hne := eq_or_ne b i
      · rw [if_pos rfl, if_pos (by rw [mem_courses] at hi; omega)]
        refine ⟨_, rfl, fun c => ?_⟩
        rw [bits_or, bits_one_shiftLeft ha32, Finset.mem_union, hbits, Finset.mem_singleton]
        simp [Before]
      · rw [if_neg hne]
        obtain ⟨mask', hmask', hbits'⟩ := hmasks i hi
        refine ⟨mask', hmask', fun c => ?_⟩
        rw [hbits']
        simp [Before, hne.symm]
  obtain ⟨d, hd, -, hmasks⟩ := hrun
  exact ⟨d, hd, hmasks⟩

theorem available_spec (hd : Masks n relations d) (hn : n ≤ 29) (cur : BitVec 32) :
    ∃ nxt, available n d cur = some nxt ∧
      bits nxt = ready (courses n) (Before relations) (bits cur) := by
  have hrun : ∃ nxt, (forRange 1 (n + 1) (fun i nxt => do
      let mask ← d[i]?
      return if cur &&& mask = mask then nxt ||| 1#32 <<< i else nxt) 0#32) = some nxt ∧
      ∀ i, i ∈ bits nxt ↔
        (1 ≤ i ∧ i < max 1 (n + 1)) ∧ ∀ p, Before relations p i → p ∈ bits cur := by
    apply forRange_rule fun j (nxt : BitVec 32) => ∀ i, i ∈ bits nxt ↔
      (1 ≤ i ∧ i < j) ∧ ∀ p, Before relations p i → p ∈ bits cur
    · intro i
      rw [bits_zero]
      exact iff_of_false (Finset.notMem_empty i) fun h => by omega
    · intro j nxt hj hjn hnxt
      obtain ⟨mask, hmask, hbits⟩ := hd j (mem_courses.mpr ⟨hj, by omega⟩)
      have htest : cur &&& mask = mask ↔ ∀ p, Before relations p j → p ∈ bits cur := by
        rw [BitVec.and_comm, ← bits_subset_iff]
        exact ⟨fun h p hp => h ((hbits p).mpr hp), fun h p hp => h p ((hbits p).mp hp)⟩
      refine ⟨_, by rw [hmask]; rfl, fun i => ?_⟩
      obtain rfl | hne := eq_or_ne i j
      · rw [apply_ite bits, bits_or, bits_one_shiftLeft (by omega)]
        split
        case isTrue hready =>
          refine iff_of_true (Finset.mem_union_right _ (Finset.mem_singleton_self i)) ?_
          exact ⟨⟨hj, Nat.lt_succ_self i⟩, htest.mp hready⟩
        case isFalse hready =>
          rw [hnxt]
          exact iff_of_false (fun h => absurd h.1.2 (lt_irrefl i)) fun h => hready (htest.mpr h.2)
      · have hsame : i ∈ bits (if cur &&& mask = mask then nxt ||| 1#32 <<< j else nxt) ↔
            i ∈ bits nxt := by
          split
          · rw [bits_or, bits_one_shiftLeft (by omega), Finset.mem_union, Finset.mem_singleton,
              or_iff_left hne]
          · rfl
        rw [hsame, hnxt]
        exact and_congr_left fun _ => by omega
  obtain ⟨nxt, hloop, hnxt⟩ := hrun
  refine ⟨nxt &&& ~~~cur, by rw [available, hloop]; rfl, ?_⟩
  ext c
  rw [bits_and_not, Finset.mem_sdiff, hnxt, mem_ready, mem_courses]
  have hlast : c < max 1 (n + 1) ↔ c ≤ n := by omega
  rw [hlast]
  tauto

/-! ## The search -/

/-- The masks that full semesters lead to, with the number of semesters. -/
def semesters (n : Nat) (relations : List (Nat × Nat)) (k : Nat) :
    LabelledGraph (BitVec 32) Unit Nat where
  Start v c := v = 0#32 ∧ c = 0
  Joins v _ u := FullSlot (courses n) (Before relations) k (bits v) (bits u)
  extend c _ := c + 1
  mono _ _ _ h := Nat.add_le_add_right h 1
  le_extend c _ := Nat.le_succ c

theorem courses_subset_range (hn : n ≤ 29) : courses n ⊆ Finset.range 32 := by
  intro i hi
  rw [mem_courses] at hi
  exact Finset.mem_range.mpr (by omega)

theorem label_iff (hn : n ≤ 29) {v : BitVec 32} {c : Nat} : (semesters n relations k).Label v c ↔
    FullSlots (courses n) (Before relations) k c (bits v) := by
  constructor
  · intro h
    induction h with
    | start hs =>
        obtain ⟨rfl, rfl⟩ := hs
        rw [bits_zero]
        exact .start
    | step _ hjoins ih => exact ih.next hjoins
  · intro h
    generalize hS : bits v = S at h
    induction h generalizing v with
    | start =>
        rw [← bits_zero (w := 32)] at hS
        exact .start ⟨bits_injective hS, rfl⟩
    | @next c S S' hslots hslot ih =>
        subst hS
        obtain ⟨u, rfl⟩ := exists_bits (hslots.subset.trans (courses_subset_range hn))
        exact .step (e := ()) (ih rfl) hslot

/-- What visiting the masks of a set does. -/
def Visits (masks : Set (BitVec 32)) (t : Nat) (s s' : State) : Prop :=
  ∃ new : List (BitVec 32), s'.q = s.q ++ new.map (·, t) ∧ (∀ v ∈ new, v ∈ masks) ∧
    (∀ v, v ∈ s'.vis ↔ v ∈ s.vis ∨ v ∈ new) ∧ s'.vis.card = s.vis.card + new.length ∧
      ∀ v ∈ masks, v ∈ s'.vis

theorem Visits.refl (s : State) : Visits ∅ t s s :=
  ⟨[], (List.append_nil _).symm, fun _ h => absurd h List.not_mem_nil, by simp, rfl,
    fun _ h => absurd h (Set.notMem_empty _)⟩

theorem visits_visit (mask : BitVec 32) (t : Nat) (s : State) :
    Visits {mask} t s (visit mask t s) := by
  unfold visit
  split
  case isTrue hmem => exact ⟨[], (List.append_nil _).symm, fun _ h => absurd h List.not_mem_nil,
      by simp, rfl, fun v hv => Set.mem_singleton_iff.mp hv ▸ hmem⟩
  case isFalse hnew =>
    refine ⟨[mask], rfl, fun v hv => List.mem_singleton.mp hv, fun v => ?_,
      Finset.card_insert_of_notMem hnew, fun v hv => ?_⟩
    · rw [Finset.mem_insert, List.mem_singleton, or_comm]
    · rw [Set.mem_singleton_iff.mp hv]
      exact Finset.mem_insert_self ..

theorem Visits.trans {A B : Set (BitVec 32)} {s s' s'' : State} (h : Visits A t s s')
    (h' : Visits B t s' s'') : Visits (A ∪ B) t s s'' := by
  obtain ⟨new, hq, hmem, hvis, hcard, hall⟩ := h
  obtain ⟨new', hq', hmem', hvis', hcard', hall'⟩ := h'
  refine ⟨new ++ new', ?_, fun v hv => ?_, fun v => ?_, ?_, fun v hv => ?_⟩
  · rw [hq', hq, List.map_append, List.append_assoc]
  · exact (List.mem_append.mp hv).imp (hmem v) (hmem' v)
  · rw [hvis', hvis, List.mem_append, or_assoc]
  · rw [hcard', hcard, List.length_append, Nat.add_assoc]
  · obtain hv | hv := hv
    · exact (hvis' v).mpr (.inl (hall v hv))
    · exact hall' v hv

/-- The loop over the subsets visits those with `k` courses. -/
theorem subsets_spec {fuel : Nat} (x cur : BitVec 32) (t : Nat) (s : State) (hk : 1 ≤ k)
    (hfuel : 2 ^ 32 < fuel) : ∃ s', loop (subsetRound k x cur t) fuel (x, s) = some s' ∧
      Visits {u | ∃ y, bits y ⊆ bits x ∧ popcount y = k ∧ u = y ||| cur} t s s' := by
  apply loop_total (fun r : BitVec 32 × State => bits r.1 ⊆ bits x ∧
    Visits {u | ∃ y, bits y ⊆ bits x ∧ popcount y = k ∧ r.1.toNat < y.toNat ∧ u = y ||| cur} t s
      r.2) fun r => r.1.toNat
  · rintro ⟨nxt, s'⟩ ⟨hsub, hvisits⟩
    dsimp only at hsub hvisits
    by_cases hzero : nxt = 0#32
    · refine .inl ⟨s', if_pos hzero, ?_⟩
      convert hvisits using 1
      ext u
      refine exists_congr fun y => and_congr_right fun _ => and_congr_right fun hcount => ?_
      have hpos : nxt.toNat < y.toNat := by
        rw [hzero]
        refine Nat.pos_of_ne_zero fun hy => ?_
        rw [BitVec.eq_of_toNat_eq (y := 0#32) hy, popcount, bits_zero, Finset.card_empty] at hcount
        omega
      exact (and_iff_right hpos).symm
    · obtain ⟨hnext, hless, -⟩ := pred_land_spec hsub hzero
      have hlater := fun y (hy : bits y ⊆ bits x) => pred_land_lt_iff hsub hzero hy
      refine .inr ⟨_, if_neg hzero, ⟨hnext, ?_⟩, hless⟩
      dsimp only
      split
      case isTrue hcount =>
        convert hvisits.trans (visits_visit (nxt ||| cur) t s') using 1
        ext u
        constructor
        · rintro ⟨y, hy, hcount', hlt, rfl⟩
          obtain habove | rfl := (hlater y hy).mp hlt
          · exact .inl ⟨y, hy, hcount', habove, rfl⟩
          · exact .inr rfl
        · rintro (⟨y, hy, hcount', habove, rfl⟩ | rfl)
          · exact ⟨y, hy, hcount', (hlater y hy).mpr (.inl habove), rfl⟩
          · exact ⟨nxt, hsub, hcount, (hlater nxt hsub).mpr (.inr rfl), rfl⟩
      case isFalse hcount =>
        convert hvisits using 1
        ext u
        refine exists_congr fun y => and_congr_right fun hy => and_congr_right fun hcount' => ?_
        have hne : y ≠ nxt := fun heq => hcount (heq ▸ hcount')
        rw [hlater y hy, or_iff_left hne]
  · refine ⟨Finset.Subset.refl _, ?_⟩
    convert Visits.refl s using 1
    refine Set.eq_empty_of_forall_notMem ?_
    rintro u ⟨y, hy, -, hlt, -⟩
    have hle : y.toNat ≤ x.toNat := by
      rw [← bits_subset_iff.mp hy, BitVec.toNat_and]
      exact Nat.and_le_right
    exact absurd hlt (not_lt.mpr hle)
  · exact x.isLt.trans hfuel

theorem joins_iff {u : BitVec 32} (h : bits nxt = ready (courses n) (Before relations) (bits cur)) :
    (semesters n relations k).Joins cur () u ↔
      ∃ T ⊆ bits nxt, T.card = min k (popcount nxt) ∧ bits u = bits cur ∪ T := by
  rw [popcount, h]
  rfl

/-- A turn of the search visits the masks that a full semester leads to. -/
theorem round_spec {fuel : Nat} (hd : Masks n relations d) (hn : n ≤ 29) (hk : 1 ≤ k)
    (hfuel : 2 ^ 32 < fuel) (hcur : cur ≠ allCourses n) (t : Nat) (rest : List (BitVec 32 × Nat))
    (vis : Finset (BitVec 32)) :
    ∃ s', round fuel n k d { q := (cur, t) :: rest, vis } = some (.inl s') ∧
      Visits {u | (semesters n relations k).Joins cur () u} (t + 1) { q := rest, vis } s' := by
  obtain ⟨nxt, hnxt, hready⟩ := available_spec hd hn cur
  simp only [round, if_neg hcur, hnxt, Option.bind_eq_bind, Option.bind_some]
  split
  case isTrue hfew =>
    refine ⟨_, rfl, ?_⟩
    convert visits_visit (nxt ||| cur) (t + 1) { q := rest, vis } using 1
    ext u
    rw [Set.mem_singleton_iff, ← bits_injective.eq_iff, bits_or, Finset.union_comm]
    refine (joins_iff hready).trans ⟨?_, fun hu => ⟨_, Finset.Subset.refl _, ?_, hu⟩⟩
    · rintro ⟨T, hT, hcard, hu⟩
      rwa [Finset.eq_of_subset_of_card_le hT (hcard ▸ (min_eq_right hfew).ge)] at hu
    · exact (min_eq_right hfew).symm
  case isFalse hmany =>
    obtain ⟨s', hloop, hvisits⟩ := subsets_spec nxt cur (t + 1) { q := rest, vis } hk hfuel
    refine ⟨s', by rw [hloop]; rfl, ?_⟩
    convert hvisits using 1
    ext u
    refine (joins_iff hready).trans ⟨?_, ?_⟩
    · rintro ⟨T, hT, hcard, hu⟩
      obtain ⟨y, rfl⟩ := exists_bits (hT.trans (bits_subset_range nxt))
      refine ⟨y, hT, hcard.trans (min_eq_left (not_le.mp hmany).le), bits_injective ?_⟩
      rw [hu, bits_or, Finset.union_comm]
    · rintro ⟨y, hy, hcount, rfl⟩
      refine ⟨bits y, hy, hcount.trans (min_eq_left (not_le.mp hmany).le).symm, ?_⟩
      rw [bits_or, Finset.union_comm]

/-- The masks in the queue are sorted by their labels, which differ by 1 at most. -/
structure Inv (n : Nat) (relations : List (Nat × Nat)) (k : Nat)
    (Settled : BitVec 32 → Nat → Prop) (s : State) : Prop where
  label : ∀ v c, (v, c) ∈ s.q → (semesters n relations k).Label v c
  vis : ∀ v, v ∈ s.vis ↔ (∃ c, Settled v c) ∨ ∃ c, (v, c) ∈ s.q
  sorted : s.q.Pairwise fun e e' => e.2 ≤ e'.2
  near : ∀ e ∈ s.q, ∀ e' ∈ s.q, e'.2 ≤ e.2 + 1
  settled : ∀ v c, Settled v c → ∀ e ∈ s.q, c ≤ e.2
  covered : (semesters n relations k).Covered Settled fun v c => (v, c) ∈ s.q
  goal : ∀ c, ¬Settled (allCourses n) c

theorem inv_iff {Settled : BitVec 32 → Nat → Prop} : Inv n relations k Settled s ↔
    Layered (semesters n relations k) Settled (· ∈ s.vis) s.q ∧ ∀ c, ¬Settled (allCourses n) c :=
  ⟨fun ⟨label, vis, sorted, near, settled, covered, goal⟩ =>
      ⟨⟨label, vis, sorted, near, settled, covered⟩, goal⟩,
    fun ⟨⟨label, vis, sorted, near, settled, covered⟩, goal⟩ =>
      ⟨label, vis, sorted, near, settled, covered, goal⟩⟩

theorem Inv.init (n : Nat) (relations : List (Nat × Nat)) (k : Nat) :
    Inv n relations k (fun _ _ => False) { q := [(0#32, 0)], vis := {0#32} } := by
  refine inv_iff.mpr ⟨?_, fun c h => h⟩
  simp only [Finset.mem_singleton]
  exact .init fun v c => Iff.rfl

theorem Inv.next {Settled : BitVec 32 → Nat → Prop} {rest : List (BitVec 32 × Nat)}
    {vis : Finset (BitVec 32)} {s' : State}
    (h : Inv n relations k Settled { q := (cur, t) :: rest, vis }) (hcur : cur ≠ allCourses n)
    (hvisits : Visits {u | (semesters n relations k).Joins cur () u} (t + 1) { q := rest, vis }
      s') : Inv n relations k (fun v c => Settled v c ∨ v = cur ∧ c = t) s' := by
  obtain ⟨new, hq, hnew, hvis, -, hall⟩ := hvisits
  obtain ⟨hlayered, hgoal⟩ := inv_iff.mp h
  refine inv_iff.mpr ⟨?_, fun c hsettled => ?_⟩
  · rw [hq]
    exact hlayered.next (fun _ _ => rfl) (fun u hu => ⟨(), hnew u hu⟩) hvis fun _ u => hall u
  · obtain hsettled | ⟨heq, -⟩ := hsettled
    · exact hgoal c hsettled
    · exact hcur heq.symm

theorem card_le (masks : Finset (BitVec 32)) : masks.card ≤ 2 ^ 32 := by
  rw [← Finset.card_range (2 ^ 32)]
  exact Finset.card_le_card_of_injOn BitVec.toNat (fun v _ => Finset.mem_coe.mpr
    (Finset.mem_range.mpr v.isLt)) fun v _ u _ heq => BitVec.eq_of_toNat_eq heq

/-- The search ends at the mask of all courses, with its least label. -/
theorem search_spec {fuel : Nat} (hd : Masks n relations d) (hn : n ≤ 29) (hk : 1 ≤ k)
    (hfuel : 2 ^ 32 < fuel) (hall : ∃ c, (semesters n relations k).Label (allCourses n) c) :
    ∃ r, loop (round fuel n k d) fuel { q := [(0#32, 0)], vis := {0#32} } = some r ∧
      (semesters n relations k).Least (allCourses n) r := by
  apply loop_total (fun s => ∃ Settled, Inv n relations k Settled s)
    fun s => 2 ^ 32 - s.vis.card + s.q.length
  · rintro ⟨q, vis⟩ ⟨Settled, hinv⟩
    obtain _ | ⟨⟨cur, t⟩, rest⟩ := q
    · obtain ⟨c, hlabel⟩ := hall
      obtain ⟨c', -, hsettled⟩ := (inv_iff.mp hinv).1.exhausted hlabel
      exact absurd hsettled (hinv.goal c')
    by_cases hcur : cur = allCourses n
    · subst hcur
      exact .inl ⟨t, if_pos rfl, (inv_iff.mp hinv).1.least hinv.goal⟩
    · obtain ⟨s', hround, hvisits⟩ := round_spec hd hn hk hfuel hcur t rest vis
      refine .inr ⟨s', hround, ⟨_, hinv.next hcur hvisits⟩, ?_⟩
      obtain ⟨new, hq, -, -, hcard, -⟩ := hvisits
      have hle := card_le s'.vis
      dsimp only at hq hcard ⊢
      rw [hq, List.length_append, List.length_map, List.length_cons]
      omega
  · exact ⟨_, Inv.init n relations k⟩
  · dsimp only
    rw [Finset.card_singleton, List.length_singleton]
    omega

theorem minNumOfSemesters_eq (fuel n : Nat) (relations : List (Nat × Nat)) (k : Nat) (hn : n ≤ 29)
    (hrange : ∀ e ∈ relations, e.1 ∈ courses n ∧ e.2 ∈ courses n)
    (hacyclic : ∀ c, ¬Relation.TransGen (Before relations) c c) (hk : 1 ≤ k)
    (hfuel : 2 ^ 32 < fuel) :
    ∃ r, minNumOfSemesters fuel n relations k = some r ∧
      IsLeast {m | ∃ semester, Schedule (courses n) (Before relations) k m semester} r := by
  obtain ⟨d, hd, hmasks⟩ := prerequisites_spec hrange hn
  have hpairs : ∀ p c, Before relations p c → p ∈ courses n ∧ c ∈ courses n :=
    fun p c hp => hrange (p, c) hp
  have hlabel : ∀ c, (semesters n relations k).Label (allCourses n) c ↔
      ∃ semester, Schedule (courses n) (Before relations) k c semester := fun c => by
    rw [label_iff hn, bits_allCourses hn, exists_schedule_iff hpairs]
  obtain ⟨m, hm⟩ := exists_fullSlots (fun p c hp => (hpairs p c hp).1) hacyclic hk
  have hsome : (semesters n relations k).Label (allCourses n) m := by
    rwa [label_iff hn, bits_allCourses hn]
  obtain ⟨r, hr, hleast⟩ := search_spec hmasks hn hk hfuel ⟨m, hsome⟩
  refine ⟨r, by rw [minNumOfSemesters, hd]; exact hr, ?_⟩
  simp only [LabelledGraph.Least, hlabel] at hleast
  exact hleast

theorem minNumOfSemesters_eq_two :
    ∃ r, minNumOfSemesters (2 ^ 32 + 1) 3 [(1, 3)] 2 = some r ∧
      IsLeast {m | ∃ semester, Schedule (courses 3) (Before [(1, 3)]) 2 m semester} r := by
  refine minNumOfSemesters_eq (2 ^ 32 + 1) 3 [(1, 3)] 2 (by decide) (by decide) (fun c hcycle => ?_)
    (by decide) (by decide)
  have hup : ∀ a b, Before [(1, 3)] a b → a < b := fun a b h => by
    obtain ⟨rfl, rfl⟩ := Prod.mk.inj (List.mem_singleton.mp h)
    decide
  have hless : Relation.TransGen (· < ·) c c := Relation.TransGen.mono hup c c hcycle
  rw [Relation.transGen_eq_self] at hless
  exact lt_irrefl c hless

end MinNumOfSemesters

end MoreCpp
