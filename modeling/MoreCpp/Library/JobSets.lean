import MoreCpp.Library.PartitionPoint
import MoreCpp.Library.Selections
import Mathlib.Data.List.Perm.Basic

/-!
Sets of jobs that can all be done, by one more job that starts or ends last.
-/

namespace MoreCpp.Library

section JobSets

variable {α τ : Type*} [LinearOrder τ] {start finish : α → τ} {l l' s : List α} {x : α}
  {p : α → Bool}

/-- One of the jobs ends no later than the other starts. -/
def Compatible (start finish : α → τ) (a b : α) : Prop := finish a ≤ start b ∨ finish b ≤ start a

theorem Compatible.symm {a b : α} (h : Compatible start finish a b) :
    Compatible start finish b a := Or.symm h

/-- Jobs of `l`, in whatever order, of which any two are compatible. -/
structure JobSet (start finish : α → τ) (l s : List α) : Prop where
  jobs : s.Subperm l
  compatible : s.Pairwise (Compatible start finish)

theorem JobSet.perm (h : JobSet start finish l s) (hl : l.Perm l') : JobSet start finish l' s :=
  ⟨hl.subperm_left.mp h.jobs, h.compatible⟩

theorem jobSet_nil_iff : JobSet start finish [] s ↔ s = [] := by
  constructor
  · exact fun h => List.subperm_nil.mp h.jobs
  · rintro rfl
    exact ⟨.refl _, .nil⟩

/-- No more than `n` of them. -/
def Few (start finish : α → τ) (l : List α) (n : Nat) (s : List α) : Prop :=
  JobSet start finish l s ∧ s.length ≤ n

theorem Few.perm {n : Nat} (h : Few start finish l n s) (hl : l.Perm l') :
    Few start finish l' n s := ⟨h.1.perm hl, h.2⟩

theorem few_zero_iff : Few start finish l 0 s ↔ s = [] := by
  constructor
  · exact fun h => List.eq_nil_of_length_eq_zero (Nat.le_zero.mp h.2)
  · rintro rfl
    exact ⟨⟨List.nil_subperm, .nil⟩, Nat.le_refl 0⟩

theorem few_nil_iff {n : Nat} : Few start finish [] n s ↔ s = [] := by
  constructor
  · exact fun h => jobSet_nil_iff.mp h.1
  · rintro rfl
    exact ⟨⟨.refl _, .nil⟩, Nat.zero_le n⟩

theorem subperm_cons_cases (h : s.Subperm (x :: l)) :
    s.Subperm l ∨ ∃ s', s'.Subperm l ∧ s.Perm (x :: s') := by
  obtain ⟨t, hperm, hsub⟩ := h
  obtain hold | ⟨t', rfl, hrest⟩ := List.sublist_cons_iff.mp hsub
  · exact .inl ⟨t, hperm, hold⟩
  · exact .inr ⟨t', hrest.subperm, hperm.symm⟩

variable {M : Type*} [AddCommMonoid M] [LinearOrder M] [IsOrderedAddMonoid M] {value : α → M}
  {a b : M}

section

variable (hp : ∀ y ∈ l, p y ↔ Compatible start finish x y)
include hp

omit [AddCommMonoid M] [LinearOrder M] [IsOrderedAddMonoid M] in
/-- Without one more job, or with it and those that are compatible with it. -/
theorem JobSet.cons_cases (hs : JobSet start finish (x :: l) s) :
    JobSet start finish l s ∨ ∃ s', JobSet start finish (l.filter p) s' ∧ s.Perm (x :: s') := by
  obtain hold | ⟨s', hs', hperm⟩ := subperm_cons_cases hs.jobs
  · exact .inl ⟨hold, hs.compatible⟩
  · have hpair := (hperm.pairwise_iff Compatible.symm).mp hs.compatible
    obtain ⟨hx, hpair⟩ := List.pairwise_cons.mp hpair
    refine .inr ⟨s', ⟨?_, hpair⟩, hperm⟩
    have hall : s'.filter p = s' := List.filter_eq_self.mpr fun y hy =>
      (hp y (hs'.subset hy)).mpr (hx y hy)
    rw [← hall]
    exact hs'.filter p

omit [AddCommMonoid M] [LinearOrder M] [IsOrderedAddMonoid M] in
theorem JobSet.cons (hs : JobSet start finish (l.filter p) s) :
    JobSet start finish (x :: l) (x :: s) := by
  refine ⟨(List.subperm_cons x).mpr (hs.jobs.trans List.filter_sublist.subperm),
    List.pairwise_cons.mpr ⟨fun y hy => ?_, hs.compatible⟩⟩
  obtain ⟨hyl, hpy⟩ := List.mem_filter.mp (hs.jobs.subset hy)
  exact (hp y hyl).mp hpy

theorem best_jobSet_cons (hskip : Best (JobSet start finish l) value a)
    (htake : Best (JobSet start finish (l.filter p)) value b) :
    Best (JobSet start finish (x :: l)) value (max a (value x + b)) := by
  apply hskip.add htake x
  · exact fun s hs => hs.cons_cases hp
  · exact fun s hs => ⟨hs.jobs.trans (List.sublist_cons_self x l).subperm, hs.compatible⟩
  · exact fun s' hs' => ⟨x :: s', hs'.cons hp, .refl _⟩

/-- With a limit to their number, one job takes its place in it. -/
theorem best_few_cons {n : Nat} (hskip : Best (Few start finish l (n + 1)) value a)
    (htake : Best (Few start finish (l.filter p) n) value b) :
    Best (Few start finish (x :: l) (n + 1)) value (max a (value x + b)) := by
  apply hskip.add htake x
  · rintro s ⟨hs, hcount⟩
    obtain hold | ⟨s', hs', hperm⟩ := hs.cons_cases hp
    · exact .inl ⟨hold, hcount⟩
    · rw [hperm.length_eq, List.length_cons] at hcount
      exact .inr ⟨s', ⟨hs', Nat.le_of_succ_le_succ hcount⟩, hperm⟩
  · rintro s ⟨hs, hcount⟩
    exact ⟨⟨hs.jobs.trans (List.sublist_cons_self x l).subperm, hs.compatible⟩, hcount⟩
  · rintro s' ⟨hs', hcount⟩
    exact ⟨x :: s', ⟨hs'.cons hp, Nat.succ_le_succ hcount⟩, .refl _⟩

end

omit [IsOrderedAddMonoid M] in
theorem best_jobSet_perm (h : Best (JobSet start finish l) value a) (hl : l.Perm l') :
    Best (JobSet start finish l') value a :=
  h.congr fun _ => ⟨fun hs => hs.perm hl, fun hs => hs.perm hl.symm⟩

section

variable {β : Type*} {f : β → α} {js : List β}

omit [AddCommMonoid M] [LinearOrder M] [IsOrderedAddMonoid M] in
/-- The jobs in another representation. -/
theorem JobSet.exists_map (h : JobSet start finish (js.map f) s) :
    ∃ s', JobSet (start ∘ f) (finish ∘ f) js s' ∧ s.Perm (s'.map f) := by
  obtain ⟨⟨t, hperm, hsub⟩, hpair⟩ := h
  obtain ⟨t', hsub', rfl⟩ := List.sublist_map_iff.mp hsub
  have hpair' := (hperm.pairwise_iff Compatible.symm).mpr hpair
  exact ⟨t', ⟨hsub'.subperm, (List.pairwise_map (f := f)).mp hpair'⟩, hperm.symm⟩

omit [AddCommMonoid M] [LinearOrder M] [IsOrderedAddMonoid M] in
theorem JobSet.map {s' : List β} (h : JobSet (start ∘ f) (finish ∘ f) js s') :
    JobSet start finish (js.map f) (s'.map f) := by
  obtain ⟨⟨t, hperm, hsub⟩, hpair⟩ := h
  exact ⟨⟨t.map f, hperm.map f, hsub.map f⟩, List.pairwise_map.mpr hpair⟩

omit [IsOrderedAddMonoid M] in
theorem best_jobSet_map : Best (JobSet start finish (js.map f)) value a ↔
    Best (JobSet (start ∘ f) (finish ∘ f) js) (value ∘ f) a :=
  best_map (fun _ hs => hs.exists_map) fun _ hs => hs.map

omit [IsOrderedAddMonoid M] in
theorem best_few_map {n : Nat} : Best (Few start finish (js.map f) n) value a ↔
    Best (Few (start ∘ f) (finish ∘ f) js n) (value ∘ f) a := by
  apply best_map
  · rintro s ⟨hs, hcount⟩
    obtain ⟨s', hs', hperm⟩ := hs.exists_map
    exact ⟨s', ⟨hs', by rwa [hperm.length_eq, List.length_map] at hcount⟩, hperm⟩
  · exact fun s' hs' => ⟨hs'.1.map, (List.length_map f).le.trans hs'.2⟩

end

/-! ## In order -/

/-- By their starts, and by their ends where these are the same. -/
def StartsBefore (start finish : α → τ) (a b : α) : Prop :=
  start a < start b ∨ start a = start b ∧ finish a ≤ finish b

def EndsBefore (start finish : α → τ) (a b : α) : Prop :=
  finish a < finish b ∨ finish a = finish b ∧ start a ≤ start b

theorem StartsBefore.compatible_iff {x y : α} (h : StartsBefore start finish x y)
    (hy : start y ≤ finish y) : Compatible start finish x y ↔ finish x ≤ start y := by
  refine or_iff_left_of_imp fun hback => ?_
  obtain hlt | ⟨hsame, hle⟩ := h
  · exact absurd (hy.trans hback) hlt.not_ge
  · exact hle.trans (hback.trans hsame.le)

theorem EndsBefore.compatible_iff {x y : α} (h : EndsBefore start finish y x)
    (hy : start y ≤ finish y) : Compatible start finish x y ↔ finish y ≤ start x := by
  refine or_iff_right_of_imp fun hback => ?_
  obtain hlt | ⟨hsame, hle⟩ := h
  · exact absurd (hback.trans hy) hlt.not_ge
  · exact hsame.le.trans (hback.trans hle)

/-- The first of the jobs by their starts, and those behind that start after it has ended. -/
theorem best_jobSet_drop {i j : Nat} (hsorted : l.Pairwise (StartsBefore start finish))
    (hle : ∀ y ∈ l, start y ≤ finish y) (hx : l[i]? = some x)
    (hj : j = i + 1 + partitionPoint (fun y => start y < finish x) (l.drop (i + 1)))
    (hskip : Best (JobSet start finish (l.drop (i + 1))) value a)
    (htake : Best (JobSet start finish (l.drop j)) value b) :
    Best (JobSet start finish (l.drop i)) value (max a (value x + b)) := by
  obtain ⟨hi, rfl⟩ := List.getElem?_eq_some_iff.mp hx
  have hcut : l.drop i = l[i] :: l.drop (i + 1) := List.drop_eq_getElem_cons hi
  have hrest := hcut ▸ hsorted.drop
  obtain ⟨hfirst, hrest⟩ := List.pairwise_cons.mp hrest
  have hmem : ∀ y ∈ l.drop (i + 1), start y ≤ finish y := fun y hy => hle y (List.mem_of_mem_drop hy)
  have hpart : Partitioned (fun y => start y < finish l[i]) (l.drop (i + 1)) := by
    refine hrest.imp fun {y z} hyz hz => ?_
    rw [decide_eq_true_eq] at hz ⊢
    obtain hlt | ⟨hsame, -⟩ := hyz
    · exact hlt.trans hz
    · exact hsame ▸ hz
  rw [hj, ← List.drop_drop, hpart.splitAt.2] at htake
  rw [hcut]
  refine best_jobSet_cons (fun y hy => ?_) hskip htake
  rw [(hfirst y hy).compatible_iff (hmem y hy), Bool.not_eq_true', decide_eq_false_iff_not, not_lt]

omit [AddCommMonoid M] [LinearOrder M] [IsOrderedAddMonoid M] in
/-- The last of the jobs by their ends, and those before it that end before it starts. -/
theorem take_succ_jobs {i j : Nat} (hsorted : l.Pairwise (EndsBefore start finish))
    (hle : ∀ y ∈ l, start y ≤ finish y) (hx : l[i]? = some x)
    (hj : j = partitionPoint (fun y => ¬start x < finish y) (l.take i)) :
    l.take j = (l.take i).filter (fun y => ¬start x < finish y) ∧
      (x :: l.take i).Perm (l.take (i + 1)) ∧
      ∀ y ∈ l.take i, decide (¬start x < finish y) = true ↔ Compatible start finish x y := by
  obtain ⟨hi, rfl⟩ := List.getElem?_eq_some_iff.mp hx
  have hcut : l.take (i + 1) = l.take i ++ [l[i]] := List.take_succ_eq_append_getElem hi
  have hrest : (l.take i ++ [l[i]]).Pairwise (EndsBefore start finish) := hcut ▸ hsorted.take
  obtain ⟨hrest, -, hlast⟩ := List.pairwise_append.mp hrest
  have hpart : Partitioned (fun y => ¬start l[i] < finish y) (l.take i) := by
    refine hrest.imp fun {y z} hyz hz => ?_
    rw [decide_eq_true_eq, not_lt] at hz ⊢
    obtain hlt | ⟨hsame, -⟩ := hyz
    · exact hlt.le.trans hz
    · exact hsame ▸ hz
  have hji : j ≤ i := by
    rw [hj]
    exact partitionPoint_le_length.trans (List.length_take_le i l)
  refine ⟨?_, ?_, fun y hy => ?_⟩
  · rw [← hpart.splitAt.1, ← hj, List.take_take, min_eq_left hji]
  · rw [hcut]
    exact (List.perm_append_singleton _ _).symm
  · rw [(hlast y hy _ (List.mem_singleton_self _)).compatible_iff
      (hle y (List.mem_of_mem_take hy)), decide_eq_true_eq, not_lt]

theorem best_jobSet_take {i j : Nat} (hsorted : l.Pairwise (EndsBefore start finish))
    (hle : ∀ y ∈ l, start y ≤ finish y) (hx : l[i]? = some x)
    (hj : j = partitionPoint (fun y => ¬start x < finish y) (l.take i))
    (hskip : Best (JobSet start finish (l.take i)) value a)
    (htake : Best (JobSet start finish (l.take j)) value b) :
    Best (JobSet start finish (l.take (i + 1))) value (max a (value x + b)) := by
  obtain ⟨hbefore, hperm, hcompatible⟩ := take_succ_jobs hsorted hle hx hj
  rw [hbefore] at htake
  exact best_jobSet_perm (best_jobSet_cons hcompatible hskip htake) hperm

theorem best_few_take {i j n : Nat} (hsorted : l.Pairwise (EndsBefore start finish))
    (hle : ∀ y ∈ l, start y ≤ finish y) (hx : l[i]? = some x)
    (hj : j = partitionPoint (fun y => ¬start x < finish y) (l.take i))
    (hskip : Best (Few start finish (l.take i) (n + 1)) value a)
    (htake : Best (Few start finish (l.take j) n) value b) :
    Best (Few start finish (l.take (i + 1)) (n + 1)) value (max a (value x + b)) := by
  obtain ⟨hbefore, hperm, hcompatible⟩ := take_succ_jobs hsorted hle hx hj
  rw [hbefore] at htake
  refine (best_few_cons hcompatible hskip htake).congr fun s => ?_
  exact ⟨fun hs => hs.perm hperm, fun hs => hs.perm hperm.symm⟩

end JobSets

end MoreCpp.Library
