import MoreCpp.Library.Grid
import MoreCpp.Library.Loop
import MoreCpp.Library.GraphSearch
import Mathlib.Algebra.Order.Group.Int
import Mathlib.Data.Fintype.Prod

/-!
`min_obstacles` of `algorithms/graphs/graphs.cpp`, on a grid of `m` rows and `n` columns,
with integers of any size.
-/

namespace MoreCpp

open Library

namespace MinObstacles

variable {m n : Nat}

structure State (m n : Nat) where
  dq : List (Cell m n × Int)
  vis : Cell m n → Bool

/-- A turn of the loop over the neighbours. -/
def push (grid : Cell m n → Int) (k : Int) (dq : List (Cell m n × Int)) (x : Cell m n) :
    List (Cell m n × Int) :=
  if grid x = 0 then (x, k) :: dq else dq ++ [(x, k + 1)]

def round (grid : Cell m n → Int) (s : State m n) : Option (State m n ⊕ Int) :=
  match s.dq with
  | [] => some (.inr (-1))
  | (c, k) :: dq =>
    if c.1.val = m - 1 ∧ c.2.val = n - 1 then some (.inr k)
    else if s.vis c then some (.inl { s with dq })
    else some (.inl
      { dq := forAround c (push grid k) dq, vis := Function.update s.vis c true })

def minObstacles [NeZero m] [NeZero n] (fuel : Nat) (grid : Cell m n → Int) : Option Int :=
  loop (round grid) fuel { dq := [((0, 0), 0)], vis := fun _ => false }

/-! ## Costs -/

/-- What it costs to come to a cell. -/
def cost (grid : Cell m n → Int) (x : Cell m n) : Int := if grid x = 0 then 0 else 1

theorem cost_nonneg (grid : Cell m n → Int) (x : Cell m n) : 0 ≤ cost grid x := by
  unfold cost
  split <;> omega

variable {grid : Cell m n → Int} {dq : List (Cell m n × Int)} {vis : Cell m n → Bool}
  {c x : Cell m n} {k k' : Int} {e : Cell m n × Int} {s : State m n}

/-! ## The deque -/

theorem mem_push : e ∈ push grid k dq x ↔ e ∈ dq ∨ e = (x, k + cost grid x) := by
  unfold push cost
  split
  · rw [List.mem_cons, add_zero, or_comm]
  · rw [List.mem_append, List.mem_singleton]

theorem mem_pushAll {cells : List (Cell m n)} : e ∈ cells.foldl (push grid k) dq ↔
    e ∈ dq ∨ ∃ x ∈ cells, e = (x, k + cost grid x) := by
  induction cells generalizing dq with
  | nil => simp
  | cons x cells ih =>
      rw [List.foldl_cons, ih, mem_push, or_assoc]
      simp only [List.mem_cons, exists_eq_or_imp]

theorem length_pushAll (cells : List (Cell m n)) :
    (cells.foldl (push grid k) dq).length = dq.length + cells.length := by
  induction cells generalizing dq with
  | nil => rfl
  | cons x cells ih =>
      have hone : (push grid k dq x).length = dq.length + 1 := by
        unfold push
        split <;> simp
      rw [List.foldl_cons, ih, hone, List.length_cons]
      omega

/-- The labels are in order, and are `k` and `k + 1`. -/
structure Banded (k : Int) (dq : List (Cell m n × Int)) : Prop where
  sorted : dq.Pairwise fun e e' => e.2 ≤ e'.2
  bounds : ∀ e ∈ dq, k ≤ e.2 ∧ e.2 ≤ k + 1

theorem Banded.push (h : Banded k dq) (x : Cell m n) : Banded k (push grid k dq x) := by
  unfold MinObstacles.push
  split
  · refine ⟨List.pairwise_cons.mpr ⟨fun e he => (h.bounds e he).1, h.sorted⟩, ?_⟩
    intro e he
    rcases List.mem_cons.mp he with rfl | he
    · dsimp only
      omega
    · exact h.bounds e he
  · refine ⟨List.pairwise_append.mpr ⟨h.sorted, List.pairwise_singleton _ _, ?_⟩, ?_⟩
    · intro e he e' he'
      rw [List.mem_singleton.mp he']
      exact (h.bounds e he).2
    · intro e he
      rcases List.mem_append.mp he with he | he
      · exact h.bounds e he
      · rw [List.mem_singleton.mp he]
        dsimp only
        omega

theorem Banded.pushAll (h : Banded k dq) (cells : List (Cell m n)) :
    Banded k (cells.foldl (MinObstacles.push grid k) dq) := by
  induction cells generalizing dq with
  | nil => exact h
  | cons x cells ih => exact ih (h.push x)

/-- Behind the first label. -/
theorem Banded.tail (h : Banded k' ((c, k) :: dq)) : Banded k dq := by
  obtain ⟨hfirst, hsorted⟩ := List.pairwise_cons.mp h.sorted
  have hc := h.bounds (c, k) List.mem_cons_self
  refine ⟨hsorted, fun e he => ⟨hfirst e he, ?_⟩⟩
  have hbound := (h.bounds e (List.mem_cons_of_mem _ he)).2
  dsimp only at hc
  omega

/-- How far the search still has to go. -/
def size (s : State m n) : Nat := 5 * unmarked s.vis + s.dq.length

theorem size_visit (hc : vis c = false) :
    size ⟨forAround c (push grid k) dq, Function.update vis c true⟩ <
      size ⟨(c, k) :: dq, vis⟩ := by
  have hfew : (around c).length ≤ 4 := List.length_filterMap_le ..
  have hless := unmarked_mark hc
  rw [forAround_eq]
  simp only [size, length_pushAll, List.length_cons]
  omega

/-! ## The search -/

variable [NeZero m] [NeZero n]

def graph (grid : Cell m n → Int) : LabelledGraph (Cell m n) (Cell m n) Int where
  Start c k := c = (0, 0) ∧ k = 0
  Joins v x u := Adjacent v x ∧ u = x
  extend k x := k + cost grid x
  mono _ _ _ hle := Int.add_le_add_right hle _
  le_extend _ _ := Int.le_add_of_nonneg_right (cost_nonneg _ _)

def lastCell : Cell m n :=
  (⟨m - 1, Nat.sub_one_lt (NeZero.ne m)⟩, ⟨n - 1, Nat.sub_one_lt (NeZero.ne n)⟩)

theorem exists_label (grid : Cell m n → Int) (c : Cell m n) : ∃ k, (graph grid).Label c k :=
  cell_induction (P := fun c => ∃ k, (graph grid).Label c k) ⟨0, .start ⟨rfl, rfl⟩⟩
    (fun _ _ ⟨_, hk⟩ hadj => ⟨_, hk.step ⟨hadj, rfl⟩⟩) c

/-- What holds between two rounds. -/
structure Inv (grid : Cell m n → Int) (s : State m n) : Prop where
  labels : ∀ e ∈ s.dq, (graph grid).Label e.1 e.2
  banded : ∃ k, Banded k s.dq
  covered : (graph grid).Covered (fun v k => s.vis v = true ∧ (graph grid).Least v k)
    fun v k => (v, k) ∈ s.dq
  visited : ∀ v, s.vis v = true → ∃ k, (graph grid).Least v k
  last : s.vis lastCell = false

theorem Inv.start (grid : Cell m n → Int) :
    Inv grid { dq := [((0, 0), 0)], vis := fun _ => false } where
  labels e he := by
    rw [List.mem_singleton.mp he]
    exact .start ⟨rfl, rfl⟩
  banded := ⟨0, List.pairwise_singleton _ _, fun e he => by
    rw [List.mem_singleton.mp he]
    dsimp only
    omega⟩
  covered := by
    refine ⟨?_, fun v c e u hv => absurd hv.1 Bool.false_ne_true⟩
    rintro _ _ ⟨rfl, rfl⟩
    exact ⟨0, Int.le_refl 0, .inr List.mem_cons_self⟩
  visited v hv := absurd hv Bool.false_ne_true
  last := rfl

/-- The deque does not run empty before the last cell is found. -/
theorem Inv.ne_nil (h : Inv grid s) : s.dq ≠ [] := by
  intro hnil
  obtain ⟨k, hk⟩ := exists_label grid lastCell
  rcases h.covered.reaches hk with ⟨k', -, hvis, -⟩ | ⟨x, k', hmem, -⟩
  · rw [h.last] at hvis
    cases hvis
  · rw [hnil] at hmem
    cases hmem

/-- The first label of the deque is least for its cell, unless that is visited. -/
theorem Inv.least (h : Inv grid ⟨(c, k) :: dq, vis⟩) (hc : vis c = false) :
    (graph grid).Least c k := by
  refine h.covered.least (h.labels _ List.mem_cons_self) ?_ fun k' hsettled => ?_
  · intro x k' hmem
    obtain ⟨k₀, hbanded⟩ := h.banded
    rcases List.mem_cons.mp hmem with heq | hmem
    · exact ((Prod.mk.inj heq).2).ge
    · exact (hbanded.tail.bounds _ hmem).1
  · exact absurd (hc.symm.trans hsettled.1) Bool.false_ne_true

/-- A visited cell is dropped. -/
theorem Inv.drop (h : Inv grid ⟨(c, k) :: dq, vis⟩) (hc : vis c = true) :
    Inv grid ⟨dq, vis⟩ where
  labels e he := h.labels e (List.mem_cons_of_mem _ he)
  banded := h.banded.elim fun _ hbanded => ⟨k, hbanded.tail⟩
  covered := by
    refine h.covered.advance ?_ fun v k' hsettled => .inl hsettled
    rintro v k' (hsettled | hmem)
    · exact ⟨k', Int.le_refl k', .inl hsettled⟩
    · rcases List.mem_cons.mp hmem with heq | hmem
      · obtain ⟨rfl, rfl⟩ := Prod.mk.inj heq
        obtain ⟨k'', hleast⟩ := h.visited v hc
        exact ⟨k'', hleast.2 (h.labels _ List.mem_cons_self), .inl ⟨hc, hleast⟩⟩
      · exact ⟨k', Int.le_refl k', .inr hmem⟩
  visited := h.visited
  last := h.last

/-- A cell is visited and its neighbours are pushed. -/
theorem Inv.visit (h : Inv grid ⟨(c, k) :: dq, vis⟩) (hc : vis c = false) (hlast : c ≠ lastCell) :
    Inv grid ⟨forAround c (push grid k) dq, Function.update vis c true⟩ := by
  have hleast := h.least hc
  rw [forAround_eq]
  constructor
  case labels =>
    intro e he
    rcases mem_pushAll.mp he with he | ⟨x, hx, rfl⟩
    · exact h.labels e (List.mem_cons_of_mem _ he)
    · exact (h.labels _ List.mem_cons_self).step ⟨mem_around.mp hx, rfl⟩
  case banded =>
    obtain ⟨k₀, hbanded⟩ := h.banded
    exact ⟨k, hbanded.tail.pushAll _⟩
  case covered =>
    apply h.covered.advance
    · rintro v k' (⟨hv, hleast'⟩ | hmem)
      · exact ⟨k', Int.le_refl k', .inl ⟨mark_eq_true.mpr (.inr hv), hleast'⟩⟩
      · rcases List.mem_cons.mp hmem with heq | hmem
        · obtain ⟨rfl, rfl⟩ := Prod.mk.inj heq
          exact ⟨k', Int.le_refl k', .inl ⟨Function.update_self .., hleast⟩⟩
        · exact ⟨k', Int.le_refl k', .inr (mem_pushAll.mpr (.inl hmem))⟩
    · rintro v k' ⟨hv, hleast'⟩
      rcases mark_eq_true.mp hv with rfl | hv
      · obtain rfl := hleast.eq hleast'
        refine .inr fun x u hjoins => ?_
        obtain ⟨hadj, rfl⟩ := hjoins
        exact ⟨_, Int.le_refl _, .inr (mem_pushAll.mpr (.inr ⟨u, mem_around.mpr hadj, rfl⟩))⟩
      · exact .inl ⟨hv, hleast'⟩
  case visited =>
    intro v hv
    rcases mark_eq_true.mp hv with rfl | hv
    · exact ⟨k, hleast⟩
    · exact h.visited v hv
  case last => exact (Function.update_of_ne (Ne.symm hlast) ..).trans h.last

/-- A round ends with the least cost of the last cell, or goes on. -/
theorem round_step (h : Inv grid s) :
    (∃ k, round grid s = some (.inr k) ∧ (graph grid).Least lastCell k) ∨
      ∃ s', round grid s = some (.inl s') ∧ Inv grid s' ∧ size s' < size s := by
  obtain ⟨dq, vis⟩ := s
  match dq with
  | [] => exact absurd rfl h.ne_nil
  | (c, k) :: dq =>
      by_cases hlast : c = lastCell
      · subst hlast
        exact .inl ⟨k, if_pos ⟨rfl, rfl⟩, h.least h.last⟩
      · have hgo : ¬ (c.1.val = m - 1 ∧ c.2.val = n - 1) := fun hboth =>
          hlast (Prod.ext (Fin.ext hboth.1) (Fin.ext hboth.2))
        right
        cases hc : vis c with
        | true =>
            refine ⟨⟨dq, vis⟩, ?_, h.drop hc, ?_⟩
            · simp only [round, if_neg hgo, hc, if_true]
            · simp only [size, List.length_cons]
              omega
        | false =>
            refine ⟨_, ?_, h.visit hc hlast, size_visit hc⟩
            simp only [round, if_neg hgo, hc, Bool.false_eq_true, if_false]

theorem foldl_cost (hcells : ∀ c, grid c = 0 ∨ grid c = 1) (path : List (Cell m n)) (k : Int) :
    path.foldl (graph grid).extend k = k + path.countP fun c => grid c = 1 := by
  induction path generalizing k with
  | nil => exact (add_zero k).symm
  | cons c path ih =>
      have hextend : (graph grid).extend k c = k + cost grid c := rfl
      rw [List.foldl_cons, ih, List.countP_cons, hextend, cost]
      rcases hcells c with hc | hc
      · simp [hc]
      · simp [hc]
        omega

end MinObstacles

end MoreCpp
