import Mathlib.Algebra.BigOperators.Group.Finset.Basic
import Mathlib.Algebra.Order.BigOperators.Group.Finset
import Mathlib.Algebra.Order.BigOperators.Group.List
import Mathlib.Algebra.Order.Ring.Int
import Mathlib.Order.Bounds.Basic

/-!
Walks whose steps take time and whose vertices cost a fee at every visit, and the least cost
of the walks that take a given time, by their last step.
-/

namespace MoreCpp.Library

variable {V : Type*} {Step : V → Nat → V → Prop} {s : V}

/-- The vertices of a walk from `s`, the last one first, and how long it takes. -/
inductive TimedWalk (Step : V → Nat → V → Prop) (s : V) : List V → Nat → Prop
  | start : TimedWalk Step s [s] 0
  | step {v u path i t} : TimedWalk Step s (v :: path) i → Step v t u →
      TimedWalk Step s (u :: v :: path) (i + t)

variable {u v : V} {fee : V → Int} {cap b c : Int} {path front : List V} {i k t : Nat}

def cost (fee : V → Int) (path : List V) : Int := (path.map fee).sum

@[simp] theorem cost_cons : cost fee (v :: path) = fee v + cost fee path := List.sum_cons

theorem cost_append : cost fee (front ++ path) = cost fee front + cost fee path := by
  rw [cost, List.map_append, List.sum_append, cost, cost]

theorem cost_nonneg (hfee : ∀ v, 0 ≤ fee v) (path : List V) : 0 ≤ cost fee path :=
  List.sum_nonneg fun _ h => by
    obtain ⟨v, -, rfl⟩ := List.mem_map.mp h
    exact hfee v

/-- The costs of the walks to `target` within a time limit. -/
def walkCosts (Step : V → Nat → V → Prop) (s target : V) (fee : V → Int) (limit : Nat) : Set Int :=
  {c | ∃ path i, TimedWalk Step s (target :: path) i ∧ i ≤ limit ∧ c = cost fee (target :: path)}

/-- Where every step takes time, a walk that takes none has no steps. -/
theorem TimedWalk.eq_start (hpos : ∀ u t v, Step u t v → 0 < t)
    (h : TimedWalk Step s (v :: path) 0) : v = s ∧ path = [] := by
  generalize hwhole : v :: path = whole at h
  generalize hzero : 0 = i at h
  cases h with
  | start => exact List.cons.inj hwhole
  | step hwalk hstep =>
      have ht := hpos _ _ _ hstep
      omega

theorem TimedWalk.forall_mem {P : V → Prop} (h : TimedWalk Step s path i) (hs : P s)
    (hstep : ∀ u t v, Step u t v → P v) : ∀ v ∈ path, P v := by
  induction h with
  | start => exact List.forall_mem_singleton.mpr hs
  | step hwalk hlast ih => exact List.forall_mem_cons.mpr ⟨hstep _ _ _ hlast, ih⟩

/-! ## Walks without a vertex twice -/

theorem TimedWalk.suffix (h : TimedWalk Step s (front ++ v :: path) i) :
    ∃ j ≤ i, TimedWalk Step s (v :: path) j := by
  induction front generalizing i with
  | nil => exact ⟨i, le_rfl, h⟩
  | cons u front ih =>
      generalize hwhole : u :: front ++ v :: path = whole at h
      cases h with
      | start => simp at hwhole
      | step hwalk hstep =>
          rw [List.cons_append, List.cons.injEq] at hwhole
          rw [← hwhole.2] at hwalk
          obtain ⟨j, hj, hwalk⟩ := ih hwalk
          exact ⟨j, by omega, hwalk⟩

/-- Leaving out the rounds makes a walk neither longer nor dearer. -/
theorem TimedWalk.exists_nodup (h : TimedWalk Step s (v :: path) i) (hfee : ∀ v, 0 ≤ fee v) :
    ∃ path' j, TimedWalk Step s (v :: path') j ∧ (v :: path').Nodup ∧ j ≤ i ∧
      cost fee (v :: path') ≤ cost fee (v :: path) := by
  generalize hwhole : v :: path = whole at h
  induction h generalizing v path with
  | start =>
      obtain ⟨rfl, rfl⟩ := List.cons.inj hwhole
      exact ⟨[], 0, .start, List.nodup_singleton v, le_rfl, le_rfl⟩
  | @step w u path i t hwalk hstep ih =>
      obtain ⟨rfl, rfl⟩ := List.cons.inj hwhole
      obtain ⟨path', j, hwalk', hnodup, hj, hcost⟩ := ih rfl
      have hv := hfee v
      have hwhole : cost fee (v :: w :: path) = fee v + cost fee (w :: path) := cost_cons
      by_cases hmem : v ∈ w :: path'
      · obtain ⟨front, back, hsplit⟩ := List.append_of_mem hmem
        rw [hsplit] at hwalk' hnodup
        rw [hsplit, cost_append] at hcost
        obtain ⟨j', hj', hback⟩ := hwalk'.suffix
        have hfront := cost_nonneg hfee front
        refine ⟨back, j', hback, hnodup.sublist (List.sublist_append_right ..), by omega,
          by omega⟩
      · have hwhole' : cost fee (v :: w :: path') = fee v + cost fee (w :: path') := cost_cons
        exact ⟨w :: path', j + t, hwalk'.step hstep, List.nodup_cons.mpr ⟨hmem, hnodup⟩, by omega,
          by omega⟩

/-! ## The last step -/

/-- The least cost of the walks to `v` that take `k`, or `cap` if all cost more. -/
structure LeastCost (Step : V → Nat → V → Prop) (s : V) (fee : V → Int) (cap : Int) (k : Nat)
    (v : V) (b : Int) : Prop where
  le_cap : b ≤ cap
  walk : b < cap → ∃ path, TimedWalk Step s (v :: path) k ∧ cost fee (v :: path) = b
  least : ∀ path, TimedWalk Step s (v :: path) k → b ≤ cost fee (v :: path)

theorem LeastCost.nonneg (h : LeastCost Step s fee cap k v b) (hfee : ∀ v, 0 ≤ fee v)
    (hcap : 0 ≤ cap) : 0 ≤ b := by
  obtain hlt | hge := lt_or_ge b cap
  · obtain ⟨path, -, rfl⟩ := h.walk hlt
    exact cost_nonneg hfee _
  · exact hcap.trans hge

/-- The same for the walks whose last step is among `done`. -/
structure Settling (Step : V → Nat → V → Prop) (s : V) (fee : V → Int) (cap : Int)
    (done : Set (V × Nat × V)) (k : Nat) (v : V) (b : Int) : Prop where
  le_cap : b ≤ cap
  walk : b < cap → ∃ path, TimedWalk Step s (v :: path) k ∧ cost fee (v :: path) = b
  least : ∀ u t i path, (u, t, v) ∈ done → i + t = k → TimedWalk Step s (u :: path) i →
    b ≤ fee v + cost fee (u :: path)

variable {done : Set (V × Nat × V)}

theorem Settling.start : Settling Step s fee cap ∅ k v cap :=
  ⟨le_rfl, fun h => absurd h (lt_irrefl _), fun _ _ _ _ h => absurd h (Set.notMem_empty _)⟩

theorem Settling.leastCost (h : Settling Step s fee cap done k v b) (hk : 0 < k)
    (hdone : ∀ u t, Step u t v → (u, t, v) ∈ done) : LeastCost Step s fee cap k v b where
  le_cap := h.le_cap
  walk := h.walk
  least path hwalk := by
    generalize hwhole : v :: path = whole at hwalk
    cases hwalk with
    | start => exact absurd hk (lt_irrefl _)
    | step hwalk hstep =>
        obtain ⟨rfl, rfl⟩ := List.cons.inj hwhole
        rw [cost_cons]
        exact h.least _ _ _ _ (hdone _ _ hstep) rfl hwalk

/-- A step that ends elsewhere, or takes longer, changes nothing. -/
theorem Settling.insert_of_ne {x : V × Nat × V} (h : Settling Step s fee cap done k v b)
    (hx : x.2.2 = v → k < x.2.1) : Settling Step s fee cap (insert x done) k v b where
  le_cap := h.le_cap
  walk := h.walk
  least u t i path hmem hi hwalk := by
    obtain rfl | hmem := Set.mem_insert_iff.mp hmem
    · have hlong := hx rfl
      dsimp only at hlong
      omega
    · exact h.least u t i path hmem hi hwalk

theorem Settling.relax (h : Settling Step s fee cap done k v b)
    (hbefore : LeastCost Step s fee cap i u c) (hstep : Step u t v) (hk : i + t = k)
    (hfee : 0 ≤ fee v) :
    Settling Step s fee cap (insert (u, t, v) done) k v (min b (c + fee v)) where
  le_cap := (min_le_left _ _).trans h.le_cap
  walk hlt := by
    obtain hle | hgt := le_or_gt b (c + fee v)
    · rw [min_eq_left hle] at hlt ⊢
      exact h.walk hlt
    · rw [min_eq_right hgt.le] at hlt ⊢
      obtain ⟨path, hwalk, rfl⟩ := hbefore.walk (by omega)
      exact ⟨u :: path, hk ▸ hwalk.step hstep, by rw [cost_cons, add_comm]⟩
  least u' t' i' path hmem hi hwalk := by
    obtain heq | hmem := Set.mem_insert_iff.mp hmem
    · obtain ⟨rfl, rfl, -⟩ : u' = u ∧ t' = t ∧ v = v := by simpa using heq
      obtain rfl : i' = i := by omega
      have hleast := hbefore.least path hwalk
      exact (min_le_right _ _).trans (by omega)
    · exact (min_le_left _ _).trans (h.least u' t' i' path hmem hi hwalk)

end MoreCpp.Library
