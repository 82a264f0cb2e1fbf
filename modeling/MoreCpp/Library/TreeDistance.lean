import Mathlib.Combinatorics.SimpleGraph.Acyclic
import Mathlib.Combinatorics.SimpleGraph.Metric

/-!
Sums of distances in a tree. Each edge has two sides; moving the vertex that distances are
measured from along it changes the distance to every vertex by one.
-/

namespace MoreCpp.Library

open SimpleGraph

variable {V : Type*} {G : SimpleGraph V} {i j k r w : V}

theorem exists_closer (hG : G.Connected) (hne : i ≠ w) :
    ∃ j, G.Adj i j ∧ G.dist j w < G.dist i w := by
  obtain ⟨p, hp⟩ := hG.exists_walk_length_eq_dist i w
  cases p with
  | nil => exact absurd rfl hne
  | cons hadj q =>
      have hq := G.dist_le q
      rw [Walk.length_cons] at hp
      exact ⟨_, hadj, by omega⟩

theorem mem_support_of_closer (hG : G.IsTree) {p : G.Walk w i} (hp : p.IsPath) (hadj : G.Adj i j)
    (hless : G.dist j w < G.dist i w) : j ∈ p.support := by
  classical
  obtain ⟨q, hq, hlength⟩ := hG.connected.exists_path_of_dist w j
  apply hG.isAcyclic.mem_support_of_ne_mem_support_of_adj_of_isPath hp hq hadj
  intro hi
  have htake := (G.dist_le (q.takeUntil i hi)).trans (q.length_takeUntil_le_length hi)
  rw [hlength, G.dist_comm, G.dist_comm (u := w)] at htake
  omega

/-- Only one step leads closer. -/
theorem closer_unique (hG : G.IsTree) (hj : G.Adj i j) (hk : G.Adj i k)
    (hjw : G.dist j w < G.dist i w) (hkw : G.dist k w < G.dist i w) : j = k := by
  obtain ⟨p, hp, -⟩ := hG.connected.exists_path_of_dist w i
  have hstep : ∀ k, G.Adj i k → G.dist k w < G.dist i w → k = p.penultimate := fun k hk hkw =>
    hG.isAcyclic.eq_penultimate_of_adj_end hp hk (mem_support_of_closer hG hp hk hkw)
  rw [hstep j hj hjw, hstep k hk hkw]

theorem dist_cases (hG : G.IsTree) (hadj : G.Adj i j) (w : V) :
    G.dist i w = G.dist j w + 1 ∨ G.dist j w = G.dist i w + 1 := by
  rw [G.dist_comm, G.dist_comm (u := j)]
  exact hG.dist_eq_dist_add_one_of_adj w hadj

/-! ## Sides -/

section Sides

variable [Fintype V] (G)

/-- The vertices that `j` is closer to than `i`. -/
noncomputable def side (j i : V) : Finset V := {w | G.dist j w < G.dist i w}

/-- The vertices that `i` is closer to than `fa`, if there is one. -/
noncomputable def branch (fa : Option V) (i : V) : Finset V :=
  fa.elim Finset.univ fun fa => side G i fa

noncomputable def distSum (i : V) : Nat := ∑ w, G.dist i w

variable {G} {fa : Option V}

theorem mem_side : w ∈ side G j i ↔ G.dist j w < G.dist i w := by
  rw [side, Finset.mem_filter, and_iff_right (Finset.mem_univ w)]

theorem dist_of_mem_side (hG : G.IsTree) (hadj : G.Adj i j) (hw : w ∈ side G j i) :
    G.dist i w = G.dist j w + 1 := by
  have hless := mem_side.mp hw
  have hcases := dist_cases hG hadj w
  omega

theorem mem_branch_some {f : V} : w ∈ branch G (some f) i ↔ G.dist i w < G.dist f w := mem_side

theorem mem_branch_self (hG : G.Connected) (hfa : ∀ f ∈ fa, G.Adj i f) : i ∈ branch G fa i := by
  cases fa with
  | none => exact Finset.mem_univ i
  | some f =>
      rw [mem_branch_some, G.dist_self]
      exact hG.pos_dist_of_ne (hfa f rfl).ne.symm

theorem card_branch_pos (hG : G.Connected) (hfa : ∀ f ∈ fa, G.Adj i f) :
    0 < (branch G fa i).card := Finset.card_pos.mpr ⟨i, mem_branch_self hG hfa⟩

/-- Of the neighbours, `fa` alone leads out of the branch. -/
theorem side_subset_branch (hG : G.IsTree) (hfa : ∀ f ∈ fa, G.Adj i f) (hadj : G.Adj i j)
    (hne : some j ≠ fa) : side G j i ⊆ branch G fa i := by
  intro w hw
  cases fa with
  | none => exact Finset.mem_univ w
  | some f =>
      have hf := hfa f rfl
      have hcases := dist_cases hG hf w
      rw [mem_side] at hw
      rw [mem_branch_some]
      by_contra hout
      exact hne (congrArg some (closer_unique hG hadj hf hw (by omega)))

theorem not_mem_side_self : i ∉ side G j i := by
  rw [mem_side, G.dist_self]
  exact Nat.not_lt_zero _

theorem side_card_lt_branch (hG : G.IsTree) (hfa : ∀ f ∈ fa, G.Adj i f) (hadj : G.Adj i j)
    (hne : some j ≠ fa) : (side G j i).card < (branch G fa i).card := by
  apply Finset.card_lt_card
  rw [Finset.ssubset_iff_of_subset (side_subset_branch hG hfa hadj hne)]
  exact ⟨i, mem_branch_self hG.connected hfa, not_mem_side_self⟩

theorem side_disjoint (hG : G.IsTree) (hj : G.Adj i j) (hk : G.Adj i k) (hne : j ≠ k) :
    Disjoint (side G j i) (side G k i) := by
  rw [Finset.disjoint_left]
  intro w hw hw'
  exact hne (closer_unique hG hj hk (mem_side.mp hw) (mem_side.mp hw'))

/-- Over an edge, the distance to one side falls and that to the other grows. -/
theorem distSum_add (hG : G.IsTree) (hadj : G.Adj i j) :
    distSum G j + 2 * (side G j i).card = distSum G i + Fintype.card V := by
  classical
  have hstep : ∀ w, G.dist j w + (if w ∈ side G j i then 2 else 0) = G.dist i w + 1 := by
    intro w
    have hcases := dist_cases hG hadj w
    split
    case isTrue hw =>
      have hdist := dist_of_mem_side hG hadj hw
      omega
    case isFalse hw =>
      rw [mem_side] at hw
      omega
  have hsum := Finset.sum_congr (rfl : (Finset.univ : Finset V) = Finset.univ) fun w _ => hstep w
  rw [Finset.sum_add_distrib, Finset.sum_add_distrib, Finset.sum_ite_mem, Finset.univ_inter,
    Finset.sum_const, Finset.sum_const, smul_eq_mul, smul_eq_mul, mul_one] at hsum
  rw [distSum, distSum, ← Finset.card_univ]
  omega

end Sides

/-! ## Going down from a root -/

/-- `i` is entered from its neighbour closer to the root, or is the root. -/
structure Entered (G : SimpleGraph V) (r : V) (fa : Option V) (i : V) : Prop where
  adj : ∀ f ∈ fa, G.Adj i f
  closer : ∀ f ∈ fa, G.dist f r < G.dist i r
  root : fa = none → i = r

namespace Entered

variable {fa : Option V}

theorem start : Entered G r none r := ⟨nofun, nofun, fun _ => rfl⟩

theorem eq_of_closer (h : Entered G r fa i) (hG : G.IsTree) (hadj : G.Adj i j)
    (hless : G.dist j r < G.dist i r) : some j = fa := by
  cases fa with
  | none =>
      rw [h.root rfl, G.dist_self] at hless
      exact absurd hless (Nat.not_lt_zero _)
  | some f => rw [closer_unique hG hadj (h.adj f rfl) hless (h.closer f rfl)]

theorem child (h : Entered G r fa i) (hG : G.IsTree) (hadj : G.Adj i j) (hne : some j ≠ fa) :
    Entered G r (some i) j := by
  have hless : G.dist i r < G.dist j r := by
    rcases dist_cases hG hadj r with hup | hdown
    · exact absurd (h.eq_of_closer hG hadj (by omega)) hne
    · omega
  refine ⟨?_, ?_, nofun⟩
  · rintro _ ⟨⟩
    exact hadj.symm
  · rintro _ ⟨⟩
    exact hless

end Entered

/-! ## Visiting the neighbours -/

section Reached

variable [Fintype V] [DecidableEq V] {fa : Option V} {seen : List V}

/-- What lies behind `i` and the neighbours visited. -/
noncomputable def reached (G : SimpleGraph V) (fa : Option V) (i : V) (seen : List V) : Finset V :=
  insert i ((Finset.univ : Finset V).filter fun w => ∃ j ∈ seen, some j ≠ fa ∧ w ∈ side G j i)

theorem mem_reached : w ∈ reached G fa i seen ↔
    w = i ∨ ∃ j ∈ seen, some j ≠ fa ∧ w ∈ side G j i := by
  rw [reached, Finset.mem_insert, Finset.mem_filter, and_iff_right (Finset.mem_univ w)]

theorem reached_nil : reached G fa i [] = {i} := by
  ext w
  simp [mem_reached]

theorem reached_skip (hj : some j = fa) : reached G fa i (seen ++ [j]) = reached G fa i seen := by
  ext w
  simp [mem_reached, or_and_right, exists_or, hj]

theorem reached_visit (hj : some j ≠ fa) :
    reached G fa i (seen ++ [j]) = reached G fa i seen ∪ side G j i := by
  ext w
  simp [mem_reached, or_and_right, exists_or, hj, or_assoc]

theorem reached_disjoint (hG : G.IsTree) (hseen : ∀ k ∈ seen, G.Adj i k) (hadj : G.Adj i j)
    (hj : j ∉ seen) : Disjoint (reached G fa i seen) (side G j i) := by
  rw [Finset.disjoint_left]
  intro w hw hw'
  rcases mem_reached.mp hw with rfl | ⟨k, hk, -, hkw⟩
  · exact not_mem_side_self hw'
  · have hne : k ≠ j := fun heq => hj (heq ▸ hk)
    exact Finset.disjoint_left.mp (side_disjoint hG (hseen k hk) hadj hne) hkw hw'

theorem reached_subset (hG : G.IsTree) (hfa : ∀ f ∈ fa, G.Adj i f)
    (hseen : ∀ j ∈ seen, G.Adj i j) : reached G fa i seen ⊆ branch G fa i := by
  intro w hw
  rcases mem_reached.mp hw with rfl | ⟨j, hj, hne, hw⟩
  · exact mem_branch_self hG.connected hfa
  · exact side_subset_branch hG hfa (hseen j hj) hne hw

/-- With all neighbours visited the branch is done. -/
theorem reached_all (hG : G.IsTree) (hfa : ∀ f ∈ fa, G.Adj i f)
    (hall : ∀ j, j ∈ seen ↔ G.Adj i j) : reached G fa i seen = branch G fa i := by
  apply (reached_subset hG hfa fun j hj => (hall j).mp hj).antisymm
  intro w hw
  rw [mem_reached]
  by_cases hself : w = i
  · exact .inl hself
  · obtain ⟨j, hadj, hless⟩ := exists_closer hG.connected (Ne.symm hself)
    refine .inr ⟨j, (hall j).mpr hadj, ?_, mem_side.mpr hless⟩
    rintro rfl
    have hback := mem_branch_some.mp hw
    omega

end Reached

end MoreCpp.Library
