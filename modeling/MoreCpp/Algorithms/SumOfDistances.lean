import MoreCpp.Library.Loop
import MoreCpp.Library.SignedInt
import MoreCpp.Library.TreeDistance
import Mathlib.Algebra.BigOperators.Intervals
import Mathlib.Combinatorics.SimpleGraph.Hasse

/-!
`sum_of_distances_in_tree` of `algorithms/trees/trees.cpp`. A sum that overflows an `int`
gives `none`, and so does a recursion that runs out of fuel.
-/

namespace MoreCpp

open Library

namespace SumOfDistances

variable {n : Nat}

/-- `g`, row by row. -/
def adjacency (edges : List (Fin n × Fin n)) : Fin n → List (Fin n) :=
  edges.foldl (fun g e =>
    let g := Function.update g e.1 (g e.1 ++ [e.2])
    Function.update g e.2 (g e.2 ++ [e.1])) fun _ => []

/-- A turn of the loop of `dfs1`, with `ans` and `size` before and after. -/
def countTurn (i : Fin n) (fa : Option (Fin n)) (d : Int)
    (dfs1 : Fin n → Int → (Fin n → Int) × (Fin n → Int) →
      Option ((Fin n → Int) × (Fin n → Int)))
    (state : (Fin n → Int) × (Fin n → Int)) (j : Fin n) :
    Option ((Fin n → Int) × (Fin n → Int)) :=
  if some j ≠ fa then do
    let next ← signed 32 (d + 1)
    let (ans, size) ← dfs1 j next state
    let sum ← signed 32 (size i + size j)
    return (ans, Function.update size i sum)
  else some state

/-- A turn of the loop of `dfs2`, with `ans` before and after. -/
def rerootTurn (size : Fin n → Int) (fa : Option (Fin n)) (t : Int)
    (dfs2 : Fin n → Int → (Fin n → Int) → Option (Fin n → Int)) (ans : Fin n → Int)
    (j : Fin n) : Option (Fin n → Int) :=
  if some j ≠ fa then do
    let less ← signed 32 (t - size j)
    let more ← signed 32 (less + n)
    let next ← signed 32 (more - size j)
    dfs2 j next ans
  else some ans

section Model

variable [NeZero n] (g : Fin n → List (Fin n))

/-- `fa` is none for -1. -/
def dfs1 : Nat → Fin n → Option (Fin n) → Int → (Fin n → Int) × (Fin n → Int) →
    Option ((Fin n → Int) × (Fin n → Int))
  | 0, _, _, _, _ => none
  | fuel + 1, i, fa, d, (ans, size) => do
    let first ← signed 32 (ans 0 + d)
    (g i).foldlM (countTurn i fa d fun j next state => dfs1 fuel j (some i) next state)
      (Function.update ans 0 first, Function.update size i 1)

def dfs2 (size : Fin n → Int) : Nat → Fin n → Option (Fin n) → Int → (Fin n → Int) →
    Option (Fin n → Int)
  | 0, _, _, _, _ => none
  | fuel + 1, i, fa, t, ans =>
    (g i).foldlM (rerootTurn size fa t fun j next ans => dfs2 size fuel j (some i) next ans)
      (Function.update ans i t)

def sumOfDistancesInTree (fuel : Nat) (edges : List (Fin n × Fin n)) :
    Option (Fin n → Int) := do
  let g := adjacency edges
  let (ans, size) ← dfs1 g fuel 0 none 0 (fun _ => 0, fun _ => 0)
  dfs2 g size fuel 0 none (ans 0) ans

end Model

/-! ## Edge lists -/

def edgeOf (e : Fin n × Fin n) : Sym2 (Fin n) := s(e.1, e.2)

def graph (edges : List (Fin n × Fin n)) : SimpleGraph (Fin n) :=
  SimpleGraph.fromEdgeSet {e | e ∈ edges.map edgeOf}

/-- The edges of a tree, in any order and each either way round. -/
structure FormsTree (edges : List (Fin n × Fin n)) : Prop where
  tree : (graph edges).IsTree
  count : edges.length + 1 = n

variable {edges : List (Fin n × Fin n)} {e : Fin n × Fin n} {i j : Fin n}

theorem graph_adj : (graph edges).Adj i j ↔ s(i, j) ∈ edges.map edgeOf ∧ i ≠ j :=
  SimpleGraph.fromEdgeSet_adj ..

theorem edgeSet_subset :
    (graph edges).edgeSet ⊆ ((edges.map edgeOf).toFinset : Set (Sym2 (Fin n))) := by
  rw [graph, SimpleGraph.edgeSet_fromEdgeSet]
  intro e he
  simpa using he.1

theorem ncard_edgeSet_le : (graph edges).edgeSet.ncard ≤ (edges.map edgeOf).toFinset.card := by
  rw [← Set.ncard_coe_finset]
  exact Set.ncard_le_ncard edgeSet_subset

theorem formsTree_of_connected (hconnected : (graph edges).Connected)
    (hcount : edges.length + 1 = n) : FormsTree edges := by
  refine ⟨SimpleGraph.isTree_iff_connected_and_card.mpr ⟨hconnected, ?_⟩, hcount⟩
  have hmost : (graph edges).edgeSet.ncard ≤ (edges.map edgeOf).toFinset.card :=
    ncard_edgeSet_le
  have hless := (edges.map edgeOf).toFinset_card_le
  have hleast := hconnected.card_vert_le_card_edgeSet_add_one
  rw [List.length_map] at hless
  rw [Nat.card_coe_set_eq, Nat.card_eq_fintype_card, Fintype.card_fin] at *
  omega

namespace FormsTree

theorem ncard_edgeSet (h : FormsTree edges) : (graph edges).edgeSet.ncard = edges.length := by
  have hcard := (SimpleGraph.isTree_iff_connected_and_card.mp h.tree).2
  have hcount := h.count
  rw [Nat.card_coe_set_eq, Nat.card_eq_fintype_card, Fintype.card_fin] at hcard
  omega

theorem card_toFinset (h : FormsTree edges) :
    (edges.map edgeOf).toFinset.card = (edges.map edgeOf).length := by
  apply Nat.le_antisymm (List.toFinset_card_le _)
  rw [List.length_map, ← h.ncard_edgeSet]
  exact ncard_edgeSet_le

/-- No edge occurs twice. -/
theorem nodup (h : FormsTree edges) : (edges.map edgeOf).Nodup :=
  Multiset.coe_nodup.mp (Multiset.toFinset_card_eq_card_iff_nodup.mp h.card_toFinset)

/-- No edge leads from a vertex to itself. -/
theorem loopless (h : FormsTree edges) (he : e ∈ edges) : e.1 ≠ e.2 := by
  have hsame : (graph edges).edgeSet = ((edges.map edgeOf).toFinset : Set (Sym2 (Fin n))) := by
    apply Set.eq_of_subset_of_ncard_le edgeSet_subset
    rw [Set.ncard_coe_finset, h.card_toFinset, h.ncard_edgeSet, List.length_map]
  have hedge : edgeOf e ∈ (graph edges).edgeSet := by
    rw [hsame, Finset.mem_coe, List.mem_toFinset]
    exact List.mem_map_of_mem he
  exact (SimpleGraph.mem_edgeSet _).mp hedge |>.ne

end FormsTree

/-- The row of `i` lists its neighbours once each. -/
structure ListsNeighbours (edges : List (Fin n × Fin n)) (i : Fin n) : Prop where
  nodup : (adjacency edges i).Nodup
  mem_iff : ∀ j, j ∈ adjacency edges i ↔ s(i, j) ∈ edges.map edgeOf

/-- What an edge adds to the row of `i`. -/
def added (e : Fin n × Fin n) (i : Fin n) : List (Fin n) :=
  if i = e.1 then [e.2] else if i = e.2 then [e.1] else []

theorem nodup_added (e : Fin n × Fin n) (i : Fin n) : (added e i).Nodup := by
  unfold added
  split_ifs <;> simp

theorem mem_added : j ∈ added e i ↔ s(i, j) = edgeOf e := by
  unfold added edgeOf
  obtain rfl | hfirst := eq_or_ne i e.1
  · rw [if_pos rfl, Sym2.congr_right, List.mem_singleton]
  · obtain rfl | hsecond := eq_or_ne i e.2
    · rw [if_neg hfirst, if_pos rfl, Sym2.eq_swap, Sym2.congr_left, List.mem_singleton]
    · rw [if_neg hfirst, if_neg hsecond, Sym2.eq_iff]
      simp [hfirst, hsecond]

theorem adjacency_concat (edges : List (Fin n × Fin n)) (hne : e.1 ≠ e.2) (i : Fin n) :
    adjacency (edges ++ [e]) i = adjacency edges i ++ added e i := by
  unfold adjacency added
  rw [List.foldl_append, List.foldl_cons, List.foldl_nil]
  obtain rfl | hfirst := eq_or_ne i e.1
  · simp [Function.update_of_ne hne]
  · obtain rfl | hsecond := eq_or_ne i e.2
    · simp [hfirst]
    · simp [hfirst, hsecond]

theorem listsNeighbours (hnodup : (edges.map edgeOf).Nodup)
    (hloopless : ∀ e ∈ edges, e.1 ≠ e.2) (i : Fin n) : ListsNeighbours edges i := by
  induction edges using List.reverseRecOn with
  | nil => exact ⟨List.nodup_nil, by simp [adjacency]⟩
  | append_singleton edges e ih =>
      rw [List.map_append, List.map_singleton, List.nodup_append_comm] at hnodup
      obtain ⟨hnew, hnodup⟩ := List.nodup_cons.mp hnodup
      obtain ⟨hrow, hmem⟩ := ih hnodup fun e he => hloopless e (List.mem_append_left _ he)
      have hconcat := adjacency_concat edges (hloopless e (by simp)) i
      constructor
      case nodup =>
        rw [hconcat]
        refine List.nodup_append'.mpr ⟨hrow, nodup_added e i, fun j hold hadded => hnew ?_⟩
        rw [← mem_added.mp hadded]
        exact (hmem j).mp hold
      case mem_iff =>
        intro j
        rw [hconcat, List.mem_append, hmem, mem_added, List.map_append, List.mem_append,
          List.map_singleton, List.mem_singleton]

theorem FormsTree.mem_adjacency (h : FormsTree edges) :
    j ∈ adjacency edges i ↔ (graph edges).Adj i j := by
  have hrow := listsNeighbours h.nodup (fun e he => h.loopless he) i
  rw [hrow.mem_iff, graph_adj]
  constructor
  · intro hedge
    obtain ⟨e, he, heq⟩ := List.mem_map.mp hedge
    refine ⟨hedge, fun hsame => h.loopless he ?_⟩
    rcases Sym2.eq_iff.mp heq with ⟨hi, hj⟩ | ⟨hj, hi⟩
    · rw [hi, hj, hsame]
    · rw [hi, hj, hsame]
  · exact And.left

/-! ## The first traversal -/

/-- `g` has the rows of a tree. -/
structure Rows (G : SimpleGraph (Fin n)) (g : Fin n → List (Fin n)) : Prop where
  tree : G.IsTree
  nodup : ∀ i, (g i).Nodup
  mem_iff : ∀ i j, j ∈ g i ↔ G.Adj i j

theorem Rows.split {G : SimpleGraph (Fin n)} {g : Fin n → List (Fin n)} {seen rest : List (Fin n)}
    (h : Rows G g) (hrow : g i = seen ++ j :: rest) :
    G.Adj i j ∧ j ∉ seen ∧ ∀ k ∈ seen, G.Adj i k := by
  have hnodup := h.nodup i
  rw [hrow, List.nodup_middle, List.nodup_cons, List.mem_append, not_or] at hnodup
  refine ⟨(h.mem_iff i j).mp (by simp [hrow]), hnodup.1.1, fun k hk => (h.mem_iff i k).mp ?_⟩
  rw [hrow]
  exact List.mem_append_left _ hk

/-- `size` counts the vertices behind `v`, as seen from the neighbour closer to the root. -/
def Sized (G : SimpleGraph (Fin n)) (r : Fin n) (size : Fin n → Int) (v : Fin n) : Prop :=
  ∀ u, G.Adj v u → G.dist u r < G.dist v r → size v = (side G v u).card

/-- What is added to `ans[0]` for the vertices of a region, when `i` has depth `d`. -/
noncomputable def total (G : SimpleGraph (Fin n)) (d : Nat) (i : Fin n)
    (region : Finset (Fin n)) : Nat := ∑ w ∈ region, (d + G.dist i w)

variable {G : SimpleGraph (Fin n)} {g : Fin n → List (Fin n)} {r : Fin n} {fa : Option (Fin n)}
  {region : Finset (Fin n)} {seen rest : List (Fin n)} {a d fuel : Nat}
  {ans size : Fin n → Int}

theorem total_singleton : total G d i {i} = d := by
  rw [total, Finset.sum_singleton, G.dist_self, Nat.add_zero]

/-- Behind a neighbour the depth is one more, and the distance from there one less. -/
theorem total_union (hG : G.IsTree) (hadj : G.Adj i j) (hdisjoint : Disjoint region (side G j i)) :
    total G d i (region ∪ side G j i) = total G d i region + total G (d + 1) j (side G j i) := by
  unfold total
  rw [Finset.sum_union hdisjoint]
  congr 1
  refine Finset.sum_congr rfl fun w hw => ?_
  rw [dist_of_mem_side hG hadj hw]
  omega

theorem total_mono {region' : Finset (Fin n)} (h : region ⊆ region') :
    total G d i region ≤ total G d i region' := Finset.sum_le_sum_of_subset h

theorem le_total (hi : i ∈ region) : d ≤ total G d i region := by
  have hterm := Finset.single_le_sum (f := fun w => d + G.dist i w) (fun _ _ => Nat.zero_le _) hi
  exact (Nat.le_add_right d (G.dist i i)).trans hterm

/-- What holds after some turns of the loop of `dfs1`. -/
structure Visited (G : SimpleGraph (Fin n)) (r : Fin n) (fa : Option (Fin n)) (i : Fin n)
    [NeZero n] (a d : Nat) (ans size : Fin n → Int) (seen : List (Fin n))
    (state : (Fin n → Int) × (Fin n → Int)) : Prop where
  ans : state.1 = Function.update ans 0 ((a + total G d i (reached G fa i seen) : Nat) : Int)
  here : state.2 i = (reached G fa i seen).card
  below : ∀ v ∈ reached G fa i seen, v ≠ i → Sized G r state.2 v
  frame : ∀ v, v ∉ reached G fa i seen → state.2 v = size v

section Runs

variable [NeZero n]

/-- What a call of `dfs1` does. -/
def Counts (G : SimpleGraph (Fin n)) (r : Fin n) (fa : Option (Fin n)) (i : Fin n) (a d : Nat)
    (ans size : Fin n → Int) (result : Option ((Fin n → Int) × (Fin n → Int))) : Prop :=
  ∃ size', result =
      some (Function.update ans 0 ((a + total G d i (branch G fa i) : Nat) : Int), size') ∧
    (∀ v ∈ branch G fa i, Sized G r size' v) ∧ ∀ v, v ∉ branch G fa i → size' v = size v

theorem visited_start : Visited G r fa i a d ans size []
    (Function.update ans 0 ((a + d : Nat) : Int), Function.update size i 1) := by
  refine ⟨?_, ?_, ?_, ?_⟩
  · rw [reached_nil, total_singleton]
  · rw [reached_nil, Finset.card_singleton]
    exact Function.update_self ..
  · intro v hv hne
    rw [reached_nil, Finset.mem_singleton] at hv
    exact absurd hv hne
  · intro v hv
    rw [reached_nil, Finset.mem_singleton] at hv
    exact Function.update_of_ne hv ..

theorem Visited.turn {state : (Fin n → Int) × (Fin n → Int)}
    {dfs1 : Fin n → Int → (Fin n → Int) × (Fin n → Int) →
      Option ((Fin n → Int) × (Fin n → Int))} (hG : G.IsTree) (hn : n < 2 ^ 31)
    (h : Visited G r fa i a d ans size seen state) (hentered : Entered G r fa i)
    (hseen : ∀ k ∈ seen, G.Adj i k) (hadj : G.Adj i j) (hj : j ∉ seen) (hne : some j ≠ fa)
    (hchild : Counts G r (some i) j (a + total G d i (reached G fa i seen)) (d + 1) state.1 state.2
      (dfs1 j (d + 1 : Nat) state)) (hd : d + 1 < 2 ^ 31) :
    ∃ state', countTurn i fa d dfs1 state j = some state' ∧
      Visited G r fa i a d ans size (seen ++ [j]) state' := by
  obtain ⟨size', hcall, hsized, hframe⟩ := hchild
  have hdisjoint : Disjoint (reached G fa i seen) (side G j i) :=
    reached_disjoint hG hseen hadj hj
  have hregion : reached G fa i (seen ++ [j]) = reached G fa i seen ∪ side G j i :=
    reached_visit hne
  have hclose := (hentered.child hG hadj hne).closer i rfl
  have hhere : size' i = (reached G fa i seen).card := by
    rw [hframe i not_mem_side_self, h.here]
  have hbelow : size' j = (side G j i).card :=
    hsized j (mem_branch_self hG.connected (hentered.child hG hadj hne).adj) i hadj.symm hclose
  have hcard : size' i + size' j = (reached G fa i (seen ++ [j])).card := by
    rw [hregion, Finset.card_union_of_disjoint hdisjoint, hhere, hbelow, Nat.cast_add]
  have hfits := card_finset_fin_le (reached G fa i (seen ++ [j]))
  have hsum : signed 32 (size' i + size' j) = some ((reached G fa i (seen ++ [j])).card : Int) := by
    rw [hcard]
    exact signed_eq (by omega) (by omega)
  have hans : Function.update state.1 0 ((a + total G d i (reached G fa i seen) +
      total G (d + 1) j (branch G (some i) j) : Nat) : Int) =
      Function.update ans 0 ((a + total G d i (reached G fa i (seen ++ [j])) : Nat) : Int) := by
    rw [h.ans, Function.update_idem, hregion, total_union hG hadj hdisjoint, Nat.add_assoc]
    rfl
  refine ⟨(Function.update ans 0 ((a + total G d i (reached G fa i (seen ++ [j])) : Nat) : Int),
    Function.update size' i (reached G fa i (seen ++ [j])).card), ?_, rfl,
    Function.update_self .., ?_, ?_⟩
  · have hnext : signed 32 ((d : Int) + 1) = some ((d + 1 : Nat) : Int) :=
      signed_eq (by omega) (by omega)
    rw [countTurn, if_pos hne, hnext, ← hans, Option.bind_eq_bind, Option.bind_some, hcall]
    simp only [hsum, Option.bind_eq_bind, Option.bind_some]
    rfl
  · intro v hv hvi u hadj' hless
    dsimp only
    rw [hregion, Finset.mem_union] at hv
    rw [Function.update_of_ne hvi]
    rcases hv with hv | hv
    · rw [hframe v (Finset.disjoint_left.mp hdisjoint hv)]
      exact h.below v hv hvi u hadj' hless
    · exact hsized v hv u hadj' hless
  · intro v hv
    dsimp only
    rw [hregion, Finset.mem_union, not_or] at hv
    have hvi : v ≠ i := fun heq => hv.1 (mem_reached.mpr (.inl heq))
    rw [Function.update_of_ne hvi, hframe v hv.2, h.frame v hv.1]

theorem Visited.skip {state : (Fin n → Int) × (Fin n → Int)}
    (h : Visited G r fa i a d ans size seen state) (hj : some j = fa) :
    Visited G r fa i a d ans size (seen ++ [j]) state := by
  obtain ⟨hans, hhere, hbelow, hframe⟩ := h
  rw [← reached_skip hj] at hans hhere hbelow hframe
  exact ⟨hans, hhere, hbelow, hframe⟩

/-- The branch of a vertex, once all its neighbours are visited. -/
theorem Visited.counts {state : (Fin n → Int) × (Fin n → Int)} (hrows : Rows G g)
    (h : Visited G r fa i a d ans size (g i) state) (hentered : Entered G r fa i) :
    Counts G r fa i a d ans size (some state) := by
  have hall := reached_all hrows.tree hentered.adj (hrows.mem_iff i)
  obtain ⟨hans, hhere, hbelow, hframe⟩ := h
  rw [hall] at hans hhere hbelow hframe
  refine ⟨state.2, congrArg some (Prod.ext hans rfl), fun v hv => ?_, hframe⟩
  obtain rfl | hne := eq_or_ne v i
  · intro u hadj hless
    rw [hhere, ← hentered.eq_of_closer hrows.tree hadj hless]
    rfl
  · exact hbelow v hv hne

/-- A call of `dfs1` finds the sizes in its branch, and adds the depths there. -/
theorem dfs1_spec (hrows : Rows G g) (hn : n < 2 ^ 31) (hentered : Entered G r fa i)
    (hfuel : (branch G fa i).card ≤ fuel) (ha : ans 0 = a)
    (hfits : a + total G d i (branch G fa i) < 2 ^ 31) :
    Counts G r fa i a d ans size (dfs1 g fuel i fa d (ans, size)) := by
  have hG := hrows.tree
  induction fuel generalizing fa i a d ans size with
  | zero =>
      have hpos := card_branch_pos hG.connected hentered.adj
      omega
  | succ fuel ih =>
      have hd : d ≤ total G d i (branch G fa i) :=
        le_total (mem_branch_self hG.connected hentered.adj)
      have hfirst : signed 32 (ans 0 + d) = some ((a + d : Nat) : Int) := by
        rw [ha]
        exact signed_eq (by omega) (by omega)
      have hturn : ∀ seen j rest state, g i = seen ++ j :: rest →
          Visited G r fa i a d ans size seen state →
          ∃ state', countTurn i fa d (fun j next state => dfs1 g fuel j (some i) next state)
            state j = some state' ∧ Visited G r fa i a d ans size (seen ++ [j]) state' := by
        intro seen j rest state hrow hvisited
        by_cases hne : some j = fa
        · exact ⟨state, if_neg (not_not_intro hne), hvisited.skip hne⟩
        · obtain ⟨hadj, hj, hseen⟩ := hrows.split hrow
          have hregion : reached G fa i (seen ++ [j]) ⊆ branch G fa i := by
            apply reached_subset hG hentered.adj
            intro k hk
            rcases List.mem_append.mp hk with hk | hk
            · exact hseen k hk
            · rwa [List.mem_singleton.mp hk]
          have htotal := total_mono (G := G) (i := i) (d := d) hregion
          rw [reached_visit hne, total_union hG hadj (reached_disjoint hG hseen hadj hj)] at htotal
          have hentered' := hentered.child hG hadj hne
          have hdeep : d + 1 ≤ total G (d + 1) j (side G j i) :=
            le_total (mem_branch_self hG.connected hentered'.adj)
          have hsmaller := side_card_lt_branch hG hentered.adj hadj hne
          have hhere : state.1 0 = ((a + total G d i (reached G fa i seen) : Nat) : Int) := by
            rw [hvisited.ans, Function.update_self]
          have hless : a + total G d i (reached G fa i seen) +
              total G (d + 1) j (branch G (some i) j) < 2 ^ 31 := by
            have hsame : branch G (some i) j = side G j i := rfl
            rw [hsame]
            omega
          have hcall : Counts G r (some i) j (a + total G d i (reached G fa i seen)) (d + 1) state.1
              state.2 (dfs1 g fuel j (some i) (d + 1 : Nat) state) :=
            ih hentered' (Nat.le_of_lt_succ (hsmaller.trans_le hfuel)) hhere hless
          exact hvisited.turn hG hn hentered hseen hadj hj hne hcall (by omega)
      obtain ⟨state, hrun, hvisited⟩ :=
        foldlM_rule (Visited G r fa i a d ans size) visited_start hturn
      rw [dfs1, hfirst, Option.bind_eq_bind, Option.bind_some, hrun]
      exact hvisited.counts hrows hentered

end Runs

/-! ## The second traversal -/

/-- The sums are right in a region, and elsewhere `ans` is as before. -/
structure Rerooted (G : SimpleGraph (Fin n)) (region : Finset (Fin n))
    (ans ans' : Fin n → Int) : Prop where
  inside : ∀ v ∈ region, ans' v = (distSum G v : Int)
  frame : ∀ v, v ∉ region → ans' v = ans v

theorem Rerooted.start : Rerooted G {i} ans (Function.update ans i (distSum G i)) := by
  constructor
  case inside =>
    intro v hv
    rw [Finset.mem_singleton.mp hv, Function.update_self]
  case frame =>
    intro v hv
    exact Function.update_of_ne (fun heq => hv (Finset.mem_singleton.mpr heq)) ..

theorem Rerooted.union {region' : Finset (Fin n)} {ans' ans'' : Fin n → Int}
    (h : Rerooted G region ans ans') (h' : Rerooted G region' ans' ans'') :
    Rerooted G (region ∪ region') ans ans'' := by
  constructor
  case inside =>
    intro v hv
    by_cases hlast : v ∈ region'
    · exact h'.inside v hlast
    · rw [h'.frame v hlast]
      exact h.inside v ((Finset.mem_union.mp hv).resolve_right hlast)
  case frame =>
    intro v hv
    rw [Finset.mem_union, not_or] at hv
    rw [h'.frame v hv.2, h.frame v hv.1]

/-- The sums that go through an `int` on the way from a vertex to the next one down. -/
structure Fits (G : SimpleGraph (Fin n)) (r : Fin n) : Prop where
  vertices : n < 2 ^ 31
  root : distSum G r < 2 ^ 31
  child : ∀ i j, G.Adj i j → G.dist i r < G.dist j r →
    distSum G j + (side G j i).card < 2 ^ 31

/-- The sum for a neighbour, from that of `i`. -/
theorem rerootTurn_eq {dfs2 : Fin n → Int → (Fin n → Int) → Option (Fin n → Int)}
    (hG : G.IsTree) (hfits : Fits G r) (hsized : ∀ v, Sized G r size v)
    (hadj : G.Adj i j) (hless : G.dist i r < G.dist j r) (hne : some j ≠ fa)
    (hi : distSum G i < 2 ^ 31) :
    rerootTurn size fa (distSum G i) dfs2 ans j = dfs2 j (distSum G j) ans := by
  have hn := hfits.vertices
  have hchild := hfits.child i j hadj hless
  have hsum := distSum_add hG hadj
  rw [Fintype.card_fin] at hsum
  have hcard := card_finset_fin_le (side G j i)
  have hsize := hsized j i hadj.symm hless
  have hfirst : signed 32 (distSum G i - size j) = some (distSum G i - size j) :=
    signed_eq (by omega) (by omega)
  have hsecond : signed 32 (distSum G i - size j + n) = some (distSum G i - size j + n) :=
    signed_eq (by omega) (by omega)
  have hnext : distSum G i - size j + n - size j = (distSum G j : Int) := by omega
  have hthird : signed 32 (distSum G i - size j + n - size j) = some (distSum G j : Int) := by
    rw [hnext]
    exact signed_eq (by omega) (by omega)
  rw [rerootTurn, if_pos hne, hfirst, Option.bind_eq_bind, Option.bind_some, hsecond,
    Option.bind_some, hthird]
  rfl

/-- A call of `dfs2` finds the sums in its branch. -/
theorem dfs2_spec (hrows : Rows G g) (hfits : Fits G r) (hsized : ∀ v, Sized G r size v)
    (hentered : Entered G r fa i) (hfuel : (branch G fa i).card ≤ fuel)
    (hi : distSum G i < 2 ^ 31) :
    ∃ ans', dfs2 g size fuel i fa (distSum G i) ans = some ans' ∧
      Rerooted G (branch G fa i) ans ans' := by
  have hG := hrows.tree
  induction fuel generalizing fa i ans with
  | zero =>
      have hpos := card_branch_pos hG.connected hentered.adj
      omega
  | succ fuel ih =>
      have hstart : Rerooted G (reached G fa i []) ans (Function.update ans i (distSum G i)) := by
        rw [reached_nil]
        exact .start
      have hturn : ∀ seen j rest ans', g i = seen ++ j :: rest →
          Rerooted G (reached G fa i seen) ans ans' →
          ∃ ans'', rerootTurn size fa (distSum G i)
            (fun j next ans => dfs2 g size fuel j (some i) next ans) ans' j = some ans'' ∧
            Rerooted G (reached G fa i (seen ++ [j])) ans ans'' := by
        intro seen j rest ans' hrow hrerooted
        by_cases hne : some j = fa
        · rw [reached_skip hne]
          exact ⟨ans', if_neg (not_not_intro hne), hrerooted⟩
        · obtain ⟨hadj, -, -⟩ := hrows.split hrow
          have hentered' := hentered.child hG hadj hne
          have hless := hentered'.closer i rfl
          have hsmaller := side_card_lt_branch hG hentered.adj hadj hne
          have hnext : distSum G j < 2 ^ 31 :=
            (Nat.le_add_right _ _).trans_lt (hfits.child i j hadj hless)
          obtain ⟨ans'', hcall, hrerooted'⟩ :
              ∃ ans'', dfs2 g size fuel j (some i) (distSum G j) ans' = some ans'' ∧
                Rerooted G (branch G (some i) j) ans' ans'' :=
            ih hentered' (Nat.le_of_lt_succ (hsmaller.trans_le hfuel)) hnext
          refine ⟨ans'', ?_, ?_⟩
          · rw [rerootTurn_eq hG hfits hsized hadj hless hne hi]
            exact hcall
          · rw [reached_visit hne]
            exact hrerooted.union hrerooted'
      obtain ⟨ans', hrun, hrerooted⟩ :=
        foldlM_rule (fun seen => Rerooted G (reached G fa i seen) ans) hstart hturn
      rw [reached_all hG hentered.adj (hrows.mem_iff i)] at hrerooted
      exact ⟨ans', hrun, hrerooted⟩

theorem FormsTree.rows (h : FormsTree edges) : Rows (graph edges) (adjacency edges) :=
  ⟨h.tree, fun i => (listsNeighbours h.nodup (fun _ he => h.loopless he) i).nodup,
    fun _ _ => h.mem_adjacency⟩

/-! ## Overflow -/

/-- The sums in `ans` are those of an `int`. -/
def Small (ans : Fin n → Int) : Prop := ∀ v, ans v < 2 ^ 31

theorem Small.update {t : Int} (h : Small ans) (ht : t < 2 ^ 31) (i : Fin n) :
    Small (Function.update ans i t) := by
  intro v
  obtain rfl | hne := eq_or_ne v i
  · rwa [Function.update_self]
  · rw [Function.update_of_ne hne]
    exact h v

theorem dfs1_small [NeZero n] {fa : Option (Fin n)} {d : Int}
    {state state' : (Fin n → Int) × (Fin n → Int)} (h : Small state.1)
    (hrun : dfs1 g fuel i fa d state = some state') : Small state'.1 := by
  induction fuel generalizing i fa d state state' with
  | zero => cases hrun
  | succ fuel ih =>
      obtain ⟨first, hfirst, hloop⟩ := Option.bind_eq_some_iff.mp hrun
      refine foldlM_invariant (fun state => Small state.1) ?_ (h.update (of_signed hfirst).2 0)
        hloop
      intro mid j mid' hmid hturn
      unfold countTurn at hturn
      split at hturn
      case isTrue =>
        obtain ⟨next, -, hturn⟩ := Option.bind_eq_some_iff.mp hturn
        obtain ⟨⟨ans, size⟩, hcall, hturn⟩ := Option.bind_eq_some_iff.mp hturn
        obtain ⟨sum, -, hturn⟩ := Option.bind_eq_some_iff.mp hturn
        obtain rfl := Option.some.inj hturn
        have hsmall : Small ans := ih hmid hcall
        exact hsmall
      case isFalse =>
        obtain rfl := Option.some.inj hturn
        exact hmid

theorem dfs2_small {fa : Option (Fin n)} {t : Int} {ans ans' : Fin n → Int} (h : Small ans)
    (ht : t < 2 ^ 31) (hrun : dfs2 g size fuel i fa t ans = some ans') : Small ans' := by
  induction fuel generalizing i fa t ans ans' with
  | zero => cases hrun
  | succ fuel ih =>
      refine foldlM_invariant Small ?_ (h.update ht i) hrun
      intro mid j mid' hmid hturn
      unfold rerootTurn at hturn
      split at hturn
      case isTrue =>
        obtain ⟨less, -, hturn⟩ := Option.bind_eq_some_iff.mp hturn
        obtain ⟨more, -, hturn⟩ := Option.bind_eq_some_iff.mp hturn
        obtain ⟨next, hnext, hcall⟩ := Option.bind_eq_some_iff.mp hturn
        exact ih hmid (of_signed hnext).2 hcall
      case isFalse =>
        obtain rfl := Option.some.inj hturn
        exact hmid

theorem sumOfDistancesInTree_small [NeZero n] {ans : Fin n → Int}
    (hrun : sumOfDistancesInTree fuel edges = some ans) : Small ans := by
  obtain ⟨⟨first, size⟩, hfirst, hlast⟩ := Option.bind_eq_some_iff.mp hrun
  have hzero : Small fun _ : Fin n => (0 : Int) := fun _ => by dsimp only; omega
  have hsmall : Small first := dfs1_small hzero hfirst
  exact dfs2_small hsmall (hsmall 0) hlast

/-! ## Paths -/

/-- The edges of the path through `m + 1` vertices. -/
def pathEdges (m : Nat) : List (Fin (m + 1) × Fin (m + 1)) :=
  (List.finRange m).map fun k => (k.castSucc, k.succ)

theorem graph_pathEdges (m : Nat) : graph (pathEdges m) = SimpleGraph.pathGraph (m + 1) := by
  ext u v
  rw [graph_adj, SimpleGraph.pathGraph_adj]
  constructor
  · rintro ⟨hedge, -⟩
    obtain ⟨e, he, heq⟩ := List.mem_map.mp hedge
    obtain ⟨k, -, rfl⟩ := List.mem_map.mp he
    rcases Sym2.eq_iff.mp heq with ⟨hu, hv⟩ | ⟨hv, hu⟩
    · left
      rw [← hu, ← hv]
      rfl
    · right
      rw [← hu, ← hv]
      rfl
  · have hedge : ∀ u v : Fin (m + 1), u.val + 1 = v.val →
        s(u, v) ∈ (pathEdges m).map edgeOf := by
      intro u v hnext
      have hu : u.val < m := by omega
      refine List.mem_map.mpr ⟨_, List.mem_map.mpr ⟨⟨u.val, hu⟩, List.mem_finRange _, rfl⟩, ?_⟩
      exact congrArg₂ (fun u v => s(u, v)) (Fin.ext rfl) (Fin.ext hnext)
    rintro (hnext | hnext)
    · exact ⟨hedge u v hnext, fun heq => by rw [heq] at hnext; omega⟩
    · rw [Sym2.eq_swap]
      exact ⟨hedge v u hnext, fun heq => by rw [heq] at hnext; omega⟩

theorem formsTree_pathEdges (m : Nat) : FormsTree (pathEdges m) := by
  apply formsTree_of_connected
  · rw [graph_pathEdges]
    exact SimpleGraph.pathGraph_connected m
  · rw [pathEdges, List.length_map, List.length_finRange]

/-- A walk on a path moves by one vertex at a time. -/
theorem val_le_walk {m : Nat} {u v : Fin (m + 1)} (p : (graph (pathEdges m)).Walk u v) :
    v.val ≤ u.val + p.length := by
  induction p with
  | nil => exact Nat.le_add_right _ _
  | cons hadj p ih =>
      rw [graph_pathEdges, SimpleGraph.pathGraph_adj] at hadj
      rw [SimpleGraph.Walk.length_cons]
      omega

theorem le_distSum_path (m : Nat) : m * (m + 1) ≤ 2 * distSum (graph (pathEdges m)) 0 := by
  have hless : ∑ k ∈ Finset.range (m + 1), k ≤ distSum (graph (pathEdges m)) 0 := by
    rw [← Fin.sum_univ_eq_sum_range fun k => k]
    apply Finset.sum_le_sum
    intro v _
    obtain ⟨p, hp⟩ :=
      (formsTree_pathEdges m).tree.connected.exists_walk_length_eq_dist 0 v
    have hwalk := val_le_walk p
    rwa [hp, Fin.val_zero, Nat.zero_add] at hwalk
  have hgauss := Finset.sum_range_id_mul_two (m + 1)
  rw [Nat.add_sub_cancel, Nat.mul_comm (m + 1)] at hgauss
  omega

/-- A tree with few vertices fits. -/
theorem fits_of_le [NeZero n] (hG : G.IsTree) (hn : n ≤ 46340) : Fits G 0 := by
  have hdist : ∀ u v, G.dist u v ≤ n := by
    intro u v
    obtain ⟨p, hp, hlength⟩ := hG.connected.exists_path_of_dist u v
    have hless := hp.length_lt
    rw [Fintype.card_fin] at hless
    omega
  have hsum : ∀ u, distSum G u ≤ n * n := by
    intro u
    have hmost := Finset.sum_le_card_nsmul Finset.univ (G.dist u) n fun v _ => hdist u v
    rwa [Finset.card_univ, Fintype.card_fin, smul_eq_mul] at hmost
  have hsquare : n * n ≤ 46340 * 46340 := Nat.mul_le_mul hn hn
  refine ⟨by omega, (hsum 0).trans_lt (by omega), fun i j _ _ => ?_⟩
  have hcard := card_finset_fin_le (side G j i)
  have hj := hsum j
  omega

/-! ## The result -/

/-- The sums of the distances, as long as these and the sums on the way fit in an `int`. -/
theorem sumOfDistancesInTree_eq [NeZero n] (edges : List (Fin n × Fin n)) (fuel : Nat)
    (htree : FormsTree edges) (hfits : Fits (graph edges) 0) (hfuel : n ≤ fuel) :
    sumOfDistancesInTree fuel edges =
      some fun i => ((∑ j, (graph edges).dist i j : Nat) : Int) := by
  have hall : (branch (graph edges) none (0 : Fin n)).card ≤ fuel := by
    have hcard : (branch (graph edges) none (0 : Fin n)).card = n := Finset.card_fin n
    omega
  have htotal : 0 + total (graph edges) 0 0 (branch (graph edges) none 0) =
      distSum (graph edges) 0 := by
    rw [Nat.zero_add, total, distSum]
    exact Finset.sum_congr rfl fun w _ => Nat.zero_add _
  have hcount : Counts (graph edges) 0 none 0 0 0 (fun _ => 0) (fun _ => 0)
      (dfs1 (adjacency edges) fuel 0 none (0 : Nat) (fun _ => 0, fun _ => 0)) :=
    dfs1_spec htree.rows hfits.vertices .start hall rfl (htotal ▸ hfits.root)
  obtain ⟨size, hrun, hsized, -⟩ := hcount
  rw [htotal] at hrun
  obtain ⟨ans, hrun', hrerooted⟩ :
      ∃ ans, dfs2 (adjacency edges) size fuel 0 none (distSum (graph edges) 0)
        (Function.update (fun _ => 0) 0 ((distSum (graph edges) 0 : Nat) : Int)) = some ans ∧
        Rerooted (graph edges) (branch (graph edges) none 0) _ ans :=
    dfs2_spec htree.rows hfits (fun v => hsized v (Finset.mem_univ v)) .start hall hfits.root
  have hans : ans = fun i => ((∑ j, (graph edges).dist i j : Nat) : Int) :=
    funext fun i => hrerooted.inside i (Finset.mem_univ i)
  have hrun₀ : dfs1 (adjacency edges) fuel 0 none 0 (fun _ => 0, fun _ => 0) =
      some (Function.update (fun _ => 0) 0 ((distSum (graph edges) 0 : Nat) : Int), size) := hrun
  rw [sumOfDistancesInTree, hrun₀, Option.bind_eq_bind, Option.bind_some, ← hans, ← hrun']
  dsimp only
  rw [Function.update_self]

theorem sumOfDistancesInTree_eq_short :
    (FormsTree (pathEdges 2) ∧ Fits (graph (pathEdges 2)) 0) ∧
    sumOfDistancesInTree 3 (pathEdges 2) =
      some fun i => ((∑ j, (graph (pathEdges 2)).dist i j : Nat) : Int) :=
  have hfits := fits_of_le (formsTree_pathEdges 2).tree (by decide)
  ⟨⟨formsTree_pathEdges 2, hfits⟩,
    sumOfDistancesInTree_eq (pathEdges 2) 3 (formsTree_pathEdges 2) hfits (by decide)⟩

/-- The distances from the end of a path of 65537 vertices add up to too much. -/
theorem sumOfDistancesInTree_path : FormsTree (pathEdges 65536) ∧
    ∀ fuel, sumOfDistancesInTree fuel (pathEdges 65536) ≠
      some fun i => ((∑ j, (graph (pathEdges 65536)).dist i j : Nat) : Int) := by
  refine ⟨formsTree_pathEdges 65536, fun fuel hrun => ?_⟩
  have hsmall : ((distSum (graph (pathEdges 65536)) 0 : Nat) : Int) < 2 ^ 31 :=
    sumOfDistancesInTree_small hrun 0
  have hlarge := le_distSum_path 65536
  omega

end SumOfDistances

end MoreCpp
