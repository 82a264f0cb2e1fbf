import MoreCpp.Library.Loop
import MoreCpp.Library.AcyclicGraphs
import Mathlib.Data.Int.Cast.Lemmas
import Mathlib.Data.List.FinRange
import Mathlib.Logic.Function.Basic

/-!
`toposort` of `algorithms/graphs/graphs.cpp`. An edge leads from its first vertex to its
second one; an edge may be there several times.
-/

namespace MoreCpp

open Library Relation

namespace Toposort

variable {V : Nat}

/-- `e` and `in`, after the loop over the edges. -/
def readEdges (edges : List (Fin V × Fin V)) : (Fin V → List (Fin V)) × (Fin V → Int) :=
  edges.foldl (fun (e, indeg) ee =>
    (Function.update e ee.1 (e ee.1 ++ [ee.2]),
      Function.update indeg ee.2 (indeg ee.2 + 1))) (fun _ => [], fun _ => 0)

/-- The queue at the start. -/
def sources (indeg : Fin V → Int) : List (Fin V) :=
  (List.finRange V).foldl (fun q v => if indeg v = 0 then q ++ [v] else q) []

/-- A turn of the loop over `e[v]`. -/
def release : List (Fin V) × (Fin V → Int) → Fin V → List (Fin V) × (Fin V → Int)
  | (q, indeg), u =>
    let indeg := Function.update indeg u (indeg u - 1)
    (if indeg u = 0 then q ++ [u] else q, indeg)

structure State (V : Nat) where
  q : List (Fin V)
  indeg : Fin V → Int
  topo : List (Fin V)

def round (e : Fin V → List (Fin V)) (s : State V) : Option (State V ⊕ List (Fin V)) :=
  match s.q with
  | [] => some (.inr s.topo)
  | v :: q =>
    let topo := s.topo ++ [v]
    let (q, indeg) := (e v).foldl release (q, s.indeg)
    some (.inl { q, indeg, topo })

def toposort (fuel : Nat) (edges : List (Fin V × Fin V)) : Option (List (Fin V)) :=
  let (e, indeg) := readEdges edges
  loop (round e) fuel { q := sources indeg, indeg, topo := [] }

/-! ## Degrees -/

/-- An edge leads from `u` to `v`. -/
def Edge (edges : List (Fin V × Fin V)) (u v : Fin V) : Prop := (u, v) ∈ edges

/-- The number of edges to `v` from vertices not yet listed. -/
def openDegree (edges : List (Fin V × Fin V)) (topo : List (Fin V)) (v : Fin V) : Nat :=
  edges.countP fun ee => ee.2 = v ∧ ee.1 ∉ topo

variable {edges : List (Fin V × Fin V)} {topo q rest : List (Fin V)} {u v : Fin V}
  {indeg : Fin V → Int}

theorem readEdges_concat (edges : List (Fin V × Fin V)) (ee : Fin V × Fin V) :
    readEdges (edges ++ [ee]) = (Function.update (readEdges edges).1 ee.1
      ((readEdges edges).1 ee.1 ++ [ee.2]),
      Function.update (readEdges edges).2 ee.2 ((readEdges edges).2 ee.2 + 1)) := by
  rw [readEdges, List.foldl_append]
  rfl

/-- The row of `v` has each successor as often as there are edges to it. -/
theorem count_row (edges : List (Fin V × Fin V)) (u v : Fin V) :
    ((readEdges edges).1 v).count u = edges.count (v, u) := by
  induction edges using List.reverseRecOn with
  | nil => rfl
  | append_singleton edges ee ih =>
      obtain ⟨a, b⟩ := ee
      rw [readEdges_concat, List.count_append, ← ih, List.count_singleton]
      dsimp only
      obtain rfl | hne := eq_or_ne v a
      · rw [Function.update_self, List.count_append, List.count_singleton]
        simp
      · rw [Function.update_of_ne hne]
        simp [Ne.symm hne]

theorem degree_readEdges (edges : List (Fin V × Fin V)) (v : Fin V) :
    (readEdges edges).2 v = openDegree edges [] v := by
  induction edges using List.reverseRecOn with
  | nil => rfl
  | append_singleton edges ee ih =>
      rw [readEdges_concat, openDegree, List.countP_append, ← openDegree, Nat.cast_add, ← ih]
      dsimp only
      obtain rfl | hne := eq_or_ne v ee.2
      · rw [Function.update_self]
        simp
      · rw [Function.update_of_ne hne]
        simp [Ne.symm hne]

/-- Listing a vertex closes the edges from it. -/
theorem openDegree_concat (hv : v ∉ topo) (u : Fin V) :
    openDegree edges topo u = openDegree edges (topo ++ [v]) u + edges.count (v, u) := by
  induction edges with
  | nil => rfl
  | cons ee edges ih =>
      obtain ⟨a, b⟩ := ee
      unfold openDegree at ih ⊢
      rw [List.countP_cons, List.countP_cons, List.count_cons, ih]
      by_cases hb : b = u
      · by_cases ha : a = v
        · subst ha
          simp [hb, hv]
          omega
        · simp [hb, ha]
          omega
      · simp [hb]

theorem openDegree_eq_zero : openDegree edges topo v = 0 ↔ ∀ u, Edge edges u v → u ∈ topo := by
  rw [openDegree, List.countP_eq_zero]
  constructor
  · intro h u hu
    simpa using h (u, v) hu
  · rintro h ⟨a, b⟩ hedge
    simp only [decide_eq_true_eq, not_and, not_not]
    rintro rfl
    exact h a hedge

theorem sources_eq (indeg : Fin V → Int) :
    sources indeg = (List.finRange V).filter fun v => indeg v = 0 := by
  have hfold : ∀ vs q : List (Fin V), vs.foldl (fun q v => if indeg v = 0 then q ++ [v] else q) q =
      q ++ vs.filter fun v => indeg v = 0 := by
    intro vs
    induction vs with
    | nil => exact fun q => (List.append_nil q).symm
    | cons v vs ih =>
        intro q
        rw [List.foldl_cons, ih, List.filter_cons]
        split
        case isTrue h => simp [h]
        case isFalse h => simp [h]
  rw [sources, hfold, List.nil_append]

/-! ## The invariant -/

/-- The vertices that are listed or queued are those without open edges, but for edges to
the rest of a row that the listed vertices still have to release. -/
structure Inv (edges : List (Fin V × Fin V)) (topo rest q : List (Fin V)) (indeg : Fin V → Int) :
    Prop where
  nodup : (topo ++ q).Nodup
  degree : ∀ u, indeg u = (openDegree edges topo u + rest.count u : Nat)
  pushed : ∀ u, u ∈ topo ++ q ↔ indeg u = 0

theorem Inv.start (edges : List (Fin V × Fin V)) :
    Inv edges [] [] (sources (readEdges edges).2) (readEdges edges).2 := by
  refine ⟨?_, degree_readEdges edges, fun u => ?_⟩
  · rw [List.nil_append, sources_eq]
    exact (List.nodup_finRange V).filter _
  · rw [List.nil_append, sources_eq, List.mem_filter]
    simp

/-- A turn of the inner loop. -/
theorem Inv.release (h : Inv edges topo (u :: rest) q indeg) :
    Inv edges topo rest (release (q, indeg) u).1 (release (q, indeg) u).2 := by
  have hu := h.degree u
  rw [List.count_cons_self] at hu
  have hnew : u ∉ topo ++ q := fun hmem => by
    have hzero := (h.pushed u).mp hmem
    omega
  have hdegree : ∀ w, Function.update indeg u (indeg u - 1) w =
      (openDegree edges topo w + rest.count w : Nat) := by
    intro w
    obtain rfl | hne := eq_or_ne w u
    · rw [Function.update_self]
      omega
    · rw [Function.update_of_ne hne, h.degree w, List.count_cons_of_ne (Ne.symm hne)]
  unfold Toposort.release
  dsimp only
  rw [Function.update_self]
  split
  case isTrue hzero =>
    refine ⟨?_, hdegree, fun w => ?_⟩
    · rw [← List.append_assoc]
      exact List.nodup_append'.mpr ⟨h.nodup, List.nodup_singleton u,
        List.disjoint_singleton.mpr hnew⟩
    · rw [← List.append_assoc, List.mem_append, h.pushed w, List.mem_singleton]
      obtain rfl | hne := eq_or_ne w u
      · rw [Function.update_self]
        exact iff_of_true (.inr rfl) hzero
      · rw [Function.update_of_ne hne]
        exact or_iff_left hne
  case isFalse hpos =>
    refine ⟨h.nodup, hdegree, fun w => ?_⟩
    obtain rfl | hne := eq_or_ne w u
    · rw [Function.update_self]
      exact iff_of_false hnew hpos
    · rw [Function.update_of_ne hne]
      exact h.pushed w

theorem Inv.releaseAll (h : Inv edges topo rest q indeg) :
    Inv edges topo [] (rest.foldl Toposort.release (q, indeg)).1
      (rest.foldl Toposort.release (q, indeg)).2 := by
  induction rest generalizing q indeg with
  | nil => exact h
  | cons u rest ih => exact ih h.release

theorem Inv.closed (h : Inv edges topo [] q indeg) (hv : v ∈ topo ++ q) (u : Fin V)
    (hu : Edge edges u v) : u ∈ topo := by
  have hzero := (h.pushed v).mp hv
  rw [h.degree v] at hzero
  exact openDegree_eq_zero.mp (by simpa using hzero) u hu

/-- A vertex is taken from the queue. -/
theorem Inv.pop (h : Inv edges topo [] (v :: q) indeg) :
    Inv edges (topo ++ [v]) ((readEdges edges).1 v) q indeg := by
  have hsame : topo ++ [v] ++ q = topo ++ v :: q := by
    rw [List.append_assoc, List.singleton_append]
  have hv : v ∉ topo := fun hmem =>
    (List.nodup_append'.mp h.nodup).2.2 hmem List.mem_cons_self
  refine ⟨hsame ▸ h.nodup, fun u => ?_, fun u => by rw [hsame, h.pushed u]⟩
  rw [h.degree u, openDegree_concat hv, count_row]
  rfl

/-- When the queue is empty, a vertex that is not listed comes after another such vertex. -/
theorem Inv.missing (h : Inv edges topo [] [] indeg) (hv : v ∉ topo) :
    ∃ u, u ∉ topo ∧ Edge edges u v := by
  by_contra hnone
  push Not at hnone
  have hzero : openDegree edges topo v = 0 :=
    openDegree_eq_zero.mpr fun u hu => by_contra fun hout => hnone u hout hu
  have hdegree : indeg v = 0 := by
    rw [h.degree v, hzero]
    rfl
  have hmem := (h.pushed v).mpr hdegree
  rw [List.append_nil] at hmem
  exact hv hmem

/-- A round ends the loop or lists one more vertex. -/
theorem round_step (s : State V) (hinv : Inv edges s.topo [] s.q s.indeg)
    (hordered : Ordered (Edge edges) s.topo) :
    (∃ topo, round (readEdges edges).1 s = some (.inr topo) ∧ topo.Nodup ∧
      Ordered (Edge edges) topo ∧ ∀ v, v ∉ topo → ∃ u, u ∉ topo ∧ Edge edges u v) ∨
    ∃ s', round (readEdges edges).1 s = some (.inl s') ∧
      (Inv edges s'.topo [] s'.q s'.indeg ∧ Ordered (Edge edges) s'.topo) ∧
      V - s'.topo.length < V - s.topo.length := by
  obtain ⟨q, indeg, topo⟩ := s
  dsimp only at hinv hordered
  cases q with
  | nil =>
      have hnodup := hinv.nodup
      rw [List.append_nil] at hnodup
      exact .inl ⟨topo, rfl, hnodup, hordered, fun v hv => hinv.missing hv⟩
  | cons v q =>
      have hfits : (topo ++ v :: q).length ≤ V := by
        have hcard := hinv.nodup.length_le_card
        rwa [Fintype.card_fin] at hcard
      rw [List.length_append, List.length_cons] at hfits
      refine .inr ⟨_, rfl, ⟨hinv.pop.releaseAll, hordered.concat ?_⟩, ?_⟩
      · exact hinv.closed (List.mem_append_right _ List.mem_cons_self)
      · dsimp only
        rw [List.length_append, List.length_singleton]
        omega

/-- The listed vertices are those that no cycle leads to, each after its predecessors, and
they are all vertices just when there is no cycle. -/
theorem toposort_spec (V : Nat) (edges : List (Fin V × Fin V)) (fuel : Nat) (hfuel : V < fuel) :
    ∃ topo, toposort fuel edges = some topo ∧ topo.Nodup ∧
      (∀ v, v ∈ topo ↔
        ¬ ∃ c, TransGen (Edge edges) c c ∧ ReflTransGen (Edge edges) c v) ∧
      (∀ before v after, topo = before ++ v :: after → ∀ u, Edge edges u v → u ∈ before) ∧
      (topo.length = V ↔ ∀ v, ¬ TransGen (Edge edges) v v) := by
  have hloop : ∃ topo, toposort fuel edges = some topo ∧ topo.Nodup ∧
      Ordered (Edge edges) topo ∧ ∀ v, v ∉ topo → ∃ u, u ∉ topo ∧ Edge edges u v :=
    loop_total (fun s : State V => Inv edges s.topo [] s.q s.indeg ∧ Ordered (Edge edges) s.topo)
      (fun s => V - s.topo.length) (fun s hs => round_step s hs.1 hs.2) ⟨.start edges, .nil⟩ hfuel
  obtain ⟨topo, hrun, hnodup, hordered, hclosed⟩ := hloop
  have hmem : ∀ v, v ∈ topo ↔ CycleFree (Edge edges) v :=
    fun v => hordered.mem_iff hnodup hclosed
  refine ⟨topo, hrun, hnodup, hmem, hordered, ?_⟩
  rw [← forall_cycleFree, ← forall_congr' hmem, ← length_eq_card_iff hnodup, Fintype.card_fin]

/-- A vertex before a cycle, and one behind it. -/
theorem toposort_spec_cycle :
    ∃ topo, toposort 5 [((0 : Fin 4), 1), (1, 2), (2, 1), (2, 3), (2, 3)] = some topo ∧
      topo.Nodup ∧
      (∀ v, v ∈ topo ↔ ¬ ∃ c,
        TransGen (Edge [((0 : Fin 4), 1), (1, 2), (2, 1), (2, 3), (2, 3)]) c c ∧
        ReflTransGen (Edge [((0 : Fin 4), 1), (1, 2), (2, 1), (2, 3), (2, 3)]) c v) ∧
      (∀ before v after, topo = before ++ v :: after →
        ∀ u, Edge [((0 : Fin 4), 1), (1, 2), (2, 1), (2, 3), (2, 3)] u v → u ∈ before) ∧
      (topo.length = 4 ↔
        ∀ v, ¬ TransGen (Edge [((0 : Fin 4), 1), (1, 2), (2, 1), (2, 3), (2, 3)]) v v) :=
  toposort_spec 4 [(0, 1), (1, 2), (2, 1), (2, 3), (2, 3)] 5 (by decide)

end Toposort

end MoreCpp
