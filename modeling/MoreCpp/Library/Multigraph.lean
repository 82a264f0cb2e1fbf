import MoreCpp.Library.LabelledGraph
import Mathlib.Algebra.BigOperators.Fin
import Mathlib.Algebra.Order.BigOperators.Group.Finset
import Mathlib.Algebra.Order.Group.Int
import Mathlib.Data.Int.LeastGreatest
import Mathlib.Data.List.FinRange
import Mathlib.Data.Set.Finite.List

/-!
Graphs with edges of positive weight that lead both ways, where two vertices may be joined
several times. A shortest route is one that no other one is lighter than.
-/

namespace MoreCpp.Library

structure WeightedEdge (V : Type*) where
  a : V
  b : V
  w : Int
  pos : 0 < w

namespace Multigraph

variable {V E : Type*}

def Joins (edges : E → WeightedEdge V) (v : V) (i : E) (u : V) : Prop :=
  ((edges i).a = v ∧ (edges i).b = u) ∨ ((edges i).b = v ∧ (edges i).a = u)

def weight (edges : E → WeightedEdge V) (es : List E) : Int := (es.map fun i => (edges i).w).sum

structure IsShortest (edges : E → WeightedEdge V) (s v : V) (es : List E) : Prop where
  route : Route (Joins edges) s es v
  le : ∀ es', Route (Joins edges) s es' v → weight edges es ≤ weight edges es'

/-- The weights of the routes from `s`. -/
def routes (edges : E → WeightedEdge V) (s : V) : LabelledGraph V E Int where
  Start v c := v = s ∧ c = 0
  Joins := Joins edges
  extend c i := c + (edges i).w
  mono _ _ _ hle := Int.add_le_add_right hle _
  le_extend _ i := Int.le_add_of_nonneg_right (edges i).pos.le

/-- An edge on which a shortest route goes on. -/
def Tight (edges : E → WeightedEdge V) (s v : V) (i : E) (u : V) : Prop :=
  Joins edges v i u ∧ ∃ c, (routes edges s).Least v c ∧ (routes edges s).Least u (c + (edges i).w)

variable {edges : E → WeightedEdge V} {s t u v v' x : V} {i j : E} {es es' : List E} {c : Int}

theorem Joins.symm (h : Joins edges v i u) : Joins edges u i v :=
  h.elim (fun h => .inr h.symm) fun h => .inl h.symm

theorem Joins.left_unique (h : Joins edges v i u) (h' : Joins edges v' i u) : v = v' := by
  obtain ⟨rfl, rfl⟩ | ⟨rfl, rfl⟩ := h <;> obtain ⟨rfl, hu⟩ | ⟨rfl, hu⟩ := h'
  · rfl
  · exact hu
  · exact hu
  · rfl

/-- An edge leads from and to the same two vertices, one way or the other. -/
theorem Joins.same_or_swap (h : Joins edges v i u) (h' : Joins edges x i t) :
    (x = v ∧ t = u) ∨ (x = u ∧ t = v) := by
  obtain ⟨rfl, rfl⟩ | ⟨rfl, rfl⟩ := h <;> obtain ⟨rfl, rfl⟩ | ⟨rfl, rfl⟩ := h'
  · exact .inl ⟨rfl, rfl⟩
  · exact .inr ⟨rfl, rfl⟩
  · exact .inr ⟨rfl, rfl⟩
  · exact .inl ⟨rfl, rfl⟩

theorem weight_concat (edges : E → WeightedEdge V) (es : List E) (i : E) :
    weight edges (es ++ [i]) = weight edges es + (edges i).w := by
  rw [weight, List.map_append, List.sum_append, List.map_singleton, List.sum_singleton, weight]

theorem length_le_weight (edges : E → WeightedEdge V) (es : List E) :
    es.length ≤ weight edges es := by
  induction es using List.reverseRecOn with
  | nil => exact Int.le_refl 0
  | append_singleton es i ih =>
      have hpos := (edges i).pos
      rw [weight_concat, List.length_append, List.length_singleton]
      omega

theorem foldl_extend (edges : E → WeightedEdge V) (s : V) (es : List E) :
    es.foldl (routes edges s).extend 0 = weight edges es := by
  induction es using List.reverseRecOn with
  | nil => rfl
  | append_singleton es i ih =>
      rw [List.foldl_append, ih, weight_concat]
      rfl

theorem label_iff : (routes edges s).Label v c ↔
    ∃ es, Route (Joins edges) s es v ∧ weight edges es = c := by
  rw [LabelledGraph.label_iff]
  constructor
  · rintro ⟨_, _, es, ⟨rfl, rfl⟩, hroute, rfl⟩
    exact ⟨es, hroute, (foldl_extend edges _ es).symm⟩
  · rintro ⟨es, hroute, rfl⟩
    exact ⟨s, 0, es, ⟨rfl, rfl⟩, hroute, foldl_extend edges s es⟩

theorem label_nonneg (h : (routes edges s).Label v c) : 0 ≤ c := by
  obtain ⟨es, -, rfl⟩ := label_iff.mp h
  have hlength := length_le_weight edges es
  omega

theorem least_start : (routes edges s).Least s 0 := ⟨.start ⟨rfl, rfl⟩, fun _ => label_nonneg⟩

/-- There is a least weight where there is a route. -/
theorem exists_least (h : (routes edges s).Label v c) : ∃ c, (routes edges s).Least v c := by
  obtain ⟨c, hlabel, hle⟩ := Int.exists_least_of_bdd ⟨0, fun c => label_nonneg⟩ ⟨c, h⟩
  exact ⟨c, hlabel, fun c' => hle c'⟩

theorem isShortest_iff : IsShortest edges s v es ↔
    Route (Joins edges) s es v ∧ (routes edges s).Least v (weight edges es) := by
  constructor
  · rintro ⟨hroute, hle⟩
    refine ⟨hroute, label_iff.mpr ⟨es, hroute, rfl⟩, fun c hc => ?_⟩
    obtain ⟨es', hroute', rfl⟩ := label_iff.mp hc
    exact hle es' hroute'
  · rintro ⟨hroute, hleast⟩
    exact ⟨hroute, fun es' hroute' => hleast.le (label_iff.mpr ⟨es', hroute', rfl⟩)⟩

theorem exists_isShortest (h : (routes edges s).Least v c) : ∃ es, IsShortest edges s v es := by
  obtain ⟨es, hroute, rfl⟩ := label_iff.mp h.label
  exact ⟨es, isShortest_iff.mpr ⟨hroute, h⟩⟩

theorem isShortest_self : IsShortest edges s s es ↔ es = [] := by
  constructor
  · intro h
    have hle : weight edges es ≤ 0 := h.le [] .nil
    have hlength := length_le_weight edges es
    exact List.length_eq_zero_iff.mp (by omega)
  · rintro rfl
    exact isShortest_iff.mpr ⟨.nil, least_start⟩

/-- The shortest routes are those along tight edges. -/
theorem isShortest_iff_route : IsShortest edges s v es ↔ Route (Tight edges s) s es v := by
  induction es using List.reverseRecOn generalizing v with
  | nil =>
      rw [isShortest_iff, route_nil, route_nil]
      exact and_iff_left_of_imp fun h => h ▸ least_start
  | append_singleton es i ih =>
      rw [isShortest_iff, route_concat, route_concat, weight_concat]
      constructor
      · rintro ⟨⟨u, hroute, hjoins⟩, hleast⟩
        have hbefore : (routes edges s).Least u (weight edges es) := by
          refine ⟨label_iff.mpr ⟨es, hroute, rfl⟩, fun c hc => ?_⟩
          have hnext : weight edges es + (edges i).w ≤ c + (edges i).w :=
            hleast.le (.step hc hjoins)
          omega
        exact ⟨u, ih.mp (isShortest_iff.mpr ⟨hroute, hbefore⟩), hjoins, _, hbefore, hleast⟩
      · rintro ⟨u, hroute, hjoins, c, hleast, hnext⟩
        obtain ⟨hroute, hbefore⟩ := isShortest_iff.mp (ih.mpr hroute)
        obtain rfl := hleast.eq hbefore
        exact ⟨⟨u, hroute, hjoins⟩, hnext⟩

theorem tight_iff {c' : Int} (hv : (routes edges s).Least v c) (hu : (routes edges s).Least u c') :
    Tight edges s v i u ↔ Joins edges v i u ∧ c + (edges i).w = c' := by
  constructor
  · rintro ⟨hjoins, c₀, hv', hu'⟩
    obtain rfl := hv.eq hv'
    exact ⟨hjoins, hu'.eq hu⟩
  · rintro ⟨hjoins, rfl⟩
    exact ⟨hjoins, c, hv, hu⟩

/-! ## Bounds -/

/-- A route without a repeated edge leads to both ends of its edges. -/
theorem exists_nodup_of_mem (h : Route (Joins edges) s es v) (hnodup : es.Nodup) (hi : i ∈ es)
    (hjoins : Joins edges x i u) : ∃ es', es'.Nodup ∧ Route (Joins edges) s es' u := by
  induction h with
  | nil => exact absurd hi List.not_mem_nil
  | @concat es v j t hroute hlast ih =>
      have hbefore := (List.nodup_append'.mp hnodup).1
      rcases List.mem_append.mp hi with hi | hi
      · exact ih hbefore hi
      · obtain rfl := List.mem_singleton.mp hi
        rcases hlast.same_or_swap hjoins with ⟨-, rfl⟩ | ⟨-, rfl⟩
        · exact ⟨_, hnodup, hroute.concat hlast⟩
        · exact ⟨_, hbefore, hroute⟩

theorem exists_nodup (h : Route (Joins edges) s es v) :
    ∃ es', es'.Nodup ∧ Route (Joins edges) s es' v := by
  induction h with
  | nil => exact ⟨[], List.nodup_nil, .nil⟩
  | @concat es v i u hroute hjoins ih =>
      obtain ⟨es', hnodup, hroute'⟩ := ih
      by_cases hmem : i ∈ es'
      · exact exists_nodup_of_mem hroute' hnodup hmem hjoins
      · exact ⟨es' ++ [i], List.nodup_append'.mpr ⟨hnodup, List.nodup_singleton i,
          List.disjoint_singleton.mpr hmem⟩, hroute'.concat hjoins⟩

theorem least_le_sum [Fintype E] (h : (routes edges s).Least v c) : c ≤ ∑ i, (edges i).w := by
  classical
  obtain ⟨es, hroute, -⟩ := label_iff.mp h.label
  obtain ⟨es', hnodup, hroute'⟩ := exists_nodup hroute
  calc c ≤ weight edges es' := h.le (label_iff.mpr ⟨es', hroute', rfl⟩)
    _ = ∑ i ∈ es'.toFinset, (edges i).w := (List.sum_toFinset _ hnodup).symm
    _ ≤ ∑ i, (edges i).w := Finset.sum_le_univ_sum_of_nonneg fun i => (edges i).pos.le

/-! ## Counting -/

section Counting

variable [Fintype E]

theorem finite_isShortest (edges : E → WeightedEdge V) (s v : V) :
    {es | IsShortest edges s v es}.Finite := by
  rcases Set.eq_empty_or_nonempty {es | IsShortest edges s v es} with hempty | ⟨es, hes⟩
  · rw [hempty]
    exact Set.finite_empty
  · refine (List.finite_length_le E (weight edges es).toNat).subset fun es' hes' => ?_
    have hlength := length_le_weight edges es'
    have hle := hes'.le es hes.route
    exact show es'.length ≤ (weight edges es).toNat by omega

noncomputable def shortestRoutes (edges : E → WeightedEdge V) (s v : V) : Finset (List E) :=
  (finite_isShortest edges s v).toFinset

theorem mem_shortestRoutes : es ∈ shortestRoutes edges s v ↔ IsShortest edges s v es :=
  Set.Finite.mem_toFinset _

noncomputable def numShortest (edges : E → WeightedEdge V) (s v : V) : Nat :=
  (shortestRoutes edges s v).card

variable [Fintype V]

open Classical in
theorem shortestRoutes_eq (edges : E → WeightedEdge V) (s u : V) : shortestRoutes edges s u =
    (if u = s then {[]} else ∅) ∪ Finset.univ.biUnion fun v =>
      (Finset.univ.filter fun i => Tight edges s v i u).biUnion fun i =>
        (shortestRoutes edges s v).image (· ++ [i]) := by
  have hnil : ∀ es, es ∈ (if u = s then {[]} else (∅ : Finset (List E))) ↔ u = s ∧ es = [] := by
    intro es
    split
    case isTrue h => simp [h]
    case isFalse h => simp [h]
  ext es
  simp only [Finset.mem_union, Finset.mem_biUnion, Finset.mem_univ, true_and, Finset.mem_filter,
    Finset.mem_image, mem_shortestRoutes, isShortest_iff_route, hnil]
  rcases List.eq_nil_or_concat' es with rfl | ⟨es, i, rfl⟩
  · simp [route_nil]
  · rw [route_concat]
    constructor
    · rintro ⟨v, hroute, htight⟩
      exact .inr ⟨v, i, htight, es, hroute, rfl⟩
    · rintro (⟨-, hnil⟩ | ⟨v, i', htight, es', hroute, heq⟩)
      · exact absurd hnil (List.append_ne_nil_of_right_ne_nil _ (List.cons_ne_nil _ _))
      · obtain ⟨rfl, hlast⟩ := List.append_inj' heq rfl
        obtain rfl := List.singleton_inj.mp hlast
        exact ⟨v, hroute, htight⟩

open Classical in
/-- A shortest route is empty or has a last edge. -/
theorem numShortest_eq (edges : E → WeightedEdge V) (s u : V) : numShortest edges s u =
    (if u = s then 1 else 0) + ∑ v,
      (Finset.univ.filter fun i => Tight edges s v i u).card * numShortest edges s v := by
  have hlast : ∀ v i, ((shortestRoutes edges s v).image (· ++ [i])).card =
      numShortest edges s v :=
    fun v i => Finset.card_image_of_injective _ (List.append_left_injective [i])
  have happend : ∀ {es es' : List E} {i i'}, es ++ [i] = es' ++ [i'] → i = i' :=
    fun heq => List.singleton_inj.mp (List.append_inj' heq rfl).2
  rw [numShortest, shortestRoutes_eq, Finset.card_union_of_disjoint, Finset.card_biUnion]
  · congr 1
    · split <;> rfl
    · refine Finset.sum_congr rfl fun v _ => ?_
      rw [Finset.card_biUnion, Finset.sum_congr rfl fun i _ => hlast v i, Finset.sum_const,
        smul_eq_mul]
      intro i _ i' _ hne
      refine Finset.disjoint_left.mpr fun es hes hes' => hne ?_
      obtain ⟨_, -, rfl⟩ := Finset.mem_image.mp hes
      obtain ⟨_, -, heq⟩ := Finset.mem_image.mp hes'
      exact (happend heq).symm
  · intro v _ v' _ hne
    refine Finset.disjoint_left.mpr fun es hes hes' => hne ?_
    simp only [Finset.mem_biUnion, Finset.mem_filter, Finset.mem_image] at hes hes'
    obtain ⟨i, ⟨-, htight⟩, _, -, rfl⟩ := hes
    obtain ⟨i', ⟨-, htight'⟩, _, -, heq⟩ := hes'
    obtain rfl := happend heq
    exact htight.1.left_unique htight'.1
  · refine Finset.disjoint_left.mpr fun es hes hes' => ?_
    simp only [Finset.mem_biUnion, Finset.mem_image] at hes'
    obtain ⟨_, -, i, -, es', -, rfl⟩ := hes'
    split at hes
    · simp at hes
    · cases hes

end Counting

/-! ## Rows -/

section Rows

variable {A : Type*} {m : Nat} [DecidableEq V] {edges : Fin m → WeightedEdge V}
  {entry : V → Fin m → A} {e : A}

def enter (g : V → List A) (v : V) (e : A) : V → List A := Function.update g v (g v ++ [e])

/-- A table with a row for each vertex, where an edge is entered at both of its ends, with
the other end. -/
def rows (edges : Fin m → WeightedEdge V) (entry : V → Fin m → A) : V → List A :=
  (List.finRange m).foldl (fun g i =>
    enter (enter g (edges i).a (entry (edges i).b i)) (edges i).b (entry (edges i).a i)) fun _ => []

/-- What is entered for an edge in the row of `v`. -/
def entries (edges : Fin m → WeightedEdge V) (entry : V → Fin m → A) (v : V) (i : Fin m) : List A :=
  (if (edges i).a = v then [entry (edges i).b i] else []) ++
    if (edges i).b = v then [entry (edges i).a i] else []

theorem enter_apply (g : V → List A) (v : V) (e : A) (u : V) :
    enter g v e u = g u ++ if v = u then [e] else [] := by
  unfold enter
  obtain rfl | hne := eq_or_ne v u
  · rw [Function.update_self, if_pos rfl]
  · rw [Function.update_of_ne hne.symm, if_neg hne, List.append_nil]

theorem mem_enter {g : V → List A} {a : A} :
    e ∈ enter g v a u ↔ e ∈ g u ∨ (u = v ∧ e = a) := by
  rw [enter_apply, List.mem_append]
  apply or_congr_right
  split
  case isTrue h => simp [h]
  case isFalse h => simp [Ne.symm h]

theorem rows_eq (edges : Fin m → WeightedEdge V) (entry : V → Fin m → A) (v : V) :
    rows edges entry v = (List.finRange m).flatMap (entries edges entry v) := by
  have hfold : ∀ (is : List (Fin m)) (g : V → List A), is.foldl (fun g i =>
      enter (enter g (edges i).a (entry (edges i).b i)) (edges i).b (entry (edges i).a i)) g v =
        g v ++ is.flatMap (entries edges entry v) := by
    intro is
    induction is with
    | nil => exact fun g => (List.append_nil _).symm
    | cons i is ih =>
        intro g
        rw [List.foldl_cons, ih, enter_apply, enter_apply, List.flatMap_cons, entries,
          List.append_assoc, List.append_assoc, List.append_assoc]
  exact (hfold _ _).trans (List.nil_append _)

theorem mem_entries {i : Fin m} :
    e ∈ entries edges entry v i ↔ ∃ u, Joins edges v i u ∧ e = entry u i := by
  unfold entries
  rw [List.mem_append]
  constructor
  · rintro (he | he)
    · split at he
      case isTrue ha => exact ⟨_, .inl ⟨ha, rfl⟩, List.mem_singleton.mp he⟩
      case isFalse => cases he
    · split at he
      case isTrue hb => exact ⟨_, .inr ⟨hb, rfl⟩, List.mem_singleton.mp he⟩
      case isFalse => cases he
  · rintro ⟨u, ⟨ha, rfl⟩ | ⟨hb, rfl⟩, rfl⟩
    · exact .inl (by rw [if_pos ha]; exact List.mem_cons_self)
    · exact .inr (by rw [if_pos hb]; exact List.mem_cons_self)

theorem mem_rows : e ∈ rows edges entry v ↔ ∃ i u, Joins edges v i u ∧ e = entry u i := by
  simp only [rows_eq, List.mem_flatMap, List.mem_finRange, true_and, mem_entries]

end Rows

end Multigraph

end MoreCpp.Library
