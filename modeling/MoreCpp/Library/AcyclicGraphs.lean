import Mathlib.Algebra.BigOperators.Group.Finset.Basic
import Mathlib.Algebra.GroupWithZero.Nat
import Mathlib.Data.Fintype.Card
import Mathlib.Data.Fintype.EquivFin
import Mathlib.Data.List.Nodup
import Mathlib.Data.Set.Card
import Mathlib.Data.Set.Finite.List
import Mathlib.Logic.Relation
import Mathlib.Order.CompletePartialOrder
import Mathlib.Order.WellFounded

/-!
Graphs without cycles: orders of their vertices, and their walks.
-/

namespace MoreCpp.Library

/-! ## Orders

Lists of vertices where each comes after all that lead to it, and the vertices that no
cycle leads to.
-/

section TopologicalOrder

open Relation

variable {V : Type*} {R : V → V → Prop} {l : List V} {u v : V}

/-- Each listed vertex comes after all that lead to it. -/
def Ordered (R : V → V → Prop) (l : List V) : Prop :=
  ∀ before v after, l = before ++ v :: after → ∀ u, R u v → u ∈ before

/-- No cycle leads to the vertex. -/
def CycleFree (R : V → V → Prop) (v : V) : Prop :=
  ¬ ∃ c, TransGen R c c ∧ ReflTransGen R c v

theorem Ordered.nil : Ordered R [] := by
  intro before v after h
  cases before <;> cases h

theorem Ordered.concat (h : Ordered R l) (hv : ∀ u, R u v → u ∈ l) : Ordered R (l ++ [v]) := by
  intro before w after hl u hu
  obtain rfl | ⟨after, last, rfl⟩ := after.eq_nil_or_concat'
  · obtain ⟨rfl, hlast⟩ := List.append_inj' hl rfl
    obtain rfl := List.singleton_inj.mp hlast
    exact hv u hu
  · rw [← List.cons_append, ← List.append_assoc] at hl
    obtain ⟨rfl, -⟩ := List.append_inj' hl rfl
    exact h before w after rfl u hu

theorem Ordered.mem_before (h : Ordered R l) {before after : List V}
    (hl : l = before ++ v :: after) (hu : TransGen R u v) : u ∈ before := by
  induction hu using TransGen.head_induction_on with
  | single hlink => exact h before v after hl _ hlink
  | head hlink _ ih =>
      obtain ⟨first, rest, rfl⟩ := List.append_of_mem ih
      rw [List.append_assoc, List.cons_append] at hl
      exact List.mem_append_left _ (h first _ _ hl _ hlink)

theorem Ordered.mem_of_reaches (h : Ordered R l) (hv : v ∈ l) (hu : ReflTransGen R u v) :
    u ∈ l := by
  obtain rfl | hpath := reflTransGen_iff_eq_or_transGen.mp hu
  · exact hv
  · obtain ⟨before, after, hl⟩ := List.append_of_mem hv
    rw [hl]
    exact List.mem_append_left _ (h.mem_before hl hpath)

theorem Ordered.cycleFree (h : Ordered R l) (hnodup : l.Nodup) (hv : v ∈ l) :
    CycleFree R v := by
  rintro ⟨c, hcycle, hc⟩
  obtain ⟨before, after, rfl⟩ := List.append_of_mem (h.mem_of_reaches hv hc)
  exact (List.nodup_append'.mp hnodup).2.2 (h.mem_before rfl hcycle) List.mem_cons_self

variable [Finite V]

/-- Going back from vertex to vertex forever goes round a cycle. -/
theorem not_cycleFree {S : Set V} (hback : ∀ x ∈ S, ∃ u ∈ S, R u x) (hv : v ∈ S) :
    ¬ CycleFree R v := by
  intro hfree
  let below (x y : {x // ReflTransGen R x v}) : Prop := TransGen R x.1 y.1
  have htrans : IsTrans _ below := ⟨fun _ _ _ hxy hyz => hxy.trans hyz⟩
  have hirrefl : Std.Irrefl below := ⟨fun x hcycle => hfree ⟨x.1, hcycle, x.2⟩⟩
  have hwf : WellFounded below := Finite.wellFounded_of_trans_of_irrefl below
  obtain ⟨⟨m, hm⟩, hmem, hmin⟩ := hwf.has_min {x | x.1 ∈ S} ⟨⟨v, .refl⟩, hv⟩
  obtain ⟨u, hu, hlink⟩ := hback m hmem
  exact hmin ⟨u, .head hlink hm⟩ hu (.single hlink)

/-- An ordered list that has every vertex whose predecessors it has lists those that no
cycle leads to. -/
theorem Ordered.mem_iff (h : Ordered R l) (hnodup : l.Nodup)
    (hclosed : ∀ v, v ∉ l → ∃ u, u ∉ l ∧ R u v) : v ∈ l ↔ CycleFree R v := by
  refine ⟨h.cycleFree hnodup, fun hfree => ?_⟩
  by_contra hv
  exact not_cycleFree (S := {x | x ∉ l}) hclosed hv hfree

omit [Finite V] in
theorem forall_cycleFree : (∀ v, CycleFree R v) ↔ ∀ v, ¬ TransGen R v v :=
  ⟨fun h v hcycle => h v ⟨v, hcycle, .refl⟩, fun h _ ⟨c, hcycle, _⟩ => h c hcycle⟩

omit [Finite V] in
theorem length_eq_card_iff [Fintype V] [DecidableEq V] (hnodup : l.Nodup) :
    l.length = Fintype.card V ↔ ∀ v, v ∈ l := by
  rw [← List.toFinset_card_of_nodup hnodup, Finset.card_eq_iff_eq_univ,
    Finset.eq_univ_iff_forall]
  simp only [List.mem_toFinset]

end TopologicalOrder

/-! ## Walks

The walks in a graph whose edges all lead to a lower level, so that there are finitely
many, and their number from one vertex comes from those of its successors.
-/

section AcyclicWalks

variable {V : Type*} {succ : V → List V} {l : List V} {path : List V} {v w : V}

/-- The walks from `v`, each with at least the vertex `v`. -/
def walks (succ : V → List V) (v : V) : Set (List V) :=
  {path | path.head? = some v ∧ path.IsChain fun a b => b ∈ succ a}

/-- The walks from the vertices of a list. -/
def walksFrom (succ : V → List V) (l : List V) : Set (List V) :=
  {path | ∃ w ∈ l, path ∈ walks succ w}

theorem walks_eq (v : V) : walks succ v = {[v]} ∪ List.cons v '' walksFrom succ (succ v) := by
  ext path
  constructor
  · rintro ⟨hhead, hchain⟩
    cases path with
    | nil => cases hhead
    | cons a rest =>
        obtain rfl : a = v := Option.some.inj hhead
        cases rest with
        | nil => exact .inl rfl
        | cons w rest =>
            obtain ⟨hw, hchain⟩ := List.isChain_cons_cons.mp hchain
            exact .inr ⟨w :: rest, ⟨w, hw, rfl, hchain⟩, rfl⟩
  · rintro (rfl | ⟨rest, ⟨w, hw, hhead, hchain⟩, rfl⟩)
    · exact ⟨rfl, .singleton v⟩
    · cases rest with
      | nil => cases hhead
      | cons a rest =>
          obtain rfl : a = w := Option.some.inj hhead
          exact ⟨rfl, hchain.cons_cons hw⟩

theorem walksFrom_cons (w : V) (l : List V) :
    walksFrom succ (w :: l) = walks succ w ∪ walksFrom succ l := by
  ext path
  simp only [walksFrom, List.mem_cons, exists_eq_or_imp, Set.mem_union, Set.mem_ofPred_eq]

theorem disjoint_walksFrom (hw : w ∉ l) : Disjoint (walks succ w) (walksFrom succ l) := by
  rw [Set.disjoint_left]
  rintro path ⟨hhead, -⟩ ⟨w', hw', hhead', -⟩
  obtain rfl : w = w' := Option.some.inj (hhead.symm.trans hhead')
  exact hw hw'

theorem finite_walksFrom (hfinite : ∀ w ∈ l, (walks succ w).Finite) :
    (walksFrom succ l).Finite := by
  induction l with
  | nil => simp [walksFrom]
  | cons w l ih =>
      rw [walksFrom_cons]
      exact (hfinite w List.mem_cons_self).union
        (ih fun w hw => hfinite w (List.mem_cons_of_mem _ hw))

section Level

variable {level : V → Nat} (hlevel : ∀ a, ∀ b ∈ succ a, level b < level a)

include hlevel

theorem finite_walks (v : V) : (walks succ v).Finite := by
  induction hl : level v using Nat.strong_induction_on generalizing v with
  | h l ih =>
      rw [walks_eq]
      exact (Set.finite_singleton _).union
        ((finite_walksFrom fun w hw => ih _ (hl ▸ hlevel v w hw) w rfl).image _)

theorem ncard_walksFrom (hnodup : l.Nodup) :
    (walksFrom succ l).ncard = (l.map fun w => (walks succ w).ncard).sum := by
  induction l with
  | nil => simp [walksFrom]
  | cons w l ih =>
      obtain ⟨hw, hnodup⟩ := List.nodup_cons.mp hnodup
      rw [walksFrom_cons, Set.ncard_union_eq (disjoint_walksFrom hw) (finite_walks hlevel w)
        (finite_walksFrom fun w _ => finite_walks hlevel w), ih hnodup, List.map_cons,
        List.sum_cons]

theorem ncard_walks (hnodup : (succ v).Nodup) :
    (walks succ v).ncard = 1 + ((succ v).map fun w => (walks succ w).ncard).sum := by
  have hdisjoint : Disjoint {[v]} (List.cons v '' walksFrom succ (succ v)) := by
    rw [Set.disjoint_singleton_left]
    rintro ⟨rest, ⟨w, -, hhead, -⟩, heq⟩
    obtain rfl : rest = [] := (List.cons.inj heq).2
    cases hhead
  rw [walks_eq, Set.ncard_union_eq hdisjoint (Set.finite_singleton _)
    ((finite_walksFrom fun w _ => finite_walks hlevel w).image _), Set.ncard_singleton,
    Set.ncard_image_of_injective _ List.cons_injective, ncard_walksFrom hlevel hnodup]

end Level

end AcyclicWalks

end MoreCpp.Library
