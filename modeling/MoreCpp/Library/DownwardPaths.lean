import MoreCpp.Library.TreeOrders
import Mathlib.Algebra.BigOperators.Group.List.Basic
import Mathlib.Algebra.Group.Int.Defs
import Mathlib.Data.List.Count
import Mathlib.Data.Set.Card
import Mathlib.Data.Tree.Basic

/-!
The downward paths of a binary tree and the sums of the values on them, and the deepest node
that has two given nodes in its subtree.
-/

namespace MoreCpp.Library

variable {M : Type*}

/-- What hangs where a way down ends; the way turns right at `true`. -/
def subtreeAt : BinaryTree M → List Bool → BinaryTree M
  | t, [] => t
  | .nil, _ :: _ => .nil
  | .node _ left _, false :: way => subtreeAt left way
  | .node _ _ right, true :: way => subtreeAt right way

/-- The sum of the values from the root to the node where a way down ends. -/
def sumAlong [Add M] : BinaryTree M → List Bool → Option M
  | .nil, _ => none
  | .node a _ _, [] => some a
  | .node a left _, false :: way => (sumAlong left way).map (a + ·)
  | .node a _ right, true :: way => (sumAlong right way).map (a + ·)

/-- The ways from a node on to a node below with this sum. -/
def Downward [Add M] (t : BinaryTree M) (k : M) : Set (List Bool × List Bool) :=
  {path | sumAlong (subtreeAt t path.1) path.2 = some k}

/-- The sums from the root to each of the nodes. -/
def rootSums [Add M] : BinaryTree M → List M
  | .nil => []
  | .node a left right => a :: ((rootSums left).map (a + ·) ++ (rootSums right).map (a + ·))

/-- The sums from each of the nodes to each below. -/
def pathSums [Add M] : BinaryTree M → List M
  | .nil => []
  | .node a left right => rootSums (.node a left right) ++ (pathSums left ++ pathSums right)

/-! ## Sets of ways -/

section Branches

variable {γ δ : Type*} {here : Set γ} {left right : Set δ} {toLeft toRight : δ → γ}

theorem encard_branches (hleft : toLeft.Injective) (hright : toRight.Injective)
    (hhere : ∀ w, toLeft w ∉ here ∧ toRight w ∉ here) (hdiffer : ∀ v w, toLeft v ≠ toRight w) :
    (here ∪ (toLeft '' left ∪ toRight '' right)).encard =
      here.encard + (left.encard + right.encard) := by
  have hsides : Disjoint (toLeft '' left) (toRight '' right) := by
    rw [Set.disjoint_left]
    rintro _ ⟨v, -, rfl⟩ ⟨w, -, heq⟩
    exact hdiffer v w heq.symm
  have hrest : Disjoint here (toLeft '' left ∪ toRight '' right) := by
    rw [Set.disjoint_left]
    rintro x hx (⟨w, -, rfl⟩ | ⟨w, -, rfl⟩)
    · exact (hhere w).1 hx
    · exact (hhere w).2 hx
  rw [Set.encard_union_eq hrest, Set.encard_union_eq hsides, hleft.encard_image,
    hright.encard_image]

end Branches

section Group

variable [AddCommGroup M] {a k : M}

theorem map_add_eq_some {sum : Option M} : sum.map (a + ·) = some k ↔ sum = some (k - a) := by
  cases sum with
  | none => simp
  | some b => rw [Option.map_some, Option.some_inj, Option.some_inj, eq_sub_iff_add_eq']

variable [DecidableEq M]

theorem count_map_add (sums : List M) : (sums.map (a + ·)).count k = sums.count (k - a) := by
  have hk : k = a + (k - a) := (add_sub_cancel a k).symm
  conv_lhs => rw [hk]
  exact List.count_map_of_injective sums _ (add_right_injective a) (k - a)

theorem encard_sumAlong (t : BinaryTree M) (k : M) :
    {way | sumAlong t way = some k}.encard = (rootSums t).count k := by
  induction t generalizing k with
  | nil => simp [sumAlong, rootSums]
  | node a left right ihl ihr =>
      have hsplit : {way | sumAlong (.node a left right) way = some k} =
          {way | way = [] ∧ a = k} ∪
            ((false :: ·) '' {way | sumAlong left way = some (k - a)} ∪
              (true :: ·) '' {way | sumAlong right way = some (k - a)}) := by
        ext way
        match way with
        | [] => simp [sumAlong]
        | false :: way => simp [sumAlong, map_add_eq_some, -Option.map_eq_some_iff]
        | true :: way => simp [sumAlong, map_add_eq_some, -Option.map_eq_some_iff]
      have hhere : ({way | way = [] ∧ a = k} : Set (List Bool)).encard =
          if a = k then 1 else 0 := by
        split
        case isTrue h => simp [h]
        case isFalse h => simp [h]
      rw [hsplit, encard_branches List.cons_injective List.cons_injective (by simp) (by simp),
        ihl, ihr, hhere, rootSums, List.count_cons, List.count_append, count_map_add,
        count_map_add, add_comm]
      simp

theorem encard_downward (t : BinaryTree M) (k : M) :
    (Downward t k).encard = (pathSums t).count k := by
  induction t with
  | nil =>
      have hempty : Downward (.nil : BinaryTree M) k = ∅ := by
        refine Set.eq_empty_of_forall_notMem ?_
        rintro ⟨_ | ⟨_, way⟩, rest⟩ h
        · cases h
        · cases h
      rw [hempty, Set.encard_empty]
      rfl
  | node a left right ihl ihr =>
      have hsplit : Downward (.node a left right) k =
          Prod.mk [] '' {way | sumAlong (.node a left right) way = some k} ∪
            (Prod.map (false :: ·) id '' Downward left k ∪
              Prod.map (true :: ·) id '' Downward right k) := by
        ext ⟨way, rest⟩
        match way with
        | [] => simp [Downward, subtreeAt]
        | false :: way => simp [Downward, subtreeAt]
        | true :: way => simp [Downward, subtreeAt]
      have hturn : ∀ b : Bool, (Prod.map (b :: ·) id :
          List Bool × List Bool → List Bool × List Bool).Injective := fun b =>
        Prod.map_injective.mpr ⟨List.cons_injective, Function.injective_id⟩
      rw [hsplit, encard_branches (hturn false) (hturn true) (by simp) (by simp),
        (Prod.mk_right_injective []).encard_image, encard_sumAlong, ihl, ihr, pathSums,
        List.count_append, List.count_append]
      simp

end Group

/-! ## Common ancestors -/

section

variable {α : Type*}

/-- Both nodes are in the subtree of `c`, which is below all others with both. -/
def Deepest (t : BinaryTree α) (x y c : α) : Prop :=
  ∃ way left right, subtreeAt t way = .node c left right ∧
    x ∈ inorder (subtreeAt t way) ∧ y ∈ inorder (subtreeAt t way) ∧
    ∀ way', x ∈ inorder (subtreeAt t way') → y ∈ inorder (subtreeAt t way') → way' <+: way

variable {t left right : BinaryTree α} {x y a b c : α}

theorem mem_of_subtreeAt {way : List Bool} (h : a ∈ inorder (subtreeAt t way)) :
    a ∈ inorder t := by
  induction t generalizing way with
  | nil =>
      cases way with
      | nil => exact h
      | cons turn way => exact h
  | node b left right ihl ihr =>
      rw [inorder_node, List.mem_append, List.mem_cons]
      match way with
      | [] =>
          have hmem := h
          rwa [subtreeAt, inorder_node, List.mem_append, List.mem_cons] at hmem
      | false :: way => exact .inl (ihl h)
      | true :: way => exact .inr (.inr (ihr h))

/-- A place with both nodes in its subtree is the root or, on one side, such a place. -/
theorem prefix_of_sides {way : List Bool}
    (hleft : ∀ way', x ∈ inorder (subtreeAt left way') → y ∈ inorder (subtreeAt left way') →
      false :: way' <+: way)
    (hright : ∀ way', x ∈ inorder (subtreeAt right way') → y ∈ inorder (subtreeAt right way') →
      true :: way' <+: way) (way' : List Bool)
    (hx : x ∈ inorder (subtreeAt (.node b left right) way'))
    (hy : y ∈ inorder (subtreeAt (.node b left right) way')) : way' <+: way := by
  match way' with
  | [] => exact List.nil_prefix
  | false :: way' => exact hleft way' hx hy
  | true :: way' => exact hright way' hx hy

theorem deepest_left (hbr : x ∉ inorder right) (h : Deepest left x y c) :
    Deepest (.node b left right) x y c := by
  obtain ⟨way, l, r, hc, hx, hy, hbelow⟩ := h
  refine ⟨false :: way, l, r, hc, hx, hy, prefix_of_sides ?_ ?_⟩
  · exact fun way' hx hy => (List.prefix_cons_inj false).mpr (hbelow way' hx hy)
  · exact fun way' hx _ => absurd (mem_of_subtreeAt hx) hbr

theorem deepest_right (hbl : x ∉ inorder left) (h : Deepest right x y c) :
    Deepest (.node b left right) x y c := by
  obtain ⟨way, l, r, hc, hx, hy, hbelow⟩ := h
  refine ⟨true :: way, l, r, hc, hx, hy, prefix_of_sides ?_ ?_⟩
  · exact fun way' hx _ => absurd (mem_of_subtreeAt hx) hbl
  · exact fun way' hx hy => (List.prefix_cons_inj true).mpr (hbelow way' hx hy)

/-- Where neither side has both nodes, the root is deepest. -/
theorem deepest_root (hx : x ∈ inorder (.node b left right))
    (hy : y ∈ inorder (.node b left right))
    (hleft : x ∈ inorder left → y ∉ inorder left)
    (hright : x ∈ inorder right → y ∉ inorder right) :
    Deepest (.node b left right) x y b := by
  refine ⟨[], left, right, rfl, hx, hy, prefix_of_sides ?_ ?_⟩
  · exact fun way' hx hy => absurd (mem_of_subtreeAt hy) (hleft (mem_of_subtreeAt hx))
  · exact fun way' hx hy => absurd (mem_of_subtreeAt hy) (hright (mem_of_subtreeAt hx))

end

end MoreCpp.Library
