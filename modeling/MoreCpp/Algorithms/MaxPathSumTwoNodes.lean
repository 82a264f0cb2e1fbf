import MoreCpp.Library.TreePaths
import Mathlib.Algebra.Order.Group.Int
import Mathlib.Order.Bounds.Basic

/-!
`max_path_sum_two_nodes` of `algorithms/trees/trees.cpp`, with integers of any size.
-/

namespace MoreCpp

open Library

namespace MaxPathSumTwoNodes

/-- `!p`. -/
def isNull : BinaryTree Int → Bool
  | .nil => true
  | .node .. => false

/-- The recursive function, with `mx_path` before and after. -/
def f : BinaryTree Int → Int → Int × Int
  | .nil, mxPath => (0, mxPath)
  | .node data left right, mxPath =>
    let (l, mxPath) := f left mxPath
    let (r, mxPath) := f right mxPath
    if !isNull left && !isNull right then
      let mx := l + r + data
      (data + max l r, max mxPath mx)
    else (data + if l ≠ 0 then l else r, mxPath)

def maxPathSumTwoNodes (root : BinaryTree Int) : Int := (f root (-10 ^ 9)).2

/-- `best` is the largest sum down to a leaf, or 0 if there is none. -/
def Best (t : BinaryTree Int) (best : Int) : Prop :=
  t = .nil ∧ best = 0 ∨ t ≠ .nil ∧ IsGreatest (downSums t) best

variable {t left right : BinaryTree Int} {a l r m m' best : Int} {A B : Set Int}

theorem Best.of_ne_nil (h : Best t best) (ht : t ≠ .nil) : IsGreatest (downSums t) best :=
  h.elim (fun h => absurd h.1 ht) And.right

theorem Best.of_nil (h : Best .nil best) : best = 0 :=
  h.elim And.right fun h => absurd rfl h.1

theorem isNull_eq_false (ht : t ≠ .nil) : isNull t = false := by
  cases t with
  | nil => exact absurd rfl ht
  | node b l r => rfl

/-- Two greatest elements in a row. -/
theorem isGreatest_insert_union (hA : IsGreatest (insert m A) best)
    (hB : IsGreatest (insert best B) m') : IsGreatest (insert m (A ∪ B)) m' := by
  constructor
  · rcases hB.1 with rfl | hmem
    · exact hA.1.imp_right .inl
    · exact .inr (.inr hmem)
  · rintro x (rfl | hx | hx)
    · exact (hA.2 (.inl rfl)).trans (hB.2 (.inl rfl))
    · exact (hA.2 (.inr hx)).trans (hB.2 (.inl rfl))
    · exact hB.2 (.inr hx)

/-- The largest sum of a path that turns at the root. -/
theorem isGreatest_turn (hl : IsGreatest (downSums left) l) (hr : IsGreatest (downSums right) r) :
    IsGreatest {s | ∃ x ∈ downSums left, ∃ y ∈ downSums right, s = x + (a + y)} (l + r + a) := by
  constructor
  · exact ⟨l, hl.1, r, hr.1, by omega⟩
  · rintro _ ⟨x, hx, y, hy, rfl⟩
    have hxl := hl.2 hx
    have hyr := hr.2 hy
    omega

theorem isGreatest_down (hl : IsGreatest (downSums left) l) (hr : IsGreatest (downSums right) r) :
    IsGreatest ((a + ·) '' (downSums left ∪ downSums right)) (a + max l r) :=
  Monotone.map_isGreatest (fun _ _ hle => Int.add_le_add_left hle a) (hl.union hr)

theorem leafSums_node : leafSums (.node a left right) = leafSums left ∪ (leafSums right ∪
    {s | ∃ x ∈ downSums left, ∃ y ∈ downSums right, s = x + (a + y)}) :=
  Set.ext fun _ => mem_leafSums_node

/-- No path turns at a node with one child. -/
theorem leafSums_of_nil (h : left = .nil ∨ right = .nil) :
    leafSums (.node a left right) = leafSums left ∪ leafSums right := by
  rw [leafSums_node]
  rcases h with rfl | rfl
  · simp [downSums_nil]
  · simp [downSums_nil]

/-- The sum below a node with at most one child, where 0 stands for no child. -/
theorem best_of_nil (hl : Best left l) (hr : Best right r) (h : left = .nil ∨ right = .nil) :
    Best (.node a left right) (a + if l ≠ 0 then l else r) := by
  refine .inr ⟨nofun, ?_⟩
  rcases h with rfl | rfl
  · have hchoice : (if l ≠ 0 then l else r) = r := if_neg (not_not_intro hl.of_nil)
    rw [hchoice]
    by_cases hright : right = .nil
    · subst hright
      rw [hr.of_nil, downSums_leaf, add_zero]
      exact isGreatest_singleton
    · rw [downSums_node fun hboth => hright hboth.2, downSums_nil, Set.empty_union]
      exact Monotone.map_isGreatest (fun _ _ hle => Int.add_le_add_left hle a)
        (hr.of_ne_nil hright)
  · have hchoice : (if l ≠ 0 then l else r) = l := by
      rw [hr.of_nil]
      split <;> omega
    rw [hchoice]
    by_cases hleft : left = .nil
    · subst hleft
      rw [hl.of_nil, downSums_leaf, add_zero]
      exact isGreatest_singleton
    · rw [downSums_node fun hboth => hleft hboth.1, downSums_nil, Set.union_empty]
      exact Monotone.map_isGreatest (fun _ _ hle => Int.add_le_add_left hle a)
        (hl.of_ne_nil hleft)

/-- A call finds the largest sum down to a leaf, and raises `mx_path` to the largest one
between two leaves. -/
theorem f_spec (t : BinaryTree Int) (mxPath : Int) :
    Best t (f t mxPath).1 ∧ IsGreatest (insert mxPath (leafSums t)) (f t mxPath).2 := by
  induction t generalizing mxPath with
  | nil =>
      refine ⟨.inl ⟨rfl, rfl⟩, ?_⟩
      rw [leafSums_nil, insert_empty_eq]
      exact isGreatest_singleton
  | node data left right ihl ihr =>
      obtain ⟨hl, hmaxl⟩ := ihl mxPath
      obtain ⟨hr, hmaxr⟩ := ihr (f left mxPath).2
      by_cases hboth : left ≠ .nil ∧ right ≠ .nil
      · have hl' := hl.of_ne_nil hboth.1
        have hr' := hr.of_ne_nil hboth.2
        rw [f, isNull_eq_false hboth.1, isNull_eq_false hboth.2]
        constructor
        · refine .inr ⟨nofun, ?_⟩
          rw [downSums_node fun hnil => hboth.1 hnil.1]
          exact isGreatest_down hl' hr'
        · rw [leafSums_node]
          have hturn := (isGreatest_turn (a := data) hl' hr').insert (f right (f left mxPath).2).2
          exact isGreatest_insert_union hmaxl (isGreatest_insert_union hmaxr hturn)
      · have hnil : left = .nil ∨ right = .nil := by
          rwa [not_and_or, not_not, not_not] at hboth
        have hbranch : (!isNull left && !isNull right) = false := by
          rcases hnil with rfl | rfl
          · rfl
          · exact Bool.and_false _
        simp only [f, hbranch, Bool.false_eq_true, if_false]
        refine ⟨best_of_nil hl hr hnil, ?_⟩
        rw [leafSums_of_nil hnil]
        exact isGreatest_insert_union hmaxl hmaxr

/-- The result is the largest sum on a path between two leaves, where these sums exceed
the initial value. -/
theorem maxPathSumTwoNodes_isGreatest (root : BinaryTree Int)
    (hnode : ∃ p a left right, subtreeAt root p = .node a left right ∧ left ≠ .nil ∧ right ≠ .nil)
    (hlarge : ∀ s ∈ leafSums root, -10 ^ 9 < s) :
    IsGreatest (leafSums root) (maxPathSumTwoNodes root) := by
  obtain ⟨p, a, left, right, hp, hleft, hright⟩ := hnode
  obtain ⟨s, hs⟩ := leafSums_nonempty hp hleft hright
  have hmax : IsGreatest (insert (-10 ^ 9) (leafSums root)) (maxPathSumTwoNodes root) :=
    (f_spec root (-10 ^ 9)).2
  refine ⟨hmax.1.resolve_left fun heq => ?_, fun x hx => hmax.2 (.inr hx)⟩
  have hbelow := (hlarge s hs).trans_le (hmax.2 (.inr hs))
  exact absurd heq hbelow.ne'

/-- Both children have the sum that also stands for no child. -/
theorem maxPathSumTwoNodes_isGreatest_zero :
    IsGreatest (leafSums (.node 0 (.node 0 .nil .nil) (.node 0 .nil .nil)))
      (maxPathSumTwoNodes (.node 0 (.node 0 .nil .nil) (.node 0 .nil .nil))) :=
  maxPathSumTwoNodes_isGreatest (.node 0 (.node 0 .nil .nil) (.node 0 .nil .nil))
    ⟨[], 0, _, _, rfl, nofun, nofun⟩ fun s hs => by
      have hleaf : leafSums (.node (0 : Int) .nil .nil) = ∅ := by
        rw [leafSums_of_nil (.inl rfl), leafSums_nil, Set.union_empty]
      rw [leafSums_node, hleaf, Set.empty_union, Set.empty_union] at hs
      obtain ⟨x, hx, y, hy, rfl⟩ := hs
      rw [downSums_leaf] at hx hy
      rw [Set.mem_singleton_iff.mp hx, Set.mem_singleton_iff.mp hy]
      decide

end MaxPathSumTwoNodes

end MoreCpp
