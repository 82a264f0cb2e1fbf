import MoreCpp.Library.Loop
import Mathlib.Data.List.Nodup
import Mathlib.Data.Tree.Basic

/-!
Orders of the nodes of a binary tree: from left to right, and level by level.
-/

namespace MoreCpp.Library

/-! ## From left to right

The nodes of a binary tree from left to right.
-/

section Inorder

variable {α : Type*}

def inorder : BinaryTree α → List α
  | .nil => []
  | .node a left right => inorder left ++ a :: inorder right

section

variable {a : α} {left right : BinaryTree α}

@[simp] theorem inorder_nil : inorder (.nil : BinaryTree α) = [] := rfl

@[simp] theorem inorder_node :
    inorder (.node a left right) = inorder left ++ a :: inorder right := rfl

theorem inorder_length (t : BinaryTree α) : (inorder t).length = t.numNodes := by
  induction t with
  | nil => rfl
  | node a left right hleft hright =>
      rw [inorder_node, List.length_append, List.length_cons, hleft, hright,
        BinaryTree.numNodes, Nat.add_assoc]

theorem inorder_eq_nil_iff {t : BinaryTree α} : inorder t = [] ↔ t = .nil := by
  cases t <;> simp

theorem inorder_getLast?_node : (inorder (.node a left right)).getLast? =
    some ((inorder right).getLast?.getD a) := by
  rw [inorder_node, List.getLast?_append_cons, List.getLast?_cons]

theorem nodup_node (h : (inorder (.node a left right)).Nodup) :
    (inorder left).Nodup ∧ (inorder right).Nodup ∧ a ∉ inorder left ∧ a ∉ inorder right ∧
      ∀ b ∈ inorder left, b ∉ inorder right := by
  rw [inorder_node, List.nodup_middle, List.nodup_cons, List.mem_append, not_or] at h
  obtain ⟨⟨hleft, hright⟩, hnodup⟩ := h
  obtain ⟨hnodupLeft, hnodupRight, hdisjoint⟩ := List.nodup_append'.mp hnodup
  exact ⟨hnodupLeft, hnodupRight, hleft, hright, fun b hb => hdisjoint hb⟩

end

theorem inorder_map {β : Type*} (f : α → β) (t : BinaryTree α) :
    inorder (t.map f) = (inorder t).map f := by
  induction t with
  | nil => rfl
  | node a l r ihl ihr =>
      rw [BinaryTree.map, inorder_node, ihl, ihr, inorder_node, List.map_append, List.map_cons]

/-- The nodes met by going right from the root. -/
def rightSpine : BinaryTree α → List α
  | .nil => []
  | .node a _ right => a :: rightSpine right

theorem mem_of_mem_rightSpine {a : α} {t : BinaryTree α} (h : a ∈ rightSpine t) :
    a ∈ inorder t := by
  induction t with
  | nil => exact h
  | node b left right _ ih =>
      rcases List.mem_cons.mp h with rfl | hright
      · exact List.mem_append_right _ (.head _)
      · exact List.mem_append_right _ (.tail _ (ih hright))

theorem rightSpine_length (t : BinaryTree α) : (rightSpine t).length ≤ t.numNodes := by
  induction t with
  | nil => exact Nat.le_refl 0
  | node a left right _ ih =>
      rw [rightSpine, List.length_cons, BinaryTree.numNodes]
      omega

/-- Going right ends at the last node. -/
theorem rightSpine_getLast? (t : BinaryTree α) :
    (rightSpine t).getLast? = (inorder t).getLast? := by
  induction t with
  | nil => rfl
  | node a left right _ ih =>
      rw [rightSpine, inorder_getLast?_node, List.getLast?_cons, ih]

end Inorder

/-! ## Level by level

Nodes level by level: a queue that takes nodes from its front and appends their children,
and the nodes of a binary tree at each depth.
-/

section LevelOrder

variable {α : Type*}

section Queue

variable {children : α → List α} {level : List α} {i : Nat} {a : α}

/-- The queue when the first `i` nodes of a level have made way for their children. -/
def queueAfter (children : α → List α) (level : List α) (i : Nat) : List α :=
  level.drop i ++ (level.take i).flatMap children

theorem queueAfter_zero : queueAfter children level 0 = level := by
  rw [queueAfter, List.drop_zero, List.take_zero, List.flatMap_nil, List.append_nil]

theorem queueAfter_length : queueAfter children level level.length = level.flatMap children := by
  rw [queueAfter, List.drop_length, List.take_length, List.nil_append]

theorem queueAfter_of_lt (hi : level[i]? = some a) :
    queueAfter children level i = a :: (level.drop (i + 1) ++ (level.take i).flatMap children) := by
  obtain ⟨hlt, rfl⟩ := List.getElem?_eq_some_iff.mp hi
  rw [queueAfter, List.drop_eq_getElem_cons hlt, List.cons_append]

theorem queueAfter_succ (hi : level[i]? = some a) :
    queueAfter children level (i + 1) =
      level.drop (i + 1) ++ (level.take i).flatMap children ++ children a := by
  rw [queueAfter, List.take_add_one, hi, Option.toList_some, List.flatMap_append,
    List.flatMap_singleton, List.append_assoc]

/-- One turn for each node of a level leaves the next level. -/
theorem forRange_level {turn : List α → Option (List α)}
    (hturn : ∀ a ∈ level, ∀ rest, turn (a :: rest) = some (rest ++ children a)) :
    forRange 0 level.length (fun _ => turn) level = some (level.flatMap children) := by
  have hturns : ∃ queue, forRange 0 level.length (fun _ => turn) level = some queue ∧
      queue = queueAfter children level (max 0 level.length) := by
    refine forRange_rule (fun i queue => queue = queueAfter children level i)
      queueAfter_zero.symm fun i queue _ hi hqueue => ?_
    have hread : level[i]? = some level[i] := List.getElem?_eq_getElem hi
    refine ⟨queueAfter children level (i + 1), ?_, rfl⟩
    rw [hqueue, queueAfter_of_lt hread, hturn _ (List.getElem_mem hi), queueAfter_succ hread]
  obtain ⟨queue, hrun, hqueue⟩ := hturns
  rw [Nat.max_eq_right (Nat.zero_le _), queueAfter_length] at hqueue
  rw [hrun, hqueue]

end Queue

/-! ## Depths -/

/-- The nodes at one depth, from left to right. -/
def atDepth : BinaryTree α → Nat → List α
  | .nil, _ => []
  | .node a _ _, 0 => [a]
  | .node _ left right, depth + 1 => atDepth left depth ++ atDepth right depth

variable {t : BinaryTree α} {a : α} {d e i j : Nat}

theorem mem_inorder_of_atDepth (h : a ∈ atDepth t d) : a ∈ inorder t := by
  induction t generalizing d with
  | nil => exact h
  | node b left right ihl ihr =>
      rw [inorder_node, List.mem_append, List.mem_cons]
      cases d with
      | zero => exact .inr (.inl (List.mem_singleton.mp h))
      | succ d =>
          rcases List.mem_append.mp h with h | h
          · exact .inl (ihl h)
          · exact .inr (.inr (ihr h))

theorem exists_atDepth (h : a ∈ inorder t) : ∃ d, a ∈ atDepth t d := by
  induction t with
  | nil => exact absurd h List.not_mem_nil
  | node b left right ihl ihr =>
      rw [inorder_node, List.mem_append, List.mem_cons] at h
      rcases h with h | rfl | h
      · obtain ⟨d, hd⟩ := ihl h
        exact ⟨d + 1, List.mem_append_left _ hd⟩
      · exact ⟨0, List.mem_singleton_self a⟩
      · obtain ⟨d, hd⟩ := ihr h
        exact ⟨d + 1, List.mem_append_right _ hd⟩

/-- A node of a tree of distinct nodes is in one place of one level. -/
theorem atDepth_inj (hnodup : (inorder t).Nodup) (hi : (atDepth t d)[i]? = some a)
    (hj : (atDepth t e)[j]? = some a) : d = e ∧ i = j := by
  induction t generalizing d e i j with
  | nil => cases hi
  | node b left right ihl ihr =>
      obtain ⟨hleft, hright, hb, hb', hapart⟩ := nodup_node hnodup
      have hbelow : ∀ {d i : Nat}, (atDepth (.node b left right) (d + 1))[i]? ≠ some b := by
        intro d i h
        rcases List.mem_append.mp (List.mem_of_getElem? h) with h | h
        · exact hb (mem_inorder_of_atDepth h)
        · exact hb' (mem_inorder_of_atDepth h)
      have hroot : ∀ {i : Nat}, (atDepth (.node b left right) 0)[i]? = some a → i = 0 ∧ a = b := by
        intro i h
        cases i with
        | zero => exact ⟨rfl, (Option.some.inj h).symm⟩
        | succ i => cases h
      match d, e with
      | 0, 0 => exact ⟨rfl, (hroot hi).1.trans (hroot hj).1.symm⟩
      | 0, e + 1 => exact (hbelow ((hroot hi).2 ▸ hj)).elim
      | d + 1, 0 => exact (hbelow ((hroot hj).2 ▸ hi)).elim
      | d + 1, e + 1 =>
          rw [atDepth, List.getElem?_append] at hi hj
          split at hi <;> split at hj
          · obtain ⟨rfl, rfl⟩ := ihl hleft hi hj
            exact ⟨rfl, rfl⟩
          · exact (hapart a (mem_inorder_of_atDepth (List.mem_of_getElem? hi))
              (mem_inorder_of_atDepth (List.mem_of_getElem? hj))).elim
          · exact (hapart a (mem_inorder_of_atDepth (List.mem_of_getElem? hj))
              (mem_inorder_of_atDepth (List.mem_of_getElem? hi))).elim
          · obtain ⟨rfl, hsame⟩ := ihr hright hi hj
            exact ⟨rfl, by omega⟩

theorem atDepth_eq_nil_iff : atDepth t d = [] ↔ t.height ≤ d := by
  induction t generalizing d with
  | nil => exact iff_of_true rfl (Nat.zero_le d)
  | node b left right ihl ihr =>
      cases d with
      | zero => simp [atDepth, BinaryTree.height]
      | succ d =>
          rw [atDepth, List.append_eq_nil_iff, ihl, ihr, BinaryTree.height, Nat.succ_le_succ_iff,
            Nat.max_le]

end LevelOrder

end MoreCpp.Library
