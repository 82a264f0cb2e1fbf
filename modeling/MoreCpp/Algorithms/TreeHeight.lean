import MoreCpp.Library.TreeOrders
import Mathlib.Algebra.Group.Int.Defs
import Mathlib.Algebra.GroupWithZero.Nat
import Mathlib.Algebra.Order.Group.Unbundled.Int
import Mathlib.Algebra.Ring.Int.Defs

/-!
The height of a tree and the test of its sums, in `algorithms/trees/trees.cpp`, each by
recursion and by a queue. A pointer is the tree that hangs there, null the empty one; no
pointer in a queue is null. The data may be of any type that adds, so of one whose sums
overflow in any way.
-/

namespace MoreCpp

open Library

namespace TreeHeight

variable {α : Type}

def heightRecursion : BinaryTree α → Int
  | .nil => -1
  | .node _ left right =>
    let l := heightRecursion left
    let r := heightRecursion right
    1 + max l r

/-- `if (p) q.push(p)`. -/
def push (p : BinaryTree α) (q : List (BinaryTree α)) : List (BinaryTree α) :=
  match p with
  | .nil => q
  | .node .. => q ++ [p]

/-- A turn of the loop over one level. -/
def visit : List (BinaryTree α) → Option (List (BinaryTree α))
  | .node _ left right :: q => some (push right (push left q))
  | _ => none

def levelRound : List (BinaryTree α) × Int → Option (List (BinaryTree α) × Int ⊕ Int)
  | ([], depth) => some (.inr (depth - 1))
  | (q, depth) => do
    let q ← forRange 0 q.length (fun _ => visit) q
    return .inl (q, depth + 1)

def heightLevelorder (fuel : Nat) : BinaryTree α → Option Int
  | .nil => some 0
  | root => loop levelRound fuel ([root], 0)

/-- `!p`. -/
def isNull : BinaryTree α → Bool
  | .nil => true
  | .node .. => false

section Sums

variable [Zero α] [Add α] [DecidableEq α]

/-- `if (p) sum += p->data`. -/
def addData (p : BinaryTree α) (sum : α) : α :=
  match p with
  | .nil => sum
  | .node data _ _ => sum + data

def childrenSumRecursion : BinaryTree α → Bool
  | .nil => true
  | .node data left right =>
    if isNull left && isNull right then true
    else
      let sum := addData right (addData left 0)
      sum = data && childrenSumRecursion left && childrenSumRecursion right

def sumRound : List (BinaryTree α) → Option (List (BinaryTree α) ⊕ Bool)
  | [] => some (.inr true)
  | .nil :: _ => none
  | .node data left right :: q =>
    if isNull left && isNull right then some (.inl q)
    else
      let sum := addData right (addData left 0)
      if sum ≠ data then some (.inr false)
      else some (.inl (push right (push left q)))

def childrenSumQueue (fuel : Nat) : BinaryTree α → Option Bool
  | .nil => some true
  | root => loop sumRound fuel [root]

end Sums

/-! ## Levels -/

/-- The children of a node that are there. -/
def children : BinaryTree α → List (BinaryTree α)
  | .nil => []
  | .node _ left right => push right (push left [])

variable {root t p : BinaryTree α} {q : List (BinaryTree α)}

theorem push_eq (p : BinaryTree α) (q : List (BinaryTree α)) : push p q = q ++ push p [] := by
  cases p with
  | nil => exact (List.append_nil q).symm
  | node a left right => rfl

theorem mem_push (h : t ∈ push p []) : t = p ∧ t ≠ .nil := by
  cases p with
  | nil => exact absurd h List.not_mem_nil
  | node a left right =>
      obtain rfl := List.mem_singleton.mp h
      exact ⟨rfl, nofun⟩

theorem push_children (a : α) (left right : BinaryTree α) (q : List (BinaryTree α)) :
    push right (push left q) = q ++ children (.node a left right) := by
  rw [push_eq right, push_eq left, children, push_eq right (push left []), List.append_assoc]

theorem visit_eq (ht : t ≠ .nil) (q : List (BinaryTree α)) :
    visit (t :: q) = some (q ++ children t) := by
  cases t with
  | nil => exact absurd rfl ht
  | node a left right => rw [visit, push_children a]

theorem ne_nil_of_mem_children (h : t ∈ children p) : t ≠ .nil := by
  cases p with
  | nil => exact absurd h List.not_mem_nil
  | node a left right =>
      rw [children, push_eq, List.mem_append] at h
      rcases h with h | h
      · exact (mem_push h).2
      · exact (mem_push h).2

/-- The nodes of a queue are not null. -/
def Present (q : List (BinaryTree α)) : Prop := ∀ t ∈ q, t ≠ .nil

theorem Present.level (q : List (BinaryTree α)) : Present (q.flatMap children) := by
  intro t ht
  obtain ⟨p, -, hp⟩ := List.mem_flatMap.mp ht
  exact ne_nil_of_mem_children hp

/-- The number of nodes below a queue. -/
def nodesBelow (q : List (BinaryTree α)) : Nat := (q.map BinaryTree.numNodes).sum

theorem nodesBelow_push (p : BinaryTree α) : nodesBelow (push p []) = p.numNodes := by
  cases p with
  | nil => rfl
  | node a left right => rfl

theorem nodesBelow_append (q q' : List (BinaryTree α)) :
    nodesBelow (q ++ q') = nodesBelow q + nodesBelow q' := by
  rw [nodesBelow, List.map_append, List.sum_append]
  rfl

theorem nodesBelow_children (a : α) (left right : BinaryTree α) :
    nodesBelow (children (.node a left right)) = left.numNodes + right.numNodes := by
  rw [children, push_eq, nodesBelow_append, nodesBelow_push, nodesBelow_push]

/-! ## Heights -/

/-- The height of the highest tree of a queue. -/
def highest (q : List (BinaryTree α)) : Int := q.foldr (fun t h => max (heightRecursion t) h) (-1)

theorem neg_one_le_height (t : BinaryTree α) : -1 ≤ heightRecursion t := by
  induction t with
  | nil => exact Int.le_refl _
  | node a left right ihl ihr => simp only [heightRecursion]; omega

theorem neg_one_le_highest (q : List (BinaryTree α)) : -1 ≤ highest q := by
  induction q with
  | nil => exact Int.le_refl _
  | cons t q ih => exact ih.trans (Int.le_max_right ..)

theorem highest_append (q q' : List (BinaryTree α)) :
    highest (q ++ q') = max (highest q) (highest q') := by
  induction q with
  | nil => exact (max_eq_right (neg_one_le_highest q')).symm
  | cons t q ih =>
      show max (heightRecursion t) (highest (q ++ q')) = _
      rw [ih, ← max_assoc]
      rfl

theorem highest_push (p : BinaryTree α) : highest (push p []) = heightRecursion p := by
  cases p with
  | nil => rfl
  | node a left right => exact max_eq_left (neg_one_le_height _)

theorem highest_children (ht : t ≠ .nil) : heightRecursion t = 1 + highest (children t) := by
  cases t with
  | nil => exact absurd rfl ht
  | node a left right =>
      rw [children, push_eq, highest_append, highest_push, highest_push]
      rfl

/-- The next level is one lower. -/
theorem highest_level (hq : q ≠ []) (hpresent : Present q) :
    highest q = 1 + highest (q.flatMap children) := by
  induction q with
  | nil => exact absurd rfl hq
  | cons t q ih =>
      have hroot : heightRecursion t = 1 + highest (children t) :=
        highest_children (hpresent t List.mem_cons_self)
      rw [List.flatMap_cons, highest_append]
      show max (heightRecursion t) (highest q) = _
      cases q with
      | nil =>
          have hleast := neg_one_le_highest (children t)
          have hnone : highest ([] : List (BinaryTree α)) = -1 := rfl
          rw [List.flatMap_nil, hnone]
          omega
      | cons t' q' =>
          have hrest := ih (List.cons_ne_nil _ _) fun t ht => hpresent t (List.mem_cons_of_mem _ ht)
          omega

theorem levelRound_eq (hq : q ≠ []) (hpresent : Present q) (depth : Int) :
    levelRound (q, depth) = some (.inl (q.flatMap children, depth + 1)) := by
  have hrun : forRange 0 q.length (fun _ => visit) q = some (q.flatMap children) :=
    forRange_level fun t ht rest => visit_eq (hpresent t ht) rest
  cases q with
  | nil => exact absurd rfl hq
  | cons t q =>
      rw [levelRound, hrun]
      · rfl
      · exact fun h => absurd h (List.cons_ne_nil t q)

theorem heightLevelorder_eq (hroot : root ≠ .nil) {fuel : Nat}
    (hfuel : (heightRecursion root + 1).toNat < fuel) :
    heightLevelorder fuel root = some (heightRecursion root) := by
  have hstart : heightLevelorder fuel root = loop levelRound fuel ([root], 0) := by
    cases root with
    | nil => exact absurd rfl hroot
    | node a left right => rfl
  have hhighest : highest [root] = heightRecursion root :=
    max_eq_left (neg_one_le_height root)
  have hloop : ∃ result, loop levelRound fuel ([root], 0) = some result ∧
      result = heightRecursion root := by
    -- each round adds to the depth what the highest tree of the queue loses
    refine loop_total (fun s => Present s.1 ∧ s.2 + highest s.1 = heightRecursion root)
      (fun s => (highest s.1 + 1).toNat) ?_
      ⟨fun t ht => by rwa [List.mem_singleton.mp ht], by rw [hhighest]; exact Int.zero_add _⟩
      (by rwa [hhighest])
    rintro ⟨q, depth⟩ ⟨hpresent, hsum⟩
    dsimp only at hpresent hsum
    by_cases hq : q = []
    · subst hq
      exact .inl ⟨depth - 1, rfl, hsum⟩
    · have hlevel := highest_level hq hpresent
      have hleast := neg_one_le_highest (q.flatMap children)
      refine .inr ⟨(q.flatMap children, depth + 1), levelRound_eq hq hpresent depth,
        ⟨Present.level q, ?_⟩, ?_⟩
      · dsimp only
        omega
      · dsimp only
        omega
  obtain ⟨result, hrun, hresult⟩ := hloop
  rw [hstart, hrun, hresult]

theorem height_add_one (t : BinaryTree α) : heightRecursion t + 1 = t.height := by
  induction t with
  | nil => rfl
  | node a left right ihl ihr =>
      simp only [heightRecursion, BinaryTree.height]
      omega

/-! ## Sums -/

section Sums

variable [Zero α] [Add α] [DecidableEq α]

theorem all_push (p : BinaryTree α) :
    (push p []).all childrenSumRecursion = childrenSumRecursion p := by
  cases p with
  | nil => rfl
  | node a left right => exact Bool.and_true _

theorem all_children (a : α) (left right : BinaryTree α) :
    (children (.node a left right)).all childrenSumRecursion =
      (childrenSumRecursion left && childrenSumRecursion right) := by
  rw [children, push_eq, List.all_append, all_push, all_push]

/-- A round ends with what the queue comes to, or leaves a queue that comes to the same. -/
theorem sumRound_step (hpresent : Present q) :
    (∃ result, sumRound q = some (.inr result) ∧ result = q.all childrenSumRecursion) ∨
      ∃ q', sumRound q = some (.inl q') ∧ (Present q' ∧
        q'.all childrenSumRecursion = q.all childrenSumRecursion) ∧
        nodesBelow q' < nodesBelow q := by
  match q with
  | [] => exact .inl ⟨true, rfl, rfl⟩
  | .nil :: q => exact absurd rfl (hpresent .nil List.mem_cons_self)
  | .node data left right :: q =>
      have hrest : Present q := fun t ht => hpresent t (List.mem_cons_of_mem _ ht)
      have hcount : nodesBelow (.node data left right :: q) =
          left.numNodes + right.numNodes + 1 + nodesBelow q := rfl
      rw [sumRound, List.all_cons, childrenSumRecursion]
      split
      case isTrue hleaf =>
        exact .inr ⟨q, rfl, ⟨hrest, rfl⟩, by omega⟩
      case isFalse hleaf =>
        by_cases hsum : addData right (addData left 0) = data
        · refine .inr ⟨q ++ children (.node data left right), ?_, ⟨?_, ?_⟩, ?_⟩
          · rw [push_children data]
            exact if_neg (not_not_intro hsum)
          · intro t ht
            rcases List.mem_append.mp ht with ht | ht
            · exact hrest t ht
            · exact ne_nil_of_mem_children ht
          · dsimp only
            rw [List.all_append, all_children, decide_eq_true hsum, Bool.true_and, Bool.and_comm]
          · rw [nodesBelow_append, nodesBelow_children, hcount]
            omega
        · refine .inl ⟨false, if_pos hsum, ?_⟩
          dsimp only
          rw [decide_eq_false hsum, Bool.false_and, Bool.false_and, Bool.false_and]

theorem childrenSumQueue_eq {fuel : Nat} (hfuel : root.numNodes < fuel) :
    childrenSumQueue fuel root = some (childrenSumRecursion root) := by
  by_cases hroot : root = .nil
  · rw [hroot]
    rfl
  · have hstart : childrenSumQueue fuel root = loop sumRound fuel [root] := by
      cases root with
      | nil => exact absurd rfl hroot
      | node a left right => rfl
    have hall : [root].all childrenSumRecursion = childrenSumRecursion root := Bool.and_true _
    have hloop : ∃ result, loop sumRound fuel [root] = some result ∧
        result = childrenSumRecursion root := by
      refine loop_total
        (fun q => Present q ∧ q.all childrenSumRecursion = childrenSumRecursion root) nodesBelow
        ?_ ⟨fun t ht => by rwa [List.mem_singleton.mp ht], hall⟩ hfuel
      rintro q ⟨hpresent, hsame⟩
      obtain ⟨result, hround, hresult⟩ | ⟨q', hround, ⟨hpresent', hsame'⟩, hless⟩ :=
        sumRound_step hpresent
      · exact .inl ⟨result, hround, hresult.trans hsame⟩
      · exact .inr ⟨q', hround, ⟨hpresent', hsame'.trans hsame⟩, hless⟩
    obtain ⟨result, hrun, hresult⟩ := hloop
    rw [hstart, hrun, hresult]

/-- Both pairs of functions agree on the trees that have a node. -/
theorem agree_iff (root : BinaryTree α) (fuel : Nat) (hfuel : root.numNodes < fuel) :
    (heightLevelorder fuel root = some (heightRecursion root) ∧
      childrenSumQueue fuel root = some (childrenSumRecursion root)) ↔ root ≠ .nil := by
  constructor
  · rintro ⟨hheight, -⟩ rfl
    cases hheight
  · intro hroot
    refine ⟨heightLevelorder_eq hroot ?_, childrenSumQueue_eq hfuel⟩
    rw [height_add_one, Int.toNat_natCast]
    exact root.height_le_numNodes.trans_lt hfuel

theorem agree_iff_leaf : (.node 7 .nil .nil : BinaryTree Int).numNodes < 2 ∧
    ((heightLevelorder 2 (.node 7 .nil .nil : BinaryTree Int) =
        some (heightRecursion (.node 7 .nil .nil : BinaryTree Int)) ∧
      childrenSumQueue 2 (.node 7 .nil .nil : BinaryTree Int) =
        some (childrenSumRecursion (.node 7 .nil .nil : BinaryTree Int))) ↔
      (.node 7 .nil .nil : BinaryTree Int) ≠ .nil) :=
  ⟨by decide, agree_iff (.node 7 .nil .nil) 2 (by decide)⟩

/-- The recursion finds -1 for the height of an empty tree, and the level order 0. -/
theorem empty_disagrees : heightRecursion (.nil : BinaryTree Int) = -1 ∧
    ∀ fuel, heightLevelorder fuel (.nil : BinaryTree Int) = some 0 :=
  ⟨rfl, fun _ => rfl⟩

end Sums

end TreeHeight

end MoreCpp
