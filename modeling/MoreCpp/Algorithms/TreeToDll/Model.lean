import Mathlib.Logic.Function.Basic
import MoreCpp.Library.Loop

/-!
`b_to_dll_stack` and `bt_to_dll_morris` of `algorithms/linked_list/linked_list.cpp`.
A node is known by its address; the `data` of nodes is not read. `none` is undefined
behaviour, which is following a null pointer, or that `fuel` rounds of a loop do not
lead to its end.
-/

namespace MoreCpp.TreeToDll

open Library

structure TreeNode where
  left : Option Nat
  right : Option Nat

abbrev Memory := Nat → Option TreeNode

namespace Memory

/-- `p->left`. -/
def getLeft (p : Option Nat) (m : Memory) : Option (Option Nat) := do
  let node ← m (← p)
  return node.left

/-- `p->right`. -/
def getRight (p : Option Nat) (m : Memory) : Option (Option Nat) := do
  let node ← m (← p)
  return node.right

/-- `p->left = q`. -/
def setLeft (p q : Option Nat) (m : Memory) : Option Memory := do
  let p ← p
  let node ← m p
  return Function.update m p (some { node with left := q })

/-- `p->right = q`. -/
def setRight (p q : Option Nat) (m : Memory) : Option Memory := do
  let p ← p
  let node ← m p
  return Function.update m p (some { node with right := q })

end Memory

structure StackState where
  st : List (Option Nat × Nat)
  head : Option Nat
  prev : Option Nat
  flag : Bool
  memory : Memory

def StackState.round (s : StackState) : Option (StackState ⊕ (Option Nat × Memory)) :=
  match s.st with
  | [] => some (.inr (s.head, s.memory))
  | (t, state) :: st =>
      if state = 3 ∨ t = none then some (.inl { s with st := st })
      else
        let st := (t, state + 1) :: st
        if state = 0 then do
          let left ← s.memory.getLeft t
          return .inl { s with st := (left, 0) :: st }
        else if state = 1 then do
          let memory ← if s.prev ≠ none then s.memory.setRight s.prev t else some s.memory
          let memory ← memory.setLeft t s.prev
          return .inl { st := st, head := if s.flag then t else s.head, prev := t, flag := false,
                        memory := memory }
        else if state = 2 then do
          let right ← s.memory.getRight t
          return .inl { s with st := (right, 0) :: st }
        else some (.inl { s with st := st })

/-- The head of the list, and the memory that holds it. -/
def bToDllStack (fuel : Nat) (root : Option Nat) (m : Memory) : Option (Option Nat × Memory) :=
  loop StackState.round fuel
    { st := [(root, 0)], head := none, prev := none, flag := true, memory := m }

structure MorrisState where
  cur : Option Nat
  prev : Option Nat
  head : Option Nat
  memory : Memory

/-- The search to the right of `pre`, which ends at a node without a right one or
with the right one `cur`. -/
def searchRound (cur : Option Nat) (m : Memory) (pre : Option Nat) :
    Option (Option Nat ⊕ Option Nat) := do
  let right ← m.getRight pre
  return if right ≠ none ∧ right ≠ cur then .inl right else .inr pre

def MorrisState.round (fuel : Nat) (s : MorrisState) :
    Option (MorrisState ⊕ (Option Nat × Memory)) :=
  if s.cur = none then some (.inr (s.head, s.memory))
  else do
    let left ← s.memory.getLeft s.cur
    if left = none then
      if s.head = none then
        let right ← s.memory.getRight s.cur
        return .inl { s with prev := s.cur, head := s.cur, cur := right }
      else
        let memory ← s.memory.setRight s.prev s.cur
        let memory ← memory.setLeft s.cur s.prev
        let right ← memory.getRight s.cur
        return .inl { s with prev := s.cur, cur := right, memory := memory }
    else
      let pre ← loop (searchRound s.cur s.memory) fuel left
      let right ← s.memory.getRight pre
      if right = none then
        let memory ← s.memory.setRight pre s.cur
        let left ← memory.getLeft s.cur
        return .inl { s with cur := left, memory := memory }
      else
        let cur ← s.memory.getRight s.prev
        let memory ← s.memory.setRight s.prev cur
        let memory ← memory.setLeft cur s.prev
        let right ← memory.getRight cur
        return .inl { s with prev := cur, cur := right, memory := memory }

def btToDllMorris (fuel : Nat) (root : Option Nat) (m : Memory) : Option (Option Nat × Memory) :=
  loop (MorrisState.round fuel) fuel { cur := root, prev := none, head := none, memory := m }

end MoreCpp.TreeToDll
