import Mathlib.Logic.Function.Basic
import MoreCpp.Library.TransitionSystem

/-!
`DoublyLinkedList` of `algorithms/linked_list/doubly.cpp`. A node is known by its
address, which may be one that a deleted node had. `none` is undefined behaviour:
following a null pointer or a pointer to a deleted node, and deleting a node twice.
`sz` does not overflow.
-/

namespace MoreCpp.DoublyLinkedList

open Library

structure Node where
  val : Int
  prev : Option Nat
  next : Option Nat

structure Memory where
  nodes : Nat → Option Node
  head : Option Nat
  tail : Option Nat
  sz : Int

namespace Memory

def initial : Memory := ⟨fun _ => none, none, none, 0⟩

def empty (m : Memory) : Bool := m.sz = 0

/-- `new Node(value)`, which is put at `node`. -/
def newNode (node : Nat) (value : Int) (m : Memory) : Memory :=
  { m with nodes := Function.update m.nodes node (some ⟨value, none, none⟩) }

/-- `p->next`. -/
def getNext (p : Option Nat) (m : Memory) : Option (Option Nat) := do
  let node ← m.nodes (← p)
  return node.next

/-- `p->prev`. -/
def getPrev (p : Option Nat) (m : Memory) : Option (Option Nat) := do
  let node ← m.nodes (← p)
  return node.prev

/-- `p->next = q`. -/
def setNext (p q : Option Nat) (m : Memory) : Option Memory := do
  let p ← p
  let node ← m.nodes p
  return { m with nodes := Function.update m.nodes p (some { node with next := q }) }

/-- `p->prev = q`. -/
def setPrev (p q : Option Nat) (m : Memory) : Option Memory := do
  let p ← p
  let node ← m.nodes p
  return { m with nodes := Function.update m.nodes p (some { node with prev := q }) }

/-- `delete p`. -/
def delete (p : Option Nat) (m : Memory) : Option Memory :=
  match p with
  | none => some m
  | some p => (m.nodes p).map fun _ => { m with nodes := Function.update m.nodes p none }

def pushFront (value : Int) (node : Nat) (m : Memory) : Option Memory := do
  let m := m.newNode node value
  let m ← if m.empty then some { m with head := some node, tail := some node }
    else do
      let m ← m.setNext (some node) m.head
      let m ← m.setPrev m.head (some node)
      some { m with head := some node }
  return { m with sz := m.sz + 1 }

def pushBack (value : Int) (node : Nat) (m : Memory) : Option Memory := do
  let m := m.newNode node value
  let m ← if m.empty then some { m with head := some node, tail := some node }
    else do
      let m ← m.setNext m.tail (some node)
      let m ← m.setPrev (some node) m.tail
      some { m with tail := some node }
  return { m with sz := m.sz + 1 }

def popFront (m : Memory) : Option Memory :=
  if m.empty then some m
  else do
    let oldHead := m.head
    let m ← if m.head = m.tail then some { m with head := none, tail := none }
      else do
        let next ← m.getNext m.head
        let m := { m with head := next }
        m.setPrev m.head none
    let m ← m.delete oldHead
    return { m with sz := m.sz - 1 }

def popBack (m : Memory) : Option Memory :=
  if m.empty then some m
  else do
    let oldTail := m.tail
    let m ← if m.head = m.tail then some { m with head := none, tail := none }
      else do
        let prev ← m.getPrev m.tail
        let m := { m with tail := prev }
        m.setNext m.tail none
    let m ← m.delete oldTail
    return { m with sz := m.sz - 1 }

def insertAfter (pos : Option Nat) (value : Int) (node : Nat) (m : Memory) : Option Memory :=
  if pos = none then m.pushFront value node
  else if pos = m.tail then m.pushBack value node
  else do
    let m := m.newNode node value
    let after ← m.getNext pos
    let m ← m.setPrev (some node) pos
    let m ← m.setNext (some node) after
    let m ← m.setNext pos (some node)
    let m ← m.setPrev after (some node)
    return { m with sz := m.sz + 1 }

def insertBefore (pos : Option Nat) (value : Int) (node : Nat) (m : Memory) : Option Memory :=
  if pos = none then m.pushBack value node
  else if pos = m.head then m.pushFront value node
  else do
    let m := m.newNode node value
    let before ← m.getPrev pos
    let m ← m.setPrev (some node) before
    let m ← m.setNext (some node) pos
    let m ← m.setNext before (some node)
    let m ← m.setPrev pos (some node)
    return { m with sz := m.sz + 1 }

def erase (node : Option Nat) (m : Memory) : Option Memory :=
  if node = none then some m
  else if node = m.head then m.popFront
  else if node = m.tail then m.popBack
  else do
    let before ← m.getPrev node
    let after ← m.getNext node
    let m ← m.setNext before after
    let m ← m.setPrev after before
    let m ← m.delete node
    return { m with sz := m.sz - 1 }

/-- The loop deletes one node a round. -/
def clearLoop : Nat → Option Nat → Memory → Option Memory
  | 0, _, _ => none
  | fuel + 1, curr, m =>
      if curr = none then some m
      else do
        let nextNode ← m.getNext curr
        let m ← m.delete curr
        m.clearLoop fuel nextNode

def clear (m : Memory) : Option Memory := do
  let m ← m.clearLoop (m.sz.toNat + 1) m.head
  return { m with head := none, tail := none, sz := 0 }

end Memory

/-- Calls on the list; `node` is the address of a new node, which the call returns. -/
inductive Op where
  | pushFront (value : Int) (node : Nat)
  | pushBack (value : Int) (node : Nat)
  | popFront
  | popBack
  | insertAfter (pos : Option Nat) (value : Int) (node : Nat)
  | insertBefore (pos : Option Nat) (value : Int) (node : Nat)
  | erase (node : Option Nat)
  | clear

def Memory.perform (m : Memory) : Op → Option Memory
  | .pushFront value node => m.pushFront value node
  | .pushBack value node => m.pushBack value node
  | .popFront => m.popFront
  | .popBack => m.popBack
  | .insertAfter pos value node => m.insertAfter pos value node
  | .insertBefore pos value node => m.insertBefore pos value node
  | .erase node => m.erase node
  | .clear => m.clear

/-- Null, or of a node in the list. -/
def Memory.Handle (m : Memory) (pos : Option Nat) : Prop := ∀ p, pos = some p → m.nodes p ≠ none

/-- New nodes are put where there is none, and handles are good. -/
def Memory.Permitted (m : Memory) : Op → Prop
  | .pushFront _ node => m.nodes node = none
  | .pushBack _ node => m.nodes node = none
  | .insertAfter pos _ node => m.Handle pos ∧ m.nodes node = none
  | .insertBefore pos _ node => m.Handle pos ∧ m.nodes node = none
  | .erase node => m.Handle node
  | .popFront => True
  | .popBack => True
  | .clear => True

/-- The call deletes the node at `p`. -/
def Memory.Erases (m : Memory) (p : Nat) : Op → Prop
  | .popFront => m.head = some p
  | .popBack => m.tail = some p
  | .erase node => node = some p
  | .clear => True
  | _ => False

def system : System Memory Op where
  Init m := m = .initial
  Step m op m' := m.Permitted op ∧ m.perform op = some m'

end MoreCpp.DoublyLinkedList
