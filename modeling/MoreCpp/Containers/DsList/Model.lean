import MoreCpp.Library.LinkedCells

/-!
`ds::List` of `algorithms/linked_list/link.hpp`. The heap has one map for each
field of `NodeBase`, over the sentinels embedded in the list objects and the
nodes; a node is known by the number of its allocation. `none` is undefined
behaviour: following a pointer to something that is gone, destroying or
releasing it twice, or releasing it to an allocator it did not come from.
-/

namespace MoreCpp.DsList

open Library

inductive Exn where
  | outOfRange (what : String)
  | badAlloc
  /-- Thrown by the construction of an element. -/
  | element
deriving DecidableEq

/-- A list object; `temp` is the local variable of the copy assignment. -/
inductive ListId where
  | object (n : Nat)
  | temp
deriving DecidableEq

/-- A `NodeBase*`. -/
inductive Ptr where
  | sentinel (list : ListId)
  | node (id : Nat)
deriving DecidableEq

/-- `static_cast<Node*>`. -/
def Ptr.node? : Ptr → Option Nat
  | .sentinel _ => none
  | .node id => some id

/-- `allocator_traits`, what a move leaves in its source, finished or thrown out
of, and which of the allocations and constructions throw, by their order in time. -/
structure Setting (V Alloc : Type) where
  propagateOnCopyAssignment : Bool
  propagateOnMoveAssignment : Bool
  propagateOnSwap : Bool
  isAlwaysEqual : Bool
  eq_of_isAlwaysEqual : isAlwaysEqual = true → ∀ a b : Alloc, a = b
  selectOnCopyConstruction : Alloc → Alloc
  movedFrom : Bool → V → V
  fails : Nat → Bool

/-- The other members of a list object. -/
structure Header (Alloc : Type) where
  size : Nat
  alloc : Alloc

structure Heap (V Alloc : Type) where
  next : Ptr → Option Ptr
  prev : Ptr → Option Ptr
  value : Nat → Option V
  /-- Allocated nodes, with the allocator they came from. -/
  storage : Nat → Option Alloc
  list : ListId → Option (Header Alloc)
  /-- Nodes allocated so far. -/
  made : Nat
  /-- Allocations and constructions tried so far. -/
  time : Nat

variable {V Alloc : Type}

namespace Heap

def initial (V Alloc : Type) : Heap V Alloc where
  next := fun _ => none
  prev := fun _ => none
  value := fun _ => none
  storage := fun _ => none
  list := fun _ => none
  made := 0
  time := 0

/-- `p->next = q`. -/
def setNext (h : Heap V Alloc) (p q : Ptr) : Option (Heap V Alloc) :=
  if (h.next p).isSome then some { h with next := Function.update h.next p (some q) } else none

/-- `p->prev = q`. -/
def setPrev (h : Heap V Alloc) (p q : Ptr) : Option (Heap V Alloc) :=
  if (h.prev p).isSome then some { h with prev := Function.update h.prev p (some q) } else none

def setSize (h : Heap V Alloc) (list : ListId) (size : Nat) : Option (Heap V Alloc) :=
  (h.list list).map fun header =>
    { h with list := Function.update h.list list (some { header with size := size }) }

def setAlloc (h : Heap V Alloc) (list : ListId) (alloc : Alloc) : Option (Heap V Alloc) :=
  (h.list list).map fun header =>
    { h with list := Function.update h.list list (some { header with alloc := alloc }) }

/-- Assigning to the element of a node. -/
def setValue (h : Heap V Alloc) (node : Nat) (value : V) : Heap V Alloc :=
  { h with value := Function.update h.value node (some value) }

def resetEmpty (list : ListId) (h : Heap V Alloc) : Option (Heap V Alloc) := do
  let h ← h.setNext (.sentinel list) (.sentinel list)
  h.setPrev (.sentinel list) (.sentinel list)

/-- `sentinel_.next->prev = &sentinel_; sentinel_.prev->next = &sentinel_`. -/
def pointBack (list : ListId) (h : Heap V Alloc) : Option (Heap V Alloc) := do
  let first ← h.next (.sentinel list)
  let h ← h.setPrev first (.sentinel list)
  let last ← h.prev (.sentinel list)
  h.setNext last (.sentinel list)

def repairSentinelLinks (list : ListId) (h : Heap V Alloc) : Option (Heap V Alloc) := do
  let header ← h.list list
  if header.size = 0 then h.resetEmpty list
  else h.pointBack list

def linkBefore (list : ListId) (position node : Ptr) (h : Heap V Alloc) :
    Option (Heap V Alloc) := do
  let h ← h.setNext node position
  let before ← h.prev position
  let h ← h.setPrev node before
  let before ← h.prev position
  let h ← h.setNext before node
  let h ← h.setPrev position node
  let header ← h.list list
  h.setSize list (header.size + 1)

def unlink (node : Ptr) (h : Heap V Alloc) : Option (Heap V Alloc) := do
  let before ← h.prev node
  let after ← h.next node
  let h ← h.setNext before after
  let after ← h.next node
  let before ← h.prev node
  h.setPrev after before

def stealNodesFrom (list other : ListId) (h : Heap V Alloc) : Option (Heap V Alloc) := do
  let source ← h.list other
  if source.size = 0 then
    let h ← h.resetEmpty list
    h.setSize list 0
  else
    let first ← h.next (.sentinel other)
    let h ← h.setNext (.sentinel list) first
    let last ← h.prev (.sentinel other)
    let h ← h.setPrev (.sentinel list) last
    let h ← h.setSize list source.size
    let h ← h.pointBack list
    let h ← h.resetEmpty other
    h.setSize other 0

section Nodes

variable [DecidableEq Alloc] (E : Setting V Alloc)

def allocate (alloc : Alloc) (h : Heap V Alloc) : Except Exn Nat × Heap V Alloc :=
  if E.fails h.time then (.error .badAlloc, { h with time := h.time + 1 })
  else (.ok h.made, { h with
    storage := Function.update h.storage h.made (some alloc)
    made := h.made + 1
    time := h.time + 1 })

def deallocate (alloc : Alloc) (node : Nat) (h : Heap V Alloc) : Option (Heap V Alloc) :=
  if h.storage node = some alloc then
    some { h with storage := Function.update h.storage node none }
  else none

/-- A new node points at itself. -/
def construct (node : Nat) (value : V) (h : Heap V Alloc) : Except Exn Unit × Heap V Alloc :=
  if E.fails h.time then (.error .element, { h with time := h.time + 1 })
  else (.ok (), { h with
    next := Function.update h.next (.node node) (some (.node node))
    prev := Function.update h.prev (.node node) (some (.node node))
    value := Function.update h.value node (some value)
    time := h.time + 1 })

def destroy (node : Nat) (h : Heap V Alloc) : Option (Heap V Alloc) :=
  if (h.value node).isSome then
    some { h with
      next := Function.update h.next (.node node) none
      prev := Function.update h.prev (.node node) none
      value := Function.update h.value node none }
  else none

/-- `value` is what the arguments construct. -/
def createNode (list : ListId) (value : V) (h : Heap V Alloc) :
    Option (Except Exn Nat × Heap V Alloc) := do
  let header ← h.list list
  match h.allocate E header.alloc with
  | (.error e, h) => return (.error e, h)
  | (.ok node, h) =>
      match h.construct E node value with
      | (.error e, h) => return (.error e, ← h.deallocate header.alloc node)
      | (.ok (), h) => return (.ok node, h)

def destroyNode (list : ListId) (node : Nat) (h : Heap V Alloc) : Option (Heap V Alloc) := do
  let header ← h.list list
  let h ← h.destroy node
  h.deallocate header.alloc node

def throwIfEmpty (list : ListId) (operation : String) (h : Heap V Alloc) :
    Option (Except Exn Unit) := do
  let header ← h.list list
  if header.size = 0 then
    return .error (.outOfRange ("List::" ++ operation ++ " on empty list"))
  else return .ok ()

/-- What an operation returns: the iterator, where it returns one. -/
abbrev Outcome (V Alloc : Type) := Except Exn (Option Ptr) × Heap V Alloc

/-- `emplace`, and `insert`. -/
def emplace (list : ListId) (position : Ptr) (value : V) (h : Heap V Alloc) :
    Option (Outcome V Alloc) := do
  match ← h.createNode E list value with
  | (.error e, h) => return (.error e, h)
  | (.ok node, h) => return (.ok (some (.node node)), ← h.linkBefore list position (.node node))

/-- `push_front`, and `emplace_front`. -/
def pushFront (list : ListId) (value : V) (h : Heap V Alloc) : Option (Outcome V Alloc) := do
  let first ← h.next (.sentinel list)
  h.emplace E list first value

/-- `push_back`, and `emplace_back`. -/
def pushBack (list : ListId) (value : V) (h : Heap V Alloc) : Option (Outcome V Alloc) :=
  h.emplace E list (.sentinel list) value

def erase (list : ListId) (position : Ptr) (h : Heap V Alloc) : Option (Outcome V Alloc) :=
  if position = .sentinel list then
    some (.error (.outOfRange "List::erase cannot erase end()"), h)
  else do
    let next ← h.next position
    let h ← h.unlink position
    let node ← position.node?
    let h ← h.destroyNode list node
    let header ← h.list list
    let h ← h.setSize list (header.size - 1)
    return (.ok (some next), h)

/-- The loop erases one node a round, or throws at the end of the list. -/
def eraseLoop (list : ListId) (last : Ptr) : Nat → Ptr → Heap V Alloc → Option (Outcome V Alloc)
  | 0, _, _ => none
  | fuel + 1, first, h =>
      if first = last then some (.ok (some last), h)
      else do
        match ← h.erase list first with
        | (.ok (some next), h) => eraseLoop list last fuel next h
        | outcome => return outcome

def eraseRange (list : ListId) (first last : Ptr) (h : Heap V Alloc) :
    Option (Outcome V Alloc) := do
  let header ← h.list list
  eraseLoop list last (header.size + 1) first h

def popFront (list : ListId) (h : Heap V Alloc) : Option (Outcome V Alloc) := do
  match ← h.throwIfEmpty list "pop_front" with
  | .error e => return (.error e, h)
  | .ok () => do
      let first ← h.next (.sentinel list)
      let (result, h) ← h.erase list first
      return (result.map fun _ => none, h)

def popBack (list : ListId) (h : Heap V Alloc) : Option (Outcome V Alloc) := do
  match ← h.throwIfEmpty list "pop_back" with
  | .error e => return (.error e, h)
  | .ok () => do
      let last ← h.prev (.sentinel list)
      let (result, h) ← h.erase list last
      return (result.map fun _ => none, h)

/-- The loop destroys one node a round. -/
def clearLoop (list : ListId) : Nat → Ptr → Heap V Alloc → Option (Heap V Alloc)
  | 0, _, _ => none
  | fuel + 1, current, h =>
      if current = .sentinel list then some h
      else do
        let next ← h.next current
        let node ← current.node?
        let h ← h.destroyNode list node
        clearLoop list fuel next h

def clear (list : ListId) (h : Heap V Alloc) : Option (Heap V Alloc) := do
  let first ← h.next (.sentinel list)
  let header ← h.list list
  let h ← h.clearLoop list (header.size + 1) first
  let h ← h.resetEmpty list
  h.setSize list 0

/-- `swap(alloc_, other.alloc_)`, or the assertion that they are equal. -/
def swapAllocs (list other : ListId) (h : Heap V Alloc) : Option (Heap V Alloc) := do
  let a ← h.list list
  let b ← h.list other
  if E.propagateOnSwap then
    let h ← h.setAlloc list b.alloc
    h.setAlloc other a.alloc
  else if a.alloc = b.alloc ∨ E.isAlwaysEqual then some h
  else none

def swap (list other : ListId) (h : Heap V Alloc) : Option (Heap V Alloc) :=
  if list = other then some h
  else do
    let h ← h.swapAllocs E list other
    let first ← h.next (.sentinel list)
    let first' ← h.next (.sentinel other)
    let h ← h.setNext (.sentinel list) first'
    let h ← h.setNext (.sentinel other) first
    let last ← h.prev (.sentinel list)
    let last' ← h.prev (.sentinel other)
    let h ← h.setPrev (.sentinel list) last'
    let h ← h.setPrev (.sentinel other) last
    let a ← h.list list
    let b ← h.list other
    let h ← h.setSize list b.size
    let h ← h.setSize other a.size
    let h ← h.repairSentinelLinks list
    h.repairSentinelLinks other

/-- `sentinel_{}, size_{0}, alloc_{alloc}` of an object not in use. -/
def newList (list : ListId) (alloc : Alloc) (h : Heap V Alloc) : Option (Heap V Alloc) :=
  if (h.list list).isNone then
    some { h with
      next := Function.update h.next (.sentinel list) (some (.sentinel list))
      prev := Function.update h.prev (.sentinel list) (some (.sentinel list))
      list := Function.update h.list list (some ⟨0, alloc⟩) }
  else none

/-- The members of a list object go. -/
def dropList (list : ListId) (h : Heap V Alloc) : Heap V Alloc :=
  { h with
    next := Function.update h.next (.sentinel list) none
    prev := Function.update h.prev (.sentinel list) none
    list := Function.update h.list list none }

/-- The destructor. -/
def destruct (list : ListId) (h : Heap V Alloc) : Option (Heap V Alloc) := do
  let h ← h.clear list
  return h.dropList list

/-- `for (auto& value : other) push_back(...)`, by copies or by moves, from
`current` on. `left` is what a construction leaves in its source, finished or
thrown out of. -/
def pushEach (left : Bool → V → V) (list : ListId) (stop : Ptr) :
    Nat → Ptr → Heap V Alloc → Option (Except Exn Unit × Heap V Alloc)
  | 0, _, _ => none
  | fuel + 1, current, h =>
      if current = stop then some (.ok (), h)
      else do
        let node ← current.node?
        let value ← h.value node
        match ← h.pushBack E list value with
        | (.ok _, h) =>
            let h := h.setValue node (left true value)
            let next ← h.next current
            pushEach left list stop fuel next h
        | (.error .element, h) => return (.error .element, h.setValue node (left false value))
        | (.error e, h) => return (.error e, h)

/-- `for (const auto& value : values) push_back(value)`. -/
def pushValues (list : ListId) : List V → Heap V Alloc → Option (Except Exn Unit × Heap V Alloc)
  | [], h => some (.ok (), h)
  | value :: values, h => do
      match ← h.pushBack E list value with
      | (.ok _, h) => pushValues list values h
      | (.error e, h) => return (.error e, h)

/-- `List(initializer_list, alloc)`. It delegates, so that the destructor runs
when its body throws. -/
def constructFrom (list : ListId) (values : List V) (alloc : Alloc) (h : Heap V Alloc) :
    Option (Except Exn Unit × Heap V Alloc) := do
  let h ← h.newList list alloc
  match ← h.pushValues E list values with
  | (.ok (), h) => return (.ok (), h)
  | (.error e, h) =>
      let h ← h.clear list
      return (.error e, ← h.destruct list)

/-- The copy constructor. -/
def copyConstruct (list other : ListId) (h : Heap V Alloc) :
    Option (Except Exn Unit × Heap V Alloc) := do
  let source ← h.list other
  let h ← h.newList list (E.selectOnCopyConstruction source.alloc)
  let first ← h.next (.sentinel other)
  match ← h.pushEach E (fun _ v => v) list (.sentinel other) (source.size + 1) first with
  | (.ok (), h) => return (.ok (), h)
  | (.error e, h) =>
      let h ← h.clear list
      return (.error e, h.dropList list)

/-- The move constructor; the allocator moved from keeps its value. -/
def moveConstruct (list other : ListId) (h : Heap V Alloc) : Option (Heap V Alloc) := do
  let source ← h.list other
  let h ← h.newList list source.alloc
  h.stealNodesFrom list other

/-- `operator=(const List&)`. -/
def copyAssign (list other : ListId) (h : Heap V Alloc) :
    Option (Except Exn Unit × Heap V Alloc) :=
  if list = other then some (.ok (), h)
  else do
    let target ← h.list list
    let source ← h.list other
    let h ← h.newList .temp
      (if E.propagateOnCopyAssignment then source.alloc else target.alloc)
    let first ← h.next (.sentinel other)
    match ← h.pushEach E (fun _ v => v) .temp (.sentinel other) (source.size + 1) first with
    | (.error e, h) => return (.error e, ← h.destruct .temp)
    | (.ok (), h) =>
        let h ← h.clear list
        let h ← if E.propagateOnCopyAssignment then h.setAlloc list source.alloc else some h
        let h ← h.stealNodesFrom list .temp
        return (.ok (), ← h.destruct .temp)

/-- `operator=(List&&)`. -/
def moveAssign (list other : ListId) (h : Heap V Alloc) :
    Option (Except Exn Unit × Heap V Alloc) :=
  if list = other then some (.ok (), h)
  else do
    let h ← h.clear list
    let target ← h.list list
    let source ← h.list other
    if E.propagateOnMoveAssignment then
      let h ← h.setAlloc list source.alloc
      return (.ok (), ← h.stealNodesFrom list other)
    else if E.isAlwaysEqual ∨ target.alloc = source.alloc then
      return (.ok (), ← h.stealNodesFrom list other)
    else
      let first ← h.next (.sentinel other)
      match ← h.pushEach E E.movedFrom list (.sentinel other) (source.size + 1) first with
      | (.error e, h) => return (.error e, h)
      | (.ok (), h) => return (.ok (), ← h.clear other)

/-- From `begin()` to `end()`, forwards: the nodes and their elements. -/
def forward (list : ListId) (h : Heap V Alloc) : Option (List (Nat × V)) := do
  let header ← h.list list
  let first ← h.next (.sentinel list)
  let ptrs ← walk h.next (.sentinel list) (header.size + 1) first
  ptrs.mapM fun p => do
    let node ← p.node?
    return (node, ← h.value node)

/-- From `rbegin()` to `rend()`. -/
def backward (list : ListId) (h : Heap V Alloc) : Option (List (Nat × V)) := do
  let header ← h.list list
  let last ← h.prev (.sentinel list)
  let ptrs ← walk h.prev (.sentinel list) (header.size + 1) last
  ptrs.mapM fun p => do
    let node ← p.node?
    return (node, ← h.value node)

end Nodes

end Heap

/-- The operations on list objects. -/
inductive Op (V Alloc : Type) where
  | construct (list : Nat) (alloc : Alloc)
  | constructFrom (list : Nat) (values : List V) (alloc : Alloc)
  | copyConstruct (list other : Nat)
  | moveConstruct (list other : Nat)
  | destruct (list : Nat)
  | copyAssign (list other : Nat)
  | moveAssign (list other : Nat)
  | emplace (list : Nat) (position : Ptr) (value : V)
  | pushFront (list : Nat) (value : V)
  | pushBack (list : Nat) (value : V)
  | erase (list : Nat) (position : Ptr)
  | eraseRange (list : Nat) (first last : Ptr)
  | popFront (list : Nat)
  | popBack (list : Nat)
  | clear (list : Nat)
  | swap (list other : Nat)

namespace Heap

variable [DecidableEq Alloc]

/-- An operation; an exception leaves it and is caught by the caller. -/
def perform (E : Setting V Alloc) (h : Heap V Alloc) : Op V Alloc → Option (Outcome V Alloc)
  | .construct list alloc => (h.newList (.object list) alloc).map (.ok none, ·)
  | .constructFrom list values alloc =>
      (h.constructFrom E (.object list) values alloc).map (.map (.map fun _ => none) id)
  | .copyConstruct list other =>
      (h.copyConstruct E (.object list) (.object other)).map (.map (.map fun _ => none) id)
  | .moveConstruct list other =>
      (h.moveConstruct (.object list) (.object other)).map (.ok none, ·)
  | .destruct list => (h.destruct (.object list)).map (.ok none, ·)
  | .copyAssign list other =>
      (h.copyAssign E (.object list) (.object other)).map (.map (.map fun _ => none) id)
  | .moveAssign list other =>
      (h.moveAssign E (.object list) (.object other)).map (.map (.map fun _ => none) id)
  | .emplace list position value => h.emplace E (.object list) position value
  | .pushFront list value => h.pushFront E (.object list) value
  | .pushBack list value => h.pushBack E (.object list) value
  | .erase list position => h.erase (.object list) position
  | .eraseRange list first last => h.eraseRange (.object list) first last
  | .popFront list => h.popFront (.object list)
  | .popBack list => h.popBack (.object list)
  | .clear list => (h.clear (.object list)).map (.ok none, ·)
  | .swap list other => (h.swap E (.object list) (.object other)).map (.ok none, ·)

end Heap

end MoreCpp.DsList
