import Mathlib.Data.List.Nodup
import Mathlib.Logic.Function.Basic

/-!
`ConflatingQueue` of `impl/conflating_queue.cpp`: a list of entries, oldest
first, and a map from keys to iterators into the list. An iterator is the number
of the node it designates, so that a dangling one never meets a later node.
`none` is undefined behaviour: a dangling iterator followed, or the first entry
of an empty list.
-/

namespace MoreCpp.ConflatingQueue

inductive Exn where
  | invalidArgument (what : String)
  | badAlloc
deriving DecidableEq

/-- Where a call is thrown out of, if it gets there. -/
inductive Fault where
  | nowhere
  | listNode
  | mapNode
deriving DecidableEq

structure Node (Key Value : Type*) where
  id : Nat
  key : Key
  value : Value

structure State (Key Value : Type*) where
  capacity : Nat
  queue : List (Node Key Value)
  pending : Key → Option Nat
  /-- Nodes made so far. -/
  made : Nat

variable {Key Value : Type*} [DecidableEq Key]

namespace State

/-- The constructor. -/
def make (capacity : Nat) : Except Exn (State Key Value) :=
  if capacity = 0 then .error (.invalidArgument "capacity cant be zero.")
  else .ok ⟨capacity, [], fun _ => none, 0⟩

def size (q : State Key Value) : Nat := q.queue.length

def full (q : State Key Value) : Bool := q.size = q.capacity

/-- The pairs in the list. -/
def entries (q : State Key Value) : List (Key × Value) :=
  q.queue.map fun node => (node.key, node.value)

/-- `found->second->second = value`. -/
def assign (found : Nat) (value : Value) (q : State Key Value) : Option (State Key Value) :=
  if found ∈ q.queue.map Node.id then
    some { q with queue := q.queue.map fun node =>
      if node.id = found then { node with value := value } else node }
  else none

/-- `pending_.erase(oldest->first)` and `queue_.erase(oldest)`. -/
def eraseOldest (q : State Key Value) : Option (State Key Value) :=
  match q.queue with
  | [] => none
  | oldest :: rest =>
      some { q with pending := Function.update q.pending oldest.key none, queue := rest }

/-- The oldest entry makes room for a new one. -/
def makeRoom (q : State Key Value) : Option (State Key Value) :=
  if q.full then q.eraseOldest else some q

def emplaceBack (key : Key) (value : Value) (q : State Key Value) : State Key Value :=
  { q with queue := q.queue ++ [⟨q.made, key, value⟩], made := q.made + 1 }

/-- `pending_.emplace(inserted->first, inserted)`; a key that is there keeps its iterator. -/
def emplacePending (q : State Key Value) : Option (State Key Value) :=
  match q.queue.getLast? with
  | none => none
  | some inserted =>
      match q.pending inserted.key with
      | some _ => some q
      | none =>
          some { q with pending := Function.update q.pending inserted.key (some inserted.id) }

def pushOverwrite (fault : Fault) (key : Key) (value : Value) (q : State Key Value) :
    Option (Except Exn Unit × State Key Value) :=
  match q.pending key with
  | some found => (q.assign found value).map (.ok (), ·)
  | none => do
      let q ← q.makeRoom
      if fault = .listNode then return (.error .badAlloc, q)
      let q := q.emplaceBack key value
      if fault = .mapNode then return (.error .badAlloc, q)
      return (.ok (), ← q.emplacePending)

def pop (q : State Key Value) : Option (Option (Key × Value) × State Key Value) :=
  match q.queue with
  | [] => some (none, q)
  | oldest :: _ => q.eraseOldest.map (some (oldest.key, oldest.value), ·)

end State

end MoreCpp.ConflatingQueue
