import Mathlib.Data.List.Basic

/-!
`CircularBuffer` of `impl/circular_buffer.cpp`, over a vector of optional
values. `none` is undefined behaviour: an index past the end of the vector, or
the value of a slot that has none.
-/

namespace MoreCpp.CircularBuffer

inductive Exn where
  | invalidArgument (what : String)
  | outOfRange (what : String)
deriving DecidableEq

structure State (V : Type*) where
  buffer : List (Option V)
  head : Nat
  tail : Nat
  size : Nat

variable {V : Type*}

namespace State

/-- The constructor. -/
def make (capacity : Nat) : Except Exn (State V) :=
  if capacity = 0 then .error (.invalidArgument "capacity must be greater than 0")
  else .ok ⟨List.replicate capacity none, 0, 0, 0⟩

def capacity (b : State V) : Nat := b.buffer.length

def full (b : State V) : Bool := b.size = b.capacity

def empty (b : State V) : Bool := b.size = 0

def getNextIdx (b : State V) (index : Nat) : Nat := (index + 1) % b.buffer.length

/-- `buffer_[index] = slot`. -/
def assign (b : State V) (index : Nat) (slot : Option V) : Option (State V) :=
  if index < b.buffer.length then some { b with buffer := b.buffer.set index slot } else none

def push (value : V) (b : State V) : Option (Bool × State V) :=
  if b.full then some (false, b)
  else do
    let b ← b.assign b.tail (some value)
    return (true, { b with tail := b.getNextIdx b.tail, size := b.size + 1 })

def pushOverwrite (value : V) (b : State V) : Option (State V) := do
  let b ← b.assign b.tail (some value)
  let b := if b.full then { b with head := b.getNextIdx b.head } else { b with size := b.size + 1 }
  return { b with tail := b.getNextIdx b.tail }

def pop (b : State V) : Option (Option V × State V) :=
  if b.empty then some (none, b)
  else do
    let val ← b.buffer[b.head]?
    let b ← b.assign b.head none
    return (val, { b with head := b.getNextIdx b.head, size := b.size - 1 })

def front (b : State V) : Option (Except Exn V) :=
  if b.empty then some (.error (.outOfRange "CB is empty."))
  else do
    let slot ← b.buffer[b.head]?
    return .ok (← slot)

/-- The values in logical order, as `print_state` goes through them. -/
def logical (b : State V) : Nat → Nat → Option (List V)
  | 0, _ => some []
  | count + 1, index => do
      let slot ← b.buffer[index]?
      let value ← slot
      let rest ← b.logical count (b.getNextIdx index)
      return value :: rest

end State

inductive Op (V : Type*) where
  | push (value : V)
  | pushOverwrite (value : V)
  | pop
  | front

inductive Res (V : Type*) where
  | pushed (accepted : Bool)
  | overwritten
  | popped (value : Option V)
  | fronted (value : Except Exn V)

def State.perform (b : State V) : Op V → Option (State V × Res V)
  | .push value => (b.push value).map fun (accepted, b') => (b', .pushed accepted)
  | .pushOverwrite value => (b.pushOverwrite value).map fun b' => (b', .overwritten)
  | .pop => b.pop.map fun (value, b') => (b', .popped value)
  | .front => b.front.map fun value => (b, .fronted value)

end MoreCpp.CircularBuffer
