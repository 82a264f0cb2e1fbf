import MoreCpp.Library.Storage
import Mathlib.Algebra.Group.Nat.Defs

/-!
`learning::Vector` of `containers/vector.hpp` over storage with a ledger. What
an element type does when it is copied, moved or constructed from arguments
may depend on how many allocations and constructions were tried before, so
that each of them can fail at any point. The vector's fields are as in the
source; `data_` is the number of the allocation.
-/

namespace MoreCpp.Vector

open Library

inductive Exn where
  | lengthError (what : String)
  | outOfRange (what : String)
  | badAlloc
  /-- Thrown by the construction of an element. -/
  | element

/-- An element type: its traits, and what copying and moving from a value does
at a given time, namely the new element or a throw, and the source afterwards. -/
structure Element (V : Type*) where
  copyConstructible : Bool
  moveConstructible : Bool
  nothrowMove : Bool
  copy : Nat → V → Option V × V
  move : Nat → V → Option V × V
  nothrow : nothrowMove = true → ∀ time v, (move time v).1.isSome = true

/-- `std::move_if_noexcept` copies only if the move may throw and there is a copy. -/
def Element.copies {V : Type*} (T : Element V) : Bool := !T.nothrowMove && T.copyConstructible

def Element.relocate {V : Type*} (T : Element V) : Nat → V → Option V × V :=
  if T.copies then T.copy else T.move

/-- The allocator: `max_size`, and which requests fail at which time. A request
for more than `max_size` slots always fails. -/
structure Allocator where
  maxSize : Nat
  maxSize_lt : maxSize < 2 ^ 64
  fails : Nat → Nat → Bool
  fails_of_gt : ∀ time n, maxSize < n → fails time n = true

/-- Constructor arguments: the element they make or the throw, at a given time
and among the given elements, and what they do to these elements. -/
abbrev Arguments (V : Type*) := Nat → List V → Option V × (Nat → V → V)

structure Memory (V : Type*) where
  storage : Storage V
  /-- Allocations and constructions tried so far. -/
  time : Nat

variable {V : Type*}

namespace Memory

def element? (m : Memory V) (data : Option Nat) (index : Nat) : Option V :=
  data.bind fun block => m.storage.value? (block, index)

/-- The elements of a vector, in order. -/
def elements (m : Memory V) (data : Option Nat) (size : Nat) : List V :=
  (List.range size).filterMap (m.element? data)

def misuse (m : Memory V) : Memory V := { m with storage := m.storage.misuse }

def allocate (A : Allocator) (m : Memory V) (n : Nat) : Option Nat × Memory V :=
  if A.fails m.time n then (none, { m with time := m.time + 1 })
  else (some m.storage.nextBlock, ⟨m.storage.allocate n, m.time + 1⟩)

/-- `deallocate(data, n)`; nothing for a null pointer. -/
def deallocate (m : Memory V) (data : Option Nat) (n : Nat) : Memory V :=
  match data with
  | some block => { m with storage := m.storage.release block n }
  | none => m

/-- `Traits::construct` in a slot, once the value is there. -/
def construct (m : Memory V) (data : Option Nat) (index : Nat) (value : V) : Memory V :=
  match data with
  | some block => { m with storage := m.storage.construct (block, index) value }
  | none => m.misuse

def destroy (m : Memory V) (data : Option Nat) (index : Nat) : Memory V :=
  match data with
  | some block => { m with storage := m.storage.destroy (block, index) }
  | none => m.misuse

/-- The element's code changes the elements of the vector; time passes. -/
def touch (m : Memory V) (data : Option Nat) (size : Nat) (change : Nat → V → V) : Memory V :=
  match data with
  | some block => ⟨m.storage.assign block size change, m.time + 1⟩
  | none => { m with time := m.time + 1 }

/-- Construct an element from arguments that may refer to the vector's elements. -/
def constructFrom (m : Memory V) (data : Option Nat) (size : Nat) (args : Arguments V)
    (target : Option Nat) (index : Nat) : Bool × Memory V :=
  match args m.time (m.elements data size) with
  | (some value, change) => (true, (m.touch data size change).construct target index value)
  | (none, change) => (false, m.touch data size change)

/-- `construct(new_data + i, std::move_if_noexcept(data_[i]))`. -/
def relocateOne (T : Element V) (data : Option Nat) (size target index : Nat)
    (m : Memory V) : Bool × Memory V :=
  match m.element? data index with
  | none => (false, m.misuse)
  | some value =>
      match T.relocate m.time value with
      | (some made, source) =>
          (true, (m.touch data size fun i v => if i = index then source else v).construct
            (some target) index made)
      | (none, source) =>
          (false, m.touch data size fun i v => if i = index then source else v)

/-- The relocation loop, with the number of elements done when it ends or throws. -/
def relocate (T : Element V) (data : Option Nat) (size target : Nat) :
    Nat → Nat → Memory V → Nat × Bool × Memory V
  | 0, done, m => (done, true, m)
  | todo + 1, done, m =>
      match relocateOne T data size target done m with
      | (true, m') => relocate T data size target todo (done + 1) m'
      | (false, m') => (done, false, m')

/-- `while (constructed != 0) destroy(new_data + --constructed)`. -/
def destroyFirst (target : Nat) : Nat → Memory V → Memory V
  | 0, m => m
  | constructed + 1, m => destroyFirst target constructed (m.destroy (some target) constructed)

end Memory

structure State (V : Type*) where
  memory : Memory V
  data : Option Nat
  size : Nat
  capacity : Nat

namespace State

/-- `Vector(initial_capacity)`. -/
def make (A : Allocator) (initialCapacity : Nat) (m : Memory V) : Except Exn Unit × State V :=
  if initialCapacity ≠ 0 then
    match m.allocate A initialCapacity with
    | (some block, m') => (.ok (), ⟨m', some block, 0, initialCapacity⟩)
    | (none, m') => (.error .badAlloc, ⟨m', none, 0, initialCapacity⟩)
  else (.ok (), ⟨m, none, 0, initialCapacity⟩)

def popBack (s : State V) : Except Exn Unit × State V :=
  if s.size = 0 then (.error (.outOfRange "Cannot pop_back an empty Vector"), s)
  else (.ok (), { s with
    size := s.size - 1
    memory := s.memory.destroy s.data (s.size - 1) })

/-- `while (!empty()) pop_back()`, for a vector of the given size. -/
def clearLoop : Nat → State V → State V
  | 0, s => s
  | n + 1, s => clearLoop n s.popBack.2

def clear (s : State V) : State V := clearLoop s.size s

/-- The destructor. -/
def destruct (s : State V) : Memory V :=
  s.clear.memory.deallocate s.data s.capacity

/-- Destroy the old elements, release their storage and install the new one. -/
def install (s : State V) (newData newSize newCapacity : Nat) : State V where
  memory := s.clear.memory.deallocate s.data s.capacity
  data := some newData
  size := newSize
  capacity := newCapacity

variable (A : Allocator) (T : Element V)

def reserve (newCapacity : Nat) (s : State V) : Except Exn Unit × State V :=
  if newCapacity ≤ s.capacity then (.ok (), s)
  else if newCapacity > A.maxSize then
    (.error (.lengthError "Vector capacity exceeds allocator limit"), s)
  else
    match s.memory.allocate A newCapacity with
    | (none, m) => (.error .badAlloc, { s with memory := m })
    | (some newData, m) =>
        match m.relocate T s.data s.size newData s.size 0 with
        | (constructed, false, m') =>
            (.error .element, { s with
              memory := (m'.destroyFirst newData constructed).deallocate (some newData)
                newCapacity })
        | (constructed, true, m') =>
            (.ok (), { s with memory := m' }.install newData constructed newCapacity)

/-- The capacity of the next allocation: one, then doubled up to the limit. -/
def grownCapacity (capacity : Nat) : Nat :=
  if capacity = 0 then 1
  else if capacity > A.maxSize / 2 then A.maxSize
  else capacity * 2 % 2 ^ 64

/-- The result is the position of the element returned. -/
def growAndEmplace (args : Arguments V) (s : State V) : Except Exn Nat × State V :=
  if s.capacity = A.maxSize then
    (.error (.lengthError "Vector capacity exceeds allocator limit"), s)
  else
    match s.memory.allocate A (grownCapacity A s.capacity) with
    | (none, m) => (.error .badAlloc, { s with memory := m })
    | (some newData, m) =>
        match m.constructFrom s.data s.size args (some newData) s.size with
        | (false, m') =>
            (.error .element, { s with
              memory := m'.deallocate (some newData) (grownCapacity A s.capacity) })
        | (true, m') =>
            match m'.relocate T s.data s.size newData s.size 0 with
            | (relocated, false, m'') =>
                (.error .element, { s with
                  memory := ((m''.destroyFirst newData relocated).destroy (some newData)
                    s.size).deallocate (some newData) (grownCapacity A s.capacity) })
            | (_, true, m'') =>
                (.ok s.size, { s with memory := m'' }.install newData (s.size + 1)
                  (grownCapacity A s.capacity))

def emplaceBack (args : Arguments V) (s : State V) : Except Exn Nat × State V :=
  if s.size = s.capacity then
    if T.moveConstructible || T.copyConstructible then growAndEmplace A T args s
    else
      (.error (.lengthError "Vector growth requires movable or copyable elements"), s)
  else
    match s.memory.constructFrom s.data s.size args s.data s.size with
    | (true, m) => (.ok s.size, { s with memory := m, size := s.size + 1 })
    | (false, m) => (.error .element, { s with memory := m })

end State

/-- What a `push_back` argument refers to: an element of the vector or a value
outside it. -/
inductive Reference (V : Type*) where
  | own (index : Nat)
  | other (value : V)

/-- Constructing an element by copying or moving from what a reference names.
A caller refers to an element that is there; no element is made otherwise. -/
def Reference.from (construction : Nat → V → Option V × V) : Reference V → Arguments V
  | .other value => fun time _ => ((construction time value).1, fun _ v => v)
  | .own index => fun time elements =>
      match elements[index]? with
      | some value => ((construction time value).1,
          fun i v => if i = index then (construction time value).2 else v)
      | none => (none, fun _ v => v)

/-- The operations on a vector. -/
inductive Op (V : Type*) where
  | reserve (newCapacity : Nat)
  | emplaceBack (args : Arguments V)
  /-- `push_back(const T&)`. -/
  | pushBackCopy (value : Reference V)
  /-- `push_back(T&&)`. -/
  | pushBackMove (value : Reference V)
  | popBack
  | clear

namespace State

/-- One operation; an exception leaves the operation and is caught by the caller. -/
def perform (A : Allocator) (T : Element V) (s : State V) : Op V → Except Exn Unit × State V
  | .reserve newCapacity => s.reserve A T newCapacity
  | .emplaceBack args => (s.emplaceBack A T args).map (·.map fun _ => ()) id
  | .pushBackCopy value => (s.emplaceBack A T (value.from T.copy)).map (·.map fun _ => ()) id
  | .pushBackMove value => (s.emplaceBack A T (value.from T.move)).map (·.map fun _ => ()) id
  | .popBack => s.popBack
  | .clear => (.ok (), s.clear)

/-- A history of operations. -/
def run (A : Allocator) (T : Element V) (s : State V) (ops : List (Op V)) : State V :=
  ops.foldl (fun s op => (s.perform A T op).2) s

end State

end MoreCpp.Vector
