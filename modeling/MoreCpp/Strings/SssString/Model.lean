import MoreCpp.Library.CString

/-!
`sss::String` of `strings/string.hpp`: a string of at most 15 characters is in the
object, a longer one in an array of its own. `none` is undefined behaviour: using
an object that does not exist or a freed array, reading the member of the union that
was not written last, and writing outside an array. Sizes do not overflow.
-/

namespace MoreCpp.SssString

open Library

inductive Exn where
  | badAlloc
deriving DecidableEq

/-- A character, or `none` before one is written. -/
abbrev Cell := Option UInt8

def shortMax : Nat := 15

/-- What `ptr` points to: the `ch` of a string or an array. -/
inductive Place where
  | ch (string : Nat)
  | block (block : Nat)
deriving DecidableEq

inductive Union where
  | space (n : Int)
  | ch (cells : List Cell)

def noChars : List Cell := .replicate (shortMax + 1) none

/-- A character may be written to `ch` after `space` was, which is then lost. -/
def Union.cells : Union → List Cell
  | .space _ => noChars
  | .ch cells => cells

def Union.getSpace : Union → Option Int
  | .space n => some n
  | .ch _ => none

/-- The members of a `String`. -/
structure Object where
  sz : Int
  ptr : Place
  union : Union

structure Memory where
  strings : Nat → Option Object
  heap : BlockHeap UInt8
  /-- Allocations tried so far. -/
  time : Nat

/-- Calls on strings; the string that is constructed or changed is named first. -/
inductive Op where
  | default (self : Nat)
  | fromCString (self : Nat) (p : List UInt8)
  | copy (self x : Nat)
  | move (self x : Nat)
  | copyAssign (self x : Nat)
  | moveAssign (self x : Nat)
  | append (self : Nat) (c : UInt8)
  | destroy (self : Nat)

structure Setting where
  /-- Which of the allocations fail, by their order in time. -/
  fails : Nat → Bool
  /-- `~String()`, which is declared and not defined. -/
  destructor : Nat → Memory → Option Memory

/-- How a call ends, and what it leaves. -/
abbrev Result := Except Exn Unit × Memory

namespace Memory

def initial : Memory := ⟨fun _ => none, .empty UInt8, 0⟩

def put (s : Nat) (x : Object) (m : Memory) : Memory :=
  { m with strings := Function.update m.strings s (some x) }

def update (s : Nat) (change : Object → Object) (m : Memory) : Option Memory :=
  (m.strings s).map fun x => m.put s (change x)

def cells (m : Memory) : Place → Option (List Cell)
  | .ch s => (m.strings s).map fun x => x.union.cells
  | .block b => m.heap.blocks b

def setCells (m : Memory) (cells : List Cell) : Place → Option Memory
  | .ch s => m.update s fun x => { x with union := .ch cells }
  | .block b => some { m with heap := m.heap.store b cells }

/-- `ptr[i] = c`. -/
def write (ptr : Place) (i : Int) (c : UInt8) (m : Memory) : Option Memory := do
  let into ← m.cells ptr
  if 0 ≤ i ∧ i < into.length then m.setCells (into.set i.toNat (some c)) ptr else none

def strcpy (dst : Place) (src : List Cell) (m : Memory) : Option Memory := do
  let into ← m.cells dst
  let copied ← Library.strcpy 0 into src
  m.setCells copied dst

/-- `new char[n]`. -/
def newArray (E : Setting) (n : Int) (m : Memory) : Except Exn Nat × Memory :=
  if n < 0 ∨ E.fails m.time then (.error .badAlloc, { m with time := m.time + 1 })
  else (.ok m.heap.made, { m with heap := m.heap.allocate n.toNat, time := m.time + 1 })

/-- Goes on with what was made unless an exception was thrown. -/
def onward {α : Type} (result : Except Exn α × Memory) (next : α → Memory → Option Memory) :
    Option Result :=
  match result with
  | (.error e, m) => some (.error e, m)
  | (.ok a, m) => (next a m).map (.ok (), ·)

def expand (E : Setting) (ptr : Place) (n : Int) (m : Memory) :
    Option (Except Exn Nat × Memory) :=
  match m.newArray E n with
  | (.error e, m) => some (.error e, m)
  | (.ok p, m) => do
      let src ← m.cells ptr
      let m ← m.strcpy (.block p) src
      return (.ok p, m)

/-- `delete[] p`, where `p` may be null. -/
def deleteArray (m : Memory) : Option Place → Option Memory
  | none => some m
  | some (.ch _) => none
  | some (.block b) => (m.heap.free b).map fun heap => { m with heap := heap }

def copyFrom (E : Setting) (self x : Nat) (m : Memory) : Option Result := do
  let other ← m.strings x
  if other.sz ≤ shortMax then
    let m ← (m.put self other).update self fun s => { s with ptr := .ch self }
    return (.ok (), m)
  else
    let result ← m.expand E other.ptr (other.sz + 1)
    onward result fun p m => some (m.put self ⟨other.sz, .block p, .space 0⟩)

def moveFrom (self x : Nat) (m : Memory) : Option Memory := do
  let other ← m.strings x
  if other.sz ≤ shortMax then
    (m.put self other).update self fun s => { s with ptr := .ch self }
  else
    let space ← other.union.getSpace
    let m := m.put self ⟨other.sz, other.ptr, .space space⟩
    let m ← m.update x fun s => { s with ptr := .ch x, sz := 0 }
    m.write (.ch x) 0 0

def default (self : Nat) (m : Memory) : Option Memory :=
  (m.put self ⟨0, .ch self, .ch noChars⟩).write (.ch self) 0 0

/-- `p` points to these characters and a terminator after them. -/
def fromCString (E : Setting) (self : Nat) (p : List UInt8) (m : Memory) : Option Result := do
  let src := p.map some ++ [some 0]
  let sz := (← cString 0 src).length
  if sz ≤ shortMax then
    let m ← (m.put self ⟨sz, .ch self, .space 0⟩).strcpy (.ch self) src
    return (.ok (), m)
  else onward (m.newArray E (sz + 1)) fun block m =>
    (m.put self ⟨sz, .block block, .space 0⟩).strcpy (.block block) src

def copyAssign (E : Setting) (self x : Nat) (m : Memory) : Option Result :=
  if self = x then some (.ok (), m)
  else do
    let s ← m.strings self
    let p := if shortMax < s.sz then some s.ptr else none
    let result ← m.copyFrom E self x
    onward result fun _ m => m.deleteArray p

/-- `if (short_max<sz) delete[] ptr`. -/
def release (self : Nat) (m : Memory) : Option Memory := do
  let s ← m.strings self
  if shortMax < s.sz then m.deleteArray (some s.ptr) else some m

def moveAssign (self x : Nat) (m : Memory) : Option Memory :=
  if self = x then some m
  else do
    let m ← m.release self
    m.moveFrom self x

/-- `ptr[sz] = c; ptr[++sz] = 0`. -/
def push (self : Nat) (c : UInt8) (m : Memory) : Option Memory := do
  let s ← m.strings self
  let m ← m.write s.ptr s.sz c
  let m ← m.update self fun s => { s with sz := s.sz + 1 }
  m.write s.ptr (s.sz + 1) 0

/-- `operator+=`. -/
def append (E : Setting) (self : Nat) (c : UInt8) (m : Memory) : Option Result := do
  let s ← m.strings self
  if s.sz = shortMax then
    let n := s.sz + s.sz + 2
    let result ← m.expand E s.ptr n
    onward result fun p m =>
      (m.put self { s with ptr := .block p, union := .space (n - s.sz - 2) }).push self c
  else if shortMax < s.sz then
    let space ← s.union.getSpace
    if space = 0 then
      let n := s.sz + s.sz + 2
      let result ← m.expand E s.ptr n
      onward result fun p m => do
        let m ← m.deleteArray (some s.ptr)
        (m.put self { s with ptr := .block p, union := .space (n - s.sz - 2) }).push self c
    else
      let m ← (m.put self { s with union := .space (space - 1) }).push self c
      return (.ok (), m)
  else
    let m ← m.push self c
    return (.ok (), m)

def perform (E : Setting) (m : Memory) : Op → Option Result
  | .default self => (m.default self).map (.ok (), ·)
  | .fromCString self p => m.fromCString E self p
  | .copy self x => m.copyFrom E self x
  | .move self x => (m.moveFrom self x).map (.ok (), ·)
  | .copyAssign self x => m.copyAssign E self x
  | .moveAssign self x => (m.moveAssign self x).map (.ok (), ·)
  | .append self c => m.append E self c
  | .destroy self => (E.destructor self m).map (.ok (), ·)

def erase (s : Nat) (m : Memory) : Memory :=
  { m with strings := Function.update m.strings s none }

/-- A new string is constructed where none is, and the others that are named are there. -/
def Permitted (m : Memory) : Op → Prop
  | .default self | .fromCString self _ => m.strings self = none
  | .copy self x | .move self x => m.strings self = none ∧ (m.strings x).isSome
  | .copyAssign self x | .moveAssign self x => (m.strings self).isSome ∧ (m.strings x).isSome
  | .append self _ | .destroy self => (m.strings self).isSome

end Memory

/-- The destructor frees what move assignment frees, and nothing else. -/
def Setting.Releases (E : Setting) : Prop :=
  ∀ s m, (m.strings s).isSome → E.destructor s m = (m.release s).map (Memory.erase s)

end MoreCpp.SssString
