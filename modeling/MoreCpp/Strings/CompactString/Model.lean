import MoreCpp.Library.BlockHeap
import Mathlib.Algebra.Group.Nat.Defs

/-!
`CompactString` of `strings/compact.hpp`: a string of at most 128 bytes is in the
object, a longer one in an array of its own. `none` is undefined behaviour: using
an object that does not exist, a null pointer or a freed array, and copying past
the end of an array or onto itself.
-/

namespace MoreCpp.CompactString

open Library

inductive Exn where
  | invalidArgument
  | outOfRange
  | badAlloc
deriving DecidableEq

/-- A string object; `temp` is the local variable of a function. -/
inductive StringId where
  | object (n : Nat)
  | temp
deriving DecidableEq

abbrev Bytes := List UInt8

/-- A byte, or `none` before one is written. -/
abbrev Cell := Option UInt8

/-- Calls on string objects; the new string is named first. -/
inductive Op where
  | fromBytes (self : Nat) (src : Option Bytes) (len : Nat)
  | copy (self o : Nat)
  | move (self o : Nat)
  | copyAssign (self o : Nat)
  | moveAssign (self o : Nat)
  | concat (res self o : Nat)
  | substr (res self pos count : Nat)
  | destroy (self : Nat)

structure Setting where
  /-- Which of the allocations fail, by their order in time and their size. -/
  fails : Nat → Nat → Bool
  /-- No array has more bytes than a pointer difference can count. -/
  fails_of_large : ∀ time n, 2 ^ 63 ≤ n → fails time n = true
  /-- Where `return res;` moves nothing. -/
  elides : Op → Bool

def bufferSize : Nat := 128

structure Compact where
  buffer : List Cell
  length : Nat
  heapPtr : Option Nat

structure Memory where
  strings : StringId → Option Compact
  heap : BlockHeap UInt8
  /-- Allocations tried so far. -/
  time : Nat

/-- What `data()` points to. -/
inductive Place where
  | buffer (string : StringId)
  | block (block : Nat)
deriving DecidableEq

/-- How a call ends, and what it leaves. -/
abbrev Result := Except Exn Unit × Memory

namespace Memory

def initial : Memory := ⟨fun _ => none, .empty UInt8, 0⟩

def data (s : StringId) (m : Memory) : Option Place := do
  let c ← m.strings s
  if c.length ≤ bufferSize then some (.buffer s) else c.heapPtr.map .block

def cells (m : Memory) : Place → Option (List Cell)
  | .buffer s => (m.strings s).map Compact.buffer
  | .block b => m.heap.blocks b

def update (s : StringId) (change : Compact → Compact) (m : Memory) : Option Memory :=
  (m.strings s).map fun c =>
    { m with strings := Function.update m.strings s (some (change c)) }

def setCells (m : Memory) (cells : List Cell) : Place → Option Memory
  | .buffer s => m.update s fun c => { c with buffer := cells }
  | .block b => some { m with heap := m.heap.store b cells }

/-- `memcpy(dst + offset, src + start, n)`. -/
def memcpy (dst : Place) (offset : Nat) (src : Place) (start n : Nat) (m : Memory) :
    Option Memory := do
  let into ← m.cells dst
  let source ← m.cells src
  if dst ≠ src ∧ offset + n ≤ into.length ∧ start + n ≤ source.length then
    m.setCells (blit into offset ((source.drop start).take n)) dst
  else none

/-- `if (n > 0) memcpy(dst.data() + offset, src.data() + start, n)`. -/
def copyBytes (dst : StringId) (offset : Nat) (src : StringId) (start n : Nat) (m : Memory) :
    Option Memory :=
  if 0 < n then do
    let into ← m.data dst
    let source ← m.data src
    m.memcpy into offset source start n
  else some m

/-- `if (n > 0) memcpy(dst.data(), src, n)`, from bytes that are no string's. -/
def copyIn (dst : StringId) (src : Option Bytes) (n : Nat) (m : Memory) : Option Memory :=
  if 0 < n then do
    let place ← m.data dst
    let into ← m.cells place
    let source ← src
    if n ≤ into.length ∧ n ≤ source.length then
      m.setCells (blit into 0 ((source.take n).map some)) place
    else none
  else some m

/-- `new char[n]`. -/
def newArray (E : Setting) (n : Nat) (m : Memory) : Except Exn Nat × Memory :=
  if E.fails m.time n then (.error .badAlloc, { m with time := m.time + 1 })
  else (.ok m.heap.made, { m with heap := m.heap.allocate n, time := m.time + 1 })

def construct (s : StringId) (length : Nat) (heapPtr : Option Nat) (m : Memory) : Memory :=
  let c : Compact := ⟨.replicate bufferSize none, length, heapPtr⟩
  { m with strings := Function.update m.strings s (some c) }

/-- `length(len), heap_ptr(nullptr)` and the array, which a constructor makes
before it copies. There is no object if that throws. -/
def sized (E : Setting) (s : StringId) (len : Nat) (m : Memory) : Result :=
  if len ≤ bufferSize then (.ok (), m.construct s len none)
  else
    match m.newArray E len with
    | (.error e, m) => (.error e, m)
    | (.ok block, m) => (.ok (), m.construct s len (some block))

/-- Goes on unless an exception was thrown. -/
def onward (result : Result) (next : Memory → Option Memory) : Option Result :=
  match result with
  | (.error e, m) => some (.error e, m)
  | (.ok (), m) => (next m).map (.ok (), ·)

def fromBytes (E : Setting) (self : StringId) (src : Option Bytes) (len : Nat) (m : Memory) :
    Option Result :=
  if 0 < len ∧ src = none then some (.error .invalidArgument, m)
  else onward (m.sized E self len) (copyIn self src len)

def copy (E : Setting) (self o : StringId) (m : Memory) : Option Result := do
  let other ← m.strings o
  onward (m.sized E self other.length) (copyBytes self 0 o 0 other.length)

/-- What the two moves have in common, for a string with the length of the other
and without an array. -/
def steal (self o : StringId) (m : Memory) : Option Memory := do
  let other ← m.strings o
  let m ← if other.length ≤ bufferSize then
      if 0 < other.length then m.memcpy (.buffer self) 0 (.buffer o) 0 other.length else some m
    else do
      let m ← m.update self fun c => { c with heapPtr := other.heapPtr }
      m.update o fun c => { c with heapPtr := none }
  m.update o fun c => { c with length := 0 }

def move (self o : StringId) (m : Memory) : Option Memory := do
  let other ← m.strings o
  (m.construct self other.length none).steal self o

/-- `delete[] heap_ptr`. -/
def deleteArray (s : StringId) (m : Memory) : Option Memory := do
  let c ← m.strings s
  let heap ← m.heap.delete c.heapPtr
  return { m with heap := heap }

def moveAssign (self o : StringId) (m : Memory) : Option Memory :=
  if self = o then some m
  else do
    let m ← m.deleteArray self
    let m ← m.update self fun c => { c with heapPtr := none }
    let other ← m.strings o
    let m ← m.update self fun c => { c with length := other.length }
    m.steal self o

def destroy (s : StringId) (m : Memory) : Option Memory := do
  let m ← m.deleteArray s
  return { m with strings := Function.update m.strings s none }

def copyAssign (E : Setting) (self o : StringId) (m : Memory) : Option Result :=
  if self = o then some (.ok (), m)
  else do
    let result ← m.copy E .temp o
    onward result fun m => do
      let m ← m.moveAssign self .temp
      m.destroy .temp

/-- `size_t` wraps around. -/
def concat (E : Setting) (res self o : StringId) (m : Memory) : Option Result := do
  let a ← m.strings self
  let b ← m.strings o
  onward (m.sized E res ((a.length + b.length) % 2 ^ 64)) fun m => do
    let m ← m.copyBytes res 0 self 0 a.length
    m.copyBytes res a.length o 0 b.length

def substr (E : Setting) (res self : StringId) (pos count : Nat) (m : Memory) :
    Option Result := do
  let c ← m.strings self
  if c.length < pos ∨ c.length - pos < count then some (.error .outOfRange, m)
  else onward (m.sized E res count) (copyBytes res 0 self pos count)

/-- `return res;` of a string that a function makes. -/
def returned (elides : Bool) (res : StringId) (make : StringId → Memory → Option Result)
    (m : Memory) : Option Result :=
  if elides then make res m
  else do
    let result ← make .temp m
    onward result fun m => do
      let m ← m.move res .temp
      m.destroy .temp

/-- The bytes of a string. -/
def contents (m : Memory) (s : StringId) : Option Bytes := do
  let c ← m.strings s
  let place ← m.data s
  let cells ← m.cells place
  (cells.take c.length).mapM id

end Memory

def Memory.perform (E : Setting) (op : Op) (m : Memory) : Option Result :=
  match op with
  | .fromBytes self src len => m.fromBytes E (.object self) src len
  | .copy self o => m.copy E (.object self) (.object o)
  | .move self o => (m.move (.object self) (.object o)).map (.ok (), ·)
  | .copyAssign self o => m.copyAssign E (.object self) (.object o)
  | .moveAssign self o => (m.moveAssign (.object self) (.object o)).map (.ok (), ·)
  | .concat res self o =>
      m.returned (E.elides op) (.object res) fun res => concat E res (.object self) (.object o)
  | .substr res self pos count =>
      m.returned (E.elides op) (.object res) fun res => substr E res (.object self) pos count
  | .destroy self => (m.destroy (.object self)).map (.ok (), ·)

end MoreCpp.CompactString
