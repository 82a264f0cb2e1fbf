import MoreCpp.Containers.DsList.Model

/-!
`ds::List` as finite sequences: each list object is a sequence of elements, with
the node each of them lives in, and an allocator. A step says what an operation
does to the sequences; which fresh nodes it takes is left open.
-/

namespace MoreCpp.DsList

variable {V Alloc : Type}

structure Sequence (V Alloc : Type) where
  alloc : Alloc
  /-- The elements with their nodes. -/
  cells : List (Nat × V)

def nodesOf (cells : List (Nat × V)) : List Nat := cells.map Prod.fst

def valuesOf (cells : List (Nat × V)) : List V := cells.map Prod.snd

def ptrsOf (cells : List (Nat × V)) : List Ptr := cells.map fun cell => .node cell.1

/-- The iterator at the first of the last cells of a list, the end if there are none. -/
def iteratorAt (list : ListId) (cells : List (Nat × V)) : Ptr :=
  (ptrsOf cells).head?.getD (.sentinel list)

/-- The list objects there are. -/
abbrev Spec (V Alloc : Type) := ListId → Option (Sequence V Alloc)

namespace Spec

def set (σ : Spec V Alloc) (list : ListId) (alloc : Alloc) (cells : List (Nat × V)) :
    Spec V Alloc :=
  Function.update σ list (some ⟨alloc, cells⟩)

def drop (σ : Spec V Alloc) (list : ListId) : Spec V Alloc := Function.update σ list none

def Owns (σ : Spec V Alloc) (list : ListId) (node : Nat) : Prop :=
  ∃ q, σ list = some q ∧ node ∈ nodesOf q.cells

/-- New nodes for new elements. -/
def Fresh (σ : Spec V Alloc) (cells : List (Nat × V)) : Prop :=
  (nodesOf cells).Nodup ∧ ∀ node ∈ nodesOf cells, ∀ list, ¬ σ.Owns list node

end Spec

/-- The operations that make nodes before they change any list. -/
def Op.MakesNodes : Op V Alloc → Prop
  | .constructFrom .. | .copyConstruct .. | .copyAssign .. | .emplace .. | .pushFront ..
  | .pushBack .. => True
  | _ => False

/-- What an operation does, and what it returns or throws. -/
inductive Step (E : Setting V Alloc) (σ : Spec V Alloc) :
    Op V Alloc → Except Exn (Option Ptr) → Spec V Alloc → Prop where
  | construct (l : Nat) (a : Alloc) :
      Step E σ (.construct l a) (.ok none) (σ.set (.object l) a [])
  | constructFrom (l : Nat) (a : Alloc) {cells : List (Nat × V)} (hfresh : σ.Fresh cells) :
      Step E σ (.constructFrom l (valuesOf cells) a) (.ok none) (σ.set (.object l) a cells)
  | copyConstruct (l o : Nat) {a : Alloc} {cells copies : List (Nat × V)}
      (hother : σ (.object o) = some ⟨a, cells⟩) (hfresh : σ.Fresh copies)
      (hvalues : valuesOf copies = valuesOf cells) :
      Step E σ (.copyConstruct l o) (.ok none)
        (σ.set (.object l) (E.selectOnCopyConstruction a) copies)
  | moveConstruct (l o : Nat) {a : Alloc} {cells : List (Nat × V)}
      (hother : σ (.object o) = some ⟨a, cells⟩) :
      Step E σ (.moveConstruct l o) (.ok none) ((σ.set (.object l) a cells).set (.object o) a [])
  | destruct (l : Nat) : Step E σ (.destruct l) (.ok none) (σ.drop (.object l))
  | copyAssign_self (l : Nat) : Step E σ (.copyAssign l l) (.ok none) σ
  | copyAssign (l o : Nat) {a b : Alloc} {old cells copies : List (Nat × V)} (hne : l ≠ o)
      (hlist : σ (.object l) = some ⟨a, old⟩) (hother : σ (.object o) = some ⟨b, cells⟩)
      (hfresh : σ.Fresh copies) (hvalues : valuesOf copies = valuesOf cells) :
      Step E σ (.copyAssign l o) (.ok none)
        (σ.set (.object l) (if E.propagateOnCopyAssignment then b else a) copies)
  | moveAssign_self (l : Nat) : Step E σ (.moveAssign l l) (.ok none) σ
  /-- The nodes go to the other list. -/
  | moveAssign_steal (l o : Nat) {a b : Alloc} {old cells : List (Nat × V)} (hne : l ≠ o)
      (hlist : σ (.object l) = some ⟨a, old⟩) (hother : σ (.object o) = some ⟨b, cells⟩)
      (hsame : E.propagateOnMoveAssignment = true ∨ a = b) :
      Step E σ (.moveAssign l o) (.ok none) ((σ.set (.object l) b cells).set (.object o) b [])
  /-- The elements are moved to nodes of the other allocator. -/
  | moveAssign_each (l o : Nat) {a b : Alloc} {old cells moved : List (Nat × V)} (hne : l ≠ o)
      (hlist : σ (.object l) = some ⟨a, old⟩) (hother : σ (.object o) = some ⟨b, cells⟩)
      (hkept : E.propagateOnMoveAssignment = false) (hdiffer : a ≠ b)
      (hfresh : σ.Fresh moved) (hvalues : valuesOf moved = valuesOf cells) :
      Step E σ (.moveAssign l o) (.ok none) ((σ.set (.object l) a moved).set (.object o) b [])
  /-- An element could not be moved: those before it were, and no node is lost. -/
  | moveAssign_threw (l o : Nat) {a b : Alloc} {old cells moved left : List (Nat × V)} {e : Exn}
      (hne : l ≠ o) (hlist : σ (.object l) = some ⟨a, old⟩)
      (hother : σ (.object o) = some ⟨b, cells⟩)
      (hkept : E.propagateOnMoveAssignment = false) (hdiffer : a ≠ b)
      (hfresh : σ.Fresh moved) (hvalues : valuesOf moved <+: valuesOf cells)
      (hleft : nodesOf left = nodesOf cells) :
      Step E σ (.moveAssign l o) (.error e) ((σ.set (.object l) a moved).set (.object o) b left)
  | emplace (l : Nat) {a : Alloc} {pre post : List (Nat × V)} {n : Nat} {v : V}
      (hlist : σ (.object l) = some ⟨a, pre ++ post⟩) (hfresh : σ.Fresh [(n, v)]) :
      Step E σ (.emplace l (iteratorAt (.object l) post) v) (.ok (some (.node n)))
        (σ.set (.object l) a (pre ++ (n, v) :: post))
  | pushFront (l : Nat) {a : Alloc} {cells : List (Nat × V)} {n : Nat} {v : V}
      (hlist : σ (.object l) = some ⟨a, cells⟩) (hfresh : σ.Fresh [(n, v)]) :
      Step E σ (.pushFront l v) (.ok (some (.node n))) (σ.set (.object l) a ((n, v) :: cells))
  | pushBack (l : Nat) {a : Alloc} {cells : List (Nat × V)} {n : Nat} {v : V}
      (hlist : σ (.object l) = some ⟨a, cells⟩) (hfresh : σ.Fresh [(n, v)]) :
      Step E σ (.pushBack l v) (.ok (some (.node n))) (σ.set (.object l) a (cells ++ [(n, v)]))
  | erase (l : Nat) {a : Alloc} {pre post : List (Nat × V)} {n : Nat} {v : V}
      (hlist : σ (.object l) = some ⟨a, pre ++ (n, v) :: post⟩) :
      Step E σ (.erase l (.node n)) (.ok (some (iteratorAt (.object l) post)))
        (σ.set (.object l) a (pre ++ post))
  | erase_end (l : Nat) :
      Step E σ (.erase l (.sentinel (.object l)))
        (.error (.outOfRange "List::erase cannot erase end()")) σ
  | eraseRange (l : Nat) {a : Alloc} {pre mid post : List (Nat × V)}
      (hlist : σ (.object l) = some ⟨a, pre ++ mid ++ post⟩) :
      Step E σ (.eraseRange l (iteratorAt (.object l) (mid ++ post)) (iteratorAt (.object l) post))
        (.ok (some (iteratorAt (.object l) post))) (σ.set (.object l) a (pre ++ post))
  | popFront (l : Nat) {a : Alloc} {cell : Nat × V} {cells : List (Nat × V)}
      (hlist : σ (.object l) = some ⟨a, cell :: cells⟩) :
      Step E σ (.popFront l) (.ok none) (σ.set (.object l) a cells)
  | popFront_empty (l : Nat) {a : Alloc} (hlist : σ (.object l) = some ⟨a, []⟩) :
      Step E σ (.popFront l) (.error (.outOfRange "List::pop_front on empty list")) σ
  | popBack (l : Nat) {a : Alloc} {cell : Nat × V} {cells : List (Nat × V)}
      (hlist : σ (.object l) = some ⟨a, cells ++ [cell]⟩) :
      Step E σ (.popBack l) (.ok none) (σ.set (.object l) a cells)
  | popBack_empty (l : Nat) {a : Alloc} (hlist : σ (.object l) = some ⟨a, []⟩) :
      Step E σ (.popBack l) (.error (.outOfRange "List::pop_back on empty list")) σ
  | clear (l : Nat) {a : Alloc} {cells : List (Nat × V)}
      (hlist : σ (.object l) = some ⟨a, cells⟩) :
      Step E σ (.clear l) (.ok none) (σ.set (.object l) a [])
  | swap_self (l : Nat) : Step E σ (.swap l l) (.ok none) σ
  /-- The nodes change lists. -/
  | swap (l o : Nat) {a b : Alloc} {cells cells' : List (Nat × V)} (hne : l ≠ o)
      (hlist : σ (.object l) = some ⟨a, cells⟩) (hother : σ (.object o) = some ⟨b, cells'⟩) :
      Step E σ (.swap l o) (.ok none) ((σ.set (.object l) b cells').set (.object o) a cells)
  /-- A node could not be made: nothing happened. -/
  | threw {op : Op V Alloc} {e : Exn} (hmakes : op.MakesNodes) : Step E σ op (.error e) σ

/-- The operations a caller may perform: on objects that are there, with
iterators into them, and a range whose end is reached from its start. -/
def Permitted (E : Setting V Alloc) (σ : Spec V Alloc) : Op V Alloc → Prop
  | .construct l _ | .constructFrom l _ _ => σ (.object l) = none
  | .copyConstruct l o | .moveConstruct l o =>
      σ (.object l) = none ∧ ∃ q, σ (.object o) = some q
  | .copyAssign l o | .moveAssign l o =>
      (∃ p, σ (.object l) = some p) ∧ ∃ q, σ (.object o) = some q
  | .destruct l | .pushFront l _ | .pushBack l _ | .popFront l | .popBack l | .clear l =>
      ∃ q, σ (.object l) = some q
  | .emplace l position _ | .erase l position =>
      ∃ a pre post, σ (.object l) = some ⟨a, pre ++ post⟩ ∧
        position = iteratorAt (.object l) post
  | .eraseRange l first last =>
      ∃ a pre mid post, σ (.object l) = some ⟨a, pre ++ mid ++ post⟩ ∧
        first = iteratorAt (.object l) (mid ++ post) ∧ last = iteratorAt (.object l) post
  | .swap l o => ∃ p q, σ (.object l) = some p ∧ σ (.object o) = some q ∧
      (E.propagateOnSwap = true ∨ p.alloc = q.alloc)

end MoreCpp.DsList
