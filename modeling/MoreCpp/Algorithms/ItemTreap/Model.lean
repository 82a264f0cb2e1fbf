import Mathlib.Logic.Function.Basic
import MoreCpp.Library.Loop

/-!
The treap of `algorithms/data/treap.hpp`. An item is known by its address. A `pitem&`
is bound to a variable or to the `l` or `r` of an item, so that a function writes
where its caller reads. `none` is undefined behaviour, which is following a null
pointer or one to a deleted item, or that the recursion is deeper than `fuel`.
-/

namespace MoreCpp.ItemTreap

open Library

structure Item where
  key : Int
  prior : Int
  l : Option Nat
  r : Option Nat

/-- The variables of the caller, and `lt` and `rt` of the activations of `unite`, which
are told apart by how deep they are. -/
inductive Var where
  | root (n : Nat)
  | lt (depth : Nat)
  | rt (depth : Nat)
deriving DecidableEq

inductive Ref where
  | var (v : Var)
  | l (p : Nat)
  | r (p : Nat)
deriving DecidableEq

structure State where
  items : Nat → Option Item
  vars : Var → Option Nat

namespace State

def initial : State := ⟨fun _ => none, fun _ => none⟩

/-- The pointer that a reference is bound to. -/
def load (s : State) : Ref → Option (Option Nat)
  | .var v => some (s.vars v)
  | .l p => (s.items p).map Item.l
  | .r p => (s.items p).map Item.r

def store (ref : Ref) (q : Option Nat) (s : State) : Option State :=
  match ref with
  | .var v => some { s with vars := Function.update s.vars v q }
  | .l p => (s.items p).map fun item =>
      { s with items := Function.update s.items p (some { item with l := q }) }
  | .r p => (s.items p).map fun item =>
      { s with items := Function.update s.items p (some { item with r := q }) }

def key (s : State) (p : Nat) : Option Int := (s.items p).map Item.key

def prior (s : State) (p : Nat) : Option Int := (s.items p).map Item.prior

/-- `new item(key, prior)`, which is put at `it`. -/
def newItem (it : Nat) (key prior : Int) (s : State) : State :=
  { s with items := Function.update s.items it (some ⟨key, prior, none, none⟩) }

/-- `delete p`. -/
def delete (p : Nat) (s : State) : Option State :=
  (s.items p).map fun _ => { s with items := Function.update s.items p none }

def split : Nat → Option Nat → Int → Ref → Ref → State → Option State
  | 0, _, _, _, _, _ => none
  | _ + 1, none, _, l, r, s => do
      let s ← s.store r none
      s.store l none
  | fuel + 1, some t, key, l, r, s => do
      let tkey ← s.key t
      if tkey ≤ key then
        let right ← s.load (.r t)
        let s ← s.split fuel right key (.r t) r
        s.store l (some t)
      else
        let left ← s.load (.l t)
        let s ← s.split fuel left key l (.l t)
        s.store r (some t)

def insert : Nat → Ref → Nat → State → Option State
  | 0, _, _, _ => none
  | fuel + 1, t, it, s => do
      match ← s.load t with
      | none => s.store t (some it)
      | some p =>
          let itKey ← s.key it
          let itPrior ← s.prior it
          let pKey ← s.key p
          let pPrior ← s.prior p
          if itPrior > pPrior then
            let s ← s.split fuel (some p) itKey (.l it) (.r it)
            s.store t (some it)
          else s.insert fuel (if pKey ≤ itKey then .r p else .l p) it

def merge : Nat → Ref → Option Nat → Option Nat → State → Option State
  | 0, _, _, _, _ => none
  | fuel + 1, t, l, r, s =>
      match l, r with
      | none, r => s.store t r
      | some l, none => s.store t (some l)
      | some l, some r => do
          let lPrior ← s.prior l
          let rPrior ← s.prior r
          if lPrior > rPrior then
            let right ← s.load (.r l)
            let s ← s.merge fuel (.r l) right (some r)
            s.store t (some l)
          else
            let left ← s.load (.l r)
            let s ← s.merge fuel (.l r) (some l) left
            s.store t (some r)

def erase : Nat → Ref → Int → State → Option State
  | 0, _, _, _ => none
  | fuel + 1, t, key, s => do
      let p ← ← s.load t
      let pKey ← s.key p
      if pKey = key then
        let l ← s.load (.l p)
        let r ← s.load (.r p)
        let s ← s.merge fuel t l r
        s.delete p
      else s.erase fuel (if key < pKey then .l p else .r p) key

def unite : Nat → Nat → Option Nat → Option Nat → State → Option (Option Nat × State)
  | 0, _, _, _, _ => none
  | fuel + 1, depth, l, r, s =>
      match l, r with
      | none, r => some (r, s)
      | some l, none => some (some l, s)
      | some l, some r => do
          let lPrior ← s.prior l
          let rPrior ← s.prior r
          let (l, r) := if lPrior < rPrior then (r, l) else (l, r)
          let lKey ← s.key l
          let s ← s.split fuel (some r) lKey (.var (.lt depth)) (.var (.rt depth))
          let left ← s.load (.l l)
          let (left, s) ← s.unite fuel (depth + 1) left (s.vars (.lt depth))
          let s ← s.store (.l l) left
          let right ← s.load (.r l)
          let (right, s) ← s.unite fuel (depth + 1) right (s.vars (.rt depth))
          let s ← s.store (.r l) right
          return (some l, s)

end State

/-- What a caller does with the treaps it holds in its variables. It does not keep the
pointers it passes to `split`, `merge` and `unite`, of which the results take over
the items. `it` is the address of the new item. -/
inductive Op where
  | insert (t : Nat) (key prior : Int) (it : Nat)
  | split (t : Nat) (key : Int) (l r : Nat)
  | merge (t l r : Nat)
  | erase (t : Nat) (key : Int)
  | unite (t l r : Nat)

namespace State

def root (s : State) (n : Nat) : Option Nat := s.vars (.root n)

/-- The caller no longer has the pointer in its variable. -/
def give (n : Nat) (s : State) : State :=
  { s with vars := Function.update s.vars (.root n) none }

def perform (fuel : Nat) (s : State) : Op → Option State
  | .insert t key prior it => (s.newItem it key prior).insert fuel (.var (.root t)) it
  | .split t key l r =>
      (s.give t).split fuel (s.root t) key (.var (.root l)) (.var (.root r))
  | .merge t l r =>
      ((s.give l).give r).merge fuel (.var (.root t)) (s.root l) (s.root r)
  | .erase t key => s.erase fuel (.var (.root t)) key
  | .unite t l r => do
      let (root, s) ← ((s.give l).give r).unite fuel 0 (s.root l) (s.root r)
      s.store (.var (.root t)) root

/-- The call ends, however much deeper its recursion might go. -/
def Returns (s : State) (op : Op) (s' : State) : Prop :=
  ∃ size, Enough size (fun fuel => s.perform fuel op) s'

end State

end MoreCpp.ItemTreap
