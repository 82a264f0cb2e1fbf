import MoreCpp.Containers.DoublyLinkedList.Model
import MoreCpp.Library.LinkedCells

/-!
The links of a memory. The null pointer is the sentinel of the list: `head` is the
link to what comes after it and `tail` to what comes before it, so that the list is
a ring. Every function that inserts makes the same four links, and every function
that erases the same two, whatever cases it tells apart.
-/

namespace MoreCpp.DoublyLinkedList

open Library

abbrev Links := Option Nat → Option (Option Nat)

namespace Memory

def next (m : Memory) : Links
  | none => some m.head
  | some p => (m.nodes p).map Node.next

def prev (m : Memory) : Links
  | none => some m.tail
  | some p => (m.nodes p).map Node.prev

def val (m : Memory) (p : Nat) : Option Int := (m.nodes p).map Node.val

end Memory

/-- What a memory holds. -/
structure View (m : Memory) (next prev : Links) (val : Nat → Option Int) (sz : Int) : Prop where
  next : m.next = next
  prev : m.prev = prev
  val : m.val = val
  sz : m.sz = sz

namespace View

variable {m : Memory} {next prev : Links} {val : Nat → Option Int} {sz : Int} {p : Nat}

theorem self (m : Memory) : View m m.next m.prev m.val m.sz := ⟨rfl, rfl, rfl, rfl⟩

/-- The links and the values, when the node at one address changes. -/
theorem setNode (h : View m next prev val sz) (p : Nat) (node : Option Node) :
    View { m with nodes := Function.update m.nodes p node }
      (Function.update next (some p) (node.map Node.next))
      (Function.update prev (some p) (node.map Node.prev))
      (Function.update val p (node.map Node.val)) sz := by
  obtain ⟨rfl, rfl, rfl, rfl⟩ := h
  refine ⟨?_, ?_, ?_, rfl⟩
  · funext q
    cases q with
    | none => rfl
    | some q =>
        rcases eq_or_ne q p with rfl | hne
        · simp [Memory.next]
        · simp [Memory.next, hne]
  · funext q
    cases q with
    | none => rfl
    | some q =>
        rcases eq_or_ne q p with rfl | hne
        · simp [Memory.prev]
        · simp [Memory.prev, hne]
  · funext q
    rcases eq_or_ne q p with rfl | hne
    · simp [Memory.val]
    · simp [Memory.val, hne]

theorem setHead (h : View m next prev val sz) (q : Option Nat) :
    View { m with head := q } (Function.update next none (some q)) prev val sz := by
  obtain ⟨rfl, rfl, rfl, rfl⟩ := h
  refine ⟨?_, rfl, rfl, rfl⟩
  funext p
  cases p <;> simp [Memory.next]

theorem setTail (h : View m next prev val sz) (q : Option Nat) :
    View { m with tail := q } next (Function.update prev none (some q)) val sz := by
  obtain ⟨rfl, rfl, rfl, rfl⟩ := h
  refine ⟨rfl, ?_, rfl, rfl⟩
  funext p
  cases p <;> simp [Memory.prev]

theorem setSz (h : View m next prev val sz) (z : Int) : View { m with sz := z } next prev val z :=
  ⟨h.next, h.prev, h.val, rfl⟩

theorem newNode (h : View m next prev val sz) (value : Int) :
    View (m.newNode p value) (Function.update next (some p) (some none))
      (Function.update prev (some p) (some none)) (Function.update val p (some value)) sz :=
  h.setNode p (some ⟨value, none, none⟩)

theorem exists_node (h : View m next prev val sz) (hp : (val p).isSome) :
    ∃ node, m.nodes p = some node ∧ next (some p) = some node.next ∧
      prev (some p) = some node.prev ∧ val p = some node.val := by
  obtain ⟨rfl, rfl, rfl, rfl⟩ := h
  cases hnode : m.nodes p with
  | none => simp [Memory.val, hnode] at hp
  | some node => exact ⟨node, rfl, by simp [Memory.next, hnode], by simp [Memory.prev, hnode],
      by simp [Memory.val, hnode]⟩

theorem getNext (h : View m next prev val sz) (hp : (val p).isSome) :
    m.getNext (some p) = next (some p) := by
  obtain ⟨node, hnode, hnext, -, -⟩ := h.exists_node hp
  simp [Memory.getNext, hnode, hnext]

theorem getPrev (h : View m next prev val sz) (hp : (val p).isSome) :
    m.getPrev (some p) = prev (some p) := by
  obtain ⟨node, hnode, -, hprev, -⟩ := h.exists_node hp
  simp [Memory.getPrev, hnode, hprev]

theorem setNext (h : View m next prev val sz) (hp : (val p).isSome) (q : Option Nat) :
    ∃ m', m.setNext (some p) q = some m' ∧
      View m' (Function.update next (some p) (some q)) prev val sz := by
  obtain ⟨node, hnode, -, hprev, hval⟩ := h.exists_node hp
  refine ⟨_, by simp [Memory.setNext, hnode]; rfl, ?_⟩
  have hview := h.setNode p (some { node with next := q })
  simp only [Option.map_some, ← hprev, ← hval, Function.update_eq_self] at hview
  exact hview

theorem setPrev (h : View m next prev val sz) (hp : (val p).isSome) (q : Option Nat) :
    ∃ m', m.setPrev (some p) q = some m' ∧
      View m' next (Function.update prev (some p) (some q)) val sz := by
  obtain ⟨node, hnode, hnext, -, hval⟩ := h.exists_node hp
  refine ⟨_, by simp [Memory.setPrev, hnode]; rfl, ?_⟩
  have hview := h.setNode p (some { node with prev := q })
  simp only [Option.map_some, ← hnext, ← hval, Function.update_eq_self] at hview
  exact hview

theorem delete (h : View m next prev val sz) (hp : (val p).isSome) :
    ∃ m', m.delete (some p) = some m' ∧ View m' (Function.update next (some p) none)
      (Function.update prev (some p) none) (Function.update val p none) sz := by
  obtain ⟨node, hnode, -, -, -⟩ := h.exists_node hp
  refine ⟨_, ?_, h.setNode p none⟩
  simp [Memory.delete, hnode]

theorem head_eq (h : View m next prev val sz) {q : Option Nat} (hq : next none = some q) :
    m.head = q := by
  obtain ⟨rfl, rfl, rfl, rfl⟩ := h
  exact Option.some.inj hq

theorem tail_eq (h : View m next prev val sz) {q : Option Nat} (hq : prev none = some q) :
    m.tail = q := by
  obtain ⟨rfl, rfl, rfl, rfl⟩ := h
  exact Option.some.inj hq

end View

/-- A node put between two others. -/
def Inserted (m m' : Memory) (before : Option Nat) (node : Nat) (value : Int) (after : Option Nat) :
    Prop :=
  View m'
    (Function.update (Function.update m.next (some node) (some after)) before (some (some node)))
    (Function.update (Function.update m.prev (some node) (some before)) after (some (some node)))
    (Function.update m.val node (some value)) (m.sz + 1)

/-- A node taken out from between two others. -/
def Removed (m m' : Memory) (before : Option Nat) (node : Nat) (after : Option Nat) : Prop :=
  View m' (Function.update (Function.update m.next before (some after)) (some node) none)
    (Function.update (Function.update m.prev after (some before)) (some node) none)
    (Function.update m.val node none) (m.sz - 1)

namespace Memory

variable {m : Memory} {node p a b : Nat} {value : Int}

@[simp] theorem newNode_empty : (m.newNode node value).empty = m.empty := rfl
@[simp] theorem newNode_head : (m.newNode node value).head = m.head := rfl
@[simp] theorem newNode_tail : (m.newNode node value).tail = m.tail := rfl
@[simp] theorem newNode_sz : (m.newNode node value).sz = m.sz := rfl

theorem isSome_update (hp : (m.val p).isSome) :
    (Function.update m.val node (some value) p).isSome := by
  rcases eq_or_ne p node with rfl | hne
  · rw [Function.update_self]
    rfl
  · rwa [Function.update_of_ne hne]

theorem pushFront_of_empty (hempty : m.sz = 0) :
    ∃ m', m.pushFront value node = some m' ∧ Inserted m m' none node value none := by
  have hview := ((((View.self m).newNode (p := node) value).setHead (some node)).setTail
    (some node)).setSz (m.sz + 1)
  refine ⟨_, ?_, hview⟩
  simp [pushFront, empty, hempty]

theorem pushFront_of_head (hempty : m.sz ≠ 0) (hhead : m.head = some a) (ha : (m.val a).isSome) :
    ∃ m', m.pushFront value node = some m' ∧ Inserted m m' none node value (some a) := by
  have hnode := (View.self m).newNode (p := node) value
  obtain ⟨m₁, hrun₁, h₁⟩ := hnode.setNext (p := node) (by simp) (some a)
  obtain ⟨m₂, hrun₂, h₂⟩ := h₁.setPrev (p := a) (isSome_update ha) (some node)
  have hview := (h₂.setHead (some node)).setSz (m₂.sz + 1)
  rw [Function.update_idem, h₂.sz] at hview
  have hhead₁ : m₁.head = some a := h₁.head_eq (by simp [Memory.next, hhead])
  refine ⟨_, ?_, hview⟩
  simp [pushFront, empty, hempty, hhead, hrun₁, hhead₁, hrun₂, h₂.sz]

theorem pushBack_of_empty (hempty : m.sz = 0) :
    ∃ m', m.pushBack value node = some m' ∧ Inserted m m' none node value none := by
  have hview := ((((View.self m).newNode (p := node) value).setHead (some node)).setTail
    (some node)).setSz (m.sz + 1)
  refine ⟨_, ?_, hview⟩
  simp [pushBack, empty, hempty]

theorem pushBack_of_tail (hempty : m.sz ≠ 0) (htail : m.tail = some b) (hb : (m.val b).isSome) :
    ∃ m', m.pushBack value node = some m' ∧ Inserted m m' (some b) node value none := by
  have hnode := (View.self m).newNode (p := node) value
  obtain ⟨m₁, hrun₁, h₁⟩ := hnode.setNext (p := b) (isSome_update hb) (some node)
  obtain ⟨m₂, hrun₂, h₂⟩ := h₁.setPrev (p := node) (by simp) (some b)
  have hview := (h₂.setTail (some node)).setSz (m₂.sz + 1)
  rw [Function.update_idem, h₂.sz] at hview
  have htail₁ : m₁.tail = some b := h₁.tail_eq (by simp [Memory.prev, htail])
  refine ⟨_, ?_, hview⟩
  simp [pushBack, empty, hempty, htail, hrun₁, htail₁, hrun₂, h₂.sz]

/-- The four links of an interior node, its own two set first. -/
theorem setLinks (value : Int) (ha : (m.val a).isSome) (hb : (m.val b).isSome) :
    ∃ m₁ m₂ m₃ m₄, (m.newNode node value).setPrev (some node) (some b) = some m₁ ∧
      m₁.setNext (some node) (some a) = some m₂ ∧ m₂.setNext (some b) (some node) = some m₃ ∧
      m₃.setPrev (some a) (some node) = some m₄ ∧
      Inserted m { m₄ with sz := m₄.sz + 1 } (some b) node value (some a) := by
  have hnode := (View.self m).newNode (p := node) value
  obtain ⟨m₁, hrun₁, h₁⟩ := hnode.setPrev (p := node) (by simp) (some b)
  obtain ⟨m₂, hrun₂, h₂⟩ := h₁.setNext (p := node) (by simp) (some a)
  obtain ⟨m₃, hrun₃, h₃⟩ := h₂.setNext (p := b) (isSome_update hb) (some node)
  obtain ⟨m₄, hrun₄, h₄⟩ := h₃.setPrev (p := a) (isSome_update ha) (some node)
  have hview := h₄.setSz (m₄.sz + 1)
  rw [Function.update_idem, Function.update_idem, h₄.sz] at hview
  refine ⟨m₁, m₂, m₃, m₄, hrun₁, hrun₂, hrun₃, hrun₄, ?_⟩
  rw [h₄.sz]
  exact hview

theorem insertAfter_of_next (value : Int) (hnot : some b ≠ m.tail) (hb : (m.val b).isSome)
    (hnext : m.next (some b) = some (some a)) (ha : (m.val a).isSome) (hne : b ≠ node) :
    ∃ m', m.insertAfter (some b) value node = some m' ∧
      Inserted m m' (some b) node value (some a) := by
  have hnode := (View.self m).newNode (p := node) value
  have hafter : (m.newNode node value).getNext (some b) = some (some a) := by
    rw [hnode.getNext (isSome_update hb), Function.update_of_ne (by simpa using hne), hnext]
  obtain ⟨m₁, m₂, m₃, m₄, hrun₁, hrun₂, hrun₃, hrun₄, hview⟩ := setLinks value ha hb
  refine ⟨_, ?_, hview⟩
  simp [insertAfter, hnot, hafter, hrun₁, hrun₂, hrun₃, hrun₄]

theorem insertBefore_of_prev (value : Int) (hnot : some a ≠ m.head) (ha : (m.val a).isSome)
    (hprev : m.prev (some a) = some (some b)) (hb : (m.val b).isSome) (hne : a ≠ node) :
    ∃ m', m.insertBefore (some a) value node = some m' ∧
      Inserted m m' (some b) node value (some a) := by
  have hnode := (View.self m).newNode (p := node) value
  have hbefore : (m.newNode node value).getPrev (some a) = some (some b) := by
    rw [hnode.getPrev (isSome_update ha), Function.update_of_ne (by simpa using hne), hprev]
  obtain ⟨m₁, m₂, m₃, m₄, hrun₁, hrun₂, hrun₃, hrun₄, hview⟩ := setLinks value ha hb
  refine ⟨_, ?_, hview⟩
  simp [insertBefore, hnot, hbefore, hrun₁, hrun₂, hrun₃, hrun₄]

theorem popFront_of_single (hempty : m.sz ≠ 0) (hhead : m.head = some node)
    (htail : m.tail = some node) (hnode : (m.val node).isSome) :
    ∃ m', m.popFront = some m' ∧ Removed m m' none node none := by
  obtain ⟨m₁, hrun, h₁⟩ := (((View.self m).setHead none).setTail none).delete hnode
  have hview := h₁.setSz (m₁.sz - 1)
  rw [h₁.sz] at hview
  refine ⟨_, ?_, hview⟩
  simp [popFront, empty, hempty, hhead, htail, hrun, h₁.sz]

theorem popFront_of_next (hempty : m.sz ≠ 0) (hhead : m.head = some node)
    (hne : m.head ≠ m.tail) (hnode : (m.val node).isSome)
    (hnext : m.next (some node) = some (some a)) (ha : (m.val a).isSome) :
    ∃ m', m.popFront = some m' ∧ Removed m m' none node (some a) := by
  have hget : m.getNext (some node) = some (some a) := by
    rw [(View.self m).getNext hnode, hnext]
  obtain ⟨m₁, hrun₁, h₁⟩ := ((View.self m).setHead (some a)).setPrev ha none
  obtain ⟨m₂, hrun₂, h₂⟩ := h₁.delete hnode
  have hview := h₂.setSz (m₂.sz - 1)
  rw [h₂.sz] at hview
  refine ⟨_, ?_, hview⟩
  rw [hhead] at hne
  simp [popFront, empty, hempty, hhead, hne, hget, hrun₁, hrun₂, h₂.sz]

theorem popBack_of_single (hempty : m.sz ≠ 0) (hhead : m.head = some node)
    (htail : m.tail = some node) (hnode : (m.val node).isSome) :
    ∃ m', m.popBack = some m' ∧ Removed m m' none node none := by
  obtain ⟨m₁, hrun, h₁⟩ := (((View.self m).setHead none).setTail none).delete hnode
  have hview := h₁.setSz (m₁.sz - 1)
  rw [h₁.sz] at hview
  refine ⟨_, ?_, hview⟩
  simp [popBack, empty, hempty, hhead, htail, hrun, h₁.sz]

theorem popBack_of_prev (hempty : m.sz ≠ 0) (htail : m.tail = some node)
    (hne : m.head ≠ m.tail) (hnode : (m.val node).isSome)
    (hprev : m.prev (some node) = some (some b)) (hb : (m.val b).isSome) :
    ∃ m', m.popBack = some m' ∧ Removed m m' (some b) node none := by
  have hget : m.getPrev (some node) = some (some b) := by
    rw [(View.self m).getPrev hnode, hprev]
  obtain ⟨m₁, hrun₁, h₁⟩ := ((View.self m).setTail (some b)).setNext hb none
  obtain ⟨m₂, hrun₂, h₂⟩ := h₁.delete hnode
  have hview := h₂.setSz (m₂.sz - 1)
  rw [h₂.sz] at hview
  refine ⟨_, ?_, hview⟩
  rw [htail] at hne
  simp [popBack, empty, hempty, htail, hne, hget, hrun₁, hrun₂, h₂.sz]

theorem erase_of_links (hhead : some node ≠ m.head) (htail : some node ≠ m.tail)
    (hnode : (m.val node).isSome) (hprev : m.prev (some node) = some (some b))
    (hnext : m.next (some node) = some (some a)) (hb : (m.val b).isSome)
    (ha : (m.val a).isSome) :
    ∃ m', m.erase (some node) = some m' ∧ Removed m m' (some b) node (some a) := by
  have hbefore : m.getPrev (some node) = some (some b) := by
    rw [(View.self m).getPrev hnode, hprev]
  have hafter : m.getNext (some node) = some (some a) := by
    rw [(View.self m).getNext hnode, hnext]
  obtain ⟨m₁, hrun₁, h₁⟩ := (View.self m).setNext hb (some a)
  obtain ⟨m₂, hrun₂, h₂⟩ := h₁.setPrev ha (some b)
  obtain ⟨m₃, hrun₃, h₃⟩ := h₂.delete hnode
  have hview := h₃.setSz (m₃.sz - 1)
  rw [h₃.sz] at hview
  refine ⟨_, ?_, hview⟩
  simp [erase, hhead, htail, hbefore, hafter, hrun₁, hrun₂, hrun₃, h₃.sz]

end Memory

end MoreCpp.DoublyLinkedList
