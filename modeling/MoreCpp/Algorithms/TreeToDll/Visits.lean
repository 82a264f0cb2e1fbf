import Mathlib.Data.Option.Basic
import MoreCpp.Algorithms.TreeToDll.Model
import MoreCpp.Library.TreeOrders
import MoreCpp.Library.LinkedCells

/-!
What visiting the nodes in order makes of a memory, for either traversal: each node
is linked, both ways, to the one visited before it.
-/

namespace MoreCpp.TreeToDll

open Library

namespace Memory

variable {m m' : Memory} {p a : Nat} {q q' : Option Nat}

def left (m : Memory) (p : Nat) : Option (Option Nat) := (m p).map TreeNode.left

def right (m : Memory) (p : Nat) : Option (Option Nat) := (m p).map TreeNode.right

def withLeft (m : Memory) (p : Nat) (q : Option Nat) : Memory :=
  Function.update m p ((m p).map fun node => { node with left := q })

def withRight (m : Memory) (p : Nat) (q : Option Nat) : Memory :=
  Function.update m p ((m p).map fun node => { node with right := q })

theorem getLeft_some : m.getLeft (some p) = m.left p := by
  cases h : m p <;> simp [getLeft, left, h]

theorem getRight_some : m.getRight (some p) = m.right p := by
  cases h : m p <;> simp [getRight, right, h]

theorem setLeft_some (hp : (m p).isSome) : m.setLeft (some p) q = some (m.withLeft p q) := by
  obtain ⟨node, hnode⟩ := Option.isSome_iff_exists.mp hp
  simp [setLeft, withLeft, hnode]

theorem setRight_some (hp : (m p).isSome) : m.setRight (some p) q = some (m.withRight p q) := by
  obtain ⟨node, hnode⟩ := Option.isSome_iff_exists.mp hp
  simp [setRight, withRight, hnode]

theorem isSome_of_right (h : m.right p = some q) : (m p).isSome := by
  cases hp : m p with
  | none => simp [right, hp] at h
  | some node => rfl

@[simp] theorem isSome_withLeft : (m.withLeft p q a).isSome = (m a).isSome := by
  rcases eq_or_ne a p with rfl | hne
  · simp [withLeft]
  · simp [withLeft, hne]

@[simp] theorem isSome_withRight : (m.withRight p q a).isSome = (m a).isSome := by
  rcases eq_or_ne a p with rfl | hne
  · simp [withRight]
  · simp [withRight, hne]

@[simp] theorem right_withLeft : (m.withLeft p q).right = m.right := by
  funext a
  rcases eq_or_ne a p with rfl | hne
  · simp [right, withLeft, Function.comp_def]
  · simp [right, withLeft, hne]

@[simp] theorem left_withRight : (m.withRight p q).left = m.left := by
  funext a
  rcases eq_or_ne a p with rfl | hne
  · simp [left, withRight, Function.comp_def]
  · simp [left, withRight, hne]

theorem left_withLeft_self (hp : (m p).isSome) : (m.withLeft p q).left p = some q := by
  obtain ⟨node, hnode⟩ := Option.isSome_iff_exists.mp hp
  simp [left, withLeft, hnode]

theorem left_withLeft_of_ne (hne : a ≠ p) : (m.withLeft p q).left a = m.left a := by
  simp [left, withLeft, hne]

theorem right_withRight_self (hp : (m p).isSome) : (m.withRight p q).right p = some q := by
  obtain ⟨node, hnode⟩ := Option.isSome_iff_exists.mp hp
  simp [right, withRight, hnode]

theorem right_withRight_of_ne (hne : a ≠ p) : (m.withRight p q).right a = m.right a := by
  simp [right, withRight, hne]

theorem withLeft_eq_self (h : m.left p = some q) : m.withLeft p q = m := by
  obtain ⟨node, hnode, rfl⟩ := Option.map_eq_some_iff.mp h
  rw [withLeft, hnode, Option.map_some, ← hnode, Function.update_eq_self]

theorem withRight_withRight : (m.withRight p q).withRight p q' = m.withRight p q' := by
  simp [withRight, Function.update_idem, Function.comp_def]

theorem withRight_comm (hne : p ≠ a) :
    (m.withRight p q).withRight a q' = (m.withRight a q').withRight p q := by
  simp only [withRight, Function.update_of_ne hne, Function.update_of_ne hne.symm]
  rw [Function.update_comm hne.symm]

theorem withLeft_withRight :
    (m.withRight p q).withLeft a q' = (m.withLeft a q').withRight p q := by
  rcases eq_or_ne p a with rfl | hne
  · simp [withRight, withLeft, Function.update_idem, Function.comp_def]
  · simp only [withRight, withLeft, Function.update_of_ne hne, Function.update_of_ne hne.symm]
    rw [Function.update_comm hne.symm]

end Memory

/-- Node `a` is visited, after `prev`. -/
def visit (prev : Option Nat) (a : Nat) (m : Memory) : Memory :=
  match prev with
  | none => m.withLeft a none
  | some p => (m.withRight p (some a)).withLeft a (some p)

def visits : Option Nat → List Nat → Memory → Memory
  | _, [], m => m
  | prev, a :: rest, m => visits (some a) rest (visit prev a m)

section Visits

variable {m : Memory} {prev q : Option Nat} {a b p : Nat} {l l' : List Nat}

theorem visits_append :
    visits prev (l ++ l') m = visits (l.getLast?.or prev) l' (visits prev l m) := by
  induction l generalizing prev m with
  | nil => rfl
  | cons a rest ih =>
      have hlast : (a :: rest).getLast?.or prev = rest.getLast?.or (some a) := by
        rw [List.getLast?_cons]
        cases rest.getLast? <;> rfl
      rw [List.cons_append, visits, ih, hlast, visits]

@[simp] theorem isSome_visit : (visit prev a m b).isSome = (m b).isSome := by
  cases prev <;> simp [visit]

@[simp] theorem isSome_visits : (visits prev l m b).isSome = (m b).isSome := by
  induction l generalizing prev m with
  | nil => rfl
  | cons a rest ih => rw [visits, ih, isSome_visit]

theorem left_visit_self (ha : (m a).isSome) : (visit prev a m).left a = some prev := by
  cases prev with
  | none => exact Memory.left_withLeft_self ha
  | some p => exact Memory.left_withLeft_self (by simpa using ha)

theorem left_visit_of_ne (hne : b ≠ a) : (visit prev a m).left b = m.left b := by
  cases prev <;> simp [visit, Memory.left_withLeft_of_ne hne]

theorem right_visit_self (hp : (m p).isSome) : (visit (some p) a m).right p = some (some a) := by
  rw [visit, Memory.right_withLeft, Memory.right_withRight_self hp]

theorem right_visit_of_ne (hne : prev ≠ some b) : (visit prev a m).right b = m.right b := by
  cases prev with
  | none => rw [visit, Memory.right_withLeft]
  | some p =>
      have hbp : b ≠ p := fun heq => hne (congrArg some heq.symm)
      rw [visit, Memory.right_withLeft, Memory.right_withRight_of_ne hbp]

/-- Only visited nodes have their left link changed. -/
theorem left_visits (hb : b ∉ l) : (visits prev l m).left b = m.left b := by
  induction l generalizing prev m with
  | nil => rfl
  | cons a rest ih =>
      rw [List.mem_cons, not_or] at hb
      rw [visits, ih hb.2, left_visit_of_ne hb.1]

/-- Only nodes after which another one is visited have their right link changed. -/
theorem right_visits (hb : some b ∉ (prev :: l.map some).dropLast) :
    (visits prev l m).right b = m.right b := by
  induction l generalizing prev m with
  | nil => rfl
  | cons a rest ih =>
      rw [List.map_cons, List.dropLast_cons_cons, List.mem_cons, not_or] at hb
      rw [visits, ih hb.2, right_visit_of_ne (Ne.symm hb.1)]

theorem visit_withRight (hne : prev ≠ some p) :
    visit prev a (m.withRight p q) = (visit prev a m).withRight p q := by
  cases prev with
  | none => rw [visit, Memory.withLeft_withRight, visit]
  | some r =>
      have hrp : p ≠ r := fun heq => hne (congrArg some heq.symm)
      rw [visit, visit, Memory.withRight_comm hrp, Memory.withLeft_withRight]

/-- A right link that visits do not write may be written before them. -/
theorem visits_withRight (hp : some p ∉ (prev :: l.map some).dropLast) :
    visits prev l (m.withRight p q) = (visits prev l m).withRight p q := by
  induction l generalizing prev m with
  | nil => rfl
  | cons a rest ih =>
      rw [List.map_cons, List.dropLast_cons_cons, List.mem_cons, not_or] at hp
      rw [visits, visits, visit_withRight (Ne.symm hp.1), ih hp.2]

/-- The right link of the last node is not written. -/
theorem last_notMem (hnodup : (prev :: l.map some).Nodup) (hp : l.getLast? = some p) :
    some p ∉ (prev :: l.map some).dropLast := by
  obtain ⟨init, rfl⟩ := List.getLast?_eq_some_iff.mp hp
  rw [List.map_append, ← List.cons_append, List.map_singleton] at hnodup ⊢
  rw [List.dropLast_concat]
  exact fun hmem => List.disjoint_of_nodup_append hnodup hmem (.head _)

/-- Where a link to the next node is written early, its visit writes it again. -/
theorem visit_withRight_self :
    visit (some p) a (m.withRight p q) = visit (some p) a m := by
  rw [visit, visit, Memory.withRight_withRight]

/-- `a`, or nothing, comes right before `b`, both ways. -/
def Before (m : Memory) (a b : Option Nat) : Prop :=
  (∀ p, a = some p → m.right p = some b) ∧ ∀ p, b = some p → m.left p = some a

theorem visits_chain (hnodup : (prev :: l.map some).Nodup)
    (halive : ∀ p, some p ∈ prev :: l.map some → (m p).isSome) :
    (prev :: l.map some).IsChain (Before (visits prev l m)) := by
  induction l generalizing prev m with
  | nil => exact .singleton prev
  | cons a rest ih =>
      rw [List.map_cons] at hnodup halive ⊢
      obtain ⟨hprev, hrest⟩ := List.nodup_cons.mp hnodup
      have ha : a ∉ rest := fun hmem =>
        (List.nodup_cons.mp hrest).1 (List.mem_map_of_mem hmem)
      refine .cons_cons ⟨?_, ?_⟩ (ih hrest fun p hp => ?_)
      · rintro p rfl
        rw [visits, right_visits fun hmem => hprev (List.dropLast_subset _ hmem)]
        exact right_visit_self (halive p (.head _))
      · rintro p hp
        obtain rfl := Option.some.inj hp
        rw [visits, left_visits ha]
        exact left_visit_self (halive a (.tail _ (.head _)))
      · rw [isSome_visit]
        exact halive p (.tail _ hp)

end Visits

/-- The nodes are a list from `head` on: the right links lead through them to the
null pointer, the left links back, and nothing is left of the head. -/
structure IsDll (m : Memory) (head : Option Nat) (nodes : List Nat) : Prop where
  right : ∀ fuel, nodes.length < fuel →
    walk (·.bind m.right) none fuel head = some (nodes.map some)
  inverse : ∀ a ∈ nodes, ∀ b ∈ nodes, m.right a = some (some b) ↔ m.left b = some (some a)
  head : ∀ p, head = some p → m.left p = some none

/-- Nodes visited in order are a list, when nothing was right of the last one. -/
theorem isDll_visits {m : Memory} {nodes : List Nat} (hnodup : nodes.Nodup)
    (halive : ∀ p ∈ nodes, (m p).isSome)
    (hlast : ∀ p, nodes.getLast? = some p → m.right p = some none) :
    IsDll (visits none nodes m) nodes.head? nodes := by
  have hnodup' : (none :: nodes.map some).Nodup := by
    rw [List.nodup_cons]
    exact ⟨by simp, hnodup.map (Option.some_injective Nat)⟩
  have hchain := visits_chain hnodup' fun p hp => halive p (by simpa using hp)
  generalize hm : visits none nodes m = m' at hchain
  let next : Option Nat → Option (Option Nat) := fun p => p.elim (some nodes.head?) m'.right
  let prev : Option Nat → Option (Option Nat) := fun p => p.elim (some nodes.getLast?) m'.left
  have hend : ∀ p, nodes.getLast? = some p → m'.right p = some none := by
    intro p hp
    rw [← hm, right_visits (last_notMem hnodup' hp), hlast p hp]
  have hring : Ring next prev none (nodes.map some) := by
    refine ⟨hnodup', ?_⟩
    cases nodes with
    | nil => exact .cons_cons ⟨rfl, rfl⟩ (.singleton none)
    | cons a rest =>
        obtain ⟨hfirst, hrest⟩ := List.isChain_cons_cons.mp hchain
        refine .cons_cons ⟨rfl, hfirst.2 a rfl⟩ ?_
        show ((a :: rest).map some ++ [none]).IsChain (Linked next prev)
        refine List.isChain_append.mpr ⟨?_, .singleton none, ?_⟩
        · refine hrest.imp_of_mem_imp fun x y hx hy hxy => ?_
          obtain ⟨p, -, rfl⟩ := List.mem_map.mp hx
          obtain ⟨q, -, rfl⟩ := List.mem_map.mp hy
          exact ⟨hxy.1 p rfl, hxy.2 q rfl⟩
        · rintro x hx y hy
          obtain rfl := Option.some.inj hy
          rw [List.getLast?_map] at hx
          obtain ⟨p, hp, rfl⟩ := Option.map_eq_some_iff.mp hx
          exact ⟨hend p hp, congrArg some hp⟩
  refine ⟨fun fuel hfuel => ?_, fun a ha b hb => ?_, fun p hp => ?_⟩
  · have hwalk := hring.walk_eq (show (nodes.map some).length < fuel by rwa [List.length_map])
    have hhead : (nodes.map some).head?.getD none = nodes.head? := by cases nodes <;> rfl
    rw [hhead] at hwalk
    refine (walk_congr ?_ fuel _).trans hwalk
    rintro (_ | p) hne
    · exact absurd rfl hne
    · rfl
  · exact hring.next_iff_prev (.tail _ (List.mem_map_of_mem ha)) (.tail _ (List.mem_map_of_mem hb))
  · cases nodes with
    | nil => cases hp
    | cons a rest =>
        obtain rfl := Option.some.inj hp
        exact (List.isChain_cons_cons.mp hchain).1.2 a rfl

end MoreCpp.TreeToDll
