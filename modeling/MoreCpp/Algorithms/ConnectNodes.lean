import MoreCpp.Library.TreeOrders
import Mathlib.Logic.Function.Basic

/-!
`connect_nodes` of `algorithms/trees/trees.cpp`, on a memory where nodes are known by
their addresses. `none` is undefined behaviour, or that `fuel` rounds do not lead to the
end of the loop.
-/

namespace MoreCpp

open Library

namespace ConnectNodes

structure TreeNode where
  data : Int
  left : Option Nat
  right : Option Nat
  rightNext : Option Nat

abbrev Memory := Nat → Option TreeNode

/-- `p->right_next = q`. -/
def setRightNext (p : Nat) (q : Option Nat) (m : Memory) : Option Memory := do
  let node ← m p
  return Function.update m p (some { node with rightNext := q })

/-- `if (p) q.push(p)`. -/
def push (p : Option Nat) (q : List Nat) : List Nat :=
  match p with
  | none => q
  | some p => q ++ [p]

/-- The link from the `i`th node of a level of `len`, when `q` comes after it. -/
def link (len i node : Nat) (q : List Nat) (m : Memory) : Option Memory :=
  if i = len - 1 then setRightNext node none m
  else do
    let front ← q.head?
    setRightNext node (some front) m

/-- A turn of the loop over a level of `len` nodes. -/
def visit (len i : Nat) : List Nat × Memory → Option (List Nat × Memory)
  | ([], _) => none
  | (node :: q, m) => do
    let m ← link len i node q m
    let fields ← m node
    return (push fields.right (push fields.left q), m)

def levelRound : List Nat × Memory → Option (List Nat × Memory ⊕ Memory)
  | ([], m) => some (.inr m)
  | (q, m) => do
    let s ← forRange 0 q.length (visit q.length) (q, m)
    return .inl s

/-- The root that is returned, and the memory. -/
def connectNodes (fuel : Nat) (root : Option Nat) (m : Memory) : Option (Option Nat × Memory) :=
  match root with
  | none => some (none, m)
  | some root => do
    let m ← loop levelRound fuel ([root], m)
    return (some root, m)

/-! ## Trees in memory -/

/-- The tree hangs at `p`, node by node. -/
def IsTree (m : Memory) : BinaryTree Nat → Option Nat → Prop
  | .nil, p => p = none
  | .node a left right, p => p = some a ∧
      ∃ fields, m a = some fields ∧ IsTree m left fields.left ∧ IsTree m right fields.right

/-- What is never written. -/
def TreeNode.fixed (node : TreeNode) : Int × Option Nat × Option Nat :=
  (node.data, node.left, node.right)

def nextOf (m : Memory) (a : Nat) : Option (Option Nat) := (m a).map TreeNode.rightNext

def childrenOf (m : Memory) (a : Nat) : List Nat :=
  ((m a).map fun node => node.left.toList ++ node.right.toList).getD []

/-- From one memory to another only `right_next` is written, of nodes of the tree. -/
structure SameTree (t : BinaryTree Nat) (m m' : Memory) : Prop where
  fixed : ∀ a, (m' a).map TreeNode.fixed = (m a).map TreeNode.fixed
  frame : ∀ a, a ∉ inorder t → m' a = m a

/-- Each node is linked to the one to its right, at all depths before `d` and in the first
`i` places at `d`. -/
def Linked (t : BinaryTree Nat) (m : Memory) (d i : Nat) : Prop :=
  ∀ e j a, e < d ∨ e = d ∧ j < i → (atDepth t e)[j]? = some a →
    nextOf m a = some (atDepth t e)[j + 1]?

variable {m m' m'' : Memory} {t : BinaryTree Nat} {p q : Option Nat} {queue rest : List Nat}
  {a b d i fuel : Nat} {node : TreeNode}

theorem push_eq (p : Option Nat) (q : List Nat) : push p q = q ++ p.toList := by
  cases p with
  | none => exact (List.append_nil q).symm
  | some p => rfl

theorem push_children (ha : m a = some node) (q : List Nat) :
    push node.right (push node.left q) = q ++ childrenOf m a := by
  rw [push_eq, push_eq, childrenOf, ha, List.append_assoc]
  rfl

theorem atDepth_zero (htree : IsTree m t p) : atDepth t 0 = p.toList := by
  cases t with
  | nil => rw [show p = none from htree]; rfl
  | node a left right => rw [htree.1]; rfl

/-- The children of one level are the next level. -/
theorem children_atDepth (htree : IsTree m t p) (d : Nat) :
    (atDepth t d).flatMap (childrenOf m) = atDepth t (d + 1) := by
  induction t generalizing p d with
  | nil => rfl
  | node a left right ihl ihr =>
      obtain ⟨-, fields, ha, hleft, hright⟩ := htree
      cases d with
      | zero =>
          rw [atDepth, atDepth, List.flatMap_singleton, childrenOf, ha, atDepth_zero hleft,
            atDepth_zero hright]
          rfl
      | succ d => rw [atDepth, List.flatMap_append, ihl hleft, ihr hright, atDepth]

theorem isSome_of_tree (htree : IsTree m t p) (ha : a ∈ inorder t) : ∃ node, m a = some node := by
  induction t generalizing p with
  | nil => exact absurd ha List.not_mem_nil
  | node b left right ihl ihr =>
      obtain ⟨-, fields, hb, hleft, hright⟩ := htree
      rw [inorder_node, List.mem_append, List.mem_cons] at ha
      rcases ha with ha | rfl | ha
      · exact ihl hleft ha
      · exact ⟨fields, hb⟩
      · exact ihr hright ha

namespace SameTree

theorem refl (t : BinaryTree Nat) (m : Memory) : SameTree t m m := ⟨fun _ => rfl, fun _ _ => rfl⟩

theorem trans (h : SameTree t m m') (h' : SameTree t m' m'') : SameTree t m m'' :=
  ⟨fun a => (h'.fixed a).trans (h.fixed a), fun a ha => (h'.frame a ha).trans (h.frame a ha)⟩

theorem read (h : SameTree t m m') (ha : m a = some node) :
    ∃ node', m' a = some node' ∧ node'.fixed = node.fixed := by
  have hfixed := h.fixed a
  rw [ha] at hfixed
  exact Option.map_eq_some_iff.mp hfixed

theorem childrenOf_eq (h : SameTree t m m') : childrenOf m' = childrenOf m := by
  funext a
  have hread : ∀ m : Memory, childrenOf m a = (((m a).map TreeNode.fixed).map
      fun node => node.2.1.toList ++ node.2.2.toList).getD [] := by
    intro m
    rw [Option.map_map]
    rfl
  rw [hread, hread, h.fixed]

end SameTree

/-! ## One write -/

theorem setRightNext_spec (ha : m a = some node) (hmem : a ∈ inorder t) (q : Option Nat) :
    ∃ m', setRightNext a q m = some m' ∧ SameTree t m m' ∧ nextOf m' a = some q ∧
      ∀ b, b ≠ a → nextOf m' b = nextOf m b := by
  refine ⟨Function.update m a (some { node with rightNext := q }), ?_, ⟨?_, ?_⟩, ?_, ?_⟩
  · rw [setRightNext, ha]
    rfl
  · intro b
    obtain rfl | hne := eq_or_ne b a
    · rw [Function.update_self, ha]
      rfl
    · rw [Function.update_of_ne hne]
  · intro b hb
    have hne : b ≠ a := fun heq => hb (by rwa [heq])
    exact Function.update_of_ne hne ..
  · rw [nextOf, Function.update_self]
    rfl
  · intro b hne
    rw [nextOf, Function.update_of_ne hne, nextOf]

/-- The turn for a node links it to the next one of its level. -/
theorem visit_spec (htree : IsTree m t p) (hnodup : (inorder t).Nodup)
    (hsame : SameTree t m m') (hlinked : Linked t m' d i) (ha : (atDepth t d)[i]? = some a) :
    ∃ m'', visit (atDepth t d).length i (queueAfter (childrenOf m) (atDepth t d) i, m') =
        some (queueAfter (childrenOf m) (atDepth t d) (i + 1), m'') ∧
      SameTree t m m'' ∧ Linked t m'' d (i + 1) := by
  have hmem : a ∈ inorder t := mem_inorder_of_atDepth (List.mem_of_getElem? ha)
  obtain ⟨node, hnode⟩ := isSome_of_tree htree hmem
  obtain ⟨node', hnode', -⟩ := hsame.read hnode
  obtain ⟨m'', hset, hsame', hself, hother⟩ := setRightNext_spec hnode' hmem (atDepth t d)[i + 1]?
  obtain ⟨node'', hnode'', -⟩ := (hsame.trans hsame').read hnode
  have hlink : link (atDepth t d).length i a ((atDepth t d).drop (i + 1) ++
      ((atDepth t d).take i).flatMap (childrenOf m)) m' = some m'' := by
    obtain ⟨hlt, -⟩ := List.getElem?_eq_some_iff.mp ha
    unfold link
    split
    case isTrue hlast =>
      rwa [List.getElem?_eq_none (by omega)] at hset
    case isFalse hlast =>
      have hnext : i + 1 < (atDepth t d).length := by omega
      rw [List.getElem?_eq_getElem hnext] at hset
      rw [List.drop_eq_getElem_cons hnext]
      exact hset
  refine ⟨m'', ?_, hsame.trans hsame', ?_⟩
  · rw [queueAfter_of_lt ha, queueAfter_succ ha, ← (hsame.trans hsame').childrenOf_eq,
      ← push_children hnode'', (hsame.trans hsame').childrenOf_eq, visit, hlink,
      Option.bind_eq_bind, Option.bind_some, hnode'']
    rfl
  · intro e j b hbefore hb
    by_cases hab : b = a
    · obtain ⟨rfl, rfl⟩ := atDepth_inj hnodup hb (hab ▸ ha)
      rw [hab, hself]
    · rw [hother b hab]
      refine hlinked e j b ?_ hb
      rcases hbefore with hless | ⟨rfl, hless⟩
      · exact .inl hless
      · refine .inr ⟨rfl, Nat.lt_of_le_of_ne (Nat.le_of_lt_succ hless) fun hij => hab ?_⟩
        rw [hij, ha] at hb
        exact (Option.some.inj hb).symm

/-! ## Levels -/

theorem levelRound_spec (htree : IsTree m t p) (hnodup : (inorder t).Nodup)
    (hsame : SameTree t m m') (hlinked : Linked t m' d 0) (hd : d < t.height) :
    ∃ m'', levelRound (atDepth t d, m') = some (.inl (atDepth t (d + 1), m'')) ∧
      SameTree t m m'' ∧ Linked t m'' (d + 1) 0 := by
  have hturns : ∃ s, forRange 0 (atDepth t d).length (visit (atDepth t d).length)
      (atDepth t d, m') = some s ∧
      s.1 = queueAfter (childrenOf m) (atDepth t d) (max 0 (atDepth t d).length) ∧
      SameTree t m s.2 ∧ Linked t s.2 d (max 0 (atDepth t d).length) := by
    refine forRange_rule (fun i (s : List Nat × Memory) =>
      s.1 = queueAfter (childrenOf m) (atDepth t d) i ∧ SameTree t m s.2 ∧ Linked t s.2 d i)
      ⟨queueAfter_zero.symm, hsame, hlinked⟩ ?_
    rintro i ⟨queue, m''⟩ - hi ⟨rfl, hsame, hlinked⟩
    obtain ⟨m₁, hvisit, hsame', hlinked'⟩ :=
      visit_spec htree hnodup hsame hlinked (List.getElem?_eq_getElem hi)
    exact ⟨_, hvisit, rfl, hsame', hlinked'⟩
  obtain ⟨⟨queue, m''⟩, hrun, hqueue, hsame', hlinked'⟩ := hturns
  rw [Nat.max_eq_right (Nat.zero_le _)] at hqueue hlinked'
  rw [queueAfter_length, children_atDepth htree] at hqueue
  dsimp only at hqueue hsame' hlinked'
  refine ⟨m'', ?_, hsame', ?_⟩
  · have hne : atDepth t d ≠ [] := fun hnil => Nat.not_lt.mpr (atDepth_eq_nil_iff.mp hnil) hd
    rw [levelRound, hrun, ← hqueue]
    · rfl
    · exact hne
  · intro e j a hbefore ha
    refine hlinked' e j a ?_ ha
    rcases hbefore with hless | ⟨-, hless⟩
    · rcases Nat.lt_succ_iff_lt_or_eq.mp hless with hless | rfl
      · exact .inl hless
      · exact .inr ⟨rfl, (List.getElem?_eq_some_iff.mp ha).1⟩
    · exact absurd hless (Nat.not_lt_zero j)

/-- The rounds before the one for depth `d`. -/
theorem leads_level (htree : IsTree m t p) (hnodup : (inorder t).Nodup) (hd : d ≤ t.height) :
    ∃ m', Leads levelRound d (atDepth t 0, m) (atDepth t d, m') ∧ SameTree t m m' ∧
      Linked t m' d 0 := by
  induction d with
  | zero => exact ⟨m, .refl _, .refl t m, fun e j a hbefore _ => by omega⟩
  | succ d ih =>
      obtain ⟨m', hleads, hsame, hlinked⟩ := ih (Nat.le_of_succ_le hd)
      obtain ⟨m'', hround, hsame', hlinked'⟩ := levelRound_spec htree hnodup hsame hlinked hd
      exact ⟨m'', hleads.trans (.single hround), hsame', hlinked'⟩

/-- Every node is linked to the next one to its right at its depth, the last one of a depth
to null, and nothing else changes. -/
theorem connectNodes_links (m : Memory) (root : Option Nat) (t : BinaryTree Nat) (fuel : Nat)
    (htree : IsTree m t root) (hnodup : (inorder t).Nodup) (hfuel : t.height < fuel) :
    ∃ m', connectNodes fuel root m = some (root, m') ∧
      (∀ a ∈ inorder t, ∃ d i, (atDepth t d)[i]? = some a ∧
        nextOf m' a = some (atDepth t d)[i + 1]?) ∧
      SameTree t m m' := by
  cases root with
  | none =>
      cases t with
      | nil => exact ⟨m, rfl, fun a ha => absurd ha List.not_mem_nil, .refl .nil m⟩
      | node a left right => cases htree.1
  | some root =>
      obtain ⟨m', hleads, hsame, hlinked⟩ := leads_level htree hnodup (Nat.le_refl t.height)
      have hend : levelRound (atDepth t t.height, m') = some (.inr m') := by
        rw [atDepth_eq_nil_iff.mpr (Nat.le_refl t.height)]
        rfl
      have hrun := hleads.loop_eq hend hfuel
      rw [atDepth_zero htree] at hrun
      refine ⟨m', ?_, ?_, hsame⟩
      · rw [connectNodes, show loop levelRound fuel ([root], m) = some m' from hrun]
        rfl
      · intro a ha
        obtain ⟨d, hd⟩ := exists_atDepth ha
        obtain ⟨i, hi⟩ := List.mem_iff_getElem?.mp hd
        have hless : d < t.height := by
          by_contra hge
          rw [atDepth_eq_nil_iff.mpr (Nat.not_lt.mp hge)] at hd
          exact List.not_mem_nil hd
        exact ⟨d, i, hi, hlinked d i a (.inl hless) hi⟩

/-- A root with two children, one of which points to itself. -/
def family : Memory
  | 0 => some ⟨10, some 1, some 2, none⟩
  | 1 => some ⟨8, none, none, some 1⟩
  | 2 => some ⟨2, none, none, none⟩
  | _ => none

theorem connectNodes_links_family :
    ∃ m', connectNodes 3 (some 0) family = some (some 0, m') ∧
      (∀ a ∈ inorder (.node 0 (.node 1 .nil .nil) (.node 2 .nil .nil)), ∃ d i,
        (atDepth (.node 0 (.node 1 .nil .nil) (.node 2 .nil .nil)) d)[i]? = some a ∧
        nextOf m' a =
          some (atDepth (.node 0 (.node 1 .nil .nil) (.node 2 .nil .nil)) d)[i + 1]?) ∧
      SameTree (.node 0 (.node 1 .nil .nil) (.node 2 .nil .nil)) family m' :=
  connectNodes_links family (some 0) (.node 0 (.node 1 .nil .nil) (.node 2 .nil .nil)) 3
    ⟨rfl, _, rfl, ⟨rfl, _, rfl, rfl, rfl⟩, ⟨rfl, _, rfl, rfl, rfl⟩⟩ (by decide) (by decide)

end ConnectNodes

end MoreCpp
