import MoreCpp.Algorithms.TreeToDll.Visits

/-!
Both traversals visit the nodes of a tree in order and leave what the visits leave.
-/

namespace MoreCpp.TreeToDll

open Library

/-- The tree hangs at `root`, and to the right of its last node is `after`, which
takes the place of the tree when there is no node. -/
def IsTree (m : Memory) : BinaryTree Nat → Option Nat → Option Nat → Prop
  | .nil, root, after => root = after
  | .node a l r, root, after => root = some a ∧ ∃ left right, m.left a = some left ∧
      m.right a = some right ∧ IsTree m l left none ∧ IsTree m r right after

section Tree

variable {m m' : Memory} {t l r : BinaryTree Nat} {root after prev : Option Nat} {a p : Nat}

namespace IsTree

theorem frame (h : IsTree m t root after) (hleft : ∀ b ∈ inorder t, m'.left b = m.left b)
    (hright : ∀ b ∈ inorder t, m'.right b = m.right b) : IsTree m' t root after := by
  induction t generalizing root after with
  | nil => exact h
  | node a l r ihl ihr =>
      obtain ⟨rfl, left, right, hl, hr, htl, htr⟩ := h
      have ha : a ∈ inorder (.node a l r) := List.mem_append_right _ (.head _)
      refine ⟨rfl, left, right, (hleft a ha).trans hl, (hright a ha).trans hr, ?_, ?_⟩
      · exact ihl htl (fun b hb => hleft b (List.mem_append_left _ hb))
          fun b hb => hright b (List.mem_append_left _ hb)
      · exact ihr htr (fun b hb => hleft b (List.mem_append_right _ (.tail _ hb)))
          fun b hb => hright b (List.mem_append_right _ (.tail _ hb))

theorem isSome (h : IsTree m t root after) (ha : a ∈ inorder t) : (m a).isSome := by
  induction t generalizing root after with
  | nil => simp at ha
  | node b l r ihl ihr =>
      obtain ⟨-, left, right, -, hr, htl, htr⟩ := h
      rcases List.mem_append.mp ha with hmem | hmem
      · exact ihl htl hmem
      · rcases List.mem_cons.mp hmem with rfl | hmem
        · exact Memory.isSome_of_right hr
        · exact ihr htr hmem

theorem right_last (h : IsTree m t root after) (hp : (inorder t).getLast? = some p) :
    m.right p = some after := by
  induction t generalizing root after with
  | nil => cases hp
  | node a l r _ ih =>
      obtain ⟨-, left, right, -, hr, -, htr⟩ := h
      rw [inorder_getLast?_node] at hp
      cases r with
      | nil =>
          obtain rfl : a = p := Option.some.inj hp
          obtain rfl : right = after := htr
          exact hr
      | node b rl rr =>
          rw [inorder_getLast?_node, Option.getD_some, ← inorder_getLast?_node] at hp
          exact ih htr hp

/-- Going right from the root goes along the right spine. -/
theorem spine_chain (h : IsTree m t root after) :
    (rightSpine t).IsChain (fun x y => m.right x = some (some y)) ∧
      ((rightSpine t).head?.map some).getD after = root := by
  induction t generalizing root after with
  | nil => exact ⟨.nil, h.symm⟩
  | node a l r _ ih =>
      obtain ⟨rfl, left, right, -, hr, -, htr⟩ := h
      obtain ⟨hchain, hroot⟩ := ih htr
      refine ⟨?_, rfl⟩
      rw [rightSpine, List.isChain_cons]
      refine ⟨fun y hy => ?_, hchain⟩
      rw [Option.mem_def.mp hy] at hroot
      rw [hr, ← hroot]
      rfl

/-- A thread from the last node to what comes after the tree. -/
theorem thread (h : IsTree m t root none) (hnodup : (inorder t).Nodup)
    (hp : (inorder t).getLast? = some p) : IsTree (m.withRight p after) t root after := by
  induction t generalizing root with
  | nil => cases hp
  | node a l r _ ih =>
      have hlive := h.isSome (List.mem_of_getLast? hp)
      obtain ⟨rfl, left, right, hl, hr, htl, htr⟩ := h
      obtain ⟨-, hnodupRight, hal, har, hapart⟩ := nodup_node hnodup
      rw [inorder_getLast?_node] at hp
      cases r with
      | nil =>
          obtain rfl : a = p := Option.some.inj hp
          refine ⟨rfl, left, after, ?_, Memory.right_withRight_self hlive, ?_, rfl⟩
          · rw [Memory.left_withRight, hl]
          · apply htl.frame (fun b _ => by rw [Memory.left_withRight])
            intro b hb
            exact Memory.right_withRight_of_ne (ne_of_mem_of_not_mem hb hal)
      | node b rl rr =>
          rw [inorder_getLast?_node, Option.getD_some, ← inorder_getLast?_node] at hp
          have hmem : p ∈ inorder (.node b rl rr) := List.mem_of_getLast? hp
          refine ⟨rfl, left, right, ?_, ?_, ?_, ih htr hnodupRight hp⟩
          · rw [Memory.left_withRight, hl]
          · rw [Memory.right_withRight_of_ne (ne_of_mem_of_not_mem hmem har).symm, hr]
          · apply htl.frame (fun b _ => by rw [Memory.left_withRight])
            intro b hb
            exact Memory.right_withRight_of_ne fun heq => hapart b hb (heq ▸ hmem)

end IsTree

/-- Before a tree is traversed: `prev` is the node visited last, which is not in it. -/
structure Ready (m : Memory) (t : BinaryTree Nat) (root after prev : Option Nat) : Prop where
  tree : IsTree m t root after
  nodup : (inorder t).Nodup
  apart : ∀ b ∈ inorder t, prev ≠ some b
  prev : ∀ p, prev = some p → (m p).isSome

/-- The memory after the left tree of `a` and then `a` are visited. -/
def visitedTo (prev : Option Nat) (l : BinaryTree Nat) (a : Nat) (m : Memory) : Memory :=
  visit ((inorder l).getLast?.or prev) a (visits prev (inorder l) m)

theorem visits_node :
    visits prev (inorder (.node a l r)) m = visits (some a) (inorder r) (visitedTo prev l a m) := by
  rw [inorder_node, visits_append, visits, visitedTo]

namespace Ready

theorem links (h : Ready m (.node a l r) root after prev) :
    root = some a ∧ ∃ left right, m.left a = some left ∧ m.right a = some right := by
  obtain ⟨hroot, left, right, hleft, hright, -, -⟩ := h.tree
  exact ⟨hroot, left, right, hleft, hright⟩

theorem isSome (h : Ready m (.node a l r) root after prev) : (m a).isSome :=
  h.tree.isSome (List.mem_append_right _ (.head _))

theorem nodup_cons (h : Ready m t root after prev) : (prev :: (inorder t).map some).Nodup := by
  refine List.nodup_cons.mpr ⟨fun hmem => ?_, h.nodup.map (Option.some_injective Nat)⟩
  obtain ⟨b, hb, hprev⟩ := List.mem_map.mp hmem
  exact h.apart b hb hprev.symm

theorem left {left : Option Nat} (h : Ready m (.node a l r) root after prev)
    (hleft : m.left a = some left) : Ready m l left none prev := by
  obtain ⟨-, left', right, hleft', -, htl, -⟩ := h.tree
  obtain rfl := Option.some.inj (hleft'.symm.trans hleft)
  exact ⟨htl, (nodup_node h.nodup).1, fun b hb => h.apart b (List.mem_append_left _ hb), h.prev⟩

/-- The node visited right before `a` is in its left tree, or was before that. -/
theorem last_ne {b : Nat} (h : Ready m (.node a l r) root after prev)
    (hb : b ∈ inorder (.node a l r)) (hbl : b ∉ inorder l) :
    (inorder l).getLast?.or prev ≠ some b := by
  intro hp
  cases hlast : (inorder l).getLast? with
  | none =>
      rw [hlast, Option.none_or] at hp
      exact h.apart b hb hp
  | some q =>
      rw [hlast, Option.some_or] at hp
      exact hbl (List.mem_of_getLast? (hlast.trans hp))

theorem isSome_last (h : Ready m (.node a l r) root after prev) :
    ∀ p, (inorder l).getLast?.or prev = some p → (visits prev (inorder l) m p).isSome := by
  intro p hp
  rw [isSome_visits]
  cases hlast : (inorder l).getLast? with
  | none =>
      rw [hlast, Option.none_or] at hp
      exact h.prev p hp
  | some q =>
      rw [hlast, Option.some_or] at hp
      have hmem : p ∈ inorder l := List.mem_of_getLast? (hlast.trans hp)
      exact h.tree.isSome (List.mem_append_left _ hmem)

theorem left_visitedTo {b : Nat} (hbl : b ∉ inorder l) (hne : b ≠ a) :
    (visitedTo prev l a m).left b = m.left b := by
  rw [visitedTo, left_visit_of_ne hne, left_visits hbl]

theorem right_visitedTo {b : Nat} (h : Ready m (.node a l r) root after prev)
    (hb : b ∈ inorder (.node a l r)) (hbl : b ∉ inorder l) :
    (visitedTo prev l a m).right b = m.right b := by
  rw [visitedTo, right_visit_of_ne (h.last_ne hb hbl), right_visits]
  intro hmem
  rcases List.mem_cons.mp (List.dropLast_subset _ hmem) with heq | hmem
  · exact h.apart b hb heq.symm
  · exact hbl (by simpa using hmem)

theorem right {right : Option Nat} (h : Ready m (.node a l r) root after prev)
    (hright : m.right a = some right) :
    (visitedTo prev l a m).right a = some right ∧
      Ready (visitedTo prev l a m) r right after (some a) := by
  obtain ⟨-, hnodup, hal, har, hlr⟩ := nodup_node h.nodup
  obtain ⟨-, left, right', -, hright', -, htr⟩ := h.tree
  obtain rfl := Option.some.inj (hright'.symm.trans hright)
  have ha : a ∈ inorder (.node a l r) := List.mem_append_right _ (.head _)
  have hr : ∀ b ∈ inorder r, b ∈ inorder (.node a l r) := fun b hb =>
    List.mem_append_right _ (.tail _ hb)
  refine ⟨(h.right_visitedTo ha hal).trans hright, ?_, hnodup, ?_, ?_⟩
  · refine htr.frame (fun b hb => ?_) fun b hb => ?_
    · exact left_visitedTo (fun hmem => hlr b hmem hb) (ne_of_mem_of_not_mem hb har)
    · exact h.right_visitedTo (hr b hb) fun hmem => hlr b hmem hb
  · exact fun b hb heq => har (Option.some.inj heq ▸ hb)
  · intro p hp
    obtain rfl := Option.some.inj hp
    rw [visitedTo, isSome_visit, isSome_visits]
    exact h.isSome

/-- A thread from the last node to what comes after. -/
theorem thread (h : Ready m t root none prev) (after : Option Nat)
    (hp : (inorder t).getLast? = some p) :
    Ready (m.withRight p after) t root after prev where
  tree := h.tree.thread h.nodup hp
  nodup := h.nodup
  apart := h.apart
  prev q hq := by
    rw [Memory.isSome_withRight]
    exact h.prev q hq

/-- After the visits the right links lead through the nodes in order. -/
theorem list_chain (h : Ready m t root after prev) :
    (inorder t).IsChain fun x y => (visits prev (inorder t) m).right x = some (some y) := by
  have hchain := visits_chain h.nodup_cons fun p hp => by
    rcases List.mem_cons.mp hp with heq | hmem
    · exact h.prev p heq.symm
    · exact h.tree.isSome (by simpa using hmem)
  have hrest := (List.isChain_cons.mp hchain).2
  rw [List.isChain_map] at hrest
  exact hrest.imp fun x y hxy => hxy.1 x rfl

end Ready

end Tree

section Stack

variable {m : Memory} {t : BinaryTree Nat} {root head prev : Option Nat}
  {st : List (Option Nat × Nat)} {a : Nat}

/-- The rounds on one node: its visit is between those of its two trees. -/
theorem StackState.round_left {left : Option Nat} {flag : Bool} (hleft : m.left a = some left) :
    StackState.round ⟨(some a, 0) :: st, head, prev, flag, m⟩ =
      some (.inl ⟨(left, 0) :: (some a, 1) :: st, head, prev, flag, m⟩) := by
  simp [StackState.round, Memory.getLeft_some, hleft]

theorem StackState.round_visit (st : List (Option Nat × Nat)) (head : Option Nat)
    (ha : (m a).isSome) (hprev : ∀ p, prev = some p → (m p).isSome) :
    StackState.round ⟨(some a, 1) :: st, head, prev, head.isNone, m⟩ =
      some (.inl ⟨(some a, 2) :: st, head.or (some a), some a, (head.or (some a)).isNone,
        visit prev a m⟩) := by
  have hhead : (if head = none then some a else head) = some (head.getD a) := by
    cases head <;> rfl
  cases prev with
  | none => simp [StackState.round, Memory.setLeft_some ha, visit, hhead]
  | some p =>
      have hlive : (m.withRight p (some a) a).isSome := by rwa [Memory.isSome_withRight]
      simp [StackState.round, Memory.setRight_some (hprev p rfl), Memory.setLeft_some hlive, visit,
        hhead]

theorem StackState.round_right {right : Option Nat} {flag : Bool}
    (hright : m.right a = some right) :
    StackState.round ⟨(some a, 2) :: st, head, prev, flag, m⟩ =
      some (.inl ⟨(right, 0) :: (some a, 3) :: st, head, prev, flag, m⟩) := by
  simp [StackState.round, Memory.getRight_some, hright]

theorem StackState.round_done {flag : Bool} :
    StackState.round ⟨(some a, 3) :: st, head, prev, flag, m⟩ =
      some (.inl ⟨st, head, prev, flag, m⟩) := by
  simp [StackState.round]

theorem StackState.round_none {flag : Bool} {state : Nat} :
    StackState.round ⟨(none, state) :: st, head, prev, flag, m⟩ =
      some (.inl ⟨st, head, prev, flag, m⟩) := by
  simp [StackState.round]

theorem last_or_cons {l l' : List Nat} :
    (l ++ a :: l').getLast?.or prev = l'.getLast?.or (some a) := by
  rw [List.getLast?_append_cons, List.getLast?_cons]
  cases l'.getLast? <;> rfl

theorem or_head_cons {l l' : List Nat} :
    head.or (l ++ a :: l').head? = ((head.or l.head?).or (some a)).or l'.head? := by
  cases head <;> cases l <;> rfl

/-- The rounds from the push of a tree to its pop visit its nodes in order. -/
theorem stack_leads (st : List (Option Nat × Nat)) (head : Option Nat)
    (h : Ready m t root none prev) :
    Leads StackState.round (5 * t.numNodes + 1) ⟨(root, 0) :: st, head, prev, head.isNone, m⟩
      ⟨st, head.or (inorder t).head?, (inorder t).getLast?.or prev,
        (head.or (inorder t).head?).isNone, visits prev (inorder t) m⟩ := by
  induction t generalizing root st head prev m with
  | nil =>
      obtain rfl : root = none := h.tree
      rw [inorder_nil, List.head?_nil, Option.or_none]
      exact .single StackState.round_none
  | node a l r ihl ihr =>
      obtain ⟨rfl, left, right, hleft, hright⟩ := h.links
      obtain ⟨hright', hr⟩ := h.right hright
      have halive : (visits prev (inorder l) m a).isSome := by
        rw [isSome_visits]
        exact h.isSome
      have hfirst := Leads.head (StackState.round_left hleft)
        (ihl ((some a, 1) :: st) head (h.left hleft))
      have hvisit := Leads.head
        (StackState.round_visit st (head.or (inorder l).head?) halive h.isSome_last)
        (.head (StackState.round_right hright') (ihr _ _ hr))
      have hall := (hfirst.trans hvisit).trans (.single StackState.round_done)
      have hrounds : 5 * (BinaryTree.node a l r).numNodes + 1 =
          5 * l.numNodes + 1 + 1 + (5 * r.numNodes + 1 + 1 + 1) + 1 := by
        rw [BinaryTree.numNodes]
        omega
      rw [hrounds, visits_node, inorder_node, last_or_cons, or_head_cons]
      exact hall

end Stack

section Morris

variable {m : Memory} {t l r : BinaryTree Nat} {root after head prev right : Option Nat}
  {a b p fuel : Nat}

theorem search_leads {cur : Option Nat} {path : List Nat}
    (hchain : (a :: path).IsChain fun x y => m.right x = some (some y))
    (hcur : ∀ y ∈ path, some y ≠ cur) :
    Leads (searchRound cur m) path.length (some a) (some (path.getLast?.getD a)) := by
  induction path generalizing a with
  | nil => exact .refl _
  | cons y rest ih =>
      obtain ⟨hright, hrest⟩ := List.isChain_cons_cons.mp hchain
      have hround : searchRound cur m (some a) = some (.inl (some y)) := by
        simp [searchRound, Memory.getRight_some, hright, hcur y (.head _)]
      rw [List.getLast?_cons, Option.getD_some]
      exact .head hround (ih hrest fun z hz => hcur z (.tail _ hz))

/-- The search goes along right links to a node with none, or with the one to `cur`. -/
theorem search_eq {cur : Option Nat} {path : List Nat}
    (hchain : (a :: path).IsChain fun x y => m.right x = some (some y))
    (hcur : ∀ y ∈ path, some y ≠ cur) (hlast : (a :: path).getLast? = some p)
    (hright : m.right p = some right) (hend : right = none ∨ right = cur)
    (hfuel : path.length < fuel) : loop (searchRound cur m) fuel (some a) = some (some p) := by
  rw [List.getLast?_cons] at hlast
  obtain rfl := Option.some.inj hlast
  refine (search_leads hchain hcur).loop_eq ?_ hfuel
  have hstop : ¬ (right ≠ none ∧ right ≠ cur) := by
    rcases hend with rfl | rfl <;> simp
  simp [searchRound, Memory.getRight_some, hright, hstop]

/-- A node without a left tree is visited at once. -/
theorem MorrisState.round_visit (fuel : Nat) (hleft : m.left a = some none)
    (hright : (visit prev a m).right a = some right) (hhead : prev = none ↔ head = none)
    (hprev : ∀ p, prev = some p → (m p).isSome) :
    MorrisState.round fuel ⟨some a, prev, head, m⟩ =
      some (.inl ⟨right, some a, head.or (some a), visit prev a m⟩) := by
  cases prev with
  | none =>
      obtain rfl := hhead.mp rfl
      have hsame : visit none a m = m := Memory.withLeft_eq_self hleft
      rw [hsame] at hright ⊢
      simp [MorrisState.round, Memory.getLeft_some, Memory.getRight_some, hleft, hright]
  | some q =>
      obtain ⟨x, rfl⟩ : ∃ x, head = some x :=
        Option.ne_none_iff_exists'.mp fun heq => Option.some_ne_none q (hhead.mpr heq)
      have halive : (m.withRight q (some a) a).isSome := by
        rw [← Memory.isSome_withLeft (p := a) (q := some q)]
        exact Memory.isSome_of_right hright
      rw [visit] at hright
      simp [MorrisState.round, Memory.getLeft_some, Memory.getRight_some, hleft,
        Memory.setRight_some (hprev q rfl), Memory.setLeft_some halive, visit, hright]

/-- A node with a left tree is met first before that tree, to which it puts a thread. -/
theorem MorrisState.round_thread (hleft : m.left a = some (some b))
    (hsearch : loop (searchRound (some a) m) fuel (some b) = some (some p))
    (hright : m.right p = some none) :
    MorrisState.round fuel ⟨some a, prev, head, m⟩ =
      some (.inl ⟨some b, prev, head, m.withRight p (some a)⟩) := by
  simp [MorrisState.round, Memory.getLeft_some, Memory.getRight_some, hleft, hsearch, hright,
    Memory.setRight_some (Memory.isSome_of_right hright)]

/-- It is met again by the thread, after that tree, and visited. -/
theorem MorrisState.round_return (hleft : m.left a = some (some b))
    (hsearch : loop (searchRound (some a) m) fuel (some b) = some (some p))
    (hthread : m.right p = some (some a)) (hright : (visit (some p) a m).right a = some right) :
    MorrisState.round fuel ⟨some a, some p, head, m⟩ =
      some (.inl ⟨right, some a, head, visit (some p) a m⟩) := by
  have halive : (m.withRight p (some a) a).isSome := by
    rw [← Memory.isSome_withLeft (p := a) (q := some p)]
    exact Memory.isSome_of_right hright
  rw [visit] at hright
  simp [MorrisState.round, Memory.getLeft_some, Memory.getRight_some, hleft, hsearch, hthread,
    Memory.setRight_some (Memory.isSome_of_right hthread), Memory.setLeft_some halive, visit,
    hright]

/-- The first meeting with a node with a left tree: a thread to it is put. -/
theorem morris_thread (head : Option Nat)
    (h : Ready m (.node a (.node b l r) t) (some a) after prev)
    (hp : (inorder (.node b l r)).getLast? = some p) (hfuel : (rightSpine r).length < fuel) :
    MorrisState.round fuel ⟨some a, prev, head, m⟩ =
        some (.inl ⟨some b, prev, head, m.withRight p (some a)⟩) ∧
      Ready (m.withRight p (some a)) (.node b l r) (some b) (some a) prev := by
  obtain ⟨-, left, right, hleft, -⟩ := h.links
  have hl := h.left hleft
  obtain rfl : left = some b := hl.links.1
  have hal := (nodup_node h.nodup).2.2.1
  refine ⟨MorrisState.round_thread hleft ?_ (hl.tree.right_last hp), hl.thread (some a) hp⟩
  refine search_eq hl.tree.spine_chain.1 (fun y hy heq => hal ?_) ?_ (hl.tree.right_last hp)
    (.inl rfl) hfuel
  · obtain rfl := Option.some.inj heq
    exact mem_of_mem_rightSpine (t := .node b l r) (.tail _ hy)
  · rw [← hp, ← rightSpine_getLast?]
    rfl

/-- The second meeting: the left tree is a list that leads to the thread. -/
theorem morris_return (head : Option Nat)
    (h : Ready m (.node a (.node b l r) t) (some a) after prev)
    (hp : (inorder (.node b l r)).getLast? = some p) (hfuel : (inorder r).length < fuel)
    (hright : m.right a = some right) :
    MorrisState.round fuel ⟨some a, some p, head,
        visits prev (inorder (.node b l r)) (m.withRight p (some a))⟩ =
      some (.inl ⟨right, some a, head, visitedTo prev (.node b l r) a m⟩) := by
  obtain ⟨-, left, -, hleft, -⟩ := h.links
  have hl := h.left hleft
  obtain rfl : left = some b := hl.links.1
  have hal := (nodup_node h.nodup).2.2.1
  have hthread := hl.thread (some a) hp
  have hpwrite := last_notMem hl.nodup_cons hp
  have hsame : visit (some p) a (visits prev (inorder (.node b l r)) (m.withRight p (some a))) =
      visitedTo prev (.node b l r) a m := by
    rw [visits_withRight hpwrite, visit_withRight_self, visitedTo, hp, Option.some_or]
  have hchain := hthread.list_chain
  rw [inorder_node] at hchain
  have hend : (visits prev (inorder (.node b l r)) (m.withRight p (some a))).right p =
      some (some a) := by
    rw [right_visits hpwrite, hthread.tree.right_last hp]
  have hsearch : loop (searchRound (some a)
      (visits prev (inorder (.node b l r)) (m.withRight p (some a)))) fuel (some b) =
        some (some p) := by
    refine search_eq hchain.right_of_append (fun y hy heq => ?_) ?_ hend (.inr rfl) hfuel
    · obtain rfl := Option.some.inj heq
      exact hal (List.mem_append_right _ (.tail _ hy))
    · rw [← hp, inorder_node, List.getLast?_append_cons]
  rw [← hsame]
  refine MorrisState.round_return ?_ hsearch hend ?_
  · rw [left_visits hal, Memory.left_withRight, hleft]
  · rw [hsame]
    exact (h.right hright).1

/-- From the root of a tree to what comes after it, its nodes are visited in order. -/
theorem morris_leads (head : Option Nat) (h : Ready m t root after prev)
    (hhead : prev = none ↔ head = none) (hfuel : t.numNodes < fuel) :
    ∃ rounds ≤ 2 * t.numNodes, Leads (MorrisState.round fuel) rounds ⟨root, prev, head, m⟩
      ⟨after, (inorder t).getLast?.or prev, head.or (inorder t).head?,
        visits prev (inorder t) m⟩ := by
  induction t generalizing root after head prev m with
  | nil =>
      obtain rfl : root = after := h.tree
      rw [inorder_nil, List.head?_nil, Option.or_none]
      exact ⟨0, Nat.zero_le _, .refl _⟩
  | node a l r ihl ihr =>
      obtain ⟨rfl, left, right, hleft, hright⟩ := h.links
      obtain ⟨hright', hr⟩ := h.right hright
      rw [BinaryTree.numNodes] at hfuel
      have hfuelRight : r.numNodes < fuel := by omega
      have hsome : ∀ x : Option Nat, some a = none ↔ x.or (some a) = none := fun x => by simp
      rw [visits_node, inorder_node, last_or_cons, or_head_cons, BinaryTree.numNodes]
      cases l with
      | nil =>
          obtain rfl : left = none := (h.left hleft).tree
          obtain ⟨rounds, hrounds, hrest⟩ := ihr _ hr (hsome head) hfuelRight
          have hfirst := MorrisState.round_visit fuel hleft hright' hhead h.prev
          refine ⟨rounds + 1, by omega, .head hfirst ?_⟩
          rw [inorder_nil, List.head?_nil, Option.or_none]
          exact hrest
      | node b ll lr =>
          obtain ⟨p, hp⟩ : ∃ p, (inorder (.node b ll lr)).getLast? = some p :=
            ⟨_, inorder_getLast?_node⟩
          have hsize : lr.numNodes < (BinaryTree.node b ll lr).numNodes := by
            rw [BinaryTree.numNodes]
            omega
          have hspine : (rightSpine lr).length < fuel := by
            have hlength := rightSpine_length lr
            omega
          have hlist : (inorder lr).length < fuel := by
            rw [inorder_length]
            omega
          obtain ⟨hfirst, hready⟩ := morris_thread head h hp hspine
          obtain ⟨rounds, hrounds, hleft⟩ := ihl head hready hhead (by omega)
          -- The left tree has a first node, so that the head is there already.
          have hfound : (head.or (inorder (.node b ll lr)).head?).or (some a) =
              head.or (inorder (.node b ll lr)).head? := by
            cases head <;> cases hll : inorder ll <;> simp [hll]
          have hagain := morris_return (head.or (inorder (.node b ll lr)).head?) h hp hlist hright
          obtain ⟨rounds', hrounds', hrest⟩ :=
            ihr _ hr (hsome (head.or (inorder (.node b ll lr)).head?)) hfuelRight
          rw [hfound] at hrest ⊢
          rw [hp, Option.some_or] at hleft
          refine ⟨rounds + 1 + (rounds' + 1), by omega, ?_⟩
          exact (Leads.head hfirst hleft).trans (.head hagain hrest)

end Morris

/-- The stack of `bToDllStack` and the threads of `btToDllMorris` come to the same
list, which is the nodes of the tree in order. -/
theorem toDll_same {m : Memory} {t : BinaryTree Nat} {root : Option Nat}
    (ht : IsTree m t root none) (hnodup : (inorder t).Nodup) :
    ∃ head m' n, (∀ fuel, n < fuel → bToDllStack fuel root m = some (head, m')) ∧
      (∀ fuel, n < fuel → btToDllMorris fuel root m = some (head, m')) ∧
      IsDll m' head (inorder t) := by
  have hready : Ready m t root none none := ⟨ht, hnodup, fun _ _ => nofun, nofun⟩
  refine ⟨(inorder t).head?, visits none (inorder t) m, 5 * t.numNodes + 1, ?_, ?_, ?_⟩
  · intro fuel hfuel
    exact (stack_leads [] none hready).loop_eq rfl hfuel
  · intro fuel hfuel
    have hsize : t.numNodes < fuel := by omega
    obtain ⟨rounds, hrounds, hleads⟩ := morris_leads none hready Iff.rfl hsize
    exact hleads.loop_eq rfl (by omega)
  · exact isDll_visits hnodup (fun p hp => ht.isSome hp) fun p hp => ht.right_last hp

/-- A node between its two children. -/
theorem toDll_same_three : ∃ head m' n,
    (∀ fuel, n < fuel → btToDllMorris fuel (some 0) (fun p => [⟨some 1, some 2⟩, ⟨none, none⟩,
      ⟨none, none⟩][p]?) = some (head, m')) ∧ IsDll m' head [1, 0, 2] := by
  have ht : IsTree (fun p => [⟨some 1, some 2⟩, ⟨none, none⟩, ⟨none, none⟩][p]?)
      (.node 0 (.node 1 .nil .nil) (.node 2 .nil .nil)) (some 0) none :=
    ⟨rfl, _, _, rfl, rfl, ⟨rfl, _, _, rfl, rfl, rfl, rfl⟩, ⟨rfl, _, _, rfl, rfl, rfl, rfl⟩⟩
  obtain ⟨head, m', n, -, hmorris, hdll⟩ := toDll_same ht (by decide)
  exact ⟨head, m', n, hmorris, hdll⟩

end MoreCpp.TreeToDll
