import MoreCpp.Library.DownwardPaths
import Mathlib.Algebra.BigOperators.Group.List.Basic

/-!
The paths between the leaves of a binary tree and the sums of the values on them. A place
in a tree is the way to it from the root.
-/

namespace MoreCpp.Library

/-- One place is a child of the other. -/
def Neighbours (p q : List Bool) : Prop := ∃ turn, q = p ++ [turn] ∨ p = q ++ [turn]

/-- The places from `p` to `q` by single links, none of them twice. -/
structure IsPath (p q : List Bool) (places : List (List Bool)) : Prop where
  chain : places.IsChain Neighbours
  nodup : places.Nodup
  head : places.head? = some p
  last : places.getLast? = some q

variable {p q : List Bool} {b c : Bool} {places before after : List (List Bool)}

theorem Neighbours.symm (h : Neighbours p q) : Neighbours q p :=
  let ⟨turn, hturn⟩ := h
  ⟨turn, hturn.symm⟩

theorem neighbours_cons : Neighbours (b :: p) (b :: q) ↔ Neighbours p q := by
  simp [Neighbours]

theorem neighbours_nil : Neighbours [] q ↔ ∃ turn, q = [turn] := by
  simp [Neighbours]

/-- A link that does not go through the root stays on its side. -/
theorem Neighbours.side (h : Neighbours (b :: p) q) (hq : q ≠ []) : ∃ q', q = b :: q' := by
  obtain ⟨turn, rfl | hp⟩ := h
  · exact ⟨p ++ [turn], rfl⟩
  · cases q with
    | nil => exact absurd rfl hq
    | cons c q =>
        obtain ⟨rfl, -⟩ := List.cons.inj hp
        exact ⟨q, rfl⟩

/-- So does a path. -/
theorem side_of_chain (hchain : ((b :: p) :: places).IsChain Neighbours) (hroot : [] ∉ places) :
    ∃ places' : List (List Bool), places = places'.map (b :: ·) := by
  induction places generalizing p with
  | nil => exact ⟨[], rfl⟩
  | cons q places ih =>
      obtain ⟨hlink, hrest⟩ := List.isChain_cons_cons.mp hchain
      rw [List.mem_cons, not_or] at hroot
      obtain ⟨hq, hroot⟩ := hroot
      obtain ⟨q, rfl⟩ := hlink.side (Ne.symm hq)
      obtain ⟨places', rfl⟩ := ih hrest hroot
      exact ⟨q :: places', rfl⟩

namespace IsPath

theorem reverse (h : IsPath p q places) : IsPath q p places.reverse where
  chain := (List.isChain_reverse.mpr (h.chain.imp fun _ _ hlink => hlink.symm))
  nodup := List.nodup_reverse.mpr h.nodup
  head := List.head?_reverse.trans h.last
  last := List.getLast?_reverse.trans h.head

theorem map_iff : IsPath (b :: p) (b :: q) (places.map (b :: ·)) ↔ IsPath p q places := by
  have hinj : Function.Injective (b :: · : List Bool → List Bool) := List.cons_injective
  constructor
  · rintro ⟨hchain, hnodup, hhead, hlast⟩
    rw [List.isChain_map] at hchain
    rw [List.head?_map] at hhead
    rw [List.getLast?_map] at hlast
    exact ⟨hchain.imp fun _ _ => neighbours_cons.mp, hnodup.of_map _,
      Option.map_injective hinj hhead, Option.map_injective hinj hlast⟩
  · rintro ⟨hchain, hnodup, hhead, hlast⟩
    refine ⟨?_, hnodup.map hinj, ?_, ?_⟩
    · rw [List.isChain_map]
      exact hchain.imp fun _ _ => neighbours_cons.mpr
    · rw [List.head?_map, hhead, Option.map_some]
    · rw [List.getLast?_map, hlast, Option.map_some]

theorem cons_iff : IsPath p q (p :: places) ↔ (p :: places).IsChain Neighbours ∧
    (p :: places).Nodup ∧ (p :: places).getLast? = some q :=
  ⟨fun h => ⟨h.chain, h.nodup, h.last⟩, fun ⟨hchain, hnodup, hlast⟩ =>
    ⟨hchain, hnodup, rfl, hlast⟩⟩

theorem eq_cons (h : IsPath p q places) : ∃ rest, places = p :: rest := by
  cases places with
  | nil => cases h.head
  | cons x rest =>
      obtain rfl : x = p := Option.some.inj h.head
      exact ⟨rest, rfl⟩

/-- A path that goes through a place is a path to it and a path from it. -/
theorem split {x : List Bool} (h : IsPath p q (before ++ x :: after)) :
    IsPath p x (before ++ [x]) ∧ IsPath x q (x :: after) := by
  have hsplit : before ++ x :: after = before ++ [x] ++ after := by
    rw [List.append_assoc, List.singleton_append]
  refine ⟨⟨?_, ?_, ?_, List.getLast?_concat⟩, cons_iff.mpr ⟨?_, ?_, ?_⟩⟩
  · exact (hsplit ▸ h.chain).left_of_append
  · exact (hsplit ▸ h.nodup).of_append_left
  · have hhead := h.head
    cases before with
    | nil => exact hhead
    | cons y before => exact hhead
  · exact h.chain.right_of_append
  · exact h.nodup.of_append_right
  · have hlast := h.last
    rwa [List.getLast?_append_of_ne_nil _ (List.cons_ne_nil x after)] at hlast

/-- The only path from the root goes straight down. -/
theorem from_root (h : IsPath [] q places) : places = q.inits := by
  induction q generalizing places with
  | nil =>
      obtain ⟨rest, rfl⟩ := h.eq_cons
      cases rest with
      | nil => rfl
      | cons x rest =>
          have hlast := h.last
          rw [List.getLast?_cons_cons] at hlast
          exact absurd (List.mem_of_getLast? hlast) (List.nodup_cons.mp h.nodup).1
  | cons b q ih =>
      obtain ⟨rest, rfl⟩ := h.eq_cons
      cases rest with
      | nil => cases h.last
      | cons x rest =>
          obtain ⟨hlink, hchain⟩ := List.isChain_cons_cons.mp h.chain
          obtain ⟨turn, rfl⟩ := neighbours_nil.mp hlink
          obtain ⟨hroot, hnodup⟩ := List.nodup_cons.mp h.nodup
          obtain ⟨rest, rfl⟩ := side_of_chain hchain (List.not_mem_of_not_mem_cons hroot)
          have hlast : ([turn] :: rest.map (turn :: ·)).getLast? = some (b :: q) := h.last
          have hmap : [turn] :: rest.map (turn :: ·) = ([] :: rest).map (turn :: ·) := rfl
          rw [hmap, List.getLast?_map] at hlast
          obtain ⟨q', hq', heq⟩ := Option.map_eq_some_iff.mp hlast
          obtain ⟨rfl, rfl⟩ := List.cons.inj heq
          have hpath : IsPath [] q' ([] :: rest) :=
            map_iff (b := turn) |>.mp ⟨hchain, hnodup, rfl, h.last⟩
          rw [hmap, ih hpath, List.inits_cons]

theorem root (q : List Bool) : IsPath [] q q.inits := by
  induction q with
  | nil => exact ⟨List.isChain_singleton _, List.nodup_singleton _, rfl, rfl⟩
  | cons b q ih =>
      have hmap := map_iff (b := b) |>.mpr ih
      obtain ⟨rest, hrest⟩ := hmap.eq_cons
      rw [List.inits_cons]
      refine cons_iff.mpr ⟨?_, ?_, ?_⟩
      · rw [hrest]
        exact List.isChain_cons_cons.mpr ⟨neighbours_nil.mpr ⟨b, rfl⟩, hrest ▸ hmap.chain⟩
      · exact List.nodup_cons.mpr ⟨by simp, hmap.nodup⟩
      · rw [hrest, List.getLast?_cons_cons, ← hrest]
        exact hmap.last

/-- A path between two places of one side stays on that side. -/
theorem same_side (h : IsPath (b :: p) (b :: q) places) :
    ∃ places' : List (List Bool), places = places'.map (b :: ·) ∧ IsPath p q places' := by
  have hroot : [] ∉ places := by
    intro hmem
    obtain ⟨before, after, rfl⟩ := List.append_of_mem hmem
    obtain ⟨hup, hdown⟩ := h.split
    -- up and down, the path goes through the child of the root
    have hfirst : [b] ∈ before := by
      have hmem : [b] ∈ (before ++ [[]]).reverse := by
        rw [hup.reverse.from_root]
        simp [List.mem_inits]
      simpa using hmem
    have hsecond : [b] ∈ after := by
      have hmem : [b] ∈ [] :: after := by
        rw [hdown.from_root]
        simp [List.mem_inits]
      simpa using hmem
    exact (List.nodup_append'.mp h.nodup).2.2 hfirst (List.mem_cons_of_mem _ hsecond)
  obtain ⟨rest, rfl⟩ := h.eq_cons
  obtain ⟨rest, rfl⟩ := side_of_chain h.chain (List.not_mem_of_not_mem_cons hroot)
  exact ⟨p :: rest, rfl, map_iff.mp h⟩

/-- A path from one side to the other goes straight up to the root and straight down. -/
theorem turn (hbc : b ≠ c) (h : IsPath (b :: p) (c :: q) places) :
    places = (p.inits.map (b :: ·)).reverse ++ [] :: q.inits.map (c :: ·) := by
  have hroot : [] ∈ places := by
    by_contra hroot
    obtain ⟨rest, rfl⟩ := h.eq_cons
    obtain ⟨rest, rfl⟩ := side_of_chain h.chain (List.not_mem_of_not_mem_cons hroot)
    have hmap : (b :: p) :: rest.map (b :: ·) = (p :: rest).map (b :: ·) := rfl
    have hlast := h.last
    rw [hmap, List.getLast?_map] at hlast
    obtain ⟨q', -, heq⟩ := Option.map_eq_some_iff.mp hlast
    exact hbc (List.cons.inj heq).1
  obtain ⟨before, after, rfl⟩ := List.append_of_mem hroot
  obtain ⟨hup, hdown⟩ := h.split
  have hbefore := hup.reverse.from_root
  have hafter := hdown.from_root
  rw [List.reverse_concat, List.inits_cons, List.cons_inj_right] at hbefore
  rw [List.inits_cons, List.cons_inj_right] at hafter
  rw [← hafter, ← hbefore, List.reverse_reverse]

theorem turn_path (hbc : b ≠ c) (p q : List Bool) : IsPath (b :: p) (c :: q)
    ((p.inits.map (b :: ·)).reverse ++ [] :: q.inits.map (c :: ·)) := by
  have hup := (map_iff.mpr (root p) : IsPath [b] (b :: p) (p.inits.map (b :: ·))).reverse
  have hdown : IsPath [] (c :: q) ([] :: q.inits.map (c :: ·)) := root (c :: q)
  refine ⟨?_, ?_, ?_, ?_⟩
  · refine List.isChain_append.mpr ⟨hup.chain, hdown.chain, fun x hx y hy => ?_⟩
    rw [hup.last] at hx
    obtain rfl := Option.some.inj hx
    obtain rfl := Option.some.inj hy
    exact (neighbours_nil.mpr ⟨b, rfl⟩).symm
  · refine List.nodup_append'.mpr ⟨hup.nodup, hdown.nodup, fun x hx hx' => ?_⟩
    rw [List.mem_reverse, List.mem_map] at hx
    obtain ⟨p', -, rfl⟩ := hx
    rcases List.mem_cons.mp hx' with heq | hmem
    · exact List.cons_ne_nil _ _ heq
    · obtain ⟨q', -, heq⟩ := List.mem_map.mp hmem
      exact hbc (List.cons.inj heq).1.symm
  · rw [List.head?_append, hup.head]
    rfl
  · rw [List.getLast?_append, hdown.last]
    rfl

end IsPath

/-! ## Sums -/

section Sums

variable {M : Type*} {t left right : BinaryTree M} {a s : M}

/-- The value at a place of the tree. -/
def valueAt (t : BinaryTree M) (p : List Bool) : Option M :=
  match subtreeAt t p with
  | .nil => none
  | .node a _ _ => some a

def IsLeaf (t : BinaryTree M) (p : List Bool) : Prop := ∃ a, subtreeAt t p = .node a .nil .nil

theorem not_isLeaf_nil : ¬ IsLeaf (.nil : BinaryTree M) p := by
  rintro ⟨a, h⟩
  cases p <;> cases h

theorem isLeaf_root (h : IsLeaf (.node a left right) []) : left = .nil ∧ right = .nil := by
  obtain ⟨b, hb⟩ := h
  obtain ⟨-, hleft, hright⟩ := BinaryTree.node.inj hb
  exact ⟨hleft, hright⟩

theorem isLeaf_cons :
    IsLeaf (.node a left right) (b :: p) ↔ IsLeaf (bif b then right else left) p := by
  cases b <;> rfl

variable [AddCommMonoid M]

def sumOn (t : BinaryTree M) (places : List (List Bool)) : M :=
  (places.filterMap (valueAt t)).sum

/-- The sums from the root to the leaves. -/
def downSums (t : BinaryTree M) : Set M := {s | ∃ p, IsLeaf t p ∧ s = sumOn t p.inits}

/-- The sums on the paths between two different leaves. -/
def leafSums (t : BinaryTree M) : Set M :=
  {s | ∃ p q places, IsLeaf t p ∧ IsLeaf t q ∧ p ≠ q ∧ IsPath p q places ∧ s = sumOn t places}

theorem sumOn_map (b : Bool) (places : List (List Bool)) :
    sumOn (.node a left right) (places.map (b :: ·)) =
      sumOn (bif b then right else left) places := by
  rw [sumOn, List.filterMap_map, sumOn]
  cases b <;> rfl

theorem sumOn_append (places places' : List (List Bool)) :
    sumOn t (places ++ places') = sumOn t places + sumOn t places' := by
  rw [sumOn, List.filterMap_append, List.sum_append, sumOn, sumOn]

theorem sumOn_reverse (places : List (List Bool)) : sumOn t places.reverse = sumOn t places := by
  rw [sumOn, List.filterMap_reverse, List.sum_reverse, sumOn]

theorem sumOn_root (places : List (List Bool)) :
    sumOn (.node a left right) ([] :: places) = a + sumOn (.node a left right) places := by
  have hroot : valueAt (.node a left right) [] = some a := rfl
  rw [sumOn, List.filterMap_cons_some hroot, List.sum_cons, sumOn]

theorem sumOn_turn (b c : Bool) (p q : List Bool) :
    sumOn (.node a left right) ((p.inits.map (b :: ·)).reverse ++ [] :: q.inits.map (c :: ·)) =
      sumOn (bif b then right else left) p.inits +
        (a + sumOn (bif c then right else left) q.inits) := by
  rw [sumOn_append, sumOn_reverse, sumOn_map, sumOn_root, sumOn_map]

theorem downSums_nil : downSums (.nil : BinaryTree M) = ∅ :=
  Set.eq_empty_of_forall_notMem fun _ ⟨_, hleaf, _⟩ => not_isLeaf_nil hleaf

theorem downSums_leaf : downSums (.node a .nil .nil) = {a} := by
  ext s
  constructor
  · rintro ⟨p, hleaf, rfl⟩
    cases p with
    | nil => exact add_zero a
    | cons b p =>
        rw [isLeaf_cons, Bool.cond_self] at hleaf
        exact absurd hleaf not_isLeaf_nil
  · rintro rfl
    exact ⟨[], ⟨_, rfl⟩, (add_zero s).symm⟩

theorem downSums_node (h : ¬ (left = .nil ∧ right = .nil)) :
    downSums (.node a left right) = (a + ·) '' (downSums left ∪ downSums right) := by
  have hbelow : ∀ (b : Bool) (p : List Bool), sumOn (.node a left right) (b :: p).inits =
      a + sumOn (bif b then right else left) p.inits := fun b p => by
    rw [List.inits_cons, sumOn_root, sumOn_map]
  ext s
  constructor
  · rintro ⟨p, hleaf, rfl⟩
    match p with
    | [] => exact absurd (isLeaf_root hleaf) h
    | false :: p => exact ⟨_, .inl ⟨p, isLeaf_cons.mp hleaf, rfl⟩, (hbelow false p).symm⟩
    | true :: p => exact ⟨_, .inr ⟨p, isLeaf_cons.mp hleaf, rfl⟩, (hbelow true p).symm⟩
  · rintro ⟨_, ⟨p, hleaf, rfl⟩ | ⟨p, hleaf, rfl⟩, rfl⟩
    · exact ⟨false :: p, isLeaf_cons.mpr hleaf, (hbelow false p).symm⟩
    · exact ⟨true :: p, isLeaf_cons.mpr hleaf, (hbelow true p).symm⟩

theorem leafSums_nil : leafSums (.nil : BinaryTree M) = ∅ :=
  Set.eq_empty_of_forall_notMem fun _ ⟨_, _, _, hleaf, _⟩ => not_isLeaf_nil hleaf

/-- A path between leaves stays on one side, or turns at the root. -/
theorem mem_leafSums_node : s ∈ leafSums (.node a left right) ↔
    s ∈ leafSums left ∨ s ∈ leafSums right ∨
      ∃ x ∈ downSums left, ∃ y ∈ downSums right, s = x + (a + y) := by
  have hsame : ∀ (b : Bool) {p q places}, IsLeaf (.node a left right) (b :: p) →
      IsLeaf (.node a left right) (b :: q) → b :: p ≠ b :: q → IsPath (b :: p) (b :: q) places →
      sumOn (.node a left right) places ∈ leafSums (bif b then right else left) := by
    intro b p q places hp hq hne hpath
    obtain ⟨places', rfl, hpath'⟩ := hpath.same_side
    exact ⟨p, q, places', isLeaf_cons.mp hp, isLeaf_cons.mp hq, fun heq => hne (by rw [heq]),
      hpath', sumOn_map b places'⟩
  have hside : ∀ b : Bool, s ∈ leafSums (bif b then right else left) →
      s ∈ leafSums (.node a left right) := by
    rintro b ⟨p, q, places, hp, hq, hne, hpath, rfl⟩
    exact ⟨b :: p, b :: q, _, isLeaf_cons.mpr hp, isLeaf_cons.mpr hq,
      fun heq => hne (List.cons.inj heq).2, IsPath.map_iff.mpr hpath, (sumOn_map b places).symm⟩
  constructor
  · rintro ⟨p, q, places, hp, hq, hne, hpath, rfl⟩
    match p, q with
    | [], [] => exact absurd rfl hne
    | [], c :: q =>
        obtain ⟨rfl, rfl⟩ := isLeaf_root hp
        rw [isLeaf_cons, Bool.cond_self] at hq
        exact absurd hq not_isLeaf_nil
    | b :: p, [] =>
        obtain ⟨rfl, rfl⟩ := isLeaf_root hq
        rw [isLeaf_cons, Bool.cond_self] at hp
        exact absurd hp not_isLeaf_nil
    | false :: p, false :: q => exact .inl (hsame false hp hq hne hpath)
    | true :: p, true :: q => exact .inr (.inl (hsame true hp hq hne hpath))
    | false :: p, true :: q =>
        rw [hpath.turn Bool.false_ne_true, sumOn_turn]
        exact .inr (.inr ⟨_, ⟨p, isLeaf_cons.mp hp, rfl⟩, _, ⟨q, isLeaf_cons.mp hq, rfl⟩, rfl⟩)
    | true :: p, false :: q =>
        rw [hpath.turn Bool.false_ne_true.symm, sumOn_turn]
        refine .inr (.inr ⟨_, ⟨q, isLeaf_cons.mp hq, rfl⟩, _, ⟨p, isLeaf_cons.mp hp, rfl⟩, ?_⟩)
        ac_rfl
  · rintro (h | h | ⟨_, ⟨p, hp, rfl⟩, _, ⟨q, hq, rfl⟩, rfl⟩)
    · exact hside false h
    · exact hside true h
    · exact ⟨false :: p, true :: q, _, isLeaf_cons.mpr hp, isLeaf_cons.mpr hq, by simp,
        IsPath.turn_path Bool.false_ne_true p q, (sumOn_turn false true p q).symm⟩

theorem downSums_nonempty (h : t ≠ .nil) : (downSums t).Nonempty := by
  induction t with
  | nil => exact absurd rfl h
  | node a left right ihl ihr =>
      by_cases hleft : left = .nil
      · by_cases hright : right = .nil
        · rw [hleft, hright, downSums_leaf]
          exact Set.singleton_nonempty a
        · rw [downSums_node fun hboth => hright hboth.2]
          exact ((ihr hright).inr).image _
      · rw [downSums_node fun hboth => hleft hboth.1]
        exact ((ihl hleft).inl).image _

/-- Below a node with two children there are two leaves. -/
theorem leafSums_nonempty (hnode : subtreeAt t p = .node a left right) (hleft : left ≠ .nil)
    (hright : right ≠ .nil) : (leafSums t).Nonempty := by
  induction p generalizing t with
  | nil =>
      rw [subtreeAt] at hnode
      subst hnode
      obtain ⟨x, hx⟩ := downSums_nonempty hleft
      obtain ⟨y, hy⟩ := downSums_nonempty hright
      exact ⟨_, mem_leafSums_node.mpr (.inr (.inr ⟨x, hx, y, hy, rfl⟩))⟩
  | cons b p ih =>
      cases t with
      | nil => cases hnode
      | node c left' right' =>
          cases b with
          | false =>
              obtain ⟨s, hs⟩ := ih (t := left') hnode
              exact ⟨s, mem_leafSums_node.mpr (.inl hs)⟩
          | true =>
              obtain ⟨s, hs⟩ := ih (t := right') hnode
              exact ⟨s, mem_leafSums_node.mpr (.inr (.inl hs))⟩

end Sums

end MoreCpp.Library
