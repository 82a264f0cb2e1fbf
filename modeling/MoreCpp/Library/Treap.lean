import Mathlib.Algebra.Order.Group.Multiset
import MoreCpp.Library.TreeOrders

/-!
Treaps: search trees by `key` that are heaps by `prior`, where keys and priorities
may repeat. The operations are those on trees that are not changed in place.
-/

namespace MoreCpp.Library

namespace Treap

variable {α K P : Type*} [LinearOrder K] [LinearOrder P]

section Invariant

variable (key : α → K) (prior : α → P)

def top : BinaryTree α → Option α
  | .nil => none
  | .node a _ _ => some a

/-- Left keys are at most the node's key, which is at most right keys. -/
def Ordered : BinaryTree α → Prop
  | .nil => True
  | .node a l r => (∀ b ∈ inorder l, key b ≤ key a) ∧ (∀ b ∈ inorder r, key a ≤ key b) ∧
      Ordered l ∧ Ordered r

/-- The priority of every parent is at least those of its children. -/
def HeapOrdered : BinaryTree α → Prop
  | .nil => True
  | .node a l r => (∀ b ∈ top l, prior b ≤ prior a) ∧ (∀ b ∈ top r, prior b ≤ prior a) ∧
      HeapOrdered l ∧ HeapOrdered r

structure IsTreap (t : BinaryTree α) : Prop where
  ordered : Ordered key t
  heapOrdered : HeapOrdered prior t

end Invariant

section Operations

variable (key : α → K) (prior : α → P)

/-- The keys up to `k` and those above it. -/
def split (k : K) : BinaryTree α → BinaryTree α × BinaryTree α
  | .nil => (.nil, .nil)
  | .node a l r =>
      if key a ≤ k then (.node a l (split k r).1, (split k r).2)
      else ((split k l).1, .node a (split k l).2 r)

def insert (a : α) : BinaryTree α → BinaryTree α
  | .nil => .node a .nil .nil
  | .node b l r =>
      if prior b < prior a then
        .node a (split key (key a) (.node b l r)).1 (split key (key a) (.node b l r)).2
      else if key b ≤ key a then .node b l (insert a r)
      else .node b (insert a l) r

def merge : BinaryTree α → BinaryTree α → BinaryTree α
  | .nil, r => r
  | l, .nil => l
  | .node a ll lr, .node b rl rr =>
      if prior b < prior a then .node a ll (merge lr (.node b rl rr))
      else .node b (merge (.node a ll lr) rl) rr
termination_by l r => l.numNodes + r.numNodes
decreasing_by
  all_goals
    simp only [BinaryTree.numNodes]
    omega

/-- The node of key `k` that the search meets first, and the tree without it. -/
def erase (k : K) : BinaryTree α → Option (α × BinaryTree α)
  | .nil => none
  | .node a l r =>
      if key a = k then some (a, merge prior l r)
      else if k < key a then (erase k l).map fun found => (found.1, .node a found.2 r)
      else (erase k r).map fun found => (found.1, .node a l found.2)

end Operations

section Split

variable {key : α → K} {prior : α → P} {k : K} {t l r : BinaryTree α} {a b : α}

theorem split_inorder (key : α → K) (k : K) (t : BinaryTree α) :
    inorder (split key k t).1 ++ inorder (split key k t).2 = inorder t := by
  induction t with
  | nil => rfl
  | node a l r ihl ihr =>
      rw [split]
      split
      · rw [inorder_node, inorder_node, List.append_assoc, List.cons_append, ihr]
      · rw [inorder_node, inorder_node, ← List.append_assoc, ihl]

theorem mem_split : b ∈ inorder t ↔
    b ∈ inorder (split key k t).1 ∨ b ∈ inorder (split key k t).2 := by
  rw [← split_inorder key k t, List.mem_append]

theorem split_numNodes (key : α → K) (k : K) (t : BinaryTree α) :
    (split key k t).1.numNodes + (split key k t).2.numNodes = t.numNodes := by
  rw [← inorder_length, ← inorder_length, ← List.length_append, split_inorder, inorder_length]

end Split

def unite (key : α → K) (prior : α → P) : BinaryTree α → BinaryTree α → BinaryTree α
  | .nil, r => r
  | l, .nil => l
  | .node a ll lr, .node b rl rr =>
      if prior a < prior b then
        .node b (unite key prior rl (split key (key b) (.node a ll lr)).1)
          (unite key prior rr (split key (key b) (.node a ll lr)).2)
      else
        .node a (unite key prior ll (split key (key a) (.node b rl rr)).1)
          (unite key prior lr (split key (key a) (.node b rl rr)).2)
termination_by l r => l.numNodes + r.numNodes
decreasing_by
  all_goals
    have hleft := split_numNodes key (key b) (.node a ll lr)
    have hright := split_numNodes key (key a) (.node b rl rr)
    simp only [BinaryTree.numNodes] at hleft hright ⊢
    omega

section Order

variable {key : α → K} {prior : α → P} {k : K} {t l r : BinaryTree α} {a b : α}

theorem mem_of_mem_top (h : b ∈ top t) : b ∈ inorder t := by
  cases t with
  | nil => cases h
  | node a l r =>
      obtain rfl := Option.some.inj h
      exact List.mem_append_right _ (.head _)

/-- The root of a heap has a top priority. -/
theorem HeapOrdered.prior_le (h : HeapOrdered prior (.node a l r)) :
    (∀ b ∈ inorder l, prior b ≤ prior a) ∧ ∀ b ∈ inorder r, prior b ≤ prior a := by
  have hroot : ∀ {t : BinaryTree α}, (∀ b ∈ top t, prior b ≤ prior a) → HeapOrdered prior t →
      ∀ b ∈ inorder t, prior b ≤ prior a := by
    intro t
    induction t with
    | nil => exact fun _ _ b hb => by cases hb
    | node c cl cr ihl ihr =>
        rintro htop ⟨hcl, hcr, hl, hr⟩ b hb
        have hc : prior c ≤ prior a := htop c rfl
        rcases List.mem_append.mp hb with hmem | hmem
        · exact ihl (fun d hd => (hcl d hd).trans hc) hl b hmem
        · rcases List.mem_cons.mp hmem with rfl | hmem
          · exact hc
          · exact ihr (fun d hd => (hcr d hd).trans hc) hr b hmem
  exact ⟨hroot h.1 h.2.2.1, hroot h.2.1 h.2.2.2⟩

theorem HeapOrdered.prior_le_root (h : HeapOrdered prior (.node a l r)) :
    ∀ b ∈ inorder (.node a l r), prior b ≤ prior a := by
  intro b hb
  rcases List.mem_append.mp hb with hmem | hmem
  · exact h.prior_le.1 b hmem
  · rcases List.mem_cons.mp hmem with rfl | hmem
    · exact le_rfl
    · exact h.prior_le.2 b hmem

theorem isTreap_nil : IsTreap key prior .nil := ⟨trivial, trivial⟩

theorem isTreap_node_iff : IsTreap key prior (.node a l r) ↔
    (∀ b ∈ inorder l, key b ≤ key a ∧ prior b ≤ prior a) ∧
      (∀ b ∈ inorder r, key a ≤ key b ∧ prior b ≤ prior a) ∧
      IsTreap key prior l ∧ IsTreap key prior r := by
  constructor
  · rintro ⟨ho, hh⟩
    obtain ⟨hpl, hpr⟩ := hh.prior_le
    exact ⟨fun b hb => ⟨ho.1 b hb, hpl b hb⟩, fun b hb => ⟨ho.2.1 b hb, hpr b hb⟩,
      ⟨ho.2.2.1, hh.2.2.1⟩, ⟨ho.2.2.2, hh.2.2.2⟩⟩
  · rintro ⟨hl, hr, hleft, hright⟩
    refine ⟨⟨fun b hb => (hl b hb).1, fun b hb => (hr b hb).1, hleft.1, hright.1⟩,
      fun b hb => (hl b (mem_of_mem_top hb)).2, fun b hb => (hr b (mem_of_mem_top hb)).2,
      hleft.2, hright.2⟩

theorem IsTreap.prior_le {p : P} (h : IsTreap key prior (.node a l r)) (ha : prior a ≤ p) :
    ∀ b ∈ inorder (.node a l r), prior b ≤ p := fun b hb =>
  (h.heapOrdered.prior_le_root b hb).trans ha

/-- In order, the keys of a treap are sorted. -/
theorem Ordered.sorted (h : Ordered key t) :
    (inorder t).Pairwise fun a b => key a ≤ key b := by
  induction t with
  | nil => exact .nil
  | node a l r ihl ihr =>
      obtain ⟨hl, hr, hleft, hright⟩ := h
      rw [inorder_node, List.pairwise_append, List.pairwise_cons]
      refine ⟨ihl hleft, ⟨hr, ihr hright⟩, fun b hb c hc => ?_⟩
      rcases List.mem_cons.mp hc with rfl | hc
      · exact hl b hb
      · exact (hl b hb).trans (hr c hc)

theorem IsTreap.split (h : IsTreap key prior t) :
    IsTreap key prior (split key k t).1 ∧ IsTreap key prior (split key k t).2 := by
  induction t with
  | nil => exact ⟨h, h⟩
  | node a l r ihl ihr =>
      obtain ⟨hl, hr, hleft, hright⟩ := isTreap_node_iff.mp h
      rw [Treap.split]
      split
      · refine ⟨isTreap_node_iff.mpr ⟨hl, fun b hb => ?_, hleft, (ihr hright).1⟩, (ihr hright).2⟩
        exact hr b (mem_split.mpr (.inl hb))
      · refine ⟨(ihl hleft).1, isTreap_node_iff.mpr ⟨fun b hb => ?_, hr, (ihl hleft).2, hright⟩⟩
        exact hl b (mem_split.mpr (.inr hb))

/-- The two parts of a split lie on either side of the key. -/
theorem Ordered.split (h : Ordered key t) :
    (∀ b ∈ inorder (split key k t).1, key b ≤ k) ∧ ∀ b ∈ inorder (split key k t).2, k < key b := by
  induction t with
  | nil => exact ⟨fun b hb => absurd hb List.not_mem_nil, fun b hb => absurd hb List.not_mem_nil⟩
  | node a l r ihl ihr =>
      obtain ⟨hl, hr, hleft, hright⟩ := h
      rw [Treap.split]
      split
      · rename_i hk
        refine ⟨fun b hb => ?_, (ihr hright).2⟩
        rcases List.mem_append.mp hb with hmem | hmem
        · exact (hl b hmem).trans hk
        · rcases List.mem_cons.mp hmem with rfl | hmem
          · exact hk
          · exact (ihr hright).1 b hmem
      · rename_i hk
        have hk := lt_of_not_ge hk
        refine ⟨(ihl hleft).1, fun b hb => ?_⟩
        rcases List.mem_append.mp hb with hmem | hmem
        · exact (ihl hleft).2 b hmem
        · rcases List.mem_cons.mp hmem with rfl | hmem
          · exact hk
          · exact hk.trans_le (hr b hmem)

theorem insert_perm (key : α → K) (prior : α → P) (a : α) (t : BinaryTree α) :
    (inorder (insert key prior a t)).Perm (a :: inorder t) := by
  induction t with
  | nil => exact .refl _
  | node b l r ihl ihr =>
      rw [insert]
      split
      · rw [inorder_node, ← split_inorder key (key a) (.node b l r)]
        exact List.perm_middle
      · split
        · exact ((ihr.cons b).append_left (inorder l)).trans
            (((List.Perm.swap a b _).append_left _).trans List.perm_middle)
        · exact ihl.append_right (b :: inorder r)

theorem mem_insert : b ∈ inorder (insert key prior a t) ↔ b = a ∨ b ∈ inorder t := by
  rw [(insert_perm key prior a t).mem_iff, List.mem_cons]

theorem IsTreap.insert (h : IsTreap key prior t) :
    IsTreap key prior (insert key prior a t) := by
  induction t with
  | nil =>
      exact isTreap_node_iff.mpr ⟨fun b hb => absurd hb List.not_mem_nil,
        fun b hb => absurd hb List.not_mem_nil, isTreap_nil, isTreap_nil⟩
  | node b l r ihl ihr =>
      obtain ⟨hl, hr, hleft, hright⟩ := isTreap_node_iff.mp h
      rw [Treap.insert]
      split
      · rename_i hprior
        have hall := h.prior_le hprior.le
        obtain ⟨hlow, hhigh⟩ := h.ordered.split (k := key a)
        refine isTreap_node_iff.mpr ⟨fun c hc => ?_, fun c hc => ?_, h.split.1, h.split.2⟩
        · exact ⟨hlow c hc, hall c (mem_split.mpr (.inl hc))⟩
        · exact ⟨(hhigh c hc).le, hall c (mem_split.mpr (.inr hc))⟩
      · rename_i hprior
        have hprior := le_of_not_gt hprior
        split
        · rename_i hkey
          refine isTreap_node_iff.mpr ⟨hl, fun c hc => ?_, hleft, ihr hright⟩
          rcases mem_insert.mp hc with rfl | hmem
          · exact ⟨hkey, hprior⟩
          · exact hr c hmem
        · rename_i hkey
          have hkey := le_of_not_ge hkey
          refine isTreap_node_iff.mpr ⟨fun c hc => ?_, hr, ihl hleft, hright⟩
          rcases mem_insert.mp hc with rfl | hmem
          · exact ⟨hkey, hprior⟩
          · exact hl c hmem

@[simp] theorem merge_nil_right : merge prior l .nil = l := by
  cases l <;> simp [merge]

@[simp] theorem merge_nil_left : merge prior .nil r = r := by
  simp [merge]

theorem merge_inorder (prior : α → P) (l r : BinaryTree α) :
    inorder (merge prior l r) = inorder l ++ inorder r := by
  induction l, r using merge.induct prior with
  | case1 r => simp
  | case2 l => simp
  | case3 a ll lr b rl rr hprior ih =>
      rw [merge, if_pos hprior, inorder_node, ih]
      simp
  | case4 a ll lr b rl rr hprior ih =>
      rw [merge, if_neg hprior, inorder_node, ih]
      simp

theorem IsTreap.merge (hl : IsTreap key prior l) (hr : IsTreap key prior r)
    (hkeys : ∀ a ∈ inorder l, ∀ b ∈ inorder r, key a ≤ key b) :
    IsTreap key prior (merge prior l r) := by
  induction l, r using merge.induct prior with
  | case1 r => simpa using hr
  | case2 l => simpa using hl
  | case3 a ll lr b rl rr hprior ih =>
      obtain ⟨hal, har, hleft, hright⟩ := isTreap_node_iff.mp hl
      have htree := ih hright hr fun c hc => hkeys c (List.mem_append_right _ (.tail _ hc))
      rw [Treap.merge, if_pos hprior]
      refine isTreap_node_iff.mpr ⟨hal, fun c hc => ?_, hleft, htree⟩
      rw [merge_inorder] at hc
      rcases List.mem_append.mp hc with hmem | hmem
      · exact har c hmem
      · exact ⟨hkeys a (List.mem_append_right _ (.head _)) c hmem, hr.prior_le hprior.le c hmem⟩
  | case4 a ll lr b rl rr hprior ih =>
      obtain ⟨hbl, hbr, hleft, hright⟩ := isTreap_node_iff.mp hr
      have htree := ih hl hleft fun c hc d hd => hkeys c hc d (List.mem_append_left _ hd)
      rw [Treap.merge, if_neg hprior]
      refine isTreap_node_iff.mpr ⟨fun c hc => ?_, hbr, htree, hright⟩
      rw [merge_inorder] at hc
      rcases List.mem_append.mp hc with hmem | hmem
      · exact ⟨hkeys c hmem b (List.mem_append_right _ (.head _)),
          hl.prior_le (le_of_not_gt hprior) c hmem⟩
      · exact hbl c hmem

/-- The erased node has the key, and the others stay in order. -/
theorem erase_inorder {found : α × BinaryTree α} (h : erase key prior k t = some found) :
    key found.1 = k ∧ ∃ pre post, inorder t = pre ++ found.1 :: post ∧
      inorder found.2 = pre ++ post := by
  induction t generalizing found with
  | nil => cases h
  | node a l r ihl ihr =>
      rw [erase] at h
      split at h
      · rename_i hkey
        obtain rfl := Option.some.inj h
        exact ⟨hkey, inorder l, inorder r, rfl, merge_inorder prior l r⟩
      · split at h
        · obtain ⟨found, hfound, rfl⟩ := Option.map_eq_some_iff.mp h
          obtain ⟨hkey, pre, post, hall, hrest⟩ := ihl hfound
          refine ⟨hkey, pre, post ++ a :: inorder r, ?_, ?_⟩
          · rw [inorder_node, hall, List.append_assoc, List.cons_append]
          · rw [inorder_node, hrest, List.append_assoc]
        · obtain ⟨found, hfound, rfl⟩ := Option.map_eq_some_iff.mp h
          obtain ⟨hkey, pre, post, hall, hrest⟩ := ihr hfound
          refine ⟨hkey, inorder l ++ a :: pre, post, ?_, ?_⟩
          · rw [inorder_node, hall, List.append_assoc, List.cons_append]
          · rw [inorder_node, hrest, List.append_assoc, List.cons_append]

theorem erase_mem {found : α × BinaryTree α} (h : erase key prior k t = some found) :
    found.1 ∈ inorder t := by
  obtain ⟨-, pre, post, hall, -⟩ := erase_inorder h
  rw [hall]
  exact List.mem_append_right _ (.head _)

theorem mem_erase {found : α × BinaryTree α} (h : erase key prior k t = some found)
    (hb : b ∈ inorder found.2) : b ∈ inorder t := by
  obtain ⟨-, pre, post, hall, hrest⟩ := erase_inorder h
  rw [hrest, List.mem_append] at hb
  rw [hall, List.mem_append, List.mem_cons]
  exact hb.imp_right .inr

theorem IsTreap.erase {found : α × BinaryTree α} (h : IsTreap key prior t)
    (hfound : erase key prior k t = some found) : IsTreap key prior found.2 := by
  induction t generalizing found with
  | nil => cases hfound
  | node a l r ihl ihr =>
      obtain ⟨hl, hr, hleft, hright⟩ := isTreap_node_iff.mp h
      rw [Treap.erase] at hfound
      split at hfound
      · obtain rfl := Option.some.inj hfound
        exact hleft.merge hright fun b hb c hc => (hl b hb).1.trans (hr c hc).1
      · split at hfound
        · obtain ⟨below, hbelow, rfl⟩ := Option.map_eq_some_iff.mp hfound
          exact isTreap_node_iff.mpr ⟨fun b hb => hl b (mem_erase hbelow hb), hr,
            ihl hleft hbelow, hright⟩
        · obtain ⟨below, hbelow, rfl⟩ := Option.map_eq_some_iff.mp hfound
          exact isTreap_node_iff.mpr ⟨hl, fun b hb => hr b (mem_erase hbelow hb), hleft,
            ihr hright hbelow⟩

/-- A search for a key that is there meets it. -/
theorem Ordered.exists_erase (h : Ordered key t) (hk : ∃ b ∈ inorder t, key b = k) :
    ∃ found, Treap.erase key prior k t = some found := by
  induction t with
  | nil =>
      obtain ⟨b, hb, -⟩ := hk
      cases hb
  | node a l r ihl ihr =>
      obtain ⟨hl, hr, hleft, hright⟩ := h
      obtain ⟨b, hb, rfl⟩ := hk
      rw [Treap.erase]
      split
      · exact ⟨_, rfl⟩
      · rename_i hne
        split
        · rename_i hlt
          have hmem : b ∈ inorder l := by
            rcases List.mem_append.mp hb with hmem | hmem
            · exact hmem
            · rcases List.mem_cons.mp hmem with rfl | hmem
              · exact absurd rfl hne
              · exact absurd hlt (not_lt_of_ge (hr b hmem))
          obtain ⟨found, hfound⟩ := ihl hleft ⟨b, hmem, rfl⟩
          exact ⟨_, by rw [hfound]; rfl⟩
        · rename_i hge
          have hmem : b ∈ inorder r := by
            rcases List.mem_append.mp hb with hmem | hmem
            · exact absurd (lt_of_le_of_ne (hl b hmem) (Ne.symm hne)) hge
            · rcases List.mem_cons.mp hmem with rfl | hmem
              · exact absurd rfl hne
              · exact hmem
          obtain ⟨found, hfound⟩ := ihr hright ⟨b, hmem, rfl⟩
          exact ⟨_, by rw [hfound]; rfl⟩

@[simp] theorem unite_nil_left : unite key prior .nil r = r := by
  simp [unite]

@[simp] theorem unite_nil_right : unite key prior l .nil = l := by
  cases l <;> simp [unite]

theorem perm_around (b : α) {u v p q x y : List α} (hu : u.Perm (p ++ x)) (hv : v.Perm (q ++ y)) :
    (u ++ b :: v).Perm ((p ++ b :: q) ++ (x ++ y)) := by
  rw [← Multiset.coe_eq_coe] at hu hv ⊢
  simp only [← Multiset.coe_add, ← Multiset.cons_coe, hu, hv, Multiset.add_cons,
    Multiset.cons_add]
  rw [add_add_add_comm]

theorem unite_perm (key : α → K) (prior : α → P) (l r : BinaryTree α) :
    (inorder (unite key prior l r)).Perm (inorder l ++ inorder r) := by
  induction l, r using unite.induct key prior with
  | case1 r => simp
  | case2 l => simp
  | case3 a ll lr b rl rr hprior ihl ihr =>
      rw [unite, if_pos hprior]
      have hall := perm_around b ihl ihr
      rw [split_inorder] at hall
      exact hall.trans List.perm_append_comm
  | case4 a ll lr b rl rr hprior ihl ihr =>
      rw [unite, if_neg hprior]
      have hall := perm_around a ihl ihr
      rwa [split_inorder] at hall

theorem mem_unite : b ∈ inorder (unite key prior l r) ↔ b ∈ inorder l ∨ b ∈ inorder r := by
  rw [(unite_perm key prior l r).mem_iff, List.mem_append]

/-- A node between what its trees and the parts of another tree unite to. -/
theorem isTreap_around {t u v : BinaryTree α} (hnode : IsTreap key prior (.node a l r))
    (ht : IsTreap key prior t) (hprior : ∀ b ∈ inorder t, prior b ≤ prior a)
    (hu : ∀ b ∈ inorder u, b ∈ inorder l ∨ b ∈ inorder (split key (key a) t).1)
    (hv : ∀ b ∈ inorder v, b ∈ inorder r ∨ b ∈ inorder (split key (key a) t).2)
    (htu : IsTreap key prior u) (htv : IsTreap key prior v) :
    IsTreap key prior (.node a u v) := by
  obtain ⟨hl, hr, -, -⟩ := isTreap_node_iff.mp hnode
  obtain ⟨hlow, hhigh⟩ := ht.ordered.split (k := key a)
  refine isTreap_node_iff.mpr ⟨fun b hb => ?_, fun b hb => ?_, htu, htv⟩
  · rcases hu b hb with hmem | hmem
    · exact hl b hmem
    · exact ⟨hlow b hmem, hprior b (mem_split.mpr (.inl hmem))⟩
  · rcases hv b hb with hmem | hmem
    · exact hr b hmem
    · exact ⟨(hhigh b hmem).le, hprior b (mem_split.mpr (.inr hmem))⟩

theorem IsTreap.unite (hl : IsTreap key prior l) (hr : IsTreap key prior r) :
    IsTreap key prior (unite key prior l r) := by
  induction l, r using unite.induct key prior with
  | case1 r => simpa using hr
  | case2 l => simpa using hl
  | case3 a ll lr b rl rr hprior ihl ihr =>
      obtain ⟨-, -, hleft, hright⟩ := isTreap_node_iff.mp hr
      rw [Treap.unite, if_pos hprior]
      exact isTreap_around hr hl (hl.prior_le hprior.le) (fun c hc => mem_unite.mp hc)
        (fun c hc => mem_unite.mp hc) (ihl hleft hl.split.1) (ihr hright hl.split.2)
  | case4 a ll lr b rl rr hprior ihl ihr =>
      obtain ⟨-, -, hleft, hright⟩ := isTreap_node_iff.mp hl
      rw [Treap.unite, if_neg hprior]
      exact isTreap_around hl hr (hr.prior_le (le_of_not_gt hprior)) (fun c hc => mem_unite.mp hc)
        (fun c hc => mem_unite.mp hc) (ihl hleft hr.split.1) (ihr hright hr.split.2)

end Order

section Keys

variable {key : α → K} {prior : α → P} {k : K} {t l r : BinaryTree α}

/-- The keys of the nodes, with their repetitions. -/
def keys (key : α → K) (t : BinaryTree α) : Multiset K := ((inorder t).map key : List K)

omit [LinearOrder K] in
theorem mem_keys : k ∈ keys key t ↔ ∃ a ∈ inorder t, key a = k := by
  rw [keys, Multiset.mem_coe, List.mem_map]

theorem keys_insert (a : α) : keys key (insert key prior a t) = key a ::ₘ keys key t := by
  rw [keys, keys, Multiset.cons_coe, Multiset.coe_eq_coe, ← List.map_cons]
  exact (insert_perm key prior a t).map key

omit [LinearOrder K] in
theorem keys_merge : keys key (merge prior l r) = keys key l + keys key r := by
  rw [keys, merge_inorder, List.map_append, ← Multiset.coe_add]
  rfl

theorem keys_unite : keys key (unite key prior l r) = keys key l + keys key r := by
  rw [keys, keys, keys, Multiset.coe_add, Multiset.coe_eq_coe, ← List.map_append]
  exact (unite_perm key prior l r).map key

theorem keys_erase {found : α × BinaryTree α} (h : erase key prior k t = some found) :
    keys key found.2 = (keys key t).erase k := by
  obtain ⟨rfl, pre, post, hall, hrest⟩ := erase_inorder h
  have hperm : (inorder t).Perm (found.1 :: inorder found.2) := by
    rw [hall, hrest]
    exact List.perm_middle
  have hkeys : keys key t = key found.1 ::ₘ keys key found.2 := by
    rw [keys, keys, Multiset.cons_coe, Multiset.coe_eq_coe, ← List.map_cons]
    exact hperm.map key
  rw [hkeys, Multiset.erase_cons_head]

/-- The keys up to `k` go to one part, and those above it to the other. -/
theorem Ordered.keys_split (h : Ordered key t) :
    keys key (Treap.split key k t).1 = (keys key t).filter (· ≤ k) ∧
      keys key (Treap.split key k t).2 = (keys key t).filter (k < ·) := by
  obtain ⟨hlow, hhigh⟩ := h.split (k := k)
  have hall : keys key t =
      keys key (Treap.split key k t).1 + keys key (Treap.split key k t).2 := by
    rw [keys, ← split_inorder key k t, List.map_append, ← Multiset.coe_add]
    rfl
  have hlow' : ∀ x ∈ keys key (Treap.split key k t).1, x ≤ k := by
    intro x hx
    obtain ⟨a, ha, rfl⟩ := mem_keys.mp hx
    exact hlow a ha
  have hhigh' : ∀ x ∈ keys key (Treap.split key k t).2, k < x := by
    intro x hx
    obtain ⟨a, ha, rfl⟩ := mem_keys.mp hx
    exact hhigh a ha
  rw [hall, Multiset.filter_add, Multiset.filter_add]
  constructor
  · rw [Multiset.filter_eq_self.mpr hlow',
      Multiset.filter_eq_nil.mpr fun x hx => not_le_of_gt (hhigh' x hx), add_zero]
  · rw [Multiset.filter_eq_self.mpr hhigh',
      Multiset.filter_eq_nil.mpr fun x hx => not_lt_of_ge (hlow' x hx), zero_add]

end Keys

section Unique

variable {key : α → K} {prior : α → P} {t t' : BinaryTree α}

/-- One order of nodes with different priorities leaves one place for each. -/
theorem HeapOrdered.unique (h : HeapOrdered prior t) (h' : HeapOrdered prior t')
    (hnodup : ((inorder t).map prior).Nodup) (hsame : inorder t = inorder t') : t = t' := by
  induction t generalizing t' with
  | nil => exact (inorder_eq_nil_iff.mp hsame.symm).symm
  | node a l r ihl ihr =>
      cases t' with
      | nil => exact absurd (inorder_eq_nil_iff.mp hsame) nofun
      | node b l' r' =>
          have ha : a ∈ inorder (.node b l' r') := hsame ▸ List.mem_append_right _ (.head _)
          have hb : b ∈ inorder (.node a l r) := hsame ▸ List.mem_append_right _ (.head _)
          have hprior : prior a = prior b :=
            le_antisymm (h'.prior_le_root a ha) (h.prior_le_root b hb)
          obtain rfl : a = b :=
            List.inj_on_of_nodup_map hnodup (List.mem_append_right _ (.head _)) hb hprior
          obtain ⟨-, -, hal, har, -⟩ := nodup_node hnodup.of_map
          obtain ⟨hleft, -, hright⟩ := (List.append_cons_inj_of_notMem hal har).mp hsame
          rw [inorder_node, List.map_append, List.map_cons] at hnodup
          have hnodupLeft := (List.nodup_append'.mp hnodup).1
          have hnodupRight := (List.nodup_cons.mp (List.nodup_append'.mp hnodup).2.1).2
          rw [ihl h.2.2.1 h'.2.2.1 hnodupLeft hleft, ihr h.2.2.2 h'.2.2.2 hnodupRight hright]

/-- Nodes with different keys and different priorities make one treap. -/
theorem IsTreap.unique (h : IsTreap key prior t) (h' : IsTreap key prior t')
    (hkeys : ((inorder t).map key).Nodup) (hpriors : ((inorder t).map prior).Nodup)
    (hperm : (inorder t).Perm (inorder t')) : t = t' := by
  apply h.heapOrdered.unique h'.heapOrdered hpriors
  refine List.Perm.eq_of_pairwise ?_ h.ordered.sorted h'.ordered.sorted hperm
  intro a b ha hb hab hba
  exact List.inj_on_of_nodup_map hkeys ha (hperm.mem_iff.mpr hb) (le_antisymm hab hba)

/-- What is split is merged to what it was, unless two nodes have one priority. -/
theorem IsTreap.merge_split {k : K} (h : IsTreap key prior t)
    (hnodup : ((inorder t).map prior).Nodup) :
    Treap.merge prior (Treap.split key k t).1 (Treap.split key k t).2 = t := by
  refine HeapOrdered.unique ?_ h.heapOrdered ?_ ?_
  · refine (h.split.1.merge h.split.2 fun a ha b hb => ?_).heapOrdered
    exact (h.ordered.split.1 a ha).trans (h.ordered.split.2 b hb).le
  · rw [merge_inorder, split_inorder]
    exact hnodup
  · rw [merge_inorder, split_inorder]

/-- What a treap is depends on keys and priorities only. -/
theorem IsTreap.map {β : Type*} {f : β → α} {t : BinaryTree β}
    (h : IsTreap (key ∘ f) (prior ∘ f) t) : IsTreap key prior (t.map f) := by
  induction t with
  | nil => exact isTreap_nil
  | node a l r ihl ihr =>
      obtain ⟨hl, hr, hleft, hright⟩ := isTreap_node_iff.mp h
      rw [BinaryTree.map, isTreap_node_iff, inorder_map, inorder_map]
      exact ⟨List.forall_mem_map.mpr hl, List.forall_mem_map.mpr hr, ihl hleft, ihr hright⟩

end Unique

end Treap

end MoreCpp.Library
