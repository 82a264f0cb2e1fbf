import MoreCpp.Algorithms.ItemTreap.Model
import MoreCpp.Library.Treap

/-!
What the functions do to the links. A tree in the memory is a tree of cells, which are
items with their addresses; the functions make of it what the operations on trees
that are not changed in place make of the tree of cells.
-/

namespace MoreCpp.ItemTreap

open Library

structure Cell where
  address : Nat
  key : Int
  prior : Int
deriving DecidableEq

/-- The item with the pointer, if any. -/
def Ref.owner : Ref → Option Nat
  | .var _ => none
  | .l p => some p
  | .r p => some p

/-- The reference is not to a link of one of the cells. -/
def Ref.Outside (ref : Ref) (cells : List Cell) : Prop := ∀ c ∈ cells, ref.owner ≠ some c.address

def Distinct (cells : List Cell) : Prop := (cells.map Cell.address).Nodup

namespace State

def data (s : State) (p : Nat) : Option (Int × Int) :=
  (s.items p).map fun item => (item.key, item.prior)

/-- The tree hangs at `root`. -/
def IsTree (s : State) : Option Nat → BinaryTree Cell → Prop
  | root, .nil => root = none
  | root, .node c l r => root = some c.address ∧ s.data c.address = some (c.key, c.prior) ∧
      ∃ left right, s.load (.l c.address) = some left ∧ s.load (.r c.address) = some right ∧
        s.IsTree left l ∧ s.IsTree right r

end State

/-- Nothing changes but the links of `cells` and what `refs` are bound to. -/
structure Within (s s' : State) (cells : List Cell) (refs : List Ref) : Prop where
  data : s'.data = s.data
  load : ∀ ref, ref ∉ refs → ref.Outside cells → s'.load ref = s.load ref

section Outside

variable {ref : Ref} {cells cells' : List Cell} {c d : Cell} {l r : BinaryTree Cell}

theorem Ref.Outside.mono (h : ref.Outside cells) (hsub : ∀ c ∈ cells', c ∈ cells) :
    ref.Outside cells' := fun c hc => h c (hsub c hc)

theorem Ref.Outside.ne_l (h : ref.Outside cells) (hc : c ∈ cells) : ref ≠ .l c.address := by
  rintro rfl
  exact h c hc rfl

theorem Ref.Outside.ne_r (h : ref.Outside cells) (hc : c ∈ cells) : ref ≠ .r c.address := by
  rintro rfl
  exact h c hc rfl

theorem Ref.l_ne_r (p q : Nat) : Ref.l p ≠ .r q := nofun

theorem Ref.outside_var (v : Var) : (Ref.var v).Outside cells := fun _ _ => nofun

theorem outside_l (h : ∀ d ∈ cells, d.address ≠ c.address) :
    (Ref.l c.address).Outside cells := fun d hd heq => h d hd (Option.some.inj heq).symm

theorem outside_r (h : ∀ d ∈ cells, d.address ≠ c.address) :
    (Ref.r c.address).Outside cells := fun d hd heq => h d hd (Option.some.inj heq).symm

theorem mem_node : d ∈ inorder (.node c l r) ↔ d ∈ inorder l ∨ d = c ∨ d ∈ inorder r := by
  rw [inorder_node, List.mem_append, List.mem_cons]

theorem mem_node_self : c ∈ inorder (.node c l r) := mem_node.mpr (.inr (.inl rfl))

theorem mem_node_left (h : d ∈ inorder l) : d ∈ inorder (.node c l r) := mem_node.mpr (.inl h)

theorem mem_node_right (h : d ∈ inorder r) : d ∈ inorder (.node c l r) :=
  mem_node.mpr (.inr (.inr h))

theorem distinct_append : Distinct (cells ++ cells') ↔ Distinct cells ∧ Distinct cells' ∧
    ∀ c ∈ cells, ∀ d ∈ cells', c.address ≠ d.address := by
  rw [Distinct, List.map_append, List.nodup_append]
  simp [Distinct]

theorem distinct_cons : Distinct (c :: cells) ↔
    (∀ d ∈ cells, d.address ≠ c.address) ∧ Distinct cells := by
  rw [Distinct, List.map_cons, List.nodup_cons]
  simp [Distinct]

theorem Distinct.perm (h : Distinct cells) (hperm : cells.Perm cells') : Distinct cells' :=
  (hperm.map Cell.address).nodup_iff.mp h

theorem Distinct.node (h : Distinct (inorder (.node c l r))) :
    Distinct (inorder l) ∧ Distinct (inorder r) ∧ (∀ d ∈ inorder l, d.address ≠ c.address) ∧
      (∀ d ∈ inorder r, d.address ≠ c.address) ∧
      ∀ d ∈ inorder l, ∀ e ∈ inorder r, d.address ≠ e.address := by
  obtain ⟨hl, hcr, hapart⟩ := distinct_append.mp h
  obtain ⟨hc, hr⟩ := distinct_cons.mp hcr
  exact ⟨hl, hr, fun d hd => hapart d hd c (.head _), hc,
    fun d hd e he => hapart d hd e (.tail _ he)⟩

theorem cons_left_subset (h : d ∈ c :: inorder l) : d ∈ inorder (.node c l r) :=
  (List.mem_cons.mp h).elim (fun heq => heq ▸ mem_node_self) mem_node_left

theorem cons_right_subset (h : d ∈ c :: inorder r) : d ∈ inorder (.node c l r) :=
  (List.mem_cons.mp h).elim (fun heq => heq ▸ mem_node_self) mem_node_right

/-- No cell of one list has the address of a cell of the other. -/
def Apart (cells cells' : List Cell) : Prop := ∀ c ∈ cells, ∀ d ∈ cells', c.address ≠ d.address

theorem Distinct.right_apart (h : Distinct (inorder (.node c l r))) :
    Apart (inorder r) (c :: inorder l) := by
  obtain ⟨-, -, -, hc, hapart⟩ := h.node
  intro d hd e he
  rcases List.mem_cons.mp he with rfl | he
  · exact hc d hd
  · exact (hapart e he d hd).symm

theorem Distinct.left_apart (h : Distinct (inorder (.node c l r))) :
    Apart (inorder l) (c :: inorder r) := by
  obtain ⟨-, -, hc, -, hapart⟩ := h.node
  intro d hd e he
  rcases List.mem_cons.mp he with rfl | he
  · exact hc d hd
  · exact hapart d hd e he

theorem Apart.cons (h : Apart cells cells') (hc : ∀ d ∈ cells', c.address ≠ d.address) :
    Apart (c :: cells) cells' := by
  intro d hd e he
  rcases List.mem_cons.mp hd with rfl | hd
  · exact hc e he
  · exact h d hd e he

theorem Apart.append {cells'' : List Cell} (h : Apart cells cells'') (h' : Apart cells' cells'') :
    Apart (cells ++ cells') cells'' := fun d hd e he =>
  (List.mem_append.mp hd).elim (fun hd => h d hd e he) fun hd => h' d hd e he

theorem Ref.Outside.cons_left (h : ref.Outside (inorder (.node c l r))) :
    ref.Outside (c :: inorder l) := h.mono fun _ => cons_left_subset

theorem Ref.Outside.cons_right (h : ref.Outside (inorder (.node c l r))) :
    ref.Outside (c :: inorder r) := h.mono fun _ => cons_right_subset

end Outside

section Frame

variable {s s' s'' : State} {ref : Ref} {refs refs' : List Ref} {cells cells' : List Cell}
  {t : BinaryTree Cell} {root q : Option Nat}

theorem State.load_isSome : (s.load ref).isSome ↔ ∀ p, ref.owner = some p → (s.data p).isSome := by
  cases ref <;> simp [State.load, State.data, Ref.owner]

namespace Within

theorem trans (h : Within s s' cells refs) (h' : Within s' s'' cells refs) :
    Within s s'' cells refs :=
  ⟨h'.data.trans h.data, fun ref hrefs hout =>
    (h'.load ref hrefs hout).trans (h.load ref hrefs hout)⟩

/-- What a store does is among what is done to any cells and its reference. -/
theorem of_store (h : Within s s' [] [ref]) (hmem : ref ∈ refs) : Within s s' cells refs where
  data := h.data
  load other hother _ := h.load other
    (fun heq => hother (List.mem_singleton.mp heq ▸ hmem)) fun _ hd => absurd hd List.not_mem_nil

/-- More cells, and references that are to their links. -/
theorem mono (h : Within s s' cells refs) (hcells : ∀ c ∈ cells, c ∈ cells')
    (hrefs : ∀ ref ∈ refs, ref ∈ refs' ∨ ¬ ref.Outside cells') : Within s s' cells' refs' where
  data := h.data
  load ref hnot hout := by
    refine h.load ref (fun hmem => ?_) (hout.mono hcells)
    rcases hrefs ref hmem with hmem | howned
    · exact hnot hmem
    · exact howned hout

/-- The one reference is a link of a cell that the larger tree has. -/
theorem mono_link (h : Within s s' cells [ref]) (hcells : ∀ c ∈ cells, c ∈ cells')
    (hlink : ¬ ref.Outside cells') : Within s s' cells' refs' := by
  refine h.mono hcells fun other hother => .inr ?_
  rwa [List.mem_singleton.mp hother]

theorem isSome (h : Within s s' cells refs) (href : (s.load ref).isSome) :
    (s'.load ref).isSome := by
  rw [State.load_isSome] at href ⊢
  rwa [h.data]

end Within

namespace State

theorem store_spec (s : State) (q : Option Nat) (href : (s.load ref).isSome) :
    ∃ s', s.store ref q = some s' ∧ s'.load ref = some q ∧ Within s s' [] [ref] := by
  cases ref with
  | var v =>
      refine ⟨_, rfl, congrArg some (Function.update_self ..), rfl, fun ref hne _ => ?_⟩
      cases ref with
      | var w =>
          have hwv : w ≠ v := by simpa using hne
          exact congrArg some (Function.update_of_ne hwv ..)
      | l p => rfl
      | r p => rfl
  | l p =>
      obtain ⟨item, hitem⟩ : ∃ item, s.items p = some item := by
        simpa [load, Option.isSome_iff_exists] using href
      refine ⟨_, by rw [store, hitem, Option.map_some], by simp [load], ?_, fun ref hne _ => ?_⟩
      · funext a
        rcases eq_or_ne a p with rfl | hap
        · simp [data, hitem]
        · simp [data, hap]
      · cases ref with
        | var w => rfl
        | l a =>
            have hap : a ≠ p := by simpa using hne
            simp [load, hap]
        | r a =>
            rcases eq_or_ne a p with rfl | hap
            · simp [load, hitem]
            · simp [load, hap]
  | r p =>
      obtain ⟨item, hitem⟩ : ∃ item, s.items p = some item := by
        simpa [load, Option.isSome_iff_exists] using href
      refine ⟨_, by rw [store, hitem, Option.map_some], by simp [load], ?_, fun ref hne _ => ?_⟩
      · funext a
        rcases eq_or_ne a p with rfl | hap
        · simp [data, hitem]
        · simp [data, hap]
      · cases ref with
        | var w => rfl
        | r a =>
            have hap : a ≠ p := by simpa using hne
            simp [load, hap]
        | l a =>
            rcases eq_or_ne a p with rfl | hap
            · simp [load, hitem]
            · simp [load, hap]

theorem IsTree.congr (h : s.IsTree root t)
    (hdata : ∀ c ∈ inorder t, s'.data c.address = s.data c.address)
    (hload : ∀ c ∈ inorder t, s'.load (.l c.address) = s.load (.l c.address) ∧
      s'.load (.r c.address) = s.load (.r c.address)) : s'.IsTree root t := by
  induction t generalizing root with
  | nil => exact h
  | node c l r ihl ihr =>
      obtain ⟨rfl, hc, left, right, hleft, hright, hl, hr⟩ := h
      refine ⟨rfl, (hdata c mem_node_self).trans hc, left, right,
        (hload c mem_node_self).1.trans hleft, (hload c mem_node_self).2.trans hright, ?_, ?_⟩
      · exact ihl hl (fun d hd => hdata d (mem_node_left hd))
          fun d hd => hload d (mem_node_left hd)
      · exact ihr hr (fun d hd => hdata d (mem_node_right hd))
          fun d hd => hload d (mem_node_right hd)

theorem IsTree.frame (h : s.IsTree root t) (hw : Within s s' cells refs)
    (hcells : Apart cells (inorder t)) (hrefs : ∀ ref ∈ refs, ref.Outside (inorder t)) :
    s'.IsTree root t := by
  refine h.congr (fun c _ => congrFun hw.data c.address) fun c hc => ⟨?_, ?_⟩
  · exact hw.load _ (fun hmem => (hrefs _ hmem).ne_l hc rfl)
      (outside_l fun d hd => hcells d hd c hc)
  · exact hw.load _ (fun hmem => (hrefs _ hmem).ne_r hc rfl)
      (outside_r fun d hd => hcells d hd c hc)

theorem IsTree.data_of_mem (h : s.IsTree root t) {c : Cell} (hc : c ∈ inorder t) :
    s.data c.address = some (c.key, c.prior) := by
  induction t generalizing root with
  | nil => exact absurd hc List.not_mem_nil
  | node d l r ihl ihr =>
      obtain ⟨-, hdata, left, right, -, -, hl, hr⟩ := h
      rcases mem_node.mp hc with hmem | rfl | hmem
      · exact ihl hl hmem
      · exact hdata
      · exact ihr hr hmem

/-- Another tree is put right of a node, away from what is left of it. -/
theorem IsTree.right_changed {c : Cell} {l r r' : BinaryTree Cell} {right : Option Nat}
    (h : s.IsTree root (.node c l r)) (hdistinct : Distinct (inorder (.node c l r)))
    (hw : Within s s' cells refs) (hcells : Apart cells (c :: inorder l))
    (hrefs : ∀ ref ∈ refs, ref = .r c.address ∨ ref.Outside (c :: inorder l))
    (hright : s'.load (.r c.address) = some right) (hr : s'.IsTree right r') :
    s'.IsTree root (.node c l r') := by
  obtain ⟨rfl, hdata, left, _, hleft, -, hl, -⟩ := h
  refine ⟨rfl, hw.data ▸ hdata, left, right, ?_, hright, ?_, hr⟩
  · rw [hw.load _ (fun hmem => ?_) (outside_l fun d hd => hcells d hd c (.head _)), hleft]
    rcases hrefs _ hmem with heq | hout
    · cases heq
    · exact hout.ne_l (.head _) rfl
  · apply hl.frame hw (fun d hd e he => hcells d hd e (.tail _ he))
    intro ref href
    rcases hrefs ref href with rfl | hout
    · exact outside_r hdistinct.node.2.2.1
    · exact hout.mono fun d => List.mem_cons_of_mem c

theorem IsTree.left_changed {c : Cell} {l r l' : BinaryTree Cell} {left : Option Nat}
    (h : s.IsTree root (.node c l r)) (hdistinct : Distinct (inorder (.node c l r)))
    (hw : Within s s' cells refs) (hcells : Apart cells (c :: inorder r))
    (hrefs : ∀ ref ∈ refs, ref = .l c.address ∨ ref.Outside (c :: inorder r))
    (hleft : s'.load (.l c.address) = some left) (hl : s'.IsTree left l') :
    s'.IsTree root (.node c l' r) := by
  obtain ⟨rfl, hdata, _, right, -, hright, -, hr⟩ := h
  refine ⟨rfl, hw.data ▸ hdata, left, right, hleft, ?_, hl, ?_⟩
  · rw [hw.load _ (fun hmem => ?_) (outside_r fun d hd => hcells d hd c (.head _)), hright]
    rcases hrefs _ hmem with heq | hout
    · cases heq
    · exact hout.ne_r (.head _) rfl
  · apply hr.frame hw (fun d hd e he => hcells d hd e (.tail _ he))
    intro ref href
    rcases hrefs ref href with rfl | hout
    · exact outside_l hdistinct.node.2.2.2.1
    · exact hout.mono fun d => List.mem_cons_of_mem c

theorem load_of_store (hw : Within s s' [] [ref]) {other : Ref} (hne : other ≠ ref) :
    s'.load other = s.load other :=
  hw.load other (by simpa using hne) fun _ hd => absurd hd List.not_mem_nil

/-- Writing elsewhere leaves a tree as it is. -/
theorem IsTree.store (h : s.IsTree root t) (hw : Within s s' [] [ref])
    (href : ref.Outside (inorder t)) : s'.IsTree root t :=
  h.frame hw (fun _ hd => absurd hd List.not_mem_nil) fun _ hmem =>
    List.mem_singleton.mp hmem ▸ href

theorem key_eq {c : Cell} (h : s.data c.address = some (c.key, c.prior)) :
    s.key c.address = some c.key := by
  obtain ⟨item, hitem, heq⟩ := Option.map_eq_some_iff.mp h
  rw [key, hitem]
  exact congrArg some (Prod.ext_iff.mp heq).1

theorem prior_eq {c : Cell} (h : s.data c.address = some (c.key, c.prior)) :
    s.prior c.address = some c.prior := by
  obtain ⟨item, hitem, heq⟩ := Option.map_eq_some_iff.mp h
  rw [prior, hitem]
  exact congrArg some (Prod.ext_iff.mp heq).2

end State

end Frame

namespace State

section Functions

variable {s : State} {t tl tr : BinaryTree Cell} {root : Option Nat} {k : Int} {l r ref : Ref}

theorem split_spec (h : s.IsTree root t) (hdistinct : Distinct (inorder t)) (hlr : l ≠ r)
    (hl : l.Outside (inorder t)) (hr : r.Outside (inorder t)) (hls : (s.load l).isSome)
    (hrs : (s.load r).isSome) :
    ∃ s' left right, Enough t.numNodes (fun fuel => s.split fuel root k l r) s' ∧
      s'.load l = some left ∧ s'.IsTree left (Treap.split Cell.key k t).1 ∧
      s'.load r = some right ∧ s'.IsTree right (Treap.split Cell.key k t).2 ∧
      Within s s' (inorder t) [l, r] := by
  induction t generalizing s root l r with
  | nil =>
      obtain rfl : root = none := h
      obtain ⟨s₁, hrun₁, hr₁, hw₁⟩ := s.store_spec none hrs
      obtain ⟨s₂, hrun₂, hl₂, hw₂⟩ := s₁.store_spec none (hw₁.isSome hls)
      refine ⟨s₂, none, none, .succ fun fuel _ => ?_, hl₂, rfl, ?_, rfl, ?_⟩
      · simp [split, hrun₁, hrun₂]
      · rw [hw₂.load r (by simpa using hlr.symm) hr, hr₁]
      · exact (hw₁.mono (fun c hc => hc) (by simp)).trans (hw₂.mono (fun c hc => hc) (by simp))
  | node c tl tr ihl ihr =>
      obtain ⟨hdl, hdr, hcl, hcr, -⟩ := hdistinct.node
      have htree := h
      obtain ⟨rfl, hdata, left, right, hleft, hright, htl, htr⟩ := h
      have hkeyOf := key_eq hdata
      by_cases hkey : c.key ≤ k
      · obtain ⟨s₁, low, high, hrun₁, hlow, hlowTree, hhigh, hhighTree, hw₁⟩ :=
          ihr htr hdr (hr.ne_r mem_node_self).symm (outside_r hcr)
            (hr.mono fun d => mem_node_right) (by rw [hright]; rfl) hrs
        obtain ⟨s₂, hrun₂, hl₂, hw₂⟩ := s₁.store_spec (some c.address) (hw₁.isSome hls)
        have hnode := htree.right_changed hdistinct hw₁ hdistinct.right_apart
          (by simpa using .inr hr.cons_left) hlow hlowTree
        have hsub : ∀ d ∈ inorder (.node c tl (Treap.split Cell.key k tr).1),
            d ∈ inorder (.node c tl tr) := by
          rw [← Treap.split_inorder Cell.key k (.node c tl tr), Treap.split, if_pos hkey]
          exact fun d => List.mem_append_left _
        rw [Treap.split, if_pos hkey]
        refine ⟨s₂, some c.address, high, ?_, hl₂, hnode.store hw₂ (hl.mono hsub), ?_, ?_, ?_⟩
        · apply Enough.succ
          intro fuel hfuel
          rw [BinaryTree.numNodes] at hfuel
          simp [split, hkeyOf, hkey, hright, hrun₁ fuel (by omega), hrun₂]
        · rw [load_of_store hw₂ hlr.symm, hhigh]
        · exact hhighTree.store hw₂ (hl.mono fun d hd =>
            mem_node_right (Treap.mem_split.mpr (.inr hd)))
        · refine (hw₁.mono (fun d => mem_node_right) ?_).trans (hw₂.of_store (.head _))
          simp only [List.forall_mem_cons]
          exact ⟨.inr fun hout => hout c mem_node_self rfl, .inl (.tail _ (.head _)),
            List.forall_mem_nil _⟩
      · obtain ⟨s₁, low, high, hrun₁, hlow, hlowTree, hhigh, hhighTree, hw₁⟩ :=
          ihl htl hdl (hl.ne_l mem_node_self) (hl.mono fun d => mem_node_left)
            (outside_l hcl) hls (by rw [hleft]; rfl)
        obtain ⟨s₂, hrun₂, hr₂, hw₂⟩ := s₁.store_spec (some c.address) (hw₁.isSome hrs)
        have hnode := htree.left_changed hdistinct hw₁ hdistinct.left_apart
          (by simpa using .inr hl.cons_right) hhigh hhighTree
        have hsub : ∀ d ∈ inorder (.node c (Treap.split Cell.key k tl).2 tr),
            d ∈ inorder (.node c tl tr) := by
          rw [← Treap.split_inorder Cell.key k (.node c tl tr), Treap.split, if_neg hkey]
          exact fun d => List.mem_append_right _
        rw [Treap.split, if_neg hkey]
        refine ⟨s₂, low, some c.address, ?_, ?_, ?_, hr₂, hnode.store hw₂ (hr.mono hsub), ?_⟩
        · apply Enough.succ
          intro fuel hfuel
          rw [BinaryTree.numNodes] at hfuel
          simp [split, hkeyOf, hkey, hleft, hrun₁ fuel (by omega), hrun₂]
        · rw [load_of_store hw₂ hlr, hlow]
        · exact hlowTree.store hw₂ (hr.mono fun d hd =>
            mem_node_left (Treap.mem_split.mpr (.inl hd)))
        · refine (hw₁.mono (fun d => mem_node_left) ?_).trans (hw₂.of_store (.tail _ (.head _)))
          simp only [List.forall_mem_cons]
          exact ⟨.inl (.head _), .inr fun hout => hout c mem_node_self rfl,
            List.forall_mem_nil _⟩

theorem insert_spec {it : Cell} (h : s.IsTree root t) (hroot : s.load ref = some root)
    (hitem : s.data it.address = some (it.key, it.prior))
    (hitl : s.load (.l it.address) = some none) (hitr : s.load (.r it.address) = some none)
    (hdistinct : Distinct (it :: inorder t)) (href : ref.Outside (it :: inorder t)) :
    ∃ s' root', Enough (t.numNodes + 1) (fun fuel => s.insert fuel ref it.address) s' ∧
      s'.load ref = some root' ∧
      s'.IsTree root' (Treap.insert Cell.key Cell.prior it t) ∧
      Within s s' (it :: inorder t) [ref] := by
  induction t generalizing s root ref with
  | nil =>
      obtain rfl : root = none := h
      obtain ⟨s₁, hrun₁, hload₁, hw₁⟩ := s.store_spec (some it.address) (by rw [hroot]; rfl)
      have hnode : s.IsTree (some it.address) (.node it .nil .nil) :=
        ⟨rfl, hitem, none, none, hitl, hitr, rfl, rfl⟩
      refine ⟨s₁, some it.address, .succ fun fuel _ => ?_, hload₁, hnode.store hw₁ href,
        hw₁.of_store (.head _)⟩
      simp [insert, hroot, hrun₁]
  | node c tl tr ihl ihr =>
      obtain ⟨hit, hdt⟩ := distinct_cons.mp hdistinct
      have htree := h
      obtain ⟨rfl, hdata, left, right, hleft, hright, htl, htr⟩ := h
      have hkeyOf := key_eq hdata
      have hpriorOf := prior_eq hdata
      have hitKey := key_eq hitem
      have hitPrior := prior_eq hitem
      by_cases hprior : c.prior < it.prior
      · obtain ⟨s₁, left, right, hrun₁, hleft, hleftTree, hright, hrightTree, hw₁⟩ :=
          split_spec (k := it.key) htree hdt (Ref.l_ne_r it.address it.address)
            (outside_l hit) (outside_r hit) (by rw [hitl]; rfl) (by rw [hitr]; rfl)
        obtain ⟨s₂, hrun₂, hload₂, hw₂⟩ :=
          s₁.store_spec (some it.address) (hw₁.isSome (by rw [hroot]; rfl))
        have hnode : s₁.IsTree (some it.address)
            (Treap.insert Cell.key Cell.prior it (.node c tl tr)) := by
          rw [Treap.insert, if_pos hprior]
          exact ⟨rfl, by rw [hw₁.data, hitem], left, right, hleft, hright, hleftTree, hrightTree⟩
        have hcells : ∀ d ∈ inorder (Treap.insert Cell.key Cell.prior it (.node c tl tr)),
            d ∈ it :: inorder (.node c tl tr) := fun d =>
          (Treap.insert_perm Cell.key Cell.prior it (.node c tl tr)).mem_iff.mp
        refine ⟨s₂, some it.address, ?_, hload₂, hnode.store hw₂ (href.mono hcells), ?_⟩
        · apply Enough.succ
          intro fuel hfuel
          simp [insert, hroot, hkeyOf, hpriorOf, hitKey, hitPrior, hprior, hrun₁ fuel (by omega),
            hrun₂]
        · refine (hw₁.mono (fun d => List.mem_cons_of_mem it) ?_).trans (hw₂.of_store (.head _))
          simp only [List.forall_mem_cons]
          exact ⟨.inr fun hout => hout it (.head _) rfl, .inr fun hout => hout it (.head _) rfl,
            List.forall_mem_nil _⟩
      · have hci : c.address ≠ it.address := hit c mem_node_self
        have hout := href.mono fun d hd => List.mem_cons_of_mem it hd
        by_cases hkey : c.key ≤ it.key
        · have hapart : Apart (it :: inorder tr) (c :: inorder tl) :=
            hdt.right_apart.cons fun d hd => (hit d (cons_left_subset hd)).symm
          have hsub : ∀ d ∈ it :: inorder tr, d ∈ it :: inorder (.node c tl tr) :=
            List.cons_subset_cons it fun d => mem_node_right
          have hdistinct' : Distinct (it :: inorder tr) :=
            distinct_cons.mpr ⟨fun d hd => hit d (mem_node_right hd), hdt.node.2.1⟩
          obtain ⟨s₁, root', hrun₁, hload₁, htree₁, hw₁⟩ :=
            ihr htr hright hitem hitl hitr hdistinct'
              (outside_r fun d hd => hapart d hd c (.head _))
          have hnode := htree.right_changed hdt hw₁ hapart (by simp) hload₁ htree₁
          rw [Treap.insert, if_neg hprior, if_pos hkey]
          refine ⟨s₁, some c.address, ?_, ?_, hnode, hw₁.mono_link hsub ?_⟩
          · apply Enough.succ
            intro fuel hfuel
            rw [BinaryTree.numNodes] at hfuel
            simp [insert, hroot, hkeyOf, hpriorOf, hitKey, hitPrior, hprior, hkey,
              hrun₁ fuel (by omega)]
          · rw [hw₁.load ref (by simpa using hout.ne_r mem_node_self) (href.mono hsub), hroot]
          · exact fun hother => hother c (.tail _ mem_node_self) rfl
        · have hapart : Apart (it :: inorder tl) (c :: inorder tr) :=
            hdt.left_apart.cons fun d hd => (hit d (cons_right_subset hd)).symm
          have hsub : ∀ d ∈ it :: inorder tl, d ∈ it :: inorder (.node c tl tr) :=
            List.cons_subset_cons it fun d => mem_node_left
          have hdistinct' : Distinct (it :: inorder tl) :=
            distinct_cons.mpr ⟨fun d hd => hit d (mem_node_left hd), hdt.node.1⟩
          obtain ⟨s₁, root', hrun₁, hload₁, htree₁, hw₁⟩ :=
            ihl htl hleft hitem hitl hitr hdistinct'
              (outside_l fun d hd => hapart d hd c (.head _))
          have hnode := htree.left_changed hdt hw₁ hapart (by simp) hload₁ htree₁
          rw [Treap.insert, if_neg hprior, if_neg hkey]
          refine ⟨s₁, some c.address, ?_, ?_, hnode, hw₁.mono_link hsub ?_⟩
          · apply Enough.succ
            intro fuel hfuel
            rw [BinaryTree.numNodes] at hfuel
            simp [insert, hroot, hkeyOf, hpriorOf, hitKey, hitPrior, hprior, hkey,
              hrun₁ fuel (by omega)]
          · rw [hw₁.load ref (by simpa using hout.ne_l mem_node_self) (href.mono hsub), hroot]
          · exact fun hother => hother c (.tail _ mem_node_self) rfl

theorem merge_spec {tl tr : BinaryTree Cell} {left right : Option Nat} (hl : s.IsTree left tl)
    (hr : s.IsTree right tr) (hdistinct : Distinct (inorder tl ++ inorder tr))
    (href : ref.Outside (inorder tl ++ inorder tr)) (hrefs : (s.load ref).isSome) :
    ∃ s' root, Enough (tl.numNodes + tr.numNodes) (fun fuel => s.merge fuel ref left right) s' ∧
      s'.load ref = some root ∧
      s'.IsTree root (Treap.merge Cell.prior tl tr) ∧
      Within s s' (inorder tl ++ inorder tr) [ref] := by
  induction tl, tr using Treap.merge.induct Cell.prior generalizing s left right ref with
  | case1 tr =>
      obtain rfl : left = none := hl
      obtain ⟨s₁, hrun₁, hload₁, hw₁⟩ := s.store_spec right hrefs
      rw [Treap.merge_nil_left]
      refine ⟨s₁, right, .succ fun fuel _ => ?_, hload₁, hr.store hw₁ href, hw₁.of_store (.head _)⟩
      simp [merge, hrun₁]
  | case2 tl hne =>
      obtain rfl : right = none := hr
      obtain ⟨s₁, hrun₁, hload₁, hw₁⟩ := s.store_spec left hrefs
      rw [Treap.merge_nil_right]
      refine ⟨s₁, left, .succ fun fuel _ => ?_, hload₁,
        hl.store hw₁ (href.mono fun d => List.mem_append_left _), hw₁.of_store (.head _)⟩
      cases left <;> simp [merge, hrun₁]
  | case3 c cl cr d dl dr hprior ih =>
      obtain ⟨hdc, hdd, hcd⟩ := distinct_append.mp hdistinct
      have hc := hl
      have hd := hr
      obtain ⟨rfl, hcdata, -, cright, -, hcright, -, hcr⟩ := hl
      obtain ⟨rfl, hddata, -⟩ := hr
      have hcPrior := prior_eq hcdata
      have hdPrior := prior_eq hddata
      have hapart : Apart (inorder cr ++ inorder (.node d dl dr)) (c :: inorder cl) :=
        hdc.right_apart.append fun e he f hf => (hcd f (cons_left_subset hf) e he).symm
      have hdistinct' : Distinct (inorder cr ++ inorder (.node d dl dr)) :=
        distinct_append.mpr ⟨hdc.node.2.1, hdd, fun e he => hcd e (mem_node_right he)⟩
      have hsub : ∀ e ∈ inorder cr ++ inorder (.node d dl dr),
          e ∈ inorder (.node c cl cr) ++ inorder (.node d dl dr) := fun e he =>
        List.mem_append.mpr ((List.mem_append.mp he).imp_left mem_node_right)
      obtain ⟨s₁, root₁, hrun₁, hload₁, htree₁, hw₁⟩ :=
        ih hcr hd hdistinct' (outside_r fun e he => hapart e he c (.head _))
          (by rw [hcright]; rfl)
      have hnode := hc.right_changed hdc hw₁ hapart (by simp) hload₁ htree₁
      obtain ⟨s₂, hrun₂, hload₂, hw₂⟩ := s₁.store_spec (some c.address) (hw₁.isSome hrefs)
      have hcells : ∀ e ∈ inorder (.node c cl (Treap.merge Cell.prior cr (.node d dl dr))),
          e ∈ inorder (.node c cl cr) ++ inorder (.node d dl dr) := by
        intro e he
        rwa [inorder_node, Treap.merge_inorder, ← List.cons_append, ← List.append_assoc,
          ← inorder_node] at he
      rw [Treap.merge, if_pos hprior]
      refine ⟨s₂, some c.address, ?_, hload₂, hnode.store hw₂ (href.mono hcells), ?_⟩
      · apply Enough.succ
        intro fuel hfuel
        have hrun := hrun₁ fuel (by simp only [BinaryTree.numNodes] at hfuel ⊢; omega)
        simp [merge, hcPrior, hdPrior, hprior, hcright, hrun, hrun₂]
      · have hlink : ¬ (Ref.r c.address).Outside
            (inorder (.node c cl cr) ++ inorder (.node d dl dr)) := fun hout =>
          hout c (List.mem_append_left _ mem_node_self) rfl
        exact (hw₁.mono_link hsub hlink).trans (hw₂.of_store (.head _))
  | case4 c cl cr d dl dr hprior ih =>
      obtain ⟨hdc, hdd, hcd⟩ := distinct_append.mp hdistinct
      have hc := hl
      have hd := hr
      obtain ⟨rfl, hcdata, -⟩ := hl
      obtain ⟨rfl, hddata, dleft, -, hdleft, -, hdl, -⟩ := hr
      have hcPrior := prior_eq hcdata
      have hdPrior := prior_eq hddata
      have hapart : Apart (inorder (.node c cl cr) ++ inorder dl) (d :: inorder dr) :=
        Apart.append (fun e he f hf => hcd e he f (cons_right_subset hf)) hdd.left_apart
      have hdistinct' : Distinct (inorder (.node c cl cr) ++ inorder dl) :=
        distinct_append.mpr ⟨hdc, hdd.node.1, fun e he f hf => hcd e he f (mem_node_left hf)⟩
      have hsub : ∀ e ∈ inorder (.node c cl cr) ++ inorder dl,
          e ∈ inorder (.node c cl cr) ++ inorder (.node d dl dr) := fun e he =>
        List.mem_append.mpr ((List.mem_append.mp he).imp_right mem_node_left)
      obtain ⟨s₁, root₁, hrun₁, hload₁, htree₁, hw₁⟩ :=
        ih hc hdl hdistinct' (outside_l fun e he => hapart e he d (.head _))
          (by rw [hdleft]; rfl)
      have hnode := hd.left_changed hdd hw₁ hapart (by simp) hload₁ htree₁
      obtain ⟨s₂, hrun₂, hload₂, hw₂⟩ := s₁.store_spec (some d.address) (hw₁.isSome hrefs)
      have hcells : ∀ e ∈ inorder (.node d (Treap.merge Cell.prior (.node c cl cr) dl) dr),
          e ∈ inorder (.node c cl cr) ++ inorder (.node d dl dr) := by
        intro e he
        rwa [inorder_node, Treap.merge_inorder, List.append_assoc, ← inorder_node] at he
      rw [Treap.merge, if_neg hprior]
      refine ⟨s₂, some d.address, ?_, hload₂, hnode.store hw₂ (href.mono hcells), ?_⟩
      · apply Enough.succ
        intro fuel hfuel
        have hrun := hrun₁ fuel (by simp only [BinaryTree.numNodes] at hfuel ⊢; omega)
        simp [merge, hcPrior, hdPrior, hprior, hdleft, hrun, hrun₂]
      · have hlink : ¬ (Ref.l d.address).Outside
            (inorder (.node c cl cr) ++ inorder (.node d dl dr)) := fun hout =>
          hout d (List.mem_append_right _ mem_node_self) rfl
        exact (hw₁.mono_link hsub hlink).trans (hw₂.of_store (.head _))

theorem delete_spec {p : Nat} (hp : (s.data p).isSome) : ∃ s', s.delete p = some s' ∧
    s'.data = Function.update s.data p none ∧
    ∀ other : Ref, other.owner ≠ some p → s'.load other = s.load other := by
  obtain ⟨item, hitem⟩ : ∃ item, s.items p = some item := by
    simpa [data, Option.isSome_iff_exists] using hp
  refine ⟨_, by rw [delete, hitem, Option.map_some], ?_, fun other hother => ?_⟩
  · funext a
    rcases eq_or_ne a p with rfl | hap
    · simp [data]
    · simp [data, hap]
  · cases other with
    | var v => rfl
    | l a =>
        have hap : a ≠ p := fun heq => hother (congrArg some heq)
        simp [load, hap]
    | r a =>
        have hap : a ≠ p := fun heq => hother (congrArg some heq)
        simp [load, hap]

/-- The found item is deleted; what else hangs in the tree is as `Treap.erase` leaves it. -/
theorem erase_spec {found : Cell × BinaryTree Cell} (h : s.IsTree root t)
    (hroot : s.load ref = some root) (hdistinct : Distinct (inorder t))
    (href : ref.Outside (inorder t))
    (hfound : Treap.erase Cell.key Cell.prior k t = some found) :
    ∃ s' root', Enough t.numNodes (fun fuel => s.erase fuel ref k) s' ∧ s'.load ref = some root' ∧
      s'.IsTree root' found.2 ∧ s'.data = Function.update s.data found.1.address none ∧
      ∀ other, other ≠ ref → other.Outside (inorder t) → s'.load other = s.load other := by
  induction t generalizing s root ref found with
  | nil => cases hfound
  | node c tl tr ihl ihr =>
      obtain ⟨hdl, hdr, hcl, hcr, hapart⟩ := hdistinct.node
      obtain ⟨rfl, hdata, left, right, hleft, hright, htl, htr⟩ := h
      have hkeyOf := key_eq hdata
      have howner : ref.owner ≠ some c.address := href c mem_node_self
      rw [Treap.erase] at hfound
      split at hfound
      · rename_i hkey
        obtain rfl := Option.some.inj hfound
        have hsub : ∀ d ∈ inorder tl ++ inorder tr, d ∈ inorder (.node c tl tr) := fun d hd =>
          (List.mem_append.mp hd).elim mem_node_left mem_node_right
        have hne : ∀ d ∈ inorder tl ++ inorder tr, d.address ≠ c.address := fun d hd =>
          (List.mem_append.mp hd).elim (hcl d) (hcr d)
        obtain ⟨s₁, root₁, hrun₁, hload₁, htree₁, hw₁⟩ :=
          merge_spec htl htr (distinct_append.mpr ⟨hdl, hdr, hapart⟩) (href.mono hsub)
            (by rw [hroot]; rfl)
        obtain ⟨s₂, hrun₂, hdata₂, hload₂⟩ :=
          s₁.delete_spec (p := c.address) (by rw [hw₁.data, hdata]; rfl)
        refine ⟨s₂, root₁, ?_, ?_, htree₁.congr ?_ ?_, ?_, ?_⟩
        · apply Enough.succ
          intro fuel hfuel
          rw [BinaryTree.numNodes] at hfuel
          simp [erase, hroot, hkeyOf, hkey, hleft, hright, hrun₁ fuel (by omega), hrun₂]
        · rw [hload₂ ref howner, hload₁]
        · intro d hd
          rw [Treap.merge_inorder] at hd
          rw [hdata₂, Function.update_of_ne (hne d hd)]
        · intro d hd
          rw [Treap.merge_inorder] at hd
          have hdc : (some d.address : Option Nat) ≠ some c.address := fun heq =>
            hne d hd (Option.some.inj heq)
          exact ⟨hload₂ _ hdc, hload₂ _ hdc⟩
        · rw [hdata₂, hw₁.data]
        · intro other hother hout
          rw [hload₂ other (hout c mem_node_self),
            hw₁.load other (by simpa using hother) (hout.mono hsub)]
      · rename_i hkey
        split at hfound
        · rename_i hlt
          obtain ⟨below, hbelow, rfl⟩ := Option.map_eq_some_iff.mp hfound
          have hmem : below.1 ∈ inorder tl := Treap.erase_mem hbelow
          obtain ⟨s₁, root₁, hrun₁, hload₁, htree₁, hdata₁, hother₁⟩ :=
            ihl htl hleft hdl (outside_l hcl) hbelow
          have hsame : ∀ e ∈ c :: inorder tr, s₁.data e.address = s.data e.address := by
            intro e he
            rw [hdata₁, Function.update_of_ne (hdistinct.left_apart _ hmem e he).symm]
          have hnode : s₁.IsTree (some c.address) (.node c below.2 tr) := by
            refine ⟨rfl, (hsame c (.head _)).trans hdata, root₁, right, hload₁, ?_, htree₁, ?_⟩
            · exact (hother₁ (.r c.address) (Ref.l_ne_r _ _).symm (outside_r hcl)).trans hright
            · refine htr.congr (fun e he => hsame e (.tail _ he)) fun e he => ⟨?_, ?_⟩
              · have hne : Ref.l e.address ≠ .l c.address := by simpa using hcr e he
                exact hother₁ _ hne (outside_l fun d hd => hapart d hd e he)
              · exact hother₁ _ (Ref.l_ne_r _ _).symm (outside_r fun d hd => hapart d hd e he)
          refine ⟨s₁, some c.address, ?_, ?_, hnode, hdata₁, fun other _ hout => ?_⟩
          · apply Enough.succ
            intro fuel hfuel
            rw [BinaryTree.numNodes] at hfuel
            simp [erase, hroot, hkeyOf, hkey, hlt, hrun₁ fuel (by omega)]
          · rw [hother₁ ref (href.ne_l mem_node_self) (href.mono fun d => mem_node_left), hroot]
          · exact hother₁ other (hout.ne_l mem_node_self) (hout.mono fun d => mem_node_left)
        · rename_i hge
          obtain ⟨below, hbelow, rfl⟩ := Option.map_eq_some_iff.mp hfound
          have hmem : below.1 ∈ inorder tr := Treap.erase_mem hbelow
          obtain ⟨s₁, root₁, hrun₁, hload₁, htree₁, hdata₁, hother₁⟩ :=
            ihr htr hright hdr (outside_r hcr) hbelow
          have hsame : ∀ e ∈ c :: inorder tl, s₁.data e.address = s.data e.address := by
            intro e he
            rw [hdata₁, Function.update_of_ne (hdistinct.right_apart _ hmem e he).symm]
          have hnode : s₁.IsTree (some c.address) (.node c tl below.2) := by
            refine ⟨rfl, (hsame c (.head _)).trans hdata, left, root₁, ?_, hload₁, ?_, htree₁⟩
            · exact (hother₁ (.l c.address) (Ref.l_ne_r _ _) (outside_l hcr)).trans hleft
            · refine htl.congr (fun e he => hsame e (.tail _ he)) fun e he => ⟨?_, ?_⟩
              · exact hother₁ _ (Ref.l_ne_r _ _) (outside_l fun d hd => (hapart e he d hd).symm)
              · have hne : Ref.r e.address ≠ .r c.address := by simpa using hcl e he
                exact hother₁ _ hne (outside_r fun d hd => (hapart e he d hd).symm)
          refine ⟨s₁, some c.address, ?_, ?_, hnode, hdata₁, fun other _ hout => ?_⟩
          · apply Enough.succ
            intro fuel hfuel
            rw [BinaryTree.numNodes] at hfuel
            simp [erase, hroot, hkeyOf, hkey, hge, hrun₁ fuel (by omega)]
          · rw [hother₁ ref (href.ne_r mem_node_self) (href.mono fun d => mem_node_right), hroot]
          · exact hother₁ other (hout.ne_r mem_node_self) (hout.mono fun d => mem_node_right)

/-- A tree away from all that changes in the memory. -/
theorem IsTree.untouched {s' : State} {cells : List Cell} (h : s.IsTree root t)
    (hdata : s'.data = s.data) (hapart : Apart cells (inorder t))
    (hother : ∀ other : Ref, other.Outside cells → (∀ v, other ≠ .var v) →
      s'.load other = s.load other) : s'.IsTree root t := by
  refine h.congr (fun c _ => congrFun hdata c.address) fun c hc => ⟨?_, ?_⟩
  · exact hother _ (outside_l fun d hd => hapart d hd c hc) nofun
  · exact hother _ (outside_r fun d hd => hapart d hd c hc) nofun

/-- The references that a `unite` at the depth leaves alone. -/
def Untouched (cells : List Cell) (depth : Nat) (other : Ref) : Prop :=
  other.Outside cells ∧ ∀ n, depth ≤ n → other ≠ .var (.lt n) ∧ other ≠ .var (.rt n)

/-- `unite` of two trees that are held apart; `lt` and `rt` of this and of deeper
activations are its own. -/
def UniteSpec (tl tr : BinaryTree Cell) : Prop :=
  ∀ (s : State) (left right : Option Nat) (depth : Nat), s.IsTree left tl → s.IsTree right tr →
    Distinct (inorder tl ++ inorder tr) →
    ∃ root s', Enough (tl.numNodes + tr.numNodes)
        (fun fuel => s.unite fuel depth left right) (root, s') ∧
      s'.IsTree root (Treap.unite Cell.key Cell.prior tl tr) ∧ s'.data = s.data ∧
      ∀ other : Ref, Untouched (inorder tl ++ inorder tr) depth other →
        s'.load other = s.load other

/-- The links of a cell that is apart from those of the call. -/
theorem untouched_links {s s' : State} {cells rest : List Cell} {c : Cell} {depth : Nat}
    (hapart : Apart cells (c :: rest))
    (hother : ∀ other, Untouched cells depth other → s'.load other = s.load other) :
    s'.load (.l c.address) = s.load (.l c.address) ∧
      s'.load (.r c.address) = s.load (.r c.address) :=
  ⟨hother _ ⟨outside_l fun e he => hapart e he c (.head _), fun _ _ => ⟨nofun, nofun⟩⟩,
    hother _ ⟨outside_r fun e he => hapart e he c (.head _), fun _ _ => ⟨nofun, nofun⟩⟩⟩

/-- The part of `unite` after the swap, where `c` has the top priority. -/
def uniteInto (fuel depth l r : Nat) (s : State) : Option (Option Nat × State) := do
  let lKey ← s.key l
  let s ← s.split fuel (some r) lKey (.var (.lt depth)) (.var (.rt depth))
  let left ← s.load (.l l)
  let (left, s) ← s.unite fuel (depth + 1) left (s.vars (.lt depth))
  let s ← s.store (.l l) left
  let right ← s.load (.r l)
  let (right, s) ← s.unite fuel (depth + 1) right (s.vars (.rt depth))
  let s ← s.store (.r l) right
  return (some l, s)

theorem unite_eq {l r fuel depth : Nat} {lPrior rPrior : Int} (hl : s.prior l = some lPrior)
    (hr : s.prior r = some rPrior) : s.unite (fuel + 1) depth (some l) (some r) =
      if lPrior < rPrior then s.uniteInto fuel depth r l else s.uniteInto fuel depth l r := by
  rw [unite]
  simp only [hl, hr, Option.bind_eq_bind, Option.bind_some]
  split <;> rfl

theorem unite_left {c : Cell} {tl tr u : BinaryTree Cell} {v : Option Nat} (depth : Nat)
    (h : s.IsTree (some c.address) (.node c tl tr)) (hu : s.IsTree v u) (hspec : UniteSpec tl u)
    (hdistinct : Distinct (inorder (.node c tl tr) ++ inorder u)) :
    ∃ left root s₁ s', s.load (.l c.address) = some left ∧
      Enough (tl.numNodes + u.numNodes) (fun fuel => s.unite fuel depth left v) (root, s₁) ∧
      s₁.store (.l c.address) root = some s' ∧
      s'.IsTree (some c.address) (.node c (Treap.unite Cell.key Cell.prior tl u) tr) ∧
      s'.data = s.data ∧ ∀ other, Untouched (c :: (inorder tl ++ inorder u)) depth other →
        s'.load other = s.load other := by
  obtain ⟨hdc, hdu, hcu⟩ := distinct_append.mp hdistinct
  obtain ⟨-, hdata, left, right, hleft, hright, htl, htr⟩ := h
  have hapart : Apart (inorder tl ++ inorder u) (c :: inorder tr) :=
    hdc.left_apart.append fun e he f hf => (hcu f (cons_right_subset hf) e he).symm
  have hdistinct' : Distinct (inorder tl ++ inorder u) :=
    distinct_append.mpr ⟨hdc.node.1, hdu, fun e he => hcu e (mem_node_left he)⟩
  obtain ⟨root, s₁, hrun₁, htree₁, hdata₁, hother₁⟩ :=
    hspec s left v depth htl hu hdistinct'
  have htr₁ : s₁.IsTree right tr :=
    htr.untouched hdata₁ (fun e he f hf => hapart e he f (.tail _ hf)) fun other hout hvar =>
      hother₁ other ⟨hout, fun n _ => ⟨hvar _, hvar _⟩⟩
  obtain ⟨hl₁, hr₁⟩ := untouched_links hapart hother₁
  have hleft₁ := hl₁.trans hleft
  have hright₁ := hr₁.trans hright
  obtain ⟨s₂, hrun₂, hload₂, hw₂⟩ := s₁.store_spec root (by rw [hleft₁]; rfl)
  refine ⟨left, root, s₁, s₂, hleft, hrun₁, hrun₂, ?_, hw₂.data.trans hdata₁, ?_⟩
  · refine ⟨rfl, by rw [hw₂.data, hdata₁, hdata], root, right, hload₂, ?_, ?_, ?_⟩
    · have hne : Ref.r c.address ≠ .l c.address := nofun
      rw [load_of_store hw₂ hne, hright₁]
    · refine htree₁.store hw₂ (outside_l fun e he => hapart e ?_ c (.head _))
      exact List.mem_append.mpr (Treap.mem_unite.mp he)
    · exact htr₁.store hw₂ (outside_l hdc.node.2.2.2.1)
  · rintro other ⟨hout, hvar⟩
    rw [load_of_store hw₂ (hout.ne_l (.head _)),
      hother₁ other ⟨hout.mono fun e => List.mem_cons_of_mem c, hvar⟩]

theorem unite_right {c : Cell} {tl tr u : BinaryTree Cell} {v : Option Nat} (depth : Nat)
    (h : s.IsTree (some c.address) (.node c tl tr)) (hu : s.IsTree v u) (hspec : UniteSpec tr u)
    (hdistinct : Distinct (inorder (.node c tl tr) ++ inorder u)) :
    ∃ right root s₁ s', s.load (.r c.address) = some right ∧
      Enough (tr.numNodes + u.numNodes) (fun fuel => s.unite fuel depth right v) (root, s₁) ∧
      s₁.store (.r c.address) root = some s' ∧
      s'.IsTree (some c.address) (.node c tl (Treap.unite Cell.key Cell.prior tr u)) ∧
      s'.data = s.data ∧ ∀ other, Untouched (c :: (inorder tr ++ inorder u)) depth other →
        s'.load other = s.load other := by
  obtain ⟨hdc, hdu, hcu⟩ := distinct_append.mp hdistinct
  obtain ⟨-, hdata, left, right, hleft, hright, htl, htr⟩ := h
  have hapart : Apart (inorder tr ++ inorder u) (c :: inorder tl) :=
    hdc.right_apart.append fun e he f hf => (hcu f (cons_left_subset hf) e he).symm
  have hdistinct' : Distinct (inorder tr ++ inorder u) :=
    distinct_append.mpr ⟨hdc.node.2.1, hdu, fun e he => hcu e (mem_node_right he)⟩
  obtain ⟨root, s₁, hrun₁, htree₁, hdata₁, hother₁⟩ :=
    hspec s right v depth htr hu hdistinct'
  have htl₁ : s₁.IsTree left tl :=
    htl.untouched hdata₁ (fun e he f hf => hapart e he f (.tail _ hf)) fun other hout hvar =>
      hother₁ other ⟨hout, fun n _ => ⟨hvar _, hvar _⟩⟩
  obtain ⟨hl₁, hr₁⟩ := untouched_links hapart hother₁
  have hleft₁ := hl₁.trans hleft
  have hright₁ := hr₁.trans hright
  obtain ⟨s₂, hrun₂, hload₂, hw₂⟩ := s₁.store_spec root (by rw [hright₁]; rfl)
  refine ⟨right, root, s₁, s₂, hright, hrun₁, hrun₂, ?_, hw₂.data.trans hdata₁, ?_⟩
  · refine ⟨rfl, by rw [hw₂.data, hdata₁, hdata], left, root, ?_, hload₂, ?_, ?_⟩
    · have hne : Ref.l c.address ≠ .r c.address := nofun
      rw [load_of_store hw₂ hne, hleft₁]
    · exact htl₁.store hw₂ (outside_r hdc.node.2.2.1)
    · refine htree₁.store hw₂ (outside_r fun e he => hapart e ?_ c (.head _))
      exact List.mem_append.mpr (Treap.mem_unite.mp he)
  · rintro other ⟨hout, hvar⟩
    rw [load_of_store hw₂ (hout.ne_r (.head _)),
      hother₁ other ⟨hout.mono fun e => List.mem_cons_of_mem c, hvar⟩]

theorem uniteInto_spec {c : Cell} {tl tr t : BinaryTree Cell} {root : Nat} (depth : Nat)
    (hc : s.IsTree (some c.address) (.node c tl tr)) (ht : s.IsTree (some root) t)
    (hdistinct : Distinct (inorder (.node c tl tr) ++ inorder t))
    (hleftSpec : UniteSpec tl (Treap.split Cell.key c.key t).1)
    (hrightSpec : UniteSpec tr (Treap.split Cell.key c.key t).2) :
    ∃ s', (∀ fuel, tl.numNodes + tr.numNodes + t.numNodes < fuel →
        s.uniteInto fuel depth c.address root = some (some c.address, s')) ∧
      s'.IsTree (some c.address)
        (.node c (Treap.unite Cell.key Cell.prior tl (Treap.split Cell.key c.key t).1)
          (Treap.unite Cell.key Cell.prior tr (Treap.split Cell.key c.key t).2)) ∧
      s'.data = s.data ∧ ∀ other, Untouched (inorder (.node c tl tr) ++ inorder t) depth other →
        s'.load other = s.load other := by
  obtain ⟨hdc, hdt, hct⟩ := distinct_append.mp hdistinct
  have hsize := Treap.split_numNodes Cell.key c.key t
  have hkeyOf := key_eq hc.2.1
  obtain ⟨s₁, low, high, hrun₁, hlow, hlowTree, hhigh, hhighTree, hw₁⟩ :=
    split_spec (k := c.key) ht hdt
      (show Ref.var (.lt depth) ≠ .var (.rt depth) from nofun) (Ref.outside_var _)
      (Ref.outside_var _) rfl rfl
  have hlowCells : ∀ e ∈ inorder (Treap.split Cell.key c.key t).1, e ∈ inorder t := fun e he =>
    Treap.mem_split.mpr (.inl he)
  have hhighCells : ∀ e ∈ inorder (Treap.split Cell.key c.key t).2, e ∈ inorder t := fun e he =>
    Treap.mem_split.mpr (.inr he)
  have hparts := hdt
  rw [← Treap.split_inorder Cell.key c.key t] at hparts
  obtain ⟨hdlow, hdhigh, hlowHigh⟩ := distinct_append.mp hparts
  have hc₁ : s₁.IsTree (some c.address) (.node c tl tr) :=
    hc.frame hw₁ (fun e he f hf => (hct f hf e he).symm) (by simp [Ref.outside_var])
  obtain rfl : s₁.vars (.lt depth) = low := Option.some.inj hlow
  obtain ⟨left, rootl, s₂, s₃, hleft, hrun₂, hrun₃, htree₃, hdata₃, hother₃⟩ :=
    unite_left (depth + 1) hc₁ hlowTree hleftSpec
      (distinct_append.mpr ⟨hdc, hdlow, fun e he f hf => hct e he f (hlowCells f hf)⟩)
  have hrt : s₃.vars (.rt depth) = high := by
    have hsame := hother₃ (.var (.rt depth)) ⟨Ref.outside_var _, fun n hn => ⟨nofun, ?_⟩⟩
    · exact Option.some.inj (hsame.trans hhigh)
    · simp only [ne_eq, Ref.var.injEq, Var.rt.injEq]
      omega
  have hhighTree₃ : s₃.IsTree high (Treap.split Cell.key c.key t).2 := by
    refine hhighTree.untouched hdata₃ (fun e he f hf => ?_) fun other hout hvar =>
      hother₃ other ⟨hout, fun n _ => ⟨hvar _, hvar _⟩⟩
    rcases List.mem_cons.mp he with rfl | he
    · exact hct e mem_node_self f (hhighCells f hf)
    · rcases List.mem_append.mp he with he | he
      · exact hct e (mem_node_left he) f (hhighCells f hf)
      · exact hlowHigh e he f hf
  have hperm : (inorder (.node c (Treap.unite Cell.key Cell.prior tl
      (Treap.split Cell.key c.key t).1) tr) ++ inorder (Treap.split Cell.key c.key t).2).Perm
      (inorder (.node c tl tr) ++ inorder t) := by
    have hnode := (Treap.perm_around c (Treap.unite_perm Cell.key Cell.prior tl
      (Treap.split Cell.key c.key t).1) (.of_eq (List.append_nil (inorder tr)).symm)).append_right
      (inorder (Treap.split Cell.key c.key t).2)
    rwa [List.append_nil, List.append_assoc (inorder tl ++ _), Treap.split_inorder] at hnode
  obtain ⟨right, rootr, s₄, s₅, hright, hrun₄, hrun₅, htree₅, hdata₅, hother₅⟩ :=
    unite_right (depth + 1) htree₃ hhighTree₃ hrightSpec (hdistinct.perm hperm.symm)
  refine ⟨s₅, ?_, htree₅, hdata₅.trans (hdata₃.trans hw₁.data), ?_⟩
  · intro fuel hfuel
    simp [uniteInto, hkeyOf, hrun₁ fuel (by omega), hleft, hrun₂ fuel (by omega), hrun₃, hright,
      hrt, hrun₄ fuel (by omega), hrun₅]
  · rintro other ⟨hout, hvar⟩
    have hdeep : ∀ n, depth + 1 ≤ n → other ≠ .var (.lt n) ∧ other ≠ .var (.rt n) := fun n hn =>
      hvar n (by omega)
    rw [hother₅ other ⟨hout.mono ?_, hdeep⟩, hother₃ other ⟨hout.mono ?_, hdeep⟩,
      hw₁.load other (by simp [(hvar depth le_rfl).1, (hvar depth le_rfl).2])
        (hout.mono fun e => List.mem_append_right _)]
    · intro e he
      rcases List.mem_cons.mp he with rfl | he
      · exact List.mem_append_left _ mem_node_self
      · exact List.mem_append.mpr ((List.mem_append.mp he).imp mem_node_left (hlowCells e))
    · intro e he
      rcases List.mem_cons.mp he with rfl | he
      · exact List.mem_append_left _ mem_node_self
      · exact List.mem_append.mpr ((List.mem_append.mp he).imp mem_node_right (hhighCells e))

theorem unite_spec (tl tr : BinaryTree Cell) : UniteSpec tl tr := by
  induction tl, tr using Treap.unite.induct Cell.key Cell.prior with
  | case1 tr =>
      intro s left right depth hl hr _
      obtain rfl : left = none := hl
      rw [Treap.unite_nil_left]
      exact ⟨right, s, .succ fun fuel _ => rfl, hr, rfl, fun _ _ => rfl⟩
  | case2 tl hne =>
      intro s left right depth hl hr _
      obtain rfl : right = none := hr
      rw [Treap.unite_nil_right]
      exact ⟨left, s, .succ fun fuel _ => by cases left <;> rfl, hl, rfl, fun _ _ => rfl⟩
  | case3 c cl cr d dl dr hprior ihl ihr =>
      intro s left right depth hl hr hdistinct
      obtain rfl := hl.1
      obtain rfl := hr.1
      have hswap := hdistinct.perm List.perm_append_comm
      obtain ⟨s', hrun, htree, hdata, hother⟩ := uniteInto_spec depth hr hl hswap ihl ihr
      rw [Treap.unite, if_pos hprior]
      refine ⟨_, s', .succ fun fuel hfuel => ?_, htree, hdata,
        fun other h => hother other ⟨h.1.mono fun e => ?_, h.2⟩⟩
      · rw [unite_eq (prior_eq hl.2.1) (prior_eq hr.2.1), if_pos hprior, hrun fuel]
        simp only [BinaryTree.numNodes] at hfuel ⊢
        omega
      · exact List.perm_append_comm.mem_iff.mp
  | case4 c cl cr d dl dr hprior ihl ihr =>
      intro s left right depth hl hr hdistinct
      obtain rfl := hl.1
      obtain rfl := hr.1
      obtain ⟨s', hrun, htree, hdata, hother⟩ := uniteInto_spec depth hl hr hdistinct ihl ihr
      rw [Treap.unite, if_neg hprior]
      refine ⟨_, s', .succ fun fuel hfuel => ?_, htree, hdata, hother⟩
      rw [unite_eq (prior_eq hl.2.1) (prior_eq hr.2.1), if_neg hprior, hrun fuel]
      simp only [BinaryTree.numNodes] at hfuel ⊢
      omega

end Functions

end State

end MoreCpp.ItemTreap
