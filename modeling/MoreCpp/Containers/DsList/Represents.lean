import MoreCpp.Containers.DsList.Spec

/-!
When a heap stands for sequences: every list object is a ring of its own nodes
through its sentinel, no node is in two of them, and no other node is allocated.
A function changes the lists it touches and leaves the others alone.
-/

namespace MoreCpp.DsList

open Library

variable {V Alloc : Type}

theorem ptrsOf_append (cells cells' : List (Nat × V)) :
    ptrsOf (cells ++ cells') = ptrsOf cells ++ ptrsOf cells' :=
  List.map_append

theorem nodesOf_append (cells cells' : List (Nat × V)) :
    nodesOf (cells ++ cells') = nodesOf cells ++ nodesOf cells' :=
  List.map_append

namespace Spec

theorem set_self (σ : Spec V Alloc) (list : ListId) (a : Alloc) (cells : List (Nat × V)) :
    σ.set list a cells list = some ⟨a, cells⟩ :=
  Function.update_self ..

theorem set_of_ne (σ : Spec V Alloc) {list l : ListId} (a : Alloc) (cells : List (Nat × V))
    (hne : l ≠ list) : σ.set list a cells l = σ l :=
  Function.update_of_ne hne _ _

theorem set_set (σ : Spec V Alloc) (list : ListId) (a b : Alloc) (cells cells' : List (Nat × V)) :
    (σ.set list a cells).set list b cells' = σ.set list b cells' :=
  Function.update_idem ..

theorem set_eq_self {σ : Spec V Alloc} {list : ListId} {a : Alloc} {cells : List (Nat × V)}
    (hlist : σ list = some ⟨a, cells⟩) : σ.set list a cells = σ := by
  rw [set, ← hlist, Function.update_eq_self]

end Spec

theorem mem_nodesOf {cells : List (Nat × V)} {cell : Nat × V} (hcell : cell ∈ cells) :
    cell.1 ∈ nodesOf cells :=
  List.mem_map_of_mem hcell

theorem nodup_nodesOf {cells : List (Nat × V)} (hnodup : (ptrsOf cells).Nodup) :
    (nodesOf cells).Nodup := by
  have hmap : ptrsOf cells = (nodesOf cells).map Ptr.node := by
    rw [nodesOf, List.map_map]
    rfl
  exact List.Nodup.of_map Ptr.node (hmap ▸ hnodup)

theorem mem_ptrsOf {cells : List (Nat × V)} {p : Ptr} :
    p ∈ ptrsOf cells ↔ ∃ n ∈ nodesOf cells, p = .node n := by
  simp only [ptrsOf, nodesOf, List.mem_map]
  constructor
  · rintro ⟨cell, hcell, rfl⟩
    exact ⟨cell.1, ⟨cell, hcell, rfl⟩, rfl⟩
  · rintro ⟨n, ⟨cell, hcell, rfl⟩, rfl⟩
    exact ⟨cell, hcell, rfl⟩

/-- Pointers into a list: its sentinel and its nodes. -/
def Spec.Into (σ : Spec V Alloc) (list : ListId) (p : Ptr) : Prop :=
  p = .sentinel list ∨ ∃ n, σ.Owns list n ∧ p = .node n

/-- One list object of the heap. -/
structure ListAt (h : Heap V Alloc) (list : ListId) (q : Sequence V Alloc) : Prop where
  header : h.list list = some ⟨q.cells.length, q.alloc⟩
  ring : Ring h.next h.prev (.sentinel list) (ptrsOf q.cells)
  value : ∀ cell ∈ q.cells, h.value cell.1 = some cell.2
  storage : ∀ cell ∈ q.cells, h.storage cell.1 = some q.alloc

structure Represents (h : Heap V Alloc) (σ : Spec V Alloc) : Prop where
  present : ∀ list q, σ list = some q → ListAt h list q
  absent : ∀ list, σ list = none → h.list list = none
  disjoint : ∀ list list' n, σ.Owns list n → σ.Owns list' n → list = list'
  owned : ∀ n, (h.storage n).isSome ∨ (h.value n).isSome → ∃ list, σ.Owns list n
  made : ∀ n, (h.storage n).isSome → n < h.made

/-- Nothing of a list changed. -/
structure Untouched (h h' : Heap V Alloc) (σ : Spec V Alloc) (list : ListId) : Prop where
  header : h'.list list = h.list list
  next : ∀ p, σ.Into list p → h'.next p = h.next p
  prev : ∀ p, σ.Into list p → h'.prev p = h.prev p
  value : ∀ n, σ.Owns list n → h'.value n = h.value n
  storage : ∀ n, σ.Owns list n → h'.storage n = h.storage n

variable {h h' : Heap V Alloc} {σ σ' : Spec V Alloc} {list : ListId} {q : Sequence V Alloc}

theorem ListAt.frame (hat : ListAt h list q) (hq : σ list = some q)
    (hsame : Untouched h h' σ list) : ListAt h' list q := by
  have hinto : ∀ p ∈ .sentinel list :: ptrsOf q.cells, σ.Into list p := by
    intro p hp
    rcases List.mem_cons.mp hp with rfl | hnode
    · exact .inl rfl
    · obtain ⟨n, hn, rfl⟩ := mem_ptrsOf.mp hnode
      exact .inr ⟨n, ⟨q, hq, hn⟩, rfl⟩
  have howns : ∀ cell ∈ q.cells, σ.Owns list cell.1 :=
    fun cell hcell => ⟨q, hq, mem_nodesOf hcell⟩
  exact {
    header := hsame.header.trans hat.header
    ring := hat.ring.frame (fun p hp => hsame.next p (hinto p hp))
      fun p hp => hsame.prev p (hinto p hp)
    value := fun cell hcell => (hsame.value _ (howns cell hcell)).trans (hat.value cell hcell)
    storage := fun cell hcell =>
      (hsame.storage _ (howns cell hcell)).trans (hat.storage cell hcell) }

namespace Represents

theorem initial : Represents (Heap.initial V Alloc) fun _ => none where
  present _ _ hq := by cases hq
  absent _ _ := rfl
  disjoint := by
    rintro _ _ _ ⟨_, hq, _⟩
    cases hq
  owned n hn := by simp [Heap.initial] at hn
  made n hn := by simp [Heap.initial] at hn

/-- Pointers into different lists differ. -/
theorem into_ne (hrep : Represents h σ) {list' : ListId} {p p' : Ptr} (hp : σ.Into list p)
    (hp' : σ.Into list' p') (hne : list ≠ list') : p ≠ p' := by
  rintro rfl
  rcases hp with rfl | ⟨n, hn, rfl⟩
  · rcases hp' with heq | ⟨n', -, heq⟩
    · exact hne (Ptr.sentinel.inj heq)
    · cases heq
  · rcases hp' with heq | ⟨n', hn', heq⟩
    · cases heq
    · obtain rfl := Ptr.node.inj heq
      exact hne (hrep.disjoint _ _ _ hn hn')

/-- The next node is in no list, and no pointer goes into it. -/
theorem fresh (hrep : Represents h σ) : ¬ σ.Owns list h.made := by
  rintro ⟨q, hq, hmem⟩
  obtain ⟨cell, hcell, heq⟩ := List.mem_map.mp hmem
  have hstorage := (hrep.present list q hq).storage cell hcell
  have hlt := hrep.made cell.1 (by rw [hstorage]; rfl)
  omega

theorem into_ne_fresh (hrep : Represents h σ) {p : Ptr} (hp : σ.Into list p) :
    p ≠ .node h.made := by
  rintro rfl
  rcases hp with heq | ⟨n, hn, heq⟩
  · cases heq
  · obtain rfl := Ptr.node.inj heq
    exact hrep.fresh hn

/-- The lists that a function touches are as they should be; it leaves the
others alone; and nodes stay in the lists touched, or are new, or are gone. -/
theorem change (hrep : Represents h σ) (touched : ListId → Prop)
    (hsame : ∀ l, ¬ touched l → σ' l = σ l ∧ Untouched h h' σ l)
    (hpresent : ∀ l q, touched l → σ' l = some q → ListAt h' l q)
    (habsent : ∀ l, touched l → σ' l = none → h'.list l = none)
    (hnodes : ∀ l n, touched l → σ'.Owns l n →
      (∃ l', touched l' ∧ σ.Owns l' n) ∨ ∀ l', ¬ σ.Owns l' n)
    (hdisjoint : ∀ l l' n, touched l → touched l' → σ'.Owns l n → σ'.Owns l' n → l = l')
    (howned : ∀ n, (h'.storage n).isSome ∨ (h'.value n).isSome →
      (∃ l, touched l ∧ σ'.Owns l n) ∨ ∃ l, ¬ touched l ∧ σ.Owns l n)
    (hmade : ∀ n, (h'.storage n).isSome → n < h'.made) : Represents h' σ' := by
  have hkept : ∀ l n, ¬ touched l → (σ'.Owns l n ↔ σ.Owns l n) := by
    intro l n hl
    rw [Spec.Owns, Spec.Owns, (hsame l hl).1]
  -- a node of a list touched is not one of a list left alone
  have hapart : ∀ l l' n, touched l → ¬ touched l' → σ'.Owns l n → ¬ σ.Owns l' n := by
    intro l l' n hl hl' hn hn'
    rcases hnodes l n hl hn with ⟨l₁, hl₁, hold⟩ | hnew
    · exact hl' (hrep.disjoint _ _ _ hold hn' ▸ hl₁)
    · exact hnew l' hn'
  refine ⟨fun l q hq => ?_, fun l hl => ?_, fun l l' n hn hn' => ?_, fun n hn => ?_, hmade⟩
  · by_cases hl : touched l
    · exact hpresent l q hl hq
    · obtain ⟨heq, huntouched⟩ := hsame l hl
      rw [heq] at hq
      exact (hrep.present l q hq).frame hq huntouched
  · by_cases hl' : touched l
    · exact habsent l hl' hl
    · obtain ⟨heq, huntouched⟩ := hsame l hl'
      exact huntouched.header.trans (hrep.absent l (heq ▸ hl))
  · by_cases hl : touched l
    · by_cases hl' : touched l'
      · exact hdisjoint l l' n hl hl' hn hn'
      · exact absurd ((hkept l' n hl').mp hn') (hapart l l' n hl hl' hn)
    · by_cases hl' : touched l'
      · exact absurd ((hkept l n hl).mp hn) (hapart l' l n hl' hl hn')
      · exact hrep.disjoint l l' n ((hkept l n hl).mp hn) ((hkept l' n hl').mp hn')
  · rcases howned n hn with ⟨l, -, hl⟩ | ⟨l, hl, hold⟩
    · exact ⟨l, hl⟩
    · exact ⟨l, (hkept l n hl).mpr hold⟩

/-- A function that touches one list. -/
theorem changeOne (hrep : Represents h σ) {q : Sequence V Alloc}
    (hsame : ∀ l, l ≠ list → Untouched h h' σ l) (hat : ListAt h' list q)
    (hnodes : ∀ n ∈ nodesOf q.cells, σ.Owns list n ∨ ∀ l, ¬ σ.Owns l n)
    (howned : ∀ n, (h'.storage n).isSome ∨ (h'.value n).isSome →
      n ∈ nodesOf q.cells ∨ ∃ l, l ≠ list ∧ σ.Owns l n)
    (hmade : ∀ n, (h'.storage n).isSome → n < h'.made) :
    Represents h' (σ.set list q.alloc q.cells) := by
  have hself : σ.set list q.alloc q.cells list = some q := Function.update_self ..
  refine hrep.change (· = list) (fun l hl => ⟨Function.update_of_ne hl _ _, hsame l hl⟩)
    ?_ ?_ ?_ ?_ ?_ hmade
  · rintro l q' rfl hq'
    rw [hself] at hq'
    exact Option.some.inj hq' ▸ hat
  · rintro l rfl hnone
    rw [hself] at hnone
    cases hnone
  · rintro l n rfl ⟨q', hq', hn⟩
    rw [hself] at hq'
    obtain rfl := Option.some.inj hq'
    exact (hnodes n hn).imp_left fun hold => ⟨l, rfl, hold⟩
  · rintro l l' n rfl rfl - -
    rfl
  · intro n hn
    exact (howned n hn).imp_left fun hmem => ⟨list, rfl, q, hself, hmem⟩

end Represents

end MoreCpp.DsList
