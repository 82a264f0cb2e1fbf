import MoreCpp.Containers.DsList.Represents

/-!
The functions of `ds::List` that make and end nodes: what each does to the
heap, and from that what it does to the sequences.
-/

namespace MoreCpp.DsList

open Library

variable {V Alloc : Type}

namespace Heap

variable {h : Heap V Alloc} {list : ListId} {position node before after : Ptr} {size : Nat}
  {alloc : Alloc}

theorem linkBefore_eq (hnext : (h.next node).isSome) (hprev : (h.prev node).isSome)
    (hposition : h.prev position = some before) (hbefore : (h.next before).isSome)
    (hne : position ≠ node) (hlist : h.list list = some ⟨size, alloc⟩) :
    h.linkBefore list position node = some { h with
      next := Function.update (Function.update h.next node (some position)) before (some node)
      prev := Function.update (Function.update h.prev node (some before)) position (some node)
      list := Function.update h.list list (some ⟨size + 1, alloc⟩) } := by
  have hlinked : (Function.update h.next node (some position) before).isSome := by
    rcases eq_or_ne before node with rfl | hother
    · simp
    · rwa [Function.update_of_ne hother]
  simp [linkBefore, setNext, setPrev, setSize, hnext, hprev, hposition, hlinked,
    Function.update_of_ne hne, hlist]

theorem unlink_eq (hprev : h.prev node = some before) (hnext : h.next node = some after)
    (hbefore : (h.next before).isSome) (hafter : (h.prev after).isSome) (hne : node ≠ before) :
    h.unlink node = some { h with
      next := Function.update h.next before (some after)
      prev := Function.update h.prev after (some before) } := by
  simp [unlink, setNext, setPrev, hprev, hnext, hbefore, hafter, Function.update_of_ne hne]

theorem resetEmpty_eq (hnext : (h.next (.sentinel list)).isSome)
    (hprev : (h.prev (.sentinel list)).isSome) :
    h.resetEmpty list = some { h with
      next := Function.update h.next (.sentinel list) (some (.sentinel list))
      prev := Function.update h.prev (.sentinel list) (some (.sentinel list)) } := by
  simp [resetEmpty, setNext, setPrev, hnext, hprev]

theorem setSize_eq (hlist : h.list list = some ⟨size, alloc⟩) (n : Nat) :
    h.setSize list n =
      some { h with list := Function.update h.list list (some ⟨n, alloc⟩) } := by
  simp [setSize, hlist]

/-- The heap with one more node, not linked yet. -/
def withNode (h : Heap V Alloc) (alloc : Alloc) (value : V) : Heap V Alloc where
  next := Function.update h.next (.node h.made) (some (.node h.made))
  prev := Function.update h.prev (.node h.made) (some (.node h.made))
  value := Function.update h.value h.made (some value)
  storage := Function.update h.storage h.made (some alloc)
  list := h.list
  made := h.made + 1
  time := h.time + 2

/-- The heap with one more node, between two neighbours. -/
def withLinked (h : Heap V Alloc) (list : ListId) (alloc : Alloc) (value : V)
    (before position : Ptr) (size : Nat) : Heap V Alloc :=
  { h.withNode alloc value with
    next := Function.update (Function.update (h.withNode alloc value).next (.node h.made)
      (some position)) before (some (.node h.made))
    prev := Function.update (Function.update (h.withNode alloc value).prev (.node h.made)
      (some before)) position (some (.node h.made))
    list := Function.update h.list list (some ⟨size + 1, alloc⟩) }

/-- The heap with one node less, its neighbours linked past it. -/
def withUnlinked (h : Heap V Alloc) (list : ListId) (alloc : Alloc) (n : Nat)
    (before after : Ptr) (size : Nat) : Heap V Alloc :=
  { h with
    next := Function.update (Function.update h.next before (some after)) (.node n) none
    prev := Function.update (Function.update h.prev after (some before)) (.node n) none
    value := Function.update h.value n none
    storage := Function.update h.storage n none
    list := Function.update h.list list (some ⟨size, alloc⟩) }

/-- The heap without some nodes. -/
def without (h : Heap V Alloc) (cells : List (Nat × V)) : Heap V Alloc :=
  { h with
    next := fun p => if p ∈ ptrsOf cells then none else h.next p
    prev := fun p => if p ∈ ptrsOf cells then none else h.prev p
    value := fun n => if n ∈ nodesOf cells then none else h.value n
    storage := fun n => if n ∈ nodesOf cells then none else h.storage n }

/-- Different nodes that were not made before. -/
def MadeSince (h : Heap V Alloc) (cells : List (Nat × V)) : Prop :=
  (nodesOf cells).Nodup ∧ ∀ n ∈ nodesOf cells, h.made ≤ n

theorem MadeSince.nil (h : Heap V Alloc) : h.MadeSince [] := ⟨.nil, nofun⟩

theorem MadeSince.mono {h h' : Heap V Alloc} {cells : List (Nat × V)}
    (hsince : h'.MadeSince cells) (hle : h.made ≤ h'.made) : h.MadeSince cells :=
  ⟨hsince.1, fun n hn => hle.trans (hsince.2 n hn)⟩

/-- The next node, and nodes made after it. -/
theorem MadeSince.cons {h h' : Heap V Alloc} {v : V} {cells : List (Nat × V)}
    (hcount : h'.made = h.made + 1) (hsince : h'.MadeSince cells) :
    h.MadeSince ((h.made, v) :: cells) := by
  refine ⟨List.nodup_cons.mpr ⟨fun hmem => ?_, hsince.1⟩, fun n hn => ?_⟩
  · have hle := hsince.2 h.made hmem
    omega
  · rcases List.mem_cons.mp hn with rfl | hmem
    · exact Nat.le_refl _
    · have hle := hsince.2 n hmem
      omega

/-- Equal up to the numbers of allocations made and tried. -/
structure Same (h h' : Heap V Alloc) : Prop where
  next : h'.next = h.next
  prev : h'.prev = h.prev
  value : h'.value = h.value
  storage : h'.storage = h.storage
  list : h'.list = h.list
  made : h.made ≤ h'.made

theorem without_singleton (h : Heap V Alloc) (n : Nat) (v : V) :
    h.without [(n, v)] = { h with
      next := Function.update h.next (.node n) none
      prev := Function.update h.prev (.node n) none
      value := Function.update h.value n none
      storage := Function.update h.storage n none } := by
  have hcut : ∀ {A B : Type} [DecidableEq A] (f : A → Option B) (a : A),
      (fun p => if p ∈ [a] then none else f p) = Function.update f a none := by
    intro A B _ f a
    funext p
    simp only [List.mem_singleton, Function.update_apply]
  simp only [without, ptrsOf, nodesOf, List.map_cons, List.map_nil, hcut]

theorem without_nil (h : Heap V Alloc) : h.without [] = h := by
  simp [without, ptrsOf, nodesOf]

theorem without_without (h : Heap V Alloc) (cell : Nat × V) (cells : List (Nat × V)) :
    (h.without [cell]).without cells = h.without (cell :: cells) := by
  have hcut : ∀ {A B : Type} [DecidableEq A] (f : A → Option B) (a : A) (l : List A),
      (fun p => if p ∈ l then none else if p ∈ [a] then none else f p) =
        fun p => if p ∈ a :: l then none else f p := by
    intro A B _ f a l
    funext p
    by_cases hhead : p = a <;> by_cases hmem : p ∈ l <;> simp [hhead, hmem]
  simp only [without, ptrsOf, nodesOf, List.map_cons, List.map_nil, hcut]

variable [DecidableEq Alloc]

/-- A node is made, or its allocation or the construction of its element threw
and its memory is released. -/
theorem createNode_cases (E : Setting V Alloc) (hlist : h.list list = some ⟨size, alloc⟩)
    (hfree : h.storage h.made = none) (value : V) :
    (∃ e h', h.createNode E list value = some (.error e, h') ∧ Same h h') ∨
    h.createNode E list value = some (.ok h.made, h.withNode alloc value) := by
  cases hallocate : E.fails h.time with
  | true =>
      refine .inl ⟨.badAlloc, { h with time := h.time + 1 }, ?_, rfl, rfl, rfl, rfl, rfl,
        Nat.le_refl _⟩
      simp [createNode, allocate, hlist, hallocate]
  | false =>
      cases hconstruct : E.fails (h.time + 1) with
      | true =>
          refine .inl ⟨.element, { h with made := h.made + 1, time := h.time + 2 }, ?_, rfl, rfl,
            rfl, rfl, rfl, Nat.le_succ _⟩
          have hrestored : Function.update h.storage h.made none = h.storage := by
            rw [← hfree, Function.update_eq_self]
          simp [createNode, allocate, construct, deallocate, hlist, hallocate, hconstruct,
            hrestored]
      | false =>
          right
          simp [createNode, allocate, construct, hlist, hallocate, hconstruct, withNode]

theorem destroyNode_eq {n : Nat} {v : V} (hlist : h.list list = some ⟨size, alloc⟩)
    (hvalue : h.value n = some v) (hstorage : h.storage n = some alloc) :
    h.destroyNode list n = some (h.without [(n, v)]) := by
  simp [without_singleton, destroyNode, destroy, deallocate, hlist, hvalue, hstorage]

/-- The loop ends the nodes it meets on the way to the sentinel. -/
theorem clearLoop_eq (cells : List (Nat × V)) (hlist : h.list list = some ⟨size, alloc⟩)
    (hchain : (ptrsOf cells ++ [Ptr.sentinel list]).IsChain (Linked h.next h.prev))
    (hnodup : (nodesOf cells).Nodup) (hvalue : ∀ cell ∈ cells, h.value cell.1 = some cell.2)
    (hstorage : ∀ cell ∈ cells, h.storage cell.1 = some alloc) {fuel : Nat}
    (hfuel : cells.length < fuel) :
    clearLoop list fuel (iteratorAt list cells) h = some (h.without cells) := by
  induction cells generalizing h fuel with
  | nil =>
      obtain ⟨fuel, rfl⟩ := Nat.exists_eq_add_of_lt hfuel
      rw [without_nil]
      simp [clearLoop, iteratorAt, ptrsOf]
  | cons cell rest ih =>
      obtain ⟨n, v⟩ := cell
      obtain ⟨fuel, rfl⟩ := Nat.exists_eq_add_of_lt hfuel
      have hnext : h.next (.node n) = some (iteratorAt list rest) := by
        obtain ⟨tail, htail⟩ := exists_eq_first_cons (Ptr.sentinel list) (ptrsOf rest)
        have hfirst : (Ptr.node n :: (ptrsOf rest ++ [.sentinel list])).IsChain
            (Linked h.next h.prev) := hchain
        rw [htail, List.isChain_cons_cons] at hfirst
        exact hfirst.1.1
      have hdestroy := destroyNode_eq hlist (hvalue _ (.head _)) (hstorage _ (.head _))
      obtain ⟨hnot, hnodup'⟩ := List.nodup_cons.mp hnodup
      have hother : ∀ cell ∈ rest, cell.1 ∉ nodesOf [(n, v)] := by
        intro cell hcell hsame
        have heq : cell.1 = n := by simpa [nodesOf] using hsame
        have hmem := mem_nodesOf hcell
        rw [heq] at hmem
        exact hnot hmem
      have hptrs : ∀ p ∈ ptrsOf rest ++ [.sentinel list], p ∉ ptrsOf [(n, v)] := by
        intro p hp hmem
        obtain rfl : p = .node n := by simpa [ptrsOf] using hmem
        rcases List.mem_append.mp hp with hrest | hs
        · obtain ⟨k, hk, heq⟩ := mem_ptrsOf.mp hrest
          exact hnot (Ptr.node.inj heq ▸ hk)
        · cases List.mem_singleton.mp hs
      have hchain' : (ptrsOf rest ++ [Ptr.sentinel list]).IsChain
          (Linked (h.without [(n, v)]).next (h.without [(n, v)]).prev) :=
        chain_congr (List.isChain_cons.mp hchain).2
          (fun p hp => if_neg (hptrs p (List.dropLast_subset _ hp)))
          fun p hp => if_neg (hptrs p (List.mem_of_mem_tail hp))
      have henough : rest.length < ((n, v) :: rest).length + fuel := by
        rw [List.length_cons]
        omega
      have hloop := ih (h := h.without [(n, v)]) hlist hchain' hnodup'
        (fun cell hcell => (if_neg (hother cell hcell)).trans (hvalue cell (.tail _ hcell)))
        (fun cell hcell => (if_neg (hother cell hcell)).trans (hstorage cell (.tail _ hcell)))
        henough
      rw [without_without, List.length_cons] at hloop
      change clearLoop list _ (.node n) h = _
      simp [clearLoop, hnext, Ptr.node?, hdestroy, hloop]

end Heap

namespace Represents

variable {h h' : Heap V Alloc} {σ : Spec V Alloc} {list : ListId} {a : Alloc}
  {cells pre post : List (Nat × V)}

theorem same (hrep : Represents h σ) (hsame : h.Same h') : Represents h' σ where
  present l q hq := by
    obtain ⟨header, ring, value, storage⟩ := hrep.present l q hq
    exact ⟨by rwa [hsame.list], by rwa [hsame.next, hsame.prev], by rwa [hsame.value],
      by rwa [hsame.storage]⟩
  absent l hl := by
    rw [hsame.list]
    exact hrep.absent l hl
  disjoint := hrep.disjoint
  owned n hn := by
    rw [hsame.storage, hsame.value] at hn
    exact hrep.owned n hn
  made n hn := by
    rw [hsame.storage] at hn
    exact Nat.lt_of_lt_of_le (hrep.made n hn) hsame.made

theorem storage_made (hrep : Represents h σ) : h.storage h.made = none := by
  cases hstorage : h.storage h.made with
  | none => rfl
  | some alloc => exact absurd (hrep.made h.made (by rw [hstorage]; rfl)) (Nat.lt_irrefl _)

/-- The nodes made from now on are in no list. -/
theorem fresh_of_madeSince (hrep : Represents h σ) {new : List (Nat × V)}
    (hsince : h.MadeSince new) : σ.Fresh new := by
  refine ⟨hsince.1, fun n hn l hown => ?_⟩
  obtain ⟨q, hq, hmem⟩ := hown
  obtain ⟨cell, hcell, rfl⟩ := List.mem_map.mp hmem
  have hstorage := (hrep.present l q hq).storage cell hcell
  have hlt := hrep.made cell.1 (by rw [hstorage]; rfl)
  exact absurd (hsince.2 cell.1 hn) (Nat.not_le.mpr hlt)

theorem into_of_mem (hlist : σ list = some ⟨a, cells⟩) {p : Ptr}
    (hp : p ∈ .sentinel list :: ptrsOf cells) : σ.Into list p := by
  rcases List.mem_cons.mp hp with rfl | hnode
  · exact .inl rfl
  · obtain ⟨n, hn, rfl⟩ := mem_ptrsOf.mp hnode
    exact .inr ⟨n, ⟨_, hlist, hn⟩, rfl⟩

theorem owns_ne (hrep : Represents h σ) {list' : ListId} {n n' : Nat} (hn : σ.Owns list n)
    (hn' : σ.Owns list' n') (hne : list ≠ list') : n ≠ n' := by
  rintro rfl
  exact hne (hrep.disjoint _ _ _ hn hn')

/-- A node that is there is in a list. -/
theorem here_or_elsewhere (hrep : Represents h σ) (hlist : σ list = some ⟨a, cells⟩) {n : Nat}
    (hn : (h.storage n).isSome ∨ (h.value n).isSome) :
    n ∈ nodesOf cells ∨ ∃ l, l ≠ list ∧ σ.Owns l n := by
  obtain ⟨l, hl⟩ := hrep.owned n hn
  rcases eq_or_ne l list with rfl | hother
  · obtain ⟨q, hq, hmem⟩ := hl
    obtain rfl := Option.some.inj (hlist.symm.trans hq)
    exact .inl hmem
  · exact .inr ⟨l, hother, hl⟩

/-- The neighbours where a list is cut. -/
theorem into_last (hlist : σ list = some ⟨a, pre ++ post⟩) :
    σ.Into list ((ptrsOf pre).getLast?.getD (.sentinel list)) := by
  apply into_of_mem hlist
  rw [ptrsOf_append]
  exact last_mem _ _ _

theorem into_iteratorAt (hlist : σ list = some ⟨a, pre ++ post⟩) :
    σ.Into list (iteratorAt list post) := by
  apply into_of_mem hlist
  rw [ptrsOf_append]
  exact first_mem _ _ _

/-- Lists of other nodes and the sentinels of other lists are left alone. -/
theorem withLinked_untouched (hrep : Represents h σ) {before position : Ptr} {l : ListId}
    (hbefore : σ.Into list before) (hposition : σ.Into list position) (hl : l ≠ list) (v : V)
    (size : Nat) : Untouched h (h.withLinked list a v before position size) σ l := by
  have hnotOwned : ∀ n, σ.Owns l n → n ≠ h.made := by
    rintro _ hn rfl
    exact hrep.fresh hn
  refine ⟨Function.update_of_ne hl _ _, fun p hp => ?_, fun p hp => ?_, fun n hn => ?_,
    fun n hn => ?_⟩
  · have hnew := hrep.into_ne_fresh hp
    exact (Function.update_of_ne (hrep.into_ne hp hbefore hl) _ _).trans
      ((Function.update_of_ne hnew _ _).trans (Function.update_of_ne hnew _ _))
  · have hnew := hrep.into_ne_fresh hp
    exact (Function.update_of_ne (hrep.into_ne hp hposition hl) _ _).trans
      ((Function.update_of_ne hnew _ _).trans (Function.update_of_ne hnew _ _))
  · exact Function.update_of_ne (hnotOwned n hn) _ _
  · exact Function.update_of_ne (hnotOwned n hn) _ _

theorem withLinked_listAt (hrep : Represents h σ) (hlist : σ list = some ⟨a, pre ++ post⟩) (v : V) :
    ListAt (h.withLinked list a v ((ptrsOf pre).getLast?.getD (.sentinel list))
      (iteratorAt list post) (pre ++ post).length) list ⟨a, pre ++ (h.made, v) :: post⟩ := by
  have hat := hrep.present list _ hlist
  have hring : Ring h.next h.prev (.sentinel list) (ptrsOf pre ++ ptrsOf post) := by
    rw [← ptrsOf_append]
    exact hat.ring
  have hinto : ∀ p ∈ .sentinel list :: (ptrsOf pre ++ ptrsOf post), σ.Into list p := by
    rw [← ptrsOf_append]
    exact fun p => into_of_mem hlist
  have hcells : ∀ cell ∈ pre ++ (h.made, v) :: post,
      cell = (h.made, v) ∨ cell ∈ pre ++ post ∧ cell.1 ≠ h.made := by
    intro cell hcell
    rw [List.mem_append, List.mem_cons, or_left_comm, ← List.mem_append] at hcell
    refine hcell.imp_right fun hold => ⟨hold, fun heq => ?_⟩
    have hown : σ.Owns list cell.1 := ⟨_, hlist, mem_nodesOf hold⟩
    exact hrep.fresh (heq ▸ hown)
  refine ⟨?_, ?_, fun cell hcell => ?_, fun cell hcell => ?_⟩
  · apply (Function.update_self ..).trans
    simp only [List.length_append, List.length_cons, Nat.add_assoc]
  · have hpositionNew := hrep.into_ne_fresh (into_iteratorAt hlist)
    have hbeforeNew := hrep.into_ne_fresh (into_last hlist)
    rw [ptrsOf_append]
    refine hring.insert (fun hmem => hrep.into_ne_fresh (hinto _ hmem) rfl) ?_ ?_ ?_ ?_
    · exact ⟨Function.update_self .., (Function.update_of_ne (Ne.symm hpositionNew) _ _).trans
        (Function.update_self ..)⟩
    · exact ⟨(Function.update_of_ne (Ne.symm hbeforeNew) _ _).trans (Function.update_self ..),
        Function.update_self ..⟩
    · intro p hmem hne
      have hnew := hrep.into_ne_fresh (hinto p hmem)
      exact (Function.update_of_ne hne _ _).trans
        ((Function.update_of_ne hnew _ _).trans (Function.update_of_ne hnew _ _))
    · intro p hmem hne
      have hnew := hrep.into_ne_fresh (hinto p hmem)
      exact (Function.update_of_ne hne _ _).trans
        ((Function.update_of_ne hnew _ _).trans (Function.update_of_ne hnew _ _))
  · rcases hcells cell hcell with rfl | ⟨hold, hne⟩
    · exact Function.update_self ..
    · exact (Function.update_of_ne hne _ _).trans (hat.value cell hold)
  · rcases hcells cell hcell with rfl | ⟨hold, hne⟩
    · exact Function.update_self ..
    · exact (Function.update_of_ne hne _ _).trans (hat.storage cell hold)

/-- A node that is in no list yet is linked in. -/
theorem linked (hrep : Represents h σ) (hlist : σ list = some ⟨a, pre ++ post⟩) (v : V) :
    ∃ h', (h.withNode a v).linkBefore list (iteratorAt list post) (.node h.made) = some h' ∧
      h'.made = h.made + 1 ∧ Represents h' (σ.set list a (pre ++ (h.made, v) :: post)) := by
  have hat := hrep.present list _ hlist
  have hring : Ring h.next h.prev (.sentinel list) (ptrsOf pre ++ ptrsOf post) := by
    rw [← ptrsOf_append]
    exact hat.ring
  obtain ⟨hnext, hprev⟩ := hring.linked
  have hposition := into_iteratorAt hlist
  have hbefore := into_last hlist
  have hpositionNew := hrep.into_ne_fresh hposition
  have hselfNext : (h.withNode a v).next (.node h.made) = some (.node h.made) :=
    Function.update_self ..
  have hselfPrev : (h.withNode a v).prev (.node h.made) = some (.node h.made) :=
    Function.update_self ..
  have hprev' := (Function.update_of_ne hpositionNew (some (.node h.made)) h.prev).trans hprev
  have hnext' := (Function.update_of_ne (hrep.into_ne_fresh hbefore) (some (.node h.made))
    h.next).trans hnext
  have hlinked := Heap.linkBefore_eq (by rw [hselfNext]; rfl) (by rw [hselfPrev]; rfl) hprev'
    (Option.isSome_of_eq_some hnext') hpositionNew
    (show (h.withNode a v).list list = _ from hat.header)
  have hnodes : ∀ n, n ∈ nodesOf (pre ++ (h.made, v) :: post) ↔
      n = h.made ∨ n ∈ nodesOf (pre ++ post) := by
    intro n
    simp only [nodesOf, List.map_append, List.map_cons, List.mem_append, List.mem_cons]
    exact or_left_comm
  refine ⟨_, hlinked, rfl, hrep.changeOne (q := ⟨a, pre ++ (h.made, v) :: post⟩)
    (fun l hl => hrep.withLinked_untouched hbefore hposition hl v _)
    (hrep.withLinked_listAt hlist v) ?_ ?_ ?_⟩
  · intro n hn
    rw [hnodes] at hn
    rcases hn with rfl | hold
    · exact .inr fun l => hrep.fresh
    · exact .inl ⟨_, hlist, hold⟩
  · intro n hn
    rw [hnodes]
    rcases eq_or_ne n h.made with rfl | hne
    · exact .inl (.inl rfl)
    · have hold : (h.storage n).isSome ∨ (h.value n).isSome := by
        rwa [← Function.update_of_ne hne (some a) h.storage,
          ← Function.update_of_ne hne (some v) h.value]
      exact (hrep.here_or_elsewhere hlist hold).imp_left .inr
  · intro n hn
    change n < h.made + 1
    rcases eq_or_ne n h.made with rfl | hne
    · exact Nat.lt_succ_self _
    · have hold : (h.storage n).isSome := by
        rwa [← Function.update_of_ne hne (some a) h.storage]
      exact Nat.lt_succ_of_lt (hrep.made n hold)

theorem header (hrep : Represents h σ) (hlist : σ list = some ⟨a, cells⟩) :
    h.list list = some ⟨cells.length, a⟩ :=
  (hrep.present list _ hlist).header

theorem node_ne_iteratorAt (hrep : Represents h σ) {n : Nat} {v : V} {rest : List (Nat × V)}
    (hlist : σ list = some ⟨a, pre ++ (n, v) :: (rest ++ post)⟩) :
    Ptr.node n ≠ iteratorAt list post := by
  have hnodup := (hrep.present list _ hlist).ring.nodup
  intro heq
  have hmem : Ptr.node n ∈ .sentinel list :: ptrsOf (rest ++ post) := by
    rw [heq, ptrsOf_append]
    exact first_mem _ _ _
  have htail : Ptr.node n ∈ ptrsOf (rest ++ post) := by simpa using hmem
  rw [ptrsOf_append, List.nodup_cons, List.nodup_append] at hnodup
  exact (List.nodup_cons.mp hnodup.2.2.1).1 htail

theorem throwIfEmpty (hrep : Represents h σ) (hlist : σ list = some ⟨a, cells⟩)
    (operation : String) : h.throwIfEmpty list operation = some (if cells = [] then
      .error (.outOfRange ("List::" ++ operation ++ " on empty list")) else .ok ()) := by
  rw [Heap.throwIfEmpty, hrep.header hlist]
  cases cells <;> simp

/-- Pointers to the other nodes of a list. -/
theorem ne_node (hrep : Represents h σ) {n : Nat} {v : V}
    (hlist : σ list = some ⟨a, pre ++ (n, v) :: post⟩) :
    ∀ p ∈ .sentinel list :: (ptrsOf pre ++ ptrsOf post), p ≠ .node n := by
  rintro _ hmem rfl
  have hnodup := (hrep.present list _ hlist).ring.nodup
  rw [ptrsOf_append] at hnodup
  change (.sentinel list :: (ptrsOf pre ++ .node n :: ptrsOf post)).Nodup at hnodup
  rw [← List.cons_append, List.nodup_middle] at hnodup
  exact (List.nodup_cons.mp hnodup).1 hmem

/-- The other lists are left alone. -/
theorem withUnlinked_untouched (hrep : Represents h σ) {n : Nat} {before after : Ptr} {l : ListId}
    (hown : σ.Owns list n) (hbefore : σ.Into list before) (hafter : σ.Into list after)
    (hl : l ≠ list) (size : Nat) :
    Untouched h (h.withUnlinked list a n before after size) σ l := by
  have hnode : σ.Into list (.node n) := .inr ⟨n, hown, rfl⟩
  refine ⟨Function.update_of_ne hl _ _, fun p hp => ?_, fun p hp => ?_, fun k hk => ?_,
    fun k hk => ?_⟩
  · exact (Function.update_of_ne (hrep.into_ne hp hnode hl) _ _).trans
      (Function.update_of_ne (hrep.into_ne hp hbefore hl) _ _)
  · exact (Function.update_of_ne (hrep.into_ne hp hnode hl) _ _).trans
      (Function.update_of_ne (hrep.into_ne hp hafter hl) _ _)
  · exact Function.update_of_ne (hrep.owns_ne hk hown hl) _ _
  · exact Function.update_of_ne (hrep.owns_ne hk hown hl) _ _

theorem withUnlinked_listAt (hrep : Represents h σ) {n : Nat} {v : V}
    (hlist : σ list = some ⟨a, pre ++ (n, v) :: post⟩) :
    ListAt (h.withUnlinked list a n ((ptrsOf pre).getLast?.getD (.sentinel list))
      (iteratorAt list post) (pre ++ post).length) list ⟨a, pre ++ post⟩ := by
  have hat := hrep.present list _ hlist
  have hapart := hrep.ne_node hlist
  have hring : Ring h.next h.prev (.sentinel list) (ptrsOf pre ++ [.node n] ++ ptrsOf post) := by
    have hring := hat.ring
    rw [ptrsOf_append] at hring
    rwa [List.append_assoc]
  have hcells : ∀ cell ∈ pre ++ post, cell ∈ pre ++ (n, v) :: post ∧ cell.1 ≠ n := by
    intro cell hcell
    refine ⟨(List.Sublist.append_left (List.sublist_cons_self _ _) pre).subset hcell, ?_⟩
    rintro rfl
    refine hapart (.node cell.1) (.tail _ ?_) rfl
    rw [← ptrsOf_append]
    exact mem_ptrsOf.mpr ⟨_, mem_nodesOf hcell, rfl⟩
  refine ⟨Function.update_self .., ?_, fun cell hcell => ?_, fun cell hcell => ?_⟩
  · rw [ptrsOf_append]
    apply hring.remove
    · have hbeforeNe := hapart _ (last_mem _ _ _)
      have hafterNe := hapart _ (first_mem _ _ _)
      exact ⟨(Function.update_of_ne hbeforeNe _ _).trans (Function.update_self ..),
        (Function.update_of_ne hafterNe _ _).trans (Function.update_self ..)⟩
    · intro p hmem hne
      exact (Function.update_of_ne (hapart p hmem) _ _).trans (Function.update_of_ne hne _ _)
    · intro p hmem hne
      exact (Function.update_of_ne (hapart p hmem) _ _).trans (Function.update_of_ne hne _ _)
  · obtain ⟨hold, hne⟩ := hcells cell hcell
    exact (Function.update_of_ne hne _ _).trans (hat.value cell hold)
  · obtain ⟨hold, hne⟩ := hcells cell hcell
    exact (Function.update_of_ne hne _ _).trans (hat.storage cell hold)

variable [DecidableEq Alloc]

/-- `emplace` makes a node where it is told to, or throws and changes nothing. -/
theorem emplace (E : Setting V Alloc) (hrep : Represents h σ)
    (hlist : σ list = some ⟨a, pre ++ post⟩) (v : V) :
    (∃ e h', h.emplace E list (iteratorAt list post) v = some (.error e, h') ∧
      Represents h' σ) ∨
    ∃ h', h.emplace E list (iteratorAt list post) v = some (.ok (some (.node h.made)), h') ∧
      h'.made = h.made + 1 ∧ Represents h' (σ.set list a (pre ++ (h.made, v) :: post)) := by
  rcases Heap.createNode_cases E (hrep.header hlist) hrep.storage_made v with
    ⟨e, h', hthrew, hsame⟩ | hmade
  · exact .inl ⟨e, h', by simp [Heap.emplace, hthrew], hrep.same hsame⟩
  · obtain ⟨h', hlinked, hcount, hrep'⟩ := hrep.linked hlist v
    exact .inr ⟨h', by simp [Heap.emplace, hmade, hlinked], hcount, hrep'⟩

theorem erase_eq (hrep : Represents h σ) {n : Nat} {v : V}
    (hlist : σ list = some ⟨a, pre ++ (n, v) :: post⟩) :
    h.erase list (.node n) = some (.ok (some (iteratorAt list post)),
      h.withUnlinked list a n ((ptrsOf pre).getLast?.getD (.sentinel list))
        (iteratorAt list post) (pre ++ post).length) := by
  have hat := hrep.present list _ hlist
  have hring : Ring h.next h.prev (.sentinel list) (ptrsOf pre ++ .node n :: ptrsOf post) := by
    have hring := hat.ring
    rwa [ptrsOf_append] at hring
  have hring' : Ring h.next h.prev (.sentinel list) (ptrsOf pre ++ [.node n] ++ ptrsOf post) := by
    rwa [List.append_assoc]
  obtain ⟨hprev, hnext⟩ := hring.links_of_mem
  have hnextBefore := hring.linked.1
  have hprevAfter := hring'.linked.2
  change h.next _ = some (iteratorAt list post) at hnext
  change h.prev (iteratorAt list post) = _ at hprevAfter
  have hbeforeNe := Ne.symm (hrep.ne_node hlist _ (last_mem _ _ _))
  have hunlink := Heap.unlink_eq hprev hnext (Option.isSome_of_eq_some hnextBefore)
    (Option.isSome_of_eq_some hprevAfter) hbeforeNe
  have hvalue := hat.value (n, v) (by simp)
  have hstorage := hat.storage (n, v) (by simp)
  have hheader : h.list list = some ⟨(pre ++ post).length + 1, a⟩ := by
    rw [hat.header, List.length_append, List.length_cons, List.length_append, Nat.add_assoc]
  simp [Heap.erase, hnext, hunlink, Ptr.node?, Heap.destroyNode, Heap.destroy, Heap.deallocate,
    hheader, hvalue, hstorage, Heap.setSize, Heap.withUnlinked]

/-- A node is unlinked and ended. -/
theorem erase (hrep : Represents h σ) {n : Nat} {v : V}
    (hlist : σ list = some ⟨a, pre ++ (n, v) :: post⟩) :
    ∃ h', h.erase list (.node n) = some (.ok (some (iteratorAt list post)), h') ∧
      Represents h' (σ.set list a (pre ++ post)) := by
  have hcut : σ list = some ⟨a, (pre ++ [(n, v)]) ++ post⟩ := by
    rw [List.append_assoc]
    exact hlist
  have hown : σ.Owns list n := ⟨_, hlist, by simp [nodesOf]⟩
  refine ⟨_, hrep.erase_eq hlist, hrep.changeOne (q := ⟨a, pre ++ post⟩)
    (fun l hl => hrep.withUnlinked_untouched hown (into_last hlist) (into_iteratorAt hcut) hl _)
    (hrep.withUnlinked_listAt hlist) ?_ ?_ ?_⟩
  · intro k hk
    rw [nodesOf_append, List.mem_append] at hk
    refine .inl ⟨_, hlist, ?_⟩
    rw [nodesOf_append, List.mem_append]
    exact hk.imp_right (.tail _)
  · intro k hk
    have hne : k ≠ n := by
      rintro rfl
      simp [Heap.withUnlinked] at hk
    change (Function.update h.storage n none k).isSome ∨ (Function.update h.value n none k).isSome
      at hk
    rw [Function.update_of_ne hne, Function.update_of_ne hne] at hk
    apply (hrep.here_or_elsewhere hlist hk).imp_left
    intro hmem
    rw [nodesOf_append, List.mem_append] at hmem ⊢
    exact hmem.imp_right fun htail => List.mem_of_ne_of_mem hne htail
  · intro k hk
    have hne : k ≠ n := by
      rintro rfl
      simp [Heap.withUnlinked] at hk
    change (Function.update h.storage n none k).isSome at hk
    rw [Function.update_of_ne hne] at hk
    exact hrep.made k hk

/-- The loop erases what lies between its start and its end. -/
theorem eraseLoop (hrep : Represents h σ) (mid : List (Nat × V))
    (hlist : σ list = some ⟨a, pre ++ (mid ++ post)⟩) {fuel : Nat} (hfuel : mid.length < fuel) :
    ∃ h', Heap.eraseLoop list (iteratorAt list post) fuel (iteratorAt list (mid ++ post)) h =
        some (.ok (some (iteratorAt list post)), h') ∧
      Represents h' (σ.set list a (pre ++ post)) := by
  induction mid generalizing h σ fuel with
  | nil =>
      obtain ⟨fuel, rfl⟩ := Nat.exists_eq_add_of_lt hfuel
      rw [List.nil_append] at hlist ⊢
      exact ⟨h, by simp [Heap.eraseLoop], by rwa [Spec.set_eq_self hlist]⟩
  | cons cell rest ih =>
      obtain ⟨n, v⟩ := cell
      obtain ⟨fuel, rfl⟩ := Nat.exists_eq_add_of_lt hfuel
      have hne := hrep.node_ne_iteratorAt hlist
      obtain ⟨h₁, herase, hrep₁⟩ := hrep.erase hlist
      have henough : rest.length < ((n, v) :: rest).length + fuel := by
        rw [List.length_cons]
        omega
      obtain ⟨h', hloop, hrep'⟩ := ih hrep₁ (Spec.set_self ..) henough
      refine ⟨h', ?_, by rwa [Spec.set_set] at hrep'⟩
      change Heap.eraseLoop list (iteratorAt list post) _ (.node n) h = _
      rw [Heap.eraseLoop, if_neg hne, herase]
      exact hloop

theorem eraseRange (hrep : Represents h σ) {mid : List (Nat × V)}
    (hlist : σ list = some ⟨a, pre ++ mid ++ post⟩) :
    ∃ h', h.eraseRange list (iteratorAt list (mid ++ post)) (iteratorAt list post) =
        some (.ok (some (iteratorAt list post)), h') ∧
      Represents h' (σ.set list a (pre ++ post)) := by
  have henough : mid.length < (pre ++ mid ++ post).length + 1 := by
    rw [List.length_append, List.length_append]
    omega
  have hheader := hrep.header hlist
  rw [List.append_assoc] at hlist
  obtain ⟨h', hloop, hrep'⟩ := hrep.eraseLoop mid hlist henough
  exact ⟨h', by rw [Heap.eraseRange, hheader]; exact hloop, hrep'⟩

theorem popFront (hrep : Represents h σ) {cell : Nat × V}
    (hlist : σ list = some ⟨a, cell :: cells⟩) :
    ∃ h', h.popFront list = some (.ok none, h') ∧ Represents h' (σ.set list a cells) := by
  have hfirst : h.next (.sentinel list) = some (.node cell.1) :=
    (hrep.present list _ hlist).ring.next_sentinel
  obtain ⟨h', herase, hrep'⟩ := hrep.erase (show σ list = some ⟨a, [] ++ (cell.1, cell.2) :: cells⟩
    from hlist)
  refine ⟨h', ?_, hrep'⟩
  simp [Heap.popFront, hrep.throwIfEmpty hlist, hfirst, herase, Except.map]

theorem popBack (hrep : Represents h σ) {cell : Nat × V}
    (hlist : σ list = some ⟨a, cells ++ [cell]⟩) :
    ∃ h', h.popBack list = some (.ok none, h') ∧ Represents h' (σ.set list a cells) := by
  have hlast : h.prev (.sentinel list) = some (.node cell.1) := by
    have hprev := (hrep.present list _ hlist).ring.prev_sentinel
    rwa [ptrsOf_append, show ptrsOf [cell] = [Ptr.node cell.1] from rfl, List.getLast?_concat]
      at hprev
  obtain ⟨h', herase, hrep'⟩ := hrep.erase (show σ list = some ⟨a, cells ++ (cell.1, cell.2) :: []⟩
    from hlist)
  rw [List.append_nil] at hrep'
  refine ⟨h', ?_, hrep'⟩
  simp [Heap.popBack, hrep.throwIfEmpty hlist, hlast, herase, Except.map]

/-- All nodes of a list are ended. -/
theorem clear (hrep : Represents h σ) (hlist : σ list = some ⟨a, cells⟩) :
    ∃ h', h.clear list = some h' ∧ h'.made = h.made ∧ Represents h' (σ.set list a []) := by
  have hat := hrep.present list _ hlist
  have hloop := Heap.clearLoop_eq cells hat.header (List.isChain_cons.mp hat.ring.chain).2
    (nodup_nodesOf (List.nodup_cons.mp hat.ring.nodup).2) hat.value hat.storage
    (Nat.lt_succ_self _)
  have hsentinel : .sentinel list ∉ ptrsOf cells := (List.nodup_cons.mp hat.ring.nodup).1
  have hnext : h.next (.sentinel list) = some (iteratorAt list cells) := hat.ring.next_sentinel
  have hreset : (h.without cells).resetEmpty list = some _ := Heap.resetEmpty_eq
    (by rw [Heap.without]; simp [hsentinel, hnext])
    (by rw [Heap.without]; simp [hsentinel, hat.ring.prev_sentinel])
  have hptrs : ∀ l p, l ≠ list → σ.Into l p → p ∉ ptrsOf cells :=
    fun l p hl hp hmem => hrep.into_ne hp (into_of_mem hlist (.tail _ hmem)) hl rfl
  have hnodes : ∀ l n, l ≠ list → σ.Owns l n → n ∉ nodesOf cells :=
    fun l n hl hn hmem => hrep.owns_ne hn ⟨_, hlist, hmem⟩ hl rfl
  have hclear : h.clear list = some { h.without cells with
      next := Function.update (h.without cells).next (.sentinel list) (some (.sentinel list))
      prev := Function.update (h.without cells).prev (.sentinel list) (some (.sentinel list))
      list := Function.update h.list list (some ⟨0, a⟩) } := by
    rw [Heap.clear, hnext, hat.header]
    simp only [Option.bind_eq_bind, Option.bind_some]
    rw [hloop]
    simp only [Option.bind_some]
    rw [hreset]
    simp only [Option.bind_some, Heap.setSize]
    rw [show (h.without cells).list list = some ⟨cells.length, a⟩ from hat.header]
    rfl
  refine ⟨_, hclear, rfl, hrep.changeOne (q := ⟨a, []⟩) ?_ ?_ nofun ?_ ?_⟩
  · intro l hl
    refine ⟨Function.update_of_ne hl _ _, fun p hp => ?_, fun p hp => ?_,
      fun n hn => if_neg (hnodes l n hl hn), fun n hn => if_neg (hnodes l n hl hn)⟩
    · exact (Function.update_of_ne (hrep.into_ne hp (.inl rfl) hl) _ _).trans
        (if_neg (hptrs l p hl hp))
    · exact (Function.update_of_ne (hrep.into_ne hp (.inl rfl) hl) _ _).trans
        (if_neg (hptrs l p hl hp))
  · exact ⟨Function.update_self .., .nil (Function.update_self ..) (Function.update_self ..),
      nofun, nofun⟩
  · intro n hn
    have hne : n ∉ nodesOf cells := by
      intro hmem
      simp [Heap.without, hmem] at hn
    have hold : (h.storage n).isSome ∨ (h.value n).isSome := by
      simpa [Heap.without, hne] using hn
    exact .inr ((hrep.here_or_elsewhere hlist hold).resolve_left hne)
  · intro n hn
    have hne : n ∉ nodesOf cells := by
      intro hmem
      simp [Heap.without, hmem] at hn
    exact hrep.made n (by simpa [Heap.without, hne] using hn)

end Represents

end MoreCpp.DsList
