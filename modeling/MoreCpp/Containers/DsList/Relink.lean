import MoreCpp.Containers.DsList.Nodes

/-!
The functions of `ds::List` that move nodes between lists, and the members of
list objects. A ring taken over is loose until its ends point at the new sentinel.
-/

namespace MoreCpp.DsList

open Library

variable {V Alloc : Type}

namespace Heap

variable {h : Heap V Alloc} {list other : ListId} {nodes : List Ptr} {alloc : Alloc}

/-- The ends of the nodes a sentinel points at are made to point back at it. -/
def close (h : Heap V Alloc) (list : ListId) (nodes : List Ptr) : Heap V Alloc :=
  { h with
    next := Function.update h.next (nodes.getLast?.getD (.sentinel list)) (some (.sentinel list))
    prev := Function.update h.prev (nodes.head?.getD (.sentinel list)) (some (.sentinel list)) }

theorem pointBack_eq (hloose : Loose h.next h.prev (.sentinel list) nodes) (hne : nodes ≠ [])
    (hfirst : ∀ p ∈ nodes, (h.prev p).isSome) (hlast : ∀ p ∈ nodes, (h.next p).isSome) :
    h.pointBack list = some (h.close list nodes) := by
  obtain ⟨first, hnext, hhead⟩ := hloose.next_sentinel
  obtain ⟨last, hprev, hend⟩ := hloose.prev_sentinel
  have hz := List.getLast?_eq_some_getLast hne
  generalize nodes.getLast hne = z at hz
  cases nodes with
  | nil => exact absurd rfl hne
  | cons a rest =>
      obtain rfl := hhead a rfl
      obtain rfl := hend z hz
      have hs : .sentinel list ≠ first := fun heq =>
        (List.nodup_cons.mp hloose.nodup).1 (heq ▸ .head _)
      simp [pointBack, close, setNext, setPrev, hnext, hfirst first (.head _),
        Function.update_of_ne hs, hprev, hlast last (List.mem_of_getLast? hz), hz]

theorem repairSentinelLinks_eq (hlist : h.list list = some ⟨nodes.length, alloc⟩)
    (hloose : Loose h.next h.prev (.sentinel list) nodes)
    (hfirst : ∀ p ∈ nodes, (h.prev p).isSome) (hlast : ∀ p ∈ nodes, (h.next p).isSome) :
    h.repairSentinelLinks list = some (h.close list nodes) := by
  cases nodes with
  | nil =>
      obtain ⟨first, hnext, -⟩ := hloose.next_sentinel
      obtain ⟨last, hprev, -⟩ := hloose.prev_sentinel
      have hreset := resetEmpty_eq (by rw [hnext]; rfl) (by rw [hprev]; rfl)
      simp [repairSentinelLinks, hlist, hreset, close]
  | cons a rest =>
      have hclosed := pointBack_eq hloose (by simp) hfirst hlast
      simp [repairSentinelLinks, hlist, hclosed]

/-- Two loose rings apart from each other are both closed, and nothing else changes. -/
theorem repair_both {nodes' : List Ptr} {b : Alloc}
    (hlist : h.list list = some ⟨nodes.length, alloc⟩)
    (hother : h.list other = some ⟨nodes'.length, b⟩)
    (hloose : Loose h.next h.prev (.sentinel list) nodes)
    (hloose' : Loose h.next h.prev (.sentinel other) nodes')
    (hsome : ∀ p, p ∈ nodes ∨ p ∈ nodes' → (h.next p).isSome ∧ (h.prev p).isSome)
    (hapart : ∀ p ∈ .sentinel list :: nodes, ∀ p' ∈ .sentinel other :: nodes', p ≠ p') :
    ∃ h', (h.repairSentinelLinks list).bind (repairSentinelLinks other) = some h' ∧
      h' = (h.close list nodes).close other nodes' ∧
      Ring h'.next h'.prev (.sentinel list) nodes ∧
      Ring h'.next h'.prev (.sentinel other) nodes' := by
  have hlast := last_mem' (Ptr.sentinel list) nodes
  have hfirst := first_mem' (Ptr.sentinel list) nodes
  have hlast' := last_mem' (Ptr.sentinel other) nodes'
  have hfirst' := first_mem' (Ptr.sentinel other) nodes'
  have hnext : ∀ p ∈ .sentinel other :: nodes', (h.close list nodes).next p = h.next p :=
    fun p hp => Function.update_of_ne (Ne.symm (hapart _ hlast p hp)) _ _
  have hprev : ∀ p ∈ .sentinel other :: nodes', (h.close list nodes).prev p = h.prev p :=
    fun p hp => Function.update_of_ne (Ne.symm (hapart _ hfirst p hp)) _ _
  have hstill := hloose'.frame hnext hprev
  have hrepaired := repairSentinelLinks_eq hlist hloose (fun p hp => (hsome p (.inl hp)).2)
    fun p hp => (hsome p (.inl hp)).1
  have hrepaired' := repairSentinelLinks_eq (show (h.close list nodes).list other = _ from hother)
    hstill (fun p hp => by rw [hprev p (.tail _ hp)]; exact (hsome p (.inr hp)).2)
    fun p hp => by rw [hnext p (.tail _ hp)]; exact (hsome p (.inr hp)).1
  refine ⟨_, by rw [hrepaired, Option.bind_some, hrepaired'], rfl,
    hloose.close.frame (fun p hp => ?_) fun p hp => ?_, hstill.close⟩
  · exact Function.update_of_ne (hapart p hp _ hlast') _ _
  · exact Function.update_of_ne (hapart p hp _ hfirst') _ _

/-- `steal_nodes_from` a list that is not empty, up to the emptying of that list. -/
theorem stealNodesFrom_eq {m n : Nat} {a : Alloc} {first last : Ptr}
    (hlist : h.list list = some ⟨m, a⟩) (hother : h.list other = some ⟨n + 1, alloc⟩)
    (hfirst : h.next (.sentinel other) = some first)
    (hlast : h.prev (.sentinel other) = some last)
    (hnext : (h.next (.sentinel list)).isSome) (hprev : (h.prev (.sentinel list)).isSome)
    {h' : Heap V Alloc} (hback : pointBack list { h with
      next := Function.update h.next (.sentinel list) (some first)
      prev := Function.update h.prev (.sentinel list) (some last)
      list := Function.update h.list list (some ⟨n + 1, a⟩) } = some h') :
    h.stealNodesFrom list other = (h'.resetEmpty other).bind (·.setSize other 0) := by
  simp [stealNodesFrom, hother, hfirst, hlast, setNext, setPrev, setSize, hnext, hprev, hlist,
    hback]

section Swap

variable [DecidableEq Alloc] (E : Setting V Alloc) {m n : Nat} {a b : Alloc}

/-- Each list gets the other's allocator, or has it already. -/
theorem swapAllocs_eq (hne : list ≠ other) (hlist : h.list list = some ⟨m, a⟩)
    (hother : h.list other = some ⟨n, b⟩) (hequal : E.propagateOnSwap = true ∨ a = b) :
    ∃ lists, h.swapAllocs E list other = some { h with list := lists } ∧
      lists list = some ⟨m, b⟩ ∧ lists other = some ⟨n, a⟩ ∧
      ∀ l, l ≠ list → l ≠ other → lists l = h.list l := by
  cases hpropagate : E.propagateOnSwap with
  | true =>
      refine ⟨Function.update (Function.update h.list list (some ⟨m, b⟩)) other (some ⟨n, a⟩),
        ?_, (Function.update_of_ne hne _ _).trans (Function.update_self ..),
        Function.update_self .., fun l hl hl' =>
          (Function.update_of_ne hl' _ _).trans (Function.update_of_ne hl _ _)⟩
      simp [swapAllocs, hlist, hother, hpropagate, setAlloc, Function.update_of_ne hne.symm]
  | false =>
      obtain rfl : a = b := hequal.resolve_left (by simp [hpropagate])
      exact ⟨h.list, by simp [swapAllocs, hlist, hother, hpropagate], hlist, hother,
        fun _ _ _ => rfl⟩

/-- `swap` up to the repair of the sentinels' links: both sentinels point at the
other list's ends, and the headers are exchanged. -/
theorem swap_eq (hne : list ≠ other) (hlist : h.list list = some ⟨m, a⟩)
    (hother : h.list other = some ⟨n, b⟩) (hequal : E.propagateOnSwap = true ∨ a = b)
    {first first' last last' : Ptr}
    (hfirst : h.next (.sentinel list) = some first)
    (hfirst' : h.next (.sentinel other) = some first')
    (hlast : h.prev (.sentinel list) = some last)
    (hlast' : h.prev (.sentinel other) = some last') :
    ∃ lists : ListId → Option (Header Alloc),
      h.swap E list other = (repairSentinelLinks list { h with
        next := Function.update (Function.update h.next (.sentinel list) (some first'))
          (.sentinel other) (some first)
        prev := Function.update (Function.update h.prev (.sentinel list) (some last'))
          (.sentinel other) (some last)
        list := lists }).bind (repairSentinelLinks other) ∧
      lists list = some ⟨n, b⟩ ∧ lists other = some ⟨m, a⟩ ∧
      ∀ l, l ≠ list → l ≠ other → lists l = h.list l := by
  have hsentinels : (.sentinel other : Ptr) ≠ .sentinel list := fun heq =>
    hne (Ptr.sentinel.inj heq).symm
  obtain ⟨lists, hallocs, hlist', hother', hrest⟩ := swapAllocs_eq E hne hlist hother hequal
  refine ⟨Function.update (Function.update lists list (some ⟨n, b⟩)) other (some ⟨m, a⟩), ?_,
    (Function.update_of_ne hne _ _).trans (Function.update_self ..), Function.update_self ..,
    fun l hl hl' => ((Function.update_of_ne hl' _ _).trans
      (Function.update_of_ne hl _ _)).trans (hrest l hl hl')⟩
  simp [swap, hne, hallocs, hlist', hother', hfirst, hfirst', hlast, hlast', setSize, setNext,
    setPrev, Function.update_of_ne hsentinels, Function.update_of_ne hne.symm]

end Swap

end Heap

namespace Represents

variable {h h' : Heap V Alloc} {σ : Spec V Alloc} {list other : ListId} {a b : Alloc}
  {cells cells' pre post : List (Nat × V)}

/-- Two lists have exchanged their nodes. -/
theorem exchange (hrep : Represents h σ) (hne : list ≠ other) (hlist : σ list = some ⟨a, cells⟩)
    (hother : σ other = some ⟨b, cells'⟩) (hvalue : h'.value = h.value)
    (hstorage : h'.storage = h.storage) (hmade : h'.made = h.made)
    (hsame : ∀ l, l ≠ list → l ≠ other → Untouched h h' σ l)
    (hheader : h'.list list = some ⟨cells'.length, b⟩)
    (hheader' : h'.list other = some ⟨cells.length, a⟩)
    (hring : Ring h'.next h'.prev (.sentinel list) (ptrsOf cells'))
    (hring' : Ring h'.next h'.prev (.sentinel other) (ptrsOf cells)) :
    Represents h' ((σ.set list b cells').set other a cells) := by
  have hat := hrep.present list _ hlist
  have hat' := hrep.present other _ hother
  have hset : ((σ.set list b cells').set other a cells) list = some ⟨b, cells'⟩ :=
    (Spec.set_of_ne _ _ _ hne).trans (Spec.set_self ..)
  have hset' : ((σ.set list b cells').set other a cells) other = some ⟨a, cells⟩ :=
    Spec.set_self ..
  have hnodes : ∀ n, ((σ.set list b cells').set other a cells).Owns list n ↔ σ.Owns other n := by
    intro n
    rw [Spec.Owns, Spec.Owns, hset, hother]
  have hnodes' : ∀ n, ((σ.set list b cells').set other a cells).Owns other n ↔
      σ.Owns list n := by
    intro n
    rw [Spec.Owns, Spec.Owns, hset', hlist]
  refine hrep.change (fun l => l = list ∨ l = other) ?_ ?_ ?_ ?_ ?_ ?_ ?_
  · intro l hl
    obtain ⟨hl, hl'⟩ := not_or.mp hl
    exact ⟨(Spec.set_of_ne _ _ _ hl').trans (Spec.set_of_ne _ _ _ hl), hsame l hl hl'⟩
  · rintro l q (rfl | rfl) hq
    · rw [hset] at hq
      obtain rfl := Option.some.inj hq
      exact ⟨hheader, hring, by rw [hvalue]; exact hat'.value,
        by rw [hstorage]; exact hat'.storage⟩
    · rw [hset'] at hq
      obtain rfl := Option.some.inj hq
      exact ⟨hheader', hring', by rw [hvalue]; exact hat.value,
        by rw [hstorage]; exact hat.storage⟩
  · rintro l (rfl | rfl) hnone
    · rw [hset] at hnone
      cases hnone
    · rw [hset'] at hnone
      cases hnone
  · rintro l n (rfl | rfl) hn
    · exact .inl ⟨other, .inr rfl, (hnodes n).mp hn⟩
    · exact .inl ⟨list, .inl rfl, (hnodes' n).mp hn⟩
  · rintro l l' n (rfl | rfl) (rfl | rfl) hn hn'
    · rfl
    · exact absurd (hrep.disjoint _ _ n ((hnodes n).mp hn) ((hnodes' n).mp hn')) (Ne.symm hne)
    · exact absurd (hrep.disjoint _ _ n ((hnodes n).mp hn') ((hnodes' n).mp hn)) (Ne.symm hne)
    · rfl
  · intro n hn
    rw [hstorage, hvalue] at hn
    obtain ⟨l, hl⟩ := hrep.owned n hn
    rcases eq_or_ne l list with rfl | hl₁
    · exact .inl ⟨other, .inr rfl, (hnodes' n).mpr hl⟩
    · rcases eq_or_ne l other with rfl | hl₂
      · exact .inl ⟨list, .inl rfl, (hnodes n).mpr hl⟩
      · exact .inr ⟨l, not_or.mpr ⟨hl₁, hl₂⟩, hl⟩
  · intro n hn
    rw [hstorage] at hn
    rw [hmade]
    exact hrep.made n hn

theorem sentinel_notMem (l : ListId) (cells : List (Nat × V)) : .sentinel l ∉ ptrsOf cells := by
  intro hmem
  obtain ⟨n, -, heq⟩ := mem_ptrsOf.mp hmem
  cases heq

/-- The nodes of two lists, with the sentinels exchanged, are apart. -/
theorem around_ne (hrep : Represents h σ) (hne : list ≠ other)
    (hlist : σ list = some ⟨a, cells⟩) (hother : σ other = some ⟨b, cells'⟩) :
    ∀ p ∈ .sentinel list :: ptrsOf cells', ∀ p' ∈ .sentinel other :: ptrsOf cells, p ≠ p' := by
  rintro p hp p' hp' rfl
  rcases List.mem_cons.mp hp with rfl | hp
  · rcases List.mem_cons.mp hp' with heq | hmem
    · exact hne (Ptr.sentinel.inj heq)
    · exact sentinel_notMem _ _ hmem
  · rcases List.mem_cons.mp hp' with rfl | hmem
    · exact sentinel_notMem _ _ hp
    · exact hrep.into_ne (into_of_mem hlist (.tail _ hmem)) (into_of_mem hother (.tail _ hp)) hne
        rfl

/-- Pointers into a third list are not among them. -/
theorem far_ne (hrep : Represents h σ) (hlist : σ list = some ⟨a, cells⟩)
    (hother : σ other = some ⟨b, cells'⟩) {l : ListId} (hl : l ≠ list) (hl' : l ≠ other)
    {p p' : Ptr} (hp : σ.Into l p)
    (hp' : p' ∈ .sentinel list :: ptrsOf cells' ∨ p' ∈ .sentinel other :: ptrsOf cells) :
    p ≠ p' := by
  have hinto : σ.Into list p' ∨ σ.Into other p' := by
    rcases hp' with hmem | hmem <;> rcases List.mem_cons.mp hmem with rfl | hnode
    · exact .inl (.inl rfl)
    · exact .inr (into_of_mem hother (.tail _ hnode))
    · exact .inr (.inl rfl)
    · exact .inl (into_of_mem hlist (.tail _ hnode))
  rcases hinto with hinto | hinto
  · exact hrep.into_ne hp hinto hl
  · exact hrep.into_ne hp hinto hl'

theorem swap [DecidableEq Alloc] (E : Setting V Alloc) (hrep : Represents h σ)
    (hne : list ≠ other) (hlist : σ list = some ⟨a, cells⟩) (hother : σ other = some ⟨b, cells'⟩)
    (hequal : E.propagateOnSwap = true ∨ a = b) :
    ∃ h', h.swap E list other = some h' ∧
      Represents h' ((σ.set list b cells').set other a cells) := by
  have hring := (hrep.present list _ hlist).ring
  have hring' := (hrep.present other _ hother).ring
  obtain ⟨lists, hswap, hheader, hheader', hrest⟩ := Heap.swap_eq E hne (hrep.header hlist)
    (hrep.header hother) hequal hring.next_sentinel hring'.next_sentinel hring.prev_sentinel
    hring'.prev_sentinel
  have hsentinels : (.sentinel list : Ptr) ≠ .sentinel other := fun heq =>
    hne (Ptr.sentinel.inj heq)
  -- the links of anything but the two sentinels are as before
  have hkept : ∀ (f : Ptr → Option Ptr) (x y : Option Ptr) (p : Ptr),
      p ≠ .sentinel list → p ≠ .sentinel other → Function.update
        (Function.update f (.sentinel list) x) (.sentinel other) y p = f p :=
    fun f x y p hp hp' => (Function.update_of_ne hp' _ _).trans (Function.update_of_ne hp _ _)
  have hnode : ∀ l (cs : List (Nat × V)), ∀ p ∈ ptrsOf cs, p ≠ .sentinel l :=
    fun l cs p hp heq => sentinel_notMem l cs (heq ▸ hp)
  have hlengths : ∀ cs : List (Nat × V), cs.length = (ptrsOf cs).length :=
    fun cs => (List.length_map _).symm
  rw [hlengths] at hheader hheader'
  have hapart := hrep.around_ne hne hlist hother
  have hsome : ∀ p, p ∈ ptrsOf cells' ∨ p ∈ ptrsOf cells →
      (h.next p).isSome ∧ (h.prev p).isSome := by
    rintro p (hp | hp)
    · exact hring'.isSome (.tail _ hp)
    · exact hring.isSome (.tail _ hp)
  obtain ⟨h', hrepaired, rfl, hringB, hringA⟩ := Heap.repair_both (h := { h with
      next := Function.update (Function.update h.next (.sentinel list)
        (some ((ptrsOf cells').head?.getD (.sentinel other)))) (.sentinel other)
        (some ((ptrsOf cells).head?.getD (.sentinel list)))
      prev := Function.update (Function.update h.prev (.sentinel list)
        (some ((ptrsOf cells').getLast?.getD (.sentinel other)))) (.sentinel other)
        (some ((ptrsOf cells).getLast?.getD (.sentinel list)))
      list := lists }) hheader hheader'
    (.of_ring hring' (sentinel_notMem _ _)
      (fun p hp => hkept _ _ _ p (hnode _ _ p hp) (hnode _ _ p hp))
      (fun p hp => hkept _ _ _ p (hnode _ _ p hp) (hnode _ _ p hp))
      (((Function.update_of_ne hsentinels _ _).trans (Function.update_self ..)).trans
        hring'.next_sentinel.symm)
      (((Function.update_of_ne hsentinels _ _).trans (Function.update_self ..)).trans
        hring'.prev_sentinel.symm))
    (.of_ring hring (sentinel_notMem _ _)
      (fun p hp => hkept _ _ _ p (hnode _ _ p hp) (hnode _ _ p hp))
      (fun p hp => hkept _ _ _ p (hnode _ _ p hp) (hnode _ _ p hp))
      ((Function.update_self ..).trans hring.next_sentinel.symm)
      ((Function.update_self ..).trans hring.prev_sentinel.symm))
    (fun p hp => by
      have hne := hp.elim (fun hmem => hnode list _ p hmem) fun hmem => hnode list _ p hmem
      have hne' := hp.elim (fun hmem => hnode other _ p hmem) fun hmem => hnode other _ p hmem
      exact ⟨(congrArg Option.isSome (hkept _ _ _ p hne hne')).trans (hsome p hp).1,
        (congrArg Option.isSome (hkept _ _ _ p hne hne')).trans (hsome p hp).2⟩) hapart
  refine ⟨_, hswap.trans hrepaired, hrep.exchange hne hlist hother rfl rfl rfl ?_
    (by rw [hlengths]; exact hheader) (by rw [hlengths]; exact hheader') hringB hringA⟩
  intro l hl hl'
  have hfar : ∀ p, σ.Into l p → ∀ p', p' ∈ .sentinel list :: ptrsOf cells' ∨
      p' ∈ .sentinel other :: ptrsOf cells → p ≠ p' :=
    fun p hp p' hp' => hrep.far_ne hlist hother hl hl' hp hp'
  refine ⟨hrest l hl hl', fun p hp => ?_, fun p hp => ?_, fun _ _ => rfl, fun _ _ => rfl⟩
  · exact ((Function.update_of_ne (hfar p hp _ (.inr (last_mem' _ _))) _ _).trans
      (Function.update_of_ne (hfar p hp _ (.inl (last_mem' _ _))) _ _)).trans
        (hkept _ _ _ p (hfar p hp _ (.inl (.head _))) (hfar p hp _ (.inr (.head _))))
  · exact ((Function.update_of_ne (hfar p hp _ (.inr (first_mem' _ _))) _ _).trans
      (Function.update_of_ne (hfar p hp _ (.inl (first_mem' _ _))) _ _)).trans
        (hkept _ _ _ p (hfar p hp _ (.inl (.head _))) (hfar p hp _ (.inr (.head _))))

/-- There is nothing to take from an empty list. -/
theorem stealNodesFrom_empty (hrep : Represents h σ) (hlist : σ list = some ⟨a, []⟩)
    (hother : σ other = some ⟨a, []⟩) : h.stealNodesFrom list other = some h := by
  have hring := (hrep.present list _ hlist).ring
  have hsome := hring.isSome (.head _)
  have hnext : h.next (.sentinel list) = some (.sentinel list) := hring.next_sentinel
  have hprev : h.prev (.sentinel list) = some (.sentinel list) := hring.prev_sentinel
  have hheader : h.list list = some ⟨0, a⟩ := hrep.header hlist
  have hreset := Heap.resetEmpty_eq hsome.1 hsome.2
  rw [Function.update_eq_self_iff.mpr hnext.symm,
    Function.update_eq_self_iff.mpr hprev.symm] at hreset
  rw [Heap.stealNodesFrom, hrep.header hother]
  simp only [Option.bind_eq_bind, Option.bind_some, List.length_nil, if_true]
  rw [hreset, Option.bind_some, Heap.setSize_eq hheader,
    Function.update_eq_self_iff.mpr hheader.symm]

/-- An empty list takes over the nodes of a list with an equal allocator. -/
theorem steal (hrep : Represents h σ) (hne : list ≠ other) (hlist : σ list = some ⟨a, []⟩)
    (hother : σ other = some ⟨a, cells⟩) :
    ∃ h', h.stealNodesFrom list other = some h' ∧
      Represents h' ((σ.set list a cells).set other a []) := by
  have hring := (hrep.present list _ hlist).ring
  have hring' := (hrep.present other _ hother).ring
  have hsomeNext : (h.next (.sentinel list)).isSome := (hring.isSome (.head _)).1
  have hsomePrev : (h.prev (.sentinel list)).isSome := (hring.isSome (.head _)).2
  cases cells with
  | nil =>
      refine ⟨h, hrep.stealNodesFrom_empty hlist hother, ?_⟩
      rwa [Spec.set_eq_self hlist, Spec.set_eq_self hother]
  | cons cell rest =>
      generalize hnodes : cell :: rest = nodes at *
      have hcount : nodes.length = rest.length + 1 := by rw [← hnodes, List.length_cons]
      have hnonempty : ptrsOf nodes ≠ [] := by simp [← hnodes, ptrsOf]
      have hheader := hrep.header hother
      rw [hcount] at hheader
      have hfirst := hring'.next_sentinel
      have hlast := hring'.prev_sentinel
      have hsentinels : (.sentinel list : Ptr) ≠ .sentinel other := fun heq =>
        hne (Ptr.sentinel.inj heq)
      have hnode : ∀ l (cs : List (Nat × V)), ∀ p ∈ ptrsOf cs, p ≠ .sentinel l :=
        fun l cs p hp heq => sentinel_notMem l cs (heq ▸ hp)
      have hkept : ∀ (f : Ptr → Option Ptr) (x : Option Ptr), ∀ p ∈ ptrsOf nodes,
          Function.update f (.sentinel list) x p = f p :=
        fun f x p hp => Function.update_of_ne (hnode _ _ p hp) _ _
      have hloose := Loose.of_ring hring' (sentinel_notMem list nodes)
        (hkept h.next (h.next (.sentinel other))) (hkept h.prev (h.prev (.sentinel other)))
        (Function.update_self ..) (Function.update_self ..)
      have hback := Heap.pointBack_eq (h := { h with
          next := Function.update h.next (.sentinel list) (h.next (.sentinel other))
          prev := Function.update h.prev (.sentinel list) (h.prev (.sentinel other))
          list := Function.update h.list list (some ⟨rest.length + 1, a⟩) }) hloose hnonempty
        (fun p hp => (congrArg Option.isSome (hkept _ _ p hp)).trans (hring'.isSome (.tail _ hp)).2)
        fun p hp => (congrArg Option.isSome (hkept _ _ p hp)).trans (hring'.isSome (.tail _ hp)).1
      rw [hfirst, hlast] at hback
      have hsteal := Heap.stealNodesFrom_eq (hrep.header hlist) hheader hfirst hlast hsomeNext
        hsomePrev hback
      have hapart : ∀ p ∈ .sentinel list :: ptrsOf nodes, p ≠ .sentinel other := by
        intro p hp
        rcases List.mem_cons.mp hp with rfl | hmem
        · exact hsentinels
        · exact hnode _ _ p hmem
      have hend : ∀ (f : Ptr → Option Ptr) (x y : Option Ptr), ∀ p ∈ .sentinel list :: ptrsOf nodes,
          Function.update (Function.update f (.sentinel list) x) p y (.sentinel other) =
            f (.sentinel other) := fun f x y p hp =>
        (Function.update_of_ne (hapart p hp).symm _ _).trans
          (Function.update_of_ne hsentinels.symm _ _)
      rw [Heap.resetEmpty_eq
          ((congrArg Option.isSome (hend _ _ _ _ (last_mem' _ _))).trans (by rw [hfirst]; rfl))
          ((congrArg Option.isSome (hend _ _ _ _ (first_mem' _ _))).trans (by rw [hlast]; rfl)),
        Option.bind_some, Heap.setSize_eq ((Function.update_of_ne hne.symm _ _).trans hheader)]
        at hsteal
      rw [hfirst, hlast] at hloose
      refine ⟨_, hsteal, hrep.exchange hne hlist hother rfl rfl rfl ?_ ?_ (Function.update_self ..)
        (hloose.close.frame (fun p hp => Function.update_of_ne (hapart p hp) _ _)
          fun p hp => Function.update_of_ne (hapart p hp) _ _)
        (.nil (Function.update_self ..) (Function.update_self ..))⟩
      · intro l hl hl'
        have hfar : ∀ p, σ.Into l p → ∀ p' ∈ .sentinel list :: ptrsOf nodes, p ≠ p' :=
          fun p hp p' hp' => hrep.far_ne hlist hother hl hl' hp (.inl hp')
        have hother' : ∀ p, σ.Into l p → p ≠ .sentinel other := fun p hp =>
          hrep.into_ne hp (.inl rfl) hl'
        refine ⟨(Function.update_of_ne hl' _ _).trans (Function.update_of_ne hl _ _),
          fun p hp => ?_, fun p hp => ?_, fun _ _ => rfl, fun _ _ => rfl⟩
        · exact ((Function.update_of_ne (hother' p hp) _ _).trans
            (Function.update_of_ne (hfar p hp _ (last_mem' _ _)) _ _)).trans
              (Function.update_of_ne (hfar p hp _ (.head _)) _ _)
        · exact ((Function.update_of_ne (hother' p hp) _ _).trans
            (Function.update_of_ne (hfar p hp _ (first_mem' _ _)) _ _)).trans
              (Function.update_of_ne (hfar p hp _ (.head _)) _ _)
      · rw [hcount]
        exact (Function.update_of_ne hne _ _).trans (Function.update_self ..)

end Represents

end MoreCpp.DsList
