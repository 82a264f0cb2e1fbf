import MoreCpp.Concurrency.TwoLockQueue.Model
import MoreCpp.Library.Mutex

/-!
The node-chain invariant of `con::threadsafe_queue`. From the first node a
linked segment of filled nodes leads to the dummy node `tail` points to. Who
holds `tail_mutex` says how far the dummy is filled, who holds `head_mutex`
whether the first node still hangs on `head` or on the local `old_head`, and
every node outside the segment belongs to exactly one thread.
-/

namespace MoreCpp.TwoLockQueue

open Library

variable {Tid Addr V : Type*}

namespace Pc

/-- Between `old_head = std::move(head)` and `head = std::move(old_head->next)`. -/
def Advancing : Pc Addr V → Bool
  | .popAdvance _ _ _ => true
  | _ => false

/-- What the node at `tail` holds, by the program point of the holder of `tail_mutex`. -/
def dummy : Pc Addr V → Node Addr V
  | .pushNext value _ => ⟨some value, none⟩
  | .pushTail value p => ⟨some value, some p⟩
  | _ => ⟨none, none⟩

/-- The value of a push that holds `tail_mutex` and has not moved `tail`. -/
def unpublished : Pc Addr V → List V
  | .pushData value _ | .pushNext value _ | .pushTail value _ => [value]
  | _ => []

/-- The node a `unique_ptr` local of the call owns. -/
def owns : Pc Addr V → Option Addr
  | .pushLock _ p | .pushData _ p | .pushNext _ p | .pushTail _ p => some p
  | .popUnlock _ oldHead _ _ | .popResult oldHead _ | .popFree oldHead _ _ => some oldHead
  | _ => none

/-- What a program point says about `head_mutex` and `head`. -/
def headView (p : Pc Addr V) : Bool × Bool := (p.HoldsHead, p.Advancing)

/-- What a program point says about `tail_mutex` and the dummy node. -/
def tailView (p : Pc Addr V) : Bool × Node Addr V × List V :=
  (p.HoldsTail, p.dummy, p.unpublished)

/-- What a call relies on at its program point. -/
def Knows (heap : Addr → Option (Node Addr V)) (popped : List (Nat × Option V))
    (first : Addr) (cells : List (Addr × V)) : Pc Addr V → Prop
  | .pushLock _ p | .pushData _ p | .pushNext _ p | .pushTail _ p =>
      heap p = some ⟨none, none⟩
  | .popTailUnlock _ tail empty | .popTest _ tail empty =>
      (empty = true → first = tail) ∧ (empty = false → first ≠ tail ∧ cells ≠ [])
  | .popTake _ => cells ≠ []
  | .popMove kind value =>
      cells ≠ [] ∧ (kind.into = true → value = cells.head?.map Prod.snd)
  | .popAdvance kind oldHead value =>
      oldHead = first ∧ cells ≠ [] ∧ (kind.into = true → value = cells.head?.map Prod.snd)
  | .popUnlock kind oldHead value ticket => ∃ v, heap oldHead = some ⟨some v, none⟩ ∧
      (ticket, some v) ∈ popped ∧ (kind.into = true → value = some v)
  | .popResult oldHead ticket => ∃ v, heap oldHead = some ⟨some v, none⟩ ∧
      (ticket, some v) ∈ popped
  | .popFree oldHead result ticket => ∃ v, heap oldHead = some ⟨some v, none⟩ ∧
      (ticket, some v) ∈ popped ∧ result = some v
  | .popEmpty empty | .popEmptyReturn empty => empty = true
  | _ => True

/-- Other threads may touch other nodes, append to the queue, and, while this
call does not hold `head_mutex`, pop from it. -/
theorem Knows.frame {heap heap' : Addr → Option (Node Addr V)}
    {popped popped' : List (Nat × Option V)} {first first' : Addr}
    {cells cells' : List (Addr × V)} {p : Pc Addr V} (h : p.Knows heap popped first cells)
    (hheap : ∀ a, p.owns = some a → heap' a = heap a)
    (hpopped : ∀ event ∈ popped, event ∈ popped')
    (hcells : p.HoldsHead = true → first' = first ∧ cells <+: cells') :
    p.Knows heap' popped' first' cells' := by
  have hnonempty : p.HoldsHead = true → cells ≠ [] → cells' ≠ [] := by
    intro hholds hne
    obtain ⟨rest, rfl⟩ := (hcells hholds).2
    simp [hne]
  have hfirst : p.HoldsHead = true → cells ≠ [] → cells'.head? = cells.head? := by
    intro hholds hne
    obtain ⟨rest, rfl⟩ := (hcells hholds).2
    rw [List.head?_append_of_ne_nil _ hne]
  cases p with
  | pushLock value p | pushData value p | pushNext value p | pushTail value p =>
      exact (hheap p rfl).trans h
  | popTailUnlock kind tail empty | popTest kind tail empty =>
      rw [Knows, (hcells rfl).1]
      exact ⟨h.1, fun hempty => ⟨(h.2 hempty).1, hnonempty rfl (h.2 hempty).2⟩⟩
  | popTake kind => exact hnonempty rfl h
  | popMove kind value =>
      exact ⟨hnonempty rfl h.1, fun hinto => (h.2 hinto).trans (by rw [hfirst rfl h.1])⟩
  | popAdvance kind oldHead value =>
      rw [Knows, (hcells rfl).1]
      exact ⟨h.1, hnonempty rfl h.2.1,
        fun hinto => (h.2.2 hinto).trans (by rw [hfirst rfl h.2.1])⟩
  | popUnlock kind oldHead value ticket =>
      obtain ⟨v, hnode, hmem, hvalue⟩ := h
      exact ⟨v, (hheap oldHead rfl).trans hnode, hpopped _ hmem, hvalue⟩
  | popResult oldHead ticket =>
      obtain ⟨v, hnode, hmem⟩ := h
      exact ⟨v, (hheap oldHead rfl).trans hnode, hpopped _ hmem⟩
  | popFree oldHead result ticket =>
      obtain ⟨v, hnode, hmem, hresult⟩ := h
      exact ⟨v, (hheap oldHead rfl).trans hnode, hpopped _ hmem, hresult⟩
  | popEmpty empty | popEmptyReturn empty => exact h
  | _ => trivial

/-- A node owned by a call is allocated. -/
theorem Knows.owned_live {heap : Addr → Option (Node Addr V)}
    {popped : List (Nat × Option V)} {first : Addr} {cells : List (Addr × V)}
    {p : Pc Addr V} (h : p.Knows heap popped first cells) {a : Addr} (ha : p.owns = some a) :
    heap a ≠ none := by
  cases p with
  | pushLock value p | pushData value p | pushNext value p | pushTail value p =>
      obtain rfl : p = a := Option.some.inj ha
      have hnode : heap p = some ⟨none, none⟩ := h
      simp [hnode]
  | popUnlock kind oldHead value ticket | popResult oldHead ticket
  | popFree oldHead result ticket =>
      obtain rfl : oldHead = a := Option.some.inj ha
      obtain ⟨v, hnode, _⟩ := h
      simp [hnode]
  | _ => simp [owns] at ha

end Pc

/-- The filled nodes as a segment: a node counts when it has data and a successor. -/
def link (heap : Addr → Option (Node Addr V)) (a : Addr) : Option (V × Addr) :=
  match heap a with
  | some ⟨some value, some next⟩ => some (value, next)
  | _ => none

theorem link_eq_some_iff {heap : Addr → Option (Node Addr V)} {a next : Addr} {value : V} :
    link heap a = some (value, next) ↔ heap a = some ⟨some value, some next⟩ := by
  cases hnode : heap a with
  | none => simp [link, hnode]
  | some node =>
      obtain ⟨data, successor⟩ := node
      cases data <;> cases successor <;> simp [link, hnode]

theorem link_congr {heap heap' : Addr → Option (Node Addr V)} {a : Addr}
    (h : heap' a = heap a) : link heap' a = link heap a := by
  unfold link
  rw [h]

/-- The addresses from the first node to the dummy. -/
def spine (cells : List (Addr × V)) (tail : Addr) : List Addr := cells.map Prod.fst ++ [tail]

/-- What `head_mutex` guards: `head` points to the first node, except while the
holder has moved it into `old_head`. -/
structure HeadGuarded (pc : Tid → Pc Addr V) (mutex : Option Tid) (head : Option Addr)
    (first : Addr) : Prop where
  held : HeldBy Pc.HoldsHead pc mutex
  value : head =
    underLock (fun p => if p.Advancing then none else some first) (some first) pc mutex

/-- What `tail_mutex` guards: the node at `tail`, and the end of the log of
pushed values, of which `linked` have been published. -/
structure TailGuarded (pc : Tid → Pc Addr V) (mutex : Option Tid)
    (node : Option (Node Addr V)) (linked : List (Option V)) (pushed : List V) : Prop where
  held : HeldBy Pc.HoldsTail pc mutex
  dummy : node = some (underLock Pc.dummy ⟨none, none⟩ pc mutex)
  pushed : linked ++ (underLock Pc.unpublished [] pc mutex).map some = pushed.map some

/-- A node a call owns is not in the queue and belongs to no other call. -/
structure Owned (pc : Tid → Pc Addr V) (queue : List Addr) : Prop where
  apart : ∀ t a, (pc t).owns = some a → a ∉ queue
  unique : ∀ t u a, (pc t).owns = some a → (pc u).owns = some a → u = t

structure Inv (s : State Tid Addr V) (first : Addr) (cells : List (Addr × V)) : Prop where
  head : HeadGuarded s.pc s.headMutex s.head first
  tail : TailGuarded s.pc s.tailMutex (s.heap s.tail)
    (s.popped.map Prod.snd ++ cells.map (some ∘ Prod.snd)) s.pushed
  segment : Segment (link s.heap) first cells s.tail
  nodup : (spine cells s.tail).Nodup
  owned : Owned s.pc (spine cells s.tail)
  knows : ∀ t, (s.pc t).Knows s.heap s.popped first cells
  published : s.published = s.popped.length + cells.length

section Parts

variable {pc : Tid → Pc Addr V} {mutex : Option Tid} {t : Tid} {p : Pc Addr V}

theorem HeadGuarded.value_of_holds {head : Option Addr} {first : Addr}
    (h : HeadGuarded pc mutex head first) (hholds : (pc t).HoldsHead = true) :
    head = if (pc t).Advancing then none else some first := by
  rw [h.value, h.held.holder hholds, underLock_some]

theorem TailGuarded.dummy_of_holds {node : Option (Node Addr V)} {linked : List (Option V)}
    {pushed : List V} (h : TailGuarded pc mutex node linked pushed)
    (hholds : (pc t).HoldsTail = true) : node = some (pc t).dummy := by
  rw [h.dummy, h.held.holder hholds, underLock_some]

variable [DecidableEq Tid]

namespace HeadGuarded

variable {head : Option Addr} {first : Addr}

theorem keep (h : HeadGuarded pc mutex head first) (hview : p.headView = (pc t).headView) :
    HeadGuarded (Function.update pc t p) mutex head first := by
  obtain ⟨hholds, hadvancing⟩ := Prod.mk.inj hview
  refine ⟨h.held.keep hholds, ?_⟩
  rw [underLock_update (by rw [hadvancing]), ← h.value]

theorem acquire (h : HeadGuarded pc none head first) (hview : p.headView = (true, false)) :
    HeadGuarded (Function.update pc t p) (some t) head first := by
  obtain ⟨hholds, hadvancing⟩ := Prod.mk.inj hview
  refine ⟨h.held.acquire hholds, ?_⟩
  rw [h.value, underLock_none, underLock_some, Function.update_self, hadvancing]
  rfl

theorem release (h : HeadGuarded pc mutex head first)
    (hview : (pc t).headView = (true, false)) (hout : p.HoldsHead = false) :
    HeadGuarded (Function.update pc t p) none head first := by
  obtain ⟨hholds, hadvancing⟩ := Prod.mk.inj hview
  refine ⟨h.held.release hholds hout, ?_⟩
  rw [h.value_of_holds hholds, hadvancing]
  rfl

/-- The holder sets `head`. -/
theorem store (h : HeadGuarded pc mutex head first) (hin : (pc t).HoldsHead = true)
    (hview : p.HoldsHead = true) {first' : Addr} :
    HeadGuarded (Function.update pc t p) mutex
      (if p.Advancing then none else some first') first' := by
  refine ⟨h.held.keep (hview.trans hin.symm), ?_⟩
  rw [h.held.holder hin, underLock_some, Function.update_self]

end HeadGuarded

namespace TailGuarded

variable {node : Option (Node Addr V)} {linked : List (Option V)} {pushed : List V}

theorem keep (h : TailGuarded pc mutex node linked pushed)
    (hview : p.tailView = (pc t).tailView) :
    TailGuarded (Function.update pc t p) mutex node linked pushed := by
  obtain ⟨hholds, hrest⟩ := Prod.mk.inj hview
  obtain ⟨hdummy, hunpublished⟩ := Prod.mk.inj hrest
  refine ⟨h.held.keep hholds, ?_, ?_⟩
  · rw [underLock_update hdummy, h.dummy]
  · rw [underLock_update hunpublished, h.pushed]

theorem acquire (h : TailGuarded pc none node linked pushed) {value : List V}
    (hview : p.tailView = (true, ⟨none, none⟩, value)) :
    TailGuarded (Function.update pc t p) (some t) node linked (pushed ++ value) := by
  obtain ⟨hholds, hrest⟩ := Prod.mk.inj hview
  obtain ⟨hdummy, hunpublished⟩ := Prod.mk.inj hrest
  have hpushed := h.pushed
  rw [underLock_none, List.map_nil, List.append_nil] at hpushed
  refine ⟨h.held.acquire hholds, ?_, ?_⟩
  · rw [h.dummy, underLock_none, underLock_some, Function.update_self, hdummy]
  · rw [underLock_some, Function.update_self, hunpublished, hpushed, List.map_append]

theorem release (h : TailGuarded pc mutex node linked pushed)
    (hview : (pc t).tailView = (true, ⟨none, none⟩, [])) (hout : p.HoldsTail = false) :
    TailGuarded (Function.update pc t p) none node linked pushed := by
  obtain ⟨hholds, hrest⟩ := Prod.mk.inj hview
  obtain ⟨hdummy, hunpublished⟩ := Prod.mk.inj hrest
  have hpushed := h.pushed
  rw [h.held.holder hholds, underLock_some, hunpublished] at hpushed
  refine ⟨h.held.release hholds hout, ?_, hpushed⟩
  rw [h.dummy_of_holds hholds, hdummy, underLock_none]

/-- The holder fills the dummy node, or moves on to a new one. -/
theorem store (h : TailGuarded pc mutex node linked pushed) (hin : (pc t).HoldsTail = true)
    (hview : p.HoldsTail = true) {linked' : List (Option V)}
    (hlinked : linked' ++ p.unpublished.map some =
      linked ++ (pc t).unpublished.map some) :
    TailGuarded (Function.update pc t p) mutex (some p.dummy) linked' pushed := by
  have hpushed := h.pushed
  rw [h.held.holder hin, underLock_some] at hpushed
  refine ⟨h.held.keep (hview.trans hin.symm), ?_, ?_⟩
  · rw [h.held.holder hin, underLock_some, Function.update_self]
  · rw [h.held.holder hin, underLock_some, Function.update_self, hlinked, hpushed]

end TailGuarded

namespace Owned

variable {queue : List Addr}

theorem keep (h : Owned pc queue) (howns : p.owns = (pc t).owns) :
    Owned (Function.update pc t p) queue := by
  have hsame : ∀ u, (Function.update pc t p u).owns = (pc u).owns := by
    intro u
    rcases eq_or_ne u t with rfl | hu
    · rw [Function.update_self, howns]
    · rw [Function.update_of_ne hu]
  constructor
  · intro u a hu
    exact h.apart u a ((hsame u).symm.trans hu)
  · intro u v a hu hv
    exact h.unique u v a ((hsame u).symm.trans hu) ((hsame v).symm.trans hv)

/-- The node a call owned goes away, or joins the queue. -/
theorem give (h : Owned pc queue) (howns : p.owns = none) {queue' : List Addr}
    (hqueue : ∀ a ∈ queue', a ∈ queue ∨ (pc t).owns = some a) :
    Owned (Function.update pc t p) queue' := by
  have hother : ∀ u a, (Function.update pc t p u).owns = some a →
      u ≠ t ∧ (pc u).owns = some a := by
    intro u a hu
    rcases eq_or_ne u t with rfl | hne
    · rw [Function.update_self, howns] at hu
      cases hu
    · rw [Function.update_of_ne hne] at hu
      exact ⟨hne, hu⟩
  constructor
  · intro u a hu hmem
    obtain ⟨hne, hown⟩ := hother u a hu
    rcases hqueue a hmem with hold | hgiven
    · exact h.apart u a hown hold
    · exact hne (h.unique t u a hgiven hown)
  · intro u v a hu hv
    exact h.unique u v a (hother u a hu).2 (hother v a hv).2

/-- A call gets a node that no other call owns. -/
theorem take (h : Owned pc queue) {a : Addr} (howns : p.owns = some a) {queue' : List Addr}
    (hqueue : ∀ b ∈ queue', b ∈ queue) (hnotMem : a ∉ queue')
    (hnobody : ∀ u, (pc u).owns ≠ some a) : Owned (Function.update pc t p) queue' := by
  have hcases : ∀ u b, (Function.update pc t p u).owns = some b →
      u = t ∧ b = a ∨ u ≠ t ∧ (pc u).owns = some b := by
    intro u b hu
    rcases eq_or_ne u t with rfl | hne
    · rw [Function.update_self, howns] at hu
      exact .inl ⟨rfl, (Option.some.inj hu).symm⟩
    · rw [Function.update_of_ne hne] at hu
      exact .inr ⟨hne, hu⟩
  constructor
  · intro u b hu
    rcases hcases u b hu with ⟨_, rfl⟩ | ⟨_, hown⟩
    · exact hnotMem
    · exact fun hmem => h.apart u b hown (hqueue b hmem)
  · intro u v b hu hv
    rcases hcases u b hu with ⟨rfl, rfl⟩ | ⟨_, hu'⟩ <;>
      rcases hcases v b hv with ⟨rfl, hb⟩ | ⟨_, hv'⟩
    · rfl
    · exact absurd hv' (hnobody v)
    · exact absurd (hb ▸ hu') (hnobody u)
    · exact h.unique u v b hu' hv'

end Owned

end Parts

theorem Inv.initial [DecidableEq Addr] (dummy : Addr) :
    Inv (State.initial Tid V dummy) dummy [] where
  head := ⟨.initial fun _ => rfl, rfl⟩
  tail := ⟨.initial fun _ => rfl, by simp [State.initial], rfl⟩
  segment := rfl
  nodup := List.nodup_singleton dummy
  owned := ⟨nofun, nofun⟩
  knows _ := trivial
  published := rfl

namespace Inv

variable {s : State Tid Addr V} {first : Addr} {cells : List (Addr × V)} {t : Tid}

/-- A non-empty queue starts with a filled node. -/
theorem first_cell (h : Inv s first cells) (hne : cells ≠ []) :
    ∃ value next rest, cells = (first, value) :: rest ∧
      s.heap first = some ⟨some value, some next⟩ ∧
      Segment (link s.heap) next rest s.tail := by
  have hsegment := h.segment
  cases cells with
  | nil => exact absurd rfl hne
  | cons cell rest =>
      obtain ⟨rfl, next, hlink, hrest⟩ := hsegment
      exact ⟨cell.2, next, rest, rfl, link_eq_some_iff.mp hlink, hrest⟩

theorem tail_notMem (h : Inv s first cells) : s.tail ∉ cells.map Prod.fst := by
  have hnodup := h.nodup
  rw [spine, List.nodup_append] at hnodup
  intro hmem
  exact hnodup.2.2 _ hmem _ (by simp) rfl

theorem first_eq_tail_iff (h : Inv s first cells) : first = s.tail ↔ cells = [] :=
  h.segment.start_eq_end_iff h.tail_notMem

/-- Every address of the queue is allocated. -/
theorem spine_live (h : Inv s first cells) {a : Addr} (ha : a ∈ spine cells s.tail) :
    s.heap a ≠ none := by
  rcases List.mem_append.mp ha with hcell | htail
  · obtain ⟨cell, hmem, rfl⟩ := List.mem_map.mp hcell
    obtain ⟨next, hlink⟩ := h.segment.link_of_mem hmem
    simp [link_eq_some_iff.mp hlink]
  · obtain rfl := List.mem_singleton.mp htail
    simp [h.tail.dummy]

variable [DecidableEq Tid] {p : Pc Addr V}

/-- The other calls still know what they relied on when `t` has moved on. -/
theorem knows_update (h : Inv s first cells) {heap : Addr → Option (Node Addr V)}
    {popped : List (Nat × Option V)} {first' : Addr} {cells' : List (Addr × V)}
    (hself : p.Knows heap popped first' cells')
    (hheap : ∀ u a, u ≠ t → (s.pc u).owns = some a → heap a = s.heap a)
    (hpopped : ∀ event ∈ s.popped, event ∈ popped)
    (hcells : ∀ u, u ≠ t → (s.pc u).HoldsHead = true → first' = first ∧ cells <+: cells')
    (u : Tid) : (Function.update s.pc t p u).Knows heap popped first' cells' := by
  rcases eq_or_ne u t with rfl | hu
  · rw [Function.update_self]
    exact hself
  · rw [Function.update_of_ne hu]
    exact (h.knows u).frame (hheap u · hu) hpopped (hcells u hu)

/-- As above, when only the program point of `t` changes. -/
theorem knows_goto (h : Inv s first cells) (hself : p.Knows s.heap s.popped first cells)
    (u : Tid) : (Function.update s.pc t p u).Knows s.heap s.popped first cells :=
  h.knows_update hself (fun _ _ _ _ => rfl) (fun _ hmem => hmem)
    (fun _ _ _ => ⟨rfl, List.prefix_refl cells⟩) u

/-- A step that changes nothing but the program point of its thread. -/
theorem goto (h : Inv s first cells) (hhead : p.headView = (s.pc t).headView)
    (htail : p.tailView = (s.pc t).tailView) (howns : p.owns = (s.pc t).owns)
    (hknows : p.Knows s.heap s.popped first cells) : Inv (s.goto t p) first cells where
  head := h.head.keep hhead
  tail := h.tail.keep htail
  segment := h.segment
  nodup := h.nodup
  owned := h.owned.keep howns
  knows := h.knows_goto hknows
  published := h.published

theorem lockHead (h : Inv s first cells) (hfree : s.headMutex = none)
    (hhead : p.headView = (true, false)) (htail : p.tailView = (s.pc t).tailView)
    (howns : p.owns = (s.pc t).owns) (hknows : p.Knows s.heap s.popped first cells) :
    Inv ((s.lockHead t).goto t p) first cells where
  head := (hfree ▸ h.head).acquire hhead
  tail := h.tail.keep htail
  segment := h.segment
  nodup := h.nodup
  owned := h.owned.keep howns
  knows := h.knows_goto hknows
  published := h.published

theorem unlockHead (h : Inv s first cells) (hhead : (s.pc t).headView = (true, false))
    (hout : p.HoldsHead = false) (htail : p.tailView = (s.pc t).tailView)
    (howns : p.owns = (s.pc t).owns) (hknows : p.Knows s.heap s.popped first cells) :
    Inv (s.unlockHead.goto t p) first cells where
  head := h.head.release hhead hout
  tail := h.tail.keep htail
  segment := h.segment
  nodup := h.nodup
  owned := h.owned.keep howns
  knows := h.knows_goto hknows
  published := h.published

/-- Acquiring `tail_mutex`, to push `value` or to read `tail`. -/
theorem lockTail (h : Inv s first cells) (hfree : s.tailMutex = none) (value : List V)
    (hhead : p.headView = (s.pc t).headView)
    (htail : p.tailView = (true, ⟨none, none⟩, value)) (howns : p.owns = (s.pc t).owns)
    (hknows : p.Knows s.heap s.popped first cells) :
    Inv ({ s.lockTail t with pushed := s.pushed ++ value }.goto t p) first cells where
  head := h.head.keep hhead
  tail := (hfree ▸ h.tail).acquire htail
  segment := h.segment
  nodup := h.nodup
  owned := h.owned.keep howns
  knows := h.knows_goto hknows
  published := h.published

theorem unlockTail (h : Inv s first cells) (hhead : p.headView = (s.pc t).headView)
    (htail : (s.pc t).tailView = (true, ⟨none, none⟩, [])) (hout : p.HoldsTail = false)
    (howns : p.owns = (s.pc t).owns) (hknows : p.Knows s.heap s.popped first cells) :
    Inv (s.unlockTail.goto t p) first cells where
  head := h.head.keep hhead
  tail := h.tail.release htail hout
  segment := h.segment
  nodup := h.nodup
  owned := h.owned.keep howns
  knows := h.knows_goto hknows
  published := h.published

/-- `tail` moves on to the new node, and the old dummy becomes a filled node. -/
theorem pushTail (h : Inv s first cells) {value : V} {addr : Addr}
    (hpc : s.pc t = .pushTail value addr) :
    Inv ({ s with tail := addr, published := s.published + 1 }.goto t .pushUnlock) first
      (cells ++ [(s.tail, value)]) := by
  have hin : (s.pc t).HoldsTail = true := by rw [hpc]; rfl
  have hown : (s.pc t).owns = some addr := by rw [hpc]; rfl
  have hdummy := h.tail.dummy_of_holds hin
  rw [hpc] at hdummy
  have hnew := h.knows t
  rw [hpc] at hnew
  have hspine : spine (cells ++ [(s.tail, value)]) addr = spine cells s.tail ++ [addr] := by
    simp [spine]
  exact {
    head := h.head.keep (by rw [hpc]; rfl)
    tail := by
      have hfresh : s.heap addr = some ⟨none, none⟩ := hnew
      change TailGuarded _ _ (s.heap addr) _ _
      rw [hfresh]
      exact h.tail.store (p := .pushUnlock) hin rfl (by simp [hpc, Pc.unpublished])
    segment := h.segment.snoc (link_eq_some_iff.mpr hdummy)
    nodup := by
      change (spine _ addr).Nodup
      rw [hspine]
      exact h.nodup.append (List.nodup_singleton addr)
        (by simpa using h.owned.apart t addr hown)
    owned := by
      have hqueue : ∀ a ∈ spine (cells ++ [(s.tail, value)]) addr,
          a ∈ spine cells s.tail ∨ (s.pc t).owns = some a := by
        intro a hmem
        rw [hspine, List.mem_append, List.mem_singleton] at hmem
        rcases hmem with hold | rfl
        · exact .inl hold
        · exact .inr hown
      exact h.owned.give rfl hqueue
    knows := h.knows_update trivial (fun _ _ _ _ => rfl) (fun _ hmem => hmem)
      (fun _ _ _ => ⟨rfl, List.prefix_append cells _⟩)
    published := by
      change s.published + 1 = _
      rw [h.published, List.length_append]
      rfl }

/-- `old_head = std::move(head)`. -/
theorem popMove (h : Inv s first cells) {kind : PopKind} {value : Option V} {addr : Addr}
    (hpc : s.pc t = .popMove kind value) (hhead : s.head = some addr) :
    Inv ({ s with head := none }.goto t (.popAdvance kind addr value)) first cells := by
  have hin : (s.pc t).HoldsHead = true := by rw [hpc]; rfl
  have hfirst : addr = first := by
    have hvalue := h.head.value_of_holds hin
    rw [hpc, hhead] at hvalue
    exact Option.some.inj hvalue
  have hself := h.knows t
  rw [hpc] at hself
  exact {
    head := h.head.store (p := .popAdvance kind addr value) hin rfl
    tail := h.tail.keep (by rw [hpc]; rfl)
    segment := h.segment
    nodup := h.nodup
    owned := h.owned.keep (by rw [hpc]; rfl)
    knows := h.knows_goto ⟨hfirst, hself⟩
    published := h.published }

variable [DecidableEq Addr]

/-- `new node` at an address nobody uses. -/
theorem pushNew (h : Inv s first cells) {value : V} {addr : Addr}
    (hpc : s.pc t = .pushNew value) (hfree : s.heap addr = none) :
    Inv ((s.store addr (some ⟨none, none⟩)).goto t (.pushLock value addr)) first cells := by
  have hother : ∀ a, s.heap a ≠ none →
      (s.store addr (some ⟨none, none⟩)).heap a = s.heap a := by
    intro a ha
    refine Function.update_of_ne ?_ _ _
    rintro rfl
    exact ha hfree
  have hcell : ∀ cell ∈ cells, (s.store addr (some ⟨none, none⟩)).heap cell.1 =
      s.heap cell.1 := by
    intro cell hmem
    exact hother _ (h.spine_live (List.mem_append_left _ (List.mem_map_of_mem hmem)))
  have htail : (s.store addr (some ⟨none, none⟩)).heap s.tail = s.heap s.tail :=
    hother _ (h.spine_live (by simp [spine]))
  exact {
    head := h.head.keep (by rw [hpc]; rfl)
    tail := htail ▸ h.tail.keep (by rw [hpc]; rfl)
    segment := h.segment.frame fun cell hmem => link_congr (hcell cell hmem)
    nodup := h.nodup
    owned := h.owned.take rfl (fun _ hmem => hmem)
      (fun hmem => h.spine_live hmem hfree) (fun u hu => (h.knows u).owned_live hu hfree)
    knows := h.knows_update (by simp [Pc.Knows])
      (fun u a _ hu => hother a ((h.knows u).owned_live hu)) (fun _ hmem => hmem)
      (fun _ _ _ => ⟨rfl, List.prefix_refl cells⟩)
    published := h.published }

/-- The holder of `tail_mutex` writes to the dummy node. -/
theorem writeDummy (h : Inv s first cells) (hin : (s.pc t).HoldsTail = true)
    (hholds : p.HoldsTail = true) (hunpublished : p.unpublished = (s.pc t).unpublished)
    (hhead : p.headView = (s.pc t).headView) {a : Addr} (howns : (s.pc t).owns = some a)
    (howns' : p.owns = some a)
    (hknows : ∀ heap : Addr → Option (Node Addr V), heap a = s.heap a →
      p.Knows heap s.popped first cells) :
    Inv ((s.store s.tail (some p.dummy)).goto t p) first cells := by
  have hother : ∀ a, a ≠ s.tail →
      (s.store s.tail (some p.dummy)).heap a = s.heap a :=
    fun a ha => Function.update_of_ne ha _ _
  have howned : ∀ u a, (s.pc u).owns = some a →
      (s.store s.tail (some p.dummy)).heap a = s.heap a := by
    intro u a hu
    exact hother a fun ha => h.owned.apart u a hu (by simp [spine, ha])
  exact {
    head := h.head.keep hhead
    tail := by
      have hself : (s.store s.tail (some p.dummy)).heap s.tail = some p.dummy :=
        Function.update_self _ _ _
      change TailGuarded _ _ ((s.store s.tail (some p.dummy)).heap s.tail) _ _
      rw [hself]
      exact h.tail.store hin hholds (by rw [hunpublished]; rfl)
    segment := h.segment.frame fun cell hmem => by
      have hne : cell.1 ≠ s.tail := by
        rintro htail
        exact h.tail_notMem (htail ▸ List.mem_map_of_mem hmem)
      exact link_congr (hother cell.1 hne)
    nodup := h.nodup
    owned := h.owned.keep (howns'.trans howns.symm)
    knows := h.knows_update (hknows _ (howned t a howns)) (fun u a _ hu => howned u a hu)
      (fun _ hmem => hmem) (fun _ _ _ => ⟨rfl, List.prefix_refl cells⟩)
    published := h.published }

/-- `head = std::move(old_head->next)` takes the first node out of the queue. -/
theorem popAdvance (h : Inv s first cells) {kind : PopKind} {oldHead : Addr}
    {value : Option V} {node : Node Addr V} (hpc : s.pc t = .popAdvance kind oldHead value)
    (hnode : s.heap oldHead = some node) :
    ∃ first' cells', Inv ({ s.store oldHead (some { node with next := none }) with
        head := node.next
        popped := s.popped ++ [(s.headAcquired, node.data)] }.goto t
      (.popUnlock kind oldHead value s.headAcquired)) first' cells' := by
  have hin : (s.pc t).HoldsHead = true := by rw [hpc]; rfl
  have hself := h.knows t
  rw [hpc] at hself
  obtain ⟨rfl, hne, hvalue⟩ := hself
  obtain ⟨v, next, rest, rfl, hfirst, hrest⟩ := h.first_cell hne
  obtain rfl : node = ⟨some v, some next⟩ := Option.some.inj (hnode.symm.trans hfirst)
  have hnodup := h.nodup
  rw [spine, List.map_cons, List.cons_append, List.nodup_cons] at hnodup
  have hother : ∀ a, a ≠ oldHead →
      (s.store oldHead (some ⟨some v, none⟩)).heap a = s.heap a :=
    fun a ha => Function.update_of_ne ha _ _
  have hspine : ∀ a ∈ spine rest s.tail,
      (s.store oldHead (some ⟨some v, none⟩)).heap a = s.heap a :=
    fun a hmem => hother a fun ha => hnodup.1 (ha ▸ hmem)
  refine ⟨next, rest, {
    head := h.head.store (p := .popUnlock kind oldHead value s.headAcquired) hin rfl
    tail := ?guarded
    segment := ?segment
    nodup := hnodup.2
    owned := ?owned
    knows := ?knows
    published := ?published }⟩
  case guarded =>
    change TailGuarded _ _ ((s.store oldHead (some ⟨some v, none⟩)).heap s.tail) _ _
    rw [hspine s.tail (by simp [spine])]
    have hlinked : (s.popped ++ [(s.headAcquired, some v)]).map Prod.snd ++
        rest.map (some ∘ Prod.snd) =
          s.popped.map Prod.snd ++ ((oldHead, v) :: rest).map (some ∘ Prod.snd) := by
      simp
    change TailGuarded _ _ _ ((s.popped ++ [(s.headAcquired, some v)]).map Prod.snd ++ _) _
    rw [hlinked]
    exact h.tail.keep (by rw [hpc]; rfl)
  case segment =>
    exact hrest.frame fun cell hmem =>
      link_congr (hspine cell.1 (List.mem_append_left _ (List.mem_map_of_mem hmem)))
  case owned =>
    refine h.owned.take rfl (fun b hmem => List.mem_cons_of_mem _ hmem) hnodup.1 ?_
    exact fun u hu => h.owned.apart u oldHead hu (by simp [spine])
  case knows =>
    refine h.knows_update ⟨v, Function.update_self _ _ _, by simp, by simpa using hvalue⟩
      ?_ (fun event hmem => List.mem_append_left _ hmem) ?_
    · intro u a _ hu
      exact hother a fun ha => h.owned.apart u a hu (by simp [spine, ha])
    · intro u hu hholds
      exact absurd (h.head.held.exclusive hin hholds) hu
  case published =>
    change s.published = (s.popped ++ _).length + _
    rw [h.published, List.length_append, List.length_cons, List.length_singleton]
    omega

/-- The destructor of `old_head`. -/
theorem popFree (h : Inv s first cells) {oldHead : Addr} {result : Option V} {ticket : Nat}
    (hpc : s.pc t = .popFree oldHead result ticket) :
    Inv ({ s.store oldHead none with
      delivered := s.delivered ++ [(ticket, result)] }.goto t .idle) first cells := by
  have hown : (s.pc t).owns = some oldHead := by rw [hpc]; rfl
  have hapart := h.owned.apart t oldHead hown
  have hspine : ∀ a ∈ spine cells s.tail, (s.store oldHead none).heap a = s.heap a := by
    intro a hmem
    refine Function.update_of_ne ?_ _ _
    rintro rfl
    exact hapart hmem
  refine {
    head := h.head.keep (by rw [hpc]; rfl)
    tail := ?guarded
    segment := ?segment
    nodup := h.nodup
    owned := h.owned.give rfl fun a hmem => .inl hmem
    knows := ?knows
    published := h.published }
  case guarded =>
    change TailGuarded _ _ ((s.store oldHead none).heap s.tail) _ _
    rw [hspine s.tail (by simp [spine])]
    exact h.tail.keep (by rw [hpc]; rfl)
  case segment =>
    exact h.segment.frame fun cell hmem =>
      link_congr (hspine cell.1 (List.mem_append_left _ (List.mem_map_of_mem hmem)))
  case knows =>
    refine h.knows_update trivial ?_ (fun _ hmem => hmem)
      (fun _ _ _ => ⟨rfl, List.prefix_refl cells⟩)
    intro u a hne hu
    refine Function.update_of_ne ?_ _ _
    rintro rfl
    exact hne (h.owned.unique t u a hown hu)

omit [DecidableEq Tid] [DecidableEq Addr] in
/-- The test compares `head` with the `tail` read before, and comes out as it
would have at the time of the read. -/
theorem test_iff (h : Inv s first cells) {kind : PopKind} {tail : Addr} {empty : Bool}
    (hpc : s.pc t = .popTest kind tail empty) : s.head = some tail ↔ empty = true := by
  have hhead := h.head.value_of_holds (t := t) (by rw [hpc]; rfl)
  have hself := h.knows t
  rw [hpc] at hhead hself
  have hfirst : s.head = some first := hhead
  rw [hfirst, Option.some.injEq]
  cases empty with
  | true => exact ⟨fun _ => rfl, fun _ => hself.1 rfl⟩
  | false => exact ⟨fun heq => absurd heq (hself.2 rfl).1, nofun⟩

theorem step (h : Inv s first cells) {s' : State Tid Addr V} (hstep : Step s t s') :
    ∃ first' cells', Inv s' first' cells' := by
  cases hstep with
  | callPush value hpc | callPop kind hpc | pushThrow hpc | notifyNobody hpc
  | popWakeSpuriously hpc =>
      exact ⟨first, cells, h.goto (by rw [hpc]; rfl) (by rw [hpc]; rfl) (by rw [hpc]; rfl)
        trivial⟩
  | popEmptyReturn hpc =>
      have hnext : Inv (s.goto t .idle) first cells :=
        h.goto (by rw [hpc]; rfl) (by rw [hpc]; rfl) (by rw [hpc]; rfl) trivial
      exact ⟨first, cells, { hnext with }⟩
  | pushNew addr hpc hfree => exact ⟨first, cells, h.pushNew hpc hfree⟩
  | @pushLock value p hpc hmutex =>
      have hself := h.knows t
      rw [hpc] at hself
      exact ⟨first, cells, h.lockTail hmutex [value] (by rw [hpc]; rfl) rfl (by rw [hpc]; rfl)
        hself⟩
  | @pushData value p node hpc hnode =>
      have hin : (s.pc t).HoldsTail = true := by rw [hpc]; rfl
      have hdummy := h.tail.dummy_of_holds hin
      rw [hpc, hnode] at hdummy
      obtain rfl : node = ⟨none, none⟩ := Option.some.inj hdummy
      have hself := h.knows t
      rw [hpc] at hself
      exact ⟨first, cells, h.writeDummy (p := .pushNext value p) hin rfl (by rw [hpc]; rfl)
        (by rw [hpc]; rfl) (by rw [hpc]; rfl) rfl fun heap hheap => hheap.trans hself⟩
  | @pushNext value p node hpc hnode =>
      have hin : (s.pc t).HoldsTail = true := by rw [hpc]; rfl
      have hdummy := h.tail.dummy_of_holds hin
      rw [hpc, hnode] at hdummy
      obtain rfl : node = ⟨some value, none⟩ := Option.some.inj hdummy
      have hself := h.knows t
      rw [hpc] at hself
      exact ⟨first, cells, h.writeDummy (p := .pushTail value p) hin rfl (by rw [hpc]; rfl)
        (by rw [hpc]; rfl) (by rw [hpc]; rfl) rfl fun heap hheap => hheap.trans hself⟩
  | @pushTail value p hpc => exact ⟨first, _, h.pushTail hpc⟩
  | pushUnlock hpc =>
      exact ⟨first, cells, h.unlockTail (by rw [hpc]; rfl) (by rw [hpc]; rfl) rfl
        (by rw [hpc]; rfl) trivial⟩
  | @notifyOne u kind hpc hblocked =>
      have hwoken := h.goto (t := u) (p := .popLock kind) (by rw [hblocked]; rfl)
        (by rw [hblocked]; rfl) (by rw [hblocked]; rfl) trivial
      have hne : t ≠ u := by
        rintro rfl
        rw [hpc] at hblocked
        cases hblocked
      have hpc' : (s.goto u (.popLock kind)).pc t = .pushNotify :=
        (Function.update_of_ne hne _ _).trans hpc
      exact ⟨first, cells, hwoken.goto (by rw [hpc']; rfl) (by rw [hpc']; rfl)
        (by rw [hpc']; rfl) trivial⟩
  | popLock hpc hmutex =>
      exact ⟨first, cells, h.lockHead hmutex rfl (by rw [hpc]; rfl) (by rw [hpc]; rfl) trivial⟩
  | @popTailLock kind hpc hmutex =>
      have hnext := h.lockTail (p := .popReadTail kind) hmutex []
        (by rw [hpc]; rfl) rfl (by rw [hpc]; rfl) trivial
      rw [List.append_nil] at hnext
      exact ⟨first, cells, hnext⟩
  | popReadTail hpc =>
      have hempty : s.published = s.popped.length ↔ cells = [] := by
        rw [h.published, ← List.length_eq_zero_iff]
        omega
      refine ⟨first, cells, h.goto (by rw [hpc]; rfl) (by rw [hpc]; rfl) (by rw [hpc]; rfl) ?_⟩
      constructor
      · intro htrue
        exact h.first_eq_tail_iff.mpr (hempty.mp (of_decide_eq_true htrue))
      · intro hfalse
        have hne : cells ≠ [] := fun hnil => of_decide_eq_false hfalse (hempty.mpr hnil)
        exact ⟨fun hfirst => hne (h.first_eq_tail_iff.mp hfirst), hne⟩
  | popTailUnlock hpc =>
      have hself := h.knows t
      rw [hpc] at hself
      exact ⟨first, cells, h.unlockTail (by rw [hpc]; rfl) (by rw [hpc]; rfl) rfl
        (by rw [hpc]; rfl) hself⟩
  | @popTestEqual kind tail empty hpc hequal =>
      have hempty := (h.test_iff hpc).mp hequal
      cases hwaits : kind.waits with
      | true =>
          exact ⟨first, cells, h.goto (by rw [hpc]; rfl) (by rw [hpc]; rfl) (by rw [hpc]; rfl)
            trivial⟩
      | false =>
          exact ⟨first, cells, h.goto (by rw [hpc]; rfl) (by rw [hpc]; rfl) (by rw [hpc]; rfl)
            hempty⟩
  | @popTestDiffer kind tail empty hpc hdiffer =>
      have hself := h.knows t
      rw [hpc] at hself
      have hfalse : empty = false := by
        cases empty with
        | true => exact absurd ((h.test_iff hpc).mpr rfl) hdiffer
        | false => rfl
      have hne := (hself.2 hfalse).2
      cases hinto : kind.into with
      | true =>
          exact ⟨first, cells, h.goto (by rw [hpc]; rfl) (by rw [hpc]; rfl) (by rw [hpc]; rfl)
            hne⟩
      | false =>
          exact ⟨first, cells, h.goto (by rw [hpc]; rfl) (by rw [hpc]; rfl) (by rw [hpc]; rfl)
            ⟨hne, by simp [hinto]⟩⟩
  | popWait hpc =>
      exact ⟨first, cells, h.unlockHead (by rw [hpc]; rfl) rfl (by rw [hpc]; rfl)
        (by rw [hpc]; rfl) trivial⟩
  | @popTake kind addr node value hpc hhead hnode hdata =>
      have hself := h.knows t
      rw [hpc] at hself
      have hfirst := h.head.value_of_holds (t := t) (by rw [hpc]; rfl)
      rw [hpc, hhead] at hfirst
      obtain rfl : addr = first := Option.some.inj hfirst
      obtain ⟨v, next, rest, rfl, hcell, -⟩ := h.first_cell hself
      obtain rfl : node = ⟨some v, some next⟩ := Option.some.inj (hnode.symm.trans hcell)
      exact ⟨addr, _, h.goto (by rw [hpc]; rfl) (by rw [hpc]; rfl) (by rw [hpc]; rfl)
        ⟨hself, fun _ => hdata.symm⟩⟩
  | popMove hpc hhead => exact ⟨first, cells, h.popMove hpc hhead⟩
  | popAdvance hpc hnode => exact h.popAdvance hpc hnode
  | @popUnlock kind oldHead value ticket hpc =>
      have hself := h.knows t
      rw [hpc] at hself
      obtain ⟨v, hnode, hmem, hvalue⟩ := hself
      cases hinto : kind.into with
      | true =>
          exact ⟨first, cells, h.unlockHead (by rw [hpc]; rfl) rfl (by rw [hpc]; rfl)
            (by rw [hpc]; rfl) ⟨v, hnode, hmem, hvalue hinto⟩⟩
      | false =>
          exact ⟨first, cells, h.unlockHead (by rw [hpc]; rfl) rfl (by rw [hpc]; rfl)
            (by rw [hpc]; rfl) ⟨v, hnode, hmem⟩⟩
  | @popResult oldHead ticket node hpc hnode =>
      have hself := h.knows t
      rw [hpc] at hself
      obtain ⟨v, hold, hmem⟩ := hself
      obtain rfl : node = ⟨some v, none⟩ := Option.some.inj (hnode.symm.trans hold)
      exact ⟨first, cells, h.goto (by rw [hpc]; rfl) (by rw [hpc]; rfl) (by rw [hpc]; rfl)
        ⟨v, hold, hmem, rfl⟩⟩
  | popFree hpc _ => exact ⟨first, cells, h.popFree hpc⟩
  | popEmpty hpc =>
      have hself := h.knows t
      rw [hpc] at hself
      exact ⟨first, cells, h.unlockHead (by rw [hpc]; rfl) rfl (by rw [hpc]; rfl)
        (by rw [hpc]; rfl) hself⟩

end Inv

end MoreCpp.TwoLockQueue
