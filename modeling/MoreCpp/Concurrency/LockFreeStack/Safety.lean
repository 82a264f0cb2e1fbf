import MoreCpp.Concurrency.LockFreeStack.Linearizability

/-!
What the two invariants say about every reachable state: memory reclamation,
linearizability, and how large the counters can get.
-/

namespace MoreCpp.LockFreeStack

open Library

variable {Tid Addr V : Type*}

/-- The node `ref` meant when it was obtained is still allocated. -/
def State.Live (s : State Tid Addr V) (ref : NodeRef Addr) : Prop :=
  ∃ node, s.heap ref.addr = some node ∧ node.birth = ref.birth

variable [Fintype Tid] [DecidableEq Tid] [DecidableEq Addr]

theorem reachable_inv {s : State Tid Addr V} (hs : (system Tid Addr V).Reachable s) :
    ∃ chain phase, Inv s chain phase := by
  refine System.reachable_invariant _ (fun s => ∃ chain phase, Inv s chain phase) ?_ ?_ s hs
  · rintro s rfl
    exact ⟨[], _, Inv.initial⟩
  · rintro s t s' _ ⟨chain, phase, h⟩ hstep
    exact h.step hstep

theorem reachable_effects {s : State Tid Addr V} (hs : (system Tid Addr V).Reachable s) :
    Effects s := by
  refine System.reachable_invariant _ Effects ?_ ?_ s hs
  · rintro s rfl
    exact Effects.initial
  · intro s t s' hreach e hstep
    obtain ⟨chain, phase, h⟩ := reachable_inv hreach
    exact e.step h hstep

omit [Fintype Tid] in
/-- A step changes no node but the one its call touches, and makes a node only
at an address that has none. -/
theorem step_heap {s s' : State Tid Addr V} {t : Tid} (hstep : Step s t s') (a : Addr)
    (hchange : s'.heap a ≠ s.heap a) :
    s.heap a = none ∨ ∃ ref, (s.pc t).touches = some ref ∧ ref.addr = a := by
  cases hstep with
  | emplaceNew addr hpc hfree =>
      by_cases ha : a = addr
      · exact .inl (ha ▸ hfree)
      · simp [ha] at hchange
  | emplaceLoad hpc hnode | emplaceCasFail hpc hnode | popSwap hpc hnode
  | popTransfer hpc hnode | popRelease hpc hnode | popDelete hpc hnode
  | popRetryDelete hpc hnode =>
      refine .inr ⟨_, by rw [hpc]; rfl, ?_⟩
      by_contra ha
      simp [Ne.symm ha] at hchange
  | _ => simp at hchange

/-- No call ever waits for memory: the node it is about to access is there, so
every thread inside a call has a next step. -/
theorem never_stuck {s : State Tid Addr V} (hs : (system Tid Addr V).Reachable s) (t : Tid)
    (hbusy : s.pc t ≠ .idle) : ∃ s', Step s t s' := by
  obtain ⟨chain, phase, h⟩ := reachable_inv hs
  have hlive := h.live t
  cases hpc : s.pc t with
  | idle => exact absurd hpc hbusy
  | emplaceNew value => exact ⟨_, .emplaceThrow hpc⟩
  | emplaceLoad ref value =>
      obtain ⟨node, hnode, -⟩ := hlive ref (by rw [hpc]; rfl)
      exact ⟨_, .emplaceLoad hpc hnode⟩
  | emplaceCas ref value =>
      obtain ⟨node, hnode, -⟩ := hlive ref (by rw [hpc]; rfl)
      exact ⟨_, .emplaceCasFail hpc hnode⟩
  | emplaceReturn => exact ⟨_, .emplaceReturn hpc⟩
  | popLoad => exact ⟨_, .popLoad hpc⟩
  | popIncrease oldHead =>
      cases hptr : oldHead.ptr with
      | none => exact ⟨_, .popEmpty hpc hptr⟩
      | some addr =>
          by_cases hequal : s.head = oldHead
          · exact ⟨_, .popIncrease hpc hptr hequal⟩
          · exact ⟨_, .popIncreaseFail hpc hptr hequal⟩
  | popNext count ref =>
      obtain ⟨node, hnode, -⟩ := hlive ref (by rw [hpc]; rfl)
      exact ⟨_, .popNext hpc hnode⟩
  | popCas count ref next =>
      by_cases hequal : s.head = ⟨count, some ref.addr⟩
      · exact ⟨_, .popCas hpc hequal⟩
      · exact ⟨_, .popCasFail hpc hequal⟩
  | popSwap count ref =>
      obtain ⟨node, hnode, -⟩ := hlive ref (by rw [hpc]; rfl)
      exact ⟨_, .popSwap hpc hnode⟩
  | popTransfer count ref result =>
      obtain ⟨node, hnode, -⟩ := hlive ref (by rw [hpc]; rfl)
      exact ⟨_, .popTransfer hpc hnode⟩
  | popDelete ref result =>
      obtain ⟨node, hnode, -⟩ := hlive ref (by rw [hpc]; rfl)
      exact ⟨_, .popDelete hpc (by simp [hnode])⟩
  | popReturn result => exact ⟨_, .popReturn hpc⟩
  | popRelease ref oldHead =>
      obtain ⟨node, hnode, -⟩ := hlive ref (by rw [hpc]; rfl)
      exact ⟨_, .popRelease hpc hnode⟩
  | popFence ref oldHead =>
      obtain ⟨node, hnode, -⟩ := hlive ref (by rw [hpc]; rfl)
      exact ⟨_, .popFence hpc (by simp [hnode])⟩
  | popRetryDelete ref oldHead =>
      obtain ⟨node, hnode, -⟩ := hlive ref (by rw [hpc]; rfl)
      exact ⟨_, .popRetryDelete hpc (by simp [hnode])⟩

omit [Fintype Tid] [DecidableEq Tid] [DecidableEq Addr] in
/-- One thread pushes 7 and returns, then another pops it and deletes the node. -/
theorem pushPop_reachable : ∃ s : State Bool Nat Nat,
    (system Bool Nat Nat).Reachable s ∧ (∀ t, s.pc t = .idle) ∧
      s.unlinked = [0] ∧ s.returned = [(0, .pushed), (1, .popped (some 7))] := by
  have start : (system Bool Nat Nat).Reachable (State.initial Bool Nat Nat) := .start rfl
  have called := start.next (.callEmplace (t := false) 7 rfl)
  have allocated := called.next (.emplaceNew (t := false) 0 rfl rfl)
  have loaded := allocated.next (.emplaceLoad (t := false) rfl rfl)
  have linked := loaded.next (.emplaceCas (t := false) rfl rfl rfl)
  have pushed := linked.next (.emplaceReturn (t := false) rfl)
  have popping := pushed.next (.callPop (t := true) rfl)
  have observed := popping.next (.popLoad (t := true) rfl)
  have reserved := observed.next (.popIncrease (t := true) rfl rfl rfl)
  have read := reserved.next (.popNext (t := true) rfl rfl)
  have unlinked := read.next (.popCas (t := true) rfl rfl)
  have swapped := unlinked.next (.popSwap (t := true) rfl rfl)
  have transferred := swapped.next (.popTransfer (t := true) rfl rfl)
  have deleted := transferred.next (.popDelete (t := true) rfl nofun)
  have finished := deleted.next (.popReturn (t := true) rfl)
  exact ⟨_, finished, fun t => by cases t <;> rfl, rfl, rfl⟩

/-- Reference counting is safe and complete. Whatever the interleaving, a call
only touches nodes that have not been deleted; a node about to be deleted has
been unlinked, has not been deleted before and carries no reservation; and
once no call is in progress every unlinked node has been deleted. -/
theorem reclamation (s : State Tid Addr V) (hs : (system Tid Addr V).Reachable s) :
    (∀ t ref, (s.pc t).touches = some ref → s.Live ref) ∧
    (∀ t ref, (s.pc t).deletes = some ref →
      ref.birth ∈ s.unlinked ∧ ref.birth ∉ s.deleted ∧
        ∀ u, (s.pc u).reserves ≠ some ref.addr) ∧
    s.deleted.Nodup ∧
    (∀ birth ∈ s.deleted, birth ∈ s.unlinked) ∧
    ((∀ t, s.pc t = .idle) → ∀ birth ∈ s.unlinked, birth ∈ s.deleted) := by
  obtain ⟨chain, phase, h⟩ := reachable_inv hs
  refine ⟨h.live, ?_, h.deleted_nodup, fun b hb => (h.unlinked_iff b).mpr (.inl hb), ?_⟩
  · intro t ref hdeletes
    have htouches : (s.pc t).touches = some ref := by
      cases hpc : s.pc t <;> simp_all [Pc.deletes, Pc.touches]
    have howns : (s.pc t).owns = some (ref.addr, .doomed) := by
      cases hpc : s.pc t <;> simp_all [Pc.deletes, Pc.owns]
    have hdoomed : phase ref.addr = .owned t .doomed := (h.owner t _ _).mp howns
    obtain ⟨node, hnode, hbirth⟩ := h.live t ref htouches
    have hbal := h.balance ref.addr
    rw [hdoomed] at hbal
    obtain ⟨_, _, _, hnone⟩ := hbal
    refine ⟨(h.unlinked_iff _).mpr (.inr ⟨ref.addr, node, hnode, hbirth, ?_⟩), ?_, ?_⟩
    · rw [hdoomed]
      trivial
    · rw [← hbirth]
      exact h.deleted_dead ref.addr node hnode
    · exact (countThreads_eq_zero_iff _ _).mp hnone
  · intro hidle b hb
    rcases (h.unlinked_iff b).mp hb with hdeleted | ⟨a, node, _, _, hretired⟩
    · exact hdeleted
    · have hnone : reservations s.pc a = 0 :=
        (countThreads_eq_zero_iff _ _).mpr (by simp [hidle, Pc.reserves])
      have hbal := h.balance a
      cases hphase : phase a with
      | free => simp [hphase, Phase.Retired] at hretired
      | linked count => simp [hphase, Phase.Retired] at hretired
      | owned u role =>
          have howns := (h.owner u a role).mpr hphase
          simp [hidle, Pc.owns] at howns
      | shared =>
          rw [hphase] at hbal
          obtain ⟨_, _, _, hpos⟩ := hbal
          omega

theorem reclamation_pushPop : ∃ s : State Bool Nat Nat, s.unlinked = [0] ∧
    s.deleted.Nodup ∧ 0 ∈ s.deleted := by
  obtain ⟨s, hs, hidle, hunlinked, _⟩ := pushPop_reachable
  obtain ⟨_, _, hnodup, _, hall⟩ := reclamation s hs
  exact ⟨s, hunlinked, hnodup, hall hidle 0 (by simp [hunlinked])⟩

/-- The log of calls, in the order of their successful `head_` CAS, explains
every answer: each call occurs in it at most once, each call that returned has
exactly the answer the replay on a sequential LIFO stack gives it, the linked
nodes hold what the replay leaves, and so each pushed value has either been
popped once or is still in the stack. -/
theorem linearizable (s : State Tid Addr V) (hs : (system Tid Addr V).Reachable s) :
    (s.log.map Prod.fst).Nodup ∧
    (s.returned.map Prod.fst).Nodup ∧
    (∀ call res, (call, res) ∈ s.returned → (call, res) ∈ (lifo V).results s.log) ∧
    Contents s.heap s.head ((lifo V).stateAfter s.log) ∧
    (pushedValues s.log).Perm
      (poppedValues ((lifo V).results s.log) ++ (lifo V).stateAfter s.log) := by
  have e := reachable_effects hs
  exact ⟨e.log_nodup, e.returned_nodup, fun call res h => e.returned (call, res) h, e.contents,
    lifo_conserves s.log⟩

theorem linearizable_pushPop : ∃ s : State Bool Nat Nat,
    (1, .popped (some 7)) ∈ s.returned ∧
      (1, .popped (some 7)) ∈ (lifo Nat).results s.log := by
  obtain ⟨s, hs, _, _, hreturned⟩ := pushPop_reachable
  obtain ⟨_, _, hanswers, _⟩ := linearizable s hs
  have hmem : (1, .popped (some 7)) ∈ s.returned := by simp [hreturned]
  exact ⟨s, hmem, hanswers 1 _ hmem⟩

/-- The external counts a call has in its locals. -/
def Pc.counts : Pc Addr V → List Int
  | .popIncrease oldHead | .popRelease _ oldHead | .popFence _ oldHead
  | .popRetryDelete _ oldHead => [oldHead.externalCount]
  | .popNext count _ | .popSwap count _ | .popTransfer count _ _ => [count]
  | .popCas count _ next => [count, next.externalCount]
  | _ => []

/-- Every external count in the state lies in `0 .. bound`. -/
structure CountsWithin (bound : Int) (s : State Tid Addr V) : Prop where
  positive : 0 < bound
  head : 0 ≤ s.head.externalCount ∧ s.head.externalCount ≤ bound
  node : ∀ a node, s.heap a = some node →
    0 ≤ node.next.externalCount ∧ node.next.externalCount ≤ bound
  pc : ∀ t, ∀ count ∈ (s.pc t).counts, 0 ≤ count ∧ count ≤ bound

omit [Fintype Tid] in
/-- A step leaves a node's `next` as it was, empties it in a new node or fills
it from `head_`. -/
theorem step_next {s s' : State Tid Addr V} {t : Tid} (hstep : Step s t s') {a : Addr}
    {node : Node Addr V} (hnode : s'.heap a = some node) :
    (∃ old, s.heap a = some old ∧ node.next = old.next) ∨
      node.next = ⟨0, none⟩ ∨ node.next = s.head := by
  cases hstep with
  | emplaceNew addr hpc hfree =>
      by_cases ha : a = addr
      · subst ha
        simp at hnode
        simp [← hnode]
      · simp [ha] at hnode
        exact .inl ⟨node, hnode, rfl⟩
  | @emplaceLoad ref _ _ hpc hold | @emplaceCasFail ref _ _ hpc hold =>
      by_cases ha : a = ref.addr
      · subst ha
        simp at hnode
        simp [← hnode]
      · simp [ha] at hnode
        exact .inl ⟨node, hnode, rfl⟩
  | @popSwap _ ref _ hpc hold | @popTransfer _ ref _ _ hpc hold
  | @popRelease ref _ _ hpc hold =>
      by_cases ha : a = ref.addr
      · subst ha
        simp at hnode
        exact .inl ⟨_, hold, by simp [← hnode]⟩
      · simp [ha] at hnode
        exact .inl ⟨node, hnode, rfl⟩
  | @popDelete ref _ hpc hold | @popRetryDelete ref _ hpc hold =>
      by_cases ha : a = ref.addr
      · simp [ha] at hnode
      · simp [ha] at hnode
        exact .inl ⟨node, hnode, rfl⟩
  | _ => exact .inl ⟨node, by simpa using hnode, rfl⟩

omit [Fintype Tid] in
/-- A count a step puts into a local was read from `head_`, written to it, or
read from a node's `next`. -/
theorem step_counts {s s' : State Tid Addr V} {t : Tid} (hstep : Step s t s') {count : Int}
    (hcount : count ∈ (s'.pc t).counts) :
    count ∈ (s.pc t).counts ∨ count = s.head.externalCount ∨ count = s'.head.externalCount ∨
      ∃ a node, s.heap a = some node ∧ count = node.next.externalCount := by
  cases hstep with
  | popLoad hpc | popIncreaseFail hpc _ hdiffer | popCasFail hpc hdiffer =>
      simp [Pc.counts] at hcount
      exact .inr (.inl hcount)
  | popIncrease hpc hptr hequal =>
      simp [Pc.counts] at hcount
      exact .inr (.inr (.inl (by simpa using hcount)))
  | @popNext held ref node hpc hnode =>
      simp [Pc.counts] at hcount
      rcases hcount with rfl | rfl
      · exact .inl (by simp [hpc, Pc.counts])
      · exact .inr (.inr (.inr ⟨ref.addr, node, hnode, rfl⟩))
  | popTransfer hpc hnode =>
      simp only [State.goto_pc, Function.update_self] at hcount
      split at hcount <;> simp [Pc.counts] at hcount
  | popRelease hpc hnode =>
      simp only [State.goto_pc, Function.update_self] at hcount
      split at hcount <;> exact .inl (by simpa [hpc, Pc.counts] using hcount)
  | popCas hpc hequal =>
      simp [Pc.counts] at hcount
      exact .inl (by simp [hpc, Pc.counts, hcount])
  | popSwap hpc hnode | popFence hpc hnode | popRetryDelete hpc hnode =>
      exact .inl (by simpa [hpc, Pc.counts] using hcount)
  | _ => simp [Pc.counts] at hcount

omit [Fintype Tid] in
/-- A step moves no other thread. -/
theorem step_pc_of_ne {s s' : State Tid Addr V} {t u : Tid} (hstep : Step s t s')
    (hu : u ≠ t) : s'.pc u = s.pc u := by
  cases hstep <;> simp [hu]

omit [Fintype Tid] in
/-- One step raises an external count by at most one. -/
theorem CountsWithin.step {bound : Int} {s s' : State Tid Addr V} {t : Tid}
    (h : CountsWithin bound s) (hstep : Step s t s') : CountsWithin (bound + 1) s' := by
  have hpositive := h.positive
  have hhead := h.head
  have hmine := h.pc t
  have hhead' : 0 ≤ s'.head.externalCount ∧ s'.head.externalCount ≤ bound + 1 := by
    cases hstep with
    | popIncrease hpc hptr hequal => subst hequal; simp; omega
    | popCas hpc hequal => simp [hpc, Pc.counts] at hmine; simp; omega
    | _ => simp; omega
  constructor
  case positive => omega
  case head => exact hhead'
  case node =>
    intro a node hnode
    rcases step_next hstep hnode with ⟨old, hold, hnext⟩ | hnext | hnext
    · have hwithin := h.node a old hold
      rw [hnext]
      omega
    · simp [hnext]
      omega
    · rw [hnext]
      omega
  case pc =>
    intro u count hcount
    by_cases hu : u = t
    · subst hu
      rcases step_counts hstep hcount with hkept | rfl | rfl | ⟨a, node, hnode, rfl⟩
      · have hwithin := hmine count hkept
        omega
      · omega
      · exact hhead'
      · have hwithin := h.node a node hnode
        omega
    · rw [step_pc_of_ne hstep hu] at hcount
      have hwithin := h.pc u count hcount
      omega

omit [DecidableEq Tid] in
theorem reservations_le_card (pc : Tid → Pc Addr V) (a : Addr) :
    reservations pc a ≤ Fintype.card Tid :=
  Finset.card_le_univ _

omit [Fintype Tid] [DecidableEq Tid] [DecidableEq Addr] in
/-- The count of a linked node stands in `head_` or in a `next` field. -/
theorem Chained.count_le {heap : Addr → Option (Node Addr V)} {phase : Addr → Phase Tid}
    {p : CountedNodePtr Addr} {chain : List Addr} {bound : Int}
    (h : Chained heap phase p chain) (hp : p.externalCount ≤ bound)
    (hnode : ∀ a node, heap a = some node → node.next.externalCount ≤ bound)
    {a : Addr} (ha : a ∈ chain) {count : Int} (hcount : phase a = .linked count) :
    count ≤ bound := by
  induction chain generalizing p with
  | nil => simp at ha
  | cons b rest ih =>
      obtain ⟨_, hlinked, node, hb, hrest⟩ := h
      rcases List.mem_cons.mp ha with rfl | hmem
      · rw [hlinked] at hcount
        cases hcount
        exact hp
      · exact ih hrest (hnode b node hb) hmem

/-- After `n` steps no external count exceeds `n + 1` and no internal count
leaves `-(n + 1) .. number of threads`: the unbounded integers of the model
are `std::ptrdiff_t` values on every run short of its range. -/
theorem counters_bounded {labels : List Tid} {s : State Tid Addr V}
    (hrun : (system Tid Addr V).Run (State.initial Tid Addr V) labels s) :
    CountsWithin (labels.length + 1) s ∧ ∀ a node, s.heap a = some node →
      -(labels.length + 1 : Int) ≤ node.internalCount ∧
        node.internalCount ≤ Fintype.card Tid := by
  have hwithin : CountsWithin (labels.length + 1 : Int) s := by
    induction hrun with
    | refl => constructor <;> simp [State.initial, Pc.counts]
    | snoc _ hlast ih =>
        have hnext := ih.step hlast
        simpa [List.length_append] using hnext
  refine ⟨hwithin, fun a node hnode => ?_⟩
  obtain ⟨chain, phase, h⟩ := reachable_inv (System.Reachable.run _ (.start rfl) hrun)
  have hbal := h.balance a
  have hcard := reservations_le_card s.pc a
  rw [hnode] at hbal
  cases hphase : phase a with
  | free => simp [hphase, Balanced] at hbal
  | shared => simp [hphase, Balanced] at hbal; omega
  | linked count =>
      have hle := h.chained.count_le hwithin.head.2 (fun b m hm => (hwithin.node b m hm).2)
        (h.linked a count hphase) hphase
      simp [hphase, Balanced] at hbal
      omega
  | owned u role =>
      have howns := (h.owner u a role).mpr hphase
      cases role with
      | fresh => simp [hphase, Balanced] at hbal; omega
      | doomed => simp [hphase, Balanced] at hbal; omega
      | unlinking count =>
          have hcount : count ∈ (s.pc u).counts := by
            cases hpc : s.pc u <;> simp_all [Pc.owns, Pc.counts]
          have hle := (hwithin.pc u count hcount).2
          simp [hphase, Balanced] at hbal
          omega

end MoreCpp.LockFreeStack
