import MoreCpp.Concurrency.LockFreeStack.Safety
import Mathlib.Algebra.Order.BigOperators.Group.Finset

/-!
Who can hold whom up. A call only goes round its loops while `head_` changes, so a thread
left alone finishes; but a reservation is such a change, and two pops can make each other
retry for ever.
-/

namespace MoreCpp.LockFreeStack

open Library

variable {Tid Addr V : Type*} [DecidableEq Tid] [DecidableEq Addr]

/-! ### The steps ahead -/

/-- From `increase_head_count` on. -/
def retryRank (head oldHead : CountedNodePtr Addr) : Nat :=
  if oldHead.ptr = none then 2 else if head = oldHead then 7 else 8

/-- The steps a call has before it while `head_` stays as it is. -/
def Pc.rank (heap : Addr → Option (Node Addr V)) (head : CountedNodePtr Addr) : Pc Addr V → Nat
  | .idle => 0
  | .emplaceNew _ => 4
  | .emplaceLoad _ _ => 3
  | .emplaceCas node _ => if (heap node.addr).map Node.next = some head then 2 else 3
  | .emplaceReturn => 1
  | .popLoad => 8
  | .popIncrease oldHead => retryRank head oldHead
  | .popNext count ptr => if head = ⟨count, some ptr.addr⟩ then 6 else 12
  | .popCas count ptr _ => if head = ⟨count, some ptr.addr⟩ then 5 else 11
  | .popSwap _ _ => 4
  | .popTransfer _ _ _ => 3
  | .popDelete _ _ => 2
  | .popReturn _ => 1
  | .popRelease _ oldHead => retryRank head oldHead + 3
  | .popFence _ oldHead => retryRank head oldHead + 2
  | .popRetryDelete _ oldHead => retryRank head oldHead + 1

theorem retryRank_self_le (head : CountedNodePtr Addr) : retryRank head head ≤ 7 := by
  unfold retryRank
  split
  · omega
  · exact Nat.le_of_eq (if_pos rfl)

theorem retryRank_le (head oldHead : CountedNodePtr Addr) : retryRank head oldHead ≤ 8 := by
  unfold retryRank
  split_ifs <;> omega

theorem retryRank_of_ne {head oldHead : CountedNodePtr Addr} {addr : Addr}
    (hptr : oldHead.ptr = some addr) (hdiffer : head ≠ oldHead) : retryRank head oldHead = 8 := by
  rw [retryRank, if_neg (by rw [hptr]; nofun), if_neg hdiffer]

theorem Pc.rank_le (heap : Addr → Option (Node Addr V)) (head : CountedNodePtr Addr)
    (p : Pc Addr V) : p.rank heap head ≤ 12 := by
  cases p with
  | popIncrease oldHead | popRelease _ oldHead | popFence _ oldHead | popRetryDelete _ oldHead =>
      have hle := retryRank_le head oldHead
      simp only [rank]
      omega
  | emplaceCas | popNext | popCas =>
      simp only [rank]
      split <;> omega
  | _ => exact Nat.le_of_ble_eq_true rfl

def State.rank (s : State Tid Addr V) (t : Tid) : Nat := (s.pc t).rank s.heap s.head

/-- A weak CAS fails although the values are equal. -/
inductive Spurious (s : State Tid Addr V) (t : Tid) (s' : State Tid Addr V) : Prop where
  | mk {ref : NodeRef Addr} {value : V} {node : Node Addr V} (hpc : s.pc t = .emplaceCas ref value)
      (hnode : s.heap ref.addr = some node) (hequal : s.head = node.next)
      (hpc' : s'.pc t = .emplaceCas ref value)

/-- A step of a call brings it nearer to its end. -/
theorem step_rank {s s' : State Tid Addr V} {t : Tid} (hstep : Step s t s')
    (hbusy : s.pc t ≠ .idle) (hhonest : ¬ Spurious s t s') : s'.rank t < s.rank t := by
  cases hstep with
  | callEmplace _ hpc | callPop hpc => exact absurd hpc hbusy
  | emplaceNew addr hpc | emplaceThrow hpc | emplaceReturn hpc | popSwap hpc | popDelete hpc
  | popReturn hpc => simp [State.rank, hpc, Pc.rank]
  | emplaceLoad hpc hnode => simp [State.rank, hpc, Pc.rank]
  | emplaceCas hpc hnode hequal => simp [State.rank, hpc, Pc.rank, hnode, hequal]
  | @emplaceCasFail ref value node hpc hnode =>
      have hdiffer : node.next ≠ s.head := fun hequal =>
        hhonest (.mk hpc hnode hequal.symm (by simp))
      simp [State.rank, hpc, Pc.rank, hnode, hdiffer]
  | popLoad hpc =>
      have hless := Nat.lt_succ_of_le (retryRank_self_le s.head)
      simpa [State.rank, hpc, Pc.rank] using hless
  | popEmpty hpc hnull => simp [State.rank, hpc, Pc.rank, retryRank, hnull]
  | popIncrease hpc hptr hequal =>
      simp [State.rank, hpc, Pc.rank, retryRank, hptr, hequal]
  | popIncreaseFail hpc hptr hdiffer =>
      have hless := Nat.lt_succ_of_le (retryRank_self_le s.head)
      simpa [State.rank, hpc, Pc.rank, retryRank_of_ne hptr hdiffer] using hless
  | popNext hpc hnode =>
      simp only [State.rank, hpc, Pc.rank, State.goto_pc, Function.update_self, State.goto_head]
      split <;> omega
  | popCas hpc hequal => simp [State.rank, hpc, Pc.rank, hequal]
  | popCasFail hpc hdiffer =>
      have hless : retryRank s.head s.head + 3 < 11 :=
        Nat.add_lt_add_right (Nat.lt_succ_of_le (retryRank_self_le s.head)) 3
      simpa [State.rank, hpc, Pc.rank, hdiffer] using hless
  | popTransfer hpc hnode =>
      simp only [State.rank, hpc, State.goto_pc, Function.update_self]
      split <;> simp [Pc.rank]
  | popRelease hpc hnode =>
      simp only [State.rank, hpc, State.goto_pc, Function.update_self]
      split <;> simp [Pc.rank]
  | popFence hpc | popRetryDelete hpc => simp [State.rank, hpc, Pc.rank]

section Runs

variable [Fintype Tid]

/-- No other thread writes to the node of an `emplace`. -/
theorem fresh_kept {s s' : State Tid Addr V} {chain : List Addr} {phase : Addr → Phase Tid}
    (h : Inv s chain phase) {t u : Tid} (hstep : Step s t s') (hu : u ≠ t) {ref : NodeRef Addr}
    {value : V} (hpc : s.pc u = .emplaceCas ref value) : s'.heap ref.addr = s.heap ref.addr := by
  have howns : (s.pc u).owns = some (ref.addr, .fresh) := by rw [hpc]; rfl
  by_contra hchange
  rcases step_heap hstep ref.addr hchange with hnone | ⟨ref', htouches, haddr⟩
  · obtain ⟨node, hnode, -⟩ := h.live u ref (by rw [hpc]; rfl)
    rw [hnone] at hnode
    cases hnode
  · rcases Pc.touches_cases htouches with hreserves | ⟨role, howns'⟩
    · have hbalance := h.balance ref.addr
      rw [(h.owner u ref.addr .fresh).mp howns] at hbalance
      obtain ⟨node, -, -, hzero⟩ := hbalance
      exact absurd hzero (reservations_pos (haddr ▸ hreserves)).ne'
    · exact hu (h.owner_unique (haddr ▸ howns') howns)

/-- What another thread does changes the rank only by changing `head_`. -/
theorem step_rank_of_ne {s s' : State Tid Addr V} {chain : List Addr} {phase : Addr → Phase Tid}
    (h : Inv s chain phase) {t u : Tid} (hstep : Step s t s') (hu : u ≠ t)
    (hhead : s'.head = s.head) : s'.rank u = s.rank u := by
  rw [State.rank, State.rank, step_pc_of_ne hstep hu, hhead]
  cases hpc : s.pc u with
  | emplaceCas ref value => simp only [Pc.rank, fresh_kept h hstep hu hpc]
  | _ => rfl

/-! ### Whole runs -/

/-- A state, and what has happened until then: the steps, the changes of `head_` and the
spurious failures. -/
structure Counted (Tid Addr V : Type*) where
  state : State Tid Addr V
  steps : Nat
  changes : Nat
  spurious : Nat

inductive Counted.Step : Counted Tid Addr V → Tid → Counted Tid Addr V → Prop where
  | honest {c : Counted Tid Addr V} {t : Tid} {s : State Tid Addr V}
      (hstep : LockFreeStack.Step c.state t s) (hhonest : ¬ Spurious c.state t s) :
      Step c t { c with
        state := s
        steps := c.steps + 1
        changes := c.changes + if s.head = c.state.head then 0 else 1 }
  | spurious {c : Counted Tid Addr V} {t : Tid} {s : State Tid Addr V}
      (hstep : LockFreeStack.Step c.state t s) (hspurious : Spurious c.state t s) :
      Step c t { c with state := s, steps := c.steps + 1, spurious := c.spurious + 1 }

/-- The system, with the counts. -/
def counted (Tid Addr V : Type*) [DecidableEq Tid] [DecidableEq Addr] :
    System (Counted Tid Addr V) Tid where
  Init c := c = ⟨.initial Tid Addr V, 0, 0, 0⟩
  Step := Counted.Step

omit [Fintype Tid] in
theorem reachable_state {c : Counted Tid Addr V} (hreach : (counted Tid Addr V).Reachable c) :
    (system Tid Addr V).Reachable c.state := by
  induction hreach with
  | start hinit =>
      rw [hinit]
      exact .start rfl
  | next _ hstep ih =>
      cases hstep with
      | honest hstep | spurious hstep => exact ih.next hstep

/-- The steps ahead of all threads. -/
def State.ahead (s : State Tid Addr V) : Nat := ∑ t, s.rank t

omit [DecidableEq Tid] in
/-- Somebody is nearer to its end than anybody need be. -/
theorem ahead_lt {s : State Tid Addr V} {t : Tid} (ht : s.rank t < 12) :
    s.ahead < 12 * Fintype.card Tid := by
  have hall : ∑ _u : Tid, 12 = 12 * Fintype.card Tid := by
    rw [Finset.sum_const, Finset.card_univ, Nat.nsmul_eq_mul, Nat.mul_comm]
  rw [← hall]
  exact Finset.sum_lt_sum (fun u _ => Pc.rank_le _ _ _) ⟨t, Finset.mem_univ t, ht⟩

/-- `head_` stays: the thread that moves comes nearer to the end of its call, or enters one. -/
theorem step_ahead {s s' : State Tid Addr V} {chain : List Addr} {phase : Addr → Phase Tid}
    (h : Inv s chain phase) {t : Tid} (hstep : Step s t s') (hhead : s'.head = s.head)
    (most : Nat) (hmost : s'.rank t + 1 ≤ s.rank t + most) : s'.ahead + 1 ≤ s.ahead + most := by
  have hsplit : ∀ σ : State Tid Addr V, σ.ahead = ∑ u ∈ Finset.univ.erase t, σ.rank u + σ.rank t :=
    fun σ => (Finset.sum_erase_add Finset.univ σ.rank (Finset.mem_univ t)).symm
  have hothers : ∑ u ∈ Finset.univ.erase t, s'.rank u = ∑ u ∈ Finset.univ.erase t, s.rank u :=
    Finset.sum_congr rfl fun u hu => step_rank_of_ne h hstep (Finset.ne_of_mem_erase hu) hhead
  rw [hsplit, hsplit, hothers]
  omega

omit [Fintype Tid] in
/-- A thread enters a call, or goes on with one. -/
theorem step_calls {s s' : State Tid Addr V} {t : Tid} (hstep : Step s t s') :
    s.pc t = .idle ∧ s'.head = s.head ∧ s'.calls = s.calls + 1 ∧ s'.rank t < 12 ∨
      s.pc t ≠ .idle ∧ s'.calls = s.calls := by
  cases hstep with
  | callEmplace value hpc | callPop hpc => exact .inl ⟨hpc, rfl, rfl, by simp [State.rank, Pc.rank]⟩
  | popLoad hpc | popIncreaseFail hpc | popCasFail hpc =>
      refine .inr ⟨(fun hidle => by cases hpc.symm.trans hidle), ?_⟩
      simp only [State.goto_calls, State.observe]
      split <;> rfl
  | emplaceNew _ hpc | emplaceThrow hpc | emplaceLoad hpc | emplaceCas hpc | emplaceCasFail hpc
  | emplaceReturn hpc | popEmpty hpc | popIncrease hpc | popNext hpc | popCas hpc | popSwap hpc
  | popTransfer hpc | popDelete hpc | popReturn hpc | popRelease hpc | popFence hpc
  | popRetryDelete hpc => exact .inr ⟨(fun hidle => by cases hpc.symm.trans hidle), rfl⟩

omit [Fintype Tid] in
/-- After a spurious failure the thread is where it was. -/
theorem Spurious.frame {s s' : State Tid Addr V} {t : Tid} (h : Spurious s t s')
    (hstep : Step s t s') : s'.head = s.head ∧ s'.calls = s.calls ∧ s'.rank t = s.rank t := by
  obtain ⟨hpc, hnode, hequal, hpc'⟩ := h
  cases hstep with
  | emplaceCasFail hpc₁ hnode₁ =>
      cases hpc.symm.trans hpc₁
      cases hnode.symm.trans hnode₁
      exact ⟨rfl, rfl, by simp [State.rank, Pc.rank, hpc, hnode, hequal]⟩
  | emplaceCas => simp at hpc'
  | _ => simp_all

theorem step_ahead_counted {c c' : Counted Tid Addr V} {t : Tid}
    (hreach : (counted Tid Addr V).Reachable c) (hstep : Counted.Step c t c')
    (h : c.steps + c.state.ahead ≤
      12 * (c.state.calls + Fintype.card Tid * c.changes) + c.spurious) :
    c'.steps + c'.state.ahead ≤
      12 * (c'.state.calls + Fintype.card Tid * c'.changes) + c'.spurious := by
  obtain ⟨chain, phase, hinv⟩ := reachable_inv (reachable_state hreach)
  cases hstep with
  | @spurious s hstep hspurious =>
      obtain ⟨hhead, hcalls, hrank⟩ := hspurious.frame hstep
      have hahead := step_ahead hinv hstep hhead 1 (by omega)
      dsimp only
      rw [hcalls]
      omega
  | @honest s hstep hhonest =>
      dsimp only
      rcases step_calls hstep with ⟨hidle, hhead, hcalls, hrank⟩ | ⟨hbusy, hcalls⟩
      · have hahead := step_ahead hinv hstep hhead 12 (by omega)
        rw [if_pos hhead, hcalls, Nat.add_zero c.changes]
        omega
      · have hless := step_rank hstep hbusy hhonest
        rw [hcalls]
        split
        · next hhead =>
            have hahead := step_ahead hinv hstep hhead 0 (by omega)
            rw [Nat.add_zero c.changes]
            omega
        · have hrank : s.rank t < 12 := hless.trans_le (Pc.rank_le _ _ _)
          have hahead := ahead_lt hrank
          rw [Nat.mul_add _ _ 1]
          omega

theorem reachable_ahead {c : Counted Tid Addr V} (hreach : (counted Tid Addr V).Reachable c) :
    c.steps + c.state.ahead ≤
      12 * (c.state.calls + Fintype.card Tid * c.changes) + c.spurious := by
  induction hreach with
  | start hinit =>
      rw [hinit]
      simp [State.ahead, State.rank, State.initial, Pc.rank]
  | next hprev hstep ih => exact step_ahead_counted hprev hstep ih

end Runs

/-- A call goes on, and nobody else does. -/
def alone (t : Tid) : System (State Tid Addr V) Unit where
  Init _ := True
  Step s _ s' := Step s t s' ∧ s.pc t ≠ .idle ∧ ¬ Spurious s t s'

/-- In a call there is always a step that is no spurious failure. -/
theorem honest_step [Fintype Tid] {s : State Tid Addr V} (hreach : (system Tid Addr V).Reachable s)
    {t : Tid} (hbusy : s.pc t ≠ .idle) : ∃ s', Step s t s' ∧ ¬ Spurious s t s' := by
  obtain ⟨s', hstep⟩ := never_stuck hreach t hbusy
  by_cases hspurious : Spurious s t s'
  · obtain ⟨hpc, hnode, hequal, -⟩ := hspurious
    refine ⟨_, .emplaceCas hpc hnode hequal, fun hspurious => ?_⟩
    obtain ⟨-, -, -, hpc'⟩ := hspurious
    simp at hpc'
  · exact ⟨s', hstep, hspurious⟩

/-- In every run, any number of threads take at most twelve steps for each call, and each
twelve more each time one of them changes `head_`, spurious failures apart. A thread that
goes on alone, from any state that can be reached, is out of its call after at most twelve
steps, and can always take the next. -/
theorem progress_bounded [Fintype Tid] (c : Counted Tid Addr V) (hreach : (counted Tid Addr V).Reachable c) :
    c.steps ≤ 12 * (c.state.calls + Fintype.card Tid * c.changes) + c.spurious ∧
      ∀ t labels s', (alone t).Run c.state labels s' →
        labels.length ≤ 12 ∧ (s'.pc t ≠ .idle → ∃ s'', (alone t).Step s' () s'') := by
  refine ⟨(Nat.le_add_right _ _).trans (reachable_ahead hreach), fun t labels s' hrun => ⟨?_, ?_⟩⟩
  · have hlength := System.Run.length_add_le (alone t) (fun s => s.rank t)
      (fun s _ s' hstep => step_rank hstep.1 hstep.2.1 hstep.2.2) hrun
    have hle : c.state.rank t ≤ 12 := Pc.rank_le _ _ _
    omega
  · have hreach' : (system Tid Addr V).Reachable s' := by
      induction hrun with
      | refl => exact reachable_state hreach
      | snoc _ hlast ih => exact ih.next hlast.1
    intro hbusy
    obtain ⟨s'', hstep, hhonest⟩ := honest_step hreach' hbusy
    exact ⟨s'', hstep, hbusy, hhonest⟩

/-- One thread has called `pop` on an empty stack, and goes on alone. -/
theorem progress_bounded_pop : ∃ c : Counted Unit Nat Nat, c.steps = 1 ∧
    c.steps ≤ 12 * (c.state.calls + Fintype.card Unit * c.changes) + c.spurious ∧
      ∀ labels s', (alone ()).Run c.state labels s' → labels.length ≤ 12 := by
  have hstart : (counted Unit Nat Nat).Reachable ⟨.initial Unit Nat Nat, 0, 0, 0⟩ := .start rfl
  have hcall := hstart.next (.honest (t := ()) (.callPop rfl) fun hspurious => by
    obtain ⟨hpc, -⟩ := hspurious
    cases hpc)
  have hprogress := progress_bounded _ hcall
  exact ⟨_, rfl, hprogress.1, fun labels s' hrun => (hprogress.2 () labels s' hrun).1⟩

/-! ### Two pops -/

/-- Steps that are no spurious failures. -/
def honest (Tid Addr V : Type*) [DecidableEq Tid] [DecidableEq Addr] :
    System (State Tid Addr V) Tid where
  Init s := s = State.initial Tid Addr V
  Step s t s' := Step s t s' ∧ ¬ Spurious s t s'

/-- Both have reserved the node in front, and `t` did so before `u`. -/
structure Racing (s : State Tid Addr V) (t u : Tid) (count : Int) (addr : Addr) : Prop where
  first : ∃ birth, s.pc t = .popNext count ⟨addr, birth⟩
  second : ∃ birth, s.pc u = .popNext (count + 1) ⟨addr, birth⟩
  head : s.head = ⟨count + 1, some addr⟩

theorem honest_of_pop {s s' : State Tid Addr V} {t : Tid} (hstep : Step s t s')
    (hpop : ∀ ref value, s.pc t ≠ .emplaceCas ref value) : (honest Tid Addr V).Step s t s' :=
  ⟨hstep, fun hspurious => by
    obtain ⟨hpc, -⟩ := hspurious
    exact hpop _ _ hpc⟩

omit [DecidableEq Tid] [DecidableEq Addr] in
theorem observe_of_ptr {s : State Tid Addr V} {addr : Addr} (hptr : s.head.ptr = some addr)
    (t : Tid) : s.observe t = s :=
  if_neg (by rw [hptr]; nofun)

/-- A step of a pop that neither takes effect nor returns. -/
structure Moves (s : State Tid Addr V) (t : Tid) (p : Pc Addr V) (head : CountedNodePtr Addr)
    (s' : State Tid Addr V) : Prop where
  step : (honest Tid Addr V).Step s t s'
  pc : s'.pc = Function.update s.pc t p
  head : s'.head = head
  log : s'.log = s.log
  returned : s'.returned = s.returned
  calls : s'.calls = s.calls

namespace Moves

variable {s : State Tid Addr V} {t : Tid} {ref : NodeRef Addr} {addr : Addr} {count : Int}
  {node : Node Addr V} {next oldHead : CountedNodePtr Addr}

theorem read (hpc : s.pc t = .popNext count ref) (hnode : s.heap ref.addr = some node) :
    ∃ s', Moves s t (.popCas count ref node.next) s.head s' :=
  ⟨_, honest_of_pop (.popNext hpc hnode) (by simp [hpc]), rfl, rfl, rfl, rfl, rfl⟩

theorem fail (hpc : s.pc t = .popCas count ref next) (hptr : s.head.ptr = some addr)
    (hdiffer : s.head ≠ ⟨count, some ref.addr⟩) :
    ∃ s', Moves s t (.popRelease ref s.head) s.head s' := by
  have hstep := Step.popCasFail hpc hdiffer
  rw [observe_of_ptr hptr] at hstep
  exact ⟨_, honest_of_pop hstep (by simp [hpc]), rfl, rfl, rfl, rfl, rfl⟩

theorem release (hpc : s.pc t = .popRelease ref oldHead) (hnode : s.heap ref.addr = some node)
    (hle : node.internalCount ≤ 0) : ∃ s', Moves s t (.popIncrease oldHead) s.head s' := by
  have hstep := Step.popRelease hpc hnode
  rw [if_neg (by omega)] at hstep
  exact ⟨_, honest_of_pop hstep (by simp [hpc]), rfl, rfl, rfl, rfl, rfl⟩

theorem load (hpc : s.pc t = .popLoad) (hptr : s.head.ptr = some addr) :
    ∃ s', Moves s t (.popIncrease s.head) s.head s' := by
  have hstep := Step.popLoad hpc
  rw [observe_of_ptr hptr] at hstep
  exact ⟨_, honest_of_pop hstep (by simp [hpc]), rfl, rfl, rfl, rfl, rfl⟩

theorem reserve (hpc : s.pc t = .popIncrease s.head) (hptr : s.head.ptr = some addr) :
    ∃ s' birth, Moves s t (.popNext (s.head.externalCount + 1) ⟨addr, birth⟩)
      ⟨s.head.externalCount + 1, some addr⟩ s' :=
  ⟨_, _, honest_of_pop (.popIncrease hpc hptr rfl) (by simp [hpc]), rfl, rfl, rfl, rfl, rfl⟩

end Moves

/-- The node in front has not been unlinked, so nobody has transferred a count to it. -/
theorem internalCount_head [Fintype Tid] {s : State Tid Addr V}
    (hreach : (system Tid Addr V).Reachable s) {addr : Addr} (hptr : s.head.ptr = some addr) :
    ∃ node, s.heap addr = some node ∧ node.internalCount ≤ 0 := by
  obtain ⟨chain, phase, h⟩ := reachable_inv hreach
  obtain ⟨-, -, -, hphase, -⟩ := h.head_cons hptr
  have hbalance := h.balance addr
  rw [hphase] at hbalance
  obtain ⟨node, hnode, -, hle⟩ := hbalance
  exact ⟨node, hnode, hle⟩

/-- The unlinking CAS of `t` fails, for `u` has made a reservation after it; and with its own
next one `t` makes that of `u` fail. -/
theorem Racing.round [Fintype Tid] {s : State Tid Addr V} (hreach : (system Tid Addr V).Reachable s)
    {t u : Tid} (hne : t ≠ u) {count : Int} {addr : Addr} (h : Racing s t u count addr) :
    ∃ s', (honest Tid Addr V).Run s [t, t, t, t] s' ∧ Racing s' u t (count + 1) addr ∧
      s'.log = s.log ∧ s'.returned = s.returned ∧ s'.calls = s.calls := by
  obtain ⟨birth, ht⟩ := h.first
  obtain ⟨birth', hu⟩ := h.second
  have hptr : s.head.ptr = some addr := by rw [h.head]
  have hdiffer : s.head ≠ ⟨count, some addr⟩ := by
    rw [h.head]
    intro heq
    have hcount := congrArg CountedNodePtr.externalCount heq
    simp at hcount
  obtain ⟨node, hnode, -⟩ := internalCount_head hreach hptr
  obtain ⟨s₁, hread⟩ := Moves.read ht hnode
  have hpc₁ : s₁.pc t = _ := hread.pc ▸ Function.update_self ..
  rw [← hread.head] at hptr hdiffer
  obtain ⟨s₂, hfail⟩ := Moves.fail hpc₁ hptr hdiffer
  have hpc₂ : s₂.pc t = _ := hfail.pc ▸ Function.update_self ..
  rw [← hfail.head] at hptr hpc₂
  have hreach₂ := (hreach.next hread.step.1).next hfail.step.1
  obtain ⟨node₂, hnode₂, hle⟩ := internalCount_head hreach₂ hptr
  obtain ⟨s₃, hrelease⟩ := Moves.release hpc₂ hnode₂ hle
  have hpc₃ : s₃.pc t = _ := hrelease.pc ▸ Function.update_self ..
  rw [← hrelease.head] at hptr hpc₃
  obtain ⟨s₄, birth₄, hreserve⟩ := Moves.reserve hpc₃ hptr
  have hcount : s₃.head.externalCount = count + 1 := by
    rw [hrelease.head, hfail.head, hread.head, h.head]
  refine ⟨s₄, .snoc (.snoc (.snoc (.snoc (.refl s) hread.step) hfail.step) hrelease.step)
    hreserve.step, ⟨⟨birth', ?_⟩, ⟨birth₄, ?_⟩, ?_⟩, ?_, ?_, ?_⟩
  · rw [hreserve.pc, hrelease.pc, hfail.pc, hread.pc]
    simp [hne.symm, hu]
  · rw [hreserve.pc, Function.update_self, hcount]
  · rw [hreserve.head, hcount]
  · rw [hreserve.log, hrelease.log, hfail.log, hread.log]
  · rw [hreserve.returned, hrelease.returned, hfail.returned, hread.returned]
  · rw [hreserve.calls, hrelease.calls, hfail.calls, hread.calls]

/-- A run of the two, in which no call begins, takes effect or returns. -/
structure Spins (s : State Tid Addr V) (t u : Tid) (labels : List Tid) (s' : State Tid Addr V) :
    Prop where
  run : (honest Tid Addr V).Run s labels s'
  only : ∀ label ∈ labels, label = t ∨ label = u
  log : s'.log = s.log
  returned : s'.returned = s.returned
  calls : s'.calls = s.calls

theorem Spins.append {s s' s'' : State Tid Addr V} {t u : Tid} {labels labels' : List Tid}
    (h : Spins s t u labels s') (h' : Spins s' t u labels' s'') :
    Spins s t u (labels ++ labels') s'' where
  run := h.run.append h'.run
  only label hmem := (List.mem_append.mp hmem).elim (h.only label) (h'.only label)
  log := h'.log.trans h.log
  returned := h'.returned.trans h.returned
  calls := h'.calls.trans h.calls

theorem reachable_of_honest {s s' : State Tid Addr V} {labels : List Tid}
    (hreach : (system Tid Addr V).Reachable s) (hrun : (honest Tid Addr V).Run s labels s') :
    (system Tid Addr V).Reachable s' := by
  induction hrun with
  | refl => exact hreach
  | snoc _ hlast ih => exact ih.next hlast.1

/-- Round after round. -/
theorem Racing.spins [Fintype Tid] {s : State Tid Addr V} (hreach : (system Tid Addr V).Reachable s)
    {t u : Tid} (hne : t ≠ u) {count : Int} {addr : Addr} (h : Racing s t u count addr) (n : Nat) :
    ∃ labels s' count', Spins s t u labels s' ∧ Racing s' t u count' addr ∧
      n ≤ labels.count t ∧ n ≤ labels.count u := by
  induction n with
  | zero => exact ⟨[], s, count, ⟨.refl s, nofun, rfl, rfl, rfl⟩, h, Nat.zero_le _, Nat.zero_le _⟩
  | succ n ih =>
      obtain ⟨labels, s₁, count₁, hspins, hracing, ht, hu⟩ := ih
      have hreach₁ := reachable_of_honest hreach hspins.run
      obtain ⟨s₂, hrun₂, hracing₂, hlog₂, hreturned₂, hcalls₂⟩ := hracing.round hreach₁ hne
      have hreach₂ := reachable_of_honest hreach₁ hrun₂
      obtain ⟨s₃, hrun₃, hracing₃, hlog₃, hreturned₃, hcalls₃⟩ := hracing₂.round hreach₂ hne.symm
      have hfirst : Spins s₁ t u [t, t, t, t] s₂ :=
        ⟨hrun₂, by simp, hlog₂, hreturned₂, hcalls₂⟩
      have hsecond : Spins s₂ t u [u, u, u, u] s₃ :=
        ⟨hrun₃, by simp, hlog₃, hreturned₃, hcalls₃⟩
      refine ⟨labels ++ [t, t, t, t] ++ [u, u, u, u], s₃, _, (hspins.append hfirst).append hsecond,
        hracing₃, ?_, ?_⟩
      · have hrounds : [t, t, t, t].count t = 4 := by simp
        rw [List.count_append, List.count_append, hrounds]
        omega
      · have hrounds : [u, u, u, u].count u = 4 := by simp
        rw [List.count_append, List.count_append, hrounds]
        omega

/-- A thread calls `pop` and makes a reservation. -/
theorem enters {s : State Tid Addr V} {t : Tid} (hidle : s.pc t = .idle) {addr : Addr}
    (hptr : s.head.ptr = some addr) :
    ∃ s' birth, (honest Tid Addr V).Run s [t, t, t] s' ∧
      s'.pc = Function.update s.pc t (.popNext (s.head.externalCount + 1) ⟨addr, birth⟩) ∧
      s'.head = ⟨s.head.externalCount + 1, some addr⟩ ∧ s'.log = s.log ∧
      s'.returned = s.returned ∧ s'.calls = s.calls + 1 := by
  have hcall := honest_of_pop (Step.callPop hidle) (by simp [hidle])
  obtain ⟨s₁, hload⟩ := Moves.load (s := (s.invoke t).goto t .popLoad)
    (Function.update_self ..) hptr
  have hpc : s₁.pc t = _ := hload.pc ▸ Function.update_self ..
  have hhead : s₁.head = s.head := hload.head
  rw [← hload.head] at hpc
  obtain ⟨s₂, birth, hreserve⟩ := Moves.reserve hpc (hhead ▸ hptr)
  refine ⟨s₂, birth, .snoc (.snoc (.snoc (.refl s) hcall) hload.step) hreserve.step, ?_, ?_, ?_,
    ?_, ?_⟩
  · rw [hreserve.pc, hload.pc, hhead]
    simp
  · rw [hreserve.head, hhead]
  · rw [hreserve.log, hload.log]
    rfl
  · rw [hreserve.returned, hload.returned]
    rfl
  · rw [hreserve.calls, hload.calls]
    rfl

/-- From every state that can be reached with something on the stack, two threads that are in no
call can both call `pop` and take any number of steps each, without a spurious failure and with
nobody else moving, and neither call takes effect or returns. -/
theorem livelock [Fintype Tid] (s : State Tid Addr V) (hreach : (system Tid Addr V).Reachable s)
    (t u : Tid) (hne : t ≠ u) (ht : s.pc t = .idle) (hu : s.pc u = .idle) (hsome : s.head.ptr ≠ none)
    (n : Nat) :
    ∃ labels s', (honest Tid Addr V).Run s labels s' ∧ (∀ label ∈ labels, label = t ∨ label = u) ∧
      n ≤ labels.count t ∧ n ≤ labels.count u ∧ s'.calls = s.calls + 2 ∧ s'.log = s.log ∧
      s'.returned = s.returned ∧ s'.pc t ≠ .idle ∧ s'.pc u ≠ .idle := by
  obtain ⟨addr, hptr⟩ := Option.ne_none_iff_exists'.mp hsome
  obtain ⟨s₁, birth, hrun₁, hpc₁, hhead₁, hlog₁, hreturned₁, hcalls₁⟩ := enters ht hptr
  have hidle : s₁.pc u = .idle := by rw [hpc₁, Function.update_of_ne hne.symm, hu]
  obtain ⟨s₂, birth', hrun₂, hpc₂, hhead₂, hlog₂, hreturned₂, hcalls₂⟩ :=
    enters hidle (by rw [hhead₁])
  have hracing : Racing s₂ t u (s.head.externalCount + 1) addr := by
    refine ⟨⟨birth, ?_⟩, ⟨birth', ?_⟩, ?_⟩
    · rw [hpc₂, Function.update_of_ne hne, hpc₁, Function.update_self]
    · rw [hpc₂, Function.update_self, hhead₁]
    · rw [hhead₂, hhead₁]
  have hreach₂ := reachable_of_honest hreach (hrun₁.append hrun₂)
  obtain ⟨labels, s', count, hspins, hracing', htimes, hutimes⟩ := hracing.spins hreach₂ hne n
  obtain ⟨⟨_, htpc⟩, ⟨_, hupc⟩, -⟩ := hracing'
  refine ⟨[t, t, t] ++ [u, u, u] ++ labels, s', (hrun₁.append hrun₂).append hspins.run, ?_, ?_, ?_,
    ?_, ?_, ?_, ?_, ?_⟩
  · intro label hmem
    rcases List.mem_append.mp hmem with hmem | hmem
    · simp at hmem
      exact hmem
    · exact hspins.only label hmem
  · rw [List.count_append]
    exact htimes.trans (Nat.le_add_left _ _)
  · rw [List.count_append]
    exact hutimes.trans (Nat.le_add_left _ _)
  · rw [hspins.calls, hcalls₂, hcalls₁]
  · rw [hspins.log, hlog₂, hlog₁]
  · rw [hspins.returned, hreturned₂, hreturned₁]
  · rw [htpc]
    nofun
  · rw [hupc]
    nofun

/-- One value is on the stack. -/
theorem livelock_one : ∃ s : State Bool Nat Nat, s.returned = [(0, .pushed)] ∧
    ∃ labels s', (honest Bool Nat Nat).Run s labels s' ∧ 100 ≤ labels.count true ∧
      100 ≤ labels.count false ∧ s'.returned = s.returned := by
  have start : (system Bool Nat Nat).Reachable (State.initial Bool Nat Nat) := .start rfl
  have called := start.next (.callEmplace (t := false) 7 rfl)
  have allocated := called.next (.emplaceNew (t := false) 0 rfl rfl)
  have loaded := allocated.next (.emplaceLoad (t := false) rfl rfl)
  have linked := loaded.next (.emplaceCas (t := false) rfl rfl rfl)
  have pushed := linked.next (.emplaceReturn (t := false) rfl)
  obtain ⟨labels, s', hrun, -, htrue, hfalse, -, -, hreturned, -⟩ :=
    livelock _ pushed true false nofun rfl rfl nofun 100
  exact ⟨_, rfl, labels, s', hrun, htrue, hfalse, hreturned⟩

end MoreCpp.LockFreeStack
