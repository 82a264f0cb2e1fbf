import MoreCpp.Concurrency.LockFreeStack.Invariant

/-!
Linearization. Each call takes effect at one step, the one that appends it to
the log: a successful `head_` CAS, or the read of a null `head_` by a pop that
will return empty. The linked nodes always hold the stack the log replays to,
and a call that has taken effect carries the answer the replay gives it.
-/

namespace MoreCpp.LockFreeStack

open Library

variable {Tid Addr V : Type*}

/-- The answer a call has in its locals once it has taken effect. A pop that
has read a null `head_` is bound to return empty whatever it still has to
release. Between `popCas` and `popSwap` the answer is still in the node. -/
def Pc.outcome : Pc Addr V → Option (StackRes V)
  | .emplaceReturn => some .pushed
  | .popTransfer _ _ result | .popDelete _ result | .popReturn result =>
      some (.popped result)
  | .popIncrease oldHead | .popRelease _ oldHead | .popFence _ oldHead
  | .popRetryDelete _ oldHead =>
      if oldHead.ptr = none then some (.popped none) else none
  | _ => none

def Pc.Swapping : Pc Addr V → Prop
  | .popSwap _ _ => True
  | _ => False

/-- Following `next` from `p` meets exactly the values of `stack`. -/
def Contents (heap : Addr → Option (Node Addr V)) : CountedNodePtr Addr → List V → Prop
  | p, [] => p.ptr = none
  | p, value :: rest => ∃ addr node, p.ptr = some addr ∧ heap addr = some node ∧
      node.data = some value ∧ Contents heap node.next rest

/-- The contents depend only on `data` and `next` along the chain. -/
theorem Contents.frame {heap heap' : Addr → Option (Node Addr V)}
    {phase : Addr → Phase Tid} {p : CountedNodePtr Addr} {chain : List Addr} {stack : List V}
    (hchain : Chained heap phase p chain) (h : Contents heap p stack)
    (hheap : ∀ a ∈ chain, ∀ node, heap a = some node →
      ∃ node', heap' a = some node' ∧ node'.next = node.next ∧ node'.data = node.data) :
    Contents heap' p stack := by
  induction chain generalizing p stack with
  | nil =>
      have hnull : p.ptr = none := hchain
      cases stack with
      | nil => exact hnull
      | cons value rest =>
          obtain ⟨addr, _, haddr, _⟩ := h
          rw [hnull] at haddr
          cases haddr
  | cons a chain ih =>
      obtain ⟨hptr, _, node, hnode, hrest⟩ := hchain
      cases stack with
      | nil =>
          have hnull : p.ptr = none := h
          rw [hptr] at hnull
          cases hnull
      | cons value rest =>
          obtain ⟨addr, node', haddr, hnode', hdata, hcontents⟩ := h
          obtain rfl : a = addr := Option.some.inj (hptr.symm.trans haddr)
          obtain rfl : node = node' := Option.some.inj (hnode.symm.trans hnode')
          obtain ⟨after, hafter, hnext, hsame⟩ := hheap a (by simp) node hnode
          refine ⟨a, after, hptr, hafter, hsame.trans hdata, ?_⟩
          rw [hnext]
          exact ih hrest hcontents fun b hb => hheap b (by simp [hb])

/-- The contents depend only on the address of the first pointer. -/
theorem Contents.ptr_congr {heap : Addr → Option (Node Addr V)} {p q : CountedNodePtr Addr}
    {stack : List V} (h : Contents heap p stack) (hptr : q.ptr = p.ptr) :
    Contents heap q stack := by
  cases stack with
  | nil => exact hptr.trans h
  | cons value rest =>
      obtain ⟨addr, node, haddr, hrest⟩ := h
      exact ⟨addr, node, hptr.trans haddr, hrest⟩

structure Effects (s : State Tid Addr V) : Prop where
  contents : Contents s.heap s.head ((lifo V).stateAfter s.log)
  /-- A call that knows its answer has the one of the replay. -/
  outcome : ∀ t res, (s.pc t).outcome = some res →
    (s.callOf t, res) ∈ (lifo V).results s.log
  swapping : ∀ t count ref, s.pc t = .popSwap count ref →
    ∃ node value, s.heap ref.addr = some node ∧ node.data = some value ∧
      (s.callOf t, .popped (some value)) ∈ (lifo V).results s.log
  /-- Until it is linked, a new node holds the value its call pushes. -/
  pushing : ∀ t ref value, s.pc t = .emplaceLoad ref value ∨ s.pc t = .emplaceCas ref value →
    ∀ node, s.heap ref.addr = some node → node.data = some value
  /-- A call without an answer has not taken effect. -/
  undecided : ∀ t, s.pc t ≠ .idle → (s.pc t).outcome = none → ¬ (s.pc t).Swapping →
    s.callOf t ∉ s.log.map Prod.fst
  callOf_lt : ∀ t, s.pc t ≠ .idle → s.callOf t < s.calls
  callOf_inj : ∀ t u, s.pc t ≠ .idle → s.pc u ≠ .idle → s.callOf t = s.callOf u → t = u
  log_lt : ∀ event ∈ s.log, event.1 < s.calls
  log_nodup : (s.log.map Prod.fst).Nodup
  returned : ∀ event ∈ s.returned, event ∈ (lifo V).results s.log
  returned_lt : ∀ event ∈ s.returned, event.1 < s.calls
  returned_nodup : (s.returned.map Prod.fst).Nodup
  running : ∀ t, s.pc t ≠ .idle → s.callOf t ∉ s.returned.map Prod.fst

theorem Effects.initial : Effects (State.initial Tid Addr V) := by
  constructor <;> simp [State.initial, Pc.outcome, Contents]

variable {s : State Tid Addr V} {chain : List Addr} {phase : Addr → Phase Tid}

/-- Reading `head_` in a pop: an empty stack fixes the answer. -/
theorem Effects.observe (e : Effects s) (t : Tid) :
    Contents (s.observe t).heap (s.observe t).head ((lifo V).stateAfter (s.observe t).log) ∧
      (s.head.ptr = none →
        (s.callOf t, .popped none) ∈ (lifo V).results (s.observe t).log) := by
  have hcontents := e.contents
  by_cases hnull : s.head.ptr = none
  · have hempty : (lifo V).stateAfter s.log = [] := by
      cases hstack : (lifo V).stateAfter s.log with
      | nil => rfl
      | cons value rest =>
          rw [hstack] at hcontents
          obtain ⟨addr, _, haddr, _⟩ := hcontents
          rw [hnull] at haddr
          cases haddr
    have hlog : (s.observe t).log = s.log ++ [(s.callOf t, .pop)] := by
      simp [State.observe, hnull]
    rw [hlog, SequentialObject.stateAfter_concat, SequentialObject.results_concat, hempty]
    simpa [Contents] using hnull
  · have hlog : (s.observe t).log = s.log := by simp [State.observe, hnull]
    rw [hlog, State.observe_heap, State.observe_head]
    exact ⟨hcontents, fun h => absurd h hnull⟩

variable [DecidableEq Tid]

/-- A step inside a call that may let the call take effect, and that leaves
the values of nodes other calls own alone. -/
theorem Effects.advance (e : Effects s) {s' : State Tid Addr V} {t : Tid} {p : Pc Addr V}
    (hpc : s'.pc = Function.update s.pc t p)
    (hcalls : s'.calls = s.calls) (hcallOf : s'.callOf = s.callOf)
    (hreturned : s'.returned = s.returned)
    (hbusy : s.pc t ≠ .idle)
    (hlog : s'.log = s.log ∨ ∃ op, s'.log = s.log ++ [(s.callOf t, op)] ∧
      s.callOf t ∉ s.log.map Prod.fst)
    (hcontents : Contents s'.heap s'.head ((lifo V).stateAfter s'.log))
    (houtcome : ∀ res, p.outcome = some res →
      (s.callOf t, res) ∈ (lifo V).results s'.log)
    (hswapping : ∀ count ref, p = .popSwap count ref →
      ∃ node value, s'.heap ref.addr = some node ∧ node.data = some value ∧
        (s.callOf t, .popped (some value)) ∈ (lifo V).results s'.log)
    (hpushing : ∀ ref value, p = .emplaceLoad ref value ∨ p = .emplaceCas ref value →
      ∀ node, s'.heap ref.addr = some node → node.data = some value)
    (hundecided : p.outcome = none → ¬ p.Swapping →
      s'.log = s.log ∧ (s.pc t).outcome = none ∧ ¬ (s.pc t).Swapping)
    (hdata : ∀ u a role, u ≠ t → (s.pc u).owns = some (a, role) →
      (s'.heap a).map Node.data = (s.heap a).map Node.data) :
    Effects s' := by
  have hself : s'.pc t = p := by rw [hpc, Function.update_self]
  have hothers : ∀ u, u ≠ t → s'.pc u = s.pc u := fun u hu => by
    rw [hpc, Function.update_of_ne hu]
  have hwas : ∀ u, s'.pc u ≠ .idle → s.pc u ≠ .idle := by
    intro u hu
    rcases eq_or_ne u t with rfl | hut
    · exact hbusy
    · rwa [← hothers u hut]
  have hresults : ∀ event, event ∈ (lifo V).results s.log →
      event ∈ (lifo V).results s'.log := by
    intro event hevent
    rcases hlog with hlog | ⟨op, hlog, _⟩
    · rwa [hlog]
    · rw [hlog, SequentialObject.results_concat]
      exact List.mem_append_left _ hevent
  constructor
  case contents => exact hcontents
  case outcome =>
    intro u res hres
    rw [hcallOf]
    rcases eq_or_ne u t with rfl | hut
    · rw [hself] at hres
      exact houtcome res hres
    · rw [hothers u hut] at hres
      exact hresults _ (e.outcome u res hres)
  case swapping =>
    intro u count ref hu
    rw [hcallOf]
    rcases eq_or_ne u t with rfl | hut
    · exact hswapping count ref (hself.symm.trans hu)
    · have hold : s.pc u = .popSwap count ref := (hothers u hut).symm.trans hu
      obtain ⟨node, value, hnode, hvalue, hres⟩ := e.swapping u count ref hold
      have hsame := hdata u ref.addr (.unlinking count) hut (by rw [hold]; rfl)
      rw [hnode] at hsame
      obtain ⟨node', hnode', hvalue'⟩ := Option.map_eq_some_iff.mp hsame
      exact ⟨node', value, hnode', hvalue'.trans hvalue, hresults _ hres⟩
  case pushing =>
    intro u ref value hu node' hnode'
    rcases eq_or_ne u t with rfl | hut
    · rw [hself] at hu
      exact hpushing ref value hu node' hnode'
    · rw [hothers u hut] at hu
      have hown : (s.pc u).owns = some (ref.addr, .fresh) := by
        rcases hu with hu | hu <;> rw [hu] <;> rfl
      have hsame := hdata u ref.addr .fresh hut hown
      rw [hnode'] at hsame
      obtain ⟨node, hnode, hvalue⟩ := Option.map_eq_some_iff.mp hsame.symm
      exact hvalue.symm.trans (e.pushing u ref value hu node hnode)
  case undecided =>
    intro u hu hout hswap
    rw [hcallOf]
    rcases eq_or_ne u t with rfl | hut
    · rw [hself] at hout hswap
      obtain ⟨hsame, hopen, hnot⟩ := hundecided hout hswap
      rw [hsame]
      exact e.undecided u hbusy hopen hnot
    · rw [hothers u hut] at hu hout hswap
      have hbefore := e.undecided u hu hout hswap
      rcases hlog with hlog | ⟨op, hlog, hnot⟩
      · rwa [hlog]
      · rw [hlog, List.map_append, List.mem_append]
        rintro (hold | hnew)
        · exact hbefore hold
        · exact hut (e.callOf_inj u t hu hbusy (List.mem_singleton.mp hnew))
  case callOf_lt =>
    intro u hu
    rw [hcallOf, hcalls]
    exact e.callOf_lt u (hwas u hu)
  case callOf_inj =>
    intro u v hu hv heq
    rw [hcallOf] at heq
    exact e.callOf_inj u v (hwas u hu) (hwas v hv) heq
  case log_lt =>
    intro event hevent
    rw [hcalls]
    rcases hlog with hlog | ⟨op, hlog, -⟩ <;> rw [hlog] at hevent
    · exact e.log_lt event hevent
    · rcases List.mem_append.mp hevent with hold | hnew
      · exact e.log_lt event hold
      · rw [List.mem_singleton.mp hnew]
        exact e.callOf_lt t hbusy
  case log_nodup =>
    rcases hlog with hlog | ⟨op, hlog, hnot⟩ <;> rw [hlog]
    · exact e.log_nodup
    · rw [List.map_append, List.nodup_append]
      refine ⟨e.log_nodup, List.nodup_singleton _, fun call hcall call' hcall' heq => ?_⟩
      rw [heq, List.mem_singleton.mp hcall'] at hcall
      exact hnot hcall
  case returned => rw [hreturned]; exact fun event hevent => hresults _ (e.returned event hevent)
  case returned_lt => rw [hreturned, hcalls]; exact e.returned_lt
  case returned_nodup => rw [hreturned]; exact e.returned_nodup
  case running =>
    intro u hu
    rw [hcallOf, hreturned]
    exact e.running u (hwas u hu)

/-- The steps that read `head_` into a pop's `old_head`. -/
theorem Effects.readHead (e : Effects s) {t : Tid} {p : Pc Addr V}
    (hbusy : s.pc t ≠ .idle) (hopen : (s.pc t).outcome = none) (hnot : ¬ (s.pc t).Swapping)
    (hp : p.outcome = if s.head.ptr = none then some (.popped none) else none)
    (hswap : ∀ count ref, p ≠ .popSwap count ref)
    (hpush : ∀ ref value, p ≠ .emplaceLoad ref value ∧ p ≠ .emplaceCas ref value) :
    Effects ((s.observe t).goto t p) := by
  obtain ⟨hcontents, hempty⟩ := e.observe t
  have hundecided := e.undecided t hbusy hopen hnot
  refine e.advance (t := t) (p := p) ?_ ?_ ?_ ?_ hbusy ?_ hcontents ?_ ?_ ?_ ?_ ?_
  case refine_1 => simp
  case refine_2 => simp [State.observe]; split <;> rfl
  case refine_3 => simp [State.observe]; split <;> rfl
  case refine_4 => simp [State.observe]; split <;> rfl
  case refine_5 =>
    by_cases hnull : s.head.ptr = none
    · exact .inr ⟨.pop, by simp [State.observe, hnull], hundecided⟩
    · exact .inl (by simp [State.observe, hnull])
  case refine_6 =>
    intro res hres
    rw [hp] at hres
    split at hres
    case isTrue hnull => cases hres; exact hempty hnull
    case isFalse => cases hres
  case refine_7 => exact fun count ref h => absurd h (hswap count ref)
  case refine_8 =>
    rintro ref value (h | h)
    · exact absurd h (hpush ref value).1
    · exact absurd h (hpush ref value).2
  case refine_9 =>
    intro hnone _
    rw [hp] at hnone
    split at hnone
    case isTrue => cases hnone
    case isFalse hnull => exact ⟨by simp [State.observe, hnull], hopen, hnot⟩
  case refine_10 => simp

theorem Effects.emplaceCas (e : Effects s) {t : Tid}
    {ref : NodeRef Addr} {value : V} {node : Node Addr V}
    (hpc : s.pc t = .emplaceCas ref value) (hnode : s.heap ref.addr = some node)
    (hequal : s.head = node.next) :
    Effects (({ s with head := ⟨1, some ref.addr⟩ }.effect t (.push value)).goto t
      .emplaceReturn) := by
  have hbusy : s.pc t ≠ .idle := by simp [hpc]
  have hdata : node.data = some value := e.pushing t ref value (.inr hpc) node hnode
  refine e.advance (t := t) (p := .emplaceReturn) rfl rfl rfl rfl hbusy
    (.inr ⟨_, rfl, e.undecided t hbusy (by simp [hpc, Pc.outcome]) (by simp [hpc, Pc.Swapping])⟩)
    ?_ ?_ ?_ ?_ ?_ ?_
  case refine_1 =>
    simp only [State.goto_heap, State.goto_head, State.goto_log, State.effect_heap,
      State.effect_head, State.effect_log, SequentialObject.stateAfter_concat, lifo_push]
    refine ⟨ref.addr, node, rfl, hnode, hdata, ?_⟩
    rw [← hequal]
    exact e.contents
  case refine_2 =>
    intro res hres
    cases hres
    simp
  case refine_3 => simp
  case refine_4 => simp
  case refine_5 => simp [Pc.outcome]
  case refine_6 => simp

/-- Entering a call. -/
theorem Effects.invoke (e : Effects s) {t : Tid} {p : Pc Addr V}
    (hp : p = .popLoad ∨ ∃ value, p = .emplaceNew value) :
    Effects ((s.invoke t).goto t p) := by
  have houtcome : p.outcome = none := by rcases hp with rfl | ⟨_, rfl⟩ <;> rfl
  have hshape : (∀ count ref, p ≠ .popSwap count ref) ∧
      ∀ ref value, p ≠ .emplaceLoad ref value ∧ p ≠ .emplaceCas ref value := by
    rcases hp with rfl | ⟨_, rfl⟩ <;> simp
  have hfresh : s.calls ∉ s.log.map Prod.fst ∧ s.calls ∉ s.returned.map Prod.fst := by
    constructor
    · intro hmem
      obtain ⟨event, hevent, heq⟩ := List.mem_map.mp hmem
      exact Nat.lt_irrefl _ (heq ▸ e.log_lt event hevent)
    · intro hmem
      obtain ⟨event, hevent, heq⟩ := List.mem_map.mp hmem
      exact Nat.lt_irrefl _ (heq ▸ e.returned_lt event hevent)
  have hpc : ((s.invoke t).goto t p).pc = Function.update s.pc t p := rfl
  have hcallOf : ((s.invoke t).goto t p).callOf = Function.update s.callOf t s.calls := rfl
  constructor
  case contents => exact e.contents
  case outcome =>
    intro u res hres
    rw [hpc] at hres
    rw [hcallOf]
    rcases eq_or_ne u t with rfl | hu
    · rw [Function.update_self] at hres
      cases houtcome.symm.trans hres
    · rw [Function.update_of_ne hu] at hres ⊢
      exact e.outcome u res hres
  case swapping =>
    intro u count ref hu
    rw [hpc] at hu
    obtain ⟨hut, hswap⟩ := update_eq_other hu (hshape.1 count ref)
    rw [hcallOf, Function.update_of_ne hut]
    exact e.swapping u count ref hswap
  case pushing =>
    intro u ref value hu
    rw [hpc] at hu
    apply e.pushing u ref value
    rcases hu with hload | hcas
    · exact .inl (update_eq_other hload (hshape.2 ref value).1).2
    · exact .inr (update_eq_other hcas (hshape.2 ref value).2).2
  case undecided =>
    intro u hu hout hswap
    rw [hpc] at hu hout hswap
    rw [hcallOf]
    rcases eq_or_ne u t with rfl | hut
    · rw [Function.update_self]
      exact hfresh.1
    · rw [Function.update_of_ne hut] at hu hout hswap ⊢
      exact e.undecided u hu hout hswap
  case callOf_lt =>
    intro u hu
    rw [hpc] at hu
    rw [hcallOf]
    rcases eq_or_ne u t with rfl | hut
    · rw [Function.update_self]
      exact Nat.lt_succ_self _
    · rw [Function.update_of_ne hut] at hu ⊢
      exact Nat.lt_succ_of_lt (e.callOf_lt u hu)
  case callOf_inj =>
    intro u v hu hv heq
    rw [hpc] at hu hv
    rw [hcallOf] at heq
    rcases eq_or_ne u t with hut | hut <;> rcases eq_or_ne v t with hvt | hvt
    · exact hut.trans hvt.symm
    · rw [hut, Function.update_self, Function.update_of_ne hvt] at heq
      rw [Function.update_of_ne hvt] at hv
      exact absurd heq (Nat.ne_of_gt (e.callOf_lt v hv))
    · rw [hvt, Function.update_self, Function.update_of_ne hut] at heq
      rw [Function.update_of_ne hut] at hu
      exact absurd heq (Nat.ne_of_lt (e.callOf_lt u hu))
    · rw [Function.update_of_ne hut, Function.update_of_ne hvt] at heq
      rw [Function.update_of_ne hut] at hu
      rw [Function.update_of_ne hvt] at hv
      exact e.callOf_inj u v hu hv heq
  case log_lt => exact fun event hevent => Nat.lt_succ_of_lt (e.log_lt event hevent)
  case log_nodup => exact e.log_nodup
  case returned => exact e.returned
  case returned_lt => exact fun event hevent => Nat.lt_succ_of_lt (e.returned_lt event hevent)
  case returned_nodup => exact e.returned_nodup
  case running =>
    intro u hu
    rw [hpc] at hu
    rw [hcallOf]
    rcases eq_or_ne u t with rfl | hut
    · rw [Function.update_self]
      exact hfresh.2
    · rw [Function.update_of_ne hut] at hu ⊢
      exact e.running u hu

/-- Leaving a call, with an answer noted or by an exception. -/
theorem Effects.leave (e : Effects s) {s' : State Tid Addr V} {t : Tid}
    (hbusy : s.pc t ≠ .idle)
    (hheap : s'.heap = s.heap) (hhead : s'.head = s.head)
    (hpc : s'.pc = Function.update s.pc t .idle)
    (hcalls : s'.calls = s.calls) (hcallOf : s'.callOf = s.callOf) (hlog : s'.log = s.log)
    (hreturned : s'.returned = s.returned ∨ ∃ res, (s.pc t).outcome = some res ∧
      s'.returned = s.returned ++ [(s.callOf t, res)]) :
    Effects s' := by
  have hwas : ∀ u, s'.pc u ≠ .idle → u ≠ t ∧ s'.pc u = s.pc u := by
    intro u hu
    rcases eq_or_ne u t with rfl | hut
    · rw [hpc, Function.update_self] at hu
      exact absurd rfl hu
    · exact ⟨hut, by rw [hpc, Function.update_of_ne hut]⟩
  have hreturned' : ∀ event ∈ s'.returned, event ∈ s.returned ∨
      ∃ res, (s.pc t).outcome = some res ∧ event = (s.callOf t, res) := by
    intro event hevent
    rcases hreturned with hreturned | ⟨res, hres, hreturned⟩ <;> rw [hreturned] at hevent
    · exact .inl hevent
    · exact (List.mem_append.mp hevent).imp_right fun hnew =>
        ⟨res, hres, List.mem_singleton.mp hnew⟩
  constructor
  case contents => rw [hheap, hhead, hlog]; exact e.contents
  case outcome =>
    intro u res hres
    have hu : s'.pc u ≠ .idle := fun hidle => by
      rw [hidle] at hres
      cases hres
    rw [(hwas u hu).2] at hres
    rw [hcallOf, hlog]
    exact e.outcome u res hres
  case swapping =>
    intro u count ref hu
    have hsame := (hwas u (by rw [hu]; exact nofun)).2
    rw [hcallOf, hlog, hheap]
    exact e.swapping u count ref (hsame.symm.trans hu)
  case pushing =>
    intro u ref value hu
    have hne : s'.pc u ≠ .idle := fun hidle => by
      rw [hidle] at hu
      rcases hu with hu | hu <;> cases hu
    rw [(hwas u hne).2] at hu
    rw [hheap]
    exact e.pushing u ref value hu
  case undecided =>
    intro u hu hout hswap
    have hsame := (hwas u hu).2
    rw [hsame] at hu hout hswap
    rw [hcallOf, hlog]
    exact e.undecided u hu hout hswap
  case callOf_lt =>
    intro u hu
    rw [(hwas u hu).2] at hu
    rw [hcallOf, hcalls]
    exact e.callOf_lt u hu
  case callOf_inj =>
    intro u v hu hv heq
    rw [(hwas u hu).2] at hu
    rw [(hwas v hv).2] at hv
    rw [hcallOf] at heq
    exact e.callOf_inj u v hu hv heq
  case log_lt => rw [hlog, hcalls]; exact e.log_lt
  case log_nodup => rw [hlog]; exact e.log_nodup
  case returned =>
    intro event hevent
    rw [hlog]
    rcases hreturned' event hevent with hold | ⟨res, hres, rfl⟩
    · exact e.returned event hold
    · exact e.outcome t res hres
  case returned_lt =>
    intro event hevent
    rw [hcalls]
    rcases hreturned' event hevent with hold | ⟨res, hres, rfl⟩
    · exact e.returned_lt event hold
    · exact e.callOf_lt t hbusy
  case returned_nodup =>
    rcases hreturned with hreturned | ⟨res, _, hreturned⟩ <;> rw [hreturned]
    · exact e.returned_nodup
    · rw [List.map_append, List.nodup_append]
      refine ⟨e.returned_nodup, List.nodup_singleton _, fun call hcall call' hcall' heq => ?_⟩
      rw [heq, List.mem_singleton.mp hcall'] at hcall
      exact e.running t hbusy hcall
  case running =>
    intro u hu hmem
    obtain ⟨hut, hsame⟩ := hwas u hu
    rw [hsame] at hu
    rw [hcallOf] at hmem
    obtain ⟨event, hevent, heq⟩ := List.mem_map.mp hmem
    rcases hreturned' event hevent with hold | ⟨res, hres, rfl⟩
    · exact e.running u hu (List.mem_map.mpr ⟨event, hold, heq⟩)
    · exact hut (e.callOf_inj u t hu hbusy heq.symm)

variable [Fintype Tid] [DecidableEq Addr]

/-- A step that changes at most one node, which its thread owns or whose
`data` and `next` it keeps. -/
theorem Effects.write (e : Effects s) (h : Inv s chain phase) {s' : State Tid Addr V}
    {t : Tid} {p : Pc Addr V} {a : Addr}
    (hheap : ∀ b, b ≠ a → s'.heap b = s.heap b)
    (hkeep : (∃ role, (s.pc t).owns = some (a, role)) ∨ ∃ node node',
      s.heap a = some node ∧ s'.heap a = some node' ∧
        node'.next = node.next ∧ node'.data = node.data)
    (hhead : s'.head = s.head)
    (hpc : s'.pc = Function.update s.pc t p)
    (hcalls : s'.calls = s.calls) (hcallOf : s'.callOf = s.callOf)
    (hreturned : s'.returned = s.returned) (hlog : s'.log = s.log)
    (hbusy : s.pc t ≠ .idle)
    (houtcome : ∀ res, p.outcome = some res → (s.callOf t, res) ∈ (lifo V).results s.log)
    (hswap : ∀ count ref, p ≠ .popSwap count ref)
    (hpushing : ∀ ref value, p = .emplaceLoad ref value ∨ p = .emplaceCas ref value →
      ∀ node, s'.heap ref.addr = some node → node.data = some value)
    (hundecided : p.outcome = none → (s.pc t).outcome = none ∧ ¬ (s.pc t).Swapping) :
    Effects s' := by
  refine e.advance (t := t) (p := p) hpc hcalls hcallOf hreturned hbusy (.inl hlog) ?_ ?_ ?_
    hpushing ?_ ?_
  case refine_1 =>
    rw [hlog, hhead]
    apply e.contents.frame h.chained
    intro b hb node hnode
    by_cases hba : b = a
    · subst hba
      rcases hkeep with ⟨role, hown⟩ | ⟨node₀, node', hnode₀, hnode', hnext, hdata⟩
      · obtain ⟨count, hlinked⟩ := h.chained.linked_of_mem hb
        rw [(h.owner t b role).mp hown] at hlinked
        cases hlinked
      · obtain rfl : node = node₀ := Option.some.inj (hnode.symm.trans hnode₀)
        exact ⟨node', hnode', hnext, hdata⟩
    · exact ⟨node, (hheap b hba).trans hnode, rfl, rfl⟩
  case refine_2 => rwa [hlog]
  case refine_3 => exact fun count ref hp => absurd hp (hswap count ref)
  case refine_4 => exact fun hnone _ => ⟨hlog, hundecided hnone⟩
  case refine_5 =>
    intro u b role hut hown
    by_cases hba : b = a
    · subst hba
      rcases hkeep with ⟨role', hmine⟩ | ⟨node, node', hnode, hnode', _, hdata⟩
      · exact absurd (h.owner_unique hmine hown) hut
      · simp [hnode, hnode', hdata]
    · rw [hheap b hba]

theorem Effects.popCas (e : Effects s) (h : Inv s chain phase) {t : Tid} {count : Int}
    {ref : NodeRef Addr} {next : CountedNodePtr Addr}
    (hpc : s.pc t = .popCas count ref next) (hequal : s.head = ⟨count, some ref.addr⟩) :
    Effects (({ s with head := next, unlinked := s.unlinked ++ [ref.birth] }.effect t
      .pop).goto t (.popSwap count ref)) := by
  have hbusy : s.pc t ≠ .idle := by simp [hpc]
  obtain ⟨rest, node, -, -, hnode, -⟩ := h.head_cons (a := ref.addr) (by rw [hequal])
  have hnext : node.next = next := h.readNext t count ref next hpc node hnode
  have hcontents := e.contents
  cases hstack : (lifo V).stateAfter s.log with
  | nil =>
      rw [hstack] at hcontents
      have hnull : s.head.ptr = none := hcontents
      rw [hequal] at hnull
      cases hnull
  | cons value below =>
      rw [hstack] at hcontents
      obtain ⟨addr, node', haddr, hnode', hdata, hbelow⟩ := hcontents
      obtain rfl : ref.addr = addr := by
        rw [hequal] at haddr
        exact Option.some.inj haddr
      obtain rfl : node = node' := Option.some.inj (hnode.symm.trans hnode')
      refine e.advance (t := t) (p := .popSwap count ref) rfl rfl rfl rfl hbusy
        (.inr ⟨_, rfl, e.undecided t hbusy (by simp [hpc, Pc.outcome])
          (by simp [hpc, Pc.Swapping])⟩) ?_ ?_ ?_ ?_ ?_ ?_
      case refine_1 => simpa [hstack, ← hnext] using hbelow
      case refine_2 => simp [Pc.outcome]
      case refine_3 =>
        intro count' ref' hp
        cases hp
        exact ⟨node, value, hnode, hdata, by simp [hstack]⟩
      case refine_4 => simp
      case refine_5 => simp [Pc.Swapping]
      case refine_6 => simp

/-- Every step keeps the log and the answers in agreement with the nodes. -/
theorem Effects.step (e : Effects s) (h : Inv s chain phase) {t : Tid} {s' : State Tid Addr V}
    (hstep : Step s t s') : Effects s' := by
  cases hstep with
  | callEmplace value _ => exact e.invoke (.inr ⟨value, rfl⟩)
  | callPop _ => exact e.invoke (.inl rfl)
  | emplaceNew addr hpc hfree =>
      refine e.advance (t := t) rfl rfl rfl rfl (by simp [hpc]) (.inl rfl) ?_ ?_ ?_ ?_ ?_ ?_
      case refine_1 =>
        apply e.contents.frame h.chained
        intro b hb node hnode
        have hba : b ≠ addr := by
          rintro rfl
          rw [hfree] at hnode
          cases hnode
        exact ⟨node, by simp [hba, hnode], rfl, rfl⟩
      case refine_2 => simp [Pc.outcome]
      case refine_3 => simp
      case refine_4 =>
        rintro ref value' (hp | hp) <;> cases hp
        simp
      case refine_5 => simp [hpc, Pc.outcome, Pc.Swapping]
      case refine_6 =>
        intro u a role _ hown
        have hlive : s.heap a ≠ none := by
          have hbal := h.balance a
          rw [(h.owner u a role).mp hown] at hbal
          cases role <;> obtain ⟨node, hnode, -⟩ := hbal <;> simp [hnode]
        have hne : a ≠ addr := by
          rintro rfl
          exact hlive hfree
        simp [hne]
  | emplaceThrow hpc =>
      exact e.leave (t := t) (by simp [hpc]) rfl rfl rfl rfl rfl rfl (.inl rfl)
  | @emplaceLoad ref value node hpc hnode =>
      refine e.write (t := t) (a := ref.addr) h ?_ ?_ rfl rfl rfl rfl rfl rfl ?_ ?_ ?_ ?_ ?_
      case refine_4 => simp [Pc.outcome]
      case refine_6 =>
        rintro ref' value' (hp | hp) <;> cases hp
        simpa using e.pushing t ref value (.inl hpc) node hnode
      all_goals simp +contextual [hpc, Pc.owns, Pc.outcome, Pc.Swapping]
  | emplaceCas hpc hnode hequal => exact e.emplaceCas hpc hnode hequal
  | @emplaceCasFail ref value node hpc hnode =>
      refine e.write (t := t) (a := ref.addr) h ?_ ?_ rfl rfl rfl rfl rfl rfl ?_ ?_ ?_ ?_ ?_
      case refine_4 => simp [Pc.outcome]
      case refine_6 =>
        rintro ref' value' (hp | hp) <;> cases hp
        simpa using e.pushing t ref value (.inr hpc) node hnode
      all_goals simp +contextual [hpc, Pc.owns, Pc.outcome, Pc.Swapping]
  | emplaceReturn hpc =>
      exact e.leave (t := t) (by simp [hpc]) rfl rfl rfl rfl rfl rfl
        (.inr ⟨.pushed, by simp [hpc, Pc.outcome], rfl⟩)
  | popLoad hpc =>
      refine e.readHead (t := t) ?_ ?_ ?_ rfl ?_ ?_ <;> simp [hpc, Pc.outcome, Pc.Swapping]
  | popEmpty hpc hnull =>
      have hanswer := e.outcome t (.popped none) (by simp [hpc, hnull, Pc.outcome])
      refine e.advance (t := t) rfl rfl rfl rfl (by simp [hpc]) (.inl rfl) e.contents ?_ ?_ ?_
        ?_ ?_
      case refine_1 =>
        intro res hres
        cases hres
        exact hanswer
      all_goals simp [Pc.outcome]
  | popIncrease hpc hptr hequal =>
      refine e.advance (t := t) rfl rfl rfl rfl (by simp [hpc]) (.inl rfl) ?_ ?_ ?_ ?_ ?_ ?_
      case refine_1 => exact e.contents.ptr_congr (by simp [hequal, hptr])
      all_goals simp [hpc, hptr, Pc.outcome, Pc.Swapping]
  | popIncreaseFail hpc hptr hdiffer =>
      refine e.readHead (t := t) ?_ ?_ ?_ rfl ?_ ?_ <;>
        simp [hpc, hptr, Pc.outcome, Pc.Swapping]
  | popNext hpc hnode =>
      refine e.advance (t := t) rfl rfl rfl rfl (by simp [hpc]) (.inl rfl) e.contents ?_ ?_ ?_
        ?_ ?_ <;> simp [hpc, Pc.outcome, Pc.Swapping]
  | popCas hpc hequal => exact e.popCas h hpc hequal
  | popCasFail hpc hdiffer =>
      refine e.readHead (t := t) ?_ ?_ ?_ rfl ?_ ?_ <;> simp [hpc, Pc.outcome, Pc.Swapping]
  | @popSwap count ref node hpc hnode =>
      obtain ⟨node', value, hnode', hvalue, hanswer⟩ := e.swapping t count ref hpc
      obtain rfl : node = node' := Option.some.inj (hnode.symm.trans hnode')
      refine e.write (t := t) (a := ref.addr) h ?_ ?_ rfl rfl rfl rfl rfl rfl ?_ ?_ ?_ ?_ ?_
      case refine_4 =>
        intro res hres
        cases hres
        rwa [hvalue]
      all_goals simp +contextual [hpc, Pc.owns, Pc.outcome]
  | @popTransfer count ref result node hpc hnode =>
      have hanswer := e.outcome t (.popped result) (by simp [hpc, Pc.outcome])
      refine e.write (t := t) (a := ref.addr) h ?_ ?_ rfl rfl rfl rfl rfl rfl ?_ ?_ ?_ ?_ ?_
      case refine_4 =>
        intro res hres
        split at hres <;> cases hres <;> exact hanswer
      case refine_5 => split <;> simp
      case refine_6 => split <;> simp
      case refine_7 => split <;> simp [Pc.outcome]
      all_goals simp +contextual [hpc, Pc.owns]
  | @popDelete ref result hpc hnode =>
      have hanswer := e.outcome t (.popped result) (by simp [hpc, Pc.outcome])
      refine e.write (t := t) (a := ref.addr) h ?_ ?_ rfl rfl rfl rfl rfl rfl ?_ ?_ ?_ ?_ ?_
      case refine_4 =>
        intro res hres
        cases hres
        exact hanswer
      all_goals simp +contextual [hpc, Pc.owns, Pc.outcome]
  | popReturn hpc =>
      exact e.leave (t := t) (by simp [hpc]) rfl rfl rfl rfl rfl rfl
        (.inr ⟨_, by rw [hpc]; rfl, rfl⟩)
  | @popRelease ref oldHead node hpc hnode =>
      refine e.write (t := t) (a := ref.addr) h ?_ ?_ rfl rfl rfl rfl rfl rfl ?_ ?_ ?_ ?_ ?_
      case refine_2 =>
        exact .inr ⟨node, { node with internalCount := node.internalCount - 1 }, hnode,
          by simp, rfl, rfl⟩
      case refine_4 =>
        intro res hres
        apply e.outcome t res
        rw [hpc]
        split at hres <;> exact hres
      case refine_5 => split <;> simp
      case refine_6 => split <;> simp
      case refine_7 => split <;> simp [hpc, Pc.outcome, Pc.Swapping]
      all_goals simp +contextual [hpc]
  | popFence hpc hnode =>
      refine e.advance (t := t) rfl rfl rfl rfl (by simp [hpc]) (.inl rfl) e.contents ?_ ?_ ?_
        ?_ ?_
      case refine_1 => exact fun res hres => e.outcome t res (by rw [hpc]; exact hres)
      all_goals simp [hpc, Pc.outcome, Pc.Swapping]
  | @popRetryDelete ref oldHead hpc hnode =>
      refine e.write (t := t) (a := ref.addr) h ?_ ?_ rfl rfl rfl rfl rfl rfl ?_ ?_ ?_ ?_ ?_
      case refine_4 => exact fun res hres => e.outcome t res (by rw [hpc]; exact hres)
      all_goals simp +contextual [hpc, Pc.owns, Pc.outcome, Pc.Swapping]

end MoreCpp.LockFreeStack
