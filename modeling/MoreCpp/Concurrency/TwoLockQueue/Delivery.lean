import MoreCpp.Concurrency.TwoLockQueue.Invariant

/-!
Exactly-once delivery in FIFO order. Each pop is known by the acquisition of
`head_mutex` it was made under; this ticket travels with the call from
`pop_head` to its return.
-/

namespace MoreCpp.TwoLockQueue

open Library

variable {Tid Addr V : Type*}

namespace Pc

/-- The pop a call has made and not returned from yet. -/
def ticket : Pc Addr V → Option Nat
  | .popUnlock _ _ _ ticket | .popResult _ ticket | .popFree _ _ ticket => some ticket
  | _ => none

/-- About to acquire `head_mutex`. -/
def WantsHead : Pc Addr V → Bool
  | .popLock _ => true
  | _ => false

/-- About to acquire `tail_mutex`. -/
def WantsTail : Pc Addr V → Bool
  | .pushLock _ _ | .popTailLock _ => true
  | _ => false

/-- Holding `head_mutex` without having popped under it. -/
def Unpopped (p : Pc Addr V) : Bool := p.HoldsHead && p.ticket.isNone

end Pc

/-- The logs of popped and delivered values. -/
structure Deliveries (pc : Tid → Pc Addr V) (acquired : Nat)
    (popped delivered : List (Nat × Option V)) : Prop where
  ordered : (popped.map Prod.fst).Pairwise (· < ·)
  upTo : ∀ event ∈ popped, event.1 ≤ acquired
  fresh : ∀ t, (pc t).Unpopped = true → ∀ event ∈ popped, event.1 < acquired
  nodup : (delivered.map Prod.fst).Nodup
  sound : ∀ event ∈ delivered, event ∈ popped
  complete : ∀ event ∈ popped, event ∈ delivered ∨ ∃ t, (pc t).ticket = some event.1
  pending : ∀ t n, (pc t).ticket = some n →
    n ∈ popped.map Prod.fst ∧ n ∉ delivered.map Prod.fst
  unique : ∀ t u n, (pc t).ticket = some n → (pc u).ticket = some n → u = t

namespace Deliveries

theorem initial : Deliveries (fun _ : Tid => (.idle : Pc Addr V)) 0 [] [] := by
  constructor <;> simp [Pc.ticket]

variable {pc : Tid → Pc Addr V} {acquired : Nat} {popped delivered : List (Nat × Option V)}
  {t : Tid} {p : Pc Addr V}

theorem popped_nodup (h : Deliveries pc acquired popped delivered) :
    (popped.map Prod.fst).Nodup :=
  h.ordered.imp fun hlt => Nat.ne_of_lt hlt

theorem acquire (h : Deliveries pc acquired popped delivered) :
    Deliveries pc (acquired + 1) popped delivered where
  ordered := h.ordered
  upTo event hmem := Nat.le_succ_of_le (h.upTo event hmem)
  fresh _ _ event hmem := Nat.lt_succ_of_le (h.upTo event hmem)
  nodup := h.nodup
  sound := h.sound
  complete := h.complete
  pending := h.pending
  unique := h.unique

variable [DecidableEq Tid]

/-- Steps that neither acquire `head_mutex` nor pop nor deliver. -/
theorem keep (h : Deliveries pc acquired popped delivered) (hticket : p.ticket = (pc t).ticket)
    (hfresh : p.Unpopped = true → ∀ event ∈ popped, event.1 < acquired) :
    Deliveries (Function.update pc t p) acquired popped delivered := by
  have hsame : ∀ u, (Function.update pc t p u).ticket = (pc u).ticket := by
    intro u
    rcases eq_or_ne u t with rfl | hu
    · rw [Function.update_self, hticket]
    · rw [Function.update_of_ne hu]
  refine { h with fresh := ?fresh, complete := ?complete, pending := ?pending, unique := ?unique }
  case fresh =>
    intro u hu
    rcases eq_or_ne u t with rfl | hne
    · rw [Function.update_self] at hu
      exact hfresh hu
    · rw [Function.update_of_ne hne] at hu
      exact h.fresh u hu
  case complete =>
    intro event hmem
    rcases h.complete event hmem with hdone | ⟨u, hu⟩
    · exact .inl hdone
    · exact .inr ⟨u, (hsame u).trans hu⟩
  case pending => exact fun u n hu => h.pending u n ((hsame u).symm.trans hu)
  case unique =>
    exact fun u v n hu hv => h.unique u v n ((hsame u).symm.trans hu) ((hsame v).symm.trans hv)

/-- A pop under the current acquisition of `head_mutex`, of which it is the only one. -/
theorem pop (h : Deliveries pc acquired popped delivered) (hin : (pc t).Unpopped = true)
    (hother : ∀ u, u ≠ t → (pc u).Unpopped = false) (hticket : p.ticket = some acquired)
    (value : Option V) :
    Deliveries (Function.update pc t p) acquired (popped ++ [(acquired, value)])
      delivered := by
  have hfresh := h.fresh t hin
  have hnone : (pc t).ticket = none := by
    simpa using (Bool.and_eq_true_iff.mp hin).2
  have hnew : acquired ∉ popped.map Prod.fst := by
    intro hmem
    obtain ⟨event, hevent, hsame⟩ := List.mem_map.mp hmem
    have := hfresh event hevent
    omega
  have hcases : ∀ u n, (Function.update pc t p u).ticket = some n →
      u = t ∧ n = acquired ∨ u ≠ t ∧ (pc u).ticket = some n := by
    intro u n hu
    rcases eq_or_ne u t with rfl | hne
    · rw [Function.update_self, hticket] at hu
      exact .inl ⟨rfl, (Option.some.inj hu).symm⟩
    · rw [Function.update_of_ne hne] at hu
      exact .inr ⟨hne, hu⟩
  constructor
  case ordered =>
    rw [List.map_append, List.pairwise_append]
    refine ⟨h.ordered, List.pairwise_singleton _ _, ?_⟩
    intro n hn m hm
    obtain ⟨event, hevent, rfl⟩ := List.mem_map.mp hn
    obtain rfl : m = acquired := by simpa using hm
    exact hfresh event hevent
  case upTo =>
    intro event hmem
    rcases List.mem_append.mp hmem with hold | hlast
    · exact h.upTo event hold
    · obtain rfl := List.mem_singleton.mp hlast
      exact Nat.le_refl _
  case fresh =>
    intro u hu
    rcases eq_or_ne u t with rfl | hne
    · rw [Function.update_self, Pc.Unpopped, hticket] at hu
      simp at hu
    · rw [Function.update_of_ne hne, hother u hne] at hu
      cases hu
  case nodup => exact h.nodup
  case sound => exact fun event hmem => List.mem_append_left _ (h.sound event hmem)
  case complete =>
    intro event hmem
    rcases List.mem_append.mp hmem with hold | hlast
    · rcases h.complete event hold with hdone | ⟨u, hu⟩
      · exact .inl hdone
      · refine .inr ⟨u, ?_⟩
        rw [Function.update_of_ne]
        · exact hu
        · rintro rfl
          rw [hnone] at hu
          cases hu
    · obtain rfl := List.mem_singleton.mp hlast
      exact .inr ⟨t, by rw [Function.update_self, hticket]⟩
  case pending =>
    intro u n hu
    rcases hcases u n hu with ⟨rfl, rfl⟩ | ⟨_, hold⟩
    · refine ⟨by simp, fun hmem => hnew ?_⟩
      obtain ⟨event, hevent, hsame⟩ := List.mem_map.mp hmem
      exact List.mem_map.mpr ⟨event, h.sound event hevent, hsame⟩
    · obtain ⟨hpopped, hundelivered⟩ := h.pending u n hold
      exact ⟨by rw [List.map_append]; exact List.mem_append_left _ hpopped, hundelivered⟩
  case unique =>
    intro u v n hu hv
    rcases hcases u n hu with ⟨rfl, rfl⟩ | ⟨_, hu'⟩ <;>
      rcases hcases v _ hv with ⟨rfl, hn⟩ | ⟨_, hv'⟩
    · rfl
    · exact absurd (h.pending v _ hv').1 hnew
    · exact absurd (hn ▸ (h.pending u _ hu').1) hnew
    · exact h.unique u v n hu' hv'

/-- A call hands what it popped to its caller. -/
theorem deliver (h : Deliveries pc acquired popped delivered) {n : Nat}
    (hticket : (pc t).ticket = some n) {value : Option V} (hmem : (n, value) ∈ popped)
    (hnone : p.ticket = none) (hunpopped : p.Unpopped = false) :
    Deliveries (Function.update pc t p) acquired popped (delivered ++ [(n, value)]) := by
  have hother : ∀ u m, (Function.update pc t p u).ticket = some m →
      u ≠ t ∧ (pc u).ticket = some m := by
    intro u m hu
    rcases eq_or_ne u t with rfl | hne
    · rw [Function.update_self, hnone] at hu
      cases hu
    · rw [Function.update_of_ne hne] at hu
      exact ⟨hne, hu⟩
  constructor
  case ordered => exact h.ordered
  case upTo => exact h.upTo
  case fresh =>
    intro u hu
    rcases eq_or_ne u t with rfl | hne
    · rw [Function.update_self, hunpopped] at hu
      cases hu
    · rw [Function.update_of_ne hne] at hu
      exact h.fresh u hu
  case nodup =>
    rw [List.map_append]
    apply h.nodup.append (List.nodup_singleton _)
    intro m hm hlast
    obtain rfl : m = n := by simpa using hlast
    exact (h.pending t m hticket).2 hm
  case sound =>
    intro event hevent
    rcases List.mem_append.mp hevent with hold | hlast
    · exact h.sound event hold
    · obtain rfl := List.mem_singleton.mp hlast
      exact hmem
  case complete =>
    intro event hevent
    rcases h.complete event hevent with hdone | ⟨u, hu⟩
    · exact .inl (List.mem_append_left _ hdone)
    · rcases eq_or_ne u t with rfl | hne
      · left
        obtain rfl : n = event.1 := Option.some.inj (hticket.symm.trans hu)
        have hvalue : event = (event.1, value) :=
          List.inj_on_of_nodup_map h.popped_nodup hevent hmem rfl
        rw [hvalue]
        exact List.mem_append_right _ (List.mem_singleton_self _)
      · exact .inr ⟨u, by rw [Function.update_of_ne hne, hu]⟩
  case pending =>
    intro u m hu
    obtain ⟨hne, hu'⟩ := hother u m hu
    obtain ⟨hpopped, hundelivered⟩ := h.pending u m hu'
    refine ⟨hpopped, fun hdone => ?_⟩
    rw [List.map_append, List.mem_append] at hdone
    rcases hdone with hold | hlast
    · exact hundelivered hold
    · obtain rfl : m = n := by simpa using hlast
      exact hne (h.unique t u m hticket hu')
  case unique => exact fun u v m hu hv => h.unique u v m (hother u m hu).2 (hother v m hv).2

end Deliveries

variable [DecidableEq Tid] [DecidableEq Addr] {s s' : State Tid Addr V} {first : Addr}
  {cells : List (Addr × V)} {t : Tid}

theorem Deliveries.step (d : Deliveries s.pc s.headAcquired s.popped s.delivered)
    (h : Inv s first cells) (hstep : Step s t s') :
    Deliveries s'.pc s'.headAcquired s'.popped s'.delivered := by
  cases hstep with
  | callPush value hpc | callPop kind hpc | pushNew addr hpc hfree | pushThrow hpc
  | pushLock hpc hmutex | pushData hpc hnode | pushNext hpc hnode | pushTail hpc
  | pushUnlock hpc | notifyNobody hpc | popWait hpc | popWakeSpuriously hpc
  | popEmpty hpc | popEmptyReturn hpc | popResult hpc hnode =>
      exact d.keep (by rw [hpc]; rfl) nofun
  | popTailLock hpc hmutex | popReadTail hpc | popTailUnlock hpc | popTake hpc hhead hnode hdata
  | popMove hpc hhead =>
      exact d.keep (by rw [hpc]; rfl) fun _ => d.fresh t (by rw [hpc]; rfl)
  | @notifyOne u kind hpc hblocked =>
      have hne : t ≠ u := by
        rintro rfl
        rw [hpc] at hblocked
        cases hblocked
      have hpc' : Function.update s.pc u (.popLock kind) t = .pushNotify :=
        (Function.update_of_ne hne _ _).trans hpc
      have hwoken := d.keep (t := u) (p := .popLock kind) (by rw [hblocked]; rfl) nofun
      exact hwoken.keep (by rw [hpc']; rfl) nofun
  | popLock hpc hmutex =>
      exact d.acquire.keep (by rw [hpc]; rfl) fun _ event hmem =>
        Nat.lt_succ_of_le (d.upTo event hmem)
  | @popTestEqual kind tail empty hpc hequal =>
      have hfresh := d.fresh t (by rw [hpc]; rfl)
      cases hwaits : kind.waits <;> exact d.keep (by rw [hpc]; rfl) fun _ => hfresh
  | @popTestDiffer kind tail empty hpc hdiffer =>
      have hfresh := d.fresh t (by rw [hpc]; rfl)
      cases hinto : kind.into <;> exact d.keep (by rw [hpc]; rfl) fun _ => hfresh
  | @popAdvance kind oldHead value node hpc hnode =>
      refine d.pop (by rw [hpc]; rfl) ?_ rfl node.data
      intro u hu
      have hout : (s.pc u).HoldsHead = false := by
        by_contra hholds
        exact hu (h.head.held.exclusive (t := t) (by rw [hpc]; rfl) (by simpa using hholds))
      rw [Pc.Unpopped, hout, Bool.false_and]
  | @popUnlock kind oldHead value ticket hpc =>
      cases hinto : kind.into <;> exact d.keep (by rw [hpc]; rfl) nofun
  | @popFree oldHead result ticket hpc hnode =>
      have hself := h.knows t
      rw [hpc] at hself
      obtain ⟨v, -, hmem, rfl⟩ := hself
      exact d.deliver (by rw [hpc]; rfl) hmem rfl rfl

/-- A pop reports empty only if the queue was empty when it read `tail`. -/
theorem reports_step (h : Inv s first cells) (hreports : ∀ empty ∈ s.emptyReports, empty = true)
    (hstep : Step s t s') : ∀ empty ∈ s'.emptyReports, empty = true := by
  cases hstep with
  | @popEmptyReturn empty hpc =>
      have hself := h.knows t
      rw [hpc] at hself
      intro report hmem
      rcases List.mem_append.mp hmem with hold | hlast
      · exact hreports report hold
      · exact (List.mem_singleton.mp hlast).trans hself
  | _ => exact hreports

theorem reachable_inv (hs : (system Tid Addr V).Reachable s) :
    (∃ first cells, Inv s first cells) ∧
      Deliveries s.pc s.headAcquired s.popped s.delivered ∧
      ∀ empty ∈ s.emptyReports, empty = true := by
  refine System.reachable_invariant _ (fun s => (∃ first cells, Inv s first cells) ∧
    Deliveries s.pc s.headAcquired s.popped s.delivered ∧
      ∀ empty ∈ s.emptyReports, empty = true) ?_ ?_ s hs
  · rintro s ⟨dummy, rfl⟩
    exact ⟨⟨dummy, [], Inv.initial dummy⟩, Deliveries.initial, nofun⟩
  · rintro s t s' _ ⟨⟨first, cells, h⟩, d, hreports⟩ hstep
    exact ⟨h.step hstep, d.step h hstep, reports_step h hreports hstep⟩

/-- No call waits for anything but a mutex: the nodes it is about to access
are there and filled as far as the code expects. -/
theorem never_stuck (hs : (system Tid Addr V).Reachable s) (t : Tid)
    (hhead : (s.pc t).WantsHead = true → s.headMutex = none)
    (htail : (s.pc t).WantsTail = true → s.tailMutex = none) : ∃ s', Step s t s' := by
  obtain ⟨⟨first, cells, h⟩, -, -⟩ := reachable_inv hs
  have hself := h.knows t
  have hfirst := h.head.value_of_holds (t := t)
  have hdummy := h.tail.dummy_of_holds (t := t)
  cases hpc : s.pc t with
  | idle => exact ⟨_, .callPop .tryPop hpc⟩
  | pushNew value => exact ⟨_, .pushThrow hpc⟩
  | pushLock value p => exact ⟨_, .pushLock hpc (htail (by rw [hpc]; rfl))⟩
  | pushData value p => exact ⟨_, .pushData hpc (hdummy (by rw [hpc]; rfl))⟩
  | pushNext value p => exact ⟨_, .pushNext hpc (hdummy (by rw [hpc]; rfl))⟩
  | pushTail value p => exact ⟨_, .pushTail hpc⟩
  | pushUnlock => exact ⟨_, .pushUnlock hpc⟩
  | pushNotify =>
      by_cases hwaiting : ∃ u kind, s.pc u = .popBlocked kind
      · obtain ⟨u, kind, hblocked⟩ := hwaiting
        exact ⟨_, .notifyOne hpc hblocked⟩
      · refine ⟨_, .notifyNobody hpc fun u => ?_⟩
        cases hu : s.pc u with
        | popBlocked kind => exact absurd ⟨u, kind, hu⟩ hwaiting
        | _ => rfl
  | popLock kind => exact ⟨_, .popLock hpc (hhead (by rw [hpc]; rfl))⟩
  | popTailLock kind => exact ⟨_, .popTailLock hpc (htail (by rw [hpc]; rfl))⟩
  | popReadTail kind => exact ⟨_, .popReadTail hpc⟩
  | popTailUnlock kind tail empty => exact ⟨_, .popTailUnlock hpc⟩
  | popTest kind tail empty =>
      by_cases hequal : s.head = some tail
      · exact ⟨_, .popTestEqual hpc hequal⟩
      · exact ⟨_, .popTestDiffer hpc hequal⟩
  | popWait kind => exact ⟨_, .popWait hpc⟩
  | popBlocked kind => exact ⟨_, .popWakeSpuriously hpc⟩
  | popTake kind =>
      rw [hpc] at hself hfirst
      obtain ⟨value, next, rest, -, hnode, -⟩ := h.first_cell hself
      exact ⟨_, .popTake hpc (hfirst rfl) hnode rfl⟩
  | popMove kind value =>
      rw [hpc] at hfirst
      exact ⟨_, .popMove hpc (hfirst rfl)⟩
  | popAdvance kind oldHead value =>
      rw [hpc] at hself
      obtain ⟨rfl, hne, -⟩ := hself
      obtain ⟨v, next, rest, -, hnode, -⟩ := h.first_cell hne
      exact ⟨_, .popAdvance hpc hnode⟩
  | popUnlock kind oldHead value ticket => exact ⟨_, .popUnlock hpc⟩
  | popResult oldHead ticket =>
      rw [hpc] at hself
      obtain ⟨v, hnode, -⟩ := hself
      exact ⟨_, .popResult hpc hnode⟩
  | popFree oldHead result ticket =>
      rw [hpc] at hself
      obtain ⟨v, hnode, -⟩ := hself
      exact ⟨_, .popFree hpc (by rw [hnode]; exact nofun)⟩
  | popEmpty empty => exact ⟨_, .popEmpty hpc⟩
  | popEmptyReturn empty => exact ⟨_, .popEmptyReturn hpc⟩

/-- The values popped, in the order of the acquisitions of `head_mutex`, are a
prefix of the values pushed, in the order of the acquisitions of `tail_mutex`.
Each of them is handed out at most once, and once no call is in progress all
of them have been. A pop past the test finds `head->data` and `head->next`,
and a pop reports empty only if the queue was empty when it read `tail`. -/
theorem fifo_exactly_once (s : State Tid Addr V) (hs : (system Tid Addr V).Reachable s) :
    s.popped.map Prod.snd <+: s.pushed.map some ∧
    (s.popped.map Prod.fst).Pairwise (· < ·) ∧
    (s.delivered.map Prod.fst).Nodup ∧
    (∀ event ∈ s.delivered, event ∈ s.popped) ∧
    ((∀ t, s.pc t = .idle) → s.delivered.Perm s.popped) ∧
    (∀ t, (s.pc t).Proceeds = true → ∃ addr value next,
      s.head = some addr ∧ s.heap addr = some ⟨some value, some next⟩) ∧
    (∀ t kind oldHead value, s.pc t = .popAdvance kind oldHead value → ∃ data next,
      s.heap oldHead = some ⟨some data, some next⟩) ∧
    ∀ empty ∈ s.emptyReports, empty = true := by
  obtain ⟨⟨first, cells, h⟩, d, hreports⟩ := reachable_inv hs
  refine ⟨?inOrder, d.ordered, d.nodup, d.sound, ?returned, ?proceeds, ?advances, hreports⟩
  case inOrder =>
    rw [← h.tail.pushed, List.append_assoc]
    exact List.prefix_append _ _
  case returned =>
    intro hidle
    apply (List.perm_ext_iff_of_nodup d.nodup.of_map d.popped_nodup.of_map).mpr
    intro event
    constructor
    · exact d.sound event
    · intro hmem
      rcases d.complete event hmem with hdone | ⟨t, hticket⟩
      · exact hdone
      · rw [hidle t] at hticket
        cases hticket
  case proceeds =>
    intro t hproceeds
    have hself := h.knows t
    have hfirst := h.head.value_of_holds (t := t)
    cases hpc : s.pc t with
    | popTake kind =>
        rw [hpc] at hself hfirst
        obtain ⟨value, next, rest, -, hnode, -⟩ := h.first_cell hself
        exact ⟨first, value, next, hfirst rfl, hnode⟩
    | popMove kind moved =>
        rw [hpc] at hself hfirst
        obtain ⟨value, next, rest, -, hnode, -⟩ := h.first_cell hself.1
        exact ⟨first, value, next, hfirst rfl, hnode⟩
    | _ => simp [hpc, Pc.Proceeds] at hproceeds
  case advances =>
    intro t kind oldHead value hpc
    have hself := h.knows t
    rw [hpc] at hself
    obtain ⟨rfl, hne, -⟩ := hself
    obtain ⟨data, next, rest, -, hnode, -⟩ := h.first_cell hne
    exact ⟨data, next, hnode⟩

/-- One thread pushes 7, another pops it into its own variable. -/
theorem pushPop_reachable : ∃ s : State Bool Nat Nat, (system Bool Nat Nat).Reachable s ∧
    (∀ t, s.pc t = .idle) ∧ s.pushed = [7] ∧ s.popped = [(1, some 7)] := by
  have start : (system Bool Nat Nat).Reachable (State.initial Bool Nat 0) := .start ⟨0, rfl⟩
  have called := start.next (.callPush (t := false) 7 rfl)
  have allocated := called.next (.pushNew (t := false) 1 rfl rfl)
  have locked := allocated.next (.pushLock (t := false) rfl rfl)
  have filled := locked.next (.pushData (t := false) rfl rfl)
  have linked := filled.next (.pushNext (t := false) rfl rfl)
  have moved := linked.next (.pushTail (t := false) rfl)
  have unlocked := moved.next (.pushUnlock (t := false) rfl)
  have pushed := unlocked.next (.notifyNobody (t := false) rfl fun u => by cases u <;> rfl)
  have popping := pushed.next (.callPop (t := true) .waitAndPopInto rfl)
  have entered := popping.next (.popLock (t := true) rfl rfl)
  have asking := entered.next (.popTailLock (t := true) rfl rfl)
  have read := asking.next (.popReadTail (t := true) rfl)
  have asked := read.next (.popTailUnlock (t := true) rfl)
  have tested := asked.next (.popTestDiffer (t := true) rfl (by decide))
  have taken := tested.next (.popTake (t := true) rfl rfl rfl rfl)
  have detached := taken.next (.popMove (t := true) rfl rfl)
  have advanced := detached.next (.popAdvance (t := true) rfl rfl)
  have left := advanced.next (.popUnlock (t := true) rfl)
  have freed := left.next (.popFree (t := true) rfl nofun)
  exact ⟨_, freed, fun t => by cases t <;> rfl, rfl, rfl⟩

theorem fifo_exactly_once_pushPop : ∃ s : State Bool Nat Nat,
    s.popped = [(1, some 7)] ∧ s.popped.map Prod.snd <+: s.pushed.map some ∧
      s.delivered.Perm s.popped := by
  obtain ⟨s, hs, hidle, _, hpopped⟩ := pushPop_reachable
  obtain ⟨hinOrder, _, _, _, hreturned, _⟩ := fifo_exactly_once s hs
  exact ⟨s, hpopped, hinOrder, hreturned hidle⟩

end MoreCpp.TwoLockQueue
