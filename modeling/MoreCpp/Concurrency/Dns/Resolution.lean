import MoreCpp.Concurrency.Dns.Workers
import MoreCpp.Library.Mutex
import Mathlib.Data.Fintype.BigOperators
import Mathlib.Data.Multiset.AddSub
import Mathlib.Algebra.Order.BigOperators.Group.Finset

/-!
What `example_condition_variable` comes to. Every domain pushed is in the queue, in the
hands of one thread, or printed; an entry is that of its domain or is being assigned;
and every step but a spurious wake-up uses up some of the work that is left.
-/

namespace MoreCpp.Dns

open Library
open Std (TreeMap)

namespace Pc

/-- What a thread relies on at its program point. -/
def Knows (main : Bool) (items : List String) (stopped : Bool) : Pc → Prop
  | .pushing _ | .pushStore _ _ | .pushUnlock _ | .pushNotify _ | .stopSet =>
      main = true ∧ stopped = false
  | .stopUnlock | .stopNotify | .joining | .joined => main = true ∧ stopped = true
  | .waitSleep => main = false ∧ stopped = false ∧ items = []
  | .popTest => main = false ∧ (stopped = true ∨ items ≠ [])
  | .popTake => main = false ∧ items ≠ []
  | .popReturn none | .printLock none | .printing none | .printUnlock none | .exited =>
      main = false ∧ stopped = true ∧ items = []
  | .updateLock domain entry | .updateInsert domain entry | .updateAssign domain entry
  | .updateUnlock domain entry | .printLock (some (domain, entry))
  | .printing (some (domain, entry)) | .printUnlock (some (domain, entry)) =>
      main = false ∧ entry = fakeDnsLookup domain
  | .waitLock | .waitTest | .blocked | .popReturn (some _) | .lookingUp _ => main = false

def OfMain : Pc → Bool
  | .pushing _ | .pushStore _ _ | .pushUnlock _ | .pushNotify _ | .stopSet | .stopUnlock
  | .stopNotify | .joining | .joined => true
  | _ => false

/-- The domains that a thread has not handed on yet. -/
def inHand : Pc → Multiset String
  | .pushing todo | .pushUnlock todo | .pushNotify todo => todo
  | .pushStore domain todo => domain ::ₘ (todo : Multiset String)
  | .popReturn (some domain) | .lookingUp domain | .updateLock domain _ | .updateInsert domain _
  | .updateAssign domain _ | .updateUnlock domain _ | .printLock (some (domain, _))
  | .printing (some (domain, _)) => {domain}
  | _ => 0

/-- The domain whose entry is about to be assigned. -/
def assigning : Pc → Option String
  | .updateAssign domain _ => some domain
  | _ => none

/-- The domain whose entry has been assigned. -/
def assigned : Pc → Option String
  | .updateUnlock domain _ | .printLock (some (domain, _)) | .printing (some (domain, _)) =>
      some domain
  | _ => none

/-- The main thread has notified the workers that it stopped the queue. -/
def Joins : Pc → Bool
  | .joining | .joined => true
  | _ => false

/-- A call that will notify a worker, or test the queue and take a domain. -/
def Serves : Pc → Bool
  | .pushUnlock _ | .pushNotify _ | .waitLock | .waitTest | .popTest | .popTake => true
  | _ => false

variable {main stopped : Bool} {items : List String} {p : Pc}

/-- The main thread and the workers have program points of their own. -/
theorem Knows.ofMain (h : p.Knows main items stopped) : p.OfMain = main := by
  cases p with
  | popReturn result => cases result <;> simp_all [Knows, OfMain]
  | printLock line | printing line | printUnlock line => cases line <;> simp_all [Knows, OfMain]
  | _ => simp_all [Knows, OfMain]

theorem Knows.stopped_of_joins (h : p.Knows main items stopped) (hjoins : p.Joins = true) :
    main = true ∧ stopped = true := by
  cases p with
  | joining | joined => exact h
  | _ => cases hjoins

/-- What the others rely on survives a push. -/
theorem Knows.push (h : p.Knows main items false) (hout : p.HoldsQueue = false) (domain : String) :
    p.Knows main (items ++ [domain]) false := by
  cases p with
  | waitSleep | popTest | popTake => cases hout
  | popReturn result => cases hout
  | printLock line | printing line | printUnlock line =>
      cases line with
      | none => exact absurd h.2.1 Bool.false_ne_true
      | some resolved => exact h
  | exited => exact absurd h.2.1 Bool.false_ne_true
  | _ => exact h

/-- What the others rely on survives a pop. -/
theorem Knows.pop {domain : String} (h : p.Knows main (domain :: items) stopped)
    (hout : p.HoldsQueue = false) : p.Knows main items stopped := by
  cases p with
  | waitSleep | popTest | popTake => cases hout
  | popReturn result => cases hout
  | printLock line | printing line | printUnlock line =>
      cases line with
      | none => exact absurd h.2.2 (List.cons_ne_nil domain items)
      | some resolved => exact h
  | exited => exact absurd h.2.2 (List.cons_ne_nil domain items)
  | _ => exact h

/-- What the workers rely on survives the end of the queue. -/
theorem Knows.stop (h : p.Knows false items false) (hout : p.HoldsQueue = false) :
    p.Knows false items true := by
  cases p with
  | waitSleep | popTest | popTake => cases hout
  | popReturn result => cases hout
  | printLock line | printing line | printUnlock line =>
      cases line with
      | none => exact absurd h.2.1 Bool.false_ne_true
      | some resolved => exact h
  | exited => exact absurd h.2.1 Bool.false_ne_true
  | pushing | pushStore | pushUnlock | pushNotify | stopSet | stopUnlock | stopNotify | joining
  | joined => exact absurd h.1 Bool.false_ne_true
  | _ => exact h

theorem Knows.wake (h : p.Knows main items stopped) :
    (if p.Blocked then Pc.waitLock else p).Knows main items stopped := by
  cases p <;> exact h

end Pc

/-- Nobody is blocked after `notify_all`. -/
theorem State.free_wakeAll {Worker : Type*} (s : State Worker) : s.wakeAll.Free Pc.Blocked := by
  intro t
  cases hpc : s.pc t <;> simp [hpc, Pc.Blocked]

variable {Worker : Type*} [DecidableEq Worker] {s s' : State Worker} {t : Option Worker}
  {label : Label Worker} {p : Pc}

/-! ## The queue -/

structure QueueInv (s : State Worker) : Prop where
  alone : ∀ t u, (s.pc t).HoldsQueue = true → (s.pc u).HoldsQueue = true → t = u
  knows : ∀ t, (s.pc t).Knows t.isNone s.items s.stopped
  woken : (s.pc none).Joins = true → s.Free Pc.Blocked

namespace QueueInv

omit [DecidableEq Worker] in
theorem initial (domains : List String) : QueueInv (State.initial Worker domains) where
  alone t u ht := by cases t <;> cases ht
  knows t := by
    cases t with
    | none => exact ⟨rfl, rfl⟩
    | some w => rfl
  woken h := by cases h

/-- One thread moves on, and may change the queue. -/
theorem move (h : QueueInv s) {items : List String} {stopped : Bool}
    (hinside : p.HoldsQueue = true → (s.pc t).HoldsQueue = true ∨ s.Free Pc.HoldsQueue)
    (hknows : p.Knows t.isNone items stopped)
    (hothers : ∀ u, u ≠ t → (s.pc u).Knows u.isNone items stopped)
    (hjoins : p.Joins = true → (s.pc t).Joins = true ∨ s.Free Pc.Blocked)
    (hasleep : p.Blocked = true → stopped = false) :
    QueueInv ((s.queue items stopped).goto t p) := by
  have hall : ∀ u, (Function.update s.pc t p u).Knows u.isNone items stopped := by
    intro u
    rcases eq_or_ne u t with rfl | hne
    · rwa [Function.update_self]
    · rw [Function.update_of_ne hne]
      exact hothers u hne
  have halone : ∀ u, u ≠ t → p.HoldsQueue = true → (s.pc u).HoldsQueue = false := by
    intro u hne hp
    rcases hinside hp with hself | hfree
    · by_contra hu
      exact hne (h.alone u t (by simpa using hu) hself)
    · exact hfree u
  refine ⟨fun u v hu hv => ?_, hall, fun hdone u => ?_⟩
  · simp only [State.goto_pc, State.queue_pc] at hu hv
    rcases eq_or_ne u t with rfl | hu'
    · rcases eq_or_ne v u with rfl | hv'
      · rfl
      · rw [Function.update_self] at hu
        rw [Function.update_of_ne hv', halone v hv' hu] at hv
        cases hv
    · rw [Function.update_of_ne hu'] at hu
      rcases eq_or_ne v t with rfl | hv'
      · rw [Function.update_self] at hv
        rw [halone u hu' hv] at hu
        cases hu
      · rw [Function.update_of_ne hv'] at hv
        exact h.alone u v hu hv
  · simp only [State.goto_pc, State.queue_pc] at hdone ⊢
    obtain ⟨-, rfl⟩ := (hall none).stopped_of_joins hdone
    have hbefore : s.Free Pc.Blocked := by
      rcases eq_or_ne none t with rfl | hne
      · rw [Function.update_self] at hdone
        exact (hjoins hdone).elim h.woken id
      · rw [Function.update_of_ne hne] at hdone
        exact h.woken hdone
    rcases eq_or_ne u t with rfl | hne
    · rw [Function.update_self]
      by_contra hp
      cases hasleep (by simpa using hp)
    · rw [Function.update_of_ne hne]
      exact hbefore u

/-- One thread moves on, and leaves the queue as it is. -/
theorem keep (h : QueueInv s)
    (hinside : p.HoldsQueue = true → (s.pc t).HoldsQueue = true ∨ s.Free Pc.HoldsQueue)
    (hknows : p.Knows t.isNone s.items s.stopped)
    (hjoins : p.Joins = true → (s.pc t).Joins = true ∨ s.Free Pc.Blocked)
    (hasleep : p.Blocked = true → s.stopped = false) : QueueInv (s.goto t p) :=
  h.move hinside hknows (fun u _ => h.knows u) hjoins hasleep

omit [DecidableEq Worker] in
theorem other (h : QueueInv s) (ht : (s.pc t).HoldsQueue = true) {u : Option Worker}
    (hne : u ≠ t) : (s.pc u).HoldsQueue = false := by
  by_contra hu
  exact hne (h.alone u t (by simpa using hu) ht)

omit [DecidableEq Worker] in
theorem cache (h : QueueInv s) (entries : Entries) : QueueInv (s.cache entries) :=
  ⟨h.alone, h.knows, h.woken⟩

omit [DecidableEq Worker] in
theorem print (h : QueueInv s) (w : Worker) (line : Line) : QueueInv (s.print w line) :=
  ⟨h.alone, h.knows, h.woken⟩

omit [DecidableEq Worker] in
theorem wakeAll (h : QueueInv s) : QueueInv s.wakeAll := by
  have hholds : ∀ t, (s.wakeAll.pc t).HoldsQueue = (s.pc t).HoldsQueue := by
    intro t
    cases hpc : s.pc t <;> simp [hpc, Pc.Blocked, Pc.HoldsQueue]
  refine ⟨fun t u ht hu => ?_, fun t => (h.knows t).wake, fun _ => s.free_wakeAll⟩
  rw [hholds] at ht hu
  exact h.alone t u ht hu

theorem step (h : QueueInv s) (hstep : WorkStep s label s') : QueueInv s' := by
  cases hstep with
  | pushLock hpc hfree | stopLock hpc hfree =>
      have hknows := h.knows none
      rw [hpc] at hknows
      exact h.keep (fun _ => .inr hfree) hknows nofun nofun
  | @pushStore domain todo hpc =>
      have hknows := h.knows none
      rw [hpc] at hknows
      obtain ⟨hmain, hrunning⟩ := hknows
      refine h.move (fun _ => .inl (by rw [hpc]; rfl)) ⟨hmain, hrunning⟩ (fun u hne => ?_) nofun nofun
      have hu := h.knows u
      rw [hrunning] at hu ⊢
      exact hu.push (h.other (by rw [hpc]; rfl) hne) domain
  | pushUnlock hpc | notifyNobody hpc | stopUnlock hpc =>
      have hknows := h.knows none
      rw [hpc] at hknows
      exact h.keep nofun hknows nofun nofun
  | @notifyOne todo w hpc hblocked =>
      have hknows := h.knows none
      have hworker := h.knows (some w)
      rw [hpc] at hknows
      rw [hblocked] at hworker
      exact (h.keep (t := some w) (p := .waitLock) nofun hworker nofun nofun).keep nofun hknows
        nofun nofun
  | stopSet hpc =>
      have hknows := h.knows none
      rw [hpc] at hknows
      obtain ⟨hmain, hrunning⟩ := hknows
      refine h.move (fun _ => .inl (by rw [hpc]; rfl)) ⟨hmain, rfl⟩ (fun u hne => ?_) nofun nofun
      have hu := h.knows u
      rw [hrunning] at hu
      obtain ⟨w, rfl⟩ := Option.ne_none_iff_exists'.mp hne
      exact hu.stop (h.other (by rw [hpc]; rfl) hne)
  | stopNotify hpc =>
      have hmain : s.wakeAll.pc none = .stopNotify := by simp [hpc, Pc.Blocked]
      have hknows := h.wakeAll.knows none
      rw [hmain] at hknows
      exact h.wakeAll.keep nofun hknows (fun _ => .inr s.free_wakeAll) nofun
  | join hpc hexited =>
      have hknows := h.knows none
      rw [hpc] at hknows
      exact h.keep nofun hknows (fun _ => .inl (by rw [hpc]; rfl)) nofun
  | @waitLock w hpc hfree =>
      have hknows := h.knows (some w)
      rw [hpc] at hknows
      exact h.keep (fun _ => .inr hfree) hknows nofun nofun
  | @waitReady w hpc hready =>
      have hknows := h.knows (some w)
      rw [hpc] at hknows
      exact h.keep (fun _ => .inl (by rw [hpc]; rfl)) ⟨hknows, hready⟩ nofun nofun
  | @waitNotReady w hpc hrunning hempty =>
      have hknows := h.knows (some w)
      rw [hpc] at hknows
      exact h.keep (fun _ => .inl (by rw [hpc]; rfl)) ⟨hknows, hrunning, hempty⟩ nofun nofun
  | @waitSleep w hpc =>
      have hknows := h.knows (some w)
      rw [hpc] at hknows
      exact h.keep nofun hknows.1 nofun fun _ => hknows.2.1
  | @popEmpty w hpc hempty =>
      have hknows := h.knows (some w)
      rw [hpc] at hknows
      have hstopped : s.stopped = true := hknows.2.resolve_right fun hne => hne hempty
      exact h.keep (fun _ => .inl (by rw [hpc]; rfl)) ⟨hknows.1, hstopped, hempty⟩ nofun nofun
  | @popSome w hpc hsome =>
      have hknows := h.knows (some w)
      rw [hpc] at hknows
      exact h.keep (fun _ => .inl (by rw [hpc]; rfl)) ⟨hknows.1, hsome⟩ nofun nofun
  | @popTake w domain rest hpc hitems =>
      have hknows := h.knows (some w)
      rw [hpc] at hknows
      refine h.move (fun _ => .inl (by rw [hpc]; rfl)) hknows.1 (fun u hne => ?_) nofun nofun
      have hu := h.knows u
      rw [hitems] at hu
      exact hu.pop (h.other (by rw [hpc]; rfl) hne)
  | @lookUp w domain hpc =>
      have hknows := h.knows (some w)
      rw [hpc] at hknows
      exact h.keep nofun ⟨hknows, rfl⟩ nofun nofun
  | @wakeSpuriously w hpc | @popNone w hpc | @popDomain w _ hpc | @updateLock w _ _ hpc
  | @updateUnlock w _ _ hpc | @printedStop w hpc =>
      have hknows := h.knows (some w)
      rw [hpc] at hknows
      exact h.keep nofun hknows nofun nofun
  | @printedDomain w resolved hpc =>
      have hknows := h.knows (some w)
      rw [hpc] at hknows
      exact h.keep nofun hknows.1 nofun nofun
  | @updateInsert w _ _ hpc | @updateAssign w _ _ hpc =>
      have hknows := h.knows (some w)
      rw [hpc] at hknows
      exact (h.cache _).keep nofun hknows nofun nofun
  | @printLock w line hpc =>
      have hknows := h.knows (some w)
      rw [hpc] at hknows
      exact h.keep nofun (by cases line <;> exact hknows) nofun nofun
  | @print w line hpc =>
      have hknows := h.knows (some w)
      rw [hpc] at hknows
      exact (h.print w line).keep nofun (by cases line <;> exact hknows) nofun nofun

end QueueInv

/-! ## The domains -/

/-- The domains that have been printed with their entries. -/
def printed (output : List (Worker × Line)) : List String :=
  output.filterMap fun line => line.2.map Prod.fst

omit [DecidableEq Worker] in
theorem printed_concat (output : List (Worker × Line)) (w : Worker) (line : Line) :
    printed (output ++ [(w, line)]) = printed output ++ (line.map Prod.fst).toList := by
  cases line <;> simp [printed]

section Accounted

variable [Fintype Worker]

/-- Every domain is in the queue, in the hands of one thread, or printed. -/
def Accounted (domains : List String) (s : State Worker) : Prop :=
  (s.items : Multiset String) + ∑ t, (s.pc t).inHand + (printed s.output : Multiset String) =
    domains

namespace Accounted

variable {domains : List String}

omit [DecidableEq Worker] in
theorem initial (domains : List String) : Accounted domains (State.initial Worker domains) := by
  unfold Accounted
  rw [Fintype.sum_option]
  simp [State.initial, printed, Pc.inHand]

/-- One thread moves on, and what it had in hand stands where the queue or the output
has changed. -/
theorem move (h : Accounted domains s) {s' : State Worker} (t : Option Worker) (p : Pc)
    (hpc : s'.pc = Function.update s.pc t p)
    (hbalance : (s'.items : Multiset String) + p.inHand + (printed s'.output : Multiset String) =
      s.items + (s.pc t).inHand + (printed s.output : Multiset String)) :
    Accounted domains s' := by
  have hsum := sum_threads_update Pc.inHand s.pc t p
  unfold Accounted at h ⊢
  rw [hpc, ← h]
  apply add_right_cancel (b := (s.pc t).inHand)
  calc _ = (s'.items : Multiset String) +
          (∑ u, (Function.update s.pc t p u).inHand + (s.pc t).inHand) + printed s'.output := by ac_rfl
    _ = s'.items + p.inHand + printed s'.output + ∑ u, (s.pc u).inHand := by rw [hsum]; ac_rfl
    _ = _ := by rw [hbalance]; ac_rfl

/-- One thread moves on with what it has in hand. -/
theorem keep (h : Accounted domains s) {t : Option Worker} {p : Pc}
    (hsame : p.inHand = (s.pc t).inHand) : Accounted domains (s.goto t p) :=
  h.move t p rfl (by rw [hsame]; rfl)

omit [DecidableEq Worker] in
theorem wakeAll (h : Accounted domains s) : Accounted domains s.wakeAll := by
  have hsame : ∀ t, (s.wakeAll.pc t).inHand = (s.pc t).inHand := by
    intro t
    cases hpc : s.pc t <;> simp [hpc, Pc.Blocked, Pc.inHand]
  unfold Accounted at h ⊢
  simp only [hsame]
  exact h

theorem step (h : Accounted domains s) (hstep : WorkStep s label s') : Accounted domains s' := by
  cases hstep with
  | pushLock hpc | pushUnlock hpc | notifyNobody hpc | stopLock hpc | stopUnlock hpc | join hpc
  | waitLock hpc | waitReady hpc | waitNotReady hpc | waitSleep hpc | wakeSpuriously hpc
  | popEmpty hpc | popSome hpc | popNone hpc | popDomain hpc | lookUp hpc | updateLock hpc
  | updateUnlock hpc | printedDomain hpc | printedStop hpc => exact h.keep (by rw [hpc]; rfl)
  | @printLock w line hpc => exact h.keep (by rw [hpc]; cases line <;> rfl)
  | @pushStore domain todo hpc =>
      refine h.move none _ rfl ?_
      rw [hpc]
      simp only [State.goto_items, State.queue_items, State.goto_output, State.queue_output,
        Pc.inHand, ← Multiset.coe_add, ← Multiset.singleton_add, Multiset.coe_singleton]
      ac_rfl
  | @notifyOne todo w hpc hblocked =>
      have hwoken : Accounted domains (s.goto (some w) .waitLock) := h.keep (by rw [hblocked]; rfl)
      refine hwoken.keep ?_
      rw [State.goto_pc, Function.update_of_ne (Option.some_ne_none w).symm, hpc]
      rfl
  | stopSet hpc => exact h.move none _ rfl (by rw [hpc]; rfl)
  | stopNotify hpc => exact h.wakeAll.keep (by simp [hpc, Pc.Blocked, Pc.inHand])
  | @popTake w domain rest hpc hitems =>
      refine h.move (some w) _ rfl ?_
      rw [hpc, hitems]
      simp only [State.goto_items, State.queue_items, State.goto_output, State.queue_output,
        Pc.inHand, ← Multiset.cons_coe, ← Multiset.singleton_add]
      ac_rfl
  | updateInsert hpc | updateAssign hpc => exact h.move _ _ rfl (by rw [hpc]; rfl)
  | @print w line hpc =>
      refine h.move (some w) _ rfl ?_
      rw [hpc]
      simp only [State.goto_output, State.print_output, printed_concat]
      cases line with
      | none => simp [Pc.inHand]
      | some resolved =>
          simp only [State.goto_items, State.print_items, Pc.inHand, Option.map_some,
            Option.toList_some, ← Multiset.coe_add, Multiset.coe_singleton]
          ac_rfl

omit [DecidableEq Worker] in
theorem mem_of_inHand (h : Accounted domains s) {t : Option Worker} {domain : String}
    (hmem : domain ∈ (s.pc t).inHand) : domain ∈ domains := by
  rw [← Multiset.mem_coe, ← show _ = (domains : Multiset String) from h]
  have hsum : (s.pc t).inHand ≤ ∑ u, (s.pc u).inHand :=
    Finset.single_le_sum (fun _ _ => Multiset.zero_le _) (Finset.mem_univ t)
  exact Multiset.mem_add.mpr (.inl (Multiset.mem_add.mpr (.inr (Multiset.mem_of_le hsum hmem))))

end Accounted

/-! ## The cache -/

structure CacheInv (domains : List String) (s : State Worker) : Prop where
  /-- An entry is that of its domain, or somebody is about to assign it. -/
  entries : ∀ (domain : String) (entry : DnsEntry), s.entries[domain]? = some entry →
    domain ∈ domains ∧ (entry = fakeDnsLookup domain ∨ ∃ t, (s.pc t).assigning = some domain)
  assigned : ∀ (t : Option Worker) (domain : String), (s.pc t).assigned = some domain →
    s.entries[domain]? = some (fakeDnsLookup domain)
  printed : ∀ (w : Worker) (domain : String) (entry : DnsEntry),
    (w, some (domain, entry)) ∈ s.output →
      entry = fakeDnsLookup domain ∧ s.entries[domain]? = some entry

namespace CacheInv

variable {domains : List String}

omit [DecidableEq Worker] [Fintype Worker] in
theorem initial (domains : List String) : CacheInv domains (State.initial Worker domains) where
  entries domain entry hentry := by
    rw [State.initial, TreeMap.getElem?_emptyc] at hentry
    cases hentry
  assigned t domain ht := by cases t <;> cases ht
  printed w domain entry hmem := by cases hmem

omit [DecidableEq Worker] [Fintype Worker] in
theorem queue (h : CacheInv domains s) (items : List String) (stopped : Bool) :
    CacheInv domains (s.queue items stopped) := ⟨h.entries, h.assigned, h.printed⟩

omit [DecidableEq Worker] [Fintype Worker] in
theorem wakeAll (h : CacheInv domains s) : CacheInv domains s.wakeAll := by
  have hsame : ∀ t, (s.wakeAll.pc t).assigning = (s.pc t).assigning ∧
      (s.wakeAll.pc t).assigned = (s.pc t).assigned := by
    intro t
    cases hpc : s.pc t <;> simp [hpc, Pc.Blocked, Pc.assigning, Pc.assigned]
  refine ⟨fun domain entry hentry => ?_, fun t domain ht => ?_, h.printed⟩
  · simp only [(hsame _).1]
    exact h.entries domain entry hentry
  · rw [(hsame t).2] at ht
    exact h.assigned t domain ht

omit [Fintype Worker] in
/-- One thread moves on that was not about to assign. -/
theorem keep (h : CacheInv domains s) (hold : (s.pc t).assigning = none)
    (hnew : ∀ domain, p.assigned = some domain →
      s.entries[domain]? = some (fakeDnsLookup domain)) : CacheInv domains (s.goto t p) := by
  refine ⟨fun domain entry hentry => ?_, fun u domain hu => ?_, h.printed⟩
  · obtain ⟨hmem, heq | ⟨u, hu⟩⟩ := h.entries domain entry hentry
    · exact ⟨hmem, .inl heq⟩
    · have hne : u ≠ t := by
        rintro rfl
        rw [hold] at hu
        cases hu
      exact ⟨hmem, .inr ⟨u, by rw [State.goto_pc, Function.update_of_ne hne, hu]⟩⟩
  · rw [State.goto_pc] at hu
    rcases eq_or_ne u t with rfl | hne
    · rw [Function.update_self] at hu
      exact hnew domain hu
    · rw [Function.update_of_ne hne] at hu
      exact h.assigned u domain hu

theorem getElem?_insertIfNew_of_some {entries : Entries} {domain other : String}
    {entry entry' : DnsEntry} (h : entries[other]? = some entry) :
    (entries.insertIfNew domain entry')[other]? = some entry := by
  rw [TreeMap.getElem?_insertIfNew, if_neg, h]
  rintro ⟨heq, hnew⟩
  obtain rfl := Std.compare_eq_iff_eq.mp heq
  exact hnew (by rw [TreeMap.mem_iff_isSome_getElem?, h]; rfl)

omit [Fintype Worker] in
theorem insert (h : CacheInv domains s) {domain : String} {entry : DnsEntry}
    (hpc : s.pc t = .updateInsert domain entry) (hmem : domain ∈ domains) :
    CacheInv domains
      ((s.cache (s.entries.insertIfNew domain .fresh)).goto t (.updateAssign domain entry)) := by
  refine ⟨fun other found hfound => ?_, fun u other hu => ?_, fun w other found hline => ?_⟩
  · simp only [State.goto_entries, State.cache_entries, TreeMap.getElem?_insertIfNew] at hfound
    split at hfound
    · next hnew =>
        obtain rfl := Std.compare_eq_iff_eq.mp hnew.1
        exact ⟨hmem, .inr ⟨t, by rw [State.goto_pc, Function.update_self]; rfl⟩⟩
    · obtain ⟨hother, heq | ⟨u, hu⟩⟩ := h.entries other found hfound
      · exact ⟨hother, .inl heq⟩
      · have hne : u ≠ t := by
          rintro rfl
          rw [hpc] at hu
          cases hu
        refine ⟨hother, .inr ⟨u, ?_⟩⟩
        rw [State.goto_pc, Function.update_of_ne hne]
        exact hu
  · rw [State.goto_pc] at hu
    rcases eq_or_ne u t with rfl | hne
    · rw [Function.update_self] at hu
      cases hu
    · rw [Function.update_of_ne hne] at hu
      exact getElem?_insertIfNew_of_some (h.assigned u other hu)
  · obtain ⟨heq, hentry⟩ := h.printed w other found hline
    exact ⟨heq, getElem?_insertIfNew_of_some hentry⟩

omit [Fintype Worker] in
theorem assign (h : CacheInv domains s) {domain : String}
    (hpc : s.pc t = .updateAssign domain (fakeDnsLookup domain)) (hmem : domain ∈ domains) :
    CacheInv domains
      ((s.cache (s.entries.insert domain (fakeDnsLookup domain))).goto t
        (.updateUnlock domain (fakeDnsLookup domain))) := by
  have hinsert : ∀ other : String, (s.entries.insert domain (fakeDnsLookup domain))[other]? =
      if domain = other then some (fakeDnsLookup other) else s.entries[other]? := by
    intro other
    simp only [TreeMap.getElem?_insert, Std.compare_eq_iff_eq]
    split
    · next heq => rw [heq]
    · rfl
  have hkept : ∀ other, s.entries[other]? = some (fakeDnsLookup other) →
      (s.entries.insert domain (fakeDnsLookup domain))[other]? = some (fakeDnsLookup other) := by
    intro other hother
    rw [hinsert, hother, ite_self]
  refine ⟨fun other found hfound => ?_, fun u other hu => ?_, fun w other found hline => ?_⟩
  · rw [State.goto_entries, State.cache_entries, hinsert] at hfound
    split at hfound
    · next heq =>
        subst heq
        cases hfound
        exact ⟨hmem, .inl rfl⟩
    · next hne =>
        obtain ⟨hother, heq | ⟨u, hu⟩⟩ := h.entries other found hfound
        · exact ⟨hother, .inl heq⟩
        · have hthread : u ≠ t := by
            rintro rfl
            rw [hpc] at hu
            exact hne (Option.some.inj hu)
          refine ⟨hother, .inr ⟨u, ?_⟩⟩
          rw [State.goto_pc, Function.update_of_ne hthread]
          exact hu
  · rw [State.goto_pc] at hu
    rcases eq_or_ne u t with rfl | hne
    · rw [Function.update_self] at hu
      obtain rfl : domain = other := Option.some.inj hu
      rw [State.goto_entries, State.cache_entries, hinsert, if_pos rfl]
    · rw [Function.update_of_ne hne] at hu
      exact hkept other (h.assigned u other hu)
  · obtain ⟨rfl, hentry⟩ := h.printed w other found hline
    exact ⟨rfl, hkept other hentry⟩

omit [Fintype Worker] in
theorem print (h : CacheInv domains s) {w : Worker} {line : Line}
    (hpc : s.pc (some w) = .printing line)
    (hline : ∀ domain entry, line = some (domain, entry) → entry = fakeDnsLookup domain) :
    CacheInv domains ((s.print w line).goto (some w) (.printUnlock line)) := by
  have hprinted : CacheInv domains (s.print w line) := by
    refine ⟨h.entries, h.assigned, fun v domain entry hmem => ?_⟩
    rcases List.mem_append.mp hmem with hmem | hmem
    · exact h.printed v domain entry hmem
    · rw [List.mem_singleton, Prod.mk.injEq] at hmem
      obtain ⟨rfl, rfl⟩ := hmem
      obtain rfl := hline domain entry rfl
      exact ⟨rfl, h.assigned (some v) domain (by rw [hpc]; rfl)⟩
  exact hprinted.keep (by rw [State.print_pc, hpc]; rfl) nofun

theorem step (h : CacheInv domains s) (hqueue : QueueInv s) (haccounted : Accounted domains s)
    (hstep : WorkStep s label s') : CacheInv domains s' := by
  cases hstep with
  | pushLock hpc | pushUnlock hpc | notifyNobody hpc | stopLock hpc | stopUnlock hpc | join hpc
  | waitLock hpc | waitReady hpc | waitNotReady hpc | waitSleep hpc | wakeSpuriously hpc
  | popEmpty hpc | popSome hpc | popNone hpc | popDomain hpc | lookUp hpc | updateLock hpc
  | printedDomain hpc | printedStop hpc => exact h.keep (by rw [hpc]; rfl) nofun
  | pushStore hpc | stopSet hpc | popTake hpc =>
      exact (h.queue _ _).keep (by rw [State.queue_pc, hpc]; rfl) nofun
  | @notifyOne todo w hpc hblocked =>
      refine (h.keep (t := some w) (p := .waitLock) (by rw [hblocked]; rfl) nofun).keep ?_ nofun
      rw [State.goto_pc, Function.update_of_ne (Option.some_ne_none w).symm, hpc]
      rfl
  | stopNotify hpc => exact h.wakeAll.keep (by simp [hpc, Pc.Blocked, Pc.assigning]) nofun
  | updateInsert hpc =>
      exact h.insert hpc (haccounted.mem_of_inHand (by rw [hpc]; exact Multiset.mem_singleton_self _))
  | @updateAssign w domain entry hpc =>
      have hknows := hqueue.knows (some w)
      rw [hpc] at hknows
      obtain rfl : entry = fakeDnsLookup domain := hknows.2
      exact h.assign hpc (haccounted.mem_of_inHand (by rw [hpc]; exact Multiset.mem_singleton_self _))
  | @updateUnlock w domain entry hpc =>
      exact h.keep (by rw [hpc]; rfl) fun other hother =>
        h.assigned (some w) other (by rw [hpc]; exact hother)
  | @printLock w line hpc =>
      exact h.keep (by rw [hpc]; rfl) fun other hother =>
        h.assigned (some w) other (by rw [hpc]; cases line <;> exact hother)
  | @print w line hpc =>
      refine h.print hpc fun domain entry hline => ?_
      subst hline
      have hknows := hqueue.knows (some w)
      rw [hpc] at hknows
      exact hknows.2

end CacheInv

/-! ## Waking up -/

theorem covered_step (c : Covered Pc.Blocked Pc.Serves s.pc s.items.length) (hqueue : QueueInv s)
    (hstep : WorkStep s label s') : Covered Pc.Blocked Pc.Serves s'.pc s'.items.length := by
  cases hstep with
  | pushLock hpc | stopLock hpc | stopSet hpc | stopUnlock hpc | join hpc | wakeSpuriously hpc
  | popNone hpc | popDomain hpc | lookUp hpc | updateLock hpc | updateInsert hpc
  | updateAssign hpc | updateUnlock hpc | printLock hpc | print hpc | printedDomain hpc
  | printedStop hpc =>
      refine c.move nofun ?_
      rw [hpc]
      exact Nat.le_add_right _ _
  | pushUnlock hpc | waitLock hpc | waitReady hpc | popSome hpc =>
      refine c.move nofun ?_
      rw [hpc]
      exact Nat.le_refl _
  | pushStore hpc =>
      refine c.move nofun ?_
      rw [hpc]
      exact Nat.le_of_eq List.length_append
  | @notifyOne todo w hpc hblocked =>
      exact c.handover (Option.some_ne_none w).symm (by rw [hblocked]; rfl) (by rw [hblocked]; rfl)
        rfl rfl
  | notifyNobody hpc hnobody =>
      refine .of_nobody fun u => ?_
      rcases eq_or_ne u none with rfl | hne
      · rw [State.goto_pc, Function.update_self]
        rfl
      · rw [State.goto_pc, Function.update_of_ne hne]
        exact hnobody u
  | stopNotify hpc =>
      refine .of_nobody fun u => ?_
      rcases eq_or_ne u none with rfl | hne
      · rw [State.goto_pc, Function.update_self]
        rfl
      · rw [State.goto_pc, Function.update_of_ne hne]
        exact s.free_wakeAll u
  | waitNotReady hpc hrunning hempty | popEmpty hpc hempty =>
      change Covered _ _ _ s.items.length
      rw [hempty]
      exact .of_empty
  | @waitSleep w hpc =>
      have hknows := hqueue.knows (some w)
      rw [hpc] at hknows
      change Covered _ _ _ s.items.length
      rw [hknows.2.2]
      exact .of_empty
  | popTake hpc hitems =>
      rw [hitems, List.length_cons] at c
      refine c.move nofun ?_
      rw [hpc]
      exact Nat.le_refl _

/-! ## The work that is left -/

/-- The steps a thread takes at most with what it has in hand, and those it causes. -/
def Pc.effort (workers : Nat) : Pc → Nat
  | .pushing todo => 24 * todo.length + 7 * workers + 5
  | .pushStore _ todo => 24 * todo.length + 7 * workers + 28
  | .pushUnlock todo => 24 * todo.length + 7 * workers + 14
  | .pushNotify todo => 24 * todo.length + 7 * workers + 13
  | .stopSet => 7 * workers + 4
  | .stopUnlock => 7 * workers + 3
  | .stopNotify => 7 * workers + 2
  | .joining => 1
  | .joined | .blocked | .exited => 0
  | .waitSleep | .printUnlock none => 1
  | .printing none => 2
  | .printLock none => 3
  | .popReturn none | .popTake => 4
  | .popTest => 5
  | .waitTest => 6
  | .waitLock => 7
  | .printUnlock (some _) => 8
  | .printing (some _) => 9
  | .printLock (some _) => 10
  | .updateUnlock _ _ => 11
  | .updateAssign _ _ => 12
  | .updateInsert _ _ => 13
  | .updateLock _ _ => 14
  | .lookingUp _ => 15
  | .popReturn (some _) => 16

def effort (s : State Worker) : Nat :=
  ∑ t, (s.pc t).effort (Fintype.card Worker) + 13 * s.items.length

omit [DecidableEq Worker] in
theorem effort_initial (domains : List String) :
    effort (State.initial Worker domains) =
      24 * domains.length + 14 * Fintype.card Worker + 5 := by
  unfold effort
  have hworkers := Finset.sum_const_nat (s := Finset.univ) fun w _ =>
    (rfl : ((State.initial Worker domains).pc (some w)).effort (Fintype.card Worker) = 7)
  rw [Finset.card_univ] at hworkers
  rw [Fintype.sum_option, hworkers]
  simp only [State.initial, Pc.effort, List.length_nil]
  omega

omit [DecidableEq Worker] in
/-- Waking all workers costs each of them another look at the queue. -/
theorem effort_wakeAll (hmain : (s.pc none).Blocked = false) :
    effort s.wakeAll ≤ effort s + 7 * Fintype.card Worker := by
  have hworker : ∀ w, (s.wakeAll.pc (some w)).effort (Fintype.card Worker) ≤
      (s.pc (some w)).effort (Fintype.card Worker) + 7 := by
    intro w
    cases hpc : s.pc (some w) <;> simp [hpc, Pc.Blocked, Pc.effort]
  have hsum := Finset.sum_le_sum fun w (_ : w ∈ Finset.univ) => hworker w
  rw [Finset.sum_add_distrib, Finset.sum_const_nat fun w _ => rfl, Finset.card_univ] at hsum
  have hsame : s.wakeAll.pc none = s.pc none := by simp [hmain]
  simp only [effort, Fintype.sum_option, State.wakeAll_items, hsame]
  omega

/-- One thread moves on. -/
theorem effort_move {gain cost : Nat} (t : Option Worker) (p : Pc)
    (hpc : s'.pc = Function.update s.pc t p)
    (hcost : p.effort (Fintype.card Worker) + 13 * s'.items.length + gain ≤
      (s.pc t).effort (Fintype.card Worker) + 13 * s.items.length + cost) :
    effort s' + gain ≤ effort s + cost := by
  have hsum := sum_threads_update (Pc.effort (Fintype.card Worker)) s.pc t p
  rw [← hpc] at hsum
  unfold effort
  omega

theorem effort_step (hstep : WorkStep s label s') :
    effort s' + 1 ≤ effort s + if label.isWake then 8 else 0 := by
  cases hstep with
  | pushLock hpc | pushUnlock hpc | notifyNobody hpc | stopLock hpc | stopSet hpc | stopUnlock hpc
  | join hpc | waitLock hpc | waitReady hpc | waitNotReady hpc | waitSleep hpc | wakeSpuriously hpc
  | popEmpty hpc | popSome hpc | popNone hpc | popDomain hpc | lookUp hpc | updateLock hpc
  | updateInsert hpc | updateAssign hpc | updateUnlock hpc | printedDomain hpc | printedStop hpc =>
      refine effort_move _ _ rfl ?_
      rw [hpc]
      simp only [Pc.effort, State.goto_items, State.queue_items, State.cache_items,
        List.length_cons, List.length_nil, Label.isWake, if_true]
      omega
  | pushStore hpc =>
      refine effort_move _ _ rfl ?_
      rw [hpc]
      simp only [Pc.effort, State.goto_items, State.queue_items, List.length_append,
        List.length_singleton]
      omega
  | popTake hpc hitems =>
      refine effort_move _ _ rfl ?_
      rw [hpc, hitems]
      simp only [Pc.effort, State.goto_items, State.queue_items, List.length_cons]
      omega
  | @printLock w line hpc | @print w line hpc =>
      refine effort_move _ _ rfl ?_
      rw [hpc]
      cases line <;> simp only [Pc.effort, State.goto_items, State.print_items] <;> omega
  | @notifyOne todo w hpc hblocked =>
      have hwoken : effort (s.goto (some w) .waitLock) + 0 ≤ effort s + 7 := by
        refine effort_move _ _ rfl ?_
        rw [hblocked]
        simp only [Pc.effort, State.goto_items]
        omega
      have hmain : (s.goto (some w) .waitLock).pc none = .pushNotify todo := by
        rw [State.goto_pc, Function.update_of_ne (Option.some_ne_none w).symm, hpc]
      have hmoved : effort ((s.goto (some w) .waitLock).goto none (.pushing todo)) + 8 ≤
          effort (s.goto (some w) .waitLock) + 0 := by
        refine effort_move _ _ rfl ?_
        rw [hmain]
        simp only [Pc.effort, State.goto_items]
        omega
      omega
  | stopNotify hpc =>
      have hwoken := effort_wakeAll (s := s) (by rw [hpc]; rfl)
      have hmain : s.wakeAll.pc none = .stopNotify := by simp [hpc, Pc.Blocked]
      have hmoved : effort (s.wakeAll.goto none .joining) + (7 * Fintype.card Worker + 1) ≤
          effort s.wakeAll + 0 := by
        refine effort_move _ _ rfl ?_
        rw [hmain]
        simp only [Pc.effort, State.goto_items]
        omega
      omega

/-- The steps of a run use up what was left, and what spurious wake-ups add. -/
theorem effort_run {domains : List String} {labels : List (Label Worker)}
    (hrun : (exampleConditionVariable Worker domains).Run s labels s') :
    labels.length + effort s' ≤ effort s + 8 * labels.countP Label.isWake := by
  induction hrun with
  | refl => simp
  | @snoc _ _ label _ _ hstep ih =>
      have hlast := effort_step hstep
      rw [List.length_append, List.countP_append, List.length_singleton, List.countP_singleton]
      cases hwake : label.isWake <;> simp [hwake] at hlast ⊢ <;> omega

end Accounted

/-! ## Going on -/

/-- Whoever holds a mutex can go on. -/
theorem QueueInv.holder_steps (h : QueueInv s)
    (hholds : (s.pc t).HoldsQueue = true ∨ (s.pc t).HoldsEntries = true ∨
      (s.pc t).HoldsPrinter = true) : ∃ s', WorkStep s (.run t) s' := by
  have hknows := h.knows t
  have hthread := hknows.ofMain
  cases t with
  | none =>
      cases hpc : s.pc none with
      | pushStore domain todo => exact ⟨_, .pushStore hpc⟩
      | pushUnlock todo => exact ⟨_, .pushUnlock hpc⟩
      | stopSet => exact ⟨_, .stopSet hpc⟩
      | stopUnlock => exact ⟨_, .stopUnlock hpc⟩
      | _ =>
          simp [hpc, Pc.OfMain, Pc.HoldsQueue, Pc.HoldsEntries, Pc.HoldsPrinter] at hthread hholds
  | some w =>
      cases hpc : s.pc (some w) with
      | waitTest =>
          by_cases hready : s.stopped = true ∨ s.items ≠ []
          · exact ⟨_, .waitReady hpc hready⟩
          · rw [not_or, Bool.not_eq_true, not_not] at hready
            exact ⟨_, .waitNotReady hpc hready.1 hready.2⟩
      | waitSleep => exact ⟨_, .waitSleep hpc⟩
      | popTest =>
          by_cases hempty : s.items = []
          · exact ⟨_, .popEmpty hpc hempty⟩
          · exact ⟨_, .popSome hpc hempty⟩
      | popTake =>
          rw [hpc] at hknows
          obtain ⟨domain, rest, hitems⟩ := List.exists_cons_of_ne_nil hknows.2
          exact ⟨_, .popTake hpc hitems⟩
      | popReturn result =>
          cases result with
          | none => exact ⟨_, .popNone hpc⟩
          | some domain => exact ⟨_, .popDomain hpc⟩
      | updateInsert domain entry => exact ⟨_, .updateInsert hpc⟩
      | updateAssign domain entry => exact ⟨_, .updateAssign hpc⟩
      | updateUnlock domain entry => exact ⟨_, .updateUnlock hpc⟩
      | printing line => exact ⟨_, .print hpc⟩
      | printUnlock line =>
          cases line with
          | none => exact ⟨_, .printedStop hpc⟩
          | some resolved => exact ⟨_, .printedDomain hpc⟩
      | _ =>
          simp [hpc, Pc.OfMain, Pc.HoldsQueue, Pc.HoldsEntries, Pc.HoldsPrinter] at hthread hholds

/-- With all mutexes free, a worker can go on that is not blocked and has not returned. -/
theorem QueueInv.worker_steps (h : QueueInv s) (hqueue : s.Free Pc.HoldsQueue)
    (hentries : s.Free Pc.HoldsEntries) (hprinter : s.Free Pc.HoldsPrinter) {w : Worker}
    (hblocked : s.pc (some w) ≠ .blocked) (hexited : s.pc (some w) ≠ .exited) :
    ∃ s', WorkStep s (.run (some w)) s' := by
  have hthread := (h.knows (some w)).ofMain
  have houtside : _ ∧ _ ∧ _ := ⟨hqueue (some w), hentries (some w), hprinter (some w)⟩
  cases hpc : s.pc (some w) with
  | waitLock => exact ⟨_, .waitLock hpc hqueue⟩
  | lookingUp domain => exact ⟨_, .lookUp hpc⟩
  | updateLock domain entry => exact ⟨_, .updateLock hpc hentries⟩
  | printLock line => exact ⟨_, .printLock hpc hprinter⟩
  | blocked => exact absurd hpc hblocked
  | exited => exact absurd hpc hexited
  | _ =>
      simp [hpc, Pc.OfMain, Pc.HoldsQueue, Pc.HoldsEntries, Pc.HoldsPrinter] at hthread houtside

/-- Until the main thread has joined the workers, some thread can go on. -/
theorem QueueInv.progress (h : QueueInv s) (hjoined : s.pc none ≠ .joined) :
    ∃ t s', WorkStep s (.run t) s' := by
  by_contra hstuck
  have hholders : ∀ t, ¬ ((s.pc t).HoldsQueue = true ∨ (s.pc t).HoldsEntries = true ∨
      (s.pc t).HoldsPrinter = true) := fun t hholds =>
    hstuck ⟨t, h.holder_steps hholds⟩
  simp only [not_or, Bool.not_eq_true] at hholders
  have hqueue : s.Free Pc.HoldsQueue := fun t => (hholders t).1
  have hthread := (h.knows none).ofMain
  cases hpc : s.pc none with
  | pushing todo =>
      cases todo with
      | nil => exact hstuck ⟨none, _, .stopLock hpc hqueue⟩
      | cons domain todo => exact hstuck ⟨none, _, .pushLock hpc hqueue⟩
  | pushNotify todo =>
      by_cases hblocked : ∃ w, s.pc (some w) = .blocked
      · obtain ⟨w, hw⟩ := hblocked
        exact hstuck ⟨none, _, .notifyOne hpc hw⟩
      · refine hstuck ⟨none, _, .notifyNobody hpc fun t => ?_⟩
        cases t with
        | none => rw [hpc]; rfl
        | some w =>
            cases hw : s.pc (some w) with
            | blocked => exact absurd ⟨w, hw⟩ hblocked
            | _ => rfl
  | stopNotify => exact hstuck ⟨none, _, .stopNotify hpc⟩
  | joining =>
      have hwoken := h.woken (by rw [hpc]; rfl)
      refine hstuck ⟨none, _, .join hpc fun w => ?_⟩
      by_contra hexited
      refine hstuck ⟨some w, h.worker_steps hqueue (fun t => (hholders t).2.1)
        (fun t => (hholders t).2.2) (fun hw => ?_) hexited⟩
      have hw' := hwoken (some w)
      rw [hw] at hw'
      cases hw'
  | joined => exact hjoined hpc
  | _ =>
      have houtside := hqueue none
      simp [hpc, Pc.OfMain, Pc.HoldsQueue] at hthread houtside

/-! ## The end -/

theorem toList_eq_of_getElem? {entries entries' : Entries}
    (h : ∀ domain : String, entries[domain]? = entries'[domain]?) :
    entries.toList = entries'.toList := by
  have hnodup : ∀ entries : Entries, entries.toList.Nodup := fun entries =>
    TreeMap.ordered_keys_toList.imp fun hlt heq => by simp [heq] at hlt
  refine (TreeMap.Equiv.of_toList_perm ?_).toList_eq
  rw [List.perm_ext_iff_of_nodup (hnodup entries) (hnodup entries')]
  rintro ⟨domain, entry⟩
  rw [TreeMap.mem_toList_iff_getElem?_eq_some, TreeMap.mem_toList_iff_getElem?_eq_some, h domain]

theorem getElem?_exampleFutures (domains : List String) (domain : String) :
    (exampleFutures domains)[domain]? =
      if domain ∈ domains then some (fakeDnsLookup domain) else none := by
  have hfold : ∀ (entries : Entries), (domains.foldl (fun entries domain =>
      (entries.insertIfNew domain .fresh).insert domain (fakeDnsLookup domain)) entries)[domain]? =
        if domain ∈ domains then some (fakeDnsLookup domain) else entries[domain]? := by
    induction domains with
    | nil => simp
    | cons first rest ih =>
        intro entries
        rw [List.foldl_cons, ih]
        simp only [TreeMap.getElem?_insert, TreeMap.getElem?_insertIfNew, Std.compare_eq_iff_eq,
          List.mem_cons]
        grind
  unfold exampleFutures
  rw [hfold, TreeMap.getElem?_emptyc]

/-- Nobody moves any more once the workers are joined. -/
theorem exited_step (h : s.pc none = .joined → ∀ w, s.pc (some w) = .exited)
    (hstep : WorkStep s label s') (hjoined : s'.pc none = .joined) (w : Worker) :
    s'.pc (some w) = .exited := by
  cases hstep with
  | join hpc hexited => simpa using hexited w
  | pushLock hpc | pushStore hpc | pushUnlock hpc | notifyOne hpc | notifyNobody hpc | stopLock hpc
  | stopSet hpc | stopUnlock hpc | stopNotify hpc => simp at hjoined
  | @waitLock v hpc | @waitReady v hpc | @waitNotReady v hpc | @waitSleep v hpc
  | @wakeSpuriously v hpc | @popEmpty v hpc | @popSome v hpc | @popTake v _ _ hpc | @popNone v hpc
  | @popDomain v _ hpc | @lookUp v _ hpc | @updateLock v _ _ hpc | @updateInsert v _ _ hpc
  | @updateAssign v _ _ hpc | @updateUnlock v _ _ hpc | @printLock v _ hpc | @print v _ hpc
  | @printedDomain v _ hpc | @printedStop v hpc =>
      have hexited := h (by simpa using hjoined) v
      rw [hpc] at hexited
      cases hexited

structure Inv [Fintype Worker] (domains : List String) (s : State Worker) : Prop where
  queue : QueueInv s
  accounted : Accounted domains s
  cache : CacheInv domains s
  covered : Covered Pc.Blocked Pc.Serves s.pc s.items.length
  exited : s.pc none = .joined → ∀ w, s.pc (some w) = .exited

theorem inv_of_reachable [Fintype Worker] {domains : List String}
    (hs : (exampleConditionVariable Worker domains).Reachable s) : Inv domains s := by
  refine System.reachable_invariant _ (Inv domains) ?_ ?_ s hs
  · rintro s rfl
    exact ⟨.initial domains, .initial domains, .initial domains, .of_empty, nofun⟩
  · intro s label s' _ h hstep
    exact ⟨h.queue.step hstep, h.accounted.step hstep,
      h.cache.step h.queue h.accounted hstep, covered_step h.covered h.queue hstep,
      exited_step h.exited hstep⟩

omit [DecidableEq Worker] in
/-- Nothing is left in the queue and in the hands of the threads. -/
theorem Inv.printed_perm [Fintype Worker] [Nonempty Worker] {domains : List String}
    (h : Inv domains s) (hjoined : s.pc none = .joined) : (printed s.output).Perm domains := by
  have hexited := h.exited hjoined
  obtain ⟨w⟩ := (inferInstance : Nonempty Worker)
  have hknows := h.queue.knows (some w)
  rw [hexited w] at hknows
  have haccounted := h.accounted
  unfold Accounted at haccounted
  rw [Fintype.sum_option, hjoined, Finset.sum_eq_zero fun w _ => by rw [hexited w]; rfl,
    hknows.2.2] at haccounted
  refine Multiset.coe_eq_coe.mp (Eq.trans ?_ haccounted)
  simp [Pc.inHand]

omit [DecidableEq Worker] in
/-- The entries are those of the domains. -/
theorem Inv.entries_eq [Fintype Worker] [Nonempty Worker] {domains : List String}
    (h : Inv domains s) (hjoined : s.pc none = .joined) :
    s.entries.toList = (exampleFutures domains).toList := by
  refine toList_eq_of_getElem? fun domain => ?_
  rw [getElem?_exampleFutures]
  split
  · next hmem =>
      have hprinted := (h.printed_perm hjoined).mem_iff.mpr hmem
      obtain ⟨⟨w, line⟩, hline, heq⟩ := List.mem_filterMap.mp hprinted
      obtain ⟨⟨other, entry⟩, rfl, rfl⟩ := Option.map_eq_some_iff.mp heq
      obtain ⟨rfl, hentry⟩ := h.cache.printed w other entry hline
      exact hentry
  · next hmem =>
      by_contra hsome
      obtain ⟨entry, hentry⟩ := Option.ne_none_iff_exists'.mp hsome
      exact hmem (h.cache.entries domain entry hentry).1

/-- In every run of the main thread and its workers: when the workers are joined, every
domain has been printed as often as it was pushed, with what its lookup gave, and the cache
is the one that `example_futures` builds; until then some thread can go on without a spurious
wake-up; nobody sleeps while a domain is queued and nobody is about to see to it; and only
spurious wake-ups make a run longer than its domains and workers allow. -/
theorem workers_resolve [Fintype Worker] [Nonempty Worker] (domains : List String)
    (labels : List (Label Worker)) (s : State Worker)
    (hrun : (exampleConditionVariable Worker domains).Run (.initial Worker domains) labels s) :
    (s.pc none = .joined →
      (printed s.output).Perm domains ∧
      (∀ w domain entry, (w, some (domain, entry)) ∈ s.output → entry = fakeDnsLookup domain) ∧
      s.entries.toList = (exampleFutures domains).toList) ∧
    (s.pc none = .joined ∨ ∃ t s', WorkStep s (.run t) s') ∧
    ((∃ w, s.pc (some w) = .blocked) → s.items ≠ [] → ∃ t, (s.pc t).Serves = true) ∧
    labels.length ≤
      24 * domains.length + 14 * Fintype.card Worker + 5 + 8 * labels.countP Label.isWake := by
  have hreachable := (System.Reachable.start rfl).run _ hrun
  have h := inv_of_reachable hreachable
  refine ⟨fun hjoined => ⟨h.printed_perm hjoined, fun w domain entry hline =>
    (h.cache.printed w domain entry hline).1, h.entries_eq hjoined⟩, ?_, ?_, ?_⟩
  · by_cases hjoined : s.pc none = .joined
    · exact .inl hjoined
    · exact .inr (h.queue.progress hjoined)
  · rintro ⟨w, hw⟩ hitems
    have hle := h.covered ⟨some w, by rw [hw]; rfl⟩
    by_contra hnone
    rw [not_exists] at hnone
    rw [serving_eq_zero fun t => by simpa using hnone t] at hle
    exact hitems (List.length_eq_zero_iff.mp (Nat.le_zero.mp hle))
  · have heffort := effort_run hrun
    rw [effort_initial] at heffort
    omega

/-- One worker resolves one domain. -/
theorem workers_resolve_one : ∃ (labels : List (Label Unit)) (s : State Unit),
    labels.length = 29 ∧ s.pc none = .joined ∧ (printed s.output).Perm ["openai.com"] ∧
      s.entries.toList = (exampleFutures ["openai.com"]).toList := by
  have free : ∀ {s : State Unit} {holds : Pc → Bool}, holds (s.pc none) = false →
      holds (s.pc (some ())) = false → s.Free holds := by
    rintro s holds hmain hworker (_ | ⟨⟩)
    · exact hmain
    · exact hworker
  have start : (exampleConditionVariable Unit ["openai.com"]).Run (.initial Unit ["openai.com"]) []
      _ := .refl _
  have pushLock := start.snoc (.pushLock rfl (free rfl rfl))
  have pushStore := pushLock.snoc (.pushStore rfl)
  have pushUnlock := pushStore.snoc (.pushUnlock rfl)
  have pushed := pushUnlock.snoc (.notifyNobody rfl (free rfl rfl))
  have stopLock := pushed.snoc (.stopLock rfl (free rfl rfl))
  have stopSet := stopLock.snoc (.stopSet rfl)
  have stopUnlock := stopSet.snoc (.stopUnlock rfl)
  have stopped := stopUnlock.snoc (.stopNotify rfl)
  have waitLock := stopped.snoc (.waitLock (w := ()) rfl (free rfl rfl))
  have ready := waitLock.snoc (.waitReady (w := ()) rfl (.inl rfl))
  have found := ready.snoc (.popSome (w := ()) rfl (by simp))
  have taken := found.snoc (.popTake (w := ()) rfl rfl)
  have popped := taken.snoc (.popDomain (w := ()) rfl)
  have looked := popped.snoc (.lookUp (w := ()) rfl)
  have updateLock := looked.snoc (.updateLock (w := ()) rfl (free rfl rfl))
  have inserted := updateLock.snoc (.updateInsert (w := ()) rfl)
  have assigned := inserted.snoc (.updateAssign (w := ()) rfl)
  have updated := assigned.snoc (.updateUnlock (w := ()) rfl)
  have printLock := updated.snoc (.printLock (w := ()) rfl (free rfl rfl))
  have printing := printLock.snoc (.print (w := ()) rfl)
  have again := printing.snoc (.printedDomain (w := ()) rfl)
  have waitLock' := again.snoc (.waitLock (w := ()) rfl (free rfl rfl))
  have ready' := waitLock'.snoc (.waitReady (w := ()) rfl (.inl rfl))
  have empty := ready'.snoc (.popEmpty (w := ()) rfl rfl)
  have ended := empty.snoc (.popNone (w := ()) rfl)
  have printLock' := ended.snoc (.printLock (w := ()) rfl (free rfl rfl))
  have printing' := printLock'.snoc (.print (w := ()) rfl)
  have exited := printing'.snoc (.printedStop (w := ()) rfl)
  have joined := exited.snoc (.join rfl fun _ => rfl)
  have hrun : ∃ labels s, (exampleConditionVariable Unit ["openai.com"]).Run
      (.initial Unit ["openai.com"]) labels s ∧ labels.length = 29 ∧ s.pc none = .joined :=
    ⟨_, _, joined, rfl, rfl⟩
  obtain ⟨labels, s, hrun, hlength, hjoined⟩ := hrun
  obtain ⟨hprinted, -, hentries⟩ := (workers_resolve ["openai.com"] labels s hrun).1 hjoined
  exact ⟨labels, s, hlength, hjoined, hprinted, hentries⟩

end MoreCpp.Dns
