import MoreCpp.Library.TransitionSystem
import Mathlib.Logic.Function.Basic

/-!
Objects whose methods run under one lock, which some of them share. Threads that
call the methods take many steps under the lock, but nobody can tell: every run
of such threads is one in which each call is made at once, at the moment at which
it releases the lock.
-/

namespace MoreCpp.Library

structure Monitor (Data Local Call Res : Type*) where
  initial : Data
  /-- Whether the call holds the lock together with others, and else alone. -/
  shares : Call → Bool
  /-- Where a call begins once it holds the lock. -/
  enter : Call → Local
  Step : Data → Local → Data → Local → Prop
  /-- What a call returns that is about to release the lock. -/
  result : Local → Option Res

namespace Monitor

variable {Data Local Call Res : Type*} (m : Monitor Data Local Call Res)

/-- What a call can come to, begun with `data` and left alone with it. -/
inductive Body (call : Call) (data : Data) : Data → Local → Prop where
  | enter : Body call data data (m.enter call)
  | step {data' data'' l l'} : Body call data data' l → m.Step data' l data'' l' →
      Body call data data'' l'

/-- A whole call. -/
def Runs (call : Call) (data data' : Data) (res : Res) : Prop :=
  ∃ l, m.Body call data data' l ∧ m.result l = some res

/-- Calls that share the lock leave the data as they are. -/
def SharesReading : Prop :=
  ∀ ⦃call data l data' l'⦄, m.shares call = true → m.Body call data data l →
    m.Step data l data' l' → data' = data

/-- A call that finds `data` returns or goes on. -/
def LiveAt (data : Data) : Prop :=
  ∀ ⦃call data' l⦄, m.Body call data data' l →
    (m.result l).isSome = true ∨ ∃ data'' l', m.Step data' l data'' l'

theorem SharesReading.body {m : Monitor Data Local Call Res} (hreading : m.SharesReading)
    {call : Call} (hshares : m.shares call = true) {data data' : Data} {l : Local}
    (h : m.Body call data data' l) : data' = data := by
  induction h with
  | enter => rfl
  | step hbody hstep ih =>
      subst ih
      exact hreading hshares hbody hstep

end Monitor

/-- Threads that make calls one after the other. -/
structure Clients (Tid Client Call Res : Type*) where
  start : Tid → Client
  /-- The calls that a thread may make next, which may depend on how far the others are. -/
  Calls : (Tid → Client) → Tid → Call → Prop
  /-- Where a thread is after a call, or nowhere: an exception that nobody catches. -/
  resume : Client → Call → Res → Option Client

namespace Clients

variable {Tid Client Call Res : Type*} [DecidableEq Tid]

/-- What a thread may call stays so while others go on. -/
def Stable (p : Clients Tid Client Call Res) : Prop :=
  ∀ ⦃client t u call call' res c⦄, p.Calls client t call → u ≠ t →
    p.resume (client u) call' res = some c → p.Calls (Function.update client u c) t call

/-- Threads that make any calls and do not care what these return. -/
def anyCalls (Tid Call Res : Type*) : Clients Tid Unit Call Res where
  start _ := ()
  Calls _ _ _ := True
  resume _ _ _ := some ()

theorem anyCalls_stable : (anyCalls Tid Call Res).Stable := fun _ _ _ _ _ _ _ _ _ _ => trivial

end Clients

namespace Monitor

variable {Tid Client Data Local Call Res : Type*} [DecidableEq Tid]

inductive Pc (Local Call : Type*) where
  | idle
  /-- About to take the lock. -/
  | asking (call : Call)
  | inside (call : Call) (l : Local)

structure State (Tid Client Data Local Call Res : Type*) where
  data : Data
  pc : Tid → Pc Local Call
  client : Tid → Client
  /-- The calls in the order in which they released the lock. -/
  log : List (Tid × Call × Res)

section Run

variable (m : Monitor Data Local Call Res) (p : Clients Tid Client Call Res)

inductive ThreadStep : State Tid Client Data Local Call Res → Tid →
    State Tid Client Data Local Call Res → Prop where
  | call {s t a} (hpc : s.pc t = .idle) (hcalls : p.Calls s.client t a) :
      ThreadStep s t { s with pc := Function.update s.pc t (.asking a) }
  /-- Others may hold the lock when they and the call share it. -/
  | acquire {s t call} (hpc : s.pc t = .asking call)
      (hfree : ∀ u other l, s.pc u = .inside other l →
        m.shares call = true ∧ m.shares other = true) :
      ThreadStep s t { s with pc := Function.update s.pc t (.inside call (m.enter call)) }
  | body {s t call l data l'} (hpc : s.pc t = .inside call l) (hstep : m.Step s.data l data l') :
      ThreadStep s t { s with data := data, pc := Function.update s.pc t (.inside call l') }
  | release {s t call l res c} (hpc : s.pc t = .inside call l) (hresult : m.result l = some res)
      (hresume : p.resume (s.client t) call res = some c) :
      ThreadStep s t { s with
        pc := Function.update s.pc t .idle
        client := Function.update s.client t c
        log := s.log ++ [(t, call, res)] }

/-- The threads around one new object. -/
def system : System (State Tid Client Data Local Call Res) Tid where
  Init s := s = ⟨m.initial, fun _ => .idle, p.start, []⟩
  Step := ThreadStep m p

/-- What is left when every call is made at once. -/
structure Moment (Tid Client Data Call Res : Type*) where
  data : Data
  client : Tid → Client
  log : List (Tid × Call × Res)

inductive AtomicStep : Moment Tid Client Data Call Res → Tid × Call × Res →
    Moment Tid Client Data Call Res → Prop where
  | call {s t call data res c} (hcalls : p.Calls s.client t call)
      (hruns : m.Runs call s.data data res) (hresume : p.resume (s.client t) call res = some c) :
      AtomicStep s (t, call, res)
        ⟨data, Function.update s.client t c, s.log ++ [(t, call, res)]⟩

def atomic : System (Moment Tid Client Data Call Res) (Tid × Call × Res) where
  Init s := s = ⟨m.initial, p.start, []⟩
  Step := AtomicStep m p

end Run

section Reduction

variable {m : Monitor Data Local Call Res} {p : Clients Tid Client Call Res}
  {s s' : State Tid Client Data Local Call Res} {t u : Tid} {base : Data} {asked : Call} {l : Local}

/-- What the threads see of the data `base` that the calls in the log left. -/
structure Reduces (m : Monitor Data Local Call Res) (p : Clients Tid Client Call Res)
    (s : State Tid Client Data Local Call Res) (base : Data) : Prop where
  asks : ∀ t asked, s.pc t = .asking asked → p.Calls s.client t asked
  calls : ∀ t asked l, s.pc t = .inside asked l → p.Calls s.client t asked
  body : ∀ t asked l, s.pc t = .inside asked l → m.Body asked base s.data l
  together : ∀ t u asked l asked' l', t ≠ u → s.pc t = .inside asked l →
    s.pc u = .inside asked' l' → m.shares asked = true
  unchanged : (∀ t asked l, s.pc t = .inside asked l → m.shares asked = true) → s.data = base

theorem update_eq_iff {Value : Type*} {f : Tid → Value} {value value' : Value} :
    Function.update f t value u = value' ↔ u = t ∧ value = value' ∨ u ≠ t ∧ f u = value' := by
  rcases eq_or_ne u t with rfl | hne
  · simp
  · simp [hne]

namespace Reduces

omit [DecidableEq Tid] in
theorem initial : Reduces m p ⟨m.initial, fun _ => .idle, p.start, []⟩ m.initial where
  asks _ _ h := by cases h
  calls _ _ _ h := by cases h
  body _ _ _ h := by cases h
  together _ _ _ _ _ _ _ h := by cases h
  unchanged _ := rfl

omit [DecidableEq Tid] in
/-- A call that holds the lock alone is the only one that holds it. -/
theorem alone (h : Reduces m p s base) (hpc : s.pc t = .inside asked l)
    (halone : m.shares asked = false) {asked' : Call} {l' : Local}
    (hother : s.pc u = .inside asked' l') : u = t := by
  by_contra hne
  have hshares := h.together t u asked l asked' l' (Ne.symm hne) hpc hother
  rw [halone] at hshares
  cases hshares

omit [DecidableEq Tid] in
/-- While a call that shares the lock holds it, the data are those in the log. -/
theorem data_eq (h : Reduces m p s base) (hreading : m.SharesReading)
    (hpc : s.pc t = .inside asked l) (hshares : m.shares asked = true) : s.data = base :=
  hreading.body hshares (h.body t asked l hpc)

/-- A thread that does not hold the lock moves, and does not take it. -/
theorem outside (h : Reduces m p s base) {q : Pc Local Call}
    (hpc : ∀ asked l, s.pc t ≠ .inside asked l) (hq : ∀ asked l, q ≠ .inside asked l)
    (hcalls : ∀ asked, q = .asking asked → p.Calls s.client t asked) :
    Reduces m p { s with pc := Function.update s.pc t q } base := by
  have hkept : ∀ u asked l, Function.update s.pc t q u = .inside asked l ↔
      s.pc u = .inside asked l := by
    intro u asked l
    rw [update_eq_iff]
    constructor
    · rintro (⟨-, heq⟩ | ⟨-, heq⟩)
      · exact absurd heq (hq asked l)
      · exact heq
    · intro heq
      refine .inr ⟨?_, heq⟩
      rintro rfl
      exact hpc asked l heq
  refine ⟨fun u asked hu => ?_, fun u asked l hu => h.calls u asked l ((hkept u asked l).mp hu),
    fun u asked l hu => h.body u asked l ((hkept u asked l).mp hu),
    fun u v asked l asked' l' hne hu hv => h.together u v asked l asked' l' hne
      ((hkept u asked l).mp hu) ((hkept v asked' l').mp hv),
    fun hall => h.unchanged fun u asked l hu => hall u asked l ((hkept u asked l).mpr hu)⟩
  rcases update_eq_iff.mp hu with ⟨rfl, heq⟩ | ⟨-, heq⟩
  · exact hcalls asked heq
  · exact h.asks u asked heq

theorem acquire (h : Reduces m p s base) (hpc : s.pc t = .asking asked)
    (hfree : ∀ u other l, s.pc u = .inside other l →
      m.shares asked = true ∧ m.shares other = true) :
    Reduces m p { s with pc := Function.update s.pc t (.inside asked (m.enter asked)) } base := by
  have hbase : s.data = base := h.unchanged fun u other l hu => (hfree u other l hu).2
  refine ⟨fun u other hu => ?_, fun u other l hu => ?_, fun u other l hu => ?_,
    fun u v other l other' l' hne hu hv => ?_, fun _ => hbase⟩
  · obtain ⟨-, heq⟩ | ⟨-, heq⟩ := update_eq_iff.mp hu
    · cases heq
    · exact h.asks u other heq
  · obtain ⟨rfl, heq⟩ | ⟨-, heq⟩ := update_eq_iff.mp hu
    · cases heq
      exact h.asks u asked hpc
    · exact h.calls u other l heq
  · obtain ⟨-, heq⟩ | ⟨-, heq⟩ := update_eq_iff.mp hu
    · cases heq
      rw [← hbase]
      exact .enter
    · exact h.body u other l heq
  · obtain ⟨rfl, heq⟩ | ⟨-, heq⟩ := update_eq_iff.mp hu
    · obtain ⟨rfl, -⟩ | ⟨-, hheld⟩ := update_eq_iff.mp hv
      · exact absurd rfl hne
      · cases heq
        exact (hfree v other' l' hheld).1
    · exact (hfree u other l heq).2

theorem move (h : Reduces m p s base) (hreading : m.SharesReading) {l' : Local} {data : Data}
    (hpc : s.pc t = .inside asked l) (hstep : m.Step s.data l data l') :
    Reduces m p { s with data := data, pc := Function.update s.pc t (.inside asked l') } base := by
  have hbody := (h.body t asked l hpc).step hstep
  -- nobody else is under the lock, or nothing changes
  have hdata : m.shares asked = true → data = s.data := by
    intro hshares
    have hbase := h.data_eq hreading hpc hshares
    refine hreading hshares ?_ hstep
    rw [hbase]
    exact hbase ▸ h.body t asked l hpc
  refine ⟨fun u other hu => ?_, fun u other l hu => ?_, fun u other l'' hu => ?_,
    fun u v other l₁ other' l₂ hne hu hv => ?_, fun hall => ?_⟩
  · obtain ⟨-, heq⟩ | ⟨-, heq⟩ := update_eq_iff.mp hu
    · cases heq
    · exact h.asks u other heq
  · obtain ⟨rfl, heq⟩ | ⟨-, heq⟩ := update_eq_iff.mp hu
    · cases heq
      exact h.calls u asked _ hpc
    · exact h.calls u other l heq
  · obtain ⟨-, heq⟩ | ⟨hne, heq⟩ := update_eq_iff.mp hu
    · cases heq
      exact hbody
    · rw [hdata (h.together t u asked l other l'' (Ne.symm hne) hpc heq)]
      exact h.body u other l'' heq
  · obtain ⟨rfl, heq⟩ | ⟨hneu, heq⟩ := update_eq_iff.mp hu
    · obtain ⟨rfl, -⟩ | ⟨-, hheld⟩ := update_eq_iff.mp hv
      · exact absurd rfl hne
      · cases heq
        exact h.together u v asked l other' l₂ hne hpc hheld
    · obtain ⟨rfl, hv⟩ | ⟨-, hheld⟩ := update_eq_iff.mp hv
      · exact h.together u v other l₁ asked l hne heq hpc
      · exact h.together u v other l₁ other' l₂ hne heq hheld
  · have hshares := hall t asked l' (Function.update_self t _ s.pc)
    rw [hdata hshares]
    exact h.data_eq hreading hpc hshares

theorem release (h : Reduces m p s base) (hreading : m.SharesReading) (hstable : p.Stable)
    {res : Res} {c : Client} (hpc : s.pc t = .inside asked l)
    (hresume : p.resume (s.client t) asked res = some c) :
    Reduces m p
      { s with
        pc := Function.update s.pc t .idle
        client := Function.update s.client t c
        log := s.log ++ [(t, asked, res)] } s.data := by
  have hold : ∀ u other l', Function.update s.pc t .idle u = .inside other l' →
      u ≠ t ∧ s.pc u = .inside other l' := by
    intro u other l' hu
    obtain ⟨-, heq⟩ | hother := update_eq_iff.mp hu
    · cases heq
    · exact hother
  have hbase : ∀ u other l', Function.update s.pc t .idle u = .inside other l' →
      s.data = base := by
    intro u other l' hu
    obtain ⟨hne, heq⟩ := hold u other l' hu
    exact h.data_eq hreading hpc (h.together t u asked l other l' (Ne.symm hne) hpc heq)
  refine ⟨fun u other hu => ?_, fun u other l' hu => ?_, fun u other l' hu => ?_,
    fun u v other l₁ other' l₂ hne hu hv => ?_, fun _ => rfl⟩
  · obtain ⟨-, heq⟩ | ⟨hne, heq⟩ := update_eq_iff.mp hu
    · cases heq
    · exact hstable (h.asks u other heq) (Ne.symm hne) hresume
  · obtain ⟨hne, heq⟩ := hold u other l' hu
    exact hstable (h.calls u other l' heq) (Ne.symm hne) hresume
  · obtain ⟨-, heq⟩ := hold u other l' hu
    have hbody := h.body u other l' heq
    rwa [← hbase u other l' hu] at hbody
  · exact h.together u v other l₁ other' l₂ hne (hold u other l₁ hu).2 (hold v other' l₂ hv).2

/-- A step of a thread is a call made at once, or nothing has happened yet. -/
theorem step (h : Reduces m p s base) (hreading : m.SharesReading) (hstable : p.Stable)
    (hstep : ThreadStep m p s t s') : ∃ base', Reduces m p s' base' ∧
      ((⟨base', s'.client, s'.log⟩ : Moment Tid Client Data Call Res) =
          ⟨base, s.client, s.log⟩ ∨
        ∃ event, AtomicStep m p ⟨base, s.client, s.log⟩ event ⟨base', s'.client, s'.log⟩) := by
  cases hstep with
  | call hpc hcalls =>
      refine ⟨base, h.outside ?_ nofun ?_, .inl rfl⟩
      · rw [hpc]
        exact nofun
      · rintro asked heq
        cases heq
        exact hcalls
  | acquire hpc hfree => exact ⟨base, h.acquire hpc hfree, .inl rfl⟩
  | body hpc hstep => exact ⟨base, h.move hreading hpc hstep, .inl rfl⟩
  | release hpc hresult hresume =>
      exact ⟨s.data, h.release hreading hstable hpc hresume, .inr
        ⟨_, .call (h.calls _ _ _ hpc) ⟨_, h.body _ _ _ hpc, hresult⟩ hresume⟩⟩

end Reduces

/-- Whatever the threads have done, they could have made their calls at once. -/
theorem reduces (hreading : m.SharesReading) (hstable : p.Stable)
    (hs : (system m p).Reachable s) : ∃ base, Reduces m p s base ∧
      (atomic m p).Reachable ⟨base, s.client, s.log⟩ := by
  induction hs with
  | start hinit =>
      obtain rfl := hinit
      exact ⟨m.initial, .initial, .start rfl⟩
  | next _ hstep ih =>
      obtain ⟨base, h, hatomic⟩ := ih
      obtain ⟨base', h', heq | ⟨event, hcall⟩⟩ := h.step hreading hstable hstep
      · exact ⟨base', h', heq ▸ hatomic⟩
      · exact ⟨base', h', hatomic.next hcall⟩

/-- A predicate that every call keeps when it is made at once holds of the data the
log left. -/
theorem invariant (hreading : m.SharesReading) (hstable : p.Stable)
    (Inv : Moment Tid Client Data Call Res → Prop) (hinit : Inv ⟨m.initial, p.start, []⟩)
    (hstep : ∀ x event x', Inv x → AtomicStep m p x event x' → Inv x')
    (hs : (system m p).Reachable s) :
    ∃ base, Reduces m p s base ∧ Inv ⟨base, s.client, s.log⟩ := by
  obtain ⟨base, h, hatomic⟩ := reduces hreading hstable hs
  refine ⟨base, h, System.reachable_invariant (atomic m p) Inv ?_ ?_ _ hatomic⟩
  · rintro x rfl
    exact hinit
  · exact fun x event x' _ hx hcall => hstep x event x' hx hcall

/-- Threads get stuck only when all are outside and none has a call to make, or when
nobody catches an exception. -/
theorem Reduces.progress (h : Reduces m p s base) (hlive : m.LiveAt base) :
    (∃ t s', ThreadStep m p s t s') ∨
      (∃ t asked l res, s.pc t = .inside asked l ∧ m.result l = some res ∧
        p.resume (s.client t) asked res = none) ∨
      ∀ t, s.pc t = .idle ∧ ∀ asked, ¬ p.Calls s.client t asked := by
  by_cases hinside : ∃ t asked l, s.pc t = .inside asked l
  · obtain ⟨t, asked, l, hpc⟩ := hinside
    obtain hresult | ⟨data, l', hstep⟩ := hlive (h.body t asked l hpc)
    · obtain ⟨res, hresult⟩ := Option.isSome_iff_exists.mp hresult
      cases hresume : p.resume (s.client t) asked res with
      | none => exact .inr (.inl ⟨t, asked, l, res, hpc, hresult, hresume⟩)
      | some c => exact .inl ⟨t, _, .release hpc hresult hresume⟩
    · exact .inl ⟨t, _, .body hpc hstep⟩
  by_cases hasking : ∃ t asked, s.pc t = .asking asked
  · obtain ⟨t, asked, hpc⟩ := hasking
    exact .inl ⟨t, _, .acquire hpc fun u other l hu => absurd ⟨u, other, l, hu⟩ hinside⟩
  by_cases hcalls : ∃ t asked, p.Calls s.client t asked
  · obtain ⟨t, asked, hcalls⟩ := hcalls
    have hidle : s.pc t = .idle := by
      cases hpc : s.pc t with
      | idle => rfl
      | asking asked' => exact absurd ⟨t, asked', hpc⟩ hasking
      | inside asked' l => exact absurd ⟨t, asked', l, hpc⟩ hinside
    exact .inl ⟨t, _, .call hidle hcalls⟩
  · refine .inr (.inr fun t => ⟨?_, fun asked h => hcalls ⟨t, asked, h⟩⟩)
    cases hpc : s.pc t with
    | idle => rfl
    | asking asked' => exact absurd ⟨t, asked', hpc⟩ hasking
    | inside asked' l => exact absurd ⟨t, asked', l, hpc⟩ hinside

end Reduction

end Monitor

end MoreCpp.Library
