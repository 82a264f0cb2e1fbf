import MoreCpp.Concurrency.LockFreeStack.Model

/-!
The reference-counting invariant. Every address is in one phase, and the phase
says how its node's `internal_count` relates to the number of reservations on
it and to the external count, which stands in `head_`, in the `next` field of
the node above, or in the local `old_head` of the pop that unlinked it.
-/

namespace MoreCpp.LockFreeStack

open Library

variable {Tid Addr V : Type*}

/-- How a call owns a node no other call may change. -/
inductive Role where
  /-- Made by an `emplace` and not yet linked. -/
  | fresh
  /-- Unlinked by a pop that has not transferred the external count yet. -/
  | unlinking (count : Int)
  /-- Given up by everybody; the owner is about to delete it. -/
  | doomed
  deriving DecidableEq

/-- What an address is used for. -/
inductive Phase (Tid : Type*) where
  | free
  | linked (count : Int)
  | owned (owner : Tid) (role : Role)
  /-- Unlinked and transferred, with reservations outstanding. -/
  | shared

/-- The node a call owns by its program point. -/
def Pc.owns : Pc Addr V → Option (Addr × Role)
  | .emplaceLoad ref _ | .emplaceCas ref _ => some (ref.addr, .fresh)
  | .popSwap count ref | .popTransfer count ref _ => some (ref.addr, .unlinking count)
  | .popDelete ref _ | .popFence ref _ | .popRetryDelete ref _ => some (ref.addr, .doomed)
  | _ => none

/-- The count equation of one address in its phase. -/
def Balanced (cell : Option (Node Addr V)) (reserved : Nat) : Phase Tid → Prop
  | .free => cell = none ∧ reserved = 0
  | .linked count | .owned _ (.unlinking count) => ∃ node, cell = some node ∧
      count + node.internalCount = 1 + reserved ∧ node.internalCount ≤ 0
  | .owned _ .fresh | .owned _ .doomed => ∃ node, cell = some node ∧
      node.internalCount = 0 ∧ reserved = 0
  | .shared => ∃ node, cell = some node ∧
      node.internalCount = reserved ∧ 0 < reserved

/-- Following `next` from `p` visits exactly `chain` and ends in null, each
node being linked with the external count its pointer carries. -/
def Chained (heap : Addr → Option (Node Addr V)) (phase : Addr → Phase Tid) :
    CountedNodePtr Addr → List Addr → Prop
  | p, [] => p.ptr = none
  | p, addr :: rest => p.ptr = some addr ∧ phase addr = .linked p.externalCount ∧
      ∃ node, heap addr = some node ∧ Chained heap phase node.next rest

/-- Unlinked by some pop and not deleted yet. -/
def Phase.Retired : Phase Tid → Prop
  | .owned _ (.unlinking _) | .owned _ .doomed | .shared => True
  | _ => False

theorem Phase.owner_eq {φ : Phase Tid} {t u : Tid} {role role' : Role}
    (ht : φ = .owned t role) (hu : φ = .owned u role') : u = t := by
  cases ht.symm.trans hu
  rfl

/-- A chain depends only on the phases and the `next` fields along it. -/
theorem Chained.frame {heap heap' : Addr → Option (Node Addr V)}
    {phase phase' : Addr → Phase Tid} {p : CountedNodePtr Addr} {chain : List Addr}
    (h : Chained heap phase p chain)
    (hphase : ∀ a ∈ chain, phase' a = phase a)
    (hheap : ∀ a ∈ chain, ∀ node, heap a = some node →
      ∃ node', heap' a = some node' ∧ node'.next = node.next) :
    Chained heap' phase' p chain := by
  induction chain generalizing p with
  | nil => exact h
  | cons a rest ih =>
      obtain ⟨hptr, hlinked, node, hnode, hrest⟩ := h
      obtain ⟨node', hnode', hnext⟩ := hheap a (by simp) node hnode
      refine ⟨hptr, (hphase a (by simp)).trans hlinked, node', hnode', ?_⟩
      rw [hnext]
      exact ih hrest (fun b hb => hphase b (by simp [hb])) (fun b hb => hheap b (by simp [hb]))

theorem Chained.linked_of_mem {heap : Addr → Option (Node Addr V)}
    {phase : Addr → Phase Tid} {p : CountedNodePtr Addr} {chain : List Addr}
    (h : Chained heap phase p chain) {a : Addr} (ha : a ∈ chain) :
    ∃ count, phase a = .linked count := by
  induction chain generalizing p with
  | nil => simp at ha
  | cons b rest ih =>
      obtain ⟨_, hlinked, node, _, hrest⟩ := h
      rcases List.mem_cons.mp ha with rfl | hrestmem
      · exact ⟨_, hlinked⟩
      · exact ih hrest hrestmem

/-- What a call keeps a pointer to it has reserved or owns. -/
theorem Pc.touches_cases {p : Pc Addr V} {ref : NodeRef Addr} (h : p.touches = some ref) :
    p.reserves = some ref.addr ∨ ∃ role, p.owns = some (ref.addr, role) := by
  cases p with
  | idle | emplaceNew | emplaceReturn | popLoad | popIncrease | popReturn => cases h
  | emplaceLoad | emplaceCas | popDelete | popFence | popRetryDelete =>
      cases h
      exact .inr ⟨_, rfl⟩
  | popNext | popCas | popSwap | popTransfer | popRelease =>
      cases h
      exact .inl rfl

/-- A value that is not the new one was there before. -/
theorem update_eq_other {Point Value : Type*} [DecidableEq Point] {f : Point → Value}
    {a b : Point} {v w : Value} (h : Function.update f a v b = w) (hnew : v ≠ w) :
    b ≠ a ∧ f b = w := by
  rcases eq_or_ne b a with rfl | hb
  · rw [Function.update_self] at h
    exact absurd h hnew
  · exact ⟨hb, by rwa [Function.update_of_ne hb] at h⟩

theorem owns_kept [DecidableEq Tid] {pc : Tid → Pc Addr V} {t : Tid} {p : Pc Addr V}
    (hkept : p.owns = (pc t).owns) (u : Tid) :
    (Function.update pc t p u).owns = (pc u).owns := by
  rcases eq_or_ne u t with rfl | hu
  · rw [Function.update_self, hkept]
  · rw [Function.update_of_ne hu]

section Invariant

variable [Fintype Tid] [DecidableEq Addr]

/-- The number of pops holding a reservation on `addr`. -/
def reservations (pc : Tid → Pc Addr V) (addr : Addr) : Nat :=
  countThreads (fun p : Pc Addr V => p.reserves = some addr) pc

/-- A reservation on an address counts there. -/
theorem reservations_pos {pc : Tid → Pc Addr V} {t : Tid} {a : Addr}
    (h : (pc t).reserves = some a) : 0 < reservations pc a :=
  (countThreads_pos_iff _ _).mpr ⟨t, h⟩

structure Inv (s : State Tid Addr V) (chain : List Addr) (phase : Addr → Phase Tid) :
    Prop where
  balance : ∀ a, Balanced (s.heap a) (reservations s.pc a) (phase a)
  owner : ∀ t a role, (s.pc t).owns = some (a, role) ↔ phase a = .owned t role
  live : ∀ t ref, (s.pc t).touches = some ref →
    ∃ node, s.heap ref.addr = some node ∧ node.birth = ref.birth
  chained : Chained s.heap phase s.head chain
  nodup : chain.Nodup
  linked : ∀ a count, phase a = .linked count → a ∈ chain
  /-- The `next` a pop has read stays the node's `next`. -/
  readNext : ∀ t count ref next, s.pc t = .popCas count ref next →
    ∀ node, s.heap ref.addr = some node → node.next = next
  birth_lt : ∀ a node, s.heap a = some node → node.birth < s.births
  birth_inj : ∀ a b node node', s.heap a = some node → s.heap b = some node' →
    node.birth = node'.birth → a = b
  deleted_nodup : s.deleted.Nodup
  deleted_lt : ∀ b ∈ s.deleted, b < s.births
  deleted_dead : ∀ a node, s.heap a = some node → node.birth ∉ s.deleted
  unlinked_iff : ∀ b, b ∈ s.unlinked ↔ b ∈ s.deleted ∨
    ∃ a node, s.heap a = some node ∧ node.birth = b ∧ (phase a).Retired

variable {s : State Tid Addr V} {chain : List Addr} {phase : Addr → Phase Tid}

theorem Inv.initial : Inv (State.initial Tid Addr V) [] fun _ => .free := by
  constructor <;> simp [State.initial, Pc.owns, Pc.touches, Pc.reserves, Balanced, Chained,
    reservations, countThreads, Phase.Retired]

/-- A non-null `head_` is the first node of the chain. -/
theorem Inv.head_cons (h : Inv s chain phase) {a : Addr} (hptr : s.head.ptr = some a) :
    ∃ rest node, chain = a :: rest ∧ phase a = .linked s.head.externalCount ∧
      s.heap a = some node ∧ Chained s.heap phase node.next rest := by
  have hchained := h.chained
  cases chain with
  | nil =>
      have hnull : s.head.ptr = none := hchained
      rw [hptr] at hnull
      cases hnull
  | cons b rest =>
      obtain ⟨hb, hlinked, node, hnode, hrest⟩ := hchained
      have hab : a = b := Option.some.inj (hptr.symm.trans hb)
      subst hab
      exact ⟨rest, node, rfl, hlinked, hnode, hrest⟩

/-- Two threads never own one node. -/
theorem Inv.owner_unique (h : Inv s chain phase) {t u : Tid} {a : Addr} {role role' : Role}
    (ht : (s.pc t).owns = some (a, role)) (hu : (s.pc u).owns = some (a, role')) : u = t := by
  have hphase := (h.owner t a role).mp ht
  rw [(h.owner u a role').mp hu] at hphase
  cases hphase
  rfl

/-- Linked nodes are in none of the phases of a node that is not linked. -/
theorem Inv.ne_of_mem (h : Inv s chain phase) {a b : Addr} (hb : b ∈ chain)
    (hnot : ∀ count, phase a ≠ .linked count) : b ≠ a := by
  rintro rfl
  obtain ⟨count, hlinked⟩ := h.chained.linked_of_mem hb
  exact hnot count hlinked

/-- A node that is still to be read from is reserved. -/
theorem reservations_pos_of_popCas {pc : Tid → Pc Addr V} {u : Tid} {count : Int}
    {ref : NodeRef Addr} {next : CountedNodePtr Addr} (hu : pc u = .popCas count ref next) :
    0 < reservations pc ref.addr :=
  reservations_pos (t := u) (by rw [hu]; rfl)

variable [DecidableEq Tid]

theorem reservations_update (pc : Tid → Pc Addr V) (t : Tid) (p : Pc Addr V) (a : Addr) :
    reservations (Function.update pc t p) a + (if (pc t).reserves = some a then 1 else 0) =
      reservations pc a + (if p.reserves = some a then 1 else 0) :=
  countThreads_update (fun p : Pc Addr V => p.reserves = some a) pc t p

/-- A thread that keeps what it has reserved. -/
theorem reservations_kept {pc : Tid → Pc Addr V} {t : Tid} {p : Pc Addr V}
    (hkept : p.reserves = (pc t).reserves) (a : Addr) :
    reservations (Function.update pc t p) a = reservations pc a := by
  have hupdate := reservations_update pc t p a
  rw [hkept] at hupdate
  omega

/-- A thread that reserves nothing but `a`, before and after. -/
theorem reservations_elsewhere {pc : Tid → Pc Addr V} {t : Tid} {p : Pc Addr V} {a b : Addr}
    (hbefore : ∀ b, (pc t).reserves = some b → b = a) (hafter : ∀ b, p.reserves = some b → b = a)
    (hne : b ≠ a) : reservations (Function.update pc t p) b = reservations pc b := by
  have hupdate := reservations_update pc t p b
  rw [if_neg (fun hb => hne (hbefore b hb)), if_neg (fun hb => hne (hafter b hb))] at hupdate
  omega

/-- A thread gives up what it has reserved. -/
theorem reservations_released {pc : Tid → Pc Addr V} {t : Tid} {p : Pc Addr V} {a : Addr}
    (hbefore : (pc t).reserves = some a) (hafter : p.reserves = none) :
    reservations (Function.update pc t p) a + 1 = reservations pc a := by
  have hupdate := reservations_update pc t p a
  rwa [hafter, if_pos hbefore, if_neg nofun] at hupdate

/-- A step that changes only one thread's program point, keeping what it
reserves and owns. -/
theorem Inv.quiet (h : Inv s chain phase) {s' : State Tid Addr V} {t : Tid} {p : Pc Addr V}
    (hheap : s'.heap = s.heap) (hhead : s'.head = s.head) (hbirths : s'.births = s.births)
    (hunlinked : s'.unlinked = s.unlinked) (hdeleted : s'.deleted = s.deleted)
    (hpc : s'.pc = Function.update s.pc t p)
    (hreserves : p.reserves = (s.pc t).reserves) (howns : p.owns = (s.pc t).owns)
    (htouches : p.touches = none ∨ p.touches = (s.pc t).touches)
    (hread : ∀ count ref next, p = .popCas count ref next →
      ∀ node, s.heap ref.addr = some node → node.next = next) :
    Inv s' chain phase := by
  constructor
  case balance =>
    intro a
    rw [hheap, hpc, reservations_kept hreserves]
    exact h.balance a
  case owner =>
    intro u a role
    rw [hpc, owns_kept howns]
    exact h.owner u a role
  case live =>
    intro u ref href
    rw [hpc] at href
    rw [hheap]
    rcases eq_or_ne u t with rfl | hu
    · rw [Function.update_self] at href
      rcases htouches with hnone | hsame
      · cases hnone.symm.trans href
      · exact h.live u ref (hsame.symm.trans href)
    · rw [Function.update_of_ne hu] at href
      exact h.live u ref href
  case chained => rw [hheap, hhead]; exact h.chained
  case nodup => exact h.nodup
  case linked => exact h.linked
  case readNext =>
    intro u count ref next hu node hnode
    rw [hpc] at hu
    rw [hheap] at hnode
    rcases eq_or_ne u t with rfl | hne
    · rw [Function.update_self] at hu
      exact hread count ref next hu node hnode
    · rw [Function.update_of_ne hne] at hu
      exact h.readNext u count ref next hu node hnode
  case birth_lt => rw [hheap, hbirths]; exact h.birth_lt
  case birth_inj => rw [hheap]; exact h.birth_inj
  case deleted_nodup => rw [hdeleted]; exact h.deleted_nodup
  case deleted_lt => rw [hdeleted, hbirths]; exact h.deleted_lt
  case deleted_dead => rw [hheap, hdeleted]; exact h.deleted_dead
  case unlinked_iff => rw [hheap, hdeleted, hunlinked]; exact h.unlinked_iff

omit [Fintype Tid] [DecidableEq Addr] [DecidableEq Tid] in
/-- A program counter that owns a node owns no other. -/
theorem Pc.owns_iff {p : Pc Addr V} {a : Addr} {role : Role} (hp : p.owns = some (a, role))
    (t : Tid) (b : Addr) (role' : Role) :
    p.owns = some (b, role') ↔ b = a ∧ Phase.owned t role = .owned t role' := by
  rw [hp]
  simp only [Option.some.injEq, Prod.mk.injEq, Phase.owned.injEq, true_and]
  exact and_congr_left' eq_comm

omit [DecidableEq Tid] in
/-- What a pop that has taken a node from the chain knows of its count. -/
theorem Inv.unlinking (h : Inv s chain phase) {t : Tid} {a : Addr} {count : Int}
    {node : Node Addr V} (howns : (s.pc t).owns = some (a, .unlinking count))
    (hnode : s.heap a = some node) : phase a = .owned t (.unlinking count) ∧
      count + node.internalCount = 1 + reservations s.pc a ∧ node.internalCount ≤ 0 := by
  have hunlinking := (h.owner t _ _).mp howns
  have hbal := h.balance a
  rw [hunlinking, hnode] at hbal
  obtain ⟨node', hnode', hcount, hneg⟩ := hbal
  obtain rfl : node = node' := Option.some.inj hnode'
  exact ⟨hunlinking, hcount, hneg⟩

/-- The owner of `a` changes from at most `t` to at most `t`. -/
theorem Inv.owner_moved (h : Inv s chain phase) {t : Tid} {p : Pc Addr V} {a : Addr}
    {φ : Phase Tid}
    (howned : ∀ b role, (s.pc t).owns = some (b, role) → b = a)
    (howns : ∀ b role, p.owns = some (b, role) ↔ b = a ∧ φ = .owned t role)
    (hmine : ∀ u role, phase a = .owned u role ∨ φ = .owned u role → u = t)
    (u : Tid) (b : Addr) (role : Role) :
    (Function.update s.pc t p u).owns = some (b, role) ↔
      Function.update phase a φ b = .owned u role := by
  have hold := h.owner u b role
  rcases eq_or_ne u t with rfl | hu
  · rw [Function.update_self, howns]
    rcases eq_or_ne b a with rfl | hb
    · rw [Function.update_self]
      exact ⟨And.right, fun hφ => ⟨rfl, hφ⟩⟩
    · rw [Function.update_of_ne hb]
      exact ⟨fun hboth => absurd hboth.1 hb,
        fun hphase => absurd (howned b role (hold.mpr hphase)) hb⟩
  · rw [Function.update_of_ne hu]
    rcases eq_or_ne b a with rfl | hb
    · rw [Function.update_self]
      exact ⟨fun howns' => absurd (hmine u role (.inl (hold.mp howns'))) hu,
        fun hφ => absurd (hmine u role (.inr hφ)) hu⟩
    · rw [Function.update_of_ne hb]
      exact hold

/-- Neither what `t` owns nor the phase of `a` changes. -/
theorem Inv.owner_kept (h : Inv s chain phase) {t : Tid} {p : Pc Addr V} {a : Addr}
    (howns : p.owns = (s.pc t).owns) (u : Tid) (b : Addr) (role : Role) :
    (Function.update s.pc t p u).owns = some (b, role) ↔
      Function.update phase a (phase a) b = .owned u role := by
  rw [owns_kept howns, Function.update_eq_self]
  exact h.owner u b role

theorem Inv.store (h : Inv s chain phase) {s' : State Tid Addr V} {t : Tid} {p : Pc Addr V}
    {a : Addr} {node node' : Node Addr V} {φ : Phase Tid}
    (hnode : s.heap a = some node)
    (hheap : s'.heap = Function.update s.heap a (some node'))
    (hhead : s'.head = s.head) (hbirths : s'.births = s.births)
    (hunlinked : s'.unlinked = s.unlinked) (hdeleted : s'.deleted = s.deleted)
    (hpc : s'.pc = Function.update s.pc t p)
    (hbirth : node'.birth = node.birth)
    (hnext : node'.next = node.next ∨ phase a = .owned t .fresh)
    (hreserved : ∀ b, (s.pc t).reserves = some b → b = a)
    (hreserves : ∀ b, p.reserves = some b → b = a)
    (hbalance : Balanced (some node') (reservations s'.pc a) φ)
    (howner : ∀ u b role, (Function.update s.pc t p u).owns = some (b, role) ↔
      Function.update phase a φ b = .owned u role)
    (hlinked : φ = phase a ∨ ∀ count, φ ≠ .linked count ∧ phase a ≠ .linked count)
    (hretired : φ.Retired ↔ (phase a).Retired)
    (htouches : ∀ ref, p.touches = some ref → (s.pc t).touches = some ref)
    (hread : ∀ count ref next, p ≠ .popCas count ref next) :
    Inv s' chain (Function.update phase a φ) := by
  have hat : s'.heap a = some node' := by rw [hheap, Function.update_self]
  have hoff : ∀ b, b ≠ a → s'.heap b = s.heap b := fun b hb => by
    rw [hheap, Function.update_of_ne hb]
  -- the same nodes are there as before
  have hafter : ∀ b m, s.heap b = some m → ∃ m', s'.heap b = some m' ∧ m'.birth = m.birth := by
    intro b m hm
    rcases eq_or_ne b a with rfl | hb
    · cases hnode.symm.trans hm
      exact ⟨node', hat, hbirth⟩
    · exact ⟨m, (hoff b hb).trans hm, rfl⟩
  have hbefore : ∀ b m', s'.heap b = some m' → ∃ m, s.heap b = some m ∧ m'.birth = m.birth := by
    intro b m' hm'
    rcases eq_or_ne b a with rfl | hb
    · cases hat.symm.trans hm'
      exact ⟨node, hnode, hbirth⟩
    · exact ⟨m', (hoff b hb).symm.trans hm', rfl⟩
  have hretired' : ∀ b, (Function.update phase a φ b).Retired ↔ (phase b).Retired := by
    intro b
    rcases eq_or_ne b a with rfl | hb
    · rw [Function.update_self]
      exact hretired
    · rw [Function.update_of_ne hb]
  constructor
  case balance =>
    intro b
    rcases eq_or_ne b a with rfl | hb
    · rw [hat, Function.update_self]
      exact hbalance
    · rw [hoff b hb, Function.update_of_ne hb, hpc,
        reservations_elsewhere hreserved hreserves hb]
      exact h.balance b
  case owner => rw [hpc]; exact howner
  case live =>
    intro u ref href
    have hold : (s.pc u).touches = some ref := by
      rw [hpc] at href
      rcases eq_or_ne u t with rfl | hu
      · rw [Function.update_self] at href
        exact htouches ref href
      · rwa [Function.update_of_ne hu] at href
    obtain ⟨m, hm, hmb⟩ := h.live u ref hold
    obtain ⟨m', hm', heq⟩ := hafter ref.addr m hm
    exact ⟨m', hm', heq.trans hmb⟩
  case chained =>
    rw [hhead]
    apply h.chained.frame
    · intro b hb
      rcases eq_or_ne b a with rfl | hne
      · rw [Function.update_self]
        rcases hlinked with hsame | hnot
        · exact hsame
        · exact absurd rfl (h.ne_of_mem hb fun count => (hnot count).2)
      · rw [Function.update_of_ne hne]
    · intro b hb m hm
      rcases eq_or_ne b a with rfl | hne
      · cases hnode.symm.trans hm
        refine ⟨node', hat, hnext.resolve_right fun hfresh => ?_⟩
        exact h.ne_of_mem hb (fun count hc => by cases hfresh.symm.trans hc) rfl
      · exact ⟨m, (hoff b hne).trans hm, rfl⟩
  case nodup => exact h.nodup
  case linked =>
    intro b count hb
    rcases eq_or_ne b a with rfl | hne
    · rw [Function.update_self] at hb
      rcases hlinked with hsame | hnot
      · exact h.linked b count (hsame.symm.trans hb)
      · exact absurd hb (hnot count).1
    · rw [Function.update_of_ne hne] at hb
      exact h.linked b count hb
  case readNext =>
    intro u count ref next hu m hm
    rw [hpc] at hu
    have hold := (update_eq_other hu (hread count ref next)).2
    rcases eq_or_ne ref.addr a with rfl | hne
    · cases hat.symm.trans hm
      have hsame : node'.next = node.next := hnext.resolve_right fun hfresh => by
        have hbal := h.balance ref.addr
        rw [hfresh] at hbal
        obtain ⟨_, _, _, hzero⟩ := hbal
        have hpos := reservations_pos_of_popCas hold
        omega
      exact hsame.trans (h.readNext u count ref next hold node hnode)
    · exact h.readNext u count ref next hold m ((hoff _ hne).symm.trans hm)
  case birth_lt =>
    intro b m' hm'
    obtain ⟨m, hm, heq⟩ := hbefore b m' hm'
    rw [hbirths, heq]
    exact h.birth_lt b m hm
  case birth_inj =>
    intro b c m' n' hm' hn' heq
    obtain ⟨m, hm, hmb⟩ := hbefore b m' hm'
    obtain ⟨n, hn, hnb⟩ := hbefore c n' hn'
    exact h.birth_inj b c m n hm hn (hmb.symm.trans (heq.trans hnb))
  case deleted_nodup => rw [hdeleted]; exact h.deleted_nodup
  case deleted_lt => rw [hdeleted, hbirths]; exact h.deleted_lt
  case deleted_dead =>
    intro b m' hm'
    obtain ⟨m, hm, heq⟩ := hbefore b m' hm'
    rw [hdeleted, heq]
    exact h.deleted_dead b m hm
  case unlinked_iff =>
    intro b
    rw [hunlinked, hdeleted, h.unlinked_iff b]
    apply or_congr_right
    constructor
    · rintro ⟨c, m, hm, hmb, hret⟩
      obtain ⟨m', hm', heq⟩ := hafter c m hm
      exact ⟨c, m', hm', heq.trans hmb, (hretired' c).mpr hret⟩
    · rintro ⟨c, m', hm', hmb, hret⟩
      obtain ⟨m, hm, heq⟩ := hbefore c m' hm'
      exact ⟨c, m, hm, heq.symm.trans hmb, (hretired' c).mp hret⟩

theorem Inv.emplaceNew (h : Inv s chain phase) {s' : State Tid Addr V} {t : Tid}
    {value : V} {a : Addr}
    (hold : s.pc t = .emplaceNew value) (hfree : s.heap a = none)
    (hheap : s'.heap = Function.update s.heap a (some ⟨some value, 0, ⟨0, none⟩, s.births⟩))
    (hhead : s'.head = s.head) (hbirths : s'.births = s.births + 1)
    (hunlinked : s'.unlinked = s.unlinked) (hdeleted : s'.deleted = s.deleted)
    (hpc : s'.pc = Function.update s.pc t (.emplaceLoad ⟨a, s.births⟩ value)) :
    Inv s' chain (Function.update phase a (.owned t .fresh)) := by
  have hphase : phase a = .free := by
    have hbal := h.balance a
    rw [hfree] at hbal
    unfold Balanced at hbal
    split at hbal <;> simp_all
  have hzero : reservations s.pc a = 0 := by
    have hbal := h.balance a
    rw [hphase] at hbal
    exact hbal.2
  have hkept : ∀ b, reservations s'.pc b = reservations s.pc b := fun b => by
    rw [hpc, reservations_kept (by rw [hold]; rfl)]
  have hat : s'.heap a = some ⟨some value, 0, ⟨0, none⟩, s.births⟩ := by
    rw [hheap, Function.update_self]
  have hoff : ∀ b, b ≠ a → s'.heap b = s.heap b := fun b hb => by
    rw [hheap, Function.update_of_ne hb]
  have hafter : ∀ b m, s.heap b = some m → b ≠ a ∧ s'.heap b = some m := by
    intro b m hm
    have hb : b ≠ a := by
      rintro rfl
      cases hfree.symm.trans hm
    exact ⟨hb, (hoff b hb).trans hm⟩
  have hbefore : ∀ b m, s'.heap b = some m →
      (b = a ∧ m.birth = s.births) ∨ b ≠ a ∧ s.heap b = some m := by
    intro b m hm
    rcases eq_or_ne b a with rfl | hb
    · cases hat.symm.trans hm
      exact .inl ⟨rfl, rfl⟩
    · exact .inr ⟨hb, (hoff b hb).symm.trans hm⟩
  have hnotLinked : ∀ count, phase a ≠ .linked count := fun count hlinked => by
    cases hphase.symm.trans hlinked
  constructor
  case balance =>
    intro b
    rw [hkept]
    rcases eq_or_ne b a with rfl | hb
    · rw [hat, Function.update_self]
      exact ⟨_, rfl, rfl, hzero⟩
    · rw [hoff b hb, Function.update_of_ne hb]
      exact h.balance b
  case owner =>
    rw [hpc]
    apply h.owner_moved
    · intro b role howned
      rw [hold] at howned
      cases howned
    · exact Pc.owns_iff rfl t
    · rintro u role (howned | howned)
      · cases hphase.symm.trans howned
      · cases howned
        rfl
  case live =>
    intro u ref href
    rw [hpc] at href
    rcases eq_or_ne u t with rfl | hu
    · rw [Function.update_self] at href
      cases href
      exact ⟨_, hat, rfl⟩
    · rw [Function.update_of_ne hu] at href
      obtain ⟨m, hm, hmb⟩ := h.live u ref href
      exact ⟨m, (hafter _ m hm).2, hmb⟩
  case chained =>
    rw [hhead]
    apply h.chained.frame
    · exact fun b hb => Function.update_of_ne (h.ne_of_mem hb hnotLinked) ..
    · exact fun b hb m hm => ⟨m, (hafter b m hm).2, rfl⟩
  case nodup => exact h.nodup
  case linked =>
    intro b count hb
    exact h.linked b count (update_eq_other hb nofun).2
  case readNext =>
    intro u count ref next hu m hm
    rw [hpc] at hu
    have hread := (update_eq_other hu nofun).2
    have hpos := reservations_pos_of_popCas hread
    rcases hbefore _ m hm with ⟨rfl, -⟩ | ⟨-, hm'⟩
    · omega
    · exact h.readNext u count ref next hread m hm'
  case birth_lt =>
    intro b m hm
    rw [hbirths]
    rcases hbefore b m hm with ⟨-, hnew⟩ | ⟨-, hm'⟩
    · omega
    · exact Nat.lt_succ_of_lt (h.birth_lt b m hm')
  case birth_inj =>
    intro b c m n hm hn heq
    rcases hbefore b m hm with ⟨rfl, hnewB⟩ | ⟨-, hm'⟩ <;>
      rcases hbefore c n hn with ⟨rfl, hnewC⟩ | ⟨-, hn'⟩
    · rfl
    · have hlt := h.birth_lt c n hn'
      omega
    · have hlt := h.birth_lt b m hm'
      omega
    · exact h.birth_inj b c m n hm' hn' heq
  case deleted_nodup => rw [hdeleted]; exact h.deleted_nodup
  case deleted_lt =>
    intro b hb
    rw [hdeleted] at hb
    rw [hbirths]
    exact Nat.lt_succ_of_lt (h.deleted_lt b hb)
  case deleted_dead =>
    intro b m hm hmem
    rw [hdeleted] at hmem
    rcases hbefore b m hm with ⟨-, hnew⟩ | ⟨-, hm'⟩
    · have hlt := h.deleted_lt _ hmem
      omega
    · exact h.deleted_dead b m hm' hmem
  case unlinked_iff =>
    intro b
    rw [hunlinked, hdeleted, h.unlinked_iff b]
    apply or_congr_right
    constructor
    · rintro ⟨c, m, hm, hmb, hret⟩
      obtain ⟨hc, hm'⟩ := hafter c m hm
      exact ⟨c, m, hm', hmb, by rwa [Function.update_of_ne hc]⟩
    · rintro ⟨c, m, hm, hmb, hret⟩
      rcases hbefore c m hm with ⟨rfl, -⟩ | ⟨hc, hm'⟩
      · rw [Function.update_self] at hret
        exact hret.elim
      · rw [Function.update_of_ne hc] at hret
        exact ⟨c, m, hm', hmb, hret⟩

theorem Inv.free (h : Inv s chain phase) {s' : State Tid Addr V} {t : Tid} {p : Pc Addr V}
    {ref : NodeRef Addr}
    (hheap : s'.heap = Function.update s.heap ref.addr none)
    (hhead : s'.head = s.head) (hbirths : s'.births = s.births)
    (hunlinked : s'.unlinked = s.unlinked) (hdeleted : s'.deleted = s.deleted ++ [ref.birth])
    (hpc : s'.pc = Function.update s.pc t p)
    (htouch : (s.pc t).touches = some ref) (howned : (s.pc t).owns = some (ref.addr, .doomed))
    (hreserved : (s.pc t).reserves = none)
    (hreserves : p.reserves = none) (howns : p.owns = none) (htouches : p.touches = none) :
    Inv s' chain (Function.update phase ref.addr .free) := by
  have hdoomed : phase ref.addr = .owned t .doomed := (h.owner t _ _).mp howned
  obtain ⟨node, hnode, hbirth⟩ := h.live t ref htouch
  have hzero : reservations s.pc ref.addr = 0 := by
    have hbal := h.balance ref.addr
    rw [hdoomed] at hbal
    obtain ⟨_, _, _, hzero⟩ := hbal
    exact hzero
  have hoff : ∀ b, b ≠ ref.addr → s'.heap b = s.heap b := fun b hb => by
    rw [hheap, Function.update_of_ne hb]
  have hbefore : ∀ b m, s'.heap b = some m → b ≠ ref.addr ∧ s.heap b = some m := by
    intro b m hm
    rcases eq_or_ne b ref.addr with rfl | hb
    · rw [hheap, Function.update_self] at hm
      cases hm
    · exact ⟨hb, (hoff b hb).symm.trans hm⟩
  have hkept : ∀ b, reservations s'.pc b = reservations s.pc b := fun b => by
    rw [hpc, reservations_kept (hreserves.trans hreserved.symm)]
  -- nobody but `t` points to the node: it is neither reserved nor owned
  have hother : ∀ u r, u ≠ t → (s.pc u).touches = some r → r.addr ≠ ref.addr := by
    intro u r hu hr haddr
    rcases Pc.touches_cases hr with hres | ⟨role, howns'⟩
    · have hpos := reservations_pos hres
      rw [haddr] at hpos
      omega
    · rw [haddr] at howns'
      exact hu (h.owner_unique howned howns')
  have hnotLinked : ∀ count, phase ref.addr ≠ .linked count := fun count hlinked => by
    cases hdoomed.symm.trans hlinked
  constructor
  case balance =>
    intro b
    rw [hkept]
    rcases eq_or_ne b ref.addr with rfl | hb
    · rw [hheap, Function.update_self, Function.update_self]
      exact ⟨rfl, hzero⟩
    · rw [hoff b hb, Function.update_of_ne hb]
      exact h.balance b
  case owner =>
    rw [hpc]
    apply h.owner_moved
    · intro b role howned'
      cases howned.symm.trans howned'
      rfl
    · intro b role
      rw [howns]
      exact ⟨nofun, fun hboth => by cases hboth.2⟩
    · rintro u role (howned' | howned')
      · cases hdoomed.symm.trans howned'
        rfl
      · cases howned'
  case live =>
    intro u r hr
    rw [hpc] at hr
    rcases eq_or_ne u t with rfl | hu
    · rw [Function.update_self] at hr
      cases htouches.symm.trans hr
    · rw [Function.update_of_ne hu] at hr
      rw [hoff _ (hother u r hu hr)]
      exact h.live u r hr
  case chained =>
    rw [hhead]
    apply h.chained.frame
    · exact fun b hb => Function.update_of_ne (h.ne_of_mem hb hnotLinked) ..
    · exact fun b hb m hm => ⟨m, (hoff b (h.ne_of_mem hb hnotLinked)).trans hm, rfl⟩
  case nodup => exact h.nodup
  case linked =>
    intro b count hb
    exact h.linked b count (update_eq_other hb nofun).2
  case readNext =>
    intro u count r next hu m hm
    rw [hpc] at hu
    have hread : p ≠ .popCas count r next := by
      rintro rfl
      cases htouches
    exact h.readNext u count r next (update_eq_other hu hread).2 m (hbefore _ m hm).2
  case birth_lt =>
    intro b m hm
    rw [hbirths]
    exact h.birth_lt b m (hbefore b m hm).2
  case birth_inj =>
    exact fun b c m n hm hn => h.birth_inj b c m n (hbefore b m hm).2 (hbefore c n hn).2
  case deleted_nodup =>
    rw [hdeleted, List.nodup_append]
    refine ⟨h.deleted_nodup, List.nodup_singleton _, fun b hb c hc hbc => ?_⟩
    rw [List.mem_singleton.mp hc, ← hbirth] at hbc
    exact h.deleted_dead ref.addr node hnode (hbc ▸ hb)
  case deleted_lt =>
    intro b hb
    rw [hdeleted] at hb
    rw [hbirths]
    rcases List.mem_append.mp hb with hold | hnew
    · exact h.deleted_lt b hold
    · rw [List.mem_singleton.mp hnew, ← hbirth]
      exact h.birth_lt ref.addr node hnode
  case deleted_dead =>
    intro b m hm hmem
    obtain ⟨hb, hm'⟩ := hbefore b m hm
    rw [hdeleted] at hmem
    rcases List.mem_append.mp hmem with hold | hnew
    · exact h.deleted_dead b m hm' hold
    · exact hb (h.birth_inj b ref.addr m node hm' hnode
        ((List.mem_singleton.mp hnew).trans hbirth.symm))
  case unlinked_iff =>
    intro b
    rw [hunlinked, hdeleted, h.unlinked_iff b, List.mem_append, List.mem_singleton]
    constructor
    · rintro (hb | ⟨c, m, hm, hmb, hret⟩)
      · exact .inl (.inl hb)
      · rcases eq_or_ne c ref.addr with rfl | hc
        · cases hnode.symm.trans hm
          exact .inl (.inr (hmb.symm.trans hbirth))
        · exact .inr ⟨c, m, (hoff c hc).trans hm, hmb, by rwa [Function.update_of_ne hc]⟩
    · rintro ((hb | hb) | ⟨c, m, hm, hmb, hret⟩)
      · exact .inl hb
      · refine .inr ⟨ref.addr, node, hnode, hbirth.trans hb.symm, ?_⟩
        rw [hdoomed]
        trivial
      · obtain ⟨hc, hm'⟩ := hbefore c m hm
        rw [Function.update_of_ne hc] at hret
        exact .inr ⟨c, m, hm', hmb, hret⟩

/-- A step that changes `head_` and the phase of one address. -/
theorem Inv.moveHead (h : Inv s chain phase) {s' : State Tid Addr V} {t : Tid} {p : Pc Addr V}
    {a : Addr} {φ : Phase Tid} {chain' : List Addr}
    (hheap : s'.heap = s.heap) (hbirths : s'.births = s.births)
    (hdeleted : s'.deleted = s.deleted)
    (hpc : s'.pc = Function.update s.pc t p)
    (hreserved : ∀ b, (s.pc t).reserves = some b → b = a)
    (hreserves : ∀ b, p.reserves = some b → b = a)
    (hbalance : Balanced (s.heap a) (reservations s'.pc a) φ)
    (howner : ∀ u b role, (Function.update s.pc t p u).owns = some (b, role) ↔
      Function.update phase a φ b = .owned u role)
    (htouches : ∀ ref, p.touches = some ref →
      ∃ node, s.heap ref.addr = some node ∧ node.birth = ref.birth)
    (hread : ∀ count ref next, p ≠ .popCas count ref next)
    (hchained : Chained s.heap (Function.update phase a φ) s'.head chain')
    (hnodup : chain'.Nodup)
    (hkeep : ∀ b, b ∈ chain → b ≠ a → b ∈ chain')
    (hlinked : ∀ count, φ = .linked count → a ∈ chain')
    (hunlinked : ∀ b, b ∈ s'.unlinked ↔ b ∈ s.unlinked ∨
      φ.Retired ∧ ∃ node, s.heap a = some node ∧ node.birth = b)
    (hretired : (phase a).Retired → φ.Retired) :
    Inv s' chain' (Function.update phase a φ) := by
  constructor
  case balance =>
    intro b
    rw [hheap]
    rcases eq_or_ne b a with rfl | hb
    · rw [Function.update_self]
      exact hbalance
    · rw [Function.update_of_ne hb, hpc, reservations_elsewhere hreserved hreserves hb]
      exact h.balance b
  case owner => rw [hpc]; exact howner
  case live =>
    intro u ref href
    rw [hpc] at href
    rw [hheap]
    rcases eq_or_ne u t with rfl | hu
    · rw [Function.update_self] at href
      exact htouches ref href
    · rw [Function.update_of_ne hu] at href
      exact h.live u ref href
  case chained => rw [hheap]; exact hchained
  case nodup => exact hnodup
  case linked =>
    intro b count hb
    rcases eq_or_ne b a with rfl | hne
    · rw [Function.update_self] at hb
      exact hlinked count hb
    · rw [Function.update_of_ne hne] at hb
      exact hkeep b (h.linked b count hb) hne
  case readNext =>
    intro u count ref next hu m hm
    rw [hpc] at hu
    rw [hheap] at hm
    exact h.readNext u count ref next (update_eq_other hu (hread count ref next)).2 m hm
  case birth_lt => rw [hheap, hbirths]; exact h.birth_lt
  case birth_inj => rw [hheap]; exact h.birth_inj
  case deleted_nodup => rw [hdeleted]; exact h.deleted_nodup
  case deleted_lt => rw [hdeleted, hbirths]; exact h.deleted_lt
  case deleted_dead => rw [hheap, hdeleted]; exact h.deleted_dead
  case unlinked_iff =>
    intro b
    rw [hunlinked, hdeleted, hheap, h.unlinked_iff b]
    constructor
    · rintro ((hb | ⟨c, m, hm, hmb, hret⟩) | ⟨hret, m, hm, hmb⟩)
      · exact .inl hb
      · refine .inr ⟨c, m, hm, hmb, ?_⟩
        rcases eq_or_ne c a with rfl | hc
        · rw [Function.update_self]
          exact hretired hret
        · rwa [Function.update_of_ne hc]
      · refine .inr ⟨a, m, hm, hmb, ?_⟩
        rwa [Function.update_self]
    · rintro (hb | ⟨c, m, hm, hmb, hret⟩)
      · exact .inl (.inl hb)
      · rcases eq_or_ne c a with rfl | hc
        · rw [Function.update_self] at hret
          exact .inr ⟨hret, m, hm, hmb⟩
        · rw [Function.update_of_ne hc] at hret
          exact .inl (.inr ⟨c, m, hm, hmb, hret⟩)

theorem Inv.emplaceCas (h : Inv s chain phase) {t : Tid} {ref : NodeRef Addr} {value : V}
    {node : Node Addr V} (hpc : s.pc t = .emplaceCas ref value)
    (hnode : s.heap ref.addr = some node) (hequal : s.head = node.next) :
    Inv (({ s with head := ⟨1, some ref.addr⟩ }.effect t (.push value)).goto t .emplaceReturn)
      (ref.addr :: chain) (Function.update phase ref.addr (.linked 1)) := by
  have hfresh : phase ref.addr = .owned t .fresh := (h.owner t _ _).mp (by simp [hpc, Pc.owns])
  have hbal := h.balance ref.addr
  rw [hfresh, hnode] at hbal
  obtain ⟨node', hnode', hzero, hnone⟩ := hbal
  obtain rfl : node = node' := Option.some.inj hnode'
  have hnotin : ref.addr ∉ chain := by
    intro hmem
    obtain ⟨count, hlinked⟩ := h.chained.linked_of_mem hmem
    rw [hfresh] at hlinked
    cases hlinked
  refine h.moveHead (t := t) (p := .emplaceReturn) (a := ref.addr) rfl rfl rfl rfl ?hreserved
    ?hreserves ?hbalance (h.owner_moved ?howned ?howns ?hmine) ?htouches ?hread ?hchained ?hnodup
    ?hkeep ?hlinked ?hunlinked ?hretired
  case hreserved => simp [hpc, Pc.reserves]
  case hreserves => simp [Pc.reserves]
  case hbalance =>
    have hupdate := reservations_update s.pc t .emplaceReturn ref.addr
    refine ⟨node, hnode, ?_, by omega⟩
    simp only [hpc, Pc.reserves] at hupdate
    change (1 : Int) + node.internalCount =
      1 + (reservations (Function.update s.pc t .emplaceReturn) ref.addr : Nat)
    simp at hupdate
    omega
  case howned => simp [hpc, Pc.owns]
  case howns => simp [Pc.owns]
  case hmine =>
    rintro u role (howned | howned)
    · exact Phase.owner_eq hfresh howned
    · cases howned
  case htouches => simp [Pc.touches]
  case hread => simp
  case hchained =>
    refine ⟨rfl, by simp, node, hnode, ?_⟩
    rw [← hequal]
    apply h.chained.frame
    · intro b hb
      exact Function.update_of_ne (fun heq : b = ref.addr => hnotin (heq ▸ hb)) ..
    · exact fun b _ m hm => ⟨m, hm, rfl⟩
  case hnodup => exact List.nodup_cons.mpr ⟨hnotin, h.nodup⟩
  case hkeep => exact fun b hb _ => .tail _ hb
  case hlinked => simp
  case hunlinked => simp [Phase.Retired]
  case hretired => simp [hfresh, Phase.Retired]

theorem Inv.popIncrease (h : Inv s chain phase) {t : Tid} {oldHead : CountedNodePtr Addr}
    {addr : Addr} (hpc : s.pc t = .popIncrease oldHead) (hptr : oldHead.ptr = some addr)
    (hequal : s.head = oldHead) :
    Inv ({ s with head := ⟨oldHead.externalCount + 1, some addr⟩ }.goto t
        (.popNext (oldHead.externalCount + 1) ⟨addr, s.birthAt addr⟩))
      chain (Function.update phase addr (.linked (oldHead.externalCount + 1))) := by
  obtain ⟨rest, node, rfl, hlinked, hnode, hrest⟩ := h.head_cons (a := addr) (by rw [hequal, hptr])
  have hbal := h.balance addr
  rw [hlinked, hnode] at hbal
  obtain ⟨node', hnode', hcount, hneg⟩ := hbal
  obtain rfl : node = node' := Option.some.inj hnode'
  have hnotin : addr ∉ rest := (List.nodup_cons.mp h.nodup).1
  refine h.moveHead (t := t) (a := addr)
    (p := .popNext (oldHead.externalCount + 1) ⟨addr, s.birthAt addr⟩) rfl rfl rfl rfl
    ?hreserved ?hreserves ?hbalance (h.owner_moved ?howned ?howns ?hmine) ?htouches ?hread
    ?hchained ?hnodup ?hkeep ?hlinked ?hunlinked ?hretired
  case hreserved => simp [hpc, Pc.reserves]
  case hreserves => simp [Pc.reserves]
  case hbalance =>
    have hupdate := reservations_update s.pc t
      (.popNext (oldHead.externalCount + 1) ⟨addr, s.birthAt addr⟩) addr
    refine ⟨node, hnode, ?_, hneg⟩
    simp [hpc, Pc.reserves] at hupdate
    change (oldHead.externalCount + 1) + node.internalCount = 1 + (reservations
      (Function.update s.pc t
        (.popNext (oldHead.externalCount + 1) ⟨addr, s.birthAt addr⟩)) addr : Nat)
    rw [hequal] at hcount
    omega
  case howned => simp [hpc, Pc.owns]
  case howns => simp [Pc.owns]
  case hmine =>
    rintro u role (howned | howned)
    · cases hlinked.symm.trans howned
    · cases howned
  case htouches =>
    intro ref href
    cases href
    exact ⟨node, hnode, by simp [State.birthAt, hnode]⟩
  case hread => simp
  case hchained =>
    refine ⟨rfl, by simp, node, hnode, ?_⟩
    apply hrest.frame
    · intro b hb
      exact Function.update_of_ne (fun heq : b = addr => hnotin (heq ▸ hb)) ..
    · exact fun b _ m hm => ⟨m, hm, rfl⟩
  case hnodup => exact h.nodup
  case hkeep => exact fun b hb _ => hb
  case hlinked => simp
  case hunlinked => simp [Phase.Retired]
  case hretired => simp [hlinked, Phase.Retired]

theorem Inv.popCas (h : Inv s chain phase) {t : Tid} {count : Int} {ref : NodeRef Addr}
    {next : CountedNodePtr Addr} (hpc : s.pc t = .popCas count ref next)
    (hequal : s.head = ⟨count, some ref.addr⟩) :
    Inv (({ s with head := next, unlinked := s.unlinked ++ [ref.birth] }.effect t .pop).goto t
        (.popSwap count ref))
      chain.tail (Function.update phase ref.addr (.owned t (.unlinking count))) := by
  obtain ⟨rest, node, rfl, hlinked, hnode, hrest⟩ :=
    h.head_cons (a := ref.addr) (by rw [hequal])
  have hbal := h.balance ref.addr
  rw [hlinked, hnode, hequal] at hbal
  obtain ⟨node', hnode', hcount, hneg⟩ := hbal
  obtain rfl : node = node' := Option.some.inj hnode'
  obtain ⟨hnotin, hnodup⟩ := List.nodup_cons.mp h.nodup
  obtain ⟨live, hlive, hbirth⟩ := h.live t ref (by simp [hpc, Pc.touches])
  have hnext : node.next = next := h.readNext t count ref next hpc node hnode
  refine h.moveHead (t := t) (p := .popSwap count ref) (a := ref.addr) rfl rfl rfl rfl ?hreserved
    ?hreserves ?hbalance (h.owner_moved ?howned ?howns ?hmine) ?htouches ?hread ?hchained ?hnodup
    ?hkeep ?hlinked ?hunlinked ?hretired
  case hreserved => simp [hpc, Pc.reserves]
  case hreserves => simp [Pc.reserves]
  case hbalance =>
    have hupdate := reservations_update s.pc t (.popSwap count ref) ref.addr
    refine ⟨node, hnode, ?_, hneg⟩
    simp [hpc, Pc.reserves] at hupdate
    change count + node.internalCount = 1 + (reservations
      (Function.update s.pc t (.popSwap count ref)) ref.addr : Nat)
    rw [hupdate]
    exact hcount
  case howned => simp [hpc, Pc.owns]
  case howns => exact Pc.owns_iff rfl t
  case hmine =>
    rintro u role (howned | howned)
    · cases hlinked.symm.trans howned
    · exact Phase.owner_eq rfl howned
  case htouches =>
    intro ref' href
    cases href
    exact ⟨live, hlive, hbirth⟩
  case hread => simp
  case hchained =>
    change Chained s.heap _ next rest
    rw [← hnext]
    apply hrest.frame
    · intro b hb
      exact Function.update_of_ne (fun heq : b = ref.addr => hnotin (heq ▸ hb)) ..
    · exact fun b _ m hm => ⟨m, hm, rfl⟩
  case hnodup => exact hnodup
  case hkeep => exact fun b hb hne => (List.mem_cons.mp hb).resolve_left hne
  case hlinked => simp
  case hunlinked =>
    intro b
    rw [State.goto_unlinked, State.effect_unlinked, List.mem_append, List.mem_singleton]
    apply or_congr_right
    constructor
    · rintro rfl
      exact ⟨trivial, live, hlive, hbirth⟩
    · rintro ⟨-, m, hm, hmb⟩
      cases hlive.symm.trans hm
      exact hmb.symm.trans hbirth
  case hretired => simp [Phase.Retired]

theorem Inv.writeNext (h : Inv s chain phase) {t : Tid} {ref : NodeRef Addr} {value : V}
    {node : Node Addr V}
    (hpc : s.pc t = .emplaceLoad ref value ∨ s.pc t = .emplaceCas ref value)
    (hnode : s.heap ref.addr = some node) :
    Inv ((s.store ref.addr { node with next := s.head }).goto t (.emplaceCas ref value))
      chain (Function.update phase ref.addr (phase ref.addr)) := by
  have howns : (s.pc t).owns = some (ref.addr, .fresh) := by
    rcases hpc with hpc | hpc <;> simp [hpc, Pc.owns]
  have hreserves : (s.pc t).reserves = none := by
    rcases hpc with hpc | hpc <;> simp [hpc, Pc.reserves]
  have htouches : (s.pc t).touches = some ref := by
    rcases hpc with hpc | hpc <;> simp [hpc, Pc.touches]
  have hfresh : phase ref.addr = .owned t .fresh := (h.owner t _ _).mp howns
  have hbal := h.balance ref.addr
  rw [hfresh, hnode] at hbal
  obtain ⟨node', hnode', hzero, hnone⟩ := hbal
  obtain rfl : node = node' := Option.some.inj hnode'
  refine h.store (t := t) (p := .emplaceCas ref value) hnode rfl rfl rfl rfl rfl rfl rfl
    (.inr hfresh) ?hreserved ?hreserves ?hbalance (h.owner_kept ?howns) (.inl rfl) Iff.rfl
    ?htouches ?hread
  case hreserved => simp [hreserves]
  case hreserves => simp [Pc.reserves]
  case hbalance =>
    have hupdate := reservations_update s.pc t (.emplaceCas ref value) ref.addr
    rw [hreserves, hnone] at hupdate
    rw [hfresh]
    exact ⟨_, rfl, hzero, by simpa [Pc.reserves] using hupdate⟩
  case howns => rw [howns]; rfl
  case htouches => rw [htouches]; exact fun _ => id
  case hread => simp

theorem Inv.popSwap (h : Inv s chain phase) {t : Tid} {count : Int} {ref : NodeRef Addr}
    {node : Node Addr V} (hpc : s.pc t = .popSwap count ref)
    (hnode : s.heap ref.addr = some node) :
    Inv ((s.store ref.addr { node with data := none }).goto t
        (.popTransfer count ref node.data))
      chain (Function.update phase ref.addr (phase ref.addr)) := by
  obtain ⟨hunlinking, hcount, hneg⟩ := h.unlinking (by rw [hpc]; rfl) hnode
  refine h.store (t := t) (p := .popTransfer count ref node.data) hnode rfl rfl rfl rfl rfl rfl
    rfl (.inl rfl) ?hreserved ?hreserves ?hbalance (h.owner_kept ?howns) (.inl rfl) Iff.rfl
    ?htouches ?hread
  case hreserved => simp [hpc, Pc.reserves]
  case hreserves => simp [Pc.reserves]
  case hbalance =>
    have hupdate := reservations_update s.pc t (.popTransfer count ref node.data) ref.addr
    simp [hpc, Pc.reserves] at hupdate
    rw [hunlinking]
    exact ⟨_, rfl, by simpa [hupdate] using hcount, hneg⟩
  case howns => simp [hpc, Pc.owns]
  case htouches => simp [hpc, Pc.touches]
  case hread => simp

/-- The transfer of the external count: afterwards `internal_count` is the
number of reservations still held, and the popper deletes if it is zero. -/
theorem Inv.popTransfer (h : Inv s chain phase) {t : Tid} {count : Int} {ref : NodeRef Addr}
    {result : Option V} {node : Node Addr V} (hpc : s.pc t = .popTransfer count ref result)
    (hnode : s.heap ref.addr = some node) :
    Inv ((s.store ref.addr
          { node with internalCount := node.internalCount + (count - 2) }).goto t
        (if node.internalCount = -(count - 2) then .popDelete ref result
          else .popReturn result))
      chain (Function.update phase ref.addr
        (if node.internalCount = -(count - 2) then .owned t .doomed else .shared)) := by
  obtain ⟨hunlinking, hcount, hneg⟩ := h.unlinking (by rw [hpc]; rfl) hnode
  refine h.store (t := t) hnode rfl rfl rfl rfl rfl rfl rfl
    (.inl rfl) ?hreserved ?hreserves ?hbalance (h.owner_moved ?howned ?howns ?hmine)
    ?hlinked ?hretired ?htouches ?hread
  case hreserved => simp [hpc, Pc.reserves]
  case hreserves => split <;> simp [Pc.reserves]
  case hbalance =>
    have hreserved : (s.pc t).reserves = some ref.addr := by rw [hpc]; rfl
    simp only [State.goto_pc, State.store_pc]
    split
    case isTrue hzero =>
      have hless := reservations_released hreserved (p := .popDelete ref result) rfl
      refine ⟨_, rfl, ?_, by omega⟩
      change node.internalCount + (count - 2) = 0
      omega
    case isFalse hzero =>
      have hless := reservations_released hreserved (p := .popReturn result) rfl
      refine ⟨_, rfl, ?_, by omega⟩
      change node.internalCount + (count - 2) =
        (reservations (Function.update s.pc t (.popReturn result)) ref.addr : Nat)
      omega
  case howned => simp [hpc, Pc.owns]
  case howns =>
    intro b role
    split
    · exact Pc.owns_iff rfl t b role
    · simp [Pc.owns]
  case hmine =>
    rintro u role (howned | howned)
    · exact Phase.owner_eq hunlinking howned
    · split at howned
      · exact Phase.owner_eq rfl howned
      · cases howned
  case hlinked =>
    refine .inr fun count' => ⟨?_, fun hlinked => by cases hunlinking.symm.trans hlinked⟩
    split <;> exact nofun
  case hretired => split <;> simp [hunlinking, Phase.Retired]
  case htouches => split <;> simp [hpc, Pc.touches]
  case hread => split <;> simp

/-- A release: whoever brings `internal_count` from one to zero was the last
to hold the node, which is then no longer linked. -/
theorem Inv.popRelease (h : Inv s chain phase) {t : Tid} {ref : NodeRef Addr}
    {oldHead : CountedNodePtr Addr} {node : Node Addr V}
    (hpc : s.pc t = .popRelease ref oldHead) (hnode : s.heap ref.addr = some node) :
    Inv ((s.store ref.addr { node with internalCount := node.internalCount - 1 }).goto t
        (if node.internalCount = 1 then .popFence ref oldHead else .popIncrease oldHead))
      chain (Function.update phase ref.addr
        (if node.internalCount = 1 then .owned t .doomed else phase ref.addr)) := by
  have hpos : 0 < reservations s.pc ref.addr :=
    reservations_pos (t := t) (by simp [hpc, Pc.reserves])
  have hbal := h.balance ref.addr
  rw [hnode] at hbal
  have hreserved : (s.pc t).reserves = some ref.addr := by rw [hpc]; rfl
  by_cases hone : node.internalCount = 1
  · have hshared : phase ref.addr = .shared := by
      cases hphase : phase ref.addr with
      | shared => rfl
      | free => simp [hphase, Balanced] at hbal
      | linked count => simp [hphase, Balanced] at hbal; omega
      | owned u role => cases role <;> simp [hphase, Balanced] at hbal <;> omega
    rw [if_pos hone, if_pos hone]
    refine h.store (t := t) hnode rfl rfl rfl rfl rfl rfl rfl (.inl rfl) ?hreserved ?hreserves
      ?hbalance (h.owner_moved ?howned ?howns ?hmine) ?hlinked ?hretired ?htouches ?hread
    case hreserved => simp [hpc, Pc.reserves]
    case hreserves => simp [Pc.reserves]
    case hbalance =>
      have hless := reservations_released hreserved (p := .popFence ref oldHead) rfl
      rw [hshared] at hbal
      obtain ⟨node', hnode', heq, _⟩ := hbal
      obtain rfl : node = node' := Option.some.inj hnode'
      exact ⟨_, rfl, by simp [hone], by simp; omega⟩
    case howned => simp [hpc, Pc.owns]
    case howns => exact Pc.owns_iff rfl t
    case hmine =>
      rintro u role (howned | howned)
      · cases hshared.symm.trans howned
      · exact Phase.owner_eq rfl howned
    case hlinked =>
      exact .inr fun count => ⟨nofun, fun hlinked => by cases hshared.symm.trans hlinked⟩
    case hretired => simp [hshared, Phase.Retired]
    case htouches => simp [hpc, Pc.touches]
    case hread => simp
  · rw [if_neg hone, if_neg hone]
    refine h.store (t := t) hnode rfl rfl rfl rfl rfl rfl rfl (.inl rfl) ?hreserved ?hreserves
      ?hbalance (h.owner_kept ?howns) (.inl rfl) Iff.rfl ?htouches ?hread
    case hreserved => simp [hpc, Pc.reserves]
    case hreserves => simp [Pc.reserves]
    case hbalance =>
      have hless := reservations_released hreserved (p := .popIncrease oldHead) rfl
      cases hphase : phase ref.addr with
      | shared => simp [hphase, Balanced] at hbal ⊢; omega
      | free => simp [hphase, Balanced] at hbal
      | linked count => simp [hphase, Balanced] at hbal ⊢; omega
      | owned u role => cases role <;> simp [hphase, Balanced] at hbal ⊢ <;> omega
    case howns => simp [hpc, Pc.owns]
    case htouches => simp [Pc.touches]
    case hread => simp

/-- Every step of every thread keeps the counts. -/
theorem Inv.step (h : Inv s chain phase) {t : Tid} {s' : State Tid Addr V}
    (hstep : Step s t s') : ∃ chain' phase', Inv s' chain' phase' := by
  cases hstep with
  | callEmplace value hpc =>
      refine ⟨chain, phase, h.quiet (t := t) rfl rfl rfl rfl rfl rfl ?_ ?_ ?_ ?_⟩ <;>
        simp [hpc, Pc.reserves, Pc.owns, Pc.touches]
  | callPop hpc =>
      refine ⟨chain, phase, h.quiet (t := t) rfl rfl rfl rfl rfl rfl ?_ ?_ ?_ ?_⟩ <;>
        simp [hpc, Pc.reserves, Pc.owns, Pc.touches]
  | emplaceNew addr hpc hfree => exact ⟨_, _, h.emplaceNew hpc hfree rfl rfl rfl rfl rfl rfl⟩
  | emplaceThrow hpc =>
      refine ⟨chain, phase, h.quiet (t := t) rfl rfl rfl rfl rfl rfl ?_ ?_ ?_ ?_⟩ <;>
        simp [hpc, Pc.reserves, Pc.owns, Pc.touches]
  | emplaceLoad hpc hnode => exact ⟨_, _, h.writeNext (.inl hpc) hnode⟩
  | emplaceCas hpc hnode hequal => exact ⟨_, _, h.emplaceCas hpc hnode hequal⟩
  | emplaceCasFail hpc hnode => exact ⟨_, _, h.writeNext (.inr hpc) hnode⟩
  | emplaceReturn hpc =>
      refine ⟨chain, phase, h.quiet (t := t) rfl rfl rfl rfl rfl rfl ?_ ?_ ?_ ?_⟩ <;>
        simp [hpc, Pc.reserves, Pc.owns, Pc.touches]
  | popLoad hpc =>
      refine ⟨chain, phase, h.quiet (t := t) (p := .popIncrease s.head)
        (s.observe_heap t) (s.observe_head t) (s.observe_births t) (s.observe_unlinked t)
        (s.observe_deleted t) (by rw [← s.observe_pc t]; rfl) ?_ ?_ ?_ ?_⟩ <;>
        simp [hpc, Pc.reserves, Pc.owns, Pc.touches]
  | popEmpty hpc hnull =>
      refine ⟨chain, phase, h.quiet (t := t) rfl rfl rfl rfl rfl rfl ?_ ?_ ?_ ?_⟩ <;>
        simp [hpc, Pc.reserves, Pc.owns, Pc.touches]
  | popIncrease hpc hptr hequal => exact ⟨_, _, h.popIncrease hpc hptr hequal⟩
  | popIncreaseFail hpc hptr hdiffer =>
      refine ⟨chain, phase, h.quiet (t := t) (p := .popIncrease s.head)
        (s.observe_heap t) (s.observe_head t) (s.observe_births t) (s.observe_unlinked t)
        (s.observe_deleted t) (by rw [← s.observe_pc t]; rfl) ?_ ?_ ?_ ?_⟩ <;>
        simp [hpc, Pc.reserves, Pc.owns, Pc.touches]
  | popNext hpc hnode =>
      refine ⟨chain, phase, h.quiet (t := t) rfl rfl rfl rfl rfl rfl ?_ ?_ ?_ ?_⟩
      case refine_4 =>
        intro count' ref' next hcas m hm
        cases hcas
        rw [Option.some.inj (hm.symm.trans hnode)]
      all_goals simp [hpc, Pc.reserves, Pc.owns, Pc.touches]
  | popCas hpc hequal => exact ⟨_, _, h.popCas hpc hequal⟩
  | popCasFail hpc hdiffer =>
      refine ⟨chain, phase, h.quiet (t := t) (p := .popRelease _ s.head)
        (s.observe_heap t) (s.observe_head t) (s.observe_births t) (s.observe_unlinked t)
        (s.observe_deleted t) (by rw [← s.observe_pc t]; rfl) ?_ ?_ ?_ ?_⟩ <;>
        simp [hpc, Pc.reserves, Pc.owns, Pc.touches]
  | popSwap hpc hnode => exact ⟨_, _, h.popSwap hpc hnode⟩
  | popTransfer hpc hnode => exact ⟨_, _, h.popTransfer hpc hnode⟩
  | popDelete hpc hnode =>
      refine ⟨_, _, h.free (t := t) rfl rfl rfl rfl rfl rfl ?_ ?_ ?_ ?_ ?_ ?_⟩ <;>
        simp [hpc, Pc.reserves, Pc.owns, Pc.touches]
  | popReturn hpc =>
      refine ⟨chain, phase, h.quiet (t := t) rfl rfl rfl rfl rfl rfl ?_ ?_ ?_ ?_⟩ <;>
        simp [hpc, Pc.reserves, Pc.owns, Pc.touches]
  | popRelease hpc hnode => exact ⟨_, _, h.popRelease hpc hnode⟩
  | popFence hpc hnode =>
      refine ⟨chain, phase, h.quiet (t := t) rfl rfl rfl rfl rfl rfl ?_ ?_ ?_ ?_⟩ <;>
        simp [hpc, Pc.reserves, Pc.owns, Pc.touches]
  | popRetryDelete hpc hnode =>
      refine ⟨_, _, h.free (t := t) rfl rfl rfl rfl rfl rfl ?_ ?_ ?_ ?_ ?_ ?_⟩ <;>
        simp [hpc, Pc.reserves, Pc.owns, Pc.touches]

end Invariant

end MoreCpp.LockFreeStack
