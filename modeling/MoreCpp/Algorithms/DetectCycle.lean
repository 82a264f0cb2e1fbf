import MoreCpp.Library.Loop
import MoreCpp.Library.Periodicity

/-!
`detect_cycle` and `length_of_loop` of `algorithms/linked_list/linked_list.cpp`, on any
finite set of nodes. The null pointer is `none`, and following it fails.
-/

namespace MoreCpp

open Function Library

/-- The nodes, each of which has a `next` that is null or one of them. -/
structure NodeHeap (Address : Type) where
  live : Finset Address
  next : live → Option live

namespace NodeHeap

variable {Address : Type}

abbrev Pointer (h : NodeHeap Address) : Type := Option h.live

variable (h : NodeHeap Address)

/-- `p->next`. -/
def nextOf (p : h.Pointer) : Option h.Pointer := p.map h.next

/-! ## Following `next` -/

/-- One link, where null stays null. -/
def link (p : h.Pointer) : h.Pointer := p.bind h.next

/-- The pointer after `k` links. -/
def walk (head : h.Pointer) (k : Nat) : h.Pointer := h.link^[k] head

/-- The nodes that `head` comes to and that come to themselves again. -/
def cycle (head : h.Pointer) : Set h.live :=
  {node | (∃ k, h.walk head k = some node) ∧ ∃ n > 0, h.walk (some node) n = some node}

section Walk

variable {h} {head : h.Pointer} {j k : Nat}

theorem link_null : IsFixedPt h.link none := rfl

theorem nextOf_eq {p : h.Pointer} (hp : p ≠ none) : h.nextOf p = some (h.link p) := by
  obtain ⟨node, rfl⟩ := Option.ne_none_iff_exists'.mp hp
  rfl

theorem walk_succ : h.walk head (k + 1) = h.link (h.walk head k) :=
  iterate_succ_apply' h.link k head

theorem walk_ne_null_of_le (hjk : j ≤ k) (hk : h.walk head k ≠ none) : h.walk head j ≠ none := by
  intro hj
  apply hk
  have hsplit : k = k - j + j := by omega
  rw [walk] at hj
  rw [hsplit, walk, iterate_add_apply, hj, link_null.iterate]

/-- Where the pointers meet on a node, the links never come to null. -/
theorem ne_null_of_meeting (hj : 0 < j) (hmeet : h.walk head j = h.walk head (2 * j))
    (hne : h.walk head j ≠ none) (k : Nat) : h.walk head k ≠ none := by
  intro hk
  apply hne
  apply eq_of_periodic_of_fixed hj (meeting_periodic hmeet) link_null
  show h.link^[k] (h.link^[j] head) = none
  rw [walk] at hk
  rw [← iterate_add_apply, Nat.add_comm, iterate_add_apply, hk, link_null.iterate]

theorem cycle_eq_empty (hk : h.walk head k = none) : h.cycle head = ∅ := by
  apply Set.eq_empty_of_forall_notMem
  rintro node ⟨⟨j, hj⟩, n, hn, hround⟩
  have hcomes : h.link^[k] (some node) = none := by
    rw [walk] at hk
    rw [← hj, walk, ← iterate_add_apply, Nat.add_comm, iterate_add_apply, hk, link_null.iterate]
  cases eq_of_periodic_of_fixed hn hround link_null hcomes

/-- The cycle is what a node on it comes to. -/
theorem image_cycle (hnull : ∀ k, h.walk head k ≠ none)
    (hperiodic : h.walk head k ∈ periodicPts h.link) :
    some '' h.cycle head = {p | ∃ n, h.link^[n] (h.walk head k) = p} := by
  ext p
  constructor
  · rintro ⟨node, ⟨⟨m, hm⟩, n, hn, hround⟩, rfl⟩
    have hz : h.link^[m] head ∈ periodicPts h.link := by
      rw [walk] at hm
      rw [hm]
      exact mk_mem_periodicPts hn hround
    obtain ⟨n, hn⟩ := exists_iterate_of_periodic (k := k) hz
    exact ⟨n, hn.trans hm⟩
  · rintro ⟨n, hn⟩
    have hreach : h.walk head (n + k) = p := by
      rw [walk, iterate_add_apply]
      exact hn
    obtain ⟨node, rfl⟩ := Option.ne_none_iff_exists'.mp (hreach ▸ hnull (n + k))
    obtain ⟨q, hq, hround⟩ := mem_periodicPts.mp hperiodic
    refine ⟨node, ⟨⟨n + k, hreach⟩, q, hq, ?_⟩, rfl⟩
    have hlater : IsPeriodicPt h.link q (h.link^[n] (h.walk head k)) := hround.apply_iterate n
    rw [hn] at hlater
    exact hlater

theorem ncard_cycle (hnull : ∀ k, h.walk head k ≠ none)
    (hperiodic : h.walk head k ∈ periodicPts h.link) :
    (h.cycle head).ncard = minimalPeriod h.link (h.walk head k) := by
  rw [← ncard_iterates hperiodic, ← image_cycle hnull hperiodic]
  exact (Set.ncard_image_of_injective _ (Option.some_injective _)).symm

end Walk

/-! ## The functions -/

variable [DecidableEq Address]

/-- `slow && fast && fast->next`. -/
def goesOn (slow fast : h.Pointer) : Option Bool :=
  if slow.isSome && fast.isSome then do
    let next ← h.nextOf fast
    return next.isSome
  else some false

/-- A turn of the loop that both functions have. `met` is what they return where the two
pointers meet. -/
def chaseRound {R : Type} (met : h.Pointer → Option R) (missed : R) :
    h.Pointer × h.Pointer → Option ((h.Pointer × h.Pointer) ⊕ R)
  | (slow, fast) => do
    if ← h.goesOn slow fast then
      let slow ← h.nextOf slow
      let next ← h.nextOf fast
      let fast ← h.nextOf next
      if slow = fast then
        let result ← met slow
        return .inr result
      else return .inl (slow, fast)
    else return .inr missed

def detectCycle (fuel : Nat) (head : h.Pointer) : Option Bool :=
  loop (h.chaseRound (fun _ => some true) false) fuel (head, head)

/-- A turn of the loop of `count_nodes`. -/
def countRound (node : h.Pointer) : h.Pointer × Nat → Option ((h.Pointer × Nat) ⊕ Nat)
  | (cur, cnt) => do
    let next ← h.nextOf cur
    if next ≠ node then return .inl (next, cnt + 1) else return .inr cnt

def countNodes (fuel : Nat) (node : h.Pointer) : Option Nat :=
  loop (h.countRound node) fuel (node, 1)

def lengthOfLoop (fuel : Nat) (head : h.Pointer) : Option Nat :=
  loop (h.chaseRound (h.countNodes fuel) 0) fuel (head, head)

section Loops

variable {h} {R : Type} {met : h.Pointer → Option R} {missed : R} {head node : h.Pointer}
  {k m fuel : Nat}

omit [DecidableEq Address] in
theorem goesOn_eq (slow fast : h.Pointer) :
    h.goesOn slow fast = some (slow.isSome && (h.link fast).isSome) := by
  cases slow <;> cases fast <;> rfl

theorem chaseRound_missed (hend : h.walk head (2 * k + 1) = none) :
    h.chaseRound met missed (h.walk head k, h.walk head (2 * k)) = some (.inr missed) := by
  rw [walk_succ] at hend
  simp [chaseRound, goesOn_eq, hend]

theorem chaseRound_goesOn (hmore : h.walk head (2 * k + 1) ≠ none) :
    h.chaseRound met missed (h.walk head k, h.walk head (2 * k)) =
      if h.walk head (k + 1) = h.walk head (2 * (k + 1)) then
        (met (h.walk head (k + 1))).map .inr
      else some (.inl (h.walk head (k + 1), h.walk head (2 * (k + 1)))) := by
  have hslow : h.walk head k ≠ none := walk_ne_null_of_le (by omega) hmore
  have hfast : h.walk head (2 * k) ≠ none := walk_ne_null_of_le (by omega) hmore
  have htwo : 2 * (k + 1) = 2 * k + 1 + 1 := by omega
  rw [chaseRound, goesOn_eq, nextOf_eq hslow, nextOf_eq hfast, ← walk_succ, ← walk_succ,
    Option.isSome_iff_ne_none.mpr hslow, Option.isSome_iff_ne_none.mpr hmore]
  simp only [Bool.and_self, Option.bind_eq_bind, Option.bind_some, if_true]
  rw [nextOf_eq hmore, ← walk_succ, ← htwo]
  simp only [Option.bind_some]
  split
  · cases met (h.walk head (k + 1)) <;> rfl
  · rfl

omit [DecidableEq Address] in
theorem card_pointer : Fintype.card h.Pointer = h.live.card + 1 := by
  rw [Fintype.card_option, Fintype.card_coe]

omit [DecidableEq Address] in
theorem exists_end (head : h.Pointer) : ∃ k ≤ h.live.card + 1,
    h.walk head (2 * k + 1) = none ∨ h.walk head (k + 1) = h.walk head (2 * (k + 1)) := by
  by_cases hnull : ∃ k, h.walk head k = none
  · obtain ⟨k, hk⟩ := hnull
    refine ⟨h.live.card + 1, Nat.le_refl _, .inl ?_⟩
    have hcomes : h.walk head (h.live.card + 1) = none := by
      rw [← card_pointer]
      exact iterate_card_of_fixed link_null hk
    by_contra hne
    exact walk_ne_null_of_le (by omega) hne hcomes
  · obtain ⟨m, hpos, hm, hmeet⟩ := exists_meeting h.link head
    rw [card_pointer] at hm
    obtain ⟨k, rfl⟩ := Nat.exists_eq_succ_of_ne_zero hpos.ne'
    exact ⟨k, by omega, .inr hmeet⟩

/-- The loop ends where the list does, or where the pointers meet. -/
theorem chase_spec (met : h.Pointer → Option R) (missed : R) (head : h.Pointer)
    (hmet : ∀ m, 0 < m → h.walk head m = h.walk head (2 * m) → h.walk head m ≠ none →
      (met (h.walk head m)).isSome)
    (hfuel : h.live.card + 1 < fuel) :
    ∃ result, loop (h.chaseRound met missed) fuel (head, head) = some result ∧
      ((∃ k, h.walk head k = none) ∧ result = missed ∨
        ∃ m, 0 < m ∧ h.walk head m = h.walk head (2 * m) ∧ h.walk head m ≠ none ∧
          met (h.walk head m) = some result) := by
  classical
  have hexists := exists_end head
  obtain ⟨hbound, hend⟩ := Nat.find_spec hexists
  have hbefore := fun j hj => Nat.find_min hexists (m := j) hj
  generalize Nat.find hexists = k at hbound hend hbefore
  have hrun : Leads (h.chaseRound met missed) k (head, head)
      (h.walk head k, h.walk head (2 * k)) := by
    apply Leads.sequence fun j => (h.walk head j, h.walk head (2 * j))
    intro j hj
    obtain ⟨hmore, hapart⟩ := not_or.mp fun h => hbefore j hj ⟨by omega, h⟩
    rw [chaseRound_goesOn hmore, if_neg hapart]
  by_cases hnull : h.walk head (2 * k + 1) = none
  · exact ⟨missed, hrun.loop_eq (chaseRound_missed hnull) (by omega), .inl ⟨⟨_, hnull⟩, rfl⟩⟩
  · have hmeet := hend.resolve_left hnull
    have hne : h.walk head (k + 1) ≠ none := walk_ne_null_of_le (by omega) hnull
    obtain ⟨result, hresult⟩ := Option.isSome_iff_exists.mp (hmet _ (Nat.succ_pos k) hmeet hne)
    refine ⟨result, hrun.loop_eq ?_ (by omega), .inr ⟨_, Nat.succ_pos k, hmeet, hne, hresult⟩⟩
    rw [chaseRound_goesOn hnull, if_pos hmeet, hresult]
    rfl

/-- From a node on a cycle it counts the nodes of the cycle. -/
theorem countNodes_spec (hnull : ∀ k, h.walk node k ≠ none) (hnode : node ∈ periodicPts h.link)
    (hfuel : h.live.card + 1 < fuel) :
    h.countNodes fuel node = some (minimalPeriod h.link node) := by
  have hpos := minimalPeriod_pos_of_mem_periodicPts hnode
  have hle : minimalPeriod h.link node ≤ h.live.card + 1 := by
    rw [← card_pointer]
    exact minimalPeriod_le_card
  obtain ⟨n, hn⟩ := Nat.exists_eq_succ_of_ne_zero hpos.ne'
  have hround : ∀ j, h.countRound node (h.walk node j, j + 1) =
      if h.walk node (j + 1) ≠ node then some (.inl (h.walk node (j + 1), j + 2))
      else some (.inr (j + 1)) := by
    intro j
    rw [countRound, nextOf_eq (hnull j), ← walk_succ]
    rfl
  have hrun : Leads (h.countRound node) n (node, 1) (h.walk node n, n + 1) := by
    apply Leads.sequence fun j => (h.walk node j, j + 1)
    intro j hj
    rw [hround j, if_pos]
    intro heq
    have hperiod : IsPeriodicPt h.link (j + 1) node := heq
    have hmin := hperiod.minimalPeriod_le (Nat.succ_pos j)
    omega
  rw [hn]
  apply hrun.loop_eq ?_ (by omega)
  rw [hround n, if_neg]
  apply not_not.mpr
  show h.link^[n + 1] node = node
  have hperiod := iterate_minimalPeriod (f := h.link) (x := node)
  rwa [hn] at hperiod

theorem detectCycle_spec (hfuel : h.live.card + 1 < fuel) :
    ∃ found, h.detectCycle fuel head = some found ∧
      (found = true ↔ ∀ k, h.walk head k ≠ none) := by
  obtain ⟨found, hrun, ⟨⟨k, hk⟩, rfl⟩ | ⟨m, hm, hmeet, hne, hfound⟩⟩ :=
    chase_spec (fun _ => some true) false head (fun _ _ _ _ => rfl) hfuel
  · refine ⟨false, hrun, ?_⟩
    constructor
    · intro h
      cases h
    · intro h
      exact absurd hk (h k)
  · cases hfound
    exact ⟨true, hrun, fun _ => ne_null_of_meeting hm hmeet hne, fun _ => rfl⟩

theorem countNodes_meeting (hfuel : h.live.card + 1 < fuel) (hm : 0 < m)
    (hmeet : h.walk head m = h.walk head (2 * m)) (hne : h.walk head m ≠ none) :
    h.countNodes fuel (h.walk head m) = some (h.cycle head).ncard := by
  have hnull := ne_null_of_meeting hm hmeet hne
  have hperiodic : h.walk head m ∈ periodicPts h.link :=
    mk_mem_periodicPts hm (meeting_periodic hmeet)
  rw [ncard_cycle hnull hperiodic]
  apply countNodes_spec ?_ hperiodic hfuel
  intro k
  have hlater := hnull (k + m)
  rw [walk, iterate_add_apply] at hlater
  exact hlater

theorem lengthOfLoop_spec (hfuel : h.live.card + 1 < fuel) :
    h.lengthOfLoop fuel head = some (h.cycle head).ncard := by
  obtain ⟨result, hrun, ⟨⟨k, hk⟩, rfl⟩ | ⟨m, hm, hmeet, hne, hresult⟩⟩ :=
    chase_spec (h.countNodes fuel) 0 head
      (fun m hm hmeet hne => by rw [countNodes_meeting hfuel hm hmeet hne]; rfl) hfuel
  · rw [cycle_eq_empty hk, Set.ncard_empty]
    exact hrun
  · rw [countNodes_meeting hfuel hm hmeet hne] at hresult
    rw [hresult]
    exact hrun

omit [DecidableEq Address] in
theorem cycle_nonempty (hnull : ∀ k, h.walk head k ≠ none) : 0 < (h.cycle head).ncard := by
  obtain ⟨m, hm, -, hmeet⟩ := exists_meeting h.link head
  have hperiodic : h.walk head m ∈ periodicPts h.link :=
    mk_mem_periodicPts hm (meeting_periodic hmeet)
  rw [ncard_cycle hnull hperiodic]
  exact minimalPeriod_pos_of_mem_periodicPts hperiodic

end Loops

/-- Node 0 is before a cycle of 1 and 2. -/
def tailAndCycle : NodeHeap (Fin 3) where
  live := Finset.univ
  next node := some ⟨if node.val = 1 then 2 else 1, Finset.mem_univ _⟩

end NodeHeap

end MoreCpp
