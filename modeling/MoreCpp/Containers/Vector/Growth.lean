import MoreCpp.Containers.Vector.Append
import MoreCpp.Library.TransitionSystem

/-!
The growth policy of `learning::Vector`. A growth at least doubles the capacity, up
to the limit of the allocator, so that all growths together relocate fewer elements
than twice as many as were appended, whatever was removed in between.
-/

namespace MoreCpp.Vector

open Library

variable {V : Type*}

/-- A vector, how many elements were appended to it and how many relocated. -/
structure Tally (V : Type*) where
  vector : State V
  appended : Nat
  relocated : Nat

namespace Tally

variable (A : Allocator) (T : Element V)

/-- Whether an operation appends an element. -/
def appends (t : Tally V) (op : Op V) : Bool :=
  (op.arguments T).isSome && (t.vector.perform A T op).1.isOk

/-- The objects that an operation makes. -/
def made (t : Tally V) (op : Op V) : Nat :=
  (t.vector.perform A T op).2.memory.storage.nextObject - t.vector.memory.storage.nextObject

/-- An operation relocates the elements that it makes besides the one appended. -/
def next (t : Tally V) (op : Op V) : Tally V where
  vector := (t.vector.perform A T op).2
  appended := t.appended + if t.appends A T op then 1 else 0
  relocated := t.relocated + (t.made A T op - if t.appends A T op then 1 else 0)

end Tally

/-- Histories of appends, `pop_back` and `clear` on a default-constructed vector in which
only the check of the limit throws. -/
def growth (A : Allocator) (T : Element V) (time : Nat) : System (Tally V) (Op V) where
  Init t := t = ⟨(State.make A 0 ⟨.empty V, time⟩).2, 0, 0⟩
  Step t op t' := (∀ newCapacity, op ≠ .reserve newCapacity) ∧
    ((t.vector.perform A T op).1 = .ok () ∨ (t.vector.perform A T op).1 = .error limitCheck) ∧
    t' = t.next A T op

namespace State

open Memory

variable {A : Allocator} {T : Element V} {s s' : State V} {args : Arguments V} {position : Nat}

/-- An append makes one object, and one for each element if it grows. -/
theorem Appends.made (h : s.Valid A) (hends : Appends A T args s (.ok position, s')) :
    s'.size = s.size + 1 ∧
    (s'.capacity = s.capacity ∧
      s'.memory.storage.nextObject = s.memory.storage.nextObject + 1 ∨
    s.size = s.capacity ∧ s.capacity ≠ A.maxSize ∧ s'.capacity = grownCapacity A s.capacity ∧
      s'.memory.storage.nextObject = s.memory.storage.nextObject + 1 + s.size) := by
  cases hends with
  | inPlace m hroom hmade =>
      obtain ⟨block, hblock⟩ := h.data_of_pos (by omega)
      rw [hblock] at hmade
      obtain ⟨value, change, -, rfl⟩ := constructFrom_true hmade
      refine ⟨rfl, .inl ⟨rfl, ?_⟩⟩
      dsimp only
      rw [h.construct_end hblock hroom]
  | grown target m m' m'' hfull hlimit hslots hobjects hbeside hmade hbeside' hrelocated =>
      have hne := hbeside.target_ne
      have hroom := grownCapacity_gt h.capacity_le hlimit
      obtain ⟨value, change, -, rfl⟩ := constructFrom_true hmade
      have hone := construct_touched s.size change value hne hbeside.blocks_target
        (show s.size < _ by omega) (hbeside.slots_target not_false)
      generalize (m.touch s.data s.size change).construct (some target) s.size value = m'
        at hbeside' hrelocated hone
      obtain ⟨hmade', -, -⟩ := relocate_true hne hbeside'.blocks_target (by omega)
        (fun j _ hj => hbeside'.slots_target (below_ne_last (by omega))) hrelocated
      have hkept := (install_kept (s := { s with memory := m'' }) hne (s.size + 1)
        (grownCapacity A s.capacity)).2
      refine ⟨rfl, .inr ⟨hfull, hlimit, rfl, ?_⟩⟩
      rw [hkept, hmade', hone, hobjects]

/-- An operation appends an element, or makes none and removes some, or meets the limit. -/
theorem Valid.perform_cases (h : s.Valid A) {op : Op V}
    (hop : ∀ newCapacity, op ≠ .reserve newCapacity)
    (hthrows : (s.perform A T op).1 = .ok () ∨ (s.perform A T op).1 = .error limitCheck) :
    (∃ args position s', op.arguments T = some args ∧ s.perform A T op = (.ok (), s') ∧
      Appends A T args s (.ok position, s')) ∨
    ((op.arguments T).isSome = true ∧ s.size = s.capacity ∧ s.capacity = A.maxSize ∧
      s.perform A T op = (.error limitCheck, s)) ∨
    op.arguments T = none ∧ (s.perform A T op).2.capacity = s.capacity ∧
      (s.perform A T op).2.size ≤ s.size ∧
      (s.perform A T op).2.memory.storage.nextObject = s.memory.storage.nextObject := by
  have happend : ∀ args, op.arguments T = some args →
      s.perform A T op = (s.emplaceBack A T args).map (·.map fun _ => ()) id →
      (∃ args position s', op.arguments T = some args ∧ s.perform A T op = (.ok (), s') ∧
        Appends A T args s (.ok position, s')) ∨
      ((op.arguments T).isSome = true ∧ s.size = s.capacity ∧ s.capacity = A.maxSize ∧
        s.perform A T op = (.error limitCheck, s)) := by
    intro args hargs hperform
    have hends := h.emplaceBack_cases T args
    rw [hperform] at hthrows ⊢
    generalize s.emplaceBack A T args = result at hends hthrows
    obtain ⟨position | e, s'⟩ := result
    · cases hends with
      | limited hfull hlimit =>
          exact .inr ⟨by rw [hargs]; rfl, hfull, hlimit, rfl⟩
      | threw _ _ he _ =>
          rcases hthrows with hok | herror
          · cases hok
          · exact absurd (Except.error.inj herror) he
    · exact .inl ⟨args, e, s', hargs, rfl, hends⟩
  cases op with
  | reserve newCapacity => exact absurd rfl (hop newCapacity)
  | emplaceBack args => exact (happend args rfl rfl).imp_right .inl
  | pushBackCopy value => exact (happend _ rfl rfl).imp_right .inl
  | pushBackMove value => exact (happend _ rfl rfl).imp_right .inl
  | popBack =>
      refine .inr (.inr ⟨rfl, ?_, ?_, popBack_nextObject s⟩)
      all_goals
        simp only [State.perform, State.popBack]
        split
      · rfl
      · rfl
      · exact Nat.le_refl _
      · exact Nat.sub_le _ _
  | clear =>
      obtain ⟨-, hsize, -, hcapacity⟩ := h.clear
      exact .inr (.inr ⟨rfl, hcapacity, hsize ▸ Nat.zero_le _, clearLoop_nextObject s.size s⟩)

end State

namespace Tally

open State

variable {A : Allocator} {T : Element V} {t t' : Tally V} {op : Op V} {time : Nat}

/-- So far no growth relocated anything, or the last one did when the vector had `full`
elements, and it doubled the capacity or took all there is. -/
structure Bounded (A : Allocator) (t : Tally V) : Prop where
  valid : t.vector.Valid A
  size_le : t.vector.size ≤ t.appended
  relocated_le : t.relocated = 0 ∨ ∃ full < t.appended, t.relocated ≤ 2 * full ∧
    (2 * full ≤ t.vector.capacity ∨ t.vector.capacity = A.maxSize)

/-- In unbounded arithmetic the capacity is doubled, from one on, up to the limit. -/
theorem grownCapacity_eq (A : Allocator) (capacity : Nat) :
    grownCapacity A capacity = if capacity = 0 then 1 else min (capacity * 2) A.maxSize := by
  have hlimit := A.maxSize_lt
  unfold grownCapacity
  split
  · rfl
  · split
    · omega
    · rw [Nat.mod_eq_of_lt (by omega)]
      omega

theorem Bounded.step (h : t.Bounded A) (hstep : (growth A T time).Step t op t') :
    t'.Bounded A := by
  obtain ⟨hop, hthrows, rfl⟩ := hstep
  have hvalid : (t.next A T op).vector.Valid A := h.valid.perform T op
  have hsize := h.size_le
  rcases h.valid.perform_cases hop hthrows with
    ⟨args, position, s', hargs, hrun, hends⟩ | ⟨-, hfull, hlimit, hrun⟩ | ⟨hargs, hcap, hle, hsame⟩
  · have happends : t.appends A T op = true := by
      rw [appends, hargs, hrun]
      rfl
    obtain ⟨hsize', hmade⟩ := hends.made h.valid
    have happended : (t.next A T op).appended = t.appended + 1 := by
      rw [next, happends]
      rfl
    have hvector : (t.next A T op).vector = s' := congrArg Prod.snd hrun
    have hrelocated : (t.next A T op).relocated = t.relocated +
        (s'.memory.storage.nextObject - t.vector.memory.storage.nextObject - 1) := by
      rw [next, happends, made, hrun]
      rfl
    refine ⟨hvalid, by rw [hvector, happended]; omega, ?_⟩
    rw [hrelocated, happended, hvector]
    rcases hmade with ⟨hcap, hone⟩ | ⟨hfull, hlimit, hcap, hall⟩
    · rw [hone, hcap]
      rcases h.relocated_le with hzero | ⟨full, hlt, hle, hdouble⟩
      · exact .inl (by omega)
      · exact .inr ⟨full, by omega, by omega, hdouble⟩
    · -- The growth relocates as many elements as there were in all growths before it.
      have hbefore : t.relocated ≤ t.vector.capacity := by
        rcases h.relocated_le with hzero | ⟨full, -, hle, hdouble | hmax⟩
        · omega
        · omega
        · exact absurd hmax hlimit
      refine .inr ⟨t.vector.size, by omega, by omega, ?_⟩
      rw [hcap, grownCapacity_eq]
      split <;> omega
  · have happends : t.appends A T op = false := by
      rw [appends, hrun]
      exact Bool.and_false _
    have hnext : t.next A T op = t := by
      rw [next, happends, made, hrun]
      simp
    rwa [hnext]
  · have happends : t.appends A T op = false := by
      rw [appends, hargs]
      rfl
    have hnext : (t.next A T op).appended = t.appended ∧
        (t.next A T op).relocated = t.relocated := by
      rw [next, happends, made, hsame]
      simp
    refine ⟨hvalid, by rw [hnext.1]; exact hle.trans hsize, ?_⟩
    rw [hnext.1, hnext.2]
    change _ ∨ ∃ full < _, _ ∧ (_ ≤ (t.vector.perform A T op).2.capacity ∨
      (t.vector.perform A T op).2.capacity = _)
    rw [hcap]
    exact h.relocated_le

theorem Bounded.initial : (⟨(State.make A 0 ⟨.empty V, time⟩).2, 0, 0⟩ : Tally V).Bounded A where
  valid := by
    rcases make_cases (V := V) A 0 time with ⟨-, hvalid⟩ | ⟨herror, -⟩
    · exact hvalid
    · cases herror
  size_le := Nat.le_refl 0
  relocated_le := .inl rfl

theorem reachable_bounded (ht : (growth A T time).Reachable t) : t.Bounded A := by
  refine System.reachable_invariant _ (Bounded A) ?_ ?_ t ht
  · rintro _ rfl
    exact .initial
  · exact fun t op t' _ h hstep => h.step hstep

/-- A growth from one capacity to another: it makes room, respects the limit, and its
multiplication does not wrap around. -/
structure Grown (A : Allocator) (capacity capacity' : Nat) : Prop where
  larger : capacity < capacity'
  within : capacity' ≤ A.maxSize
  doubled : capacity' = if capacity = 0 then 1 else min (capacity * 2) A.maxSize
  no_overflow : capacity ≤ A.maxSize / 2 → capacity * 2 < 2 ^ 64

theorem grown_grownCapacity {capacity : Nat} (hle : capacity ≤ A.maxSize)
    (hne : capacity ≠ A.maxSize) : Grown A capacity (grownCapacity A capacity) where
  larger := grownCapacity_gt hle hne
  within := by
    rw [grownCapacity_eq]
    split <;> omega
  doubled := grownCapacity_eq A capacity
  no_overflow := by
    have hlimit := A.maxSize_lt
    omega

/-- Whatever was appended, popped and cleared so far: fewer elements were relocated than
twice as many as were appended, and in the next step the capacity stays, with no element
relocated, or it grows and each element is relocated once, and an append fails only if
the vector is full and as large as the allocator allows. -/
theorem growth_policy (A : Allocator) (T : Element V) (time : Nat)
    (ht : (growth A T time).Reachable t) :
    (1 ≤ t.appended → t.relocated < 2 * t.appended) ∧
    ∀ op t', (growth A T time).Step t op t' →
      (t'.vector.capacity = t.vector.capacity ∧ t'.relocated = t.relocated ∨
        Grown A t.vector.capacity t'.vector.capacity ∧
          t'.relocated = t.relocated + t.vector.size) ∧
      ((op.arguments T).isSome = true → t.appends A T op = false →
        t.vector.size = t.vector.capacity ∧ t.vector.capacity = A.maxSize) := by
  have h := reachable_bounded ht
  refine ⟨fun hpos => ?_, ?_⟩
  · rcases h.relocated_le with hzero | ⟨full, hlt, hle, -⟩ <;> omega
  · rintro op _ ⟨hop, hthrows, rfl⟩
    rcases h.valid.perform_cases hop hthrows with
      ⟨args, position, s', hargs, hrun, hends⟩ | ⟨hargs, hfull, hlimit, hrun⟩ |
      ⟨hargs, hcap, -, hsame⟩
    · have happends : t.appends A T op = true := by
        rw [appends, hargs, hrun]
        rfl
      refine ⟨?_, fun _ hfalse => absurd happends (Bool.eq_false_iff.mp hfalse)⟩
      rw [next, happends, made, hrun]
      dsimp only
      obtain ⟨-, ⟨hcap, hone⟩ | ⟨hfull, hlimit, hcap, hall⟩⟩ := hends.made h.valid
      · exact .inl ⟨hcap, by rw [hone, if_pos rfl]; omega⟩
      · refine .inr ⟨hcap ▸ grown_grownCapacity h.valid.capacity_le hlimit, ?_⟩
        rw [hall, if_pos rfl]
        omega
    · refine ⟨.inl ?_, fun _ _ => ⟨hfull, hlimit⟩⟩
      rw [next, made, hrun]
      exact ⟨rfl, by dsimp only; omega⟩
    · refine ⟨.inl ⟨hcap, ?_⟩, fun hsome => ?_⟩
      · rw [next, made, hsame]
        dsimp only
        omega
      · rw [hargs] at hsome
        cases hsome

/-- Three appends to a new vector relocate three elements. -/
theorem growth_policy_three : ∃ t, (growth State.hundredSlots (State.throwingCopy 9) 0).Reachable t ∧
    t.appended = 3 ∧ t.relocated = 3 ∧ t.relocated < 2 * t.appended := by
  have ht₀ : (growth State.hundredSlots (State.throwingCopy 9) 0).Reachable _ := .start rfl
  have ht₁ := ht₀.next (show (growth _ _ _).Step _ (.pushBackCopy (.other 7)) _ from
    ⟨nofun, .inl rfl, rfl⟩)
  have ht₂ := ht₁.next (show (growth _ _ _).Step _ (.pushBackCopy (.other 8)) _ from
    ⟨nofun, .inl rfl, rfl⟩)
  have ht₃ := ht₂.next (show (growth _ _ _).Step _ (.pushBackCopy (.other 9)) _ from
    ⟨nofun, .inl rfl, rfl⟩)
  exact ⟨_, ht₃, rfl, rfl, (growth_policy _ _ _ ht₃).1 (by decide)⟩

end Tally

end MoreCpp.Vector
