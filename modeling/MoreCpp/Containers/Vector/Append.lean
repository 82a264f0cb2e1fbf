import MoreCpp.Containers.Vector.StrongGuarantee

/-!
How an append to a `learning::Vector` ends, and what it leaves in the slots: it
constructs in place, grows and relocates, meets the limit, or throws for another
reason.
-/

namespace MoreCpp.Vector

open Library

variable {V : Type*}

/-- The exception of a vector that is as large as the allocator allows. -/
def limitCheck : Exn := .lengthError "Vector capacity exceeds allocator limit"

namespace Memory

variable {m m' : Memory V} {data data' : Option Nat} {size target index n i : Nat}
  {change : Nat → V → V} {value : V} {T : Element V} {args : Arguments V}

theorem constructFrom_true (h : m.constructFrom data size args (some target) index = (true, m')) :
    ∃ value change, args m.time (m.elements data size) = (some value, change) ∧
      m' = (m.touch data size change).construct (some target) index value := by
  unfold constructFrom at h
  split at h
  case h_1 value change hargs => exact ⟨value, change, hargs, (Prod.mk.inj h).2.symm⟩
  case h_2 => cases h

theorem constructFrom_false {target : Option Nat}
    (h : m.constructFrom data size args target index = (false, m')) :
    (args m.time (m.elements data size)).1 = none := by
  unfold constructFrom at h
  split at h
  case h_1 => cases h
  case h_2 hargs => rw [hargs]

theorem relocateOne_true (h : relocateOne T data size target index m = (true, m')) :
    ∃ value made source, m.element? data index = some value ∧
      T.relocate m.time value = (some made, source) ∧
      m' = (m.touch data size fun i v => if i = index then source else v).construct
        (some target) index made := by
  unfold relocateOne at h
  split at h
  case h_1 => cases h
  case h_2 value hvalue =>
    split at h
    case h_1 made source hmoved =>
      exact ⟨value, made, source, hvalue, hmoved, (Prod.mk.inj h).2.symm⟩
    case h_2 => cases h

/-- The loop relocates one element and goes on, or it is at its end. -/
theorem relocate_succ_true {todo done count : Nat}
    (h : relocate T data size target (todo + 1) done m = (count, true, m')) :
    ∃ m₁, relocateOne T data size target done m = (true, m₁) ∧
      relocate T data size target todo (done + 1) m₁ = (count, true, m') := by
  rw [relocate] at h
  split at h
  case h_1 m₁ hstep => exact ⟨m₁, hstep, h⟩
  case h_2 => cases h

theorem touch_blocks : (m.touch data size change).storage.blocks = m.storage.blocks := by
  cases data <;> rfl

theorem touch_nextObject :
    (m.touch data size change).storage.nextObject = m.storage.nextObject := by
  cases data <;> rfl

/-- The code of an element does not reach another allocation. -/
theorem touch_slots_of_ne (size : Nat) (change : Nat → V → V) (hne : data ≠ some target) :
    (m.touch data size change).storage.slots (target, i) = m.storage.slots (target, i) := by
  cases data with
  | none => rfl
  | some block =>
      have hother : target ≠ block := fun heq => hne (congrArg some heq.symm)
      simp [touch, hother]

/-- What a construction in a free slot beside the vector needs. -/
theorem construct_touched (size : Nat) (change : Nat → V → V) (value : V)
    (hne : data ≠ some target) (hblock : m.storage.blocks target = some n) (hbounds : index < n)
    (hfree : m.storage.slots (target, index) = none) :
    ((m.touch data size change).construct (some target) index value).storage =
      { (m.touch data size change).storage with
        slots := Function.update (m.touch data size change).storage.slots (target, index)
          (some ⟨m.storage.nextObject, value⟩)
        nextObject := m.storage.nextObject + 1 } := by
  have hinside : (m.touch data size change).storage.InBounds (target, index) :=
    ⟨n, by rw [touch_blocks, hblock], hbounds⟩
  have hempty := (touch_slots_of_ne size change hne).trans hfree
  have hnext : m.storage.nextObject = (m.touch data size change).storage.nextObject :=
    touch_nextObject.symm
  rw [hnext]
  exact Storage.construct_eq hinside hempty

theorem element?_touch (hi : i < size) :
    (m.touch data size change).element? data i = (m.element? data i).map (change i) := by
  cases data with
  | none => rfl
  | some block =>
      cases hslot : m.storage.slots (block, i) <;>
        simp [touch, element?, Storage.value?, hslot, hi]

/-- The source of a move is the only element that it changes. -/
theorem element?_touch_of_ne {source : V} (hne : i ≠ index) :
    (m.touch data size fun i v => if i = index then source else v).element? data i =
      m.element? data i := by
  cases data with
  | none => rfl
  | some block =>
      cases hslot : m.storage.slots (block, i) <;>
        simp [touch, element?, Storage.value?, hslot, hne]

theorem element?_of_slots {block : Nat}
    (h : m'.storage.slots (block, i) = m.storage.slots (block, i)) :
    m'.element? (some block) i = m.element? (some block) i := by
  simp only [element?, Option.bind_some, Storage.value?, h]

theorem element?_construct_of_ne (m : Memory V) (index : Nat) (value : V)
    (hne : data ≠ some target) :
    (m.construct (some target) index value).element? data i = m.element? data i := by
  cases data with
  | none => rfl
  | some block =>
      apply element?_of_slots
      apply Storage.construct_slots_of_ne
      exact fun heq => hne (congrArg some (Prod.mk.inj heq).1)

theorem element?_construct_self (size : Nat) (change : Nat → V → V) (value : V)
    (hne : data ≠ some target) (hblock : m.storage.blocks target = some n) (hbounds : index < n)
    (hfree : m.storage.slots (target, index) = none) :
    ((m.touch data size change).construct (some target) index value).element? (some target)
      index = some value := by
  simp [element?, Storage.value?, construct_touched size change value hne hblock hbounds hfree]

/-- What the relocation loop does when it ends: it makes one object for each element, each
from the value the element had, and nothing beyond them. -/
theorem relocate_true (hne : data ≠ some target) {todo done count : Nat}
    (hblock : m.storage.blocks target = some n) (hbounds : done + todo ≤ n)
    (hfree : ∀ i, done ≤ i → i < done + todo → m.storage.slots (target, i) = none)
    (hrun : relocate T data size target todo done m = (count, true, m')) :
    m'.storage.nextObject = m.storage.nextObject + todo ∧
    (∀ i, done ≤ i → i < done + todo → ∃ time value made, m.element? data i = some value ∧
      (T.relocate time value).1 = some made ∧ m'.element? (some target) i = some made) ∧
    ∀ i, i < done ∨ done + todo ≤ i →
      m'.element? (some target) i = m.element? (some target) i := by
  induction todo generalizing done m with
  | zero =>
      obtain rfl : m = m' := (Prod.mk.inj (Prod.mk.inj hrun).2).2
      exact ⟨rfl, fun i hle hlt => absurd hlt (Nat.not_lt_of_le hle), fun _ _ => rfl⟩
  | succ todo ih =>
      obtain ⟨m₁, hone, hrest⟩ := relocate_succ_true hrun
      obtain ⟨value, made, source, hvalue, hmoved, rfl⟩ := relocateOne_true hone
      have hempty := hfree done (Nat.le_refl _) (by omega)
      have hmade := construct_touched size (fun i v => if i = done then source else v) made hne
        hblock (by omega) hempty
      have hself := element?_construct_self size (fun i v => if i = done then source else v) made
        hne hblock (by omega) hempty
      have hdata : ∀ i, i ≠ done → _ = m.element? data i := fun i hi =>
        (element?_construct_of_ne (m.touch data size fun i v => if i = done then source else v)
          done made hne).trans (element?_touch_of_ne hi)
      generalize hm₁ : (m.touch data size fun i v => if i = done then source else v).construct
        (some target) done made = m₁ at hmade hrest hself hdata
      have hslots : ∀ i, i ≠ done → m₁.storage.slots (target, i) =
          m.storage.slots (target, i) := by
        intro i hi
        rw [hmade]
        have hother : (target, i) ≠ (target, done) := fun heq => hi (Prod.mk.inj heq).2
        exact (Function.update_of_ne hother ..).trans (touch_slots_of_ne _ _ hne)
      have hnext : m₁.storage.nextObject = m.storage.nextObject + 1 := by rw [hmade]
      have hblock₁ : m₁.storage.blocks target = some n := by
        rw [hmade]
        exact (congrFun touch_blocks target).trans hblock
      obtain ⟨hobjects, hvalues, hothers⟩ := ih hblock₁ (by omega)
        (fun i hle hlt => (hslots i (by omega)).trans (hfree i (by omega) (by omega))) hrest
      refine ⟨by omega, fun i hle hlt => ?_, fun i hi => ?_⟩
      · rcases Nat.eq_or_lt_of_le hle with rfl | hlt'
        · exact ⟨m.time, value, made, hvalue, by rw [hmoved],
            (hothers done (.inl (by omega))).trans hself⟩
        · obtain ⟨time, v, new, hv, hnew, hi'⟩ := hvalues i (by omega) (by omega)
          exact ⟨time, v, new, (hdata i (by omega)).symm.trans hv, hnew, hi'⟩
      · exact (hothers i (by omega)).trans (element?_of_slots (hslots i (by omega)))

end Memory

namespace State

open Memory

/-- The values of the elements, in order. -/
def contents (s : State V) : List V := s.memory.elements s.data s.size

/-- What hinders appending an element that is constructed in some way: its construction
may throw, or the vector is full and cannot grow. -/
def Hindered (A : Allocator) (T : Element V) (args : Arguments V) (s : State V) : Prop :=
  (∃ time, (args time s.contents).1 = none) ∨
  s.size = s.capacity ∧ (s.capacity = A.maxSize ∨
    (T.moveConstructible || T.copyConstructible) = false ∨
    A.fails s.memory.time (grownCapacity A s.capacity) = true ∨
    ∃ time value, (T.relocate time value).1 = none)

/-- The ways an append ends. -/
inductive Appends (A : Allocator) (T : Element V) (args : Arguments V) (s : State V) :
    Except Exn Nat × State V → Prop
  | inPlace (m : Memory V) (hroom : s.size < s.capacity)
      (hmade : s.memory.constructFrom s.data s.size args s.data s.size = (true, m)) :
      Appends A T args s (.ok s.size, { s with memory := m, size := s.size + 1 })
  | grown (target : Nat) (m m' m'' : Memory V) (hfull : s.size = s.capacity)
      (hlimit : s.capacity ≠ A.maxSize)
      (hslots : m.storage.slots = s.memory.storage.slots)
      (hobjects : m.storage.nextObject = s.memory.storage.nextObject)
      (hbeside : Beside s m target (grownCapacity A s.capacity) fun _ => False)
      (hmade : m.constructFrom s.data s.size args (some target) s.size = (true, m'))
      (hbeside' : Beside s m' target (grownCapacity A s.capacity) fun p => p = (target, s.size))
      (hrelocated : m'.relocate T s.data s.size target s.size 0 = (s.size, true, m'')) :
      Appends A T args s (.ok s.size, { s with memory := m'' }.install target (s.size + 1)
        (grownCapacity A s.capacity))
  | limited (hfull : s.size = s.capacity) (hlimit : s.capacity = A.maxSize) :
      Appends A T args s (.error limitCheck, s)
  | threw (e : Exn) (s' : State V) (he : e ≠ limitCheck) (hwhy : s.Hindered A T args) :
      Appends A T args s (.error e, s')

variable {A : Allocator} {T : Element V} {s : State V} {args : Arguments V}

/-- Constructing in the first slot after the elements. -/
theorem Valid.construct_end (h : s.Valid A) {block : Nat} (hblock : s.data = some block)
    (hroom : s.size < s.capacity) (change : Nat → V → V) (value : V) :
    ((s.memory.touch (some block) s.size change).construct (some block) s.size value).storage =
      { (s.memory.touch (some block) s.size change).storage with
        slots := Function.update (s.memory.touch (some block) s.size change).storage.slots
          (block, s.size) (some ⟨s.memory.storage.nextObject, value⟩)
        nextObject := s.memory.storage.nextObject + 1 } := by
  have hinside : (s.memory.touch (some block) s.size change).storage.InBounds (block, s.size) :=
    ⟨s.capacity, by rw [touch_blocks, h.holds.blocks_eq, ownBlock, if_pos hblock], hroom⟩
  have hempty : (s.memory.touch (some block) s.size change).storage.slots (block, s.size) =
      none := by
    have hfree : s.memory.storage.slots (block, s.size) = none :=
      h.holds.free fun hown => Nat.lt_irrefl _ hown.2
    simp [touch, hfree]
  exact Storage.construct_eq hinside hempty

theorem Valid.growAndEmplace_cases (h : s.Valid A) (hfull : s.size = s.capacity) :
    Appends A T args s (s.growAndEmplace A T args) := by
  unfold State.growAndEmplace
  split
  case isTrue hlimit => exact .limited hfull hlimit
  case isFalse hlimit =>
  have hroom := grownCapacity_gt h.capacity_le hlimit
  by_cases hfails : A.fails s.memory.time (grownCapacity A s.capacity) = true
  · rw [Memory.allocate, if_pos hfails]
    exact .threw _ _ nofun (.inr ⟨hfull, .inr (.inr (.inl hfails))⟩)
  have halloc : s.memory.allocate A (grownCapacity A s.capacity) =
      (some s.memory.storage.nextBlock,
        ⟨s.memory.storage.allocate (grownCapacity A s.capacity), s.memory.time + 1⟩) :=
    if_neg hfails
  rcases h.allocate (grownCapacity A s.capacity) with
    ⟨m, hfailed, -⟩ | ⟨m, hgranted, -, hslots, hbeside⟩
  · cases halloc.symm.trans hfailed
  have hobjects : m.storage.nextObject = s.memory.storage.nextObject := by
    rw [← (Prod.mk.inj (halloc.symm.trans hgranted)).2]
    rfl
  rw [hgranted]
  generalize s.memory.storage.nextBlock = target at hbeside
  have happended := holds_constructFrom hbeside.holds s.data s.size args s.size
    (Function.update_self ..) (by omega) (by simpa using hbeside.not_own)
  generalize hargs : m.constructFrom s.data s.size args (some target) s.size = result
    at happended
  obtain ⟨ok, m'⟩ := result
  dsimp only at happended ⊢
  rw [hargs]
  rcases happended with ⟨rfl, hmade⟩ | ⟨rfl, -⟩
  case inr =>
    have hnone := constructFrom_false hargs
    rw [elements_congr hslots] at hnone
    exact .threw _ _ nofun (.inl ⟨_, hnone⟩)
  have hbeside' : Beside s m' target (grownCapacity A s.capacity) fun p =>
      p = (target, s.size) :=
    ⟨hmade.congr (fun _ => rfl) fun p => by simp, hbeside.target_ne⟩
  obtain ⟨count, finished, m'', hrun, -, hall, hthrew, -⟩ :=
    hbeside'.relocate h T (by omega) fun i hi => below_ne_last hi
  dsimp only
  rw [hrun]
  cases finished with
  | false => exact .threw _ _ nofun (.inr ⟨hfull, .inr (.inr (.inr (hthrew rfl)))⟩)
  | true =>
      obtain rfl := hall rfl
      exact .grown target m m' m'' hfull hlimit hslots hobjects hbeside hargs hbeside' hrun

theorem popBack_nextObject (s : State V) :
    s.popBack.2.memory.storage.nextObject = s.memory.storage.nextObject := by
  unfold popBack
  split
  · rfl
  · dsimp only
    cases s.data with
    | none => rfl
    | some block => exact Storage.destroy_nextObject

theorem clearLoop_nextObject (n : Nat) (s : State V) :
    (clearLoop n s).memory.storage.nextObject = s.memory.storage.nextObject := by
  induction n generalizing s with
  | zero => rfl
  | succ n ih => exact (ih s.popBack.2).trans (popBack_nextObject s)

/-- Removing elements does not reach another allocation. -/
theorem popBack_slots {target i : Nat} (hne : s.data ≠ some target) :
    s.popBack.2.data = s.data ∧
    s.popBack.2.memory.storage.slots (target, i) = s.memory.storage.slots (target, i) := by
  unfold popBack
  split
  · exact ⟨rfl, rfl⟩
  · refine ⟨rfl, ?_⟩
    dsimp only
    cases hblock : s.data with
    | none => rfl
    | some block =>
        apply Storage.destroy_slots_of_ne
        exact fun heq => hne (hblock.trans (congrArg some (Prod.mk.inj heq).1.symm))

theorem clearLoop_slots {target i : Nat} (n : Nat) (hne : s.data ≠ some target) :
    (clearLoop n s).memory.storage.slots (target, i) = s.memory.storage.slots (target, i) := by
  induction n generalizing s with
  | zero => rfl
  | succ n ih =>
      obtain ⟨hdata, hslots⟩ := popBack_slots (i := i) hne
      exact (ih (hdata ▸ hne)).trans hslots

/-- Elements of another allocation survive the end of the old one, and no object is made. -/
theorem install_kept {target : Nat} (hne : s.data ≠ some target) (newSize newCapacity : Nat) :
    (∀ i, (s.install target newSize newCapacity).memory.element? (some target) i =
      s.memory.element? (some target) i) ∧
    (s.install target newSize newCapacity).memory.storage.nextObject =
      s.memory.storage.nextObject := by
  refine ⟨fun i => ?_, ?_⟩
  · apply element?_of_slots
    refine Eq.trans ?_ (clearLoop_slots s.size hne)
    cases hblock : s.data with
    | none => simp only [install, hblock, deallocate, clear]
    | some block => simp only [install, hblock, deallocate, Storage.release_slots, clear]
  · refine Eq.trans ?_ (clearLoop_nextObject s.size s)
    cases hblock : s.data with
    | none => simp only [install, hblock, deallocate, clear]
    | some block => simp only [install, hblock, deallocate, Storage.release_nextObject, clear]

/-- The slots of a second allocation are there, and free where nothing was made. -/
theorem Beside.blocks_target {m : Memory V} {target n : Nat} {alive : Slot → Prop}
    (h : Beside s m target n alive) : m.storage.blocks target = some n := by
  rw [h.holds.blocks_eq, Function.update_self]

theorem Beside.slots_target {m : Memory V} {target n i : Nat} {alive : Slot → Prop}
    (h : Beside s m target n alive) (hdead : ¬ alive (target, i)) :
    m.storage.slots (target, i) = none :=
  h.holds.free fun hown => hown.elim h.not_own hdead

/-- An append to a vector between operations. -/
theorem Valid.emplaceBack_cases (h : s.Valid A) (T : Element V) (args : Arguments V) :
    Appends A T args s (s.emplaceBack A T args) := by
  unfold State.emplaceBack
  split
  case isTrue hfull =>
    split
    case isTrue => exact h.growAndEmplace_cases hfull
    case isFalse himmovable =>
      refine .threw _ _ ?_ (.inr ⟨hfull, .inr (.inl (Bool.eq_false_iff.mpr himmovable))⟩)
      simp [limitCheck]
  case isFalse hroom =>
    have hlt : s.size < s.capacity := Nat.lt_of_le_of_ne h.size_le hroom
    generalize hargs : s.memory.constructFrom s.data s.size args s.data s.size = result
    obtain ⟨ok, m⟩ := result
    cases ok with
    | true => exact .inPlace m hlt hargs
    | false => exact .threw _ _ nofun (.inl ⟨_, constructFrom_false hargs⟩)

end State

end MoreCpp.Vector
