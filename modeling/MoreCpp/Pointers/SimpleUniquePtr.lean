import MoreCpp.Library.TransitionSystem
import Mathlib.Data.List.Nodup

/-!
`SimpleUniquePtr` of `impl/simple_unique_ptr.cpp`. Its move assignment compares
`this` with the address of the other one, as the documentation above it has it.
`none` is undefined behaviour: using a pointer that does not exist, and deleting an
object twice.

At any moment each object is in one place: with one `SimpleUniquePtr`, with the
caller of `release`, or among the deleted ones.
-/

namespace MoreCpp.SimpleUniquePtr

open Library

/-- Calls on the pointers; a new one is named first. -/
inductive Op where
  | default (self : Nat)
  /-- From `new T`. -/
  | make (self : Nat)
  /-- From what a `release` returned. -/
  | adopt (self p : Nat)
  | move (self o : Nat)
  | moveAssign (self o : Nat)
  | release (self : Nat)
  | reset (self : Nat)
  /-- `reset(new T)`. -/
  | resetNew (self : Nat)
  /-- `reset(get())`. -/
  | resetOwn (self : Nat)
  /-- `reset` with what a `release` returned. -/
  | resetTo (self p : Nat)
  | swap (self o : Nat)
  | destroy (self : Nat)

structure Memory where
  /-- `ptr_` of each pointer that exists. -/
  ptr : Nat → Option (Option Nat)
  /-- The objects made so far are the numbers below. -/
  made : Nat
  deleted : List Nat
  /-- What the caller has from `release` and has not passed on. -/
  released : List Nat

namespace Memory

def initial : Memory := ⟨fun _ => none, 0, [], []⟩

/-- `new T`. -/
def new (m : Memory) : Nat × Memory := (m.made, { m with made := m.made + 1 })

/-- `delete p`. -/
def delete (p : Option Nat) (m : Memory) : Option Memory :=
  match p with
  | none => some m
  | some p =>
      if p < m.made ∧ p ∉ m.deleted then some { m with deleted := m.deleted ++ [p] } else none

/-- `ptr_ = p`, in a pointer that exists or in a new one. -/
def assign (self : Nat) (p : Option Nat) (m : Memory) : Memory :=
  { m with ptr := Function.update m.ptr self (some p) }

def get (self : Nat) (m : Memory) : Option (Option Nat) := m.ptr self

/-- `std::exchange(ptr_, nullptr)`. -/
def release (self : Nat) (m : Memory) : Option (Option Nat × Memory) := do
  let p ← m.ptr self
  return (p, m.assign self none)

def reset (self : Nat) (newPtr : Option Nat) (m : Memory) : Option Memory := do
  let p ← m.ptr self
  if p = newPtr then some m
  else do
    let m ← m.delete p
    return m.assign self newPtr

def moveAssign (self o : Nat) (m : Memory) : Option Memory :=
  if self ≠ o then do
    let (p, m) ← m.release o
    m.reset self p
  else some m

def swap (self o : Nat) (m : Memory) : Option Memory := do
  let p ← m.ptr self
  let q ← m.ptr o
  return (m.assign self q).assign o p

def destroy (self : Nat) (m : Memory) : Option Memory := do
  let p ← m.ptr self
  let m ← m.delete p
  return { m with ptr := Function.update m.ptr self none }

/-- The caller keeps what `release` returned. -/
def keep (p : Option Nat) (m : Memory) : Memory := { m with released := m.released ++ p.toList }

/-- The caller passes a pointer on. -/
def pass (p : Nat) (m : Memory) : Memory := { m with released := m.released.erase p }

def perform (op : Op) (m : Memory) : Option Memory :=
  match op with
  | .default self => some (m.assign self none)
  | .make self => some (m.new.2.assign self m.new.1)
  | .adopt self p => some ((m.pass p).assign self (some p))
  | .move self o => do
      let (p, m) ← m.release o
      return m.assign self p
  | .moveAssign self o => m.moveAssign self o
  | .release self => do
      let (p, m) ← m.release self
      return m.keep p
  | .reset self => m.reset self none
  | .resetNew self => m.new.2.reset self m.new.1
  | .resetOwn self => do
      let p ← m.get self
      m.reset self p
  | .resetTo self p => (m.pass p).reset self (some p)
  | .swap self o => m.swap self o
  | .destroy self => m.destroy self

/-- Which calls may be made: on pointers there are, into one there is not yet, with
what the caller still has from `release`. -/
def Permitted (m : Memory) : Op → Prop
  | .default self | .make self => m.ptr self = none
  | .adopt self p => m.ptr self = none ∧ p ∈ m.released
  | .move self o => m.ptr self = none ∧ (m.ptr o).isSome
  | .moveAssign self o | .swap self o => (m.ptr self).isSome ∧ (m.ptr o).isSome
  | .resetTo self p => (m.ptr self).isSome ∧ p ∈ m.released
  | .release self | .reset self | .resetNew self | .resetOwn self | .destroy self =>
      (m.ptr self).isSome

end Memory

/-- Any calls on any number of pointers. -/
def system : System Memory Op where
  Init m := m = .initial
  Step m op m' := m.Permitted op ∧ m.perform op = some m'

/-- Where an object is. -/
inductive Place where
  | held (self : Nat)
  /-- Being passed from one to another. -/
  | passing
  | released
  | deleted
deriving DecidableEq

/-- The ledger says where each object made so far is; `passing` are the pointers a
call has taken from one place and not put into another yet. -/
structure Ledger (m : Memory) (place : Nat → Option Place) (passing : List Nat) : Prop where
  held : ∀ self p, m.ptr self = some (some p) ↔ place p = some (.held self)
  passed : ∀ p, p ∈ passing ↔ place p = some .passing
  released : ∀ p, p ∈ m.released ↔ place p = some .released
  deleted : ∀ p, p ∈ m.deleted ↔ place p = some .deleted
  made : ∀ p, p < m.made ↔ (place p).isSome
  passedOnce : passing.Nodup
  releasedOnce : m.released.Nodup
  deletedOnce : m.deleted.Nodup

/-- Some ledger accounts for the objects. -/
def Accounted (m : Memory) (passing : List Nat) : Prop := ∃ place, Ledger m place passing

/-- What is at a place, when `p` may come there or go, and the others stay. -/
def Shifted (p : Nat) (arrives : Prop) (before after : Nat → Prop) : Prop :=
  ∀ q, after q ↔ (q = p ∧ arrives) ∨ (q ≠ p ∧ before q)

namespace Shifted

variable {p : Nat} {arrives : Prop} {before after : Nat → Prop}

theorem elsewhere (hbefore : ¬ before p) (harrives : ¬ arrives) :
    Shifted p arrives before before := by
  intro q
  rcases eq_or_ne q p with rfl | hne
  · simp [hbefore, harrives]
  · simp [hne]

theorem arrived (harrives : arrives) (hafter : ∀ q, after q ↔ q = p ∨ before q) :
    Shifted p arrives before after := by
  intro q
  rw [hafter]
  rcases eq_or_ne q p with rfl | hne
  · simp [harrives]
  · simp [hne]

theorem there (hbefore : before p) (harrives : arrives) : Shifted p arrives before before :=
  arrived harrives fun _ => iff_or_self.mpr fun heq => heq ▸ hbefore

theorem left (harrives : ¬ arrives) (hafter : ∀ q, after q ↔ q ≠ p ∧ before q) :
    Shifted p arrives before after := by
  intro q
  rw [hafter]
  simp [harrives]

theorem left_head {passing : List Nat} (hnodup : (p :: passing).Nodup) (harrives : ¬ arrives) :
    Shifted p arrives (· ∈ p :: passing) (· ∈ passing) := by
  obtain ⟨hp, -⟩ := List.nodup_cons.mp hnodup
  apply left harrives
  intro q
  rw [List.mem_cons]
  constructor
  · intro hq
    exact ⟨fun heq => hp (heq ▸ hq), .inr hq⟩
  · rintro ⟨hne, hq⟩
    exact hq.resolve_left hne

theorem arrived_last {deleted : List Nat} (harrives : arrives) :
    Shifted p arrives (· ∈ deleted) (· ∈ deleted ++ [p]) :=
  arrived harrives fun q => by rw [List.mem_append, List.mem_singleton, or_comm]

end Shifted

namespace Ledger

variable {m : Memory} {place : Nat → Option Place} {passing : List Nat} {self p : Nat}

/-- One object moves, or is new, and the others stay. -/
theorem move {m' : Memory} {passing' : List Nat} (h : Ledger m place passing) (into : Place)
    (hheld : ∀ u, Shifted p (into = .held u) (fun q => m.ptr u = some (some q))
      fun q => m'.ptr u = some (some q))
    (hpassed : Shifted p (into = .passing) (· ∈ passing) (· ∈ passing'))
    (hreleased : Shifted p (into = .released) (· ∈ m.released) (· ∈ m'.released))
    (hdeleted : Shifted p (into = .deleted) (· ∈ m.deleted) (· ∈ m'.deleted))
    (hmade : Shifted p True (· < m.made) (· < m'.made))
    (hpassedOnce : passing'.Nodup) (hreleasedOnce : m'.released.Nodup)
    (hdeletedOnce : m'.deleted.Nodup) :
    Ledger m' (Function.update place p (some into)) passing' := by
  have hplace : ∀ q there, Function.update place p (some into) q = some there ↔
      (q = p ∧ into = there) ∨ (q ≠ p ∧ place q = some there) := by
    intro q there
    rcases eq_or_ne q p with rfl | hne
    · simp
    · simp [hne]
  have hat : ∀ {there : Place} {before after : Nat → Prop}, Shifted p (into = there) before after →
      (∀ q, before q ↔ place q = some there) →
        ∀ q, after q ↔ Function.update place p (some into) q = some there := by
    intro there before after hshifted hbefore q
    rw [hshifted q, hplace, hbefore]
  constructor
  case held => exact fun u => hat (hheld u) (h.held u)
  case passed => exact hat hpassed h.passed
  case released => exact hat hreleased h.released
  case deleted => exact hat hdeleted h.deleted
  case made =>
    intro q
    apply (hmade q).trans
    rcases eq_or_ne q p with rfl | hne
    · simp
    · simp [hne, h.made]
  case passedOnce => exact hpassedOnce
  case releasedOnce => exact hreleasedOnce
  case deletedOnce => exact hdeletedOnce

/-- The object of a pointer is nowhere else. -/
theorem of_held (h : Ledger m place passing) (hself : m.ptr self = some (some p)) :
    (∀ u, m.ptr u = some (some p) → u = self) ∧
      p ∉ passing ∧ p ∉ m.released ∧ p ∉ m.deleted ∧ p < m.made := by
  have hp := (h.held self p).mp hself
  simp only [h.held, h.passed, h.released, h.deleted, h.made, hp]
  refine ⟨fun u hu => ?_, nofun, nofun, nofun, rfl⟩
  cases hu
  rfl

/-- An object being passed is nowhere else. -/
theorem of_passing (h : Ledger m place passing) (hpassing : p ∈ passing) :
    (∀ u, m.ptr u ≠ some (some p)) ∧ p ∉ m.released ∧ p ∉ m.deleted ∧ p < m.made := by
  have hp := (h.passed p).mp hpassing
  simp only [ne_eq, h.held, h.released, h.deleted, h.made, hp]
  exact ⟨fun _ => nofun, nofun, nofun, rfl⟩

/-- An object released is nowhere else. -/
theorem of_released (h : Ledger m place passing) (hreleased : p ∈ m.released) :
    (∀ u, m.ptr u ≠ some (some p)) ∧ p ∉ passing ∧ p ∉ m.deleted ∧ p < m.made := by
  have hp := (h.released p).mp hreleased
  simp only [ne_eq, h.held, h.passed, h.deleted, h.made, hp]
  exact ⟨fun _ => nofun, nofun, nofun, rfl⟩

/-- What changes no place is accounted for as before. -/
theorem same {m' : Memory} (h : Ledger m place passing)
    (hheld : ∀ u p, m'.ptr u = some (some p) ↔ m.ptr u = some (some p))
    (hreleased : m'.released = m.released) (hdeleted : m'.deleted = m.deleted)
    (hmade : m'.made = m.made) : Ledger m' place passing where
  held u p := (hheld u p).trans (h.held u p)
  passed := h.passed
  released := hreleased ▸ h.released
  deleted := hdeleted ▸ h.deleted
  made := hmade ▸ h.made
  passedOnce := h.passedOnce
  releasedOnce := hreleased ▸ h.releasedOnce
  deletedOnce := hdeleted ▸ h.deletedOnce

end Ledger

namespace Accounted

variable {m : Memory} {passing : List Nat} {self p : Nat} {v : Option Nat}

theorem initial : Accounted .initial [] :=
  ⟨fun _ => none, fun _ _ => ⟨nofun, nofun⟩, fun _ => ⟨nofun, nofun⟩, fun _ => ⟨nofun, nofun⟩,
    fun _ => ⟨nofun, nofun⟩, fun p => ⟨fun h => absurd h (Nat.not_lt_zero p), nofun⟩,
    .nil, .nil, .nil⟩

/-- Two pointers that hold nothing, or no pointer, are all the same. -/
theorem assign_null_iff {u q : Nat} (hself : ∀ p, m.ptr self ≠ some (some p))
    {ptr : Option (Option Nat)} (hptr : ∀ p, ptr ≠ some (some p)) :
    Function.update m.ptr self ptr u = some (some q) ↔ m.ptr u = some (some q) := by
  rcases eq_or_ne u self with rfl | hne
  · rw [Function.update_self]
    exact iff_of_false (hptr q) (hself q)
  · rw [Function.update_of_ne hne]

theorem new (h : Accounted m passing) : Accounted m.new.2 (m.new.1 :: passing) := by
  obtain ⟨place, h⟩ := h
  have hfresh : place m.made = none := by
    rw [← Option.not_isSome_iff_eq_none, ← h.made]
    exact Nat.lt_irrefl _
  have hpassing : m.made ∉ passing := by rw [h.passed, hfresh]; exact nofun
  refine ⟨_, h.move (p := m.made) .passing (fun u => .elsewhere ?_ nofun)
    (.arrived rfl fun q => List.mem_cons) (.elsewhere ?_ nofun) (.elsewhere ?_ nofun)
    (.arrived trivial fun q => ?_) ?_ h.releasedOnce h.deletedOnce⟩
  · rw [h.held, hfresh]
    exact nofun
  · rw [h.released, hfresh]
    exact nofun
  · rw [h.deleted, hfresh]
    exact nofun
  · exact Nat.lt_succ_iff_lt_or_eq.trans or_comm
  · exact List.nodup_cons.mpr ⟨hpassing, h.passedOnce⟩

/-- A pointer gives up what it has. -/
theorem taken (h : Accounted m passing) (hself : m.ptr self = some v) :
    Accounted (m.assign self none) (v.toList ++ passing) := by
  obtain ⟨place, h⟩ := h
  cases v with
  | none =>
      refine ⟨place, h.same (fun u q => assign_null_iff ?_ nofun) rfl rfl rfl⟩
      rw [hself]
      exact nofun
  | some p =>
      obtain ⟨hunique, hpassing, hreleased, hdeleted, hmade⟩ := h.of_held hself
      refine ⟨_, h.move .passing (fun u => .left nofun fun q => ?_)
        (.arrived rfl fun q => List.mem_cons) (.elsewhere hreleased nofun)
        (.elsewhere hdeleted nofun) (.there hmade trivial)
        (List.nodup_cons.mpr ⟨hpassing, h.passedOnce⟩) h.releasedOnce h.deletedOnce⟩
      · rcases eq_or_ne u self with rfl | hne
        · simp [Memory.assign, hself, eq_comm]
        · simp only [Memory.assign, Function.update_of_ne hne, iff_and_self]
          rintro hu rfl
          exact hne (hunique u hu)

/-- What is being passed goes into a pointer without an object. -/
theorem assign (h : Accounted m (v.toList ++ passing)) (hself : ∀ p, m.ptr self ≠ some (some p)) :
    Accounted (m.assign self v) passing := by
  obtain ⟨place, h⟩ := h
  cases v with
  | none => exact ⟨place, h.same (fun u q => assign_null_iff hself nofun) rfl rfl rfl⟩
  | some p =>
      obtain ⟨hheld, hreleased, hdeleted, hmade⟩ := h.of_passing (List.mem_cons_self ..)
      refine ⟨_, h.move (.held self) (fun u => ?_) (.left_head h.passedOnce nofun)
        (.elsewhere hreleased nofun) (.elsewhere hdeleted nofun) (.there hmade trivial)
        (List.nodup_cons.mp h.passedOnce).2 h.releasedOnce h.deletedOnce⟩
      rcases eq_or_ne u self with rfl | hne
      · refine .arrived rfl fun q => ?_
        simp [Memory.assign, hself q, eq_comm]
      · have hother : (m.assign self (some p)).ptr u = m.ptr u := Function.update_of_ne hne ..
        rw [hother]
        exact .elsewhere (hheld u) fun hheld => hne (Place.held.inj hheld).symm

theorem delete (h : Accounted m (v.toList ++ passing)) :
    ∃ m', m.delete v = some m' ∧ m'.ptr = m.ptr ∧ Accounted m' passing := by
  cases v with
  | none => exact ⟨m, rfl, rfl, h⟩
  | some p =>
      obtain ⟨place, h⟩ := h
      obtain ⟨hheld, hreleased, hdeleted, hmade⟩ := h.of_passing (List.mem_cons_self ..)
      refine ⟨_, if_pos ⟨hmade, hdeleted⟩, rfl, _,
        h.move .deleted (fun u => .elsewhere (hheld u) nofun) (.left_head h.passedOnce nofun)
          (.elsewhere hreleased nofun) (.arrived_last rfl) (.there hmade trivial)
          (List.nodup_cons.mp h.passedOnce).2 h.releasedOnce ?_⟩
      exact List.concat_eq_append ▸ h.deletedOnce.concat hdeleted

theorem keep (h : Accounted m (v.toList ++ passing)) : Accounted (m.keep v) passing := by
  obtain ⟨place, h⟩ := h
  cases v with
  | none => exact ⟨place, h.same (fun _ _ => .rfl) (List.append_nil _) rfl rfl⟩
  | some p =>
      obtain ⟨hheld, hreleased, hdeleted, hmade⟩ := h.of_passing (List.mem_cons_self ..)
      refine ⟨_, h.move .released (fun u => .elsewhere (hheld u) nofun)
        (.left_head h.passedOnce nofun) (.arrived_last rfl) (.elsewhere hdeleted nofun)
        (.there hmade trivial) (List.nodup_cons.mp h.passedOnce).2 ?_ h.deletedOnce⟩
      exact (List.concat_eq_append ▸ h.releasedOnce.concat hreleased : (m.released ++ [p]).Nodup)

theorem pass (h : Accounted m passing) (hp : p ∈ m.released) :
    Accounted (m.pass p) (p :: passing) := by
  obtain ⟨place, h⟩ := h
  obtain ⟨hheld, hpassing, hdeleted, hmade⟩ := h.of_released hp
  exact ⟨_, h.move .passing (fun u => .elsewhere (hheld u) nofun)
    (.arrived rfl fun q => List.mem_cons) (.left nofun fun q => h.releasedOnce.mem_erase_iff)
    (.elsewhere hdeleted nofun) (.there hmade trivial)
    (List.nodup_cons.mpr ⟨hpassing, h.passedOnce⟩) (h.releasedOnce.erase p) h.deletedOnce⟩

end Accounted

namespace Memory

variable {m : Memory} {self : Nat} {p v : Option Nat}

@[simp] theorem assign_ptr_self : (m.assign self v).ptr self = some v := Function.update_self ..

theorem assign_assign : (m.assign self p).assign self v = m.assign self v := by
  simp only [assign, Function.update_idem]

/-- Deleting the object of a pointer and then assigning to it is as good as taking it
away first. -/
theorem delete_assign :
    (m.assign self none).delete p = (m.delete p).map (assign self none) := by
  cases p with
  | none => rfl
  | some p =>
      by_cases hp : p < m.made ∧ p ∉ m.deleted
      · rw [delete, delete, if_pos hp]
        exact if_pos hp
      · rw [delete, delete, if_neg hp]
        exact if_neg hp

theorem reset_eq (hself : m.ptr self = some p) (hne : p ≠ v) :
    m.reset self v = ((m.assign self none).delete p).map (assign self v) := by
  rw [reset, hself, delete_assign]
  simp only [Option.bind_eq_bind, Option.bind_some, if_neg hne, Option.map_map]
  cases m.delete p with
  | none => rfl
  | some m => exact congrArg some assign_assign.symm

theorem destroy_eq (hself : m.ptr self = some p) :
    m.destroy self = ((m.assign self none).delete p).map fun m =>
      { m with ptr := Function.update m.ptr self none } := by
  rw [destroy, hself, delete_assign]
  simp only [Option.bind_eq_bind, Option.bind_some, Option.map_map]
  cases m.delete p with
  | none => rfl
  | some m => simp [assign, Function.comp_def]

end Memory

namespace Accounted

variable {m : Memory} {passing : List Nat} {self o : Nat} {v : Option Nat}

theorem reset (h : Accounted m v.toList) (hself : (m.ptr self).isSome) :
    ∃ m', m.reset self v = some m' ∧ Accounted m' [] := by
  obtain ⟨p, hp⟩ := Option.isSome_iff_exists.mp hself
  have htaken := h.taken hp
  by_cases heq : p = v
  · -- Only a null pointer is both held and being passed.
    refine ⟨m, by rw [Memory.reset, hp]; exact if_pos heq, ?_⟩
    cases v with
    | none => exact h
    | some q =>
        obtain ⟨place, htaken⟩ := htaken
        cases heq
        exact absurd htaken.passedOnce (by simp)
  · obtain ⟨m', hdelete, hptr, hm'⟩ := htaken.delete
    refine ⟨m'.assign self v, by rw [Memory.reset_eq hp heq, hdelete]; rfl, ?_⟩
    rw [← List.append_nil v.toList] at hm'
    apply hm'.assign
    intro q
    rw [hptr, Memory.assign_ptr_self]
    exact nofun

theorem moveAssign (h : Accounted m []) (hself : (m.ptr self).isSome) (ho : (m.ptr o).isSome) :
    ∃ m', m.moveAssign self o = some m' ∧ Accounted m' [] := by
  by_cases heq : self = o
  · exact ⟨m, if_neg (not_not.mpr heq), h⟩
  · obtain ⟨p, hp⟩ := Option.isSome_iff_exists.mp ho
    have htaken := h.taken hp
    rw [List.append_nil] at htaken
    have hkept : ((m.assign o none).ptr self).isSome := by
      rwa [show (m.assign o none).ptr self = m.ptr self from Function.update_of_ne heq ..]
    obtain ⟨m', hreset, hm'⟩ := htaken.reset hkept
    refine ⟨m', ?_, hm'⟩
    rw [Memory.moveAssign, if_pos heq, Memory.release, hp]
    exact hreset

theorem swap (h : Accounted m []) (hself : (m.ptr self).isSome) (ho : (m.ptr o).isSome) :
    ∃ m', m.swap self o = some m' ∧ Accounted m' [] := by
  obtain ⟨p, hp⟩ := Option.isSome_iff_exists.mp hself
  obtain ⟨q, hq⟩ := Option.isSome_iff_exists.mp ho
  refine ⟨(m.assign self q).assign o p, by rw [Memory.swap, hp, hq]; rfl, ?_⟩
  by_cases heq : self = o
  · -- Swapped with itself, a pointer keeps what it has.
    cases heq
    cases hp.symm.trans hq
    have hsame : (m.assign self p).assign self p = m := by
      rw [Memory.assign_assign, Memory.assign, ← hp, Function.update_eq_self]
    rw [hsame]
    exact h
  · have hnull : ∀ {m : Memory} {u : Nat} (r : Nat), (m.assign u none).ptr u ≠ some (some r) := by
      intro m u r
      rw [Memory.assign_ptr_self]
      exact nofun
    have hother : (m.assign self none).ptr o = some q :=
      (Function.update_of_ne (Ne.symm heq) ..).trans hq
    have hboth := (h.taken hp).taken hother
    have hcomm : ((m.assign self none).assign o none).assign self q =
        (m.assign self q).assign o none := by
      simp only [Memory.assign, Function.update_comm (Ne.symm heq), Function.update_idem]
    have hself : ∀ r, ((m.assign self none).assign o none).ptr self ≠ some (some r) := by
      rw [show ((m.assign self none).assign o none).ptr self = some none from
        (Function.update_of_ne heq ..).trans Memory.assign_ptr_self]
      exact nofun
    have hfirst := hboth.assign hself
    rw [hcomm] at hfirst
    have hsecond := hfirst.assign hnull
    rwa [Memory.assign_assign] at hsecond

theorem destroy (h : Accounted m []) (hself : (m.ptr self).isSome) :
    ∃ m', m.destroy self = some m' ∧ Accounted m' [] := by
  obtain ⟨p, hp⟩ := Option.isSome_iff_exists.mp hself
  obtain ⟨m', hdelete, hptr, place, hm'⟩ := (h.taken hp).delete
  refine ⟨{ m' with ptr := Function.update m'.ptr self none },
    by rw [Memory.destroy_eq hp, hdelete]; rfl, place,
    hm'.same (fun u q => assign_null_iff (fun r => ?_) fun _ => nofun) rfl rfl rfl⟩
  rw [hptr, Memory.assign_ptr_self]
  exact nofun

/-- A permitted call is defined and leaves every object in one place. -/
theorem perform (h : Accounted m []) {op : Op} (hpermitted : m.Permitted op) :
    ∃ m', m.perform op = some m' ∧ Accounted m' [] := by
  have hnew : ∀ {m : Memory} {u p : Nat}, m.ptr u = none → m.ptr u ≠ some (some p) :=
    fun hu => by rw [hu]; exact nofun
  cases op with
  | default self => exact ⟨_, rfl, Accounted.assign (v := none) h fun _ => hnew hpermitted⟩
  | make self =>
      exact ⟨_, rfl, Accounted.assign (v := some m.made) h.new fun _ => hnew hpermitted⟩
  | adopt self p =>
      exact ⟨_, rfl,
        Accounted.assign (v := some p) (h.pass hpermitted.2) fun _ => hnew hpermitted.1⟩
  | move self o =>
      obtain ⟨p, hp⟩ := Option.isSome_iff_exists.mp hpermitted.2
      have hne : self ≠ o := by
        rintro rfl
        rw [hpermitted.1] at hp
        cases hp
      refine ⟨(m.assign o none).assign self p, by rw [Memory.perform, Memory.release, hp]; rfl,
        (h.taken hp).assign fun _ => hnew ?_⟩
      exact (Function.update_of_ne hne ..).trans hpermitted.1
  | moveAssign self o => exact h.moveAssign hpermitted.1 hpermitted.2
  | release self =>
      obtain ⟨p, hp⟩ := Option.isSome_iff_exists.mp hpermitted
      exact ⟨(m.assign self none).keep p, by rw [Memory.perform, Memory.release, hp]; rfl,
        (h.taken hp).keep⟩
  | reset self => exact Accounted.reset (v := none) h hpermitted
  | resetNew self => exact Accounted.reset (v := some m.made) h.new hpermitted
  | resetOwn self =>
      obtain ⟨p, hp⟩ := Option.isSome_iff_exists.mp hpermitted
      refine ⟨m, ?_, h⟩
      simp [Memory.perform, Memory.get, Memory.reset, hp]
  | resetTo self p => exact Accounted.reset (v := some p) (h.pass hpermitted.2) hpermitted.1
  | swap self o => exact h.swap hpermitted.1 hpermitted.2
  | destroy self => exact h.destroy hpermitted

theorem of_reachable (hm : system.Reachable m) : Accounted m [] := by
  refine system.reachable_invariant (Accounted · []) ?_ ?_ m hm
  · rintro _ rfl
    exact initial
  · rintro m op m' - h ⟨hpermitted, hperform⟩
    obtain ⟨m'', hperform', hm''⟩ := h.perform hpermitted
    cases hperform.symm.trans hperform'
    exact hm''

end Accounted

/-- After any history no two pointers hold the same object, no object was deleted
twice and none that is held was deleted; a further call deletes no object a second
time. Once no pointer is left, each object made was deleted exactly once, unless it
was released and not adopted again. -/
theorem ownership_ledger {m : Memory} (hm : system.Reachable m) :
    (∀ u u' p, m.ptr u = some (some p) → m.ptr u' = some (some p) → u = u') ∧
      m.deleted.Nodup ∧ (∀ u p, m.ptr u = some (some p) → p ∉ m.deleted) ∧
      (∀ op, m.Permitted op → (m.perform op).isSome) ∧
      ((∀ u, m.ptr u = none) →
        ∀ p < m.made, m.deleted.count p = if p ∈ m.released then 0 else 1) := by
  have h := Accounted.of_reachable hm
  obtain ⟨place, hledger⟩ := h
  refine ⟨fun u u' p hu hu' => ?_, hledger.deletedOnce, fun u p hu => ?_, fun op hop => ?_, ?_⟩
  · exact ((hledger.of_held hu').1 u hu)
  · exact (hledger.of_held hu).2.2.2.1
  · obtain ⟨m', hperform, -⟩ := Accounted.perform ⟨place, hledger⟩ hop
    rw [hperform]
    rfl
  · intro hnone p hlt
    obtain ⟨there, hthere⟩ := Option.isSome_iff_exists.mp ((hledger.made p).mp hlt)
    cases there with
    | held u =>
        have hheld := (hledger.held u p).mpr hthere
        rw [hnone] at hheld
        cases hheld
    | passing => cases (hledger.passed p).mpr hthere
    | released =>
        have hreleased := (hledger.released p).mpr hthere
        rw [if_pos hreleased, List.count_eq_zero]
        exact (hledger.of_released hreleased).2.2.1
    | deleted =>
        have hdeleted := (hledger.deleted p).mpr hthere
        rw [if_neg, List.count_eq_one_of_mem hledger.deletedOnce hdeleted]
        rw [hledger.released, hthere]
        exact nofun

/-- Two pointers, one moved into the other, which is released and destroyed. -/
theorem ownership_ledger_moved : ∃ m : Memory, m.released = [0] ∧ m.deleted = [1] ∧
    m.deleted.count 0 = 0 ∧ m.deleted.count 1 = 1 := by
  have hs₀ : system.Reachable .initial := .start rfl
  have hs₁ := hs₀.next (show system.Step _ (.make 0) _ from ⟨rfl, rfl⟩)
  have hs₂ := hs₁.next (show system.Step _ (.make 1) _ from ⟨rfl, rfl⟩)
  have hs₃ := hs₂.next (show system.Step _ (.moveAssign 1 0) _ from ⟨⟨rfl, rfl⟩, rfl⟩)
  have hs₄ := hs₃.next (show system.Step _ (.release 1) _ from ⟨rfl, rfl⟩)
  have hs₅ := hs₄.next (show system.Step _ (.destroy 0) _ from ⟨rfl, rfl⟩)
  have hs₆ := hs₅.next (show system.Step _ (.destroy 1) _ from ⟨rfl, rfl⟩)
  obtain ⟨-, -, -, -, hended⟩ := ownership_ledger hs₆
  have hcount := hended fun u => by
    match u with
    | 0 | 1 | _ + 2 => rfl
  exact ⟨_, rfl, rfl, hcount 0 (by decide), hcount 1 (by decide)⟩

end MoreCpp.SimpleUniquePtr
