import MoreCpp.Containers.Vector.Lifetime

/-!
The strong exception guarantee of `learning::Vector`: an operation that throws
leaves the vector as it was, when relocating an element either copies it
without changing the source or cannot throw, and the arguments of the operation
do not change elements themselves. A relocation that can throw copies, so
whatever threw, the old elements were not touched.
-/

namespace MoreCpp.Vector

open Library

variable {V : Type*}

/-- Relocating copies without changing the source, or moves without throwing. -/
structure Element.RelocatesSafely (T : Element V) : Prop where
  of_copies : T.copies = true → ∀ time v, (T.copy time v).2 = v
  of_moves : T.copies = false → ∀ time v, (T.move time v).1.isSome = true

/-- If a relocation threw then relocations copy, and keep what they copy. -/
theorem Element.RelocatesSafely.keep_of_threw {T : Element V} (hsafe : T.RelocatesSafely)
    (hthrew : ∃ time value, (T.relocate time value).1 = none) :
    ∀ time v, (T.relocate time v).2 = v := by
  obtain ⟨time, value, hnone⟩ := hthrew
  unfold Element.relocate at hnone ⊢
  split
  case isTrue hcopies => exact hsafe.of_copies hcopies
  case isFalse hmoves =>
    rw [if_neg hmoves] at hnone
    have hsome := hsafe.of_moves (by simpa using hmoves) time value
    rw [hnone] at hsome
    cases hsome

/-- The arguments leave every element with its value. -/
def Arguments.KeepElements (args : Arguments V) : Prop :=
  ∀ time elements i v, elements[i]? = some v → (args time elements).2 i v = v

theorem Reference.other_keepElements (construction : Nat → V → Option V × V) (value : V) :
    Arguments.KeepElements ((Reference.other value).from construction) :=
  fun _ _ _ _ _ => rfl

/-- A push of the vector's own element keeps the elements if its construction does. -/
theorem Reference.own_keepElements {construction : Nat → V → Option V × V}
    (hkeep : ∀ time v, (construction time v).2 = v) (index : Nat) :
    Arguments.KeepElements ((Reference.own index).from construction) := by
  intro time elements i v hv
  simp only [Reference.from]
  split
  case h_2 => rfl
  case h_1 value hvalue =>
    dsimp only
    split
    case isFalse => rfl
    case isTrue heq =>
      rw [heq, hvalue] at hv
      exact (hkeep time value).trans (Option.some.inj hv)

/-- The arguments an operation constructs a new element from. -/
def Op.arguments (T : Element V) : Op V → Option (Arguments V)
  | .emplaceBack args => some args
  | .pushBackCopy value => some (value.from T.copy)
  | .pushBackMove value => some (value.from T.move)
  | .reserve _ | .popBack | .clear => none

def Op.KeepsElements (T : Element V) (op : Op V) : Prop :=
  ∀ args, op.arguments T = some args → args.KeepElements

namespace Memory

variable {m m' m'' : Memory V} {data : Option Nat} {size target : Nat}

/-- Slots outside one block keep their objects and values. -/
def Kept (target : Nat) (m m' : Memory V) : Prop :=
  ∀ p : Slot, p.1 ≠ target → m'.storage.slots p = m.storage.slots p

theorem Kept.of_eq (h : m'.storage.slots = m.storage.slots) : Kept target m m' :=
  fun p _ => by rw [h]

theorem Kept.trans (h : Kept target m m') (h' : Kept target m' m'') : Kept target m m'' :=
  fun p hp => (h' p hp).trans (h p hp)

theorem kept_construct (index : Nat) (value : V) :
    Kept target m (m.construct (some target) index value) := by
  intro p hp
  apply Storage.construct_slots_of_ne
  rintro rfl
  exact hp rfl

theorem kept_destroy (index : Nat) : Kept target m (m.destroy (some target) index) := by
  intro p hp
  apply Storage.destroy_slots_of_ne
  rintro rfl
  exact hp rfl

theorem kept_destroyFirst (count : Nat) : Kept target m (m.destroyFirst target count) := by
  induction count generalizing m with
  | zero => exact .of_eq rfl
  | succ count ih => exact (kept_destroy count).trans ih

theorem kept_deallocate (n : Nat) : Kept target m (m.deallocate (some target) n) :=
  .of_eq Storage.release_slots

theorem touch_slots {change : Nat → V → V}
    (hkeep : ∀ i v, i < size → m.element? data i = some v → change i v = v) :
    (m.touch data size change).storage.slots = m.storage.slots := by
  cases data with
  | none => rfl
  | some block => exact Storage.assign_slots_eq hkeep

/-- Relocating by copies keeps the elements relocated. -/
theorem kept_relocateOne {T : Element V} (hkeep : ∀ time v, (T.relocate time v).2 = v)
    (index : Nat) : Kept target m (relocateOne T data size target index m).2 := by
  unfold relocateOne
  split
  case h_1 => exact .of_eq rfl
  case h_2 value hvalue =>
    have hsource := hkeep m.time value
    generalize T.relocate m.time value = moved at hsource
    obtain ⟨made, source⟩ := moved
    dsimp only at hsource
    have htouched : (m.touch data size fun i v => if i = index then source else v).storage.slots =
        m.storage.slots := by
      apply touch_slots
      intro i v _ hv
      split
      case isFalse => rfl
      case isTrue heq =>
        rw [heq, hvalue] at hv
        exact hsource.trans (Option.some.inj hv)
    cases made with
    | none => exact .of_eq htouched
    | some made => exact (Kept.of_eq htouched).trans (kept_construct index made)

theorem kept_relocate {T : Element V} (hkeep : ∀ time v, (T.relocate time v).2 = v)
    (todo done : Nat) : Kept target m (relocate T data size target todo done m).2.2 := by
  induction todo generalizing done m with
  | zero => exact .of_eq rfl
  | succ todo ih =>
      have hone : Kept target m (relocateOne T data size target done m).2 :=
        kept_relocateOne hkeep done
      rw [relocate]
      split
      case h_1 hstep =>
        rw [hstep] at hone
        exact hone.trans (ih (done + 1))
      case h_2 hstep =>
        rw [hstep] at hone
        exact hone

theorem element?_congr (h : m'.storage.slots = m.storage.slots) (data : Option Nat) :
    m'.element? data = m.element? data := by
  funext i
  simp only [element?, Storage.value?, h]

theorem elements_congr (h : m'.storage.slots = m.storage.slots) (data : Option Nat) (size : Nat) :
    m'.elements data size = m.elements data size := by
  rw [elements, elements, element?_congr h]

theorem elements_succ (m : Memory V) (data : Option Nat) (n : Nat) :
    m.elements data (n + 1) = m.elements data n ++ (m.element? data n).toList := by
  rw [elements, elements, List.range_succ, List.filterMap_append]
  congr 1

theorem length_elements (hlive : ∀ i < size, (m.element? data i).isSome = true) :
    (m.elements data size).length = size := by
  induction size with
  | zero => rfl
  | succ n ih =>
      obtain ⟨last, hlast⟩ := Option.isSome_iff_exists.mp (hlive n (Nat.lt_succ_self n))
      rw [elements_succ, List.length_append, ih fun i hi => hlive i (Nat.lt_succ_of_lt hi), hlast]
      rfl

/-- The element at an index of the list of elements is the one in the slot. -/
theorem getElem?_elements (hlive : ∀ i < size, (m.element? data i).isSome = true) {i : Nat}
    (hi : i < size) : (m.elements data size)[i]? = m.element? data i := by
  induction size with
  | zero => omega
  | succ n ih =>
      have hbelow : ∀ i < n, (m.element? data i).isSome = true :=
        fun i hi => hlive i (Nat.lt_succ_of_lt hi)
      have hlength := length_elements hbelow
      rw [elements_succ]
      rcases Nat.lt_succ_iff_lt_or_eq.mp hi with hlt | rfl
      · rw [List.getElem?_append_left (by omega)]
        exact ih hbelow hlt
      · obtain ⟨last, hlast⟩ := Option.isSome_iff_exists.mp (hlive i hi)
        rw [List.getElem?_append_right (by omega), hlength, hlast]
        simp

/-- Constructing from arguments that keep the elements touches no slot but the
new one, and not even that if it throws. -/
theorem slots_constructFrom {args : Arguments V} (hkeep : args.KeepElements)
    (hlive : ∀ i < size, (m.element? data i).isSome = true) (target index : Nat) :
    ((m.constructFrom data size args (some target) index).1 = false ∧
      (m.constructFrom data size args (some target) index).2.storage.slots = m.storage.slots) ∨
    ((m.constructFrom data size args (some target) index).1 = true ∧
      Kept target m (m.constructFrom data size args (some target) index).2) := by
  have htouched : (m.touch data size (args m.time (m.elements data size)).2).storage.slots =
      m.storage.slots := by
    refine touch_slots fun i v hi hv => hkeep _ _ i v ?_
    rw [getElem?_elements hlive hi, hv]
  unfold constructFrom
  generalize args m.time (m.elements data size) = outcome at htouched
  obtain ⟨made, change⟩ := outcome
  cases made with
  | none => exact .inl ⟨rfl, htouched⟩
  | some value => exact .inr ⟨rfl, (Kept.of_eq htouched).trans (kept_construct index value)⟩

end Memory

namespace State

open Memory

/-- The vector is as before: the same allocation, size, capacity and elements,
and neither another allocation nor another object. -/
structure Unchanged (s s' : State V) : Prop where
  data_eq : s'.data = s.data
  size_eq : s'.size = s.size
  capacity_eq : s'.capacity = s.capacity
  elements_eq : s'.memory.elements s'.data s'.size = s.memory.elements s.data s.size
  slots_eq : s'.memory.storage.slots = s.memory.storage.slots
  blocks_eq : s'.memory.storage.blocks = s.memory.storage.blocks
  not_misused : s'.memory.storage.misused = false

variable {A : Allocator} {T : Element V} {s : State V} {m : Memory V} {target : Nat}

theorem Valid.unchanged (h : s.Valid A)
    (hholds : m.storage.Holds (ownBlock s.data s.capacity) (OwnSlot s.data s.size))
    (hslots : m.storage.slots = s.memory.storage.slots) :
    Unchanged s { s with memory := m } where
  data_eq := rfl
  size_eq := rfl
  capacity_eq := rfl
  elements_eq := elements_congr hslots s.data s.size
  slots_eq := hslots
  blocks_eq := by
    funext block
    exact (hholds.blocks_eq block).trans (h.holds.blocks_eq block).symm
  not_misused := hholds.unmisused

/-- Cleaned up and kept outside the second allocation, the vector is unchanged. -/
theorem Valid.unchanged_of_kept (h : s.Valid A) (htarget : s.data ≠ some target)
    (hholds : m.storage.Holds (ownBlock s.data s.capacity) (OwnSlot s.data s.size))
    (hkept : Kept target s.memory m) : Unchanged s { s with memory := m } := by
  apply h.unchanged hholds
  funext p
  rcases ne_or_eq p.1 target with hne | rfl
  · exact hkept p hne
  · have hother : ¬ OwnSlot s.data s.size p := fun hown => htarget hown.1
    rw [hholds.free hother, h.holds.free hother]

/-- Between operations every element is there. -/
theorem Valid.element?_isSome (h : s.Valid A) :
    ∀ i < s.size, (s.memory.element? s.data i).isSome = true := by
  intro i hi
  obtain ⟨block, hblock⟩ := h.size_pos_data (by omega)
  obtain ⟨object, hobject⟩ :=
    h.holds.object (show OwnSlot s.data s.size (block, i) from ⟨hblock, hi⟩)
  simp [element?, hblock, Storage.value?, hobject]

theorem Valid.reserve_strong (h : s.Valid A) (hsafe : T.RelocatesSafely) (newCapacity : Nat) :
    (s.reserve A T newCapacity).1 = .ok () ∨ Unchanged s (s.reserve A T newCapacity).2 := by
  unfold State.reserve
  split
  case isTrue => exact .inl rfl
  case isFalse hlarger =>
  split
  case isTrue => exact .inr (h.unchanged h.holds rfl)
  case isFalse =>
  have hsize := h.size_le
  rcases h.allocate newCapacity with ⟨m, halloc, hsame⟩ | ⟨m, halloc, -, hslots, hbeside⟩
  · rw [halloc]
    exact .inr (h.unchanged (hsame ▸ h.holds) (by rw [hsame]))
  generalize s.memory.storage.nextBlock = target at halloc hbeside
  obtain ⟨count, finished, m', hrun, -, -, hthrew, hrelocated⟩ :=
    hbeside.relocate h T (by omega) fun _ _ hfalse => hfalse
  rw [halloc]
  dsimp only
  rw [hrun]
  cases finished with
  | true => exact .inl rfl
  | false =>
      have hkeep := hsafe.keep_of_threw (hthrew rfl)
      have hkept : Kept target m m' := by
        have hloop : Kept target m (m.relocate T s.data s.size target s.size 0).2.2 :=
          kept_relocate hkeep s.size 0
        rwa [hrun] at hloop
      have hundone : Kept target m' ((m'.destroyFirst target count).deallocate (some target)
          newCapacity) := (kept_destroyFirst count).trans (kept_deallocate newCapacity)
      exact .inr (h.unchanged_of_kept hbeside.target_ne
        (hrelocated.destroyFirst fun _ _ hfalse => hfalse).deallocate
        (((Kept.of_eq hslots).trans hkept).trans hundone))

theorem Valid.growAndEmplace_strong (h : s.Valid A) (hsafe : T.RelocatesSafely)
    {args : Arguments V} (hargs : args.KeepElements) (hfull : s.size = s.capacity) :
    (∃ position, (s.growAndEmplace A T args).1 = .ok position) ∨
      Unchanged s (s.growAndEmplace A T args).2 := by
  unfold State.growAndEmplace
  split
  case isTrue => exact .inr (h.unchanged h.holds rfl)
  case isFalse hlimit =>
  have hroom := grownCapacity_gt h.capacity_le hlimit
  generalize grownCapacity A s.capacity = n at hroom ⊢
  rcases h.allocate n with ⟨m, halloc, hsame⟩ | ⟨m, halloc, -, hslots, hbeside⟩
  · rw [halloc]
    exact .inr (h.unchanged (hsame ▸ h.holds) (by rw [hsame]))
  rw [halloc]
  generalize s.memory.storage.nextBlock = target at hbeside
  have hlive : ∀ i < s.size, (m.element? s.data i).isSome = true := by
    have hsame : m.element? s.data = s.memory.element? s.data := element?_congr hslots s.data
    rw [hsame]
    exact h.element?_isSome
  have happended := holds_constructFrom hbeside.holds s.data s.size args s.size
    (Function.update_self ..) (by omega) (by simpa using hbeside.not_own)
  have htouched := slots_constructFrom hargs hlive target s.size
  dsimp only
  generalize m.constructFrom s.data s.size args (some target) s.size = result
    at happended htouched ⊢
  obtain ⟨ok, m'⟩ := result
  dsimp only at happended htouched ⊢
  rcases happended with ⟨rfl, hmade⟩ | ⟨rfl, hfailed⟩
  case inr =>
    rcases htouched with ⟨-, hsame⟩ | ⟨hok, -⟩
    case inr => cases hok
    exact .inr (h.unchanged_of_kept hbeside.target_ne
      (Beside.deallocate ⟨hfailed, hbeside.target_ne⟩)
      ((Kept.of_eq (hsame.trans hslots)).trans (kept_deallocate n)))
  have hkept : Kept target m m' := by
    rcases htouched with ⟨hok, -⟩ | ⟨-, hkept⟩
    · cases hok
    · exact hkept
  have hbeside' : Beside s m' target n fun p => p = (target, s.size) :=
    ⟨hmade.congr (fun _ => rfl) fun p => by simp, hbeside.target_ne⟩
  obtain ⟨count, finished, m'', hrun, hcount, -, hthrew, hrelocated⟩ :=
    hbeside'.relocate h T (by omega) fun i hi => below_ne_last hi
  dsimp only
  rw [hrun]
  cases finished with
  | true => exact .inl ⟨_, rfl⟩
  | false =>
      have hkeep := hsafe.keep_of_threw (hthrew rfl)
      have hrelocate : Kept target m' m'' := by
        have hloop : Kept target m' (m'.relocate T s.data s.size target s.size 0).2.2 :=
          kept_relocate hkeep s.size 0
        rwa [hrun] at hloop
      have hundone : Kept target m'' (((m''.destroyFirst target count).destroy (some target)
          s.size).deallocate (some target) n) :=
        ((kept_destroyFirst count).trans (kept_destroy s.size)).trans (kept_deallocate n)
      exact .inr (h.unchanged_of_kept hbeside.target_ne (hrelocated.discardAppended hcount)
        ((((Kept.of_eq hslots).trans hkept).trans hrelocate).trans hundone))

theorem Valid.emplaceBack_strong (h : s.Valid A) (hsafe : T.RelocatesSafely)
    {args : Arguments V} (hargs : args.KeepElements) :
    (∃ position, (s.emplaceBack A T args).1 = .ok position) ∨
      Unchanged s (s.emplaceBack A T args).2 := by
  unfold State.emplaceBack
  split
  case isTrue hfull =>
    split
    · exact h.growAndEmplace_strong hsafe hargs hfull
    · exact .inr (h.unchanged h.holds rfl)
  case isFalse hroom =>
    have hlt : s.size < s.capacity := Nat.lt_of_le_of_ne h.size_le hroom
    obtain ⟨block, hblock⟩ := h.data_of_pos (by omega)
    have happended := holds_constructFrom h.holds s.data s.size args s.size
      (show ownBlock s.data s.capacity block = _ from if_pos hblock) hlt
      fun hown => Nat.lt_irrefl _ hown.2
    have htouched := slots_constructFrom hargs h.element?_isSome block s.size
    rw [← hblock] at happended htouched
    generalize s.memory.constructFrom s.data s.size args s.data s.size = result
      at happended htouched
    obtain ⟨ok, m⟩ := result
    rcases happended with ⟨rfl, -⟩ | ⟨rfl, hfailed⟩
    · exact .inl ⟨_, rfl⟩
    · rcases htouched with ⟨-, hsame⟩ | ⟨hok, -⟩
      · exact .inr (h.unchanged hfailed hsame)
      · cases hok

theorem Valid.perform_strong (h : s.Valid A) (hsafe : T.RelocatesSafely) {op : Op V}
    (hop : op.KeepsElements T) :
    (s.perform A T op).1 = .ok () ∨ Unchanged s (s.perform A T op).2 := by
  have hemplace : ∀ args, op.arguments T = some args →
      s.perform A T op = (s.emplaceBack A T args).map (·.map fun _ => ()) id →
      (s.perform A T op).1 = .ok () ∨ Unchanged s (s.perform A T op).2 := by
    intro args hargs heq
    rw [heq]
    rcases h.emplaceBack_strong hsafe (hop args hargs) with ⟨position, hok⟩ | hunchanged
    · refine .inl ?_
      rw [Prod.map_fst, hok]
      rfl
    · exact .inr hunchanged
  cases op with
  | reserve newCapacity => exact h.reserve_strong hsafe newCapacity
  | emplaceBack args => exact hemplace args rfl rfl
  | pushBackCopy value => exact hemplace _ rfl rfl
  | pushBackMove value => exact hemplace _ rfl rfl
  | clear => exact .inl rfl
  | popBack =>
      change s.popBack.1 = .ok () ∨ Unchanged s s.popBack.2
      unfold State.popBack
      split
      · exact .inr (h.unchanged h.holds rfl)
      · exact .inl rfl

/-- Whatever a vector has been through, an operation on it that throws leaves
it unchanged. -/
theorem strong_guarantee (A : Allocator) (T : Element V) (hsafe : T.RelocatesSafely)
    (initialCapacity time : Nat) (hmade : (make A initialCapacity ⟨.empty V, time⟩).1 = .ok ())
    (history : List (Op V)) (op : Op V) (hop : op.KeepsElements T) (e : Exn)
    (hthrows : (((make A initialCapacity ⟨.empty V, time⟩).2.run A T history).perform A T op).1 =
      .error e) :
    Unchanged ((make A initialCapacity ⟨.empty V, time⟩).2.run A T history)
      (((make A initialCapacity ⟨.empty V, time⟩).2.run A T history).perform A T op).2 := by
  have hvalid : (make A initialCapacity ⟨.empty V, time⟩).2.Valid A := by
    rcases make_cases A initialCapacity time with ⟨-, hvalid⟩ | ⟨herror, -⟩
    · exact hvalid
    · rw [hmade] at herror
      cases herror
  rcases (hvalid.run T history).perform_strong hsafe hop with hok | hunchanged
  · rw [hok] at hthrows
    cases hthrows
  · exact hunchanged

/-- An element whose move may throw and whose copy throws at one time. -/
def throwingCopy (failing : Nat) : Element Nat where
  copyConstructible := true
  moveConstructible := true
  nothrowMove := false
  copy time v := (if time = failing then none else some v, v)
  move _ v := (some v, 0)
  nothrow := nofun

def hundredSlots : Allocator where
  maxSize := 100
  maxSize_lt := by decide
  fails _ n := 100 < n
  fails_of_gt _ _ h := decide_eq_true h

/-- Growth from one element to two throws while it relocates the first. -/
theorem strong_guarantee_growth :
    (((make hundredSlots 0 ⟨.empty Nat, 0⟩).2.run hundredSlots (throwingCopy 4)
      [.pushBackCopy (.other 7)]).perform hundredSlots (throwingCopy 4)
        (.pushBackCopy (.other 8))).1 = .error .element ∧
    Unchanged ((make hundredSlots 0 ⟨.empty Nat, 0⟩).2.run hundredSlots (throwingCopy 4)
      [.pushBackCopy (.other 7)])
      (((make hundredSlots 0 ⟨.empty Nat, 0⟩).2.run hundredSlots (throwingCopy 4)
        [.pushBackCopy (.other 7)]).perform hundredSlots (throwingCopy 4)
          (.pushBackCopy (.other 8))).2 := by
  have hsafe : (throwingCopy 4).RelocatesSafely := ⟨fun _ _ _ => rfl, nofun⟩
  refine ⟨rfl, strong_guarantee _ _ hsafe 0 0 rfl _ _ ?_ .element rfl⟩
  rintro _ ⟨⟩
  exact Reference.other_keepElements _ 8

end State

end MoreCpp.Vector
