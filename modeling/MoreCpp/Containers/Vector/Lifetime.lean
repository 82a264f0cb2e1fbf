import MoreCpp.Containers.Vector.Model

/-!
The lifetime ledger of `learning::Vector`. Between operations the storage
holds the vector's allocation and nothing else, and exactly its first `size_`
slots are alive, whichever allocations and constructions failed on the way.
-/

namespace MoreCpp.Vector

open Library

variable {V : Type*}

/-- The one block of a vector. -/
def ownBlock (data : Option Nat) (capacity : Nat) (block : Nat) : Option Nat :=
  if data = some block then some capacity else none

theorem ownBlock_some (own capacity block : Nat) :
    ownBlock (some own) capacity block =
      Function.update (fun _ => none) own (some capacity) block := by
  rw [ownBlock, Function.update_apply]
  simp only [Option.some.injEq, eq_comm]

/-- The elements of a vector. -/
def OwnSlot (data : Option Nat) (size : Nat) (slot : Slot) : Prop :=
  data = some slot.1 ∧ slot.2 < size

/-- The first `count` slots of a block. -/
def FirstSlots (target count : Nat) (slot : Slot) : Prop := slot.1 = target ∧ slot.2 < count

theorem firstSlots_succ (target count : Nat) (p : Slot) :
    FirstSlots target (count + 1) p ↔ FirstSlots target count p ∨ p = (target, count) := by
  obtain ⟨b, i⟩ := p
  simp only [FirstSlots, Prod.mk.injEq]
  rw [Nat.lt_succ_iff_lt_or_eq, and_or_left]

theorem firstSlots_pred (target count : Nat) (p : Slot) :
    FirstSlots target count p ↔ FirstSlots target (count + 1) p ∧ p ≠ (target, count) := by
  rw [firstSlots_succ]
  constructor
  · intro hfirst
    refine ⟨.inl hfirst, ?_⟩
    rintro rfl
    exact Nat.lt_irrefl _ hfirst.2
  · rintro ⟨hfirst | hlast, hne⟩
    · exact hfirst
    · exact absurd hlast hne

theorem ownSlot_some (block size : Nat) (p : Slot) :
    OwnSlot (some block) size p ↔ FirstSlots block size p := by
  rw [OwnSlot, FirstSlots, Option.some.injEq, eq_comm]

namespace Memory

variable {m : Memory V} {blocks : Nat → Option Nat} {alive : Slot → Prop} {data : Option Nat}
  {size : Nat}

/-- A request fails and changes no storage, or makes a block within the limit. -/
theorem allocate_cases (A : Allocator) (m : Memory V) (n : Nat) :
    (∃ m', m.allocate A n = (none, m') ∧ m'.storage = m.storage) ∨
    n ≤ A.maxSize ∧
      m.allocate A n = (some m.storage.nextBlock, ⟨m.storage.allocate n, m.time + 1⟩) := by
  unfold allocate
  split
  case isTrue => exact .inl ⟨_, rfl, rfl⟩
  case isFalse hgranted =>
    refine .inr ⟨?_, rfl⟩
    by_contra hgt
    exact hgranted (A.fails_of_gt _ n (by omega))

theorem holds_touch (h : m.storage.Holds blocks alive) (data : Option Nat) (size : Nat)
    (change : Nat → V → V) :
    (m.touch data size change).storage.Holds blocks alive := by
  cases data with
  | none => exact h
  | some block => exact h.assign block size change

theorem holds_constructFrom (h : m.storage.Holds blocks alive) (data : Option Nat) (size : Nat)
    (args : Arguments V) {target n : Nat} (index : Nat) (hblock : blocks target = some n)
    (hbounds : index < n) (hdead : ¬ alive (target, index)) :
    ((m.constructFrom data size args (some target) index).1 = true ∧
      (m.constructFrom data size args (some target) index).2.storage.Holds blocks
        fun s => alive s ∨ s = (target, index)) ∨
    (m.constructFrom data size args (some target) index).1 = false ∧
      (m.constructFrom data size args (some target) index).2.storage.Holds blocks alive := by
  unfold constructFrom
  obtain ⟨made, change⟩ := args m.time (m.elements data size)
  have htouched := holds_touch h data size change
  cases made with
  | none => exact .inr ⟨rfl, htouched⟩
  | some value => exact .inl ⟨rfl, htouched.construct hblock hbounds hdead value⟩

/-- One relocation makes the element in its new slot, or throws and makes nothing. -/
theorem holds_relocateOne (T : Element V) (h : m.storage.Holds blocks alive) (size : Nat)
    {index : Nat} (hsource : ∃ block, data = some block ∧ alive (block, index)) {target n : Nat}
    (hblock : blocks target = some n) (hbounds : index < n)
    (hdead : ¬ alive (target, index)) :
    ((relocateOne T data size target index m).1 = true ∧
      (relocateOne T data size target index m).2.storage.Holds blocks
        fun s => alive s ∨ s = (target, index)) ∨
    (relocateOne T data size target index m).1 = false ∧
      (∃ time value, (T.relocate time value).1 = none) ∧
      (relocateOne T data size target index m).2.storage.Holds blocks alive := by
  obtain ⟨block, rfl, hlive⟩ := hsource
  obtain ⟨object, hobject⟩ := h.object hlive
  have hvalue : m.element? (some block) index = some object.value := by
    simp [element?, Storage.value?, hobject]
  unfold relocateOne
  rw [hvalue]
  dsimp only
  generalize hmoved : T.relocate m.time object.value = moved
  obtain ⟨made, source⟩ := moved
  have htouched := holds_touch h (some block) size
    fun i v => if i = index then source else v
  cases made with
  | none => exact .inr ⟨rfl, ⟨_, _, by rw [hmoved]⟩, htouched⟩
  | some value => exact .inl ⟨rfl, htouched.construct hblock hbounds hdead value⟩

/-- The relocation loop has made the elements it counts, all of them unless a
relocation threw. -/
theorem holds_relocate (T : Element V) {target n : Nat} (hblock : blocks target = some n)
    (size todo done : Nat)
    (h : m.storage.Holds blocks fun s => alive s ∨ FirstSlots target done s)
    (hsource : ∀ i < done + todo, ∃ block, data = some block ∧ alive (block, i))
    (hbounds : done + todo ≤ n) (hdead : ∀ i < done + todo, ¬ alive (target, i)) :
    ∃ count finished m', relocate T data size target todo done m = (count, finished, m') ∧
      count ≤ done + todo ∧ (finished = true → count = done + todo) ∧
      (finished = false → ∃ time value, (T.relocate time value).1 = none) ∧
      m'.storage.Holds blocks fun s => alive s ∨ FirstSlots target count s := by
  induction todo generalizing done m with
  | zero => exact ⟨done, true, m, rfl, Nat.le_refl _, fun _ => rfl, nofun, h⟩
  | succ todo ih =>
      have hfree : ¬ (alive (target, done) ∨ FirstSlots target done (target, done)) := by
        rintro (hlive | ⟨-, hlt⟩)
        · exact hdead done (by omega) hlive
        · exact Nat.lt_irrefl _ hlt
      obtain ⟨block, hdata, hlive⟩ := hsource done (by omega)
      have hone := holds_relocateOne T h size
        ⟨block, hdata, .inl hlive⟩ hblock (by omega) hfree
      generalize hstep : relocateOne T data size target done m = result at hone
      obtain ⟨ok, m₁⟩ := result
      rcases hone with ⟨rfl, hmade⟩ | ⟨rfl, hthrew, hfailed⟩
      · have hnext : m₁.storage.Holds blocks fun s =>
            alive s ∨ FirstSlots target (done + 1) s := by
          apply hmade.congr (fun _ => rfl)
          intro s
          rw [firstSlots_succ, or_assoc]
        have harith : done + 1 + todo = done + (todo + 1) := by omega
        obtain ⟨count, finished, m', hrun, hcount, hall, hwhy, hholds⟩ := ih (done + 1) hnext
          (by rwa [harith]) (by rwa [harith]) (by rwa [harith])
        rw [harith] at hcount hall
        exact ⟨count, finished, m', by rw [relocate, hstep]; exact hrun, hcount, hall, hwhy,
          hholds⟩
      · exact ⟨done, false, m₁, by rw [relocate, hstep], by omega, nofun, fun _ => hthrew,
          hfailed⟩

/-- Cleaning up destroys exactly the first `count` slots of the new block. -/
theorem holds_destroyFirst {target : Nat} (count : Nat)
    (h : m.storage.Holds blocks fun s => alive s ∨ FirstSlots target count s)
    (hdead : ∀ i < count, ¬ alive (target, i)) :
    (m.destroyFirst target count).storage.Holds blocks alive := by
  induction count generalizing m with
  | zero => exact h.congr (fun _ => rfl) fun s => by simp [FirstSlots]
  | succ count ih =>
      have hlast := h.destroy (target, count) (.inr ⟨rfl, Nat.lt_succ_self _⟩)
      have hrest : (m.destroy (some target) count).storage.Holds blocks fun s =>
          alive s ∨ FirstSlots target count s := by
        apply hlast.congr (fun _ => rfl)
        intro s
        rw [firstSlots_pred, or_and_right]
        refine or_congr_left ⟨fun hs => ⟨hs, ?_⟩, And.left⟩
        rintro rfl
        exact hdead count (Nat.lt_succ_self _) hs
      exact ih hrest fun i hi => hdead i (Nat.lt_succ_of_lt hi)

end Memory

namespace State

/-- What holds between two operations. -/
structure Valid (A : Allocator) (s : State V) : Prop where
  holds : s.memory.storage.Holds (ownBlock s.data s.capacity) (OwnSlot s.data s.size)
  size_le : s.size ≤ s.capacity
  capacity_le : s.capacity ≤ A.maxSize
  null_iff : s.data = none ↔ s.capacity = 0

variable {A : Allocator} {s : State V} {blocks : Nat → Option Nat} {rest : Slot → Prop}

theorem Valid.data_of_pos (h : s.Valid A) (hpos : 0 < s.capacity) :
    ∃ block, s.data = some block := by
  cases hdata : s.data with
  | some block => exact ⟨block, rfl⟩
  | none =>
      have hzero := h.null_iff.mp hdata
      omega

/-- Clearing ends the lifetimes of the elements and of nothing else. -/
theorem holds_clearLoop (n : Nat) (hsize : s.size = n)
    (hdata : 0 < s.size → ∃ block, s.data = some block)
    (h : s.memory.storage.Holds blocks fun p => OwnSlot s.data s.size p ∨ rest p)
    (hrest : ∀ p, OwnSlot s.data s.size p → ¬ rest p) :
    (clearLoop n s).data = s.data ∧ (clearLoop n s).capacity = s.capacity ∧
      (clearLoop n s).size = 0 ∧ (clearLoop n s).memory.storage.Holds blocks rest := by
  induction n generalizing s with
  | zero =>
      refine ⟨rfl, rfl, hsize, h.congr (fun _ => rfl) fun p => ?_⟩
      rw [hsize]
      simp [OwnSlot]
  | succ n ih =>
      obtain ⟨block, hblock⟩ := hdata (by omega)
      have hpop : s.popBack.2 = { s with
          size := n, memory := s.memory.destroy (some block) n } := by
        simp [popBack, hsize, hblock]
      have hlast : OwnSlot s.data s.size (block, n) := ⟨hblock, by rw [hsize]; omega⟩
      have hsmaller : ∀ p, OwnSlot s.data n p ↔ OwnSlot s.data s.size p ∧ p ≠ (block, n) := by
        intro p
        rw [hblock, hsize, ownSlot_some, ownSlot_some]
        exact firstSlots_pred block n p
      have hdestroyed := h.destroy (block, n) (.inl hlast)
      have hnext : (s.memory.destroy (some block) n).storage.Holds blocks fun p =>
          OwnSlot s.data n p ∨ rest p := by
        apply hdestroyed.congr (fun _ => rfl)
        intro p
        rw [hsmaller, or_and_right]
        refine or_congr_right ⟨fun hother => ⟨hother, ?_⟩, And.left⟩
        rintro rfl
        exact hrest _ hlast hother
      rw [clearLoop, hpop]
      exact ih rfl (fun _ => ⟨block, hblock⟩) hnext
        fun p hp => hrest p ((hsmaller p).mp hp).1

theorem Valid.popBack (h : s.Valid A) : s.popBack.2.Valid A := by
  unfold State.popBack
  split
  case isTrue => exact h
  case isFalse hsize =>
    have hlast : s.size - 1 + 1 = s.size := by omega
    obtain ⟨block, hblock⟩ := h.data_of_pos (Nat.lt_of_lt_of_le (by omega) h.size_le)
    have hdestroyed := h.holds.destroy (block, s.size - 1) ⟨hblock, by omega⟩
    constructor
    case holds =>
      change (s.memory.destroy s.data (s.size - 1)).storage.Holds _ _
      rw [hblock]
      apply hdestroyed.congr (fun _ => by rw [hblock])
      intro p
      rw [hblock, ownSlot_some, ownSlot_some, firstSlots_pred, hlast]
    case size_le => exact Nat.le_trans (Nat.sub_le _ _) h.size_le
    case capacity_le => exact h.capacity_le
    case null_iff => exact h.null_iff

theorem Valid.size_pos_data (h : s.Valid A) (hpos : 0 < s.size) : ∃ block, s.data = some block :=
  h.data_of_pos (Nat.lt_of_lt_of_le hpos h.size_le)

theorem Valid.clear (h : s.Valid A) : s.clear.Valid A ∧ s.clear.size = 0 ∧ s.clear.data = s.data ∧
    s.clear.capacity = s.capacity := by
  have hholds : s.memory.storage.Holds (ownBlock s.data s.capacity) fun p =>
      OwnSlot s.data s.size p ∨ False := h.holds.congr (fun _ => rfl) fun p => by simp
  obtain ⟨hdata, hcapacity, hsize, hempty⟩ :=
    holds_clearLoop s.size rfl h.size_pos_data hholds fun p _ hfalse => hfalse
  refine ⟨⟨?_, ?_, ?_, ?_⟩, hsize, hdata, hcapacity⟩
  · refine hempty.congr (fun b => ?_) fun p => ?_
    · rw [State.clear, hdata, hcapacity]
    · rw [State.clear, hsize]
      simp [OwnSlot]
  · rw [State.clear, hsize]
    exact Nat.zero_le _
  · rw [State.clear, hcapacity]
    exact h.capacity_le
  · rw [State.clear, hdata, hcapacity]
    exact h.null_iff

/-- Destroying the elements and releasing their storage leaves the rest. -/
theorem holds_discard (h : s.memory.storage.Holds blocks fun p => OwnSlot s.data s.size p ∨ rest p)
    (hdata : 0 < s.size → ∃ block, s.data = some block)
    (hrest : ∀ p, OwnSlot s.data s.size p → ¬ rest p)
    (hown : ∀ block, s.data = some block → blocks block = some s.capacity) :
    (s.clear.memory.deallocate s.data s.capacity).storage.Holds
      (fun block => if s.data = some block then none else blocks block) rest := by
  obtain ⟨-, -, -, hcleared⟩ := holds_clearLoop s.size rfl hdata h hrest
  cases hblock : s.data with
  | none => exact hcleared.congr (fun b => by simp) fun _ => Iff.rfl
  | some block =>
      refine (hcleared.release (hown block hblock)).congr (fun b => ?_) fun _ => Iff.rfl
      rcases eq_or_ne b block with rfl | hne
      · rw [Function.update_self, if_pos rfl]
      · rw [Function.update_of_ne hne, if_neg (by simpa using Ne.symm hne)]

theorem Valid.destruct (h : s.Valid A) :
    s.destruct.storage.Holds (fun _ => none) fun _ => False := by
  have hholds : s.memory.storage.Holds (ownBlock s.data s.capacity) fun p =>
      OwnSlot s.data s.size p ∨ False := h.holds.congr (fun _ => rfl) fun p => by simp
  have hdone := holds_discard hholds h.size_pos_data (fun _ _ hfalse => hfalse)
    fun block hblock => by rw [ownBlock, if_pos hblock]
  refine hdone.congr (fun b => ?_) fun _ => Iff.rfl
  unfold ownBlock
  split <;> rfl

/-- A second allocation, of `n` slots, beside a valid vector. -/
structure Beside (s : State V) (m : Memory V) (target n : Nat) (alive : Slot → Prop) : Prop where
  holds : m.storage.Holds (Function.update (ownBlock s.data s.capacity) target (some n))
    fun p => OwnSlot s.data s.size p ∨ alive p
  target_ne : s.data ≠ some target

theorem Valid.allocate (h : s.Valid A) (n : Nat) :
    (∃ m, s.memory.allocate A n = (none, m) ∧ m.storage = s.memory.storage) ∨
    ∃ m, s.memory.allocate A n = (some s.memory.storage.nextBlock, m) ∧ n ≤ A.maxSize ∧
      m.storage.slots = s.memory.storage.slots ∧
      Beside s m s.memory.storage.nextBlock n fun _ => False := by
  rcases Memory.allocate_cases A s.memory n with ⟨m, hfailed, hsame⟩ | ⟨hle, hgranted⟩
  · exact .inl ⟨m, hfailed, hsame⟩
  · refine .inr ⟨_, hgranted, hle, rfl,
      (h.holds.allocate n).congr (fun _ => rfl) fun p => by simp, ?_⟩
    intro hdata
    have hfresh := h.holds.fresh
    rw [ownBlock, if_pos hdata] at hfresh
    cases hfresh

namespace Beside

variable {m : Memory V} {target n : Nat} {alive : Slot → Prop}

theorem not_own (h : Beside s m target n alive) {i : Nat} :
    ¬ OwnSlot s.data s.size (target, i) := fun hown => h.target_ne hown.1

/-- The second allocation goes away, and the vector is as it was. -/
theorem deallocate (h : Beside s m target n fun _ => False) :
    (m.deallocate (some target) n).storage.Holds (ownBlock s.data s.capacity)
      (OwnSlot s.data s.size) := by
  refine (h.holds.release (Function.update_self ..)).congr (fun b => ?_) fun p => by simp
  rcases eq_or_ne b target with rfl | hne
  · rw [Function.update_self, ownBlock, if_neg h.target_ne]
  · rw [Function.update_of_ne hne, Function.update_of_ne hne]

/-- The second allocation, with its first `count` slots alive, becomes the vector's. -/
theorem install {count : Nat} (h : Beside s m target n (FirstSlots target count))
    (hdata : 0 < s.size → ∃ block, s.data = some block) (hcount : count ≤ n) (hpos : 0 < n)
    (hle : n ≤ A.maxSize) : ({ s with memory := m }.install target count n).Valid A := by
  have hrest : ∀ p, OwnSlot s.data s.size p → ¬ FirstSlots target count p := by
    rintro ⟨b, i⟩ hown ⟨rfl, -⟩
    exact h.not_own hown
  have hown : ∀ block, s.data = some block →
      Function.update (ownBlock s.data s.capacity) target (some n) block = some s.capacity := by
    intro block hblock
    have hne : block ≠ target := by
      rintro rfl
      exact h.target_ne hblock
    rw [Function.update_of_ne hne, ownBlock, if_pos hblock]
  have hdone := holds_discard (s := { s with memory := m }) h.holds hdata hrest hown
  constructor
  case holds =>
    refine hdone.congr (fun b => ?_) fun p => ?_
    · change (if some target = some b then some n else none) = if s.data = some b then none else _
      rcases eq_or_ne b target with rfl | hne
      · rw [if_pos rfl, if_neg h.target_ne, Function.update_self]
      · rw [if_neg (by simpa using Ne.symm hne), Function.update_of_ne hne]
        unfold ownBlock
        split <;> rfl
    · exact ownSlot_some target count p
  case size_le => exact hcount
  case capacity_le => exact hle
  case null_iff =>
    refine ⟨nofun, fun hzero => ?_⟩
    change n = 0 at hzero
    omega

end Beside

/-- Relocating into the second allocation ends with some of its first slots
alive, all of them unless it throws. -/
theorem Beside.relocate {m : Memory V} {target n : Nat} {alive : Slot → Prop} (h : s.Valid A)
    (hbeside : Beside s m target n alive) (T : Element V) (hroom : s.size ≤ n)
    (hdead : ∀ i < s.size, ¬ alive (target, i)) :
    ∃ count finished m', m.relocate T s.data s.size target s.size 0 = (count, finished, m') ∧
      count ≤ s.size ∧ (finished = true → count = s.size) ∧
      (finished = false → ∃ time value, (T.relocate time value).1 = none) ∧
      Beside s m' target n fun p => alive p ∨ FirstSlots target count p := by
  have hstart : m.storage.Holds (Function.update (ownBlock s.data s.capacity) target (some n))
      fun p => (OwnSlot s.data s.size p ∨ alive p) ∨ FirstSlots target 0 p :=
    hbeside.holds.congr (fun _ => rfl) fun p => by simp [FirstSlots]
  have hsource : ∀ i < 0 + s.size, ∃ block, s.data = some block ∧
      (OwnSlot s.data s.size (block, i) ∨ alive (block, i)) := by
    intro i hi
    rw [Nat.zero_add] at hi
    obtain ⟨block, hblock⟩ := h.size_pos_data (by omega)
    exact ⟨block, hblock, .inl ⟨hblock, hi⟩⟩
  have hfree : ∀ i < 0 + s.size, ¬ (OwnSlot s.data s.size (target, i) ∨ alive (target, i)) := by
    rintro i hi (hown | halive)
    · exact hbeside.not_own hown
    · exact hdead i (by omega) halive
  obtain ⟨count, finished, m', hrun, hcount, hall, hwhy, hholds⟩ :=
    Memory.holds_relocate T (Function.update_self ..) s.size s.size 0 hstart hsource
      (by omega) hfree
  rw [Nat.zero_add] at hcount hall
  refine ⟨count, finished, m', hrun, hcount, hall, hwhy,
    hholds.congr (fun _ => rfl) fun p => ?_, hbeside.target_ne⟩
  rw [or_assoc]

/-- Undoing the relocations made so far. -/
theorem Beside.destroyFirst {m : Memory V} {target n count : Nat} {alive : Slot → Prop}
    (h : Beside s m target n fun p => alive p ∨ FirstSlots target count p)
    (hdead : ∀ i < count, ¬ alive (target, i)) :
    Beside s (m.destroyFirst target count) target n alive := by
  refine ⟨Memory.holds_destroyFirst count ?_ ?_, h.target_ne⟩
  · exact h.holds.congr (fun _ => rfl) fun p => by rw [or_assoc]
  · rintro i hi (hown | halive)
    · exact h.not_own hown
    · exact hdead i hi halive

theorem below_ne_last {target i size : Nat} (hi : i < size) : (target, i) ≠ (target, size) :=
  fun heq => Nat.ne_of_lt hi (Prod.mk.inj heq).2

/-- Undoing a growth that has made the new element and `count` relocations. -/
theorem Beside.discardAppended {m : Memory V} {target n count : Nat}
    (h : Beside s m target n fun p => p = (target, s.size) ∨ FirstSlots target count p)
    (hcount : count ≤ s.size) :
    (((m.destroyFirst target count).destroy (some target) s.size).deallocate (some target)
      n).storage.Holds (ownBlock s.data s.capacity) (OwnSlot s.data s.size) := by
  have hcleaned := h.destroyFirst fun i hi => below_ne_last (by omega)
  have hempty := hcleaned.holds.destroy (target, s.size) (.inr rfl)
  refine Beside.deallocate ⟨hempty.congr (fun _ => rfl) fun p => ?_, h.target_ne⟩
  constructor
  · rintro (hown | hfalse)
    · refine ⟨.inl hown, ?_⟩
      rintro rfl
      exact h.not_own hown
    · exact hfalse.elim
  · rintro ⟨hown | hlast, hne⟩
    · exact .inl hown
    · exact absurd hlast hne

variable (T : Element V)

theorem Valid.of_memory (h : s.Valid A) {m : Memory V}
    (hholds : m.storage.Holds (ownBlock s.data s.capacity) (OwnSlot s.data s.size)) :
    ({ s with memory := m } : State V).Valid A :=
  ⟨hholds, h.size_le, h.capacity_le, h.null_iff⟩

theorem Valid.reserve (h : s.Valid A) (newCapacity : Nat) :
    (s.reserve A T newCapacity).2.Valid A := by
  unfold State.reserve
  split
  case isTrue => exact h
  case isFalse hlarger =>
  split
  case isTrue => exact h
  case isFalse =>
  have hsize := h.size_le
  rcases h.allocate newCapacity with ⟨m, halloc, hsame⟩ | ⟨m, halloc, hle, -, hbeside⟩
  · rw [halloc]
    exact h.of_memory (hsame ▸ h.holds)
  · obtain ⟨count, finished, m', hrun, hcount, hall, -, hrelocated⟩ :=
      hbeside.relocate h T (by omega) fun _ _ hfalse => hfalse
    rw [halloc]
    dsimp only
    rw [hrun]
    cases finished with
    | false => exact h.of_memory (hrelocated.destroyFirst fun _ _ hfalse => hfalse).deallocate
    | true =>
        refine Beside.install ⟨hrelocated.holds.congr (fun _ => rfl) fun p => by simp,
          hrelocated.target_ne⟩ h.size_pos_data (by omega) (by omega) hle

/-- A grown capacity has room for one more element. -/
theorem grownCapacity_gt {A : Allocator} {capacity : Nat} (hle : capacity ≤ A.maxSize)
    (hne : capacity ≠ A.maxSize) :
    capacity < grownCapacity A capacity := by
  have hlimit := A.maxSize_lt
  unfold grownCapacity
  split
  case isTrue hzero => omega
  case isFalse hzero =>
    split
    case isTrue => omega
    case isFalse hhalf =>
      rw [Nat.mod_eq_of_lt (by omega)]
      omega

theorem Valid.growAndEmplace (h : s.Valid A) (args : Arguments V) (hfull : s.size = s.capacity) :
    (s.growAndEmplace A T args).2.Valid A := by
  unfold State.growAndEmplace
  split
  case isTrue => exact h
  case isFalse hlimit =>
  have hroom := grownCapacity_gt h.capacity_le hlimit
  generalize grownCapacity A s.capacity = n at hroom ⊢
  rcases h.allocate n with ⟨m, halloc, hsame⟩ | ⟨m, halloc, hle, -, hbeside⟩
  · rw [halloc]
    exact h.of_memory (hsame ▸ h.holds)
  rw [halloc]
  generalize s.memory.storage.nextBlock = target at hbeside
  have happended := Memory.holds_constructFrom hbeside.holds s.data s.size args s.size
    (Function.update_self ..) (by omega) (by simpa using hbeside.not_own)
  generalize hargs : m.constructFrom s.data s.size args (some target) s.size = result
    at happended
  obtain ⟨ok, m'⟩ := result
  dsimp only at happended ⊢
  rw [hargs]
  rcases happended with ⟨rfl, hmade⟩ | ⟨rfl, hfailed⟩
  case inr =>
    exact h.of_memory (Beside.deallocate ⟨hfailed, hbeside.target_ne⟩)
  have hbeside' : Beside s m' target n fun p => p = (target, s.size) :=
    ⟨hmade.congr (fun _ => rfl) fun p => by simp, hbeside.target_ne⟩
  obtain ⟨count, finished, m'', hrun, hcount, hall, -, hrelocated⟩ :=
    hbeside'.relocate h T (by omega) fun i hi => below_ne_last hi
  dsimp only
  rw [hrun]
  cases finished with
  | false =>
      exact h.of_memory (hrelocated.discardAppended hcount)
  | true =>
      obtain rfl := hall rfl
      refine Beside.install ⟨hrelocated.holds.congr (fun _ => rfl) fun p => ?_,
        hbeside.target_ne⟩ h.size_pos_data (by omega) (by omega) hle
      rw [firstSlots_succ]
      exact or_congr_right or_comm

theorem Valid.emplaceBack (h : s.Valid A) (args : Arguments V) :
    (s.emplaceBack A T args).2.Valid A := by
  unfold State.emplaceBack
  split
  case isTrue hfull =>
    split
    · exact h.growAndEmplace T args hfull
    · exact h
  case isFalse hroom =>
    have hlt : s.size < s.capacity := Nat.lt_of_le_of_ne h.size_le hroom
    obtain ⟨block, hblock⟩ := h.data_of_pos (by omega)
    have happended := Memory.holds_constructFrom h.holds s.data s.size args s.size
      (show ownBlock s.data s.capacity block = _ from if_pos hblock) hlt
      fun hown => Nat.lt_irrefl _ hown.2
    rw [← hblock] at happended
    generalize s.memory.constructFrom s.data s.size args s.data s.size = result at happended
    obtain ⟨ok, m⟩ := result
    rcases happended with ⟨rfl, hmade⟩ | ⟨rfl, hfailed⟩
    case inr => exact h.of_memory hfailed
    refine ⟨hmade.congr (fun _ => rfl) fun p => ?_, hlt, h.capacity_le, h.null_iff⟩
    change OwnSlot s.data (s.size + 1) p ↔ _
    rw [hblock, ownSlot_some, ownSlot_some, firstSlots_succ]

theorem Valid.perform (h : s.Valid A) (op : Op V) : (s.perform A T op).2.Valid A := by
  cases op with
  | reserve newCapacity => exact h.reserve T newCapacity
  | emplaceBack args => exact h.emplaceBack T args
  | pushBackCopy value => exact h.emplaceBack T (value.from T.copy)
  | pushBackMove value => exact h.emplaceBack T (value.from T.move)
  | popBack => exact h.popBack
  | clear => exact h.clear.1

theorem Valid.run (h : s.Valid A) (ops : List (Op V)) : (s.run A T ops).Valid A := by
  induction ops generalizing s with
  | nil => exact h
  | cons op ops ih => exact ih (h.perform T op)

/-- The constructor leaves a valid empty vector, or throws and leaves nothing. -/
theorem make_cases (A : Allocator) (initialCapacity time : Nat) :
    ((make A initialCapacity ⟨.empty V, time⟩).1 = .ok () ∧
      (make A initialCapacity ⟨.empty V, time⟩).2.Valid A) ∨
    (make A initialCapacity ⟨.empty V, time⟩).1 = .error .badAlloc ∧
      (make A initialCapacity ⟨.empty V, time⟩).2.memory.storage = .empty V := by
  unfold make
  split
  case isFalse hzero =>
    obtain rfl := of_not_not hzero
    refine .inl ⟨rfl, Storage.Holds.empty.congr (fun _ => rfl) fun p => ?_, Nat.le_refl _,
      Nat.zero_le _, by simp⟩
    simp [OwnSlot]
  case isTrue hpos =>
  rcases Memory.allocate_cases A ⟨.empty V, time⟩ initialCapacity with
    ⟨m, hfailed, hsame⟩ | ⟨hle, hgranted⟩
  · rw [hfailed]
    exact .inr ⟨rfl, hsame⟩
  · rw [hgranted]
    refine .inl ⟨rfl, (Storage.Holds.empty.allocate initialCapacity).congr (fun b => ?_)
      fun p => by simp [OwnSlot], Nat.zero_le _, hle, by simpa using hpos⟩
    exact ownBlock_some 0 initialCapacity b

/-- Between operations: the capacity bounds the size, and the storage holds the
current allocation, with exactly the first `size_` slots alive, and nothing else. -/
structure Accounted (s : State V) : Prop where
  size_le : s.size ≤ s.capacity
  null_iff : s.data = none ↔ s.capacity = 0
  alive_iff : ∀ block index, (s.memory.storage.slots (block, index)).isSome = true ↔
    s.data = some block ∧ index < s.size
  outstanding_iff : ∀ block n, s.memory.storage.blocks block = some n ↔
    s.data = some block ∧ n = s.capacity
  destroyed_once : s.memory.storage.destroyed.Nodup
  released_once : (s.memory.storage.released.map Prod.fst).Nodup
  not_misused : s.memory.storage.misused = false

/-- Nothing is alive or outstanding, every object made was destroyed once, and
every allocation was released once, with the capacity it was made with. -/
structure Finished (m : Memory V) : Prop where
  dead : ∀ slot, m.storage.slots slot = none
  none_outstanding : ∀ block, m.storage.blocks block = none
  destroyed_perm : m.storage.destroyed.Perm (List.range m.storage.nextObject)
  released_perm : m.storage.released.Perm m.storage.allocated
  not_misused : m.storage.misused = false

theorem Valid.accounted (h : s.Valid A) : s.Accounted where
  size_le := h.size_le
  null_iff := h.null_iff
  alive_iff block index := h.holds.alive_iff (block, index)
  outstanding_iff block n := by
    rw [h.holds.blocks_eq, ownBlock]
    split
    case isTrue hown => simp [hown, eq_comm]
    case isFalse hother => simp [hother]
  destroyed_once := h.holds.balanced.destroyed_nodup
  released_once := h.holds.balanced.released_blocks_nodup
  not_misused := h.holds.unmisused

theorem finished_of_holds {m : Memory V} (h : m.storage.Holds (fun _ => none) fun _ => False) :
    Finished m where
  dead _ := h.free fun hfalse => hfalse
  none_outstanding := h.blocks_eq
  destroyed_perm := h.balanced.destroyed_perm fun _ => h.free fun hfalse => hfalse
  released_perm := h.balanced.released_perm h.blocks_eq
  not_misused := h.unmisused

/-- Every vector's history, whichever allocations and constructions throw:
either the constructor throws and leaves nothing, or after every sequence of
operations the vector's storage is accounted for, and the destructor then ends
everything that was made. -/
theorem lifetimes_accounted (A : Allocator) (T : Element V) (initialCapacity time : Nat) :
    ((make A initialCapacity ⟨.empty V, time⟩).1 = .error .badAlloc ∧
      Finished (make A initialCapacity ⟨.empty V, time⟩).2.memory) ∨
    ((make A initialCapacity ⟨.empty V, time⟩).1 = .ok () ∧ ∀ ops : List (Op V),
      ((make A initialCapacity ⟨.empty V, time⟩).2.run A T ops).Accounted ∧
      Finished ((make A initialCapacity ⟨.empty V, time⟩).2.run A T ops).destruct) := by
  rcases make_cases A initialCapacity time with ⟨hok, hvalid⟩ | ⟨herror, hempty⟩
  · refine .inr ⟨hok, fun ops => ?_⟩
    have hrun := hvalid.run T ops
    exact ⟨hrun.accounted, finished_of_holds hrun.destruct⟩
  · refine .inl ⟨herror, finished_of_holds ?_⟩
    rw [hempty]
    exact .empty

end State

end MoreCpp.Vector
