import Mathlib.Data.List.Nodup
import Mathlib.Data.List.Perm.Subperm
import Mathlib.Logic.Function.Basic
import Mathlib.Tactic.Simps.Basic

/-!
Raw storage with object lifetimes, and its ledger. A block is an allocation of
a number of slots; an object is constructed in a slot and lives there until it
is destroyed. Objects and blocks are known by the number of their creation.
Constructing over a live object or outside a block, destroying or reading what
is not alive, and releasing a block that is not outstanding or with another
capacity than it was made with, is misuse.
-/

namespace MoreCpp.Library

structure Object (V : Type*) where
  id : Nat
  value : V

/-- A slot: a block and an index in it. -/
abbrev Slot := Nat × Nat

structure Storage (V : Type*) where
  /-- The capacity of each outstanding block. -/
  blocks : Nat → Option Nat
  slots : Slot → Option (Object V)
  nextBlock : Nat
  nextObject : Nat
  /-- Blocks made and released, with the capacity given each time. -/
  allocated : List (Nat × Nat)
  released : List (Nat × Nat)
  /-- Objects destroyed. -/
  destroyed : List Nat
  misused : Bool

namespace Storage

variable {V : Type*}

def empty (V : Type*) : Storage V where
  blocks := fun _ => none
  slots := fun _ => none
  nextBlock := 0
  nextObject := 0
  allocated := []
  released := []
  destroyed := []
  misused := false

def misuse (m : Storage V) : Storage V := { m with misused := true }

/-- A new block of `n` slots, known as the number `m.nextBlock`. -/
@[simps] def allocate (m : Storage V) (n : Nat) : Storage V :=
  { m with
    blocks := Function.update m.blocks m.nextBlock (some n)
    nextBlock := m.nextBlock + 1
    allocated := m.allocated ++ [(m.nextBlock, n)] }

def release (m : Storage V) (block n : Nat) : Storage V :=
  if m.blocks block = some n then
    { m with
      blocks := Function.update m.blocks block none
      released := m.released ++ [(block, n)] }
  else m.misuse

/-- The slot is inside an outstanding block. -/
def InBounds (m : Storage V) (slot : Slot) : Prop := ∃ n, m.blocks slot.1 = some n ∧ slot.2 < n

instance (m : Storage V) (slot : Slot) : Decidable (m.InBounds slot) :=
  match h : m.blocks slot.1 with
  | none => isFalse (by simp [InBounds, h])
  | some n => decidable_of_iff (slot.2 < n) (by simp [InBounds, h])

def construct (m : Storage V) (slot : Slot) (value : V) : Storage V :=
  if m.InBounds slot ∧ (m.slots slot).isNone then
    { m with
      slots := Function.update m.slots slot (some ⟨m.nextObject, value⟩)
      nextObject := m.nextObject + 1 }
  else m.misuse

def destroy (m : Storage V) (slot : Slot) : Storage V :=
  match m.slots slot with
  | some object =>
      { m with
        slots := Function.update m.slots slot none
        destroyed := m.destroyed ++ [object.id] }
  | none => m.misuse

/-- Give each live object of a block with index below `n` a new value. -/
@[simps] def assign (m : Storage V) (block n : Nat) (change : Nat → V → V) : Storage V :=
  { m with
    slots := fun slot => (m.slots slot).map fun object =>
      if slot.1 = block ∧ slot.2 < n then ⟨object.id, change slot.2 object.value⟩ else object }

def value? (m : Storage V) (slot : Slot) : Option V := (m.slots slot).map Object.value

section Effects

variable {m : Storage V} {block n : Nat} {slot : Slot} {value : V}

theorem release_eq (h : m.blocks block = some n) :
    m.release block n = { m with
      blocks := Function.update m.blocks block none
      released := m.released ++ [(block, n)] } :=
  if_pos h

theorem construct_eq (hbounds : m.InBounds slot) (hfree : m.slots slot = none) :
    m.construct slot value = { m with
      slots := Function.update m.slots slot (some ⟨m.nextObject, value⟩)
      nextObject := m.nextObject + 1 } :=
  if_pos ⟨hbounds, by rw [hfree]; rfl⟩

theorem destroy_eq {object : Object V} (h : m.slots slot = some object) :
    m.destroy slot = { m with
      slots := Function.update m.slots slot none
      destroyed := m.destroyed ++ [object.id] } := by
  rw [destroy, h]

/-- Which slots are alive does not depend on the values. -/
theorem assign_isSome (m : Storage V) (block n : Nat) (change : Nat → V → V) (slot : Slot) :
    ((m.assign block n change).slots slot).isSome = (m.slots slot).isSome := by
  simp

/-- Other slots do not notice a construction, nor a destruction, nor a release. -/
theorem construct_slots_of_ne {p : Slot} (hne : p ≠ slot) :
    (m.construct slot value).slots p = m.slots p := by
  unfold construct
  split
  · exact Function.update_of_ne hne _ _
  · rfl

theorem destroy_slots_of_ne {p : Slot} (hne : p ≠ slot) :
    (m.destroy slot).slots p = m.slots p := by
  unfold destroy
  split
  · exact Function.update_of_ne hne _ _
  · rfl

theorem release_slots : (m.release block n).slots = m.slots := by
  unfold release
  split <;> rfl

/-- Only a construction makes an object. -/
theorem destroy_nextObject : (m.destroy slot).nextObject = m.nextObject := by
  unfold destroy
  split <;> rfl

theorem release_nextObject : (m.release block n).nextObject = m.nextObject := by
  unfold release
  split <;> rfl

/-- Assigning to each object the value it has. -/
theorem assign_slots_eq {change : Nat → V → V}
    (hkeep : ∀ i v, i < n → m.value? (block, i) = some v → change i v = v) :
    (m.assign block n change).slots = m.slots := by
  funext p
  rw [assign_slots]
  cases hslot : m.slots p with
  | none => rfl
  | some object =>
      rw [Option.map_some]
      split
      case isFalse => rfl
      case isTrue hin =>
        obtain ⟨b, i⟩ := p
        obtain ⟨rfl, hi⟩ := hin
        rw [hkeep i object.value hi (by rw [value?, hslot]; rfl)]

end Effects

/-- The books: every object made is alive in one slot or was destroyed once,
and every block made is outstanding or was released once, with its capacity. -/
structure Balanced (m : Storage V) : Prop where
  destroyed_nodup : m.destroyed.Nodup
  destroyed_lt : ∀ id ∈ m.destroyed, id < m.nextObject
  alive_lt : ∀ slot object, m.slots slot = some object → object.id < m.nextObject
  alive_not_destroyed : ∀ slot object, m.slots slot = some object → object.id ∉ m.destroyed
  alive_unique : ∀ slot slot' object object', m.slots slot = some object →
    m.slots slot' = some object' → object.id = object'.id → slot = slot'
  object_accounted : ∀ id, id < m.nextObject →
    id ∈ m.destroyed ∨ ∃ slot object, m.slots slot = some object ∧ object.id = id
  allocated_nodup : (m.allocated.map Prod.fst).Nodup
  allocated_lt : ∀ entry ∈ m.allocated, entry.1 < m.nextBlock
  released_nodup : m.released.Nodup
  released_allocated : ∀ entry ∈ m.released, entry ∈ m.allocated
  outstanding : ∀ block n, m.blocks block = some n ↔
    (block, n) ∈ m.allocated ∧ (block, n) ∉ m.released

namespace Balanced

theorem empty : Balanced (Storage.empty V) := by
  constructor <;> simp [Storage.empty]

variable {m : Storage V}

theorem misuse (h : Balanced m) : Balanced m.misuse := { h with }

theorem allocate (h : Balanced m) (n : Nat) : Balanced (m.allocate n) := by
  have hnew : ∀ k, (m.nextBlock, k) ∉ m.allocated := fun k hmem =>
    Nat.lt_irrefl _ (h.allocated_lt _ hmem)
  refine { h with
    allocated_nodup := ?nodup, allocated_lt := ?lt, released_allocated := ?released,
    outstanding := ?outstanding }
  case nodup =>
    rw [allocate_allocated, List.map_append]
    apply h.allocated_nodup.append (List.nodup_singleton _)
    intro block hmem hlast
    obtain rfl := List.mem_singleton.mp hlast
    obtain ⟨⟨block, k⟩, hentry, rfl⟩ := List.mem_map.mp hmem
    exact hnew k hentry
  case lt =>
    intro entry hmem
    rw [allocate_nextBlock]
    rcases List.mem_append.mp hmem with hold | hlast
    · exact Nat.lt_succ_of_lt (h.allocated_lt entry hold)
    · obtain rfl := List.mem_singleton.mp hlast
      exact Nat.lt_succ_self _
  case released =>
    exact fun entry hmem => List.mem_append_left _ (h.released_allocated entry hmem)
  case outstanding =>
    intro block k
    rw [allocate_blocks, allocate_allocated, allocate_released, List.mem_append,
      List.mem_singleton]
    rcases eq_or_ne block m.nextBlock with rfl | hne
    · rw [Function.update_self]
      constructor
      · intro heq
        obtain rfl := Option.some.inj heq
        exact ⟨.inr rfl, fun hmem => hnew n (h.released_allocated _ hmem)⟩
      · rintro ⟨hold | hlast, -⟩
        · exact absurd hold (hnew k)
        · rw [(Prod.mk.inj hlast).2]
    · rw [Function.update_of_ne hne, h.outstanding block k]
      simp [hne]

theorem release (h : Balanced m) (block n : Nat) : Balanced (m.release block n) := by
  cases hblock : decide (m.blocks block = some n) with
  | false =>
      rw [Storage.release, if_neg (of_decide_eq_false hblock)]
      exact h.misuse
  | true =>
      have hsome := of_decide_eq_true hblock
      obtain ⟨hmade, hheld⟩ := (h.outstanding block n).mp hsome
      rw [release_eq hsome]
      refine { h with
        released_nodup := ?nodup, released_allocated := ?released, outstanding := ?outstanding }
      case nodup =>
        apply h.released_nodup.append (List.nodup_singleton _)
        intro entry hmem hlast
        obtain rfl := List.mem_singleton.mp hlast
        exact hheld hmem
      case released =>
        intro entry hmem
        rcases List.mem_append.mp hmem with hold | hlast
        · exact h.released_allocated entry hold
        · obtain rfl := List.mem_singleton.mp hlast
          exact hmade
      case outstanding =>
        intro b k
        change Function.update m.blocks block none b = some k ↔
          (b, k) ∈ m.allocated ∧ (b, k) ∉ m.released ++ [(block, n)]
        rw [List.mem_append, List.mem_singleton, not_or]
        rcases eq_or_ne b block with rfl | hne
        · rw [Function.update_self]
          refine ⟨nofun, ?_⟩
          rintro ⟨hmem, hold, hother⟩
          have hsame := (h.outstanding b k).mpr ⟨hmem, hold⟩
          rw [hsome] at hsame
          exact absurd (by rw [Option.some.inj hsame]) hother
        · rw [Function.update_of_ne hne, h.outstanding b k]
          simp [hne]

theorem construct (h : Balanced m) (slot : Slot) (value : V) :
    Balanced (m.construct slot value) := by
  unfold Storage.construct
  split
  case isFalse => exact h.misuse
  case isTrue hok =>
    have hfree : m.slots slot = none := Option.isNone_iff_eq_none.mp hok.2
    have hcases : ∀ s object, Function.update m.slots slot (some ⟨m.nextObject, value⟩) s =
        some object → s = slot ∧ object.id = m.nextObject ∨
          s ≠ slot ∧ m.slots s = some object := by
      intro s object hs
      rcases eq_or_ne s slot with rfl | hne
      · rw [Function.update_self] at hs
        exact .inl ⟨rfl, by rw [← Option.some.inj hs]⟩
      · rw [Function.update_of_ne hne] at hs
        exact .inr ⟨hne, hs⟩
    refine { h with
      destroyed_lt := fun id hid => Nat.lt_succ_of_lt (h.destroyed_lt id hid)
      alive_lt := ?lt, alive_not_destroyed := ?notDestroyed, alive_unique := ?unique,
      object_accounted := ?accounted }
    case lt =>
      intro s object hs
      rcases hcases s object hs with ⟨-, hid⟩ | ⟨-, hold⟩
      · rw [hid]
        exact Nat.lt_succ_self _
      · exact Nat.lt_succ_of_lt (h.alive_lt s object hold)
    case notDestroyed =>
      intro s object hs
      rcases hcases s object hs with ⟨-, hid⟩ | ⟨-, hold⟩
      · rw [hid]
        exact fun hmem => Nat.lt_irrefl _ (h.destroyed_lt _ hmem)
      · exact h.alive_not_destroyed s object hold
    case unique =>
      intro s s' object object' hs hs' hid
      rcases hcases s object hs with ⟨rfl, hnew⟩ | ⟨-, hold⟩ <;>
        rcases hcases s' object' hs' with ⟨rfl, hnew'⟩ | ⟨-, hold'⟩
      · rfl
      · have hlt := h.alive_lt s' object' hold'
        rw [← hid, hnew] at hlt
        exact absurd hlt (Nat.lt_irrefl _)
      · have hlt := h.alive_lt s object hold
        rw [hid, hnew'] at hlt
        exact absurd hlt (Nat.lt_irrefl _)
      · exact h.alive_unique s s' object object' hold hold' hid
    case accounted =>
      intro id hid
      rcases Nat.lt_succ_iff_lt_or_eq.mp hid with hold | rfl
      · rcases h.object_accounted id hold with hdone | ⟨s, object, hs, hobject⟩
        · exact .inl hdone
        · have hne : s ≠ slot := by
            rintro rfl
            rw [hfree] at hs
            cases hs
          exact .inr ⟨s, object, (Function.update_of_ne hne _ _).trans hs, hobject⟩
      · exact .inr ⟨slot, _, Function.update_self _ _ _, rfl⟩

theorem destroy (h : Balanced m) (slot : Slot) : Balanced (m.destroy slot) := by
  unfold Storage.destroy
  split
  case h_2 => exact h.misuse
  case h_1 object hslot =>
    have hcases : ∀ s other, Function.update m.slots slot none s = some other →
        s ≠ slot ∧ m.slots s = some other := by
      intro s other hs
      rcases eq_or_ne s slot with rfl | hne
      · rw [Function.update_self] at hs
        cases hs
      · rw [Function.update_of_ne hne] at hs
        exact ⟨hne, hs⟩
    refine { h with
      destroyed_nodup := ?nodup, destroyed_lt := ?lt,
      alive_lt := fun s other hs => h.alive_lt s other (hcases s other hs).2
      alive_not_destroyed := ?notDestroyed
      alive_unique := fun s s' o o' hs hs' =>
        h.alive_unique s s' o o' (hcases s o hs).2 (hcases s' o' hs').2
      object_accounted := ?accounted }
    case nodup =>
      apply h.destroyed_nodup.append (List.nodup_singleton _)
      intro id hmem hlast
      obtain rfl := List.mem_singleton.mp hlast
      exact h.alive_not_destroyed slot object hslot hmem
    case lt =>
      intro id hmem
      rcases List.mem_append.mp hmem with hold | hlast
      · exact h.destroyed_lt id hold
      · obtain rfl := List.mem_singleton.mp hlast
        exact h.alive_lt slot object hslot
    case notDestroyed =>
      intro s other hs hmem
      obtain ⟨hne, hold⟩ := hcases s other hs
      rcases List.mem_append.mp hmem with hdone | hlast
      · exact h.alive_not_destroyed s other hold hdone
      · exact hne (h.alive_unique s slot other object hold hslot (List.mem_singleton.mp hlast))
    case accounted =>
      intro id hid
      rcases h.object_accounted id hid with hdone | ⟨s, other, hs, rfl⟩
      · exact .inl (List.mem_append_left _ hdone)
      · rcases eq_or_ne s slot with rfl | hne
        · obtain rfl := Option.some.inj (hs.symm.trans hslot)
          exact .inl (List.mem_append_right _ (List.mem_singleton_self _))
        · exact .inr ⟨s, other, (Function.update_of_ne hne _ _).trans hs, rfl⟩

theorem assign (h : Balanced m) (block n : Nat) (change : Nat → V → V) :
    Balanced (m.assign block n change) := by
  have hcases : ∀ s object, (m.assign block n change).slots s = some object →
      ∃ old, m.slots s = some old ∧ old.id = object.id := by
    intro s object hs
    rw [assign_slots, Option.map_eq_some_iff] at hs
    obtain ⟨old, hold, rfl⟩ := hs
    exact ⟨old, hold, by split <;> rfl⟩
  refine { h with
    alive_lt := ?lt, alive_not_destroyed := ?notDestroyed, alive_unique := ?unique,
    object_accounted := ?accounted }
  case lt =>
    intro s object hs
    obtain ⟨old, hold, hid⟩ := hcases s object hs
    exact hid ▸ h.alive_lt s old hold
  case notDestroyed =>
    intro s object hs
    obtain ⟨old, hold, hid⟩ := hcases s object hs
    exact hid ▸ h.alive_not_destroyed s old hold
  case unique =>
    intro s s' object object' hs hs' hsame
    obtain ⟨old, hold, hid⟩ := hcases s object hs
    obtain ⟨old', hold', hid'⟩ := hcases s' object' hs'
    exact h.alive_unique s s' old old' hold hold' (hid.trans (hsame.trans hid'.symm))
  case accounted =>
    intro id hid
    rcases h.object_accounted id hid with hdone | ⟨s, old, hs, rfl⟩
    · exact .inl hdone
    · refine .inr ⟨s, _, by rw [assign_slots, hs]; rfl, ?_⟩
      split <;> rfl

/-- A block is released at most once. -/
theorem released_blocks_nodup (h : Balanced m) : (m.released.map Prod.fst).Nodup := by
  refine List.Nodup.map_on (fun entry hmem entry' hmem' hsame => ?_) h.released_nodup
  exact List.inj_on_of_nodup_map h.allocated_nodup (h.released_allocated entry hmem)
    (h.released_allocated entry' hmem') hsame

/-- When nothing is alive, every object made was destroyed exactly once. -/
theorem destroyed_perm (h : Balanced m) (hdead : ∀ slot, m.slots slot = none) :
    m.destroyed.Perm (List.range m.nextObject) := by
  apply (List.perm_ext_iff_of_nodup h.destroyed_nodup List.nodup_range).mpr
  intro id
  rw [List.mem_range]
  refine ⟨h.destroyed_lt id, fun hid => ?_⟩
  rcases h.object_accounted id hid with hdone | ⟨slot, object, hslot, -⟩
  · exact hdone
  · rw [hdead slot] at hslot
    cases hslot

/-- When no block is outstanding, every block made was released exactly once,
with the capacity it was made with. -/
theorem released_perm (h : Balanced m) (hnone : ∀ block, m.blocks block = none) :
    m.released.Perm m.allocated := by
  apply (List.perm_ext_iff_of_nodup h.released_nodup h.allocated_nodup.of_map).mpr
  intro entry
  refine ⟨h.released_allocated entry, fun hmade => ?_⟩
  by_contra hheld
  have hsome := (h.outstanding entry.1 entry.2).mpr ⟨hmade, hheld⟩
  rw [hnone] at hsome
  cases hsome

end Balanced

/-- The exact contents of a storage that was never misused: which blocks are
outstanding and which slots are alive. -/
structure Holds (m : Storage V) (blocks : Nat → Option Nat) (alive : Slot → Prop) : Prop where
  balanced : m.Balanced
  unmisused : m.misused = false
  blocks_eq : ∀ block, m.blocks block = blocks block
  alive_iff : ∀ slot, (m.slots slot).isSome = true ↔ alive slot

namespace Holds

variable {m : Storage V} {blocks : Nat → Option Nat} {alive alive' : Slot → Prop}
  {block n : Nat} {slot : Slot}

theorem empty : Holds (Storage.empty V) (fun _ => none) fun _ => False where
  balanced := .empty
  unmisused := rfl
  blocks_eq _ := rfl
  alive_iff _ := by simp [Storage.empty]

theorem congr (h : Holds m blocks alive) {blocks' : Nat → Option Nat}
    (hblocks : ∀ block, blocks' block = blocks block)
    (halive : ∀ slot, alive' slot ↔ alive slot) : Holds m blocks' alive' where
  balanced := h.balanced
  unmisused := h.unmisused
  blocks_eq block := (h.blocks_eq block).trans (hblocks block).symm
  alive_iff slot := (h.alive_iff slot).trans (halive slot).symm

theorem object (h : Holds m blocks alive) (halive : alive slot) :
    ∃ object, m.slots slot = some object :=
  Option.isSome_iff_exists.mp ((h.alive_iff slot).mpr halive)

theorem free (h : Holds m blocks alive) (hdead : ¬ alive slot) : m.slots slot = none := by
  rw [← Option.not_isSome_iff_eq_none, h.alive_iff]
  exact hdead

/-- The next block is not in use. -/
theorem fresh (h : Holds m blocks alive) : blocks m.nextBlock = none := by
  cases hblock : blocks m.nextBlock with
  | none => rfl
  | some n =>
      have hmade := ((h.balanced.outstanding _ n).mp ((h.blocks_eq _).trans hblock)).1
      exact absurd (h.balanced.allocated_lt _ hmade) (Nat.lt_irrefl _)

theorem allocate (h : Holds m blocks alive) (n : Nat) :
    Holds (m.allocate n) (Function.update blocks m.nextBlock (some n)) alive where
  balanced := h.balanced.allocate n
  unmisused := h.unmisused
  blocks_eq block := by
    rw [allocate_blocks]
    rcases eq_or_ne block m.nextBlock with rfl | hne
    · rw [Function.update_self, Function.update_self]
    · rw [Function.update_of_ne hne, Function.update_of_ne hne, h.blocks_eq]
  alive_iff := h.alive_iff

theorem release (h : Holds m blocks alive) (hblock : blocks block = some n) :
    Holds (m.release block n) (Function.update blocks block none) alive := by
  have heq := release_eq ((h.blocks_eq block).trans hblock)
  constructor
  case balanced => exact h.balanced.release block n
  case unmisused =>
    rw [heq]
    exact h.unmisused
  case blocks_eq =>
    intro other
    rw [heq]
    rcases eq_or_ne other block with rfl | hne
    · rw [Function.update_self]
      exact Function.update_self ..
    · rw [Function.update_of_ne hne]
      exact (Function.update_of_ne hne _ _).trans (h.blocks_eq other)
  case alive_iff =>
    rw [heq]
    exact h.alive_iff

theorem construct (h : Holds m blocks alive) (hblock : blocks slot.1 = some n)
    (hbounds : slot.2 < n) (hdead : ¬ alive slot) (value : V) :
    Holds (m.construct slot value) blocks fun s => alive s ∨ s = slot := by
  have heq : m.construct slot value = _ :=
    construct_eq ⟨n, (h.blocks_eq _).trans hblock, hbounds⟩ (h.free hdead)
  constructor
  case balanced => exact h.balanced.construct slot value
  case unmisused =>
    rw [heq]
    exact h.unmisused
  case blocks_eq =>
    rw [heq]
    exact h.blocks_eq
  case alive_iff =>
    intro s
    rw [heq]
    change (Function.update m.slots slot _ s).isSome = true ↔ _
    rcases eq_or_ne s slot with rfl | hne
    · simp
    · rw [Function.update_of_ne hne, h.alive_iff]
      simp [hne]

theorem destroy (h : Holds m blocks alive) (slot : Slot) (halive : alive slot) :
    Holds (m.destroy slot) blocks fun s => alive s ∧ s ≠ slot := by
  obtain ⟨object, hobject⟩ := h.object halive
  have heq := destroy_eq hobject
  constructor
  case balanced => exact h.balanced.destroy slot
  case unmisused =>
    rw [heq]
    exact h.unmisused
  case blocks_eq =>
    rw [heq]
    exact h.blocks_eq
  case alive_iff =>
    intro s
    rw [heq]
    change (Function.update m.slots slot none s).isSome = true ↔ _
    rcases eq_or_ne s slot with rfl | hne
    · simp
    · rw [Function.update_of_ne hne, h.alive_iff]
      simp [hne]

theorem assign (h : Holds m blocks alive) (block n : Nat) (change : Nat → V → V) :
    Holds (m.assign block n change) blocks alive where
  balanced := h.balanced.assign block n change
  unmisused := h.unmisused
  blocks_eq := h.blocks_eq
  alive_iff slot := by
    rw [assign_isSome]
    exact h.alive_iff slot

end Holds

end Storage

end MoreCpp.Library
