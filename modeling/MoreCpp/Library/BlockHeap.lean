import Mathlib.Data.List.TakeDrop
import Mathlib.Data.List.Nodup
import Mathlib.Logic.Function.Basic

/-!
Arrays of `new[]`, which `delete[]` frees, and copies of some of their cells. An
array is known by the number of its allocation. A cell that was not written yet
is `none`; `none` instead of a heap is undefined behaviour.
-/

namespace MoreCpp.Library

variable {α : Type*}

/-- The cells from `offset` on are overwritten. -/
def blit (cells : List α) (offset : Nat) (values : List α) : List α :=
  cells.take offset ++ values ++ cells.drop (offset + values.length)

theorem blit_length {cells values : List α} {offset : Nat}
    (h : offset + values.length ≤ cells.length) :
    (blit cells offset values).length = cells.length := by
  simp only [blit, List.length_append, List.length_take, List.length_drop]
  omega

theorem blit_append (before mid after values : List α) (h : values.length = mid.length) :
    blit (before ++ (mid ++ after)) before.length values = before ++ (values ++ after) := by
  rw [blit, List.take_left, h, ← List.append_assoc before mid, ← List.length_append,
    List.drop_left, List.append_assoc]

/-- All cells are overwritten. -/
theorem blit_all {cells values : List α} (h : values.length = cells.length) :
    blit cells 0 values = values := by
  have hall := blit_append [] cells [] values h
  rwa [List.append_nil, List.append_nil] at hall

/-- The cells before the end of some are overwritten like those cells alone. -/
theorem blit_take {cells values : List α} {offset n : Nat} (h : offset + values.length ≤ n)
    (hn : n ≤ cells.length) :
    (blit cells offset values).take n = blit (cells.take n) offset values := by
  have hsplit : cells = cells.take n ++ cells.drop n := (List.take_append_drop n cells).symm
  have hlength : (cells.take n).length = n := List.length_take_of_le hn
  have hblit : blit cells offset values =
      blit (cells.take n) offset values ++ cells.drop n := by
    conv_lhs => rw [hsplit]
    rw [blit, List.take_append_of_le_length (by omega), List.drop_append_of_le_length (by omega)]
    simp only [blit, List.append_assoc]
  rw [hblit, List.take_left' ((blit_length (by omega)).trans hlength)]

structure BlockHeap (α : Type*) where
  /-- The arrays not freed yet. -/
  blocks : Nat → Option (List (Option α))
  made : Nat
  freed : List Nat

namespace BlockHeap

def empty (α : Type*) : BlockHeap α := ⟨fun _ => none, 0, []⟩

/-- A new array, known as the number `h.made`. -/
def allocate (h : BlockHeap α) (n : Nat) : BlockHeap α :=
  { h with blocks := Function.update h.blocks h.made (some (.replicate n none)), made := h.made + 1 }

def free (h : BlockHeap α) (block : Nat) : Option (BlockHeap α) :=
  (h.blocks block).map fun _ =>
    { h with blocks := Function.update h.blocks block none, freed := h.freed ++ [block] }

/-- `delete[]`, of a null pointer too. -/
def delete (h : BlockHeap α) : Option Nat → Option (BlockHeap α)
  | none => some h
  | some block => h.free block

def store (h : BlockHeap α) (block : Nat) (cells : List (Option α)) : BlockHeap α :=
  { h with blocks := Function.update h.blocks block (some cells) }

theorem exists_free {h : BlockHeap α} {block : Nat} {cells : List (Option α)}
    (hblock : h.blocks block = some cells) : ∃ h', h.free block = some h' := by
  rw [free, hblock]
  exact ⟨_, rfl⟩

theorem free_blocks {h h' : BlockHeap α} {block other : Nat} (hfree : h.free block = some h')
    (hne : other ≠ block) : h'.blocks other = h.blocks other := by
  obtain ⟨cells, -, rfl⟩ := Option.map_eq_some_iff.mp hfree
  exact Function.update_of_ne hne ..

/-- Every array made is outstanding or was freed once. -/
structure Balanced (h : BlockHeap α) : Prop where
  outstanding : ∀ block, (h.blocks block).isSome ↔ block < h.made ∧ block ∉ h.freed
  nodup : h.freed.Nodup
  old : ∀ block ∈ h.freed, block < h.made

namespace Balanced

variable {h h' : BlockHeap α} {block : Nat}

theorem empty : Balanced (BlockHeap.empty α) where
  outstanding block := by simp [BlockHeap.empty]
  nodup := List.nodup_nil
  old := nofun

theorem fresh (hb : Balanced h) : h.blocks h.made = none := by
  cases hcell : h.blocks h.made with
  | none => rfl
  | some cells =>
      have hlt := ((hb.outstanding h.made).mp (by rw [hcell]; rfl)).1
      omega

theorem allocate (hb : Balanced h) (n : Nat) : Balanced (h.allocate n) where
  outstanding block := by
    rcases eq_or_ne block h.made with rfl | hne
    · have hnew : h.made ∉ h.freed := fun hmem => Nat.lt_irrefl _ (hb.old _ hmem)
      simp [BlockHeap.allocate, hnew]
    · have hlt : block < h.made + 1 ↔ block < h.made := by omega
      simp only [BlockHeap.allocate, Function.update_of_ne hne, hlt]
      exact hb.outstanding block
  nodup := hb.nodup
  old block hmem := Nat.lt_succ_of_lt (hb.old block hmem)

theorem free (hb : Balanced h) (hfree : h.free block = some h') : Balanced h' := by
  obtain ⟨cells, hcells, rfl⟩ := Option.map_eq_some_iff.mp hfree
  obtain ⟨hlt, hnew⟩ := (hb.outstanding block).mp (by rw [hcells]; rfl)
  refine ⟨fun other => ?_, ?_, fun other hmem => ?_⟩
  · rcases eq_or_ne other block with rfl | hne
    · simp
    · simp only [Function.update_of_ne hne, List.mem_append, List.mem_singleton, hne, or_false]
      exact hb.outstanding other
  · exact List.nodup_append.mpr ⟨hb.nodup, List.nodup_singleton _, fun a ha b hb' hab =>
      hnew (List.mem_singleton.mp hb' ▸ hab ▸ ha)⟩
  · rcases List.mem_append.mp hmem with hold | hlast
    · exact hb.old other hold
    · exact List.mem_singleton.mp hlast ▸ hlt

theorem store (hb : Balanced h) {cells : List (Option α)} (hblock : (h.blocks block).isSome) :
    Balanced (h.store block cells) where
  outstanding other := by
    rcases eq_or_ne other block with rfl | hne
    · simp only [BlockHeap.store, Function.update_self, Option.isSome_some, true_iff]
      exact (hb.outstanding other).mp hblock
    · simp only [BlockHeap.store, Function.update_of_ne hne]
      exact hb.outstanding other
  nodup := hb.nodup
  old := hb.old

/-- When no array is outstanding, every array made was freed exactly once. -/
theorem freed_perm (hb : Balanced h) (hnone : ∀ block, h.blocks block = none) :
    h.freed.Perm (List.range h.made) := by
  apply (List.perm_ext_iff_of_nodup hb.nodup List.nodup_range).mpr
  intro block
  rw [List.mem_range]
  refine ⟨hb.old block, fun hlt => ?_⟩
  by_contra hnew
  have hsome := (hb.outstanding block).mpr ⟨hlt, hnew⟩
  rw [hnone] at hsome
  cases hsome

end Balanced

/-- An owner gives up the array `old`, if any, for `new`, which may be the same one, and
no other array changes. -/
structure Exchanged (h h' : BlockHeap α) (old new : Option Nat) : Prop where
  kept : ∀ b, old ≠ some b → new ≠ some b → h'.blocks b = h.blocks b
  gone : ∀ b, old = some b → new ≠ some b → h'.blocks b = none
  fresh : ∀ b, new = some b → old = some b ∨ h.blocks b = none

namespace Exchanged

variable {h h' h'' : BlockHeap α} {old new : Option Nat} {b : Nat}

theorem refl (h : BlockHeap α) (old : Option Nat) : Exchanged h h old old where
  kept _ _ _ := rfl
  gone _ hold hnew := absurd hold hnew
  fresh _ hnew := .inl hnew

theorem allocate (hb : Balanced h) (n : Nat) : Exchanged h (h.allocate n) none (some h.made) where
  kept _ _ hnew := Function.update_of_ne (fun heq => hnew (congrArg some heq.symm)) ..
  gone _ hold _ := nomatch hold
  fresh _ hnew := .inr (Option.some.inj hnew ▸ hb.fresh)

theorem store (he : Exchanged h h' old (some b)) (cells : List (Option α)) :
    Exchanged h (h'.store b cells) old (some b) where
  kept other hold hnew := by
    have hne : other ≠ b := fun heq => hnew (congrArg some heq.symm)
    exact (Function.update_of_ne hne ..).trans (he.kept other hold hnew)
  gone other hold hnew := by
    have hne : other ≠ b := fun heq => hnew (congrArg some heq.symm)
    exact (Function.update_of_ne hne ..).trans (he.gone other hold hnew)
  fresh := he.fresh

/-- The owner of `b` has made the new array before it frees `b`. -/
theorem free (he : Exchanged h h' none new) (hfree : h'.free b = some h'') :
    Exchanged h h'' (some b) new := by
  obtain ⟨cells, -, rfl⟩ := Option.map_eq_some_iff.mp hfree
  refine ⟨fun other hold hnew => ?_, fun other hold _ => ?_, fun other hnew => ?_⟩
  · have hne : other ≠ b := fun heq => hold (congrArg some heq.symm)
    exact (Function.update_of_ne hne ..).trans (he.kept other nofun hnew)
  · obtain rfl := Option.some.inj hold
    exact Function.update_self ..
  · exact .inr ((he.fresh other hnew).resolve_left nofun)

end Exchanged

end BlockHeap

end MoreCpp.Library
