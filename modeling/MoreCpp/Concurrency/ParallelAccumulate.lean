import Mathlib.Algebra.BigOperators.Group.List.Basic
import Mathlib.Data.List.Nodup

/-!
`parallel_accumulate` of `concurrency/accumulate.cpp`. `T{}` is zero. A distance is
below 2^63, so that no `unsigned long` wraps around. Each block is accumulated into
a result that no other thread touches, so that running a block is one step; the
blocks run in any order.
-/

namespace MoreCpp.ParallelAccumulate

variable {T : Type*} [AddMonoid T]

/-- `std::accumulate`. -/
def accumulate (values : List T) (init : T) : T := values.foldl (· + ·) init

/-- The positions from the first to before the second. -/
abbrev Block := Nat × Nat

def Block.values (block : Block) (list : List T) : List T :=
  (list.drop block.1).take (block.2 - block.1)

def minPerThread : Nat := 25

def maxThreads (length : Nat) : Nat := (length + minPerThread - 1) / minPerThread

def numThreads (length hardwareThreads : Nat) : Nat :=
  min (if hardwareThreads ≠ 0 then hardwareThreads else 2) (maxThreads length)

def blockSize (length hardwareThreads : Nat) : Nat := length / numThreads length hardwareThreads

/-- The loop that starts the threads: their blocks, and `block_start` after it. -/
def startThreads (blockSize : Nat) : Nat → Nat → List Block × Nat
  | 0, blockStart => ([], blockStart)
  | left + 1, blockStart =>
      let blockEnd := blockStart + blockSize
      let (blocks, blockStart') := startThreads blockSize left blockEnd
      ((blockStart, blockEnd) :: blocks, blockStart')

/-- The blocks of the threads, and last that of the caller. -/
def blocks (length hardwareThreads : Nat) : List Block :=
  let (started, blockStart) :=
    startThreads (blockSize length hardwareThreads) (numThreads length hardwareThreads - 1) 0
  started ++ [(blockStart, length)]

/-- `accumulate_block` into `results[i]`. -/
def accumulateBlock (list : List T) (blocks : List Block) (results : List T) (i : Nat) : List T :=
  match blocks[i]? with
  | some block => results.modify i (accumulate (block.values list))
  | none => results

/-- The blocks run in the order `order`. -/
def parallelAccumulate (hardwareThreads : Nat) (order : List Nat) (list : List T) (init : T) : T :=
  if list.length = 0 then init
  else
    let results := List.replicate (numThreads list.length hardwareThreads) 0
    let results := order.foldl (accumulateBlock list (blocks list.length hardwareThreads)) results
    accumulate results init

theorem accumulate_eq (values : List T) (init : T) :
    accumulate values init = init + values.sum := by
  induction values generalizing init with
  | nil => simp [accumulate]
  | cons value rest ih =>
      have hrest : accumulate (value :: rest) init = accumulate rest (init + value) := rfl
      rw [hrest, ih, List.sum_cons, add_assoc]

section Blocks

variable {length hardwareThreads : Nat}

theorem numThreads_pos (h : 0 < length) : 0 < numThreads length hardwareThreads := by
  rw [numThreads, maxThreads, minPerThread]
  split <;> omega

theorem startThreads_length (blockSize left blockStart : Nat) :
    (startThreads blockSize left blockStart).1.length = left := by
  induction left generalizing blockStart with
  | zero => rfl
  | succ left ih => rw [startThreads, List.length_cons, ih]

theorem startThreads_end (blockSize left blockStart : Nat) :
    (startThreads blockSize left blockStart).2 = blockStart + left * blockSize := by
  induction left generalizing blockStart with
  | zero => simp [startThreads]
  | succ left ih =>
      rw [startThreads, ih, Nat.succ_mul]
      omega

theorem blocks_length (hardwareThreads : Nat) (h : 0 < length) :
    (blocks length hardwareThreads).length = numThreads length hardwareThreads := by
  have hpos : 0 < numThreads length hardwareThreads := numThreads_pos h
  rw [blocks, List.length_append, startThreads_length, List.length_singleton]
  omega

/-- The blocks of the started threads are full, and the caller's block starts where
they end. -/
theorem startThreads_fits (length hardwareThreads : Nat) :
    (numThreads length hardwareThreads - 1) * blockSize length hardwareThreads ≤ length := by
  rw [blockSize]
  exact Nat.le_trans (Nat.mul_le_mul_right _ (Nat.sub_le _ 1)) (Nat.mul_div_le ..)

/-- The positions of a block. -/
def Block.positions (block : Block) : List Nat := List.range' block.1 (block.2 - block.1)

theorem startThreads_positions (blockSize left blockStart : Nat) :
    ((startThreads blockSize left blockStart).1.map Block.positions).flatten =
      List.range' blockStart (left * blockSize) := by
  induction left generalizing blockStart with
  | zero => simp [startThreads]
  | succ left ih =>
      rw [startThreads, List.map_cons, List.flatten_cons, ih, Block.positions,
        Nat.add_sub_cancel_left, List.range'_append_1, Nat.succ_mul, Nat.add_comm blockSize]

/-- The blocks follow each other without a gap, from the first position to the last. -/
theorem blocks_positions (length hardwareThreads : Nat) :
    ((blocks length hardwareThreads).map Block.positions).flatten = List.range length := by
  have hfits := startThreads_fits length hardwareThreads
  rw [blocks, List.map_append, List.flatten_append, startThreads_positions, startThreads_end,
    List.map_singleton, List.flatten_singleton, Block.positions, List.range'_append_1,
    List.range_eq_range']
  congr 1
  omega

end Blocks

section Values

variable (list : List T)

omit [AddMonoid T] in
theorem startThreads_values (blockSize left blockStart : Nat) :
    ((startThreads blockSize left blockStart).1.map (·.values list)).flatten =
      (list.drop blockStart).take (left * blockSize) := by
  induction left generalizing blockStart with
  | zero => simp [startThreads]
  | succ left ih =>
      rw [startThreads, List.map_cons, List.flatten_cons, ih, Block.values,
        Nat.add_sub_cancel_left, Nat.succ_mul, Nat.add_comm (left * blockSize), List.take_add,
        List.drop_drop]

omit [AddMonoid T] in
theorem blocks_values (hardwareThreads : Nat) :
    ((blocks list.length hardwareThreads).map (·.values list)).flatten = list := by
  rw [blocks, List.map_append, List.flatten_append, startThreads_values, startThreads_end,
    List.map_singleton, List.flatten_singleton, Block.values, List.drop_zero, Nat.zero_add,
    ← List.length_drop, List.take_length, List.take_append_drop]

end Values

section Order

variable {list : List T} {blocks : List Block}

theorem accumulateBlock_length (results : List T) (i : Nat) :
    (accumulateBlock list blocks results i).length = results.length := by
  rw [accumulateBlock]
  split
  · exact List.length_modify ..
  · rfl

theorem accumulateBlock_of_ne {results : List T} {i j : Nat} (h : i ≠ j) :
    (accumulateBlock list blocks results i)[j]? = results[j]? := by
  rw [accumulateBlock]
  split
  · exact List.getElem?_modify_ne _ _ h
  · rfl

theorem accumulateBlock_self {results : List T} {i : Nat} {block : Block}
    (hblock : blocks[i]? = some block) :
    (accumulateBlock list blocks results i)[i]? =
      results[i]?.map (accumulate (block.values list)) := by
  rw [accumulateBlock, hblock]
  exact List.getElem?_modify_eq ..

/-- Blocks that run in any order, none of them twice, are accumulated once each. -/
theorem getElem?_run {order : List Nat} (horder : order.Nodup) (results : List T) {j : Nat}
    {block : Block} (hblock : blocks[j]? = some block) :
    (order.foldl (accumulateBlock list blocks) results)[j]? =
      if j ∈ order then results[j]?.map (accumulate (block.values list)) else results[j]? := by
  induction order generalizing results with
  | nil => rfl
  | cons i rest ih =>
      obtain ⟨hi, hrest⟩ := List.nodup_cons.mp horder
      rw [List.foldl_cons, ih hrest]
      rcases eq_or_ne i j with rfl | hne
      · rw [if_neg hi, if_pos (List.mem_cons_self ..), accumulateBlock_self hblock]
      · simp only [accumulateBlock_of_ne hne, List.mem_cons, Ne.symm hne, false_or]

theorem run_length (order : List Nat) (results : List T) :
    (order.foldl (accumulateBlock list blocks) results).length = results.length := by
  induction order generalizing results with
  | nil => rfl
  | cons i rest ih => rw [List.foldl_cons, ih, accumulateBlock_length]

/-- After all blocks have run, each result is the sum of its block. -/
theorem run_eq {order : List Nat} (horder : order.Perm (List.range blocks.length)) :
    order.foldl (accumulateBlock list blocks) (List.replicate blocks.length 0) =
      blocks.map fun block => (block.values list).sum := by
  apply List.ext_getElem?
  intro j
  by_cases hj : j < blocks.length
  · have hblock := List.getElem?_eq_getElem hj
    have hmem : j ∈ order := horder.mem_iff.mpr (List.mem_range.mpr hj)
    rw [getElem?_run (horder.nodup_iff.mpr List.nodup_range) _ hblock, if_pos hmem,
      List.getElem?_replicate, if_pos hj, List.getElem?_map, hblock]
    simp only [Option.map_some, accumulate_eq, zero_add]
  · rw [List.getElem?_eq_none (by rw [run_length, List.length_replicate]; omega),
      List.getElem?_eq_none (by rw [List.length_map]; omega)]

end Order

/-- For every associative operation with `T{}` as its identity, commutative or not,
every value that `hardware_concurrency` may return and every order in which the
blocks run, `parallel_accumulate` is `std::accumulate`. The blocks have just the
positions of the list, one after the other. -/
theorem parallelAccumulate_eq (hardwareThreads : Nat) (list : List T) (init : T)
    {order : List Nat}
    (horder : order.Perm (List.range (blocks list.length hardwareThreads).length)) :
    parallelAccumulate hardwareThreads order list init = accumulate list init ∧
      ((blocks list.length hardwareThreads).map Block.positions).flatten =
        List.range list.length := by
  refine ⟨?_, blocks_positions list.length hardwareThreads⟩
  by_cases hempty : list.length = 0
  · rw [parallelAccumulate, if_pos hempty, List.length_eq_zero_iff.mp hempty]
    rfl
  · have hlength := blocks_length hardwareThreads (Nat.pos_of_ne_zero hempty)
    rw [parallelAccumulate, if_neg hempty, ← hlength]
    change accumulate (order.foldl (accumulateBlock list _) (List.replicate _ 0)) init = _
    have hsums : ((blocks list.length hardwareThreads).map fun block => (block.values list).sum) =
        ((blocks list.length hardwareThreads).map (·.values list)).map List.sum :=
      (List.map_map ..).symm
    rw [run_eq horder, accumulate_eq, accumulate_eq, hsums, ← List.sum_flatten, blocks_values]

/-- Fifty values in two blocks, of which the second runs first. -/
theorem parallelAccumulate_eq_two :
    parallelAccumulate 8 [1, 0] (List.replicate 50 (1 : Nat)) 7 = 57 := by
  have horder :
      [1, 0].Perm (List.range (blocks (List.replicate 50 (1 : Nat)).length 8).length) := by
    decide
  rw [(parallelAccumulate_eq 8 _ 7 horder).1]
  rfl

end MoreCpp.ParallelAccumulate
