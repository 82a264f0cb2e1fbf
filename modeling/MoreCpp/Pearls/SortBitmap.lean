import MoreCpp.Pearls.BitVector
import Mathlib.Data.List.Sort

/-!
`bitmap_sort` and `std_sort_v` of `pearls/sort_bitmap.cpp`.
-/

namespace MoreCpp

open Library

namespace SortBitmap

open BitVector

/-- `MAX_VALUE`. -/
def maxValue : UInt32 := 10000000

/-- A turn of the loop over the bits. -/
def collect (out : List UInt32) (i : UInt32) : Call (List UInt32) := do
  if ← test i.toUInt64 then
    return out ++ [i]
  else
    return out

/-- `i = 0, 1, ..., n - 1`. -/
def indices (n : UInt32) : List UInt32 := (List.range n.toNat).map UInt32.ofNat

/-- The body of `bitmap_sort`, with the number of bits. -/
def sortBits (n : UInt32) (input : List UInt32) : Except Fault (List UInt32) :=
  let calls : Call (List UInt32) := do
    input.forM fun x => BitVector.set x.toUInt64
    (indices n).foldlM collect []
  match calls.run (make n.toUInt64) with
  | .ok out _ => .ok out
  | .error fault _ => .error fault

def bitmapSort (input : List UInt32) : Except Fault (List UInt32) := sortBits maxValue input

def stdSortV (input : List UInt32) : List UInt32 := input.mergeSort fun a b => a ≤ b

/-! ## Setting the bits -/

variable {b : BitVector} {input out : List UInt32}

theorem forM_set_spec (hb : Sized b) (hinput : ∀ x ∈ input, x.toUInt64 < b.nbits) :
    ∃ b', (input.forM fun x => BitVector.set x.toUInt64).run b = .ok () b' ∧
      b'.nbits = b.nbits ∧ Sized b' ∧
      ∀ j, j ∈ members b' ↔ j ∈ members b ∨ ∃ x ∈ input, x.toNat = j := by
  induction input generalizing b with
  | nil => exact ⟨b, rfl, rfl, hb, fun j => by simp⟩
  | cons x input ih =>
      obtain ⟨hx, hrest⟩ := List.forall_mem_cons.mp hinput
      obtain ⟨mid, hset, hsame, hmid, hmembers⟩ := set_spec hb hx
      obtain ⟨b', hrun, hsame', hb', hall⟩ := ih hmid fun y hy => hsame ▸ hrest y hy
      refine ⟨b', ?_, hsame'.trans hsame, hb', fun j => ?_⟩
      · rw [List.forM, EStateM.run_bind, hset]
        exact hrun
      · rw [hall, hmembers, Finset.mem_insert, List.exists_mem_cons_iff, or_assoc, or_left_comm,
          eq_comm, UInt32.toNat_toUInt64]

/-! ## Reading them -/

theorem foldlM_collect (hb : Sized b) {l : List UInt32} (hl : ∀ i ∈ l, i.toUInt64 < b.nbits) :
    (l.foldlM collect out).run b = .ok (out ++ l.filter fun i => i.toNat ∈ members b) b := by
  induction l generalizing out with
  | nil => rw [List.filter_nil, List.append_nil]; rfl
  | cons i l ih =>
      obtain ⟨hi, hrest⟩ := List.forall_mem_cons.mp hl
      have htest := test_spec hb hi
      rw [UInt32.toNat_toUInt64] at htest
      rw [List.foldlM_cons, EStateM.run_bind, collect, EStateM.run_bind, htest]
      by_cases hmem : i.toNat ∈ members b
      · simp [hmem, ih hrest]
      · simp [hmem, ih hrest]

theorem mem_indices {n i : UInt32} : i ∈ indices n ↔ i < n := by
  have hn := n.toNat_lt
  rw [indices, List.mem_map, UInt32.lt_iff_toNat_lt]
  constructor
  · rintro ⟨k, hk, rfl⟩
    have hlt := List.mem_range.mp hk
    rwa [UInt32.toNat_ofNat_of_lt' (hlt.trans hn)]
  · exact fun hi => ⟨i.toNat, List.mem_range.mpr hi, UInt32.ofNat_toNat⟩

theorem pairwise_indices (n : UInt32) : (indices n).Pairwise (· < ·) := by
  have hn := n.toNat_lt
  refine List.pairwise_map.mpr (List.pairwise_lt_range.imp_of_mem fun {a b} ha hb hab => ?_)
  have ha' := (List.mem_range.mp ha).trans hn
  have hb' := (List.mem_range.mp hb).trans hn
  rwa [UInt32.lt_iff_toNat_lt, UInt32.toNat_ofNat_of_lt' ha', UInt32.toNat_ofNat_of_lt' hb']

/-! ## The two sorts -/

/-- The values that occur in the input, each of them once and in ascending order. -/
theorem sortBits_spec (n : UInt32) (hinput : ∀ x ∈ input, x < n) :
    ∃ out, sortBits n input = .ok out ∧ out.Pairwise (· < ·) ∧ ∀ x, x ∈ out ↔ x ∈ input := by
  have hsized : Sized (make n.toUInt64) := by
    have hlt := n.toNat_lt
    apply sized_make
    rw [UInt32.toNat_toUInt64]
    omega
  have hbits : ∀ x : UInt32, x < n → x.toUInt64 < n.toUInt64 := fun x hx =>
    UInt64.lt_iff_toNat_lt.mpr (UInt32.lt_iff_toNat_lt.mp hx)
  obtain ⟨b, hset, hsame, hb, hmembers⟩ := forM_set_spec hsized fun x hx => hbits x (hinput x hx)
  have hread : ((indices n).foldlM collect []).run b =
      .ok ([] ++ (indices n).filter fun i => i.toNat ∈ members b) b :=
    foldlM_collect hb fun i hi => by
      rw [hsame]
      exact hbits i (mem_indices.mp hi)
  refine ⟨(indices n).filter fun i => i.toNat ∈ members b, ?_, (pairwise_indices n).filter _,
    fun x => ?_⟩
  · rw [sortBits, EStateM.run_bind, hset]
    simp only [hread, List.nil_append]
  · rw [List.mem_filter, mem_indices, decide_eq_true_eq, hmembers, members_make]
    constructor
    · rintro ⟨-, hnone | ⟨y, hy, heq⟩⟩
      · exact absurd hnone (Finset.notMem_empty _)
      · rwa [← UInt32.toNat_inj.mp heq]
    · exact fun hx => ⟨hinput x hx, .inr ⟨x, hx, rfl⟩⟩

theorem pairwise_stdSortV (input : List UInt32) : (stdSortV input).Pairwise (· ≤ ·) := by
  have hsorted : (stdSortV input).Pairwise fun a b => (decide (a ≤ b) : Bool) := by
    apply List.pairwise_mergeSort
    · intro a b c hab hbc
      rw [decide_eq_true_eq] at hab hbc ⊢
      exact UInt32.le_trans hab hbc
    · intro a b
      rw [Bool.or_eq_true, decide_eq_true_eq, decide_eq_true_eq]
      exact UInt32.le_total a b
  exact hsorted.imp fun hab => of_decide_eq_true hab

/-- The bitmap drops repetitions, so it agrees with the other sort on lists that have none. -/
theorem bitmapSort_eq (input : List UInt32) (hinput : ∀ x ∈ input, x < maxValue) :
    ∃ out, bitmapSort input = .ok out ∧ out.Pairwise (· < ·) ∧ (∀ x, x ∈ out ↔ x ∈ input) ∧
      (out = stdSortV input ↔ input.Nodup) := by
  obtain ⟨out, hrun, hsorted, hmem⟩ := sortBits_spec maxValue hinput
  have hperm : (stdSortV input).Perm input := List.mergeSort_perm input _
  have hnodup : out.Nodup := hsorted.imp fun hab => UInt32.ne_of_lt hab
  refine ⟨out, hrun, hsorted, hmem, fun heq => hperm.nodup_iff.mp (heq ▸ hnodup), fun hin => ?_⟩
  have hsame : out.Perm (stdSortV input) :=
    ((List.perm_ext_iff_of_nodup hnodup hin).mpr hmem).trans hperm.symm
  have hle : out.Pairwise (· ≤ ·) := hsorted.imp fun hab => UInt32.le_of_lt hab
  exact hsame.eq_of_pairwise (fun a b _ _ => UInt32.le_antisymm) hle (pairwise_stdSortV input)

theorem bitmapSort_eq_three : ∃ out, bitmapSort [64, 3, 64] = .ok out ∧ out.Pairwise (· < ·) ∧
    (∀ x, x ∈ out ↔ x ∈ ([64, 3, 64] : List UInt32)) ∧
    (out = stdSortV [64, 3, 64] ↔ ([64, 3, 64] : List UInt32).Nodup) :=
  bitmapSort_eq [64, 3, 64] (by simp [maxValue])

end SortBitmap

end MoreCpp
