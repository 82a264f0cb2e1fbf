import MoreCpp.Library.HeapOrder
import MoreCpp.Library.Loop
import Mathlib.Data.Nat.Basic

/-!
`__heapsort` of `data/heapsort.hpp`. A position outside of the vector gives `none`, and
so does a loop that runs out of fuel. The sizes become signed when they are converted
to `int`, so one less than the size of an empty vector is `-1`.
-/

namespace MoreCpp

open Library

namespace Heapsort

variable {T : Type} [LinearOrder T]

def swap (heap : Array T) (i j : Nat) : Option (Array T) :=
  if h : i < heap.size ∧ j < heap.size then some (heap.swap i j h.1 h.2) else none

/-- `if (c < mx && heap[c] > heap[i_big]) i_big = c`, and `i_big` after it. -/
def bigger (heap : Array T) (c mx iBig : Nat) : Option Nat :=
  if c < mx then do
    let x ← heap[c]?
    let y ← heap[iBig]?
    return if x > y then c else iBig
  else some iBig

/-- A turn of the loop of `__shift_down_`. -/
def shiftDownRound (mx : Nat) : Array T × Nat → Option ((Array T × Nat) ⊕ Array T)
  | (heap, i) =>
    if i < mx then do
      let c1 := 2 * i + 1
      let c2 := c1 + 1
      let iBig ← bigger heap c1 mx i
      let iBig ← bigger heap c2 mx iBig
      if iBig = i then
        return .inr heap
      else
        let heap ← swap heap i iBig
        return .inl (heap, iBig)
    else some (.inr heap)

def shiftDown (fuel : Nat) (heap : Array T) (i mx : Nat) : Option (Array T) :=
  loop (shiftDownRound mx) fuel (heap, i)

/-- A turn of the loop of `__to_heap_`. -/
def toHeapRound (fuel : Nat) : Array T × Int → Option ((Array T × Int) ⊕ Array T)
  | (heap, i) =>
    if i ≥ 0 then do
      let heap ← shiftDown fuel heap i.toNat heap.size
      return .inl (heap, i - 1)
    else some (.inr heap)

def toHeap (fuel : Nat) (heap : Array T) : Option (Array T) :=
  loop (toHeapRound fuel) fuel (heap, ((heap.size / 2 : Nat) : Int) - 1)

/-- A turn of the loop of `__heap_sort_`, in which `last` is its `end`. -/
def heapSortRound (fuel : Nat) : Array T × Int → Option ((Array T × Int) ⊕ Array T)
  | (heap, last) =>
    if last > 0 then do
      let heap ← swap heap 0 last.toNat
      let heap ← shiftDown fuel heap 0 last.toNat
      return .inl (heap, last - 1)
    else some (.inr heap)

def heapSort (fuel : Nat) (heap : Array T) : Option (Array T) := do
  let heap ← toHeap fuel heap
  loop (heapSortRound fuel) fuel (heap, (heap.size : Int) - 1)

/-- The constructor, and the `heap` that it leaves. -/
def make (fuel : Nat) (a : Array T) : Option (Array T) := heapSort fuel a

section Rounds

variable {heap : Array T} {c i mx iBig lo fuel : Nat}

omit [LinearOrder T] in
theorem swap_eq (hi : i < heap.size) (hc : c < heap.size) :
    swap heap i c = some (heap.swap i c hi hc) := dif_pos ⟨hi, hc⟩

theorem bigger_spec (hmx : mx ≤ heap.size) (hbig : iBig < mx) :
    ∃ b, bigger heap c mx iBig = some b ∧ (b = iBig ∨ b = c ∧ c < mx) ∧
      AtMost heap iBig b ∧ (c < mx → AtMost heap c b) := by
  unfold bigger
  by_cases hc : c < mx
  · have hx : heap[c]? = some heap[c] := Array.getElem?_eq_getElem (by omega)
    have hy : heap[iBig]? = some heap[iBig] := Array.getElem?_eq_getElem (by omega)
    simp only [if_pos hc, hx, hy, Option.bind_eq_bind, Option.bind_some]
    refine ⟨_, rfl, ?_⟩
    split
    case isTrue hgt =>
      refine ⟨.inr ⟨rfl, hc⟩, ?_, fun _ => AtMost.refl heap c⟩
      intro y x hy' hx'
      cases hx.symm.trans hx'
      cases hy.symm.trans hy'
      exact le_of_lt hgt
    case isFalse hle =>
      refine ⟨.inl rfl, AtMost.refl heap iBig, fun _ => ?_⟩
      intro x y hx' hy'
      cases hx.symm.trans hx'
      cases hy.symm.trans hy'
      exact le_of_not_gt hle
  · rw [if_neg hc]
    exact ⟨iBig, rfl, .inl rfl, AtMost.refl heap iBig, fun hlt => absurd hlt hc⟩

/-- The two comparisons find the greatest of a value and its children. -/
theorem biggest_spec (hmx : mx ≤ heap.size) (hi : i < mx) :
    ∃ b b', bigger heap (2 * i + 1) mx i = some b ∧ bigger heap (2 * i + 1 + 1) mx b = some b' ∧
      (b' = i ∨ IsChild i b' ∧ b' < mx) ∧ AtMost heap i b' ∧
      ∀ c, IsChild i c → c < mx → AtMost heap c b' := by
  obtain ⟨b, hb, hwhich, hself, hfirst⟩ := bigger_spec (c := 2 * i + 1) hmx hi
  have hbmx : b < mx := by omega
  obtain ⟨b', hb', hwhich', hself', hsecond⟩ := bigger_spec (c := 2 * i + 1 + 1) hmx hbmx
  have hsize : b < heap.size := by omega
  refine ⟨b, b', hb, hb', ?_, hself.trans hself' hsize, ?_⟩
  · unfold IsChild
    omega
  · intro c hc hlt
    rcases hc with rfl | rfl
    · exact (hfirst hlt).trans hself' hsize
    · exact hsecond hlt

/-- The heap with one value out of order becomes a heap. -/
theorem shiftDown_spec (h : HeapExcept heap lo mx i) (hlo : lo ≤ i) (hmx : mx ≤ heap.size)
    (hfuel : mx - i < fuel) :
    ∃ heap', shiftDown fuel heap i mx = some heap' ∧ HeapFrom heap' lo mx ∧
      Rearranged mx heap heap' := by
  let Inv : Array T × Nat → Prop := fun (heap', i') =>
    HeapExcept heap' lo mx i' ∧ lo ≤ i' ∧ Rearranged mx heap heap'
  apply loop_total Inv fun s => mx - s.2
  · rintro ⟨heap', i'⟩ ⟨hexcept, hlo', hperm⟩
    have hmx' : mx ≤ heap'.size := by rw [hperm.size_eq]; exact hmx
    rw [shiftDownRound]
    by_cases hi : i' < mx
    · obtain ⟨b, b', hb, hb', hwhich, hself, hgreatest⟩ := biggest_spec hmx' hi
      simp only [if_pos hi, hb, hb', Option.bind_eq_bind, Option.bind_some]
      by_cases heq : b' = i'
      · left
        subst heq
        exact ⟨heap', by simp, hexcept.close hgreatest, hperm⟩
      · right
        obtain ⟨hchild, hlt⟩ := hwhich.resolve_left heq
        have hless := hchild.lt
        have hdown := hexcept.down hlo' hchild hlt hmx' hself hgreatest (by omega)
        have hi' : i' < heap'.size := by omega
        have hb'' : b' < heap'.size := by omega
        have hswap := Rearranged.swap hi' hb'' hi hlt
        have hlo'' : lo ≤ b' := by omega
        have hfall : mx - b' < mx - i' := by omega
        refine ⟨(heap'.swap i' b' hi' hb'', b'), ?_, ⟨hdown, hlo'', hperm.trans hswap⟩, hfall⟩
        rw [if_neg heq, swap_eq hi' hb'']
        rfl
    · left
      refine ⟨heap', by rw [if_neg hi], ?_, hperm⟩
      apply hexcept.close
      intro c hc hcm
      have hlt := hc.lt
      omega
  · exact ⟨h, hlo, Rearranged.refl mx heap⟩
  · exact hfuel

/-- The loop of `__to_heap_` before its turn at `i`. -/
def Building (a : Array T) (s : Array T × Int) : Prop :=
  ∃ k : Nat, s.2 = (k : Int) - 1 ∧ HeapFrom s.1 k s.1.size ∧ s.1.Perm a

theorem building_start (a : Array T) : Building a (a, ((a.size / 2 : Nat) : Int) - 1) := by
  refine ⟨a.size / 2, rfl, ?_, .refl a⟩
  -- the positions in the second half have no children
  intro i c hi hchild hc
  unfold IsChild at hchild
  dsimp only at hc
  omega

theorem toHeap_spec (a : Array T) (hfuel : a.size < fuel) :
    ∃ heap, toHeap fuel a = some heap ∧ HeapFrom heap 0 heap.size ∧ heap.Perm a := by
  apply loop_total (Building a) fun s => (s.2 + 1).toNat
  · rintro ⟨heap, i⟩ ⟨k, hk, hheap, hperm⟩
    dsimp only at hk hheap hperm
    subst hk
    rw [toHeapRound]
    cases k with
    | zero => exact .inl ⟨heap, rfl, hheap, hperm⟩
    | succ k =>
        right
        have hsize : heap.size - k < fuel := by
          have heq := hperm.size_eq
          omega
        obtain ⟨heap', hshift, hheap', hperm'⟩ :=
          shiftDown_spec hheap.except (Nat.le_refl k) (Nat.le_refl _) hsize
        have hi : ((k + 1 : Nat) : Int) - 1 = (k : Int) := by omega
        refine ⟨(heap', (k : Int) - 1), ?_, ⟨k, rfl, ?_, hperm'.perm.trans hperm⟩, ?_⟩
        · rw [hi, if_pos (Int.natCast_nonneg k), Int.toNat_natCast, hshift]
          rfl
        · dsimp only
          rw [hperm'.size_eq]
          exact hheap'
        · dsimp only
          omega
  · exact building_start a
  · dsimp only
    omega

/-- The loop of `__heap_sort_` before its turn at `last`. -/
structure Sorting (a heap : Array T) (last : Int) : Prop where
  lower : -1 ≤ last
  upper : last < heap.size
  heap_order : HeapFrom heap 0 (last + 1).toNat
  sorted : SortedFrom heap (last + 1).toNat
  perm : heap.Perm a

theorem Sorting.start {a : Array T} (h : HeapFrom heap 0 heap.size) (hperm : heap.Perm a) :
    Sorting a heap ((heap.size : Int) - 1) := by
  have hsize : ((heap.size : Int) - 1 + 1).toNat = heap.size := by omega
  constructor
  · omega
  · omega
  · rw [hsize]
    exact h
  · rw [hsize]
    exact SortedFrom.of_size_le (Nat.le_refl _)
  · exact hperm

/-- The greatest value goes behind the heap, and the heap is restored without it. -/
theorem Sorting.round {a : Array T} {last : Int} (h : Sorting a heap last) (hlast : 0 < last)
    (hfuel : a.size < fuel) :
    ∃ heap', heapSortRound fuel (heap, last) = some (.inl (heap', last - 1)) ∧
      Sorting a heap' (last - 1) := by
  obtain ⟨k, rfl⟩ := Int.eq_ofNat_of_zero_le (Int.le_of_lt hlast)
  obtain ⟨-, hk, horder, hsorted, hperm⟩ := h
  have hsize := hperm.size_eq
  have hlt : k < heap.size := by omega
  have h0 : 0 < heap.size := by omega
  have hsucc : ((k : Int) + 1).toNat = k + 1 := by omega
  have hpred : ((k : Int) - 1 + 1).toNat = k := by omega
  rw [hsucc] at horder hsorted
  have hroot : ∀ i < k + 1, AtMost heap i 0 := fun i hi => horder.le_root hlt hi
  have hmx : k ≤ (heap.swap 0 k h0 hlt).size := by
    rw [Array.size_swap]
    omega
  have hshifts : k - 0 < fuel := by omega
  obtain ⟨heap', hshift, hheap', hperm'⟩ :=
    shiftDown_spec (horder.swap_root h0 hlt) (Nat.le_refl 0) hmx hshifts
  refine ⟨heap', ?_, ?_⟩
  · rw [heapSortRound, if_pos hlast, Int.toNat_natCast, swap_eq h0 hlt]
    simp only [Option.bind_eq_bind, Option.bind_some, hshift]
    rfl
  · have hsize' := hperm'.size_eq
    rw [Array.size_swap] at hsize'
    constructor
    · omega
    · omega
    · rw [hpred]
      exact hheap'
    · rw [hpred]
      exact (hsorted.extend hlt hroot).rearranged hperm'
    · exact (hperm'.perm.trans (Array.swap_perm h0 hlt)).trans hperm

/-- What holds of the loop holds in every state that it comes to. -/
theorem Sorting.leads {a heap' : Array T} {last last' : Int} {n : Nat} (h : Sorting a heap last)
    (hfuel : a.size < fuel)
    (hrun : Leads (heapSortRound fuel) n (heap, last) (heap', last')) : Sorting a heap' last' := by
  apply Leads.invariant (fun s => Sorting a s.1 s.2) ?_ hrun h
  rintro ⟨heap, last⟩ ⟨next, last'⟩ hsorting hround
  by_cases hlast : 0 < last
  · obtain ⟨heap', heq, hnext⟩ := hsorting.round hlast hfuel
    cases heq.symm.trans hround
    exact hnext
  · rw [heapSortRound, if_neg hlast] at hround
    cases hround

theorem Sorting.loop_spec {a : Array T} {last : Int} (h : Sorting a heap last)
    (hfuel : a.size < fuel) :
    ∃ sorted, loop (heapSortRound fuel) fuel (heap, last) = some sorted ∧
      sorted.Perm a ∧ sorted.toList.Pairwise (· ≤ ·) := by
  apply loop_total (fun s => Sorting a s.1 s.2) fun s => s.2.toNat
  · rintro ⟨heap, last⟩ hsorting
    by_cases hlast : 0 < last
    · right
      obtain ⟨heap', heq, hnext⟩ := hsorting.round hlast hfuel
      refine ⟨(heap', last - 1), heq, hnext, ?_⟩
      dsimp only
      omega
    · left
      refine ⟨heap, by rw [heapSortRound, if_neg hlast], hsorting.perm, ?_⟩
      apply SortedFrom.pairwise
      intro i j hij hj
      apply hsorting.sorted i j hij
      dsimp only at hlast ⊢
      omega
  · exact h
  · have hupper := h.upper
    have hsize := h.perm.size_eq
    dsimp only
    omega

end Rounds

example : make 5 #[2, 3, 1, 3] = some #[1, 2, 3, 3] := by decide

end Heapsort

end MoreCpp
