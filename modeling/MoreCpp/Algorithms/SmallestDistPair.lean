import MoreCpp.Library.Loop
import MoreCpp.Library.PartitionPoint
import Mathlib.Algebra.Order.Group.Abs
import Mathlib.Algebra.Order.Ring.Int
import Mathlib.Data.List.Perm.Basic
import Mathlib.Tactic.Ring

/-!
`smallest_dist_pair` of `algorithms/binary_search/binary_search.cpp`, with integers of any
size. `none` is an index out of range, or a search that runs out of fuel.
-/

namespace MoreCpp

open Library

namespace SmallestDistPair

/-- `count`, of a sorted array. -/
def count (arr : List Int) (dist : Int) : Option Int :=
  forRange 0 arr.length (fun i cnt => do
    let x ← arr[i]?
    let t := x - dist
    let j := partitionPoint (· < t) arr
    return cnt + (i - j)) 0

/-- A turn of `while (l < r)`. -/
def round (arr : List Int) (k : Int) : Int × Int → Option ((Int × Int) ⊕ Int)
  | (l, r) =>
    if l < r then do
      let mid := (l + r) >>> (1 : Nat)
      let c ← count arr mid
      return if c ≥ k then .inl (l, mid) else .inl (mid + 1, r)
    else some (.inr l)

def smallestDistPair (fuel : Nat) (arr : List Int) (k : Int) : Option Int := do
  let arr := arr.mergeSort fun a b => a ≤ b
  let back ← arr.getLast?
  let front ← arr.head?
  loop (round arr k) fuel (0, back - front)

/-! ## Distances -/

/-- The distances of all the pairs of positions. -/
def distances : List Int → List Int
  | [] => []
  | x :: l => (l.map fun y => |x - y|) ++ distances l

variable {arr l : List Int} {x d : Int} {i fuel : Nat}

theorem distances_concat (l : List Int) (x : Int) :
    (distances (l ++ [x])).Perm (distances l ++ l.map fun y => |y - x|) := by
  induction l with
  | nil => exact .refl _
  | cons a l ih =>
      rw [List.cons_append, distances, distances, List.map_append, List.append_assoc,
        List.append_assoc]
      refine List.Perm.append_left _ ?_
      refine (ih.append_left _).trans ?_
      rw [List.map_cons, List.map_cons, List.map_nil, List.singleton_append]
      exact List.perm_middle.symm

theorem distances_perm (h : arr.Perm l) : (distances arr).Perm (distances l) := by
  induction h with
  | nil => exact .refl _
  | cons x h ih => exact (h.map _).append ih
  | swap x y l =>
      simp only [distances, List.map_cons, List.cons_append]
      rw [abs_sub_comm y x]
      refine List.Perm.cons _ ?_
      rw [← List.append_assoc, ← List.append_assoc]
      exact List.perm_append_comm.append_right _
  | trans _ _ ih ih' => exact ih.trans ih'

theorem length_distances (l : List Int) : (distances l).length = l.length * (l.length - 1) / 2 := by
  induction l with
  | nil => rfl
  | cons x l ih =>
      rw [distances, List.length_append, List.length_map, ih, List.length_cons, Nat.add_sub_cancel]
      obtain hzero | hpos := Nat.eq_zero_or_pos l.length
      · rw [hzero]
      · obtain ⟨n, hn⟩ : ∃ n, l.length = n + 1 := Nat.exists_eq_add_of_le' hpos
        have hsplit : (n + 1 + 1) * (n + 1) = (n + 1) * n + (n + 1) * 2 := by ring
        rw [hn, Nat.add_sub_cancel, hsplit, Nat.add_mul_div_right _ _ Nat.two_pos, Nat.add_comm]

theorem distances_nonneg (hd : d ∈ distances l) : 0 ≤ d := by
  induction l with
  | nil => exact absurd hd List.not_mem_nil
  | cons x l ih =>
      obtain hd | hd := List.mem_append.mp hd
      · obtain ⟨y, -, rfl⟩ := List.mem_map.mp hd
        exact abs_nonneg _
      · exact ih hd

theorem distances_le {lo hi : Int} (hl : ∀ y ∈ l, lo ≤ y ∧ y ≤ hi) (hd : d ∈ distances l) :
    d ≤ hi - lo := by
  induction l with
  | nil => exact absurd hd List.not_mem_nil
  | cons x l ih =>
      obtain ⟨hx, hl⟩ := List.forall_mem_cons.mp hl
      obtain hd | hd := List.mem_append.mp hd
      · obtain ⟨y, hy, rfl⟩ := List.mem_map.mp hd
        obtain ⟨hlo, hhi⟩ := hl y hy
        exact abs_le.mpr ⟨by omega, by omega⟩
      · exact ih hl hd

/-- The values at positions before the last one from which it is at most `d`. -/
theorem countP_last (hsorted : ∀ y ∈ l, y ≤ x) (d : Int) :
    ((l.map fun y => |y - x|).countP (· ≤ d) : Int) = l.length - l.countP (· < x - d) := by
  have hcount : (l.map fun y => |y - x|).countP (· ≤ d) =
      l.countP fun y => !decide (y < x - d) := by
    rw [List.countP_map]
    refine List.countP_congr fun y hy => ?_
    rw [Function.comp_apply, decide_eq_true_eq, Bool.not_eq_true', decide_eq_false_iff_not,
      abs_sub_comm, abs_of_nonneg (sub_nonneg.mpr (hsorted y hy))]
    omega
  have hsum := List.length_eq_countP_add_countP (· < x - d) (l := l)
  have hrest : l.countP (fun y => !decide (y < x - d)) =
      l.countP fun y => ¬decide (y < x - d) = true :=
    List.countP_congr fun y _ => by rw [decide_eq_true_eq, Bool.not_eq_true', Bool.not_eq_true]
  rw [hcount, hrest]
  omega

/-- In a sorted array the values that are too small for a pair are before both of it. -/
theorem partitionPoint_eq_take (hsorted : arr.Pairwise (· ≤ ·)) (hi : i < arr.length)
    (hd : 0 ≤ d) : partitionPoint (· < arr[i] - d) arr =
      (arr.take i).countP (· < arr[i] - d) := by
  have hpart : Partitioned (· < arr[i] - d) arr := partitioned_of_sorted
    (fun a b hab hb => decide_eq_true (hab.trans_lt (of_decide_eq_true hb))) hsorted
  have hcut : arr.drop i = arr[i] :: arr.drop (i + 1) := List.drop_eq_getElem_cons hi
  have hrest : (arr.drop i).countP (· < arr[i] - d) = 0 := by
    rw [List.countP_eq_zero]
    intro y hy
    have hle : arr[i] ≤ y := by
      have hsorted' := hcut ▸ hsorted.drop (i := i)
      rw [hcut] at hy
      obtain rfl | hy := List.mem_cons.mp hy
      · exact le_rfl
      · exact (List.pairwise_cons.mp hsorted').1 y hy
    rw [decide_eq_true_eq]
    omega
  have hsplit : (arr.take i ++ arr.drop i).countP (· < arr[i] - d) = _ := List.countP_append
  rwa [List.take_append_drop, hrest, Nat.add_zero, ← hpart.partitionPoint_eq] at hsplit

theorem count_spec (hsorted : arr.Pairwise (· ≤ ·)) (hd : 0 ≤ d) :
    count arr d = some ((distances arr).countP (· ≤ d) : Int) := by
  have hloop : ∃ c, count arr d = some c ∧
      c = ((distances (arr.take (max 0 arr.length))).countP (· ≤ d) : Int) := by
    apply forRange_rule fun i c => c = ((distances (arr.take i)).countP (· ≤ d) : Int)
    · rfl
    · rintro i c - hi rfl
      have hcut : arr.take (i + 1) = arr.take i ++ [arr[i]] := List.take_succ_eq_append_getElem hi
      have hbefore : ∀ y ∈ arr.take i, y ≤ arr[i] := fun y hy =>
        (List.pairwise_append.mp (hcut ▸ hsorted.take (i := i + 1))).2.2 y hy _
          (List.mem_singleton_self _)
      have hlength : (arr.take i).length = i := List.length_take_of_le hi.le
      refine ⟨_, by rw [List.getElem?_eq_getElem hi]; rfl, ?_⟩
      rw [hcut, (distances_concat _ _).countP_eq, List.countP_append, Nat.cast_add,
        countP_last hbefore, partitionPoint_eq_take hsorted hi hd, hlength]
  obtain ⟨c, hcount, rfl⟩ := hloop
  rwa [Nat.zero_max, List.take_length] at hcount

/-! ## The search -/

/-- The distance of rank `k` is between the two ends. -/
structure Inv (arr : List Int) (k : Nat) (s : Int × Int) : Prop where
  nonneg : 0 ≤ s.1
  le : s.1 ≤ s.2
  below : (distances arr).countP (· < s.1) < k
  upTo : k ≤ (distances arr).countP (· ≤ s.2)

variable {k : Nat}

theorem Inv.round {s : Int × Int} (hsorted : arr.Pairwise (· ≤ ·)) (hinv : Inv arr k s) :
    (∃ d, round arr k s = some (.inr d) ∧
        ((distances arr).mergeSort fun a b => a ≤ b)[k - 1]? = some d) ∨
      ∃ s', round arr k s = some (.inl s') ∧ Inv arr k s' ∧
        (s'.2 - s'.1).toNat < (s.2 - s.1).toNat := by
  obtain ⟨l, r⟩ := s
  obtain ⟨hnonneg, hle, hbelow, hupTo⟩ := hinv
  dsimp only at hnonneg hle hbelow hupTo
  unfold SmallestDistPair.round
  dsimp only
  split
  next hlt =>
    right
    have hmid : l ≤ (l + r) >>> (1 : Nat) ∧ (l + r) >>> (1 : Nat) < r := by
      rw [Int.shiftRight_eq_div_pow]
      omega
    generalize (l + r) >>> (1 : Nat) = mid at hmid ⊢
    rw [count_spec hsorted (hnonneg.trans hmid.1)]
    by_cases hmany : k ≤ (distances arr).countP (· ≤ mid)
    · refine ⟨(l, mid), by simp [hmany], ⟨hnonneg, hmid.1, hbelow, hmany⟩, ?_⟩
      dsimp only
      omega
    · refine ⟨(mid + 1, r), by simp [hmany], ⟨?_, ?_, ?_, hupTo⟩, ?_⟩
      · dsimp only
        omega
      · dsimp only
        omega
      · simpa only [Int.lt_add_one_iff] using Nat.lt_of_not_le hmany
      · dsimp only
        omega
  next hlt =>
    left
    obtain rfl : l = r := by omega
    exact ⟨l, rfl, getElem?_mergeSort_of_countP (by omega) (by omega)⟩

theorem Inv.start {rest : List Int} {front back : Int}
    (hsorted : (front :: (rest ++ [back])).Pairwise (· ≤ ·)) (hk : 1 ≤ k)
    (hk' : k ≤ (distances (front :: (rest ++ [back]))).length) :
    Inv (front :: (rest ++ [back])) k (0, back - front) := by
  obtain ⟨hfront, hrest⟩ := List.pairwise_cons.mp hsorted
  have hback : ∀ y ∈ front :: (rest ++ [back]), y ≤ back := by
    intro y hy
    obtain rfl | hy := List.mem_cons.mp hy
    · exact hfront back List.mem_concat_self
    · obtain hy | hy := List.mem_append.mp hy
      · exact (List.pairwise_append.mp hrest).2.2 y hy back (List.mem_singleton_self back)
      · exact (List.mem_singleton.mp hy).le
  have hin : ∀ y ∈ front :: (rest ++ [back]), front ≤ y ∧ y ≤ back := by
    intro y hy
    refine ⟨?_, hback y hy⟩
    obtain rfl | hy := List.mem_cons.mp hy
    · exact le_rfl
    · exact hfront y hy
  refine ⟨le_rfl, sub_nonneg.mpr (hback front List.mem_cons_self), ?_, ?_⟩
  · have hnone : (distances (front :: (rest ++ [back]))).countP (· < 0) = 0 := by
      rw [List.countP_eq_zero]
      intro d hd
      rw [decide_eq_true_eq]
      exact (distances_nonneg hd).not_gt
    rw [hnone]
    exact hk
  · have hall : (distances (front :: (rest ++ [back]))).countP (· ≤ back - front) =
        (distances (front :: (rest ++ [back]))).length :=
      List.countP_eq_length.mpr fun d hd => decide_eq_true (distances_le hin hd)
    rw [hall]
    exact hk'

/-- The `k`-th smallest distance, with multiplicity. -/
theorem smallestDistPair_eq (hlength : 2 ≤ arr.length) (hk : 1 ≤ k)
    (hk' : k ≤ arr.length * (arr.length - 1) / 2) (hfuel : ∀ d ∈ distances arr, d < fuel) :
    ∃ d, smallestDistPair fuel arr k = some d ∧
      ((distances arr).mergeSort fun a b => a ≤ b)[k - 1]? = some d := by
  have hperm : (arr.mergeSort fun a b => a ≤ b).Perm arr := List.mergeSort_perm _ _
  have hsorted : (arr.mergeSort fun a b => a ≤ b).Pairwise (· ≤ ·) :=
    List.pairwise_mergeSort' (· ≤ ·) arr
  have hranks : ((distances (arr.mergeSort fun a b => a ≤ b)).mergeSort fun a b => a ≤ b) =
      (distances arr).mergeSort fun a b => a ≤ b :=
    ((List.mergeSort_perm _ _).trans ((distances_perm hperm).trans
      (List.mergeSort_perm _ _).symm)).eq_of_pairwise' (List.pairwise_mergeSort' (· ≤ ·) _)
      (List.pairwise_mergeSort' (· ≤ ·) _)
  unfold smallestDistPair
  dsimp only
  rw [← hranks]
  rw [← length_distances, ← (distances_perm hperm).length_eq] at hk'
  replace hfuel : ∀ d ∈ distances (arr.mergeSort fun a b => a ≤ b), d < fuel := fun d hd =>
    hfuel d ((distances_perm hperm).mem_iff.mp hd)
  rw [← hperm.length_eq] at hlength
  generalize (arr.mergeSort fun a b => a ≤ b) = sorted at hsorted hk' hfuel hlength ⊢
  obtain ⟨front, rest, back, rfl⟩ : ∃ front rest back, sorted = front :: (rest ++ [back]) := by
    obtain - | ⟨front, tail⟩ := sorted
    · exact absurd hlength (by simp)
    · obtain rfl | ⟨rest, back, rfl⟩ := List.eq_nil_or_concat tail
      · exact absurd hlength (by simp)
      · exact ⟨front, rest, back, by rw [List.concat_eq_append]⟩
  have hlast : (front :: (rest ++ [back])).getLast? = some back := by
    rw [← List.cons_append, List.getLast?_concat]
  rw [hlast, List.head?_cons]
  have hstart := Inv.start hsorted hk hk'
  have hmax : |front - back| < fuel := hfuel _ (List.mem_append_left _
    (List.mem_map.mpr ⟨back, List.mem_concat_self, rfl⟩))
  rw [abs_sub_comm, abs_of_nonneg hstart.le] at hmax
  have hpos := hstart.le
  dsimp only at hpos
  apply loop_total (Inv (front :: (rest ++ [back])) k) (fun s => (s.2 - s.1).toNat)
    (fun s hinv => hinv.round hsorted) hstart
  dsimp only
  omega

theorem smallestDistPair_eq_twins : ∃ d, smallestDistPair 6 [1, 6, 1] (2 : Nat) = some d ∧
    ((distances [1, 6, 1]).mergeSort fun a b => a ≤ b)[2 - 1]? = some d :=
  smallestDistPair_eq (by decide) (by decide) (by decide) (by decide)

end SmallestDistPair

end MoreCpp
