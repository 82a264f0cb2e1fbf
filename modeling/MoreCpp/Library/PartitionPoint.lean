import Mathlib.Data.List.Sort
import Mathlib.Order.Basic

/-!
The first position of a list at which a test fails, where all the elements that pass are
before those that do not, and the element of a given rank, from the number of those below it
and of those up to it.
-/

namespace MoreCpp.Library

variable {α : Type*} {p : α → Bool} {l : List α}

/-- `lower_bound` and `upper_bound`, for the test that their elements pass. -/
def partitionPoint (p : α → Bool) (l : List α) : Nat := l.findIdx fun x => !p x

/-- Where an element passes, so do those before it. -/
def Partitioned (p : α → Bool) (l : List α) : Prop := l.Pairwise fun a b => p b → p a

theorem partitionPoint_le_length : partitionPoint p l ≤ l.length := List.findIdx_le_length

theorem Partitioned.splitAt (h : Partitioned p l) :
    l.take (partitionPoint p l) = l.filter p ∧
      l.drop (partitionPoint p l) = l.filter fun x => !p x := by
  induction l with
  | nil => exact ⟨rfl, rfl⟩
  | cons x l ih =>
      obtain ⟨hx, hl⟩ := List.pairwise_cons.mp h
      obtain ⟨htake, hdrop⟩ := ih hl
      unfold partitionPoint at htake hdrop ⊢
      rw [List.findIdx_cons]
      cases hpx : p x with
      | true => simp [hpx, htake, hdrop]
      | false =>
          have hnone : ∀ y ∈ l, p y = false := by
            intro y hy
            by_contra hpy
            rw [Bool.not_eq_false] at hpy
            exact absurd (hx y hy hpy) (by rw [hpx]; exact Bool.false_ne_true)
          have hfilter : l.filter p = [] := List.filter_eq_nil_iff.mpr fun y hy => by
            rw [hnone y hy]
            exact Bool.false_ne_true
          have hfilter' : (l.filter fun y => !p y) = l := List.filter_eq_self.mpr fun y hy => by
            rw [hnone y hy]
            rfl
          simp [hpx, hfilter, hfilter']

theorem Partitioned.partitionPoint_eq (h : Partitioned p l) : partitionPoint p l = l.countP p := by
  rw [List.countP_eq_length_filter, ← h.splitAt.1, List.length_take]
  exact (Nat.min_eq_left partitionPoint_le_length).symm

/-! ## Sorting by a key -/

theorem pairwise_mergeSort_key {κ : Type*} [LinearOrder κ] (key : α → κ) (l : List α) :
    (l.mergeSort fun a b => key a ≤ key b).Pairwise fun a b => key a ≤ key b := by
  have hsorted : (l.mergeSort fun a b => key a ≤ key b).Pairwise
      fun a b => (decide (key a ≤ key b) : Bool) := by
    apply List.pairwise_mergeSort
    · intro a b c hab hbc
      rw [decide_eq_true_eq] at hab hbc ⊢
      exact hab.trans hbc
    · intro a b
      rw [Bool.or_eq_true, decide_eq_true_eq, decide_eq_true_eq]
      exact le_total _ _
  exact hsorted.imp fun hab => of_decide_eq_true hab

/-! ## Ranks -/

variable [LinearOrder α] {r : α} {k : Nat}

theorem partitioned_of_sorted {p : α → Bool} (hp : ∀ a b, a ≤ b → p b → p a)
    (hl : l.Pairwise (· ≤ ·)) : Partitioned p l := hl.imp fun {a b} hab => hp a b hab

theorem getElem?_of_countP (hl : l.Pairwise (· ≤ ·)) (hbelow : l.countP (· < r) ≤ k)
    (hupTo : k < l.countP (· ≤ r)) : l[k]? = some r := by
  have hk : k < l.length := hupTo.trans_le List.countP_le_length
  have hlt : Partitioned (· < r) l := partitioned_of_sorted
    (fun a b hab hb => decide_eq_true (hab.trans_lt (of_decide_eq_true hb))) hl
  have hle : Partitioned (· ≤ r) l := partitioned_of_sorted
    (fun a b hab hb => decide_eq_true (hab.trans (of_decide_eq_true hb))) hl
  have hnotBelow : l[k] ∈ l.filter fun x => !decide (x < r) := by
    rw [← hlt.splitAt.2, hlt.partitionPoint_eq, List.mem_drop_iff_getElem]
    exact ⟨k - l.countP (· < r), by omega, by simp only [Nat.add_sub_of_le hbelow]⟩
  have hin : l[k] ∈ l.filter (· ≤ r) := by
    rw [← hle.splitAt.1, hle.partitionPoint_eq, List.mem_take_iff_getElem]
    exact ⟨k, lt_min hupTo hk, rfl⟩
  have hge : ¬l[k] < r := by simpa using (List.mem_filter.mp hnotBelow).2
  have hle' : l[k] ≤ r := by simpa using (List.mem_filter.mp hin).2
  rw [List.getElem?_eq_getElem hk, le_antisymm hle' (not_lt.mp hge)]

/-- The element after `k` others in ascending order. -/
theorem getElem?_mergeSort_of_countP (hbelow : l.countP (· < r) ≤ k)
    (hupTo : k < l.countP (· ≤ r)) : (l.mergeSort fun a b => a ≤ b)[k]? = some r := by
  have hperm := List.mergeSort_perm l fun a b => a ≤ b
  apply getElem?_of_countP (List.pairwise_mergeSort' (· ≤ ·) l)
  · rwa [hperm.countP_eq]
  · rwa [hperm.countP_eq]

end MoreCpp.Library
