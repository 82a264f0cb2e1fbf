import Mathlib.Data.Finset.Card
import Mathlib.Data.List.Basic
import Mathlib.Data.List.Induction
import Mathlib.Data.List.Sublists
import Mathlib.Logic.Function.Basic
import Mathlib.Order.Bounds.Basic
import Mathlib.Order.Lattice

/-!
Subsequences: those two lists have in common, those that make up a list together, and the
distinct ones of a list.
-/

namespace MoreCpp.Library

/-! ## Common subsequences

Longest common subsequences, shortest common supersequences, and the deletions and
insertions that turn one list into another.
-/

section CommonSubsequence

variable {α : Type*}

/-- Deleting or inserting one element. -/
inductive Edits : List α → List α → Prop
  | delete (u : List α) (a : α) (v : List α) : Edits (u ++ a :: v) (u ++ v)
  | insert (u : List α) (a : α) (v : List α) : Edits (u ++ v) (u ++ a :: v)

/-- So many deletions and insertions. -/
inductive EditsIn : Nat → List α → List α → Prop
  | refl (s : List α) : EditsIn 0 s s
  | head {n : Nat} {s t u : List α} (h : Edits s t) (hrest : EditsIn n t u) :
      EditsIn (n + 1) s u

section Length

variable [DecidableEq α]

/-- The length of a longest common subsequence. -/
def lcsLength : List α → List α → Nat
  | [], _ => 0
  | _ :: _, [] => 0
  | a :: s, b :: t =>
    if a = b then 1 + lcsLength s t else max (lcsLength s (b :: t)) (lcsLength (a :: s) t)
termination_by s t => s.length + t.length

/-- The length of a shortest common supersequence. -/
def scsLength : List α → List α → Nat
  | [], t => t.length
  | a :: s, [] => (a :: s).length
  | a :: s, b :: t =>
    if a = b then 1 + scsLength s t else 1 + min (scsLength s (b :: t)) (scsLength (a :: s) t)
termination_by s t => s.length + t.length

variable {s t w : List α} {a b : α}

@[simp] theorem lcsLength_nil_left : lcsLength [] t = 0 := by rw [lcsLength]

@[simp] theorem lcsLength_nil_right : lcsLength s [] = 0 := by
  cases s <;> rw [lcsLength]

@[simp] theorem scsLength_nil_left : scsLength [] t = t.length := by rw [scsLength]

@[simp] theorem scsLength_nil_right : scsLength s [] = s.length := by
  cases s <;> rw [scsLength]

theorem lcsLength_cons : lcsLength (a :: s) (b :: t) =
    if a = b then 1 + lcsLength s t else max (lcsLength s (b :: t)) (lcsLength (a :: s) t) := by
  rw [lcsLength]

theorem scsLength_cons : scsLength (a :: s) (b :: t) =
    if a = b then 1 + scsLength s t
    else 1 + min (scsLength s (b :: t)) (scsLength (a :: s) t) := by
  rw [scsLength]

/-- The two lengths complement one another. -/
theorem scsLength_add_lcsLength (s t : List α) :
    scsLength s t + lcsLength s t = s.length + t.length := by
  induction s, t using lcsLength.induct with
  | case1 t => simp
  | case2 a s => simp
  | case3 s a t ih =>
      rw [scsLength_cons, lcsLength_cons, if_pos rfl, if_pos rfl, List.length_cons,
        List.length_cons]
      omega
  | case4 a s b t hne ihs iht =>
      rw [scsLength_cons, lcsLength_cons, if_neg hne, if_neg hne]
      simp only [List.length_cons] at ihs iht ⊢
      omega

theorem exists_common (s t : List α) :
    ∃ w : List α, w.Sublist s ∧ w.Sublist t ∧ w.length = lcsLength s t := by
  induction s, t using lcsLength.induct with
  | case1 t => exact ⟨[], List.nil_sublist _, List.nil_sublist _, by simp⟩
  | case2 a s => exact ⟨[], List.nil_sublist _, List.nil_sublist _, by simp⟩
  | case3 s a t ih =>
      obtain ⟨w, hs, ht, hlength⟩ := ih
      refine ⟨a :: w, hs.cons_cons a, ht.cons_cons a, ?_⟩
      rw [lcsLength_cons, if_pos rfl, List.length_cons, hlength, Nat.add_comm]
  | case4 a s b t hne ihs iht =>
      rw [lcsLength_cons, if_neg hne]
      rcases le_total (lcsLength (a :: s) t) (lcsLength s (b :: t)) with hle | hle
      · obtain ⟨w, hs, ht, hlength⟩ := ihs
        exact ⟨w, hs.cons a, ht, by rw [hlength, Nat.max_eq_left hle]⟩
      · obtain ⟨w, hs, ht, hlength⟩ := iht
        exact ⟨w, hs, ht.cons b, by rw [hlength, Nat.max_eq_right hle]⟩

theorem length_le_lcsLength (hs : w.Sublist s) (ht : w.Sublist t) :
    w.length ≤ lcsLength s t := by
  induction s, t using lcsLength.induct generalizing w with
  | case1 t => simp [List.sublist_nil.mp hs]
  | case2 a s => simp [List.sublist_nil.mp ht]
  | case3 s a t ih =>
      rw [lcsLength_cons, if_pos rfl]
      -- the rest after the first element is common to the rests
      have hrest := ih (List.Sublist.tail hs) (List.Sublist.tail ht)
      rw [List.length_tail] at hrest
      omega
  | case4 a s b t hne ihs iht =>
      rw [lcsLength_cons, if_neg hne]
      rcases List.sublist_cons_iff.mp hs with hs' | ⟨w', rfl, -⟩
      · exact Nat.le_trans (ihs hs' ht) (Nat.le_max_left _ _)
      · rcases List.sublist_cons_iff.mp ht with ht' | ⟨w'', heq, -⟩
        · exact Nat.le_trans (iht hs ht') (Nat.le_max_right _ _)
        · exact absurd (List.cons.inj heq).1 hne

theorem lcsLength_reverse_le (s t : List α) :
    lcsLength s.reverse t.reverse ≤ lcsLength s t := by
  obtain ⟨w, hs, ht, hlength⟩ := exists_common s.reverse t.reverse
  rw [← hlength, ← List.length_reverse]
  apply length_le_lcsLength
  · rw [← List.reverse_reverse s]
    exact hs.reverse
  · rw [← List.reverse_reverse t]
    exact ht.reverse

/-- It does not matter from which end the lists are read. -/
theorem lcsLength_reverse (s t : List α) : lcsLength s.reverse t.reverse = lcsLength s t := by
  apply Nat.le_antisymm (lcsLength_reverse_le s t)
  have hle := lcsLength_reverse_le s.reverse t.reverse
  rwa [List.reverse_reverse, List.reverse_reverse] at hle

theorem scsLength_reverse (s t : List α) : scsLength s.reverse t.reverse = scsLength s t := by
  have hsum := scsLength_add_lcsLength s t
  have hsum' := scsLength_add_lcsLength s.reverse t.reverse
  rw [lcsLength_reverse, List.length_reverse, List.length_reverse] at hsum'
  omega

theorem exists_supersequence (s t : List α) :
    ∃ w : List α, s.Sublist w ∧ t.Sublist w ∧ w.length = scsLength s t := by
  induction s, t using scsLength.induct with
  | case1 t => exact ⟨t, List.nil_sublist _, List.Sublist.refl _, by simp⟩
  | case2 a s => exact ⟨a :: s, List.Sublist.refl _, List.nil_sublist _, by simp⟩
  | case3 s a t ih =>
      obtain ⟨w, hs, ht, hlength⟩ := ih
      refine ⟨a :: w, hs.cons_cons a, ht.cons_cons a, ?_⟩
      rw [scsLength_cons, if_pos rfl, List.length_cons, hlength, Nat.add_comm]
  | case4 a s b t hne ihs iht =>
      rw [scsLength_cons, if_neg hne]
      rcases le_total (scsLength s (b :: t)) (scsLength (a :: s) t) with hle | hle
      · obtain ⟨w, hs, ht, hlength⟩ := ihs
        refine ⟨a :: w, hs.cons_cons a, ht.cons a, ?_⟩
        rw [List.length_cons, hlength, Nat.min_eq_left hle, Nat.add_comm]
      · obtain ⟨w, hs, ht, hlength⟩ := iht
        refine ⟨b :: w, hs.cons b, ht.cons_cons b, ?_⟩
        rw [List.length_cons, hlength, Nat.min_eq_right hle, Nat.add_comm]

omit [DecidableEq α] in
/-- What two parts of a list have in common is at least what they are too long together. -/
theorem exists_overlap (hs : s.Sublist w) (ht : t.Sublist w) :
    ∃ v : List α, v.Sublist s ∧ v.Sublist t ∧ s.length + t.length ≤ w.length + v.length := by
  induction w generalizing s t with
  | nil =>
      obtain rfl := List.sublist_nil.mp hs
      obtain rfl := List.sublist_nil.mp ht
      exact ⟨[], List.Sublist.refl _, List.Sublist.refl _, Nat.le_refl _⟩
  | cons c w ih =>
      simp only [List.length_cons]
      rcases List.sublist_cons_iff.mp hs with hs' | ⟨s', rfl, hs'⟩ <;>
        rcases List.sublist_cons_iff.mp ht with ht' | ⟨t', rfl, ht'⟩ <;>
        obtain ⟨v, hvs, hvt, hlength⟩ := ih hs' ht'
      · exact ⟨v, hvs, hvt, by omega⟩
      · exact ⟨v, hvs, hvt.cons c, by rw [List.length_cons]; omega⟩
      · exact ⟨v, hvs.cons c, hvt, by rw [List.length_cons]; omega⟩
      · exact ⟨c :: v, hvs.cons_cons c, hvt.cons_cons c, by simp only [List.length_cons]; omega⟩

/-- No common supersequence is shorter. -/
theorem isLeast_scsLength (s t : List α) :
    IsLeast {n | ∃ w : List α, s.Sublist w ∧ t.Sublist w ∧ w.length = n} (scsLength s t) := by
  refine ⟨exists_supersequence s t, ?_⟩
  rintro _ ⟨w, hs, ht, rfl⟩
  obtain ⟨v, hvs, hvt, hlength⟩ := exists_overlap hs ht
  have hle := length_le_lcsLength hvs hvt
  have hsum := scsLength_add_lcsLength s t
  omega

end Length

/-! ## Edits -/

section Edits

variable {m n : Nat} {s t u w : List α} {a : α}

theorem Edits.symm (h : Edits s t) : Edits t s := by
  cases h with
  | delete u a v => exact .insert u a v
  | insert u a v => exact .delete u a v

theorem Edits.cons (h : Edits s t) (a : α) : Edits (a :: s) (a :: t) := by
  cases h with
  | delete u b v => exact .delete (a :: u) b v
  | insert u b v => exact .insert (a :: u) b v

theorem EditsIn.cons (h : EditsIn n s t) (a : α) : EditsIn n (a :: s) (a :: t) := by
  induction h with
  | refl s => exact .refl _
  | head h _ ih => exact .head (h.cons a) ih

theorem EditsIn.trans (h : EditsIn m s t) (h' : EditsIn n t u) : EditsIn (m + n) s u := by
  induction h with
  | refl s => rwa [Nat.zero_add]
  | head h _ ih =>
      rw [Nat.add_right_comm]
      exact .head h (ih h')

theorem EditsIn.symm (h : EditsIn n s t) : EditsIn n t s := by
  induction h with
  | refl s => exact .refl s
  | head h _ ih => exact ih.trans (.head h.symm (.refl _))

/-- Deleting what is not in a subsequence. -/
theorem editsIn_of_sublist (h : w.Sublist s) : EditsIn (s.length - w.length) s w := by
  induction h with
  | slnil => exact .refl []
  | @cons w s a h ih =>
      have hle := h.length_le
      have hcount : (a :: s).length - w.length = s.length - w.length + 1 := by
        rw [List.length_cons]
        omega
      rw [hcount]
      exact .head (.delete [] a s) ih
  | @cons_cons w s a h ih =>
      rw [List.length_cons, List.length_cons, Nat.add_sub_add_right]
      exact ih.cons a

/-- A subsequence loses no more than the one element that is deleted. -/
theorem exists_sublist_delete {v : List α} (h : w.Sublist (u ++ a :: v)) :
    ∃ w' : List α, w'.Sublist (u ++ v) ∧ w'.Sublist w ∧ w.length ≤ w'.length + 1 := by
  obtain ⟨w₁, w₂, rfl, h₁, h₂⟩ := List.sublist_append_iff.mp h
  rcases List.sublist_cons_iff.mp h₂ with hskip | ⟨w₂, rfl, hrest⟩
  · exact ⟨w₁ ++ w₂, h₁.append hskip, List.Sublist.refl _, Nat.le_succ _⟩
  · have hkept := (List.Sublist.refl w₁).append (List.sublist_cons_self a w₂)
    refine ⟨w₁ ++ w₂, h₁.append hrest, hkept, ?_⟩
    simp only [List.length_append, List.length_cons]
    omega

/-- After so many edits two lists still have the rest in common. -/
theorem EditsIn.exists_common (h : EditsIn n s t) :
    ∃ w : List α, w.Sublist s ∧ w.Sublist t ∧ s.length + t.length ≤ 2 * w.length + n := by
  induction h with
  | refl s => exact ⟨s, List.Sublist.refl s, List.Sublist.refl s, by omega⟩
  | head h _ ih =>
      obtain ⟨w, hw, hwt, hlength⟩ := ih
      cases h with
      | delete u a v =>
          have hshorter := (List.Sublist.refl u).append (List.sublist_cons_self a v)
          refine ⟨w, hw.trans hshorter, hwt, ?_⟩
          simp only [List.length_append, List.length_cons] at hlength ⊢
          omega
      | insert u a v =>
          obtain ⟨w', hw', hsub, hless⟩ := exists_sublist_delete hw
          refine ⟨w', hw', hsub.trans hwt, ?_⟩
          simp only [List.length_append, List.length_cons] at hlength ⊢
          omega

variable [DecidableEq α]

/-- As few edits as possible leave a longest common subsequence. -/
theorem isLeast_editsIn (s t : List α) :
    IsLeast {n | EditsIn n s t} (s.length - lcsLength s t + (t.length - lcsLength s t)) := by
  obtain ⟨w, hs, ht, hlength⟩ := MoreCpp.Library.exists_common s t
  constructor
  · rw [← hlength]
    exact (editsIn_of_sublist hs).trans (editsIn_of_sublist ht).symm
  · intro n h
    obtain ⟨v, hvs, hvt, hsum⟩ := EditsIn.exists_common h
    have hle := length_le_lcsLength hvs hvt
    have hles := hs.length_le
    have hlet := ht.length_le
    omega

end Edits

end CommonSubsequence

/-! ## Interleavings

Splitting a list into the elements at some positions and the elements at all others.
-/

section Interleaving

variable {α : Type*}

/-- The elements at the positions that are chosen. -/
def pick (chosen : Nat → Bool) (s : List α) : List α :=
  (s.zipIdx.filter fun e => chosen e.2).map Prod.fst

/-- Some positions of the third list spell the first, and the others the second. -/
def Interleaves (s₁ s₂ s₃ : List α) : Prop :=
  ∃ chosen : Nat → Bool, pick chosen s₃ = s₁ ∧ pick (fun i => !chosen i) s₃ = s₂

variable {chosen chosen' : Nat → Bool} {s s₁ s₂ s₃ : List α} {a : α}

theorem pick_concat : pick chosen (s ++ [a]) =
    if chosen s.length then pick chosen s ++ [a] else pick chosen s := by
  unfold pick
  rw [List.zipIdx_append, List.filter_append, List.map_append]
  cases hlast : chosen s.length <;> simp [hlast]

theorem pick_congr (h : ∀ i < s.length, chosen i = chosen' i) :
    pick chosen s = pick chosen' s := by
  induction s using List.reverseRecOn with
  | nil => rfl
  | append_singleton s a ih =>
      rw [List.length_append, List.length_singleton] at h
      rw [pick_concat, pick_concat, ih fun i hi => h i (Nat.lt_succ_of_lt hi),
        h s.length (Nat.lt_succ_self _)]

@[simp] theorem interleaves_nil_right : Interleaves s₁ s₂ [] ↔ s₁ = [] ∧ s₂ = [] := by
  constructor
  · rintro ⟨chosen, rfl, rfl⟩
    exact ⟨rfl, rfl⟩
  · rintro ⟨rfl, rfl⟩
    exact ⟨fun _ => true, rfl, rfl⟩

/-- The last element is the last one of either list. -/
theorem interleaves_concat : Interleaves s₁ s₂ (s₃ ++ [a]) ↔
    (∃ t, s₁ = t ++ [a] ∧ Interleaves t s₂ s₃) ∨ ∃ t, s₂ = t ++ [a] ∧ Interleaves s₁ t s₃ := by
  constructor
  · rintro ⟨chosen, rfl, rfl⟩
    cases hlast : chosen s₃.length with
    | true =>
        refine .inl ⟨pick chosen s₃, ?_, chosen, rfl, ?_⟩
        · rw [pick_concat, hlast, if_pos rfl]
        · simp [pick_concat, hlast]
    | false =>
        refine .inr ⟨pick (fun i => !chosen i) s₃, ?_, chosen, ?_, rfl⟩
        · simp [pick_concat, hlast]
        · simp [pick_concat, hlast]
  · -- the choice for the others, and one more for the last
    have hupdate : ∀ (chosen : Nat → Bool) (b : Bool), ∃ chosen' : Nat → Bool,
        chosen' s₃.length = b ∧ pick chosen' s₃ = pick chosen s₃ ∧
          pick (fun i => !chosen' i) s₃ = pick (fun i => !chosen i) s₃ := by
      intro chosen b
      refine ⟨Function.update chosen s₃.length b, Function.update_self .., ?_, ?_⟩
      · exact pick_congr fun i hi => Function.update_of_ne (Nat.ne_of_lt hi) ..
      · apply pick_congr
        intro i hi
        rw [Function.update_of_ne (Nat.ne_of_lt hi)]
    rintro (⟨t, rfl, chosen, rfl, rfl⟩ | ⟨t, rfl, chosen, rfl, rfl⟩)
    · obtain ⟨chosen', hlast, hpick, hothers⟩ := hupdate chosen true
      exact ⟨chosen', by simp [pick_concat, hlast, hpick], by simp [pick_concat, hlast, hothers]⟩
    · obtain ⟨chosen', hlast, hpick, hothers⟩ := hupdate chosen false
      exact ⟨chosen', by simp [pick_concat, hlast, hpick], by simp [pick_concat, hlast, hothers]⟩

theorem Interleaves.length_eq (h : Interleaves s₁ s₂ s₃) :
    s₁.length + s₂.length = s₃.length := by
  induction s₃ using List.reverseRecOn generalizing s₁ s₂ with
  | nil =>
      obtain ⟨rfl, rfl⟩ := interleaves_nil_right.mp h
      rfl
  | append_singleton s₃ a ih =>
      rcases interleaves_concat.mp h with ⟨t, rfl, hrest⟩ | ⟨t, rfl, hrest⟩ <;>
      · have hlength := ih hrest
        simp only [List.length_append, List.length_singleton]
        omega

end Interleaving

/-! ## Distinct subsequences

The distinct subsequences of a list and how many more one more element makes.
-/

section DistinctSubsequences

variable {α : Type*} {s u x y : List α} {a : α}

/-- What ends with the last `a` begins before it. -/
theorem concat_sublist_iff (ha : a ∉ y) : (u ++ [a]).Sublist (x ++ a :: y) ↔ u.Sublist x := by
  have hassoc : x ++ a :: y = x ++ [a] ++ y := by simp
  rw [hassoc]
  constructor
  · intro h
    obtain ⟨u₁, u₂, heq, h₁, h₂⟩ := List.sublist_append_iff.mp h
    obtain rfl | ⟨v, b, rfl⟩ := List.eq_nil_or_concat u₂
    · rw [List.append_nil] at heq
      rw [← heq] at h₁
      exact (List.append_sublist_append_right [a]).mp h₁
    · rw [List.concat_eq_append, ← List.append_assoc] at heq
      obtain rfl : a = b := List.singleton_inj.mp (List.append_inj_right' heq rfl)
      exact absurd (h₂.subset (by simp)) ha
  · intro h
    exact (h.append_right [a]).trans (List.sublist_append_left _ y)

theorem concat_injective : Function.Injective fun u : List α => u ++ [a] :=
  fun _ _ heq => List.append_cancel_right heq

variable [DecidableEq α]

def subsequences (s : List α) : Finset (List α) := s.sublists.toFinset

theorem mem_subsequences : u ∈ subsequences s ↔ u.Sublist s := by
  rw [subsequences, List.mem_toFinset, List.mem_sublists]

theorem subsequences_concat : subsequences (s ++ [a]) =
    subsequences s ∪ (subsequences s).image (· ++ [a]) := by
  ext u
  rw [Finset.mem_union, Finset.mem_image]
  simp only [mem_subsequences]
  constructor
  · intro h
    obtain ⟨u₁, u₂, rfl, h₁, h₂⟩ := List.sublist_append_iff.mp h
    rcases List.sublist_singleton.mp h₂ with rfl | rfl
    · rw [List.append_nil]
      exact .inl h₁
    · exact .inr ⟨u₁, h₁, rfl⟩
  · rintro (h | ⟨v, h, rfl⟩)
    · exact h.trans (List.sublist_append_left s [a])
    · exact h.append_right [a]

theorem card_subsequences_concat : (subsequences (s ++ [a])).card +
    (subsequences s ∩ (subsequences s).image (· ++ [a])).card = 2 * (subsequences s).card := by
  rw [subsequences_concat, Finset.card_union_add_card_inter,
    Finset.card_image_of_injective _ concat_injective, Nat.two_mul]

/-- An element for the first time makes twice as many. -/
theorem card_subsequences_new (ha : a ∉ s) :
    (subsequences (s ++ [a])).card = 2 * (subsequences s).card := by
  have hnone : subsequences s ∩ (subsequences s).image (· ++ [a]) = ∅ := by
    refine Finset.eq_empty_of_forall_notMem fun u hu => ?_
    obtain ⟨hu, hu'⟩ := Finset.mem_inter.mp hu
    obtain ⟨v, -, rfl⟩ := Finset.mem_image.mp hu'
    exact ha ((mem_subsequences.mp hu).subset (by simp))
  rw [← card_subsequences_concat, hnone, Finset.card_empty, Nat.add_zero]

/-- An element again makes those twice that end with the element before. -/
theorem card_subsequences_again (ha : a ∉ y) (hs : s = x ++ a :: y) :
    (subsequences (s ++ [a])).card + (subsequences x).card = 2 * (subsequences s).card := by
  have hboth : subsequences s ∩ (subsequences s).image (· ++ [a]) =
      (subsequences x).image (· ++ [a]) := by
    ext u
    rw [Finset.mem_inter, Finset.mem_image, Finset.mem_image]
    simp only [mem_subsequences]
    constructor
    · rintro ⟨hu, v, -, rfl⟩
      rw [hs, concat_sublist_iff ha] at hu
      exact ⟨v, hu, rfl⟩
    · rintro ⟨v, hv, rfl⟩
      have hx : x.Sublist s := hs ▸ List.sublist_append_left x (a :: y)
      rw [hs, concat_sublist_iff ha, ← hs]
      exact ⟨hv, v, hv.trans hx, rfl⟩
  rw [← card_subsequences_concat, hboth, Finset.card_image_of_injective _ concat_injective]

end DistinctSubsequences

end MoreCpp.Library
