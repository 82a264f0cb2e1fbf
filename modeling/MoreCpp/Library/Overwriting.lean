import MoreCpp.Library.PartitionPoint
import Mathlib.Data.List.Chain
import Mathlib.Data.List.Perm.Subperm
import Mathlib.Order.Bounds.Basic

/-!
Making a sequence increasing with overwrites at some of its positions, between elements that
are kept.
-/

namespace MoreCpp.Library

variable {α : Type*}

/-- `l` is `a` with values of `B` put at so many positions. -/
inductive Overwrites (B : List α) : List α → List α → Nat → Prop
  | nil : Overwrites B [] [] 0
  | keep {a l c e} (h : Overwrites B a l c) : Overwrites B (a ++ [e]) (l ++ [e]) c
  | put {a l c e y} (h : Overwrites B a l c) (hy : y ∈ B) :
      Overwrites B (a ++ [e]) (l ++ [y]) (c + 1)

variable {B a l ys : List α} {e y lo hi : α} {c k p i : Nat}

theorem overwrites_nil : Overwrites B [] l c ↔ l = [] ∧ c = 0 := by
  constructor
  · intro h
    generalize ha : [] = a at h
    cases h with
    | nil => exact ⟨rfl, rfl⟩
    | keep => simp at ha
    | put => simp at ha
  · rintro ⟨rfl, rfl⟩
    exact .nil

theorem overwrites_concat : Overwrites B (a ++ [e]) l c ↔
    (∃ l', l = l' ++ [e] ∧ Overwrites B a l' c) ∨
      ∃ l' y c', l = l' ++ [y] ∧ c = c' + 1 ∧ y ∈ B ∧ Overwrites B a l' c' := by
  constructor
  · intro h
    generalize ha : a ++ [e] = a' at h
    cases h with
    | nil => simp at ha
    | keep h =>
        obtain ⟨rfl, he⟩ := List.append_inj' ha rfl
        obtain rfl := List.singleton_inj.mp he
        exact .inl ⟨_, rfl, h⟩
    | put h hy =>
        obtain ⟨rfl, -⟩ := List.append_inj' ha rfl
        exact .inr ⟨_, _, _, rfl, rfl, hy, h⟩
  · rintro (⟨l', rfl, h⟩ | ⟨l', y, c', rfl, rfl, hy, h⟩)
    · exact h.keep
    · exact h.put hy

theorem Overwrites.mem (h : Overwrites B a l c) (hy : y ∈ l) : y ∈ a ∨ y ∈ B := by
  induction h with
  | nil => exact absurd hy List.not_mem_nil
  | keep h ih =>
      obtain hy | hy := List.mem_append.mp hy
      · exact (ih hy).imp_left (List.mem_append_left _)
      · exact .inl (List.mem_append_right _ hy)
  | put h hz ih =>
      obtain hy | hy := List.mem_append.mp hy
      · exact (ih hy).imp_left (List.mem_append_left _)
      · exact .inr (List.mem_singleton.mp hy ▸ hz)

/-- `x 1`, `x 2` and so on, up to `x i`. -/
def firstOf (x : Nat → α) (i : Nat) : List α := (List.range i).map fun j => x (j + 1)

theorem firstOf_succ (x : Nat → α) (i : Nat) : firstOf x (i + 1) = firstOf x i ++ [x (i + 1)] := by
  rw [firstOf, List.range_succ, List.map_append]
  rfl

variable {x : Nat → α}

theorem Overwrites.puts (h : Overwrites B (firstOf x p) l c) (hys : ∀ y ∈ ys, y ∈ B) :
    Overwrites B (firstOf x (p + ys.length)) (l ++ ys) (c + ys.length) := by
  induction ys using List.reverseRecOn with
  | nil => rwa [List.append_nil]
  | append_singleton ys y ih =>
      have hall := List.forall_mem_append.mp hys
      rw [List.length_append, List.length_singleton, ← List.append_assoc, ← Nat.add_assoc,
        ← Nat.add_assoc, firstOf_succ]
      exact (ih hall.1).put (hall.2 y (List.mem_singleton_self y))

variable [LinearOrder α]

/-- There are so many values of `B` one above the other between two others. -/
def Room (B : List α) (lo : α) (k : Nat) (hi : α) : Prop :=
  ∃ ys : List α, ys.length = k ∧ (∀ y ∈ ys, y ∈ B) ∧ (lo :: (ys ++ [hi])).IsChain (· < ·)

/-- The costs of keeping the element at a position, with `x 0` below all of them. -/
inductive Kept (B : List α) (x : Nat → α) : Nat → Nat → Prop
  | start : Kept B x 0 0
  | next {p c k : Nat} (h : Kept B x p c) (hroom : Room B (x p) k (x (p + k + 1))) :
      Kept B x (p + k + 1) (c + k)

theorem kept_succ : Kept B x (i + 1) c ↔
    ∃ p k c', p + k = i ∧ c' + k = c ∧ Kept B x p c' ∧ Room B (x p) k (x (i + 1)) := by
  constructor
  · intro h
    generalize hi : i + 1 = i' at h
    cases h with
    | start => cases hi
    | next h hroom =>
        obtain rfl := Nat.succ.inj hi
        exact ⟨_, _, _, rfl, rfl, h, hroom⟩
  · rintro ⟨p, k, c', rfl, rfl, h, hroom⟩
    exact h.next hroom

theorem kept_zero : Kept B x 0 c ↔ c = 0 := by
  constructor
  · intro h
    generalize hi : 0 = i at h
    cases h with
    | start => rfl
    | next => cases hi
  · rintro rfl
    exact .start

theorem Kept.le (h : Kept B x i c) : c ≤ i := by
  induction h with
  | start => exact Nat.le_refl 0
  | next _ _ ih => omega

/-! ## Room -/

theorem room_zero : Room B lo 0 hi ↔ lo < hi := by
  simp [Room, List.length_eq_zero_iff]

theorem Room.lt (h : Room B lo k hi) : lo < hi := by
  obtain ⟨ys, -, -, hchain⟩ := h
  rw [List.isChain_iff_pairwise, List.pairwise_cons] at hchain
  exact hchain.1 hi List.mem_concat_self

/-- The values below `hi` that are the last ones of `B` leave the most room. -/
theorem room_iff (hB : B.Pairwise (· < ·)) (hk : 1 ≤ k) :
    Room B lo k hi ↔ ∃ b, k ≤ partitionPoint (· < hi) B ∧
      B[partitionPoint (· < hi) B - k]? = some b ∧ lo < b := by
  have hpart : Partitioned (· < hi) B := hB.imp fun {a b} hab hb =>
    decide_eq_true (hab.trans (of_decide_eq_true hb))
  have hbelow : ∀ y, y ∈ B.take (partitionPoint (· < hi) B) ↔ y ∈ B ∧ y < hi := fun y => by
    rw [hpart.splitAt.1, List.mem_filter, decide_eq_true_eq]
  have hj := partitionPoint_le_length (p := (· < hi)) (l := B)
  generalize partitionPoint (· < hi) B = j at hbelow hj ⊢
  have hsorted : ∀ s t (hst : s ≤ t) (ht : t < B.length), B[s] ≤ B[t] := fun s t hst ht => by
    obtain rfl | hlt := Nat.eq_or_lt_of_le hst
    · exact le_rfl
    · exact (List.pairwise_iff_getElem.mp hB s t _ ht hlt).le
  constructor
  · rintro ⟨ys, rfl, hys, hchain⟩
    rw [List.isChain_iff_pairwise, List.pairwise_cons, List.pairwise_append] at hchain
    obtain ⟨hlo, hpairwise, -, hhi⟩ := hchain
    have hnodup : ys.Nodup := hpairwise.imp ne_of_lt
    have hsub : ys ⊆ B.take j := fun y hy =>
      (hbelow y).mpr ⟨hys y hy, hhi y hy hi (List.mem_singleton_self hi)⟩
    have hle : ys.length ≤ j := by
      have hlength := (List.subperm_of_subset hnodup hsub).length_le
      rwa [List.length_take_of_le hj] at hlength
    have hin : j - ys.length < B.length := by omega
    refine ⟨B[j - ys.length], hle, List.getElem?_eq_getElem hin, ?_⟩
    by_contra hge
    have hlast : ys ⊆ (B.take j).drop (j - ys.length + 1) := by
      intro y hy
      obtain ⟨t, ht, rfl⟩ := List.getElem_of_mem (hsub hy)
      have hafter : j - ys.length < t := by
        by_contra hbefore
        refine hge ((hlo _ (List.mem_append_left _ hy)).trans_le ?_)
        rw [List.getElem_take]
        exact hsorted _ _ (not_lt.mp hbefore) hin
      rw [List.mem_drop_iff_getElem]
      exact ⟨t - (j - ys.length + 1), by omega, by simp only [Nat.add_sub_of_le hafter]⟩
    have hlength := (List.subperm_of_subset hnodup hlast).length_le
    rw [List.length_drop, List.length_take_of_le hj] at hlength
    omega
  · rintro ⟨b, hkj, hb, hlo⟩
    obtain ⟨hin, rfl⟩ := List.getElem?_eq_some_iff.mp hb
    have hfirst : ∀ y ∈ (B.take j).drop (j - k), B[j - k] ≤ y ∧ y ∈ B ∧ y < hi := by
      intro y hy
      refine ⟨?_, (hbelow y).mp (List.mem_of_mem_drop hy)⟩
      obtain ⟨t, ht, rfl⟩ := List.mem_drop_iff_getElem.mp hy
      rw [List.getElem_take]
      exact hsorted _ _ (Nat.le_add_right _ _) _
    refine ⟨(B.take j).drop (j - k), ?_, fun y hy => (hfirst y hy).2.1, ?_⟩
    · rw [List.length_drop, List.length_take_of_le hj]
      omega
    · rw [List.isChain_iff_pairwise, List.pairwise_cons, List.pairwise_append]
      have hless : B[j - k] < hi := by
        refine ((hbelow _).mp ?_).2
        rw [List.mem_take_iff_getElem]
        exact ⟨j - k, by omega, rfl⟩
      refine ⟨fun y hy => ?_, ?_, List.pairwise_singleton _ _, fun y hy z hz => ?_⟩
      · obtain hy | hy := List.mem_append.mp hy
        · exact hlo.trans_le (hfirst y hy).1
        · exact List.mem_singleton.mp hy ▸ hlo.trans hless
      · exact hB.sublist ((List.drop_sublist _ _).trans (List.take_sublist _ _))
      · exact List.mem_singleton.mp hz ▸ (hfirst y hy).2.2

/-! ## The costs -/

/-- The costs of making `a` increasing without putting anything in place of its last element. -/
def LastKept (B a : List α) (c : Nat) : Prop :=
  ∃ l, Overwrites B a.dropLast l c ∧ (l ++ a.getLast?.toList).Pairwise (· < ·)

theorem Kept.overwrites (h : Kept B x p c) (hroom : Room B (x p) k hi) :
    ∃ l, Overwrites B (firstOf x (p + k)) l (c + k) ∧ (x 0 :: (l ++ [hi])).IsChain (· < ·) := by
  induction h generalizing k hi with
  | start =>
      obtain ⟨ys, rfl, hys, hchain⟩ := hroom
      exact ⟨ys, Overwrites.puts (p := 0) .nil hys, hchain⟩
  | @next p c k' h hroom' ih =>
      obtain ⟨l, hl, hbefore⟩ := ih hroom'
      obtain ⟨ys, rfl, hys, hchain⟩ := hroom
      have hkeep := hl.keep (e := x (p + k' + 1))
      rw [← firstOf_succ] at hkeep
      refine ⟨l ++ [x (p + k' + 1)] ++ ys, hkeep.puts hys, ?_⟩
      rw [← List.cons_append] at hbefore
      have hboth := List.IsChain.append_overlap hbefore hchain (List.cons_ne_nil _ _)
      simpa using hboth

/-- Overwriting goes on from the last position that is kept. -/
theorem Overwrites.exists_kept (h : Overwrites B (firstOf x i) l c)
    (hchain : (x 0 :: l).IsChain (· < ·)) :
    ∃ p c' ys before, p + ys.length = i ∧ c' + ys.length = c ∧ Kept B x p c' ∧
      (∀ y ∈ ys, y ∈ B) ∧ x 0 :: l = before ++ x p :: ys := by
  induction i generalizing l c with
  | zero =>
      obtain ⟨rfl, rfl⟩ := overwrites_nil.mp h
      exact ⟨0, 0, [], [], rfl, rfl, .start, fun _ h => absurd h List.not_mem_nil, rfl⟩
  | succ i ih =>
      rw [firstOf_succ] at h
      obtain ⟨l, rfl, hl⟩ | ⟨l, y, c, rfl, rfl, hy, hl⟩ := overwrites_concat.mp h
      · rw [← List.cons_append] at hchain
        obtain ⟨p, c', ys, before, rfl, rfl, hkept, hys, hsplit⟩ :=
          ih hl (List.isChain_append.mp hchain).1
        refine ⟨p + ys.length + 1, c' + ys.length, [], x 0 :: l, rfl, rfl,
          hkept.next ⟨ys, rfl, hys, ?_⟩, fun _ h => absurd h List.not_mem_nil, rfl⟩
        rw [hsplit, List.append_assoc] at hchain
        exact (List.isChain_append.mp hchain).2.1
      · rw [← List.cons_append] at hchain
        obtain ⟨p, c', ys, before, rfl, rfl, hkept, hys, hsplit⟩ :=
          ih hl (List.isChain_append.mp hchain).1
        refine ⟨p, c', ys ++ [y], before, ?_, ?_, hkept,
          List.forall_mem_append.mpr ⟨hys, List.forall_mem_singleton.mpr hy⟩, ?_⟩
        · rw [List.length_append, List.length_singleton, Nat.add_assoc]
        · rw [List.length_append, List.length_singleton, Nat.add_assoc]
        · rw [← List.cons_append, hsplit, List.append_assoc, List.cons_append]

theorem kept_succ_iff : Kept B x (i + 1) c ↔ ∃ l, Overwrites B (firstOf x i) l c ∧
    (x 0 :: (l ++ [x (i + 1)])).IsChain (· < ·) := by
  constructor
  · intro h
    obtain ⟨p, k, c', rfl, rfl, hkept, hroom⟩ := kept_succ.mp h
    exact hkept.overwrites hroom
  · rintro ⟨l, hl, hchain⟩
    rw [← List.cons_append] at hchain
    obtain ⟨p, c', ys, before, rfl, rfl, hkept, hys, hsplit⟩ :=
      hl.exists_kept (List.isChain_append.mp hchain).1
    rw [hsplit, List.append_assoc] at hchain
    exact hkept.next ⟨ys, rfl, hys, (List.isChain_append.mp hchain).2.1⟩

/-- With `x 0` below all the elements there are and all that is put, it does not count. -/
theorem kept_iff_lastKept (hx : ∀ j < i, x 0 < x (j + 1)) (hB : ∀ y ∈ B, x 0 < y) :
    Kept B x i c ↔ LastKept B (firstOf x i) c := by
  cases i with
  | zero =>
      have hnil : firstOf x 0 = [] := rfl
      simp [kept_zero, LastKept, hnil, overwrites_nil]
  | succ i =>
      rw [kept_succ_iff, firstOf_succ, LastKept, List.dropLast_concat, List.getLast?_concat]
      refine exists_congr fun l => and_congr_right fun hl => ?_
      rw [List.isChain_iff_pairwise, List.pairwise_cons]
      refine and_iff_right fun y hy => ?_
      obtain hy | hy := List.mem_append.mp hy
      · obtain hy | hy := hl.mem hy
        · obtain ⟨j, hj, rfl⟩ := List.mem_map.mp hy
          exact hx j ((List.mem_range.mp hj).trans (Nat.lt_succ_self i))
        · exact hB y hy
      · exact List.mem_singleton.mp hy ▸ hx i (Nat.lt_succ_self i)

end MoreCpp.Library
