import MoreCpp.Library.Selections

/-!
Selections of items whose weight is limited, by the last item. A selection has room to
spare if no item without weight comes before others that use up the limit.
-/

namespace MoreCpp.Library

variable {α M : Type*} [AddCommMonoid M] [LinearOrder M] [IsOrderedAddMonoid M]
  {weight : α → Nat} {value : α → M} {l s : List α} {x : α} {j : Nat} {a b : M}

/-- A part of `l` that weighs at most `j`. -/
def Fits (weight : α → Nat) (l : List α) (j : Nat) (s : List α) : Prop :=
  s.Sublist l ∧ total weight s ≤ j

/-- What comes after an item without weight weighs less than `j`. -/
def Spares (weight : α → Nat) (j : Nat) (s : List α) : Prop :=
  ∀ y x z, s = y ++ x :: z → weight x = 0 → total weight z < j

theorem fits_nil_iff : Fits weight [] j s ↔ s = [] := by
  constructor
  · exact fun h => List.sublist_nil.mp h.1
  · rintro rfl
    exact ⟨List.Sublist.refl _, Nat.zero_le j⟩

theorem total_concat (weight : α → Nat) (s : List α) (x : α) :
    total weight (s ++ [x]) = total weight s + weight x := by
  rw [total_append]
  rfl

theorem fits_concat_iff : Fits weight (l ++ [x]) j s ↔
    Fits weight l j s ∨ ∃ s', (weight x ≤ j ∧ Fits weight l (j - weight x) s') ∧ s = s' ++ [x] := by
  unfold Fits
  rw [sublist_concat_iff]
  constructor
  · rintro ⟨hs | ⟨s', hs', rfl⟩, hle⟩
    · exact .inl ⟨hs, hle⟩
    · rw [total_concat] at hle
      exact .inr ⟨s', ⟨by omega, hs', by omega⟩, rfl⟩
  · rintro (⟨hs, hle⟩ | ⟨s', ⟨hx, hs', hle⟩, rfl⟩)
    · exact ⟨.inl hs, hle⟩
    · rw [total_concat]
      exact ⟨.inr ⟨s', hs', rfl⟩, by omega⟩

theorem Spares.nil : Spares weight j [] := fun y x z h =>
  absurd h.symm (List.append_ne_nil_of_right_ne_nil y (List.cons_ne_nil x z))

theorem spares_concat_iff : Spares weight j (s ++ [x]) ↔
    (weight x = 0 → 0 < j) ∧ ∀ y x' z, s = y ++ x' :: z → weight x' = 0 →
      total weight z + weight x < j := by
  constructor
  · intro h
    refine ⟨fun hx => h s x [] rfl hx, fun y x' z hs hx' => ?_⟩
    rw [← total_concat]
    exact h y x' (z ++ [x]) (by rw [hs, List.append_assoc, List.cons_append]) hx'
  · rintro ⟨hlast, hbefore⟩ y x' z hs hx'
    obtain rfl | ⟨z, x'', rfl⟩ := z.eq_nil_or_concat
    · obtain ⟨-, hx⟩ := List.append_inj' hs rfl
      obtain rfl := List.singleton_inj.mp hx
      exact hlast hx'
    · rw [List.concat_eq_append] at hs ⊢
      rw [← List.cons_append, ← List.append_assoc] at hs
      obtain ⟨hfront, hx⟩ := List.append_inj' hs rfl
      obtain rfl := List.singleton_inj.mp hx
      rw [total_concat]
      exact hbefore y x' z hfront hx'

/-- With room left, one more item in the last place takes its weight from it. -/
theorem spares_concat_iff_of_le (hj : 0 < j) (hx : weight x ≤ j) :
    Spares weight j (s ++ [x]) ↔ Spares weight (j - weight x) s := by
  rw [spares_concat_iff]
  constructor
  · intro h y x' z hs hx'
    have hless := h.2 y x' z hs hx'
    omega
  · intro h
    refine ⟨fun _ => hj, fun y x' z hs hx' => ?_⟩
    have hless := h y x' z hs hx'
    omega

theorem best_fits_concat (hskip : Best (Fits weight l j) value a)
    (htake : weight x ≤ j → Best (Fits weight l (j - weight x)) value b) :
    Best (Fits weight (l ++ [x]) j) value (if weight x ≤ j then max a (value x + b) else a) := by
  split
  case isTrue hx =>
    refine hskip.concat (htake hx) fun s => ?_
    rw [fits_concat_iff]
    simp only [hx, true_and]
  case isFalse hx =>
    refine hskip.congr fun s => ?_
    rw [fits_concat_iff]
    simp only [hx, false_and, exists_false, or_false]

/-- Without room there are only items without weight, which have none to spare. -/
theorem spares_zero_iff : Fits weight l 0 s ∧ Spares weight 0 s ↔ s = [] := by
  constructor
  · rintro ⟨⟨-, hle⟩, hspares⟩
    obtain _ | ⟨x, z⟩ := s
    · rfl
    · rw [total_cons] at hle
      exact absurd (hspares [] x z rfl (by omega)) (Nat.not_lt_zero _)
  · rintro rfl
    exact ⟨⟨List.nil_sublist l, Nat.le_refl 0⟩, .nil⟩

theorem best_spares_concat (hj : 0 < j)
    (hskip : Best (fun s => Fits weight l j s ∧ Spares weight j s) value a)
    (htake : weight x ≤ j → Best (fun s => Fits weight l (j - weight x) s ∧
      Spares weight (j - weight x) s) value b) :
    Best (fun s => Fits weight (l ++ [x]) j s ∧ Spares weight j s) value
      (if weight x ≤ j then max a (value x + b) else a) := by
  split
  case isTrue hx =>
    refine hskip.concat (htake hx) fun s => ?_
    rw [fits_concat_iff]
    constructor
    · rintro ⟨hs | ⟨s', ⟨-, hs'⟩, rfl⟩, hspares⟩
      · exact .inl ⟨hs, hspares⟩
      · exact .inr ⟨s', ⟨hs', (spares_concat_iff_of_le hj hx).mp hspares⟩, rfl⟩
    · rintro (⟨hs, hspares⟩ | ⟨s', ⟨hs', hspares⟩, rfl⟩)
      · exact ⟨.inl hs, hspares⟩
      · exact ⟨.inr ⟨s', ⟨hx, hs'⟩, rfl⟩, (spares_concat_iff_of_le hj hx).mpr hspares⟩
  case isFalse hx =>
    refine hskip.congr fun s => and_congr_left fun _ => ?_
    rw [fits_concat_iff]
    simp only [hx, false_and, exists_false, or_false]

end MoreCpp.Library
