import MoreCpp.Library.AcyclicGraphs
import Mathlib.Data.Finset.Card
import Mathlib.Data.Set.Finite.Basic

/-!
Scheduling jobs that take one slot each, at most `k` in a slot and each after those that it
waits for. No schedule is shorter than one that fills every slot as far as it can.
-/

namespace MoreCpp.Library

open Relation

variable {J : Type*} {all S : Finset J} {R : J → J → Prop} {k m : Nat} {slot : J → Nat} {c : J}

/-- Every job has a slot before `m`. -/
structure Schedule (all : Finset J) (R : J → J → Prop) (k m : Nat) (slot : J → Nat) : Prop where
  before : ∀ c ∈ all, slot c < m
  size : ∀ j, (all.filter fun c => slot c = j).card ≤ k
  order : ∀ p c, R p c → slot p < slot c

/-- The jobs that can be next after those of `S`. -/
noncomputable def ready (all : Finset J) (R : J → J → Prop) (S : Finset J) : Finset J :=
  @Finset.filter J (fun c => c ∉ S ∧ ∀ p, R p c → p ∈ S) (Classical.decPred _) all

theorem mem_ready : c ∈ ready all R S ↔ c ∈ all ∧ c ∉ S ∧ ∀ p, R p c → p ∈ S :=
  @Finset.mem_filter J _ (Classical.decPred _) all c

/-- Without a cycle some job is ready, until all are done. -/
theorem ready_nonempty (hR : ∀ p c, R p c → p ∈ all) (hacyclic : ∀ c, ¬TransGen R c c)
    (hS : S ⊆ all) (hrest : S ≠ all) : (ready all R S).Nonempty := by
  obtain ⟨c, hc, hcS⟩ := Finset.exists_of_ssubset (hS.ssubset_of_ne hrest)
  by_contra hnone
  rw [Finset.not_nonempty_iff_eq_empty] at hnone
  have hback : ∀ x ∈ {x : all | x.1 ∉ S}, ∃ u ∈ {x : all | x.1 ∉ S}, R u.1 x.1 := by
    intro x hx
    have hwaits : ¬∀ p, R p x.1 → p ∈ S := fun hready =>
      Finset.notMem_empty x.1 (hnone ▸ mem_ready.mpr ⟨x.2, hx, hready⟩)
    obtain ⟨p, hp⟩ := not_forall.mp hwaits
    obtain ⟨hp, hpS⟩ := Classical.not_imp.mp hp
    exact ⟨⟨p, hR p x.1 hp⟩, hpS, hp⟩
  refine not_cycleFree (R := fun x y : all => R x.1 y.1) hback (v := ⟨c, hc⟩) hcS ?_
  rintro ⟨x, hcycle, -⟩
  exact hacyclic x.1 (hcycle.lift Subtype.val fun _ _ h => h)

variable [DecidableEq J]

/-- A slot with as many jobs as there can be. -/
def FullSlot (all : Finset J) (R : J → J → Prop) (k : Nat) (S S' : Finset J) : Prop :=
  ∃ T ⊆ ready all R S, T.card = min k (ready all R S).card ∧ S' = S ∪ T

/-- The sets of jobs that are done after so many full slots. -/
inductive FullSlots (all : Finset J) (R : J → J → Prop) (k : Nat) : Nat → Finset J → Prop
  | start : FullSlots all R k 0 ∅
  | next {i T T'} : FullSlots all R k i T → FullSlot all R k T T' → FullSlots all R k (i + 1) T'

theorem FullSlots.subset (h : FullSlots all R k m S) : S ⊆ all := by
  induction h with
  | start => exact Finset.empty_subset all
  | next _ hslot ih =>
      obtain ⟨T, hT, -, rfl⟩ := hslot
      exact Finset.union_subset ih fun c hc => (mem_ready.mp (hT hc)).1

/-- Full slots keep ahead of any schedule. -/
theorem Schedule.fullSlots (h : Schedule all R k m slot) (hR : ∀ p c, R p c → p ∈ all) (j : Nat) :
    ∃ S, FullSlots all R k j S ∧ ∀ c ∈ all, slot c < j → c ∈ S := by
  induction j with
  | zero => exact ⟨∅, .start, fun c _ hc => absurd hc (Nat.not_lt_zero _)⟩
  | succ j ih =>
      obtain ⟨S, hS, hahead⟩ := ih
      have hsub : (all.filter fun c => slot c = j) \ S ⊆ ready all R S := by
        intro c hc
        obtain ⟨hc, hcS⟩ := Finset.mem_sdiff.mp hc
        obtain ⟨hall, hslot⟩ := Finset.mem_filter.mp hc
        exact mem_ready.mpr ⟨hall, hcS, fun p hp =>
          hahead p (hR p c hp) (hslot ▸ h.order p c hp)⟩
      have hcard : ((all.filter fun c => slot c = j) \ S).card ≤ min k (ready all R S).card :=
        le_min ((Finset.card_le_card Finset.sdiff_subset).trans (h.size j))
          (Finset.card_le_card hsub)
      obtain ⟨T, hleft, hT, hTcard⟩ :=
        Finset.exists_subsuperset_card_eq hsub hcard (min_le_right _ _)
      refine ⟨S ∪ T, hS.next ⟨T, hT, hTcard, rfl⟩, fun c hc hlt => ?_⟩
      obtain hlt | heq := Nat.lt_succ_iff_lt_or_eq.mp hlt
      · exact Finset.mem_union_left _ (hahead c hc hlt)
      · by_cases hcS : c ∈ S
        · exact Finset.mem_union_left _ hcS
        · exact Finset.mem_union_right _
            (hleft (Finset.mem_sdiff.mpr ⟨Finset.mem_filter.mpr ⟨hc, heq⟩, hcS⟩))

/-- A schedule of the jobs that are done. -/
theorem FullSlots.schedule (h : FullSlots all R k m S) : ∃ slot : J → Nat, (∀ c ∈ S, slot c < m) ∧
    (∀ j, (S.filter fun c => slot c = j).card ≤ k) ∧
      ∀ p c, R p c → c ∈ S → p ∈ S ∧ slot p < slot c := by
  induction h with
  | start => exact ⟨fun _ => 0, by simp, by simp, by simp⟩
  | @next m S S' hS hslot ih =>
      obtain ⟨slot, hbefore, hsize, horder⟩ := ih
      obtain ⟨T, hT, hcard, rfl⟩ := hslot
      refine ⟨fun c => if c ∈ S then slot c else m, fun c hc => ?_, fun j => ?_,
        fun p c hp hc => ?_⟩
      · dsimp only
        split
        case isTrue hcS => exact (hbefore c hcS).trans (Nat.lt_succ_self m)
        case isFalse => exact Nat.lt_succ_self m
      · obtain rfl | hj := eq_or_ne j m
        · have hsub : ((S ∪ T).filter fun c => (if c ∈ S then slot c else j) = j) ⊆ T := by
            intro c hc
            obtain ⟨hc, hslot⟩ := Finset.mem_filter.mp hc
            refine (Finset.mem_union.mp hc).resolve_left fun hcS => ?_
            rw [if_pos hcS] at hslot
            exact (hbefore c hcS).ne hslot
          exact (Finset.card_le_card hsub).trans (hcard.le.trans (min_le_left _ _))
        · have hsub : ((S ∪ T).filter fun c => (if c ∈ S then slot c else m) = j) ⊆
              S.filter fun c => slot c = j := by
            intro c hc
            obtain ⟨-, hslot⟩ := Finset.mem_filter.mp hc
            split at hslot
            case isTrue hcS => exact Finset.mem_filter.mpr ⟨hcS, hslot⟩
            case isFalse => exact absurd hslot.symm hj
          exact (Finset.card_le_card hsub).trans (hsize j)
      · dsimp only
        obtain hcS | hcT := Finset.mem_union.mp hc
        · obtain ⟨hpS, hlt⟩ := horder p c hp hcS
          rw [if_pos hpS, if_pos hcS]
          exact ⟨Finset.mem_union_left _ hpS, hlt⟩
        · obtain ⟨-, hcS, hready⟩ := mem_ready.mp (hT hcT)
          rw [if_pos (hready p hp), if_neg hcS]
          exact ⟨Finset.mem_union_left _ (hready p hp), hbefore p (hready p hp)⟩

theorem exists_schedule_iff (hR : ∀ p c, R p c → p ∈ all ∧ c ∈ all) :
    (∃ slot, Schedule all R k m slot) ↔ FullSlots all R k m all := by
  constructor
  · rintro ⟨slot, h⟩
    obtain ⟨S, hS, hahead⟩ := h.fullSlots (fun p c hp => (hR p c hp).1) m
    have hall : S = all := hS.subset.antisymm fun c hc => hahead c hc (h.before c hc)
    exact hall ▸ hS
  · intro h
    obtain ⟨slot, hbefore, hsize, horder⟩ := h.schedule
    exact ⟨slot, hbefore, hsize, fun p c hp => (horder p c hp (hR p c hp).2).2⟩

/-- Every slot that is full brings the end closer. -/
theorem exists_fullSlots (hR : ∀ p c, R p c → p ∈ all) (hacyclic : ∀ c, ¬TransGen R c c)
    (hk : 1 ≤ k) : ∃ m, FullSlots all R k m all := by
  have hrun : ∀ count m S, (all \ S).card = count → FullSlots all R k m S →
      ∃ m, FullSlots all R k m all := by
    intro count
    induction count using Nat.strong_induction_on with
    | h count ih =>
        rintro m S rfl hS
        by_cases hall : S = all
        · exact ⟨m, hall ▸ hS⟩
        · have hpos := (ready_nonempty hR hacyclic hS.subset hall).card_pos
          obtain ⟨T, hT, hcard⟩ :=
            Finset.exists_subset_card_eq (min_le_right k (ready all R S).card)
          obtain ⟨c, hc⟩ := Finset.card_pos.mp (hcard ▸ lt_min hk hpos)
          obtain ⟨hcall, hcS, -⟩ := mem_ready.mp (hT hc)
          refine ih _ (Finset.card_lt_card ?_) (m + 1) (S ∪ T) rfl (hS.next ⟨T, hT, hcard, rfl⟩)
          refine Finset.ssubset_iff_subset_ne.mpr ⟨Finset.sdiff_subset_sdiff le_rfl
            Finset.subset_union_left, fun heq => ?_⟩
          have hcleft : c ∈ all \ S := Finset.mem_sdiff.mpr ⟨hcall, hcS⟩
          rw [← heq] at hcleft
          exact (Finset.mem_sdiff.mp hcleft).2 (Finset.mem_union_right _ hc)
  exact hrun _ 0 ∅ rfl .start

end MoreCpp.Library
