import Mathlib.Algebra.Order.BigOperators.Group.Finset
import Mathlib.Data.Finset.Card
import Mathlib.Data.Fintype.Card
import Mathlib.Logic.Function.Iterate
import Mathlib.Logic.Relation

/-!
Disjoint sets kept as trees. Every element has a parent, a root is its own parent, and a
set is known by the root of its tree.
-/

namespace MoreCpp.Library

open Function Relation

variable {α : Type*} {p : α → α} {R : α → α → Prop} {a b u v x y : α}

/-- The way from parent to parent comes to a root. -/
def Forest (p : α → α) : Prop := ∃ level : α → Nat, ∀ x, p x ≠ x → level (p x) < level x

theorem forest_id : Forest (id : α → α) := ⟨fun _ => 0, fun _ hx => absurd rfl hx⟩

/-- What holds of the roots and goes down from parents holds everywhere. -/
theorem Forest.induction {P : α → Prop} (h : Forest p) (hroot : ∀ x, p x = x → P x)
    (hstep : ∀ x, p x ≠ x → P (p x) → P x) (x : α) : P x := by
  obtain ⟨level, hlevel⟩ := h
  induction hl : level x using Nat.strong_induction_on generalizing x with
  | h l ih =>
      by_cases hx : p x = x
      · exact hroot x hx
      · exact hstep x hx (ih _ (hl ▸ hlevel x hx) _ rfl)

variable [Fintype α]

/-- The levels below the number of elements are enough. -/
theorem Forest.exists_level (h : Forest p) : ∃ level : α → Nat,
    (∀ x, level x < Fintype.card α) ∧ ∀ x, p x ≠ x → level (p x) < level x := by
  obtain ⟨level, hlevel⟩ := h
  refine ⟨fun x => (Finset.univ.filter fun y => level y < level x).card, fun x => ?_,
    fun x hx => Finset.card_lt_card ?_⟩
  · exact Finset.card_lt_univ_of_notMem (x := x) (by simp)
  · rw [Finset.ssubset_iff_of_subset
      (Finset.monotone_filter_right _ fun y _ hy => hy.trans (hlevel x hx))]
    exact ⟨p x, by simp [hlevel x hx], by simp⟩

/-- A recursion from parent to parent needs no more fuel than there are elements. -/
theorem Forest.fuel_induction (h : Forest p) {P : Nat → α → Prop}
    (hroot : ∀ fuel x, p x = x → P (fuel + 1) x)
    (hstep : ∀ fuel x, p x ≠ x → P fuel (p x) → P (fuel + 1) x) {fuel : Nat}
    (hfuel : Fintype.card α ≤ fuel) (x : α) : P fuel x := by
  obtain ⟨level, hbound, hlevel⟩ := h.exists_level
  have hdepth : ∀ fuel x, level x < fuel → P fuel x := by
    intro fuel
    induction fuel with
    | zero => exact fun x hx => absurd hx (Nat.not_lt_zero _)
    | succ fuel ih =>
        intro x hx
        by_cases hp : p x = x
        · exact hroot fuel x hp
        · have hless := hlevel x hp
          exact hstep fuel x hp (ih (p x) (by omega))
  exact hdepth fuel x ((hbound x).trans_le hfuel)

def root (p : α → α) (x : α) : α := p^[Fintype.card α] x

theorem root_eq_self (hx : p x = x) : root p x = x := iterate_fixed hx _

namespace Forest

variable (h : Forest p)

include h

theorem parent_root (x : α) : p (root p x) = root p x := by
  obtain ⟨level, hbound, hlevel⟩ := h.exists_level
  have hclimb : ∀ k x, level x ≤ k → p (p^[k] x) = p^[k] x := by
    intro k
    induction k with
    | zero =>
        intro x hx
        by_contra hne
        exact absurd (hlevel x hne) (by omega)
    | succ k ih =>
        intro x hx
        by_cases hne : p x = x
        · rw [iterate_fixed hne, hne]
        · have hless := hlevel x hne
          rw [iterate_succ_apply]
          exact ih (p x) (by omega)
  exact hclimb _ x (hbound x).le

theorem root_parent (x : α) : root p (p x) = root p x := by
  have hroot := h.parent_root x
  unfold root at hroot ⊢
  rw [← iterate_succ_apply, iterate_succ_apply', hroot]

theorem root_root (x : α) : root p (root p x) = root p x := root_eq_self (h.parent_root x)

theorem root_eq_self_iff : root p x = x ↔ p x = x :=
  ⟨fun hx => hx ▸ h.parent_root x, root_eq_self⟩

/-- The root is what does not change from an element to its parent. -/
theorem root_unique {f : α → α} (hroot : ∀ x, p x = x → f x = x) (hstep : ∀ x, f (p x) = f x)
    (x : α) : root p x = f x := by
  apply h.induction (P := fun x => root p x = f x)
  · exact fun x hx => (root_eq_self hx).trans (hroot x hx).symm
  · exact fun x _ hx => by rw [← h.root_parent, hx, hstep]

variable [DecidableEq α]

/-- The root becomes the parent. -/
theorem compress (x : α) : Forest (update p x (root p x)) := by
  obtain ⟨level, hlevel⟩ := h
  have hclimb : ∀ y, p y ≠ y → level (root p y) < level y := by
    apply Forest.induction (P := fun y => p y ≠ y → level (root p y) < level y) ⟨level, hlevel⟩
    · exact fun y hy hne => absurd hy hne
    · intro y hy ih hne
      rw [← Forest.root_parent ⟨level, hlevel⟩ y]
      by_cases hp : p (p y) = p y
      · rw [root_eq_self hp]
        exact hlevel y hne
      · exact (ih hp).trans (hlevel y hne)
  refine ⟨level, fun y hy => ?_⟩
  obtain rfl | hne := eq_or_ne y x
  · rw [update_self] at hy ⊢
    exact hclimb y fun hroot => hy (root_eq_self hroot)
  · rw [update_of_ne hne] at hy ⊢
    exact hlevel y hy

theorem root_compress (x : α) : root (update p x (root p x)) = root p := by
  funext y
  apply (h.compress x).root_unique
  · intro y hy
    obtain rfl | hne := eq_or_ne y x
    · rwa [update_self] at hy
    · rw [update_of_ne hne] at hy
      exact root_eq_self hy
  · intro y
    obtain rfl | hne := eq_or_ne y x
    · rw [update_self, h.root_root]
    · rw [update_of_ne hne, h.root_parent]

/-- A root gets another root as its parent. -/
theorem link (hx : p x = x) (hy : p y = y) (hne : x ≠ y) : Forest (update p y x) := by
  have hroot := h.root_parent
  obtain ⟨level, hlevel⟩ := h
  refine ⟨fun z => if root p z = y then level z + level x + 1 else level z, fun z hz => ?_⟩
  obtain rfl | hzy := eq_or_ne z y
  · rw [update_self]
    dsimp only
    rw [root_eq_self hx, root_eq_self hy, if_neg hne, if_pos rfl]
    omega
  · rw [update_of_ne hzy] at hz ⊢
    have hless := hlevel z hz
    dsimp only
    rw [hroot]
    split <;> omega

theorem root_link (hx : p x = x) (hy : p y = y) (hne : x ≠ y) (z : α) :
    root (update p y x) z = if root p z = y then x else root p z := by
  apply (h.link hx hy hne).root_unique
  · intro z hz
    obtain rfl | hzy := eq_or_ne z y
    · rw [update_self] at hz
      exact absurd hz hne
    · rw [update_of_ne hzy] at hz
      rw [root_eq_self hz, if_neg hzy]
  · intro z
    obtain rfl | hzy := eq_or_ne z y
    · rw [update_self, root_eq_self hx, root_eq_self hy, if_neg hne, if_pos rfl]
    · rw [update_of_ne hzy, h.root_parent]

end Forest

omit [Fintype α] in
/-- An equivalence of all the pairs holds of what they join. -/
theorem eqvGen_least {S : α → α → Prop} (hS : Equivalence S) (hpairs : ∀ a b, R a b → S a b)
    (h : EqvGen R u v) : S u v :=
  hS.eqvGen_iff.mp (EqvGen.mono hpairs u v h)

/-- The sets are the classes of the elements that the pairs join. -/
structure DisjointSets (p : α → α) (R : α → α → Prop) : Prop where
  forest : Forest p
  same : ∀ u v, root p u = root p v ↔ EqvGen R u v

namespace DisjointSets

theorem singletons : DisjointSets (id : α → α) fun _ _ => False where
  forest := forest_id
  same u v := by
    rw [root_eq_self rfl, root_eq_self rfl]
    exact ⟨fun h => h ▸ .refl u, eqvGen_least eq_equivalence fun _ _ => False.elim⟩

theorem congr (h : DisjointSets p R) {R' : α → α → Prop} (hR : ∀ a b, R a b ↔ R' a b) :
    DisjointSets p R' := by
  obtain rfl : R = R' := funext fun a => funext fun b => propext (hR a b)
  exact h

theorem same_of_join (h : DisjointSets p R) (hjoin : R a b) : root p a = root p b :=
  (h.same a b).mpr (.rel a b hjoin)

/-- A pair of one set joins nothing. -/
theorem insert (h : DisjointSets p R) (hab : root p a = root p b) :
    DisjointSets p fun u v => R u v ∨ u = a ∧ v = b where
  forest := h.forest
  same u v := by
    constructor
    · exact fun huv => EqvGen.mono (fun _ _ => .inl) u v ((h.same u v).mp huv)
    · apply eqvGen_least (eq_equivalence.comap (root p))
      rintro u v (hjoin | ⟨rfl, rfl⟩)
      · exact h.same_of_join hjoin
      · exact hab

/-- The sets depend on the roots only. -/
theorem of_root_eq (h : DisjointSets p R) {p' : α → α} (hp' : Forest p')
    (hroot : root p' = root p) : DisjointSets p' R where
  forest := hp'
  same u v := by rw [hroot, h.same]

variable [DecidableEq α]

theorem root_link (h : DisjointSets p R) (hne : root p a ≠ root p b) (z : α) :
    root (update p (root p b) (root p a)) z = if root p z = root p b then root p a else root p z :=
  h.forest.root_link (h.forest.parent_root a) (h.forest.parent_root b) hne z

theorem root_link_eq_iff (h : DisjointSets p R) (hne : root p a ≠ root p b) :
    root (update p (root p b) (root p a)) u = root (update p (root p b) (root p a)) v ↔
      root p u = root p v ∨ root p u = root p a ∧ root p v = root p b ∨
        root p u = root p b ∧ root p v = root p a := by
  rw [h.root_link hne, h.root_link hne]
  grind

/-- The pair joins the two sets that it is of. -/
theorem link (h : DisjointSets p R) (hne : root p a ≠ root p b) :
    DisjointSets (update p (root p b) (root p a)) fun u v => R u v ∨ u = a ∧ v = b where
  forest := h.forest.link (h.forest.parent_root a) (h.forest.parent_root b) hne
  same u v := by
    constructor
    · have hold : ∀ u v, root p u = root p v → EqvGen (fun u v => R u v ∨ u = a ∧ v = b) u v :=
        fun u v huv => EqvGen.mono (fun _ _ => .inl) u v ((h.same u v).mp huv)
      have hnew : EqvGen (fun u v => R u v ∨ u = a ∧ v = b) a b := .rel a b (.inr ⟨rfl, rfl⟩)
      rw [h.root_link hne, h.root_link hne]
      split <;> split
      case isTrue.isTrue hu hv => exact fun _ => hold u v (hu.trans hv.symm)
      case isTrue.isFalse hu hv =>
        exact fun huv => (hold u b hu).trans _ _ _ ((hnew.symm _ _).trans _ _ _ (hold a v huv))
      case isFalse.isTrue hu hv =>
        exact fun huv => (hold u a huv).trans _ _ _ (hnew.trans _ _ _ (hold b v hv.symm))
      case isFalse.isFalse => exact hold u v
    · apply eqvGen_least (eq_equivalence.comap (root (update p (root p b) (root p a))))
      rintro u v (hjoin | ⟨rfl, rfl⟩)
      · show root _ u = root _ v
        rw [h.root_link hne, h.root_link hne, h.same_of_join hjoin]
      · show root _ u = root _ v
        rw [h.root_link hne, h.root_link hne, if_neg hne, if_pos rfl]

omit [DecidableEq α] in
/-- It does not matter which way round the pair is. -/
theorem swap (h : DisjointSets p fun u v => R u v ∨ u = b ∧ v = a) :
    DisjointSets p fun u v => R u v ∨ u = a ∧ v = b where
  forest := h.forest
  same u v := by
    have hturn : ∀ a b, EqvGen (fun u v => R u v ∨ u = b ∧ v = a) u v →
        EqvGen (fun u v => R u v ∨ u = a ∧ v = b) u v := by
      intro a b
      apply eqvGen_least (EqvGen.is_equivalence _)
      rintro u v (hjoin | ⟨rfl, rfl⟩)
      · exact .rel _ _ (.inl hjoin)
      · exact .symm _ _ (.rel _ _ (.inr ⟨rfl, rfl⟩))
    rw [h.same]
    exact ⟨hturn a b, hturn b a⟩

/-! ## Members -/

/-- The set that is known by `r`. -/
def members (p : α → α) (r : α) : Finset α := Finset.univ.filter fun z => root p z = r

theorem mem_members {r z : α} : z ∈ members p r ↔ root p z = r := by simp [members]

theorem members_id (r : α) : members (id : α → α) r = {r} := by
  ext z
  rw [mem_members, Finset.mem_singleton]
  exact (root_eq_self rfl).congr_left

theorem disjoint_members {r r' : α} (hne : r ≠ r') : Disjoint (members p r) (members p r') :=
  Finset.disjoint_left.mpr fun _ hz hz' =>
    hne ((mem_members.mp hz).symm.trans (mem_members.mp hz'))

theorem members_link (h : DisjointSets p R) (hne : root p a ≠ root p b) :
    members (update p (root p b) (root p a)) (root p a) =
      members p (root p a) ∪ members p (root p b) := by
  ext z
  rw [Finset.mem_union, mem_members, mem_members, mem_members, h.root_link hne]
  split
  case isTrue hz => simp [hz]
  case isFalse hz => simp [hz]

theorem members_link_of_ne (h : DisjointSets p R) (hne : root p a ≠ root p b) {r : α}
    (ha : r ≠ root p a) (hb : r ≠ root p b) :
    members (update p (root p b) (root p a)) r = members p r := by
  ext z
  rw [mem_members, mem_members, h.root_link hne]
  split
  case isTrue hz => exact iff_of_false ha.symm fun hr => hb (hr.symm.trans hz)
  case isFalse hz => rfl

/-- Every element is in the set of one root. -/
theorem sum_members (h : Forest p) :
    ∑ r ∈ Finset.univ.filter (fun r => p r = r), (members p r).card = Fintype.card α := by
  have hmaps : ∀ z ∈ (Finset.univ : Finset α), root p z ∈ Finset.univ.filter fun r => p r = r :=
    fun z _ => Finset.mem_filter.mpr ⟨Finset.mem_univ _, h.parent_root z⟩
  exact (Finset.card_eq_sum_card_fiberwise hmaps).symm

/-! ## Ranks -/

/-- Ranks grow from parent to parent, and a set has two to the rank of its root at least. -/
def Ranked (p : α → α) : Prop := ∃ rank : α → Nat, (∀ x, p x ≠ x → rank x < rank (p x)) ∧
  ∀ r, p r = r → 2 ^ rank r ≤ (members p r).card

theorem ranked_id : Ranked (id : α → α) := by
  refine ⟨fun _ => 0, fun x hx => absurd rfl hx, fun r _ => ?_⟩
  rw [members_id, pow_zero, Finset.card_singleton]

theorem Ranked.compress (h : Ranked p) (hforest : Forest p) (x : α) :
    Ranked (update p x (root p x)) := by
  obtain ⟨rank, hgrow, hlarge⟩ := h
  have hclimb : ∀ y, p y ≠ y → rank y < rank (root p y) := by
    apply hforest.induction (P := fun y => p y ≠ y → rank y < rank (root p y))
    · exact fun y hy hne => absurd hy hne
    · intro y hy ih _
      rw [← hforest.root_parent y]
      by_cases hp : p (p y) = p y
      · rw [root_eq_self hp]
        exact hgrow y hy
      · exact (hgrow y hy).trans (ih hp)
  have hroots : ∀ y, update p x (root p x) y = y → p y = y := by
    intro y hy
    obtain rfl | hne := eq_or_ne y x
    · rw [update_self] at hy
      exact hforest.root_eq_self_iff.mp hy
    · rwa [update_of_ne hne] at hy
  refine ⟨rank, fun y hy => ?_, fun r hr => ?_⟩
  · obtain rfl | hne := eq_or_ne y x
    · rw [update_self] at hy ⊢
      exact hclimb y fun hroot => hy (root_eq_self hroot)
    · rw [update_of_ne hne] at hy ⊢
      exact hgrow y hy
  · rw [members, hforest.root_compress]
    exact hlarge r (hroots r hr)

/-- The root of a set that is no larger goes under the other root. -/
theorem Ranked.link (h : Ranked p) (hsets : DisjointSets p R) (hne : root p a ≠ root p b)
    (hsize : (members p (root p b)).card ≤ (members p (root p a)).card) :
    Ranked (update p (root p b) (root p a)) := by
  obtain ⟨rank, hgrow, hlarge⟩ := h
  have ha := hsets.forest.parent_root a
  have hb := hsets.forest.parent_root b
  refine ⟨update rank (root p a) (max (rank (root p a)) (rank (root p b) + 1)),
    fun y hy => ?_, fun r hr => ?_⟩
  · obtain rfl | hyb := eq_or_ne y (root p b)
    · rw [update_self, update_self, update_of_ne hne.symm]
      omega
    · rw [update_of_ne hyb] at hy ⊢
      have hya : y ≠ root p a := fun heq => hy (heq ▸ ha)
      have hless := hgrow y hy
      rw [update_of_ne hya, update_apply]
      split
      case isTrue htop =>
        rw [htop] at hless
        omega
      case isFalse => exact hless
  · have hrb : r ≠ root p b := by
      rintro rfl
      rw [update_self] at hr
      exact hne hr
    rw [update_of_ne hrb] at hr
    obtain rfl | hra := eq_or_ne r (root p a)
    · rw [update_self, hsets.members_link hne,
        Finset.card_union_of_disjoint (disjoint_members hne)]
      have hlargeA := hlarge _ ha
      have hlargeB := hlarge _ hb
      rcases max_choice (rank (root p a)) (rank (root p b) + 1) with hmax | hmax
      · rw [hmax]
        omega
      · rw [hmax, pow_succ]
        omega
    · rw [update_of_ne hra, hsets.members_link_of_ne hne hra hrb]
      exact hlarge r hr

end DisjointSets

end MoreCpp.Library
