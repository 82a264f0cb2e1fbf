import MoreCpp.Library.Selections
import Mathlib.Data.Finset.Max
import Mathlib.Data.List.Pairwise
import Mathlib.Order.Interval.Finset.Nat

/-!
Pairwise disjoint intervals of indices, in whatever order, by the last or the first of them,
and intervals that follow one another.
-/

namespace MoreCpp.Library

/-- The intervals have no index in common. -/
def Apart (p q : Nat × Nat) : Prop := p.2 < q.1 ∨ q.2 < p.1

theorem Apart.symm {p q : Nat × Nat} (h : Apart p q) : Apart q p := Or.symm h

/-- Disjoint intervals of at least two indices from `lo` on and below `hi`. -/
structure Blocks (lo hi : Nat) (s : List (Nat × Nat)) : Prop where
  bounds : ∀ p ∈ s, lo ≤ p.1 ∧ p.1 < p.2 ∧ p.2 < hi
  apart : s.Pairwise Apart

/-- At most one index is left out before the first interval, and between two neighbours. -/
def Close (lo : Nat) (s : List (Nat × Nat)) : Prop :=
  ∀ p ∈ s, p.1 ≤ lo + 1 ∨ ∃ q ∈ s, q.2 < p.1 ∧ p.1 ≤ q.2 + 2

variable {lo hi k : Nat} {s s' : List (Nat × Nat)} {p : Nat × Nat}

theorem Blocks.perm (h : Blocks lo hi s) (hperm : s.Perm s') : Blocks lo hi s' where
  bounds p hp := h.bounds p (hperm.mem_iff.mpr hp)
  apart := (hperm.pairwise_iff Apart.symm).mp h.apart

theorem Close.perm (h : Close lo s) (hperm : s.Perm s') : Close lo s' := by
  intro p hp
  refine (h p (hperm.mem_iff.mpr hp)).imp_right ?_
  rintro ⟨q, hq, hgap⟩
  exact ⟨q, hperm.mem_iff.mp hq, hgap⟩

theorem blocks_nil : Blocks lo hi [] := ⟨nofun, .nil⟩

theorem Blocks.mono {lo' hi' : Nat} (h : Blocks lo hi s) (hlo : lo' ≤ lo) (hhi : hi ≤ hi') :
    Blocks lo' hi' s where
  bounds p hp := by
    have hbounds := h.bounds p hp
    omega
  apart := h.apart

theorem Blocks.eq_nil (h : Blocks lo hi s) (hle : hi ≤ lo + 1) : s = [] := by
  obtain _ | ⟨p, s⟩ := s
  · rfl
  · have hbounds := h.bounds p List.mem_cons_self
    omega

theorem blocks_cons : Blocks lo hi (p :: s) ↔
    (lo ≤ p.1 ∧ p.1 < p.2 ∧ p.2 < hi) ∧ Blocks lo hi s ∧ ∀ q ∈ s, Apart p q := by
  constructor
  · intro h
    obtain ⟨hp, hs⟩ := List.pairwise_cons.mp h.apart
    exact ⟨h.bounds p List.mem_cons_self,
      ⟨fun q hq => h.bounds q (List.mem_cons_of_mem p hq), hs⟩, hp⟩
  · rintro ⟨hbounds, hs, hp⟩
    exact ⟨List.forall_mem_cons.mpr ⟨hbounds, hs.bounds⟩, List.pairwise_cons.mpr ⟨hp, hs.apart⟩⟩

/-- With one more index there may be an interval that ends with it. -/
theorem blocks_succ_iff : Blocks 0 (hi + 1) s ↔
    Extended (Blocks 0 hi) (fun p => Blocks 0 p.1) {p | p.2 = hi ∧ p.1 < hi} s := by
  constructor
  · intro h
    by_cases hlast : ∃ p ∈ s, p.2 = hi
    · obtain ⟨p, hp, hphi⟩ := hlast
      have hperm := List.perm_cons_erase hp
      obtain ⟨hbounds, hrest, hapart⟩ := blocks_cons.mp (h.perm hperm)
      refine .inr ⟨p, ⟨hphi, by omega⟩, _, ⟨fun q hq => ?_, hrest.apart⟩, hperm⟩
      have hq' := hrest.bounds q hq
      have hside := hapart q hq
      unfold Apart at hside
      omega
    · refine .inl ⟨fun p hp => ?_, h.apart⟩
      have hbounds := h.bounds p hp
      have hne : p.2 ≠ hi := fun heq => hlast ⟨p, hp, heq⟩
      omega
  · rintro (h | ⟨p, ⟨hphi, hp⟩, s', h, hperm⟩)
    · exact h.mono (Nat.le_refl 0) (Nat.le_succ hi)
    · refine (blocks_cons.mpr ⟨by omega, ?_, fun q hq => .inr (h.bounds q hq).2.2⟩).perm hperm.symm
      exact h.mono (Nat.le_refl 0) (by omega)

/-- The first of some close intervals is at `lo` or at the index after it, and the others
are close behind it. -/
theorem close_blocks_iff : Blocks lo hi s ∧ Close lo s ↔
    Extended (· = []) (fun p s' => Blocks (p.2 + 1) hi s' ∧ Close (p.2 + 1) s')
      {p | (p.1 = lo ∨ p.1 = lo + 1) ∧ p.1 < p.2 ∧ p.2 < hi} s := by
  constructor
  · rintro ⟨h, hclose⟩
    obtain rfl | hne := eq_or_ne s []
    · exact .inl rfl
    · obtain ⟨p, hp, hmin⟩ := s.toFinset.exists_min_image Prod.fst
        (List.toFinset_nonempty_iff s |>.mpr hne)
      rw [List.mem_toFinset] at hp
      have hperm := List.perm_cons_erase hp
      have hfirst : ∀ q ∈ s, p.1 ≤ q.1 := fun q hq => hmin q (List.mem_toFinset.mpr hq)
      obtain ⟨hbounds, hrest, hapart⟩ := blocks_cons.mp (h.perm hperm)
      have hbehind : ∀ q ∈ s.erase p, p.2 < q.1 := by
        intro q hq
        have hq' := hrest.bounds q hq
        have hside := hapart q hq
        have hle := hfirst q (List.mem_of_mem_erase hq)
        unfold Apart at hside
        omega
      refine .inr ⟨p, ⟨?_, hbounds.2⟩, s.erase p, ⟨⟨fun q hq => ?_, hrest.apart⟩, fun q hq => ?_⟩,
        hperm⟩
      · obtain hle | ⟨q, hq, hgap⟩ := hclose p hp
        · omega
        · have hle := hfirst q hq
          have hq' := h.bounds q hq
          omega
      · exact ⟨hbehind q hq, (hrest.bounds q hq).2⟩
      · have hq' := hbehind q hq
        obtain hle | ⟨r, hr, hgap⟩ := hclose q (List.mem_of_mem_erase hq)
        · omega
        · obtain rfl | hr := List.mem_cons.mp (hperm.mem_iff.mp hr)
          · exact .inl (by omega)
          · exact .inr ⟨r, hr, hgap⟩
  · rintro (rfl | ⟨p, ⟨hlo, hpp, hphi⟩, s', ⟨h, hclose⟩, hperm⟩)
    · exact ⟨blocks_nil, nofun⟩
    · have hblocks : Blocks lo hi (p :: s') := blocks_cons.mpr ⟨by omega, h.mono (by omega) le_rfl,
        fun q hq => .inl (h.bounds q hq).1⟩
      have hclose' : Close lo (p :: s') := by
        intro q hq
        obtain rfl | hq := List.mem_cons.mp hq
        · exact .inl (by omega)
        · obtain hle | ⟨r, hr, hgap⟩ := hclose q hq
          · exact .inr ⟨p, List.mem_cons_self, (h.bounds q hq).1, hle⟩
          · exact .inr ⟨r, List.mem_cons_of_mem p hr, hgap⟩
      exact ⟨hblocks.perm hperm.symm, hclose'.perm hperm.symm⟩

/-! ## Pieces

From one index to another in pieces, each of which ends where the next begins.
-/

section Pieces

inductive Pieces (ok : Nat → Nat → Prop) (i : Nat) : Nat → Nat → Prop where
  | nil : Pieces ok i i 0
  | snoc {j e k} (h : Pieces ok i j k) (hj : j < e) (hok : ok j e) : Pieces ok i e (k + 1)

variable {ok : Nat → Nat → Prop} {turn : Nat → Prop} [DecidablePred turn] {i e n m : Nat}

theorem Pieces.le (h : Pieces ok i e n) : i ≤ e := by
  induction h with
  | nil => exact Nat.le_refl i
  | snoc _ hj _ ih => omega

/-- The indices between where a piece has to end. -/
def turns (turn : Nat → Prop) [DecidablePred turn] (i e : Nat) : Finset Nat :=
  (Finset.Ioo i e).filter turn

/-- A piece goes on as long as there is no turn. -/
theorem exists_pieces (hok : ∀ i e, i < e → e ≤ m → (ok i e ↔ ∀ j, i < j → j < e → ¬turn j))
    (h : i < e) (he : e ≤ m) : Pieces ok i e ((turns turn i e).card + 1) := by
  induction e, Nat.succ_le_of_lt h using Nat.le_induction with
  | base =>
      have hnone : turns turn i (i + 1) = ∅ := by
        ext j
        simp only [turns, Finset.mem_filter, Finset.mem_Ioo, Finset.notMem_empty, iff_false]
        omega
      rw [Nat.succ_eq_add_one, hnone]
      exact .snoc .nil (Nat.lt_succ_self i) ((hok _ _ (Nat.lt_succ_self i) he).mpr (by omega))
  | succ e hie ih =>
      have hnext : Finset.Ioo i (e + 1) = insert e (Finset.Ioo i e) := by
        ext j
        simp only [Finset.mem_Ioo, Finset.mem_insert]
        omega
      by_cases hturn : turn e
      · have hcard : (turns turn i (e + 1)).card = (turns turn i e).card + 1 := by
          rw [turns, hnext, Finset.filter_insert, if_pos hturn, Finset.card_insert_of_notMem]
          · rfl
          · simp
        rw [hcard]
        exact (ih hie (Nat.le_of_succ_le he)).snoc (Nat.lt_succ_self e)
          ((hok _ _ (Nat.lt_succ_self e) he).mpr (by omega))
      · have hcard : turns turn i (e + 1) = turns turn i e := by
          rw [turns, hnext, Finset.filter_insert, if_neg hturn]
          rfl
        rw [hcard]
        obtain _ | ⟨hbefore, hj, hlast⟩ := ih hie (Nat.le_of_succ_le he)
        refine hbefore.snoc (Nat.lt_succ_of_lt hj) ((hok _ _ (Nat.lt_succ_of_lt hj) he).mpr ?_)
        intro j hij hje
        obtain hless | rfl := Nat.lt_or_eq_of_le (Nat.le_of_lt_succ hje)
        · exact (hok _ _ hj (Nat.le_of_succ_le he)).mp hlast j hij hless
        · exact hturn

theorem Pieces.card_turns_lt
    (hok : ∀ i e, i < e → e ≤ m → (ok i e ↔ ∀ j, i < j → j < e → ¬turn j))
    (h : Pieces ok i e n) (hie : i < e) (he : e ≤ m) : (turns turn i e).card < n := by
  induction h with
  | nil => exact absurd hie (Nat.lt_irrefl i)
  | @snoc j e k hbefore hj hlast ih =>
      have hno := (hok _ _ hj he).mp hlast
      have hsub : turns turn i e ⊆ insert j (turns turn i j) := by
        intro x hx
        simp only [turns, Finset.mem_filter, Finset.mem_Ioo, Finset.mem_insert] at hx ⊢
        obtain ⟨⟨hix, hxe⟩, hturn⟩ := hx
        obtain hless | heq | hmore := Nat.lt_trichotomy x j
        · exact .inr ⟨⟨hix, hless⟩, hturn⟩
        · exact .inl heq
        · exact absurd hturn (hno x hmore hxe)
      obtain hij | rfl := Nat.lt_or_eq_of_le hbefore.le
      · have hcard := (Finset.card_le_card hsub).trans (Finset.card_insert_le _ _)
        have hless := ih hij (Nat.le_of_lt (Nat.lt_of_lt_of_le hj he))
        omega
      · have hnone : turns turn i e = ∅ := by
          ext x
          simp only [turns, Finset.mem_filter, Finset.mem_Ioo, Finset.notMem_empty, iff_false]
          exact fun hx => hno x hx.1.1 hx.1.2 hx.2
        rw [hnone]
        exact Nat.succ_pos k

/-- The fewest pieces are one more than the turns. -/
theorem isLeast_pieces (hok : ∀ i e, i < e → e ≤ m → (ok i e ↔ ∀ j, i < j → j < e → ¬turn j))
    (h : i < e) (he : e ≤ m) : IsLeast {n | Pieces ok i e n} ((turns turn i e).card + 1) :=
  ⟨exists_pieces hok h he, fun _ hn => Pieces.card_turns_lt hok hn h he⟩

end Pieces

end MoreCpp.Library
