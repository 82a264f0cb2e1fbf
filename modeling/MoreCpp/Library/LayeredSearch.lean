import MoreCpp.Library.LabelledGraph
import Mathlib.Data.List.Pairwise

/-!
Breadth-first search, where an edge adds 1 to a label. The vertices seen are in the queue or
have left it.
-/

namespace MoreCpp.Library

variable {V E : Type*}

/-- A queue is sorted by its labels, which differ by 1 at most. -/
structure Layered (G : LabelledGraph V E Nat) (Settled : V → Nat → Prop) (Seen : V → Prop)
    (queue : List (V × Nat)) : Prop where
  label : ∀ v c, (v, c) ∈ queue → G.Label v c
  seen : ∀ v, Seen v ↔ (∃ c, Settled v c) ∨ ∃ c, (v, c) ∈ queue
  sorted : queue.Pairwise fun e e' => e.2 ≤ e'.2
  near : ∀ e ∈ queue, ∀ e' ∈ queue, e'.2 ≤ e.2 + 1
  settled : ∀ v c, Settled v c → ∀ e ∈ queue, c ≤ e.2
  covered : G.Covered Settled fun v c => (v, c) ∈ queue

namespace Layered

variable {G : LabelledGraph V E Nat} {Settled : V → Nat → Prop} {Seen Seen' : V → Prop}
  {queue rest : List (V × Nat)} {new : List V} {s v : V} {c t : Nat}

theorem init (hstart : ∀ v c, G.Start v c ↔ v = s ∧ c = 0) :
    Layered G (fun _ _ => False) (· = s) [(s, 0)] := by
  have hmem : ∀ v c, (v, c) ∈ [(s, 0)] ↔ v = s ∧ c = 0 := fun v c => by
    rw [List.mem_singleton, Prod.mk.injEq]
  constructor
  case label => exact fun v c h => .start ((hstart v c).mpr ((hmem v c).mp h))
  case seen =>
    intro v
    simp only [hmem, exists_false, false_or, exists_and_left, exists_eq, and_true]
  case sorted => exact List.pairwise_singleton ..
  case near =>
    intro e he e' he'
    rw [List.mem_singleton.mp he, List.mem_singleton.mp he']
    exact Nat.le_succ _
  case settled => exact fun v c h => h.elim
  case covered =>
    exact ⟨fun v c h => ⟨c, le_rfl, .inr ((hmem v c).mpr ((hstart v c).mp h))⟩,
      fun v c e u h => h.elim⟩

/-- The vertices that are joined to the first one and not seen yet go to the end. -/
theorem next (h : Layered G Settled Seen ((v, t) :: rest)) (hunit : ∀ c e, G.extend c e = c + 1)
    (hnew : ∀ u ∈ new, ∃ e, G.Joins v e u) (hseen : ∀ u, Seen' u ↔ Seen u ∨ u ∈ new)
    (hall : ∀ e u, G.Joins v e u → Seen' u) :
    Layered G (fun u c => Settled u c ∨ u = v ∧ c = t) Seen' (rest ++ new.map (·, t + 1)) := by
  have hhead : (v, t) ∈ (v, t) :: rest := List.mem_cons_self
  have htail : ∀ e ∈ rest, e ∈ (v, t) :: rest := fun e he => List.mem_cons_of_mem _ he
  have hrest : ∀ e ∈ rest, t ≤ e.2 ∧ e.2 ≤ t + 1 := fun e he =>
    ⟨(List.pairwise_cons.mp h.sorted).1 e he, h.near _ hhead e (htail e he)⟩
  have hmem : ∀ u c, (u, c) ∈ rest ++ new.map (·, t + 1) ↔
      (u, c) ∈ rest ∨ u ∈ new ∧ c = t + 1 := by
    intro u c
    rw [List.mem_append, List.mem_map]
    refine or_congr_right ⟨?_, ?_⟩
    · rintro ⟨w, hw, heq⟩
      obtain ⟨rfl, rfl⟩ := Prod.mk.inj heq
      exact ⟨hw, rfl⟩
    · rintro ⟨hu, rfl⟩
      exact ⟨u, hu, rfl⟩
  have hbounds : ∀ e ∈ rest ++ new.map (·, t + 1), t ≤ e.2 ∧ e.2 ≤ t + 1 := by
    rintro ⟨u, c⟩ he
    obtain he | ⟨-, rfl⟩ := (hmem u c).mp he
    · exact hrest _ he
    · exact ⟨Nat.le_succ t, le_rfl⟩
  have hstill : ∀ u c, (u, c) ∈ (v, t) :: rest →
      (Settled u c ∨ u = v ∧ c = t) ∨ (u, c) ∈ rest ++ new.map (·, t + 1) := by
    intro u c he
    obtain heq | he := List.mem_cons.mp he
    · exact .inl (.inr (Prod.mk.inj heq))
    · exact .inr ((hmem u c).mpr (.inl he))
  constructor
  case label =>
    intro u c he
    obtain he | ⟨hu, rfl⟩ := (hmem u c).mp he
    · exact h.label u c (htail _ he)
    · obtain ⟨e, hjoins⟩ := hnew u hu
      rw [← hunit t e]
      exact .step (h.label v t hhead) hjoins
  case seen =>
    intro u
    rw [hseen, h.seen]
    constructor
    · rintro ((⟨c, hsettled⟩ | ⟨c, hqueued⟩) | hu)
      · exact .inl ⟨c, .inl hsettled⟩
      · exact (hstill u c hqueued).imp (fun hdone => ⟨c, hdone⟩) fun he => ⟨c, he⟩
      · exact .inr ⟨t + 1, (hmem u _).mpr (.inr ⟨hu, rfl⟩)⟩
    · rintro (⟨c, hsettled | ⟨rfl, rfl⟩⟩ | ⟨c, hqueued⟩)
      · exact .inl (.inl ⟨c, hsettled⟩)
      · exact .inl (.inr ⟨c, hhead⟩)
      · obtain he | ⟨hu, -⟩ := (hmem u c).mp hqueued
        · exact .inl (.inr ⟨c, htail _ he⟩)
        · exact .inr hu
  case sorted =>
    rw [List.pairwise_append]
    refine ⟨(List.pairwise_cons.mp h.sorted).2, ?_, fun e he e' he' => ?_⟩
    · exact List.pairwise_map.mpr (List.pairwise_of_forall fun _ _ => le_rfl)
    · obtain ⟨u, -, rfl⟩ := List.mem_map.mp he'
      exact (hrest e he).2
  case near =>
    intro e he e' he'
    exact (hbounds e' he').2.trans (Nat.succ_le_succ (hbounds e he).1)
  case settled =>
    rintro u c (hsettled | ⟨rfl, rfl⟩) e he
    · exact (h.settled u c hsettled _ hhead).trans (hbounds e he).1
    · exact (hbounds e he).1
  case covered =>
    refine h.covered.advance (fun u c hreached => ⟨c, le_rfl, ?_⟩) fun u c hsettled => ?_
    · obtain hsettled | hqueued := hreached
      · exact .inl (.inl hsettled)
      · exact hstill u c hqueued
    · obtain hsettled | ⟨rfl, rfl⟩ := hsettled
      · exact .inl hsettled
      · refine .inr fun e w hjoins => ?_
        rw [hunit]
        obtain hold | hw := (hseen w).mp (hall e w hjoins)
        · obtain ⟨c', hsettled⟩ | ⟨c', hqueued⟩ := (h.seen w).mp hold
          · exact ⟨c', (h.settled w c' hsettled _ hhead).trans (Nat.le_succ c),
              .inl (.inl hsettled)⟩
          · exact ⟨c', h.near _ hhead _ hqueued, hstill w c' hqueued⟩
        · exact ⟨c + 1, le_rfl, .inr ((hmem w (c + 1)).mpr (.inr ⟨hw, rfl⟩))⟩

/-- The first of the queue has its least label, if it has not left the queue before. -/
theorem least (h : Layered G Settled Seen ((v, t) :: rest)) (hfresh : ∀ c, ¬Settled v c) :
    G.Least v t := by
  refine h.covered.least (h.label v t List.mem_cons_self) (fun u c hqueued => ?_) hfresh
  obtain heq | hqueued := List.mem_cons.mp hqueued
  · exact (Prod.mk.inj heq).2.ge
  · exact (List.pairwise_cons.mp h.sorted).1 _ hqueued

/-- All that has a label leaves the queue before it is empty. -/
theorem exhausted (h : Layered G Settled Seen []) (hlabel : G.Label v c) :
    ∃ c' ≤ c, Settled v c' := by
  obtain hsettled | ⟨u, c', hqueued, -⟩ := h.covered.reaches hlabel
  · exact hsettled
  · exact absurd hqueued List.not_mem_nil

end Layered

end MoreCpp.Library
