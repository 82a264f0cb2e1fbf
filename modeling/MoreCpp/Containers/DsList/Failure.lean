import MoreCpp.Containers.DsList.Refinement

/-!
What `ds::List` does when the allocation of a node or the construction of an
element throws. The operations that make nodes change no list before the last of
them is made, and what was made by then is released, exactly once: a second
release would be undefined behaviour.
-/

namespace MoreCpp.DsList

open Library

variable {V Alloc : Type}

/-- The same lists, with the same nodes in the same order, and no other node. -/
structure Unchanged (h h' : Heap V Alloc) : Prop where
  header : h'.list = h.list
  forward : ∀ l, h'.forward l = h.forward l
  backward : ∀ l, h'.backward l = h.backward l
  value : h'.value = h.value
  storage : h'.storage = h.storage

/-- The nodes allocated are those of the lists, each of one list. -/
def NoLeak (h : Heap V Alloc) : Prop :=
  ∀ n, (h.storage n).isSome ↔ ∃! l, h.sequences.Owns l n

theorem Step.unchanged_of_threw {E : Setting V Alloc} {σ σ' : Spec V Alloc} {op : Op V Alloc}
    {e : Exn} (hstep : Step E σ op (.error e) σ') (hmakes : op.MakesNodes) : σ' = σ := by
  cases hstep with
  | moveAssign_threw => exact hmakes.elim
  | erase_end | popFront_empty | popBack_empty | threw => rfl

namespace Represents

variable {h h' : Heap V Alloc} {σ : Spec V Alloc}

theorem storage_of_holds (hrep : Represents h σ) {l : ListId} {q : Sequence V Alloc} {n : Nat}
    (hq : σ l = some q) (hn : n ∈ nodesOf q.cells) : h.storage n = some q.alloc := by
  obtain ⟨cell, hcell, rfl⟩ := List.mem_map.mp hn
  exact (hrep.present l q hq).storage cell hcell

theorem ended (hrep : Represents h σ) {n : Nat} (hnone : ∀ l, ¬ σ.Owns l n) :
    h.storage n = none ∧ h.value n = none := by
  constructor
  · apply Option.not_isSome_iff_eq_none.mp
    intro hsome
    obtain ⟨l, hl⟩ := hrep.owned n (.inl hsome)
    exact hnone l hl
  · apply Option.not_isSome_iff_eq_none.mp
    intro hsome
    obtain ⟨l, hl⟩ := hrep.owned n (.inr hsome)
    exact hnone l hl

theorem noLeak (hrep : Represents h σ) : NoLeak h := by
  intro n
  rw [hrep.sequences_eq]
  constructor
  · intro hsome
    obtain ⟨l, hl⟩ := hrep.owned n (.inl hsome)
    exact ⟨l, hl, fun l' hl' => hrep.disjoint _ _ n hl' hl⟩
  · rintro ⟨l, ⟨q, hq, hn⟩, -⟩
    rw [hrep.storage_of_holds hq hn]
    rfl

/-- Two heaps that stand for the same sequences differ in nothing a caller can see. -/
theorem unchanged (hrep : Represents h σ) (hrep' : Represents h' σ) : Unchanged h h' := by
  have hlist : ∀ l, h'.list l = h.list l ∧ h'.forward l = h.forward l ∧
      h'.backward l = h.backward l := by
    intro l
    cases hl : σ l with
    | none =>
        have hnone := hrep.absent l hl
        have hnone' := hrep'.absent l hl
        exact ⟨hnone'.trans hnone.symm, by simp [Heap.forward, hnone, hnone'],
          by simp [Heap.backward, hnone, hnone']⟩
    | some q =>
        exact ⟨(hrep'.header hl).trans (hrep.header hl).symm,
          (hrep'.forward hl).trans (hrep.forward hl).symm,
          (hrep'.backward hl).trans (hrep.backward hl).symm⟩
  have hnode : ∀ n, h'.storage n = h.storage n ∧ h'.value n = h.value n := by
    intro n
    by_cases hnone : ∀ l, ¬ σ.Owns l n
    · obtain ⟨hstorage, hvalue⟩ := hrep.ended hnone
      obtain ⟨hstorage', hvalue'⟩ := hrep'.ended hnone
      exact ⟨hstorage'.trans hstorage.symm, hvalue'.trans hvalue.symm⟩
    · obtain ⟨l, hl⟩ := not_forall_not.mp hnone
      obtain ⟨v, hv⟩ := hl.holds
      obtain ⟨q, hq, hn⟩ := hl
      exact ⟨(hrep'.storage_of_holds hq hn).trans (hrep.storage_of_holds hq hn).symm,
        hrep.value_eq hrep' hv hv⟩
  exact ⟨funext fun l => (hlist l).1, fun l => (hlist l).2.1, fun l => (hlist l).2.2,
    funext fun n => (hnode n).2, funext fun n => (hnode n).1⟩

end Represents

variable [DecidableEq Alloc]

/-- Whichever allocation or construction throws, and whatever it throws out of:
no node is leaked or released twice, and where nodes are made nothing else has
happened. -/
theorem failure_atomicity (E : Setting V Alloc) (h : Heap V Alloc)
    (hreach : (system E).Reachable h) (op : Op V Alloc) (hpermitted : Permitted E h.sequences op) :
    ∃ result h', h.perform E op = some (result, h') ∧ NoLeak h' ∧
      (op.MakesNodes → ∀ e, result = .error e → Unchanged h h') := by
  obtain ⟨hrep, htemp⟩ := reachable_represents E h hreach
  obtain ⟨result, h', σ', hrun, hstep, hrep', -⟩ := hrep.perform E htemp op hpermitted
  refine ⟨result, h', hrun, hrep'.noLeak, ?_⟩
  rintro hmakes e rfl
  obtain rfl := hstep.unchanged_of_threw hmakes
  exact hrep.unchanged hrep'

/-- An initializer list whose second element cannot be constructed. -/
theorem failure_atomicity_secondElement : ∃ h' : Heap Nat Unit,
    (Heap.initial Nat Unit).perform { Setting.std Nat with fails := (· = 3) }
      (.constructFrom 0 [5, 6] ()) = some (.error .element, h') ∧
    NoLeak h' ∧ Unchanged (Heap.initial Nat Unit) h' := by
  obtain ⟨result, h', hrun, hleak, hunchanged⟩ := failure_atomicity
    { Setting.std Nat with fails := (· = 3) } (Heap.initial Nat Unit) (.start rfl)
    (.constructFrom 0 [5, 6] ()) rfl
  have hthrew : (Heap.initial Nat Unit).perform { Setting.std Nat with fails := (· = 3) }
      (.constructFrom 0 [5, 6] ()) = some (.error .element, _) := rfl
  obtain ⟨rfl, -⟩ := Prod.mk.inj (Option.some.inj (hthrew.symm.trans hrun))
  exact ⟨h', hrun, hleak, hunchanged trivial _ rfl⟩

end MoreCpp.DsList
