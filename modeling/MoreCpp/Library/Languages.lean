import Mathlib.Computability.Language
import Mathlib.Logic.Relation

/-!
Rewriting of words to normal forms, and languages given by their first symbols.
-/

namespace MoreCpp.Library

/-! ## Normal forms

Normal forms of a rewriting relation that a function computes.
-/

section Rewriting

variable {α : Type*} {r : α → α → Prop} {f : α → α}

/-- Nothing can be rewritten. -/
def Normal (r : α → α → Prop) (s : α) : Prop := ∀ t, ¬ r s t

/-- Rewriting that ends reaches a normal form. -/
theorem exists_normal (hwf : WellFounded (flip r)) (s : α) :
    ∃ t, Relation.ReflTransGen r s t ∧ Normal r t := by
  induction s using hwf.induction with
  | _ s ih =>
      by_cases hnormal : Normal r s
      · exact ⟨s, .refl, hnormal⟩
      · obtain ⟨u, hu⟩ := Classical.not_forall_not.mp hnormal
        obtain ⟨t, ht, hnormal'⟩ := ih u hu
        exact ⟨t, .head hu ht, hnormal'⟩

theorem eq_of_rewrites (hkeep : ∀ s t, r s t → f s = f t) {s t : α}
    (h : Relation.ReflTransGen r s t) : f s = f t := by
  induction h with
  | refl => rfl
  | tail _ hlast ih => exact ih.trans (hkeep _ _ hlast)

/-- A function that no step changes the value of, and that leaves normal forms alone,
computes the one normal form that there is. -/
theorem normalForm_of_invariant (hwf : WellFounded (flip r)) (hkeep : ∀ s t, r s t → f s = f t)
    (hfix : ∀ t, Normal r t → f t = t) (s : α) :
    Normal r (f s) ∧ Relation.ReflTransGen r s (f s) ∧
      ∀ t, Relation.ReflTransGen r s t → Normal r t → t = f s := by
  have honly : ∀ t, Relation.ReflTransGen r s t → Normal r t → t = f s := by
    intro t ht hnormal
    exact (hfix t hnormal).symm.trans (eq_of_rewrites hkeep ht).symm
  obtain ⟨t, ht, hnormal⟩ := exists_normal hwf s
  obtain rfl := honly t ht hnormal
  exact ⟨hnormal, ht, honly⟩

end Rewriting

/-! ## First symbols

Languages that begin with one symbol of a class, or with any number of them.
-/

section SymbolLanguage

open Computability

variable {α : Type*} {P : α → Prop} {L : Language α} {w : List α}

/-- The words of one symbol of which `P` holds. -/
def symbols (P : α → Prop) : Language α := {w | ∃ x, P x ∧ w = [x]}

theorem mem_symbols_mul :
    w ∈ symbols P * L ↔ ∃ x v, w = x :: v ∧ P x ∧ v ∈ L := by
  rw [Language.mem_mul]
  constructor
  · rintro ⟨_, ⟨x, hx, rfl⟩, v, hv, rfl⟩
    exact ⟨x, v, rfl, hx, hv⟩
  · rintro ⟨x, v, rfl, hx, hv⟩
    exact ⟨[x], ⟨x, hx, rfl⟩, v, hv, rfl⟩

/-- Either the star takes nothing, or it takes a first symbol and goes on. -/
theorem mem_symbols_kstar_mul :
    w ∈ (symbols P)∗ * L ↔ w ∈ L ∨ ∃ x v, w = x :: v ∧ P x ∧ v ∈ (symbols P)∗ * L := by
  have hunfold : (symbols P)∗ * L = L + symbols P * ((symbols P)∗ * L) := by
    calc (symbols P)∗ * L = (1 + symbols P * (symbols P)∗) * L := by
          rw [Language.one_add_self_mul_kstar_eq_kstar]
      _ = L + symbols P * ((symbols P)∗ * L) := by rw [add_mul, one_mul, mul_assoc]
  rw [hunfold, Language.mem_add, mem_symbols_mul, ← hunfold]

end SymbolLanguage

end MoreCpp.Library
