import Mathlib.Data.Set.Insert

/-!
What a backtracking search looks for: a value for each place of a list that may stand there
and clashes with no value that is already placed.
-/

namespace MoreCpp.Library

variable {P V : Type*} {may : P → V → Prop} {clash : P × V → P × V → Prop}

/-- `c` gives values to the places, from the first to the last. -/
def Solves (may : P → V → Prop) (clash : P × V → P × V → Prop) :
    Set (P × V) → List P → (P → V) → Prop
  | _, [], _ => True
  | placed, p :: rest, c => may p (c p) ∧ (∀ q ∈ placed, ¬clash (p, c p) q) ∧
      Solves may clash (insert (p, c p) placed) rest c

variable {placed : Set (P × V)} {places : List P} {p : P} {v : V} {c c' : P → V}

theorem Solves.congr (h : Solves may clash placed places c) (hsame : ∀ p ∈ places, c' p = c p) :
    Solves may clash placed places c' := by
  induction places generalizing placed with
  | nil => trivial
  | cons p rest ih =>
      obtain ⟨hmay, hplaced, hrest⟩ := h
      rw [Solves, hsame p List.mem_cons_self]
      exact ⟨hmay, hplaced, ih hrest fun q hq => hsame q (List.mem_cons_of_mem p hq)⟩

/-- A value at a place that comes only once, and a solution of the rest. -/
theorem Solves.cons [DecidableEq P] (h : Solves may clash (insert (p, v) placed) places c)
    (hfresh : p ∉ places) (hmay : may p v) (hplaced : ∀ q ∈ placed, ¬clash (p, v) q) :
    Solves may clash placed (p :: places) (Function.update c p v) := by
  rw [Solves, Function.update_self]
  refine ⟨hmay, hplaced, h.congr fun q hq => Function.update_of_ne ?_ ..⟩
  rintro rfl
  exact hfresh hq

/-- All at once: what is placed, and each two of the places. -/
theorem solves_iff : Solves may clash placed places c ↔
    (∀ p ∈ places, may p (c p) ∧ ∀ q ∈ placed, ¬clash (p, c p) q) ∧
      places.Pairwise fun p p' => ¬clash (p', c p') (p, c p) := by
  induction places generalizing placed with
  | nil => simp [Solves]
  | cons p rest ih =>
      rw [Solves, ih, List.forall_mem_cons, List.pairwise_cons]
      constructor
      · rintro ⟨hmay, hplaced, hrest, hpairs⟩
        exact ⟨⟨⟨hmay, hplaced⟩, fun q hq => ⟨(hrest q hq).1, fun r hr =>
          (hrest q hq).2 r (Set.mem_insert_of_mem _ hr)⟩⟩, fun q hq =>
            (hrest q hq).2 _ (Set.mem_insert ..), hpairs⟩
      · rintro ⟨⟨⟨hmay, hplaced⟩, hrest⟩, hfirst, hpairs⟩
        refine ⟨hmay, hplaced, fun q hq => ⟨(hrest q hq).1, fun r hr => ?_⟩, hpairs⟩
        obtain rfl | hr := Set.mem_insert_iff.mp hr
        · exact hfirst q hq
        · exact (hrest q hq).2 r hr

end MoreCpp.Library
