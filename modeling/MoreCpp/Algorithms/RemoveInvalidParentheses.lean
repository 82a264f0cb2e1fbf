import MoreCpp.Library.Brackets
import Mathlib.Data.Finset.Insert

/-!
`remove_invalid_parentheses` of `algorithms/strings/strings.cpp`. An index out of range
gives `none`, and so does a recursion that runs out of fuel.
-/

namespace MoreCpp

open Library

namespace RemoveInvalidParentheses

/-- The order in which an `unordered_set` lists its elements: any. -/
structure Iteration (α : Type) where
  list : Finset α → List α
  nodup : ∀ S, (list S).Nodup
  mem_iff : ∀ S a, a ∈ list S ↔ a ∈ S

/-- A turn of the loop that counts `l` and `r`. -/
def countRound : Nat × Nat → Char → Nat × Nat
  | (l, r), c =>
    if c = '(' then (l + 1, r)
    else if c = ')' then
      if l ≠ 0 then (l - 1, r) else (l, r + 1)
    else (l, r)

def dfs (s : List Char) : Nat → Nat → Nat → Nat → Nat → Nat → List Char →
    Finset (List Char) → Option (Finset (List Char))
  | 0, _, _, _, _, _, _, _ => none
  | fuel + 1, i, l, r, lcnt, rcnt, t, ans =>
    if i = s.length ∧ l = 0 ∧ r = 0 then
      some (insert t ans)
    else if (s.length : Int) - i < l + r ∨ lcnt < rcnt then
      some ans
    else do
      let c ← s[i]?
      let ans ← (if c = '(' ∧ l ≠ 0 then dfs s fuel (i + 1) (l - 1) r lcnt rcnt t ans
        else some ans)
      let ans ← (if c = ')' ∧ r ≠ 0 then dfs s fuel (i + 1) l (r - 1) lcnt rcnt t ans
        else some ans)
      -- `x` and `y`, which count `c`, are not added to `lcnt` and `rcnt`
      dfs s fuel (i + 1) l r lcnt rcnt (t ++ [c]) ans

def removeInvalidParentheses (order : Iteration (List Char)) (fuel : Nat) (s : List Char) :
    Option (List (List Char)) := do
  let (l, r) := s.foldl countRound (0, 0)
  let ans ← dfs s fuel 0 l r 0 0 [] ∅
  return order.list ans

def kind (c : Char) : Bracket :=
  if c = '(' then .opening else if c = ')' then .closing else .other

theorem kind_eq_opening_iff {c : Char} : kind c = .opening ↔ c = '(' := by
  unfold kind
  by_cases hopen : c = '('
  · simp [hopen]
  · by_cases hclose : c = ')' <;> simp [hopen, hclose]

theorem kind_eq_closing_iff {c : Char} : kind c = .closing ↔ c = ')' := by
  unfold kind
  by_cases hopen : c = '('
  · simp [hopen]
  · by_cases hclose : c = ')' <;> simp [hopen, hclose]

/-! ## The search -/

section Search

variable {s t w : List Char} {i l r : Nat} {ans : Finset (List Char)}

theorem countRound_eq : countRound = unmatchedStep kind := by
  funext ⟨l, r⟩ c
  by_cases hopen : c = '('
  · simp [countRound, unmatchedStep, kind, hopen]
  · by_cases hclose : c = ')'
    · simp [countRound, unmatchedStep, kind, hclose]
    · simp [countRound, unmatchedStep, kind, hopen, hclose]

/-- What can be found from `i` on, after `t`: as many brackets are deleted as are left to
delete. -/
def Extends (s t : List Char) (i l r : Nat) (w : List Char) : Prop :=
  ∃ v, w = t ++ v ∧ Deletes kind (s.drop i) v l r

theorem extends_end : Extends s t s.length 0 0 w ↔ w = t := by
  constructor
  · rintro ⟨v, rfl, hdel⟩
    rw [List.drop_length] at hdel
    cases hdel
    exact List.append_nil t
  · rintro rfl
    exact ⟨[], (List.append_nil _).symm, by rw [List.drop_length]; exact .nil⟩

theorem not_extends (hless : s.length - i < l + r) : ¬ Extends s t i l r w := by
  rintro ⟨v, -, hdel⟩
  have hlength := hdel.length_eq
  rw [List.length_drop] at hlength
  omega

theorem extends_step (hi : i < s.length) : Extends s t i l r w ↔
    (s[i] = '(' ∧ l ≠ 0) ∧ Extends s t (i + 1) (l - 1) r w ∨
    (s[i] = ')' ∧ r ≠ 0) ∧ Extends s t (i + 1) l (r - 1) w ∨
    Extends s (t ++ [s[i]]) (i + 1) l r w := by
  have hopening := kind_eq_opening_iff (c := s[i])
  have hclosing := kind_eq_closing_iff (c := s[i])
  constructor
  · rintro ⟨v, rfl, hdel⟩
    rw [List.drop_eq_getElem_cons hi] at hdel
    cases hdel with
    | keep _ hdel => exact .inr (.inr ⟨_, by simp, hdel⟩)
    | opening ha hdel =>
        exact .inl ⟨⟨hopening.mp ha, Nat.succ_ne_zero _⟩, v, rfl, hdel⟩
    | closing ha hdel =>
        exact .inr (.inl ⟨⟨hclosing.mp ha, Nat.succ_ne_zero _⟩, v, rfl, hdel⟩)
  · unfold Extends
    rw [List.drop_eq_getElem_cons hi]
    rintro (⟨⟨ha, hl⟩, v, rfl, hdel⟩ | ⟨⟨ha, hr⟩, v, rfl, hdel⟩ | ⟨v, rfl, hdel⟩)
    · obtain ⟨l, rfl⟩ := Nat.exists_eq_succ_of_ne_zero hl
      exact ⟨v, rfl, hdel.opening (hopening.mpr ha)⟩
    · obtain ⟨r, rfl⟩ := Nat.exists_eq_succ_of_ne_zero hr
      exact ⟨v, rfl, hdel.closing (hclosing.mpr ha)⟩
    · exact ⟨s[i] :: v, by simp, hdel.keep _⟩

/-- A call adds all that can be found, and reads inside of the string. -/
theorem dfs_spec {fuel : Nat} (hi : i ≤ s.length) (hfuel : s.length - i < fuel) :
    ∃ ans', dfs s fuel i l r 0 0 t ans = some ans' ∧
      ∀ w, w ∈ ans' ↔ w ∈ ans ∨ Extends s t i l r w := by
  induction fuel generalizing i l r t ans with
  | zero => exact absurd hfuel (Nat.not_lt_zero _)
  | succ fuel ih =>
      rw [dfs]
      split
      case isTrue hend =>
        obtain ⟨rfl, rfl, rfl⟩ := hend
        refine ⟨insert t ans, rfl, fun w => ?_⟩
        rw [Finset.mem_insert, extends_end, or_comm]
      case isFalse hgoes =>
        split
        case isTrue hless =>
          have hless : s.length - i < l + r := by omega
          exact ⟨ans, rfl, fun w => (or_iff_left (not_extends hless)).symm⟩
        case isFalse henough =>
          have hlt : i < s.length := by omega
          have hnext : s.length - (i + 1) < fuel := by omega
          -- a call made under a condition, or not made
          have hcall : ∀ (c : Prop) [Decidable c] (l' r' : Nat) (ans : Finset (List Char)),
              ∃ ans', (if c then dfs s fuel (i + 1) l' r' 0 0 t ans else some ans) = some ans' ∧
                ∀ w, w ∈ ans' ↔ w ∈ ans ∨ c ∧ Extends s t (i + 1) l' r' w := by
            intro c _ l' r' ans
            by_cases hc : c
            · obtain ⟨ans', hrun, hmem⟩ : ∃ ans', dfs s fuel (i + 1) l' r' 0 0 t ans = some ans' ∧
                  ∀ w, w ∈ ans' ↔ w ∈ ans ∨ Extends s t (i + 1) l' r' w := ih hlt hnext
              exact ⟨ans', by rw [if_pos hc, hrun], fun w => by rw [hmem, and_iff_right hc]⟩
            · exact ⟨ans, by rw [if_neg hc], fun w => by simp [hc]⟩
          obtain ⟨ans₁, hrun₁, hmem₁⟩ := hcall (s[i] = '(' ∧ l ≠ 0) (l - 1) r ans
          obtain ⟨ans₂, hrun₂, hmem₂⟩ := hcall (s[i] = ')' ∧ r ≠ 0) l (r - 1) ans₁
          obtain ⟨ans₃, hrun₃, hmem₃⟩ : ∃ ans₃,
              dfs s fuel (i + 1) l r 0 0 (t ++ [s[i]]) ans₂ = some ans₃ ∧
              ∀ w, w ∈ ans₃ ↔ w ∈ ans₂ ∨ Extends s (t ++ [s[i]]) (i + 1) l r w := ih hlt hnext
          refine ⟨ans₃, ?_, fun w => ?_⟩
          · simp only [List.getElem?_eq_getElem hlt, Option.bind_eq_bind, Option.bind_some, hrun₁,
              hrun₂, hrun₃]
          · rw [hmem₃, hmem₂, hmem₁, extends_step hlt]
            simp only [or_assoc]

end Search

/-- The call ends, and lists each balanced string that takes the fewest deletions once,
and nothing else. -/
def Repairs (order : Iteration (List Char)) (fuel : Nat) (s : List Char) : Prop :=
  ∃ result, removeInvalidParentheses order fuel s = some result ∧ result.Nodup ∧
    ∀ t, t ∈ result ↔ LeastRepair kind s t

/-- What the call lists: what is left of all deletions of the right numbers. -/
theorem removeInvalidParentheses_spec (order : Iteration (List Char)) (s : List Char)
    {fuel : Nat} (hfuel : s.length < fuel) :
    ∃ result, removeInvalidParentheses order fuel s = some result ∧ result.Nodup ∧
      ∀ t, t ∈ result ↔ Deletes kind s t (unmatched kind s).1 (unmatched kind s).2 := by
  obtain ⟨ans, hans, hmem⟩ : ∃ ans,
      dfs s fuel 0 (unmatched kind s).1 (unmatched kind s).2 0 0 [] ∅ = some ans ∧
      ∀ w, w ∈ ans ↔ w ∈ (∅ : Finset (List Char)) ∨
        Extends s [] 0 (unmatched kind s).1 (unmatched kind s).2 w :=
    dfs_spec (Nat.zero_le _) hfuel
  refine ⟨order.list ans, ?_, order.nodup ans, fun t => ?_⟩
  · rw [removeInvalidParentheses, countRound_eq]
    exact congrArg (fun call => call.bind fun ans => some (order.list ans)) hans
  · rw [order.mem_iff, hmem]
    simp [Extends]

theorem Repairs.pairsAside {order : Iteration (List Char)} {s : List Char} {fuel : Nat}
    (h : Repairs order fuel s) (hfuel : s.length < fuel) : PairsAside kind s := by
  obtain ⟨result, hresult, -, hmem⟩ := removeInvalidParentheses_spec order s hfuel
  obtain ⟨result', hresult', -, hexact⟩ := h
  obtain rfl := Option.some.inj (hresult.symm.trans hresult')
  apply pairsAside_of_balanced
  intro t hdel
  obtain ⟨hbalanced, -⟩ := (hexact t).mp ((hmem t).mpr hdel)
  exact hbalanced

/-- Some order. -/
noncomputable def listed : Iteration (List Char) :=
  ⟨Finset.toList, Finset.nodup_toList, fun _ _ => Finset.mem_toList⟩

example : dfs [')', '(', ')'] 4 0 0 1 0 0 [] ∅ = some {['(', ')'], [')', '(']} := by decide

end RemoveInvalidParentheses

end MoreCpp
