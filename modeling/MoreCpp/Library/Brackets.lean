import Mathlib.Data.List.Induction

/-!
Brackets of one sort in a list, which of them have no partner, and what is left when some
of them are deleted.
-/

namespace MoreCpp.Library

inductive Bracket where
  | opening
  | closing
  | other
  deriving DecidableEq

variable {α : Type*} (kind : α → Bracket)

def openings (s : List α) : Nat := s.countP fun a => kind a = .opening

def closings (s : List α) : Nat := s.countP fun a => kind a = .closing

/-- Every closing bracket has a partner before it, and at the end `depth` more brackets
are closed than opened. -/
structure BalancedFrom (depth : Nat) (t : List α) : Prop where
  prefixes : ∀ u, u <+: t → closings kind u ≤ depth + openings kind u
  total : closings kind t = depth + openings kind t

abbrev Balanced (t : List α) : Prop := BalancedFrom kind 0 t

/-- Deleting `l` opening and `r` closing brackets. -/
inductive Deletes : List α → List α → Nat → Nat → Prop
  | nil : Deletes [] [] 0 0
  | keep (a : α) {s t : List α} {l r : Nat} (h : Deletes s t l r) :
      Deletes (a :: s) (a :: t) l r
  | opening {a : α} {s t : List α} {l r : Nat} (ha : kind a = .opening) (h : Deletes s t l r) :
      Deletes (a :: s) t (l + 1) r
  | closing {a : α} {s t : List α} {l r : Nat} (ha : kind a = .closing) (h : Deletes s t l r) :
      Deletes (a :: s) t l (r + 1)

/-- A balanced list that takes the fewest deletions. -/
def LeastRepair (s t : List α) : Prop :=
  Balanced kind t ∧ ∃ l r, Deletes kind s t l r ∧
    ∀ t' l' r', Balanced kind t' → Deletes kind s t' l' r' → l + r ≤ l' + r'

/-- The brackets still open, and the closing ones without a partner, after one more. -/
def unmatchedStep : Nat × Nat → α → Nat × Nat
  | (l, r), a =>
    match kind a with
    | .opening => (l + 1, r)
    | .closing => if l = 0 then (l, r + 1) else (l - 1, r)
    | .other => (l, r)

/-- The numbers of opening and of closing brackets without a partner. -/
def unmatched (s : List α) : Nat × Nat := s.foldl (unmatchedStep kind) (0, 0)

/-- No opening bracket stands before a closing one. -/
def Flat (s : List α) : Prop := s.Pairwise fun a b => kind a = .opening → kind b ≠ .closing

/-- Brackets with a partner stand neither after a closing bracket without one nor before
an opening bracket without one. -/
structure PairsAside (s : List α) : Prop where
  after : ∀ u a v, s = u ++ a :: v → kind a = .closing → (unmatched kind u).1 = 0 → Flat kind v
  before : ∀ u a v, s = u ++ a :: v → kind a = .opening → (unmatched kind v).2 = 0 → Flat kind u

variable {kind} {s t u v : List α} {a : α} {l r : Nat}

/-! ## Counting -/

@[simp] theorem openings_nil : openings kind [] = 0 := rfl

@[simp] theorem closings_nil : closings kind [] = 0 := rfl

@[simp] theorem openings_append :
    openings kind (u ++ v) = openings kind u + openings kind v := List.countP_append

@[simp] theorem closings_append :
    closings kind (u ++ v) = closings kind u + closings kind v := List.countP_append

theorem openings_cons : openings kind (a :: s) =
    openings kind s + if kind a = .opening then 1 else 0 := by
  simp [openings, List.countP_cons]

theorem closings_cons : closings kind (a :: s) =
    closings kind s + if kind a = .closing then 1 else 0 := by
  simp [closings, List.countP_cons]

@[simp] theorem unmatched_nil : unmatched kind [] = (0, 0) := rfl

theorem unmatched_concat : unmatched kind (s ++ [a]) = unmatchedStep kind (unmatched kind s) a := by
  simp [unmatched]

theorem unmatched_opening (ha : kind a = .opening) :
    unmatched kind (s ++ [a]) = ((unmatched kind s).1 + 1, (unmatched kind s).2) := by
  simp only [unmatched_concat, unmatchedStep, ha]

theorem unmatched_closing (ha : kind a = .closing) : unmatched kind (s ++ [a]) =
    ((unmatched kind s).1 - 1, (unmatched kind s).2 + (1 - (unmatched kind s).1)) := by
  simp only [unmatched_concat, unmatchedStep, ha]
  split
  case isTrue hzero => simp [hzero]
  case isFalse hne =>
    have hless : 1 - (unmatched kind s).1 = 0 := by omega
    rw [hless, Nat.add_zero]

theorem unmatched_other (ha : kind a = .other) :
    unmatched kind (s ++ [a]) = unmatched kind s := by
  simp only [unmatched_concat, unmatchedStep, ha]

/-- The open brackets of one part are partners of the closing ones of the next. -/
theorem unmatched_append : unmatched kind (u ++ v) =
    ((unmatched kind v).1 + ((unmatched kind u).1 - (unmatched kind v).2),
      (unmatched kind u).2 + ((unmatched kind v).2 - (unmatched kind u).1)) := by
  induction v using List.reverseRecOn with
  | nil => simp
  | append_singleton v a ih =>
      rw [← List.append_assoc]
      cases ha : kind a with
      | opening =>
          rw [unmatched_opening ha, unmatched_opening ha, ih]
          exact Prod.ext (Nat.add_right_comm _ _ _) rfl
      | closing =>
          rw [unmatched_closing ha, unmatched_closing ha, ih]
          apply Prod.ext <;> dsimp only <;> omega
      | other => rw [unmatched_other ha, unmatched_other ha, ih]

theorem unmatched_cons_opening (ha : kind a = .opening) : unmatched kind (a :: s) =
    ((unmatched kind s).1 + (1 - (unmatched kind s).2), (unmatched kind s).2 - 1) := by
  have happend : unmatched kind ([a] ++ s) = _ := unmatched_append
  rw [← List.nil_append [a], unmatched_opening ha] at happend
  simpa using happend

theorem unmatched_cons_closing (ha : kind a = .closing) : unmatched kind (a :: s) =
    ((unmatched kind s).1, (unmatched kind s).2 + 1) := by
  have happend : unmatched kind ([a] ++ s) = _ := unmatched_append
  rw [← List.nil_append [a], unmatched_closing ha] at happend
  simpa [Nat.add_comm] using happend

theorem unmatched_cons_other (ha : kind a = .other) :
    unmatched kind (a :: s) = unmatched kind s := by
  have happend : unmatched kind ([a] ++ s) = _ := unmatched_append
  rw [← List.nil_append [a], unmatched_other ha] at happend
  simpa using happend

/-- Brackets with a partner come in pairs. -/
theorem openings_add_unmatched (kind : α → Bracket) (s : List α) :
    openings kind s + (unmatched kind s).2 = closings kind s + (unmatched kind s).1 := by
  induction s using List.reverseRecOn with
  | nil => rfl
  | append_singleton s a ih =>
      rw [openings_append, closings_append, openings_cons, closings_cons]
      cases ha : kind a with
      | opening =>
          rw [unmatched_opening ha, if_pos rfl, if_neg nofun]
          dsimp only [openings_nil, closings_nil]
          omega
      | closing =>
          rw [unmatched_closing ha, if_pos rfl, if_neg nofun]
          dsimp only [openings_nil, closings_nil]
          omega
      | other =>
          rw [unmatched_other ha, if_neg nofun, if_neg nofun]
          exact ih

theorem unmatched_le_closings (kind : α → Bracket) (s : List α) :
    (unmatched kind s).2 ≤ closings kind s := by
  induction s using List.reverseRecOn with
  | nil => exact Nat.le_refl _
  | append_singleton s a ih =>
      rw [closings_append, closings_cons]
      cases ha : kind a with
      | opening =>
          rw [unmatched_opening ha]
          exact Nat.le_add_right_of_le ih
      | closing =>
          rw [unmatched_closing ha, if_pos rfl]
          dsimp only [closings_nil]
          omega
      | other =>
          rw [unmatched_other ha]
          exact Nat.le_add_right_of_le ih

theorem unmatched_le_openings (kind : α → Bracket) (s : List α) :
    (unmatched kind s).1 ≤ openings kind s := by
  have hpairs := openings_add_unmatched kind s
  have hle := unmatched_le_closings kind s
  omega

/-- Some part at the front closes all brackets that have no partner. -/
theorem exists_prefix_closings (kind : α → Bracket) (s : List α) :
    ∃ u, u <+: s ∧ closings kind u = openings kind u + (unmatched kind s).2 := by
  induction s using List.reverseRecOn with
  | nil => exact ⟨[], List.prefix_rfl, rfl⟩
  | append_singleton s a ih =>
      obtain ⟨u, hu, heq⟩ := ih
      by_cases hsame : (unmatched kind (s ++ [a])).2 = (unmatched kind s).2
      · exact ⟨u, hu.trans (List.prefix_append _ _), by rw [hsame, heq]⟩
      · refine ⟨s ++ [a], List.prefix_rfl, ?_⟩
        have hpairs := openings_add_unmatched kind (s ++ [a])
        have hnone : (unmatched kind (s ++ [a])).1 = 0 := by
          cases ha : kind a with
          | opening => exact absurd (by rw [unmatched_opening ha]) hsame
          | other => exact absurd (by rw [unmatched_other ha]) hsame
          | closing =>
              rw [unmatched_closing ha] at hsame ⊢
              dsimp only at hsame ⊢
              omega
        omega

/-! ## Deleting -/

namespace Deletes

variable {t₁ t₂ : List α} {l₁ l₂ r₁ r₂ : Nat}

theorem openings_eq (h : Deletes kind s t l r) : openings kind s = openings kind t + l := by
  induction h with
  | nil => rfl
  | keep a _ ih => rw [openings_cons, openings_cons, ih, Nat.add_right_comm]
  | opening ha _ ih => rw [openings_cons, if_pos ha, ih, Nat.add_assoc]
  | closing ha _ ih => rw [openings_cons, ha, if_neg nofun, ih, Nat.add_zero]

theorem closings_eq (h : Deletes kind s t l r) : closings kind s = closings kind t + r := by
  induction h with
  | nil => rfl
  | keep a _ ih => rw [closings_cons, closings_cons, ih, Nat.add_right_comm]
  | opening ha _ ih => rw [closings_cons, ha, if_neg nofun, ih, Nat.add_zero]
  | closing ha _ ih => rw [closings_cons, if_pos ha, ih, Nat.add_assoc]

theorem length_eq (h : Deletes kind s t l r) : s.length = t.length + l + r := by
  induction h with
  | nil => rfl
  | keep a _ ih | opening ha _ ih | closing ha _ ih =>
      simp only [List.length_cons, ih]
      omega

theorem append (h₁ : Deletes kind u t₁ l₁ r₁) (h₂ : Deletes kind v t₂ l₂ r₂) :
    Deletes kind (u ++ v) (t₁ ++ t₂) (l₁ + l₂) (r₁ + r₂) := by
  induction h₁ with
  | nil => simpa using h₂
  | keep a _ ih => exact .keep a ih
  | opening ha _ ih => simpa [Nat.add_right_comm] using ih.opening ha
  | closing ha _ ih => simpa [Nat.add_right_comm] using ih.closing ha

/-- What is left of two parts. -/
theorem of_append (h : Deletes kind (u ++ v) t l r) :
    ∃ t₁ t₂ l₁ l₂ r₁ r₂, t = t₁ ++ t₂ ∧ l = l₁ + l₂ ∧ r = r₁ + r₂ ∧
      Deletes kind u t₁ l₁ r₁ ∧ Deletes kind v t₂ l₂ r₂ := by
  induction u generalizing t l r with
  | nil => exact ⟨[], t, 0, l, 0, r, by simp, by simp, by simp, .nil, h⟩
  | cons a u ih =>
      cases h with
      | keep _ h =>
          obtain ⟨t₁, t₂, l₁, l₂, r₁, r₂, rfl, rfl, rfl, h₁, h₂⟩ := ih h
          exact ⟨a :: t₁, t₂, l₁, l₂, r₁, r₂, rfl, rfl, rfl, h₁.keep a, h₂⟩
      | opening ha h =>
          obtain ⟨t₁, t₂, l₁, l₂, r₁, r₂, rfl, rfl, rfl, h₁, h₂⟩ := ih h
          exact ⟨t₁, t₂, l₁ + 1, l₂, r₁, r₂, rfl, by omega, rfl, h₁.opening ha, h₂⟩
      | closing ha h =>
          obtain ⟨t₁, t₂, l₁, l₂, r₁, r₂, rfl, rfl, rfl, h₁, h₂⟩ := ih h
          exact ⟨t₁, t₂, l₁, l₂, r₁ + 1, r₂, rfl, rfl, by omega, h₁.closing ha, h₂⟩

/-- Where two parts of the rest come from. -/
theorem to_append (h : Deletes kind s (t₁ ++ t₂) l r) :
    ∃ u v l₁ l₂ r₁ r₂, s = u ++ v ∧ l = l₁ + l₂ ∧ r = r₁ + r₂ ∧
      Deletes kind u t₁ l₁ r₁ ∧ Deletes kind v t₂ l₂ r₂ := by
  induction s generalizing t₁ l r with
  | nil =>
      cases ht : t₁ ++ t₂ with
      | nil =>
          obtain ⟨rfl, rfl⟩ := List.append_eq_nil_iff.mp ht
          exact ⟨[], [], 0, l, 0, r, rfl, by simp, by simp, .nil, h⟩
      | cons a rest =>
          rw [ht] at h
          cases h
  | cons a s ih =>
      cases t₁ with
      | nil => exact ⟨[], a :: s, 0, l, 0, r, rfl, by simp, by simp, .nil, h⟩
      | cons b t₁ =>
          cases h with
          | keep _ h =>
              obtain ⟨u, v, l₁, l₂, r₁, r₂, rfl, rfl, rfl, h₁, h₂⟩ := ih h
              exact ⟨a :: u, v, l₁, l₂, r₁, r₂, rfl, rfl, rfl, h₁.keep a, h₂⟩
          | opening ha h =>
              obtain ⟨u, v, l₁, l₂, r₁, r₂, rfl, rfl, rfl, h₁, h₂⟩ :=
                ih (show Deletes kind s ((b :: t₁) ++ t₂) _ _ from h)
              exact ⟨a :: u, v, l₁ + 1, l₂, r₁, r₂, rfl, by omega, rfl, h₁.opening ha, h₂⟩
          | closing ha h =>
              obtain ⟨u, v, l₁, l₂, r₁, r₂, rfl, rfl, rfl, h₁, h₂⟩ :=
                ih (show Deletes kind s ((b :: t₁) ++ t₂) _ _ from h)
              exact ⟨a :: u, v, l₁, l₂, r₁ + 1, r₂, rfl, rfl, by omega, h₁.closing ha, h₂⟩

end Deletes

/-- As many brackets can be deleted as there are. -/
theorem exists_deletes (kind : α → Bracket) (hl : l ≤ openings kind s)
    (hr : r ≤ closings kind s) :
    ∃ t, Deletes kind s t l r := by
  induction s generalizing l r with
  | nil =>
      obtain rfl := Nat.le_zero.mp hl
      obtain rfl := Nat.le_zero.mp hr
      exact ⟨[], .nil⟩
  | cons a s ih =>
      rw [openings_cons] at hl
      rw [closings_cons] at hr
      cases ha : kind a with
      | opening =>
          rw [ha, if_pos rfl] at hl
          rw [ha, if_neg nofun] at hr
          cases l with
          | zero =>
              obtain ⟨t, h⟩ := ih (Nat.zero_le _) hr
              exact ⟨a :: t, h.keep a⟩
          | succ l =>
              obtain ⟨t, h⟩ := ih (Nat.le_of_succ_le_succ hl) hr
              exact ⟨t, h.opening ha⟩
      | closing =>
          rw [ha, if_neg nofun] at hl
          rw [ha, if_pos rfl] at hr
          cases r with
          | zero =>
              obtain ⟨t, h⟩ := ih hl (Nat.zero_le _)
              exact ⟨a :: t, h.keep a⟩
          | succ r =>
              obtain ⟨t, h⟩ := ih hl (Nat.le_of_succ_le_succ hr)
              exact ⟨t, h.closing ha⟩
      | other =>
          rw [ha, if_neg nofun] at hl hr
          obtain ⟨t, h⟩ := ih hl hr
          exact ⟨a :: t, h.keep a⟩

/-! ## The fewest deletions -/

theorem Deletes.unmatched_le (h : Deletes kind s t l r) (ht : Balanced kind t) :
    (unmatched kind s).1 ≤ l ∧ (unmatched kind s).2 ≤ r := by
  have hopen := h.openings_eq
  have hclose := h.closings_eq
  have hpairs := openings_add_unmatched kind s
  have htotal := ht.total
  obtain ⟨u, ⟨v, rfl⟩, hu⟩ := exists_prefix_closings kind s
  obtain ⟨t₁, t₂, l₁, l₂, r₁, r₂, rfl, rfl, rfl, h₁, -⟩ := h.of_append
  have hprefix := ht.prefixes t₁ (List.prefix_append _ _)
  have hopen₁ := h₁.openings_eq
  have hclose₁ := h₁.closings_eq
  omega

namespace BalancedFrom

variable {depth : Nat}

theorem nil : BalancedFrom kind 0 [] where
  prefixes u hu := by simp [List.prefix_nil.mp hu]
  total := rfl

/-- An opening bracket adds to the depth before it, and a closing one to that after it. -/
theorem cons {depth' : Nat} (h : BalancedFrom kind depth' t)
    (hstep : depth' + (if kind a = .closing then 1 else 0) =
      depth + if kind a = .opening then 1 else 0) : BalancedFrom kind depth (a :: t) where
  prefixes u hu := by
    rcases List.prefix_cons_iff.mp hu with rfl | ⟨u', rfl, hu'⟩
    · exact Nat.zero_le _
    · have hprefix := h.prefixes u' hu'
      rw [openings_cons, closings_cons]
      omega
  total := by
    have htotal := h.total
    rw [openings_cons, closings_cons]
    omega

theorem opening (ha : kind a = .opening) (h : BalancedFrom kind (depth + 1) t) :
    BalancedFrom kind depth (a :: t) := h.cons (by rw [ha]; rfl)

theorem closing (ha : kind a = .closing) (h : BalancedFrom kind depth t) :
    BalancedFrom kind (depth + 1) (a :: t) := h.cons (by rw [ha]; rfl)

theorem other (ha : kind a = .other) (h : BalancedFrom kind depth t) :
    BalancedFrom kind depth (a :: t) := h.cons (by rw [ha]; rfl)

end BalancedFrom

/-- Brackets opened before are partners of closing ones that would have none. -/
theorem exists_balancedFrom (kind : α → Bracket) (s : List α) {depth : Nat}
    (hdepth : depth ≤ (unmatched kind s).2) :
    ∃ t, BalancedFrom kind depth t ∧
      Deletes kind s t (unmatched kind s).1 ((unmatched kind s).2 - depth) := by
  induction s generalizing depth with
  | nil =>
      obtain rfl := Nat.le_zero.mp hdepth
      exact ⟨[], .nil, .nil⟩
  | cons a s ih =>
      cases ha : kind a with
      | opening =>
          rw [unmatched_cons_opening ha] at hdepth ⊢
          dsimp only at hdepth ⊢
          rcases Nat.eq_zero_or_pos (unmatched kind s).2 with hzero | hpos
          · obtain ⟨t, ht, h⟩ := ih (Nat.zero_le _)
            obtain rfl : depth = 0 := by omega
            refine ⟨t, ht, ?_⟩
            simpa [hzero] using h.opening ha
          · obtain ⟨t, ht, h⟩ := ih (show depth + 1 ≤ _ by omega)
            refine ⟨a :: t, ht.opening ha, ?_⟩
            have hone : 1 - (unmatched kind s).2 = 0 := by omega
            rw [hone, Nat.add_zero, Nat.sub_sub, Nat.add_comm 1]
            exact h.keep a
      | closing =>
          rw [unmatched_cons_closing ha] at hdepth ⊢
          cases depth with
          | zero =>
              obtain ⟨t, ht, h⟩ := ih (Nat.zero_le _)
              exact ⟨t, ht, h.closing ha⟩
          | succ depth =>
              obtain ⟨t, ht, h⟩ := ih (Nat.le_of_succ_le_succ hdepth)
              refine ⟨a :: t, ht.closing ha, ?_⟩
              rw [Nat.add_sub_add_right]
              exact h.keep a
      | other =>
          rw [unmatched_cons_other ha] at hdepth ⊢
          obtain ⟨t, ht, h⟩ := ih hdepth
          exact ⟨a :: t, ht.other ha, h.keep a⟩

/-- The fewest deletions are of as many brackets as have no partner. -/
theorem leastRepair_iff : LeastRepair kind s t ↔
    Balanced kind t ∧ Deletes kind s t (unmatched kind s).1 (unmatched kind s).2 := by
  constructor
  · rintro ⟨ht, l, r, h, hleast⟩
    obtain ⟨t', ht', h'⟩ := exists_balancedFrom kind s (Nat.zero_le _)
    have hle := hleast t' _ _ ht' h'
    obtain ⟨hl, hr⟩ := h.unmatched_le ht
    obtain rfl : l = (unmatched kind s).1 := by omega
    obtain rfl : r = (unmatched kind s).2 := by omega
    exact ⟨ht, h⟩
  · rintro ⟨ht, h⟩
    refine ⟨ht, _, _, h, fun t' l' r' ht' h' => ?_⟩
    obtain ⟨hl, hr⟩ := h'.unmatched_le ht'
    exact Nat.add_le_add hl hr

/-! ## When any brackets may be deleted -/

theorem flat_append : Flat kind (u ++ v) ↔ Flat kind u ∧ Flat kind v ∧
    ∀ a ∈ u, ∀ b ∈ v, kind a = .opening → kind b ≠ .closing := List.pairwise_append

theorem openings_eq_zero_iff : openings kind s = 0 ↔ ∀ a ∈ s, kind a ≠ .opening := by
  simp [openings, List.countP_eq_zero]

/-- Without pairs no bracket has a partner. -/
theorem flat_iff : Flat kind s ↔ (unmatched kind s).2 = closings kind s := by
  induction s using List.reverseRecOn with
  | nil => simp [Flat]
  | append_singleton s a ih =>
      have hpairs := openings_add_unmatched kind s
      have hle := unmatched_le_closings kind s
      have hflat : Flat kind (s ++ [a]) ↔
          Flat kind s ∧ ∀ b ∈ s, kind b = .opening → kind a ≠ .closing := by
        rw [flat_append]
        simp [Flat]
      rw [hflat, ih, closings_append, closings_cons]
      cases ha : kind a with
      | opening => simp [unmatched_opening ha]
      | closing =>
          have hnone : (∀ b ∈ s, kind b = .opening → Bracket.closing ≠ .closing) ↔
              openings kind s = 0 := by
            simp [openings_eq_zero_iff]
          rw [hnone, unmatched_closing ha, if_pos rfl]
          dsimp only [closings_nil]
          omega
      | other => simp [unmatched_other ha]

theorem Flat.unmatched_eq (h : Flat kind s) :
    unmatched kind s = (openings kind s, closings kind s) := by
  have hpairs := openings_add_unmatched kind s
  have hclose := flat_iff.mp h
  exact Prod.ext (by dsimp only; omega) hclose

theorem exists_unmatched_opening (h : 0 < (unmatched kind s).1) :
    ∃ u a v, s = u ++ a :: v ∧ kind a = .opening ∧ (unmatched kind v).2 = 0 := by
  induction s with
  | nil => exact absurd h (Nat.lt_irrefl 0)
  | cons a s ih =>
      by_cases hrest : 0 < (unmatched kind s).1
      · obtain ⟨u, b, v, rfl, hb, hv⟩ := ih hrest
        exact ⟨a :: u, b, v, rfl, hb, hv⟩
      · cases ha : kind a with
        | opening =>
            rw [unmatched_cons_opening ha] at h
            dsimp only at h
            exact ⟨[], a, s, rfl, ha, by omega⟩
        | closing => exact absurd (by rwa [unmatched_cons_closing ha] at h) hrest
        | other => exact absurd (by rwa [unmatched_cons_other ha] at h) hrest

theorem exists_unmatched_closing (h : 0 < (unmatched kind s).2) :
    ∃ u a v, s = u ++ a :: v ∧ kind a = .closing ∧ (unmatched kind u).1 = 0 := by
  induction s using List.reverseRecOn with
  | nil => exact absurd h (Nat.lt_irrefl 0)
  | append_singleton s a ih =>
      by_cases hbefore : 0 < (unmatched kind s).2
      · obtain ⟨u, b, v, rfl, hb, hu⟩ := ih hbefore
        exact ⟨u, b, v ++ [a], by simp, hb, hu⟩
      · cases ha : kind a with
        | closing =>
            rw [unmatched_closing ha] at h
            dsimp only at h
            exact ⟨s, a, [], rfl, ha, by omega⟩
        | opening => exact absurd (by rwa [unmatched_opening ha] at h) hbefore
        | other => exact absurd (by rwa [unmatched_other ha] at h) hbefore

namespace PairsAside

/-- With brackets of both kinds without a partner there are no pairs at all. -/
theorem flat (h : PairsAside kind s) (hopen : 0 < (unmatched kind s).1)
    (hclose : 0 < (unmatched kind s).2) : Flat kind s := by
  obtain ⟨u, a, w, hs, ha, hu⟩ := exists_unmatched_closing hclose
  obtain ⟨u', b, v, hs', hb, hv⟩ := exists_unmatched_opening hopen
  rcases List.append_eq_append_iff.mp (hs.symm.trans hs') with ⟨x, rfl, -⟩ | ⟨x, rfl, hx⟩
  · obtain ⟨hflat, -, -⟩ := flat_append.mp (h.before _ b v hs' hb hv)
    have hnone : openings kind u = 0 := by
      rw [hflat.unmatched_eq] at hu
      exact hu
    rw [hs, flat_append]
    refine ⟨hflat, List.pairwise_cons.mpr ⟨?_, h.after u a w hs ha hu⟩, ?_⟩
    · intro b _ hopening
      cases ha.symm.trans hopening
    · intro c hc _ _ hopening
      exact absurd hopening (openings_eq_zero_iff.mp hnone c hc)
  · -- an opening bracket before would be the partner of the closing one
    cases x with
    | nil =>
        obtain ⟨rfl, -⟩ := List.cons.inj hx
        cases ha.symm.trans hb
    | cons c x =>
        obtain ⟨rfl, hrest⟩ := List.cons.inj hx
        have hrest : v = x ++ a :: w := hrest
        rw [hrest, unmatched_append] at hv
        rw [unmatched_append] at hu
        dsimp only at hu hv
        rw [unmatched_cons_opening hb] at hu
        dsimp only at hu
        omega

/-- Any deletions of the right numbers leave a balanced list. -/
theorem balanced (h : PairsAside kind s)
    (hdel : Deletes kind s t (unmatched kind s).1 (unmatched kind s).2) : Balanced kind t := by
  have hpairs := openings_add_unmatched kind s
  have hopen := hdel.openings_eq
  have hclose := hdel.closings_eq
  refine ⟨fun t₁ ht₁ => ?_, by omega⟩
  obtain ⟨t₂, rfl⟩ := ht₁
  rw [openings_append] at hopen
  rw [closings_append] at hclose
  by_contra hbad
  obtain ⟨p, q, l₁, l₂, r₁, r₂, hs, hl, hr, h₁, h₂⟩ := hdel.to_append
  have hopen₁ := h₁.openings_eq
  have hclose₁ := h₁.closings_eq
  have hclose₂ := h₂.closings_eq
  have hpairs₁ := openings_add_unmatched kind p
  have hsplit : unmatched kind s = _ := (congrArg (unmatched kind) hs).trans unmatched_append
  have hfirst := congrArg Prod.fst hsplit
  have hsecond := congrArg Prod.snd hsplit
  dsimp only at hfirst hsecond
  rcases Nat.eq_zero_or_pos (unmatched kind s).1 with hzero | hposOpen
  · obtain ⟨u, a, v, rfl, ha, hu⟩ :=
      exists_unmatched_closing (show 0 < (unmatched kind p).2 by omega)
    have hflat := h.after u a (v ++ q) (by simp [hs]) ha hu
    obtain ⟨-, hflat, -⟩ := flat_append.mp hflat
    have hall := flat_iff.mp hflat
    omega
  rcases Nat.eq_zero_or_pos (unmatched kind s).2 with hzero | hposClose
  · obtain ⟨u, a, v, rfl, ha, hv⟩ :=
      exists_unmatched_opening (show 0 < (unmatched kind q).1 by omega)
    have hflat := h.before (p ++ u) a v (by simp [hs]) ha hv
    obtain ⟨hflat, -, -⟩ := flat_append.mp hflat
    have hall := flat_iff.mp hflat
    omega
  · have hall := flat_iff.mp (h.flat hposOpen hposClose)
    omega

end PairsAside

/-- Where a pair is not aside, deleting one of its brackets in place of another one leaves
a list that is not balanced. -/
theorem pairsAside_of_balanced
    (h : ∀ t, Deletes kind s t (unmatched kind s).1 (unmatched kind s).2 → Balanced kind t) :
    PairsAside kind s := by
  constructor
  case after =>
    rintro u a v rfl ha hu
    by_contra hpair
    have hle := unmatched_le_closings kind v
    have hne : (unmatched kind v).2 ≠ closings kind v := fun heq => hpair (flat_iff.mpr heq)
    have hpairs := openings_add_unmatched kind u
    have hcount : unmatched kind (u ++ a :: v) =
        ((unmatched kind v).1, (unmatched kind u).2 + ((unmatched kind v).2 + 1)) := by
      rw [unmatched_append, unmatched_cons_closing ha, hu]
      simp
    obtain ⟨t₁, h₁⟩ := exists_deletes kind (s := u) (l := 0)
      (Nat.zero_le _) (unmatched_le_closings kind u)
    obtain ⟨t₂, h₂⟩ := exists_deletes kind (s := v) (r := (unmatched kind v).2 + 1)
      (unmatched_le_openings kind v) (by omega)
    have hopen₁ := h₁.openings_eq
    have hclose₁ := h₁.closings_eq
    rw [hcount] at h
    have hdel := h₁.append (h₂.keep a)
    rw [Nat.zero_add] at hdel
    have hprefix := (h _ hdel).prefixes (t₁ ++ [a]) ⟨t₂, by simp⟩
    rw [openings_append, closings_append, openings_cons, closings_cons, ha, if_pos rfl,
      if_neg nofun] at hprefix
    dsimp only [openings_nil, closings_nil] at hprefix
    omega
  case before =>
    rintro u a v rfl ha hv
    by_contra hpair
    have hle := unmatched_le_closings kind u
    have hne : (unmatched kind u).2 ≠ closings kind u := fun heq => hpair (flat_iff.mpr heq)
    have hpairs := openings_add_unmatched kind u
    have hcount : unmatched kind (u ++ a :: v) =
        ((unmatched kind u).1 + 1 + (unmatched kind v).1, (unmatched kind u).2 + 0) := by
      rw [unmatched_append, unmatched_cons_opening ha, hv]
      apply Prod.ext <;> dsimp only <;> omega
    obtain ⟨t₁, h₁⟩ := exists_deletes kind (s := u) (l := (unmatched kind u).1 + 1)
      (by omega) (unmatched_le_closings kind u)
    obtain ⟨t₂, h₂⟩ := exists_deletes kind (s := v) (r := 0)
      (unmatched_le_openings kind v) (Nat.zero_le _)
    have hopen₁ := h₁.openings_eq
    have hclose₁ := h₁.closings_eq
    rw [hcount] at h
    have hprefix := (h _ (h₁.append (h₂.keep a))).prefixes t₁ (List.prefix_append _ _)
    omega

end MoreCpp.Library
