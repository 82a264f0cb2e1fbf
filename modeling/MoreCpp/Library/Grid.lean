import MoreCpp.Library.LabelledGraph
import Mathlib.Algebra.GroupWithZero.Nat
import Mathlib.Data.Fin.SuccPred
import Mathlib.Data.List.FinRange
import Mathlib.Data.List.ProdSigma

/-!
The cells of a grid and their four neighbours, found by stepping to coordinates that may
lie outside, and loops that rewrite the cells one by one.
-/

namespace MoreCpp.Library

abbrev Cell (m n : Nat) := Fin m × Fin n

variable {m n : Nat} {c d : Cell m n} {i j : Int}

/-- The cell with these coordinates, if there is one. -/
def cellAt (m n : Nat) (i j : Int) : Option (Cell m n) :=
  if h : 0 ≤ i ∧ i < m ∧ 0 ≤ j ∧ j < n then
    some (⟨i.toNat, by omega⟩, ⟨j.toNat, by omega⟩)
  else none

theorem cellAt_eq_some : cellAt m n i j = some c ↔ i = c.1.val ∧ j = c.2.val := by
  unfold cellAt
  split
  case isTrue h =>
    rw [Option.some_inj, Prod.ext_iff, Fin.ext_iff, Fin.ext_iff]
    dsimp only
    omega
  case isFalse h =>
    refine iff_of_false nofun ?_
    rintro ⟨rfl, rfl⟩
    omega

/-- The steps up, right, down and left, for `dir = {-1, 0, 1, 0, -1}`. -/
def steps : List (Int × Int) :=
  let dir : List Int := [-1, 0, 1, 0, -1]
  dir.zip dir.tail

/-- The neighbours of a cell in the grid, in the order of the steps. -/
def around (c : Cell m n) : List (Cell m n) :=
  steps.filterMap fun d => cellAt m n (c.1.val + d.1) (c.2.val + d.2)

/-- The cells share a side. -/
def Adjacent (c d : Cell m n) : Prop :=
  c.1 = d.1 ∧ (c.2.val + 1 = d.2.val ∨ d.2.val + 1 = c.2.val) ∨
    c.2 = d.2 ∧ (c.1.val + 1 = d.1.val ∨ d.1.val + 1 = c.1.val)

theorem Adjacent.symm (h : Adjacent c d) : Adjacent d c := by
  rcases h with ⟨hrow, hcol⟩ | ⟨hcol, hrow⟩
  · exact .inl ⟨hrow.symm, hcol.symm⟩
  · exact .inr ⟨hcol.symm, hrow.symm⟩

theorem mem_around : d ∈ around c ↔ Adjacent c d := by
  simp only [around, steps, List.tail_cons, List.zip_cons_cons, List.zip_nil_right,
    List.mem_filterMap, List.mem_cons, List.not_mem_nil, or_false, exists_eq_or_imp,
    exists_eq_left, cellAt_eq_some, Adjacent, Fin.ext_iff]
  omega

theorem nodup_around : (around c).Nodup := by
  have hsteps : steps.Nodup := by decide
  refine hsteps.filterMap fun d d' x hx hx' => ?_
  rw [Option.mem_def, cellAt_eq_some] at hx hx'
  exact Prod.ext (by omega) (by omega)

def OnBorder (c : Cell m n) : Prop :=
  c.1.val = 0 ∨ c.1.val + 1 = m ∨ c.2.val = 0 ∨ c.2.val + 1 = n

instance : DecidablePred (OnBorder : Cell m n → Prop) :=
  fun _ => inferInstanceAs (Decidable (_ ∨ _ ∨ _ ∨ _))

/-- The cells row by row. -/
def rowMajor (m n : Nat) : List (Cell m n) := List.finRange m ×ˢ List.finRange n

theorem mem_rowMajor (c : Cell m n) : c ∈ rowMajor m n :=
  List.mem_product.mpr ⟨List.mem_finRange c.1, List.mem_finRange c.2⟩

theorem nodup_rowMajor : (rowMajor m n).Nodup :=
  (List.nodup_finRange m).product (List.nodup_finRange n)

theorem length_rowMajor : (rowMajor m n).length = m * n := by
  rw [rowMajor, List.length_product, List.length_finRange, List.length_finRange]

/-- A loop over the four steps that leaves out those that lead outside. -/
def forAround {S : Type*} (c : Cell m n) (visit : S → Cell m n → S) (s : S) : S :=
  steps.foldl (fun s d =>
    match cellAt m n (c.1.val + d.1) (c.2.val + d.2) with
    | none => s
    | some x => visit s x) s

theorem forAround_eq {S : Type*} (c : Cell m n) (visit : S → Cell m n → S) (s : S) :
    forAround c visit s = (around c).foldl visit s := by
  rw [around, List.foldl_filterMap, forAround]
  congr 1
  funext s d
  split <;> simp [*]

/-- The cells of a path between two cells. -/
structure IsGridPath (c d : Cell m n) (path : List (Cell m n)) : Prop where
  chain : path.IsChain Adjacent
  head : path.head? = some c
  last : path.getLast? = some d

theorem isGridPath_cons {path : List (Cell m n)} :
    IsGridPath c d (c :: path) ↔ Route (fun v e u => Adjacent v e ∧ u = e) c path d := by
  rw [route_iff_isChain]
  exact ⟨fun h => ⟨h.chain, h.last⟩, fun h => ⟨h.1, rfl, h.2⟩⟩

theorem IsGridPath.eq_cons {path : List (Cell m n)} (h : IsGridPath c d path) :
    ∃ rest, path = c :: rest := by
  cases path with
  | nil => cases h.head
  | cons x rest =>
      obtain rfl : x = c := Option.some.inj h.head
      exact ⟨rest, rfl⟩

theorem IsGridPath.reverse {path : List (Cell m n)} (h : IsGridPath c d path) :
    IsGridPath d c path.reverse where
  chain := List.isChain_reverse.mpr (h.chain.imp fun _ _ hlink => hlink.symm)
  head := List.head?_reverse.trans h.last
  last := List.getLast?_reverse.trans h.head

/-- Every cell is reached from the corner. -/
theorem cell_induction [NeZero m] [NeZero n] {P : Cell m n → Prop} (hcorner : P (0, 0))
    (hstep : ∀ c d, P c → Adjacent c d → P d) (c : Cell m n) : P c := by
  have hcolumn : ∀ i (hi : i < m), P (⟨i, hi⟩, 0) := by
    intro i
    induction i with
    | zero => exact fun _ => hcorner
    | succ i ih => exact fun hi => hstep _ _ (ih (Nat.lt_of_succ_lt hi)) (.inr ⟨rfl, .inl rfl⟩)
  have hrow : ∀ j (hj : j < n), P (c.1, ⟨j, hj⟩) := by
    intro j
    induction j with
    | zero => exact fun _ => hcolumn c.1 c.1.isLt
    | succ j ih => exact fun hj => hstep _ _ (ih (Nat.lt_of_succ_lt hj)) (.inl ⟨rfl, .inl rfl⟩)
  exact hrow c.2 c.2.isLt

/-! ## Loops that rewrite every cell -/

section Rewrite

variable {ι κ α : Type*} {f : α → α} {step : (κ → α) → ι → κ → α} {hits : ι → κ → Prop}
  {l : List ι} {i : ι} {c : κ}

theorem foldl_miss (hmiss : ∀ g i c, ¬ hits i c → step g i c = g c) (g : κ → α)
    (hl : ∀ i ∈ l, ¬ hits i c) : l.foldl step g c = g c := by
  induction l generalizing g with
  | nil => rfl
  | cons i l ih =>
      rw [List.foldl_cons, ih _ fun i hi => hl i (List.mem_cons_of_mem _ hi),
        hmiss g i c (hl i List.mem_cons_self)]

/-- A cell that one turn rewrites and no other is rewritten once. -/
theorem foldl_hit (hhit : ∀ g i c, hits i c → step g i c = f (g c))
    (hmiss : ∀ g i c, ¬ hits i c → step g i c = g c) (hl : l.Nodup) (hi : i ∈ l)
    (hc : hits i c) (hone : ∀ i', hits i' c → i' = i) (g : κ → α) :
    l.foldl step g c = f (g c) := by
  obtain ⟨before, after, rfl⟩ := List.append_of_mem hi
  obtain ⟨hnew, -⟩ := List.nodup_cons.mp (List.nodup_middle.mp hl)
  rw [List.mem_append, not_or] at hnew
  rw [List.foldl_append, List.foldl_cons,
    foldl_miss hmiss _ fun i' hi' hc' => hnew.2 (hone i' hc' ▸ hi'), hhit _ _ _ hc,
    foldl_miss hmiss _ fun i' hi' hc' => hnew.1 (hone i' hc' ▸ hi')]

end Rewrite

end MoreCpp.Library
