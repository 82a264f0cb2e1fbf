import MoreCpp.Library.AcyclicGraphs
import MoreCpp.Library.Grid
import MoreCpp.Library.Loop
import MoreCpp.Library.SignedInt

/-!
`count_paths` of `algorithms/graphs/graphs.cpp`, on a grid of `m` rows and `n` columns.
`none` is a sum that overflows an `int`, or a recursion deeper than `fuel`.
-/

namespace MoreCpp

open Function Library

namespace CountPaths

variable {m n : Nat}

def mod : Int := 10 ^ 9 + 7

/-- `ans = (ans + r) % mod`. -/
def add (ans r : Int) : Option Int := do
  let sum ← signed 32 (ans + r)
  return sum.tmod mod

/-- A turn of the loop over the neighbours of `c`, with `ans` and `f` before and after. -/
def visit (grid : Cell m n → Int)
    (dfs : Cell m n → (Cell m n → Int) → Option (Int × (Cell m n → Int))) (c : Cell m n)
    (s : Int × (Cell m n → Int)) (x : Cell m n) : Option (Int × (Cell m n → Int)) :=
  if grid c < grid x then do
    let (r, f) ← dfs x s.2
    let ans ← add s.1 r
    return (ans, f)
  else some s

/-- `dfs`, with `f` before and after. -/
def dfs (grid : Cell m n → Int) :
    Nat → Cell m n → (Cell m n → Int) → Option (Int × (Cell m n → Int))
  | 0, _, _ => none
  | fuel + 1, c, f =>
    if f c ≠ 0 then some (f c, f)
    else do
      let (ans, f) ← (around c).foldlM (visit grid (fun x f => dfs grid fuel x f) c) (1, f)
      return (ans, update f c ans)

/-- A turn of the loops over the cells. -/
def total (fuel : Nat) (grid : Cell m n → Int) (s : Int × (Cell m n → Int)) (c : Cell m n) :
    Option (Int × (Cell m n → Int)) := do
  let (r, f) ← dfs grid fuel c s.2
  let ans ← add s.1 r
  return (ans, f)

def countPaths (fuel : Nat) (grid : Cell m n → Int) : Option Int :=
  ((rowMajor m n).foldlM (total fuel grid) (0, fun _ => 0)).map Prod.fst

/-! ## Increasing sequences -/

/-- The non-empty sequences of cells of which each is a neighbour of the one before, and greater. -/
def increasing (grid : Cell m n → Int) : Set (List (Cell m n)) :=
  {path | path ≠ [] ∧ path.IsChain fun c d => Adjacent c d ∧ grid c < grid d}

def up (grid : Cell m n → Int) (c : Cell m n) : List (Cell m n) :=
  (around c).filter fun x => grid c < grid x

/-- The number of greater cells. -/
def level (grid : Cell m n → Int) (c : Cell m n) : Nat :=
  (Finset.univ.filter fun d => grid c < grid d).card

/-- The number of increasing sequences from `c`. -/
noncomputable def number (grid : Cell m n → Int) (c : Cell m n) : Nat :=
  (walks (up grid) c).ncard

variable {grid : Cell m n → Int} {c d x : Cell m n}

theorem mem_up : x ∈ up grid c ↔ Adjacent c x ∧ grid c < grid x := by
  rw [up, List.mem_filter, mem_around, decide_eq_true_eq]

theorem level_lt_of_less (h : grid c < grid d) : level grid d < level grid c := by
  apply Finset.card_lt_card
  rw [Finset.ssubset_iff_of_subset (Finset.monotone_filter_right _ fun _ _ => h.trans)]
  exact ⟨d, by simp [h], by simp⟩

theorem level_lt (c : Cell m n) : level grid c < m * n := by
  have hcard : Fintype.card (Cell m n) = m * n := by simp
  rw [← hcard]
  exact Finset.card_lt_univ_of_notMem (x := c) (by simp)

theorem level_up (a : Cell m n) : ∀ b ∈ up grid a, level grid b < level grid a :=
  fun _ hb => level_lt_of_less (mem_up.mp hb).2

theorem number_eq (c : Cell m n) :
    number grid c = 1 + ((up grid c).map (number grid)).sum :=
  ncard_walks level_up (nodup_around.filter _)

theorem increasing_eq : increasing grid = walksFrom (up grid) (rowMajor m n) := by
  have hlink : (fun a b => b ∈ up grid a) = fun a b => Adjacent a b ∧ grid a < grid b :=
    funext fun a => funext fun b => propext mem_up
  ext path
  constructor
  · rintro ⟨hne, hchain⟩
    cases path with
    | nil => exact absurd rfl hne
    | cons c rest => exact ⟨c, mem_rowMajor c, rfl, by rwa [hlink]⟩
  · rintro ⟨c, -, hhead, hchain⟩
    refine ⟨?_, by rwa [hlink] at hchain⟩
    rintro rfl
    cases hhead

theorem finite_increasing (grid : Cell m n → Int) : (increasing grid).Finite := by
  rw [increasing_eq]
  exact finite_walksFrom fun c _ => finite_walks level_up c

theorem ncard_increasing (grid : Cell m n → Int) :
    (increasing grid).ncard = ((rowMajor m n).map (number grid)).sum := by
  rw [increasing_eq]
  exact ncard_walksFrom level_up nodup_rowMajor

/-! ## Remainders -/

def rem (k : Nat) : Int := (k : Int) % mod

theorem rem_eq {k : Nat} (hk : (k : Int) < mod) : rem k = k :=
  Int.emod_eq_of_lt (Int.natCast_nonneg k) hk

theorem rem_zero : rem 0 = 0 := rem_eq (by decide)

theorem rem_one : rem 1 = 1 := rem_eq (by decide)

theorem add_rem (j k : Nat) : add (rem j) (rem k) = some (rem (j + k)) := by
  have hmod : 0 < mod := by decide
  have hj := Int.emod_nonneg j hmod.ne'
  have hk := Int.emod_nonneg k hmod.ne'
  have hj' := Int.emod_lt_of_pos j hmod
  have hk' := Int.emod_lt_of_pos k hmod
  unfold add rem
  rw [signed_eq (by omega) (by unfold mod at *; omega), Option.bind_eq_bind, Option.bind_some,
    Int.tmod_eq_emod_of_nonneg (Int.add_nonneg hj hk), ← Int.add_emod, Nat.cast_add]
  rfl

/-- A value is remembered where it is not 0, which may be the remainder of a number too. -/
def Memo (grid f : Cell m n → Int) : Prop := ∀ c, f c ≠ 0 → f c = rem (number grid c)

variable {f : Cell m n → Int} {fuel : Nat}

theorem Memo.store (h : Memo grid f) (c : Cell m n) :
    Memo grid (update f c (rem (number grid c))) := by
  intro d hd
  obtain rfl | hne := eq_or_ne d c
  · exact update_self ..
  · rw [update_of_ne hne] at hd ⊢
    exact h d hd

theorem dfs_spec (fuel : Nat) (c : Cell m n) (f : Cell m n → Int) (hfuel : level grid c < fuel)
    (h : Memo grid f) :
    ∃ f', dfs grid fuel c f = some (rem (number grid c), f') ∧ Memo grid f' := by
  induction fuel generalizing c f with
  | zero => exact absurd hfuel (Nat.not_lt_zero _)
  | succ fuel ih =>
      rw [dfs]
      split
      case isTrue hne => exact ⟨f, by rw [h c hne], h⟩
      case isFalse =>
        have hrow : ∃ s, (around c).foldlM (visit grid (fun x f => dfs grid fuel x f) c) (1, f) =
            some s ∧ s.1 = rem (1 + ((up grid c).map (number grid)).sum) ∧ Memo grid s.2 := by
          apply foldlM_rule fun seen (s : Int × (Cell m n → Int)) =>
            s.1 = rem (1 + ((seen.filter fun x => grid c < grid x).map (number grid)).sum) ∧
              Memo grid s.2
          · exact ⟨by simp [rem_one], h⟩
          · rintro seen x rest ⟨ans, f⟩ - ⟨hans, hmemo⟩
            dsimp only at hans
            subst hans
            rw [visit, List.filter_append]
            split
            case isTrue hless =>
              have hx : level grid x < fuel := by
                have hlower := level_lt_of_less hless
                omega
              obtain ⟨f', hdfs, hmemo'⟩ := ih x f hx hmemo
              rw [hdfs, Option.bind_eq_bind, Option.bind_some]
              dsimp only
              rw [add_rem, Option.bind_eq_bind, Option.bind_some]
              refine ⟨_, rfl, congrArg rem ?_, hmemo'⟩
              simp [hless, Nat.add_assoc]
            case isFalse hless =>
              exact ⟨_, rfl, by simp [hless], hmemo⟩
        obtain ⟨⟨ans, f'⟩, hrun, hans, hmemo⟩ := hrow
        dsimp only at hans hmemo
        rw [hrun, hans, ← number_eq]
        exact ⟨_, rfl, hmemo.store c⟩

end CountPaths

end MoreCpp
