import MoreCpp.Library.DownwardPaths
import Mathlib.Logic.Function.Basic
import Mathlib.Tactic.Ring

/-!
`count_all_paths` of `algorithms/trees/trees.cpp`, with integers of any size. What `pref`
has no entry for counts 0.
-/

namespace MoreCpp

open Library

namespace CountAllPaths

/-- The recursive function, with `pref` before and after. -/
def f (k : Int) : BinaryTree Int → Int → (Int → Int) → Int × (Int → Int)
  | .nil, _, pref => (0, pref)
  | .node data left right, sum, pref =>
    let sum := sum + data
    let path := if sum = k then 1 else 0
    let path := path + pref (sum - k)
    let pref := Function.update pref sum (pref sum + 1)
    let (below, pref) := f k left sum pref
    let path := path + below
    let (below, pref) := f k right sum pref
    let path := path + below
    (path, Function.update pref sum (pref sum - 1))

def countAllPaths (root : BinaryTree Int) (k : Int) : Int := (f k root 0 fun _ => 0).1

/-- The sums of the paths that begin below the root. -/
def innerSums : BinaryTree Int → List Int
  | .nil => []
  | .node _ left right => pathSums left ++ pathSums right

theorem pathSums_eq (t : BinaryTree Int) : pathSums t = rootSums t ++ innerSums t := by
  cases t with
  | nil => rfl
  | node a left right => rfl

/-- What one node adds: the paths that end there and begin at the root or, going by
`pref`, below one of the nodes before. -/
def starts (k : Int) (pref : Int → Int) (sum : Int) : Int :=
  (if sum = k then 1 else 0) + pref (sum - k)

theorem sum_indicator (k : Int) (sums : List Int) :
    (sums.map fun x => if x = k then (1 : Int) else 0).sum = sums.count k := by
  induction sums with
  | nil => rfl
  | cons x sums ih =>
      rw [List.map_cons, List.sum_cons, ih, List.count_cons]
      by_cases hx : x = k
      · simp [hx, add_comm]
      · simp [hx]

/-- A node entered in `pref` also begins the paths from below it. -/
theorem starts_update (k sum : Int) (pref : Int → Int) (x : Int) :
    starts k (Function.update pref sum (pref sum + 1)) (sum + x) =
      starts k pref (sum + x) + if x = k then 1 else 0 := by
  unfold starts
  obtain rfl | hne := eq_or_ne x k
  · have hsame : sum + x - x = sum := by omega
    rw [hsame, Function.update_self, if_pos (rfl : x = x)]
    omega
  · have hother : sum + x - k ≠ sum := by omega
    rw [Function.update_of_ne hother, if_neg hne]
    omega

/-- A call leaves `pref` as it was, and counts the paths that end in its subtree. -/
theorem f_spec (k : Int) (t : BinaryTree Int) (sum : Int) (pref : Int → Int) :
    f k t sum pref = (((rootSums t).map fun x => starts k pref (sum + x)).sum +
      (innerSums t).count k, pref) := by
  induction t generalizing sum pref with
  | nil => rfl
  | node data left right ihl ihr =>
      have hchild : ∀ t : BinaryTree Int,
          ((rootSums t).map fun x => starts k
            (Function.update pref (sum + data) (pref (sum + data) + 1)) (sum + data + x)).sum +
            (innerSums t).count k =
          (((rootSums t).map (data + ·)).map fun x => starts k pref (sum + x)).sum +
            (pathSums t).count k := by
        intro t
        simp only [starts_update, List.sum_map_add, sum_indicator]
        simp only [List.map_map, Function.comp_def, add_assoc]
        rw [pathSums_eq, List.count_append]
        push_cast
        ring
      have hrestore : Function.update (Function.update pref (sum + data) (pref (sum + data) + 1))
          (sum + data) (pref (sum + data)) = pref := by
        rw [Function.update_idem, Function.update_eq_self]
      simp only [f, ihl, ihr, hchild, Function.update_self, add_sub_cancel_right, hrestore]
      rw [rootSums, innerSums, List.map_cons, List.sum_cons, List.map_append, List.sum_append,
        List.count_append]
      unfold starts
      push_cast
      ring_nf

theorem countAllPaths_eq (root : BinaryTree Int) (k : Int) :
    ∃ n : Nat, (Downward root k).encard = n ∧ countAllPaths root k = n ∧
      (f k root 0 fun _ => 0).2 = fun _ => 0 := by
  refine ⟨(pathSums root).count k, encard_downward root k, ?_, by rw [f_spec]⟩
  have hstarts : ∀ x, starts k (fun _ => 0) (0 + x) = if x = k then 1 else 0 := by
    intro x
    rw [starts, zero_add, add_zero]
  simp only [countAllPaths, f_spec, hstarts, sum_indicator]
  rw [pathSums_eq, List.count_append]
  push_cast
  rfl

end CountAllPaths

end MoreCpp
