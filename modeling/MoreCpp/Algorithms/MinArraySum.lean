import MoreCpp.Library.CappedMin
import MoreCpp.Library.Cells
import MoreCpp.Library.Loop
import MoreCpp.Library.SignedInt
import Mathlib.Algebra.Order.BigOperators.Group.List

/-!
`min_array_sum` of `algorithms/dp/dp.cpp`. `none` is an `int` that overflows, an index out of
range, or an array with no positive length.
-/

namespace MoreCpp

open Library

namespace MinArraySum

/-- The `int` that `memset` leaves in each cell: four times the byte `0x3f`. -/
def inf : Int := 0x3f3f3f3f

/-- `(x + 1) / 2`. -/
def half (x : Int) : Option Int := do
  let y ← signed 32 (x + 1)
  return y.tdiv 2

/-- `if (ok) v = min(v, f[i-1][j][k] + cost)`, where `f` is the layer `i-1`. -/
def offer (ok : Bool) (f : List (List Int)) (j k : Nat) (cost : Option Int) (v : Int) :
    Option Int :=
  if ok then do
    let b ← readCell f j k
    let c ← cost
    let s ← signed 32 (b + c)
    return min v s
  else some v

/-- `f[i][j][k]` from the layer `i-1`. -/
def cell (f : List (List Int)) (x d : Int) (j k : Nat) : Option Int := do
  let a ← readCell f j k
  let v ← signed 32 (a + x)
  let v ← offer (j > 0) f (j - 1) k (half x) v
  let v ← offer (k > 0 ∧ x ≥ d) f j (k - 1) (signed 32 (x - d)) v
  if j > 0 ∧ k > 0 then
    let y ← half x
    let v ← offer (y ≥ d) f (j - 1) (k - 1) (signed 32 (y - d)) v
    offer (x ≥ d) f (j - 1) (k - 1) (signed 32 (x - d) >>= half) v
  else return v

/-- The layer `i` has its cells from the layer `i-1` only. -/
def layer (op1 op2 : Nat) (d : Int) (f : List (List Int)) (x : Int) : Option (List (List Int)) :=
  (List.range (op1 + 1)).mapM fun j => (List.range (op2 + 1)).mapM fun k => cell f x d j k

/-- A turn of the loop over the elements. -/
def turn (a : List Int) (op1 op2 : Nat) (d : Int) (i : Nat) (f : List (List Int)) :
    Option (List (List Int)) := do
  let x ← a[i - 1]?
  layer op1 op2 d f x

/-- The least of a layer, and of `ans`. -/
def leastCell (op1 op2 : Nat) (f : List (List Int)) (ans : Int) : Option Int :=
  forRange 0 (op1 + 1) (fun j ans => forRange 0 (op2 + 1) (fun k ans => do
    let v ← readCell f j k
    return min ans v) ans) ans

/-- Of the table, one layer after the other. -/
def minArraySum (a : List Int) (d : Int) (op1 op2 : Nat) : Option Int := do
  let n : Int := (a.length : Int).bmod (2 ^ 32)
  let layers ← signed 32 (n + 1)
  let rows ← signedNat 32 (op1 + 1)
  let columns ← signedNat 32 (op2 + 1)
  if layers ≤ 0 then none
  else
    let f ← writeCell (List.replicate rows (List.replicate columns inf)) 0 0 0
    let f ← forRange 1 (n.toNat + 1) (turn a op1 op2 d) f
    leastCell op1 op2 f 1000000000

/-! ## The operations -/

inductive Op where
  | halve
  | subtract
deriving DecidableEq

/-- Halving rounds up, and only what is at least `d` has `d` subtracted. -/
def Op.apply (d x : Int) : Op → Option Int
  | halve => some ((x + 1) / 2)
  | subtract => if d ≤ x then some (x - d) else none

/-- The total that can be had with so many halvings and subtractions: each element goes
through a list of operations, none of them twice. -/
inductive Total (d : Int) : List Int → Nat → Nat → Int → Prop
  | nil : Total d [] 0 0 0
  | concat {a : List Int} {j k : Nat} {t x y : Int} {ops : List Op} (h : Total d a j k t)
      (hops : ops.Nodup) (hy : ops.foldlM (Op.apply d) x = some y) :
      Total d (a ++ [x]) (j + ops.count .halve) (k + ops.count .subtract) (t + y)

variable {a : List Int} {d x t v : Int} {j k op1 op2 : Nat} {f : List (List Int)}

theorem nodup_ops_iff {ops : List Op} : ops.Nodup ↔ ops = [] ∨ ops = [.halve] ∨
    ops = [.subtract] ∨ ops = [.halve, .subtract] ∨ ops = [.subtract, .halve] := by
  constructor
  · intro h
    obtain _ | ⟨p, _ | ⟨q, _ | ⟨r, rest⟩⟩⟩ := ops
    · exact .inl rfl
    · cases p <;> simp
    · cases p <;> cases q <;> simp_all
    · cases p <;> cases q <;> cases r <;> simp_all
  · rintro (rfl | rfl | rfl | rfl | rfl) <;> decide

theorem total_nil_iff : Total d [] j k t ↔ j = 0 ∧ k = 0 ∧ t = 0 := by
  constructor
  · intro h
    generalize hnil : ([] : List Int) = l at h
    cases h with
    | nil => exact ⟨rfl, rfl, rfl⟩
    | concat => exact absurd hnil.symm (List.concat_ne_nil _ _)
  · rintro ⟨rfl, rfl, rfl⟩
    exact .nil

theorem total_concat : Total d (a ++ [x]) j k t ↔ ∃ (ops : List Op) (y : Int), ops.Nodup ∧
    ops.foldlM (Op.apply d) x = some y ∧ ∃ j' k', Total d a j' k' (t - y) ∧
      j = j' + ops.count .halve ∧ k = k' + ops.count .subtract := by
  constructor
  · intro h
    generalize hl : a ++ [x] = l at h
    cases h with
    | nil => exact absurd hl (List.concat_ne_nil _ _)
    | @concat a' j' k' t' x' y ops h hops hy =>
        obtain ⟨rfl, hx⟩ := List.append_inj' hl rfl
        obtain rfl := List.singleton_inj.mp hx
        exact ⟨ops, y, hops, hy, j', k', by rwa [Int.add_sub_cancel], rfl, rfl⟩
  · rintro ⟨ops, y, hops, hy, j', k', h, rfl, rfl⟩
    have hlast := h.concat hops hy
    rwa [Int.sub_add_cancel] at hlast

/-- What the last element can come to, and with how many operations. -/
theorem total_concat_iff : Total d (a ++ [x]) j k t ↔
    Total d a j k (t - x) ∨
    0 < j ∧ Total d a (j - 1) k (t - (x + 1) / 2) ∨
    (0 < k ∧ d ≤ x) ∧ Total d a j (k - 1) (t - (x - d)) ∨
    (0 < j ∧ 0 < k) ∧ (d ≤ (x + 1) / 2 ∧ Total d a (j - 1) (k - 1) (t - ((x + 1) / 2 - d)) ∨
      d ≤ x ∧ Total d a (j - 1) (k - 1) (t - (x - d + 1) / 2)) := by
  rw [total_concat]
  constructor
  · rintro ⟨ops, y, hops, hy, j', k', h, rfl, rfl⟩
    obtain rfl | rfl | rfl | rfl | rfl := nodup_ops_iff.mp hops
    · obtain rfl : x = y := Option.some.inj hy
      exact .inl h
    · obtain rfl : (x + 1) / 2 = y := Option.some.inj hy
      exact .inr (.inl ⟨Nat.succ_pos j', h⟩)
    · by_cases hd : d ≤ x <;> simp [Op.apply, hd] at hy
      subst hy
      exact .inr (.inr (.inl ⟨⟨Nat.succ_pos k', hd⟩, h⟩))
    · by_cases hd : d ≤ (x + 1) / 2 <;> simp [Op.apply, hd] at hy
      subst hy
      exact .inr (.inr (.inr ⟨⟨Nat.succ_pos j', Nat.succ_pos k'⟩, .inl ⟨hd, h⟩⟩))
    · by_cases hd : d ≤ x <;> simp [Op.apply, hd] at hy
      subst hy
      exact .inr (.inr (.inr ⟨⟨Nat.succ_pos j', Nat.succ_pos k'⟩, .inr ⟨hd, h⟩⟩))
  · rintro (h | ⟨hj, h⟩ | ⟨⟨hk, hd⟩, h⟩ | ⟨⟨hj, hk⟩, ⟨hd, h⟩ | ⟨hd, h⟩⟩)
    · exact ⟨[], x, .nil, rfl, j, k, h, rfl, rfl⟩
    · exact ⟨[.halve], _, by decide, rfl, j - 1, k, h, (Nat.sub_add_cancel hj).symm, rfl⟩
    · exact ⟨[.subtract], _, by decide, by simp [Op.apply, hd], j, k - 1, h, rfl,
        (Nat.sub_add_cancel hk).symm⟩
    · exact ⟨[.halve, .subtract], _, by decide, by simp [Op.apply, hd], j - 1, k - 1, h,
        (Nat.sub_add_cancel hj).symm, (Nat.sub_add_cancel hk).symm⟩
    · exact ⟨[.subtract, .halve], _, by decide, by simp [Op.apply, hd], j - 1, k - 1, h,
        (Nat.sub_add_cancel hj).symm, (Nat.sub_add_cancel hk).symm⟩

/-! ## One cell -/

theorem half_eq (hx : 0 ≤ x) (hfits : x + 1 < 2 ^ 31) : half x = some ((x + 1) / 2) := by
  rw [half, signed_eq (by omega) hfits, Option.bind_eq_bind, Option.bind_some,
    Int.tdiv_eq_ediv_of_nonneg (by omega)]
  rfl

theorem offer_spec (ok : Bool) (cost : Option Int) {c top : Int} {S T : Set Int}
    (h : LeastOr inf S v) (hv : 0 ≤ v ∧ v ≤ top) (htop : top < 2 ^ 31)
    (hread : ok = true → ∃ b, readCell f j k = some b ∧ LeastOr inf T b ∧ 0 ≤ b ∧ b + c ≤ top)
    (hcost : ok = true → cost = some c ∧ 0 ≤ c) :
    ∃ v', offer ok f j k cost v = some v' ∧
      LeastOr inf (S ∪ {t | ok = true ∧ t - c ∈ T}) v' ∧ 0 ≤ v' ∧ v' ≤ top := by
  cases ok with
  | false =>
      refine ⟨v, rfl, h.congr fun m => ?_, hv⟩
      simp
  | true =>
      obtain ⟨b, hb, hleast, hpos, hle⟩ := hread rfl
      obtain ⟨hc, hc'⟩ := hcost rfl
      have hfits : signed 32 (b + c) = some (b + c) := signed_eq (by omega) (by omega)
      refine ⟨min v (b + c), ?_, ?_, ?_⟩
      · simp only [offer, if_true, hb, hc, hfits, Option.bind_eq_bind, Option.bind_some,
          Option.pure_def]
      · refine (h.union (hleast.add hc')).congr fun m => ?_
        simp
      · omega

/-- The layer of the elements `a`: with so many operations of each kind, the least total, or
something as large as `inf` where there is none. -/
def Holds (d : Int) (a : List Int) (j k : Nat) (v : Int) : Prop :=
  LeastOr inf {t | Total d a j k t} v ∧ 0 ≤ v ∧ v ≤ inf + a.sum

theorem cell_spec (hx : 0 ≤ x) (hd : 0 ≤ d) (hfits : inf + (a ++ [x]).sum < 2 ^ 31)
    (hsum : 0 ≤ a.sum) (h : Cellwise f (op1 + 1) (op2 + 1) (Holds d a)) (hj : j < op1 + 1)
    (hk : k < op2 + 1) : ∃ v, cell f x d j k = some v ∧ Holds d (a ++ [x]) j k v := by
  have htop : (a ++ [x]).sum = a.sum + x := by simp
  rw [htop] at hfits
  have hinf : inf = 1061109567 := rfl
  have hread : ∀ j' k' c, j' ≤ j → k' ≤ k → c ≤ x → ∃ b, readCell f j' k' = some b ∧
      LeastOr inf {t | Total d a j' k' t} b ∧ 0 ≤ b ∧ b + c ≤ inf + (a.sum + x) := by
    intro j' k' c hj' hk' hc
    obtain ⟨b, hb, hleast, hpos, hle⟩ := h j' (by omega) k' (by omega)
    exact ⟨b, hb, hleast, hpos, by omega⟩
  obtain ⟨b, hb, hleast, hpos, hle⟩ := hread j k x (Nat.le_refl j) (Nat.le_refl k) (Int.le_refl x)
  have hhalf : half x = some ((x + 1) / 2) := half_eq hx (by omega)
  have hless : d ≤ x → signed 32 (x - d) = some (x - d) := fun hdx =>
    signed_eq (by omega) (by omega)
  have hsum : signed 32 (b + x) = some (b + x) := signed_eq (by omega) (by omega)
  obtain ⟨v₁, hv₁, hleast₁, hpos₁, hle₁⟩ := offer_spec (j > 0) (half x)
    (hleast.add hx) ⟨by omega, hle⟩ hfits
    (fun _ => hread (j - 1) k ((x + 1) / 2) (by omega) (by omega) (by omega))
    fun _ => ⟨hhalf, by omega⟩
  obtain ⟨v₂, hv₂, hleast₂, hpos₂, hle₂⟩ := offer_spec (k > 0 ∧ x ≥ d)
    (signed 32 (x - d)) hleast₁ ⟨hpos₁, hle₁⟩ hfits
    (fun _ => hread j (k - 1) (x - d) (by omega) (by omega) (by omega))
    fun hok => by
      have hdx := (of_decide_eq_true hok).2
      exact ⟨hless hdx, by omega⟩
  unfold cell
  simp only [hb, hsum, hv₁, hv₂, Option.bind_eq_bind, Option.bind_some]
  split
  case isTrue hjk =>
    have hless' : d ≤ (x + 1) / 2 → signed 32 ((x + 1) / 2 - d) = some ((x + 1) / 2 - d) :=
      fun hdx => signed_eq (by omega) (by omega)
    obtain ⟨v₃, hv₃, hleast₃, hpos₃, hle₃⟩ := offer_spec ((x + 1) / 2 ≥ d)
      (signed 32 ((x + 1) / 2 - d)) hleast₂ ⟨hpos₂, hle₂⟩ hfits
      (fun _ => hread (j - 1) (k - 1) ((x + 1) / 2 - d) (by omega) (by omega) (by omega))
      fun hok => by
        have hdx := of_decide_eq_true hok
        exact ⟨hless' hdx, by omega⟩
    obtain ⟨v₄, hv₄, hleast₄, hbounds₄⟩ := offer_spec (x ≥ d)
      (signed 32 (x - d) >>= half) hleast₃ ⟨hpos₃, hle₃⟩ hfits
      (fun _ => hread (j - 1) (k - 1) ((x - d + 1) / 2) (by omega) (by omega) (by omega))
      fun hok => by
        have hdx := of_decide_eq_true hok
        refine ⟨?_, by omega⟩
        rw [hless hdx]
        exact half_eq (by omega) (by omega)
    refine ⟨v₄, ?_, hleast₄.congr fun t => ?_, by rwa [htop]⟩
    · rw [hhalf, Option.bind_some, hv₃, Option.bind_some]
      exact hv₄
    · simp [total_concat_iff, hjk, or_assoc]
  case isFalse hjk =>
    refine ⟨v₂, rfl, hleast₂.congr fun t => ?_, by rw [htop]; exact ⟨hpos₂, hle₂⟩⟩
    simp [total_concat_iff, hjk, or_assoc]

/-! ## The table -/

theorem layer_spec (hx : 0 ≤ x) (hd : 0 ≤ d) (hfits : inf + (a ++ [x]).sum < 2 ^ 31)
    (hsum : 0 ≤ a.sum) (h : Cellwise f (op1 + 1) (op2 + 1) (Holds d a)) :
    ∃ f', layer op1 op2 d f x = some f' ∧
      Cellwise f' (op1 + 1) (op2 + 1) (Holds d (a ++ [x])) := by
  have hrow : ∀ j < op1 + 1, ∃ row, (List.range (op2 + 1)).mapM (fun k => cell f x d j k) =
      some row ∧ ∀ k < op2 + 1, ∃ v, row[k]? = some v ∧ Holds d (a ++ [x]) j k v := by
    intro j hj
    obtain ⟨row, hrow, -, hall⟩ := mapM_range (op2 + 1) fun k hk =>
      cell_spec hx hd hfits hsum h hj hk
    exact ⟨row, hrow, hall⟩
  obtain ⟨f', hf', -, hall⟩ := mapM_range (op1 + 1) hrow
  refine ⟨f', hf', fun j hj k hk => ?_⟩
  obtain ⟨row, hread, hcells⟩ := hall j hj
  obtain ⟨v, hv, hholds⟩ := hcells k hk
  exact ⟨v, by rw [readCell, hread]; exact hv, hholds⟩

theorem start_spec (d : Int) (op1 op2 : Nat) :
    ∃ f, writeCell (List.replicate (op1 + 1) (List.replicate (op2 + 1) inf)) 0 0 0 = some f ∧
      Cellwise f (op1 + 1) (op2 + 1) (Holds d []) := by
  have hinf : Cellwise (List.replicate (op1 + 1) (List.replicate (op2 + 1) inf)) (op1 + 1)
      (op2 + 1) fun _ _ v => v = inf := Cellwise.replicate fun _ _ _ _ => rfl
  have hzero : Holds d [] 0 0 0 := by
    refine ⟨(LeastOr.single 0).congr fun t => ?_, Int.le_refl 0, by decide⟩
    simp [total_nil_iff]
  have hothers : ∀ j k v, ¬(j = 0 ∧ k = 0) → v = inf → Holds d [] j k v := by
    rintro j k _ hother rfl
    refine ⟨(LeastOr.none (Int.le_refl inf)).congr fun t => ?_, by decide, by decide⟩
    simp only [Set.mem_empty_iff_false, Set.mem_ofPred_eq, false_iff, total_nil_iff]
    exact fun h => hother ⟨h.1, h.2.1⟩
  obtain ⟨f, hwrite, hf, -⟩ := hinf.update (Nat.succ_pos op1) (Nat.succ_pos op2) hzero hothers
  exact ⟨f, hwrite, hf⟩

theorem sum_take_bounds (ha : ∀ x ∈ a, 0 ≤ x) (i : Nat) : 0 ≤ (a.take i).sum ∧
    (a.take i).sum ≤ a.sum := by
  have htake : 0 ≤ (a.take i).sum := List.sum_nonneg fun x hx => ha x (List.mem_of_mem_take hx)
  have hdrop : 0 ≤ (a.drop i).sum := List.sum_nonneg fun x hx => ha x (List.mem_of_mem_drop hx)
  have hsplit := List.sum_take_add_sum_drop a i
  omega

theorem layers_spec (ha : ∀ x ∈ a, 0 ≤ x) (htotal : a.sum ≤ 1000000000) (hd : 0 ≤ d)
    (h : Cellwise f (op1 + 1) (op2 + 1) (Holds d [])) :
    ∃ f', forRange 1 (a.length + 1) (turn a op1 op2 d) f = some f' ∧
      Cellwise f' (op1 + 1) (op2 + 1) (Holds d a) := by
  have hloop : ∃ f', forRange 1 (a.length + 1) (turn a op1 op2 d) f = some f' ∧
      Cellwise f' (op1 + 1) (op2 + 1) (Holds d (a.take (max 1 (a.length + 1) - 1))) := by
    apply forRange_rule fun i f => Cellwise f (op1 + 1) (op2 + 1) (Holds d (a.take (i - 1)))
    · exact h
    · intro i f hi hi' hf
      obtain ⟨i, rfl⟩ := Nat.exists_eq_add_of_le' hi
      simp only [turn, Nat.add_sub_cancel] at hf ⊢
      have hx := List.getElem?_eq_getElem (Nat.lt_of_succ_lt_succ hi')
      have hnext := List.take_succ_eq_append_getElem (Nat.lt_of_succ_lt_succ hi')
      have hbounds := sum_take_bounds ha (i + 1)
      have hinf : inf = 1061109567 := rfl
      rw [hnext] at hbounds
      rw [hx, Option.bind_eq_bind, Option.bind_some, hnext]
      exact layer_spec (ha _ (List.mem_of_getElem? hx)) hd (by omega) (sum_take_bounds ha i).1 hf
  obtain ⟨f', hrun, hf'⟩ := hloop
  refine ⟨f', hrun, ?_⟩
  rwa [List.take_of_length_le (by omega)] at hf'

/-! ## The least total -/

/-- The totals of the cells before row `j` and column `k`. -/
def Before (d : Int) (a : List Int) (op2 j k : Nat) : Set Int :=
  {t | ∃ j' k', (j' < j ∧ k' ≤ op2 ∨ j' = j ∧ k' < k) ∧ Total d a j' k' t}

theorem before_succ (d : Int) (a : List Int) {k : Nat} (hk : k ≤ op2) :
    Before d a op2 j (k + 1) = Before d a op2 j k ∪ {t | Total d a j k t} := by
  ext t
  constructor
  · rintro ⟨j', k', hjk, htotal⟩
    by_cases hsame : j' = j ∧ k' = k
    · obtain ⟨rfl, rfl⟩ := hsame
      exact .inr htotal
    · exact .inl ⟨j', k', by omega, htotal⟩
  · rintro (⟨j', k', hjk, htotal⟩ | htotal)
    · exact ⟨j', k', by omega, htotal⟩
    · exact ⟨j, k, by omega, htotal⟩

/-- After the last column comes the next row. -/
theorem before_row (d : Int) (a : List Int) (op2 j : Nat) :
    Before d a op2 j (op2 + 1) = Before d a op2 (j + 1) 0 := by
  ext t
  constructor
  · rintro ⟨j', k', hjk, htotal⟩
    exact ⟨j', k', by omega, htotal⟩
  · rintro ⟨j', k', hjk, htotal⟩
    exact ⟨j', k', by omega, htotal⟩

theorem leastCell_turn {ans : Int} (h : Cellwise f (op1 + 1) (op2 + 1) (Holds d a))
    (hj : j < op1 + 1) (hk : k < op2 + 1)
    (hans : IsLeast (insert 1000000000 (Before d a op2 j k)) ans) :
    ∃ ans', (do
        let v ← readCell f j k
        return min ans v) = some ans' ∧
      IsLeast (insert 1000000000 (Before d a op2 j (k + 1))) ans' := by
  obtain ⟨v, hv, hleast, -⟩ := h j hj k hk
  refine ⟨min ans v, by rw [hv]; rfl, ?_⟩
  rw [before_succ d a (Nat.le_of_lt_succ hk)]
  exact hleast.isLeast_insert (by decide) hans

theorem leastCell_spec (h : Cellwise f (op1 + 1) (op2 + 1) (Holds d a)) :
    ∃ ans, leastCell op1 op2 f 1000000000 = some ans ∧
      IsLeast (insert 1000000000 (Before d a op2 (op1 + 1) 0)) ans := by
  have hstart : IsLeast (insert 1000000000 (Before d a op2 0 0)) 1000000000 := by
    refine ⟨Set.mem_insert _ _, Set.forall_mem_insert.mpr ⟨Int.le_refl _, ?_⟩⟩
    rintro t ⟨j, k, hjk, -⟩
    omega
  have hloop := forRange_rule (fun j ans => IsLeast (insert 1000000000 (Before d a op2 j 0)) ans)
    hstart fun j ans _ (hj : j < op1 + 1) hans => by
      obtain ⟨ans', hrun, hans'⟩ := forRange_rule
        (fun k ans => IsLeast (insert 1000000000 (Before d a op2 j k)) ans) hans
        fun k ans _ (hk : k < op2 + 1) hans => leastCell_turn h hj hk hans
      rw [Nat.zero_max, before_row] at hans'
      exact ⟨ans', hrun, hans'⟩
  rwa [Nat.zero_max] at hloop

/-- Without any operation. -/
theorem total_sum (d : Int) (a : List Int) : Total d a 0 0 a.sum := by
  induction a using List.reverseRecOn with
  | nil => exact .nil
  | append_singleton a x ih =>
      rw [List.sum_append, List.sum_singleton]
      exact ih.concat .nil rfl

/-- The least total that at most so many operations of each kind can come to. -/
theorem minArraySum_eq (a : List Int) (d : Int) (op1 op2 : Nat) (ha : ∀ x ∈ a, 0 ≤ x)
    (htotal : a.sum ≤ 1000000000) (hd : 0 ≤ d) (hlength : a.length + 1 < 2 ^ 31)
    (hop1 : op1 + 1 < 2 ^ 31) (hop2 : op2 + 1 < 2 ^ 31) :
    ∃ m, minArraySum a d op1 op2 = some m ∧
      IsLeast {t | ∃ j k, j ≤ op1 ∧ k ≤ op2 ∧ Total d a j k t} m := by
  obtain ⟨f, hwrite, hf⟩ := start_spec d op1 op2
  obtain ⟨f', hrun, hf'⟩ := layers_spec ha htotal hd hf
  obtain ⟨m, hm, hleast⟩ := leastCell_spec hf'
  have hall : Before d a op2 (op1 + 1) 0 = {t | ∃ j k, j ≤ op1 ∧ k ≤ op2 ∧ Total d a j k t} := by
    ext t
    constructor
    · rintro ⟨j, k, hjk, ht⟩
      exact ⟨j, k, by omega, by omega, ht⟩
    · rintro ⟨j, k, hj, hk, ht⟩
      exact ⟨j, k, by omega, ht⟩
  rw [hall] at hleast
  refine ⟨m, ?_, ?_, fun t ht => hleast.2 (.inr ht)⟩
  · have hlayers : signed 32 ((a.length : Int) + 1) = some ((a.length : Int) + 1) :=
      signed_eq (by omega) (by omega)
    rw [minArraySum, natCast_bmod (by omega), hlayers, signedNat_eq hop1, signedNat_eq hop2]
    simp only [Option.bind_eq_bind, Option.bind_some]
    rw [if_neg (by omega), hwrite, Option.bind_some, Int.toNat_natCast, hrun, Option.bind_some, hm]
  · obtain rfl | hm' := hleast.1
    · have hsum : (a.sum : Int) ∈ {t | ∃ j k, j ≤ op1 ∧ k ≤ op2 ∧ Total d a j k t} :=
        ⟨0, 0, Nat.zero_le _, Nat.zero_le _, total_sum d a⟩
      have hle := hleast.2 (.inr hsum)
      rwa [Int.le_antisymm hle htotal]
    · exact hm'

theorem minArraySum_eq_two : ∃ m, minArraySum [2, 8] 3 1 1 = some m ∧
    IsLeast {t | ∃ j k, j ≤ 1 ∧ k ≤ 1 ∧ Total 3 [2, 8] j k t} m :=
  minArraySum_eq [2, 8] 3 1 1 (by decide) (by decide) (by decide) (by decide) (by decide)
    (by decide)

/-- The length `op1 + 1` is an `int`. -/
theorem minArraySum_overflow : minArraySum [0] 0 (2 ^ 31 - 1) 0 = none := by
  rw [minArraySum, signedNat_eq_none (by decide)]
  rfl

end MinArraySum

end MoreCpp
