import MoreCpp.Library.DisjointSet
import MoreCpp.Library.Grid
import MoreCpp.Library.Loop
import Mathlib.Combinatorics.SimpleGraph.Connectivity.Connected
import Mathlib.Data.Set.Card

/-!
`min_malware_spread` of `algorithms/graphs/graphs.cpp`, on `n` vertices. `none` is a
recursion of `get` that is deeper than `fuel`, an entry of `e` that is no vertex, or the
least element of nothing.
-/

namespace MoreCpp

open Function Library Relation

namespace MinMalwareSpread

variable {n : Nat}

/-! ## `dsu` -/

/-- `get`, with `e` before and after. -/
def get : Nat → (Fin n → Int) → Fin n → Option (Fin n × (Fin n → Int))
  | 0, _, _ => none
  | fuel + 1, e, x =>
    if e x < 0 then some (x, e)
    else do
      let y ← (List.finRange n)[(e x).toNat]?
      let (r, e) ← get fuel e y
      return (r, update e x r.val)

def size (fuel : Nat) (e : Fin n → Int) (x : Fin n) : Option (Int × (Fin n → Int)) := do
  let (r, e) ← get fuel e x
  return (-e r, e)

def unite (fuel : Nat) (e : Fin n → Int) (x y : Fin n) : Option (Bool × (Fin n → Int)) := do
  let (x, e) ← get fuel e x
  let (y, e) ← get fuel e y
  if x = y then return (false, e)
  else
    let (x, y) := if e x > e y then (y, x) else (x, y)
    let e := update e x (e x + e y)
    return (true, update e y x.val)

/-! ## The function -/

/-- A turn of the loops over the matrix. -/
def join (fuel : Nat) (graph : Fin n → Fin n → Int) (e : Fin n → Int) :
    Cell n n → Option (Fin n → Int)
  | (i, j) => if graph i j ≠ 0 then (unite fuel e i j).map Prod.snd else some e

def count (fuel : Nat) : (Fin n → Int) × (Fin n → Int) → Fin n →
    Option ((Fin n → Int) × (Fin n → Int))
  | (e, cnt), x => do
    let (r, e) ← get fuel e x
    return (e, update cnt r (cnt r + 1))

structure Choice (n : Nat) where
  e : Fin n → Int
  ans : Nat
  mx : Int

/-- A turn of the loop that chooses `ans`. -/
def choose (fuel : Nat) (cnt : Fin n → Int) (s : Choice n) (x : Fin n) : Option (Choice n) := do
  let (root, e) ← get fuel s.e x
  if cnt root = 1 then do
    let (sz, e) ← size fuel e root
    if sz > s.mx ∨ sz = s.mx ∧ s.ans > x.val then return { e, ans := x.val, mx := sz }
    else return { s with e }
  else return { s with e }

def minMalwareSpread (fuel : Nat) (graph : Fin n → Fin n → Int) (initial : List (Fin n)) :
    Option Nat := do
  let e ← (rowMajor n n).foldlM (join fuel graph) fun _ => -1
  let (e, cnt) ← initial.foldlM (count fuel) (e, fun _ => 0)
  let s ← initial.foldlM (choose fuel cnt) { e, ans := n, mx := 0 }
  if s.ans = n then (initial.map Fin.val).min? else some s.ans

/-! ## Trees in `e` -/

/-- A root has the size of its set with a minus sign, and any other vertex has its parent. -/
structure Holds (e : Fin n → Int) (p : Fin n → Fin n) (R : Fin n → Fin n → Prop) : Prop where
  sets : DisjointSets p R
  size : ∀ x, p x = x → e x = -(DisjointSets.members p x).card
  parent : ∀ x, p x ≠ x → e x = (p x).val

variable {e : Fin n → Int} {p : Fin n → Fin n} {R : Fin n → Fin n → Prop} {fuel : Nat}
  {a b x y : Fin n}

namespace Holds

theorem singletons : Holds (fun _ : Fin n => -1) id fun _ _ => False where
  sets := DisjointSets.singletons
  size x _ := by
    rw [DisjointSets.members_id]
    rfl
  parent x hx := absurd rfl hx

theorem congr (h : Holds e p R) {R' : Fin n → Fin n → Prop} (hR : ∀ u v, R u v ↔ R' u v) :
    Holds e p R' := ⟨h.sets.congr hR, h.size, h.parent⟩

theorem neg_iff (h : Holds e p R) : e x < 0 ↔ p x = x := by
  by_cases hx : p x = x
  · have hmem : x ∈ DisjointSets.members p x := DisjointSets.mem_members.mpr (root_eq_self hx)
    have hpos : 0 < (DisjointSets.members p x).card := Finset.card_pos.mpr ⟨x, hmem⟩
    rw [h.size x hx]
    exact iff_of_true (by omega) hx
  · rw [h.parent x hx]
    exact iff_of_false (by omega) hx

theorem compress (h : Holds e p R) (hx : p x ≠ x) :
    Holds (update e x (root p x).val) (update p x (root p x)) R where
  sets := h.sets.of_root_eq (h.sets.forest.compress x) (h.sets.forest.root_compress x)
  size y hy := by
    obtain rfl | hne := eq_or_ne y x
    · rw [update_self] at hy
      exact absurd (h.sets.forest.root_eq_self_iff.mp hy) hx
    · rw [update_of_ne hne] at hy ⊢
      rw [h.size y hy, DisjointSets.members, DisjointSets.members, h.sets.forest.root_compress]
  parent y hy := by
    obtain rfl | hne := eq_or_ne y x
    · rw [update_self, update_self]
    · rw [update_of_ne hne] at hy ⊢
      rw [update_of_ne hne]
      exact h.parent y hy

/-- The root of `b` goes under the root of `a`. -/
theorem link (h : Holds e p R) (hne : root p a ≠ root p b)
    (hx : root p a = x) (hy : root p b = y) :
    Holds (update (update e x (e x + e y)) y x.val) (update p y x)
      fun u v => R u v ∨ u = a ∧ v = b where
  sets := by
    subst hx hy
    exact h.sets.link hne
  size z hz := by
    subst hx hy
    obtain rfl | hzb := eq_or_ne z (root p b)
    · rw [update_self] at hz
      exact absurd hz hne
    · rw [update_of_ne hzb] at hz ⊢
      obtain rfl | hza := eq_or_ne z (root p a)
      · rw [update_self, h.size _ hz, h.size _ (h.sets.forest.parent_root b),
          h.sets.members_link hne,
          Finset.card_union_of_disjoint (DisjointSets.disjoint_members hne)]
        omega
      · rw [update_of_ne hza, h.size z hz, h.sets.members_link_of_ne hne hza hzb]
  parent z hz := by
    subst hx hy
    obtain rfl | hzb := eq_or_ne z (root p b)
    · rw [update_self, update_self]
    · rw [update_of_ne hzb] at hz ⊢
      have hza : z ≠ root p a := fun heq => hz (heq ▸ h.sets.forest.parent_root a)
      rw [update_of_ne hza, update_of_ne hzb, h.parent z hz]

end Holds

/-- The recursion is as deep as the tree, and leaves every root as it was. -/
theorem get_rule (h : Holds e p R) (hfuel : n ≤ fuel) (x : Fin n) :
    ∃ e' p', get fuel e x = some (root p x, e') ∧ Holds e' p' R ∧ root p' = root p ∧
      (DisjointSets.Ranked p → DisjointSets.Ranked p') := by
  apply h.sets.forest.fuel_induction (P := fun fuel x =>
    ∃ e' p', get fuel e x = some (root p x, e') ∧ Holds e' p' R ∧ root p' = root p ∧
      (DisjointSets.Ranked p → DisjointSets.Ranked p'))
    ?_ ?_ (by rwa [Fintype.card_fin]) x
  · intro fuel x hroot
    rw [get, if_pos (h.neg_iff.mpr hroot)]
    exact ⟨e, p, by rw [root_eq_self hroot], h, rfl, id⟩
  · rintro fuel x hne ⟨e', p', hget, hp', hsame, hranked⟩
    have hread : (List.finRange n)[(e x).toNat]? = some (p x) := by
      rw [h.parent x hne]
      simp
    have hroot : root p' x ≠ x := by
      rw [hsame]
      exact fun hroot => hne (h.sets.forest.root_eq_self_iff.mp hroot)
    have hp'x : p' x ≠ x := fun hself => hroot (root_eq_self hself)
    rw [get, if_neg (fun hneg => hne (h.neg_iff.mp hneg)), hread, Option.bind_eq_bind,
      Option.bind_some, hget]
    refine ⟨_, _, ?_, hp'.compress hp'x, ?_, fun hp => ?_⟩
    · rw [h.sets.forest.root_parent, ← hsame]
      rfl
    · rw [hp'.sets.forest.root_compress, hsame]
    · exact (hranked hp).compress hp'.sets.forest x

theorem get_spec (h : Holds e p R) (hfuel : n ≤ fuel) (x : Fin n) :
    ∃ e' p', get fuel e x = some (root p x, e') ∧ Holds e' p' R ∧ root p' = root p := by
  obtain ⟨e', p', hget, h', hroot, -⟩ := get_rule h hfuel x
  exact ⟨e', p', hget, h', hroot⟩

theorem size_spec (h : Holds e p R) (hfuel : n ≤ fuel) (x : Fin n) :
    ∃ e' p', size fuel e x = some (((DisjointSets.members p (root p x)).card : Int), e') ∧
      Holds e' p' R ∧ root p' = root p := by
  obtain ⟨e', p', hget, h', hroot⟩ := get_spec h hfuel x
  have hfix : p' (root p x) = root p x := by
    rw [← hroot]
    exact h'.sets.forest.parent_root x
  refine ⟨e', p', ?_, h', hroot⟩
  simp only [size, hget, Option.bind_eq_bind, Option.bind_some, h'.size _ hfix,
    DisjointSets.members, hroot, neg_neg]
  rfl

/-- The larger set keeps its root, so the ranks stay. -/
theorem unite_rule (h : Holds e p R) (hfuel : n ≤ fuel) (a b : Fin n) :
    ∃ e' p', unite fuel e a b = some (decide (root p a ≠ root p b), e') ∧
      (Holds e' p' fun u v => R u v ∨ u = a ∧ v = b) ∧
      (DisjointSets.Ranked p → DisjointSets.Ranked p') := by
  obtain ⟨e₁, p₁, hget, hold, hroot, hranked⟩ := get_rule h hfuel a
  obtain ⟨e₂, p₂, hget', hold', hroot', hranked'⟩ := get_rule hold hfuel b
  have ha : root p₂ a = root p a := by rw [hroot', hroot]
  have hb : root p₂ b = root p₁ b := by rw [hroot']
  have hb' : root p b = root p₂ b := by rw [hroot', hroot]
  have hsizeA := hold'.size _ (hold'.sets.forest.parent_root a)
  have hsizeB := hold'.size _ (hold'.sets.forest.parent_root b)
  rw [unite, hget, Option.bind_eq_bind, Option.bind_some]
  dsimp only
  rw [hget', Option.bind_some, hb', ← ha, ← hb]
  dsimp only
  split
  case isTrue heq =>
    refine ⟨e₂, p₂, ?_, ⟨hold'.sets.insert heq, hold'.size, hold'.parent⟩,
      fun hp => hranked' (hranked hp)⟩
    rw [decide_eq_false (not_not_intro heq)]
    rfl
  case isFalse hne =>
    rw [decide_eq_true hne]
    split
    case isTrue hgt =>
      have hlink := hold'.link (Ne.symm hne) rfl rfl
      refine ⟨_, _, rfl, ⟨hlink.sets.swap, hlink.size, hlink.parent⟩, fun hp => ?_⟩
      exact (hranked' (hranked hp)).link hold'.sets (Ne.symm hne) (by omega)
    case isFalse hle =>
      refine ⟨_, _, rfl, hold'.link hne rfl rfl, fun hp => ?_⟩
      exact (hranked' (hranked hp)).link hold'.sets hne (by omega)

theorem unite_spec (h : Holds e p R) (hfuel : n ≤ fuel) (a b : Fin n) :
    ∃ joined e' p', unite fuel e a b = some (joined, e') ∧
      Holds e' p' fun u v => R u v ∨ u = a ∧ v = b := by
  obtain ⟨e', p', hunite, h', -⟩ := unite_rule h hfuel a b
  exact ⟨_, e', p', hunite, h'⟩

/-! ## The loops -/

def Filled (graph : Fin n → Fin n → Int) (seen : List (Cell n n)) (u v : Fin n) : Prop :=
  (u, v) ∈ seen ∧ graph u v ≠ 0

theorem matrix_spec (graph : Fin n → Fin n → Int) (hfuel : n ≤ fuel) :
    ∃ e p, (rowMajor n n).foldlM (join fuel graph) (fun _ => -1) = some e ∧
      Holds e p fun u v => graph u v ≠ 0 := by
  have hrun : ∃ e, (rowMajor n n).foldlM (join fuel graph) (fun _ => -1) = some e ∧
      ∃ p, Holds e p (Filled graph (rowMajor n n)) := by
    apply foldlM_rule fun seen e => ∃ p, Holds e p (Filled graph seen)
    · exact ⟨id, Holds.singletons.congr fun u v => by simp [Filled]⟩
    · rintro seen ⟨i, j⟩ rest e - ⟨p, h⟩
      unfold join
      dsimp only
      split
      case isTrue hij =>
        obtain ⟨joined, e', p', hunite, h'⟩ := unite_spec h hfuel i j
        refine ⟨e', by rw [hunite]; rfl, p', h'.congr fun u v => ?_⟩
        unfold Filled
        grind
      case isFalse hij =>
        refine ⟨e, rfl, p, h.congr fun u v => ?_⟩
        unfold Filled
        grind
  obtain ⟨e, he, p, h⟩ := hrun
  refine ⟨e, p, he, h.congr fun u v => ?_⟩
  exact and_iff_right (mem_rowMajor (u, v))

theorem count_spec (h : Holds e p R) (hfuel : n ≤ fuel) (initial : List (Fin n)) :
    ∃ e' p' cnt, initial.foldlM (count fuel) (e, fun _ => 0) = some (e', cnt) ∧
      Holds e' p' R ∧ ∀ r, cnt r = initial.countP fun x => root p' x = r := by
  have hrun : ∃ s, initial.foldlM (count fuel) (e, fun _ => 0) = some s ∧ ∃ p', Holds s.1 p' R ∧
      ∀ r, s.2 r = initial.countP fun x => root p' x = r := by
    apply foldlM_rule fun seen (s : (Fin n → Int) × (Fin n → Int)) => ∃ p', Holds s.1 p' R ∧
      ∀ r, s.2 r = seen.countP fun x => root p' x = r
    · exact ⟨p, h, fun r => rfl⟩
    · rintro seen x rest ⟨e, cnt⟩ - ⟨p', h', hcnt⟩
      obtain ⟨e'', p'', hget, h'', hroot⟩ := get_spec h' hfuel x
      refine ⟨_, by rw [count, hget]; rfl, p'', h'', fun r => ?_⟩
      rw [List.countP_append, hroot, List.countP_singleton]
      dsimp only at hcnt ⊢
      rw [update_apply, hcnt, hcnt]
      grind
  obtain ⟨⟨e', cnt⟩, hfold, p', h', hcnt⟩ := hrun
  exact ⟨e', p', cnt, hfold, h', hcnt⟩

/-! ## What a removal saves -/

section Spread

variable (graph : Fin n → Fin n → Int) (initial : List (Fin n))

def network : SimpleGraph (Fin n) := SimpleGraph.fromRel fun i j => graph i j ≠ 0

open Classical in
/-- The components that contain a vertex of `s`. -/
noncomputable def infected (s : Finset (Fin n)) : Finset (network graph).ConnectedComponent :=
  s.image (network graph).connectedComponentMk

/-- The total size of the components that are infected when `x` is removed. -/
noncomputable def spread (x : Fin n) : Nat :=
  ∑ C ∈ infected graph (initial.toFinset.erase x), C.supp.ncard

open Classical in
/-- The size of a component that only `x` infects. -/
noncomputable def saved (x : Fin n) : Nat :=
  if (network graph).connectedComponentMk x ∈ infected graph (initial.toFinset.erase x) then 0
  else ((network graph).connectedComponentMk x).supp.ncard

end Spread

variable {graph : Fin n → Fin n → Int} {initial : List (Fin n)}

theorem spread_add_saved (hx : x ∈ initial) : spread graph initial x + saved graph initial x =
    ∑ C ∈ infected graph initial.toFinset, C.supp.ncard := by
  classical
  have hall : infected graph initial.toFinset = insert ((network graph).connectedComponentMk x)
      (infected graph (initial.toFinset.erase x)) := by
    rw [infected, infected, ← Finset.image_insert, Finset.insert_erase (List.mem_toFinset.mpr hx)]
  rw [hall, saved, spread]
  split
  case isTrue hmem => rw [Finset.insert_eq_of_mem hmem, Nat.add_zero]
  case isFalse hnew => rw [Finset.sum_insert hnew, Nat.add_comm]

theorem reachable_iff {u w : Fin n} :
    (network graph).Reachable u w ↔ EqvGen (fun i j => graph i j ≠ 0) u w := by
  constructor
  · rintro ⟨path⟩
    induction path with
    | nil => exact .refl _
    | cons hadj path ih =>
        refine .trans _ _ _ ?_ ih
        obtain hlink | hlink := hadj.2
        · exact .rel _ _ hlink
        · exact .symm _ _ (.rel _ _ hlink)
  · apply eqvGen_least (network graph).reachable_is_equivalence
    intro a b hab
    by_cases heq : a = b
    · exact heq ▸ .refl a
    · exact SimpleGraph.Adj.reachable ⟨heq, .inl hab⟩

theorem component_eq_iff (h : DisjointSets p fun i j => graph i j ≠ 0) {u w : Fin n} :
    (network graph).connectedComponentMk u = (network graph).connectedComponentMk w ↔
      root p u = root p w := by
  rw [SimpleGraph.ConnectedComponent.eq, reachable_iff, h.same]

theorem ncard_supp (h : DisjointSets p fun i j => graph i j ≠ 0) (x : Fin n) :
    ((network graph).connectedComponentMk x).supp.ncard =
      (DisjointSets.members p (root p x)).card := by
  rw [← Set.ncard_coe_finset]
  congr 1
  ext z
  rw [SimpleGraph.ConnectedComponent.mem_supp_iff, component_eq_iff h, Finset.mem_coe,
    DisjointSets.mem_members]

/-- The count of a root is one where no other vertex of the list has the root. -/
theorem countP_eq_one (hnodup : initial.Nodup) (hx : x ∈ initial) :
    (initial.countP fun y => root p y = root p x) = 1 ↔
      ∀ y ∈ initial, y ≠ x → root p y ≠ root p x := by
  obtain ⟨before, after, rfl⟩ := List.append_of_mem hx
  obtain ⟨hnew, -⟩ := List.nodup_cons.mp (List.nodup_middle.mp hnodup)
  rw [List.countP_append, List.countP_cons, if_pos (by simp)]
  have hzero : (before.countP fun y => root p y = root p x) +
      ((after.countP fun y => root p y = root p x) + 1) = 1 ↔
        ∀ y ∈ before ++ after, root p y ≠ root p x := by
    have hboth := List.countP_eq_zero (p := fun y => decide (root p y = root p x))
      (l := before ++ after)
    rw [List.countP_append] at hboth
    simp only [decide_eq_true_eq] at hboth
    rw [← hboth]
    omega
  rw [hzero]
  grind

theorem saved_eq (h : DisjointSets p fun i j => graph i j ≠ 0) (hnodup : initial.Nodup)
    (hx : x ∈ initial) : saved graph initial x =
      if (initial.countP fun y => root p y = root p x) = 1
        then (DisjointSets.members p (root p x)).card else 0 := by
  classical
  have hmem : (network graph).connectedComponentMk x ∈
      infected graph (initial.toFinset.erase x) ↔
        ∃ y ∈ initial, y ≠ x ∧ root p y = root p x := by
    simp only [infected, Finset.mem_image, Finset.mem_erase, List.mem_toFinset,
      component_eq_iff h]
    grind
  have hone := countP_eq_one (p := p) hnodup hx
  rw [saved, ncard_supp h]
  by_cases hother : ∃ y ∈ initial, y ≠ x ∧ root p y = root p x
  · rw [if_pos (hmem.mpr hother), if_neg]
    obtain ⟨y, hy, hne, hsame⟩ := hother
    exact fun hcount => hone.mp hcount y hy hne hsame
  · rw [if_neg fun hin => hother (hmem.mp hin), if_pos]
    exact hone.mpr fun y hy hne hsame => hother ⟨y, hy, hne, hsame⟩

/-! ## The choice -/

/-- `ans` saves most of what is seen, and is the least vertex that does. -/
def Best (f : Fin n → Nat) (seen : List (Fin n)) (ans : Nat) (mx : Int) : Prop :=
  (ans = n ∧ mx = 0 ∧ ∀ y ∈ seen, f y = 0) ∨
    ∃ x ∈ seen, ans = x.val ∧ mx = f x ∧ 0 < f x ∧
      ∀ y ∈ seen, f y ≤ f x ∧ (f y = f x → x ≤ y)

section Best

variable {f : Fin n → Nat} {seen : List (Fin n)} {ans : Nat} {mx : Int}

theorem Best.better (h : Best f seen ans mx) (hx : 0 < f x)
    (hbetter : (f x : Int) > mx ∨ (f x : Int) = mx ∧ ans > x.val) :
    Best f (seen ++ [x]) x.val (f x) := by
  refine .inr ⟨x, by simp, rfl, rfl, hx, fun y hy => ?_⟩
  rw [List.mem_append, List.mem_singleton] at hy
  obtain hy | rfl := hy
  · obtain ⟨rfl, rfl, hzero⟩ | ⟨z, -, rfl, rfl, -, hmost⟩ := h
    · have hyzero := hzero y hy
      omega
    · have hyz := hmost y hy
      rw [Fin.le_def] at *
      omega
  · exact ⟨Nat.le_refl _, fun _ => le_rfl⟩

theorem Best.keep (h : Best f seen ans mx) (hworse : f x = 0 ∨ (f x : Int) < mx ∨
    (f x : Int) = mx ∧ ans ≤ x.val) : Best f (seen ++ [x]) ans mx := by
  obtain ⟨rfl, rfl, hzero⟩ | ⟨z, hz, rfl, rfl, hpos, hmost⟩ := h
  · have hx := x.isLt
    refine .inl ⟨rfl, rfl, fun y hy => ?_⟩
    rw [List.mem_append, List.mem_singleton] at hy
    obtain hy | rfl := hy
    · exact hzero y hy
    · omega
  · refine .inr ⟨z, by simp [hz], rfl, rfl, hpos, fun y hy => ?_⟩
    rw [List.mem_append, List.mem_singleton] at hy
    obtain hy | rfl := hy
    · exact hmost y hy
    · rw [Fin.le_def]
      omega

end Best

theorem choose_spec {cnt : Fin n → Int} (h : Holds e p fun i j => graph i j ≠ 0)
    (hfuel : n ≤ fuel) (hnodup : initial.Nodup)
    (hcnt : ∀ r, cnt r = initial.countP fun x => root p x = r) :
    ∃ s, initial.foldlM (choose fuel cnt) { e, ans := n, mx := 0 } = some s ∧
      Best (saved graph initial) initial s.ans s.mx := by
  have hrun : ∃ s, initial.foldlM (choose fuel cnt) { e, ans := n, mx := 0 } = some s ∧
      (∃ p', Holds s.e p' (fun i j => graph i j ≠ 0) ∧ root p' = root p) ∧
        Best (saved graph initial) initial s.ans s.mx := by
    apply foldlM_rule fun seen (s : Choice n) =>
      (∃ p', Holds s.e p' (fun i j => graph i j ≠ 0) ∧ root p' = root p) ∧
        Best (saved graph initial) seen s.ans s.mx
    · exact ⟨⟨p, h, rfl⟩, .inl ⟨rfl, rfl, fun y hy => absurd hy List.not_mem_nil⟩⟩
    · rintro seen x rest s hsplit ⟨⟨p', hold, hroot⟩, hbest⟩
      obtain ⟨e₁, p₁, hget, hold₁, hroot₁⟩ := get_spec hold hfuel x
      have hx : x ∈ initial := by simp [hsplit]
      have hsaved := saved_eq h.sets hnodup hx
      rw [choose, hget, Option.bind_eq_bind, Option.bind_some]
      dsimp only
      rw [hroot, hcnt]
      split at hsaved
      case isTrue hone =>
        have hpos : 0 < saved graph initial x := by
          rw [hsaved, Finset.card_pos]
          exact ⟨x, DisjointSets.mem_members.mpr rfl⟩
        obtain ⟨e₂, p₂, hsize, hold₂, hroot₂⟩ := size_spec hold₁ hfuel (root p x)
        have hroots : root p₂ = root p := by rw [hroot₂, hroot₁, hroot]
        have hcard : (DisjointSets.members p₁ (root p₁ (root p x))).card =
            saved graph initial x := by
          rw [hsaved, DisjointSets.members, DisjointSets.members, hroot₁, hroot,
            h.sets.forest.root_root]
        rw [if_pos (by omega), hsize, hcard]
        simp only [Option.bind_eq_bind, Option.bind_some]
        split
        case isTrue hbetter =>
          exact ⟨_, rfl, ⟨p₂, hold₂, hroots⟩, hbest.better hpos hbetter⟩
        case isFalse hworse =>
          exact ⟨_, rfl, ⟨p₂, hold₂, hroots⟩, hbest.keep (by omega)⟩
      case isFalse hone =>
        rw [if_neg (by omega)]
        exact ⟨_, rfl, ⟨p₁, hold₁, hroot₁.trans hroot⟩, hbest.keep (.inl hsaved)⟩
  obtain ⟨s, hrun, -, hbest⟩ := hrun
  exact ⟨s, hrun, hbest⟩

/-- The least vertex of the list whose removal leaves the least spread. -/
structure IsChoice (graph : Fin n → Fin n → Int) (initial : List (Fin n)) (x : Fin n) : Prop where
  mem : x ∈ initial
  least : ∀ y ∈ initial, spread graph initial x ≤ spread graph initial y
  first : ∀ y ∈ initial, spread graph initial y = spread graph initial x → x ≤ y

theorem minMalwareSpread_eq (graph : Fin n → Fin n → Int) (initial : List (Fin n)) (fuel : Nat)
    (hne : initial ≠ []) (hnodup : initial.Nodup) (hfuel : n ≤ fuel) :
    ∃ x, minMalwareSpread fuel graph initial = some x.val ∧ IsChoice graph initial x := by
  obtain ⟨e, p, hmatrix, h⟩ := matrix_spec graph hfuel
  obtain ⟨e', p', cnt, hcount, h', hcnt⟩ := count_spec h hfuel initial
  obtain ⟨s, hchoose, hbest⟩ := choose_spec h' hfuel hnodup hcnt
  simp only [minMalwareSpread, hmatrix, hcount, hchoose, Option.bind_eq_bind, Option.bind_some]
  have htotal : ∀ y ∈ initial, spread graph initial y + saved graph initial y =
      ∑ C ∈ infected graph initial.toFinset, C.supp.ncard := fun y => spread_add_saved
  obtain ⟨hans, -, hzero⟩ | ⟨x, hx, hans, -, -, hmost⟩ := hbest
  · rw [if_pos hans]
    obtain ⟨m, hm⟩ := Option.isSome_iff_exists.mp (List.isSome_min?_of_ne_nil
      (l := initial.map Fin.val) (by simpa using hne))
    obtain ⟨hmem, hmost⟩ := List.min?_eq_some_iff.mp hm
    obtain ⟨x, hx, rfl⟩ := List.mem_map.mp hmem
    refine ⟨x, hm, hx, fun y hy => ?_, fun y hy _ => hmost _ (List.mem_map_of_mem hy)⟩
    have hy' := htotal y hy
    have hx' := htotal x hx
    have hyzero := hzero y hy
    have hxzero := hzero x hx
    omega
  · have hxn := x.isLt
    rw [if_neg (by omega)]
    refine ⟨x, by rw [hans], hx, fun y hy => ?_, fun y hy hsame => ?_⟩
    · have hy' := htotal y hy
      have hx' := htotal x hx
      have hle := (hmost y hy).1
      omega
    · have hy' := htotal y hy
      have hx' := htotal x hx
      exact (hmost y hy).2 (by omega)

/-- Two vertices of one component and one alone. -/
theorem minMalwareSpread_eq_three :
    ∃ x : Fin 3, minMalwareSpread 3 (fun i j : Fin 3 => if i = 2 ↔ j = 2 then 1 else 0) [1, 2] =
      some x.val ∧ IsChoice (fun i j : Fin 3 => if i = 2 ↔ j = 2 then 1 else 0) [1, 2] x :=
  minMalwareSpread_eq _ [1, 2] 3 (by decide) (by decide) le_rfl

end MinMalwareSpread

end MoreCpp
