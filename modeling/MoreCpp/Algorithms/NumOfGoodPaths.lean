import MoreCpp.Library.DisjointSet
import MoreCpp.Library.Loop
import MoreCpp.Library.PartitionPoint
import Mathlib.Combinatorics.SimpleGraph.Acyclic
import Mathlib.Data.List.FinRange
import Mathlib.Data.Prod.Lex
import Mathlib.Data.Sym.Sym2
import Mathlib.Order.Fin.Basic

/-!
`num_of_good_paths` of `algorithms/graphs/graphs.cpp`, on `n` vertices. `none` is a
recursion of `get` that is deeper than `fuel`.
-/

namespace MoreCpp

open Function Library Relation

namespace NumOfGoodPaths

variable {n : Nat}

/-- `g`, after the loop over the edges. -/
def readEdges (edges : List (Fin n × Fin n)) : Fin n → List (Fin n) :=
  edges.foldl (fun g e =>
    let g := update g e.1 (g e.1 ++ [e.2])
    update g e.2 (g e.2 ++ [e.1])) fun _ => []

/-- `get`, with `p` before and after. -/
def get : Nat → (Fin n → Fin n) → Fin n → Option (Fin n × (Fin n → Fin n))
  | 0, _, _ => none
  | fuel + 1, p, x =>
    if x = p x then some (x, p)
    else do
      let (r, p) ← get fuel p (p x)
      return (r, update p x r)

structure State (n : Nat) where
  p : Fin n → Fin n
  size : Fin n → Int → Nat
  ans : Nat

def init (vals : Fin n → Int) : State n :=
  { p := id, size := fun i => update (fun _ => 0) (vals i) 1, ans := n }

/-- `arr`, sorted. -/
def order (vals : Fin n → Int) : List (Int × Fin n) :=
  ((List.finRange n).map fun i => (vals i, i)).mergeSort fun a b => toLex a ≤ toLex b

/-- A turn of the loop over `g[x]`, which writes `x`. -/
def visit (fuel : Nat) (vals : Fin n → Int) (v : Int) :
    Fin n × State n → Fin n → Option (Fin n × State n)
  | (x, s), y =>
    if vals y > v then some (x, s)
    else do
      let (x, p) ← get fuel s.p x
      let (y, p) ← get fuel p y
      if x ≠ y then
        let ans := s.ans + s.size x v * s.size y v
        let p := update p y x
        let size := update s.size x (update (s.size x) v (s.size x v + s.size y v))
        some (x, { p, size, ans })
      else some (x, { s with p })

/-- A turn of the loop over `arr`. The row is that of `x` before it is written. -/
def turn (fuel : Nat) (vals : Fin n → Int) (g : Fin n → List (Fin n)) (s : State n) :
    Int × Fin n → Option (State n)
  | (v, x) => ((g x).foldlM (visit fuel vals v) (x, s)).map Prod.snd

def numOfGoodPaths (fuel : Nat) (vals : Fin n → Int) (edges : List (Fin n × Fin n)) :
    Option Nat := do
  let s ← (order vals).foldlM (turn fuel vals (readEdges edges)) (init vals)
  return s.ans

/-! ## The graph -/

def graph (edges : List (Fin n × Fin n)) : SimpleGraph (Fin n) :=
  SimpleGraph.fromRel fun a b => (a, b) ∈ edges

/-- There is a path all of whose vertices have value at most `v`. -/
def Joined (vals : Fin n → Int) (edges : List (Fin n × Fin n)) (v : Int) (u w : Fin n) : Prop :=
  ∃ path : (graph edges).Walk u w, ∀ x ∈ path.support, vals x ≤ v

def GoodPair (vals : Fin n → Int) (edges : List (Fin n × Fin n)) (e : Sym2 (Fin n)) : Prop :=
  ∃ u w, e = s(u, w) ∧ vals u = vals w ∧ Joined vals edges (vals u) u w

/-- Good paths, read from their lesser end. -/
def goodPaths (vals : Fin n → Int) (edges : List (Fin n × Fin n)) :
    Set (Σ u w, (graph edges).Path u w) :=
  {P | P.1 ≤ P.2.1 ∧ vals P.1 = vals P.2.1 ∧ ∀ x ∈ P.2.2.1.support, vals x ≤ vals P.1}

variable {vals : Fin n → Int} {edges : List (Fin n × Fin n)} {v : Int} {u w x y : Fin n}

theorem mem_readEdges : y ∈ readEdges edges x ↔ (x, y) ∈ edges ∨ (y, x) ∈ edges := by
  induction edges using List.reverseRecOn with
  | nil => simp [readEdges]
  | append_singleton edges e ih =>
      rw [readEdges, List.foldl_append, List.foldl_cons, List.foldl_nil, ← readEdges]
      obtain ⟨a, b⟩ := e
      simp only [Function.update_apply]
      grind

namespace Joined

theorem refl (hu : vals u ≤ v) : Joined vals edges v u u := ⟨.nil, by simpa using hu⟩

theorem symm (h : Joined vals edges v u w) : Joined vals edges v w u := by
  obtain ⟨path, hpath⟩ := h
  exact ⟨path.reverse, by simpa using hpath⟩

theorem trans (h : Joined vals edges v u w) (h' : Joined vals edges v w x) :
    Joined vals edges v u x := by
  obtain ⟨path, hpath⟩ := h
  obtain ⟨path', hpath'⟩ := h'
  refine ⟨path.append path', fun z hz => ?_⟩
  obtain hz | hz := (SimpleGraph.Walk.mem_support_append_iff path path').mp hz
  · exact hpath z hz
  · exact hpath' z hz

end Joined

/-! ## Pairs -/

/-- The pairs of `R` whose first vertex has value at most `v`. -/
def Below (vals : Fin n → Int) (R : Fin n → Fin n → Prop) (v : Int) (a b : Fin n) : Prop :=
  R a b ∧ vals a ≤ v

open Classical in
/-- The pairs of vertices of one value that `R` joins below it. -/
noncomputable def pairs (vals : Fin n → Int) (R : Fin n → Fin n → Prop) : Finset (Sym2 (Fin n)) :=
  Finset.univ.filter fun e => ∃ u w, e = s(u, w) ∧ vals u = vals w ∧
    EqvGen (Below vals R (vals u)) u w

variable {R : Fin n → Fin n → Prop} {a b : Fin n} {c : Int}

theorem mem_pairs :
    s(u, w) ∈ pairs vals R ↔ vals u = vals w ∧ EqvGen (Below vals R (vals u)) u w := by
  simp only [pairs, Finset.mem_filter, Finset.mem_univ, true_and]
  constructor
  · rintro ⟨u', w', heq, hvals, hjoin⟩
    obtain ⟨rfl, rfl⟩ | ⟨rfl, rfl⟩ := Sym2.eq_iff.mp heq
    · exact ⟨hvals, hjoin⟩
    · exact ⟨hvals.symm, hvals ▸ hjoin.symm _ _⟩
  · exact fun h => ⟨u, w, rfl, h⟩

theorem below_eq (hlow : ∀ a b, R a b → vals a ≤ v) (hv : v ≤ c) : Below vals R c = R := by
  funext a b
  exact propext ⟨And.left, fun h => ⟨h, (hlow a b h).trans hv⟩⟩

/-- A pair from above is left out. -/
theorem below_insert (hc : c < vals a) :
    Below vals (fun u v => R u v ∨ u = a ∧ v = b) c = Below vals R c := by
  funext u v
  apply propext
  constructor
  · rintro ⟨hjoin | ⟨rfl, rfl⟩, hle⟩
    · exact ⟨hjoin, hle⟩
    · exact absurd hc hle.not_gt
  · exact fun h => ⟨.inl h.1, h.2⟩

/-! ## Roots -/

/-- The recursion is as deep as the tree, and leaves every root as it was. -/
theorem get_spec {p : Fin n → Fin n} {fuel : Nat} (h : Forest p) (hfuel : n ≤ fuel) (x : Fin n) :
    ∃ p', get fuel p x = some (root p x, p') ∧ Forest p' ∧ root p' = root p := by
  apply h.fuel_induction (P := fun fuel x =>
    ∃ p', get fuel p x = some (root p x, p') ∧ Forest p' ∧ root p' = root p)
    ?_ ?_ (by rwa [Fintype.card_fin]) x
  · intro fuel x hroot
    rw [get, if_pos hroot.symm]
    exact ⟨p, by rw [root_eq_self hroot], h, rfl⟩
  · rintro fuel x hne ⟨p', hget, hp', hsame⟩
    rw [h.root_parent, ← hsame] at hget
    rw [get, if_neg (Ne.symm hne), hget]
    refine ⟨_, by rw [← hsame]; rfl, hp'.compress x, ?_⟩
    rw [hp'.root_compress, hsame]

/-! ## The invariant -/

/-- What is known when the vertices of values below `v` are through. -/
structure Inv (vals : Fin n → Int) (v : Int) (R : Fin n → Fin n → Prop) (s : State n) : Prop where
  sets : DisjointSets s.p R
  low : ∀ a b, R a b → vals a ≤ v ∧ vals b ≤ v
  size : ∀ r, root s.p r = r → ∀ c, v ≤ c →
    s.size r c = ((DisjointSets.members s.p r).filter fun z => vals z = c).card
  ans : s.ans = (pairs vals R).card

namespace Inv

variable {s : State n}

theorem mono (h : Inv vals v R s) (hv : v ≤ c) : Inv vals c R s where
  sets := h.sets
  low a b hjoin := ⟨(h.low a b hjoin).1.trans hv, (h.low a b hjoin).2.trans hv⟩
  size r hr d hd := h.size r hr d (hv.trans hd)
  ans := h.ans

theorem congr (h : Inv vals v R s) {R' : Fin n → Fin n → Prop} (hR : ∀ a b, R a b ↔ R' a b) :
    Inv vals v R' s := by
  obtain rfl : R = R' := funext fun a => funext fun b => propext (hR a b)
  exact h

theorem of_root_eq (h : Inv vals v R s) {p : Fin n → Fin n} (hp : Forest p)
    (hroot : root p = root s.p) : Inv vals v R { s with p } where
  sets := h.sets.of_root_eq hp hroot
  low := h.low
  size r hr c hc := by
    rw [hroot] at hr
    rw [h.size r hr c hc, DisjointSets.members, DisjointSets.members, hroot]
  ans := h.ans

/-- What is joined to a vertex of value at most `v` is one. -/
theorem le_of_root (h : Inv vals v R s) (huw : root s.p u = root s.p w) (hw : vals w ≤ v) :
    vals u ≤ v := by
  have hiff : vals u ≤ v ↔ vals w ≤ v := by
    have hS : Equivalence fun u w => (vals u ≤ v ↔ vals w ≤ v) :=
      ⟨fun _ => Iff.rfl, Iff.symm, Iff.trans⟩
    apply eqvGen_least (R := R) hS
    · exact fun a b hjoin => iff_of_true (h.low a b hjoin).1 (h.low a b hjoin).2
    · exact (h.sets.same u w).mp huw
  exact hiff.mpr hw

/-- Where nothing is joined below `v`, the pairs are those of the sets. -/
theorem mem_pairs (h : Inv vals v R s) (hu : v ≤ vals u) :
    s(u, w) ∈ pairs vals R ↔ vals u = vals w ∧ root s.p u = root s.p w := by
  rw [NumOfGoodPaths.mem_pairs, below_eq (fun a b hjoin => (h.low a b hjoin).1) hu, h.sets.same]

theorem low_insert (h : Inv vals v R s) (ha : vals a = v) (hb : vals b ≤ v) :
    ∀ x y, R x y ∨ x = a ∧ y = b → vals x ≤ v ∧ vals y ≤ v := by
  rintro x y (hjoin | ⟨rfl, rfl⟩)
  · exact h.low x y hjoin
  · exact ⟨ha.le, hb⟩

/-- The pair joins vertices that are joined. -/
theorem insert (h : Inv vals v R s) (ha : vals a = v) (hb : vals b ≤ v)
    (hab : root s.p a = root s.p b) : Inv vals v (fun x y => R x y ∨ x = a ∧ y = b) s where
  sets := h.sets.insert hab
  low := h.low_insert ha hb
  size := h.size
  ans := by
    rw [h.ans]
    congr 1
    ext e
    induction e using Sym2.ind with
    | h u w =>
        rw [NumOfGoodPaths.mem_pairs, NumOfGoodPaths.mem_pairs]
        obtain hu | hu := lt_or_ge (vals u) v
        · rw [below_insert (ha ▸ hu)]
        · rw [below_eq (fun a b hjoin => (h.low a b hjoin).1) hu,
            below_eq (fun x y hjoin => (h.low_insert ha hb x y hjoin).1) hu, ← h.sets.same,
            ← (h.sets.insert hab).same]

/-- The vertices of value `v` in the set of `r`. -/
def top (vals : Fin n → Int) (v : Int) (s : State n) (r : Fin n) : Finset (Fin n) :=
  (DisjointSets.members s.p r).filter fun z => vals z = v

theorem mem_top {r z : Fin n} : z ∈ top vals v s r ↔ root s.p z = r ∧ vals z = v := by
  rw [top, Finset.mem_filter, DisjointSets.mem_members]

/-- Every two vertices of value `v` in two sets. -/
def across (vals : Fin n → Int) (v : Int) (s : State n) (a b : Fin n) : Finset (Sym2 (Fin n)) :=
  (top vals v s (root s.p a) ×ˢ top vals v s (root s.p b)).image fun e => s(e.1, e.2)

theorem mem_across : s(u, w) ∈ across vals v s a b ↔ vals u = v ∧ vals w = v ∧
    (root s.p u = root s.p a ∧ root s.p w = root s.p b ∨
      root s.p u = root s.p b ∧ root s.p w = root s.p a) := by
  simp only [across, Finset.mem_image, Finset.mem_product, mem_top, Prod.exists, Sym2.eq_iff]
  grind

theorem card_across (hne : root s.p a ≠ root s.p b) : (across vals v s a b).card =
    (top vals v s (root s.p a)).card * (top vals v s (root s.p b)).card := by
  rw [across, Finset.card_image_of_injOn, Finset.card_product]
  rintro ⟨x, y⟩ hxy ⟨x', y'⟩ hxy' heq
  rw [Finset.mem_coe, Finset.mem_product, mem_top, mem_top] at hxy hxy'
  obtain ⟨rfl, rfl⟩ | ⟨rfl, rfl⟩ := Sym2.eq_iff.mp heq
  · rfl
  · exact absurd (hxy.1.1.symm.trans hxy'.2.1) hne

/-- The pair joins two sets, and what it joins are the pairs across. -/
theorem pairs_link (h : Inv vals v R s) (ha : vals a = v) (hb : vals b ≤ v)
    (hne : root s.p a ≠ root s.p b) : pairs vals (fun x y => R x y ∨ x = a ∧ y = b) =
      pairs vals R ∪ across vals v s a b := by
  ext e
  induction e using Sym2.ind with
  | h u w =>
      rw [Finset.mem_union, mem_across, NumOfGoodPaths.mem_pairs, NumOfGoodPaths.mem_pairs]
      obtain hu | hu := lt_or_ge (vals u) v
      · rw [below_insert (ha ▸ hu)]
        exact (or_iff_left fun hacross => hu.ne hacross.1).symm
      · have hle : ∀ z, root s.p u = root s.p z → vals z ≤ v → vals u = v :=
          fun z hz hzv => le_antisymm (h.le_of_root hz hzv) hu
        rw [below_eq (fun a b hjoin => (h.low a b hjoin).1) hu,
          below_eq (fun x y hjoin => (h.low_insert ha hb x y hjoin).1) hu, ← h.sets.same,
          ← (h.sets.link hne).same, h.sets.root_link_eq_iff hne]
        have hua := hle a
        have hub := hle b
        grind

theorem disjoint_across (h : Inv vals v R s) (hne : root s.p a ≠ root s.p b) :
    Disjoint (pairs vals R) (across vals v s a b) := by
  rw [Finset.disjoint_left]
  intro e
  induction e using Sym2.ind with
  | h u w =>
      intro hpair hacross
      rw [mem_across] at hacross
      have hsame := ((h.mem_pairs hacross.1.ge).mp hpair).2
      grind

theorem card_top_link (h : Inv vals v R s) (hb : vals b ≤ v) (hne : root s.p a ≠ root s.p b)
    (hc : v ≤ c) : ((DisjointSets.members (update s.p (root s.p b) (root s.p a))
      (root s.p a)).filter fun z => vals z = c).card =
        (top vals c s (root s.p a)).card +
          if c = v then (top vals v s (root s.p b)).card else 0 := by
  rw [h.sets.members_link hne, Finset.filter_union, Finset.card_union_of_disjoint
    (Finset.disjoint_filter_filter (DisjointSets.disjoint_members hne))]
  congr 1
  split
  case isTrue hcv =>
    rw [hcv]
    rfl
  case isFalse hcv =>
    rw [Finset.card_eq_zero, Finset.filter_eq_empty_iff]
    intro z hz hzc
    have hle := h.le_of_root (DisjointSets.mem_members.mp hz) hb
    exact hcv (le_antisymm (hzc ▸ hle) hc)

/-- The pair joins two sets, of which the second one goes under the first one. -/
theorem link (h : Inv vals v R s) (ha : vals a = v) (hb : vals b ≤ v)
    (hne : root s.p a ≠ root s.p b) (hx : root s.p a = x) (hy : root s.p b = y) :
    Inv vals v (fun u w => R u w ∨ u = a ∧ w = b)
      { p := update s.p y x
        size := update s.size x (update (s.size x) v (s.size x v + s.size y v))
        ans := s.ans + s.size x v * s.size y v } where
  sets := by
    subst hx hy
    exact h.sets.link hne
  low := h.low_insert ha hb
  size r hr c hc := by
    subst hx hy
    dsimp only at hr ⊢
    obtain rfl | hra := eq_or_ne r (root s.p a)
    · have hr' := h.sets.forest.root_root a
      rw [h.card_top_link hb hne hc, update_self]
      obtain rfl | hcv := eq_or_ne c v
      · rw [update_self, if_pos rfl, h.size _ hr' c le_rfl,
          h.size _ (h.sets.forest.root_root b) c le_rfl]
        rfl
      · rw [update_of_ne hcv, if_neg hcv, h.size _ hr' c hc]
        rfl
    · rw [h.sets.root_link hne] at hr
      split at hr
      case isTrue => exact absurd hr.symm hra
      case isFalse hrb =>
        rw [hr] at hrb
        rw [h.sets.members_link_of_ne hne hra hrb, update_of_ne hra, h.size r hr c hc]
  ans := by
    subst hx hy
    dsimp only
    rw [h.pairs_link ha hb hne, Finset.card_union_of_disjoint (h.disjoint_across hne),
      card_across hne, h.ans, h.size _ (h.sets.forest.root_root a) v le_rfl,
      h.size _ (h.sets.forest.root_root b) v le_rfl]
    rfl

end Inv

variable {s : State n} {x₀ : Fin n} {fuel : Nat}

/-- A turn enters the pair of `x₀` and `y`, where `x` has the root of `x₀`. -/
theorem visit_spec (h : Inv vals v R s) (hfuel : n ≤ fuel) (hx₀ : vals x₀ = v)
    (hx : root s.p x = root s.p x₀) (y : Fin n) :
    ∃ x' s', visit fuel vals v (x, s) y = some (x', s') ∧ root s'.p x' = root s'.p x₀ ∧
      Inv vals v (fun a b => R a b ∨ a = x₀ ∧ b = y ∧ vals b ≤ v) s' := by
  unfold visit
  dsimp only
  split
  case isTrue hy =>
    refine ⟨x, s, rfl, hx, h.congr fun a b => (or_iff_left ?_).symm⟩
    rintro ⟨-, rfl, hle⟩
    exact hle.not_gt hy
  case isFalse hy =>
    have hle := not_lt.mp hy
    obtain ⟨p, hget, hp, hroot⟩ := get_spec h.sets.forest hfuel x
    obtain ⟨p', hget', hp', hroot'⟩ := get_spec hp hfuel y
    simp only [hget, Option.bind_eq_bind, Option.bind_some, hget']
    have hsame : root p' = root s.p := hroot'.trans hroot
    have hinv := h.of_root_eq hp' hsame
    have hpair : ∀ a b, R a b ∨ a = x₀ ∧ b = y ↔ R a b ∨ a = x₀ ∧ b = y ∧ vals b ≤ v := by grind
    have hx' : root s.p x = root p' x₀ := by rw [hsame, hx]
    have hy' : root p y = root p' y := by rw [hroot']
    rw [hx', hy']
    split
    case isTrue hne =>
      have hlink := hinv.link hx₀ hle hne rfl rfl
      refine ⟨_, _, rfl, ?_, hlink.congr hpair⟩
      rw [root_eq_self, hinv.sets.root_link hne, if_neg hne]
      exact (update_of_ne hne _ _).trans (hp'.parent_root x₀)
    case isFalse heq =>
      refine ⟨_, _, rfl, hp'.root_root x₀, (hinv.insert hx₀ hle ?_).congr hpair⟩
      exact not_ne_iff.mp heq

theorem row_spec (h : Inv vals v R s) (hfuel : n ≤ fuel) (hx₀ : vals x₀ = v) (row : List (Fin n)) :
    ∃ x s', row.foldlM (visit fuel vals v) (x₀, s) = some (x, s') ∧
      Inv vals v (fun a b => R a b ∨ a = x₀ ∧ b ∈ row ∧ vals b ≤ v) s' := by
  have hrun : ∃ xs, row.foldlM (visit fuel vals v) (x₀, s) = some xs ∧
      root xs.2.p xs.1 = root xs.2.p x₀ ∧
        Inv vals v (fun a b => R a b ∨ a = x₀ ∧ b ∈ row ∧ vals b ≤ v) xs.2 := by
    apply foldlM_rule fun seen (xs : Fin n × State n) => root xs.2.p xs.1 = root xs.2.p x₀ ∧
      Inv vals v (fun a b => R a b ∨ a = x₀ ∧ b ∈ seen ∧ vals b ≤ v) xs.2
    · exact ⟨rfl, h.congr fun a b => by simp⟩
    · rintro seen y rest ⟨x, s⟩ - ⟨hx, hinv⟩
      obtain ⟨x', s', hvisit, hx', hinv'⟩ := visit_spec hinv hfuel hx₀ hx y
      exact ⟨(x', s'), hvisit, hx', hinv'.congr fun a b => by grind⟩
  obtain ⟨⟨x, s'⟩, hrow, -, hinv⟩ := hrun
  exact ⟨x, s', hrow, hinv⟩

/-! ## The whole loop -/

theorem inv_init (vals : Fin n → Int) (v : Int) : Inv vals v (fun _ _ => False) (init vals) where
  sets := .singletons
  low _ _ := False.elim
  size r hr c hc := by
    have hone : DisjointSets.members (init vals).p r = {r} := DisjointSets.members_id r
    rw [hone, Finset.filter_singleton]
    obtain rfl | hne := eq_or_ne c (vals r)
    · simp [init]
    · simp [init, hne, hne.symm]
  ans := by
    have hdiag : pairs vals (fun _ _ => False) = Finset.univ.image fun u => s(u, u) := by
      ext e
      induction e using Sym2.ind with
      | h u w =>
          have hnone : Below vals (fun _ _ => False) (vals u) = fun _ _ => False :=
            funext fun a => funext fun b => propext (and_iff_left_of_imp False.elim)
          have hsame := (DisjointSets.singletons (α := Fin n)).same u w
          rw [root_eq_self rfl, root_eq_self rfl] at hsame
          rw [mem_pairs, hnone, ← hsame, Finset.mem_image]
          constructor
          · rintro ⟨-, rfl⟩
            exact ⟨_, Finset.mem_univ _, rfl⟩
          · rintro ⟨a, -, ha⟩
            obtain ⟨rfl, rfl⟩ | ⟨rfl, rfl⟩ := Sym2.eq_iff.mp ha <;> exact ⟨rfl, rfl⟩
    rw [hdiag, Finset.card_image_of_injective, Finset.card_univ, Fintype.card_fin]
    · rfl
    · exact Sym2.diag_injective

theorem mem_order (x : Fin n) : (vals x, x) ∈ order vals := by
  rw [order, List.mem_mergeSort]
  exact List.mem_map_of_mem (List.mem_finRange x)

theorem fst_of_mem_order {e : Int × Fin n} (he : e ∈ order vals) : vals e.2 = e.1 := by
  rw [order, List.mem_mergeSort, List.mem_map] at he
  obtain ⟨x, -, rfl⟩ := he
  rfl

theorem sorted_order (vals : Fin n → Int) : (order vals).Pairwise fun a b => a.1 ≤ b.1 :=
  (pairwise_mergeSort_key toLex _).imp fun hab =>
    (Prod.Lex.toLex_le_toLex.mp hab).elim le_of_lt fun h => h.1.le

/-- The pairs of a vertex that is through and of a neighbour of no greater value. -/
def Entered (vals : Fin n → Int) (edges : List (Fin n × Fin n)) (seen : List (Int × Fin n))
    (a b : Fin n) : Prop :=
  (vals a, a) ∈ seen ∧ b ∈ readEdges edges a ∧ vals b ≤ vals a

theorem loop_spec (vals : Fin n → Int) (edges : List (Fin n × Fin n)) (hfuel : n ≤ fuel) :
    ∃ s, (order vals).foldlM (turn fuel vals (readEdges edges)) (init vals) = some s ∧
      ∀ v, (∀ e ∈ order vals, e.1 ≤ v) → Inv vals v (Entered vals edges (order vals)) s := by
  apply foldlM_rule fun seen s =>
    ∀ v, (∀ e ∈ seen, e.1 ≤ v) → Inv vals v (Entered vals edges seen) s
  · exact fun v _ => (inv_init vals v).congr fun a b => by simp [Entered]
  · rintro seen ⟨v, x⟩ rest s horder hinv
    have hx : vals x = v := fst_of_mem_order (e := (v, x)) (by simp [horder])
    have hbefore : ∀ e ∈ seen, e.1 ≤ v := by
      have hsorted := sorted_order vals
      rw [horder] at hsorted
      exact fun e he => (List.pairwise_append.mp hsorted).2.2 e he (v, x) List.mem_cons_self
    obtain ⟨x', s', hrow, hinv'⟩ := row_spec (hinv v hbefore) hfuel hx (readEdges edges x)
    refine ⟨s', by rw [turn, hrow]; rfl, fun c hc => ?_⟩
    have hvc : v ≤ c := hc (v, x) (by simp)
    refine (hinv'.mono hvc).congr fun a b => ?_
    unfold Entered
    grind

/-- What is joined below a value is joined by a path below it. -/
theorem eqvGen_entered_iff (hu : vals u ≤ v) :
    EqvGen (Below vals (Entered vals edges (order vals)) v) u w ↔ Joined vals edges v u w := by
  constructor
  · intro h
    have hsome : u = w ∨ Joined vals edges v u w := by
      have hS : Equivalence fun u w => u = w ∨ Joined vals edges v u w := by
        refine ⟨fun _ => .inl rfl, ?_, ?_⟩
        · exact fun h => h.imp Eq.symm Joined.symm
        · rintro u w x (rfl | h) (rfl | h')
          · exact .inl rfl
          · exact .inr h'
          · exact .inr h
          · exact .inr (h.trans h')
      refine eqvGen_least (S := fun u w => u = w ∨ Joined vals edges v u w) hS ?_ h
      rintro a b ⟨⟨-, hrow, hba⟩, ha⟩
      by_cases hab : a = b
      · exact .inl hab
      · have hadj : (graph edges).Adj a b := ⟨hab, mem_readEdges.mp hrow⟩
        exact .inr ⟨.cons hadj .nil, by simp [ha, hba.trans ha]⟩
    exact hsome.elim (fun h => h ▸ .refl hu) id
  · rintro ⟨path, hpath⟩
    induction path with
    | nil => exact .refl _
    | cons hadj path ih =>
        rename_i a b c
        rw [SimpleGraph.Walk.support_cons, List.forall_mem_cons] at hpath
        have hb : vals b ≤ v := hpath.2 b path.start_mem_support
        refine .trans _ _ _ ?_ (ih hb hpath.2)
        obtain hab | hba := le_total (vals a) (vals b)
        · exact (EqvGen.rel _ _
            ⟨⟨mem_order b, mem_readEdges.mpr hadj.2.symm, hab⟩, hb⟩).symm
        · exact .rel _ _ ⟨⟨mem_order a, mem_readEdges.mpr hadj.2, hba⟩, hu⟩

open Classical in
theorem pairs_entered (vals : Fin n → Int) (edges : List (Fin n × Fin n)) :
    pairs vals (Entered vals edges (order vals)) = Finset.univ.filter (GoodPair vals edges) := by
  ext e
  rw [pairs, Finset.mem_filter, Finset.mem_filter]
  simp only [GoodPair, eqvGen_entered_iff (le_refl _)]

/-- In a tree, a pair of vertices is joined by the one path between them. -/
theorem ncard_goodPaths (htree : (graph edges).IsTree) :
    (goodPaths vals edges).ncard = {e | GoodPair vals edges e}.ncard := by
  have himage : {e | GoodPair vals edges e} =
      (fun P : Σ u w, (graph edges).Path u w => s(P.1, P.2.1)) '' goodPaths vals edges := by
    ext e
    constructor
    · have hpath : ∀ u w, u ≤ w → vals u = vals w → Joined vals edges (vals u) u w →
          s(u, w) ∈ (fun P : Σ u w, (graph edges).Path u w => s(P.1, P.2.1)) ''
            goodPaths vals edges := by
        rintro u w hle hvals ⟨path, hpath⟩
        exact ⟨⟨u, w, path.toPath⟩, ⟨hle, hvals, fun x hx =>
          hpath x (path.support_toPath_subset_support hx)⟩, rfl⟩
      rintro ⟨u, w, rfl, hvals, hjoined⟩
      obtain hle | hle := le_total u w
      · exact hpath u w hle hvals hjoined
      · rw [Sym2.eq_swap]
        exact hpath w u hle hvals.symm (hvals ▸ hjoined.symm)
    · rintro ⟨⟨u, w, path⟩, ⟨-, hvals, hpath⟩, rfl⟩
      exact ⟨u, w, rfl, hvals, path.1, hpath⟩
  rw [himage, Set.InjOn.ncard_image]
  rintro ⟨u, w, p⟩ ⟨hp, -⟩ ⟨u', w', q⟩ ⟨hq, -⟩ heq
  have hends : u = u' ∧ w = w' := by
    obtain h | ⟨rfl, rfl⟩ := Sym2.eq_iff.mp heq
    · exact h
    · have huw : u = w := le_antisymm hp hq
      exact ⟨huw, huw.symm⟩
  obtain ⟨rfl, rfl⟩ := hends
  have hpq : p = q := Subtype.ext ((htree.existsUnique_path u w).unique p.2 q.2)
  rw [hpq]

open Classical in
theorem numOfGoodPaths_eq (vals : Fin n → Int) (edges : List (Fin n × Fin n)) (fuel : Nat)
    (hfuel : n ≤ fuel) :
    numOfGoodPaths fuel vals edges = some (Finset.univ.filter (GoodPair vals edges)).card ∧
      ((graph edges).IsTree →
        numOfGoodPaths fuel vals edges = some (goodPaths vals edges).ncard) := by
  have hcount : numOfGoodPaths fuel vals edges =
      some (Finset.univ.filter (GoodPair vals edges)).card := by
    obtain ⟨s, hrun, hinv⟩ := loop_spec vals edges hfuel
    obtain ⟨v, hv⟩ := (Set.finite_range vals).bddAbove
    have hs := hinv v fun e he => fst_of_mem_order he ▸ hv (Set.mem_range_self e.2)
    rw [numOfGoodPaths, hrun, ← pairs_entered, ← hs.ans]
    rfl
  refine ⟨hcount, fun htree => ?_⟩
  rw [hcount, ncard_goodPaths htree, ← Set.ncard_coe_finset]
  simp

instance : DecidableRel (graph edges).Adj :=
  fun a b => inferInstanceAs (Decidable (a ≠ b ∧ ((a, b) ∈ edges ∨ (b, a) ∈ edges)))

theorem isTree_path : (graph ([(0, 1), (1, 2)] : List (Fin 3 × Fin 3))).IsTree := by
  rw [SimpleGraph.isTree_iff_connected_and_card]
  constructor
  · rw [SimpleGraph.connected_iff_exists_forall_reachable]
    refine ⟨1, fun u => ?_⟩
    obtain rfl | hu := eq_or_ne u 1
    · exact .refl _
    · have hadj : (graph ([(0, 1), (1, 2)] : List (Fin 3 × Fin 3))).Adj 1 u := by
        revert u
        decide
      exact hadj.reachable
  · rw [Nat.card_eq_fintype_card, Nat.card_eq_fintype_card]
    decide

theorem numOfGoodPaths_eq_path :
    (graph ([(0, 1), (1, 2)] : List (Fin 3 × Fin 3))).IsTree ∧
      numOfGoodPaths 3 (fun x : Fin 3 => if x = 1 then 1 else 2) [(0, 1), (1, 2)] =
        some (goodPaths (fun x : Fin 3 => if x = 1 then 1 else 2) [(0, 1), (1, 2)]).ncard :=
  ⟨isTree_path, (numOfGoodPaths_eq _ _ 3 le_rfl).2 isTree_path⟩

end NumOfGoodPaths

end MoreCpp
