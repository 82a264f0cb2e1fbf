import MoreCpp.Library.Loop
import MoreCpp.Library.GraphSearch
import MoreCpp.Library.Multigraph
import MoreCpp.Library.SignedInt
import Mathlib.Data.Prod.Lex
import Mathlib.Order.Fin.Basic

/-!
`find_shortese_edges` of `algorithms/graphs/graphs.cpp`, on `n` vertices and `m` edges.
`none` is a sum that overflows, or that `fuel` rounds do not lead to the end of a loop.
-/

namespace MoreCpp

open Library Library.Multigraph Relation

namespace FindShorteseEdges

variable {n m : Nat}

def inf : Int := 2 ^ 30

/-- `g`, after the loop over the edges. An entry has the other end, the weight and the index. -/
def readEdges (edges : Fin m → WeightedEdge (Fin n)) : Fin n → List (Fin n × Int × Fin m) :=
  rows edges fun u i => (u, (edges i).w, i)

structure State (n : Nat) where
  dist : Fin n → Int
  pq : List (Int × Fin n)

/-- The order of the pairs. -/
def key (e : Int × Fin n) : Int ×ₗ Fin n := toLex e

/-- A turn of the loop over the row of `v`. -/
def relax (v : Fin n) (s : State n) : Fin n × Int × Fin m → Option (State n)
  | (u, w, _) => do
    let d ← signed 32 (s.dist v + w)
    if d < s.dist u then
      some { dist := Function.update s.dist u d, pq := (d, u) :: s.pq }
    else some s

def round (g : Fin n → List (Fin n × Int × Fin m)) (s : State n) :
    Option (State n ⊕ (Fin n → Int)) :=
  match popMin key s.pq with
  | none => some (.inr s.dist)
  | some ((d, v), pq) =>
    if d ≠ s.dist v then some (.inl { s with pq })
    else ((g v).foldlM (relax v) { s with pq }).map .inl

structure Marking (n m : Nat) where
  q : List (Fin n)
  ans : Fin m → Bool
  vis : Fin n → Bool

/-- A turn of the loop over the row of `v`, back from `v`. -/
def mark (dist : Fin n → Int) (v : Fin n) (s : Marking n m) :
    Fin n × Int × Fin m → Option (Marking n m)
  | (u, w, i) => do
    let d ← signed 32 (dist u + w)
    if dist v = d then
      let ans := Function.update s.ans i true
      if s.vis u then some { s with ans }
      else some { q := s.q ++ [u], ans, vis := Function.update s.vis u true }
    else some s

def markRound (g : Fin n → List (Fin n × Int × Fin m)) (dist : Fin n → Int) (s : Marking n m) :
    Option (Marking n m ⊕ (Fin m → Bool)) :=
  match s.q with
  | [] => some (.inr s.ans)
  | v :: q => ((g v).foldlM (mark dist v) { s with q }).map .inl

variable [NeZero n]

def lastVertex : Fin n := Fin.ofNat n (n - 1)

def findShorteseEdges (fuel : Nat) (edges : Fin m → WeightedEdge (Fin n)) :
    Option (Fin m → Bool) := do
  let g := readEdges edges
  let dist ← loop (round g) fuel { dist := Function.update (fun _ => inf) 0 0, pq := [(0, 0)] }
  if dist lastVertex = inf then some fun _ => false
  else
    loop (markRound g dist) fuel
      { q := [lastVertex], ans := fun _ => false
        vis := Function.update (fun _ => false) lastVertex true }

variable {edges : Fin m → WeightedEdge (Fin n)} {dist : Fin n → Int} {u v x : Fin n} {i : Fin m}
  {rest : List (Fin n × Int × Fin m)} {s : State n} {c d : Int}

omit [NeZero n] in
theorem mem_readEdges {e : Fin n × Int × Fin m} :
    e ∈ readEdges edges v ↔ ∃ i u, Joins edges v i u ∧ e = (u, (edges i).w, i) := mem_rows

omit [NeZero n] in
theorem weight_lt (hsum : ∑ i, (edges i).w < inf) (i : Fin m) : (edges i).w < inf :=
  (Finset.single_le_sum (f := fun i => (edges i).w) (fun i _ => (edges i).pos.le)
    (Finset.mem_univ i)).trans_lt hsum

/-! ## The row in hand -/

section Pending

variable {P Q : Prop}

omit [NeZero n] in
theorem pending_nil {e : Fin n × Int × Fin m} (h : P ∨ (x = v ∧ e ∈ [])) : P :=
  h.elim id fun hrest => absurd hrest.2 List.not_mem_nil

omit [NeZero n] in
/-- An entry that is still to come is the first one or comes behind it. -/
theorem pending_tail {j : Fin m} {y : Fin n}
    (h : P ∨ (x = v ∧ (y, (edges j).w, j) ∈ (u, (edges i).w, i) :: rest)) (hold : P → Q)
    (hfirst : x = v → y = u → j = i → Q) : Q ∨ (x = v ∧ (y, (edges j).w, j) ∈ rest) := by
  rcases h with hdone | ⟨hx, hmem⟩
  · exact .inl (hold hdone)
  · rcases List.mem_cons.mp hmem with heq | hmem
    · obtain ⟨hy, -, hj⟩ : y = u ∧ _ ∧ j = i := by simpa using heq
      exact .inl (hfirst hx hy hj)
    · exact .inr ⟨hx, hmem⟩

end Pending

/-! ## Distances -/

/-- What holds between two rounds, or, but for the entries `rest` of the row of `v`, between
two turns of a round. -/
structure Inv (edges : Fin m → WeightedEdge (Fin n)) (v : Fin n)
    (rest : List (Fin n × Int × Fin m)) (s : State n) : Prop where
  label : ∀ x, s.dist x < inf → (routes edges 0).Label x (s.dist x)
  le_inf : ∀ x, s.dist x ≤ inf
  start : s.dist 0 ≤ 0
  relaxed : ∀ x, (s.dist x, x) ∈ s.pq ∨ ∀ i u, Joins edges x i u →
    s.dist u ≤ s.dist x + (edges i).w ∨ (x = v ∧ (u, (edges i).w, i) ∈ rest)

theorem Inv.nonneg (h : Inv edges v rest s) (x : Fin n) : 0 ≤ s.dist x := by
  by_cases hx : s.dist x < inf
  · exact label_nonneg (h.label x hx)
  · unfold inf at hx
    omega

theorem Inv.fits (h : Inv edges v rest s) (hsum : ∑ i, (edges i).w < inf) (x : Fin n) (i : Fin m) :
    signed 32 (s.dist x + (edges i).w) = some (s.dist x + (edges i).w) := by
  have hnonneg := h.nonneg x
  have hle := h.le_inf x
  have hpos := (edges i).pos
  have hw := weight_lt hsum i
  unfold inf at hle hw
  exact signed_eq (by omega) (by omega)

theorem Inv.init (edges : Fin m → WeightedEdge (Fin n)) :
    Inv edges 0 [] { dist := Function.update (fun _ => inf) 0 0, pq := [(0, 0)] } := by
  have hle : ∀ x, Function.update (fun _ : Fin n => inf) 0 0 x ≤ inf := by
    intro x
    obtain rfl | hne := eq_or_ne x 0
    · rw [Function.update_self]
      decide
    · rw [Function.update_of_ne hne]
  refine ⟨fun x hx => ?_, hle, ?_, fun x => ?_⟩
  · dsimp only at hx ⊢
    obtain rfl | hne := eq_or_ne x 0
    · rw [Function.update_self]
      exact .start ⟨rfl, rfl⟩
    · rw [Function.update_of_ne hne] at hx
      exact absurd hx (Int.lt_irrefl _)
  · dsimp only
    rw [Function.update_self]
  · dsimp only
    obtain rfl | hne := eq_or_ne x 0
    · rw [Function.update_self]
      exact .inl List.mem_cons_self
    · refine .inr fun i u _ => .inl ((hle u).trans ?_)
      rw [Function.update_of_ne hne]
      exact Int.le_add_of_nonneg_right (edges i).pos.le

/-- How far the search still has to go. -/
def size (s : State n) : Nat := ∑ x, (s.dist x).toNat + s.pq.length

omit [NeZero n] in
theorem size_shorten (hd : 0 ≤ d) (hless : d < s.dist u) :
    size ⟨Function.update s.dist u d, (d, u) :: s.pq⟩ ≤ size s := by
  have hsum : ∑ x, (Function.update s.dist u d x).toNat < ∑ x, (s.dist x).toNat := by
    refine Finset.sum_lt_sum (fun x _ => ?_) ⟨u, Finset.mem_univ u, ?_⟩
    · obtain rfl | hne := eq_or_ne x u
      · rw [Function.update_self]
        omega
      · rw [Function.update_of_ne hne]
    · rw [Function.update_self]
      omega
  simp only [size, List.length_cons]
  omega

/-- A shorter way to `u` over `v`. -/
theorem Inv.shorten (h : Inv edges v ((u, (edges i).w, i) :: rest) s) (hjoins : Joins edges v i u)
    (hless : s.dist v + (edges i).w < s.dist u) :
    Inv edges v rest ⟨Function.update s.dist u (s.dist v + (edges i).w),
      (s.dist v + (edges i).w, u) :: s.pq⟩ := by
  have hpos := (edges i).pos
  have hu := h.le_inf u
  have hle : ∀ x, Function.update s.dist u (s.dist v + (edges i).w) x ≤ s.dist x :=
    update_le_self_iff.mpr hless.le
  refine ⟨fun x hx => ?_, fun x => (hle x).trans (h.le_inf x), (hle 0).trans h.start, fun x => ?_⟩
  · dsimp only at hx ⊢
    obtain rfl | hne := eq_or_ne x u
    · rw [Function.update_self]
      exact (h.label v (by omega)).step hjoins
    · rw [Function.update_of_ne hne] at hx ⊢
      exact h.label x hx
  · dsimp only
    obtain rfl | hne := eq_or_ne x u
    · rw [Function.update_self]
      exact .inl List.mem_cons_self
    · rw [Function.update_of_ne hne]
      refine (h.relaxed x).imp (List.mem_cons_of_mem _) fun hrow j y hy => ?_
      apply pending_tail (hrow j y hy) (hle y).trans
      rintro rfl rfl rfl
      exact (Function.update_self ..).le

theorem Inv.relax (h : Inv edges v ((u, (edges i).w, i) :: rest) s) (hjoins : Joins edges v i u)
    (hsum : ∑ i, (edges i).w < inf) :
    ∃ s', relax v s (u, (edges i).w, i) = some s' ∧ Inv edges v rest s' ∧ size s' ≤ size s := by
  have hnonneg := h.nonneg v
  have hpos := (edges i).pos
  simp only [FindShorteseEdges.relax, h.fits hsum, Option.bind_eq_bind, Option.bind_some]
  split
  case isTrue hless =>
    exact ⟨_, rfl, h.shorten hjoins hless, size_shorten (by omega) hless⟩
  case isFalse hless =>
    refine ⟨s, rfl, ⟨h.label, h.le_inf, h.start, fun x => ?_⟩, Nat.le_refl _⟩
    refine (h.relaxed x).imp_right fun hrow j y hy => ?_
    apply pending_tail (hrow j y hy) id
    rintro rfl rfl rfl
    exact Int.not_lt.mp hless

theorem Inv.relaxAll (h : Inv edges v (readEdges edges v) s) (hsum : ∑ i, (edges i).w < inf) :
    ∃ s', (readEdges edges v).foldlM (FindShorteseEdges.relax v) s = some s' ∧
      Inv edges v [] s' ∧ size s' ≤ size s := by
  have hloop : ∃ s', (readEdges edges v).foldlM (FindShorteseEdges.relax v) s = some s' ∧
      Inv edges v [] s' ∧ size s' ≤ size s ∧ [] ⊆ readEdges edges v := by
    apply foldlM_rest fun rest s' =>
      Inv edges v rest s' ∧ size s' ≤ size s ∧ rest ⊆ readEdges edges v
    · exact ⟨h, Nat.le_refl _, List.Subset.refl _⟩
    · rintro e rest mid ⟨hinv, hsize, hrow⟩
      obtain ⟨i, u, hjoins, rfl⟩ := mem_readEdges.mp (hrow List.mem_cons_self)
      obtain ⟨s', hrun, hinv', hsize'⟩ := hinv.relax hjoins hsum
      exact ⟨s', hrun, hinv', hsize'.trans hsize, List.subset_of_cons_subset hrow⟩
  obtain ⟨s', hrun, hinv, hsize, -⟩ := hloop
  exact ⟨s', hrun, hinv, hsize⟩

theorem Inv.done (h : Inv edges v [] s) : Inv edges 0 [] s :=
  ⟨h.label, h.le_inf, h.start, fun x => (h.relaxed x).imp_right fun hrow i u hjoins =>
    .inl (pending_nil (hrow i u hjoins))⟩

/-- An entry of the queue is taken away. All of the row of `v` is still to come, unless the
entry is out of date. -/
theorem Inv.pop {pq pq' : List (Int × Fin n)} (h : Inv edges 0 [] ⟨dist, pq⟩)
    (hperm : pq.Perm ((d, v) :: pq'))
    (hrest : d = dist v → ∀ i u, Joins edges v i u → (u, (edges i).w, i) ∈ rest) :
    Inv edges v rest ⟨dist, pq'⟩ := by
  refine ⟨h.label, h.le_inf, h.start, fun x => ?_⟩
  rcases h.relaxed x with hmem | hrow
  · rcases List.mem_cons.mp (hperm.mem_iff.mp hmem) with heq | hmem
    · obtain ⟨hd, rfl⟩ := Prod.mk.inj heq
      exact .inr fun i u hjoins => .inr ⟨rfl, hrest hd.symm i u hjoins⟩
    · exact .inl hmem
  · exact .inr fun i u hjoins => .inl (pending_nil (hrow i u hjoins))

/-- The distances from the first vertex, with `inf` where there is no way. -/
def IsDist (edges : Fin m → WeightedEdge (Fin n)) (dist : Fin n → Int) : Prop :=
  ∀ v c, (routes edges 0).Least v c ↔ dist v = c ∧ c < inf

/-- When the queue is empty, no route is lighter than the distance. -/
theorem Inv.isDist (h : Inv edges v [] ⟨dist, []⟩) (hsum : ∑ i, (edges i).w < inf) :
    IsDist edges dist := by
  have hcovered : (routes edges 0).Covered (fun x c => dist x = c) fun _ _ => False := by
    constructor
    case start =>
      rintro _ _ ⟨rfl, rfl⟩
      exact ⟨dist 0, h.start, .inl rfl⟩
    case step =>
      rintro x _ i u rfl hjoins
      refine ⟨dist u, ?_, .inl rfl⟩
      rcases h.relaxed x with hmem | hrow
      · cases hmem
      · exact pending_nil (hrow i u hjoins)
  have hle : ∀ x c, (routes edges 0).Label x c → dist x ≤ c := by
    intro x c hlabel
    rcases hcovered.reaches hlabel with ⟨_, hle, rfl⟩ | ⟨_, _, hfalse, -⟩
    · exact hle
    · exact hfalse.elim
  intro x c
  constructor
  · intro hleast
    have hfits := (least_le_sum hleast).trans_lt hsum
    have hdist := hle x c hleast.label
    exact ⟨hdist.antisymm (hleast.le (h.label x (hdist.trans_lt hfits))), hfits⟩
  · rintro ⟨rfl, hfits⟩
    exact ⟨h.label x hfits, fun c' => hle x c'⟩

/-- A round ends with the distances, or goes on. -/
theorem round_step (hsum : ∑ i, (edges i).w < inf) (hinv : Inv edges 0 [] s) :
    (∃ dist, round (readEdges edges) s = some (.inr dist) ∧ IsDist edges dist ∧
      ∀ v, 0 ≤ dist v ∧ dist v ≤ inf) ∨
      ∃ s', round (readEdges edges) s = some (.inl s') ∧ Inv edges 0 [] s' ∧ size s' < size s := by
  obtain ⟨dist, pq⟩ := s
  obtain rfl | hne := eq_or_ne pq []
  · exact .inl ⟨dist, rfl, hinv.isDist hsum, fun v => ⟨hinv.nonneg v, hinv.le_inf v⟩⟩
  · right
    obtain ⟨⟨d, v⟩, pq', hpop, -, hperm⟩ := popMin_of_ne_nil key hne
    have hlength : pq.length = pq'.length + 1 := hperm.length_eq
    rw [round, hpop]
    dsimp only
    split
    case isTrue hstale =>
      refine ⟨_, rfl, (hinv.pop hperm fun hd => absurd hd hstale).done, ?_⟩
      simp only [size, hlength]
      omega
    case isFalse =>
      have hpopped : Inv edges v (readEdges edges v) ⟨dist, pq'⟩ := hinv.pop hperm
        fun _ i u hjoins => mem_readEdges.mpr ⟨i, u, hjoins, rfl⟩
      obtain ⟨s', hrun, hinv', hsize⟩ := hpopped.relaxAll hsum
      refine ⟨s', by rw [hrun]; rfl, hinv'.done, ?_⟩
      simp only [size, hlength] at hsize ⊢
      omega

/-! ## Marking -/

theorem tight_iff (hdist : IsDist edges dist) : Tight edges 0 v i u ↔
    Joins edges v i u ∧ dist u < inf ∧ dist u = dist v + (edges i).w := by
  constructor
  · rintro ⟨hjoins, c, hv, hu⟩
    obtain ⟨rfl, -⟩ := (hdist v c).mp hv
    obtain ⟨hdu, hfits⟩ := (hdist u _).mp hu
    exact ⟨hjoins, hdu ▸ hfits, hdu⟩
  · rintro ⟨hjoins, hfits, hdu⟩
    have hpos := (edges i).pos
    exact ⟨hjoins, dist v, (hdist v _).mpr ⟨rfl, by omega⟩, (hdist u _).mpr ⟨hdu, hdu ▸ hfits⟩⟩

/-- A tight edge leads from `v` to `u`. -/
def Link (edges : Fin m → WeightedEdge (Fin n)) (v u : Fin n) : Prop := ∃ i, Tight edges 0 v i u

/-- What holds between two rounds, or, but for the entries `rest` of the row of `v`, between
two turns of a round. -/
structure MarkInv (edges : Fin m → WeightedEdge (Fin n)) (dist : Fin n → Int) (v : Fin n)
    (rest : List (Fin n × Int × Fin m)) (s : Marking n m) : Prop where
  last : s.vis lastVertex = true
  queued : ∀ x ∈ s.q, s.vis x = true
  leads : ∀ x, s.vis x = true → dist x < inf ∧ ReflTransGen (Link edges) x lastVertex
  tight : ∀ i, s.ans i = true →
    ∃ x y, Tight edges 0 x i y ∧ ReflTransGen (Link edges) y lastVertex
  marked : ∀ x, s.vis x = true → x ∈ s.q ∨ ∀ i y, Tight edges 0 y i x →
    (s.vis y = true ∧ s.ans i = true) ∨ (x = v ∧ (y, (edges i).w, i) ∈ rest)

variable {t : Marking n m}

theorem MarkInv.init (hlast : dist lastVertex < inf) : MarkInv edges dist 0 []
    { q := [lastVertex], ans := fun _ => false
      vis := Function.update (fun _ => false) lastVertex true } := by
  have hvis : ∀ x, Function.update (fun _ : Fin n => false) lastVertex true x = true →
      x = lastVertex := by
    intro x hx
    rcases mark_eq_true.mp hx with heq | hfalse
    · exact heq
    · cases hfalse
  refine ⟨?_, fun x hx => ?_, fun x hx => ?_, fun i hi => ?_, fun x hx => ?_⟩
  · dsimp only
    rw [Function.update_self]
  · dsimp only
    rw [List.mem_singleton.mp hx, Function.update_self]
  · obtain rfl := hvis x hx
    exact ⟨hlast, .refl⟩
  · exact absurd hi Bool.false_ne_true
  · obtain rfl := hvis x hx
    exact .inl List.mem_cons_self

/-- An edge is marked, and where it comes from. -/
theorem MarkInv.mark (h : MarkInv edges dist v ((u, (edges i).w, i) :: rest) t)
    (hv : t.vis v = true) (htight : Tight edges 0 u i v) (hu : dist u < inf) {q : List (Fin n)}
    (hq : ∀ x, x ∈ q ↔ x ∈ t.q ∨ (x = u ∧ t.vis u = false)) :
    MarkInv edges dist v rest
      { q, ans := Function.update t.ans i true, vis := Function.update t.vis u true } := by
  have hway := (h.leads v hv).2
  constructor
  case last => exact mark_eq_true.mpr (.inr h.last)
  case queued =>
    intro x hx
    rcases (hq x).mp hx with hx | ⟨rfl, -⟩
    · exact mark_eq_true.mpr (.inr (h.queued x hx))
    · exact mark_eq_true.mpr (.inl rfl)
  case leads =>
    intro x hx
    rcases mark_eq_true.mp hx with rfl | hx
    · exact ⟨hu, hway.head ⟨i, htight⟩⟩
    · exact h.leads x hx
  case tight =>
    intro j hj
    rcases mark_eq_true.mp hj with rfl | hj
    · exact ⟨u, v, htight, hway⟩
    · exact h.tight j hj
  case marked =>
    intro x hx
    rw [hq]
    cases hvis : t.vis x with
    | false =>
        rcases mark_eq_true.mp hx with rfl | hx
        · exact .inl (.inr ⟨rfl, hvis⟩)
        · rw [hvis] at hx
          cases hx
    | true =>
        rcases h.marked x hvis with hmem | hrow
        · exact .inl (.inl hmem)
        · refine .inr fun j y hy => ?_
          apply pending_tail (hrow j y hy)
          · rintro ⟨hyvis, hj⟩
            exact ⟨mark_eq_true.mpr (.inr hyvis), mark_eq_true.mpr (.inr hj)⟩
          · rintro rfl rfl rfl
            exact ⟨Function.update_self .., Function.update_self ..⟩

/-- How far the marking still has to go. -/
def markSize (t : Marking n m) : Nat := unmarked t.vis + t.q.length

theorem MarkInv.step (h : MarkInv edges dist v ((u, (edges i).w, i) :: rest) t)
    (hv : t.vis v = true) (hdist : IsDist edges dist) (hbounds : ∀ x, 0 ≤ dist x ∧ dist x ≤ inf)
    (hsum : ∑ i, (edges i).w < inf) (hjoins : Joins edges v i u) :
    ∃ t', FindShorteseEdges.mark dist v t (u, (edges i).w, i) = some t' ∧
      MarkInv edges dist v rest t' ∧ t'.vis v = true ∧ markSize t' ≤ markSize t := by
  have hpos := (edges i).pos
  have hw := weight_lt hsum i
  obtain ⟨hnonneg, hle⟩ := hbounds u
  have hfits : signed 32 (dist u + (edges i).w) = some (dist u + (edges i).w) := by
    unfold inf at hw hle
    exact signed_eq (by omega) (by omega)
  simp only [FindShorteseEdges.mark, hfits, Option.bind_eq_bind, Option.bind_some]
  split
  case isTrue heq =>
    have hlt := (h.leads v hv).1
    have htight : Tight edges 0 u i v := (tight_iff hdist).mpr ⟨hjoins.symm, hlt, heq⟩
    have hu : dist u < inf := by omega
    cases hvis : t.vis u with
    | true =>
        have hsame : Function.update t.vis u true = t.vis := by
          rw [← hvis, Function.update_eq_self]
        have hinv := h.mark hv htight hu (q := t.q) fun x => by
          rw [hvis]
          simp
        rw [hsame] at hinv
        exact ⟨_, rfl, hinv, hv, Nat.le_refl _⟩
    | false =>
        have hinv := h.mark hv htight hu (q := t.q ++ [u]) fun x => by
          rw [hvis]
          simp
        have hless := unmarked_mark hvis
        refine ⟨_, rfl, hinv, mark_eq_true.mpr (.inr hv), ?_⟩
        simp only [markSize, List.length_append, List.length_singleton]
        omega
  case isFalse hne =>
    refine ⟨t, rfl, ⟨h.last, h.queued, h.leads, h.tight, fun x hx => ?_⟩, hv, Nat.le_refl _⟩
    refine (h.marked x hx).imp_right fun hrow j y hy => ?_
    apply pending_tail (hrow j y hy) id
    rintro rfl rfl rfl
    exact absurd ((tight_iff hdist).mp hy).2.2 hne

theorem MarkInv.stepAll (h : MarkInv edges dist v (readEdges edges v) t) (hv : t.vis v = true)
    (hdist : IsDist edges dist) (hbounds : ∀ x, 0 ≤ dist x ∧ dist x ≤ inf)
    (hsum : ∑ i, (edges i).w < inf) :
    ∃ t', (readEdges edges v).foldlM (FindShorteseEdges.mark dist v) t = some t' ∧
      MarkInv edges dist v [] t' ∧ markSize t' ≤ markSize t := by
  have hloop : ∃ t', (readEdges edges v).foldlM (FindShorteseEdges.mark dist v) t = some t' ∧
      MarkInv edges dist v [] t' ∧ markSize t' ≤ markSize t ∧ t'.vis v = true ∧
      [] ⊆ readEdges edges v := by
    apply foldlM_rest fun rest t' => MarkInv edges dist v rest t' ∧ markSize t' ≤ markSize t ∧
      t'.vis v = true ∧ rest ⊆ readEdges edges v
    · exact ⟨h, Nat.le_refl _, hv, List.Subset.refl _⟩
    · rintro e rest mid ⟨hinv, hsize, hv, hrow⟩
      obtain ⟨i, u, hjoins, rfl⟩ := mem_readEdges.mp (hrow List.mem_cons_self)
      obtain ⟨t', hrun, hinv', hv', hsize'⟩ := hinv.step hv hdist hbounds hsum hjoins
      exact ⟨t', hrun, hinv', hsize'.trans hsize, hv', List.subset_of_cons_subset hrow⟩
  obtain ⟨t', hrun, hinv, hsize, -⟩ := hloop
  exact ⟨t', hrun, hinv, hsize⟩

/-- When the queue is empty, the marked edges are those on a shortest route to the last
vertex. -/
theorem MarkInv.ans_iff {ans : Fin m → Bool} {vis : Fin n → Bool}
    (h : MarkInv edges dist v [] ⟨[], ans, vis⟩) :
    ans i = true ↔ ∃ es, IsShortest edges 0 lastVertex es ∧ i ∈ es := by
  have hnext : ∀ {x y j}, Tight edges 0 x j y → vis y = true → vis x = true ∧ ans j = true := by
    intro x y j htight hy
    rcases h.marked y hy with hmem | hrow
    · cases hmem
    · exact pending_nil (hrow j x htight)
  have hvis : ∀ {x}, ReflTransGen (Link edges) x lastVertex → vis x = true := by
    intro x hway
    induction hway using ReflTransGen.head_induction_on with
    | refl => exact h.last
    | head hlink _ ih =>
        obtain ⟨j, htight⟩ := hlink
        exact (hnext htight ih).1
  simp only [isShortest_iff_route]
  rw [exists_route_mem]
  constructor
  · intro hi
    obtain ⟨x, y, htight, hway⟩ := h.tight i hi
    obtain ⟨es, hes⟩ := exists_isShortest htight.2.choose_spec.1
    exact ⟨es, x, y, isShortest_iff_route.mp hes, htight, hway⟩
  · rintro ⟨_, x, y, -, htight, hway⟩
    exact (hnext htight (hvis hway)).2

/-- A vertex is taken from the queue, with all of its row still to come. -/
theorem MarkInv.pop {q : List (Fin n)} {ans : Fin m → Bool} {vis : Fin n → Bool}
    (h : MarkInv edges dist 0 [] ⟨v :: q, ans, vis⟩) :
    MarkInv edges dist v (readEdges edges v) ⟨q, ans, vis⟩ := by
  refine ⟨h.last, fun x hx => h.queued x (List.mem_cons_of_mem _ hx), h.leads, h.tight,
    fun x hx => ?_⟩
  rcases h.marked x hx with hmem | hrow
  · rcases List.mem_cons.mp hmem with rfl | hmem
    · exact .inr fun i y htight => .inr ⟨rfl, mem_readEdges.mpr ⟨i, y, htight.1.symm, rfl⟩⟩
    · exact .inl hmem
  · exact .inr fun i y htight => .inl (pending_nil (hrow i y htight))

theorem MarkInv.done (h : MarkInv edges dist v [] t) : MarkInv edges dist 0 [] t :=
  ⟨h.last, h.queued, h.leads, h.tight, fun x hx => (h.marked x hx).imp_right fun hrow i y htight =>
    .inl (pending_nil (hrow i y htight))⟩

theorem markRound_step (hdist : IsDist edges dist) (hbounds : ∀ x, 0 ≤ dist x ∧ dist x ≤ inf)
    (hsum : ∑ i, (edges i).w < inf) (hinv : MarkInv edges dist 0 [] t) :
    (∃ ans, markRound (readEdges edges) dist t = some (.inr ans) ∧
      ∀ i, ans i = true ↔ ∃ es, IsShortest edges 0 lastVertex es ∧ i ∈ es) ∨
      ∃ t', markRound (readEdges edges) dist t = some (.inl t') ∧ MarkInv edges dist 0 [] t' ∧
        markSize t' < markSize t := by
  obtain ⟨q, ans, vis⟩ := t
  cases q with
  | nil => exact .inl ⟨ans, rfl, fun i => hinv.ans_iff⟩
  | cons v q =>
      have hv := hinv.queued v List.mem_cons_self
      obtain ⟨t', hrun, hinv', hsize⟩ := hinv.pop.stepAll hv hdist hbounds hsum
      refine .inr ⟨t', ?_, hinv'.done, ?_⟩
      · simp only [markRound, hrun]
        rfl
      · simp only [markSize, List.length_cons] at hsize ⊢
        omega

theorem size_init_le :
    size { dist := Function.update (fun _ => inf) (0 : Fin n) 0, pq := [(0, 0)] } ≤
      n * 2 ^ 30 + 1 := by
  have hsum : ∑ x, (Function.update (fun _ => inf) (0 : Fin n) 0 x).toNat ≤ n * 2 ^ 30 := by
    have hle := Finset.sum_le_card_nsmul Finset.univ
      (fun x => (Function.update (fun _ => inf) (0 : Fin n) 0 x).toNat) (2 ^ 30) fun x _ => by
        obtain rfl | hne := eq_or_ne x 0
        · rw [Function.update_self]
          decide
        · rw [Function.update_of_ne hne]
          decide
    rwa [Finset.card_univ, Fintype.card_fin, smul_eq_mul] at hle
  exact Nat.succ_le_succ hsum

theorem markSize_init_le : markSize
    { q := [lastVertex], ans := fun _ : Fin m => false
      vis := Function.update (fun _ : Fin n => false) lastVertex true } ≤ n * 2 ^ 30 + 1 := by
  have hle := unmarked_le (Function.update (fun _ : Fin n => false) lastVertex true)
  rw [Fintype.card_fin] at hle
  simp only [markSize, List.length_singleton]
  omega

/-- Exactly the edges on shortest routes from the first to the last vertex are marked, and
no sum overflows. -/
theorem findShorteseEdges_iff (edges : Fin m → WeightedEdge (Fin n)) (fuel : Nat)
    (hsum : ∑ i, (edges i).w < 2 ^ 30) (hfuel : n * 2 ^ 30 + 1 < fuel) :
    ∃ ans, findShorteseEdges fuel edges = some ans ∧
      (∀ i, ans i = true ↔ ∃ es, IsShortest edges 0 lastVertex es ∧ i ∈ es) ∧
      ((¬ ∃ es, Route (Joins edges) 0 es lastVertex) → ∀ i, ans i = false) := by
  have hspec : ∃ ans, findShorteseEdges fuel edges = some ans ∧
      ∀ i, ans i = true ↔ ∃ es, IsShortest edges 0 lastVertex es ∧ i ∈ es := by
    have hloop : ∃ dist, loop (round (readEdges edges)) fuel
        { dist := Function.update (fun _ => inf) 0 0, pq := [(0, 0)] } = some dist ∧
        IsDist edges dist ∧ ∀ v, 0 ≤ dist v ∧ dist v ≤ inf :=
      loop_total (Inv edges 0 []) size (fun _ => round_step hsum) (Inv.init edges)
        (size_init_le.trans_lt hfuel)
    obtain ⟨dist, hrun, hdist, hbounds⟩ := hloop
    simp only [findShorteseEdges, hrun, Option.bind_eq_bind, Option.bind_some]
    split
    case isTrue hlast =>
      refine ⟨_, rfl, fun i => iff_of_false Bool.false_ne_true ?_⟩
      rintro ⟨es, hshortest, -⟩
      obtain ⟨heq, hlt⟩ := (hdist _ _).mp (isShortest_iff.mp hshortest).2
      omega
    case isFalse hlast =>
      have hlt : dist lastVertex < inf := lt_of_le_of_ne (hbounds lastVertex).2 hlast
      exact loop_total (MarkInv edges dist 0 []) markSize
        (fun _ => markRound_step hdist hbounds hsum) (MarkInv.init hlt)
        (markSize_init_le.trans_lt hfuel)
  obtain ⟨ans, hrun, hans⟩ := hspec
  refine ⟨ans, hrun, hans, fun hnone i => ?_⟩
  rw [← Bool.not_eq_true, hans]
  rintro ⟨es, hshortest, -⟩
  exact hnone ⟨es, hshortest.route⟩

/-- Two edges in parallel, and a longer way round. -/
theorem findShorteseEdges_iff_parallel :
    ∃ ans, findShorteseEdges (2 ^ 32)
        ![(⟨0, 1, 2, by decide⟩ : WeightedEdge (Fin 3)), ⟨1, 0, 2, by decide⟩,
          ⟨1, 2, 3, by decide⟩, ⟨0, 2, 6, by decide⟩] = some ans ∧
      (∀ i, ans i = true ↔ ∃ es, IsShortest
        ![(⟨0, 1, 2, by decide⟩ : WeightedEdge (Fin 3)), ⟨1, 0, 2, by decide⟩,
          ⟨1, 2, 3, by decide⟩, ⟨0, 2, 6, by decide⟩] 0 lastVertex es ∧ i ∈ es) ∧
      ((¬ ∃ es, Route (Joins
        ![(⟨0, 1, 2, by decide⟩ : WeightedEdge (Fin 3)), ⟨1, 0, 2, by decide⟩,
          ⟨1, 2, 3, by decide⟩, ⟨0, 2, 6, by decide⟩]) 0 es lastVertex) → ∀ i, ans i = false) :=
  findShorteseEdges_iff ![(⟨0, 1, 2, by decide⟩ : WeightedEdge (Fin 3)), ⟨1, 0, 2, by decide⟩,
    ⟨1, 2, 3, by decide⟩, ⟨0, 2, 6, by decide⟩] (2 ^ 32) (by decide) (by decide)

end FindShorteseEdges

end MoreCpp
