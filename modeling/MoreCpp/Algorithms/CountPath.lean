import MoreCpp.Library.Loop
import MoreCpp.Library.GraphSearch
import MoreCpp.Library.Multigraph
import MoreCpp.Library.SignedInt

/-!
`count_path` of `algorithms/graphs/graphs.cpp`, on `n` vertices and `m` roads. `none` is a
sum that overflows, or the index -1.
-/

namespace MoreCpp

open Library Library.Multigraph

namespace CountPath

variable {n m : Nat}

def mod : Int := 10 ^ 9 + 7

def inf : Int := 10 ^ 18

/-- `g`, after the loop over the roads. An entry has the other end and the length. -/
def readRoads (roads : Fin m → WeightedEdge (Fin n)) : Fin n → List (Fin n × Int) :=
  rows roads fun u i => (u, (roads i).w)

structure State (n : Nat) where
  d : Fin n → Int
  u : Fin n → Bool
  f : Fin n → Int

/-- A turn of the loop over `j`, where `none` is `-1`. -/
def closer (s : State n) (v : Option (Fin n)) (j : Fin n) : Option (Fin n) :=
  if s.u j = false ∧ (v.all fun v => s.d j < s.d v) then some j else v

/-- A turn of the loop over the row of `v`. -/
def relax (v : Fin n) (s : State n) : Fin n × Int → Option (State n)
  | (t, len) => do
    let c ← signed 64 (s.d v + len)
    if c < s.d t then
      some { s with d := Function.update s.d t c, f := Function.update s.f t (s.f v) }
    else if s.d t = c then do
      let sum ← signed 64 (s.f t + s.f v)
      some { s with f := Function.update s.f t (sum.tmod mod) }
    else some s

def round (g : Fin n → List (Fin n × Int)) (s : State n) : Option (State n) := do
  let v ← (List.finRange n).foldl (closer s) none
  if s.d v = inf then some s
  else (g v).foldlM (relax v) { s with u := Function.update s.u v true }

variable [NeZero n]

def lastVertex : Fin n := Fin.ofNat n (n - 1)

def init : State n :=
  { d := Function.update (fun _ => inf) 0 0, u := fun _ => false
    f := Function.update (fun _ => 0) 0 1 }

def countPath (roads : Fin m → WeightedEdge (Fin n)) : Option Int := do
  let g := readRoads roads
  let s ← forRange 0 n (fun _ s => round g s) init
  signed 32 (s.f lastVertex)

variable {roads : Fin m → WeightedEdge (Fin n)} {s : State n} {v t x : Fin n} {i : Fin m}
  {done : Fin n → List (Fin n × Int)} {d d' : Fin n → Int} {w c : Int}

/-! ## Rows -/

omit [NeZero n] in
theorem mem_readRoads :
    (t, w) ∈ readRoads roads v ↔ ∃ i, Joins roads v i t ∧ w = (roads i).w := by
  simp [readRoads, mem_rows, Prod.ext_iff, and_left_comm]

omit [NeZero n] in
open Classical in
theorem count_readRoads (hne : v ≠ t) : (readRoads roads v).count (t, w) =
    (Finset.univ.filter fun i => Joins roads v i t ∧ (roads i).w = w).card := by
  rw [readRoads, rows_eq, List.count_flatMap, Finset.card_filter, ← List.sum_ofFn, List.ofFn_eq_map]
  congr 1
  refine List.map_congr_left fun i _ => ?_
  have hend : ∀ y z : Fin n, (if y = v then [(z, (roads i).w)] else []).count (t, w) =
      if y = v ∧ z = t ∧ (roads i).w = w then 1 else 0 := by
    intro y z
    split
    case isTrue h => simp [h, List.count_singleton]
    case isFalse h => simp [h]
  have hone : ¬ ((roads i).a = v ∧ (roads i).a = t) := fun h => hne (h.1.symm.trans h.2)
  rw [Function.comp_apply, entries, List.count_append, hend, hend]
  unfold Joins
  grind

/-! ## The choice of a vertex -/

omit [NeZero n] in
/-- The chosen vertex is a nearest one among those that are not settled. -/
theorem closer_spec (s : State n) (js : List (Fin n)) :
    (js.foldl (closer s) none = none ∧ ∀ j ∈ js, s.u j = true) ∨
      ∃ v, js.foldl (closer s) none = some v ∧ s.u v = false ∧
        ∀ j ∈ js, s.u j = false → s.d v ≤ s.d j := by
  induction js using List.reverseRecOn with
  | nil => exact .inl ⟨rfl, fun j hj => absurd hj List.not_mem_nil⟩
  | append_singleton js j ih =>
      rw [List.foldl_append, List.foldl_cons, List.foldl_nil, closer]
      rcases ih with ⟨hnone, hall⟩ | ⟨v, hsome, hv, hleast⟩
      · rw [hnone]
        cases hj : s.u j with
        | true => exact .inl ⟨if_neg (by simp), by grind⟩
        | false => exact .inr ⟨j, if_pos (by simp), hj, by grind⟩
      · rw [hsome]
        split
        case isTrue h =>
          obtain ⟨hj, hless⟩ := h
          have hless : s.d j < s.d v := by simpa using hless
          exact .inr ⟨j, rfl, hj, by grind⟩
        case isFalse h =>
          have hkeep : s.u j = false → s.d v ≤ s.d j := by simpa using h
          exact .inr ⟨v, rfl, hv, by grind⟩

/-! ## Counts -/

/-- The number of shortest ways to `t` over what is done of the rows. -/
noncomputable def via (roads : Fin m → WeightedEdge (Fin n)) (d : Fin n → Int)
    (done : Fin n → List (Fin n × Int)) (t : Fin n) : Nat :=
  (if t = 0 then 1 else 0) + ∑ v, (done v).count (t, d t - d v) * numShortest roads 0 v

theorem via_enter (roads : Fin m → WeightedEdge (Fin n)) (d : Fin n → Int)
    (done : Fin n → List (Fin n × Int)) (v x : Fin n) (w : Int) (t : Fin n) :
    via roads d (enter done v (x, w)) t = via roads d done t +
      if (x, w) = (t, d t - d v) then numShortest roads 0 v else 0 := by
  have hterm : ∀ y, (enter done v (x, w) y).count (t, d t - d y) * numShortest roads 0 y =
      (done y).count (t, d t - d y) * numShortest roads 0 y +
        if y = v then (if (x, w) = (t, d t - d v) then numShortest roads 0 v else 0) else 0 := by
    intro y
    rw [enter_apply, List.count_append, add_mul]
    congr 1
    obtain rfl | hne := eq_or_ne y v
    · rw [if_pos rfl, if_pos rfl, List.count_singleton]
      simp
    · rw [if_neg hne.symm, if_neg hne, List.count_nil, zero_mul]
  rw [via, Finset.sum_congr rfl fun y _ => hterm y, Finset.sum_add_distrib,
    Finset.sum_ite_eq' Finset.univ v, if_pos (Finset.mem_univ v), ← add_assoc, ← via]

theorem via_congr (ht : d' t = d t) (hdone : ∀ x e, e ∈ done x → d' x = d x) :
    via roads d' done t = via roads d done t := by
  unfold via
  congr 1
  refine Finset.sum_congr rfl fun x _ => ?_
  obtain hnil | hne := eq_or_ne (done x) []
  · rw [hnil, List.count_nil, List.count_nil]
  · obtain ⟨e, he⟩ := List.exists_mem_of_ne_nil _ hne
    rw [ht, hdone x e he]

/-- What holds when the entries `done` of the rows are done with. -/
structure Inv (roads : Fin m → WeightedEdge (Fin n)) (done : Fin n → List (Fin n × Int))
    (s : State n) : Prop where
  label : ∀ t, s.d t < inf → (routes roads 0).Label t (s.d t)
  le_inf : ∀ t, s.d t ≤ inf
  start : s.d 0 ≤ 0
  settled : ∀ v, s.u v = true → (routes roads 0).Least v (s.d v) ∧ s.d v < inf
  opened : ∀ v e, e ∈ done v → s.u v = true
  relaxed : ∀ v t w, (t, w) ∈ done v → s.d t ≤ s.d v + w
  sum : ∀ t, s.f t = via roads s.d done t % mod

theorem Inv.nonneg (h : Inv roads done s) (t : Fin n) : 0 ≤ s.d t := by
  by_cases ht : s.d t < inf
  · exact label_nonneg (h.label t ht)
  · unfold inf at ht
    omega

theorem Inv.f_bounds (h : Inv roads done s) (t : Fin n) : 0 ≤ s.f t ∧ s.f t < mod := by
  rw [h.sum]
  exact ⟨Int.emod_nonneg _ (by decide), Int.emod_lt_of_pos _ (by decide)⟩

theorem Inv.init (roads : Fin m → WeightedEdge (Fin n)) :
    Inv roads (fun _ => []) CountPath.init := by
  unfold CountPath.init
  constructor
  case label =>
    intro t ht
    dsimp only at ht ⊢
    obtain rfl | hne := eq_or_ne t 0
    · rw [Function.update_self]
      exact .start ⟨rfl, rfl⟩
    · rw [Function.update_of_ne hne] at ht
      exact absurd ht (Int.lt_irrefl _)
  case le_inf =>
    intro t
    dsimp only
    obtain rfl | hne := eq_or_ne t 0
    · rw [Function.update_self]
      decide
    · rw [Function.update_of_ne hne]
  case start =>
    dsimp only
    rw [Function.update_self]
  case settled => exact fun v hv => absurd hv Bool.false_ne_true
  case opened => exact fun v e he => absurd he List.not_mem_nil
  case relaxed => exact fun v t w hmem => absurd hmem List.not_mem_nil
  case sum =>
    intro t
    simp only [via, List.count_nil, zero_mul, Finset.sum_const_zero, add_zero]
    obtain rfl | hne := eq_or_ne t 0
    · rw [Function.update_self, if_pos rfl]
      decide
    · rw [Function.update_of_ne hne, if_neg hne]
      decide

/-- A nearer way to `t`, over the road `i` from `v`. -/
theorem Inv.shorten (h : Inv roads done s) (hv : s.u v = true)
    (hf : s.f v = numShortest roads 0 v % mod) (hjoins : Joins roads v i t)
    (hless : s.d v + (roads i).w < s.d t) : Inv roads (enter done v (t, (roads i).w))
      { s with d := Function.update s.d t (s.d v + (roads i).w),
               f := Function.update s.f t (s.f v) } := by
  have hpos := (roads i).pos
  have hnonneg := h.nonneg v
  have hlabel := (h.settled v hv).1.label.step hjoins
  have hopen : s.u t = false := by
    by_contra ht
    have hle : s.d t ≤ s.d v + (roads i).w := (h.settled t (by simpa using ht)).1.le hlabel
    omega
  have hle : ∀ x, Function.update s.d t (s.d v + (roads i).w) x ≤ s.d x :=
    update_le_self_iff.mpr hless.le
  have hsame : ∀ x, s.u x = true → Function.update s.d t (s.d v + (roads i).w) x = s.d x := by
    intro x hx
    refine Function.update_of_ne ?_ _ _
    rintro rfl
    rw [hopen] at hx
    cases hx
  constructor
  case label =>
    intro x hx
    dsimp only at hx ⊢
    obtain rfl | hne := eq_or_ne x t
    · rw [Function.update_self]
      exact hlabel
    · rw [Function.update_of_ne hne] at hx ⊢
      exact h.label x hx
  case le_inf => exact fun x => (hle x).trans (h.le_inf x)
  case start => exact (hle 0).trans h.start
  case settled =>
    intro x hx
    dsimp only
    rw [hsame x hx]
    exact h.settled x hx
  case opened =>
    intro x e he
    rcases mem_enter.mp he with he | ⟨rfl, -⟩
    · exact h.opened x e he
    · exact hv
  case relaxed =>
    intro x y w hmem
    dsimp only
    rcases mem_enter.mp hmem with hmem | ⟨rfl, heq⟩
    · rw [hsame x (h.opened x _ hmem)]
      exact (hle y).trans (h.relaxed x y w hmem)
    · obtain ⟨rfl, rfl⟩ := Prod.mk.inj heq
      rw [Function.update_self, hsame x hv]
  case sum =>
    intro x
    dsimp only
    rw [via_enter]
    obtain rfl | hne := eq_or_ne x t
    · have hfirst : x ≠ 0 := by
        rintro rfl
        have hstart := h.start
        omega
      have hnone : via roads (Function.update s.d x (s.d v + (roads i).w)) done x = 0 := by
        rw [via, if_neg hfirst, zero_add]
        refine Finset.sum_eq_zero fun y _ => ?_
        rw [List.count_eq_zero.mpr, zero_mul]
        intro hmem
        have hbound := h.relaxed y x _ hmem
        rw [hsame y (h.opened y _ hmem), Function.update_self] at hbound
        omega
      rw [hnone, zero_add, Function.update_self, Function.update_self, hsame v hv,
        if_pos (by rw [add_sub_cancel_left]), hf]
    · rw [Function.update_of_ne hne, if_neg (fun heq => hne (Prod.mk.inj heq).1.symm), add_zero,
        via_congr (Function.update_of_ne hne ..) fun y e he => hsame y (h.opened y e he), h.sum]

/-- As near a way to `t`, over the road `i` from `v`, or one that is not so near. -/
theorem Inv.join (h : Inv roads done s) (hv : s.u v = true) (hjoins : Joins roads v i t)
    (hge : s.d t ≤ s.d v + (roads i).w) {f : Fin n → Int}
    (hsum : ∀ x, f x = via roads s.d (enter done v (t, (roads i).w)) x % mod) :
    Inv roads (enter done v (t, (roads i).w)) { s with f } := by
  refine ⟨h.label, h.le_inf, h.start, h.settled, fun x e he => ?_, fun x y w hmem => ?_, hsum⟩
  · rcases mem_enter.mp he with he | ⟨rfl, -⟩
    · exact h.opened x e he
    · exact hv
  · rcases mem_enter.mp hmem with hmem | ⟨rfl, heq⟩
    · exact h.relaxed x y w hmem
    · obtain ⟨rfl, rfl⟩ := Prod.mk.inj heq
      exact hge

theorem Inv.relax (h : Inv roads done s) (hv : s.u v = true)
    (hf : s.f v = numShortest roads 0 v % mod) (hjoins : Joins roads v i t)
    (hlen : (roads i).w < 2 ^ 31) :
    ∃ s', relax v s (t, (roads i).w) = some s' ∧ Inv roads (enter done v (t, (roads i).w)) s' ∧
      s'.u = s.u ∧ s'.f v = s.f v := by
  have hpos := (roads i).pos
  have hnonneg := h.nonneg v
  have hle := h.le_inf v
  have hfits : signed 64 (s.d v + (roads i).w) = some (s.d v + (roads i).w) := by
    unfold inf at hle
    exact signed_eq (by omega) (by omega)
  obtain ⟨htlow, hthigh⟩ := h.f_bounds t
  obtain ⟨hvlow, hvhigh⟩ := h.f_bounds v
  have hfits' : signed 64 (s.f t + s.f v) = some (s.f t + s.f v) := by
    unfold mod at hthigh hvhigh
    exact signed_eq (by omega) (by omega)
  simp only [CountPath.relax, hfits, hfits', Option.bind_eq_bind, Option.bind_some]
  split
  case isTrue hless =>
    refine ⟨_, rfl, h.shorten hv hf hjoins hless, rfl, ?_⟩
    refine Function.update_of_ne ?_ _ _
    rintro rfl
    omega
  case isFalse hge =>
    split
    case isTrue heq =>
      refine ⟨_, rfl, h.join hv hjoins heq.le fun x => ?_, rfl, ?_⟩
      · rw [via_enter]
        obtain rfl | hne := eq_or_ne x t
        · rw [Function.update_self, if_pos (by rw [heq, add_sub_cancel_left]),
            Int.tmod_eq_emod_of_nonneg (by omega), h.sum, hf, ← Int.add_emod, Nat.cast_add]
        · rw [Function.update_of_ne hne, if_neg (fun heq => hne (Prod.mk.inj heq).1.symm), add_zero,
            h.sum]
      · refine Function.update_of_ne ?_ _ _
        rintro rfl
        omega
    case isFalse hne =>
      refine ⟨s, rfl, h.join hv hjoins (Int.not_lt.mp hge) fun x => ?_, rfl, rfl⟩
      rw [via_enter, if_neg, add_zero, h.sum]
      intro heq
      obtain ⟨rfl, hw⟩ := Prod.mk.inj heq
      omega

theorem Inv.relaxAll (h : Inv roads done s) (hv : s.u v = true)
    (hf : s.f v = numShortest roads 0 v % mod) (hlen : ∀ i, (roads i).w < 2 ^ 31) :
    ∃ s', (readRoads roads v).foldlM (CountPath.relax v) s = some s' ∧
      Inv roads (Function.update done v (done v ++ readRoads roads v)) s' ∧ s'.u = s.u := by
  have hloop : ∃ s', (readRoads roads v).foldlM (CountPath.relax v) s = some s' ∧
      Inv roads (Function.update done v (done v ++ readRoads roads v)) s' ∧
      s'.u = s.u ∧ s'.f v = s.f v := by
    apply foldlM_rule fun seen s' => Inv roads (Function.update done v (done v ++ seen)) s' ∧
      s'.u = s.u ∧ s'.f v = s.f v
    · rw [List.append_nil, Function.update_eq_self]
      exact ⟨h, rfl, rfl⟩
    · rintro seen ⟨t, w⟩ rest mid hrow ⟨hinv, hu, hf'⟩
      have hmem : (t, w) ∈ readRoads roads v := by
        rw [hrow]
        exact List.mem_append_right _ List.mem_cons_self
      obtain ⟨i, hjoins, rfl⟩ := mem_readRoads.mp hmem
      obtain ⟨s', hrun, hinv', hu', hf''⟩ :=
        hinv.relax (by rwa [hu]) (by rwa [hf']) hjoins (hlen i)
      rw [enter, Function.update_idem, Function.update_self, List.append_assoc] at hinv'
      exact ⟨s', hrun, hinv', hu'.trans hu, hf''.trans hf'⟩
  obtain ⟨s', hrun, hinv, hu, -⟩ := hloop
  exact ⟨s', hrun, hinv, hu⟩

/-! ## Rounds -/

/-- The rows of the settled vertices. -/
def settledRows (roads : Fin m → WeightedEdge (Fin n)) (u : Fin n → Bool) (v : Fin n) :
    List (Fin n × Int) :=
  if u v then readRoads roads v else []

theorem Inv.covered (h : Inv roads (settledRows roads s.u) s) : (routes roads 0).Covered
    (fun v c => s.u v = true ∧ s.d v = c) fun v c => s.u v = false ∧ s.d v = c := by
  have hreached : ∀ v c, s.d v ≤ c → ∃ c' ≤ c, (s.u v = true ∧ s.d v = c') ∨
      (s.u v = false ∧ s.d v = c') := by
    intro v c hle
    refine ⟨s.d v, hle, ?_⟩
    cases hv : s.u v with
    | true => exact .inl ⟨rfl, rfl⟩
    | false => exact .inr ⟨rfl, rfl⟩
  constructor
  case start =>
    rintro _ _ ⟨rfl, rfl⟩
    exact hreached 0 0 h.start
  case step =>
    rintro v _ i u ⟨hv, rfl⟩ hjoins
    refine hreached u _ (h.relaxed v u _ ?_)
    rw [settledRows, if_pos hv]
    exact mem_readRoads.mpr ⟨i, hjoins, rfl⟩

/-- Where all before `t` is settled, all shortest routes to `t` are counted. -/
theorem Inv.via_eq (h : Inv roads (settledRows roads s.u) s)
    (hleast : (routes roads 0).Least t (s.d t))
    (hbefore : ∀ v c, (routes roads 0).Least v c → c < s.d t → s.u v = true) :
    via roads s.d (settledRows roads s.u) t = numShortest roads 0 t := by
  classical
  rw [via, numShortest_eq]
  congr 1
  · congr
  · refine Finset.sum_congr rfl fun v _ => ?_
    congr 1
    cases hv : s.u v with
    | true =>
        have hleast' := (h.settled v hv).1
        rw [settledRows, if_pos hv, Finset.filter_congr fun i _ => tight_iff hleast' hleast]
        obtain rfl | hne := eq_or_ne v t
        · rw [List.count_eq_zero.mpr, Finset.card_eq_zero.mpr]
          · refine Finset.filter_eq_empty_iff.mpr fun i _ hloop => ?_
            have hpos := (roads i).pos
            omega
          · intro hmem
            obtain ⟨i, -, hw⟩ := mem_readRoads.mp hmem
            have hpos := (roads i).pos
            omega
        · rw [count_readRoads hne]
          congr 1
          refine Finset.filter_congr fun i _ => and_congr_right fun _ => ?_
          constructor <;> intro <;> omega
    | false =>
        have hopen : settledRows roads s.u v = [] := by
          rw [settledRows, hv]
          rfl
        rw [hopen, List.count_nil, eq_comm, Finset.card_eq_zero, Finset.filter_eq_empty_iff]
        rintro i - ⟨-, c, hleast', hnext⟩
        have hpos := (roads i).pos
        obtain heq := hnext.eq hleast
        have hsettled := hbefore v c hleast' (by omega)
        rw [hv] at hsettled
        cases hsettled

/-- The nearest vertex that is not settled has its distance. -/
theorem Inv.nearest (h : Inv roads (settledRows roads s.u) s) (hv : s.u v = false)
    (hfits : s.d v < inf) (hleast : ∀ j, s.u j = false → s.d v ≤ s.d j) :
    (routes roads 0).Least v (s.d v) ∧ s.f v = numShortest roads 0 v % mod := by
  have hdist : (routes roads 0).Least v (s.d v) := by
    refine h.covered.least (h.label v hfits) ?_ fun c hsettled => ?_
    · rintro x _ ⟨hx, rfl⟩
      exact hleast x hx
    · rw [hv] at hsettled
      cases hsettled.1
  refine ⟨hdist, ?_⟩
  rw [h.sum, h.via_eq hdist]
  intro x c hx hless
  rcases h.covered.reaches hx.label with ⟨_, -, hsettled, -⟩ | ⟨y, _, ⟨hy, rfl⟩, hle⟩
  · exact hsettled
  · have hnear := hleast y hy
    omega

/-- A vertex is settled, before its row is gone through. -/
theorem Inv.settle (h : Inv roads done s) (hdist : (routes roads 0).Least v (s.d v))
    (hfits : s.d v < inf) : Inv roads done { s with u := Function.update s.u v true } := by
  refine ⟨h.label, h.le_inf, h.start, fun x hx => ?_, fun x e he => ?_, h.relaxed, h.sum⟩
  · rcases mark_eq_true.mp hx with rfl | hx
    · exact ⟨hdist, hfits⟩
    · exact h.settled x hx
  · exact mark_eq_true.mpr (.inr (h.opened x e he))

/-- No vertex that is not settled is in reach. -/
def Stuck (s : State n) : Prop := ∀ v, s.u v = false → s.d v = inf

omit [NeZero n] in
theorem settledRows_mark {u : Fin n → Bool} (hv : u v = false) :
    Function.update (settledRows roads u) v (settledRows roads u v ++ readRoads roads v) =
      settledRows roads (Function.update u v true) := by
  have hnone : settledRows roads u v = [] := by
    rw [settledRows, hv]
    rfl
  rw [hnone, List.nil_append]
  funext x
  obtain rfl | hne := eq_or_ne x v
  · rw [Function.update_self, settledRows, Function.update_self, if_pos rfl]
  · rw [Function.update_of_ne hne, settledRows, settledRows, Function.update_of_ne hne]

/-- A round settles one more vertex, unless nothing is left to do. -/
theorem round_step (h : Inv roads (settledRows roads s.u) s) (hlen : ∀ i, (roads i).w < 2 ^ 31)
    (hopen : 0 < unmarked s.u) : ∃ s', round (readRoads roads) s = some s' ∧
      Inv roads (settledRows roads s'.u) s' ∧
      ((s' = s ∧ Stuck s) ∨ (¬ Stuck s ∧ unmarked s'.u + 1 = unmarked s.u)) := by
  rcases closer_spec s (List.finRange n) with ⟨-, hall⟩ | ⟨v, hchoice, hv, hleast⟩
  · obtain ⟨x, hx⟩ := unmarked_pos.mp hopen
    have hmarked := hall x (List.mem_finRange x)
    rw [hx] at hmarked
    cases hmarked
  · have hleast : ∀ j, s.u j = false → s.d v ≤ s.d j := fun j => hleast j (List.mem_finRange j)
    simp only [round, hchoice, Option.bind_eq_bind, Option.bind_some]
    split
    case isTrue hinf =>
      refine ⟨s, rfl, h, .inl ⟨rfl, fun x hx => (h.le_inf x).antisymm ?_⟩⟩
      exact hinf.ge.trans (hleast x hx)
    case isFalse hfar =>
      have hfits : s.d v < inf := lt_of_le_of_ne (h.le_inf v) hfar
      obtain ⟨hdist, hf⟩ := h.nearest hv hfits hleast
      obtain ⟨s', hrun, hinv, hu⟩ :=
        (h.settle hdist hfits).relaxAll (Function.update_self ..) hf hlen
      rw [settledRows_mark hv] at hinv
      refine ⟨s', hrun, hu ▸ hinv, .inr ⟨fun hstuck => hfar (hstuck v hv), ?_⟩⟩
      rw [hu]
      exact unmarked_mark hv

/-- After all rounds nothing is left to do. -/
theorem rounds_spec (hlen : ∀ i, (roads i).w < 2 ^ 31) :
    ∃ s, forRange 0 n (fun _ s => round (readRoads roads) s) init = some s ∧
      Inv roads (settledRows roads s.u) s ∧ Stuck s := by
  have hall : unmarked (init : State n).u = n := unmarked_none.trans (Fintype.card_fin n)
  have hrounds : ∃ s, forRange 0 n (fun _ s => round (readRoads roads) s) init = some s ∧
      Inv roads (settledRows roads s.u) s ∧ n ≤ unmarked s.u + max 0 n ∧
      (unmarked s.u + max 0 n = n ∨ Stuck s) := by
    apply forRange_rule fun i s => Inv roads (settledRows roads s.u) s ∧
      n ≤ unmarked s.u + i ∧ (unmarked s.u + i = n ∨ Stuck s)
    · exact ⟨Inv.init roads, hall.ge, .inl hall⟩
    · rintro i s - hi ⟨hinv, hmany, hprogress⟩
      obtain ⟨s', hbody, hinv', hnext⟩ := round_step hinv hlen (by omega)
      refine ⟨s', hbody, hinv', ?_⟩
      rcases hnext with ⟨rfl, hstuck⟩ | ⟨hstuck, hless⟩
      · exact ⟨by omega, .inr hstuck⟩
      · have hcount := hprogress.resolve_right hstuck
        exact ⟨by omega, .inl (by omega)⟩
  obtain ⟨s, hrun, hinv, -, hdone⟩ := hrounds
  refine ⟨s, hrun, hinv, hdone.elim (fun hcount v hv => ?_) id⟩
  have hopen := unmarked_pos.mpr ⟨v, hv⟩
  omega

/-! ## The result -/

theorem Inv.near (h : Inv roads (settledRows roads s.u) s) (hstuck : Stuck s)
    (hleast : (routes roads 0).Least t c) (hc : c ≤ inf) :
    s.f t = numShortest roads 0 t % mod := by
  have hsettled : ∀ x c', (routes roads 0).Label x c' → c' < inf → s.u x = true ∧ s.d x ≤ c' := by
    intro x c' hlabel hless
    rcases h.covered.reaches hlabel with ⟨_, hle, hx, rfl⟩ | ⟨y, _, ⟨hy, rfl⟩, hle⟩
    · exact ⟨hx, hle⟩
    · rw [hstuck y hy] at hle
      omega
  have hle : s.d t ≤ c := by
    by_cases hless : c < inf
    · exact (hsettled t c hleast.label hless).2
    · exact (h.le_inf t).trans (Int.not_lt.mp hless)
  have hge : c ≤ s.d t := by
    by_cases hless : s.d t < inf
    · exact hleast.le (h.label t hless)
    · exact hc.trans (Int.not_lt.mp hless)
  obtain rfl := hle.antisymm hge
  rw [h.sum, h.via_eq hleast]
  exact fun x c' hx hless => (hsettled x c' hx.label (hless.trans_le hc)).1

theorem Inv.far (h : Inv roads (settledRows roads s.u) s)
    (hfar : ∀ c, (routes roads 0).Label t c → inf < c) : s.f t = 0 := by
  have hfirst : t ≠ 0 := by
    rintro rfl
    exact absurd (hfar 0 least_start.label) (by decide)
  have hnone : via roads s.d (settledRows roads s.u) t = 0 := by
    rw [via, if_neg hfirst, zero_add]
    refine Finset.sum_eq_zero fun v _ => ?_
    rw [List.count_eq_zero.mpr, zero_mul]
    intro hmem
    have hv := h.opened v _ hmem
    rw [settledRows, if_pos hv] at hmem
    obtain ⟨i, hjoins, hw⟩ := mem_readRoads.mp hmem
    have hless : inf < s.d v + (roads i).w := hfar _ (.step (h.settled v hv).1.label hjoins)
    have hle := h.le_inf t
    omega
  rw [h.sum, hnone]
  rfl

/-- The result counts the shortest routes to the last vertex, if they are no longer than `inf`. -/
theorem countPath_run (hlen : ∀ i, (roads i).w < 2 ^ 31) :
    ∃ paths : Finset (List (Fin m)),
      (∀ es, es ∈ paths ↔ IsShortest roads 0 lastVertex es ∧ weight roads es ≤ inf) ∧
      countPath roads = some (paths.card % mod) := by
  obtain ⟨s, hrun, hinv, hstuck⟩ := rounds_spec hlen
  refine ⟨(shortestRoutes roads 0 lastVertex).filter fun es => weight roads es ≤ inf,
    fun es => by rw [Finset.mem_filter, mem_shortestRoutes], ?_⟩
  have hlast : s.f lastVertex =
      ((shortestRoutes roads 0 lastVertex).filter fun es => weight roads es ≤ inf).card % mod := by
    by_cases hnear : ∃ c, (routes roads 0).Least lastVertex c ∧ c ≤ inf
    · obtain ⟨c, hleast, hc⟩ := hnear
      rw [hinv.near hstuck hleast hc, Finset.filter_true_of_mem, numShortest]
      intro es hes
      have hweight := (isShortest_iff.mp (mem_shortestRoutes.mp hes)).2
      rwa [← hleast.eq hweight]
    · push Not at hnear
      rw [hinv.far, Finset.filter_false_of_mem]
      · rfl
      · intro es hes
        have hweight := (isShortest_iff.mp (mem_shortestRoutes.mp hes)).2
        exact Int.not_le.mpr (hnear _ hweight)
      · intro c hlabel
        obtain ⟨c', hleast⟩ := exists_least hlabel
        exact (hnear c' hleast).trans_le (hleast.le hlabel)
  obtain ⟨hlow, hhigh⟩ := hinv.f_bounds lastVertex
  unfold mod at hhigh
  simp only [countPath, hrun, Option.bind_eq_bind, Option.bind_some]
  rw [signed_eq (by omega) (by omega), hlast]

/-- The result is the number of shortest routes to the last vertex, when they are no longer
than `10 ^ 18`. -/
theorem countPath_eq (roads : Fin m → WeightedEdge (Fin n)) (hlen : ∀ i, (roads i).w < 2 ^ 31) :
    ∃ paths : Finset (List (Fin m)),
      (∀ es, es ∈ paths ↔ IsShortest roads 0 lastVertex es ∧ weight roads es ≤ 10 ^ 18) ∧
      countPath roads = some ((paths.card : Int) % (10 ^ 9 + 7)) ∧
      (n = 1 → countPath roads = some 1) ∧
      ((¬ ∃ es, Route (Joins roads) 0 es lastVertex) → countPath roads = some 0) := by
  obtain ⟨paths, hpaths, hrun⟩ := countPath_run hlen
  refine ⟨paths, hpaths, hrun, fun hn => ?_, fun hnone => ?_⟩
  · subst hn
    have hone : paths = {[]} := by
      ext es
      rw [hpaths, Subsingleton.elim lastVertex 0, isShortest_self, Finset.mem_singleton]
      apply and_iff_left_of_imp
      rintro rfl
      exact show (0 : Int) ≤ inf by decide
    rw [hrun, hone]
    rfl
  · have hempty : paths = ∅ := Finset.eq_empty_of_forall_notMem fun es hes =>
      hnone ⟨es, ((hpaths es).mp hes).1.route⟩
    rw [hrun, hempty]
    rfl

/-- Two roads in parallel, and one way round. -/
theorem countPath_eq_parallel : ∃ paths : Finset (List (Fin 4)),
    (∀ es, es ∈ paths ↔ IsShortest
      ![(⟨0, 1, 2, by decide⟩ : WeightedEdge (Fin 3)), ⟨1, 0, 2, by decide⟩, ⟨1, 2, 3, by decide⟩,
        ⟨0, 2, 5, by decide⟩] 0 lastVertex es ∧ weight
      ![(⟨0, 1, 2, by decide⟩ : WeightedEdge (Fin 3)), ⟨1, 0, 2, by decide⟩, ⟨1, 2, 3, by decide⟩,
        ⟨0, 2, 5, by decide⟩] es ≤ 10 ^ 18) ∧
    countPath
      ![(⟨0, 1, 2, by decide⟩ : WeightedEdge (Fin 3)), ⟨1, 0, 2, by decide⟩, ⟨1, 2, 3, by decide⟩,
        ⟨0, 2, 5, by decide⟩] = some ((paths.card : Int) % (10 ^ 9 + 7)) ∧
    ((3 : Nat) = 1 → countPath
      ![(⟨0, 1, 2, by decide⟩ : WeightedEdge (Fin 3)), ⟨1, 0, 2, by decide⟩, ⟨1, 2, 3, by decide⟩,
        ⟨0, 2, 5, by decide⟩] = some 1) ∧
    ((¬ ∃ es, Route (Joins
      ![(⟨0, 1, 2, by decide⟩ : WeightedEdge (Fin 3)), ⟨1, 0, 2, by decide⟩, ⟨1, 2, 3, by decide⟩,
        ⟨0, 2, 5, by decide⟩]) 0 es lastVertex) → countPath
      ![(⟨0, 1, 2, by decide⟩ : WeightedEdge (Fin 3)), ⟨1, 0, 2, by decide⟩, ⟨1, 2, 3, by decide⟩,
        ⟨0, 2, 5, by decide⟩] = some 0) :=
  countPath_eq ![(⟨0, 1, 2, by decide⟩ : WeightedEdge (Fin 3)), ⟨1, 0, 2, by decide⟩,
    ⟨1, 2, 3, by decide⟩, ⟨0, 2, 5, by decide⟩] (by decide)

/-! ## A long way -/

/-- A row of `k` roads, each of the greatest length. -/
def line (k : Nat) (i : Fin k) : WeightedEdge (Fin (k + 1)) :=
  ⟨i.castSucc, i.succ, 2 ^ 31 - 1, by decide⟩

theorem line_lt {k : Nat} (i : Fin k) : (line k i).w < 2 ^ 31 :=
  show (2 ^ 31 - 1 : Int) < 2 ^ 31 by decide

theorem weight_line (k : Nat) (es : List (Fin k)) :
    weight (line k) es = es.length * (2 ^ 31 - 1) := by
  simp [weight, line]

/-- A way to `v` is as long as `v` or longer, and there is only one that is as long. -/
theorem route_line {k : Nat} {es : List (Fin k)} {v : Fin (k + 1)}
    (h : Route (Joins (line k)) 0 es v) :
    v.val ≤ es.length ∧ (es.length = v.val → es.map Fin.val = List.range v.val) := by
  induction h with
  | nil => exact ⟨Nat.zero_le _, fun _ => rfl⟩
  | @concat es v i u _ hjoins ih =>
      obtain ⟨hle, heq⟩ := ih
      rw [List.length_append, List.length_singleton]
      obtain ⟨rfl, rfl⟩ | ⟨rfl, rfl⟩ := hjoins
      · simp only [line, Fin.val_castSucc, Fin.val_succ] at hle heq ⊢
        refine ⟨by omega, fun hlength => ?_⟩
        rw [List.map_append, heq (by omega), List.range_succ, List.map_singleton]
      · simp only [line, Fin.val_castSucc, Fin.val_succ] at hle ⊢
        exact ⟨by omega, fun hlength => by omega⟩

theorem exists_route_line {k j : Nat} (hj : j < k + 1) :
    ∃ es, Route (Joins (line k)) 0 es ⟨j, hj⟩ ∧ es.length = j := by
  induction j with
  | zero => exact ⟨[], .nil, rfl⟩
  | succ j ih =>
      obtain ⟨es, hroute, hlength⟩ := ih (Nat.lt_of_succ_lt hj)
      refine ⟨es ++ [⟨j, Nat.lt_of_succ_lt_succ hj⟩], hroute.concat (.inl ⟨rfl, rfl⟩), ?_⟩
      rw [List.length_append, hlength, List.length_singleton]

theorem lastVertex_line (k : Nat) : (lastVertex : Fin (k + 1)).val = k :=
  Nat.mod_eq_of_lt (Nat.lt_succ_self k)

theorem isShortest_line {k : Nat} {es es' : List (Fin k)}
    (hroute : Route (Joins (line k)) 0 es lastVertex) (hlength : es.length = k) :
    IsShortest (line k) 0 lastVertex es' ↔ es' = es := by
  constructor
  · intro h
    obtain ⟨hle, honly⟩ := route_line h.route
    have hweight := h.le es hroute
    rw [weight_line, weight_line] at hweight
    rw [lastVertex_line] at hle honly
    apply List.map_injective_iff.mpr Fin.val_injective
    rw [honly (by omega), (route_line hroute).2 (by rw [hlength, lastVertex_line]), lastVertex_line]
  · rintro rfl
    refine ⟨hroute, fun es hes => ?_⟩
    have hle := (route_line hes).1
    rw [lastVertex_line] at hle
    rw [weight_line, weight_line]
    omega

theorem countPath_long {k : Nat} (hk : inf < k * (2 ^ 31 - 1)) :
    countPath (line k) = some 0 ∧ ∃ paths : Finset (List (Fin k)),
      (∀ es, es ∈ paths ↔ IsShortest (line k) 0 lastVertex es) ∧ paths.card = 1 := by
  obtain ⟨es, hroute, hlength⟩ := exists_route_line (lastVertex : Fin (k + 1)).isLt
  rw [lastVertex_line] at hlength
  have honly : ∀ es', IsShortest (line k) 0 lastVertex es' ↔ es' = es :=
    fun _ => isShortest_line hroute hlength
  constructor
  · obtain ⟨paths, hpaths, hrun⟩ := countPath_run (line_lt (k := k))
    have hempty : paths = ∅ := by
      refine Finset.eq_empty_of_forall_notMem fun es' hes => ?_
      obtain ⟨hshortest, hle⟩ := (hpaths es').mp hes
      rw [(honly es').mp hshortest, weight_line, hlength] at hle
      omega
    rw [hrun, hempty]
    rfl
  · exact ⟨{es}, fun es' => by rw [honly, Finset.mem_singleton], Finset.card_singleton es⟩

/-- The one shortest route is longer than `10 ^ 18`, and is not counted. -/
theorem countPath_line : (∀ i, (line 500000000 i).w < 2 ^ 31) ∧
    countPath (line 500000000) = some 0 ∧
    ∃ paths : Finset (List (Fin 500000000)),
      (∀ es, es ∈ paths ↔ IsShortest (line 500000000) 0 lastVertex es) ∧ paths.card = 1 :=
  ⟨line_lt, countPath_long (by decide)⟩

end CountPath

end MoreCpp
