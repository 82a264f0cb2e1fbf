import MoreCpp.Library.Cells
import MoreCpp.Library.Loop
import MoreCpp.Library.SignedInt
import MoreCpp.Library.TimedWalks
import Mathlib.Data.List.GetD

/-!
`min_cost_time` of `algorithms/graphs/graphs.cpp`. `none` is an access outside of a vector,
an `int` that overflows, or a vector of a negative length.
-/

namespace MoreCpp

open Library

namespace MinCostTime

/-- `e[0]`, `e[1]` and `e[2]`. -/
structure Edge where
  x : Nat
  y : Nat
  t : Nat

def inf : Int := 2 ^ 30

/-- `f[i][x] = min(f[i][x], f[i-t][y] + passingFees[x])`. -/
def relax (passingFees : List Int) (i t x y : Nat) (f : List (List Int)) :
    Option (List (List Int)) := do
  let a ← readCell f i x
  let b ← readCell f (i - t) y
  let fee ← passingFees[x]?
  let sum ← signed 32 (b + fee)
  writeCell f i x (min a sum)

/-- A turn of the loop over the edges. -/
def relaxEdge (passingFees : List Int) (i : Nat) (f : List (List Int)) (e : Edge) :
    Option (List (List Int)) :=
  if e.t ≤ i then do
    let f ← relax passingFees i e.t e.x e.y f
    relax passingFees i e.t e.y e.x f
  else some f

def minCostTime (maxTime : Nat) (edges : List Edge) (passingFees : List Int) : Option Int := do
  let rows ← signed 32 (maxTime + 1)
  let n := (passingFees.length : Int).bmod (2 ^ 32)
  if 0 ≤ n then do
    let fee ← passingFees[0]?
    let f ← writeCell (List.replicate rows.toNat (List.replicate n.toNat inf)) 0 0 fee
    let f ← forRange 1 (maxTime + 1) (fun i f => edges.foldlM (relaxEdge passingFees i) f) f
    let ans ← forRange 1 (maxTime + 1) (fun i ans => do
      let c ← readCell f i (n.toNat - 1)
      return min ans c) inf
    return if ans = inf then -1 else ans
  else none

/-- An edge leads both ways. -/
def Joins (edges : List Edge) (u t v : Nat) : Prop :=
  ∃ e ∈ edges, e.t = t ∧ (e.x = u ∧ e.y = v ∨ e.y = u ∧ e.x = v)

/-- The edges lead between vertices, and take time. -/
def IsGraph (n : Nat) (edges : List Edge) : Prop := ∀ e ∈ edges, e.x < n ∧ e.y < n ∧ 1 ≤ e.t

def fee (passingFees : List Int) (v : Nat) : Int := passingFees.getD v 0

/-- The costs of the walks from the first vertex to the last that arrive in time. -/
def costs (maxTime : Nat) (edges : List Edge) (passingFees : List Int) : Set Int :=
  walkCosts (Joins edges) 0 (passingFees.length - 1) (fee passingFees) maxTime

variable {passingFees : List Int} {edges : List Edge} {m n i t x y : Nat}
  {f : List (List Int)} {done : Set (Nat × Nat × Nat)}

theorem fee_nonneg (hfees : ∀ c ∈ passingFees, 0 ≤ c) (v : Nat) : 0 ≤ fee passingFees v := by
  obtain hv | hv := lt_or_ge v passingFees.length
  · rw [fee, List.getD_eq_getElem _ _ hv]
    exact hfees _ (List.getElem_mem hv)
  · exact (List.getD_eq_default _ _ hv).ge

theorem getElem?_fee (hx : x < passingFees.length) :
    passingFees[x]? = some (fee passingFees x) := by
  rw [fee, List.getD_eq_getElem _ _ hx, List.getElem?_eq_getElem hx]

theorem fee_le_sum (hfees : ∀ c ∈ passingFees, 0 ≤ c) (hx : x < passingFees.length) :
    fee passingFees x ≤ passingFees.sum := by
  rw [fee, List.getD_eq_getElem _ _ hx]
  exact List.single_le_sum hfees _ (List.getElem_mem hx)

/-- The rows before `i` are done, and row `i` for the steps in `done`. -/
def Rows (edges : List Edge) (passingFees : List Int) (m i : Nat) (done : Set (Nat × Nat × Nat))
    (f : List (List Int)) : Prop :=
  Cellwise f (m + 1) passingFees.length fun k v b =>
    (k < i → LeastCost (Joins edges) 0 (fee passingFees) inf k v b) ∧
      (k = i → Settling (Joins edges) 0 (fee passingFees) inf done k v b) ∧ (i < k → b = inf)

theorem Rows.relax (h : Rows edges passingFees m i done f) (hi : i ≤ m) (hti : t ≤ i) (ht : 0 < t)
    (hx : x < passingFees.length) (hy : y < passingFees.length)
    (hfees : ∀ c ∈ passingFees, 0 ≤ c) (hsum : passingFees.sum < inf) (hjoins : Joins edges y t x) :
    ∃ f', MinCostTime.relax passingFees i t x y f = some f' ∧
      Rows edges passingFees m i (insert (y, t, x) done) f' := by
  obtain ⟨a, ha, -, hsettling, -⟩ := h i (by omega) x hx
  obtain ⟨b, hb, hleast, -, -⟩ := h (i - t) (by omega) y hy
  have hfee := getElem?_fee hx
  have hbefore := hleast (by omega)
  have hfee0 := fee_nonneg hfees x
  have hfee1 := fee_le_sum hfees hx
  have hb0 : 0 ≤ b := hbefore.nonneg (fee_nonneg hfees) (by decide)
  have hb1 := hbefore.le_cap
  rw [inf] at hsum hb1
  have hrelax := (hsettling rfl).relax hbefore hjoins (by omega) hfee0
  obtain ⟨f', hwrite, hrows, -⟩ := Cellwise.update (a := min a (b + fee passingFees x))
    (Q := fun k v b => (k < i → LeastCost (Joins edges) 0 (fee passingFees) inf k v b) ∧
      (k = i → Settling (Joins edges) 0 (fee passingFees) inf (insert (y, t, x) done) k v b) ∧
        (i < k → b = inf)) h (by omega) hx
    ⟨fun hlt => absurd hlt (lt_irrefl i), fun _ => hrelax, fun hlt => absurd hlt (lt_irrefl i)⟩
    fun k v b hother hold => ⟨hold.1, fun hk => (hold.2.1 hk).insert_of_ne fun hv =>
      absurd ⟨hk, hv.symm⟩ hother, hold.2.2⟩
  refine ⟨f', ?_, hrows⟩
  rw [MinCostTime.relax, ha, hb, hfee, Option.bind_eq_bind, Option.bind_some,
    Option.bind_some, Option.bind_some, signed_eq (by omega) (by omega), Option.bind_some, hwrite]

/-- What the loop over the edges has been through. -/
def steps (es : List Edge) : Set (Nat × Nat × Nat) :=
  {s | ∃ e ∈ es, e.t = s.2.1 ∧ (e.x = s.1 ∧ e.y = s.2.2 ∨ e.y = s.1 ∧ e.x = s.2.2)}

theorem steps_concat (seen : List Edge) (e : Edge) :
    steps (seen ++ [e]) = insert (e.x, e.t, e.y) (insert (e.y, e.t, e.x) (steps seen)) := by
  ext ⟨u, t, v⟩
  rw [Set.mem_insert_iff, Set.mem_insert_iff]
  constructor
  · rintro ⟨e', he', ht, hends⟩
    obtain hseen | hlast := List.mem_append.mp he'
    · exact .inr (.inr ⟨e', hseen, ht, hends⟩)
    · obtain rfl := List.mem_singleton.mp hlast
      dsimp only at ht hends
      obtain ⟨hx, hy⟩ | ⟨hy, hx⟩ := hends
      · exact .inl (by rw [hx, ht, hy])
      · exact .inr (.inl (by rw [hx, ht, hy]))
  · have hlast : e ∈ seen ++ [e] := List.mem_append_right _ (List.mem_singleton_self e)
    rintro (heq | heq | ⟨e', he', hstep⟩)
    · obtain ⟨rfl, rfl, rfl⟩ : u = e.x ∧ t = e.t ∧ v = e.y := by simpa using heq
      exact ⟨e, hlast, rfl, .inl ⟨rfl, rfl⟩⟩
    · obtain ⟨rfl, rfl, rfl⟩ : u = e.y ∧ t = e.t ∧ v = e.x := by simpa using heq
      exact ⟨e, hlast, rfl, .inr ⟨rfl, rfl⟩⟩
    · exact ⟨e', List.mem_append_left _ he', hstep⟩

/-- An edge that takes longer than the row has time leads to no walk there. -/
theorem Rows.skip {s : Nat × Nat × Nat} (h : Rows edges passingFees m i done f) (hs : i < s.2.1) :
    Rows edges passingFees m i (insert s done) f :=
  Cellwise.mono h fun _ _ _ _ _ hold =>
    ⟨hold.1, fun hk => (hold.2.1 hk).insert_of_ne fun _ => hk ▸ hs, hold.2.2⟩

theorem Rows.relaxEdge {e : Edge} {seen : List Edge} (h : Rows edges passingFees m i (steps seen) f)
    (hi : i ≤ m) (he : e ∈ edges) (hgraph : IsGraph passingFees.length edges)
    (hfees : ∀ c ∈ passingFees, 0 ≤ c) (hsum : passingFees.sum < inf) :
    ∃ f', MinCostTime.relaxEdge passingFees i f e = some f' ∧
      Rows edges passingFees m i (steps (seen ++ [e])) f' := by
  obtain ⟨hx, hy, ht⟩ := hgraph e he
  rw [steps_concat, MinCostTime.relaxEdge]
  split
  case isTrue hti =>
    obtain ⟨mid, hfirst, hmid⟩ := h.relax hi hti ht hx hy hfees hsum ⟨e, he, rfl, .inr ⟨rfl, rfl⟩⟩
    obtain ⟨f', hlast, hf'⟩ := hmid.relax hi hti ht hy hx hfees hsum ⟨e, he, rfl, .inl ⟨rfl, rfl⟩⟩
    exact ⟨f', by rw [hfirst, Option.bind_eq_bind, Option.bind_some, hlast], hf'⟩
  case isFalse hti => exact ⟨f, rfl, (h.skip (not_le.mp hti)).skip (not_le.mp hti)⟩

theorem Rows.next (h : Rows edges passingFees m i (steps edges) f) (hi : 0 < i) :
    Rows edges passingFees m (i + 1) ∅ f := by
  refine Cellwise.mono h fun k v b _ _ hold => ⟨fun hk => ?_, fun hk => ?_, fun hk => ?_⟩
  · obtain hlt | rfl := Nat.lt_succ_iff_lt_or_eq.mp hk
    · exact hold.1 hlt
    · refine (hold.2.1 rfl).leastCost hi ?_
      rintro u t ⟨e, he, hstep⟩
      exact ⟨e, he, hstep⟩
  · rw [hold.2.2 (by omega)]
    exact .start
  · exact hold.2.2 (by omega)

/-- A row is filled from those before it. -/
theorem Rows.fill (h : Rows edges passingFees m i ∅ f) (hi : i ≤ m) (hpos : 0 < i)
    (hgraph : IsGraph passingFees.length edges) (hfees : ∀ c ∈ passingFees, 0 ≤ c)
    (hsum : passingFees.sum < inf) :
    ∃ f', edges.foldlM (MinCostTime.relaxEdge passingFees i) f = some f' ∧
      Rows edges passingFees m (i + 1) ∅ f' := by
  have hstart : Rows edges passingFees m i (steps []) f := by
    have hnone : steps [] = ∅ := Set.eq_empty_of_forall_notMem fun _ ⟨_, he, _⟩ =>
      List.not_mem_nil he
    rwa [hnone]
  obtain ⟨f', hrun, hrows⟩ := foldlM_rule (l := edges)
    (fun seen f => Rows edges passingFees m i (steps seen) f) hstart
    fun seen e rest f hedges hrows => hrows.relaxEdge hi
      (hedges ▸ List.mem_append_right _ List.mem_cons_self) hgraph hfees hsum
  exact ⟨f', hrun, hrows.next hpos⟩

theorem IsGraph.pos {u v : Nat} (h : IsGraph n edges) (hjoins : Joins edges u t v) : 0 < t := by
  obtain ⟨e, he, rfl, -⟩ := hjoins
  exact (h e he).2.2

/-- The table at the start: the walk of one vertex, and nothing else. -/
theorem start_spec (hn : 0 < passingFees.length) (hfees : ∀ c ∈ passingFees, 0 ≤ c)
    (hgraph : IsGraph passingFees.length edges) (hsum : passingFees.sum < inf) :
    ∃ f, writeCell (List.replicate (m + 1) (List.replicate passingFees.length inf)) 0 0
        (fee passingFees 0) = some f ∧ Rows edges passingFees m 1 ∅ f := by
  have hpos := fun u t v => hgraph.pos (u := u) (t := t) (v := v)
  have hfee := fee_le_sum hfees hn
  have hself : LeastCost (Joins edges) 0 (fee passingFees) inf 0 0 (fee passingFees 0) := by
    refine ⟨by omega, fun _ => ⟨[], .start, by simp [cost]⟩, fun path hwalk => ?_⟩
    rw [(hwalk.eq_start hpos).2]
    simp [cost]
  have hother : ∀ v, v ≠ 0 → LeastCost (Joins edges) 0 (fee passingFees) inf 0 v inf := fun v hv =>
    ⟨le_rfl, fun hlt => absurd hlt (lt_irrefl _), fun path hwalk =>
      absurd (hwalk.eq_start hpos).1 hv⟩
  have hblank : Cellwise (List.replicate (m + 1) (List.replicate passingFees.length inf)) (m + 1)
      passingFees.length fun _ _ b => b = inf := Cellwise.replicate fun _ _ _ _ => rfl
  obtain ⟨f, hwrite, hrows, -⟩ := hblank.update (a := fee passingFees 0)
    (Q := fun k v b => (k < 1 → LeastCost (Joins edges) 0 (fee passingFees) inf k v b) ∧
      (k = 1 → Settling (Joins edges) 0 (fee passingFees) inf ∅ k v b) ∧ (1 < k → b = inf))
    (Nat.succ_pos m) hn
    ⟨fun _ => hself, fun hone => absurd hone (by decide), fun hone => absurd hone (by decide)⟩
    fun k v b hne hb => ⟨fun hk => by
      obtain rfl : k = 0 := by omega
      exact hb ▸ hother v fun hv => hne ⟨rfl, hv⟩, fun _ => hb ▸ .start, fun _ => hb⟩
  exact ⟨f, hwrite, hrows⟩

/-- The least of the last column is the least of the costs, or `inf`. -/
theorem answer_spec (h : Rows edges passingFees m (m + 1) ∅ f) (hn : 2 ≤ passingFees.length)
    (hgraph : IsGraph passingFees.length edges) :
    ∃ ans, (forRange 1 (m + 1) (fun i ans => do
        let c ← readCell f i (passingFees.length - 1)
        return min ans c) inf) = some ans ∧ ans ≤ inf ∧
      (ans < inf → ans ∈ costs m edges passingFees) ∧ ∀ c ∈ costs m edges passingFees, ans ≤ c := by
  have hloop : ∃ ans, (forRange 1 (m + 1) (fun i ans => do
        let c ← readCell f i (passingFees.length - 1)
        return min ans c) inf) = some ans ∧ ans ≤ inf ∧
      (ans < inf → ans ∈ costs m edges passingFees) ∧
        ∀ i < max 1 (m + 1), ∀ path,
          TimedWalk (Joins edges) 0 ((passingFees.length - 1) :: path) i →
            ans ≤ cost (fee passingFees) ((passingFees.length - 1) :: path) := ?_
  · obtain ⟨ans, hrun, hle, hmem, hleast⟩ := hloop
    refine ⟨ans, hrun, hle, hmem, ?_⟩
    rintro c ⟨path, i, hwalk, hi, rfl⟩
    exact hleast i (by omega) path hwalk
  apply forRange_rule fun k (ans : Int) => ans ≤ inf ∧
    (ans < inf → ans ∈ costs m edges passingFees) ∧
      ∀ i < k, ∀ path, TimedWalk (Joins edges) 0 ((passingFees.length - 1) :: path) i →
        ans ≤ cost (fee passingFees) ((passingFees.length - 1) :: path)
  · refine ⟨le_rfl, fun hlt => absurd hlt (lt_irrefl _), fun i hi path hwalk => ?_⟩
    obtain rfl : i = 0 := by omega
    have hsame := (hwalk.eq_start fun u t v => hgraph.pos).1
    omega
  · rintro k ans hk hkm ⟨hle, hmem, hleast⟩
    obtain ⟨c, hread, hcell, -, -⟩ := h k hkm (passingFees.length - 1) (by omega)
    have hc := hcell hkm
    refine ⟨min ans c, by rw [hread]; rfl, (min_le_left _ _).trans hle, fun hlt => ?_, ?_⟩
    · obtain hac | hca := le_total ans c
      · rw [min_eq_left hac] at hlt ⊢
        exact hmem hlt
      · rw [min_eq_right hca] at hlt ⊢
        obtain ⟨path, hwalk, rfl⟩ := hc.walk hlt
        exact ⟨path, k, hwalk, by omega, rfl⟩
    · intro i hi path hwalk
      obtain hlt | rfl := Nat.lt_succ_iff_lt_or_eq.mp hi
      · exact (min_le_left _ _).trans (hleast i hlt path hwalk)
      · exact (min_le_right _ _).trans (hc.least path hwalk)

/-- Some cheapest walk visits no vertex twice, and all the fees together are less than `inf`. -/
theorem exists_walkCost_lt (hn : 2 ≤ passingFees.length) (hgraph : IsGraph passingFees.length edges)
    (hfees : ∀ c ∈ passingFees, 0 ≤ c)
    (hwalk : (costs m edges passingFees).Nonempty) :
    ∃ c ∈ costs m edges passingFees, c ≤ passingFees.sum := by
  obtain ⟨_, path, i, hwalk, hi, rfl⟩ := hwalk
  obtain ⟨path', j, hwalk', hnodup, hj, -⟩ := hwalk.exists_nodup (fee_nonneg hfees)
  refine ⟨_, ⟨path', j, hwalk', hj.trans hi, rfl⟩, ?_⟩
  have hall := hwalk'.forall_mem (P := (· < passingFees.length)) (by omega) fun u t v hjoins => by
    obtain ⟨e, he, -, ⟨-, rfl⟩ | ⟨-, rfl⟩⟩ := hjoins
    · exact (hgraph e he).2.1
    · exact (hgraph e he).1
  have hfeesAll : (List.range passingFees.length).map (fee passingFees) = passingFees := by
    apply List.ext_getElem
    · rw [List.length_map, List.length_range]
    · intro v hv hv'
      rw [List.getElem_map, List.getElem_range, fee, List.getD_eq_getElem _ _ hv']
  obtain ⟨perm, hperm, hsub⟩ := hnodup.subperm fun v hv => List.mem_range.mpr (hall v hv)
  have hsum := (hsub.map (fee passingFees)).sum_le_sum (by rwa [hfeesAll])
  rwa [(hperm.map _).sum_eq, hfeesAll] at hsum

/-- The result is -1 where no walk arrives in time, and otherwise the least of the costs. -/
theorem minCostTime_eq (maxTime : Nat) (edges : List Edge) (passingFees : List Int)
    (hn : 2 ≤ passingFees.length) (hn' : passingFees.length < 2 ^ 31)
    (hgraph : IsGraph passingFees.length edges) (hfees : ∀ c ∈ passingFees, 0 ≤ c)
    (hsum : passingFees.sum < 2 ^ 30) (hmax : maxTime < 2 ^ 31 - 1) :
    ∃ r, minCostTime maxTime edges passingFees = some r ∧
      (r = -1 ↔ costs maxTime edges passingFees = ∅) ∧
      (r ≠ -1 → IsLeast (costs maxTime edges passingFees) r) := by
  have hpos : 0 < passingFees.length := by omega
  have hrows : ((maxTime : Int) + 1).toNat = maxTime + 1 := by omega
  have hfee := getElem?_fee hpos
  obtain ⟨f, hstart, hf⟩ := start_spec (m := maxTime) hpos hfees hgraph hsum
  have hrows' : ∃ f', forRange 1 (maxTime + 1)
      (fun i f => edges.foldlM (relaxEdge passingFees i) f) f = some f' ∧
        Rows edges passingFees maxTime (max 1 (maxTime + 1)) ∅ f' :=
    forRange_rule (fun i f => Rows edges passingFees maxTime i ∅ f) hf fun i f hi hi' h =>
      h.fill (by omega) hi hgraph hfees hsum
  obtain ⟨f', hfill, hf'⟩ := hrows'
  rw [Nat.max_eq_right (Nat.le_add_left 1 maxTime)] at hf'
  obtain ⟨ans, hans, hle, hmem, hleast⟩ := answer_spec hf' hn hgraph
  refine ⟨if ans = inf then -1 else ans, ?_, ?_, ?_⟩
  · have hsigned : signed 32 ((maxTime : Int) + 1) = some ((maxTime : Int) + 1) :=
      signed_eq (by omega) (by omega)
    simp only [Option.bind_eq_bind, Option.pure_def] at hans
    simp only [minCostTime, hsigned, natCast_bmod hn', hfee, hrows, hstart, hfill, hans, Int.toNat_natCast,
      Int.natCast_nonneg, if_true, Option.bind_eq_bind, Option.bind_some, Option.pure_def]
  · constructor
    · intro hr
      by_contra hsome
      rw [← ne_eq, ← Set.nonempty_iff_ne_empty] at hsome
      obtain ⟨c, hc, hcle⟩ := exists_walkCost_lt hn hgraph hfees hsome
      have hbelow := hleast c hc
      have hlt : ans < inf := by
        rw [inf]
        omega
      rw [if_neg hlt.ne] at hr
      obtain ⟨path, i, -, -, hcost⟩ := hmem hlt
      have hnonneg := cost_nonneg (fee_nonneg hfees) ((passingFees.length - 1) :: path)
      omega
    · intro hnone
      have hinf : ans = inf := by
        by_contra hne
        exact (hnone ▸ hmem (lt_of_le_of_ne hle hne) : ans ∈ (∅ : Set Int))
      rw [if_pos hinf]
  · intro hr
    have hne : ans ≠ inf := fun hinf => hr (if_pos hinf)
    rw [if_neg hne]
    exact ⟨hmem (lt_of_le_of_ne hle hne), fun c hc => hleast c hc⟩

theorem minCostTime_eq_short : ∃ r, minCostTime 3 [⟨0, 1, 2⟩, ⟨1, 1, 1⟩] [4, 5] = some r ∧
    (r = -1 ↔ costs 3 [⟨0, 1, 2⟩, ⟨1, 1, 1⟩] [4, 5] = ∅) ∧
    (r ≠ -1 → IsLeast (costs 3 [⟨0, 1, 2⟩, ⟨1, 1, 1⟩] [4, 5]) r) :=
  minCostTime_eq 3 [⟨0, 1, 2⟩, ⟨1, 1, 1⟩] [4, 5] (by decide) (by decide)
    (by simp [IsGraph]) (by decide) (by decide) (by decide)

/-- The length of the table, and the number of the vertices, leave the `int` range. -/
theorem minCostTime_overflow :
    minCostTime (2 ^ 31 - 1) [⟨0, 1, 1⟩] [0, 0] = none ∧
      minCostTime 1 [⟨0, 1, 1⟩] (List.replicate (2 ^ 31) 0) = none := by
  constructor
  · rfl
  · have hwrap : ((2 ^ 31 : Nat) : Int).bmod (2 ^ 32) = -2 ^ 31 := by decide
    rw [minCostTime, List.length_replicate, hwrap]
    rfl

end MinCostTime

end MoreCpp
