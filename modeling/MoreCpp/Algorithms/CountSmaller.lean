import MoreCpp.Library.Loop
import MoreCpp.Library.LowestBit
import MoreCpp.Library.SignedInt
import Mathlib.Data.List.Sort

/-!
`count_smaller` of `algorithms/array/array.cpp`, with its Fenwick tree `bit`. `tt` lists the
set of the values in the order in which it is iterated, which may be any. `none` is an access
outside of a vector, an `int` that overflows, or a loop that `fuel` rounds do not end.
-/

namespace MoreCpp

open Library

namespace CountSmaller

def read (a : Array Int) (i : Int) : Option Int :=
  if 0 ≤ i then a[i.toNat]? else none

def init (n : Int) : Option (Array Int) := do
  let size ← signed 32 (n + 1)
  if 0 ≤ size then some (Array.replicate size.toNat 0) else none

/-- A turn of `while (k <= n)`. -/
def updateRound (n : Int) : Array Int × Int → Option ((Array Int × Int) ⊕ Array Int)
  | (data, k) =>
    if k ≤ n then do
      let y ← read data k
      let y ← signed 32 (y + 1)
      let next ← signed 32 (k + Int.land k (-k))
      return .inl (data.setIfInBounds k.toNat y, next)
    else some (.inr data)

def update (fuel : Nat) (n : Int) (data : Array Int) (k : Int) : Option (Array Int) :=
  loop (updateRound n) fuel (data, k)

/-- A turn of `while (k > 0)`. -/
def queryRound (data : Array Int) : Int × Int → Option ((Int × Int) ⊕ Int)
  | (sum, k) =>
    if k > 0 then do
      let y ← read data k
      let sum ← signed 32 (sum + y)
      let k ← signed 32 (k - Int.land k (-k))
      return .inl (sum, k)
    else some (.inr sum)

def query (fuel : Nat) (data : Array Int) (k : Int) : Option Int :=
  loop (queryRound data) fuel (0, k)

/-- `m`, which has 0 for a value that it does not have yet. -/
def ranks (all : List Int) (n : Int) : Option (Int → Int) :=
  forRange 0 n.toNat (fun i m => do
    let x ← all[i]?
    return Function.update m x (i + 1)) fun _ => 0

structure State where
  data : Array Int
  ans : Array Int
  i : Int

/-- A turn of the loop from the right. -/
def round (fuel : Nat) (n : Int) (m : Int → Int) (a : Array Int) (s : State) :
    Option (State ⊕ Array Int) :=
  if s.i ≥ 0 then do
    let y ← read a s.i
    let data ← update fuel n s.data (m y)
    let r ← query fuel data (m y - 1)
    return .inl { data, ans := s.ans.setIfInBounds s.i.toNat r, i := s.i - 1 }
  else some (.inr s.ans)

def countSmaller (fuel : Nat) (tt : List Int) (a : Array Int) : Option (Array Int) := do
  let all := tt.mergeSort fun x y => x ≤ y
  let n := (all.length : Int).bmod (2 ^ 32)
  let data ← init n
  let m ← ranks all n
  let i ← signed 32 ((a.size : Int).bmod (2 ^ 32) - 1)
  loop (round fuel n m a) fuel { data, ans := Array.replicate a.size 0, i }

/-! ## The tree -/

/-- The tree after the updates `made`. -/
structure Tree (n : Int) (data : Array Int) (made : List Int) : Prop where
  size : data.size = n + 1
  node : ∀ j, 1 ≤ j → j ≤ n → read data j = some (nodeCount made j)

variable {n k p : Int} {data : Array Int} {made : List Int} {fuel : Nat}

theorem read_setIfInBounds {j y : Int} (hk : 0 ≤ k) (hsize : k < data.size) (hj : 0 ≤ j) :
    read (data.setIfInBounds k.toNat y) j = if j = k then some y else read data j := by
  rw [read, if_pos hj, Array.getElem?_setIfInBounds, read, if_pos hj]
  split_ifs <;> first | rfl | omega

theorem init_spec (hn : 0 ≤ n) (hn' : n < 2 ^ 30) :
    ∃ data, init n = some data ∧ Tree n data [] := by
  refine ⟨Array.replicate (n + 1).toNat 0, ?_, ?_, fun j hj hjn => ?_⟩
  · rw [init, signed_eq (by omega) (by omega), Option.bind_eq_bind, Option.bind_some,
      if_pos (by omega)]
  · rw [Array.size_replicate]
    omega
  · rw [read, if_pos (by omega), Array.getElem?_replicate, if_pos (by omega)]
    rfl

/-- The nodes up to `k` that count `p` have counted it. -/
structure Updating (n : Int) (made : List Int) (p : Int) (data : Array Int) (k : Int) : Prop where
  pos : 0 < k
  size : data.size = n + 1
  node : ∀ j, 1 ≤ j → j ≤ n →
    read data j = some (nodeCount made j + if Covers j p ∧ ¬Covers j k then 1 else 0)
  above : ∀ j, 1 ≤ j → j ≤ n → Covers j k → Covers j p

theorem Updating.next (h : Updating n made p data k) (hkn : k ≤ n) :
    read data k = some (nodeCount made k) ∧
      Updating n made p (data.setIfInBounds k.toNat (nodeCount made k + 1))
        (k + Int.land k (-k)) := by
  have hpos := h.pos
  have hsize := h.size
  have hself := covers_self hpos
  have hnext : k < k + Int.land k (-k) := by
    obtain ⟨t, ht⟩ := exists_lowBit hpos
    rw [land_neg ht hpos]
    exact lt_add_of_pos_right k (by positivity)
  refine ⟨?_, by omega, ?_, fun j hj hjn => ?_, fun j hj hjn hcovers => ?_⟩
  · rw [h.node k hpos hkn, if_neg fun hnot => hnot.2 hself, add_zero]
  · rw [Array.size_setIfInBounds, hsize]
  · rw [read_setIfInBounds hpos.le (by omega) (by omega)]
    obtain rfl | hne := eq_or_ne j k
    · have hlast : ¬Covers j (j + Int.land j (-j)) := fun hcovers => hnext.not_ge hcovers.2
      rw [if_pos rfl, if_pos ⟨h.above j hj hjn hself, hlast⟩]
    · have hsame : Covers j k ↔ Covers j (k + Int.land k (-k)) := by
        rw [covers_iff (by omega) hpos, or_iff_right hne]
      simp only [if_neg hne, h.node j hj hjn, hsame]
  · exact h.above j hj hjn ((covers_iff (by omega) hpos).mpr (.inr hcovers))

theorem update_spec (h : Tree n data made) (hn : n < 2 ^ 30) (hmade : made.length + 1 < 2 ^ 31)
    (hp : 1 ≤ p) (hpn : p ≤ n) (hfuel : n < fuel) :
    ∃ data', update fuel n data p = some data' ∧ Tree n data' (p :: made) := by
  refine loop_total (fun s : Array Int × Int => Updating n made p s.1 s.2)
    (fun s => (n + 1 - s.2).toNat) ?_ ?_ (by dsimp only; omega)
  · rintro ⟨data, k⟩ (hinv : Updating n made p data k)
    have hpos := hinv.pos
    obtain hkn | hnk := le_or_gt k n
    · obtain ⟨hread, hnext⟩ := hinv.next hkn
      have hcount : nodeCount made k ≤ made.length := nodeCount_le_length made k
      have hcount' : 0 ≤ nodeCount made k := nodeCount_nonneg made k
      obtain ⟨t, ht⟩ := exists_lowBit hpos
      have hlow := land_neg ht hpos
      have hle := ht.le hpos
      have hlowpos : (0 : Int) < 2 ^ t := by positivity
      refine .inr ⟨(data.setIfInBounds k.toNat (nodeCount made k + 1), k + Int.land k (-k)), ?_,
        hnext, by dsimp only; omega⟩
      rw [updateRound, if_pos hkn, hread, Option.bind_eq_bind, Option.bind_some,
        signed_eq (by omega) (by omega), Option.bind_some, signed_eq (by omega) (by omega)]
      rfl
    · refine .inl ⟨data, if_neg (not_le.mpr hnk), hinv.size, fun j hj hjn => ?_⟩
      have hout : ¬Covers j k := fun hcovers => by
        have := hcovers.2
        omega
      rw [hinv.node j hj hjn, nodeCount_cons]
      simp only [hout, not_false_eq_true, and_true]
  · refine ⟨by omega, h.size, fun j hj hjn => ?_, fun j _ _ hcovers => hcovers⟩
    rw [h.node j hj hjn, if_neg fun hnot => hnot.2 hnot.1, add_zero]

theorem query_spec (h : Tree n data made) (hn : n < 2 ^ 30) (hmade : made.length < 2 ^ 31)
    (hk : 0 ≤ k) (hkn : k ≤ n) (hfuel : n < fuel) :
    query fuel data k = some (prefixCount made k) := by
  have hloop : ∃ sum, query fuel data k = some sum ∧ sum = prefixCount made k := by
    refine loop_total (fun s : Int × Int => 0 ≤ s.1 ∧ 0 ≤ s.2 ∧ s.2 ≤ n ∧
      s.1 + prefixCount made s.2 = prefixCount made k) (fun s => s.2.toNat) ?_
      ⟨le_rfl, hk, hkn, zero_add _⟩ (by dsimp only; omega)
    rintro ⟨sum, c⟩ ⟨hsum, hc, hcn, hinv⟩
    dsimp only at hsum hc hcn hinv
    obtain hpos | hzero := lt_or_eq_of_le hc
    · have hnode := nodeCount_nonneg made c
      have hless := prefixCount_le_length made k
      have hrest := prefixCount_nonneg made (c - Int.land c (-c))
      rw [prefixCount_eq hpos, ← add_assoc] at hinv
      obtain ⟨t, ht⟩ := exists_lowBit hpos
      have hlow := land_neg ht hpos
      have hle := ht.le hpos
      have hlowpos : (0 : Int) < 2 ^ t := by positivity
      refine .inr ⟨(sum + nodeCount made c, c - Int.land c (-c)), ?_,
        ⟨by dsimp only; omega, by dsimp only; omega, by dsimp only; omega, hinv⟩,
        by dsimp only; omega⟩
      rw [queryRound, if_pos hpos, h.node c hpos hcn, Option.bind_eq_bind, Option.bind_some,
        signed_eq (by omega) (by omega), Option.bind_some, signed_eq (by omega) (by omega)]
      rfl
    · rw [← hzero, prefixCount_of_nonpos le_rfl, add_zero] at hinv
      exact .inl ⟨sum, if_neg hzero.not_lt, hinv⟩
  obtain ⟨sum, hrun, rfl⟩ := hloop
  exact hrun

/-- The tree holds the updates in the order from the latest to the first. -/
theorem updates_spec (h : Tree n data made) (hn : n < 2 ^ 30) (hfuel : n < fuel) (ps : List Int)
    (hps : ∀ p ∈ ps, 1 ≤ p ∧ p ≤ n) (hmade : made.length + ps.length < 2 ^ 31) :
    ∃ data', ps.foldlM (update fuel n) data = some data' ∧ Tree n data' (ps.reverse ++ made) := by
  induction ps generalizing data made with
  | nil => exact ⟨data, rfl, h⟩
  | cons p ps ih =>
      rw [List.length_cons] at hmade
      obtain ⟨hp, hpn⟩ := hps p List.mem_cons_self
      obtain ⟨mid, hupdate, htree⟩ := update_spec h hn (by omega) hp hpn hfuel
      obtain ⟨data', hrest, htree'⟩ := ih htree (fun q hq => hps q (List.mem_cons_of_mem p hq))
        (by rw [List.length_cons]; omega)
      refine ⟨data', ?_, ?_⟩
      · rw [List.foldlM_cons, hupdate]
        exact hrest
      · rwa [List.reverse_cons, List.append_assoc]

/-! ## The ranks -/

variable {all tt : List Int} {m : Int → Int}

/-- Each value is written once, so it keeps the position that it has in the list. -/
theorem ranks_spec (hnodup : all.Nodup) :
    ∃ m, ranks all all.length = some m ∧ ∀ (i : Nat) v, all[i]? = some v → m v = i + 1 := by
  have hloop : ∃ m, ranks all all.length = some m ∧
      ∀ (i : Nat) v, i < max 0 all.length → all[i]? = some v → m v = i + 1 := by
    apply forRange_rule fun k (m : Int → Int) => ∀ (i : Nat) v, i < k → all[i]? = some v → m v = i + 1
    · intro i v hi
      exact absurd hi (Nat.not_lt_zero i)
    · intro k m _ hk hbefore
      rw [Int.toNat_natCast] at hk
      refine ⟨_, by rw [List.getElem?_eq_getElem hk]; rfl, fun i v hi hv => ?_⟩
      obtain ⟨hlt, rfl⟩ := List.getElem?_eq_some_iff.mp hv
      obtain rfl | hne := eq_or_ne i k
      · exact Function.update_self ..
      · have hother : all[i] ≠ all[k] := fun hsame => hne ((hnodup.getElem_inj_iff).mp hsame)
        rw [Function.update_of_ne hother]
        exact hbefore i _ (by omega) hv
  obtain ⟨m, hm, hrank⟩ := hloop
  refine ⟨m, hm, fun i v hv => ?_⟩
  obtain ⟨hlt, -⟩ := List.getElem?_eq_some_iff.mp hv
  exact hrank i v (by omega) hv

/-- The ranks of the values are in the order of the values. -/
structure Ranked (all : List Int) (m : Int → Int) : Prop where
  pos : ∀ v ∈ all, 1 ≤ m v
  le : ∀ v ∈ all, m v ≤ all.length
  lt_iff : ∀ v ∈ all, ∀ w ∈ all, m w ≤ m v - 1 ↔ w < v

theorem ranked (h : all.Pairwise (· < ·)) :
    ∃ m, ranks all all.length = some m ∧ Ranked all m := by
  obtain ⟨m, hm, hrank⟩ := ranks_spec (h.imp fun hlt => hlt.ne)
  have hread : ∀ v ∈ all, ∃ i, ∃ hi : i < all.length, all[i] = v ∧ m v = i + 1 := by
    intro v hv
    obtain ⟨i, hi, rfl⟩ := List.mem_iff_getElem.mp hv
    exact ⟨i, hi, rfl, hrank i _ (List.getElem?_eq_getElem hi)⟩
  refine ⟨m, hm, fun v hv => ?_, fun v hv => ?_, fun v hv w hw => ?_⟩
  · obtain ⟨i, hi, -, hmv⟩ := hread v hv
    omega
  · obtain ⟨i, hi, -, hmv⟩ := hread v hv
    omega
  · obtain ⟨i, hi, rfl, hmv⟩ := hread v hv
    obtain ⟨j, hj, rfl, hmw⟩ := hread w hw
    rw [hmv, hmw]
    have hup := List.pairwise_iff_getElem.mp h
    obtain hlt | rfl | hgt := lt_trichotomy j i
    · exact iff_of_true (by omega) (hup j i hj hi hlt)
    · exact iff_of_false (by omega) (lt_irrefl _)
    · exact iff_of_false (by omega) (hup i j hi hj hgt).not_gt

theorem pairwise_sorted (hnodup : tt.Nodup) :
    (tt.mergeSort fun x y => x ≤ y).Pairwise (· < ·) := by
  have hsorted : (tt.mergeSort fun x y => x ≤ y).Pairwise (· ≤ ·) :=
    List.pairwise_mergeSort' (· ≤ ·) tt
  have hdistinct : (tt.mergeSort fun x y => x ≤ y).Nodup :=
    (List.mergeSort_perm tt _).nodup_iff.mpr hnodup
  exact (hsorted.and hdistinct).imp fun ⟨hle, hne⟩ => lt_of_le_of_ne hle hne

/-! ## The scan from the right -/

/-- The places from `i + 1` on have their answers, and the tree their ranks. -/
structure Scanned (a : Array Int) (n : Int) (m : Int → Int) (s : State) : Prop where
  low : -1 ≤ s.i
  high : s.i < a.size
  size : s.ans.size = a.size
  tree : Tree n s.data ((a.toList.drop (s.i + 1).toNat).map m)
  answered : ∀ (j : Nat) x, s.i < j → a[j]? = some x →
    s.ans[j]? = some ((a.toList.drop (j + 1)).countP (· < x) : Int)

variable {a : Array Int} {s : State}

/-- The updates so far at smaller ranks are the smaller values on the right. -/
theorem prefixCount_ranks {x : Int} {rest : List Int} (hm : Ranked all m) (hx : x ∈ all)
    (hrest : ∀ w ∈ rest, w ∈ all) :
    prefixCount ((x :: rest).map m) (m x - 1) = (rest.countP (· < x) : Int) := by
  have hsame : ((x :: rest).countP fun w => 1 ≤ m w ∧ m w ≤ m x - 1) = rest.countP (· < x) := by
    rw [List.countP_cons_of_neg (by rw [decide_eq_true_eq]; omega)]
    refine List.countP_congr fun w hw => ?_
    rw [decide_eq_true_eq, decide_eq_true_eq, hm.lt_iff x hx w (hrest w hw)]
    exact and_iff_right (hm.pos w (hrest w hw))
  rw [prefixCount, List.countP_map]
  exact congrArg Int.ofNat hsame

theorem Scanned.next (h : Scanned a all.length m s) (hi : 0 ≤ s.i) (hm : Ranked all m)
    (hmem : ∀ x ∈ a, x ∈ all) (hn : all.length < 2 ^ 30) (hsize : a.size < 2 ^ 31)
    (hfuel : all.length < fuel) :
    ∃ s', round fuel all.length m a s = some (.inl s') ∧ s'.i = s.i - 1 ∧
      Scanned a all.length m s' := by
  obtain ⟨data, ans, i⟩ := s
  dsimp only at hi
  lift i to Nat using hi
  have hlt : i < a.size := by
    have := h.high
    dsimp only at this
    omega
  have hx : a[i] ∈ all := hmem _ (Array.getElem_mem hlt)
  have hpos := hm.pos _ hx
  have hle := hm.le _ hx
  have htree := h.tree
  have hcast : ((i : Int) + 1).toNat = i + 1 := by omega
  have hdrop : a.toList.drop i = a[i] :: a.toList.drop (i + 1) :=
    List.drop_eq_getElem_cons (by rwa [Array.length_toList])
  dsimp only at htree
  rw [hcast] at htree
  have hlength : ((a.toList.drop (i + 1)).map m).length + 1 < 2 ^ 31 := by
    rw [List.length_map, List.length_drop, Array.length_toList]
    omega
  have hfuel' : (all.length : Int) < fuel := by omega
  obtain ⟨data', hupdate, htree'⟩ := update_spec htree (by omega) hlength hpos hle hfuel'
  rw [← List.map_cons] at htree'
  have hquery := query_spec htree' (by omega) hlength (by omega : 0 ≤ m a[i] - 1) (by omega) hfuel'
  rw [prefixCount_ranks hm hx fun w hw => hmem w
    (Array.mem_toList_iff.mp (List.mem_of_mem_drop hw))] at hquery
  have hread : read a i = some a[i] := by
    rw [read, if_pos (Int.natCast_nonneg i), Int.toNat_natCast, Array.getElem?_eq_getElem hlt]
  refine ⟨{
    data := data'
    ans := ans.setIfInBounds i ((a.toList.drop (i + 1)).countP (· < a[i]))
    i := i - 1 }, ?_, rfl, ?_⟩
  · rw [round, if_pos (Int.natCast_nonneg i), hread, Option.bind_eq_bind, Option.bind_some, hupdate,
      Option.bind_eq_bind, Option.bind_some, hquery]
    rfl
  constructor
  case low => dsimp only; omega
  case high => dsimp only; omega
  case size => exact Array.size_setIfInBounds.trans h.size
  case tree =>
    have hback : ((i : Int) - 1 + 1).toNat = i := by omega
    dsimp only
    rwa [hback, hdrop]
  case answered =>
    intro j x hj hjx
    dsimp only at hj ⊢
    have hans : ans.size = a.size := h.size
    rw [Array.getElem?_setIfInBounds]
    obtain rfl | hne := eq_or_ne i j
    · rw [Array.getElem?_eq_getElem hlt, Option.some_inj] at hjx
      rw [if_pos rfl, if_pos (hans ▸ hlt), hjx]
    · rw [if_neg hne]
      exact h.answered j x (by dsimp only; omega) hjx

theorem Scanned.start (htree : Tree n data []) :
    Scanned a n m { data, ans := Array.replicate a.size 0, i := a.size - 1 } where
  low := by dsimp only; omega
  high := by dsimp only; omega
  size := Array.size_replicate
  tree := by
    have hend : ((a.size : Int) - 1 + 1).toNat = a.size := by omega
    dsimp only
    rw [hend, ← Array.length_toList, List.drop_length]
    exact htree
  answered j x hj hjx := by
    obtain ⟨hlt, -⟩ := Array.getElem?_eq_some_iff.mp hjx
    dsimp only at hj
    omega

/-- The scan ends before the first place. -/
theorem scan_spec (h : Scanned a all.length m s) (hm : Ranked all m) (hmem : ∀ x ∈ a, x ∈ all)
    (hn : all.length < 2 ^ 30) (hsize : a.size < 2 ^ 31) (hlength : all.length < fuel)
    (hfuel : a.size < fuel) :
    ∃ ans, loop (round fuel all.length m a) fuel s = some ans ∧ ans.size = a.size ∧
      ∀ (i : Nat) x, a[i]? = some x →
        ans[i]? = some ((a.toList.drop (i + 1)).countP (· < x) : Int) := by
  apply loop_total (Scanned a all.length m) fun s => (s.i + 1).toNat
  · intro s hs
    have hlow := hs.low
    obtain hi | hi := lt_or_ge s.i 0
    · refine .inl ⟨s.ans, if_neg hi.not_ge, hs.size, fun i x hx => ?_⟩
      exact hs.answered i x (by omega) hx
    · obtain ⟨s', hround, hless, hs'⟩ := hs.next hi hm hmem hn hsize hlength
      exact .inr ⟨s', hround, hs', by omega⟩
  · exact h
  · have := h.high
    omega

/-- The tree answers for every sequence of updates; the values on the right are counted. -/
theorem countSmaller_spec (fuel : Nat) (tt : List Int) (a : Array Int) (hnodup : tt.Nodup)
    (hmem : ∀ x, x ∈ tt ↔ x ∈ a) (hn : tt.length < 2 ^ 30) (hsize : a.size < 2 ^ 31)
    (hfuel : a.size + 1 < fuel) :
    (∃ ans, countSmaller fuel tt a = some ans ∧ ans.size = a.size ∧
      ∀ (i : Nat) x, a[i]? = some x →
        ans[i]? = some ((a.toList.drop (i + 1)).countP (· < x) : Int)) ∧
    ∀ made : List Int, (∀ p ∈ made, 1 ≤ p ∧ p ≤ tt.length) → made.length < 2 ^ 31 →
      ∃ data, ((init tt.length).bind fun data => made.foldlM (update fuel tt.length) data) =
          some data ∧
        ∀ k : Int, 0 ≤ k → k ≤ tt.length →
          query fuel data k = some (made.countP (fun p => 1 ≤ p ∧ p ≤ k) : Int) := by
  have hlength : (tt.mergeSort fun x y => x ≤ y).length = tt.length := List.length_mergeSort tt
  obtain ⟨data, hinit, htree⟩ := init_spec (n := tt.length) (Int.natCast_nonneg _) (by omega)
  have hcount : tt.length ≤ a.size := by
    rw [← Array.length_toList]
    exact (hnodup.subperm fun x hx => Array.mem_toList_iff.mpr ((hmem x).mp hx)).length_le
  constructor
  · obtain ⟨m, hranks, hm⟩ := ranked (pairwise_sorted hnodup)
    have hall : ∀ x ∈ a, x ∈ tt.mergeSort fun x y => x ≤ y := fun x hx =>
      List.mem_mergeSort.mpr ((hmem x).mpr hx)
    have hstart := Scanned.start (a := a) (m := m) (hlength.symm ▸ htree)
    rw [countSmaller, natCast_bmod (by omega), natCast_bmod hsize, hlength, hinit,
      Option.bind_eq_bind, Option.bind_some, ← hlength, hranks, Option.bind_eq_bind,
      Option.bind_some, signed_eq (by omega) (by omega), Option.bind_eq_bind, Option.bind_some]
    exact scan_spec hstart hm hall (by omega) hsize (by omega) (by omega)
  · intro made hmade hless
    obtain ⟨data', hrun, htree'⟩ := updates_spec htree (by omega) (by omega : _ < (fuel : Int))
      made hmade (by rwa [List.length_nil, zero_add])
    refine ⟨data', by rwa [hinit], fun k hk hkn => ?_⟩
    rw [List.append_nil] at htree'
    rw [query_spec htree' (by omega) (by rwa [List.length_reverse]) hk hkn (by omega), prefixCount,
      List.countP_reverse]

theorem countSmaller_spec_twice :
    (∃ ans, countSmaller 6 [5, 2] #[5, 2, 5] = some ans ∧ ans.size = 3 ∧
      ∀ (i : Nat) (x : Int), #[5, 2, 5][i]? = some x →
        ans[i]? = some (([5, 2, 5].drop (i + 1)).countP (· < x) : Int)) ∧
    ∀ made : List Int, (∀ p ∈ made, 1 ≤ p ∧ p ≤ 2) → made.length < 2 ^ 31 →
      ∃ data, ((init 2).bind fun data => made.foldlM (update 6 2) data) = some data ∧
        ∀ k : Int, 0 ≤ k → k ≤ 2 →
          query 6 data k = some (made.countP (fun p => 1 ≤ p ∧ p ≤ k) : Int) :=
  countSmaller_spec 6 [5, 2] #[5, 2, 5] (by decide) (by simp; grind) (by decide) (by decide)
    (by decide)

/-! ## Too many values -/

/-- The next node after `2 ^ 30` leaves the `int` range. -/
theorem update_overflow (h : 2 ^ 30 ≤ n) : update fuel n data (2 ^ 30) = none := by
  cases fuel with
  | zero => rfl
  | succ fuel =>
      have hlow : Int.land (2 ^ 30) (-2 ^ 30) = 2 ^ 30 := land_neg ⟨0, rfl⟩ (by decide)
      have hround : updateRound n (data, 2 ^ 30) = none := by
        rw [updateRound, if_pos h, Option.eq_none_iff_forall_ne_some]
        intro next hnext
        obtain ⟨y, -, hnext⟩ := Option.bind_eq_some_iff.mp hnext
        obtain ⟨y', -, hnext⟩ := Option.bind_eq_some_iff.mp hnext
        obtain ⟨k', hk', -⟩ := Option.bind_eq_some_iff.mp hnext
        rw [hlow] at hk'
        cases hk'
      rw [update, loop, hround, Option.bind_none]

theorem round_overflow {ans : Array Int} {i x : Int} (hn : 2 ^ 30 ≤ n) (hi : 0 ≤ i)
    (hread : read a i = some x) (hx : m x = 2 ^ 30) : round fuel n m a { data, ans, i } = none := by
  rw [round, if_pos hi, hread, Option.bind_eq_bind, Option.bind_some, hx, update_overflow hn]
  rfl

theorem sorted_range (count : Nat) (hnodup : tt.Nodup)
    (hmem : ∀ x, x ∈ tt ↔ ∃ i < count, (i : Int) = x) :
    (tt.mergeSort fun x y => x ≤ y) = (List.range count).map fun i : Nat => (i : Int) := by
  have hnodup' : ((List.range count).map fun i : Nat => (i : Int)).Nodup :=
    List.nodup_range.map Nat.cast_injective
  have hperm : tt.Perm ((List.range count).map fun i : Nat => (i : Int)) := by
    rw [List.perm_ext_iff_of_nodup hnodup hnodup']
    intro x
    rw [hmem, List.mem_map]
    simp only [List.mem_range]
  refine ((List.mergeSort_perm tt _).trans hperm).eq_of_pairwise' (pairwise_sorted hnodup) ?_
  rw [List.pairwise_map]
  exact List.pairwise_lt_range.imp Int.ofNat_lt.mpr

/-- A value for each of `2 ^ 30` positions, and more places than an `int` has numbers. -/
theorem countSmaller_overflow :
    (∀ fuel tt, tt.Nodup →
      (∀ x, x ∈ tt ↔ x ∈ Array.ofFn fun i : Fin (2 ^ 30) => (i : Int)) →
        countSmaller fuel tt (Array.ofFn fun i : Fin (2 ^ 30) => (i : Int)) = none) ∧
    ∀ fuel tt, countSmaller fuel tt (Array.replicate (2 ^ 31) 0) = none := by
  constructor
  · intro fuel tt hnodup hmem
    have hall := sorted_range (2 ^ 30) hnodup fun x => by
      rw [hmem, Array.mem_ofFn]
      exact ⟨fun ⟨i, hi⟩ => ⟨i, i.isLt, hi⟩, fun ⟨i, hi, hx⟩ => ⟨⟨i, hi⟩, hx⟩⟩
    have hlength : (tt.mergeSort fun x y => x ≤ y).length = 2 ^ 30 := by
      rw [hall, List.length_map, List.length_range]
    have hlast : (tt.mergeSort fun x y => x ≤ y)[2 ^ 30 - 1]? = some (2 ^ 30 - 1) := by
      rw [hall, List.getElem?_map, List.getElem?_range (by decide)]
      rfl
    obtain ⟨m, hranks, hrank⟩ := ranks_spec ((pairwise_sorted hnodup).imp fun hlt => hlt.ne)
    have htop : m (2 ^ 30 - 1) = 2 ^ 30 := hrank _ _ hlast
    have hwrap : ((2 ^ 30 : Nat) : Int).bmod (2 ^ 32) = 2 ^ 30 := by decide
    have hwrap' : signed 32 (((2 ^ 30 : Nat) : Int).bmod (2 ^ 32) - 1) = some (2 ^ 30 - 1) := by
      decide
    rw [hlength] at hranks
    rw [countSmaller, hlength, hwrap, Array.size_ofFn, hwrap', Option.eq_none_iff_forall_ne_some]
    intro result hresult
    obtain ⟨data, -, hresult⟩ := Option.bind_eq_some_iff.mp hresult
    obtain ⟨m', hm', hresult⟩ := Option.bind_eq_some_iff.mp hresult
    obtain rfl : m = m' := Option.some.inj (hranks.symm.trans hm')
    rw [Option.bind_eq_bind, Option.bind_some] at hresult
    cases fuel with
    | zero => cases hresult
    | succ fuel =>
        have hread : read (Array.ofFn fun i : Fin (2 ^ 30) => (i : Int)) (2 ^ 30 - 1) =
            some (2 ^ 30 - 1) := by
          rw [read, if_pos (by decide), Array.getElem?_ofFn, dif_pos (by decide)]
          rfl
        rw [loop, round_overflow le_rfl (by decide) hread htop] at hresult
        cases hresult
  · intro fuel tt
    have hwrap : signed 32 (((2 ^ 31 : Nat) : Int).bmod (2 ^ 32) - 1) = none := by decide
    rw [countSmaller, Array.size_replicate, hwrap, Option.eq_none_iff_forall_ne_some]
    intro result hresult
    obtain ⟨data, -, hresult⟩ := Option.bind_eq_some_iff.mp hresult
    obtain ⟨m, -, hresult⟩ := Option.bind_eq_some_iff.mp hresult
    cases hresult

end CountSmaller

end MoreCpp
