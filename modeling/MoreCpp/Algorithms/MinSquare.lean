import MoreCpp.Library.Cells
import MoreCpp.Library.LayeredSearch
import MoreCpp.Library.Loop
import MoreCpp.Library.SignedInt

/-!
`min_square` and `min_square_bfs` of `algorithms/dp/dp.cpp`. `none` is an `int` that overflows,
an index out of range, or a loop that `fuel` rounds do not end.
-/

namespace MoreCpp

open Library

namespace MinSquare

section

variable {S : Type}

def squareRound (v : Nat) (body : Nat → S → Option S) : Nat × S → Option ((Nat × S) ⊕ S)
  | (x, s) => do
    let square ← signedNat 32 (x * x)
    if square ≤ v then
      let s ← body x s
      return .inl (x + 1, s)
    else return .inr s

/-- `for (x = 1; x * x <= v; x++)`. -/
def forSquares (fuel v : Nat) (body : Nat → S → Option S) (s : S) : Option S :=
  loop (squareRound v body) fuel (1, s)

end

/-- A turn of the loop over `x` in `min_square`. -/
def relax (i x : Nat) (dp : List Nat) : Option (List Nat) := do
  let a ← dp[i]?
  let b ← dp[i - x * x]?
  let b ← signedNat 32 (b + 1)
  store dp i (min a b)

/-- A turn of the loop over `i`. -/
def fillCell (fuel i : Nat) (dp : List Nat) : Option (List Nat) := do
  let dp ← store dp i i
  forSquares fuel i (relax i) dp

def minSquare (fuel n : Nat) : Option Nat := do
  let size ← signedNat 32 (n + 1)
  let dp ← store (List.replicate size 0) 0 0
  let dp ← store dp 1 1
  let dp ← forRange 2 (n + 1) (fillCell fuel) dp
  dp[n]?

structure State where
  q : List (Nat × Nat)
  vis : List Bool

/-- A turn of the loop over `x` in `min_square_bfs`. -/
def visit (v step x : Nat) (s : State) : Option State := do
  let y := v - x * x
  let seen ← s.vis[y]?
  if seen then return s
  else
    let vis ← store s.vis y true
    let step ← signedNat 32 (step + 1)
    return { q := s.q ++ [(y, step)], vis }

/-- A turn of `while (!q.empty())`. -/
def round (fuel : Nat) (s : State) : Option (State ⊕ Int) :=
  match s.q with
  | [] => some (.inr (-1))
  | (v, step) :: rest =>
    if v = 0 then some (.inr step)
    else do
      let s ← forSquares fuel v (visit v step) { s with q := rest }
      return .inl s

def minSquareBfs (fuel n : Nat) : Option Int := do
  let size ← signedNat 32 (n + 1)
  let vis ← store (List.replicate size false) n true
  loop (round fuel) fuel { q := [(n, 0)], vis }

/-- A sum of `k` positive squares. -/
def SquareSum (n k : Nat) : Prop :=
  ∃ xs : List Nat, xs.length = k ∧ (∀ x ∈ xs, 0 < x) ∧ (xs.map fun x => x * x).sum = n

variable {n k i v x fuel : Nat}

/-! ## Sums of squares -/

theorem squareSum_zero : SquareSum 0 0 := ⟨[], rfl, fun _ h => absurd h List.not_mem_nil, rfl⟩

theorem squareSum_succ :
    SquareSum n (k + 1) ↔ ∃ x, 0 < x ∧ x * x ≤ n ∧ SquareSum (n - x * x) k := by
  constructor
  · rintro ⟨xs, hlength, hpos, hsum⟩
    obtain _ | ⟨x, xs⟩ := xs
    · cases hlength
    · rw [List.map_cons, List.sum_cons] at hsum
      refine ⟨x, hpos x List.mem_cons_self, by omega, xs, Nat.succ.inj hlength,
        fun y hy => hpos y (List.mem_cons_of_mem x hy), by omega⟩
  · rintro ⟨x, hx, hle, xs, hlength, hpos, hsum⟩
    refine ⟨x :: xs, congrArg (· + 1) hlength, List.forall_mem_cons.mpr ⟨hx, hpos⟩, ?_⟩
    rw [List.map_cons, List.sum_cons, hsum]
    omega

theorem squareSum_self (n : Nat) : SquareSum n n := by
  induction n with
  | zero => exact squareSum_zero
  | succ n ih => exact squareSum_succ.mpr ⟨1, Nat.one_pos, Nat.succ_pos n, ih⟩

theorem SquareSum.le (h : SquareSum n k) : k ≤ n := by
  induction k generalizing n with
  | zero => exact Nat.zero_le n
  | succ k ih =>
      obtain ⟨x, hx, hle, hrest⟩ := squareSum_succ.mp h
      have hpos := Nat.mul_pos hx hx
      have hk := ih hrest
      omega

theorem SquareSum.pos (h : SquareSum n k) (hn : 0 < n) : 0 < k := by
  obtain ⟨xs, rfl, -, rfl⟩ := h
  obtain _ | ⟨x, xs⟩ := xs
  · exact absurd hn (Nat.lt_irrefl 0)
  · exact Nat.succ_pos _

/-! ## The loop over squares -/

section

variable {S : Type} {body : Nat → S → Option S} {s : S}

theorem root_le (h : x * x < 2 ^ 31) : x + 1 ≤ 46341 := by
  have hless : x * x < 46341 * 46341 := h.trans_le (by decide)
  exact Nat.mul_self_lt_mul_self_iff.mp hless

theorem squareRound_inl {r : Nat × S} (h : squareRound v body (x, s) = some (.inl r)) :
    x * x < 2 ^ 31 ∧ x * x ≤ v ∧ ∃ s', body x s = some s' ∧ r = (x + 1, s') := by
  obtain ⟨square, hsquare, h⟩ := Option.bind_eq_some_iff.mp h
  obtain ⟨rfl, hfits⟩ := of_signedNat hsquare
  split at h
  case isTrue hle =>
    obtain ⟨s', hbody, h⟩ := Option.bind_eq_some_iff.mp h
    exact ⟨hfits, hle, s', hbody, (Sum.inl.inj (Option.some.inj h)).symm⟩
  case isFalse => cases h

theorem squareRound_inr {s' : S} (h : squareRound v body (x, s) = some (.inr s')) :
    x * x < 2 ^ 31 ∧ v < x * x := by
  obtain ⟨square, hsquare, h⟩ := Option.bind_eq_some_iff.mp h
  obtain ⟨rfl, hfits⟩ := of_signedNat hsquare
  split at h
  case isTrue =>
    obtain ⟨s'', -, h⟩ := Option.bind_eq_some_iff.mp h
    cases h
  case isFalse hlarge => exact ⟨hfits, not_le.mp hlarge⟩

/-- Below `46340 * 46340` the first square that is too large fits in an `int`. -/
theorem forSquares_rule (Inv : Nat → S → Prop) (hv : v < 46340 * 46340) (hfuel : v < fuel)
    (hstart : Inv 1 s) (hturn : ∀ x s, 0 < x → x * x ≤ v → Inv x s →
      ∃ s', body x s = some s' ∧ Inv (x + 1) s') :
    ∃ s', forSquares fuel v body s = some s' ∧ ∃ x, v < x * x ∧ Inv x s' := by
  apply loop_total (fun r : Nat × S => 0 < r.1 ∧ r.1 ≤ v + 1 ∧ r.1 ≤ 46340 ∧ Inv r.1 r.2)
    (fun r => v + 1 - r.1)
  · rintro ⟨x, s⟩ ⟨hpos, hle, hsmall, hinv⟩
    dsimp only at hpos hle hsmall hinv
    have hfits : signedNat 32 (x * x) = some (x * x) :=
      signedNat_eq ((Nat.mul_le_mul hsmall hsmall).trans_lt (by decide))
    by_cases hsquare : x * x ≤ v
    · right
      obtain ⟨s', hbody, hinv'⟩ := hturn x s hpos hsquare hinv
      have hroot : x < 46340 := Nat.mul_self_lt_mul_self_iff.mp (hsquare.trans_lt hv)
      have hroot' : x ≤ v := (Nat.le_mul_self x).trans hsquare
      refine ⟨(x + 1, s'), by simp [squareRound, hfits, hsquare, hbody],
        ⟨Nat.succ_pos x, by omega, hroot, hinv'⟩, ?_⟩
      dsimp only
      omega
    · left
      exact ⟨s, by simp [squareRound, hfits, hsquare], x, not_le.mp hsquare, hinv⟩
  · exact ⟨Nat.one_pos, Nat.succ_pos v, Nat.succ_pos 46339, hstart⟩
  · dsimp only
    omega

/-- From there on `46341 * 46341` overflows. -/
theorem forSquares_overflow (hv : 46340 * 46340 ≤ v) : forSquares fuel v body s = none := by
  rw [Option.eq_none_iff_forall_not_mem]
  intro s' hrun
  refine loop_invariant (fun r : Nat × S => r.1 ≤ 46341) (fun _ => False) ?_ ?_
    (Nat.succ_le_succ (Nat.zero_le 46340)) hrun
  · rintro ⟨x, s⟩ r hle hbody
    obtain ⟨hfits, -, s', -, rfl⟩ := squareRound_inl hbody
    exact root_le hfits
  · rintro ⟨x, s⟩ s' hle hbody
    obtain ⟨hfits, hlarge⟩ := squareRound_inr hbody
    have hroot := root_le hfits
    have hsquare : x * x ≤ 46340 * 46340 := Nat.mul_le_mul (by omega) (by omega)
    omega

end

/-! ## The table -/

def Least (n k : Nat) : Prop := IsLeast {k | SquareSum n k} k

theorem Least.le_self (h : Least n k) : k ≤ n := h.2 (squareSum_self n)

theorem least_zero : Least 0 0 := ⟨squareSum_zero, fun _ _ => Nat.zero_le _⟩

theorem least_one : Least 1 1 := ⟨squareSum_self 1, fun _ h => SquareSum.pos h Nat.one_pos⟩

/-- `k` is the least for `i` among the sums that begin with a square below `x`. -/
structure LeastBelow (i x k : Nat) : Prop where
  sum : SquareSum i k
  le : ∀ y k', 0 < y → y < x → y * y ≤ i → SquareSum (i - y * y) k' → k ≤ k' + 1

theorem LeastBelow.first (i : Nat) : LeastBelow i 1 i where
  sum := squareSum_self i
  le _ _ hpos hless := absurd hpos (by omega)

theorem LeastBelow.next {a b : Nat} (h : LeastBelow i x a) (hpos : 0 < x) (hx : x * x ≤ i)
    (hb : Least (i - x * x) b) : LeastBelow i (x + 1) (min a (b + 1)) := by
  refine ⟨?_, fun y k hy hless hle hk => ?_⟩
  · obtain hmin | hmin := Nat.le_total a (b + 1)
    · rw [Nat.min_eq_left hmin]
      exact h.sum
    · rw [Nat.min_eq_right hmin]
      exact squareSum_succ.mpr ⟨x, hpos, hx, hb.1⟩
  · obtain hlt | rfl := Nat.lt_succ_iff_lt_or_eq.mp hless
    · exact (Nat.min_le_left _ _).trans (h.le y k hy hlt hle hk)
    · exact (Nat.min_le_right _ _).trans (Nat.succ_le_succ (hb.2 hk))

theorem LeastBelow.least {a : Nat} (h : LeastBelow i x a) (hi : 0 < i) (hx : i < x * x) :
    Least i a := by
  refine ⟨h.sum, fun k hk => ?_⟩
  obtain ⟨k, rfl⟩ := Nat.exists_eq_add_of_lt (SquareSum.pos hk hi)
  rw [Nat.zero_add] at hk ⊢
  obtain ⟨y, hy, hle, hrest⟩ := squareSum_succ.mp hk
  exact h.le y k hy (Nat.mul_self_lt_mul_self_iff.mp (hle.trans_lt hx)) hle hrest

/-- The entries below `i` are done, and that at `i` from the squares below `x`. -/
def Entry (i x j a : Nat) : Prop := (j < i → Least j a) ∧ (j = i → LeastBelow i x a)

theorem relax_spec {dp : List Nat} (hdp : Each dp (n + 1) (Entry i x)) (hin : i < n + 1)
    (hn : n + 1 < 2 ^ 31) (hpos : 0 < x) (hx : x * x ≤ i) :
    ∃ dp', relax i x dp = some dp' ∧ Each dp' (n + 1) (Entry i (x + 1)) := by
  obtain ⟨a, ha, -, hbest⟩ := hdp.read i hin
  have hless : i - x * x < i := by
    have hsquare := Nat.mul_pos hpos hpos
    omega
  obtain ⟨b, hb, hleast, -⟩ := hdp.read (i - x * x) (hless.trans hin)
  have hfits : signedNat 32 (b + 1) = some (b + 1) := signedNat_eq (by
    have hle := (hleast hless).le_self
    omega)
  obtain ⟨dp', hstore, hdp'⟩ := hdp.update (Q := Entry i (x + 1)) hin
    ⟨fun hlt => absurd hlt (Nat.lt_irrefl i), fun _ => (hbest rfl).next hpos hx (hleast hless)⟩
    fun j c _ hne h => ⟨h.1, fun heq => absurd heq hne⟩
  exact ⟨dp', by simp [relax, ha, hb, hfits, hstore], hdp'⟩

theorem minSquare_least (hn : 1 ≤ n) (hsmall : n < 46340 * 46340) (hfuel : n < fuel) :
    ∃ k, minSquare fuel n = some k ∧ Least n k := by
  have hfits : n + 1 < 2 ^ 31 := by omega
  have hsize : signedNat 32 (n + 1) = some (n + 1) := signedNat_eq hfits
  have hempty : Each (List.replicate (n + 1) 0) (n + 1) fun j a => j < 1 → Least j a :=
    .replicate fun j _ hj => Nat.lt_one_iff.mp hj ▸ least_zero
  obtain ⟨dp, hstore, hzero⟩ := hempty.update (Nat.succ_pos n) (fun _ => least_zero)
    fun _ _ _ _ h => h
  obtain ⟨dp', hstore', hone⟩ := hzero.update (i := 1) (Q := fun j a => j < 2 → Least j a)
    (Nat.succ_lt_succ hn) (fun _ => least_one) fun j a _ hne h hj => h (by omega)
  have hloop : ∃ dp, forRange 2 (n + 1) (fillCell fuel) dp' = some dp ∧
      Each dp (n + 1) fun j a => j < max 2 (n + 1) → Least j a := by
    apply forRange_rule fun i dp => Each dp (n + 1) fun j a => j < i → Least j a
    · exact hone
    · intro i dp hi hin hdp
      obtain ⟨dp, hstore, hentry⟩ := hdp.update (Q := Entry i 1) hin
        ⟨fun hlt => absurd hlt (Nat.lt_irrefl i), fun _ => .first i⟩
        fun j a _ hne h => ⟨h, fun heq => absurd heq hne⟩
      obtain ⟨dp', hrun, x, hx, hdp'⟩ := forSquares_rule (fun x dp => Each dp (n + 1) (Entry i x))
        (show i < 46340 * 46340 by omega) (show i < fuel by omega) hentry
        fun x dp hpos hx hdp => relax_spec hdp hin hfits hpos hx
      refine ⟨dp', by rw [fillCell, hstore]; exact hrun, hdp'.mono fun j a _ h hj => ?_⟩
      obtain hlt | rfl := Nat.lt_succ_iff_lt_or_eq.mp hj
      · exact h.1 hlt
      · exact (h.2 rfl).least (by omega) hx
  obtain ⟨dp'', hrun, hdp⟩ := hloop
  obtain ⟨k, hk, hleast⟩ := hdp.read n (Nat.lt_succ_self n)
  refine ⟨k, ?_, hleast (by omega)⟩
  simp only [minSquare, hsize, Option.bind_eq_bind, Option.bind_some, hstore, hstore', hrun,
    hk]

theorem minSquare_overflow (hn : 46340 * 46340 ≤ n) : minSquare fuel n = none := by
  have hloop : ∀ dp, forRange 2 (n + 1) (fillCell fuel) dp = none := fun dp =>
    forRange_eq_none (i := n) (by omega) (Nat.lt_succ_self n) fun dp => by
      rw [fillCell]
      simp only [forSquares_overflow hn, Option.bind_eq_bind, Option.bind_fun_none]
  simp only [minSquare, hloop, Option.bind_eq_bind, Option.bind_none, Option.bind_fun_none]

/-! ## The search -/

/-- Taking squares off `n`. -/
def squares (n : Nat) : LabelledGraph Nat Nat Nat where
  Start v c := v = n ∧ c = 0
  Joins v x u := 0 < x ∧ v = u + x * x
  extend c _ := c + 1
  mono _ _ _ h := Nat.add_le_add_right h 1
  le_extend c _ := Nat.le_succ c

theorem label_iff {c : Nat} : (squares n).Label v c ↔ v ≤ n ∧ SquareSum (n - v) c := by
  constructor
  · intro h
    induction h with
    | start hs =>
        obtain ⟨rfl, rfl⟩ := hs
        exact ⟨Nat.le_refl _, by rw [Nat.sub_self]; exact squareSum_zero⟩
    | @step v c x u _ hjoins ih =>
        obtain ⟨hpos, rfl⟩ := hjoins
        have hrest : n - u - x * x = n - (u + x * x) := Nat.sub_sub ..
        exact ⟨by omega, squareSum_succ.mpr ⟨x, hpos, by omega, hrest ▸ ih.2⟩⟩
  · rintro ⟨hle, hsum⟩
    induction c generalizing v with
    | zero =>
        obtain ⟨xs, hlength, -, hsum⟩ := hsum
        rw [List.length_eq_zero_iff] at hlength
        subst hlength
        have hzero : 0 = n - v := hsum
        exact .start ⟨by omega, rfl⟩
    | succ c ih =>
        obtain ⟨x, hpos, hx, hrest⟩ := squareSum_succ.mp hsum
        rw [Nat.sub_sub] at hrest
        exact .step (e := x) (ih (by omega) hrest) ⟨hpos, rfl⟩

theorem least_iff {c : Nat} : (squares n).Least 0 c ↔ Least n c := by
  simp only [LabelledGraph.Least, Least, label_iff, Nat.zero_le, true_and, Nat.sub_zero]

def Seen (s : State) (y : Nat) : Prop := s.vis[y]? = some true

/-- What the squares below `x` make of `s`. -/
structure Visits (v step x : Nat) (s s' : State) (new : List Nat) : Prop where
  q : s'.q = s.q ++ new.map (·, step + 1)
  joins : ∀ y ∈ new, ∃ z, 0 < z ∧ v = y + z * z
  length : s'.vis.length = s.vis.length
  seen : ∀ y, Seen s' y ↔ Seen s y ∨ y ∈ new
  count : s'.vis.count false + new.length = s.vis.count false
  all : ∀ z y, 0 < z → z < x → v = y + z * z → Seen s' y

variable {step : Nat} {s s' : State} {new : List Nat}

theorem Visits.first (v step : Nat) (s : State) : Visits v step 1 s s [] where
  q := (List.append_nil _).symm
  joins _ h := absurd h List.not_mem_nil
  length := rfl
  seen _ := (or_iff_left List.not_mem_nil).symm
  count := rfl
  all _ _ hpos hless := absurd hpos (by omega)

theorem Visits.next (h : Visits v step x s s' new) (hpos : 0 < x) (hx : x * x ≤ v)
    (hv : v < s.vis.length) (hstep : step + 1 < 2 ^ 31) :
    ∃ s'', visit v step x s' = some s'' ∧ ∃ new', Visits v step (x + 1) s s'' new' := by
  have hin : v - x * x < s'.vis.length := by
    rw [h.length]
    omega
  have hread := List.getElem?_eq_getElem hin
  have hfits : signedNat 32 (step + 1) = some (step + 1) := signedNat_eq hstep
  have honly : ∀ z y, z < x + 1 → v = y + z * z → z < x ∨ y = v - x * x := by
    intro z y hz hy
    obtain hlt | rfl := Nat.lt_succ_iff_lt_or_eq.mp hz
    · exact .inl hlt
    · exact .inr (by omega)
  cases hseen : s'.vis[v - x * x] with
  | true =>
      rw [hseen] at hread
      refine ⟨s', by simp [visit, hread], new, h.q, h.joins, h.length, h.seen, h.count, ?_⟩
      intro z y hz hless hy
      obtain hlt | rfl := honly z y hless hy
      · exact h.all z y hz hlt hy
      · exact hread
  | false =>
      rw [hseen] at hread
      have hcells : ∀ y, (s'.vis.set (v - x * x) true)[y]? = some true ↔
          Seen s' y ∨ y = v - x * x := by
        intro y
        obtain rfl | hne := eq_or_ne (v - x * x) y
        · simp [hin]
        · rw [List.getElem?_set_ne hne]
          exact (or_iff_left hne.symm).symm
      have hcount : (s'.vis.set (v - x * x) true).count false + 1 = s'.vis.count false := by
        have hsome : 0 < s'.vis.count false := List.count_pos_iff.mpr (hseen ▸ List.getElem_mem hin)
        rw [List.count_set hin, hseen]
        simp
        omega
      refine ⟨{ q := s'.q ++ [(v - x * x, step + 1)], vis := s'.vis.set (v - x * x) true },
        by simp [visit, hread, store_eq hin, hfits], new ++ [v - x * x],
        ?_, ?_, ?_, ?_, ?_, ?_⟩
      · simp [h.q]
      · intro y hy
        obtain hy | hy := List.mem_append.mp hy
        · exact h.joins y hy
        · exact ⟨x, hpos, by rw [List.mem_singleton.mp hy]; omega⟩
      · exact List.length_set.trans h.length
      · intro y
        rw [List.mem_append, List.mem_singleton, ← or_assoc, ← h.seen]
        exact hcells y
      · have hbefore := h.count
        rw [List.length_append, List.length_singleton]
        dsimp only
        omega
      · intro z y hz hless hy
        exact (hcells y).mpr ((honly z y hless hy).imp_left fun hlt => h.all z y hz hlt hy)

/-- No sum has left the queue that has nothing left over. -/
structure Inv (n : Nat) (Settled : Nat → Nat → Prop) (s : State) : Prop where
  layered : Layered (squares n) Settled (Seen s) s.q
  length : s.vis.length = n + 1
  unsettled : ∀ c, ¬Settled 0 c

theorem Inv.init {vis : List Bool} (hvis : store (List.replicate (n + 1) false) n true = some vis) :
    Inv n (fun _ _ => False) { q := [(n, 0)], vis } ∧ vis.count false = n := by
  have hin : n < (List.replicate (n + 1) false).length := by
    rw [List.length_replicate]
    exact Nat.lt_succ_self n
  obtain rfl := Option.some.inj ((store_eq hin).symm.trans hvis)
  have hseen : Seen { q := [(n, 0)], vis := (List.replicate (n + 1) false).set n true } =
      (· = n) := by
    funext y
    obtain rfl | hne := eq_or_ne n y
    · simp [Seen]
    · simp [Seen, List.getElem?_set_ne hne, hne.symm, List.getElem?_replicate]
  refine ⟨⟨?_, by rw [List.length_set, List.length_replicate], fun c h => h⟩, ?_⟩
  · rw [hseen]
    exact .init fun v c => Iff.rfl
  · rw [List.count_set hin, List.count_replicate_self]
    simp

theorem Inv.round {Settled : Nat → Nat → Prop} (h : Inv n Settled s) (hn : n < 46340 * 46340)
    (hfuel : n < fuel) :
    (∃ r : Int, round fuel s = some (.inr r) ∧ ∃ k : Nat, r = k ∧ Least n k) ∨
      ∃ s', round fuel s = some (.inl s') ∧ (∃ Settled, Inv n Settled s') ∧
        s'.vis.count false + s'.q.length < s.vis.count false + s.q.length := by
  obtain ⟨q, vis⟩ := s
  obtain _ | ⟨⟨v, step⟩, rest⟩ := q
  · have hsum : (squares n).Label 0 n := label_iff.mpr ⟨Nat.zero_le n, squareSum_self n⟩
    obtain ⟨c, -, hsettled⟩ := h.layered.exhausted hsum
    exact absurd hsettled (h.unsettled c)
  obtain rfl | hne := eq_or_ne v 0
  · left
    exact ⟨step, rfl, step, rfl, least_iff.mp (h.layered.least h.unsettled)⟩
  · right
    obtain ⟨hle, hsum⟩ := label_iff.mp (h.layered.label v step List.mem_cons_self)
    have hstep : step + 1 < 2 ^ 31 := by
      have hbound := hsum.le
      omega
    have hlength : vis.length = n + 1 := h.length
    have hvisit : ∀ x s', 0 < x → x * x ≤ v →
        (∃ new, Visits v step x { q := rest, vis } s' new) →
        ∃ s'', visit v step x s' = some s'' ∧
          ∃ new, Visits v step (x + 1) { q := rest, vis } s'' new :=
      fun x s' hpos hx ⟨new, hvisits⟩ => hvisits.next hpos hx (show v < vis.length by omega) hstep
    obtain ⟨s', hrun, x, hlarge, new, hvisits⟩ := forSquares_rule _ (hle.trans_lt hn)
      (hle.trans_lt hfuel) ⟨[], .first v step _⟩ hvisit
    refine ⟨s', by simp [MinSquare.round, hne, hrun],
      ⟨fun u c => Settled u c ∨ u = v ∧ c = step, ?_, ?_, ?_⟩, ?_⟩
    · rw [hvisits.q]
      refine h.layered.next (fun _ _ => rfl) hvisits.joins hvisits.seen fun z y hjoins => ?_
      obtain ⟨hpos, hy⟩ := hjoins
      have hless : z * z < x * x := by omega
      exact hvisits.all z y hpos (Nat.mul_self_lt_mul_self_iff.mp hless) hy
    · exact hvisits.length.trans hlength
    · rintro c (hsettled | ⟨hzero, -⟩)
      · exact h.unsettled c hsettled
      · exact hne hzero.symm
    · have hcount := hvisits.count
      dsimp only at hcount ⊢
      rw [hvisits.q, List.length_append, List.length_map, List.length_cons]
      dsimp only
      omega

theorem minSquareBfs_least (hn : n < 46340 * 46340) (hfuel : n + 1 < fuel) :
    ∃ r : Int, minSquareBfs fuel n = some r ∧ ∃ k : Nat, r = k ∧ Least n k := by
  have hin : n < (List.replicate (n + 1) false).length := by
    rw [List.length_replicate]
    exact Nat.lt_succ_self n
  have hvis := store_eq (a := true) hin
  have hsize : signedNat 32 (n + 1) = some (n + 1) :=
    signedNat_eq (show n + 1 < 2 ^ 31 by omega)
  obtain ⟨hinv, hcount⟩ := Inv.init hvis
  obtain ⟨r, hrun, hr⟩ := loop_total (fun s => ∃ Settled, Inv n Settled s)
    (fun s => s.vis.count false + s.q.length)
    (fun s ⟨_, hinv⟩ => hinv.round hn (show n < fuel by omega)) ⟨_, hinv⟩
    (show _ + 1 < fuel by rw [hcount]; exact hfuel)
  refine ⟨r, ?_, hr⟩
  simp only [minSquareBfs, hsize, Option.bind_eq_bind,
    Option.bind_some, hvis, hrun]

theorem minSquareBfs_overflow (hn : 46340 * 46340 ≤ n) : minSquareBfs fuel n = none := by
  have hloop : ∀ vis, loop (round fuel) fuel { q := [(n, 0)], vis } = none := by
    intro vis
    cases fuel with
    | zero => rfl
    | succ fuel =>
        have hne : n ≠ 0 := by omega
        simp [loop, round, hne, forSquares_overflow hn]
  simp only [minSquareBfs, hloop, Option.bind_eq_bind, Option.bind_fun_none]

/-- The two agree, as long as the squares that they look at fit in an `int`. -/
theorem minSquare_minSquareBfs (hn : 1 ≤ n) (hsmall : n < 46340 * 46340) (hfuel : n + 1 < fuel) :
    ∃ k : Nat, minSquare fuel n = some k ∧ minSquareBfs fuel n = some (k : Int) ∧
      IsLeast {k | SquareSum n k} k := by
  obtain ⟨k, hk, hleast⟩ := minSquare_least hn hsmall (show n < fuel by omega)
  obtain ⟨_, hrun, k', rfl, hleast'⟩ := minSquareBfs_least hsmall hfuel
  obtain rfl : k = k' := hleast.unique hleast'
  exact ⟨k, hk, hrun, hleast⟩

theorem minSquare_minSquareBfs_twelve :
    ∃ k : Nat, minSquare 14 12 = some k ∧ minSquareBfs 14 12 = some (k : Int) ∧
      IsLeast {k | SquareSum 12 k} k :=
  minSquare_minSquareBfs (by decide) (by decide) (by decide)

theorem minSquare_root : ¬∃ fuel, (∃ k, minSquare fuel (46340 * 46340) = some k) ∨
    ∃ r, minSquareBfs fuel (46340 * 46340) = some r := by
  rintro ⟨fuel, ⟨k, hrun⟩ | ⟨r, hrun⟩⟩
  · rw [minSquare_overflow (Nat.le_refl _)] at hrun
    cases hrun
  · rw [minSquareBfs_overflow (Nat.le_refl _)] at hrun
    cases hrun

end MinSquare

end MoreCpp
