import MoreCpp.Algorithms.MinMalwareSpread
import Mathlib.Algebra.BigOperators.Ring.Finset
import Mathlib.Data.Nat.Log

/-!
Any calls of the `dsu` in `min_malware_spread` of `algorithms/graphs/graphs.cpp`, one after
the other. `none` is as there: a recursion of `get` that is deeper than `fuel`, or an entry
of `e` that is no vertex.
-/

namespace MoreCpp

open Function Library Relation

namespace MinMalwareSpread

variable {n : Nat}

def init (n : Nat) : Fin n → Int := fun _ => -1

/-- `sameSet`. The order of the two calls of `get` is left open in the source: with `x` and
`y` exchanged this is the other one. -/
def sameSet (fuel : Nat) (e : Fin n → Int) (x y : Fin n) : Option (Int × (Fin n → Int)) := do
  let (x, e) ← get fuel e x
  let (y, e) ← get fuel e y
  return (if x = y then 1 else 0, e)

inductive Call (n : Nat)
  | get (x : Fin n)
  | sameSet (x y : Fin n)
  | size (x : Fin n)
  | unite (x y : Fin n)

/-- What a call leaves in `e`. -/
def Call.run (fuel : Nat) (e : Fin n → Int) : Call n → Option (Fin n → Int)
  | get x => (MinMalwareSpread.get fuel e x).map Prod.snd
  | sameSet x y => (MinMalwareSpread.sameSet fuel e x y).map Prod.snd
  | size x => (MinMalwareSpread.size fuel e x).map Prod.snd
  | unite x y => (MinMalwareSpread.unite fuel e x y).map Prod.snd

/-- Some call has been `unite` of the two. -/
def Joined (calls : List (Call n)) (x y : Fin n) : Prop := Call.unite x y ∈ calls

/-- The elements that the calls have connected with `x`. -/
def connected (calls : List (Call n)) (x : Fin n) : Set (Fin n) :=
  {y | EqvGen (Joined calls) x y}

/-- Following `k` links of `e` from `x` comes to the root `r`. -/
inductive Chain (e : Fin n → Int) : Fin n → Nat → Fin n → Prop
  | root {r : Fin n} (hr : e r < 0) : Chain e r 0 r
  | link {x y r : Fin n} {k : Nat} (hx : e x = y.val) (hchain : Chain e y k r) :
      Chain e x (k + 1) r

variable {e : Fin n → Int} {p : Fin n → Fin n} {R : Fin n → Fin n → Prop} {fuel : Nat}
  {x y : Fin n}

/-! ## One call -/

theorem sameSet_spec (h : Holds e p R) (hfuel : n ≤ fuel) (x y : Fin n) :
    ∃ e' p', sameSet fuel e x y = some (if root p x = root p y then 1 else 0, e') ∧
      Holds e' p' R ∧ (DisjointSets.Ranked p → DisjointSets.Ranked p') := by
  obtain ⟨e₁, p₁, hget, h₁, hroot, hranked⟩ := get_rule h hfuel x
  obtain ⟨e₂, p₂, hget', h₂, -, hranked'⟩ := get_rule h₁ hfuel y
  refine ⟨e₂, p₂, ?_, h₂, fun hp => hranked' (hranked hp)⟩
  rw [sameSet, hget, Option.bind_eq_bind, Option.bind_some]
  dsimp only
  rw [hget', hroot]
  rfl

/-- A call keeps the trees, and only `unite` joins sets. -/
theorem Call.run_spec (h : Holds e p R) (hp : DisjointSets.Ranked p) (hfuel : n ≤ fuel)
    (call : Call n) : ∃ e' p', call.run fuel e = some e' ∧
      (Holds e' p' fun u v => R u v ∨ call = .unite u v) ∧ DisjointSets.Ranked p' := by
  have hidle : ∀ {e' p'}, (∀ u v, call ≠ .unite u v) → Holds e' p' R →
      Holds e' p' fun u v => R u v ∨ call = .unite u v :=
    fun hcall h' => h'.congr fun u v => (or_iff_left (hcall u v)).symm
  cases call with
  | get x =>
      obtain ⟨e', p', hget, h', -, hranked⟩ := get_rule h hfuel x
      refine ⟨e', p', ?_, hidle nofun h', hranked hp⟩
      rw [run, hget]
      rfl
  | sameSet x y =>
      obtain ⟨e', p', hsame, h', hranked⟩ := sameSet_spec h hfuel x y
      refine ⟨e', p', ?_, hidle nofun h', hranked hp⟩
      rw [run, hsame]
      rfl
  | size x =>
      obtain ⟨e', p', hget, h', -, hranked⟩ := get_rule h hfuel x
      refine ⟨e', p', ?_, hidle nofun h', hranked hp⟩
      rw [run, MinMalwareSpread.size, hget]
      rfl
  | unite x y =>
      obtain ⟨e', p', hunite, h', hranked⟩ := unite_rule h hfuel x y
      refine ⟨e', p', ?_, h'.congr fun u v => ?_, hranked hp⟩
      · rw [run, hunite]
        rfl
      · rw [unite.injEq]
        grind

/-! ## All calls -/

theorem calls_rule (calls : List (Call n)) (hfuel : n ≤ fuel) :
    ∃ e, calls.foldlM (Call.run fuel) (init n) = some e ∧
      ∃ p, Holds e p (Joined calls) ∧ DisjointSets.Ranked p := by
  apply foldlM_rule fun seen e => ∃ p, Holds e p (Joined seen) ∧ DisjointSets.Ranked p
  · exact ⟨id, Holds.singletons.congr fun u v => by simp [Joined], DisjointSets.ranked_id⟩
  · rintro seen call rest e - ⟨p, h, hp⟩
    obtain ⟨e', p', hrun, h', hp'⟩ := call.run_spec h hp hfuel
    refine ⟨e', hrun, p', h'.congr fun u v => ?_, hp'⟩
    rw [Joined, Joined, List.mem_append, List.mem_singleton, eq_comm]

namespace Holds

/-- The chain grows by a link where the rank grows by one at least. -/
theorem chain (h : Holds e p R) {rank : Fin n → Nat} (hgrow : ∀ x, p x ≠ x → rank x < rank (p x))
    (x : Fin n) : ∃ k, Chain e x k (root p x) ∧ k + rank x ≤ rank (root p x) := by
  apply h.sets.forest.induction
    (P := fun x => ∃ k, Chain e x k (root p x) ∧ k + rank x ≤ rank (root p x))
  · intro x hx
    rw [root_eq_self hx]
    exact ⟨0, .root (h.neg_iff.mpr hx), by omega⟩
  · rintro x hx ⟨k, hchain, hle⟩
    rw [h.sets.forest.root_parent] at hchain hle
    have hless := hgrow x hx
    exact ⟨k + 1, .link (h.parent x hx) hchain, by omega⟩

theorem sum_neg (h : Holds e p R) : ∑ x ∈ Finset.univ.filter (fun x => e x < 0), e x = -n := by
  have hroots : Finset.univ.filter (fun x => e x < 0) = Finset.univ.filter fun x => p x = x :=
    Finset.filter_congr fun x _ => h.neg_iff
  have htotal := DisjointSets.sum_members h.sets.forest
  rw [Fintype.card_fin] at htotal
  calc ∑ x ∈ Finset.univ.filter (fun x => e x < 0), e x
      = ∑ x ∈ Finset.univ.filter (fun x => p x = x), -((DisjointSets.members p x).card : Int) := by
        rw [hroots]
        exact Finset.sum_congr rfl fun x hx => h.size x (Finset.mem_filter.mp hx).2
    _ = -n := by rw [Finset.sum_neg_distrib, ← Nat.cast_sum, htotal]

/-- All entries are of the size of the vector. -/
theorem entry (h : Holds e p R) (x : Fin n) : -(n : Int) ≤ e x ∧ e x < n := by
  by_cases hx : p x = x
  · have hle : (DisjointSets.members p x).card ≤ n := by
      simpa using Finset.card_le_univ (DisjointSets.members p x)
    rw [h.size x hx]
    have hpos := x.isLt
    omega
  · have hlt := (p x).isLt
    rw [h.parent x hx]
    omega

end Holds

theorem connected_eq {calls : List (Call n)} (h : Holds e p (Joined calls)) (x : Fin n) :
    (connected calls x).ncard = (DisjointSets.members p (root p x)).card := by
  rw [← Set.ncard_coe_finset]
  congr 1
  ext z
  rw [Finset.mem_coe, DisjointSets.mem_members, h.sets.same]
  exact ⟨.symm _ _, .symm _ _⟩

/-- What `e` says, and what the next call returns, after the calls. -/
structure Answers (fuel : Nat) (calls : List (Call n)) (e : Fin n → Int) : Prop where
  get : ∃ r : Fin n → Fin n, (∀ x, ∃ e', get fuel e x = some (r x, e')) ∧
    (∀ x y, r x = r y ↔ EqvGen (Joined calls) x y) ∧
    ∀ x, ∃ k, Chain e x k (r x) ∧ k ≤ Nat.log 2 (connected calls x).ncard
  sameSet : ∀ x y, ∃ same e', sameSet fuel e x y = some (same, e') ∧
    (same ≠ 0 ↔ EqvGen (Joined calls) x y)
  size : ∀ x, ∃ e', size fuel e x = some (((connected calls x).ncard : Int), e')
  unite : ∀ x y, ∃ joined e', unite fuel e x y = some (joined, e') ∧
    (joined = true ↔ ¬ EqvGen (Joined calls) x y)
  sum : ∑ x ∈ Finset.univ.filter (fun x => e x < 0), e x = -n
  entry : ∀ x, -(n : Int) ≤ e x ∧ e x < n

theorem Holds.answers {calls : List (Call n)} (h : Holds e p (Joined calls))
    (hp : DisjointSets.Ranked p) (hfuel : n ≤ fuel) : Answers fuel calls e where
  get := by
    refine ⟨root p, fun x => ?_, h.sets.same, fun x => ?_⟩
    · obtain ⟨e', p', hget, -⟩ := get_rule h hfuel x
      exact ⟨e', hget⟩
    · obtain ⟨rank, hgrow, hlarge⟩ := hp
      obtain ⟨k, hchain, hle⟩ := h.chain hgrow x
      have hroot := hlarge _ (h.sets.forest.parent_root x)
      rw [connected_eq h]
      refine ⟨k, hchain, Nat.le_log_of_pow_le (by decide) ?_⟩
      calc 2 ^ k ≤ 2 ^ rank (root p x) := Nat.pow_le_pow_right (by decide) (by omega)
        _ ≤ _ := hroot
  sameSet x y := by
    obtain ⟨e', p', hsame, -⟩ := sameSet_spec h hfuel x y
    refine ⟨_, e', hsame, ?_⟩
    rw [← h.sets.same]
    simp
  size x := by
    obtain ⟨e', p', hsize, -⟩ := size_spec h hfuel x
    rw [connected_eq h]
    exact ⟨e', hsize⟩
  unite x y := by
    obtain ⟨e', p', hunite, -⟩ := unite_rule h hfuel x y
    refine ⟨_, e', hunite, ?_⟩
    rw [decide_eq_true_eq, Ne, h.sets.same]
  sum := h.sum_neg
  entry := h.entry

/-- With fuel for the deepest tree there can be, whatever the calls have been. -/
theorem dsu_answers (calls : List (Call n)) (fuel : Nat) (hfuel : n ≤ fuel) :
    ∃ e, calls.foldlM (Call.run fuel) (init n) = some e ∧ Answers fuel calls e := by
  obtain ⟨e, hrun, p, h, hp⟩ := calls_rule calls hfuel
  exact ⟨e, hrun, h.answers hp hfuel⟩

theorem dsu_answers_four : ∃ e,
    [Call.unite (0 : Fin 4) 1, .unite 2 3, .unite 3 1, .get 2].foldlM (Call.run 4) (init 4) =
      some e ∧ Answers 4 [.unite 0 1, .unite 2 3, .unite 3 1, .get 2] e :=
  dsu_answers _ 4 le_rfl

end MinMalwareSpread

end MoreCpp
