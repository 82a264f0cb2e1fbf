import MoreCpp.Library.Cells
import MoreCpp.Library.Subsequences
import MoreCpp.Library.Letters
import MoreCpp.Library.Loop

/-!
`count_distinct_subseq` of `algorithms/strings/strings.cpp`, with integers of any size. An
index out of range gives `none`.
-/

namespace MoreCpp

open Library

namespace CountDistinctSubseq

/-- `cells[i]` for an index that can be negative. -/
def readAt (cells : List Int) (i : Int) : Option Int :=
  if 0 ≤ i then cells[i.toNat]? else none

def writeAt (cells : List Int) (i a : Int) : Option (List Int) :=
  if 0 ≤ i then store cells i.toNat a else none

/-- A turn of the loop, with `dp` and `last`. -/
def round (s : List Char) (i : Nat) : List Int × List Int → Option (List Int × List Int)
  | (dp, last) => do
    let c ← s[i - 1]?
    let before ← dp[i - 1]?
    let dp ← store dp i (2 * before)
    let p ← readAt last (letter c)
    let dp ← (if p ≠ -1 then do
        let twice ← dp[i]?
        let counted ← readAt dp p
        store dp i (twice - counted)
      else some dp)
    let last ← writeAt last (letter c) ((i : Int) - 1)
    return (dp, last)

def countDistinctSubseq (s : List Char) : Option Int := do
  let n := s.length
  let dp ← store (List.replicate (n + 1) 0) 0 1
  let last := List.replicate 26 (-1)
  let (dp, _) ← forRange 1 (n + 1) (round s) (dp, last)
  dp[n]?

variable {s w x y : List Char} {dp last : List Int} {c d : Char} {i : Nat} {p : Int}

/-! ## Arrays -/

theorem readAt_natCast (cells : List Int) (i : Nat) : readAt cells i = cells[i]? :=
  if_pos (Int.natCast_nonneg i)

theorem writeAt_natCast {cells : List Int} (hi : i < cells.length) (a : Int) :
    writeAt cells i a = some (cells.set i a) := by
  rw [writeAt, if_pos (Int.natCast_nonneg i), Int.toNat_natCast, store_eq hi]

/-- Where `c` stands last, or -1. -/
inductive LastAt (c : Char) (w : List Char) : Int → Prop
  | never (h : c ∉ w) : LastAt c w (-1)
  | stands (x y : List Char) (hw : w = x ++ c :: y) (h : c ∉ y) : LastAt c w x.length

theorem LastAt.concat (h : LastAt c w p) (hne : c ≠ d) : LastAt c (w ++ [d]) p := by
  cases h with
  | never h => exact .never (by simp [h, hne])
  | stands x y hw h => exact .stands x (y ++ [d]) (by simp [hw]) (by simp [h, hne])

/-- How many subsequences the first `i` characters have. -/
def count (s : List Char) (i : Nat) : Nat := (subsequences (s.take i)).card

/-- What holds once `i` characters are read. -/
structure Counted (s : List Char) (i : Nat) (state : List Int × List Int) : Prop where
  size : state.1.length = s.length + 1
  counts : ∀ k ≤ i, state.1[k]? = some (count s k : Int)
  letters : state.2.length = 26
  last : ∀ c, c.isLower → ∃ p, state.2[letterIndex c]? = some p ∧ LastAt c (s.take i) p

theorem count_succ_never (hread : s[i]? = some c) (h : c ∉ s.take i) :
    count s (i + 1) = 2 * count s i := by
  unfold count
  rw [List.take_add_one, hread]
  exact card_subsequences_new h

theorem count_succ_stands (hread : s[i]? = some c) (hw : s.take i = x ++ c :: y) (h : c ∉ y) :
    count s (i + 1) + count s x.length = 2 * count s i := by
  have hlength : x.length ≤ i := by
    have hcut := congrArg List.length hw
    rw [List.length_take, List.length_append, List.length_cons] at hcut
    omega
  have hx : s.take x.length = x := by
    have hcut := congrArg (List.take x.length) hw
    rwa [List.take_take, Nat.min_eq_left hlength, List.take_left] at hcut
  unfold count
  rw [hx, List.take_add_one, hread]
  exact card_subsequences_again h hw

namespace Counted

theorem start :
    Counted s 0 ((List.replicate (s.length + 1) 0).set 0 1, List.replicate 26 (-1)) := by
  refine ⟨by simp, fun k hk => ?_, List.length_replicate, fun c hc => ⟨-1, ?_, .never (by simp)⟩⟩
  · obtain rfl := Nat.le_zero.mp hk
    simp [count, subsequences]
  · rw [List.getElem?_replicate, if_pos (letterIndex_lt hc)]

/-- A turn counts the subsequences of one more character. -/
theorem round_eq (h : Counted s i (dp, last)) (hread : s[i]? = some c) (hc : c.isLower) :
    round s (i + 1) (dp, last) = some
      (dp.set (i + 1) (count s (i + 1)), last.set (letterIndex c) i) := by
  have hi : i < s.length := (List.getElem?_eq_some_iff.mp hread).1
  have hsize : i + 1 < dp.length := h.size ▸ Nat.succ_lt_succ hi
  have hlast : letterIndex c < last.length := h.letters ▸ letterIndex_lt hc
  have hbefore := h.counts i (Nat.le_refl i)
  obtain ⟨p, hp, hat⟩ := h.last c hc
  dsimp only at hp hbefore
  have hindex : readAt last (letter c) = some p := by
    rw [letter_eq_letterIndex hc, readAt_natCast, hp]
  have hwrite : writeAt last (letter c) i = some (last.set (letterIndex c) i) := by
    rw [letter_eq_letterIndex hc, writeAt_natCast hlast]
  cases hat with
  | never hnever =>
      have hcount := count_succ_never hread hnever
      simp [round, hread, hbefore, store_eq hsize, hindex, hwrite, hcount]
  | stands x y hw hy =>
      have hcount := count_succ_stands hread hw hy
      have hless : x.length < i + 1 := by
        have hcut := congrArg List.length hw
        rw [List.length_take, List.length_append, List.length_cons] at hcut
        omega
      have hcounted := h.counts x.length (Nat.le_of_lt_succ hless)
      have hvalue : (count s (i + 1) : Int) = 2 * count s i - count s x.length := by omega
      have hreadAt : readAt (dp.set (i + 1) (2 * count s i)) x.length =
          some (count s x.length : Int) := by
        rw [readAt_natCast, List.getElem?_set_ne (Nat.ne_of_gt hless)]
        exact hcounted
      have hpos : ((x.length : Nat) : Int) ≠ -1 := by omega
      simp [round, hread, hbefore, store_eq, hsize, hindex, hwrite, hpos, hreadAt, hvalue]

theorem next (h : Counted s i (dp, last)) (hread : s[i]? = some c) (hc : c.isLower) :
    Counted s (i + 1) (dp.set (i + 1) (count s (i + 1)), last.set (letterIndex c) i) := by
  have hi : i < s.length := (List.getElem?_eq_some_iff.mp hread).1
  have htake : s.take (i + 1) = s.take i ++ [c] := by rw [List.take_add_one, hread]; rfl
  constructor
  case size => exact (List.length_set ..).trans h.size
  case counts =>
    intro k hk
    obtain hlt | rfl := Nat.lt_or_eq_of_le hk
    · rw [List.getElem?_set_ne (Nat.ne_of_gt hlt)]
      exact h.counts k (Nat.le_of_lt_succ hlt)
    · have hsize : i + 1 < dp.length := h.size ▸ Nat.succ_lt_succ hi
      rw [List.getElem?_set_self hsize]
  case letters => exact (List.length_set ..).trans h.letters
  case last =>
    intro d hd
    rw [htake]
    obtain rfl | hne := eq_or_ne d c
    · have hlast : letterIndex d < last.length := h.letters ▸ letterIndex_lt hc
      have hlength : (s.take i).length = i := List.length_take_of_le (Nat.le_of_lt hi)
      refine ⟨i, List.getElem?_set_self hlast, ?_⟩
      have hstands : LastAt d (s.take i ++ [d]) (s.take i).length :=
        .stands _ [] rfl List.not_mem_nil
      rwa [hlength] at hstands
    · obtain ⟨p, hp, hat⟩ := h.last d hd
      refine ⟨p, ?_, hat.concat hne⟩
      rw [List.getElem?_set_ne fun heq => hne (letterIndex_inj hd hc heq.symm)]
      exact hp

end Counted

theorem countDistinctSubseq_eq (s : List Char) (hlower : ∀ c ∈ s, c.isLower) :
    countDistinctSubseq s = some (s.sublists.toFinset.card : Int) := by
  have hloop : ∃ state, forRange 1 (s.length + 1) (round s)
      ((List.replicate (s.length + 1) 0).set 0 1, List.replicate 26 (-1)) = some state ∧
      Counted s (max 1 (s.length + 1) - 1) state := by
    refine forRange_rule (fun i => Counted s (i - 1)) Counted.start ?_
    intro i state hpos hi h
    obtain ⟨i, rfl⟩ := Nat.exists_eq_add_of_le' hpos
    have hi : i < s.length := Nat.lt_of_succ_lt_succ hi
    have hread := List.getElem?_eq_getElem hi
    have hc := hlower s[i] (List.getElem_mem hi)
    exact ⟨_, h.round_eq hread hc, h.next hread hc⟩
  obtain ⟨⟨dp, last⟩, hrun, hcounted⟩ := hloop
  have hend : max 1 (s.length + 1) - 1 = s.length := by omega
  have hresult := hcounted.counts s.length (Nat.le_of_eq hend.symm)
  rw [count, List.take_length] at hresult
  have hstore : store (List.replicate (s.length + 1) (0 : Int)) 0 1 =
      some ((List.replicate (s.length + 1) 0).set 0 1) := store_eq (by simp)
  simp only [countDistinctSubseq, hstore, hrun, hresult, Option.bind_eq_bind, Option.bind_some]
  rfl

theorem countDistinctSubseq_eq_repeated : (∀ c ∈ ['a', 'b', 'a'], c.isLower) ∧
    countDistinctSubseq ['a', 'b', 'a'] = some (['a', 'b', 'a'].sublists.toFinset.card : Int) :=
  ⟨by simp, countDistinctSubseq_eq ['a', 'b', 'a'] (by simp)⟩

end CountDistinctSubseq

end MoreCpp
